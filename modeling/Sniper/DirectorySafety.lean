import Sniper.DirectoryInvariant

/-! # Runs of the directory protocol -/

namespace Sniper.Coherence
open FallibleRuns NotedRuns NotedRuns.Noted Function List

namespace DirectorySystem

variable {n : ℕ} {δ : Type} {cfg : DirectoryConfig} {s s' : DirectorySystem n δ} {a : ℕ} {c : Fin n}
  {starved : Prop}

section

variable (h : s.Inv cfg)
include h

theorem Inv.setLine {l : Line δ}
    (hrests : ({s.blocks a with lines:=update (s.blocks a).lines c l} : Block n δ).Rests cfg) :
    (s.setLine c a l).Inv cfg := by
  refine ⟨h.toBase.setBlock a _,fun b => ?_⟩
  by_cases hb : b=a
  · subst hb
    have hinv := h.blocks b
    exact .of_block (setBlock_blocks_self s b _) hrests hinv.reads hinv.absent hinv.nullified
      hinv.overflow
  · exact (touches_setBlock s a _).blockInv hb (h.blocks b)

theorem Inv.takeDram {toDram : List (DramMsg δ)} {replies : List δ} (memory : ℕ → δ)
    (hreads : unread toDram+replies.length=unread (s.blocks a).toDram+(s.fromDram a).length) :
    ({ s.setBlock a {s.blocks a with toDram} with
        memory,fromDram := update s.fromDram a replies } : DirectorySystem n δ).Inv cfg := by
  refine ⟨⟨h.config,h.entries.congr rfl rfl rfl,h.ways⟩,fun b => ?_⟩
  by_cases hb : b=a
  · subst hb
    have hinv := h.blocks b
    refine .of_block (setBlock_blocks_self s b _) (hinv.rests.withDram toDram) ?_ hinv.absent
      hinv.nullified hinv.overflow
    rw [show DirectorySystem.fromDram _ b=replies from update_self ..]
    exact hreads.trans hinv.reads
  · exact (h.blocks b).frame (setBlock_blocks_of_ne s _ hb) (update_of_ne hb ..) id Iff.rfl

theorem Inv.dram (a : ℕ) : (s.dram a).Inv cfg := by
  rw [DirectorySystem.dram]
  cases hdram : (s.blocks a).toDram with
  | nil => exact h
  | cons m rest =>
    cases m with
    | readReq =>
      have hreads : unread rest+(s.fromDram a++[s.memory a]).length =
          unread (s.blocks a).toDram+(s.fromDram a).length := by
        rw [hdram,unread,unread,countP_cons_of_pos rfl,length_append,length_singleton]
        omega
      exact h.takeDram s.memory hreads
    | writeReq data =>
      have hreads : unread rest+(s.fromDram a).length =
          unread (s.blocks a).toDram+(s.fromDram a).length := by
        rw [hdram,unread,unread,countP_cons_of_neg (by simp)]
      have hsame := h.takeDram (update s.memory a data) hreads
      rw [update_eq_self] at hsame
      exact hsame

theorem Inv.getDirectoryEntry (a : ℕ) (forwarder : Option (Fin n)) :
    ∃found s',s.getDirectoryEntry a forwarder=(found,s') ∧ s'.Inv cfg ∧ (s'.Present a → found=true) ∧
      (s'=s ∨ s'.Slotted a ∧ (s'.blocks a).queue=[] ∧ (s'.blocks a).lines=(s.blocks a).lines) := by
  by_cases hin : s.Slotted a
  · exact ⟨true,s,getDirectoryEntry_slotted hin _,h,fun _ => rfl,Or.inl rfl⟩
  by_cases hfree : none∈s.slots (s.setIndex a)
  · have ha : a∉s.replaced := fun ha => (h.entries.crowded a ha).2 hfree
    have hinv := h.blocks a
    obtain ⟨hu,hqueue⟩:=hinv.absent (not_or.mpr ⟨hin,ha⟩)
    have hbase : (s.seat none a).Base cfg := ⟨h.config,h.entries.fill hfree hin,h.ways⟩
    have hblock := setBlock_blocks_self (s.seat none a) a ((s.blocks a).withEntry (.new forwarder))
    refine ⟨true,_,getDirectoryEntry_free hin hfree _,⟨hbase.setBlock a _,fun b => ?_⟩,fun _ => rfl,
      Or.inr ⟨seat_slotted_self hfree hin,?_,?_⟩⟩
    · by_cases hb : b=a
      · subst hb
        exact .of_block hblock (hinv.rests.freshEntry hu hqueue _) hinv.reads
          (fun hout => absurd (Or.inl (seat_slotted_self hfree hin)) hout) hinv.nullified hinv.overflow
      · exact (h.blocks b).frame (setBlock_blocks_of_ne _ _ hb) rfl
          (present_seat hfree hb (by simp)) Iff.rfl
    · rw [freshEntry,show (s.seat none a).blocks a=s.blocks a from rfl,hblock]
      exact hqueue
    · rw [freshEntry,show (s.seat none a).blocks a=s.blocks a from rfl,hblock]
      rfl
  · refine ⟨_,s,getDirectoryEntry_crowded ⟨hin,hfree⟩ _,h,fun hpresent => ?_,Or.inl rfl⟩
    exact decide_eq_true (hpresent.resolve_left hin)

theorem Inv.handled_rests {x : Block n δ} (hrests : x.Rests cfg) (hdram : x.toDram=(s.blocks a).toDram)
    (hfront : Block.SameFront (s.blocks a).queue x.queue) (hpresent : s.Present a) :
    (s.setBlock a x).Inv cfg := by
  refine ⟨h.toBase.setBlock a _,fun b => ?_⟩
  by_cases hb : b=a
  · subst hb
    have hinv := h.blocks b
    refine .of_block (setBlock_blocks_self s b x) hrests ?_ (fun hout => absurd hpresent hout)
      (hinv.nullified.trans hfront.nullify.symm) fun hroom => hfront.overflow (hinv.overflow hroom)
    rw [hdram,hfront.reads]
    exact hinv.reads
  · exact (touches_setBlock s a _).blockInv hb (h.blocks b)

theorem Inv.handled_ready {x : Block n δ} {cached : Option δ} (hready : x.Ready cfg cached)
    (hqueue : x.queue≠[]) (hdram : x.toDram=(s.blocks a).toDram)
    (hfront : Block.SameFront (s.blocks a).queue x.queue) (htail : x.queue.tail=(s.blocks a).queue.tail)
    (habsent : ¬ s.Present a → x.entry.dstate = .uncached)
    (hvictim : s.NeedsVictim a → s.HasVictim a ∨ starved) : (s.setBlock a x).Working cfg starved a cached := by
  have hinv := h.blocks a
  have hreads : unread (s.blocks a).toDram+(s.fromDram a).length=0 := by
    obtain ⟨r,rest,hr⟩:=exists_cons_of_ne_nil hqueue
    have hzero : awaitedReads x.queue=0 := by
      simp [awaitedReads,hr,hready.waits hr]
    rw [hinv.reads,← hfront.reads,hzero]
  refine ⟨h.toBase.setBlock a _,fun b hb => (touches_setBlock s a _).blockInv hb (h.blocks b),?_,?_,?_,?_,?_,?_,
    fun hneeds => ?_⟩
  · rwa [setBlock_blocks_self]
  · rwa [setBlock_blocks_self]
  · rw [setBlock_blocks_self,hdram]
    have hnone : (s.fromDram a).length=0 := by omega
    exact ⟨by omega,length_eq_zero_iff.mp hnone⟩
  · rwa [setBlock_blocks_self]
  · rw [setBlock_blocks_self]
    exact hinv.nullified.trans hfront.nullify.symm
  · rw [setBlock_blocks_self]
    exact fun hroom => hfront.overflow (hinv.overflow hroom)
  · obtain ⟨hcrowded,hmore⟩:=hneeds
    rw [setBlock_blocks_self,htail] at hmore
    exact (hvictim ⟨hcrowded,hmore⟩).imp_left ((touches_setBlock s a _).hasVictim hcrowded.1)

end

theorem noteRequest_prepared (s : DirectorySystem n δ) (m : DirectoryMsg δ)
    {event : RequestType → DirectoryEvent n δ} (h : ∀type a cached u,event type ≠ .process a cached u) :
    (s.noteRequest m event).Meets (Prepared cfg) (fun _ => True) starved := by
  rw [noteRequest]
  cases m.request with
  | none => exact meets_pure trivial
  | some type => exact .note_bind (prepared_of_ne (h type)) (meets_pure trivial)

theorem Inv.handleMsgNoted (h : s.Inv cfg) (hmax : 0<cfg.maxHwSharers) {m : DirectoryMsg δ}
    (hmsg : ((s.blocks a).lines c).toDirectory.head?=some m)
    (htied : m = .invRep → (s.blocks a).OverflowTied c) (hvictim : s.Displaces c a → s.HasVictim a ∨ starved)
    (u : ℕ → Unspecified n δ) : (s.handleMsgFromL2CacheNoted c a u m).Meets (Prepared cfg)
    (fun s' => s'.Inv cfg) starved := by
  obtain ⟨found,s₁,hget,h₁,hfound,hcase⟩:=h.getDirectoryEntry a (u ((s.blocks a).queue.length+1)).forwarder
  have hinv := h₁.blocks a
  -- a free entry is taken only for a block without a request, where nothing is asked of anyone
  obtain ⟨hmsg₁,htied₁,hvictim₁⟩ : ((s₁.blocks a).lines c).toDirectory.head?=some m ∧
      (m = .invRep → (s₁.blocks a).OverflowTied c) ∧
      (s₁.Displaces c a → s₁.HasVictim a ∨ starved) := by
    rcases hcase with rfl | ⟨hin,hempty,hlines⟩
    · exact ⟨hmsg,htied,hvictim⟩
    · refine ⟨hlines ▸ hmsg,fun _ r hr => ?_,fun hneeds => absurd hin hneeds.1.1.1⟩
      rw [hempty] at hr
      cases hr
  have hreply : m.isReply=true → s₁.Present a := fun hm => by
    by_contra hout
    exact hinv.rests.reply_cached hmsg₁ hm (hinv.absent hout).1
  obtain ⟨handled,hok,hdram,hkeeps⟩:=hinv.rests.handleMsg hmsg₁ htied₁
  obtain ⟨hfront,htail⟩ : Block.KeepsQueue (s₁.blocks a).queue handled:=
    Block.handleMsg_keepsQueue (b:=(s₁.blocks a).popMessage c) hok
  have hreq : s₁.Present a ∨ handled.block.entry.dstate = .uncached ∧ handled.work.isSome := by
    by_cases hpresent : s₁.Present a
    · exact Or.inl hpresent
    · obtain ⟨hu,hempty⟩:=hinv.absent hpresent
      obtain ⟨hentry,hwork⟩:=Block.handleMsg_request hok
        (Bool.eq_false_of_not_eq_true fun hm => hpresent (hreply hm))
      exact Or.inr ⟨hentry ▸ hu,hwork hempty⟩
  rw [handleMsgFromL2CacheNoted,hget]
  refine .note_bind (prepared_of_ne (by simp)) ?_
  simp only
  rw [if_neg fun hfail => by simp [hfound (hreply hfail.1)] at hfail]
  refine (noteRequest_prepared s₁ m (by simp)).bind fun _ _ _ => ?_
  rw [hok,quiet_ok_bind]
  refine .quiet_bind (Q:=fun t => Written (s₁.setBlock a handled.block) t) ?_ fun t _ ht => ?_
  · cases handled.writeBack with
    | none => exact yields_ok (.refl _) _
    | some data =>
      obtain ⟨t,hwrite,ht⟩:=sendDataToDram_written (h₁.toBase.setBlock a handled.block).ways a data
        (u ((s.blocks a).queue.length+1))
      exact Or.inl ⟨t,hwrite,ht⟩
  · cases hwork : handled.work with
    | none =>
      rw [hwork] at hkeeps hreq
      refine meets_pure (ht.inv (h₁.handled_rests hkeeps hdram hfront ?_))
      exact hreq.resolve_right fun hno => absurd hno.2 Bool.false_ne_true
    | some cached =>
      have hsome : handled.work.isSome := by rw [hwork]; rfl
      rw [hwork] at hkeeps
      have hneeds : s₁.NeedsVictim a → s₁.HasVictim a ∨ starved := fun hneeds =>
        hvictim₁ ⟨hneeds,m,hmsg₁,Block.handleMsg_needsEntry (b:=(s₁.blocks a).popMessage c) hok hsome fun hm =>
          hinv.nullified.mp ((hreply hm).resolve_left hneeds.1.1)⟩
      have hworking := ht.working (h₁.handled_ready hkeeps.1 hkeeps.2 hdram hfront (htail hsome)
        (fun hout => (hreq.resolve_left hout).1) hneeds)
      exact (noteRequest_prepared t m (by simp)).bind fun _ _ _ => hworking.workNoted hmax u _ le_rfl

theorem Inv.dramReplyNoted (h : s.Inv cfg) (hmax : 0<n → 0<cfg.maxHwSharers) {data : δ} {replies : List δ}
    (hdata : s.fromDram a=data::replies) (u : ℕ → Unspecified n δ) :
    (({s with fromDram:=update s.fromDram a replies} :
      DirectorySystem n δ).processDRAMReplyNoted a u data).Meets (Prepared cfg)
        (fun s' => s'.Inv cfg) starved := by
  have hinv := h.blocks a
  have hreads := hinv.reads
  rw [hdata,length_cons] at hreads
  -- one read is awaited, so this is the only reply
  obtain ⟨r,rest,hqueue,hwait⟩ : ∃r rest,(s.blocks a).queue=r::rest ∧ r.waitForData=true := by
    cases hqueue : (s.blocks a).queue with
    | nil => simp [hqueue,awaitedReads] at hreads
    | cons r rest =>
      refine ⟨r,rest,rfl,?_⟩
      by_contra hwait
      simp [hqueue,awaitedReads,hwait] at hreads
  have hone : awaitedReads (s.blocks a).queue=1 := by simp [awaitedReads,hqueue,hwait]
  have hnone : replies=[] := length_eq_zero_iff.mp (by omega)
  have hunread : unread (s.blocks a).toDram=0 := by omega
  have ha : a∉s.replaced := fun ha => by
    obtain ⟨q,hq,ht⟩:=hinv.nullified.mp ha
    rw [hqueue] at hq
    cases hq
    cases hinv.rests.waits r (by rw [hqueue]; rfl) with
    | data _ _ fetches =>
      rw [ht] at fetches
      exact fetches
    | forward _ wait => exact absurd (hwait.symm.trans wait) (by decide)
    | replies wait => exact absurd (hwait.symm.trans wait) (by decide)
  have hin : s.Slotted a := by
    by_contra hout
    have hempty := (hinv.absent (not_or.mpr ⟨hout,ha⟩)).2
    rw [hqueue] at hempty
    cases hempty
  obtain ⟨x,hok,hdram,hsame,hsettled⟩:=hinv.rests.dramReply hqueue hwait data
  obtain ⟨t,ht⟩ : ∃t,t=({s with fromDram:=update s.fromDram a replies} :
    DirectorySystem n δ) := ⟨_,rfl⟩
  have hblocks : t.blocks=s.blocks := ht ▸ rfl
  have hbase : t.Base cfg := ht ▸ ⟨h.config,h.entries.congr rfl rfl rfl,h.ways⟩
  have hfrom : t.fromDram a=[] := by
    rw [ht,← hnone]
    exact update_self ..
  have hothers : ∀b≠a,t.BlockInv cfg b := fun b hb =>
    ht ▸ (h.blocks b).frame rfl (update_of_ne hb ..) id Iff.rfl
  have hin' : t.Slotted a := ht ▸ hin
  have ha' : a∉t.replaced := ht ▸ ha
  have hserved : (t.setBlock a x).Served cfg starved a := by
    refine ⟨hbase.setBlock a _,fun b hb => (touches_setBlock t a _).blockInv hb (hothers b hb),?_,?_,
      fun hout => absurd (Or.inl hin') hout,ha',fun hcrowded => absurd hin' hcrowded.1⟩
    · rw [setBlock_blocks_self,hsame,hqueue]
      exact hsettled
    · rw [setBlock_blocks_self,hdram]
      exact ⟨hunread,hfrom⟩
  obtain ⟨t',hwrite,hwritten⟩:=sendDataToNUCA_written hserved.ways a data (u (s.blocks a).queue.length)
  have hserved' := hwritten.served hserved
  rw [← ht,processDRAMReplyNoted,getDirectoryEntry_slotted hin']
  refine .note_bind (prepared_of_ne (by simp)) ?_
  simp only [if_true,hblocks,hok,quiet_ok_bind,hwrite]
  exact hserved'.nextNoted fun hworking _ => hworking.workNoted (hmax r.requester.pos) u _ le_rfl

/-- When a message arrives with which a block needs the entry of another one, a candidate for
replacement has no request. -/
def Replaceable (s : DirectorySystem n δ) : ProtocolStep n δ → Prop
  | .receive c a _ => s.Displaces c a → s.HasVictim a
  | _ => True

/-- When an `INV_REP` arrives while a sharer has been asked to make room, it is from that sharer. -/
def Tied (s : DirectorySystem n δ) : ProtocolStep n δ → Prop
  | .receive c a _ =>
    ((s.blocks a).lines c).toDirectory.head?=some .invRep → (s.blocks a).OverflowTied c
  | _ => True

/-- A step keeps the invariant. It fails only where an entry is needed that cannot be replaced. -/
theorem Inv.stepNoted (h : s.Inv cfg) (hmax : 0<n → 0<cfg.maxHwSharers) {i : ProtocolStep n δ}
    (hreplaceable : s.Replaceable i ∨ starved) (htied : s.Tied i) : (s.stepNoted i).Meets (Prepared cfg)
    (fun s' => s'.Inv cfg) starved := by
  cases i with
  | access c a exclusive =>
    obtain ⟨l,hok,hrests⟩:=(h.blocks a).rests.access (c:=c) exclusive
    rw [DirectorySystem.stepNoted,DirectorySystem.step,hok]
    exact meets_quiet (yields_ok (h.setLine hrests) _)
  | store c a data => exact meets_quiet (yields_ok (h.setLine ((h.blocks a).rests.store data)) _)
  | evict c a => exact meets_quiet (yields_ok (h.setLine (h.blocks a).rests.evict) _)
  | deliver c a stack =>
    obtain ⟨l,hok,hrests⟩:=(h.blocks a).rests.deliver (c:=c) stack
    have hstep : (quiet (s.step (.deliver c a stack)) : Watched n δ _).Meets (Prepared cfg)
        (fun s' => s'.Inv cfg) starved := by
      rw [DirectorySystem.step,hok]
      exact meets_quiet (yields_ok (h.setLine hrests) _)
    rw [DirectorySystem.stepNoted]
    cases ((s.blocks a).lines c).toCache with
    | nil => exact hstep
    | cons m rest => exact .note_bind (prepared_of_ne (by simp)) hstep
  | receive c a u =>
    rw [DirectorySystem.stepNoted]
    cases hmsg : ((s.blocks a).lines c).toDirectory with
    | nil => exact meets_pure h
    | cons m rest =>
      have hhead : ((s.blocks a).lines c).toDirectory.head?=some m := by rw [hmsg]; rfl
      exact h.handleMsgNoted (hmax c.pos) hhead (fun hm => htied (hm ▸ hhead))
        (fun hneeds => hreplaceable.imp_left fun hr => hr hneeds) u
  | dram a => exact meets_quiet (yields_ok (h.dram a) _)
  | dramReply a u =>
    rw [DirectorySystem.stepNoted]
    cases hdata : s.fromDram a with
    | nil => exact meets_pure h
    | cons data replies => exact h.dramReplyNoted hmax hdata u

theorem Inv.step (h : s.Inv cfg) (hmax : 0<n → 0<cfg.maxHwSharers) {i : ProtocolStep n δ}
    (hreplaceable : s.Replaceable i ∨ starved) (htied : s.Tied i) :
    Yields (s.step i) (fun s' => s'.Inv cfg) starved := by
  rw [← stepNoted_result]
  exact (h.stepNoted hmax hreplaceable htied).result

theorem inv_new (cfg : DirectoryConfig) (associativity : ℕ) (setIndex pointers : ℕ → ℕ)
    {nuca : Option (NucaCache δ)} (hways : ∀c∈nuca,0<c.associativity) (memory : ℕ → δ) :
    (new cfg associativity setIndex pointers nuca memory : DirectorySystem n δ).Inv cfg := by
  refine ⟨⟨rfl,entries_new ..,hways⟩,fun a => ⟨Block.rests_new cfg (memory a),rfl,fun _ => ⟨rfl,rfl⟩,?_,
    fun _ r hr => ?_⟩⟩
  · exact iff_of_false not_mem_nil not_frontNullify_nil
  · cases hr

theorem Inv.tied (h : s.Inv cfg) (hroom : n ≤ cfg.maxHwSharers) (i : ProtocolStep n δ) : s.Tied i := by
  cases i with
  | receive c a u =>
    intro _ r hr ht hgranted hs
    have hinv := h.blocks a
    cases hinv.rests.waits r hr with
    | data wait => simp [ShmemReq.granted,wait] at hgranted
    | forward d wait forwarding => simp [ShmemReq.granted,ShmemReq.isForwarding,forwarding] at hgranted
    | replies _ _ _ _ overflow =>
      obtain ⟨d,-,hd⟩:=overflow hs ht
      rw [hinv.overflow hroom r hr] at hd
      cases hd
  | _ => trivial

/-- The entries know every copy, and the messages find the states they were sent for. -/
structure Limited (s : DirectorySystem n δ) : Prop where
  invRep : ∀a c,((s.blocks a).lines c).toDirectory.head?=some .invRep →
    (s.blocks a).entry.dstate ≠ .modified ∧ (s.blocks a).entry.dstate ≠ .uncached
  upgradeRep : ∀a c,((s.blocks a).lines c).toCache.head?=some .upgradeRep →
    ((s.blocks a).lines c).state ≠ .invalid
  bounded : ∀a,(s.blocks a).entry.numSharers ≤ s.config.maxHwSharers
  recorded : ∀a c,((s.blocks a).lines c).state ≠ .invalid → c∈(s.blocks a).entry.sharers

theorem Inv.limited (h : s.Inv cfg) : s.Limited where
  invRep a _ hmsg := (h.blocks a).rests.invRep_dstate hmsg
  upgradeRep a _ hmsg := (h.blocks a).rests.upgradeRep_state hmsg
  bounded a := h.config ▸ (h.blocks a).rests.proper.bounded
  recorded a _ hc := (h.blocks a).rests.mem_sharers hc

section

variable (s) (a)

instance : Decidable (s.Slotted a) := inferInstanceAs (Decidable (some a∈s.slots (s.setIndex a)))

instance : Decidable (s.NeedsVictim a) :=
  inferInstanceAs (Decidable ((¬ s.Slotted a ∧ none∉s.slots (s.setIndex a)) ∧ _))

instance : Decidable (s.HasVictim a) :=
  inferInstanceAs (Decidable (∃v∈(s.getReplacementCandidates a).1,(s.blocks v).queue=[]))

instance (b : Block n δ) (m : DirectoryMsg δ) : Decidable (b.NeedsEntry m) := by
  cases m <;> unfold Block.NeedsEntry <;> infer_instance

instance (c : Fin n) : Decidable (s.Displaces c a) :=
  inferInstanceAs (Decidable (s.NeedsVictim a ∧ ∃m∈((s.blocks a).lines c).toDirectory.head?,_))

end

instance (s : DirectorySystem n δ) (i : ProtocolStep n δ) : Decidable (s.Replaceable i) :=
  match i with
  | .receive c a _ => inferInstanceAs (Decidable (s.Displaces c a → s.HasVictim a))
  | .access .. | .store .. | .evict .. | .deliver .. | .dram .. | .dramReply .. => .isTrue trivial

theorem Inv.run_ok {protocol : CoherencyProtocol} (h : s.Inv ⟨protocol,n⟩)
    {steps : List (ProtocolStep n δ)} (hsteps : Along DirectorySystem.step Replaceable s steps) :
    ∃s',run DirectorySystem.step s steps = .ok s' ∧ s'.Inv ⟨protocol,n⟩ :=
  run_total (I := fun s => s.Inv ⟨protocol,n⟩)
    (fun _ i hs hi => (hs.step (fun hn => hn) (Or.inl hi) (hs.tied le_rfl i)).total) h hsteps

def plain : ℕ → Unspecified n ℕ := fun _ => ⟨none,0,0,0,⟨false,0,0⟩⟩

def oneEntry (n : ℕ) (protocol : CoherencyProtocol) (maxHwSharers : ℕ) : DirectorySystem n ℕ :=
  new ⟨protocol,maxHwSharers⟩ 1 (fun _ => 0) (fun _ => 0) none fun _ => 0

/-- A cache reads or writes a block whose data is in DRAM. -/
def fetch (c : Fin n) (a : ℕ) (exclusive : Bool) : List (ProtocolStep n ℕ) :=
  [.access c a exclusive,.receive c a plain,.dram a,.dramReply a plain,.deliver c a 0]

instance (b : Block n δ) (c : Fin n) : Decidable (b.OverflowTied c) :=
  inferInstanceAs (Decidable (∀r∈b.queue.head?,r.type = .shReq → r.granted=false →
    b.entry.dstate = .shared → r.overflow=some c))

instance [DecidableEq δ] (s : DirectorySystem n δ) (i : ProtocolStep n δ) : Decidable (s.Tied i) :=
  match i with
  | .receive c a _ => inferInstanceAs (Decidable
      (((s.blocks a).lines c).toDirectory.head?=some .invRep → (s.blocks a).OverflowTied c))
  | .access .. | .store .. | .evict .. | .deliver .. | .dram .. | .dramReply .. => .isTrue trivial

/-- A limited directory knows every copy, as long as only the sharer that was asked to make
room answers meanwhile. -/
theorem run_limited (config : DirectoryConfig) (hmax : 1 ≤ config.maxHwSharers) (associativity : ℕ)
    (setIndex pointers : ℕ → ℕ) (nuca : Option (NucaCache δ)) (memory : ℕ → δ)
    (hways : ∀c∈nuca,0<c.associativity) (steps : List (ProtocolStep n δ))
    (hsteps : Along step Tied (new config associativity setIndex pointers nuca memory) steps)
    (s : DirectorySystem n δ)
    (hrun : run step (new config associativity setIndex pointers nuca memory) steps = .ok s) : s.Limited := by
  have hinv : s.Inv config := run_invariant (I:=fun s => s.Inv config)
    (fun s i s' hs hi hok => (hs.step (fun _ => hmax) (Or.inr trivial) hi).of_ok hok)
    (inv_new config associativity setIndex pointers hways memory) hsteps hrun
  exact hinv.limited

/-- The second reader of a block takes the place of the first. -/
def handOver : List (ProtocolStep 2 ℕ) :=
  .flatten [fetch 0 0 false,[.access 1 0 false,.receive 1 0 plain,.deliver 0 0 0,.receive 0 0 plain,.dram 0,
    .dramReply 0 plain,.deliver 1 0 0]]

theorem run_limited_handOver : ∃s,run step (oneEntry 2 .msi 1) handOver = .ok s ∧
    ((s.blocks 0).lines 1).state = .shared ∧ s.Limited :=
  exists_ok_and (P:=fun _ => True) (by decide +kernel) fun s hrun _ =>
    run_limited ⟨.msi,1⟩ le_rfl 1 _ _ none _ (fun _ h => by cases h) _ (by decide +kernel) s hrun

/-- While cache 0 is to make room for cache 2, cache 1 gives up its copy and cache 2 is served.
Cache 0 then asks for the block, and gets the old invalidation before the answer. -/
def lateInvalidation : List (ProtocolStep 3 ℕ) :=
  .flatten [fetch 0 0 false,fetch 1 0 false,[.access 2 0 false,.receive 2 0 plain,.evict 1 0,
    .receive 1 0 plain,.dram 0,.dramReply 0 plain,.deliver 2 0 0,.access 0 0 true,.receive 0 0 plain,
    .deliver 2 0 0,.receive 2 0 plain,.deliver 0 0 0]]

theorem overflow_invalidation_late : ∃s,run step (oneEntry 3 .msi 2) lateInvalidation = .ok s ∧
    ((s.blocks 0).lines 0).toDirectory.head?=some .invRep ∧ (s.blocks 0).entry.dstate = .modified ∧
    ((s.blocks 0).lines 0).toCache.head?=some .upgradeRep ∧ ((s.blocks 0).lines 0).state = .invalid := by
  decide +kernel

end DirectorySystem

end Sniper.Coherence
