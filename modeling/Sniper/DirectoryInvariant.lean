import Sniper.BlockQueues
import Sniper.DirectoryEntries
import Sniper.DirectoryMoments

/-!
# The invariant of the whole directory

While the directory works on the requests of one block, that block is ready and the others are
at rest.
-/

namespace Sniper.Coherence
open FallibleRuns NotedRuns NotedRuns.Noted Function List

namespace DirectorySystem

variable {n : ℕ} {δ : Type} {cfg : DirectoryConfig} {s s' t : DirectorySystem n δ} {a b v : ℕ}
  {cached : Option δ} {starved : Prop}

section

variable (cfg)

section

variable (s)

/-- What does not concern one block. -/
structure Base : Prop where
  config : s.config=cfg
  entries : s.Entries
  ways : ∀c∈s.nuca,0<c.associativity

/-- The invariant of a block between two steps. -/
structure BlockInv (a : ℕ) : Prop where
  rests : (s.blocks a).Rests cfg
  reads : unread (s.blocks a).toDram+(s.fromDram a).length=awaitedReads (s.blocks a).queue
  absent : ¬ s.Present a → (s.blocks a).entry.dstate = .uncached ∧ (s.blocks a).queue=[]
  nullified : a∈s.replaced ↔ frontNullify (s.blocks a).queue
  overflow : n ≤ cfg.maxHwSharers → ∀r,(s.blocks a).queue.head?=some r → r.overflow=none

structure Inv : Prop extends s.Base cfg where
  blocks : ∀a,s.BlockInv cfg a

/-- The next request of the block needs an entry that another block has. -/
def NeedsVictim (a : ℕ) : Prop := s.Crowded a ∧ (a∈s.replaced → (s.blocks a).queue.tail≠[])

/-- With the message that the cache has for it, the block needs an entry that another block has. -/
def Displaces (c : Fin n) (a : ℕ) : Prop :=
  s.NeedsVictim a ∧ ∃m∈((s.blocks a).lines c).toDirectory.head?,(s.blocks a).NeedsEntry m

end

/-- The invariant before the work on the front request of a block. Unless the directory may be
starved of entries, one can be replaced. -/
structure Working (starved : Prop) (s : DirectorySystem n δ) (a : ℕ)
    (cached : Option δ) : Prop extends s.Base cfg where
  others : ∀b≠a,s.BlockInv cfg b
  ready : (s.blocks a).Ready cfg cached
  queue : (s.blocks a).queue≠[]
  reads : unread (s.blocks a).toDram=0 ∧ s.fromDram a=[]
  absent : ¬ s.Present a → (s.blocks a).entry.dstate = .uncached
  nullified : a∈s.replaced ↔ frontNullify (s.blocks a).queue
  overflow : n ≤ cfg.maxHwSharers → ∀r,(s.blocks a).queue.head?=some r → r.overflow=none
  victim : s.NeedsVictim a → s.HasVictim a ∨ starved

/-- The front request has been answered, and is taken from the queue next. -/
structure Served (starved : Prop) (s : DirectorySystem n δ) (a : ℕ) : Prop
    extends s.Base cfg where
  others : ∀b≠a,s.BlockInv cfg b
  settled : ({s.blocks a with queue:=(s.blocks a).queue.tail} : Block n δ).Settled cfg
  reads : unread (s.blocks a).toDram=0 ∧ s.fromDram a=[]
  absent : ¬ s.Present a → (s.blocks a).entry.dstate = .uncached
  replaced : a∉s.replaced
  victim : s.Crowded a → (s.blocks a).queue.tail≠[] → s.HasVictim a ∨ starved

end

/-- Only the block, and whether its entry is a replaced one, has changed. -/
def Touches (a : ℕ) (s s' : DirectorySystem n δ) : Prop :=
  ∃blocks replaced,s'={s with blocks,replaced} ∧ (∀b≠a,blocks b=s.blocks b) ∧
    ∀b≠a,(b∈replaced ↔ b∈s.replaced)

theorem BlockInv.frame (h : s.BlockInv cfg b) (hblock : s'.blocks b=s.blocks b)
    (hdram : s'.fromDram b=s.fromDram b) (hpresent : s.Present b → s'.Present b)
    (hreplaced : b∈s'.replaced ↔ b∈s.replaced) : s'.BlockInv cfg b := by
  refine ⟨hblock ▸ h.rests,?_,fun hout => ?_,?_,?_⟩
  · rw [hblock,hdram]
    exact h.reads
  · rw [hblock]
    exact h.absent fun hin => hout (hpresent hin)
  · rw [hreplaced,hblock]
    exact h.nullified
  · rw [hblock]
    exact h.overflow

variable {x : Block n δ} {r : ShmemReq n} {rest : List (ShmemReq n)} {u : Unspecified n δ}
  {data : δ}

theorem BlockInv.of_block (hx : s.blocks a=x) (rests : x.Rests cfg)
    (reads : unread x.toDram+(s.fromDram a).length=awaitedReads x.queue)
    (absent : ¬ s.Present a → x.entry.dstate = .uncached ∧ x.queue=[])
    (nullified : a∈s.replaced ↔ frontNullify x.queue)
    (overflow : n ≤ cfg.maxHwSharers → ∀r,x.queue.head?=some r → r.overflow=none) : s.BlockInv cfg a := by
  subst hx
  exact ⟨rests,reads,absent,nullified,overflow⟩

theorem Touches.refl (a : ℕ) (s : DirectorySystem n δ) : Touches a s s :=
  ⟨s.blocks,s.replaced,rfl,fun _ _ => rfl,fun _ _ => Iff.rfl⟩

theorem Touches.trans (h : Touches a s t) (h' : Touches a t s') : Touches a s s' := by
  obtain ⟨blocks,replaced,rfl,hblocks,hreplaced⟩:=h
  obtain ⟨blocks',replaced',rfl,hblocks',hreplaced'⟩:=h'
  exact ⟨blocks',replaced',rfl,fun b hb => (hblocks' b hb).trans (hblocks b hb),
    fun b hb => (hreplaced' b hb).trans (hreplaced b hb)⟩

theorem touches_setBlock (s : DirectorySystem n δ) (a : ℕ) (x : Block n δ) : Touches a s (s.setBlock a x) :=
  ⟨_,s.replaced,rfl,fun _ hb => update_of_ne hb _ _,fun _ _ => Iff.rfl⟩

theorem touches_erase (s : DirectorySystem n δ) (a : ℕ) :
    Touches a s {s with replaced:=s.replaced.erase a} :=
  ⟨s.blocks,_,rfl,fun _ _ => rfl,fun _ hb => mem_erase_of_ne hb⟩

theorem Touches.blockInv (h : Touches a s s') (hb : b≠a) (hinv : s.BlockInv cfg b) : s'.BlockInv cfg b := by
  obtain ⟨blocks,replaced,rfl,hblocks,hreplaced⟩:=h
  exact hinv.frame (hblocks b hb) rfl (Or.imp_right (hreplaced b hb).mpr) (hreplaced b hb)

theorem Touches.hasVictim (h : Touches a s s') (ha : ¬ s.Slotted a) (hv : s.HasVictim a) : s'.HasVictim a := by
  obtain ⟨blocks,replaced,rfl,hblocks,-⟩:=h
  obtain ⟨v,hmem,hqueue⟩:=hv
  have hva : v≠a := by
    rintro rfl
    exact ha (mem_candidates hmem)
  refine ⟨v,hmem,?_⟩
  show (blocks v).queue=[]
  rw [hblocks v hva]
  exact hqueue

@[simp] theorem setBlock_blocks_self (s : DirectorySystem n δ) (a : ℕ) (x : Block n δ) :
    (s.setBlock a x).blocks a=x := update_self ..

theorem setBlock_blocks_of_ne (s : DirectorySystem n δ) (x : Block n δ) (h : b≠a) :
    (s.setBlock a x).blocks b=s.blocks b := update_of_ne h ..

theorem Base.setBlock (h : s.Base cfg) (a : ℕ) (x : Block n δ) : (s.setBlock a x).Base cfg :=
  ⟨h.config,h.entries.congr rfl rfl rfl,h.ways⟩

theorem not_frontNullify_nil : ¬ frontNullify ([] : List (ShmemReq n)) := fun ⟨_,hr,_⟩ => by cases hr

theorem Base.erase (h : s.Base cfg) (a : ℕ) :
    ({s with replaced:=s.replaced.erase a} : DirectorySystem n δ).Base cfg :=
  ⟨h.config,h.entries.erase a,h.ways⟩

theorem Base.nullify (h : t.Base cfg) (hrests : (t.blocks v).Rests cfg) (hqueue : (t.blocks v).queue=[])
    (hreads : unread (t.blocks v).toDram+(t.fromDram v).length=0) (hv : v∈t.replaced) (requester : Fin n) :
    ∃t',t.nullify v requester = .ok t' ∧ Touches v t t' ∧ t'.Base cfg ∧ t'.BlockInv cfg v := by
  obtain ⟨⟨x,done⟩,hok,hworked⟩:=((hrests.settled hqueue).nullify hqueue requester).processNullifyReq rfl rfl
  have hkeep : x.KeepsFront cfg (.new .nullifyReq requester) [] ∧ _ :=
    Block.processNullifyReq_keepsFront rfl hok
  obtain ⟨r,hr,ht,hoverflow⟩:=hkeep.1
  rw [DirectorySystem.nullify,if_pos hqueue,hok,ok_bind]
  cases done with
  | true =>
    obtain ⟨-,hsettled,hdram⟩:=hworked
    obtain ⟨rfl,hu⟩:=hkeep.2 rfl
    refine ⟨_,if_pos hv,(touches_setBlock t v _).trans (touches_erase _ v),(h.setBlock v _).erase v,?_⟩
    refine .of_block (setBlock_blocks_self t v _) (hsettled.rests rfl) hreads (fun _ => ⟨hu,rfl⟩)
      (iff_of_false h.entries.nodup.not_mem_erase not_frontNullify_nil) fun _ r hr => ?_
    cases hr
  | false =>
    obtain ⟨-,hrests',-,hunread⟩:=hworked
    refine ⟨_,rfl,touches_setBlock t v _,h.setBlock v _,.of_block (setBlock_blocks_self t v _)
      hrests' ?_ (fun hout => absurd (Or.inr hv) hout)
      (iff_of_true hv ⟨r,by rw [hr]; rfl,ht⟩) fun hroom r' hr' => ?_⟩
    · rw [hunread]
      show unread (t.blocks v).toDram+awaitedReads x.queue+(t.fromDram v).length=_
      omega
    · rw [hr] at hr'
      cases hr'
      exact hoverflow hroom

theorem Working.fresh (h : s.Working cfg starved a cached) (hu : (s.blocks a).entry.dstate = .uncached)
    (ha : a∉s.replaced) (hbase : s'.Base cfg) (hothers : ∀b≠a,s'.BlockInv cfg b) {forwarder : Option (Fin n)}
    (hblock : s'.blocks a=(s.blocks a).withEntry (.new forwarder)) (hdram : s'.fromDram a=s.fromDram a)
    (hin : s'.Slotted a) (ha' : a∉s'.replaced) : s'.Working cfg starved a cached := by
  have hqueue : (s'.blocks a).queue=(s.blocks a).queue := by
    rw [hblock]
    rfl
  refine ⟨hbase,hothers,?_,hqueue ▸ h.queue,?_,fun hout => absurd (Or.inl hin) hout,?_,?_,
    fun hneeds => absurd hin hneeds.1.1⟩
  · rw [hblock]
    exact h.ready.freshEntry hu _
  · rw [hblock,hdram]
    exact h.reads
  · rw [hqueue]
    exact iff_of_false ha' fun hfront => ha (h.nullified.mpr hfront)
  · rw [hqueue]
    exact h.overflow

theorem present_seat {old : Option ℕ} (hold : old∈s.slots (s.setIndex a)) (hb : b≠a) (hne : old≠some b)
    (h : s.Present b) : (s.seat old a).Present b :=
  h.imp_left (mem_seat_slots hold hne (by simpa using hb) _).mpr

theorem Working.fill (h : s.Working cfg starved a cached) (hfree : none∈s.slots (s.setIndex a))
    (hout : ¬ s.Slotted a) (forwarder : Option (Fin n)) :
    ((s.seat none a).freshEntry a forwarder).Working cfg starved a cached := by
  have ha : a∉s.replaced := fun ha => (h.entries.crowded a ha).2 hfree
  have hbase : (s.seat none a).Base cfg := ⟨h.config,h.entries.fill hfree hout,h.ways⟩
  refine h.fresh (h.absent (not_or.mpr ⟨hout,ha⟩)) ha (hbase.setBlock a _) (fun b hb => ?_)
    (setBlock_blocks_self _ _ _) rfl (seat_slotted_self hfree hout) ha
  exact (h.others b hb).frame (setBlock_blocks_of_ne _ _ hb) rfl
    (present_seat hfree hb (by simp)) Iff.rfl

theorem Base.takeOver (h : s.Base cfg) (hothers : ∀b≠a,s.BlockInv cfg b)
    (hv : some v∈s.slots (s.setIndex a)) (hqueue : (s.blocks v).queue=[])
    (hcrowded : s.Crowded a) (ha : a∉s.replaced) (requester : Fin n)
    (forwarder : Option (Fin n)) :
    ∃s',(do (← s.replaceDirectoryEntry v a forwarder).nullify v requester) = .ok s' ∧
      s'.Base cfg ∧ (∀b≠a,s'.BlockInv cfg b) ∧
      s'.blocks a=(s.blocks a).withEntry (.new forwarder) ∧ s'.fromDram a=s.fromDram a ∧
      s'.Slotted a ∧ a∉s'.replaced := by
  have hvs : s.Slotted v := by rwa [Slotted,h.entries.index _ _ hv]
  have hva : v≠a := by
    rintro rfl
    exact hcrowded.1 hvs
  have hinv := hothers v hva
  have hreads := hinv.reads
  rw [hqueue] at hreads
  obtain ⟨t,ht⟩ : ∃t,t={s.seat (some v) a with replaced:=s.replaced++[v]}:=⟨_,rfl⟩
  have hbase : t.Base cfg := ht ▸ ⟨h.config,h.entries.swap hv hcrowded ha,h.ways⟩
  have hblocks : t.blocks=s.blocks := ht ▸ rfl
  have hdram : t.fromDram=s.fromDram := ht ▸ rfl
  have hreplaced : t.replaced=s.replaced++[v] := ht ▸ rfl
  have hslotted : ∀b,(s.seat (some v) a).Slotted b → t.Slotted b := ht ▸ fun _ => id
  have hblock : (t.freshEntry a forwarder).blocks v=s.blocks v := by
    rw [freshEntry,setBlock_blocks_of_ne _ _ hva,hblocks]
  obtain ⟨s',hok,htouches,hbase',hinv'⟩:=(hbase.setBlock a _).nullify
    (show ((t.freshEntry a forwarder).blocks v).Rests cfg from hblock ▸ hinv.rests)
    (hblock ▸ hqueue) (hblock ▸ hdram ▸ hreads)
    (show v∈t.replaced from hreplaced ▸ mem_append_right _ mem_cons_self) requester
  refine ⟨s',?_,hbase',fun b hb => ?_,?_⟩
  · rw [h.entries.replaceDirectoryEntry hv,ok_bind,← ht]
    exact hok
  · by_cases hbv : b=v
    · exact hbv ▸ hinv'
    · refine htouches.blockInv hbv ((hothers b hb).frame ?_ (congrFun hdram b) ?_ ?_)
      · rw [setBlock_blocks_of_ne _ _ hb,hblocks]
      · rintro (hin | hin)
        · have hne : some v≠some b := by simpa using Ne.symm hbv
          exact Or.inl (hslotted b ((mem_seat_slots hv hne (by simpa using hb) _).mpr hin))
        · exact Or.inr (hreplaced ▸ mem_append_left _ hin)
      · show b∈t.replaced ↔ _
        rw [hreplaced,mem_append,mem_singleton]
        exact or_iff_left hbv
  · obtain ⟨blocks,replaced,rfl,hsame,hmem⟩:=htouches
    refine ⟨?_,congrFun hdram a,?_,?_⟩
    · rw [show DirectorySystem.blocks _ a=_ from hsame a hva.symm,setBlock_blocks_self,hblocks]
    · exact hslotted a (seat_slotted_self hv hcrowded.1)
    · rw [show a∈DirectorySystem.replaced _ ↔ _ from hmem a hva.symm]
      show a∉t.replaced
      rw [hreplaced,mem_append,mem_singleton]
      exact not_or.mpr ⟨ha,hva.symm⟩

theorem Working.allocate (h : s.Working cfg starved a cached) (hcrowded : s.Crowded a) (ha : a∉s.replaced)
    (requester : Fin n) (forwarder : Option (Fin n)) :
    Yields (s.processDirectoryEntryAllocationReq a requester forwarder) (fun s' =>
      s'.Working cfg starved a cached ∧ s'.Present a ∧ (s'.blocks a).queue=(s.blocks a).queue) starved := by
  rw [processDirectoryEntryAllocationReq]
  cases hcandidate : (s.getReplacementCandidates a).2.replacementCandidate
      (s.getReplacementCandidates a).1 with
  | none =>
    refine Or.inr ⟨(h.victim ⟨hcrowded,fun hin => absurd hin ha⟩).resolve_left fun hv => ?_,_,
      by simp only [hcandidate]; rfl⟩
    rw [← Option.not_isSome_iff_eq_none] at hcandidate
    exact hcandidate hv.candidate
  | some v =>
    obtain ⟨hv,hqueue⟩:=replacementCandidate_mem hcandidate
    -- the replacement pointer of the set moves on first
    obtain ⟨s₁,hs₁⟩ : ∃s₁,s₁=(s.getReplacementCandidates a).2:=⟨_,rfl⟩
    have hbase : s₁.Base cfg := hs₁ ▸ ⟨h.config,h.entries.congr rfl rfl rfl,h.ways⟩
    have hothers : ∀b≠a,s₁.BlockInv cfg b := fun b hb =>
      hs₁ ▸ (h.others b hb).frame rfl rfl id Iff.rfl
    obtain ⟨s',hok,hbase',hothers',hblock,hdram,hin,ha'⟩:=hbase.takeOver (a:=a) (v:=v)
      hothers (hs₁ ▸ hv) (hs₁ ▸ hqueue) (hs₁ ▸ hcrowded) (hs₁ ▸ ha) requester forwarder
    have hblock' : s'.blocks a=(s.blocks a).withEntry (.new forwarder) := by
      rw [hblock,hs₁]
      rfl
    refine Or.inl ⟨s',?_,h.fresh (h.absent (not_or.mpr ⟨hcrowded.1,ha⟩)) ha hbase' hothers' hblock'
      (by rw [hdram,hs₁]; rfl) hin ha',Or.inl hin,by rw [hblock']; rfl⟩
    rw [hs₁] at hok
    simp only [hcandidate]
    exact hok

theorem Working.ensureEntry (h : s.Working cfg starved a cached) (hqueue : (s.blocks a).queue=r::rest)
    (forwarder : Option (Fin n)) : Yields (s.ensureEntry a r forwarder) (fun s' =>
      s'.Working cfg starved a cached ∧ s'.Present a ∧ (s'.blocks a).queue=r::rest) starved := by
  rw [DirectorySystem.ensureEntry]
  by_cases hin : s.Slotted a
  · rw [getDirectoryEntry_slotted hin]
    exact yields_ok ⟨h,Or.inl hin,hqueue⟩ _
  by_cases hfree : none∈s.slots (s.setIndex a)
  · rw [getDirectoryEntry_free hin hfree]
    refine yields_ok ⟨h.fill hfree hin forwarder,Or.inl (seat_slotted_self hfree hin),?_⟩ _
    rw [freshEntry,setBlock_blocks_self]
    exact hqueue
  rw [getDirectoryEntry_crowded ⟨hin,hfree⟩]
  by_cases ha : a∈s.replaced
  · simp only [ha,decide_true,if_true]
    exact yields_ok ⟨h,Or.inr ha,hqueue⟩ _
  · have ht : r.type ≠ .nullifyReq := fun ht =>
      ha (h.nullified.mpr ⟨r,by rw [hqueue]; rfl,ht⟩)
    have hallocate := h.allocate ⟨hin,hfree⟩ ha r.requester forwarder
    rw [hqueue] at hallocate
    simp only [ha,decide_false,Bool.false_eq_true,if_false,if_neg ht]
    exact hallocate

def dequeue (s : DirectorySystem n δ) (a : ℕ) : DirectorySystem n δ :=
  s.setBlock a {s.blocks a with queue:=(s.blocks a).queue.tail}

theorem not_frontNullify_fresh {queue : List (ShmemReq n)} (h : ∀r∈queue,r.Fresh) : ¬ frontNullify queue :=
  fun ⟨r,hr,ht⟩ => (h r (mem_of_head? hr)).2 ht

theorem Served.inv (h : s.Served cfg starved a) (hqueue : (s.blocks a).queue.tail=[]) :
    (s.dequeue a).Inv cfg := by
  refine ⟨h.toBase.setBlock a _,fun b => ?_⟩
  by_cases hb : b=a
  · subst hb
    refine .of_block (setBlock_blocks_self s b _) (h.settled.rests hqueue) ?_
      (fun hout => ⟨h.absent hout,hqueue⟩)
      (iff_of_false h.replaced (not_frontNullify_fresh h.settled.fresh)) fun _ r hr => ?_
    · show unread (s.blocks b).toDram+(s.fromDram b).length=awaitedReads (s.blocks b).queue.tail
      rw [h.reads.1,h.reads.2,hqueue]
      rfl
    · rw [show (s.blocks b).queue.tail=[] from hqueue] at hr
      cases hr
  · exact (touches_setBlock s a _).blockInv hb (h.others b hb)

theorem Served.working (h : s.Served cfg starved a) (hqueue : (s.blocks a).queue.tail≠[]) :
    (s.dequeue a).Working cfg starved a none := by
  have hblock : (s.dequeue a).blocks a={s.blocks a with queue:=(s.blocks a).queue.tail} :=
    setBlock_blocks_self s a _
  refine ⟨h.toBase.setBlock a _,fun b hb => (touches_setBlock s a _).blockInv hb (h.others b hb),?_,?_,?_,?_,?_,
    ?_,fun hneeds => ?_⟩
  · rw [hblock]
    exact h.settled.ready
  · rw [hblock]
    exact hqueue
  · rw [hblock]
    exact h.reads
  · rw [hblock]
    exact h.absent
  · rw [hblock]
    exact iff_of_false h.replaced (not_frontNullify_fresh h.settled.fresh)
  · rw [hblock]
    intro _ r hr
    rw [(h.settled.fresh r (mem_of_head? hr)).1]
    rfl
  · exact (h.victim hneeds.1 hqueue).imp_left ((touches_setBlock s a _).hasVictim hneeds.1.1)

section

variable (h : s.Working cfg starved a cached)
include h

theorem Working.waiting (hpresent : s.Present a) (hqueue : (s.blocks a).queue=r::rest)
    (hkeep : x.KeepsFront cfg r rest) (hworked : Block.Worked cfg (s.blocks a).toDram rest (x,false)) :
    (s.setBlock a x).Inv cfg := by
  obtain ⟨-,hrests,-,hunread⟩:=hworked
  obtain ⟨r',hr',ht,hoverflow⟩:=hkeep
  have hfront : frontNullify x.queue ↔ frontNullify (s.blocks a).queue := by
    simp [frontNullify,hr',hqueue,ht]
  refine ⟨h.toBase.setBlock a _,fun b => ?_⟩
  by_cases hb : b=a
  · subst hb
    refine .of_block (setBlock_blocks_self s b x) hrests ?_ (fun hout => absurd hpresent hout)
      (h.nullified.trans hfront.symm) fun hroom q hq => ?_
    · show unread x.toDram+(s.fromDram b).length=awaitedReads x.queue
      rw [hunread,h.reads.1,h.reads.2,length_nil]
      omega
    · rw [hr'] at hq
      cases hq
      exact (hoverflow hroom).trans (h.overflow hroom r (by rw [hqueue]; rfl))
  · exact (touches_setBlock s a _).blockInv hb (h.others b hb)

theorem Working.answered (hpresent : s.Present a) (hqueue : (s.blocks a).queue=r::rest)
    (ht : r.type ≠ .nullifyReq) (hworked : Block.Worked cfg (s.blocks a).toDram rest (x,true)) :
    (s.setBlock a x).Served cfg starved a := by
  obtain ⟨hrest,hsettled,hdram⟩:=hworked
  have ha : a∉s.replaced := fun ha => by
    obtain ⟨q,hq,hnull⟩:=h.nullified.mp ha
    rw [hqueue] at hq
    cases hq
    exact ht hnull
  refine ⟨h.toBase.setBlock a _,fun b hb => (touches_setBlock s a _).blockInv hb (h.others b hb),?_,?_,
    fun hout => absurd hpresent hout,ha,fun hcrowded _ => ?_⟩
  · rw [setBlock_blocks_self,show x.queue.tail=rest from hrest]
    exact hsettled
  · rw [setBlock_blocks_self,hdram]
    exact h.reads
  · exact absurd (hpresent.resolve_right ha) hcrowded.1

theorem Working.nullifyDone (hqueue : (s.blocks a).queue=r::rest) (ht : r.type = .nullifyReq)
    (hok : (s.blocks a).processNullifyReq = .ok (x,true))
    (hworked : Block.Worked cfg (s.blocks a).toDram rest (x,true)) :
    ∃t,(s.setBlock a x).invalidateDirectoryEntry a = .ok t ∧ t.Served cfg starved a ∧
      (t.blocks a).queue.tail=rest := by
  obtain ⟨hrest,hsettled,-⟩:=hworked
  have hkeep : x.KeepsFront cfg r rest ∧ _ := Block.processNullifyReq_keepsFront hqueue hok
  obtain ⟨rfl,hu⟩:=hkeep.2 rfl
  have ha : a∈s.replaced := h.nullified.mpr ⟨r,by rw [hqueue]; rfl,ht⟩
  have htouches := (touches_setBlock s a (s.blocks a)).trans (touches_erase _ a)
  have hblock : ({s.setBlock a (s.blocks a) with replaced:=s.replaced.erase a} :
      DirectorySystem n δ).blocks a=s.blocks a := setBlock_blocks_self s a _
  refine ⟨_,if_pos ha,⟨(h.toBase.setBlock a _).erase a,fun b hb => htouches.blockInv hb (h.others b hb),?_,?_,
    fun _ => ?_,h.entries.nodup.not_mem_erase,fun hcrowded htail => ?_⟩,?_⟩
  · rw [show DirectorySystem.blocks _ a=_ from hblock,show (s.blocks a).queue.tail=rest from hrest]
    exact hsettled
  · rw [show DirectorySystem.blocks _ a=_ from hblock]
    exact h.reads
  · rw [show DirectorySystem.blocks _ a=_ from hblock]
    exact hu
  · rw [show DirectorySystem.blocks _ a=_ from hblock] at htail
    exact (h.victim ⟨hcrowded,fun _ => htail⟩).imp_left (htouches.hasVictim hcrowded.1)
  · rw [show DirectorySystem.blocks _ a=_ from hblock]
    exact hrest

end

/-- Before the work on a request its block is ready. -/
def Prepared (cfg : DirectoryConfig) (m : Moment n δ) : Prop :=
  ∀a cached u,m.event = .process a cached u →
    m.state.config=cfg ∧ (m.state.blocks a).Ready cfg cached

theorem prepared_of_ne {m : Moment n δ} (h : ∀a cached u,m.event ≠ .process a cached u) : Prepared cfg m :=
  fun a cached u hm => absurd hm (h a cached u)

theorem nullifyNoted_prepared (s : DirectorySystem n δ) (v : ℕ) (requester : Fin n) :
    (s.nullifyNoted v requester).Meets (Prepared cfg) (fun _ => True) True := by
  rw [nullifyNoted]
  refine .note_bind (prepared_of_ne (by simp)) ?_
  split_ifs
  · refine .note_bind (prepared_of_ne (by simp)) (.ok_bind
      fun x _ => ?_)
    dsimp only
    split_ifs
    · exact .note_bind (prepared_of_ne (by simp)) (.note_bind (prepared_of_ne (by simp))
        (meets_anyhow _))
    · exact meets_pure trivial
  · exact meets_anyhow _

theorem ensureEntryNoted_prepared (s : DirectorySystem n δ) (a : ℕ) (r : ShmemReq n)
    (forwarder : Option (Fin n)) : (s.ensureEntryNoted a r forwarder).Meets (Prepared cfg)
    (fun _ => True) True := by
  rw [ensureEntryNoted]
  refine .note_bind (prepared_of_ne (by simp)) ?_
  dsimp only
  split_ifs
  · exact meets_pure trivial
  · exact meets_anyhow _
  · rw [processDirectoryEntryAllocationReqNoted]
    refine .note_bind (prepared_of_ne (by simp)) ?_
    dsimp only
    split
    · exact meets_anyhow _
    · exact .note_bind (prepared_of_ne (by simp)) (.ok_bind
        fun t _ => nullifyNoted_prepared t _ _)

theorem Working.ensureEntryNoted (h : s.Working cfg starved a cached) (hqueue : (s.blocks a).queue=r::rest)
    (forwarder : Option (Fin n)) : (s.ensureEntryNoted a r forwarder).Meets (Prepared cfg) (fun s' =>
      s'.Working cfg starved a cached ∧ s'.Present a ∧ (s'.blocks a).queue=r::rest) starved := by
  refine ⟨(ensureEntryNoted_prepared s a r forwarder).notes,?_⟩
  rw [ensureEntryNoted_result]
  exact h.ensureEntry hqueue forwarder

theorem Working.releaseNoted (h : s.Working cfg starved a cached) (hpresent : s.Present a) {nuca : Option δ}
    (hqueue : (s.blocks a).queue=r::rest) (hok : (s.blocks a).processFront cfg nuca u cached = .ok (x,true))
    (hworked : Block.Worked cfg (s.blocks a).toDram rest (x,true)) :
    ((s.setBlock a x).releaseNoted a r.type).Meets (Prepared cfg) (fun t =>
      t.Served cfg starved a ∧ (t.blocks a).queue.tail=rest) starved := by
  rw [DirectorySystem.releaseNoted]
  by_cases ht : r.type = .nullifyReq
  · rw [Block.processFront,hqueue] at hok
    simp only [ht] at hok
    obtain ⟨t,hinvalidate,hserved⟩:=h.nullifyDone hqueue ht hok hworked
    rw [if_pos ht,hinvalidate]
    exact .note_bind (prepared_of_ne (by simp)) (meets_quiet (Or.inl ⟨t,rfl,hserved⟩))
  · rw [if_neg ht]
    refine meets_pure ⟨h.answered hpresent hqueue ht hworked,?_⟩
    rw [setBlock_blocks_self]
    exact hworked.1

theorem Served.nextNoted (h : s.Served cfg starved a) {f : Watched n δ (DirectorySystem n δ)}
    (hf : (s.dequeue a).Working cfg starved a none → ((s.dequeue a).blocks a).queue=(s.blocks a).queue.tail →
      f.Meets (Prepared cfg) (fun s' => s'.Inv cfg) starved) :
    (do
      note ⟨s,.complete a⟩
      if ((s.dequeue a).blocks a).queue=[] then pure (s.dequeue a)
      else
        note ⟨s.dequeue a,.start a⟩
        f : Watched n δ _).Meets (Prepared cfg) (fun s' => s'.Inv cfg) starved := by
  have hblock : ((s.dequeue a).blocks a).queue=(s.blocks a).queue.tail := by rw [dequeue,setBlock_blocks_self]
  refine .note_bind (prepared_of_ne (by simp)) ?_
  split_ifs with hempty
  · exact meets_pure (h.inv (hblock.symm.trans hempty))
  · exact .note_bind (prepared_of_ne (by simp)) (hf (h.working (hblock ▸ hempty)) hblock)

theorem Working.workNoted (hmax : 0<cfg.maxHwSharers) (u : ℕ → Unspecified n δ) (k : ℕ)
    (h : s.Working cfg starved a cached) (hk : (s.blocks a).queue.length≤k) :
    (workNoted a u k cached s).Meets (Prepared cfg) (fun s' => s'.Inv cfg) starved := by
  -- each round answers a request, so the number of requests bounds the rounds
  induction k generalizing s cached with
  | zero => exact absurd (length_eq_zero_iff.mp (Nat.le_zero.mp hk)) h.queue
  | succ k ih =>
    obtain ⟨r,rest,hqueue⟩:=exists_cons_of_ne_nil h.queue
    rw [hqueue,length_cons,Nat.succ_le_succ_iff] at hk
    rw [DirectorySystem.workNoted,hqueue]
    refine (h.ensureEntryNoted hqueue (u k).forwarder).bind fun s₁ _ hensured => ?_
    obtain ⟨h₁,hpresent,hqueue₁⟩:=hensured
    refine .note_bind (fun _ _ _ hevent => ?_) ?_
    · cases hevent
      exact ⟨h₁.config,h₁.ready⟩
    obtain ⟨⟨x,done⟩,hok,hworked⟩:=h₁.ready.processFront hqueue₁ hmax (s₁.nuca.bind fun c => c.read a) (u k)
    simp only [h₁.config,hok,quiet_ok_bind]
    cases done with
    | false =>
      simp only [Bool.false_eq_true,if_false]
      exact meets_pure
        (h₁.waiting hpresent hqueue₁ (Block.processFront_keepsFront hqueue₁ hok) hworked)
    | true =>
      simp only [if_true]
      refine (h₁.releaseNoted hpresent hqueue₁ hok hworked).bind fun t _ hreleased => ?_
      obtain ⟨hserved,htail⟩:=hreleased
      exact hserved.nextNoted fun hworking hblock =>
        ih hworking ((congrArg length (hblock.trans htail)).trans_le hk)

/-- Data may have been written to the NUCA cache or be on its way to DRAM. -/
def Written (s s' : DirectorySystem n δ) : Prop :=
  ∃nuca blocks,s'={s with nuca,blocks} ∧
    ((∀c∈s.nuca,0<c.associativity) → ∀c∈nuca,0<c.associativity) ∧
    ∀a,∃toDram,blocks a={s.blocks a with toDram} ∧ unread toDram=unread (s.blocks a).toDram

theorem Written.refl (s : DirectorySystem n δ) : Written s s :=
  ⟨s.nuca,s.blocks,rfl,id,fun a => ⟨(s.blocks a).toDram,rfl,rfl⟩⟩

theorem Written.trans (h : Written s t) (h' : Written t s') : Written s s' := by
  obtain ⟨nuca,blocks,rfl,hways,hblocks⟩:=h
  obtain ⟨nuca',blocks',rfl,hways',hblocks'⟩:=h'
  refine ⟨nuca',blocks',rfl,hways' ∘ hways,fun a => ?_⟩
  obtain ⟨toDram,hblock,hunread⟩:=hblocks a
  obtain ⟨toDram',hblock',hunread'⟩:=hblocks' a
  dsimp only at hblock' hunread'
  rw [hblock] at hblock' hunread'
  exact ⟨toDram',hblock',hunread'.trans hunread⟩

theorem written_sendToDram (s : DirectorySystem n δ) (a : ℕ) (data : δ) :
    Written s (s.sendToDram a (.writeReq data)) := by
  refine ⟨s.nuca,_,rfl,id,fun b => ?_⟩
  by_cases hb : b=a
  · subst hb
    exact ⟨_,update_self ..,by simp [unread]⟩
  · exact ⟨_,update_of_ne hb ..,rfl⟩

theorem sendDataToNuca_associativity {c c' : NucaCache δ} {way : ℕ} {stack : Evicted δ}
    {dropped : List (DramWriteReq δ)} (h : c.sendDataToNuca a data way stack = .ok (c',dropped)) :
    c'.associativity=c.associativity := by
  obtain ⟨⟨c₁,out⟩,hwrite,hok⟩:=bind_ok h
  cases hok
  rw [NucaCache.write] at hwrite
  split at hwrite
  · cases hwrite
    rfl
  · obtain ⟨⟨c₂,victim⟩,hinsert,hout⟩:=bind_ok hwrite
    rw [NucaCache.insertSingleLine] at hinsert
    split_ifs at hinsert
    cases hinsert
    dsimp only at hout
    split at hout <;> cases hout <;> rfl

theorem sendDataToNuca_ok {c : NucaCache δ} (hways : 0<c.associativity) (a : ℕ) (data : δ) (way : ℕ)
    (stack : Evicted δ) : ∃x,c.sendDataToNuca a data (way % c.associativity) stack = .ok x := by
  have hway := Nat.mod_lt way hways
  cases hp : c.peekSingleLine a with
  | some line => exact ⟨_,NucaCache.sendDataToNuca_hit hp⟩
  | none =>
    simp only [NucaCache.sendDataToNuca,NucaCache.write,hp,NucaCache.insertSingleLine,if_pos hway,ok_bind]
    cases c.sets (c.setOf a) (way % c.associativity) with
    | none => exact ⟨_,rfl⟩
    | some victim => exact ⟨_,rfl⟩

theorem written_of_sendDataToNUCA (h : s.sendDataToNUCA a data u = .ok s') : Written s s' := by
  rw [DirectorySystem.sendDataToNUCA] at h
  cases hnuca : s.nuca with
  | none =>
    rw [hnuca] at h
    cases h
    exact .refl s
  | some c =>
    rw [hnuca] at h
    obtain ⟨⟨c',dropped⟩,hok,hs'⟩:=bind_ok h
    cases hs'
    clear h
    have hassoc := sendDataToNuca_associativity hok
    have hstart : Written s {s with nuca:=some c'} := by
      refine ⟨some c',s.blocks,rfl,fun hways d hd => ?_,fun b => ⟨(s.blocks b).toDram,rfl,rfl⟩⟩
      cases hd
      rw [hassoc]
      exact hways c hnuca
    -- each block that is dropped goes to DRAM
    clear hok
    generalize ({s with nuca:=some c'} : DirectorySystem n δ)=t at hstart
    induction dropped generalizing t with
    | nil => exact hstart
    | cons w dropped ih => exact ih _ (hstart.trans (written_sendToDram t w.address w.data))

theorem written_of_sendDataToDram (h : s.sendDataToDram a data u = .ok s') : Written s s' := by
  rw [DirectorySystem.sendDataToDram] at h
  split_ifs at h
  · exact written_of_sendDataToNUCA h
  · cases h
    exact written_sendToDram s a data

theorem Written.of_option {o : Option δ} {x : Except Abort (DirectorySystem n δ)} (hnone : o=none → x = .ok s)
    (hsome : ∀data,o=some data → x=s.sendDataToDram a data u) (h : x = .ok s') : Written s s' := by
  cases ho : o with
  | none =>
    rw [hnone ho] at h
    cases h
    exact .refl s
  | some data => exact written_of_sendDataToDram ((hsome data ho).symm.trans h)

theorem sendDataToNUCA_written (hways : ∀c∈s.nuca,0<c.associativity) (a : ℕ) (data : δ)
    (u : Unspecified n δ) : ∃s',s.sendDataToNUCA a data u = .ok s' ∧ Written s s' := by
  obtain ⟨s',hok⟩ : ∃s',s.sendDataToNUCA a data u = .ok s' := by
    rw [DirectorySystem.sendDataToNUCA]
    cases hnuca : s.nuca with
    | none => exact ⟨s,rfl⟩
    | some c =>
      obtain ⟨x,hok⟩:=sendDataToNuca_ok (hways c hnuca) a data u.way u.stack
      simp only [hok,ok_bind]
      exact ⟨_,rfl⟩
  exact ⟨s',hok,written_of_sendDataToNUCA hok⟩

theorem sendDataToDram_written (hways : ∀c∈s.nuca,0<c.associativity) (a : ℕ) (data : δ)
    (u : Unspecified n δ) : ∃s',s.sendDataToDram a data u = .ok s' ∧ Written s s' := by
  rw [DirectorySystem.sendDataToDram]
  split_ifs
  · exact sendDataToNUCA_written hways a data u
  · exact ⟨_,rfl,written_sendToDram s a data⟩

section

variable (h : Written s s')
include h

theorem Written.base (hbase : s.Base cfg) : s'.Base cfg := by
  obtain ⟨nuca,blocks,rfl,hways,-⟩:=h
  exact ⟨hbase.config,hbase.entries.congr rfl rfl rfl,hways hbase.ways⟩

theorem Written.blockInv (hinv : s.BlockInv cfg a) : s'.BlockInv cfg a := by
  obtain ⟨nuca,blocks,rfl,-,hblocks⟩:=h
  obtain ⟨toDram,hblock,hunread⟩:=hblocks a
  refine .of_block hblock (hinv.rests.withDram toDram) ?_ hinv.absent hinv.nullified hinv.overflow
  rw [hunread]
  exact hinv.reads

theorem Written.inv (hinv : s.Inv cfg) : s'.Inv cfg := ⟨h.base hinv.toBase,fun a => h.blockInv (hinv.blocks a)⟩

theorem Written.queue (a : ℕ) : (s'.blocks a).queue=(s.blocks a).queue := by
  obtain ⟨nuca,blocks,rfl,-,hblocks⟩:=h
  obtain ⟨toDram,hblock,-⟩:=hblocks a
  show (blocks a).queue=_
  rw [hblock]

theorem Written.hasVictim (hv : s.HasVictim a) : s'.HasVictim a := by
  obtain ⟨v,hmem,hqueue⟩:=hv
  have hsame := h.queue v
  obtain ⟨nuca,blocks,rfl,-,-⟩:=h
  exact ⟨v,hmem,hsame.trans hqueue⟩

theorem Written.working (hworking : s.Working cfg starved a cached) : s'.Working cfg starved a cached := by
  have hvictim := fun hneeds => (hworking.victim hneeds).imp_left h.hasVictim
  have hothers := fun b hb => h.blockInv (hworking.others b hb)
  have hbase := h.base hworking.toBase
  obtain ⟨nuca,blocks,rfl,-,hblocks⟩:=h
  obtain ⟨toDram,hblock,hunread⟩:=hblocks a
  refine ⟨hbase,hothers,?_,?_,?_,?_,?_,?_,fun hneeds => hvictim ⟨hneeds.1,?_⟩⟩
  all_goals dsimp only [NeedsVictim] at *
  all_goals rw [hblock] at *
  · have h := hworking.ready
    exact ⟨⟨h.proper,h.distinct,h.fresh⟩,h.fits,h.pending,h.useful,h.forwarder⟩
  · exact hworking.queue
  · exact ⟨hunread.trans hworking.reads.1,hworking.reads.2⟩
  · exact hworking.absent
  · exact hworking.nullified
  · exact hworking.overflow
  · exact hneeds.2

theorem Written.served (hserved : s.Served cfg starved a) : s'.Served cfg starved a := by
  have hvictim := fun hcrowded htail => (hserved.victim hcrowded htail).imp_left h.hasVictim
  have hothers := fun b hb => h.blockInv (hserved.others b hb)
  have hbase := h.base hserved.toBase
  obtain ⟨nuca,blocks,rfl,-,hblocks⟩:=h
  obtain ⟨toDram,hblock,hunread⟩:=hblocks a
  refine ⟨hbase,hothers,?_,?_,?_,hserved.replaced,fun hcrowded htail => hvictim hcrowded ?_⟩
  all_goals dsimp only at *
  all_goals rw [hblock] at *
  · have h := hserved.settled
    exact ⟨h.proper,h.distinct,h.fresh,h.fits,h.forwarder⟩
  · exact ⟨hunread.trans hserved.reads.1,hserved.reads.2⟩
  · exact hserved.absent
  · exact htail

end

end DirectorySystem

end Sniper.Coherence
