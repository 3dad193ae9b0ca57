import Sniper.DirectorySafety

/-!
# Entries and queues at every moment

What is said here holds of any protocol and any number of sharers.
-/

namespace Sniper.Coherence
open FallibleRuns NotedRuns NotedRuns.Noted List

variable {n : ℕ} {δ : Type}

theorem frontNullify_iff {queue : List (ShmemReq n)} :
    frontNullify queue ↔ ∃k,(kinds queue).head?=some k ∧ k.1 = .nullifyReq := by
  cases queue with
  | nil => simp [frontNullify,kinds]
  | cons r rest => simp [frontNullify,kinds,ShmemReq.kind]

theorem kinds_eq_nil {queue : List (ShmemReq n)} : kinds queue=[] ↔ queue=[] := map_eq_nil_iff

theorem kinds_tail (queue : List (ShmemReq n)) : kinds queue.tail=(kinds queue).tail := map_tail

namespace DirectorySystem

variable {s s' t : DirectorySystem n δ} {a b v : ℕ} {cached : Option δ} {starved : Prop}

section

variable (s)

structure Arranged : Prop where
  entries : s.Entries
  ways : ∀i,(s.slots i).length=s.associativity

/-- The requests of a block and its entry agree. -/
structure Booked (a : ℕ) : Prop where
  nullified : a∈s.replaced ↔ frontNullify (s.blocks a).queue
  behind : ∀k∈(kinds (s.blocks a).queue).tail,k.1 ≠ .nullifyReq

structure Tidy : Prop extends s.Arranged where
  booked : ∀a,s.Booked a

end

theorem Booked.congr (h : s.Booked b) (hkinds : kinds (s'.blocks b).queue=kinds (s.blocks b).queue)
    (hreplaced : b∈s'.replaced ↔ b∈s.replaced) : s'.Booked b := by
  refine ⟨?_,hkinds ▸ h.behind⟩
  rw [hreplaced,h.nullified,frontNullify_iff,frontNullify_iff,hkinds]

theorem Touches.booked (h : Touches a s s') (hb : b≠a) (hbooked : s.Booked b) : s'.Booked b := by
  obtain ⟨blocks,replaced,rfl,hblocks,hreplaced⟩:=h
  exact hbooked.congr (congrArg (fun x => kinds x.queue) (hblocks b hb)) (hreplaced b hb)

theorem Arranged.setBlock (h : s.Arranged) (a : ℕ) (x : Block n δ) : (s.setBlock a x).Arranged :=
  ⟨h.entries.congr rfl rfl rfl,h.ways⟩

theorem booked_of_plain (ha : a∉s.replaced) (h : ∀k∈kinds (s.blocks a).queue,k.1 ≠ .nullifyReq) :
    s.Booked a := by
  refine ⟨iff_of_false ha fun hfront => ?_,fun k hk => h k (mem_of_mem_tail hk)⟩
  obtain ⟨k,hk,ht⟩:=frontNullify_iff.mp hfront
  exact h k (mem_of_head? hk) ht

theorem Tidy.setBlock (h : s.Tidy) {x : Block n δ} (hkinds : kinds x.queue=kinds (s.blocks a).queue) :
    (s.setBlock a x).Tidy := by
  refine ⟨h.toArranged.setBlock a x,fun b => (h.booked b).congr ?_ Iff.rfl⟩
  by_cases hb : b=a
  · subst hb
    rw [setBlock_blocks_self,hkinds]
  · rw [setBlock_blocks_of_ne s x hb]

theorem Tidy.enqueue (h : s.Tidy) {x : Block n δ} {ks : List (RequestType × Fin n)}
    (hks : ∀k∈ks,k.1 ≠ .nullifyReq) (hkinds : kinds x.queue=kinds (s.blocks a).queue++ks) :
    (s.setBlock a x).Tidy := by
  refine ⟨h.toArranged.setBlock a x,fun b => ?_⟩
  by_cases hb : b=a
  · subst hb
    obtain ⟨hnullified,hbehind⟩:=h.booked b
    cases hqueue : kinds (s.blocks b).queue with
    | nil =>
      rw [hqueue,nil_append] at hkinds
      refine booked_of_plain (fun hin => ?_) (by rw [setBlock_blocks_self,hkinds]; exact hks)
      obtain ⟨k,hk,-⟩:=frontNullify_iff.mp (hnullified.mp hin)
      rw [hqueue] at hk
      cases hk
    | cons k rest =>
      rw [hqueue] at hbehind hkinds
      refine ⟨hnullified.trans ?_,?_⟩
      · rw [frontNullify_iff,frontNullify_iff,setBlock_blocks_self,hkinds,hqueue]
        rfl
      · rw [setBlock_blocks_self,hkinds]
        exact fun k' hk' => (mem_append.mp hk').elim (hbehind k') (hks k')
  · exact (touches_setBlock s a x).booked hb (h.booked b)

theorem Tidy.congr (h : s.Tidy) {pointers : ℕ → ℕ} {nuca : Option (NucaCache δ)} {memory : ℕ → δ}
    {fromDram : ℕ → List δ} {blocks : ℕ → Block n δ} (hqueue : ∀b,(blocks b).queue=(s.blocks b).queue) :
    ({s with pointers,nuca,memory,fromDram,blocks} : DirectorySystem n δ).Tidy :=
  ⟨⟨h.entries.congr rfl rfl rfl,h.ways⟩,fun b => (h.booked b).congr (congrArg kinds (hqueue b)) Iff.rfl⟩

theorem Tidy.written (h : s.Tidy) (hwritten : Written s t) : t.Tidy := by
  have hqueue := hwritten.queue
  obtain ⟨nuca,blocks,rfl,-,-⟩:=hwritten
  exact h.congr hqueue

/-- The entries are in order, and each call finds what it needs. -/
def Orderly (starved : Prop) (m : Moment n δ) : Prop :=
  m.state.Entries ∧
    match m.event with
    | .arrive a r => r.type = .nullifyReq → (m.state.blocks a).queue=[]
    | .start a => (m.state.blocks a).queue≠[]
    | .allocate a => m.state.Crowded a ∧ a∉m.state.replaced ∧ (m.state.HasVictim a ∨ starved)
    | .replace victim _ => m.state.Slotted victim
    | .invalidate a => a∈m.state.replaced
    | .complete a => (m.state.blocks a).queue≠[] ∧
        ∀k∈(kinds (m.state.blocks a).queue).tail,k.1 ≠ .nullifyReq
    | .lookup _ | .process .. | .deliver .. => True

theorem Arranged.invalidate (h : t.Arranged) (hothers : ∀b≠v,t.Booked b) (hv : v∈t.replaced) :
    ∃t',t.invalidateDirectoryEntry v = .ok t' ∧ t'.Arranged ∧ (∀b≠v,t'.Booked b) ∧
      v∉t'.replaced ∧ Touches v t t' ∧ t'.blocks=t.blocks :=
  ⟨_,if_pos hv,⟨h.entries.erase v,h.ways⟩,fun b hb => (touches_erase t v).booked hb (hothers b hb),
    h.entries.nodup.not_mem_erase,touches_erase t v,rfl⟩

theorem Arranged.nullifyNoted (h : t.Arranged) (hothers : ∀b≠v,t.Booked b) (hv : v∈t.replaced)
    (hqueue : (t.blocks v).queue=[]) (requester : Fin n) :
    (t.nullifyNoted v requester).Meets (Orderly starved) (fun t' => t'.Tidy ∧ Touches v t t') True := by
  rw [DirectorySystem.nullifyNoted]
  refine .note_bind ⟨h.entries,fun _ => hqueue⟩ ?_
  rw [if_pos hqueue]
  refine .note_bind ⟨(h.setBlock v _).entries,by simp⟩ ?_
  refine .ok_bind fun p hok => ?_
  obtain ⟨x,done⟩:=p
  have hkinds := (Block.processNullifyReq_serves (r:=.new .nullifyReq requester) rfl hok).kinds
  have htouches := touches_setBlock t v x
  cases done with
  | true =>
    have hdone : (t.setBlock v x).Entries := (h.setBlock v x).entries
    refine .note_bind ⟨hdone,hv⟩ (.note_bind ⟨hdone,?_⟩ ?_)
    · simp only [setBlock_blocks_self]
      refine ⟨fun hempty => ?_,by rw [hkinds]; simp [kinds]⟩
      rw [hempty] at hkinds
      cases hkinds
    · obtain ⟨t',hok',harranged,hothers',hv',htouches',hblocks⟩:=(h.setBlock v
        {x with queue:=x.queue.tail}).invalidate
          (fun b hb => (touches_setBlock t v _).booked hb (hothers b hb)) hv
      rw [hok']
      refine meets_quiet (yields_ok ⟨⟨harranged,fun b => ?_⟩,(touches_setBlock t v _).trans htouches'⟩ _)
      by_cases hb : b=v
      · subst hb
        refine booked_of_plain hv' ?_
        rw [hblocks,setBlock_blocks_self,kinds_tail,hkinds]
        simp [kinds]
      · exact hothers' b hb
  | false =>
    refine meets_pure ⟨⟨h.setBlock v x,fun b => ?_⟩,htouches⟩
    by_cases hb : b=v
    · subst hb
      refine ⟨iff_of_true hv (frontNullify_iff.mpr ⟨(.nullifyReq,requester),?_,rfl⟩),?_⟩
      · rw [setBlock_blocks_self,hkinds]
        rfl
      · rw [setBlock_blocks_self,hkinds]
        simp [kinds]
    · exact htouches.booked hb (hothers b hb)

theorem Arranged.seat_ways (h : s.Arranged) (old : Option ℕ) (a i : ℕ) :
    ((s.seat old a).slots i).length=s.associativity := by
  rw [seat_slots]
  split_ifs
  · rw [length_replace,h.ways]
  · exact h.ways i

theorem Arranged.swap (h : s.Arranged) (hv : some v∈s.slots (s.setIndex a)) (ha : s.Crowded a)
    (hreplaced : a∉s.replaced) :
    ({s.seat (some v) a with replaced:=s.replaced++[v]} : DirectorySystem n δ).Arranged :=
  ⟨h.entries.swap hv ha hreplaced,h.seat_ways _ a⟩

theorem Tidy.allocateNoted (h : s.Tidy) (hcrowded : s.Crowded a) (ha : a∉s.replaced)
    (hvictim : s.HasVictim a ∨ starved) (requester : Fin n) (forwarder : Option (Fin n)) :
    (s.processDirectoryEntryAllocationReqNoted a requester forwarder).Meets (Orderly starved)
      (fun s' => s'.Tidy ∧ s'.Slotted a ∧ (s'.blocks a).queue=(s.blocks a).queue) True := by
  rw [processDirectoryEntryAllocationReqNoted]
  refine .note_bind ⟨h.entries,hcrowded,ha,hvictim⟩ ?_
  dsimp only
  cases hcandidate : (s.getReplacementCandidates a).2.replacementCandidate
      (s.getReplacementCandidates a).1 with
  | none => exact meets_error _
  | some v =>
    obtain ⟨hv,hqueue⟩:=replacementCandidate_mem hcandidate
    -- the replacement pointer of the set has moved on
    obtain ⟨s₁,hs₁⟩ : ∃s₁,s₁=(s.getReplacementCandidates a).2:=⟨_,rfl⟩
    have h₁ : s₁.Tidy := hs₁ ▸ h.congr fun _ => rfl
    have hblocks : s₁.blocks=s.blocks := hs₁ ▸ rfl
    have hv₁ : some v∈s₁.slots (s₁.setIndex a) := hs₁ ▸ hv
    have hcrowded₁ : s₁.Crowded a := hs₁ ▸ hcrowded
    have ha₁ : a∉s₁.replaced := hs₁ ▸ ha
    have hslotted : s₁.Slotted v := by rwa [Slotted,h₁.entries.index _ _ hv₁]
    have hva : v≠a := by
      rintro rfl
      exact hcrowded₁.1 hslotted
    rw [← hs₁]
    refine .note_bind ⟨h₁.entries,hslotted⟩ ?_
    rw [h₁.entries.replaceDirectoryEntry hv₁,quiet_ok_bind]
    obtain ⟨t,ht⟩ : ∃t,t={s₁.seat (some v) a with replaced:=s₁.replaced++[v]}:=⟨_,rfl⟩
    have htblocks : t.blocks=s.blocks := ht ▸ hblocks
    have harranged : t.Arranged := ht ▸ h₁.toArranged.swap hv₁ hcrowded₁ ha₁
    have hreplaced : t.replaced=s₁.replaced++[v] := ht ▸ rfl
    have hin : t.Slotted a := ht ▸ seat_slotted_self hv₁ hcrowded₁.1
    have hkinds : ∀b,kinds ((t.freshEntry a forwarder).blocks b).queue=kinds (s₁.blocks b).queue := by
      intro b
      rw [freshEntry,htblocks,hblocks]
      by_cases hb : b=a
      · subst hb
        rw [setBlock_blocks_self]
        rfl
      · rw [setBlock_blocks_of_ne _ _ hb,htblocks]
    rw [← ht]
    have hfresh : (t.freshEntry a forwarder).Arranged := harranged.setBlock a _
    have hnullify : ((t.freshEntry a forwarder).nullifyNoted v requester).Meets (Orderly starved) _ True :=
      hfresh.nullifyNoted (fun b hb => (h₁.booked b).congr (hkinds b) ?_) ?_ ?_ requester
    · refine ⟨hnullify.notes,hnullify.result.mono (fun s' hs' => ⟨hs'.1,?_⟩) id⟩
      obtain ⟨blocks,replaced,rfl,hsame,-⟩:=hs'.2
      refine ⟨hin,?_⟩
      rw [show DirectorySystem.blocks _ a=_ from hsame a hva.symm,freshEntry,setBlock_blocks_self,htblocks]
      rfl
    · show b∈t.replaced ↔ _
      rw [hreplaced,mem_append,mem_singleton]
      exact or_iff_left hb
    · show v∈t.replaced
      rw [hreplaced]
      exact mem_append_right _ mem_cons_self
    · rw [freshEntry,setBlock_blocks_of_ne _ _ hva,htblocks]
      exact hqueue

theorem Tidy.fill (h : s.Tidy) (hfree : none∈s.slots (s.setIndex a)) (hout : ¬ s.Slotted a)
    (forwarder : Option (Fin n)) : ((s.seat none a).freshEntry a forwarder).Tidy := by
  have htidy : (s.seat none a).Tidy := ⟨⟨h.entries.fill hfree hout,h.seat_ways none a⟩,
    fun b => (h.booked b).congr rfl Iff.rfl⟩
  exact htidy.setBlock rfl

theorem Tidy.getDirectoryEntry (h : s.Tidy) (a : ℕ) (forwarder : Option (Fin n)) :
    ∃found s',s.getDirectoryEntry a forwarder=(found,s') ∧ s'.Tidy ∧
      (found=true ↔ s'.Present a) ∧ (s'=s ∨ s'.Slotted a) ∧
      (∀b,(s'.blocks b).queue=(s.blocks b).queue) ∧ (∀b,(s'.blocks b).lines=(s.blocks b).lines) := by
  by_cases hin : s.Slotted a
  · exact ⟨true,s,getDirectoryEntry_slotted hin _,h,iff_of_true rfl (Or.inl hin),Or.inl rfl,fun _ => rfl,
      fun _ => rfl⟩
  by_cases hfree : none∈s.slots (s.setIndex a)
  · have hin' : ((s.seat none a).freshEntry a forwarder).Slotted a := seat_slotted_self hfree hin
    refine ⟨true,_,getDirectoryEntry_free hin hfree _,h.fill hfree hin forwarder,
      iff_of_true rfl (Or.inl hin'),Or.inr hin',fun b => ?_,fun b => ?_⟩
    all_goals
      rw [freshEntry]
      by_cases hb : b=a
      · subst hb
        rw [setBlock_blocks_self]
        rfl
      · rw [setBlock_blocks_of_ne _ _ hb]
        rfl
  · refine ⟨_,s,getDirectoryEntry_crowded ⟨hin,hfree⟩ _,h,?_,Or.inl rfl,fun _ => rfl,fun _ => rfl⟩
    rw [decide_eq_true_iff]
    exact ⟨Or.inr,fun hpresent => hpresent.resolve_left hin⟩

theorem victim_of_slotted (hcase : s'=s ∨ s'.Slotted a)
    (hvictim : s.NeedsVictim a → s.HasVictim a ∨ starved) : s'.NeedsVictim a → s'.HasVictim a ∨ starved := by
  rcases hcase with rfl | hin
  · exact hvictim
  · exact fun hneeds => absurd hin hneeds.1.1

theorem Tidy.ensureEntryNoted (h : s.Tidy) {r : ShmemReq n}
    (hvictim : s.NeedsVictim a → s.HasVictim a ∨ starved) (forwarder : Option (Fin n)) :
    (s.ensureEntryNoted a r forwarder).Meets (Orderly starved) (fun s' => s'.Tidy ∧ s'.Present a ∧
      (s'.blocks a).queue=(s.blocks a).queue ∧ (s'.NeedsVictim a → s'.HasVictim a ∨ starved)) True := by
  obtain ⟨found,s₁,hget,h₁,hfound,hcase,hqueue,-⟩:=h.getDirectoryEntry a forwarder
  rw [DirectorySystem.ensureEntryNoted,hget]
  refine .note_bind ⟨h.entries,trivial⟩ ?_
  have hvictim₁ := victim_of_slotted hcase hvictim
  dsimp only
  cases found with
  | true =>
    rw [if_pos rfl]
    exact meets_pure ⟨h₁,hfound.mp rfl,hqueue a,hvictim₁⟩
  | false =>
    have hout : ¬ s₁.Present a := fun hin => Bool.false_ne_true (hfound.mpr hin)
    obtain ⟨hslotted,ha⟩:=not_or.mp hout
    rcases hcase with rfl | hin
    · have hcrowded : s₁.Crowded a := by
        refine ⟨hslotted,fun hfree => ?_⟩
        rw [getDirectoryEntry_free hslotted hfree] at hget
        cases congrArg Prod.fst hget
      rw [if_neg Bool.false_ne_true]
      split_ifs
      · exact meets_error _
      · have hallocate := h₁.allocateNoted hcrowded ha (hvictim ⟨hcrowded,fun hin => absurd hin ha⟩)
          r.requester forwarder
        refine ⟨hallocate.notes,hallocate.result.mono (fun s' hs' => ?_) id⟩
        exact ⟨hs'.1,Or.inl hs'.2.1,hs'.2.2,fun hneeds => absurd hs'.2.1 hneeds.1.1⟩
    · exact absurd hin hslotted

/-- The front request of a block has been answered, and its entry is not a replaced one. -/
structure Answered (s : DirectorySystem n δ) (a : ℕ) : Prop extends s.Arranged where
  others : ∀b≠a,s.Booked b
  replaced : a∉s.replaced
  queue : (s.blocks a).queue≠[]
  behind : ∀k∈(kinds (s.blocks a).queue).tail,k.1 ≠ .nullifyReq

theorem Answered.tidy (h : s.Answered a) : (s.dequeue a).Tidy := by
  refine ⟨h.toArranged.setBlock a _,fun b => ?_⟩
  by_cases hb : b=a
  · subst hb
    refine booked_of_plain h.replaced ?_
    rw [dequeue,setBlock_blocks_self,kinds_tail]
    exact h.behind
  · exact (touches_setBlock s a _).booked hb (h.others b hb)

theorem Tidy.answered (h : s.Tidy) {k : RequestType × Fin n} {ks : List (RequestType × Fin n)}
    (hkinds : kinds (s.blocks a).queue=k::ks) (ht : k.1 ≠ .nullifyReq) : s.Answered a := by
  refine ⟨h.toArranged,fun b _ => h.booked b,fun ha => ?_,fun hempty => ?_,(h.booked a).behind⟩
  · obtain ⟨k',hk',ht'⟩:=frontNullify_iff.mp ((h.booked a).nullified.mp ha)
    rw [hkinds] at hk'
    cases hk'
    exact ht ht'
  · rw [hempty] at hkinds
    cases hkinds

theorem Tidy.releaseNoted (h : s.Tidy) {k : RequestType × Fin n} {ks : List (RequestType × Fin n)}
    (hkinds : kinds (s.blocks a).queue=k::ks) : (s.releaseNoted a k.1).Meets (Orderly starved)
      (fun t => t.Answered a ∧ Touches a s t ∧ t.blocks=s.blocks) True := by
  rw [DirectorySystem.releaseNoted]
  by_cases ht : k.1 = .nullifyReq
  · have ha : a∈s.replaced := (h.booked a).nullified.mpr (frontNullify_iff.mpr ⟨k,by rw [hkinds]; rfl,ht⟩)
    obtain ⟨t,hok,harranged,hothers,ha',htouches,hblocks⟩:=h.toArranged.invalidate (fun b _ => h.booked b) ha
    rw [if_pos ht,hok]
    refine .note_bind ⟨h.entries,ha⟩ (meets_quiet (Or.inl ⟨t,rfl,?_,htouches,hblocks⟩))
    refine ⟨harranged,hothers,ha',fun hempty => ?_,?_⟩
    · rw [hblocks] at hempty
      rw [hempty] at hkinds
      cases hkinds
    · rw [hblocks]
      exact (h.booked a).behind
  · rw [if_neg ht]
    exact meets_pure ⟨h.answered hkinds ht,.refl a s,rfl⟩

theorem Answered.nextNoted (h : s.Answered a) {k : ℕ} {u : ℕ → Unspecified n δ}
    (hwork : (s.dequeue a).Tidy → ((s.dequeue a).blocks a).queue≠[] →
      (workNoted a u k none (s.dequeue a)).Meets (Orderly starved) Tidy True) :
    (do
      note ⟨s,.complete a⟩
      if ((s.dequeue a).blocks a).queue=[] then pure (s.dequeue a)
      else
        note ⟨s.dequeue a,.start a⟩
        workNoted a u k none (s.dequeue a) : Watched n δ _).Meets (Orderly starved) Tidy True := by
  refine .note_bind ⟨h.entries,h.queue,h.behind⟩ ?_
  split_ifs with hempty
  · exact meets_pure h.tidy
  · exact .note_bind ⟨h.tidy.entries,hempty⟩ (hwork h.tidy hempty)

theorem Tidy.workNoted (h : s.Tidy) (u : ℕ → Unspecified n δ) (k : ℕ)
    (hvictim : s.NeedsVictim a → s.HasVictim a ∨ starved) :
    (workNoted a u k cached s).Meets (Orderly starved) Tidy True := by
  induction k generalizing s cached with
  | zero => exact meets_error _
  | succ k ih =>
    rw [DirectorySystem.workNoted]
    cases hqueue : (s.blocks a).queue with
    | nil => exact meets_error _
    | cons r rest =>
      dsimp only
      refine (h.ensureEntryNoted hvictim _).bind fun s₁ _ hensured => ?_
      obtain ⟨h₁,-,hqueue₁,hvictim₁⟩:=hensured
      rw [hqueue] at hqueue₁
      refine .note_bind ⟨h₁.entries,trivial⟩ ?_
      refine .ok_bind fun p hok => ?_
      obtain ⟨x,done⟩:=p
      have hkinds := (Block.processFront_serves hqueue₁ hok).kinds
      have h₂ : (s₁.setBlock a x).Tidy := h₁.setBlock hkinds
      cases done with
      | false => exact meets_pure h₂
      | true =>
        simp only [if_true]
        have hfront : kinds ((s₁.setBlock a x).blocks a).queue=r.kind::kinds rest := by
          rw [setBlock_blocks_self,hkinds,hqueue₁]
          rfl
        refine (h₂.releaseNoted hfront).bind fun t _ hreleased => ?_
        obtain ⟨hanswered,htouches,hblocks⟩:=hreleased
        refine hanswered.nextNoted fun htidy hmore => ih htidy fun hneeds => ?_
        -- a block that lost its entry needs another one, for the requests behind it
        have htouched := ((touches_setBlock s₁ a x).trans htouches).trans (touches_setBlock t a
          {t.blocks a with queue:=(t.blocks a).queue.tail})
        have hcrowded : s₁.Crowded a := by
          obtain ⟨blocks,replaced,hdequeue,-,-⟩:=htouched
          have hcrowded := hneeds.1
          rw [dequeue,hdequeue] at hcrowded
          exact hcrowded
        refine (hvictim₁ ⟨hcrowded,fun _ hlast => hmore ?_⟩).imp_left (htouched.hasVictim hcrowded.1)
        rw [← kinds_eq_nil,dequeue,setBlock_blocks_self,kinds_tail,hblocks,hfront]
        rw [hqueue₁] at hlast
        exact kinds_eq_nil.mpr hlast

theorem noteRequest_orderly (s : DirectorySystem n δ) (m : DirectoryMsg δ)
    {event : RequestType → DirectoryEvent n δ}
    (hevent : ∀type,m.request=some type → Orderly starved ⟨s,event type⟩) :
    (s.noteRequest m event).Meets (Orderly starved) (fun _ => True) True := by
  rw [noteRequest]
  cases hm : m.request with
  | none => exact meets_pure trivial
  | some type => exact .note_bind (hevent type hm) (meets_pure trivial)

theorem request_ne_nullify {m : DirectoryMsg δ} {type : RequestType} (h : m.request=some type) :
    type ≠ .nullifyReq := by
  cases m <;> cases h <;> decide

theorem needsVictim_handled {handled : Handled n δ} {m : DirectoryMsg δ} {c : Fin n}
    (hok : ((s.blocks a).popMessage c).handleMsgFromL2Cache c m = .ok handled) (hwork : handled.work.isSome)
    (hwritten : Written (s.setBlock a handled.block) t) (hvictim : s.NeedsVictim a → s.HasVictim a ∨ starved)
    (hneeds : t.NeedsVictim a) : t.HasVictim a ∨ starved := by
  have hqueue := hwritten.queue a
  have htail : handled.block.queue.tail=(s.blocks a).queue.tail := (Block.handleMsg_keepsQueue hok).2 hwork
  rw [setBlock_blocks_self] at hqueue
  have hneeds' : s.NeedsVictim a := by
    obtain ⟨nuca,blocks,rfl,-,-⟩:=hwritten
    refine ⟨hneeds.1,fun ha => ?_⟩
    rw [← htail,← hqueue]
    exact hneeds.2 ha
  exact (hvictim hneeds').imp_left fun hv =>
    hwritten.hasVictim ((touches_setBlock s a _).hasVictim hneeds'.1.1 hv)

theorem Tidy.handleMsgNoted (h : s.Tidy) {m : DirectoryMsg δ}
    (hvictim : (s.blocks a).NeedsEntry m → s.NeedsVictim a → s.HasVictim a ∨ starved) (c : Fin n)
    (u : ℕ → Unspecified n δ) :
    (s.handleMsgFromL2CacheNoted c a u m).Meets (Orderly starved) Tidy True := by
  obtain ⟨found,s₁,hget,h₁,hfound,hcase,-,-⟩:=
    h.getDirectoryEntry a (u ((s.blocks a).queue.length+1)).forwarder
  have hvictim₁ : (s₁.blocks a).NeedsEntry m → s₁.NeedsVictim a → s₁.HasVictim a ∨ starved := by
    rcases hcase with rfl | hin
    · exact hvictim
    · exact fun _ hneeds => absurd hin hneeds.1.1
  rw [handleMsgFromL2CacheNoted,hget]
  refine .note_bind ⟨h.entries,trivial⟩ ?_
  dsimp only
  split_ifs with hlost
  · exact meets_error _
  refine (noteRequest_orderly s₁ m fun type hm =>
    ⟨h₁.entries,fun ht => absurd ht (request_ne_nullify hm)⟩).bind fun _ _ _ => ?_
  refine .ok_bind fun handled hok => ?_
  obtain ⟨hkinds,-,-,hnonempty⟩:=Block.handleMsg_kinds hok
  have h₂ : (s₁.setBlock a handled.block).Tidy := by
    refine h₁.enqueue (fun k hk => ?_) hkinds
    rw [Option.mem_toList,Option.map_eq_some_iff] at hk
    obtain ⟨type,hm,rfl⟩:=hk
    exact request_ne_nullify hm
  refine .quiet_bind (Q:=fun t => Written (s₁.setBlock a handled.block) t)
    (yields_of_ok trivial fun t ht => .of_option (o:=handled.writeBack) (fun h => by rw [h])
      (fun data h => by rw [h]) ht) fun t _ hwritten => ?_
  have h₃ := h₂.written hwritten
  cases hwork : handled.work with
  | none => exact meets_pure h₃
  | some cached =>
    have hsome : handled.work.isSome := by rw [hwork]; rfl
    have hqueue : (t.blocks a).queue≠[] := by
      rw [hwritten.queue,setBlock_blocks_self]
      exact hnonempty hsome
    have hneeds : s₁.NeedsVictim a → s₁.HasVictim a ∨ starved := fun hneeds =>
      hvictim₁ (Block.handleMsg_needsEntry (b:=(s₁.blocks a).popMessage c) hok hsome fun hm =>
        (h₁.booked a).nullified.mp ((hfound.mp (by simpa [hm] using hlost)).resolve_left hneeds.1.1)) hneeds
    exact (noteRequest_orderly t m fun _ _ => ⟨h₃.entries,hqueue⟩).bind fun _ _ _ =>
      h₃.workNoted u _ (needsVictim_handled hok hsome hwritten hneeds)

theorem Tidy.dramReplyNoted (h : s.Tidy) (a : ℕ) (u : ℕ → Unspecified n δ) (data : δ) :
    (s.processDRAMReplyNoted a u data).Meets (Orderly starved) Tidy True := by
  obtain ⟨found,s₁,hget,h₁,hfound,-,-,-⟩:=h.getDirectoryEntry a (u (s.blocks a).queue.length).forwarder
  rw [processDRAMReplyNoted,hget]
  refine .note_bind ⟨h.entries,trivial⟩ ?_
  dsimp only
  split_ifs with hpresent
  swap
  · exact meets_error _
  refine .ok_bind fun x hok => ?_
  refine .quiet_bind (yields_of_ok trivial fun _ ht => written_of_sendDataToNUCA ht)
    fun t _ hwritten => ?_
  obtain ⟨r,rest,hqueue⟩:=Block.exists_front_of_processDRAMReply hok
  obtain ⟨hsame,ht,-⟩:=Block.processDRAMReply_answered hqueue hok
  have h₂ : (s₁.setBlock a x).Tidy := h₁.setBlock (congrArg kinds hsame)
  have hfront : kinds ((s₁.setBlock a x).blocks a).queue=r.kind::kinds rest := by
    rw [setBlock_blocks_self,hsame,hqueue]
    rfl
  have hslotted : (s₁.setBlock a x).Slotted a :=
    (hfound.mp hpresent).resolve_right (h₂.answered hfront ht).replaced
  have hslotted' : (t.dequeue a).Slotted a := by
    obtain ⟨nuca,blocks,rfl,-,-⟩:=hwritten
    exact hslotted
  have hfront' : kinds (t.blocks a).queue=r.kind::kinds rest := by rw [hwritten.queue,hfront]
  exact ((h₂.written hwritten).answered hfront' ht).nextNoted fun htidy _ =>
    htidy.workNoted u _ fun hneeds => absurd hslotted' hneeds.1.1

theorem Tidy.setLine (h : s.Tidy) (c : Fin n) (a : ℕ) (l : Line δ) : (s.setLine c a l).Tidy := h.setBlock rfl

theorem Tidy.dram (h : s.Tidy) (a : ℕ) : (s.dram a).Tidy := by
  rw [DirectorySystem.dram]
  cases (s.blocks a).toDram with
  | nil => exact h
  | cons m rest =>
    have htaken : (s.setBlock a {s.blocks a with toDram:=rest}).Tidy := h.setBlock rfl
    cases m with
    | readReq => exact htaken.congr fun _ => rfl
    | writeReq data => exact htaken.congr fun _ => rfl

/-- When a message arrives with which a block needs the entry of another one, an entry can be
replaced, or else the directory may be starved of entries. -/
theorem Tidy.stepNoted (h : s.Tidy) {i : ProtocolStep n δ}
    (hvictim : ∀c a u,i = .receive c a u → s.Displaces c a → s.HasVictim a ∨ starved) :
    (s.stepNoted i).Meets (Orderly starved) Tidy True := by
  cases i with
  | access c a exclusive =>
    refine meets_quiet (yields_of_ok trivial fun s' hok => ?_)
    obtain ⟨l,-,hok⟩:=bind_ok hok
    cases hok
    exact h.setLine c a l
  | store c a data => exact meets_quiet (yields_ok (h.setLine c a _) _)
  | evict c a => exact meets_quiet (yields_ok (h.setLine c a _) _)
  | deliver c a stack =>
    have hstep : (quiet (s.step (.deliver c a stack)) : Watched n δ _).Meets (Orderly starved) Tidy True := by
      refine meets_quiet (yields_of_ok trivial fun s' hok => ?_)
      obtain ⟨l,-,hok⟩:=bind_ok hok
      cases hok
      exact h.setLine c a l
    rw [DirectorySystem.stepNoted]
    cases ((s.blocks a).lines c).toCache with
    | nil => exact hstep
    | cons m rest => exact .note_bind ⟨h.entries,trivial⟩ hstep
  | receive c a u =>
    rw [DirectorySystem.stepNoted]
    cases hmsg : ((s.blocks a).lines c).toDirectory with
    | nil => exact meets_pure h
    | cons m rest =>
      exact h.handleMsgNoted (fun hm hneeds => hvictim c a u rfl ⟨hneeds,m,by rw [hmsg]; rfl,hm⟩) c u
  | dram a => exact meets_quiet (yields_ok (h.dram a) _)
  | dramReply a u =>
    rw [DirectorySystem.stepNoted]
    cases s.fromDram a with
    | nil => exact meets_pure h
    | cons data rest => exact (h.congr fun _ => rfl).dramReplyNoted a u data

variable (config : DirectoryConfig)

theorem tidy_new (associativity : ℕ) (setIndex pointers : ℕ → ℕ) (nuca : Option (NucaCache δ))
    (memory : ℕ → δ) : (new config associativity setIndex pointers nuca memory : DirectorySystem n δ).Tidy := by
  refine ⟨⟨entries_new ..,fun i => length_replicate⟩,fun a => ?_⟩
  exact booked_of_plain not_mem_nil fun k hk => absurd hk not_mem_nil

/-- At most one entry carries the address, and that one is found. -/
structure OneEntry (s : DirectorySystem n δ) (a : ℕ) : Prop where
  elsewhere : ∀i≠s.setIndex a,some a∉s.slots i
  once : (s.slots (s.setIndex a)).count (some a)+s.replaced.count a≤1
  found : s.Present a → ∀forwarder,s.getDirectoryEntry a forwarder=(true,s)

theorem Entries.oneEntry (h : s.Entries) (a : ℕ) : s.OneEntry a := by
  refine ⟨fun i hi ha => hi (h.index i a ha).symm,?_,fun hpresent forwarder => ?_⟩
  · by_cases ha : a∈s.replaced
    · have hslots : (s.slots (s.setIndex a)).count (some a)=0 := count_eq_zero.mpr (h.crowded a ha).1
      rw [hslots,count_eq_one_of_mem h.nodup ha]
    · rw [count_eq_zero.mpr ha]
      exact h.once _ a
  · rcases hpresent with hin | ha
    · exact getDirectoryEntry_slotted hin forwarder
    · rw [getDirectoryEntry_crowded (h.crowded a ha),decide_eq_true ha]

/-- At every moment of a run each block has at most one entry, which is found, an entry that is
to be replaced is in its set, and one that is to be given up is among the replaced ones. -/
theorem run_oneEntry (associativity : ℕ) (setIndex pointers : ℕ → ℕ) (nuca : Option (NucaCache δ))
    (memory : ℕ → δ) (steps : List (ProtocolStep n δ)) :
    (∀m∈(runNoted stepNoted (new config associativity setIndex pointers nuca memory) steps).notes,
      (∀a,m.state.OneEntry a) ∧ (∀victim a,m.event = .replace victim a →
        ∀forwarder,∃s,m.state.replaceDirectoryEntry victim a forwarder = .ok s) ∧
      ∀a,m.event = .invalidate a → ∃s,m.state.invalidateDirectoryEntry a = .ok s) ∧
    ∀s,run step (new config associativity setIndex pointers nuca memory) steps = .ok s → ∀a,s.OneEntry a := by
  have hrun : (runNoted stepNoted (new config associativity setIndex pointers nuca memory) steps).Meets
      (Orderly True) Tidy True :=
    runNoted_meets (G:=fun _ _ => True) stepNoted_result
      (fun s i h _ => h.stepNoted fun _ _ _ _ _ => Or.inr trivial)
      (tidy_new config associativity setIndex pointers nuca memory) (along_of_forall (fun _ _ => trivial) _ _)
  refine ⟨fun m hm => ?_,fun s hs a => ?_⟩
  · obtain ⟨hentries,hevent⟩:=hrun.notes m hm
    refine ⟨hentries.oneEntry,fun victim a hm forwarder => ?_,fun a hm => ?_⟩
    · rw [hm] at hevent
      exact ⟨_,if_pos hevent⟩
    · rw [hm] at hevent
      exact ⟨_,if_pos hevent⟩
  · have hresult := hrun.result
    rw [runNoted_result stepNoted_result] at hresult
    exact (hresult.of_ok hs).entries.oneEntry a

/-- The other blocks of the set that have an entry and a request. -/
def pendingBlocks (s : DirectorySystem n δ) (a : ℕ) : List ℕ :=
  ((s.slots (s.setIndex a)).filterMap id++s.replaced).filter fun b =>
    b≠a ∧ s.setIndex b=s.setIndex a ∧ (s.blocks b).queue≠[]

/-- When a message arrives with which a block needs the entry of another one, fewer other blocks of the
set have requests than the set has entries, and the search for a candidate visits every entry:
the replacement pointer does not overflow on the way, or its overflow goes unnoticed. -/
def Spare (s : DirectorySystem n δ) : ProtocolStep n δ → Prop
  | .receive c a _ => s.Displaces c a → (s.pendingBlocks a).length<s.associativity ∧
      (s.pointers (s.setIndex a)+s.associativity≤2^32 ∨ s.associativity ∣ 2^32)
  | _ => True

theorem exists_rotation {w p j : ℕ} (hj : j<w) (h : p+w≤2^32 ∨ w ∣ 2^32) : ∃k<w,(k+p) % 2^32 % w=j := by
  refine ⟨(j+(w - p % w)) % w,Nat.mod_lt _ (by omega),?_⟩
  have hmod : ((j+(w - p % w)) % w+p) % w=j := by
    have hp := Nat.mod_lt p (show 0<w by omega)
    rw [Nat.mod_add_mod,show j+(w - p % w)+p=j+(w - p % w+p) by omega,
      show w - p % w+p=w+w*(p / w) by have := Nat.div_add_mod p w; omega,← add_assoc,Nat.add_mul_mod_self_left,
      Nat.add_mod_right,Nat.mod_eq_of_lt hj]
  rcases h with h | h
  · have hk := Nat.mod_lt (j+(w - p % w)) (show 0<w by omega)
    rw [Nat.mod_eq_of_lt (show (j+(w - p % w)) % w+p<2^32 by omega),hmod]
  · rw [Nat.mod_mod_of_dvd _ h,hmod]

theorem Arranged.mem_candidates (h : s.Arranged) (hv : some v∈s.slots (s.setIndex a))
    (hpointer : s.pointers (s.setIndex a)+s.associativity≤2^32 ∨ s.associativity ∣ 2^32) :
    v∈(s.getReplacementCandidates a).1 := by
  obtain ⟨j,hlt,hjv⟩:=getElem_of_mem hv
  have hj : j<s.associativity := h.ways _ ▸ hlt
  obtain ⟨k,hk,hkj⟩:=exists_rotation hj hpointer
  refine mem_filterMap.mpr ⟨k,mem_range.mpr hk,?_⟩
  rw [hkj,List.getElem?_eq_getElem hlt,hjv]
  rfl

/-- Not every entry of a full set can have a request if there are fewer requests than entries. -/
theorem Tidy.hasVictim (h : s.Tidy) (hcrowded : s.Crowded a)
    (hpending : (s.pendingBlocks a).length<s.associativity)
    (hpointer : s.pointers (s.setIndex a)+s.associativity≤2^32 ∨ s.associativity ∣ 2^32) : s.HasVictim a := by
  by_contra hnone
  have hbusy : ∀x∈s.slots (s.setIndex a),∃b,x=some b ∧ b≠a ∧
      s.setIndex b=s.setIndex a ∧ (s.blocks b).queue≠[] := by
    intro x hx
    cases x with
    | none => exact absurd hx hcrowded.2
    | some b =>
      refine ⟨b,rfl,fun hb => hcrowded.1 (hb ▸ hx),h.entries.index _ b hx,fun hempty => ?_⟩
      exact hnone ⟨b,h.toArranged.mem_candidates hx hpointer,hempty⟩
  have hall : ((s.slots (s.setIndex a)).filterMap id).length=s.associativity := by
    rw [length_filterMap_eq_countP,countP_eq_length.mpr,h.ways]
    intro x hx
    obtain ⟨b,rfl,-⟩:=hbusy x hx
    rfl
  have hkept : ((s.slots (s.setIndex a)).filterMap id).filter (fun b =>
      b≠a ∧ s.setIndex b=s.setIndex a ∧ (s.blocks b).queue≠[]) =
      (s.slots (s.setIndex a)).filterMap id := by
    refine filter_eq_self.mpr fun b hb => ?_
    obtain ⟨x,hx,hxb⟩:=mem_filterMap.mp hb
    obtain ⟨b',rfl,hprops⟩:=hbusy x hx
    cases hxb
    exact decide_eq_true hprops
  rw [pendingBlocks,filter_append,hkept,length_append,hall] at hpending
  omega

instance (s : DirectorySystem n δ) (i : ProtocolStep n δ) : Decidable (s.Spare i) :=
  match i with
  | .receive c a _ => inferInstanceAs (Decidable (s.Displaces c a →
      (s.pendingBlocks a).length<s.associativity ∧
        (s.pointers (s.setIndex a)+s.associativity≤2^32 ∨ s.associativity ∣ 2^32)))
  | .access .. | .store .. | .evict .. | .deliver .. | .dram .. | .dramReply .. => .isTrue trivial

/-- The entry that `processDirectoryEntryAllocationReq` replaces. -/
def victim (s : DirectorySystem n δ) (a : ℕ) : Option ℕ :=
  (s.getReplacementCandidates a).2.replacementCandidate (s.getReplacementCandidates a).1

/-- As long as fewer blocks of a set have requests than the set has entries, every allocation
finds the entry of a block without a request. -/
theorem run_allocates (associativity : ℕ) (setIndex pointers : ℕ → ℕ) (nuca : Option (NucaCache δ))
    (memory : ℕ → δ) (steps : List (ProtocolStep n δ))
    (hsteps : Along step Spare (new config associativity setIndex pointers nuca memory) steps) :
    ∀m∈(runNoted stepNoted (new config associativity setIndex pointers nuca memory) steps).notes,
      ∀a,m.event = .allocate a → ∃v,m.state.victim a=some v ∧ some v∈m.state.slots (m.state.setIndex a) ∧
          (m.state.blocks v).queue=[] := by
  have hrun : (runNoted stepNoted (new config associativity setIndex pointers nuca memory) steps).Meets
      (Orderly False) Tidy True := by
    refine runNoted_meets stepNoted_result (fun s i h hspare => h.stepNoted ?_)
      (tidy_new config associativity setIndex pointers nuca memory) hsteps
    rintro c a u rfl hneeds
    obtain ⟨hpending,hpointer⟩:=hspare hneeds
    exact Or.inl (h.hasVictim hneeds.1.1 hpending hpointer)
  intro m hm a hevent
  have horderly := (hrun.notes m hm).2
  rw [hevent] at horderly
  obtain ⟨v,hv⟩:=Option.isSome_iff_exists.mp (horderly.2.2.resolve_right id).candidate
  exact ⟨v,hv,replacementCandidate_mem hv⟩

/-- The addresses of the allocations of a run, with the entries that are replaced. -/
def allocations (notes : List (Moment n δ)) : List (ℕ × Option ℕ) :=
  notes.filterMap fun m =>
    match m.event with
    | .allocate a => some (a,m.state.victim a)
    | _ => none

theorem exists_of_mem_allocations {notes : List (Moment n δ)} {v : Option ℕ} (h : (a,v)∈allocations notes) :
    ∃m∈notes,m.event = .allocate a ∧ m.state.victim a=v := by
  obtain ⟨m,hm,hmv⟩:=mem_filterMap.mp h
  split at hmv
  · next a' hevent =>
    cases hmv
    exact ⟨m,hm,hevent,rfl⟩
  · cases hmv

/-- A directory with one set of entries, each set's pointer being the same. -/
def oneSet (n associativity pointer : ℕ) : DirectorySystem n ℕ :=
  new ⟨.msi,n⟩ associativity (fun _ => 0) (fun _ => pointer) none fun _ => 0

/-- Each core asks for the block of its own number. -/
def requests (cores : List (Fin n)) : List (ProtocolStep n ℕ) :=
  cores.flatMap fun c => [.access c c false,.receive c c plain]

/-- A third block takes over one of two entries. -/
theorem run_allocates_third : ∃m∈(runNoted stepNoted (oneSet 3 2 0) (fetch 0 0 false++requests [1,2])).notes,
    m.event = .allocate 2 ∧ ∃v,m.state.victim 2=some v ∧ some v∈m.state.slots (m.state.setIndex 2) ∧
      (m.state.blocks v).queue=[] := by
  have hmem : (2,some 0)∈allocations
      (runNoted stepNoted (oneSet 3 2 0) (fetch 0 0 false++requests [1,2])).notes := by
    decide +kernel
  obtain ⟨m,hm,hevent,-⟩ := exists_of_mem_allocations hmem
  exact ⟨m,hm,hevent,run_allocates ⟨.msi,3⟩ 2 (fun _ => 0) (fun _ => 0) none (fun _ => 0) _
    (by decide +kernel) m hm 2 hevent⟩

/-- Two blocks of one set wait for their data when a third one is read, and the set has no other
entry. If the replacement pointer overflows, an entry that no request waits for is passed over. -/
theorem allocation_without_candidate :
    (2,none)∈allocations (runNoted stepNoted (oneSet 3 2 0) (requests [0,1,2])).notes ∧
    run step (oneSet 3 2 0) (requests [0,1,2]) = .error .assertion ∧
    (3,none)∈allocations (runNoted stepNoted (oneSet 4 3 (2^32 - 1))
      (requests [0,1]++fetch 2 2 false++requests [3])).notes ∧
    run step (oneSet 4 3 (2^32 - 1)) (requests [0,1]++fetch 2 2 false++requests [3]) = .error .assertion :=
  ⟨by decide +kernel,by decide +kernel,by decide +kernel,by decide +kernel⟩

end DirectorySystem

end Sniper.Coherence
