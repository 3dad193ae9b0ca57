import Sniper.PageGrants

/-!
# Demotion returns the unused pages of a region only when there are none

`demote_page` frees the closed range from `j` to `j + 1` for every unused page `j`, so each unused
page brings its right neighbour along.
-/

namespace Sniper.PhysicalMemory
open BuddyAllocator FallibleRuns

variable {α : Type}

namespace ReservationThpAllocator

/-- A demotion in this state returns each unused page of its victim once, and nothing else. -/
def DemotesExactly (order : UtilizationSort) (s : ReservationThpAllocator) : Prop :=
  ∀s',s.demotePage order = .ok (true,s') → ∃r region,
    s.victim order=some (r,region) ∧
      s'.buddy.freeCells=s.buddy.freeCells+region.clearCells

theorem demotesExactly_iff {order : UtilizationSort} {s : ReservationThpAllocator} (hwf : s.buddy.WellFormed)
    (hmax : ∀k reg,s.twoMbMap.lookup k=some reg → 9 ≤ s.buddy.maxOrder) :
    s.DemotesExactly order ↔ s.AllFull := by
  cases hv : s.victim order with
  | none =>
    have hdem : s.demotePage order = .ok (false,s) := by rw [demotePage,hv]
    constructor
    · intro _ r region hlook hprom
      cases (victim_none hv r region hlook).symm.trans hprom
    · intro _ s' hs'
      rw [hdem] at hs'
      cases hs'
  | some v =>
    obtain ⟨r,region⟩:=v
    obtain ⟨hlook,-,-⟩:=victim_some hv
    have hone : 1 ≤ s.buddy.maxOrder := le_trans (by decide) (hmax r region hlook)
    obtain ⟨b,hb,-,-,hcells,-⟩:=freeUnused_spec region hwf hone
    have hdem : ∃s',s.demotePage order = .ok (true,s') ∧ s'.buddy=b := by
      rw [demotePage,hv]
      simp only [hb,ok_bind]
      exact ⟨_,rfl,rfl⟩
    obtain ⟨s',hdem,hbuddy⟩:=hdem
    rw [allFull_iff_victim hv,← Region.freedCells_eq_clearCells_iff]
    constructor
    · intro hexact
      obtain ⟨r',region',hv',hfree⟩:=hexact s' hdem
      cases hv.symm.trans hv'
      rw [hbuddy,hcells] at hfree
      exact add_left_cancel hfree
    · intro heq t ht
      cases hdem.symm.trans ht
      exact ⟨r,region,hv,by rw [hbuddy,hcells,heq]⟩

end ReservationThpAllocator

namespace Traced

/-- Every demotion of the run is exact and no state of the run has given one physical page
to two virtual pages. -/
def DemotionSafe (order : UtilizationSort) (t : Traced α) (calls : List (α × Request)) : Prop :=
  Along (step order) (fun t call => t.allocator.UnderPressure call.2 →
      t.allocator.DemotesExactly order) t calls ∧
    ∀pre,pre <+: calls → ∀t',run (step order) t pre = .ok t' → t'.NoReuse

theorem new_tracked {memorySize kernelSize : Int32} {maxOrder : ℕ} {fragType : String} {threshold : ℚ}
    {s : ReservationThpAllocator}
    (h : ReservationThpAllocator.new memorySize maxOrder kernelSize fragType threshold = .ok s) :
    Tracked 0 (⟨s,[]⟩ : Traced α) ∧ s.thresholdForPromotion=threshold ∧ s.twoMbMap = ∅ := by
  obtain ⟨b,hb,h⟩:=bind_ok h
  cases h
  obtain ⟨-,hwf,hcells⟩:=Buddy.new_ok hb
  refine ⟨⟨hwf,?_,?_,?_,?_⟩,rfl,rfl⟩
  · intro k reg hlook
    cases hlook
  · rw [reservedCells_empty,hcells,add_zero,add_zero]
    exact Multiset.nodup_Ico
  · rintro a v p ⟨g,hg,-⟩
    cases hg
  · rintro a a' v v' p ⟨g,hg,-⟩
    cases hg

end Traced

/-- For every configuration and every sequence of calls, demotion is safe exactly when each
demotion of the run meets only full regions. -/
theorem demotion_safe_iff (order : UtilizationSort) (memorySize kernelSize : Int32) (maxOrder : ℕ)
    (fragType : String) (threshold : ℚ) (calls : List (α × Request)) :
    (∀s,ReservationThpAllocator.new memorySize maxOrder kernelSize fragType threshold = .ok s →
      Traced.DemotionSafe order ⟨s,[]⟩ calls) ↔
    ∀s,ReservationThpAllocator.new memorySize maxOrder kernelSize fragType threshold = .ok s →
      Along (Traced.step order) Traced.DemotesFull ⟨s,[]⟩ calls := by
  have hexact : ∀ (t : Traced α) (call : α × Request),(∃spent,Tracked spent t) →
      ((t.allocator.UnderPressure call.2 → t.allocator.DemotesExactly order) ↔
        t.DemotesFull call) := by
    rintro t call ⟨spent,ht⟩
    rw [ReservationThpAllocator.demotesExactly_iff ht.wellFormed ht.orders,Traced.DemotesFull]
  have hstep : ∀ (t : Traced α) (call : α × Request) (t' : Traced α),
      (∃spent,Tracked spent t) → t.DemotesFull call → t.step order call = .ok t' →
        ∃spent,Tracked spent t' :=
    fun t call t' ⟨_,ht⟩ hfull he => Traced.step_tracked ht hfull he
  refine forall_congr' fun s => forall_congr' fun hs => ?_
  have hinit : ∃spent,Tracked spent (⟨s,[]⟩ : Traced α) := ⟨0,(Traced.new_tracked hs).1⟩
  constructor
  · rintro ⟨hdem,-⟩
    exact hdem.of_invariant (fun t call ht h => (hexact t call ht).mp h)
      (fun t call t' ht h => hstep t call t' ht ((hexact t call ht).mp h)) hinit
  · intro hfull
    refine ⟨hfull.of_invariant (fun t call ht => (hexact t call ht).mpr) hstep hinit,?_⟩
    rintro pre ⟨post,rfl⟩ t' hrun
    obtain ⟨spent,ht'⟩:=run_invariant hstep hinit hfull.left hrun
    exact ht'.noReuse

/-- The buddy allocator of a 2MB memory without kernel: one block of order 9. -/
def oneBlockBuddy : Buddy := ⟨9,.getLargePageRatio,512,512,Function.update (fun _ => []) 9 [⟨0,511⟩]⟩

theorem oneBlockBuddy_reserve : ∃b,oneBlockBuddy.reserve2mbPage = .ok (some ⟨0,511⟩,b) ∧
    ∀k,b.freeList k=[] := by
  refine ⟨_,rfl,fun k => ?_⟩
  by_cases hk : k=9
  · subst hk
    rfl
  · simp [Buddy.setList_freeList,Buddy.largeOrder,oneBlockBuddy,Function.update_of_ne hk]

theorem oneBlockBuddy_touch (order : UtilizationSort) : ∃s : ReservationThpAllocator,
    ReservationThpAllocator.allocate order ⟨.new 0,oneBlockBuddy,∅,1,{}⟩
        ⟨4096,0,false,false⟩ = .ok (⟨some 0,12⟩,s) ∧
      (∀k,s.buddy.freeList k=[]) ∧ s.twoMbMap=AList.insert 0 ⟨0,{0},false⟩ ∅ ∧ s.thresholdForPromotion=1 := by
  obtain ⟨b,hres,hempty⟩:=oneBlockBuddy_reserve
  obtain ⟨s,hs,hbuddy,hthr,hmap⟩:=ReservationThpAllocator.allocate_of_block order
    ⟨.new 0,oneBlockBuddy,∅,1,{}⟩ ⟨4096,0,false,false⟩ rfl rfl hres
  have htouch : Region.touch 1 0 ⟨0,∅,false⟩=⟨0,{0},false⟩ := by
    have hprom := Region.touch_one 0 ⟨0,∅,false⟩
    simp only [Region.touch] at hprom ⊢
    rw [hprom]
    rfl
  have hoff : offsetIn2mb 0=0 := rfl
  simp only [hoff,htouch] at hs hmap
  exact ⟨s,hs,fun k => hbuddy ▸ hempty k,hmap,hthr⟩

/-- Touching two regions with memory for one: the second touch demotes the first region,
which has 511 unused pages, and 1022 pages go back to the free lists. -/
theorem demotion_unsafe_with_one_block : ReservationThpAllocator.new 2 9 0 "largepage" 1 =
        .ok ⟨.new 0,oneBlockBuddy,∅,1,{}⟩ ∧
      ¬ Traced.DemotionSafe .insertion ⟨⟨.new 0,oneBlockBuddy,∅,1,{}⟩,[]⟩
        [((),⟨4096,0,false,false⟩),((),⟨4096,2^21,false,false⟩)] := by
  refine ⟨rfl,?_⟩
  rintro ⟨⟨-,hsecond⟩,-⟩
  obtain ⟨s,hs,hempty,hmap,-⟩:=oneBlockBuddy_touch .insertion
  have hinit : Tracked 0 (⟨⟨.new 0,oneBlockBuddy,∅,1,{}⟩,[]⟩ : Traced Unit) :=
    (Traced.new_tracked (show ReservationThpAllocator.new 2 9 0 "largepage" 1 = .ok _ from rfl)).1
  have hstep : Traced.step .insertion ⟨⟨.new 0,oneBlockBuddy,∅,1,{}⟩,[]⟩
      ((),⟨4096,0,false,false⟩) = .ok ⟨s,[⟨(),0,⟨some 0,12⟩⟩]⟩ := by
    simp only [Traced.step,hs,ok_bind]
    rfl
  have hpress : s.UnderPressure ⟨4096,2^21,false,false⟩ := by
    refine ⟨rfl,?_,fun k _ => hempty k,fun k _ => hempty k⟩
    rw [hmap]
    rfl
  obtain ⟨spent,ht⟩:=Traced.step_tracked hinit
    (fun _ r region hlook _ => nomatch hlook) hstep
  have hfull := (ReservationThpAllocator.demotesExactly_iff ht.wellFormed ht.orders).mp
    ((hsecond _ hstep).1 hpress) 0 ⟨0,{0},false⟩ (by rw [hmap]; rfl) rfl
  have hcard := congrArg Finset.card hfull
  simp at hcard

end Sniper.PhysicalMemory
