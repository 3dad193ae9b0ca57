import Sniper.TlbCoherence

/-!
# Removing a page from a TLB

Neither `invalidateSingleLineTLB` nor `containsTLB` reads the page size of the call. A cleared block
gets the tag `~0`, which is no tag of a page of two bytes or more: it is an empty way.
-/

namespace Sniper.PageFaults
open FallibleRuns SetAssociativeStores

variable {ι : Type}

/-- The address lies in the page of the entry. -/
def TlbEntry.Covers (e : TlbEntry ι) (address : ℕ) : Prop := e.tag=address / 2^e.pageSize

namespace Tlb

def findTLB (t : Tlb ι) (tag pageSize : ℕ) : Option (ℕ × TlbEntry ι) :=
  find (fun e => e.tag == tag && e.pageSize == pageSize) (t.sets (t.setIndex tag)) t.associativity

/-- The set of the tag after `CacheSet::invalidateTLB`, and whether a way was cleared. -/
def invalidateTLB (t : Tlb ι) (tag pageSize : ℕ) : Bool × Tlb ι :=
  ((t.findTLB tag pageSize).isSome,
    { t with sets:=Function.update t.sets (t.setIndex tag) fun w =>
        (t.sets (t.setIndex tag) w).filter fun e =>
          !(decide (w<t.associativity) && (e.tag == tag && e.pageSize == pageSize)) })

/-- The loop of `invalidateSingleLineTLB`. -/
def invalidateSizes (numSets address : ℕ) : List ℕ → Tlb ι → Except Abort (Bool × Tlb ι)
  | [],t => .ok (false,t)
  | size::sizes,t =>
    if t.setIndex (address / 2^size)<numSets then do
      let cleared := t.invalidateTLB (address / 2^size) size
      let (found,t) ← invalidateSizes numSets address sizes cleared.2
      .ok (cleared.1 || found,t)
    else .error .assertion

/-- The loop of `containsTLB`. -/
def containsSizes (numSets address : ℕ) (t : Tlb ι) : List ℕ → Except Abort Bool
  | [] => .ok false
  | size::sizes =>
    if t.setIndex (address / 2^size)<numSets then
      if (t.findTLB (address / 2^size) size).isSome then .ok true
      else containsSizes numSets address t sizes
    else .error .assertion

def invalidate (numSets : ℕ) (t : Tlb ι) (address _pageSize : ℕ) : Except Abort (Bool × Tlb ι) := do
  let (found,t) ← invalidateSizes numSets address t.pageSizeList t
  let contained ← t.containsSizes numSets address t.pageSizeList
  if contained then .error .assertion else .ok (found,t)

/-- Every entry is where a lookup looks for it. -/
def Placed (t : Tlb ι) : Prop :=
  ∀i w e,t.sets i w=some e →
    w<t.associativity ∧ t.setIndex e.tag=i ∧ e.pageSize∈t.pageSizeList

variable {t t' : Tlb ι} {address : ℕ}

theorem Placed.of_empty (h : t.Holds fun _ => False) : t.Placed := fun i w e he => (h i w e he).elim

theorem Placed.findTLB_eq_none (h : t.Placed) (tag size : ℕ) : t.findTLB tag size=none ↔
    ∀i w e,t.sets i w=some e → ¬ (e.tag=tag ∧ e.pageSize=size) := by
  constructor
  · rintro hnone i w e he ⟨rfl,rfl⟩
    obtain ⟨hw,rfl,-⟩:=h i w e he
    simpa using find_none hnone hw he
  · intro hfree
    cases hfind : t.findTLB tag size with
    | none => rfl
    | some found =>
      obtain ⟨w,e⟩:=found
      obtain ⟨-,he,hpage⟩:=find_some hfind
      exact absurd (by simpa using hpage) (hfree _ w e he)

theorem Placed.lookup_eq_none (h : t.Placed) : t.lookup address=none ↔
    ∀i w e,t.sets i w=some e → ¬ e.Covers address := by
  have hprobe : ∀size,(find (fun e => e.tag == address / 2^size && e.pageSize == size)
      (t.sets (t.setIndex (address / 2^size))) t.associativity).map Prod.snd=none ↔ _ :=
    fun size => Option.map_eq_none_iff.trans (h.findTLB_eq_none (address / 2^size) size)
  rw [lookup,List.findSome?_eq_none_iff]
  simp only [hprobe]
  constructor
  · intro hmiss i w e he hcovers
    exact hmiss e.pageSize (h i w e he).2.2 i w e he ⟨hcovers,rfl⟩
  · rintro hmiss size - i w e he ⟨htag,rfl⟩
    exact hmiss i w e he htag

theorem Placed.allocate (h : t.Placed) {tr : EvictedTranslation ι} {way : ℕ}
    {dropped : Option (EvictedTranslation ι)} (hsize : tr.pageSize∈t.pageSizeList)
    (he : t.allocate tr way = .ok (dropped,t')) : t'.Placed := by
  rw [Tlb.allocate] at he
  split_ifs at he with hpre hway
  · cases he
    exact h
  · cases he
    intro i w e hplace
    rcases place_cases hplace with ⟨rfl,rfl,rfl⟩ | ⟨-,hold⟩
    · exact ⟨hway,rfl,hsize⟩
    · exact h i w e hold

theorem Placed.invalidateTLB_sets (h : t.Placed) (tag size i w : ℕ) (e : TlbEntry ι) :
    (t.invalidateTLB tag size).2.sets i w=some e ↔ t.sets i w=some e ∧ ¬ (e.tag=tag ∧ e.pageSize=size) := by
  by_cases hi : i=t.setIndex tag
  · subst hi
    simp only [invalidateTLB,Function.update_self,Option.filter_eq_some_iff]
    refine and_congr_right fun he => ?_
    simp [(h _ w e he).1,Classical.or_iff_not_imp_left]
  · simp only [invalidateTLB,Function.update_of_ne hi]
    refine (and_iff_left_of_imp ?_).symm
    rintro he ⟨rfl,-⟩
    exact hi (h i w e he).2.1.symm

theorem Placed.invalidateSizes_ok {numSets : ℕ} (hindex : ∀tag,t.setIndex tag<numSets)
    (h : t.Placed) (address : ℕ) (sizes : List ℕ) : ∃found sets,
      invalidateSizes numSets address sizes t = .ok (found,{t with sets}) ∧
      ∀i w e,sets i w=some e ↔
        t.sets i w=some e ∧ ∀size∈sizes,¬ (e.tag=address / 2^size ∧ e.pageSize=size) := by
  induction sizes generalizing t with
  | nil => exact ⟨false,t.sets,rfl,fun i w e => by simp⟩
  | cons size sizes ih =>
    have hsets := h.invalidateTLB_sets (address / 2^size) size
    obtain ⟨found,sets,hrest,hkept⟩:=@ih (t.invalidateTLB (address / 2^size) size).2 hindex
      fun i w e he => h i w e ((hsets i w e).mp he).1
    refine ⟨(t.invalidateTLB (address / 2^size) size).1 || found,sets,?_,fun i w e => ?_⟩
    · rw [invalidateSizes,if_pos (hindex _)]
      dsimp only
      rw [hrest]
      rfl
    · rw [hkept,hsets,List.forall_mem_cons,and_assoc]

theorem containsSizes_ok {numSets : ℕ} (hindex : ∀tag,t.setIndex tag<numSets) {sizes : List ℕ}
    (h : ∀size∈sizes,t.findTLB (address / 2^size) size=none) :
    t.containsSizes numSets address sizes = .ok false := by
  induction sizes with
  | nil => rfl
  | cons size sizes ih =>
    rw [List.forall_mem_cons] at h
    rw [containsSizes,if_pos (hindex _),h.1,ih h.2]
    rfl

theorem Placed.invalidate_ok {numSets : ℕ} (h : t.Placed) (hindex : ∀tag,t.setIndex tag<numSets)
    (address pageSize : ℕ) : ∃found sets,
      t.invalidate numSets address pageSize = .ok (found,{t with sets}) ∧
      ∀i w e,sets i w=some e ↔ t.sets i w=some e ∧ ¬ e.Covers address := by
  obtain ⟨found,sets,hloop,hkept⟩:=h.invalidateSizes_ok hindex address t.pageSizeList
  have hplaced : ({t with sets} : Tlb ι).Placed := fun i w e he => h i w e ((hkept i w e).mp he).1
  refine ⟨found,sets,?_,fun i w e => (hkept i w e).trans (and_congr_right fun he => ?_)⟩
  · have hgone := containsSizes_ok (t:={t with sets}) hindex
      fun size hsize => (hplaced.findTLB_eq_none _ _).mpr fun i w e he => ((hkept i w e).mp he).2 size hsize
    rw [invalidate,hloop,ok_bind]
    dsimp only
    rw [hgone]
    rfl
  · constructor
    · exact fun hnot hcovers => hnot e.pageSize (h i w e he).2.2 ⟨hcovers,rfl⟩
    · rintro hnot size - ⟨htag,rfl⟩
      exact hnot htag

end Tlb

inductive TlbCall (ι : Type) where
  | allocate (tr : EvictedTranslation ι) (way : ℕ)
  | invalidate (address pageSize : ℕ)

namespace Tlb

/-- A translation is allocated where its page size is supported. -/
def call (numSets : ℕ) (t : Tlb ι) : TlbCall ι → Except Abort (Tlb ι)
  | .allocate tr way =>
    if t.supportsPageSize tr.pageSize then do
      let (_,t) ← t.allocate tr way
      .ok t
    else .ok t
  | .invalidate address pageSize => do
    let (_,t) ← t.invalidate numSets address pageSize
    .ok t

variable {t t' : Tlb ι} {numSets : ℕ}

theorem Placed.call (h : t.Placed ∧ ∀tag,t.setIndex tag<numSets) {c : TlbCall ι}
    (he : t.call numSets c = .ok t') : t'.Placed ∧ ∀tag,t'.setIndex tag<numSets := by
  cases c with
  | allocate tr way =>
    rw [Tlb.call] at he
    split_ifs at he with hsize
    · obtain ⟨⟨dropped,t₁⟩,hallocate,heq⟩:=bind_ok he
      cases heq
      refine ⟨h.1.allocate (List.contains_iff_mem.mp hsize) hallocate,?_⟩
      rw [Tlb.allocate] at hallocate
      split_ifs at hallocate <;> cases hallocate <;> exact h.2
    · cases he
      exact h
  | invalidate address pageSize =>
    obtain ⟨found,sets,hok,hkept⟩:=h.1.invalidate_ok h.2 address pageSize
    rw [Tlb.call,hok] at he
    cases he
    exact ⟨fun i w e he => h.1 i w e ((hkept i w e).mp he).1,h.2⟩

/-- Removing a page from a reachable TLB fails no assertion and takes away exactly the entries that
cover the address; then a lookup misses every address that only such entries covered. -/
theorem shootdown_exact (hempty : t.Holds fun _ => False) (hindex : ∀tag,t.setIndex tag<numSets)
    (calls : List (TlbCall ι)) (hrun : run (call numSets) t calls = .ok t') (address pageSize : ℕ) :
    ∃found t'',t'.invalidate numSets address pageSize = .ok (found,t'') ∧
      (∀i w e,t''.sets i w=some e ↔ t'.sets i w=some e ∧ ¬ e.Covers address) ∧
      ∀b,t''.lookup b=none ↔ ∀i w e,t'.sets i w=some e → e.Covers b → e.Covers address := by
  obtain ⟨hplaced,hindex'⟩ : t'.Placed ∧ ∀tag,t'.setIndex tag<numSets:=
    run_invariant (fun _ _ _ h _ => Placed.call h) ⟨Placed.of_empty hempty,hindex⟩
      (along_of_forall (fun _ _ => trivial) t calls) hrun
  obtain ⟨found,sets,hok,hkept⟩:=hplaced.invalidate_ok hindex' address pageSize
  refine ⟨found,_,hok,hkept,fun b => ?_⟩
  have hplaced' : ({t' with sets} : Tlb ι).Placed := fun i w e he =>
    hplaced i w e ((hkept i w e).mp he).1
  rw [hplaced'.lookup_eq_none]
  constructor
  · intro hmiss i w e he hb
    by_contra hcovers
    exact hmiss i w e ((hkept i w e).mpr ⟨he,hcovers⟩) hb
  · intro hcovers i w e he hb
    obtain ⟨hold,hnot⟩:=(hkept i w e).mp he
    exact hnot (hcovers i w e hold hb)

/-- An address in the middle of a large page is removed with the page. -/
theorem shootdown_exact_of_large : ∃t : Tlb Unit,
    run (call 1) (Mmu.oneEntryTlb Unit) [.allocate ⟨2^21,21,7,()⟩ 0] = .ok t ∧
      (t.lookup (2^21+4096)).isSome ∧ ∃found t',t.invalidate 1 (2^21+4096) 12 = .ok (found,t') ∧
      t'.lookup (2^21+4096)=none := by
  refine exists_ok_and (P:=fun _ => True) (by decide +kernel) fun t hrun _ => ?_
  obtain ⟨found,t',hok,-,hlookup⟩ := shootdown_exact (fun _ _ _ he => by cases he)
    (fun _ => Nat.one_pos) _ hrun (2^21+4096) 12
  exact ⟨found,t',hok,(hlookup _).mpr fun _ _ _ _ hcovers => hcovers⟩

/-- After the removal of the large page at 0, its second small page is still found: the entry does
not cover the address of the call. -/
theorem shootdown_leaves_small_page : 4096 / 2^21=0 / 2^21 ∧
    ∃t : Tlb Unit,run (call 1) (Mmu.oneEntryTlb Unit) [.allocate ⟨4096,12,7,()⟩ 0] = .ok t ∧
      ∃r,t.invalidate 1 0 21 = .ok r ∧ (r.2.lookup 4096).isSome := by
  decide +kernel

end Tlb

end Sniper.PageFaults
