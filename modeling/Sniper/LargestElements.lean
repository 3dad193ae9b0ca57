import Mathlib

/-!
# The largest elements of a list

The `k` largest elements have the greatest sum among all `k` elements of the list. When an element
is replaced by parts that add up to it, neither the sum of the `k` largest nor their average grows.
-/

namespace Sniper.LargestElements
open List

section Sums

variable {α : Type*} [AddCommMonoid α] [LinearOrder α] [IsOrderedAddMonoid α]
  [CanonicallyOrderedAdd α]

/-- The `k` largest elements, or all of them where there are fewer. -/
def largest (k : ℕ) (l : List α) : List α := (l.mergeSort fun a b => decide (b≤a)).take k

omit [AddCommMonoid α] [IsOrderedAddMonoid α] [CanonicallyOrderedAdd α] in
theorem length_largest (k : ℕ) (l : List α) : (largest k l).length=min k l.length := by
  rw [largest,List.length_take,List.length_mergeSort]

omit [AddCommMonoid α] [IsOrderedAddMonoid α] [CanonicallyOrderedAdd α] in
theorem largest_le (k : ℕ) (l : List α) : (largest k l : Multiset α)≤l := by
  have hperm := List.mergeSort_perm l fun a b => decide (b≤a)
  rw [← Multiset.coe_eq_coe.mpr hperm]
  exact Multiset.coe_le.mpr (List.take_sublist _ _).subperm

private theorem sum_le_sum_take {l : List α} (hl : l.Pairwise fun a b => b≤a) {k : ℕ} {m : Multiset α}
    (hm : m≤l) (hk : m.card≤k) : m.sum≤(l.take k).sum := by
  induction l generalizing k m with
  | nil =>
    rw [Multiset.le_zero.mp hm]
    simp
  | cons a l ih =>
    obtain ⟨hle,hl⟩:=pairwise_cons.mp hl
    rcases Multiset.empty_or_exists_mem m with rfl | ⟨y,hy⟩
    · simp
    · -- an element of `m` that can be exchanged for `a`
      obtain ⟨x,hx,hxa,hrest⟩ : ∃x∈m,x≤a ∧ m.erase x≤l := by
        by_cases ha : a∈m
        · exact ⟨a,ha,le_rfl,Multiset.erase_le_iff_le_cons.mpr hm⟩
        · have hml : m≤l := (Multiset.le_cons_of_notMem ha).mp hm
          exact ⟨y,hy,hle y (Multiset.mem_of_le hml hy),(Multiset.erase_le y m).trans hml⟩
      have hcard := Multiset.card_erase_add_one hx
      cases k with
      | zero => omega
      | succ k =>
        rw [← Multiset.cons_erase hx,Multiset.sum_cons,take_succ_cons,sum_cons]
        exact add_le_add hxa (ih hl hrest (by omega))

theorem sum_le_sum_largest {l : List α} {k : ℕ} {m : Multiset α} (hm : m≤l) (hk : m.card≤k) :
    m.sum≤(largest k l).sum := by
  have hsorted : (l.mergeSort fun a b => decide (b≤a)).Pairwise fun a b => b≤a := by
    have h : (l.mergeSort fun a b => decide (b≤a)).Pairwise fun a b => decide (b≤a) := by
      apply pairwise_mergeSort
      · intro a b c hab hbc
        simp only [decide_eq_true_eq] at *
        exact hbc.trans hab
      · intro a b
        simpa using le_total b a
    exact h.imp of_decide_eq_true
  apply sum_le_sum_take hsorted _ hk
  rwa [Multiset.coe_eq_coe.mpr (mergeSort_perm l _)]

theorem sum_largest_perm {l m : List α} (h : l.Perm m) (k : ℕ) : (largest k l).sum=(largest k m).sum := by
  have hle : ∀ {l m : List α},l.Perm m → (largest k l).sum≤(largest k m).sum := by
    intro l m h
    rw [← Multiset.sum_coe]
    apply sum_le_sum_largest
    · rw [← Multiset.coe_eq_coe.mpr h]
      exact largest_le k l
    · rw [Multiset.coe_card,length_largest]
      exact Nat.min_le_left k _
  exact le_antisymm (hle h) (hle h.symm)

/-- Of the `k` largest elements some are parts of the one replaced. Together they are at most the
whole, and the whole takes the place of at least one element. -/
theorem sum_largest_refine (k : ℕ) (parts rest : List α) :
    (largest k (parts++rest)).sum≤(largest k (parts.sum::rest)).sum := by
  obtain ⟨top,htop⟩ : ∃top : Multiset α,top=largest k (parts++rest):=⟨_,rfl⟩
  obtain ⟨kept,hkept⟩ : ∃kept : Multiset α,kept=rest:=⟨_,rfl⟩
  have hle : top≤(parts : Multiset α)+kept := by
    rw [htop,hkept,Multiset.coe_add]
    exact largest_le k _
  have hcard : top.card≤k := by
    rw [htop,Multiset.coe_card,length_largest]
    exact Nat.min_le_left k _
  have hparts : top - kept≤(parts : Multiset α) := Multiset.sub_le_iff_le_add.mpr hle
  have hsplit : top - kept+top ∩ kept=top := Multiset.sub_add_inter top kept
  rw [← Multiset.sum_coe,← htop]
  rcases Multiset.empty_or_exists_mem (top - kept) with hnone | ⟨x,hx⟩
  · have hrest : top≤kept := tsub_eq_zero_iff_le.mp hnone
    rw [hkept] at hrest
    exact sum_le_sum_largest (hrest.trans (Multiset.le_cons_self _ _)) hcard
  · have hpos := Multiset.card_pos_iff_exists_mem.mpr ⟨x,hx⟩
    have hcount := congrArg Multiset.card hsplit
    rw [Multiset.card_add] at hcount
    have hsum : (top - kept).sum≤parts.sum := by
      obtain ⟨others,hothers⟩:=Multiset.le_iff_exists_add.mp hparts
      rw [← Multiset.sum_coe,hothers,Multiset.sum_add]
      exact le_self_add
    calc top.sum=(top - kept).sum+(top ∩ kept).sum := by rw [← Multiset.sum_add,hsplit]
      _≤parts.sum+(top ∩ kept).sum := by gcongr
      _=(parts.sum ::ₘ (top ∩ kept)).sum := (Multiset.sum_cons _ _).symm
      _≤(largest k (parts.sum::rest)).sum := by
        apply sum_le_sum_largest
        · rw [hkept]
          exact (Multiset.cons_le_cons_iff _).mpr Multiset.inter_le_right
        · rw [Multiset.card_cons]
          omega

end Sums

def average (k : ℕ) (l : List ℕ) : ℚ :=
  if (largest k l).length=0 then 0 else ((largest k l).sum : ℚ) / (largest k l).length

theorem average_perm {l m : List ℕ} (h : l.Perm m) (k : ℕ) : average k l=average k m := by
  rw [average,average,sum_largest_perm h,length_largest,length_largest,h.length_eq]

theorem average_replicate {k n : ℕ} (hk : 0<k) (hn : 0<n) (a : ℕ) : average k (List.replicate n a)=a := by
  have hsame : largest k (List.replicate n a)=List.replicate (min k n) a := by
    rw [eq_replicate_iff]
    refine ⟨by rw [length_largest,length_replicate],?_⟩
    intro b hb
    have hmem := Multiset.mem_of_le (largest_le k _) (Multiset.mem_coe.mpr hb)
    exact eq_of_mem_replicate (Multiset.mem_coe.mp hmem)
  have hpos : (min k n : ℚ)≠0 := by
    rw [ne_eq,← Nat.cast_min,Nat.cast_eq_zero]
    omega
  rw [average,hsame,length_replicate,if_neg (by omega),sum_replicate,smul_eq_mul,Nat.cast_mul,Nat.cast_min,
    mul_div_cancel_left₀ _ hpos]

theorem average_refine {parts : List ℕ} (hparts : parts≠[]) (k : ℕ) (rest : List ℕ) :
    average k (parts++rest)≤average k (parts.sum::rest) := by
  have hsum := sum_largest_refine k parts rest
  have hpos := length_pos_iff.mpr hparts
  simp only [average,length_largest,length_append,length_cons]
  rcases Nat.eq_zero_or_pos k with rfl | hk
  · simp
  · rw [if_neg (by omega),if_neg (by omega)]
    have hlen : min k (rest.length+1) ≤ min k (parts.length+rest.length) := by omega
    have hlow : 0 < min k (rest.length+1) := by omega
    exact div_le_div₀ (by positivity) (by exact_mod_cast hsum) (by exact_mod_cast hlow)
      (by exact_mod_cast hlen)

theorem average_flatMap {f : ℕ → List ℕ} {l : List ℕ} (hsum : ∀a∈l,(f a).sum=a) (hne : ∀a∈l,f a≠[])
    (k : ℕ) : average k (l.flatMap f)≤average k l := by
  have hall : ∀rest,average k (l.flatMap f++rest)≤average k (l++rest) := by
    induction l with
    | nil => exact fun rest => le_rfl
    | cons a l ih =>
      intro rest
      obtain ⟨ha,hl⟩:=forall_mem_cons.mp hsum
      obtain ⟨ha',hl'⟩:=forall_mem_cons.mp hne
      have hfirst := average_refine ha' k (l.flatMap f++rest)
      have hmove : (a::(l.flatMap f++rest)).Perm (l.flatMap f++a::rest) := perm_middle.symm
      have hback : (l++a::rest).Perm (a::l++rest) := perm_middle
      rw [ha,average_perm hmove] at hfirst
      rw [flatMap_cons,append_assoc]
      exact hfirst.trans ((ih hl hl' (a::rest)).trans (average_perm hback k).le)
  simpa using hall []

end Sniper.LargestElements
