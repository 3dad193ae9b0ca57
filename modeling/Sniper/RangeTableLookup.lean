import Sniper.RangeTableInsertion

/-!
# When a range table lookup is right

A search reads one slot of every node it enters: the first key that does not end before the
address, or the slot after the last key. In a full node there is no such slot.
-/

namespace Sniper.RangeTable
open FallibleRuns PhysicalMemory List

namespace TreeNode

/-- The addresses of the keys that the search compares and passes. -/
def passed (x : TreeNode) (k : ℕ) : List UInt64 :=
  (List.range (x.stop k)).map fun j => x.emulatedPpn*4096+UInt64.ofNat (j*24)

theorem search_def (t k : ℕ) (x : TreeNode) : x.search t k =
    if 2*t - 1≤x.stop k then .error .outOfBounds
    else if (x.slots (x.stop k)).Contains k then .ok (some (x,x.stop k),x.passed k)
    else if x.leaf then .ok (none,x.passed k)
    else searchBelow t k (x.C (x.stop k)) >>= fun r => pure (r.1,x.passed k++r.2) := by
  obtain ⟨leaf,n,ppn,slots,c⟩:=x
  rw [search]
  rfl

theorem visited_def (k : ℕ) (x : TreeNode) : x.visited k =
    x::if (x.slots (x.stop k)).Contains k ∨ x.leaf then [] else visitedBelow k (x.C (x.stop k)) := by
  obtain ⟨leaf,n,ppn,slots,c⟩:=x
  rw [visited]
  rfl

/-- All keys of a full node end before the address: the slot that the search reads next lies
past the end of the array. -/
def Overrun (t k : ℕ) (x : TreeNode) : Prop := x.n=2*t - 1 ∧ ∀i,i<x.n → (x.slots i).second<k

instance (t k : ℕ) (x : TreeNode) : Decidable (Overrun t k x) := inferInstanceAs (Decidable (_ ∧ _))

/-- Some key of the node ends exactly at the address. -/
def EndsAt (k : ℕ) (x : TreeNode) : Prop := ∃i,i<x.n ∧ (x.slots i).second=k

instance (k : ℕ) (x : TreeNode) : Decidable (EndsAt k x) :=
  inferInstanceAs (Decidable (∃i,i<x.n ∧ (x.slots i).second=k))

/-- All keys of the node end before the address, and the slot after them still holds `e`. -/
def Leftover (k : ℕ) (e : Slot) (x : TreeNode) : Prop := (∀i,i<x.n → (x.slots i).second<k) ∧ x.slots x.n=e

theorem stop_eq_n {x : TreeNode} {k : ℕ} : x.stop k=x.n ↔ ∀i,i<x.n → (x.slots i).second<k := by
  constructor
  · intro h i hi
    exact second_lt_of_lt_stop (h ▸ hi)
  · intro h
    by_contra hne
    have hlt : x.stop k<x.n := lt_of_le_of_ne (stop_le x k) hne
    exact absurd (h _ hlt) (not_lt.mpr (le_second_stop hlt))

section Paths

variable {t : ℕ} {S : Set Slot} {h : ℕ} {x : TreeNode} {lo hi k : ℕ}

theorem Ordered.overrun_iff (hx : Ordered t S h x lo hi) : Overrun t k x ↔ 2*t - 1≤x.stop k := by
  have hsize := hx.keys.size
  have hle := stop_le x k
  rw [Overrun,← stop_eq_n]
  omega

/-- Induction along a search. In each node it reads past the array, finds the address, gives
up in a leaf, or goes on in the child at which it stopped. -/
theorem Ordered.search_induction {P : ℕ → TreeNode → ℕ → ℕ → Prop}
    (overrun : ∀h x lo hi,Overrun t k x → x∈x.visited k → x.search t k = .error .outOfBounds → P h x lo hi)
    (found : ∀h x lo hi,Ordered t S h x lo hi → ¬ Overrun t k x → x.visited k=[x] →
      (x.slots (x.stop k)).Contains k → x.search t k = .ok (some (x,x.stop k),x.passed k) → P h x lo hi)
    (missed : ∀x lo hi,Ordered t S 0 x lo hi → ¬ Overrun t k x → x.visited k=[x] →
      ¬ (x.slots (x.stop k)).Contains k → x.search t k = .ok (none,x.passed k) → P 0 x lo hi)
    (below : ∀h x lo hi c,Ordered t S (h+1) x lo hi → ¬ Overrun t k x →
      x.visited k=x::c.visited k → ¬ (x.slots (x.stop k)).Contains k →
      x.search t k=(c.search t k >>= fun r => pure (r.1,x.passed k++r.2)) → x.C (x.stop k)=some c →
      Ordered t S h c (x.lowerBound lo (x.stop k)) (x.upperBound hi (x.stop k)) →
      P h c (x.lowerBound lo (x.stop k)) (x.upperBound hi (x.stop k)) → P (h+1) x lo hi)
    (hx : Ordered t S h x lo hi) : P h x lo hi := by
  induction h generalizing x lo hi with
  | zero =>
    have hv : x.visited k=[x] := by rw [visited_def,if_pos (.inr hx.1)]
    by_cases hover : Overrun t k x
    · refine overrun _ _ _ _ hover (hv ▸ mem_singleton_self _) ?_
      rw [search_def,if_pos (hx.overrun_iff.mp hover)]
    · by_cases hc : (x.slots (x.stop k)).Contains k
      · refine found _ _ _ _ hx hover hv hc ?_
        rw [search_def,if_neg (hx.overrun_iff.not.mp hover),if_pos hc]
      · refine missed _ _ _ hx hover hv hc ?_
        rw [search_def,if_neg (hx.overrun_iff.not.mp hover),if_neg hc,if_pos hx.1]
  | succ h ih =>
    by_cases hover : Overrun t k x
    · refine overrun _ _ _ _ hover (visited_def k x ▸ mem_cons_self) ?_
      rw [search_def,if_pos (hx.overrun_iff.mp hover)]
    · by_cases hc : (x.slots (x.stop k)).Contains k
      · refine found _ _ _ _ hx hover ?_ hc ?_
        · rw [visited_def,if_pos (.inl hc)]
        · rw [search_def,if_neg (hx.overrun_iff.not.mp hover),if_pos hc]
      · have hleaf : ¬ x.leaf=true := by
          rw [hx.1]
          decide
        obtain ⟨c,hC,ho⟩:=hx.2.2.2 _ (stop_le x k)
        refine below _ _ _ _ c hx hover ?_ hc ?_ hC ho (ih ho)
        · rw [visited_def,if_neg (not_or.mpr ⟨hc,hleaf⟩),hC,visitedBelow]
        · rw [search_def,if_neg (hx.overrun_iff.not.mp hover),if_neg hc,if_neg hleaf,hC,searchBelow]

theorem search_ok_iff (hx : Ordered t S h x lo hi) :
    (∃r,x.search t k = .ok r) ↔ ∀y∈x.visited k,¬ Overrun t k y := by
  refine hx.search_induction (P:=fun _ x _ _ => (∃r,x.search t k = .ok r) ↔
    ∀y∈x.visited k,¬ Overrun t k y) (k:=k) ?_ ?_ ?_ ?_
  · intro h x lo hi hover hmem hs
    refine ⟨?_,fun hall => absurd hover (hall x hmem)⟩
    rintro ⟨r,hr⟩
    rw [hs] at hr
    cases hr
  · intro h x lo hi hx hover hv hc hs
    rw [hv,forall_mem_singleton]
    exact ⟨fun _ => hover,fun _ => ⟨_,hs⟩⟩
  · intro x lo hi hx hover hv hc hs
    rw [hv,forall_mem_singleton]
    exact ⟨fun _ => hover,fun _ => ⟨_,hs⟩⟩
  · intro h x lo hi c hx hover hv hc hs hC ho ih
    rw [hs,hv,forall_mem_cons,← ih]
    constructor
    · rintro ⟨r,hr⟩
      obtain ⟨r',hr',-⟩:=bind_ok hr
      exact ⟨hover,r',hr'⟩
    · rintro ⟨-,r',hr'⟩
      rw [hr']
      exact ⟨_,rfl⟩

theorem search_some {y : TreeNode} {i : ℕ} (acc : List UInt64) (hx : Ordered t S h x lo hi)
    (hs : x.search t k = .ok (some (y,i),acc)) :
    y∈x.visited k ∧ i=y.stop k ∧ (y.slots i).Contains k ∧ Remembers S y := by
  revert acc
  refine hx.search_induction (P:=fun _ x _ _ => ∀acc,x.search t k = .ok (some (y,i),acc) →
    y∈x.visited k ∧ i=y.stop k ∧ (y.slots i).Contains k ∧ Remembers S y) (k:=k) ?_ ?_ ?_ ?_
  · intro h x lo hi hover hmem hs acc hr
    rw [hs] at hr
    cases hr
  · intro h x lo hi hx hover hv hc hs acc hr
    rw [hs] at hr
    cases hr
    exact ⟨hv ▸ mem_singleton_self y,rfl,hc,hx.remembers⟩
  · intro x lo hi hx hover hv hc hs acc hr
    rw [hs] at hr
    cases hr
  · intro h x lo hi c hx hover hv hc hs hC ho ih acc hr
    rw [hs] at hr
    obtain ⟨⟨found,acc'⟩,hr',he⟩:=bind_ok hr
    cases he
    obtain ⟨hy,hrest⟩:=ih acc' hr'
    exact ⟨hv ▸ mem_cons_of_mem x hy,hrest⟩

theorem search_none (acc : List UInt64) (hx : Ordered t S h x lo hi) (hs : x.search t k = .ok (none,acc)) :
    ∀y∈x.visited k,¬ (y.slots (y.stop k)).Contains k := by
  revert acc
  refine hx.search_induction (P:=fun _ x _ _ => ∀acc,x.search t k = .ok (none,acc) →
    ∀y∈x.visited k,¬ (y.slots (y.stop k)).Contains k) (k:=k) ?_ ?_ ?_ ?_
  · intro h x lo hi hover hmem hs acc hr
    rw [hs] at hr
    cases hr
  · intro h x lo hi hx hover hv hc hs acc hr
    rw [hs] at hr
    cases hr
  · intro x lo hi hx hover hv hc hs acc hr
    rw [hv,forall_mem_singleton]
    exact hc
  · intro h x lo hi c hx hover hv hc hs hC ho ih acc hr
    rw [hs] at hr
    obtain ⟨⟨found,acc'⟩,hr',he⟩:=bind_ok hr
    cases he
    rw [hv,forall_mem_cons]
    exact ⟨hc,ih acc' hr'⟩

theorem Ordered.entries_between (hx : Ordered t S h x lo hi) {e : Slot} (he : e∈entries h x) :
    lo≤e.first ∧ e.second≤hi := by
  have hkeys : (∃i,i<x.n ∧ x.slots i=e) → lo≤e.first ∧ e.second≤hi := by
    rintro ⟨i,hin,rfl⟩
    exact ⟨hx.keys.lower i hin,hx.keys.upper i hin⟩
  induction h generalizing x lo hi with
  | zero => exact hkeys he
  | succ h ih =>
    rcases he with he | ⟨i,c,hin,hC,he⟩
    · exact hkeys he
    · obtain ⟨d,hd,ho⟩:=hx.2.2.2 i hin
      obtain rfl : c=d:=Option.some.inj (hC.symm.trans hd)
      obtain ⟨hlo,hhi⟩:=ih ho he fun ⟨i,hin,hi⟩ => hi ▸ ⟨ho.keys.lower i hin,ho.keys.upper i hin⟩
      exact ⟨(hx.keys.le_lowerBound hin).trans hlo,hhi.trans (hx.keys.upperBound_le i)⟩

theorem Keys.missed (hx : Keys t x lo hi) {j : ℕ} (hj : j<x.n) (hk : (x.slots j).Contains k)
    (hc : ¬ (x.slots (x.stop k)).Contains k) : (x.slots j).first=k ∧ EndsAt k x := by
  have hlt : x.stop k<j := by
    rcases lt_trichotomy j (x.stop k) with hlt | rfl | hgt
    · exact absurd (second_lt_of_lt_stop hlt) (not_lt.mpr hk.2.le)
    · exact absurd hk hc
    · exact hgt
  have hstop := le_second_stop (k:=k) (hlt.trans hj)
  have hsorted := hx.sorted _ j hlt hj
  have hfirst := hk.1
  exact ⟨by omega,x.stop k,hlt.trans hj,by omega⟩

/-- A stored range that contains the address is missed only if it begins at the address and
the search met a key that ends there. -/
theorem search_missed {e : Slot} (acc : List UInt64) (hx : Ordered t S h x lo hi)
    (hs : x.search t k = .ok (none,acc)) (he : e∈entries h x) (hk : e.Contains k) :
    e.first=k ∧ ∃y∈x.visited k,EndsAt k y := by
  revert acc he
  refine hx.search_induction (P:=fun h x _ _ => ∀acc,x.search t k = .ok (none,acc) →
    e∈entries h x → e.first=k ∧ ∃y∈x.visited k,EndsAt k y) (k:=k) ?_ ?_ ?_ ?_
  · intro h x lo hi hover hmem hs acc hr
    rw [hs] at hr
    cases hr
  · intro h x lo hi hx hover hv hc hs acc hr
    rw [hs] at hr
    cases hr
  · rintro x lo hi hx hover hv hc hs acc hr ⟨j,hj,rfl⟩
    obtain ⟨hfirst,hends⟩:=hx.keys.missed hj hk hc
    exact ⟨hfirst,x,hv ▸ mem_singleton_self x,hends⟩
  · rintro h x lo hi c hx hover hv hc hs hC ho ih acc hr he
    rw [hv]
    rcases he with ⟨j,hj,rfl⟩ | ⟨j,d,hj,hd,he⟩
    · obtain ⟨hfirst,hends⟩:=hx.keys.missed hj hk hc
      exact ⟨hfirst,x,mem_cons_self,hends⟩
    · obtain ⟨d',hd',hod⟩:=hx.2.2.2 j hj
      obtain rfl : d=d':=Option.some.inj (hd.symm.trans hd')
      obtain ⟨hlo,hhi⟩:=hod.entries_between he
      have hfirst := hk.1
      have hsecond := hk.2
      rcases lt_trichotomy j (x.stop k) with hlt | rfl | hgt
      · have hjn : j<x.n := lt_of_lt_of_le hlt (stop_le x k)
        have hupper := hx.keys.upperBound_le_first (le_refl j) hjn
        have hproper := hx.keys.proper j hjn
        have hpassed := second_lt_of_lt_stop hlt
        omega
      · obtain rfl : c=d:=Option.some.inj (hC.symm.trans hd)
        rw [hs] at hr
        obtain ⟨⟨found,acc'⟩,hr',hpair⟩:=bind_ok hr
        cases hpair
        obtain ⟨hfirst,y,hy,hends⟩:=ih acc' hr' he
        exact ⟨hfirst,y,mem_cons_of_mem x hy,hends⟩
      · have hlt : x.stop k<x.n := lt_of_lt_of_le hgt hj
        have hstop := le_second_stop hlt
        have hlower := hx.keys.second_le_lowerBound hgt hj
        exact ⟨by omega,x,mem_cons_self,x.stop k,hlt,by omega⟩

theorem visited_upper (hx : Ordered t S h x lo hi) {y : TreeNode} (hy : y∈x.visited k) {i : ℕ} (hi' : i<y.n) :
    (y.slots i).second≤hi := by
  induction h generalizing x lo hi with
  | zero =>
    rw [visited_def,if_pos (.inr hx.1),mem_singleton] at hy
    subst hy
    exact hx.keys.upper i hi'
  | succ h ih =>
    rw [visited_def,mem_cons] at hy
    rcases hy with rfl | hy
    · exact hx.keys.upper i hi'
    · split_ifs at hy
      · cases hy
      · obtain ⟨c,hC,ho⟩:=hx.2.2.2 _ (stop_le x k)
        rw [hC,visitedBelow] at hy
        exact (ih ho hy).trans (hx.keys.upperBound_le _)

theorem search_ends {y : TreeNode} {i : ℕ} (acc : List UInt64) (hx : Ordered t S h x lo hi)
    (hs : x.search t k = .ok (some (y,i),acc)) (hz : ∃z∈x.visited k,EndsAt k z) : i=y.n := by
  revert acc hz
  refine hx.search_induction (P:=fun h x _ _ => ∀acc,x.search t k = .ok (some (y,i),acc) →
    (∃z∈x.visited k,EndsAt k z) → i=y.n) (k:=k) ?_ ?_ ?_ ?_
  · intro h x lo hi hover hmem hs acc hr
    rw [hs] at hr
    cases hr
  · rintro h x lo hi hx hover hv hc hs acc hr ⟨z,hz,j,hj,hends⟩
    rw [hs] at hr
    cases hr
    rw [hv,mem_singleton] at hz
    subst hz
    by_contra hne
    have hlt : z.stop k<z.n := lt_of_le_of_ne (stop_le z k) hne
    have hsecond := hc.2
    rcases lt_trichotomy j (z.stop k) with hj' | rfl | hj'
    · exact absurd (second_lt_of_lt_stop hj') (by omega)
    · omega
    · have hsorted := hx.keys.sorted _ j hj' hj
      have hproper := hx.keys.proper j hj
      omega
  · intro x lo hi hx hover hv hc hs acc hr
    rw [hs] at hr
    cases hr
  · rintro h x lo hi c hx hover hv hc hs hC ho ih acc hr ⟨z,hz,hends⟩
    rw [hs] at hr
    obtain ⟨⟨found,acc'⟩,hr',hpair⟩:=bind_ok hr
    cases hpair
    rw [hv,mem_cons] at hz
    rcases hz with rfl | hz
    · obtain ⟨j,hj,hends⟩:=hends
      obtain ⟨hy,rfl,hcy,-⟩:=search_some acc' ho hr'
      by_contra hne
      have hylt : y.stop k<y.n := lt_of_le_of_ne (stop_le y k) hne
      have hupper := visited_upper ho hy hylt
      have hle : z.stop k≤j := by
        by_contra hgt
        exact absurd (second_lt_of_lt_stop (not_le.mp hgt)) (by omega)
      have hfirst := hx.keys.upperBound_le_first hle hj
      have hproper := hx.keys.proper j hj
      have hsecond := hcy.2
      omega
    · exact ih acc' hr' ⟨z,hz,hends⟩

end Paths

end TreeNode

open TreeNode

/-- The answer to a lookup is the inserted entry whose range contains the address, or a miss
when there is none. -/
def Answers (es : List Slot) (a : ℕ) (r : Except Abort (Option (TreeNode × ℕ) × List UInt64)) : Prop :=
  ∃found accessed,r = .ok (found,accessed) ∧
    (∀e∈es,e.Contains a → ∃y i,found=some (y,i) ∧ y.slots i=e) ∧
    ((∀e∈es,¬ e.Contains a) → found=none)

theorem eq_of_contains {es : List Slot} {a : ℕ} (hap : es.Pairwise Slot.Apart) {e e' : Slot} (he : e∈es)
    (he' : e'∈es) (hk : e.Contains a) (hk' : e'.Contains a) : e=e' := by
  induction hap with
  | nil => cases he
  | cons hhead _ ih =>
    rw [mem_cons] at he he'
    rcases he with rfl | he <;> rcases he' with rfl | he'
    · rfl
    · exact absurd hk' ((hhead e' he').not_contains hk)
    · exact absurd hk ((hhead e he).not_contains hk')
    · exact ih he he'

section Lookup

variable {s : RangeTableBtree} {es : List Slot} {M a : ℕ}

/-- The searches that answer: none reads past the array of a full node, and a range that begins
at the address is not cut off by a key that ends there, unless it is met again in a slot that
is no longer in use. -/
def Searchable (s : RangeTableBtree) (es : List Slot) (a : ℕ) : Prop :=
  (∀y∈s.visited a,¬ Overrun s.t a y) ∧
    ∀e∈es,e.first=a → a<e.second → (∃y∈s.visited a,EndsAt a y) →
      ∃y∈s.visited a,Leftover a e y

theorem answers_of_searchable (hs : s.Stores {e | e∈es} M) (hap : es.Pairwise Slot.Apart)
    (h : Searchable s es a) : Answers es a (s.lookup a) := by
  obtain ⟨hover,hends⟩:=h
  rw [RangeTableBtree.lookup]
  rw [RangeTableBtree.visited] at hover hends
  rw [RangeTableBtree.Stores] at hs
  cases hroot : s.root with
  | none =>
    rw [hroot] at hs
    refine ⟨none,[],rfl,fun e he => ?_,fun _ => rfl⟩
    exact absurd (show e∈({e | e∈es} : Set Slot) from he) (hs ▸ Set.notMem_empty e)
  | some root =>
    rw [hroot] at hs hover hends
    obtain ⟨h,ho,hent⟩:=hs
    obtain ⟨⟨found,acc⟩,hr⟩:=(search_ok_iff ho).mpr hover
    have hsound : ∀y i,found=some (y,i) → y.slots i∈es ∧ (y.slots i).Contains a := by
      rintro y i rfl
      obtain ⟨-,-,hc,hrem⟩:=search_some acc ho hr
      rcases hrem i with hblank | hmem
      · exact absurd (hblank ▸ hc) (Slot.not_contains_blank a)
      · exact ⟨hmem,hc⟩
    refine ⟨found,acc,hr,fun e he hk => ?_,fun hno => ?_⟩
    · cases hf : found with
      | none =>
        subst hf
        obtain ⟨hfirst,hmet⟩:=search_missed acc ho hr (hent ▸ he) hk
        obtain ⟨y,hy,hall,hslot⟩:=hends e he hfirst hk.2 hmet
        refine absurd ?_ (search_none acc ho hr y hy)
        rw [stop_eq_n.mpr hall,hslot]
        exact hk
      | some p =>
        obtain ⟨hmem,hc⟩:=hsound p.1 p.2 hf
        exact ⟨p.1,p.2,rfl,eq_of_contains hap hmem he hc hk⟩
    · cases hf : found with
      | none => rfl
      | some p =>
        obtain ⟨hmem,hc⟩:=hsound p.1 p.2 hf
        exact absurd hc (hno _ hmem)

theorem searchable_of_answers (hs : s.Stores {e | e∈es} M) (h : Answers es a (s.lookup a)) :
    Searchable s es a := by
  obtain ⟨found,acc,hr,hfound,-⟩:=h
  rw [RangeTableBtree.lookup] at hr
  rw [Searchable,RangeTableBtree.visited]
  rw [RangeTableBtree.Stores] at hs
  cases hroot : s.root with
  | none =>
    refine ⟨fun y hy => absurd hy not_mem_nil,?_⟩
    rintro e - - - ⟨y,hy,-⟩
    exact absurd hy not_mem_nil
  | some root =>
    rw [hroot] at hs hr
    obtain ⟨h,ho,-⟩:=hs
    refine ⟨(search_ok_iff ho).mp ⟨_,hr⟩,fun e he hfirst hsecond hmet => ?_⟩
    obtain ⟨y,i,rfl,hslot⟩:=hfound e he ⟨hfirst.le,hsecond⟩
    obtain ⟨hy,hstop,-⟩:=search_some acc ho hr
    have hi : i=y.n := search_ends acc ho hr hmet
    exact ⟨y,hy,stop_eq_n.mp (hstop.symm.trans hi),hi ▸ hslot⟩

/-- After any insertions of pairwise disjoint ranges, a lookup answers exactly when its search
neither reads past a full node nor is cut off by a range that ends at the address. -/
theorem lookup_answers_iff {t : ℕ} (ht : 2≤t) (allocator : PhysicalMemoryAllocator) (es : List Slot)
    (hproper : ∀e∈es,e.first≤e.second) (hap : es.Pairwise Slot.Apart) (a : ℕ) :
    ∃s,run State.insert ⟨.new t,allocator⟩ es = .ok s ∧ s.table.t=t ∧
      (Answers es a (s.table.lookup a) ↔ Searchable s.table es a) := by
  have hM : ∀e∈es,e.second≤(es.map Slot.second).sum := fun e he => le_sum_of_mem (mem_map_of_mem he)
  obtain ⟨s,hr,hst,hs⟩:=run_insert ht allocator es
  have hs := hs.stores hproper hM hap
  exact ⟨s,hr,hst,searchable_of_answers hs,answers_of_searchable hs hap⟩

def fourRanges : List Slot := [⟨0,10,⟨1⟩⟩,⟨20,30,⟨2⟩⟩,⟨40,50,⟨3⟩⟩,⟨60,70,⟨4⟩⟩]

/-- Four ranges in three nodes: the third one is found below the root. -/
theorem lookup_answers_below_root : ∃s,run State.insert ⟨.new 2,.new 1⟩ fourRanges = .ok s ∧
    Answers fourRanges 45 (s.table.lookup 45) := by
  refine exists_ok (P:=fun s => ∀y∈s.table.visited 45,¬ Overrun 2 45 y ∧ ¬ EndsAt 45 y) (by decide +kernel)
    fun s hs hpath => ?_
  obtain ⟨s',hs',ht,hiff⟩ := lookup_answers_iff (t:=2) le_rfl (.new 1) fourRanges (by decide) (by decide) 45
  obtain rfl : s=s' := Except.ok.inj (hs.symm.trans hs')
  refine hiff.mpr ⟨fun y hy => ht ▸ (hpath y hy).1,?_⟩
  rintro e - - - ⟨y,hy,hends⟩
  exact absurd hends (hpath y hy).2

/-- Two adjacent ranges: the address at which the second begins is not found. Three ranges in
one full node: a lookup behind the last of them reads past the array. -/
theorem lookup_misses_adjacent_range :
    (∃s,run State.insert ⟨.new 2,.new 1⟩ [⟨0,10,⟨1⟩⟩,⟨10,20,⟨2⟩⟩] = .ok s ∧
      ¬ Answers [⟨0,10,⟨1⟩⟩,⟨10,20,⟨2⟩⟩] 10 (s.table.lookup 10)) ∧
    ∃s,run State.insert ⟨.new 2,.new 1⟩ [⟨0,10,⟨1⟩⟩,⟨20,30,⟨2⟩⟩,⟨40,50,⟨3⟩⟩] = .ok s ∧
      s.table.lookup 60 = .error .outOfBounds := by
  refine ⟨exists_ok (P:=fun s => ∃r,s.table.lookup 10 = .ok r ∧ r.1.isNone) (by decide +kernel) ?_,
    by decide +kernel⟩
  rintro s - ⟨r,hr,hnone⟩ ⟨found,acc,hr',hfound,-⟩
  obtain rfl : r=(found,acc) := Except.ok.inj (hr.symm.trans hr')
  obtain ⟨y,i,rfl,-⟩ := hfound ⟨10,20,⟨2⟩⟩ (by decide) (by decide)
  cases hnone

end Lookup

namespace TreeNode
open AlternatingLists
variable {t : ℕ} {S : Set Slot} {h : ℕ} {x : TreeNode} {k : ℕ}

theorem Shape.pow_le (hx : Shape t S h x) : (x.n+1)*t^h≤(inorder h x).length+1 := by
  induction h generalizing x with
  | zero =>
    rw [inorder_eq]
    exact mul_le_alternate fun i _ => Nat.le_add_left ..
  | succ h ih =>
    rw [inorder_eq]
    refine mul_le_alternate fun i hi => ?_
    obtain ⟨c,hc,hmin,ho⟩:=hx.2.2.2 i hi
    rw [lists,hc,Option.elim_some,pow_succ']
    exact (Nat.mul_le_mul_right _ (by omega)).trans (ih ho)

theorem Shape.search_cost (hx : Shape t S h x) {found : Option (TreeNode × ℕ)} {accessed : List UInt64}
    (he : x.search t k = .ok (found,accessed)) : accessed.length≤(2*t - 2)*(h+1) := by
  have hpassed : ∀x : TreeNode,(x.passed k).length=x.stop k := fun x => by rw [passed,length_map,length_range]
  induction h generalizing x found accessed with
  | zero =>
    rw [search_def,if_pos hx.1] at he
    split_ifs at he with hover hfound
    all_goals
      cases he
      rw [hpassed]
      omega
  | succ h ih =>
    obtain ⟨c,hc,-,ho⟩:=hx.2.2.2 _ (stop_le x k)
    rw [search_def,hx.1,if_neg Bool.false_ne_true,hc] at he
    rw [Nat.mul_succ]
    split_ifs at he with hover hfound
    · cases he
      rw [hpassed]
      omega
    · obtain ⟨below,hbelow,he⟩:=bind_ok he
      cases he
      have hlater := ih ho hbelow
      rw [length_append,hpassed]
      omega

end TreeNode

open TreeNode in
/-- After any insertions a lookup reads at most `2 * t - 2` keys in each of logarithmically many nodes. -/
theorem lookup_logarithmic {t : ℕ} (ht : 2≤t) (allocator : PhysicalMemoryAllocator) (es : List Slot) :
    ∃s,run State.insert ⟨.new t,allocator⟩ es = .ok s ∧ ∀a found accessed,
      s.table.lookup a = .ok (found,accessed) → accessed.length≤(2*t - 2)*(Nat.log t (es.length+1)+1) := by
  obtain ⟨s,hr,hst,hs⟩:=run_insert ht allocator es
  refine ⟨s,hr,fun a found accessed he => ?_⟩
  rw [RangeTableBtree.lookup,hst] at he
  rw [RangeTableBtree.Holds,hst] at hs
  obtain ⟨hroot,-⟩ | ⟨root,h,hroot,hx,-,hperm⟩:=hs
  · rw [hroot] at he
    cases he
    exact Nat.zero_le _
  · rw [hroot] at he
    have hheight : t^h≤es.length+1 :=
      hperm.length_eq ▸ (Nat.le_mul_of_pos_left _ root.n.succ_pos).trans hx.pow_le
    exact (hx.search_cost he).trans (Nat.mul_le_mul_left _ (Nat.succ_le_succ (Nat.le_log_of_pow_le ht hheight)))

def fiveRanges : List Slot := fourRanges++[⟨80,90,⟨5⟩⟩]

/-- The root is split, and a lookup reads keys of two nodes. -/
theorem lookup_logarithmic_split : ∃s,run State.insert ⟨.new 2,.new 1⟩ fiveRanges = .ok s ∧
    (∃r,s.table.lookup 85 = .ok r ∧ r.1.isSome ∧ r.2.length = 3) ∧
    ∀a found accessed,s.table.lookup a = .ok (found,accessed) →
      accessed.length≤(2*2 - 2)*(Nat.log 2 6+1) := by
  refine exists_ok_and (P:=fun _ => True) (by decide +kernel) fun s hs _ => ?_
  obtain ⟨s',hs',hbound⟩ := lookup_logarithmic le_rfl (.new 1) fiveRanges
  cases hs.symm.trans hs'
  exact hbound

end Sniper.RangeTable
