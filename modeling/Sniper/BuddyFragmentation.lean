import Sniper.BuddyOwnership
import Sniper.LargestElements

/-!
# Artificial fragmentation of the buddy allocator

The loop with a target count may pass over its target. The one with a target ratio cuts at
random, but its last state does not depend on the draws.
-/

namespace Sniper.BuddyAllocator
open IntervalTilings FallibleRuns LargestElements List

namespace Buddy

variable {s : Buddy}

theorem topOrder_none (h : s.WellFormed) (ht : s.topOrder=none) : s.NoLarge := by
  intro k hk
  by_cases hmax : k ≤ s.maxOrder
  · have hno := List.find?_eq_none.mp ht k
      (mem_reverse.mpr (mem_range'_1.mpr ⟨hk,by omega⟩))
    simpa using hno
  · exact h.beyond k (by omega)

theorem fragmentStep_none {gen : Generator} {upper : ℕ → ℕ} {g : gen.State}
    (he : fragmentStep gen upper s g=none) : s.topOrder=none := by
  unfold fragmentStep at he
  cases ht : s.topOrder with
  | none => rfl
  | some i =>
    obtain ⟨-,hne⟩:=topOrder_some ht
    cases hl : s.freeList i with
    | nil => exact absurd hl hne
    | cons temp rest => simp [ht,hl] at he

theorem NoLarge.size_lt (hs : s.NoLarge) (h : s.WellFormed) : ∀b∈s.allBlocks,b.size<512 := by
  intro b hb
  obtain ⟨k,-,hk⟩:=mem_flatMap.mp hb
  have hlt : k<9 := hs.lt_nine (ne_nil_of_mem hk)
  rw [(h.spans k b hk).size_eq (Nat.two_pow_pos k)]
  exact Nat.pow_lt_pow_right Nat.one_lt_two hlt

theorem NoLarge.largeCount (hs : s.NoLarge) (h : s.WellFormed) : s.getFreeLargePageCount=0 := by
  rw [getFreeLargePageCount,sum_eq_zero]
  intro x hx
  obtain ⟨b,hb,rfl⟩:=mem_map.mp hx
  rw [largePages,if_neg (by have := hs.size_lt h b hb; omega)]

/-- The free blocks of 2MB or more in the order in which they are cut. -/
def largeBlocks (s : Buddy) : List Interval := (List.range' 9 (s.maxOrder+1 - 9)).reverse.flatMap s.freeList

/-- 2MB pages that are left when the first `m` blocks have been cut. -/
def largePagesAfter (s : Buddy) (m : ℕ) : ℕ := ((s.largeBlocks.drop m).map largePages).sum

theorem largeBlocks_of_topOrder_none (ht : s.topOrder=none) : s.largeBlocks=[] := by
  rw [largeBlocks,flatMap_eq_nil_iff]
  intro k hk
  simpa using List.find?_eq_none.mp ht k hk

theorem largeBlocks_cut {i : ℕ} {temp : Interval} {rest : List Interval} (ht : s.topOrder=some i)
    (hl : s.freeList i=temp::rest) (l : List Interval) :
    s.largeBlocks=temp::((s.setList i rest).pushAll 8 l).largeBlocks := by
  obtain ⟨-,above,below,hsplit,habove⟩:=List.find?_eq_some_iff_append.mp ht
  have hnodup : (above++i::below).Nodup := hsplit ▸ nodup_reverse.mpr (nodup_range')
  have hmem : ∀k∈above++i::below,9≤k := by
    intro k hk
    rw [← hsplit,mem_reverse,mem_range'_1] at hk
    exact hk.1
  have hcut : ∀k,9≤k → k≠i →
      ((s.setList i rest).pushAll 8 l).freeList k=s.freeList k := by
    intro k hk hki
    rw [pushAll,setList_freeList,Function.update_of_ne (by omega),setList_freeList,Function.update_of_ne hki]
  have hself : ((s.setList i rest).pushAll 8 l).freeList i=rest := by
    have hi := hmem i (by simp)
    rw [pushAll,setList_freeList,Function.update_of_ne (by omega),setList_freeList,Function.update_self]
  have hnil : above.flatMap s.freeList=[] := by
    rw [flatMap_eq_nil_iff]
    intro k hk
    simpa using habove k hk
  have hdisj := nodup_append'.mp hnodup
  have hrest : ∀ks : List ℕ,ks ⊆ above++i::below → i∉ks →
      ks.flatMap ((s.setList i rest).pushAll 8 l).freeList=ks.flatMap s.freeList := by
    intro ks hsub hi
    apply flatMap_congr
    intro k hk
    exact hcut k (hmem k (hsub hk)) fun heq => hi (heq ▸ hk)
  have hsplit' : (List.range' 9 (((s.setList i rest).pushAll 8 l).maxOrder+1 - 9)).reverse =
      above++i::below := hsplit
  rw [largeBlocks,largeBlocks,hsplit,hsplit',flatMap_append,flatMap_append,flatMap_cons,flatMap_cons,hself,hl,
    hrest above (subset_append_left _ _) fun hi => hdisj.2.2 hi mem_cons_self,
    hrest below (fun k hk => mem_append_right _ (mem_cons_of_mem i hk))
      (nodup_cons.mp hdisj.2.1).1,hnil]
  simp

theorem largeCount_eq (h : s.WellFormed) : s.getFreeLargePageCount=s.largePagesAfter 0 := by
  rw [largePagesAfter,drop_zero]
  induction hn : s.largeBlocks generalizing s with
  | nil =>
    cases ht : s.topOrder with
    | none => exact (topOrder_none h ht).largeCount h
    | some i =>
      obtain ⟨-,hne⟩:=topOrder_some ht
      cases hl : s.freeList i with
      | nil => exact absurd hl hne
      | cons temp rest =>
        rw [largeBlocks_cut ht hl []] at hn
        cases hn
  | cons b bs ih =>
    cases ht : s.topOrder with
    | none =>
      rw [largeBlocks_of_topOrder_none ht] at hn
      cases hn
    | some i =>
      obtain ⟨hi,hne⟩:=topOrder_some ht
      cases hl : s.freeList i with
      | nil => exact absurd hl hne
      | cons temp rest =>
        rw [largeBlocks_cut ht hl (chunks temp.first (2^8) (temp.size / 2^8))] at hn
        obtain ⟨rfl,hbs⟩:=List.cons.inj hn
        have hwf := (takes_chunks h hl (show 8 ≤ i by omega) hi).wellFormed
        rw [← cut_largeCount h hi hl,ih hwf hbs,map_cons,sum_cons,add_comm]

theorem largePagesAfter_antitone (s : Buddy) {m n : ℕ} (h : m≤n) :
    s.largePagesAfter n ≤ s.largePagesAfter m := by
  apply List.Sublist.sum_le_sum
  · exact (drop_sublist_drop_left s.largeBlocks h).map _
  · simp

/-- The loop stops at the first number of cut blocks that leaves no more than the target. -/
theorem targetLoop_count {gen : Generator} {target n : ℕ} {s' : Buddy} {g : gen.State} (h : s.WellFormed)
    (he : targetLoop gen target n s g = .ok s') :
    ∃m,s'.getFreeLargePageCount=s.largePagesAfter m ∧ s.largePagesAfter m≤target ∧
      ∀k < m,target<s.largePagesAfter k := by
  have hstop : ∀ {t : Buddy},t.WellFormed → ¬ target<t.getFreeLargePageCount →
      ∃m,t.getFreeLargePageCount=t.largePagesAfter m ∧ t.largePagesAfter m≤target ∧
        ∀k < m,target<t.largePagesAfter k := by
    intro t ht hle
    have hcount := largeCount_eq ht
    exact ⟨0,hcount,by omega,by simp⟩
  induction n generalizing s g with
  | zero =>
    rw [targetLoop] at he
    split_ifs at he with hlt
    cases he
    exact hstop h hlt
  | succ n ih =>
    rw [targetLoop] at he
    split_ifs at he with hlt
    · cases hs : fragmentStep gen (fun i => min (i - 1) 8) s g with
      | none =>
        have hzero := (topOrder_none h (fragmentStep_none hs)).largeCount h
        omega
      | some r =>
        obtain ⟨i,j,temp,rest,ht,hi,hlow,hle,-,hl,hr⟩:=fragmentStep_cases draws_eight hs
        obtain rfl : j=8 := by omega
        have hwf := (fragmentStep_takes h draws_eight hs).wellFormed
        obtain ⟨m,hcount,hm,hbefore⟩:=ih hwf (by simpa only [hs] using he)
        have hblocks : s.largeBlocks=temp::r.1.largeBlocks := by
          rw [hr]
          exact largeBlocks_cut ht hl _
        have hafter : ∀k,s.largePagesAfter (k+1)=r.1.largePagesAfter k := by
          intro k
          rw [largePagesAfter,hblocks,drop_succ_cons,largePagesAfter]
        refine ⟨m+1,by rw [hafter,hcount],by rw [hafter]; exact hm,?_⟩
        intro k hk
        cases k with
        | zero => exact largeCount_eq h ▸ hlt
        | succ k => exact hafter k ▸ hbefore k (by omega)
    · cases he
      exact hstop h hlt

end Buddy

/-- Exactly the target number of 2MB pages is left, or as many as there were, and no 4KB page is
lost. -/
def FragmentsExactly (gen : Buddy.Generator) (s : Buddy) (target : ℕ) : Prop :=
  ∃s',s.fragmentMemoryToTargetCount gen target = .ok s' ∧
    s'.getFreeLargePageCount=min s.getFreeLargePageCount target ∧
    cells s'.allBlocks=cells s.allBlocks

/-- The target is met exactly when it is not below the number of 2MB pages, or when it is what
some number of the largest blocks, from the front of their lists, leaves. -/
theorem fragments_exactly_iff {gen : Buddy.Generator} {memorySize kernelSize : Int32} {maxOrder : ℕ}
    {fragType : String} {o : Ledger} (h : Reachable gen memorySize kernelSize maxOrder fragType o)
    (target : ℕ) : FragmentsExactly gen o.buddy target ↔
      o.buddy.getFreeLargePageCount≤target ∨ ∃m,target=o.buddy.largePagesAfter m := by
  have hwf := h.sound.wellFormed
  obtain ⟨s',hs'⟩ : ∃s',o.buddy.fragmentMemoryToTargetCount gen target = .ok s':=
    Buddy.targetLoop_ok _ hwf le_rfl
  obtain ⟨m,hcount,hle,hbefore⟩:=Buddy.targetLoop_count hwf hs'
  have hall := Buddy.largeCount_eq hwf
  constructor
  · rintro ⟨t,ht,hexact,-⟩
    cases hs'.symm.trans ht
    by_cases hmin : o.buddy.getFreeLargePageCount≤target
    · exact Or.inl hmin
    · exact Or.inr ⟨m,by omega⟩
  · intro hcond
    have htakes := Buddy.targetLoop_takes _ hwf hs'
    refine ⟨s',hs',?_,?_⟩
    · rcases hcond with hmin | ⟨k,hk⟩
      · have hm : m=0 := by
          by_contra hm
          have hlt := hbefore 0 (by omega)
          omega
        rw [hcount,hm,← hall,Nat.min_eq_left hmin]
      · have hmk : m≤k := by
          by_contra hlt
          have := hbefore k (by omega)
          omega
        have hlow := o.buddy.largePagesAfter_antitone hmk
        have htop := o.buddy.largePagesAfter_antitone (Nat.zero_le k)
        omega
    · rw [Ledger.cells_allBlocks hwf,Ledger.cells_allBlocks htakes.wellFormed,htakes.cells,add_zero]

/-- Of two free 2MB pages one is left. -/
theorem fragments_exactly_to_one : ∃s,Buddy.new 5 9 1 "largepage" = .ok s ∧ s.getFreeLargePageCount=2 ∧
    FragmentsExactly lowGenerator s 1 := by
  refine exists_ok_and (P:=fun s => s.largePagesAfter 1=1) (by decide +kernel) fun s hs hafter => ?_
  have hfresh : Reachable lowGenerator 5 1 9 "largepage" ⟨s,[]⟩ := ⟨s,[],hs,trivial,rfl⟩
  exact (fragments_exactly_iff hfresh 1).mpr (Or.inr ⟨1,hafter.symm⟩)

/-- With one free block of 4MB both of its 2MB pages are lost. -/
theorem fragments_past_the_target : ∃s,Buddy.new 5 10 1 "largepage" = .ok s ∧ s.getFreeLargePageCount=2 ∧
    ¬ FragmentsExactly lowGenerator s 1 := by
  refine exists_ok (P:=fun s => s.getFreeLargePageCount=2 ∧
    ∃t,s.fragmentMemoryToTargetCount lowGenerator 1 = .ok t ∧ t.getFreeLargePageCount=0) (by decide +kernel) ?_
  rintro s - ⟨hbefore,t,ht,hzero⟩
  refine ⟨hbefore,?_⟩
  rintro ⟨t',ht',hexact,-⟩
  cases ht.symm.trans ht'
  rw [hzero,hbefore] at hexact
  exact absurd hexact (by decide)

def pieces (n : ℕ) : List ℕ := if 512≤n then List.replicate (n / 256) 256 else [n]

namespace Buddy

/-- The sizes of the free blocks when every block of 2MB or more has been cut into 1MB blocks. -/
def exhaustedSizes (s : Buddy) : List ℕ := (s.allBlocks.map Interval.size).flatMap pieces

/-- The contiguity metric of the allocator in which nothing can be cut any more. -/
def exhaustedRatio (s : Buddy) : ℚ := average 50 s.exhaustedSizes / 2^(s.maxOrder - 3)

theorem getAverageSizeRatio_eq (s : Buddy) :
    s.getAverageSizeRatio=average 50 (s.allBlocks.map Interval.size) / 2^(s.maxOrder - 3) :=
  rfl

theorem exhaustedSizes_eq (s : Buddy) :
    (s.exhaustedSizes : Multiset ℕ)=s.blockSum fun b => (pieces b.size : Multiset ℕ) := by
  rw [exhaustedSizes,blockSum]
  induction s.allBlocks with
  | nil => rfl
  | cons b l ih => simp [← ih]

theorem pieces_ne_nil (n : ℕ) : pieces n≠[] := by
  rw [pieces]
  split_ifs with h
  · rw [ne_eq,replicate_eq_nil_iff]
    omega
  · exact cons_ne_nil n []

theorem pieces_two_pow {k : ℕ} (hk : 8≤k) : pieces (2^k)=List.replicate (2^k / 256) 256 := by
  rw [pieces]
  split_ifs with h
  · rfl
  · have hlt : k<9 := (Nat.pow_lt_pow_iff_right Nat.one_lt_two).mp (show 2^k<2^9 by omega)
    obtain rfl : k=8 := by omega
    rfl

variable {s t : Buddy} {gen : Generator}

theorem sum_pieces (h : s.WellFormed) {b : Interval} (hb : b∈s.allBlocks) : (pieces b.size).sum=b.size := by
  obtain ⟨k,-,hk⟩:=mem_flatMap.mp hb
  rw [(h.spans k b hk).size_eq (Nat.two_pow_pos k)]
  by_cases hlow : 8≤k
  · rw [pieces_two_pow hlow,sum_replicate,smul_eq_mul]
    exact Nat.div_mul_cancel (Nat.pow_dvd_pow 2 hlow)
  · have hlt : 2^k<2^9 := Nat.pow_lt_pow_right Nat.one_lt_two (by omega)
    rw [pieces,if_neg (by omega),sum_singleton]

theorem sum_pieces_chunks {i j : ℕ} (hlow : 8≤j) (hj : j ≤ i) (start : ℕ) :
    ((chunks start (2^j) (2^i / 2^j)).map fun b => (pieces b.size : Multiset ℕ)).sum = pieces (2^i) := by
  have hconst : (chunks start (2^j) (2^i / 2^j)).map (fun b => (pieces b.size : Multiset ℕ)) =
      List.replicate (2^i / 2^j) (Multiset.replicate (2^j / 256) 256) := by
    rw [eq_replicate_iff]
    refine ⟨by simp [chunks],?_⟩
    intro x hx
    obtain ⟨b,hb,rfl⟩:=mem_map.mp hx
    have hsize := (chunks_spans (Nat.two_pow_pos j) b hb).size_eq (Nat.two_pow_pos j)
    rw [hsize,pieces_two_pow hlow,Multiset.coe_replicate]
  have hcount : 2^i / 2^j*(2^j / 2^8)=2^i / 2^8 := by
    rw [Nat.pow_div hj (by decide),Nat.pow_div hlow (by decide),Nat.pow_div (hlow.trans hj) (by decide),
      ← pow_add]
    congr 1
    omega
  rw [hconst,sum_replicate,Multiset.nsmul_replicate,pieces_two_pow (hlow.trans hj),Multiset.coe_replicate]
  exact congrArg (Multiset.replicate · 256) hcount

/-- `t` arises from `s` by cutting blocks of 2MB or more. -/
structure Refines (s t : Buddy) : Prop where
  takes : s.Takes t 0
  metric : t.fragFun=s.fragFun
  exhausted : t.exhaustedSizes.Perm s.exhaustedSizes

theorem Refines.refl (h : s.WellFormed) : s.Refines s := ⟨Takes.refl h,rfl,List.Perm.refl _⟩

theorem Refines.trans {u : Buddy} (h : s.Refines t) (h' : t.Refines u) : s.Refines u :=
  ⟨h.takes.trans h'.takes,h'.metric.trans h.metric,h'.exhausted.trans h.exhausted⟩

theorem fragmentStep_refines {s' : Buddy} {g g' : gen.State} (h : s.WellFormed)
    (he : fragmentStep gen (fun i => i - 1) s g=some (s',g')) :
    s.Refines s' ∧ s.allBlocks.length<s'.allBlocks.length := by
  have htakes := fragmentStep_takes h draws_below he
  obtain ⟨i,j,temp,rest,-,hi,hlow,-,hlt,hl,rfl⟩:=fragmentStep_cases draws_below he
  have himax : i ≤ s.maxOrder := h.le_maxOrder (by rw [hl]; exact cons_ne_nil temp rest)
  have hsize : temp.size=2^i := (h.spans i temp (by rw [hl]; exact mem_cons_self)).size_eq (Nat.two_pow_pos i)
  rw [hsize] at htakes ⊢
  refine ⟨⟨htakes,rfl,?_⟩,?_⟩
  · have hcut := blockSum_cut (j:=j) (l:=chunks temp.first (2^j) (2^i / 2^j))
      (fun b => (pieces b.size : Multiset ℕ)) hl himax (by omega)
    rw [hsize,sum_pieces_chunks hlow hlt.le] at hcut
    rw [← Multiset.coe_eq_coe,exhaustedSizes_eq,exhaustedSizes_eq]
    exact add_right_cancel hcut
  · have hcut := blockSum_cut (j:=j) (l:=chunks temp.first (2^j) (2^i / 2^j))
      (fun _ => 1) hl himax (by omega)
    have htwo : 2≤2^i / 2^j := by
      rw [Nat.pow_div hlt.le (by decide)]
      exact Nat.le_self_pow (by omega) 2
    simp only [blockSum,map_const',sum_replicate,smul_eq_mul,mul_one] at hcut
    rw [show (chunks temp.first (2^j) (2^i / 2^j)).length=2^i / 2^j by
      simp [chunks]] at hcut
    omega

theorem length_allBlocks_le (s : Buddy) : s.allBlocks.length ≤ s.exhaustedSizes.length := by
  rw [exhaustedSizes]
  induction s.allBlocks with
  | nil => simp
  | cons b l ih =>
    have hpos := length_pos_iff.mpr (pieces_ne_nil b.size)
    simp only [map_cons,flatMap_cons,length_append,length_cons] at ih ⊢
    omega

/-- Cutting ends: there are never more blocks than in the exhausted allocator. -/
theorem fragmentLoop_ends {exceeds : Buddy → Bool} {n : ℕ} {g : gen.State}
    (hend : ∀u,s.Refines u → u.NoLarge → exceeds u=false) (h : s.Refines t)
    (hn : t.exhaustedSizes.length<t.allBlocks.length+n) : ∃s',fragmentLoop gen exceeds n t g = .ok s' := by
  induction n generalizing t g with
  | zero =>
    have hle := length_allBlocks_le t
    omega
  | succ n ih =>
    rw [fragmentLoop]
    split_ifs with hex
    · cases hs : fragmentStep gen (fun i => i - 1) t g with
      | none =>
        have hnone := topOrder_none h.takes.wellFormed (fragmentStep_none hs)
        rw [hend t h hnone] at hex
        cases hex
      | some r =>
        obtain ⟨hr,hmore⟩:=fragmentStep_refines h.takes.wellFormed hs
        have hlen := hr.exhausted.length_eq
        exact ih (h.trans hr) (by omega)
    · exact ⟨t,rfl⟩

theorem fragmentMemory_ends {target : ℚ} (h : s.WellFormed)
    (hshift : ¬ (s.fragFun = .getAverageSizeRatio ∧ s.maxOrder<3))
    (hend : ∀u,s.Refines u → u.NoLarge → u.fragmentationExceeds target=false) :
    ∃fuel s',s.fragmentMemory gen target fuel = .ok s' := by
  obtain ⟨s',hs'⟩:=fragmentLoop_ends (n:=s.exhaustedSizes.length+1) (g:=gen.seed) hend
    (Refines.refl h) (by omega)
  exact ⟨_,s',(if_neg hshift).trans hs'⟩

theorem fragmentLoop_endless {exceeds : Buddy → Bool} (hall : ∀u,s.Refines u → exceeds u=true)
    (h : s.Refines t) (n : ℕ) (g : gen.State) : fragmentLoop gen exceeds n t g = .error .unfinished := by
  induction n generalizing t g with
  | zero => rw [fragmentLoop,if_pos (hall t h)]
  | succ n ih =>
    rw [fragmentLoop,if_pos (hall t h)]
    cases hs : fragmentStep gen (fun i => i - 1) t g with
    | none => exact ih h g
    | some r => exact ih (h.trans (fragmentStep_refines h.takes.wellFormed hs).1) r.2

theorem exhaustedRatio_le (h : s.Refines t) : s.exhaustedRatio≤t.getAverageSizeRatio := by
  rw [exhaustedRatio,getAverageSizeRatio_eq,h.takes.maxOrder,← average_perm h.exhausted,exhaustedSizes]
  gcongr
  apply average_flatMap
  · intro n hn
    obtain ⟨b,hb,rfl⟩:=mem_map.mp hn
    exact sum_pieces h.takes.wellFormed hb
  · exact fun n _ => pieces_ne_nil n

theorem getAverageSizeRatio_of_noLarge (h : s.Refines t) (ht : t.NoLarge) :
    t.getAverageSizeRatio=s.exhaustedRatio := by
  have hsame : t.exhaustedSizes=t.allBlocks.map Interval.size := by
    have hsmall := ht.size_lt h.takes.wellFormed
    rw [exhaustedSizes]
    generalize t.allBlocks=blocks at hsmall ⊢
    induction blocks with
    | nil => rfl
    | cons b l ih =>
      obtain ⟨hb,hl⟩:=forall_mem_cons.mp hsmall
      rw [map_cons,flatMap_cons,ih hl,pieces,if_neg (by omega),singleton_append]
  rw [exhaustedRatio,getAverageSizeRatio_eq,h.takes.maxOrder,← average_perm h.exhausted,hsame]

theorem exceeds_of_largePageRatio {target : ℚ} (h : s.WellFormed) (hs : s.NoLarge)
    (hmetric : s.fragFun = .getLargePageRatio) (htarget : 0≤target) : s.fragmentationExceeds target=false := by
  rw [fragmentationExceeds,hmetric]
  simp only [getLargePageRatio,hs.largeCount h]
  split_ifs
  · rfl
  · simpa using htarget

end Buddy

/-- `fragmentMemory` ends for every target that is not negative with the metric of large pages,
and with the contiguity metric exactly for those that the exhausted allocator meets. -/
theorem fragmentMemory_terminates_iff {gen : Buddy.Generator} {memorySize kernelSize : Int32} {maxOrder : ℕ}
    {fragType : String} {o : Ledger} {target : ℚ}
    (h : Reachable gen memorySize kernelSize maxOrder fragType o) (htarget : 0≤target)
    (draws : Buddy.Generator) : (∃fuel s',o.buddy.fragmentMemory draws target fuel = .ok s') ↔
      o.buddy.fragFun = .getLargePageRatio ∨ 3 ≤ o.buddy.maxOrder ∧ o.buddy.exhaustedRatio≤target := by
  have hwf := h.sound.wellFormed
  cases hmetric : o.buddy.fragFun with
  | getLargePageRatio =>
    refine iff_of_true (Buddy.fragmentMemory_ends hwf (by simp [hmetric]) ?_) (Or.inl rfl)
    intro u hu hnone
    exact Buddy.exceeds_of_largePageRatio hu.takes.wellFormed hnone (hu.metric.trans hmetric) htarget
  | getAverageSizeRatio =>
    have hexceeds : ∀u,o.buddy.Refines u →
        u.fragmentationExceeds target=decide (target<u.getAverageSizeRatio) := by
      intro u hu
      rw [Buddy.fragmentationExceeds,hu.metric,hmetric]
    rw [or_iff_right (by simp)]
    by_cases hshift : o.buddy.maxOrder<3
    · refine iff_of_false ?_ (by omega)
      rintro ⟨fuel,s',hs'⟩
      rw [Buddy.fragmentMemory,if_pos ⟨hmetric,hshift⟩] at hs'
      cases hs'
    · rw [and_iff_right (by omega)]
      have hguard : ¬ (o.buddy.fragFun = .getAverageSizeRatio ∧ o.buddy.maxOrder<3) := fun hneg => hshift hneg.2
      constructor
      · rintro ⟨fuel,s',hs'⟩
        by_contra hlt
        have hall : ∀u,o.buddy.Refines u → u.fragmentationExceeds target=true := by
          intro u hu
          rw [hexceeds u hu,decide_eq_true_eq]
          exact (not_le.mp hlt).trans_le (Buddy.exhaustedRatio_le hu)
        rw [Buddy.fragmentMemory,if_neg hguard,
          Buddy.fragmentLoop_endless hall (Buddy.Refines.refl hwf)] at hs'
        cases hs'
      · intro hle
        refine Buddy.fragmentMemory_ends hwf hguard ?_
        intro u hu hnone
        rw [hexceeds u hu,Buddy.getAverageSizeRatio_of_noLarge hu hnone]
        exact decide_eq_false (not_lt.mpr hle)

private theorem exists_exhaustedRatio_eq_four :
    ∃s,Buddy.new 4 9 1 "contiguity" = .ok s ∧ s.fragFun = .getAverageSizeRatio ∧
      s.maxOrder=9 ∧ s.exhaustedRatio=4 := by
  obtain ⟨s,hs,hmetric,hmax,hsizes⟩ : ∃s,Buddy.new 4 9 1 "contiguity" = .ok s ∧
      s.fragFun = .getAverageSizeRatio ∧ s.maxOrder=9 ∧
      s.exhaustedSizes=List.replicate 3 256 := by
    decide +kernel
  refine ⟨s,hs,hmetric,hmax,?_⟩
  rw [Buddy.exhaustedRatio,hsizes,hmax,average_replicate (by decide) (by decide)]
  norm_num

theorem fragmentMemory_terminates_at_four :
    ∃s,Buddy.new 4 9 1 "contiguity" = .ok s ∧ ∀draws : Buddy.Generator,
      ∃fuel s',s.fragmentMemory draws 4 fuel = .ok s' := by
  obtain ⟨s,hs,-,hmax,hratio⟩:=exists_exhaustedRatio_eq_four
  have hfresh : Reachable lowGenerator 4 1 9 "contiguity" ⟨s,[]⟩ := ⟨s,[],hs,trivial,rfl⟩
  refine ⟨s,hs,fun draws => ?_⟩
  refine (fragmentMemory_terminates_iff hfresh (by norm_num) draws).mpr (Or.inr ⟨?_,hratio.le⟩)
  rw [hmax]
  decide

/-- With a target of zero the same loop never ends, whatever is drawn. -/
theorem fragmentMemory_endless_at_zero : ∃s,Buddy.new 4 9 1 "contiguity" = .ok s ∧ ∀draws fuel,
      s.fragmentMemory draws 0 fuel = .error .unfinished := by
  obtain ⟨s,hs,hmetric,hmax,hratio⟩:=exists_exhaustedRatio_eq_four
  refine ⟨s,hs,fun draws fuel => ?_⟩
  rw [Buddy.fragmentMemory,if_neg (by omega)]
  apply Buddy.fragmentLoop_endless _ (Buddy.Refines.refl (Buddy.new_ok hs).2.1)
  intro u hu
  have hpos : 0<u.getAverageSizeRatio := by
    apply lt_of_lt_of_le _ (Buddy.exhaustedRatio_le hu)
    rw [hratio]
    norm_num
  rw [Buddy.fragmentationExceeds,hu.metric,hmetric]
  exact decide_eq_true hpos

end Sniper.BuddyAllocator
