import Sniper.BuddyAllocator

/-!
# What each buddy operation does to the free pages

Every operation only cuts free blocks and takes some of the pieces out of the free lists.
`Takes` states this once.
-/

namespace Sniper.BuddyAllocator
open IntervalTilings FallibleRuns Function List

namespace Buddy

/-- Every block of list `k` spans `2 ^ k` pages and no list beyond `max_order` is used. -/
structure WellFormed (s : Buddy) : Prop where
  spans : ∀k,∀b∈s.freeList k,b.Spans (2^k)
  beyond : ∀k,s.maxOrder<k → s.freeList k=[]

def freeCells (s : Buddy) : Multiset ℕ := ∑ k∈Finset.range (s.maxOrder+1),cells (s.freeList k)

/-- No free block of 2MB or more. -/
def NoLarge (s : Buddy) : Prop := ∀k,9≤k → s.freeList k=[]

variable {k ind bytes : ℕ} {s s' : Buddy} {b block : Interval} {l : List Interval} {r : Option ℕ}

theorem WellFormed.le_maxOrder (h : s.WellFormed) (hk : s.freeList k≠[]) : k ≤ s.maxOrder := by
  by_contra hlt
  exact hk (h.beyond k (by omega))

theorem freeCells_setList (hk : k ≤ s.maxOrder) (l : List Interval) :
    (s.setList k l).freeCells+cells (s.freeList k)=s.freeCells+cells l := by
  have hmem : k∈Finset.range (s.maxOrder+1) := Finset.mem_range.mpr (by omega)
  exact sum_update_add hmem cells s.freeList l

theorem freeCells_pushAll (hk : k ≤ s.maxOrder) (l : List Interval) :
    (s.pushAll k l).freeCells=s.freeCells+cells l := by
  have h := freeCells_setList hk (s.freeList k++l)
  rw [cells_append,← add_assoc,add_right_comm] at h
  exact add_right_cancel h

theorem freeCells_push (hk : k ≤ s.maxOrder) (b : Interval) : (s.push k b).freeCells=s.freeCells+b.cells := by
  have h := freeCells_pushAll hk [b]
  rwa [cells_cons,cells_nil,add_zero] at h

theorem freeCells_remove (hk : k ≤ s.maxOrder) (hl : (s.freeList k).Perm (b::l)) :
    (s.setList k l).freeCells+b.cells=s.freeCells := by
  have h := freeCells_setList hk l
  rw [cells_perm hl,cells_cons,← add_assoc] at h
  exact add_right_cancel h

theorem WellFormed.setList (h : s.WellFormed) (hk : k ≤ s.maxOrder) (hl : ∀b∈l,b.Spans (2^k)) :
    (s.setList k l).WellFormed := by
  constructor
  · intro j b hb
    rw [setList_freeList] at hb
    by_cases hj : j=k
    · subst hj
      rw [update_self] at hb
      exact hl b hb
    · rw [update_of_ne hj] at hb
      exact h.spans j b hb
  · intro j hj
    rw [setList_maxOrder] at hj
    rw [setList_freeList,update_of_ne (by omega)]
    exact h.beyond j hj

theorem WellFormed.remove (h : s.WellFormed) (hl : (s.freeList k).Perm (b::l)) :
    k ≤ s.maxOrder ∧ b.Spans (2^k) ∧ (s.setList k l).WellFormed := by
  have hk : k ≤ s.maxOrder := h.le_maxOrder fun hnil => by simp [hnil] at hl
  refine ⟨hk,h.spans k b (hl.mem_iff.mpr mem_cons_self),h.setList hk ?_⟩
  intro c hc
  exact h.spans k c (hl.mem_iff.mpr (mem_cons_of_mem _ hc))

theorem WellFormed.pushAll (h : s.WellFormed) (hk : k ≤ s.maxOrder) (hl : ∀b∈l,b.Spans (2^k)) :
    (s.pushAll k l).WellFormed := by
  apply h.setList hk
  intro b hb
  rcases mem_append.mp hb with hb | hb
  · exact h.spans k b hb
  · exact hl b hb

theorem WellFormed.push (h : s.WellFormed) (hk : k ≤ s.maxOrder) (hb : b.Spans (2^k)) :
    (s.push k b).WellFormed :=
  h.pushAll hk (by simpa using hb)

theorem NoLarge.setList (h : s.NoLarge) (hl : 9≤k → l=[]) : (s.setList k l).NoLarge := by
  intro j hj
  rw [setList_freeList]
  by_cases hjk : j=k
  · subst hjk
    rw [update_self]
    exact hl hj
  · rw [update_of_ne hjk]
    exact h j hj

theorem NoLarge.push (h : s.NoLarge) (hk : k<9) (b : Interval) : (s.push k b).NoLarge := h.setList (by omega)

theorem NoLarge.lt_nine (h : s.NoLarge) (hk : s.freeList k≠[]) : k<9 := by
  by_contra hle
  exact hk (h k (by omega))

/-- `s'` arises from `s` by cutting blocks and removing the pages `out`. -/
structure Takes (s s' : Buddy) (out : Multiset ℕ) : Prop where
  maxOrder : s'.maxOrder=s.maxOrder
  wellFormed : s'.WellFormed
  cells : s.freeCells=s'.freeCells+out
  noLarge : s.NoLarge → s'.NoLarge

theorem Takes.refl (h : s.WellFormed) : s.Takes s 0 := ⟨rfl,h,by simp,id⟩

theorem Takes.trans {t u : Buddy} {out out' : Multiset ℕ} (h : s.Takes t out) (h' : t.Takes u out') :
    s.Takes u (out'+out) where
  maxOrder := h'.maxOrder.trans h.maxOrder
  wellFormed := h'.wellFormed
  cells := by rw [h.cells,h'.cells,add_assoc]
  noLarge hs := h'.noLarge (h.noLarge hs)

theorem Takes.counter {out : Multiset ℕ} (h : s.Takes s' out) (n : UInt64) :
    s.Takes {s' with freePages:=n} out :=
  ⟨h.maxOrder,⟨h.wellFormed.spans,h.wellFormed.beyond⟩,h.cells,h.noLarge⟩

theorem splitDown_spec (ind n : ℕ) (h : s.WellFormed) (hb : block.Spans (2^(ind+n)))
    (hn : ind+n ≤ s.maxOrder) : ∃s' block',splitDown ind n s block = .ok (s',block') ∧ block'.Spans (2^ind) ∧
      s'.maxOrder=s.maxOrder ∧ s'.WellFormed ∧ s'.freeCells+block'.cells=s.freeCells+block.cells ∧
      (ind+n≤9 → s.NoLarge → s'.NoLarge) := by
  induction n generalizing s block with
  | zero => exact ⟨s,block,rfl,hb,rfl,h,rfl,fun _ hs => hs⟩
  | succ n ih =>
    have hpow : 2^(ind+(n+1))=2*2^(ind+n) := by
      rw [← Nat.add_assoc,pow_succ,Nat.mul_comm]
    rw [hpow] at hb
    obtain ⟨hleft,hright,hcells⟩:=hb.halves (Nat.two_pow_pos _)
    have hpush := h.push (by omega) hleft
    obtain ⟨s',block',hsplit,hspan,hmax,hwf,hfree,hlarge⟩:=
      ih hpush hright (by simp only [push_maxOrder]; omega)
    refine ⟨s',block',?_,hspan,hmax,hwf,?_,?_⟩
    · rw [splitDown,if_pos (hright.size_eq (Nat.two_pow_pos _))]
      exact hsplit
    · rw [hfree,freeCells_push (by omega),← hcells,add_assoc]
    · intro hle hs
      exact hlarge (by omega) (hs.push (by omega) _)

theorem firstOrder_some {i : ℕ} (h : s.firstOrder ind=some i) : ind ≤ i ∧ i ≤ s.maxOrder ∧ s.freeList i≠[] := by
  have hmem := mem_range'_1.mp (mem_of_find?_eq_some h)
  have hne := List.find?_some h
  refine ⟨hmem.1,by omega,?_⟩
  simpa using hne

theorem firstOrder_none (hs : s.WellFormed) (h : s.firstOrder ind=none) : ∀k,ind≤k → s.freeList k=[] := by
  intro k hk
  by_cases hmax : k ≤ s.maxOrder
  · have hno := List.find?_eq_none.mp h k (mem_range'_1.mpr ⟨hk,by omega⟩)
    simpa using hno
  · exact hs.beyond k (by omega)

private theorem perm_getLast (h : l.getLast?=some b) : l.Perm (b::l.dropLast) := by
  obtain ⟨ys,rfl⟩:=List.getLast?_eq_some_iff.mp h
  simp

theorem allocate_answer (he : s.allocate bytes = .ok (r,s')) :
    (s.firstOrder (orderOf bytes)=none ∧ r=none ∧ s'=s) ∨
      ∃i block t block',s.firstOrder (orderOf bytes)=some i ∧
        (s.freeList i).getLast?=some block ∧
        splitDown (orderOf bytes) (i - orderOf bytes)
          (s.setList i (s.freeList i).dropLast) block = .ok (t,block') ∧
        r=some block'.first ∧
        s'={t with freePages:=t.freePages - UInt64.ofNat (2^orderOf bytes)} := by
  simp only [allocate] at he
  split_ifs at he
  cases hi : s.firstOrder (orderOf bytes) with
  | none =>
    rw [hi] at he
    cases he
    exact Or.inl ⟨rfl,rfl,rfl⟩
  | some i =>
    cases hlast : (s.freeList i).getLast? with
    | none => simp [hi,hlast] at he
    | some block =>
      simp only [hi,hlast] at he
      obtain ⟨⟨t,block'⟩,hsplit,he⟩:=bind_ok he
      cases he
      exact Or.inr ⟨i,block,t,block',rfl,hlast,hsplit,rfl,rfl⟩

theorem allocate_cases (h : s.WellFormed) (he : s.allocate bytes = .ok (r,s')) :
    (∃p,r=some p ∧ s.Takes s' (Multiset.Ico p (p+2^orderOf bytes))) ∨
      (r=none ∧ s'=s ∧ ∀k,orderOf bytes≤k → s.freeList k=[]) := by
  rcases allocate_answer he with ⟨hi,hr,hs'⟩ | ⟨i,block,t,block',hi,hlast,hsplit,hr,hs'⟩
  · exact Or.inr ⟨hr,hs',firstOrder_none h hi⟩
  · obtain ⟨hle,himax,-⟩:=firstOrder_some hi
    obtain ⟨-,hspan,hwf⟩:=h.remove (perm_getLast hlast)
    have hsum : orderOf bytes+(i - orderOf bytes)=i := by omega
    obtain ⟨t₁,block₁,hsplit₁,hspan',hmax,hwf',hfree,hlarge⟩:=
      splitDown_spec (orderOf bytes) (i - orderOf bytes) hwf (hsum.symm ▸ hspan)
        (by rw [hsum]; exact himax)
    obtain ⟨rfl,rfl⟩:=Prod.mk.inj (Except.ok.inj (hsplit.symm.trans hsplit₁))
    have htake : s.Takes t (Multiset.Ico block'.first (block'.first+2^orderOf bytes)) := by
      refine ⟨hmax,hwf',?_,?_⟩
      · rw [← hspan'.cells_eq,hfree]
        exact (freeCells_remove himax (perm_getLast hlast)).symm
      · intro hs
        have hlt : i<9 := hs.lt_nine fun hnil => by simp [hnil] at hlast
        exact hlarge (by omega) (hs.setList (by omega))
    refine Or.inl ⟨block'.first,hr,?_⟩
    rw [hs']
    exact htake.counter _

/-- The block that a request is cut from: the last one of the first list that serves it. -/
def sourceBlock (s : Buddy) (bytes : ℕ) : Option Interval :=
  (s.firstOrder (orderOf bytes)).bind fun i => (s.freeList i).getLast?

theorem splitDown_first_le {n : ℕ} {block' : Interval} (h : splitDown ind n s block = .ok (s',block')) :
    block.first≤block'.first := by
  induction n generalizing s block with
  | zero =>
    cases h
    exact le_rfl
  | succ n ih =>
    rw [splitDown] at h
    split_ifs at h
    have hmid : block.first≤block.mid+1 := by
      rw [Interval.mid]
      omega
    exact hmid.trans (ih h)

theorem allocate_sourceBlock {p : ℕ} (h : s.allocate bytes = .ok (some p,s')) :
    ∃block,s.sourceBlock bytes=some block ∧ block.first≤p := by
  rcases allocate_answer h with ⟨-,hr,-⟩ | ⟨i,block,t,block',hi,hlast,hsplit,hr,-⟩
  · cases hr
  · cases hr
    refine ⟨block,?_,splitDown_first_le hsplit⟩
    rw [sourceBlock,hi,Option.bind_some,hlast]

theorem allocate_of_empty (hempty : ∀k,orderOf bytes≤k → s.freeList k=[])
    (he : s.allocate bytes = .ok (r,s')) : r=none ∧ s'=s := by
  rcases allocate_answer he with ⟨-,hanswer⟩ | ⟨i,-,-,-,hi,-⟩
  · exact hanswer
  · obtain ⟨hle,-,hne⟩:=firstOrder_some hi
    exact absurd (hempty i hle) hne

theorem allocate_ok (h : s.WellFormed) (hb : 4096≤bytes) (ho : orderOf bytes ≤ s.maxOrder+1) :
    ∃r,s.allocate bytes = .ok r := by
  have hz : ¬ bytes / 4096=0 := by omega
  unfold allocate
  dsimp only
  rw [if_neg hz,if_neg (by omega)]
  cases hi : s.firstOrder (orderOf bytes) with
  | none => exact ⟨_,rfl⟩
  | some i =>
    obtain ⟨hle,himax,hne⟩:=firstOrder_some hi
    cases hlast : (s.freeList i).getLast? with
    | none => exact absurd (List.getLast?_eq_none_iff.mp hlast) hne
    | some block =>
      obtain ⟨-,hspan,hwf⟩:=h.remove (perm_getLast hlast)
      have hsum : orderOf bytes+(i - orderOf bytes)=i := by omega
      obtain ⟨t,block',hsplit,-⟩:=
        splitDown_spec (orderOf bytes) (i - orderOf bytes) hwf (hsum.symm ▸ hspan)
          (by rw [hsum]; exact himax)
      exact ⟨_,by simp only [hlast,hsplit,ok_bind]; rfl⟩

private theorem takes_last_large (h : s.WellFormed) (hlast : (s.freeList largeOrder).getLast?=some block) :
    block.Spans 512 ∧ s.Takes (s.setList largeOrder (s.freeList largeOrder).dropLast)
      (Multiset.Ico block.first (block.first+512)) := by
  obtain ⟨hk,hspan,hwf⟩:=h.remove (perm_getLast hlast)
  have hspan' : block.Spans 512 := hspan
  refine ⟨hspan',rfl,hwf,?_,?_⟩
  · rw [← hspan'.cells_eq]
    exact (freeCells_remove hk (perm_getLast hlast)).symm
  · intro hs
    have hnil : s.freeList largeOrder=[] := hs 9 (Nat.le_refl 9)
    simp [hnil] at hlast

theorem takes_chunks {i j : ℕ} {temp : Interval} {rest : List Interval} (h : s.WellFormed)
    (hi : s.freeList i=temp::rest) (hj : j ≤ i) (hlarge : 9 ≤ i) :
    s.Takes ((s.setList i rest).pushAll j (chunks temp.first (2^j) (temp.size / 2^j))) 0 := by
  have hperm : (s.freeList i).Perm (temp::rest) := hi ▸ List.Perm.refl _
  obtain ⟨hk,hspan,hwf⟩:=h.remove hperm
  have hpos : 0<2^j := Nat.two_pow_pos j
  have hsize : temp.size / 2^j*2^j=2^i := by
    rw [hspan.size_eq (Nat.two_pow_pos i)]
    exact Nat.div_mul_cancel (Nat.pow_dvd_pow 2 hj)
  have hjmax : j≤(s.setList i rest).maxOrder := le_trans hj hk
  refine ⟨rfl,hwf.pushAll hjmax (chunks_spans hpos),?_,?_⟩
  · rw [freeCells_pushAll hjmax,cells_chunks hpos,hsize,← hspan.cells_eq,freeCells_remove hk hperm,add_zero]
  · intro hs
    rw [hs i hlarge] at hi
    cases hi

theorem reserve2mbPage_cases {r : Option Interval} (h : s.WellFormed) (he : s.reserve2mbPage = .ok (r,s')) :
    (∃block,r=some block ∧ block.Spans 512 ∧ ¬ s.NoLarge ∧
        s.Takes s' (Multiset.Ico block.first (block.first+512))) ∨ (r=none ∧ s'=s ∧ s.NoLarge) := by
  unfold reserve2mbPage at he
  split_ifs at he with hc
  cases hlast : (s.freeList largeOrder).getLast? with
  | some block =>
    rw [hlast] at he
    cases he
    obtain ⟨hspan,htake⟩:=takes_last_large h hlast
    refine Or.inl ⟨block,rfl,hspan,?_,htake⟩
    intro hs
    have hnil : s.freeList largeOrder=[] := hs 9 (Nat.le_refl 9)
    simp [hnil] at hlast
  | none =>
    simp only [hlast] at he
    cases hi : s.firstOrder 10 with
    | none =>
      rw [hi] at he
      cases he
      refine Or.inr ⟨rfl,rfl,?_⟩
      intro k hk
      rcases Nat.eq_or_lt_of_le hk with rfl | hk
      · exact List.getLast?_eq_none_iff.mp hlast
      · exact firstOrder_none h hi k hk
    | some i =>
      obtain ⟨hle,-,hne⟩:=firstOrder_some hi
      simp only [hi] at he
      cases hl : s.freeList i with
      | nil => exact absurd hl hne
      | cons temp rest =>
        simp only [hl] at he
        have hcut := takes_chunks h hl (show largeOrder ≤ i from Nat.le_of_succ_le hle)
          (Nat.le_of_succ_le hle)
        split at he
        · cases he
        · rename_i block hlast'
          cases he
          obtain ⟨hspan,htake⟩:=takes_last_large hcut.wellFormed hlast'
          refine Or.inl ⟨block,rfl,hspan,?_,?_⟩
          · intro hs
            exact hne (hs i (by omega))
          · have hboth := hcut.trans htake
            rwa [add_zero] at hboth

theorem reserve2mbPage_ok (h : s.WellFormed) (hlist : largeOrder<s.listCount) :
    ∃r,s.reserve2mbPage = .ok r := by
  unfold reserve2mbPage
  rw [if_neg (Nat.not_le_of_lt hlist)]
  cases hlast : (s.freeList largeOrder).getLast? with
  | some block => exact ⟨_,rfl⟩
  | none =>
    cases hi : s.firstOrder 10 with
    | none => exact ⟨_,rfl⟩
    | some i =>
      obtain ⟨hle,-,hne⟩:=firstOrder_some hi
      cases hl : s.freeList i with
      | nil => exact absurd hl hne
      | cons temp rest =>
        simp only [hl]
        split
        · rename_i hnone
          exfalso
          have hspan := h.spans i temp (by rw [hl]; exact mem_cons_self)
          have hsize := hspan.size_eq (Nat.two_pow_pos i)
          have hpos : 0<temp.size / 512 := by
            rw [hsize]
            have hpow : 2^9≤2^i := Nat.pow_le_pow_right (by decide) (Nat.le_of_succ_le hle)
            omega
          have hnil := List.getLast?_eq_none_iff.mp hnone
          simp only [pushAll,setList_freeList,update_self,append_eq_nil_iff] at hnil
          have hlen := congrArg List.length hnil.2
          simp [chunks] at hlen
          omega
        · exact ⟨_,rfl⟩

end Buddy

end Sniper.BuddyAllocator
