import Sniper.BuddyBlocks

/-!
# The remaining buddy operations

Isolating a single page, returning a block, artificial fragmentation and the constructor.
-/

namespace Sniper.BuddyAllocator
open IntervalTilings FallibleRuns Function List

namespace Buddy

variable {s s' : Buddy} {gen : Generator} {g : gen.State} {exceeds : Buddy → Bool}

theorem locate_some {page i j : ℕ} (h : s.locate page=some (i,j)) :
    ∃b,(s.freeList i)[j]?=some b ∧ b.Contains page := by
  obtain ⟨k,-,hk⟩:=exists_of_findSome?_eq_some h
  obtain ⟨l,hl,heq⟩:=Option.map_eq_some_iff.mp hk
  cases heq
  obtain ⟨hlt,hb,-⟩:=List.findIdx?_eq_some_iff_getElem.mp hl
  exact ⟨_,List.getElem?_eq_getElem hlt,of_decide_eq_true hb⟩

theorem isolate_spec (page k : ℕ) {block : Interval} (h : s.WellFormed) (hb : block.Spans (2^k))
    (hp : block.Contains page) (hk : k ≤ s.maxOrder) :
    ∃s',isolate page k s block=(s',⟨page,page⟩) ∧ s'.maxOrder=s.maxOrder ∧
      s'.WellFormed ∧ s'.freeCells+{page}=s.freeCells+block.cells ∧ (k≤9 → s.NoLarge → s'.NoLarge) := by
  induction k generalizing s block with
  | zero =>
    have hone : block=⟨page,page⟩ := by
      unfold Interval.Spans at hb
      unfold Interval.Contains at hp
      cases block
      simp only [pow_zero,Interval.mk.injEq] at *
      omega
    refine ⟨s,by rw [isolate,hone],rfl,h,?_,fun _ hs => hs⟩
    rw [hone,Interval.cells_singleton]
  | succ k ih =>
    rw [pow_succ,Nat.mul_comm] at hb
    obtain ⟨hleft,hright,hcells⟩:=hb.halves (Nat.two_pow_pos _)
    by_cases hmid : page≤block.mid
    · obtain ⟨s',hiso,hmax,hwf,hfree,hlarge⟩:=ih (h.push (by omega) hright) hleft
        ⟨hp.1,hmid⟩ (by simp only [push_maxOrder]; omega)
      refine ⟨s',by rw [isolate,if_pos hmid,hiso],hmax,hwf,?_,?_⟩
      · rw [hfree,freeCells_push (by omega),← hcells,add_assoc,add_comm (Interval.cells _)]
      · intro hle hs
        exact hlarge (by omega) (hs.push (by omega) _)
    · obtain ⟨s',hiso,hmax,hwf,hfree,hlarge⟩:=ih (h.push (by omega) hleft) hright
        ⟨Nat.lt_of_not_le hmid,hp.2⟩ (by simp only [push_maxOrder]; omega)
      refine ⟨s',by rw [isolate,if_neg hmid,hiso],hmax,hwf,?_,?_⟩
      · rw [hfree,freeCells_push (by omega),← hcells,add_assoc]
      · intro hle hs
        exact hlarge (by omega) (hs.push (by omega) _)

private theorem perm_getElem {l : List Interval} {j : ℕ} {b : Interval} (h : l[j]?=some b) :
    l.Perm (b::l.eraseIdx j) := by
  obtain ⟨hj,rfl⟩:=List.getElem?_eq_some_iff.mp h
  exact (getElem_cons_eraseIdx_perm hj).symm

theorem checkIfFree_takes {page : ℕ} {alloc free : Bool} (h : s.WellFormed)
    (he : s.checkIfFree page alloc=(free,s')) :
    s.Takes s' (if free && alloc then {page} else 0) := by
  unfold checkIfFree at he
  cases hl : s.locate page with
  | none =>
    rw [hl] at he
    cases he
    exact Takes.refl h
  | some ij =>
    obtain ⟨i,j⟩:=ij
    obtain ⟨block,hget,hp⟩:=locate_some hl
    simp only [hl,hget] at he
    cases alloc with
    | false =>
      cases he
      exact Takes.refl h
    | true =>
      obtain ⟨hk,hspan,hwf⟩:=h.remove (perm_getElem hget)
      obtain ⟨t,hiso,hmax,hwf',hfree,hlarge⟩:=isolate_spec page i hwf hspan hp hk
      simp only [hiso,↓reduceIte] at he
      cases he
      have htake : s.Takes t {page} := by
        refine ⟨hmax,hwf',?_,?_⟩
        · rw [hfree]
          exact (freeCells_remove hk (perm_getElem hget)).symm
        · intro hs
          have hlt : i<9 := hs.lt_nine fun hnil => by simp [hnil] at hget
          exact hlarge (by omega) (hs.setList (by omega))
      exact htake.counter _

theorem free_spec {b : Interval} {k : ℕ} (h : s.WellFormed) (hb : b.Spans (2^k)) (hk : k ≤ s.maxOrder) :
    ∃s',s.free b.first b.last = .ok s' ∧ s'.maxOrder=s.maxOrder ∧ s'.WellFormed ∧
      s'.freeCells=s.freeCells+b.cells ∧ (k<9 → s.NoLarge → s'.NoLarge) := by
  have hpos : 0<2^k := Nat.two_pow_pos k
  have hsize : b.last+1 - b.first=2^k := by
    unfold Interval.Spans at hb
    omega
  have hwf := h.push hk hb
  refine ⟨{s.push k b with freePages:=s.freePages+UInt64.ofNat (2^k)},?_,rfl,⟨hwf.spans,hwf.beyond⟩,
    freeCells_push hk b,fun hlt hs => hs.push hlt b⟩
  unfold free
  simp only [hsize,ceilLog2_two_pow,hpos.ne',↓reduceIte,listCount]
  rw [if_neg (by omega)]
  rfl

theorem topOrder_some {i : ℕ} (h : s.topOrder=some i) : 9 ≤ i ∧ s.freeList i≠[] := by
  have hmem := mem_range'_1.mp (mem_reverse.mp (mem_of_find?_eq_some h))
  refine ⟨hmem.1,?_⟩
  simpa using List.find?_some h

/-- The orders that a pass may draw. -/
def Draws (upper : ℕ → ℕ) : Prop := ∀i,9 ≤ i → 8≤upper i ∧ upper i < i

theorem draws_below : Draws (fun i => i - 1) := fun i hi => by dsimp only; omega

theorem draws_eight : Draws (fun i => min (i - 1) 8) := fun i hi => by dsimp only; omega

theorem fragmentStep_cases {upper : ℕ → ℕ} {g' : gen.State} (hup : Draws upper)
    (he : fragmentStep gen upper s g=some (s',g')) :
    ∃i j temp rest,s.topOrder=some i ∧ 9 ≤ i ∧ 8≤j ∧ j≤upper i ∧ j < i ∧ s.freeList i=temp::rest ∧
      s'=(s.setList i rest).pushAll j (chunks temp.first (2^j) (temp.size / 2^j)) := by
  unfold fragmentStep at he
  cases ht : s.topOrder with
  | none => simp [ht] at he
  | some i =>
    obtain ⟨hi,hne⟩:=topOrder_some ht
    cases hl : s.freeList i with
    | nil => exact absurd hl hne
    | cons temp rest =>
      simp only [ht,hl,Option.some.injEq,Prod.mk.injEq] at he
      obtain ⟨rfl,-⟩:=he
      obtain ⟨hlow,hlt⟩:=hup i hi
      have hdraw := gen.draw_le g 8 (upper i) hlow
      exact ⟨i,_,temp,rest,rfl,hi,gen.le_draw g 8 (upper i) hlow,hdraw,hdraw.trans_lt hlt,hl,rfl⟩

theorem fragmentStep_takes {upper : ℕ → ℕ} {g' : gen.State} (h : s.WellFormed) (hup : Draws upper)
    (he : fragmentStep gen upper s g=some (s',g')) : s.Takes s' 0 := by
  obtain ⟨i,j,temp,rest,-,hi,-,-,hlt,hl,rfl⟩:=fragmentStep_cases hup he
  exact takes_chunks h hl hlt.le hi

theorem fragmentLoop_invariant {P : Buddy → Prop}
    (hstep : ∀s g s' g',P s → fragmentStep gen (fun i => i - 1) s g=some (s',g') → P s') (n : ℕ) (h : P s)
    (he : fragmentLoop gen exceeds n s g = .ok s') : P s' := by
  induction n generalizing s g with
  | zero =>
    rw [fragmentLoop] at he
    split_ifs at he
    cases he
    exact h
  | succ n ih =>
    rw [fragmentLoop] at he
    split_ifs at he
    · cases hs : fragmentStep gen (fun i => i - 1) s g with
      | none => exact ih h (by simpa only [hs] using he)
      | some r => exact ih (hstep s g r.1 r.2 h hs) (by simpa only [hs] using he)
    · cases he
      exact h

theorem targetLoop_invariant {target : ℕ} {P : Buddy → Prop} (hstep : ∀s g s' g',P s →
    fragmentStep gen (fun i => min (i - 1) 8) s g=some (s',g') → P s') (n : ℕ) (h : P s)
    (he : targetLoop gen target n s g = .ok s') : P s' := by
  induction n generalizing s g with
  | zero =>
    rw [targetLoop] at he
    split_ifs at he
    cases he
    exact h
  | succ n ih =>
    rw [targetLoop] at he
    split_ifs at he
    · cases hs : fragmentStep gen (fun i => min (i - 1) 8) s g with
      | none =>
        simp only [hs] at he
        cases he
        exact h
      | some r => exact ih (hstep s g r.1 r.2 h hs) (by simpa only [hs] using he)
    · cases he
      exact h

theorem fragmentLoop_takes (n : ℕ) (h : s.WellFormed) (he : fragmentLoop gen exceeds n s g = .ok s') :
    s.Takes s' 0 := by
  refine fragmentLoop_invariant (P:=fun t => s.Takes t 0) ?_ n (Takes.refl h) he
  intro t g u g' ht hstep
  exact ht.trans (fragmentStep_takes ht.wellFormed draws_below hstep)

theorem targetLoop_takes {target : ℕ} (n : ℕ) (h : s.WellFormed) (he : targetLoop gen target n s g = .ok s') :
    s.Takes s' 0 := by
  refine targetLoop_invariant (P:=fun t => s.Takes t 0) ?_ n (Takes.refl h) he
  intro t g u g' ht hstep
  exact ht.trans (fragmentStep_takes ht.wellFormed draws_eight hstep)

theorem fragmentMemory_takes {target : ℚ} {fuel : ℕ} (h : s.WellFormed)
    (he : fragmentMemory gen s target fuel = .ok s') : s.Takes s' 0 := by
  rw [fragmentMemory] at he
  split_ifs at he
  exact fragmentLoop_takes fuel h he

theorem fragmentLoop_error (n : ℕ) {e : Abort} (he : fragmentLoop gen exceeds n s g = .error e) :
    e = .unfinished := by
  induction n generalizing s g with
  | zero =>
    rw [fragmentLoop] at he
    split_ifs at he
    cases he
    rfl
  | succ n ih =>
    rw [fragmentLoop] at he
    split_ifs at he
    cases hs : fragmentStep gen (fun i => i - 1) s g with
    | none => exact ih (by simpa only [hs] using he)
    | some r => exact ih (by simpa only [hs] using he)

def blockSum {M : Type*} [AddCommMonoid M] (s : Buddy) (f : Interval → M) : M := (s.allBlocks.map f).sum

section BlockSums

variable {M : Type*} [AddCommMonoid M]

theorem blockSum_eq (s : Buddy) (f : Interval → M) :
    s.blockSum f = ∑ k∈Finset.range s.listCount,((s.freeList k).map f).sum := by
  simp only [blockSum,allBlocks]
  induction s.listCount with
  | zero => rfl
  | succ n ih => simp [range_succ,Finset.sum_range_succ,ih]

theorem blockSum_setList (s : Buddy) (f : Interval → M) {k : ℕ} (hk : k ≤ s.maxOrder) (l : List Interval) :
    (s.setList k l).blockSum f+((s.freeList k).map f).sum = s.blockSum f+(l.map f).sum := by
  have hmem : k∈Finset.range s.listCount := Finset.mem_range.mpr (by simp only [listCount]; omega)
  rw [blockSum_eq,blockSum_eq]
  exact sum_update_add hmem (fun l => (l.map f).sum) s.freeList l

theorem blockSum_cut [IsCancelAdd M] {s : Buddy} {i j : ℕ} {temp : Interval} {rest l : List Interval}
    (f : Interval → M) (hl : s.freeList i=temp::rest) (hi : i ≤ s.maxOrder) (hj : j ≤ s.maxOrder) :
    ((s.setList i rest).pushAll j l).blockSum f+f temp=s.blockSum f+(l.map f).sum := by
  have hout := blockSum_setList s f hi rest
  have hin := blockSum_setList (s.setList i rest) f hj ((s.setList i rest).freeList j++l)
  rw [hl,map_cons,sum_cons,← add_assoc] at hout
  rw [map_append,sum_append,← add_assoc,add_right_comm] at hin
  rw [← add_right_cancel hout,pushAll,add_right_cancel hin,add_right_comm]

end BlockSums

theorem getFreeLargePageCount_eq (s : Buddy) : s.getFreeLargePageCount=s.blockSum largePages := rfl

private theorem sum_largePages_chunks (start n : ℕ) : ((chunks start (2^8) n).map largePages).sum=0 := by
  rw [sum_eq_zero]
  intro x hx
  obtain ⟨b,hb,rfl⟩:=mem_map.mp hx
  have hsize := (chunks_spans (by decide) b hb).size_eq (by decide)
  simp [largePages,hsize]

variable {s : Buddy}

theorem cut_largeCount {i : ℕ} {temp : Interval} {rest : List Interval} (h : s.WellFormed) (hi : 9 ≤ i)
    (hl : s.freeList i=temp::rest) :
    ((s.setList i rest).pushAll 8 (chunks temp.first (2^8) (temp.size / 2^8))).getFreeLargePageCount +
      largePages temp=s.getFreeLargePageCount := by
  have himax : i ≤ s.maxOrder := h.le_maxOrder (by rw [hl]; exact cons_ne_nil temp rest)
  rw [getFreeLargePageCount_eq,blockSum_cut largePages hl himax (by omega),sum_largePages_chunks,add_zero,
    getFreeLargePageCount_eq]

theorem largePages_pos {i : ℕ} {temp : Interval} (h : s.WellFormed) (hi : 9 ≤ i) (htemp : temp∈s.freeList i) :
    0<largePages temp := by
  have hpow : 2^9≤2^i := Nat.pow_le_pow_right (by decide) hi
  rw [largePages,(h.spans i temp htemp).size_eq (Nat.two_pow_pos i),if_pos (by omega)]
  omega

theorem fragmentStep_largeCount {gen : Generator} {s' : Buddy} {g g' : gen.State} (h : s.WellFormed)
    (he : fragmentStep gen (fun i => min (i - 1) 8) s g=some (s',g')) :
    s'.getFreeLargePageCount<s.getFreeLargePageCount := by
  obtain ⟨i,j,temp,rest,-,hi,hlow,hle,-,hl,rfl⟩:=fragmentStep_cases draws_eight he
  obtain rfl : j=8 := by omega
  have hcut := cut_largeCount h hi hl
  have hpos := largePages_pos h hi (by rw [hl]; exact mem_cons_self)
  omega

theorem targetLoop_ok {gen : Generator} {target : ℕ} (n : ℕ) {g : gen.State} (h : s.WellFormed)
    (hn : s.getFreeLargePageCount≤n) : ∃s',targetLoop gen target n s g = .ok s' := by
  induction n generalizing s g with
  | zero => exact ⟨s,by rw [targetLoop,if_neg (by omega)]⟩
  | succ n ih =>
    rw [targetLoop]
    split_ifs
    · cases hs : fragmentStep gen (fun i => min (i - 1) 8) s g with
      | none => exact ⟨s,rfl⟩
      | some r =>
        have hlt := fragmentStep_largeCount h hs
        have hstep := fragmentStep_takes h draws_eight hs
        exact ih hstep.wellFormed (by omega)
    · exact ⟨s,rfl⟩

/-- The errors that come from the free lists themselves. -/
def FreeListError (e : Abort) : Prop := e = .logOfZero ∨ e = .outOfBounds ∨ e = .assertion

theorem splitDown_fails (ind n : ℕ) (s : Buddy) (block : Interval) :
    Fails (splitDown ind n s block) FreeListError := by
  induction n generalizing s block with
  | zero => exact fails_ok _ _
  | succ n ih =>
    rw [splitDown]
    split_ifs
    · exact ih _ _
    · exact fails_error (Or.inr (Or.inr rfl))

theorem allocate_fails (s : Buddy) (bytes : ℕ) : Fails (s.allocate bytes) FreeListError := by
  simp only [allocate]
  split_ifs
  · exact fails_error (Or.inl rfl)
  · exact fails_error (Or.inr (Or.inl rfl))
  · cases s.firstOrder (orderOf bytes) with
    | none => exact fails_ok _ _
    | some i =>
      cases hlast : (s.freeList i).getLast? with
      | none =>
        simp only [hlast]
        exact fails_error (Or.inr (Or.inl rfl))
      | some block =>
        simp only [hlast]
        exact (splitDown_fails _ _ _ _).bind fun _ _ => fails_ok _ _

theorem reserve2mbPage_fails (s : Buddy) : Fails s.reserve2mbPage FreeListError := by
  have hbounds : FreeListError .outOfBounds := Or.inr (Or.inl rfl)
  simp only [reserve2mbPage]
  split_ifs
  · exact fails_error hbounds
  · split
    · exact fails_ok _ _
    · split
      · exact fails_ok _ _
      · split
        · exact fails_error hbounds
        · split
          · exact fails_error hbounds
          · exact fails_ok _ _

theorem free_fails (s : Buddy) (first last : ℕ) : Fails (s.free first last) FreeListError := by
  simp only [free]
  split_ifs
  · exact fails_error (Or.inl rfl)
  · exact fails_error (Or.inr (Or.inl rfl))
  · exact fails_ok _ _

theorem pagesIn_eq (x : Int32) : (pagesIn x : ℤ) =
    if x.toInt<0 then 2^62+256*x.toInt else 256*x.toInt := by
  have hlo := Int32.le_toInt x
  have hhi := Int32.toInt_lt x
  have hw := toWord_toNat x
  have hmul : pagesIn x=(toWord x).toNat*1024 % 2^64 / 4 := by
    simp [pagesIn,wordPages,UInt64.toNat_div,UInt64.toNat_mul]
  split_ifs at hw ⊢ <;> omega

theorem pagesIn_lt (x : Int32) : pagesIn x < invalidWord := by
  have hpages := pagesIn_eq x
  have hhi := Int32.toInt_lt x
  rw [invalidWord]
  split_ifs at hpages <;> omega

/-- Free lists of `n` orders whose blocks have the sizes of their lists and lie over the
given pages. -/
private structure Laid (n : ℕ) (lists : ℕ → List Interval) (pages : Multiset ℕ) : Prop where
  spans : ∀k,∀b∈lists k,b.Spans (2^k)
  beyond : ∀k,n≤k → lists k=[]
  cells : ∑ k∈Finset.range n,cells (lists k)=pages

private theorem laid_nil (n : ℕ) : Laid n (fun _ => []) 0 := ⟨by simp,by simp,by simp⟩

private theorem Laid.pushChunks {n k : ℕ} {lists : ℕ → List Interval} {pages : Multiset ℕ}
    (h : Laid n lists pages) (hk : k<n) (start q : ℕ) :
    Laid n (update lists k (lists k++chunks start (2^k) q)) (pages+Multiset.Ico start (start+q*2^k)) := by
  refine ⟨?_,?_,?_⟩
  · intro j b hb
    by_cases hj : j=k
    · subst hj
      rw [update_self] at hb
      rcases mem_append.mp hb with hb | hb
      · exact h.spans _ b hb
      · exact chunks_spans (Nat.two_pow_pos _) b hb
    · rw [update_of_ne hj] at hb
      exact h.spans j b hb
  · intro j hj
    rw [update_of_ne (by omega)]
    exact h.beyond j hj
  · have hsum := sum_update_add (Finset.mem_range.mpr hk) IntervalTilings.cells lists
      (lists k++chunks start (2^k) q)
    rw [cells_append,cells_chunks (Nat.two_pow_pos _),← add_assoc,add_right_comm] at hsum
    rw [← h.cells]
    exact add_right_cancel hsum

/-- From any order but the smallest, the constructor's loop lays blocks over all remaining
pages. Their number is a multiple of 256, so order 8 is the last one visited. -/
private theorem fillLoop_spec {memoryEnd n : ℕ} (order currentFree available : ℕ) (lists : ℕ → List Interval)
    (pages : Multiset ℕ) (hav : currentFree+available=memoryEnd) (hdvd : 256 ∣ available) (horder : 1 ≤ order)
    (hn : order<n) (h : Laid n lists pages) :
    ∃lists',fillLoop memoryEnd order currentFree available lists = .ok lists' ∧
      Laid n lists' (pages+Multiset.Ico currentFree memoryEnd) := by
  induction order generalizing currentFree available lists pages with
  | zero => omega
  | succ k ih =>
    by_cases hlt : currentFree < memoryEnd
    · set q := available / 2^(k+1)
      have hle : q*2^(k+1)≤available := Nat.div_mul_le_self _ _
      have hstep : fillLoop memoryEnd (k+1) currentFree available lists =
          fillLoop memoryEnd k (currentFree+q*2^(k+1)) (available - q*2^(k+1))
            (update lists (k+1)
              (lists (k+1)++chunks currentFree (2^(k+1)) q)) := by
        rw [fillLoop,if_pos hlt]
      have hlaid := h.pushChunks hn currentFree q
      have hrest : Multiset.Ico currentFree (currentFree+q*2^(k+1)) +
          Multiset.Ico (currentFree+q*2^(k+1)) memoryEnd =
          Multiset.Ico currentFree memoryEnd :=
        Multiset.Ico_add_Ico_eq_Ico (Nat.le_add_right _ _) (by omega)
      rw [hstep]
      by_cases hk : 8<k+1
      · have hdvd' : 256 ∣ available - q*2^(k+1) :=
          Nat.dvd_sub hdvd (Dvd.dvd.mul_left (Nat.pow_dvd_pow 2 (show 8≤k+1 by omega)) q)
        rw [← hrest,← add_assoc]
        exact ih (currentFree+q*2^(k+1)) (available - q*2^(k+1)) _ _ (by omega)
          hdvd' (by omega) (by omega) hlaid
      · have hall : q*2^(k+1)=available :=
          Nat.div_mul_cancel (dvd_trans (Nat.pow_dvd_pow 2 (show k+1≤8 by omega)) hdvd)
        have hdone : ¬ currentFree+q*2^(k+1) < memoryEnd := by omega
        rw [fillLoop,if_neg hdone]
        rw [hall,hav] at hlaid
        exact ⟨_,rfl,hlaid⟩
    · refine ⟨lists,by rw [fillLoop,if_neg hlt],?_⟩
      rw [Multiset.Ico_eq_zero_of_le (by omega),add_zero]
      exact h

theorem new_spec (memorySize kernelSize : Int32) (maxOrder : ℕ) (fragType : String) (hmin : 1 ≤ maxOrder)
    (hmax : maxOrder<64) : ∃s,new memorySize maxOrder kernelSize fragType = .ok s ∧ s.maxOrder=maxOrder ∧
      s.WellFormed ∧ s.freeCells=Multiset.Ico (pagesIn kernelSize) (pagesIn memorySize) := by
  have hk := pagesIn_eq kernelSize
  have hm := pagesIn_eq memorySize
  have hmem : ∃lists,fillLoop (pagesIn memorySize) maxOrder (pagesIn kernelSize)
      (wordPages memorySize - wordPages kernelSize).toNat (fun _ => []) = .ok lists ∧
      Laid (maxOrder+1) lists (0+Multiset.Ico (pagesIn kernelSize) (pagesIn memorySize)) := by
    by_cases hlt : pagesIn kernelSize<pagesIn memorySize
    · have hsub : (wordPages memorySize - wordPages kernelSize).toNat =
          pagesIn memorySize - pagesIn kernelSize :=
        UInt64.toNat_sub_of_le _ _ (UInt64.le_iff_toNat_le.mpr hlt.le)
      have hdvd : 256 ∣ pagesIn memorySize - pagesIn kernelSize := by
        split_ifs at hk hm <;> omega
      exact fillLoop_spec maxOrder (pagesIn kernelSize) _ (fun _ => []) 0
        (show pagesIn kernelSize+(wordPages memorySize - wordPages kernelSize).toNat =
          pagesIn memorySize by omega) (hsub ▸ hdvd) hmin (Nat.lt_succ_self maxOrder) (laid_nil _)
    · refine ⟨fun _ => [],by rw [fillLoop,if_neg hlt],?_⟩
      rw [Multiset.Ico_eq_zero_of_le (by omega),add_zero]
      exact laid_nil _
  obtain ⟨lists,hfill,hlaid⟩:=hmem
  rw [zero_add] at hlaid
  set total := wordPages memorySize - wordPages kernelSize with htotal
  refine ⟨⟨maxOrder,fragFunOf fragType,total,total,lists⟩,?_,rfl,⟨hlaid.spans,hlaid.beyond⟩,hlaid.cells⟩
  rw [new,if_neg (by omega)]
  simp only [← htotal,hfill,ok_bind]

theorem new_ok {memorySize kernelSize : Int32} {maxOrder : ℕ} {fragType : String}
    (h : new memorySize maxOrder kernelSize fragType = .ok s) : s.maxOrder=maxOrder ∧ s.WellFormed ∧
      s.freeCells=Multiset.Ico (pagesIn kernelSize) (pagesIn memorySize) := by
  by_cases hmax : maxOrder<64
  · cases maxOrder with
    | zero =>
      rw [new,if_neg (by omega)] at h
      obtain ⟨lists,hfill,h⟩:=bind_ok h
      by_cases hlt : pagesIn kernelSize<pagesIn memorySize
      · rw [fillLoop,if_pos hlt] at hfill
        cases hfill
      · rw [fillLoop,if_neg hlt] at hfill
        cases hfill
        cases h
        refine ⟨rfl,⟨by simp,by simp⟩,?_⟩
        rw [Multiset.Ico_eq_zero_of_le (by omega)]
        simp [freeCells]
    | succ k =>
      obtain ⟨t,ht,hspec⟩:=new_spec memorySize kernelSize (k+1) fragType (by omega) hmax
      cases h.symm.trans ht
      exact hspec
  · rw [new,if_pos (by omega)] at h
    cases h

end Buddy

end Sniper.BuddyAllocator
