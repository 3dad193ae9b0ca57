import Sniper.BuddyOwnership

/-!
# Alignment of the blocks of the buddy allocator

A block of order `k` lies a multiple of `2 ^ k` pages above the end of the kernel, which is
aligned itself only for some kernel sizes.
-/

namespace Sniper.BuddyAllocator
open IntervalTilings FallibleRuns Function List

/-- A block of order `k` at a multiple of its own size above or below `base`. -/
structure OnGrid (base k : ℕ) (b : Interval) : Prop where
  spans : b.Spans (2^k)
  first : b.first ≡ base [MOD 2^k]

variable {base : ℕ}

theorem OnGrid.halves {k : ℕ} {b : Interval} (h : OnGrid base (k+1) b) :
    OnGrid base k ⟨b.first,b.mid⟩ ∧ OnGrid base k ⟨b.mid+1,b.last⟩ := by
  have hspan : b.Spans (2*2^k) := by
    rw [Nat.mul_comm,← pow_succ]
    exact h.spans
  obtain ⟨hleft,hright,-⟩:=hspan.halves (Nat.two_pow_pos k)
  have hfirst : b.first ≡ base [MOD 2^k] := h.first.of_dvd (Nat.pow_dvd_pow 2 (Nat.le_succ k))
  refine ⟨⟨hleft,hfirst⟩,hright,?_⟩
  have hmid : b.mid+1=b.first+2^k := hleft
  rw [hmid]
  exact (Nat.add_modEq_right).trans hfirst

theorem OnGrid.chunks {i j : ℕ} {b : Interval} (h : OnGrid base i b) (hj : j ≤ i) (n : ℕ) :
    ∀c∈chunks b.first (2^j) n,OnGrid base j c := by
  intro c hc
  refine ⟨chunks_spans (Nat.two_pow_pos j) c hc,?_⟩
  obtain ⟨m,-,rfl⟩:=mem_map.mp hc
  have hmul : b.first+m*2^j ≡ b.first [MOD 2^j] := Nat.add_mul_mod_self_right b.first m (2^j)
  exact hmul.trans (h.first.of_dvd (Nat.pow_dvd_pow 2 hj))

/-- Every block of every list lies on the grid of its order. -/
def Gridded (base : ℕ) (lists : ℕ → List Interval) : Prop := ∀k,∀b∈lists k,OnGrid base k b

theorem Gridded.update {k : ℕ} {lists : ℕ → List Interval} {l : List Interval} (h : Gridded base lists)
    (hl : ∀b∈l,OnGrid base k b) : Gridded base (update lists k l) := by
  intro j b hb
  by_cases hj : j=k
  · subst hj
    rw [update_self] at hb
    exact hl b hb
  · rw [update_of_ne hj] at hb
    exact h j b hb

namespace Buddy

variable {base k available currentFree memoryEnd order : ℕ} {s s' : Buddy} {block : Interval}
  {gen : Generator} {lists lists' : ℕ → List Interval}

theorem gridded_pushAll {l : List Interval} (h : Gridded base s.freeList) (hl : ∀b∈l,OnGrid base k b) :
    Gridded base (s.pushAll k l).freeList := by
  apply h.update
  intro b hb
  rcases mem_append.mp hb with hb | hb
  · exact h k b hb
  · exact hl b hb

theorem gridded_push {b : Interval} (h : Gridded base s.freeList) (hb : OnGrid base k b) :
    Gridded base (s.push k b).freeList :=
  gridded_pushAll h (by simpa using hb)

theorem gridded_remove {l : List Interval} (h : Gridded base s.freeList) (hl : l ⊆ s.freeList k) :
    Gridded base (s.setList k l).freeList :=
  h.update fun b hb => h k b (hl hb)

section

variable (h : Gridded base s.freeList)
include h

theorem splitDown_gridded {ind n : ℕ} {block' : Interval} (hb : OnGrid base (ind+n) block)
    (he : splitDown ind n s block = .ok (s',block')) : Gridded base s'.freeList ∧ OnGrid base ind block' := by
  induction n generalizing s block with
  | zero =>
    cases he
    exact ⟨h,hb⟩
  | succ n ih =>
    obtain ⟨hleft,hright⟩:=OnGrid.halves (k:=ind+n) hb
    rw [splitDown] at he
    split_ifs at he
    exact ih (gridded_push h hleft) hright he

theorem isolate_gridded {page : ℕ} (hb : OnGrid base k block) :
    Gridded base (isolate page k s block).1.freeList := by
  induction k generalizing s block with
  | zero => exact h
  | succ k ih =>
    obtain ⟨hleft,hright⟩:=hb.halves
    rw [isolate]
    split_ifs
    · exact ih (gridded_push h hright) hleft
    · exact ih (gridded_push h hleft) hright

theorem allocate_gridded {bytes : ℕ} {r : Option ℕ} (he : s.allocate bytes = .ok (r,s')) :
    Gridded base s'.freeList ∧ ∀p∈r,OnGrid base (orderOf bytes) (Ledger.servedBlock bytes p) := by
  rcases allocate_answer he with ⟨-,rfl,rfl⟩ | ⟨i,block,t,block',hi,hlast,hsplit,rfl,rfl⟩
  · exact ⟨h,by simp⟩
  · have hle := (firstOrder_some hi).1
    have hblock : OnGrid base (orderOf bytes+(i - orderOf bytes)) block := by
      rw [Nat.add_sub_cancel' hle]
      exact h i block (mem_of_getLast? hlast)
    obtain ⟨ht,hgrid⟩:=splitDown_gridded (gridded_remove h (dropLast_subset _)) hblock hsplit
    refine ⟨ht,?_⟩
    intro p hp
    cases hp
    exact ⟨Interval.spans_mk (Nat.two_pow_pos _),hgrid.first⟩

theorem takeLast_gridded (hlast : (s.freeList largeOrder).getLast?=some block) :
    Gridded base (s.setList largeOrder (s.freeList largeOrder).dropLast).freeList ∧
      ∀b∈some block,OnGrid base largeOrder b := by
  refine ⟨gridded_remove h (dropLast_subset _),?_⟩
  intro b hb
  cases hb
  exact h largeOrder block (mem_of_getLast? hlast)

theorem cut_gridded {i j n : ℕ} {temp : Interval} {rest : List Interval} (hi : s.freeList i=temp::rest)
    (hj : j ≤ i) : Gridded base ((s.setList i rest).pushAll j (chunks temp.first (2^j) n)).freeList := by
  have htemp : OnGrid base i temp := h i temp (by rw [hi]; exact mem_cons_self)
  apply gridded_pushAll
  · apply gridded_remove h
    rw [hi]
    exact subset_cons_self temp rest
  · exact htemp.chunks hj n

theorem reserve2mbPage_gridded {r : Option Interval} (he : s.reserve2mbPage = .ok (r,s')) :
    Gridded base s'.freeList ∧ ∀b∈r,OnGrid base largeOrder b := by
  simp only [reserve2mbPage] at he
  split_ifs at he
  cases hlast : (s.freeList largeOrder).getLast? with
  | some block =>
    rw [hlast] at he
    cases he
    exact takeLast_gridded h hlast
  | none =>
    simp only [hlast] at he
    cases hi : s.firstOrder 10 with
    | none =>
      rw [hi] at he
      cases he
      exact ⟨h,by simp⟩
    | some i =>
      simp only [hi] at he
      have hle := (firstOrder_some hi).1
      cases hl : s.freeList i with
      | nil => simp [hl] at he
      | cons temp rest =>
        simp only [hl] at he
        have hcut := cut_gridded (n:=temp.size / 512) h hl
          (show largeOrder ≤ i from Nat.le_of_succ_le hle)
        split at he
        · cases he
        · rename_i block hlast'
          cases he
          exact takeLast_gridded hcut hlast'

theorem checkIfFree_gridded (page : ℕ) (alloc : Bool) : Gridded base (s.checkIfFree page alloc).2.freeList := by
  unfold checkIfFree
  cases hl : s.locate page with
  | none => exact h
  | some ij =>
    obtain ⟨i,j⟩:=ij
    cases hget : (s.freeList i)[j]? with
    | none =>
      simp only [hget]
      exact h
    | some block =>
      simp only [hget]
      cases alloc with
      | false => exact h
      | true =>
        exact isolate_gridded (gridded_remove h (eraseIdx_subset))
          (h i block (mem_of_getElem? hget))

theorem free_gridded {b : Interval} (hb : OnGrid base k b) (he : s.free b.first b.last = .ok s') :
    Gridded base s'.freeList := by
  have hpos : 0<2^k := Nat.two_pow_pos k
  have hspans := hb.spans
  have hsize : b.last+1 - b.first=2^k := by
    unfold Interval.Spans at hspans
    omega
  simp only [free,hsize,ceilLog2_two_pow,hpos.ne',↓reduceIte] at he
  split_ifs at he
  cases he
  exact gridded_push h hb

end

theorem fragmentStep_gridded {upper : ℕ → ℕ} {g g' : gen.State} (hup : Draws upper)
    (h : Gridded base s.freeList) (he : fragmentStep gen upper s g=some (s',g')) :
    Gridded base s'.freeList := by
  obtain ⟨i,j,temp,rest,-,-,-,-,hlt,hl,rfl⟩:=fragmentStep_cases hup he
  exact cut_gridded h hl hlt.le

theorem fragmentMemory_gridded {target : ℚ} {fuel : ℕ} (h : Gridded base s.freeList)
    (he : fragmentMemory gen s target fuel = .ok s') : Gridded base s'.freeList := by
  rw [fragmentMemory] at he
  split_ifs at he
  exact fragmentLoop_invariant (P:=fun t => Gridded base t.freeList)
    (fun _ _ _ _ => fragmentStep_gridded draws_below) fuel h he

theorem fragmentMemoryToTargetCount_gridded {target : ℕ} (h : Gridded base s.freeList)
    (he : fragmentMemoryToTargetCount gen s target = .ok s') : Gridded base s'.freeList :=
  targetLoop_invariant (P:=fun t => Gridded base t.freeList)
    (fun _ _ _ _ => fragmentStep_gridded draws_eight) _ h he

theorem fillLoop_gridded (h : Gridded base lists) (hfree : currentFree ≡ base [MOD 2^order])
    (he : fillLoop memoryEnd order currentFree available lists = .ok lists') : Gridded base lists' := by
  induction order generalizing currentFree available lists with
  | zero =>
    rw [fillLoop] at he
    split_ifs at he
    cases he
    exact h
  | succ k ih =>
    rw [fillLoop] at he
    split_ifs at he
    · set n := available / 2^(k+1)
      have hall : ∀b∈lists (k+1)++chunks currentFree (2^(k+1)) n,
          OnGrid base (k+1) b := by
        intro b hb
        rcases mem_append.mp hb with hb | hb
        · exact h (k+1) b hb
        · have hstart : OnGrid base (k+1) ⟨currentFree,currentFree+2^(k+1) - 1⟩ :=
            ⟨Interval.spans_mk (Nat.two_pow_pos _),hfree⟩
          exact hstart.chunks le_rfl n b hb
      have hnext : currentFree+n*2^(k+1) ≡ base [MOD 2^(k+1)] :=
        Nat.ModEq.trans (Nat.add_mul_mod_self_right currentFree n (2^(k+1))) hfree
      exact ih (h.update hall) (hnext.of_dvd (Nat.pow_dvd_pow 2 (Nat.le_succ k))) he
    · cases he
      exact h

theorem fillLoop_ne_nil (h : lists k≠[])
    (he : fillLoop memoryEnd order currentFree available lists = .ok lists') : lists' k≠[] := by
  induction order generalizing currentFree available lists with
  | zero =>
    rw [fillLoop] at he
    split_ifs at he
    cases he
    exact h
  | succ j ih =>
    rw [fillLoop] at he
    split_ifs at he
    · refine ih ?_ he
      by_cases hk : k=j+1
      · subst hk
        rw [update_self]
        exact append_ne_nil_of_left_ne_nil h _
      · rwa [update_of_ne hk]
    · cases he
      exact h

theorem fillLoop_large (horder : 9 ≤ order) (hav : 512≤available) (hfree : currentFree < memoryEnd)
    (he : fillLoop memoryEnd order currentFree available lists = .ok lists') : ∃k,9≤k ∧ lists' k≠[] := by
  induction order generalizing currentFree available lists with
  | zero => omega
  | succ k ih =>
    rw [fillLoop,if_pos hfree] at he
    dsimp only at he
    by_cases hn : available / 2^(k+1)=0
    · have hlt : available<2^(k+1) := (Nat.div_eq_zero_iff_lt (Nat.two_pow_pos _)).mp hn
      have hk : 9≤k := by
        by_contra hk
        obtain rfl : k=8 := by omega
        omega
      rw [hn,Nat.zero_mul,Nat.add_zero,Nat.sub_zero] at he
      exact ih hk hav hfree he
    · refine ⟨k+1,horder,fillLoop_ne_nil ?_ he⟩
      rw [update_self]
      apply append_ne_nil_of_right_ne_nil
      simpa [chunks] using hn

theorem new_gridded {memorySize kernelSize : Int32} {maxOrder : ℕ} {fragType : String}
    (h : new memorySize maxOrder kernelSize fragType = .ok s) : Gridded (pagesIn kernelSize) s.freeList := by
  rw [new] at h
  split_ifs at h
  obtain ⟨lists,hfill,h⟩:=bind_ok h
  cases h
  exact fillLoop_gridded (fun k b hb => by cases hb) rfl hfill

theorem new_large {memorySize kernelSize : Int32} {maxOrder : ℕ} {fragType : String}
    (h : new memorySize maxOrder kernelSize fragType = .ok s) (hmax : 9 ≤ maxOrder)
    (hroom : pagesIn kernelSize+512≤pagesIn memorySize) : ¬ s.NoLarge := by
  rw [new] at h
  split_ifs at h
  obtain ⟨lists,hfill,h⟩:=bind_ok h
  cases h
  have hle : pagesIn kernelSize≤pagesIn memorySize := by omega
  have hsub : (wordPages memorySize - wordPages kernelSize).toNat =
      pagesIn memorySize - pagesIn kernelSize :=
    UInt64.toNat_sub_of_le _ _ (UInt64.le_iff_toNat_le.mpr hle)
  obtain ⟨k,hk,hne⟩:=fillLoop_large hmax (by omega) (by omega) hfill
  exact fun hs => hne (hs k hk)

theorem dvd_pagesIn_iff (x : Int32) : 512 ∣ pagesIn x ↔ 2 ∣ x.toInt := by
  have h := pagesIn_eq x
  split_ifs at h <;> omega

end Buddy

namespace Ledger

/-- The free and the handed-out blocks lie on the grids of their orders. -/
structure OnGrids (base : ℕ) (o : Ledger) : Prop where
  free : Gridded base o.buddy.freeList
  handed : ∀b∈o.handedOut,∃k,OnGrid base k b

theorem OnGrids.handOut {base k : ℕ} {o : Ledger} {s : Buddy} {r : Option Interval} (h : o.OnGrids base)
    (hs : Gridded base s.freeList) (hr : ∀b∈r,OnGrid base k b) : OnGrids base ⟨s,r.toList++o.handedOut⟩ := by
  refine ⟨hs,?_⟩
  intro b hb
  rcases mem_append.mp hb with hb | hb
  · exact ⟨k,hr b (Option.mem_toList.mp hb)⟩
  · exact h.handed b hb

theorem step_onGrids {gen : Buddy.Generator} {base : ℕ} {o o' : Ledger} {op : Op} (h : o.OnGrids base)
    (hret : o.ReturnsHandedOut op) (he : o.step gen op = .ok o') : o'.OnGrids base := by
  cases op with
  | allocate bytes =>
    obtain ⟨⟨r,s⟩,ha,he⟩:=bind_ok he
    cases he
    obtain ⟨hs,hr⟩:=Buddy.allocate_gridded h.free ha
    refine h.handOut (k:=Buddy.orderOf bytes) hs ?_
    intro b hb
    obtain ⟨p,hp,rfl⟩:=Option.mem_map.mp hb
    exact hr p hp
  | reserve2mbPage =>
    obtain ⟨⟨r,s⟩,ha,he⟩:=bind_ok he
    cases he
    obtain ⟨hs,hr⟩:=Buddy.reserve2mbPage_gridded h.free ha
    exact h.handOut hs hr
  | checkIfFree page alloc =>
    have hs := Buddy.checkIfFree_gridded h.free page alloc
    cases hc : o.buddy.checkIfFree page alloc with
    | mk free s =>
      rw [hc] at hs
      simp only [step,hc] at he
      cases he
      refine ⟨hs,?_⟩
      intro b hb
      rcases mem_append.mp hb with hb | hb
      · split_ifs at hb
        · rw [mem_singleton.mp hb]
          exact ⟨0,rfl,Nat.modEq_one⟩
        · cases hb
      · exact h.handed b hb
  | fragmentMemory target fuel =>
    obtain ⟨s,hs,he⟩:=bind_ok he
    cases he
    exact ⟨Buddy.fragmentMemory_gridded h.free hs,h.handed⟩
  | fragmentMemoryToTargetCount target =>
    obtain ⟨s,hs,he⟩:=bind_ok he
    cases he
    exact ⟨Buddy.fragmentMemoryToTargetCount_gridded h.free hs,h.handed⟩
  | free block =>
    obtain ⟨s,hs,he⟩:=bind_ok he
    cases he
    obtain ⟨k,hk⟩:=h.handed block hret
    exact ⟨Buddy.free_gridded h.free hk hs,fun b hb => h.handed b (mem_of_mem_erase hb)⟩

end Ledger

/-- Whatever a reservation returns after any run is a naturally aligned block of 2MB. -/
def ReservationsAligned (memorySize kernelSize : Int32) (maxOrder : ℕ) (fragType : String) : Prop :=
  ∀gen o block s,Reachable gen memorySize kernelSize maxOrder fragType o →
    o.buddy.reserve2mbPage = .ok (some block,s) → 512 ∣ block.first ∧ block.Spans 512

theorem reserved_onGrid {gen : Buddy.Generator} {memorySize kernelSize : Int32} {maxOrder : ℕ}
    {fragType : String} {o : Ledger} {block : Interval} {s : Buddy}
    (h : Reachable gen memorySize kernelSize maxOrder fragType o)
    (he : o.buddy.reserve2mbPage = .ok (some block,s)) : OnGrid (Buddy.pagesIn kernelSize) 9 block := by
  obtain ⟨t,ops,hnew,hret,hrun⟩:=h
  have hstart : Ledger.OnGrids (Buddy.pagesIn kernelSize) ⟨t,[]⟩ := ⟨Buddy.new_gridded hnew,by simp⟩
  have hgrids : o.OnGrids (Buddy.pagesIn kernelSize) :=
    run_invariant (fun o op o' ho hG hs => Ledger.step_onGrids ho hG hs) hstart hret hrun
  exact (Buddy.reserve2mbPage_gridded hgrids.free he).2 block rfl

/-- Reservations are aligned exactly when the kernel takes an even number of megabytes, or leaves
less than 2MB of memory. -/
theorem reservations_aligned_iff {memorySize kernelSize : Int32} {maxOrder : ℕ} {fragType : String}
    {s : Buddy} (hmax : 9 ≤ maxOrder) (hnew : Buddy.new memorySize maxOrder kernelSize fragType = .ok s) :
    ReservationsAligned memorySize kernelSize maxOrder fragType ↔
      2 ∣ kernelSize.toInt ∨ Buddy.pagesIn memorySize<Buddy.pagesIn kernelSize+512 := by
  constructor
  · intro haligned
    by_contra hcond
    rw [not_or,Nat.not_lt] at hcond
    obtain ⟨hodd,hroom⟩:=hcond
    obtain ⟨horder,hwf,-⟩:=Buddy.new_ok hnew
    obtain ⟨⟨r,t⟩,hr⟩:=Buddy.reserve2mbPage_ok hwf
      (by rw [Buddy.listCount,Buddy.largeOrder]; omega)
    have hfresh : Reachable lowGenerator memorySize kernelSize maxOrder fragType ⟨s,[]⟩ :=
      ⟨s,[],hnew,trivial,rfl⟩
    rcases Buddy.reserve2mbPage_cases hwf hr with ⟨block,rfl,-⟩ | ⟨-,-,hsmall⟩
    · have hgrid := (reserved_onGrid hfresh hr).first
      have hdvd := (haligned _ _ _ _ hfresh hr).1
      exact hodd ((Buddy.dvd_pagesIn_iff kernelSize).mp ((hgrid.dvd_iff (dvd_refl 512)).mp hdvd))
    · exact Buddy.new_large hnew hmax hroom hsmall
  · intro hcond gen o block t hreach hr
    have hgrid := reserved_onGrid hreach hr
    refine ⟨?_,hgrid.spans⟩
    rcases hcond with heven | hsmall
    · exact (hgrid.first.dvd_iff (dvd_refl 512)).mpr ((Buddy.dvd_pagesIn_iff kernelSize).mpr heven)
    · -- no block of 512 pages fits into what the kernel leaves
      have hs := hreach.sound
      rcases Buddy.reserve2mbPage_cases hs.wellFormed hr with ⟨b,hb,-,-,ht⟩ | ⟨hnone,-⟩
      · have hcard := congrArg Multiset.card hs.cells
        have htake := congrArg Multiset.card ht.cells
        simp only [Multiset.card_add,card_Ico] at hcard htake
        omega
      · cases hnone

theorem reservations_aligned_with_even_kernel : ReservationsAligned 4 2 9 "largepage" := by
  obtain ⟨s,hs,-⟩:=Buddy.new_spec 4 2 9 "largepage" (by decide) (by decide)
  exact (reservations_aligned_iff le_rfl hs).mpr (Or.inl (by decide))

/-- The first 2MB block after a kernel of 1MB starts at page 256. -/
theorem reservations_misaligned_after_odd_kernel : ¬ ReservationsAligned 4 1 9 "largepage" := by
  intro haligned
  obtain ⟨s,hs,t,hr⟩ : ∃s,Buddy.new 4 9 1 "largepage" = .ok s ∧
      ∃t,s.reserve2mbPage = .ok (some ⟨256,767⟩,t) := by
    decide +kernel
  have hfresh : Reachable lowGenerator 4 1 9 "largepage" ⟨s,[]⟩ := ⟨s,[],hs,trivial,rfl⟩
  have hdvd := (haligned _ _ _ _ hfresh hr).1
  exact absurd hdvd (by decide)

end Sniper.BuddyAllocator
