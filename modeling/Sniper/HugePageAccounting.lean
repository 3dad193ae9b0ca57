import Sniper.HugePagePool

/-!
# Accounting of the huge-page pools

The flags of the pool pages, the counters of free pages and the usage map agree as long as the
first free page of a pool has an index that fits an `int`.
-/

namespace Sniper.HugePages
open IntervalTilings FallibleRuns Function List

structure Allocation where
  appId : Int32
  basePpn : UInt64
  size : HugePageSize
  deriving DecidableEq

def Allocation.block (a : Allocation) : Interval := ⟨a.basePpn.toNat,a.basePpn.toNat+a.size.pages - 1⟩

def HugePageInfo.allocation (info : HugePageInfo) : Allocation := ⟨info.appId,info.basePpn,info.size⟩

/-- The service and the allocations that were made and not undone. -/
structure PoolLedger where
  service : HugeTlbfs
  held : List Allocation

inductive PoolCall where
  | allocateHugePage (appId : Int32) (vaddr : UInt64) (size : HugePageSize)
  | deallocateHugePage (basePpn : UInt64) (size : HugePageSize)
  | deallocateAllForApp (appId : Int32)

namespace PoolLedger

def step (l : PoolLedger) : PoolCall → Except Abort PoolLedger
  | .allocateHugePage appId vaddr size =>
    let (r,s) := l.service.allocateHugePage appId vaddr size
    .ok ⟨s,(r.map (⟨appId,·,size⟩)).toList++l.held⟩
  | .deallocateHugePage basePpn size =>
    let (r,s) := l.service.deallocateHugePage basePpn size
    .ok ⟨s,if r then l.held.filter fun a => !(a.basePpn == basePpn && a.size == size) else l.held⟩
  | .deallocateAllForApp appId =>
    let (_,s) := l.service.deallocateAllForApp appId
    .ok ⟨s,l.held.filter (·.appId != appId)⟩

def new (enabled : Bool) (nrHugepages2mb nrHugepages1gb : UInt64) : PoolLedger :=
  ⟨.new enabled nrHugepages2mb nrHugepages1gb,[]⟩

/-- The pool pages are apart, the counters and the usage map count them, no two allocations share
a page, and a request fails exactly when the counter is zero. -/
structure Accounted (l : PoolLedger) : Prop where
  apart : (l.service.pool .size2mb++l.service.pool .size1gb).Pairwise
    fun x y => x.block.Apart y.block
  free : ∀size,(l.service.getFreeHugePages size).toNat =
    (l.service.pool size).countP (!·.inUse)
  usage : ∀appId size,(l.service.getAppHugePages appId size).toNat =
    (l.service.pool size).countP fun info => info.inUse && info.appId == appId
  owners : l.held.Pairwise fun a b => a.block.Apart b.block
  fails : ∀appId vaddr size,(l.service.allocateHugePage appId vaddr size).1=none ↔
    l.service.getFreeHugePages size=0

end PoolLedger

theorem findIdx?_split {α : Type*} {p : α → Bool} {l : List α} {i : ℕ} (h : l.findIdx? p=some i) :
    ∃l₁ x l₂,l=l₁++x::l₂ ∧ l₁.length=i ∧ p x=true ∧ l[i]?=some x ∧ ∀f,l.modify i f=l₁++f x::l₂ := by
  obtain ⟨hi,hp,-⟩:=List.findIdx?_eq_some_iff_getElem.mp h
  refine ⟨l.take i,l[i],l.drop (i+1),?_,?_,hp,List.getElem?_eq_getElem hi,?_⟩
  · rw [getElem_cons_drop,take_append_drop]
  · rw [length_take,Nat.min_eq_left hi.le]
  · intro f
    exact modify_eq_take_cons_drop hi

namespace HugeTlbfs

/-- Fewer pages than an `int` can number. -/
def Small (s : HugeTlbfs) : Prop := ∀size,(s.pool size).length≤2^31

def setPool (s : HugeTlbfs) (size : HugePageSize) (pool : List HugePageInfo) (free : UInt64)
    (usage : Int32 → Option UInt64) : HugeTlbfs :=
  { s with
    freeHugepages := update s.freeHugepages size free
    pool := update s.pool size pool
    appUsage := update s.appUsage size usage }

variable {s : HugeTlbfs} {size : HugePageSize}

theorem findFreeHugePage_some {i : ℕ} (hi : (s.pool size).findIdx? (!·.inUse)=some i) (hlt : i<2^31) :
    ¬ s.findFreeHugePage size<0 ∧ (s.findFreeHugePage size).toInt.toNat=i := by
  have hidx : s.findFreeHugePage size=Int32.ofNat i := by rw [findFreeHugePage,hi]
  have hint : (Int32.ofNat i).toInt=i := Int32.toInt_ofNat_of_lt hlt
  refine ⟨?_,by rw [hidx,hint,Int.toNat_natCast]⟩
  rw [hidx,Int32.lt_iff_toInt_lt,hint]
  simp

variable (hon : s.enabled=true)
include hon

theorem allocateHugePage_some {i : ℕ}
    (hi : (s.pool size).findIdx? (!·.inUse)=some i) (hlt : i<2^31) (appId : Int32)
    (vaddr : UInt64) :
    ∃l₁ x l₂,s.pool size=l₁++x::l₂ ∧ l₁.length=i ∧ x.inUse=false ∧
      s.allocateHugePage appId vaddr size=(some x.basePpn,
        s.setPool size (l₁++x.claimed appId vaddr::l₂) (s.freeHugepages size - 1)
          (update (s.appUsage size) appId (some (((s.appUsage size appId).getD 0)+1)))) := by
  obtain ⟨l₁,x,l₂,hpool,hlen,hx,hget,hmodify⟩:=findIdx?_split hi
  obtain ⟨hpos,hidx⟩:=findFreeHugePage_some hi hlt
  refine ⟨l₁,x,l₂,hpool,hlen,by simpa using hx,?_⟩
  simp only [HugeTlbfs.allocateHugePage,hon,Bool.not_true,Bool.false_eq_true,↓reduceIte,hpos,hidx,hget,
    hmodify,Option.map_some,setPool]

theorem allocateHugePage_none (hneg : s.findFreeHugePage size<0) (appId : Int32) (vaddr : UInt64) :
    s.allocateHugePage appId vaddr size=(none,s) := by
  simp only [HugeTlbfs.allocateHugePage,hon,Bool.not_true,Bool.false_eq_true,↓reduceIte,hneg]

theorem allocateHugePage_cases (hs : s.Small) (appId : Int32)
    (vaddr : UInt64) (size : HugePageSize) :
    (∃l₁ x l₂,s.pool size=l₁++x::l₂ ∧ x.inUse=false ∧
        s.allocateHugePage appId vaddr size=(some x.basePpn,
          s.setPool size (l₁++x.claimed appId vaddr::l₂) (s.freeHugepages size - 1)
            (update (s.appUsage size) appId (some (((s.appUsage size appId).getD 0)+1))))) ∨
      (∀x∈s.pool size,x.inUse=true) ∧
        s.allocateHugePage appId vaddr size=(none,s) := by
  cases hi : (s.pool size).findIdx? (!·.inUse) with
  | none =>
    refine Or.inr ⟨?_,allocateHugePage_none hon ?_ appId vaddr⟩
    · intro x hx
      simpa using List.findIdx?_eq_none_iff.mp hi x hx
    · rw [findFreeHugePage,hi]
      decide
  | some i =>
    have hlt : i<2^31 := (List.findIdx?_eq_some_iff_getElem.mp hi).1.trans_le (hs size)
    obtain ⟨l₁,x,l₂,hpool,-,hx,hs⟩:=allocateHugePage_some hon hi hlt appId vaddr
    exact Or.inl ⟨l₁,x,l₂,hpool,hx,hs⟩

theorem deallocateHugePage_cases (basePpn : UInt64) (size : HugePageSize) :
    (∃l₁ x l₂,s.pool size=l₁++x::l₂ ∧ x.inUse=true ∧ x.basePpn=basePpn ∧
        s.deallocateHugePage basePpn size=(true,s.setPool size (l₁++x.released::l₂)
          (s.freeHugepages size+1) (usageAfterReturn (s.appUsage size) x.appId))) ∨
      s.deallocateHugePage basePpn size=(false,s) := by
  cases hi : (s.pool size).findIdx? (fun info => info.basePpn == basePpn && info.inUse) with
  | none =>
    refine Or.inr ?_
    simp only [HugeTlbfs.deallocateHugePage,hon,Bool.not_true,Bool.false_eq_true,↓reduceIte,hi]
  | some i =>
    obtain ⟨l₁,x,l₂,hpool,-,hx,hget,hmodify⟩:=findIdx?_split hi
    simp only [Bool.and_eq_true,beq_iff_eq] at hx
    refine Or.inl ⟨l₁,x,l₂,hpool,hx.2,hx.1,?_⟩
    simp only [HugeTlbfs.deallocateHugePage,hon,Bool.not_true,Bool.false_eq_true,↓reduceIte,hi,hget,hmodify,
      Option.map_some,Option.getD_some,setPool]

end HugeTlbfs

/-- The counter, the usage map and the allocations agree with the flags of one pool. -/
structure Counted (size : HugePageSize) (pool : List HugePageInfo) (free : UInt64)
    (usage : Int32 → Option UInt64) (held : List Allocation) : Prop where
  sizes : ∀x∈pool,x.size=size
  free : free.toNat=pool.countP (!·.inUse)
  usage : ∀appId,((usage appId).getD 0).toNat =
    pool.countP fun x => x.inUse && x.appId == appId
  held : (held.filter (·.size == size)).Perm ((pool.filter (·.inUse)).map HugePageInfo.allocation)

section OnePool

variable {size : HugePageSize} {pool l₁ l₂ : List HugePageInfo} {x : HugePageInfo} {free : UInt64}
  {usage : Int32 → Option UInt64} {held held' : List Allocation}

theorem sizes_replace (h : ∀y∈l₁++x::l₂,y.size=size) {x' : HugePageInfo} (hx : x'.size=x.size) :
    ∀y∈l₁++x'::l₂,y.size=size := by
  rw [forall_mem_append,forall_mem_cons] at h ⊢
  exact ⟨h.1,hx.trans h.2.1,h.2.2⟩

theorem toNat_pred {a : UInt64} (h : 0<a.toNat) : (a - 1).toNat=a.toNat - 1 :=
  UInt64.toNat_sub_of_le _ _ (UInt64.le_iff_toNat_le.mpr h)

theorem toNat_succ {a : UInt64} (h : a.toNat<2^64 - 1) : (a+1).toNat=a.toNat+1 := by
  rw [UInt64.toNat_add,UInt64.toNat_one,Nat.mod_eq_of_lt (by omega)]

theorem Counted.claim (h : Counted size (l₁++x::l₂) free usage held) (hx : x.inUse=false)
    (hlen : (l₁++x::l₂).length≤2^31) (appId : Int32) (vaddr : UInt64) :
    Counted size (l₁++x.claimed appId vaddr::l₂) (free - 1)
      (update usage appId (some ((usage appId).getD 0+1))) (⟨appId,x.basePpn,size⟩::held) := by
  have hsize : x.size=size := h.sizes x (by simp)
  refine ⟨sizes_replace h.sizes rfl,?_,?_,?_⟩
  · have hfree := h.free
    simp only [countP_append,countP_cons,hx,HugePageInfo.claimed,Bool.not_false,Bool.not_true,↓reduceIte,
      Bool.false_eq_true] at hfree ⊢
    rw [toNat_pred (by omega),hfree]
    omega
  · intro a
    have husage := h.usage a
    have hle : (l₁++x::l₂).countP (fun y => y.inUse && y.appId == a)≤2^31 := countP_le_length.trans hlen
    simp only [countP_append,countP_cons,hx,HugePageInfo.claimed,Bool.false_and,Bool.true_and,
      Bool.false_eq_true,↓reduceIte,beq_iff_eq] at husage hle ⊢
    by_cases ha : a=appId
    · subst ha
      rw [if_pos rfl,update_self,Option.getD_some,toNat_succ (by omega),husage]
      omega
    · rw [update_of_ne ha,husage,if_neg (Ne.symm ha)]
  · have hheld := h.held
    simp only [filter_append,filter_cons,hx,HugePageInfo.claimed,Bool.false_eq_true,↓reduceIte,map_append,
      map_cons,HugePageInfo.allocation,hsize,beq_self_eq_true]
      at hheld ⊢
    exact (hheld.cons _).trans perm_middle.symm

theorem Counted.release (h : Counted size (l₁++x::l₂) free usage held) (hx : x.inUse=true)
    (hlen : (l₁++x::l₂).length≤2^31) (hbase : ∀y∈l₁++l₂,y.basePpn≠x.basePpn) :
    Counted size (l₁++x.released::l₂) (free+1) (HugeTlbfs.usageAfterReturn usage x.appId)
      (held.filter fun a => !(a.basePpn == x.basePpn && a.size == size)) := by
  refine ⟨sizes_replace h.sizes rfl,?_,?_,?_⟩
  · have hfree := h.free
    have hle : (l₁++x::l₂).countP (!·.inUse)≤2^31 := countP_le_length.trans hlen
    simp only [countP_append,countP_cons,hx,HugePageInfo.released,Bool.not_false,Bool.not_true,↓reduceIte,
      Bool.false_eq_true] at hfree hle ⊢
    rw [toNat_succ (by omega),hfree]
    omega
  · intro a
    have husage := h.usage a
    have hown := h.usage x.appId
    simp only [countP_append,countP_cons,hx,HugePageInfo.released,Bool.false_and,Bool.true_and,
      Bool.false_eq_true,↓reduceIte,beq_iff_eq] at husage hown ⊢
    -- the owner of the page has been counted
    cases hn : usage x.appId with
    | none =>
      rw [hn] at hown
      simp at hown
    | some n =>
      rw [hn,Option.getD_some] at hown
      have hpos : 0<n := UInt64.lt_iff_toNat_lt.mpr (by rw [UInt64.toNat_zero,hown]; omega)
      rw [HugeTlbfs.usageAfterReturn,hn]
      simp only [hpos,↓reduceIte]
      by_cases ha : a=x.appId
      · subst ha
        rw [update_self,Option.getD_some,toNat_pred (by omega),hown]
        omega
      · rw [update_of_ne ha,husage,if_neg (Ne.symm ha)]
  · have hheld := h.held.filter fun a => !(a.basePpn == x.basePpn)
    have hkeep : ∀l : List HugePageInfo,(∀y∈l,y.basePpn≠x.basePpn) →
        ((l.filter (·.inUse)).map HugePageInfo.allocation).filter
          (fun a => !(a.basePpn == x.basePpn)) =
        (l.filter (·.inUse)).map HugePageInfo.allocation := by
      intro l hl
      rw [filter_eq_self]
      intro a ha
      obtain ⟨y,hy,rfl⟩:=mem_map.mp ha
      simpa [HugePageInfo.allocation] using hl y (mem_of_mem_filter hy)
    have hfirst := hkeep l₁ fun y hy => hbase y (mem_append_left _ hy)
    have hsecond := hkeep l₂ fun y hy => hbase y (mem_append_right _ hy)
    simp only [filter_append,filter_cons,hx,↓reduceIte,map_append,map_cons,hfirst,hsecond] at hheld
    simp only [HugePageInfo.allocation,beq_self_eq_true,Bool.not_true,Bool.false_eq_true,↓reduceIte] at hheld
    rw [filter_filter] at hheld ⊢
    simp only [filter_append,filter_cons,HugePageInfo.released,Bool.false_eq_true,↓reduceIte,map_append]
    refine List.Perm.trans (List.Perm.of_eq ?_) hheld
    apply filter_congr
    intro a ha
    cases hsize : a.size == size <;> simp

/-- What is left of a page when all pages of the application are returned. -/
def HugePageInfo.without (x : HugePageInfo) (appId : Int32) : HugePageInfo :=
  if x.inUse && x.appId == appId then x.released else x

theorem inUse_without (x : HugePageInfo) (appId : Int32) :
    (x.without appId).inUse=(x.inUse && !(x.appId == appId)) := by
  rw [HugePageInfo.without]
  cases hx : x.inUse <;> cases ha : x.appId == appId <;> simp [HugePageInfo.released,hx]

theorem Counted.releaseAll (h : Counted size pool free usage held) (hlen : pool.length≤2^31) (appId : Int32) :
    Counted size (pool.map (·.without appId))
      (free+UInt64.ofNat (pool.countP fun x => x.inUse && x.appId == appId)) (update usage appId none)
      (held.filter (·.appId != appId)) := by
  refine ⟨?_,?_,?_,?_⟩
  · intro y hy
    obtain ⟨z,hz,rfl⟩:=mem_map.mp hy
    have hsize := h.sizes z hz
    rw [HugePageInfo.without]
    split_ifs
    · exact hsize
    · exact hsize
  · have hsum : (pool.map (·.without appId)).countP (!·.inUse) =
        pool.countP (!·.inUse)+pool.countP fun x => x.inUse && x.appId == appId := by
      clear h hlen
      induction pool with
      | nil => rfl
      | cons y l ih =>
        simp only [map_cons,countP_cons,ih,inUse_without]
        cases y.inUse <;> cases y.appId == appId <;> simp <;> omega
    have hle : (pool.map (·.without appId)).countP (!·.inUse)≤2^31 :=
      countP_le_length.trans (by simpa using hlen)
    rw [UInt64.toNat_add,UInt64.toNat_ofNat',h.free]
    omega
  · intro a
    by_cases ha : a=appId
    · subst ha
      rw [update_self,eq_comm]
      simp only [Option.getD_none,UInt64.toNat_zero,countP_eq_zero,mem_map]
      rintro _ ⟨y,-,rfl⟩
      rw [HugePageInfo.without]
      split_ifs with hy
      · simp [HugePageInfo.released]
      · exact hy
    · rw [update_of_ne ha,h.usage a,countP_map]
      apply countP_congr
      intro y hy
      simp only [comp_apply,HugePageInfo.without]
      split_ifs with hown
      · simp only [Bool.and_eq_true,beq_iff_eq] at hown
        simp [HugePageInfo.released,hown.2,Ne.symm ha]
      · rfl
  · have hheld := h.held.filter (·.appId != appId)
    have hpool : ((pool.filter (·.inUse)).map HugePageInfo.allocation).filter (·.appId != appId) =
        ((pool.map (·.without appId)).filter (·.inUse)).map HugePageInfo.allocation := by
      clear h hlen hheld
      induction pool with
      | nil => rfl
      | cons y l ih =>
        simp only [map_cons,filter_cons,HugePageInfo.without]
        cases hy : y.inUse <;> cases ha : y.appId == appId <;>
          simp_all [HugePageInfo.released,HugePageInfo.allocation,HugePageInfo.without,bne]
    rw [hpool,filter_filter] at hheld
    rw [filter_filter]
    refine List.Perm.trans (List.Perm.of_eq ?_) hheld
    apply filter_congr
    intro a ha
    exact Bool.and_comm _ _

theorem counted_update {s : HugeTlbfs} (h : ∀size,Counted size (s.pool size) (s.freeHugepages size)
      (s.appUsage size) held) (hself : Counted size pool free usage held')
    (hothers : ∀size'≠size,held'.filter (·.size == size')=held.filter (·.size == size'))
    (size' : HugePageSize) : Counted size' (update s.pool size pool size')
      (update s.freeHugepages size free size') (update s.appUsage size usage size') held' := by
  by_cases hsize : size'=size
  · subst hsize
    rw [update_self,update_self,update_self]
    exact hself
  · rw [update_of_ne hsize,update_of_ne hsize,update_of_ne hsize]
    have hcounted := h size'
    exact ⟨hcounted.sizes,hcounted.free,hcounted.usage,hothers size' hsize ▸ hcounted.held⟩

end OnePool

theorem apart_of_blocks {l m : List HugePageInfo} (h : m.map HugePageInfo.block=l.map HugePageInfo.block)
    (hl : l.Pairwise fun x y => x.block.Apart y.block) : m.Pairwise fun x y => x.block.Apart y.block := by
  have hmap : (l.map HugePageInfo.block).Pairwise Interval.Apart := pairwise_map.mpr hl
  rw [← h] at hmap
  exact pairwise_map.mp hmap

theorem map_block_modify {f : HugePageInfo → HugePageInfo} (hf : ∀info,(f info).block=info.block)
    (l : List HugePageInfo) (i : ℕ) : (l.modify i f).map HugePageInfo.block=l.map HugePageInfo.block := by
  induction l generalizing i with
  | nil => simp
  | cons x l ih =>
    cases i with
    | zero => simp [hf]
    | succ i => simp [ih]

theorem map_block_update {f : HugePageInfo → HugePageInfo} (hf : ∀info,(f info).block=info.block)
    (pool : HugePageSize → List HugePageInfo) (size : HugePageSize) (i : ℕ) (size' : HugePageSize) :
    (update pool size ((pool size).modify i f) size').map HugePageInfo.block =
      (pool size').map HugePageInfo.block := by
  by_cases hsize : size'=size
  · subst hsize
    rw [update_self,map_block_modify hf]
  · rw [update_of_ne hsize]

namespace HugeTlbfs

theorem allocateHugePage_blocks (s : HugeTlbfs) (appId : Int32) (vaddr : UInt64) (size' size : HugePageSize) :
    ((s.allocateHugePage appId vaddr size').2.pool size).map HugePageInfo.block =
      (s.pool size).map HugePageInfo.block := by
  simp only [HugeTlbfs.allocateHugePage]
  split_ifs
  · rfl
  · rfl
  · exact map_block_update (fun info => info.block_claimed appId vaddr) _ _ _ size

theorem deallocateHugePage_blocks (s : HugeTlbfs) (basePpn : UInt64) (size' size : HugePageSize) :
    ((s.deallocateHugePage basePpn size').2.pool size).map HugePageInfo.block =
      (s.pool size).map HugePageInfo.block := by
  simp only [HugeTlbfs.deallocateHugePage]
  split_ifs
  · rfl
  · split
    · rfl
    · exact map_block_update HugePageInfo.block_released _ _ _ size

theorem deallocateAllForApp_blocks (s : HugeTlbfs) (appId : Int32) (size : HugePageSize) :
    ((s.deallocateAllForApp appId).2.pool size).map HugePageInfo.block =
      (s.pool size).map HugePageInfo.block := by
  rw [HugeTlbfs.deallocateAllForApp]
  split_ifs
  · rfl
  · rw [map_map]
    apply map_congr_left
    intro x hx
    simp only [comp_apply]
    split_ifs
    · exact x.block_released
    · rfl

end HugeTlbfs

theorem HugePageInfo.basePpn_ne {x y : HugePageInfo} (h : x.block.Apart y.block) : x.basePpn≠y.basePpn := by
  intro heq
  have hx := x.size.pages_pos
  have hy := y.size.pages_pos
  refine h x.basePpn.toNat ⟨le_rfl,?_⟩ ⟨?_,?_⟩
  · simp only [HugePageInfo.block]
    omega
  · rw [heq]
    exact le_rfl
  · rw [heq]
    simp only [HugePageInfo.block]
    omega

namespace PoolLedger

variable {c : PoolCall} {l l' : PoolLedger}

theorem step_blocks (he : l.step c = .ok l') (size : HugePageSize) :
    (l'.service.pool size).map HugePageInfo.block=(l.service.pool size).map HugePageInfo.block := by
  cases c with
  | allocateHugePage appId vaddr size' =>
    cases he
    exact l.service.allocateHugePage_blocks appId vaddr size' size
  | deallocateHugePage basePpn size' =>
    cases he
    exact l.service.deallocateHugePage_blocks basePpn size' size
  | deallocateAllForApp appId =>
    cases he
    exact l.service.deallocateAllForApp_blocks appId size

structure Inv (l : PoolLedger) : Prop where
  enabled : l.service.enabled=true
  small : l.service.Small
  apart : (l.service.pool .size2mb++l.service.pool .size1gb).Pairwise
    fun x y => x.block.Apart y.block
  counted : ∀size,Counted size (l.service.pool size) (l.service.freeHugepages size)
    (l.service.appUsage size) l.held

section

variable (h : l.Inv)
include h

theorem Inv.of_counted (he : l.step c = .ok l') (hon : l'.service.enabled=l.service.enabled)
    (hcounted : ∀size,Counted size (l'.service.pool size) (l'.service.freeHugepages size)
    (l'.service.appUsage size) l'.held) : l'.Inv := by
  have hblocks := step_blocks he
  refine ⟨hon.trans h.enabled,?_,?_,hcounted⟩
  · intro size
    have hlen := congrArg List.length (hblocks size)
    rw [length_map,length_map] at hlen
    rw [hlen]
    exact h.small size
  · apply apart_of_blocks _ h.apart
    rw [map_append,map_append,hblocks,hblocks]

theorem Inv.pool_apart (size : HugePageSize) :
    (l.service.pool size).Pairwise fun x y => x.block.Apart y.block := by
  obtain ⟨hfirst,hsecond,-⟩:=pairwise_append.mp h.apart
  cases size with
  | size2mb => exact hfirst
  | size1gb => exact hsecond

theorem Inv.allocateHugePage {appId : Int32} {vaddr : UInt64} {size : HugePageSize}
    (he : l.step (.allocateHugePage appId vaddr size) = .ok l') : l'.Inv := by
  rcases HugeTlbfs.allocateHugePage_cases h.enabled h.small appId vaddr size with
    ⟨l₁,x,l₂,hpool,hx,hs⟩ | ⟨-,hs⟩
  · have hstep := he
    simp only [step,hs] at he
    cases he
    have hcounted := h.counted size
    have hlen := h.small size
    rw [hpool] at hcounted hlen
    refine h.of_counted hstep rfl ?_
    apply counted_update h.counted (hcounted.claim hx hlen appId vaddr)
    intro size' hsize
    simp [Ne.symm hsize]
  · simp only [step,hs] at he
    cases he
    exact h

theorem Inv.deallocateHugePage {basePpn : UInt64} {size : HugePageSize}
    (he : l.step (.deallocateHugePage basePpn size) = .ok l') : l'.Inv := by
  rcases HugeTlbfs.deallocateHugePage_cases h.enabled basePpn size with
    ⟨l₁,x,l₂,hpool,hx,rfl,hs⟩ | hs
  · have hstep := he
    simp only [step,hs,↓reduceIte] at he
    cases he
    have hcounted := h.counted size
    have hlen := h.small size
    have hapart := h.pool_apart size
    rw [hpool] at hcounted hlen hapart
    have hbase : ∀y∈l₁++l₂,y.basePpn≠x.basePpn := by
      obtain ⟨-,hright,hcross⟩:=pairwise_append.mp hapart
      intro y hy
      rcases mem_append.mp hy with hy | hy
      · exact HugePageInfo.basePpn_ne (hcross y hy x mem_cons_self)
      · exact (HugePageInfo.basePpn_ne ((pairwise_cons.mp hright).1 y hy)).symm
    refine h.of_counted hstep rfl ?_
    apply counted_update h.counted (hcounted.release hx hlen hbase)
    intro size' hsize
    rw [filter_filter]
    apply filter_congr
    intro a ha
    by_cases hother : a.size=size'
    · simp [hother,hsize]
    · simp [hother]
  · simp only [step,hs] at he
    cases he
    exact h

theorem Inv.deallocateAllForApp {appId : Int32} (he : l.step (.deallocateAllForApp appId) = .ok l') :
    l'.Inv := by
  have hstep := he
  simp only [step,HugeTlbfs.deallocateAllForApp,h.enabled,Bool.not_true,Bool.false_eq_true,↓reduceIte] at he
  cases he
  refine h.of_counted hstep h.enabled.symm ?_
  intro size
  exact (h.counted size).releaseAll (h.small size) appId

theorem step_inv (he : l.step c = .ok l') : l'.Inv := by
  cases c with
  | allocateHugePage appId vaddr size => exact h.allocateHugePage he
  | deallocateHugePage basePpn size => exact h.deallocateHugePage he
  | deallocateAllForApp appId => exact h.deallocateAllForApp he

theorem Inv.held_perm : l.held.Perm (((l.service.pool .size2mb++l.service.pool .size1gb).filter (·.inUse)).map
      HugePageInfo.allocation) := by
  have hother : l.held.filter (fun a => !(a.size == .size2mb)) =
      l.held.filter (·.size == .size1gb) := by
    apply filter_congr
    intro a ha
    cases a.size <;> rfl
  have hsplit := filter_append_perm (·.size == .size2mb) l.held
  rw [hother] at hsplit
  rw [filter_append,map_append]
  exact hsplit.symm.trans ((h.counted .size2mb).held.append (h.counted .size1gb).held)

theorem Inv.accounted : l.Accounted := by
  refine ⟨h.apart,fun size => (h.counted size).free,fun appId size => (h.counted size).usage appId,?_,?_⟩
  · have hheld : (((l.service.pool .size2mb++l.service.pool .size1gb).filter (·.inUse)).map
        HugePageInfo.allocation).Pairwise fun a b => a.block.Apart b.block :=
      pairwise_map.mpr (h.apart.filter _)
    exact h.held_perm.symm.pairwise hheld fun hab p hc hb => hab p hb hc
  · intro appId vaddr size
    have hfree := (h.counted size).free
    rcases HugeTlbfs.allocateHugePage_cases h.enabled h.small appId vaddr size with
      ⟨l₁,x,l₂,hpool,hx,hs⟩ | ⟨hall,hs⟩
    · refine iff_of_false (by simp [hs]) ?_
      intro hzero
      rw [hpool,countP_append,countP_cons,hx] at hfree
      rw [HugeTlbfs.getFreeHugePages] at hzero
      simp [hzero] at hfree
    · refine iff_of_true (by rw [hs]) ?_
      have hzero : (l.service.pool size).countP (!·.inUse)=0 := by
        rw [countP_eq_zero]
        intro x hx
        simp [hall x hx]
      rw [HugeTlbfs.getFreeHugePages,← UInt64.toNat_inj,hfree,hzero]
      rfl

end

end PoolLedger

namespace HugeTlbfs

theorem length_layPages (size : HugePageSize) (n : ℕ) (ppn : UInt64) : (layPages size n ppn).1.length=n := by
  induction n generalizing ppn with
  | zero => rfl
  | succ n ih => simp only [layPages,length_cons,ih]

theorem mem_layPages {size : HugePageSize} {n : ℕ} {ppn : UInt64} {x : HugePageInfo}
    (hx : x∈(layPages size n ppn).1) : x.size=size ∧ x.inUse=false := by
  induction n generalizing ppn with
  | zero => cases hx
  | succ n ih =>
    rcases mem_cons.mp hx with rfl | hx
    · exact ⟨rfl,rfl⟩
    · exact ih hx

theorem layPages_apart (size : HugePageSize) (n : ℕ) (ppn : UInt64) (hfit : ppn.toNat+size.pages*n<2^64) :
    (layPages size n ppn).1.Pairwise fun x y => x.block.Apart y.block := by
  induction n generalizing ppn with
  | zero => exact List.Pairwise.nil
  | succ n ih =>
    have hmul : size.pages*(n+1)=size.pages*n+size.pages := Nat.mul_succ _ _
    have hnext : (ppn+UInt64.ofNat size.pages).toNat=ppn.toNat+size.pages := by
      rw [UInt64.toNat_add,toNat_ofNat_pages,Nat.mod_eq_of_lt (by omega)]
    refine pairwise_cons.mpr ⟨?_,ih _ (by omega)⟩
    intro y hy p hp hpy
    have hpos := size.pages_pos
    have hbound := (layPages_inside (by omega) hy hpy).1
    rw [hnext] at hbound
    simp only [HugePageInfo.block,Interval.Contains] at hp
    omega

theorem initializePool_apart {nr2mb nr1gb : UInt64} (hfit : poolEnd nr2mb nr1gb<2^64) :
    (initializePool nr2mb nr1gb .size2mb++initializePool nr2mb nr1gb .size1gb).Pairwise
      fun x y => x.block.Apart y.block := by
  have hbase : poolBasePpn.toNat=0x100000 := rfl
  unfold poolEnd at hfit
  have hstart := layPages_2mb_end (n:=nr2mb.toNat) (by omega)
  refine pairwise_append.mpr ⟨?_,?_,?_⟩
  · exact layPages_apart _ _ _ (by simp only [hbase,HugePageSize.pages]; omega)
  · exact layPages_apart _ _ _ (by simp only [hstart,HugePageSize.pages]; omega)
  · intro x hx y hy p hp hpy
    have hlow := layPages_inside (by simp only [hbase,HugePageSize.pages]; omega) hx hp
    have hhigh := layPages_inside (by simp only [hstart,HugePageSize.pages]; omega) hy hpy
    simp only [hbase,hstart,HugePageSize.pages] at hlow hhigh
    omega

/-- The number of pages that the constructor puts into a pool. -/
def configured (nrHugepages2mb nrHugepages1gb : UInt64) : HugePageSize → UInt64
  | .size2mb => nrHugepages2mb
  | .size1gb => nrHugepages1gb

theorem length_initializePool (nr2mb nr1gb : UInt64) (size : HugePageSize) :
    (initializePool nr2mb nr1gb size).length=(configured nr2mb nr1gb size).toNat := by
  cases size with
  | size2mb => exact length_layPages _ _ _
  | size1gb => exact length_layPages _ _ _

theorem mem_initializePool {nr2mb nr1gb : UInt64} {size : HugePageSize} {x : HugePageInfo}
    (hx : x∈initializePool nr2mb nr1gb size) : x.size=size ∧ x.inUse=false := by
  cases size with
  | size2mb => exact mem_layPages hx
  | size1gb => exact mem_layPages hx

end HugeTlbfs

theorem counted_free {size : HugePageSize} {pool : List HugePageInfo} {free : UInt64}
    (hpool : ∀x∈pool,x.size=size ∧ x.inUse=false) (hfree : free.toNat=pool.length) :
    Counted size pool free (fun _ => none) [] := by
  refine ⟨fun x hx => (hpool x hx).1,?_,?_,?_⟩
  · rw [hfree,eq_comm,countP_eq_length]
    intro x hx
    simp [(hpool x hx).2]
  · intro a
    rw [eq_comm]
    simp only [Option.getD_none,UInt64.toNat_zero,countP_eq_zero]
    intro x hx
    simp [(hpool x hx).2]
  · have hnone : pool.filter (·.inUse)=[] := by
      rw [filter_eq_nil_iff]
      intro x hx
      simp [(hpool x hx).2]
    rw [hnone]
    exact List.Perm.nil

theorem PoolLedger.inv_new {nr2mb nr1gb : UInt64} (h2mb : nr2mb.toNat≤2^31) (h1gb : nr1gb.toNat≤2^31) :
    (PoolLedger.new true nr2mb nr1gb).Inv := by
  refine ⟨rfl,?_,?_,?_⟩
  · intro size
    have hlen := HugeTlbfs.length_initializePool nr2mb nr1gb size
    cases size with
    | size2mb => exact hlen.trans_le h2mb
    | size1gb => exact hlen.trans_le h1gb
  · apply HugeTlbfs.initializePool_apart
    rw [poolEnd]
    omega
  · intro size
    apply counted_free fun x hx => HugeTlbfs.mem_initializePool hx
    have hlen := HugeTlbfs.length_initializePool nr2mb nr1gb size
    cases size with
    | size2mb => exact hlen.symm
    | size1gb => exact hlen.symm

namespace PoolLedger

/-- Of the `n` pages of a pool the first `k` are in use. -/
structure Filled (size : HugePageSize) (n k : ℕ) (l : PoolLedger) : Prop where
  enabled : l.service.enabled=true
  free : (l.service.freeHugepages size).toNat+k=n
  length : (l.service.pool size).length=n
  taken : ∀x∈(l.service.pool size).take k,x.inUse=true
  rest : ∀x∈(l.service.pool size).drop k,x.inUse=false

variable {k n : ℕ} {l : PoolLedger} {size : HugePageSize}

theorem Filled.findIdx? (h : l.Filled size n k) (hk : k<n) :
    (l.service.pool size).findIdx? (!·.inUse)=some k := by
  have hlen := h.length
  rw [List.findIdx?_eq_some_iff_getElem]
  refine ⟨by omega,?_,?_⟩
  · have hmem : (l.service.pool size)[k]∈(l.service.pool size).drop k := by
      rw [← getElem_cons_drop (by omega : k<(l.service.pool size).length)]
      exact mem_cons_self
    simp [h.rest _ hmem]
  · intro j hj
    have hmem : (l.service.pool size)[j]∈(l.service.pool size).take k :=
      mem_take_iff_getElem.mpr ⟨j,by omega,rfl⟩
    simp [h.taken _ hmem]

theorem Filled.allocateHugePage (h : l.Filled size n k) (hk : k<n) (hlt : k<2^31) (appId : Int32)
    (vaddr : UInt64) : ∃l',l.step (.allocateHugePage appId vaddr size) = .ok l' ∧ l'.Filled size n (k+1) := by
  obtain ⟨l₁,x,l₂,hpool,hlen,-,hs⟩:=HugeTlbfs.allocateHugePage_some h.enabled (h.findIdx? hk) hlt appId vaddr
  have hfree := h.free
  have hlength := h.length
  have htaken := h.taken
  have hrest := h.rest
  rw [hpool,take_left' hlen] at htaken
  rw [hpool,drop_left' hlen] at hrest
  rw [hpool] at hlength
  refine ⟨_,by simp only [step,hs]; rfl,?_⟩
  refine ⟨h.enabled,?_,?_,?_,?_⟩
  · dsimp only [HugeTlbfs.setPool]
    rw [update_self,toNat_pred (by omega)]
    omega
  · dsimp only [HugeTlbfs.setPool]
    rw [update_self]
    simpa using hlength
  · dsimp only [HugeTlbfs.setPool]
    rw [update_self]
    intro y hy
    rw [take_append,take_of_length_le (by omega),hlen] at hy
    simp only [Nat.add_sub_cancel_left,take_succ_cons,take_zero,mem_append,mem_singleton] at hy
    rcases hy with hy | rfl
    · exact htaken y hy
    · rfl
  · dsimp only [HugeTlbfs.setPool]
    rw [update_self]
    intro y hy
    rw [drop_append,drop_of_length_le (by omega),hlen] at hy
    simp only [Nat.add_sub_cancel_left,drop_succ_cons,drop_zero,nil_append] at hy
    exact hrest y (mem_cons_of_mem x hy)

theorem Filled.run {m : ℕ} (h : l.Filled size n k) (hn : k+m≤n) (hlt : k+m≤2^31) :
    ∃l',FallibleRuns.run step l (List.replicate m (.allocateHugePage 0 0 size)) = .ok l' ∧
      l'.Filled size n (k+m) := by
  induction m generalizing k l with
  | zero => exact ⟨l,rfl,h⟩
  | succ m ih =>
    obtain ⟨t,ht,hfilled⟩:=h.allocateHugePage (by omega) (by omega) 0 0
    obtain ⟨l',hl',hend⟩:=ih hfilled (by omega) (by omega)
    refine ⟨l',?_,?_⟩
    · rw [replicate_succ,run_cons,ht]
      exact hl'
    · rwa [show k+1+m=k+(m+1) by omega] at hend

theorem Filled.not_accounted (h : l.Filled size n (2^31)) (hn : 2^31<n) : ¬ l.Accounted := by
  intro hacc
  have hneg : l.service.findFreeHugePage size<0 := by
    rw [HugeTlbfs.findFreeHugePage,h.findIdx? hn]
    decide
  have hnone := HugeTlbfs.allocateHugePage_none h.enabled hneg 0 0
  have hzero := (hacc.fails 0 0 size).mp (by rw [hnone])
  have hfree := h.free
  rw [HugeTlbfs.getFreeHugePages] at hzero
  rw [hzero,UInt64.toNat_zero] at hfree
  omega

theorem filled_new (nr2mb nr1gb : UInt64) (size : HugePageSize) :
    (PoolLedger.new true nr2mb nr1gb).Filled size (HugeTlbfs.configured nr2mb nr1gb size).toNat 0 := by
  refine ⟨rfl,?_,HugeTlbfs.length_initializePool nr2mb nr1gb size,by simp,?_⟩
  · cases size with
    | size2mb => rfl
    | size1gb => rfl
  · intro x hx
    exact (HugeTlbfs.mem_initializePool hx).2

theorem exists_not_accounted {nr2mb nr1gb : UInt64} (size : HugePageSize)
    (hn : 2^31<(HugeTlbfs.configured nr2mb nr1gb size).toNat) :
    ∃calls l,FallibleRuns.run step (PoolLedger.new true nr2mb nr1gb) calls = .ok l ∧ ¬ l.Accounted := by
  obtain ⟨l,hl,hfilled⟩:=(filled_new nr2mb nr1gb size).run (m:=2^31) (by omega) (by omega)
  rw [Nat.zero_add] at hfilled
  exact ⟨_,l,hl,hfilled.not_accounted hn⟩

/-- The records agree after every sequence of calls exactly when no pool has more than `2 ^ 31`
pages. -/
theorem pool_accounted_iff (nr2mb nr1gb : UInt64) :
    (∀calls l,FallibleRuns.run step (PoolLedger.new true nr2mb nr1gb) calls = .ok l →
      l.Accounted) ↔ nr2mb.toNat≤2^31 ∧ nr1gb.toNat≤2^31 := by
  constructor
  · intro hall
    by_contra hcond
    have hbig : ∃size,2^31<(HugeTlbfs.configured nr2mb nr1gb size).toNat := by
      rw [not_and_or,Nat.not_le,Nat.not_le] at hcond
      rcases hcond with hbig | hbig
      · exact ⟨.size2mb,hbig⟩
      · exact ⟨.size1gb,hbig⟩
    obtain ⟨size,hbig⟩:=hbig
    obtain ⟨calls,l,hl,hnot⟩:=exists_not_accounted size hbig
    exact hnot (hall calls l hl)
  · rintro ⟨h2mb,h1gb⟩ calls l hl
    exact (run_invariant (G:=fun _ _ => True) (fun _ _ _ h _ he => step_inv h he)
      (inv_new h2mb h1gb) (along_of_forall (fun _ _ => trivial) _ _) hl).accounted

/-- After `2 ^ 31` requests one page of `2 ^ 31 + 1` is free and cannot be had. -/
theorem pool_not_accounted_beyond_int :
    ∃calls l,FallibleRuns.run step (PoolLedger.new true 2147483649 0) calls = .ok l ∧ ¬ l.Accounted :=
  exists_not_accounted .size2mb (by decide)

end PoolLedger

end Sniper.HugePages
