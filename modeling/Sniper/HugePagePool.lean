import Sniper.BuddyOwnership

/-!
# The huge-page pool beside the buddy allocator

The huge-page filesystem lays its pool out from a fixed physical page and never asks the buddy
allocator for it.
-/

namespace Sniper.HugePages
open BuddyAllocator IntervalTilings FallibleRuns

inductive HugePageSize where
  | size2mb
  | size1gb
  deriving DecidableEq,Repr

def HugePageSize.pages : HugePageSize → ℕ
  | .size2mb => 512
  | .size1gb => 262144

structure HugePageInfo where
  basePpn : UInt64
  appId : Int32
  vaddr : UInt64
  size : HugePageSize
  inUse : Bool
  deriving DecidableEq

namespace HugePageInfo

variable (info : HugePageInfo)

def block : Interval := ⟨info.basePpn.toNat,info.basePpn.toNat+info.size.pages - 1⟩

def claimed (appId : Int32) (vaddr : UInt64) : HugePageInfo :=
  {info with inUse:=true,appId:=appId,vaddr:=vaddr}

def released : HugePageInfo := {info with inUse:=false,appId:=-1,vaddr:=0}

end HugePageInfo

/-- The service's state. Each of the source's members that exists once per page size is a
function of the size. -/
structure HugeTlbfs where
  enabled : Bool
  freeHugepages : HugePageSize → UInt64
  pool : HugePageSize → List HugePageInfo
  appUsage : HugePageSize → Int32 → Option UInt64

namespace HugeTlbfs

/-- One loop of `initializePool`: `n` free pages from `currentPpn` on, with the page number
that the loop ends at. -/
def layPages (size : HugePageSize) : ℕ → UInt64 → List HugePageInfo × UInt64
  | 0,currentPpn => ([],currentPpn)
  | n+1,currentPpn =>
    let rest := layPages size n (currentPpn+UInt64.ofNat size.pages)
    (⟨currentPpn,-1,0,size,false⟩::rest.1,rest.2)

def poolBasePpn : UInt64 := 0x100000

def initializePool (nrHugepages2mb nrHugepages1gb : UInt64) : HugePageSize → List HugePageInfo :=
  let first := layPages .size2mb nrHugepages2mb.toNat poolBasePpn
  fun
  | .size2mb => first.1
  | .size1gb => (layPages .size1gb nrHugepages1gb.toNat first.2).1

/-- The constructor reads the pool sizes only when the service is enabled. -/
def new (enabled : Bool) (nrHugepages2mb nrHugepages1gb : UInt64) : HugeTlbfs :=
  if enabled then
    { enabled:=true
      freeHugepages := fun
        | .size2mb => nrHugepages2mb
        | .size1gb => nrHugepages1gb
      pool := initializePool nrHugepages2mb nrHugepages1gb
      appUsage := fun _ _ => none }
  else
    { enabled:=false
      freeHugepages := fun _ => 0
      pool := fun _ => []
      appUsage := fun _ _ => none }

variable (s : HugeTlbfs)

/-- The index of the first page not in use, cut to an `int`; `-1` when there is none. -/
def findFreeHugePage (size : HugePageSize) : Int32 :=
  match (s.pool size).findIdx? (!·.inUse) with
  | some i => Int32.ofNat i
  | none => -1

def allocateHugePage (appId : Int32) (vaddr : UInt64) (size : HugePageSize) : Option UInt64 × HugeTlbfs :=
  if !s.enabled then (none,s)
  else
    let idx := s.findFreeHugePage size
    if idx<0 then (none,s)
    else
      let i := idx.toInt.toNat
      (((s.pool size)[i]?).map (·.basePpn),
        { s with
          freeHugepages := Function.update s.freeHugepages size (s.freeHugepages size - 1)
          pool := Function.update s.pool size ((s.pool size).modify i (·.claimed appId vaddr))
          appUsage := Function.update s.appUsage size (Function.update (s.appUsage size) appId
            (some (((s.appUsage size appId).getD 0)+1))) })

/-- The application's count after one of its pages is returned. -/
def usageAfterReturn (usage : Int32 → Option UInt64) (appId : Int32) : Int32 → Option UInt64 :=
  match usage appId with
  | some n => if 0<n then Function.update usage appId (some (n - 1)) else usage
  | none => usage

def deallocateHugePage (basePpn : UInt64) (size : HugePageSize) : Bool × HugeTlbfs :=
  if !s.enabled then (false,s)
  else
    match (s.pool size).findIdx? (fun info => info.basePpn == basePpn && info.inUse) with
    | none => (false,s)
    | some i =>
      let appId := (((s.pool size)[i]?).map (·.appId)).getD (-1)
      (true,
        { s with
          freeHugepages := Function.update s.freeHugepages size (s.freeHugepages size+1)
          pool := Function.update s.pool size ((s.pool size).modify i (·.released))
          appUsage := Function.update s.appUsage size
            (usageAfterReturn (s.appUsage size) appId) })

/-- Pages of the application are returned in both pools; its counts are forgotten. -/
def deallocateAllForApp (appId : Int32) : Int32 × HugeTlbfs :=
  if !s.enabled then (0,s)
  else
    let owned := fun info : HugePageInfo => info.inUse && info.appId == appId
    let count := fun size => (s.pool size).countP owned
    (Int32.ofNat (count .size2mb+count .size1gb),
      { s with
        freeHugepages := fun size => s.freeHugepages size+UInt64.ofNat (count size)
        pool := fun size => (s.pool size).map fun info => if owned info then info.released else info
        appUsage := fun size => Function.update (s.appUsage size) appId none })

def getFreeHugePages (size : HugePageSize) : UInt64 := s.freeHugepages size

def getAppHugePages (appId : Int32) (size : HugePageSize) : UInt64 := (s.appUsage size appId).getD 0

end HugeTlbfs

/-- Physical memory as the two services see it. -/
structure PhysicalMemory where
  hugetlbfs : HugeTlbfs
  ledger : Ledger

inductive MemoryCall where
  | allocateHugePage (appId : Int32) (vaddr : UInt64) (size : HugePageSize)
  | deallocateHugePage (basePpn : UInt64) (size : HugePageSize)
  | allocate (bytes : ℕ)
  | reserve2mbPage

namespace PhysicalMemory

def step (gen : Buddy.Generator) (m : PhysicalMemory) : MemoryCall → Except Abort PhysicalMemory
  | .allocateHugePage appId vaddr size =>
    .ok {m with hugetlbfs:=(m.hugetlbfs.allocateHugePage appId vaddr size).2}
  | .deallocateHugePage basePpn size =>
    .ok {m with hugetlbfs:=(m.hugetlbfs.deallocateHugePage basePpn size).2}
  | .allocate bytes => do
    let ledger ← m.ledger.step gen (.allocate bytes)
    .ok {m with ledger}
  | .reserve2mbPage => do
    let ledger ← m.ledger.step gen .reserve2mbPage
    .ok {m with ledger}

/-- No 4KB page lies both in a huge page in use and in a block handed out. -/
def NoCollision (m : PhysicalMemory) : Prop :=
  ∀size,∀info∈m.hugetlbfs.pool size,info.inUse=true →
    ∀b∈m.ledger.handedOut,info.block.Apart b

end PhysicalMemory

def poolEnd (nrHugepages2mb nrHugepages1gb : UInt64) : ℕ :=
  0x100000+512*nrHugepages2mb.toNat+262144*nrHugepages1gb.toNat

/-- The pool fits the address space and ends before the buddy allocator's pages begin, or
begins after they end. A service that is not enabled has no pool. -/
def PoolClear (memorySize kernelSize : Int32) (enabled : Bool) (nrHugepages2mb nrHugepages1gb : UInt64) :
    Prop :=
  enabled=true →
    poolEnd nrHugepages2mb nrHugepages1gb≤2^64 ∧
    min (poolEnd nrHugepages2mb nrHugepages1gb) (Buddy.pagesIn memorySize) ≤
      max 0x100000 (Buddy.pagesIn kernelSize)

namespace HugePageInfo

@[simp] theorem block_claimed (info : HugePageInfo) (appId : Int32) (vaddr : UInt64) :
    (info.claimed appId vaddr).block=info.block := rfl

@[simp] theorem block_released (info : HugePageInfo) : info.released.block=info.block := rfl

end HugePageInfo

theorem HugePageSize.pages_pos (size : HugePageSize) : 0<size.pages := by
  cases size <;> decide

namespace HugeTlbfs

/-- Every page of the pool, in use or not, avoids the pages in `[lo, hi)`. -/
def Avoids (lo hi : ℕ) (s : HugeTlbfs) : Prop :=
  ∀size,∀info∈s.pool size,∀p,info.block.Contains p → ¬ (lo≤p ∧ p<hi)

theorem mem_modify_block {l : List HugePageInfo} {i : ℕ} {f : HugePageInfo → HugePageInfo}
    (hf : ∀info,(f info).block=info.block) {info : HugePageInfo} (h : info∈l.modify i f) :
    ∃info'∈l,info.block=info'.block := by
  obtain ⟨n,hn,rfl⟩:=List.mem_iff_getElem.mp h
  rw [List.length_modify] at hn
  refine ⟨l[n],List.getElem_mem hn,?_⟩
  rw [List.getElem_modify]
  split
  · exact hf _
  · rfl

theorem Avoids.update {lo hi : ℕ} {s s' : HugeTlbfs} {size : HugePageSize} {i : ℕ}
    {f : HugePageInfo → HugePageInfo} (h : s.Avoids lo hi) (hf : ∀info,(f info).block=info.block)
    (hs' : s'.pool=Function.update s.pool size ((s.pool size).modify i f)) : s'.Avoids lo hi := by
  intro size' info hinfo
  rw [hs'] at hinfo
  by_cases hsize : size'=size
  · subst hsize
    rw [Function.update_self] at hinfo
    obtain ⟨info',hinfo',hblock⟩:=mem_modify_block hf hinfo
    rw [hblock]
    exact h _ info' hinfo'
  · rw [Function.update_of_ne hsize] at hinfo
    exact h _ info hinfo

theorem Avoids.allocateHugePage {lo hi : ℕ} {s : HugeTlbfs} (h : s.Avoids lo hi) (appId : Int32)
    (vaddr : UInt64) (size : HugePageSize) : (s.allocateHugePage appId vaddr size).2.Avoids lo hi := by
  unfold HugeTlbfs.allocateHugePage
  dsimp only
  split_ifs
  · exact h
  · exact h
  · exact h.update (fun info => info.block_claimed appId vaddr) rfl

theorem Avoids.deallocateHugePage {lo hi : ℕ} {s : HugeTlbfs} (h : s.Avoids lo hi) (basePpn : UInt64)
    (size : HugePageSize) : (s.deallocateHugePage basePpn size).2.Avoids lo hi := by
  unfold HugeTlbfs.deallocateHugePage
  split_ifs
  · exact h
  · split
    · exact h
    · exact h.update HugePageInfo.block_released rfl

theorem toNat_ofNat_pages (size : HugePageSize) : (UInt64.ofNat size.pages).toNat = size.pages := by
  cases size <;> rfl

theorem layPages_end (size : HugePageSize) (n : ℕ) (ppn : UInt64) :
    (layPages size n ppn).2.toNat = (ppn.toNat+size.pages*n) % 2^64 := by
  induction n generalizing ppn with
  | zero => exact (Nat.mod_eq_of_lt ppn.toNat_lt).symm
  | succ n ih =>
    rw [layPages,ih,UInt64.toNat_add,toNat_ofNat_pages,Nat.mod_add_mod,Nat.mul_succ]
    congr 1
    omega

theorem layPages_2mb_end {n : ℕ} (hfit : 0x100000+512*n<2^64) :
    (layPages .size2mb n poolBasePpn).2.toNat = 0x100000+512*n :=
  (layPages_end .size2mb n poolBasePpn).trans (Nat.mod_eq_of_lt hfit)

theorem layPages_inside {size : HugePageSize} {n : ℕ} {ppn : UInt64}
    (hfit : ppn.toNat+size.pages*n≤2^64) {info : HugePageInfo} (hinfo : info∈(layPages size n ppn).1)
    {p : ℕ} (hp : info.block.Contains p) : ppn.toNat≤p ∧ p<ppn.toNat+size.pages*n := by
  induction n generalizing ppn with
  | zero => cases hinfo
  | succ n ih =>
    have hmul : size.pages*(n+1)=size.pages*n+size.pages := Nat.mul_succ _ _
    have hsize := size.pages_pos
    simp only [layPages,List.mem_cons] at hinfo
    rcases hinfo with rfl | hinfo
    · simp only [HugePageInfo.block,Interval.Contains] at hp
      omega
    · have hn : n≠0 := by
        rintro rfl
        cases hinfo
      have hpos := Nat.mul_pos hsize (Nat.pos_of_ne_zero hn)
      have hnext : (ppn+UInt64.ofNat size.pages).toNat = ppn.toNat+size.pages := by
        rw [UInt64.toNat_add,toNat_ofNat_pages]
        exact Nat.mod_eq_of_lt (by omega)
      have hin := ih (by omega) hinfo
      omega

theorem initializePool_spec {nr2mb nr1gb : UInt64} (hfit : poolEnd nr2mb nr1gb≤2^64) (size : HugePageSize)
    (info : HugePageInfo) (hinfo : info∈initializePool nr2mb nr1gb size) (p : ℕ)
    (hp : info.block.Contains p) : 0x100000≤p ∧ p<poolEnd nr2mb nr1gb := by
  have hbase : poolBasePpn.toNat = 0x100000 := rfl
  unfold poolEnd at hfit ⊢
  cases size with
  | size2mb =>
    have hin := layPages_inside (by simp only [hbase,HugePageSize.pages]; omega) hinfo hp
    simp only [hbase,HugePageSize.pages] at hin
    omega
  | size1gb =>
    by_cases hnone : nr1gb.toNat=0
    · simp [initializePool,hnone,layPages] at hinfo
    · have hstart := layPages_2mb_end (n := nr2mb.toNat) (by omega)
      have hin := layPages_inside (by simp only [hstart,HugePageSize.pages]; omega) hinfo hp
      simp only [hstart,HugePageSize.pages] at hin
      omega

theorem new_avoids {memorySize kernelSize : Int32} {enabled : Bool} {nr2mb nr1gb : UInt64}
    (h : PoolClear memorySize kernelSize enabled nr2mb nr1gb) :
    (new enabled nr2mb nr1gb).Avoids (Buddy.pagesIn kernelSize) (Buddy.pagesIn memorySize) := by
  intro size info hinfo p hp
  cases enabled with
  | false => simp [new] at hinfo
  | true =>
    obtain ⟨hfit,hclear⟩:=h rfl
    have := initializePool_spec hfit size info hinfo p hp
    omega

end HugeTlbfs

namespace PhysicalMemory

/-- The pool keeps off the pages in `[lo, hi)`, which the buddy allocator's free blocks and
the blocks it handed out make up. -/
structure Split (lo hi : ℕ) (m : PhysicalMemory) : Prop where
  avoids : m.hugetlbfs.Avoids lo hi
  wellFormed : m.ledger.buddy.WellFormed
  cells : m.ledger.buddy.freeCells+cells m.ledger.handedOut=Multiset.Ico lo hi

theorem Split.noCollision {lo hi : ℕ} {m : PhysicalMemory} (h : m.Split lo hi) : m.NoCollision := by
  intro size info hinfo _ b hb p hp hpb
  have hcell : p∈IntervalTilings.cells m.ledger.handedOut := IntervalTilings.mem_cells.mpr ⟨b,hb,hpb⟩
  have hin : p∈Multiset.Ico lo hi := h.cells ▸ Multiset.mem_add.mpr (.inr hcell)
  exact h.avoids size info hinfo p hp (Multiset.mem_Ico.mp hin)

theorem Split.takes {lo hi : ℕ} {m : PhysicalMemory} {s : Buddy} {l : List Interval}
    (h : m.Split lo hi) (ht : m.ledger.buddy.Takes s (IntervalTilings.cells l)) :
    Split lo hi {m with ledger:=⟨s,l++m.ledger.handedOut⟩} := by
  refine ⟨h.avoids,ht.wellFormed,?_⟩
  rw [cells_append,← add_assoc,← ht.cells]
  exact h.cells

theorem step_split {gen : Buddy.Generator} {lo hi : ℕ} {m m' : PhysicalMemory} {c : MemoryCall}
    (h : m.Split lo hi) (he : m.step gen c = .ok m') : m'.Split lo hi := by
  cases c with
  | allocateHugePage appId vaddr size =>
    cases he
    exact ⟨h.avoids.allocateHugePage appId vaddr size,h.wellFormed,h.cells⟩
  | deallocateHugePage basePpn size =>
    cases he
    exact ⟨h.avoids.deallocateHugePage basePpn size,h.wellFormed,h.cells⟩
  | allocate bytes =>
    obtain ⟨l,hl,he⟩:=bind_ok he
    cases he
    obtain ⟨⟨r,s⟩,ha,hl⟩:=bind_ok hl
    cases hl
    rcases Buddy.allocate_cases h.wellFormed ha with ⟨p,rfl,ht⟩ | ⟨rfl,rfl,-⟩
    · have hspan : (Ledger.servedBlock bytes p).Spans (2^Buddy.orderOf bytes) :=
        Interval.spans_mk (Nat.two_pow_pos _)
      have hblock : IntervalTilings.cells [Ledger.servedBlock bytes p] =
          Multiset.Ico p (p+2^Buddy.orderOf bytes) := by
        rw [cells_cons,cells_nil,add_zero,hspan.cells_eq,Ledger.servedBlock]
      exact h.takes (hblock ▸ ht)
    · exact h
  | reserve2mbPage =>
    obtain ⟨l,hl,he⟩:=bind_ok he
    cases he
    obtain ⟨⟨r,s⟩,ha,hl⟩:=bind_ok hl
    cases hl
    rcases Buddy.reserve2mbPage_cases h.wellFormed ha with ⟨b,rfl,hspan,-,ht⟩ | ⟨rfl,rfl,-⟩
    · have hblock : IntervalTilings.cells [b]=Multiset.Ico b.first (b.first+512) := by
        rw [cells_cons,cells_nil,add_zero,hspan.cells_eq]
      exact h.takes (hblock ▸ ht)
    · exact h

/-- Where the pool is clear of the buddy allocator's range, no interleaving of calls puts
a page both in a huge page in use and in a block handed out. -/
theorem noCollision_of_poolClear (gen : Buddy.Generator) {memorySize kernelSize : Int32} {maxOrder : ℕ}
    {fragType : String} {enabled : Bool} {nr2mb nr1gb : UInt64} {s : Buddy} {calls : List MemoryCall}
    {m : PhysicalMemory} (hnew : Buddy.new memorySize maxOrder kernelSize fragType = .ok s)
    (hclear : PoolClear memorySize kernelSize enabled nr2mb nr1gb)
    (hrun : run (step gen) ⟨HugeTlbfs.new enabled nr2mb nr1gb,⟨s,[]⟩⟩ calls = .ok m) : m.NoCollision := by
  obtain ⟨-,hwf,hcells⟩:=Buddy.new_ok hnew
  have hstart : Split (Buddy.pagesIn kernelSize) (Buddy.pagesIn memorySize)
      ⟨HugeTlbfs.new enabled nr2mb nr1gb,⟨s,[]⟩⟩ :=
    ⟨HugeTlbfs.new_avoids hclear,hwf,by simpa using hcells⟩
  exact (run_invariant (G:=fun _ _ => True) (fun _ _ _ h _ he => step_split h he) hstart
    (along_of_forall (fun _ _ => trivial) _ _) hrun).noCollision

/-- With 4MB of memory the first page of the pool and the first reservation are apart. -/
theorem noCollision_small_memory : ∃s,Buddy.new 4 9 2 "largepage" = .ok s ∧
    ∃m,run (step lowGenerator) ⟨HugeTlbfs.new true 1 0,⟨s,[]⟩⟩
      [.allocateHugePage 0 0 .size2mb,.reserve2mbPage] = .ok m ∧
    ((m.hugetlbfs.pool .size2mb).map (·.inUse)=[true] ∧ m.ledger.handedOut=[⟨512,1023⟩]) ∧
    m.NoCollision := by
  have hclear : PoolClear 4 2 true 1 0 := fun _ => by decide +kernel
  exact exists_ok_ok_and (P:=fun _ _ => True) (by decide +kernel)
    fun s m hs hm _ => noCollision_of_poolClear lowGenerator hs hclear hm

/-- With more than 4GB of memory the pool's first page and the buddy allocator's first
reservation are the same 2MB. -/
theorem collision_above_4gb : ∃s,Buddy.new 4098 9 4096 "largepage" = .ok s ∧
    ∃m,run (step lowGenerator) ⟨HugeTlbfs.new true 1 0,⟨s,[]⟩⟩
      [.allocateHugePage 0 0 .size2mb,.reserve2mbPage] = .ok m ∧ ¬ m.NoCollision :=
  exists_ok_ok (P:=fun _ m => ⟨0x100000,0,0,.size2mb,true⟩∈m.hugetlbfs.pool .size2mb ∧
    ⟨0x100000,0x1001ff⟩∈m.ledger.handedOut) (by decide +kernel)
    fun _ _ _ _ h hno => hno .size2mb _ h.1 rfl _ h.2 0x100000 (by decide +kernel) (by decide)

end PhysicalMemory

end Sniper.HugePages
