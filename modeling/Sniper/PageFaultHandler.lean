import Sniper.ReservationAllocator
import Sniper.RadixPageTable

/-!
# The handling of a page fault

`SniperExceptionHandler::handle_page_fault` holds a lock from beginning to end, so one call is
one step.
-/

namespace Sniper.PhysicalMemory
open BuddyAllocator FallibleRuns

namespace ReservationThpAllocator

variable {s s' : ReservationThpAllocator}

theorem allocateFromBuddy_base {size : ℕ} {page : Option ℕ} (h : s.allocateFromBuddy size = .ok (page,s')) :
    s'.toPhysicalMemoryAllocator=s.toPhysicalMemoryAllocator := by
  obtain ⟨⟨_,buddy⟩,-,h⟩:=bind_ok h
  cases h
  rfl

theorem useRegion_base {address : ℕ} {region : Region} {page : ℕ × Bool}
    (h : s.useRegion address region = .ok (page,s')) :
    s'.toPhysicalMemoryAllocator=s.toPhysicalMemoryAllocator := by
  simp only [useRegion] at h
  split_ifs at h
  · cases h
    rfl
  · cases h
    rfl

theorem checkFor2mbAllocation_base {address : ℕ} {page : Option (ℕ × Bool)}
    (h : s.checkFor2mbAllocation address = .ok (page,s')) :
    s'.toPhysicalMemoryAllocator=s.toPhysicalMemoryAllocator := by
  rw [checkFor2mbAllocation] at h
  cases hlook : s.twoMbMap.lookup (region2mb address) with
  | some region =>
    rw [hlook] at h
    obtain ⟨⟨_,_⟩,huse,h⟩:=bind_ok h
    cases h
    exact useRegion_base huse
  | none =>
    rw [hlook] at h
    obtain ⟨⟨reserved,buddy⟩,-,h⟩:=bind_ok h
    cases reserved with
    | none =>
      cases h
      rfl
    | some block =>
      obtain ⟨⟨_,_⟩,huse,h⟩:=bind_ok h
      cases h
      exact (useRegion_base huse).trans rfl

theorem demotePage_base {order : UtilizationSort} {demoted : Bool}
    (h : s.demotePage order = .ok (demoted,s')) : s'.toPhysicalMemoryAllocator=s.toPhysicalMemoryAllocator := by
  rw [demotePage] at h
  cases hvictim : s.victim order with
  | none =>
    rw [hvictim] at h
    cases h
    rfl
  | some victim =>
    rw [hvictim] at h
    obtain ⟨buddy,-,h⟩:=bind_ok h
    cases h
    rfl

theorem allocate_base {order : UtilizationSort} {req : Request} {a : Allocation}
    (h : s.allocate order req = .ok (a,s')) : s'.toPhysicalMemoryAllocator=s.toPhysicalMemoryAllocator := by
  rw [allocate] at h
  split_ifs at h with hreq
  · obtain ⟨⟨_,_⟩,halloc,h⟩:=bind_ok h
    cases h
    exact (allocateFromBuddy_base halloc).trans rfl
  · obtain ⟨⟨page,s₁⟩,hcheck,h⟩:=bind_ok h
    have hbase := checkFor2mbAllocation_base hcheck
    cases page with
    | some page =>
      cases h
      exact hbase
    | none =>
      obtain ⟨⟨fallback,s₂⟩,halloc,h⟩:=bind_ok h
      have hbase₂ := (allocateFromBuddy_base halloc).trans hbase
      cases fallback with
      | some page =>
        cases h
        exact hbase₂
      | none =>
        obtain ⟨⟨demoted,s₃⟩,hdemote,h⟩:=bind_ok h
        have hbase₃ := (demotePage_base hdemote).trans hbase₂
        cases demoted with
        | false => cases h
        | true =>
          obtain ⟨⟨_,s₄⟩,halloc,h⟩:=bind_ok h
          cases h
          exact (allocateFromBuddy_base halloc).trans hbase₃

end ReservationThpAllocator

/-- The page number as the 64-bit word that is written into the page table. -/
def Allocation.ppnWord (a : Allocation) : ℕ := a.ppn.getD invalidWord

/-- What the callers use of a class derived from `PhysicalMemoryAllocator`: the pointers of
the base class and the virtual `allocate`, which moves none of the pointers but for
requests that it passes on to `allocateInstruction`. -/
structure AllocatorInterface (σ : Type) where
  base : σ → PhysicalMemoryAllocator
  withBase : σ → PhysicalMemoryAllocator → σ
  usesInstructionArea : Request → Bool
  allocate : σ → Request → Except Abort (Allocation × σ)
  base_withBase : ∀s b,base (withBase s b)=b
  base_allocate : ∀s req a s',allocate s req = .ok (a,s') → base s' =
    if usesInstructionArea req then ((base s).allocateInstruction (UInt64.ofNat req.size)).2
    else base s
  allocate_instruction : ∀s req a s',allocate s req = .ok (a,s') →
    usesInstructionArea req=true → a =
      ⟨((base s).allocateInstruction (UInt64.ofNat req.size)).1.map UInt64.toNat,12⟩

theorem AllocatorInterface.kernel_allocate {σ : Type} (A : AllocatorInterface σ) {s s' : σ} {req : Request}
    {a : Allocation} (h : A.allocate s req = .ok (a,s')) :
    (A.base s').kernelStartAddress=(A.base s).kernelStartAddress ∧
      (A.base s').kernelEndAddress=(A.base s).kernelEndAddress := by
  rw [A.base_allocate _ _ _ _ h]
  split_ifs
  · rw [PhysicalMemoryAllocator.allocateInstruction]
    split_ifs
    · exact ⟨rfl,rfl⟩
    · exact ⟨rfl,rfl⟩
  · exact ⟨rfl,rfl⟩

namespace BaselineAllocator

def usesInstructionArea (req : Request) : Bool := !req.isPagetableAllocation && req.isInstructionAllocation

theorem allocate_of_instruction {s : BaselineAllocator} {req : Request}
    (h : usesInstructionArea req=true) : s.allocate req =
      .ok (⟨(s.allocateInstruction (UInt64.ofNat req.size)).1.map UInt64.toNat,12⟩,
        { s with
          toPhysicalMemoryAllocator := (s.allocateInstruction (UInt64.ofNat req.size)).2
          totalAllocations := s.totalAllocations+1 }) :=
  if_pos h

theorem allocate_of_data {s s' : BaselineAllocator} {req : Request} {a : Allocation}
    (h : usesInstructionArea req=false) (he : s.allocate req = .ok (a,s')) :
    ∃page,s.buddy.allocate req.size = .ok (page,s'.buddy) ∧ a=⟨page,12⟩ ∧
      s'.toPhysicalMemoryAllocator=s.toPhysicalMemoryAllocator := by
  have hdata : ¬ (!req.isPagetableAllocation && req.isInstructionAllocation)=true := by
    rw [Bool.not_eq_true]
    exact h
  rw [allocate,if_neg hdata] at he
  obtain ⟨⟨page,buddy⟩,halloc,he⟩:=bind_ok he
  cases he
  exact ⟨page,halloc,rfl,rfl⟩

def interface : AllocatorInterface BaselineAllocator where
  base s := s.toPhysicalMemoryAllocator
  withBase s base := {s with toPhysicalMemoryAllocator:=base}
  usesInstructionArea := usesInstructionArea
  allocate := allocate
  base_withBase _ _ := rfl
  base_allocate s req a s' he := by
    cases h : usesInstructionArea req with
    | true =>
      rw [allocate_of_instruction h] at he
      cases he
      rfl
    | false =>
      obtain ⟨_,-,-,hbase⟩:=allocate_of_data h he
      exact hbase
  allocate_instruction s req a s' he h := by
    rw [allocate_of_instruction h] at he
    cases he
    rfl

end BaselineAllocator

/-- Instructions take the same path as data. -/
def ReservationThpAllocator.interface (order : UtilizationSort) :
    AllocatorInterface ReservationThpAllocator where
  base s := s.toPhysicalMemoryAllocator
  withBase s base := {s with toPhysicalMemoryAllocator:=base}
  usesInstructionArea _ := false
  allocate := ReservationThpAllocator.allocate order
  base_withBase _ _ := rfl
  base_allocate _ _ _ _ he := ReservationThpAllocator.allocate_base he
  allocate_instruction _ _ _ _ _ h := nomatch h

end Sniper.PhysicalMemory

namespace Sniper.PageFaults
open FallibleRuns PhysicalMemory RadixPageTable

/-- The inputs of a `FaultCtx`. -/
structure FaultCtx where
  vpn : ℕ
  metadataFrames : ℕ
  isInstruction : Bool
deriving DecidableEq

def initFaultCtx (address requestedFrames : ℕ) (isInstruction : Bool) : FaultCtx :=
  ⟨address / 2^12,requestedFrames,isInstruction⟩

def FaultCtx.address (ctx : FaultCtx) : ℕ := ctx.vpn*2^12

def FaultCtx.request (ctx : FaultCtx) : Request where
  size := 4096
  address := ctx.address
  isInstructionAllocation := ctx.isInstruction

/-- Frames for the page table, one 4KB step of the pointer each. -/
def takeFrames : ℕ → PhysicalMemoryAllocator → Except Abort (List UInt64 × PhysicalMemoryAllocator)
  | 0,base => .ok ([],base)
  | n+1,base => do
    let (frame,base) := base.handlePageTableAllocations 4096
    if frame = -1 then .error .assertion
    else
      let (frames,base) ← takeFrames n base
      .ok (frame::frames,base)

def giveBackFrames : ℕ → PhysicalMemoryAllocator → PhysicalMemoryAllocator
  | 0,base => base
  | n+1,base => giveBackFrames n (base.handlePageTableDeallocations 4096)

/-- What a handled fault leaves behind for the caller and, last, the number of frames that
the page table used. -/
structure FaultOutcome where
  allocation : Allocation
  preallocFrames : List UInt64
  framesUsed : ℕ

/-- `allocate_page_table_frames`: take the frames asked for, update the page table and give
the unused frames back. -/
def allocatePageTableFrames (ctx : FaultCtx) (a : Allocation) (base : PhysicalMemoryAllocator)
    (table : PageTableRadix) : Except Abort (FaultOutcome × PhysicalMemoryAllocator × PageTableRadix) := do
  let (frames,base) ← takeFrames ctx.metadataFrames base
  let (used,table) ← table.updatePageTableFrames ctx.address a.ppnWord a.pageSize
    (frames.map UInt64.toNat)
  .ok (⟨a,frames,used⟩,giveBackFrames (ctx.metadataFrames - used) base,table)

def handlePageFault {σ : Type} (A : AllocatorInterface σ) (ctx : FaultCtx) (s : σ) (table : PageTableRadix) :
    Except Abort (FaultOutcome × σ × PageTableRadix) := do
  let (a,s) ← A.allocate s ctx.request
  let (out,base,table) ← allocatePageTableFrames ctx a (A.base s) table
  .ok (out,A.withBase s base,table)

theorem page_ne_invalid (address : UInt64) : ¬ address / 4096 = -1 := by
  intro heq
  have hlt : (address / 4096).toNat<2^52 := by
    have := address.toNat_lt
    rw [UInt64.toNat_div]
    change address.toNat / 4096<2^52
    omega
  rw [heq] at hlt
  exact absurd hlt (by decide)

theorem takeFrames_total (n : ℕ) (base : PhysicalMemoryAllocator) :
    ∃frames start,takeFrames n base = .ok (frames,{base with kernelStartAddress:=start}) ∧
      frames.length=n := by
  induction n generalizing base with
  | zero => exact ⟨[],base.kernelStartAddress,rfl,rfl⟩
  | succ n ih =>
    have hframe := page_ne_invalid base.kernelStartAddress
    obtain ⟨frames,start,htake,hlen⟩:=ih {base with kernelStartAddress:=base.kernelStartAddress+4096}
    refine ⟨base.kernelStartAddress / 4096::frames,start,?_,?_⟩
    · simp only [takeFrames,PhysicalMemoryAllocator.handlePageTableAllocations,hframe,↓reduceIte,htake,
        ok_bind]
    · rw [List.length_cons,hlen]

variable {base : PhysicalMemoryAllocator} {n : ℕ}

theorem takeFrames_ok {base' : PhysicalMemoryAllocator} {frames : List UInt64}
    (h : takeFrames n base = .ok (frames,base')) :
    frames.length=n ∧ base'={base with kernelStartAddress:=base'.kernelStartAddress} := by
  obtain ⟨frames₁,start,htake,hlen⟩:=takeFrames_total n base
  cases h.symm.trans htake
  exact ⟨hlen,rfl⟩

theorem takeFrames_consecutive {m : ℕ} {base' : PhysicalMemoryAllocator} {frames : List UInt64}
    (h : takeFrames n base = .ok (frames,base')) (hstart : base.kernelStartAddress.toNat=4096*m)
    (hbound : 4096*(m+n)<2^64) : frames.map UInt64.toNat=List.range' m n ∧
      base'.kernelStartAddress.toNat=4096*(m+n) := by
  induction n generalizing base frames m with
  | zero =>
    cases h
    exact ⟨rfl,hstart⟩
  | succ n ih =>
    simp only [takeFrames,PhysicalMemoryAllocator.handlePageTableAllocations,page_ne_invalid,↓reduceIte] at h
    obtain ⟨⟨frames₁,base₁⟩,htake,h⟩:=bind_ok h
    cases h
    have hnext : (base.kernelStartAddress+4096).toNat=4096*(m+1) := by
      rw [UInt64.toNat_add,hstart]
      change (4096*m+4096) % 2^64=_
      omega
    obtain ⟨hframes,hend⟩:=ih htake hnext (by omega)
    have hframe : (base.kernelStartAddress / 4096).toNat=m := by
      rw [UInt64.toNat_div,hstart]
      exact Nat.mul_div_cancel_left m (by decide)
    refine ⟨?_,?_⟩
    · rw [List.map_cons,hframe,hframes,List.range'_succ]
    · rw [hend]
      omega

theorem giveBackFrames_kernelEnd (n : ℕ) (base : PhysicalMemoryAllocator) :
    (giveBackFrames n base).kernelEndAddress=base.kernelEndAddress := by
  induction n generalizing base with
  | zero => rfl
  | succ n ih => exact ih _

theorem giveBackFrames_kernelStart {m : ℕ} (h : base.kernelStartAddress.toNat=4096*(m+n)) :
    (giveBackFrames n base).kernelStartAddress.toNat=4096*m := by
  induction n generalizing base with
  | zero => exact h
  | succ n ih =>
    refine ih ?_
    have hle : (4096 : UInt64)≤base.kernelStartAddress := by
      rw [UInt64.le_iff_toNat_le,h]
      change 4096≤_
      omega
    change (base.kernelStartAddress - 4096).toNat=_
    rw [UInt64.toNat_sub_of_le _ _ hle,h]
    change 4096*(m+(n+1)) - 4096=_
    omega

/-- The four stages of a handled fault. -/
theorem handlePageFault_ok {σ : Type} {A : AllocatorInterface σ} {ctx : FaultCtx} {s s' : σ}
    {table table' : PageTableRadix} {out : FaultOutcome}
    (h : handlePageFault A ctx s table = .ok (out,s',table')) :
    ∃s₁ base₁,A.allocate s ctx.request = .ok (out.allocation,s₁) ∧
      takeFrames ctx.metadataFrames (A.base s₁) = .ok (out.preallocFrames,base₁) ∧
      table.updatePageTableFrames ctx.address out.allocation.ppnWord out.allocation.pageSize
        (out.preallocFrames.map UInt64.toNat) = .ok (out.framesUsed,table') ∧
      s'=A.withBase s₁ (giveBackFrames (ctx.metadataFrames - out.framesUsed) base₁) := by
  obtain ⟨⟨a,s₁⟩,halloc,h⟩:=bind_ok h
  obtain ⟨⟨out₁,base₂,table₁⟩,hframes,h⟩:=bind_ok h
  cases h
  obtain ⟨⟨frames,base₁⟩,htake,hframes⟩:=bind_ok hframes
  obtain ⟨⟨used,table₂⟩,hupdate,hframes⟩:=bind_ok hframes
  cases hframes
  exact ⟨s₁,base₁,halloc,htake,hupdate,rfl⟩

end Sniper.PageFaults
