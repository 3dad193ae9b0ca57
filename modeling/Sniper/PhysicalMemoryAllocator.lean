import Sniper.BuddyAllocator

/-!
# The base class and the baseline allocator

`physical_memory_allocator.h` takes page-table frames upwards from the second page of memory, and
pages of instructions upwards from the end of the kernel.
-/

namespace Sniper.PhysicalMemory
open BuddyAllocator FallibleRuns

structure PhysicalMemoryAllocator where
  kernelStartAddress : UInt64
  kernelEndAddress : UInt64
  instructionCurrentAddress : UInt64
  instructionEndAddress : UInt64

namespace PhysicalMemoryAllocator

/-- The first 4KB page is left to the roots of the page tables; 100MB after the kernel
are set aside for instructions. -/
def new (kernelSize : Int32) : PhysicalMemoryAllocator :=
  let kernelEnd := toWord kernelSize*1024*1024
  ⟨4096,kernelEnd,kernelEnd,kernelEnd+100*1024*1024⟩

variable (s : PhysicalMemoryAllocator)

/-- The page number of the next page-table frame. Nothing is compared with the end of the
kernel. -/
def handlePageTableAllocations (bytes : UInt64) : UInt64 × PhysicalMemoryAllocator :=
  (s.kernelStartAddress / 4096,{s with kernelStartAddress:=s.kernelStartAddress+bytes})

def handlePageTableDeallocations (bytes : UInt64) : PhysicalMemoryAllocator :=
  {s with kernelStartAddress:=s.kernelStartAddress - bytes}

/-- The next page of the instruction area, `none` once the area is used up. -/
def allocateInstruction (size : UInt64) : Option UInt64 × PhysicalMemoryAllocator :=
  if s.instructionCurrentAddress+size > s.instructionEndAddress then (none,s)
  else (some (s.instructionCurrentAddress / 4096),
    {s with instructionCurrentAddress:=s.instructionCurrentAddress+size})

end PhysicalMemoryAllocator

/-- A call of `allocate`. -/
structure Request where
  size : ℕ
  address : ℕ
  isPagetableAllocation : Bool := false
  isInstructionAllocation : Bool := false

/-- The pair returned by `allocate`; `none` stands for the page number `-1`. -/
structure Allocation where
  ppn : Option ℕ
  pageSize : ℕ

structure BaselineAllocator extends PhysicalMemoryAllocator where
  buddy : Buddy
  totalAllocations : ℕ

namespace BaselineAllocator

def new (memorySize : Int32) (maxOrder : ℕ) (kernelSize : Int32) (fragType : String) :
    Except Abort BaselineAllocator := do
  let buddy ← Buddy.new memorySize maxOrder kernelSize fragType
  .ok ⟨.new kernelSize,buddy,0⟩

/-- `BaselineAllocator::allocate`. Its private `handle_page_table_allocations` hides the
one of the base class and asks the buddy allocator. -/
def allocate (s : BaselineAllocator) (req : Request) : Except Abort (Allocation × BaselineAllocator) :=
  let s := {s with totalAllocations:=s.totalAllocations+1}
  if !req.isPagetableAllocation && req.isInstructionAllocation then
    let (page,base) := s.allocateInstruction (UInt64.ofNat req.size)
    .ok (⟨page.map UInt64.toNat,12⟩,{s with toPhysicalMemoryAllocator:=base})
  else do
    let (page,buddy) ← s.buddy.allocate req.size
    .ok (⟨page,12⟩,{s with buddy})

end BaselineAllocator

end Sniper.PhysicalMemory
