import Sniper.FallibleRuns
import Sniper.IntervalTilings
import Sniper.MachineValues

/-!
# The buddy allocator of `buddy.h`

A block is a closed range of 4KB page numbers. Page numbers are naturals, since no page
arithmetic wraps; the free page counter wraps in the source and is a `UInt64`. The flag and owner
of a block are never read and are left out.
-/

namespace Sniper.BuddyAllocator
open IntervalTilings

/-- The fragmentation metric chosen by the constructor from `frag_type`. -/
inductive FragFun where
  | getAverageSizeRatio
  | getLargePageRatio
  deriving DecidableEq,Repr

def fragFunOf (fragType : String) : FragFun :=
  if fragType = "contiguity" then .getAverageSizeRatio else .getLargePageRatio

structure Buddy where
  maxOrder : ℕ
  fragFun : FragFun
  totalPages : UInt64
  freePages : UInt64
  freeList : ℕ → List Interval

namespace Buddy

section

variable (s : Buddy)

/-- The constructor resizes `free_list` to `max_order + 1` lists and then appends as
many again. -/
def listCount : ℕ := 2*(s.maxOrder+1)

section

variable (k : ℕ) (l : List Interval)

def setList : Buddy := {s with freeList:=Function.update s.freeList k l}

def pushAll : Buddy := s.setList k (s.freeList k++l)

def push (b : Interval) : Buddy := s.pushAll k [b]

@[simp] theorem setList_maxOrder : (s.setList k l).maxOrder=s.maxOrder := rfl

@[simp] theorem push_maxOrder (b : Interval) : (s.push k b).maxOrder=s.maxOrder := rfl

theorem setList_freeList : (s.setList k l).freeList=Function.update s.freeList k l := rfl

end

/-- 4KB pages in `mb` megabytes, in the wrapping arithmetic of the constructor. -/
def wordPages (mb : Int32) : UInt64 := toWord mb*1024 / 4

def pagesIn (mb : Int32) : ℕ := (wordPages mb).toNat

/-- The constructor's two nested loops. The inner one runs `available / 2 ^ order`
times; the outer one then moves to the next smaller order. -/
def fillLoop (memoryEnd : ℕ) : ℕ → ℕ → ℕ → (ℕ → List Interval) → Except Abort (ℕ → List Interval)
  | order,currentFree,available,lists =>
    if currentFree < memoryEnd then
      let n := available / 2^order
      let lists' := Function.update lists order
        (lists order++chunks currentFree (2^order) n)
      match order with
      | 0 => .error .shiftTooWide
      | k+1 => fillLoop memoryEnd k (currentFree+n*2^(k+1))
          (available - n*2^(k+1)) lists'
    else .ok lists

/-- `Buddy::Buddy`. The first block size is `1ULL << max_order`. -/
def new (memorySize : Int32) (maxOrder : ℕ) (kernelSize : Int32) (fragType : String) : Except Abort Buddy :=
  if 64 ≤ maxOrder then .error .shiftTooWide else do
    let total := wordPages memorySize - wordPages kernelSize
    let lists ← fillLoop (pagesIn memorySize) maxOrder (pagesIn kernelSize) total.toNat
      (fun _ => [])
    .ok ⟨maxOrder,fragFunOf fragType,total,total,lists⟩

/-- The order of the block that serves a request of `bytes` bytes. -/
def orderOf (bytes : ℕ) : ℕ := ceilLog2 (bytes / 4096)

/-- First nonempty free list from order `ind` up to `max_order`. -/
def firstOrder (ind : ℕ) : Option ℕ :=
  (List.range' ind (s.maxOrder+1 - ind)).find? fun i => !(s.freeList i).isEmpty

end

/-- Halve the block from order `ind + n` down to order `ind`: each first half goes to its
free list, each second half is split further. -/
def splitDown (ind : ℕ) : ℕ → Buddy → Interval → Except Abort (Buddy × Interval)
  | 0,s,block => .ok (s,block)
  | n+1,s,block =>
    if Interval.size ⟨block.mid+1,block.last⟩=2^(ind+n) then
      splitDown ind n (s.push (ind+n) ⟨block.first,block.mid⟩) ⟨block.mid+1,block.last⟩
    else .error .assertion

/-- `Buddy::allocate`: the first page of the block, or `none` for the source's `-1`.
The out-of-memory test compares with `max_order + 1` only, so a request beyond that
order reaches `back()` of an empty list. -/
def allocate (s : Buddy) (bytes : ℕ) : Except Abort (Option ℕ × Buddy) :=
  let ind := orderOf bytes
  if bytes / 4096=0 then .error .logOfZero
  else if s.maxOrder+1 < ind then .error .outOfBounds
  else match s.firstOrder ind with
    | none => .ok (none,s)
    | some i =>
      match (s.freeList i).getLast? with
      | none => .error .outOfBounds
      | some block => do
        let (s',block') ← splitDown ind (i - ind) (s.setList i (s.freeList i).dropLast) block
        .ok (some block'.first,{s' with freePages:=s'.freePages - UInt64.ofNat (2^ind)})

def largeOrder : ℕ := 9

/-- `Buddy::reserve_2mb_page`: a block of 512 pages, cut from the smallest larger block
when list 9 is empty. The free page counter is not touched. -/
def reserve2mbPage (s : Buddy) : Except Abort (Option Interval × Buddy) :=
  if s.listCount≤largeOrder then .error .outOfBounds
  else match (s.freeList largeOrder).getLast? with
    | some block => .ok (some block,s.setList largeOrder (s.freeList largeOrder).dropLast)
    | none =>
      match s.firstOrder 10 with
      | none => .ok (none,s)
      | some i =>
        match s.freeList i with
        | [] => .error .outOfBounds
        | temp::rest =>
          let s' := (s.setList i rest).pushAll largeOrder
            (chunks temp.first (2^9) (temp.size / 512))
          match (s'.freeList largeOrder).getLast? with
          | none => .error .outOfBounds
          | some block =>
            .ok (some block,s'.setList largeOrder (s'.freeList largeOrder).dropLast)

/-- Order and index of the first free block that contains the page. -/
def locate (s : Buddy) (page : ℕ) : Option (ℕ × ℕ) :=
  (List.range (s.maxOrder+1)).findSome? fun i =>
    ((s.freeList i).findIdx? fun b => decide (b.Contains page)).map fun j => (i,j)

/-- Isolate one page: at each order the half without the page returns to its free list. -/
def isolate (page : ℕ) : ℕ → Buddy → Interval → Buddy × Interval
  | 0,s,block => (s,block)
  | k+1,s,block =>
    if page≤block.mid then
      isolate page k (s.push k ⟨block.mid+1,block.last⟩) ⟨block.first,block.mid⟩
    else
      isolate page k (s.push k ⟨block.first,block.mid⟩) ⟨block.mid+1,block.last⟩

section

variable (s : Buddy)

def checkIfFree (page : ℕ) (alloc : Bool) : Bool × Buddy :=
  match s.locate page with
  | none => (false,s)
  | some (i,j) =>
    match (s.freeList i)[j]? with
    | none => (false,s)
    | some block =>
      if alloc then
        let s' := (isolate page i (s.setList i ((s.freeList i).eraseIdx j)) block).1
        (true,{s' with freePages:=s'.freePages - 1})
      else (true,s)

def free (first last : ℕ) : Except Abort Buddy :=
  let order := ceilLog2 (last+1 - first)
  if last+1 - first=0 then .error .logOfZero
  else if s.listCount ≤ order then .error .outOfBounds
  else
    let s' := s.push order ⟨first,last⟩
    .ok {s' with freePages:=s'.freePages+UInt64.ofNat (2^order)}

def getFreePages : UInt64 := s.freePages

/-- All free blocks, in the order in which the source's nested loops visit them. -/
def allBlocks : List Interval := (List.range s.listCount).flatMap s.freeList

def largePages (b : Interval) : ℕ := if 512≤b.size then b.size / 512 else 0

def getFreeLargePageCount : ℕ := (s.allBlocks.map largePages).sum

/-- Average of the fifty largest block sizes over `2 ^ (max_order - 3)`, as a rational. -/
def getAverageSizeRatio : ℚ :=
  let top := ((s.allBlocks.map Interval.size).mergeSort (fun a b => decide (b≤a))).take 50
  (if top.length=0 then 0 else (top.sum : ℚ) / top.length) / 2^(s.maxOrder - 3)

/-- `none` stands for the NaN of `0.0 / 0`, which compares false with every target. -/
def getLargePageRatio : Option ℚ :=
  let total := s.totalPages.toNat / 512
  if total=0 ∧ s.getFreeLargePageCount=0 then none
  else some ((s.getFreeLargePageCount : ℚ) / total)

/-- The loop condition `current_fragmentation > target_fragmentation`. -/
def fragmentationExceeds (target : ℚ) : Bool :=
  match s.fragFun with
  | .getAverageSizeRatio => decide (target<s.getAverageSizeRatio)
  | .getLargePageRatio => s.getLargePageRatio.any fun r => decide (target < r)

/-- `std::mt19937 gen(12345)` together with `std::uniform_int_distribution`: a seeded
generator whose draws stay within the requested bounds. -/
structure Generator where
  State : Type
  seed : State
  draw : State → ℕ → ℕ → ℕ × State
  le_draw : ∀g lo hi,lo≤hi → lo≤(draw g lo hi).1
  draw_le : ∀g lo hi,lo≤hi → (draw g lo hi).1≤hi

def topOrder : Option ℕ := (List.range' 9 (s.maxOrder+1 - 9)).reverse.find? fun i => !(s.freeList i).isEmpty

end

/-- One pass of the fragmentation loops: the front block of the highest order is cut into
pieces of a drawn order between 8 and `upper i`. -/
def fragmentStep (gen : Generator) (upper : ℕ → ℕ) (s : Buddy) (g : gen.State) : Option (Buddy × gen.State) :=
  match s.topOrder with
  | none => none
  | some i =>
    match s.freeList i with
    | [] => none
    | temp::rest =>
      let d := gen.draw g 8 (upper i)
      some ((s.setList i rest).pushAll d.1
        (chunks temp.first (2^d.1) (temp.size / 2^d.1)),d.2)

/-- The loop of `fragmentMemory`: a pass that finds nothing to split leaves the state
unchanged and the loop goes on. -/
def fragmentLoop (gen : Generator) (exceeds : Buddy → Bool) : ℕ → Buddy → gen.State → Except Abort Buddy
  | 0,s,_ => if exceeds s then .error .unfinished else .ok s
  | n+1,s,g =>
    if exceeds s then
      match fragmentStep gen (fun i => i - 1) s g with
      | some (s',g') => fragmentLoop gen exceeds n s' g'
      | none => fragmentLoop gen exceeds n s g
    else .ok s

/-- `Buddy::fragmentMemory`, granted `fuel` passes of its loop. The average size is divided by
`1ULL << (m_max_order - 3)`. -/
def fragmentMemory (gen : Generator) (s : Buddy) (target : ℚ) (fuel : ℕ) : Except Abort Buddy :=
  if s.fragFun = .getAverageSizeRatio ∧ s.maxOrder<3 then .error .shiftTooWide
  else fragmentLoop gen (fun s => s.fragmentationExceeds target) fuel s gen.seed

def targetLoop (gen : Generator) (target : ℕ) : ℕ → Buddy → gen.State → Except Abort Buddy
  | 0,s,_ => if target<s.getFreeLargePageCount then .error .unfinished else .ok s
  | n+1,s,g =>
    if target<s.getFreeLargePageCount then
      match fragmentStep gen (fun i => min (i - 1) 8) s g with
      | some (s',g') => targetLoop gen target n s' g'
      | none => .ok s
    else .ok s

/-- `Buddy::fragmentMemoryToTargetCount`. Every pass removes at least one free 2MB page,
so the number of free 2MB pages bounds the number of passes. -/
def fragmentMemoryToTargetCount (gen : Generator) (s : Buddy) (target : ℕ) : Except Abort Buddy :=
  targetLoop gen target s.getFreeLargePageCount s gen.seed

end Buddy

end Sniper.BuddyAllocator
