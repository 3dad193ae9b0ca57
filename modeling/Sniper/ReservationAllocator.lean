import Sniper.PhysicalMemoryAllocator

/-!
# The reservation allocator of `reserve_thp.h`

Page numbers are naturals, since none wraps. The threshold is a rational; `count / 512` is exact
as a `float`.
-/

namespace Sniper.PhysicalMemory
open BuddyAllocator FallibleRuns

/-- An entry of `two_mb_map`: the first page of the block, the `bitset<512>` of touched
pages, and the promotion flag. -/
structure Region where
  regionBegin : ℕ
  bits : Finset (Fin 512)
  promoted : Bool

def region2mb (address : ℕ) : ℕ := address / 2^21

def pageIndex (page : ℕ) : Fin 512 := Fin.ofNat 512 page

def offsetIn2mb (address : ℕ) : Fin 512 := pageIndex (address / 2^12)

/-- Mark a page as used and compare the utilization with the threshold. -/
def Region.touch (threshold : ℚ) (offset : Fin 512) (r : Region) : Region :=
  let bits := insert offset r.bits
  ⟨r.regionBegin,bits,decide (threshold<(bits.card : ℚ) / 512)⟩

structure Stats where
  fourKbAllocated : ℕ := 0
  twoMbReserved : ℕ := 0
  twoMbPromoted : ℕ := 0
  twoMbDemoted : ℕ := 0
  totalAllocations : ℕ := 0

structure ReservationThpAllocator extends PhysicalMemoryAllocator where
  buddy : Buddy
  twoMbMap : AList (fun _ : ℕ => Region)
  thresholdForPromotion : ℚ
  stats : Stats

/-- `std::sort` by ascending utilization. The order of regions of equal utilization is
unspecified, so any sorted permutation may come out. -/
structure UtilizationSort where
  sort : List (ℕ × ℚ) → List (ℕ × ℚ)
  perm : ∀l,(sort l).Perm l
  sorted : ∀l,(sort l).Pairwise fun a b => a.2≤b.2

def UtilizationSort.insertion : UtilizationSort where
  sort l := l.insertionSort fun a b => a.2≤b.2
  perm l := l.perm_insertionSort _
  sorted l := by
    have : Std.Total fun a b : ℕ × ℚ => a.2≤b.2 := ⟨fun a b => le_total a.2 b.2⟩
    have : IsTrans (ℕ × ℚ) fun a b => a.2≤b.2 := ⟨fun _ _ _ => le_trans⟩
    exact l.pairwise_insertionSort _

namespace ReservationThpAllocator

def new (memorySize : Int32) (maxOrder : ℕ) (kernelSize : Int32) (fragType : String) (threshold : ℚ) :
    Except Abort ReservationThpAllocator := do
  let buddy ← Buddy.new memorySize maxOrder kernelSize fragType
  .ok ⟨.new kernelSize,buddy,∅,threshold,{}⟩

section

variable (s : ReservationThpAllocator)

/-- The part of `checkFor2MBAllocation` after the region has been found or created. -/
def useRegion (address : ℕ) (region : Region) : Except Abort ((ℕ × Bool) × ReservationThpAllocator) :=
  if region.promoted then .error .alreadyPromoted
  else
    let region := region.touch s.thresholdForPromotion (offsetIn2mb address)
    let s := {s with twoMbMap:=s.twoMbMap.insert (region2mb address) region}
    if region.promoted then
      .ok ((region.regionBegin,true),{s with stats:={s.stats with twoMbPromoted:=s.stats.twoMbPromoted+1}})
    else .ok ((region.regionBegin+offsetIn2mb address,false),s)

def checkFor2mbAllocation (address : ℕ) : Except Abort (Option (ℕ × Bool) × ReservationThpAllocator) :=
  match s.twoMbMap.lookup (region2mb address) with
  | some region => do
    let (page,s) ← s.useRegion address region
    .ok (some page,s)
  | none => do
    let (reserved,buddy) ← s.buddy.reserve2mbPage
    let s := {s with buddy}
    match reserved with
    | none => .ok (none,s)
    | some block => do
      let region := ⟨block.first,∅,false⟩
      let (page,s) ← useRegion
        { s with
          twoMbMap := s.twoMbMap.insert (region2mb address) region
          stats := {s.stats with twoMbReserved:=s.stats.twoMbReserved+1} } address region
      .ok (some page,s)

/-- The regions that are not promoted, with the fraction of their pages in use. -/
def utilization : List (ℕ × ℚ) :=
  (s.twoMbMap.entries.filter fun e => !e.2.promoted).map fun e =>
    (e.1,(e.2.bits.card : ℚ) / 512)

end

variable (order : UtilizationSort) (s : ReservationThpAllocator)

def victim : Option (ℕ × Region) :=
  (order.sort s.utilization).head?.bind fun u =>
    (s.twoMbMap.lookup u.1).map fun region => (u.1,region)

/-- The loop over the 512 pages of the region: for each page `j` that is not in use the
range from `j` to `j + 1` goes back to the buddy allocator. -/
def freeUnused (region : Region) (buddy : Buddy) : Except Abort Buddy :=
  (List.finRange 512).foldlM (fun (b : Buddy) (j : Fin 512) =>
    if j∈region.bits then .ok b
    else b.free (region.regionBegin+j) (region.regionBegin+(j+1))) buddy

def demotePage : Except Abort (Bool × ReservationThpAllocator) :=
  match s.victim order with
  | none => .ok (false,s)
  | some (r,region) => do
    let buddy ← freeUnused region s.buddy
    .ok (true,{ s with
      buddy
      twoMbMap := s.twoMbMap.erase r
      stats := {s.stats with twoMbDemoted:=s.stats.twoMbDemoted+1} })

def countAllocation : ReservationThpAllocator :=
  {s with stats:={s.stats with totalAllocations:=s.stats.totalAllocations+1}}

def count4kb : ReservationThpAllocator :=
  {s with stats:={s.stats with fourKbAllocated:=s.stats.fourKbAllocated+1}}

def allocateFromBuddy (size : ℕ) : Except Abort (Option ℕ × ReservationThpAllocator) := do
  let (page,buddy) ← s.buddy.allocate size
  .ok (page,{s with buddy})

/-- `ReservationTHPAllocator::allocate`. Instruction requests take the same path as data. -/
def allocate (req : Request) : Except Abort (Allocation × ReservationThpAllocator) := do
  let s := s.countAllocation
  if req.isPagetableAllocation then
    let (page,s) ← s.allocateFromBuddy req.size
    .ok (⟨page,12⟩,s.count4kb)
  else
    let (page2mb,s) ← s.checkFor2mbAllocation req.address
    match page2mb with
    | some (page,promoted) => .ok (⟨some page,if promoted then 21 else 12⟩,s)
    | none =>
      let (fallback,s) ← s.allocateFromBuddy req.size
      match fallback with
      | some page => .ok (⟨some page,12⟩,s.count4kb)
      | none =>
        let (demoted,s) ← s.demotePage order
        if demoted then
          let (retried,s) ← s.allocateFromBuddy req.size
          .ok (⟨retried,12⟩,s.count4kb)
        else .error .nothingToDemote

end ReservationThpAllocator

end Sniper.PhysicalMemory
