import Sniper.ReservationSteps

/-!
# The NUMA allocators of `numa_buddy_allocator.h` and `numa_reserve_thp.h`

Page numbers are naturals, for memories of fewer than `2 ^ 64` pages. Counters that nothing reads,
the page hints and the speculation counters are left out.
-/

namespace Sniper.PhysicalMemory
open BuddyAllocator FallibleRuns IntervalTilings

structure NodeBuddy where
  buddy : Buddy
  basePfn : ℕ
  numPages : ℕ
  kernelPages : ℕ

structure NumaBuddyAllocator where
  nodes : List NodeBuddy

def withBuddy (nodes : List NodeBuddy) (k : ℕ) (b : Buddy) : List NodeBuddy :=
  nodes.modify k fun nd => {nd with buddy := b}

namespace NumaBuddyAllocator

def toInt (x : UInt64) : Int32 := x.toUInt32.toInt32

def pages (mb : UInt64) : ℕ := (mb*1024 / 4).toNat

/-- The loop of the constructor over the capacities and kernel sizes of the nodes. -/
def buildNodes (maxOrder : ℕ) (fragType : String) : ℕ → List (UInt64 × UInt64) → Except Abort (List NodeBuddy)
  | _,[] => .ok []
  | currentPfn,(memMb,kernelMb)::rest => do
    let buddy ← Buddy.new (toInt memMb) maxOrder (toInt kernelMb) fragType
    let nodes ← buildNodes maxOrder fragType (currentPfn+pages memMb) rest
    .ok (⟨buddy,currentPfn,pages memMb,pages kernelMb⟩::nodes)

/-- The constructor, without a global kernel area in front of the nodes. -/
def new (numNodes : ℕ) (perNodeMemMb perNodeKernelMb : List UInt64) (maxOrder : ℕ) (fragType : String) :
    Except Abort NumaBuddyAllocator :=
  if numNodes=0 ∨ perNodeMemMb.length<numNodes ∨ perNodeKernelMb.length<numNodes then
    .error .assertion
  else do
    let nodes ← buildNodes maxOrder fragType 0
      ((perNodeMemMb.zip perNodeKernelMb).take numNodes)
    .ok ⟨nodes⟩

def setBuddy (s : NumaBuddyAllocator) (node : ℕ) (buddy : Buddy) : NumaBuddyAllocator :=
  ⟨withBuddy s.nodes node buddy⟩

def allocate (s : NumaBuddyAllocator) (node bytes : ℕ) : Except Abort (Option ℕ × NumaBuddyAllocator) :=
  match s.nodes[node]? with
  | none => .ok (none,s)
  | some nd => do
    let (page,buddy) ← nd.buddy.allocate bytes
    .ok (page.map (· + nd.basePfn),s.setBuddy node buddy)

def reserve2mbPage (s : NumaBuddyAllocator) (node : ℕ) : Except Abort (Option Interval × NumaBuddyAllocator) :=
  match s.nodes[node]? with
  | none => .ok (none,s)
  | some nd => do
    let (block,buddy) ← nd.buddy.reserve2mbPage
    .ok (block.map fun b => ⟨b.first+nd.basePfn,b.last+nd.basePfn⟩,s.setBuddy node buddy)

/-- The first node whose pages include the page, and node 0 if there is none. -/
def getNodeForPfn (s : NumaBuddyAllocator) (pfn : ℕ) : ℕ :=
  (s.nodes.findIdx? fun nd =>
    decide (nd.basePfn≤pfn ∧ pfn<nd.basePfn+nd.numPages)).getD 0

def free (s : NumaBuddyAllocator) (first last : ℕ) : Except Abort NumaBuddyAllocator :=
  let node := s.getNodeForPfn first
  match s.nodes[node]? with
  | none => .ok s
  | some nd => do
    let buddy ← nd.buddy.free (first - nd.basePfn) (last - nd.basePfn)
    .ok (s.setBuddy node buddy)

end NumaBuddyAllocator

inductive NumaPolicy where
  | local
  | bind
  | interleave
  | preferred
  deriving DecidableEq

structure NumaPlacementEngine where
  numNodes : ℕ
  policy : NumaPolicy
  utilizationThreshold : ℚ
  capacityBytes : ℕ → ℕ
  usedBytes : ℕ → ℕ
  bindMask : List Bool
  preferredNode : ℕ

namespace NumaPlacementEngine

variable (e : NumaPlacementEngine)

def utilization (node : ℕ) : ℚ :=
  if e.capacityBytes node=0 then 0 else (e.usedBytes node : ℚ) / e.capacityBytes node

/-- The first of the eligible nodes with the least utilization below 1.1, and node 0 if there
is none. -/
def leastUtilized (eligible : ℕ → Bool) : ℕ :=
  ((List.range e.numNodes).foldl (fun (best : ℕ × ℚ) i =>
    if eligible i ∧ e.utilization i<best.2 then (i,e.utilization i) else best) (0,11 / 10)).1

def getLeastUtilizedNode : ℕ := e.leastUtilized fun _ => true

def selectAllocationNode (vpn cpuLocalNode : ℕ) : ℕ :=
  match e.policy with
  | .local =>
    if cpuLocalNode<e.numNodes ∧ e.utilization cpuLocalNode<e.utilizationThreshold then
      cpuLocalNode
    else e.getLeastUtilizedNode
  | .bind => e.leastUtilized fun i => e.bindMask.getD i false
  | .interleave => vpn % e.numNodes
  | .preferred =>
    if e.preferredNode<e.numNodes ∧ e.utilization e.preferredNode<e.utilizationThreshold then
      e.preferredNode
    else e.getLeastUtilizedNode

def recordAllocation (node bytes : ℕ) : NumaPlacementEngine :=
  if node<e.numNodes then
    {e with usedBytes:=Function.update e.usedBytes node (e.usedBytes node+bytes)}
  else e

end NumaPlacementEngine

/-- A call of `allocate`; no core stands for the core number `-1`. -/
structure NumaRequest where
  size : ℕ
  address : ℕ
  coreId : Option ℕ

structure NumaReservationThpAllocator where
  numa : NumaBuddyAllocator
  maps : ℕ → AList (fun _ : ℕ => Region)
  thresholdForPromotion : ℚ
  engine : NumaPlacementEngine
  applicationCores : ℕ

namespace NumaReservationThpAllocator

/-- The constructor, with the bind mask and the preferred node as `init` leaves them. -/
def new (numNodes : ℕ) (perNodeMemMb perNodeKernelMb : List UInt64) (maxOrder : ℕ) (fragType : String)
    (threshold : ℚ) (policy : NumaPolicy) (utilizationThreshold : ℚ) (applicationCores : ℕ) :
    Except Abort NumaReservationThpAllocator := do
  let numa ← NumaBuddyAllocator.new numNodes perNodeMemMb perNodeKernelMb maxOrder fragType
  let capacity (i : ℕ) : ℕ := ((perNodeMemMb.getD i 0 - perNodeKernelMb.getD i 0)*1024*1024).toNat
  .ok ⟨numa,fun _ => ∅,threshold,
    ⟨numNodes,policy,utilizationThreshold,capacity,fun _ => 0,List.replicate numNodes true,0⟩,applicationCores⟩

section

variable (s : NumaReservationThpAllocator)

def cpuLocalNode (coreId : Option ℕ) : ℕ :=
  match coreId with
  | none => 0
  | some core =>
    if s.numa.nodes.length≤1 then 0
    else min (core / max (s.applicationCores / s.numa.nodes.length) 1) (s.numa.nodes.length - 1)

def setMap (node : ℕ) (m : AList (fun _ : ℕ => Region)) : NumaReservationThpAllocator :=
  {s with maps:=Function.update s.maps node m}

def record (node : ℕ) : NumaReservationThpAllocator := {s with engine:=s.engine.recordAllocation node 4096}

/-- The part of `checkFor2MBAllocationOnNode` after the region has been found or created. -/
def useRegionOnNode (address node : ℕ) (region : Region) :
    Except Abort ((ℕ × Bool) × NumaReservationThpAllocator) :=
  if region.promoted then .error .alreadyPromoted
  else
    let region := region.touch s.thresholdForPromotion (offsetIn2mb address)
    let s := s.setMap node ((s.maps node).insert (region2mb address) region)
    if region.promoted then .ok ((region.regionBegin,true),s)
    else .ok ((region.regionBegin+offsetIn2mb address,false),s)

def checkFor2mbAllocationOnNode (address node : ℕ) :
    Except Abort (Option (ℕ × Bool) × NumaReservationThpAllocator) :=
  if s.numa.nodes.length≤node then .ok (none,s)
  else match (s.maps node).lookup (region2mb address) with
  | some region => do
    let (page,s) ← s.useRegionOnNode address node region
    .ok (some page,s)
  | none => do
    let (reserved,numa) ← s.numa.reserve2mbPage node
    let s := {s with numa}
    match reserved with
    | none => .ok (none,s)
    | some block => do
      let region := ⟨block.first,∅,false⟩
      let (page,s) ← (s.setMap node ((s.maps node).insert (region2mb address) region)).useRegionOnNode
        address node region
      .ok (some page,s)

def allocateOnNode (node size : ℕ) : Except Abort (Option ℕ × NumaReservationThpAllocator) := do
  let (page,numa) ← s.numa.allocate node size
  .ok (page,{s with numa})

end

/-- The regions of a node that are not promoted, with the fraction of their pages in use. -/
def utilizationOnNode (m : AList (fun _ : ℕ => Region)) : List (ℕ × ℚ) :=
  (m.entries.filter fun e => !e.2.promoted).map fun e => (e.1,(e.2.bits.card : ℚ) / 512)

variable (order : UtilizationSort)

def victimOnNode (m : AList (fun _ : ℕ => Region)) : Option (ℕ × Region) :=
  (order.sort (utilizationOnNode m)).head?.bind fun u =>
    (m.lookup u.1).map fun region => (u.1,region)

/-- For each page `j` of the region that is not in use the range from `j` to `j + 1` is freed. -/
def freeUnusedOnNode (region : Region) (numa : NumaBuddyAllocator) : Except Abort NumaBuddyAllocator :=
  (List.finRange 512).foldlM (fun (b : NumaBuddyAllocator) (j : Fin 512) =>
    if j∈region.bits then .ok b
    else b.free (region.regionBegin+j) (region.regionBegin+j+1)) numa

def demotePageOnNode (s : NumaReservationThpAllocator) (node : ℕ) :
    Except Abort (Bool × NumaReservationThpAllocator) :=
  if s.numa.nodes.length≤node then .ok (false,s)
  else match victimOnNode order (s.maps node) with
  | none => .ok (false,s)
  | some (r,region) => do
    let numa ← freeUnusedOnNode region s.numa
    .ok (true,{s with numa}.setMap node ((s.maps node).erase r))

def spill (req : NumaRequest) : List ℕ → NumaReservationThpAllocator →
    Except Abort (Allocation × NumaReservationThpAllocator)
  | [],_ => .error .assertion
  | n::ns,s => do
    let (page2mb,s) ← s.checkFor2mbAllocationOnNode req.address n
    match page2mb with
    | some (page,promoted) => .ok (⟨some page,if promoted then 21 else 12⟩,s.record n)
    | none =>
      let (page,s) ← s.allocateOnNode n req.size
      match page with
      | some page => .ok (⟨some page,12⟩,s.record n)
      | none => spill req ns s

variable (s : NumaReservationThpAllocator) (req : NumaRequest)

/-- `allocate` after the placement engine has chosen a node. -/
def allocateFrom (target : ℕ) : Except Abort (Allocation × NumaReservationThpAllocator) := do
  let others := (List.range s.numa.nodes.length).filter fun n => n≠target
  let (page2mb,s) ← s.checkFor2mbAllocationOnNode req.address target
  match page2mb with
  | some (page,promoted) => .ok (⟨some page,if promoted then 21 else 12⟩,s.record target)
  | none =>
    let (fallback,s) ← s.allocateOnNode target req.size
    match fallback with
    | some page => .ok (⟨some page,12⟩,s.record target)
    | none =>
      let (demoted,s) ← s.demotePageOnNode order target
      if demoted then
        let (retried,s) ← s.allocateOnNode target req.size
        match retried with
        | some page => .ok (⟨some page,12⟩,s.record target)
        | none => spill req others s
      else spill req others s

def target : ℕ := s.engine.selectAllocationNode (req.address / 2^12) (s.cpuLocalNode req.coreId)

def allocate : Except Abort (Allocation × NumaReservationThpAllocator) :=
  s.allocateFrom order req (s.target req)

def getNumaNodeForPpn (ppn : ℕ) : ℕ := s.numa.getNodeForPfn ppn

end NumaReservationThpAllocator

end Sniper.PhysicalMemory
