import Sniper.MeshRouting

/-!
# The broadcast tree of the mesh

The transport delivers the copies in any order.
-/

namespace Sniper.MeshNetwork

/-- `NetworkModel::Hop` without its time; no final destination stands for `BROADCAST`. -/
structure Hop where
  direction : OutputDirection
  finalDest : Option ℤ
  nextDest : ℤ
  deriving DecidableEq,Repr

namespace Mesh

variable (m : Mesh)

/-- `routePacket` for a broadcast with the broadcast tree enabled, on the master of a node. -/
def broadcastHops (sender core : ℤ) : List Hop :=
  let (sx,sy) := m.computePosition sender
  let (cx,cy) := m.computePosition core
  (if cy ≥ sy then [⟨.up,none,m.computeCoreId cx (cy+1)⟩] else []) ++
  (if cy ≤ sy then [⟨.down,none,m.computeCoreId cx (cy - 1)⟩] else []) ++
  if cy=sy then
    (if cx ≥ sx then [⟨.right,none,m.computeCoreId (cx+1) cy⟩] else []) ++
    (if cx ≤ sx then [⟨.left,none,m.computeCoreId (cx - 1) cy⟩] else []) ++
    if cx=sx then [⟨.self,some core,core⟩] else []
  else []

/-- A copy on its way to a core, with the receiver written in it. -/
structure Copy where
  core : ℤ
  receiver : Option ℤ
  deriving DecidableEq,Repr

/-- The copies on their way and, newest first, the cores that have received one. -/
structure Broadcast where
  inFlight : List Copy
  received : List ℤ
  deriving DecidableEq,Repr

def sendBroadcast (sender core : ℤ) : List Copy :=
  (m.broadcastHops sender core).map fun h => ⟨h.nextDest,h.finalDest⟩

def startBroadcast (sender : ℤ) : Broadcast := ⟨m.sendBroadcast sender sender,[]⟩

/-- `netPullFromTransport` for one of the copies: it is forwarded if it is not addressed to
the core itself, and the core receives it. -/
def pull (sender : ℤ) (b : Broadcast) (i : ℕ) : Broadcast :=
  match b.inFlight[i]? with
  | none => b
  | some copy =>
    let rest := b.inFlight.eraseIdx i
    let forwarded := if copy.receiver=some copy.core then [] else m.sendBroadcast sender copy.core
    ⟨rest++forwarded,copy.core::b.received⟩

/-- The broadcast after the copies have arrived in the given order. -/
def forwarding (sender : ℤ) (order : List ℕ) : Broadcast :=
  order.foldl (m.pull sender) (m.startBroadcast sender)

/-- Forwarding ends, and every core of the mesh has received one copy. -/
def BroadcastsOnce (sender : ℤ) : Prop :=
  ∃order,(m.forwarding sender order).inFlight=[] ∧
    ∀core,m.OnMesh core → (m.forwarding sender order).received.count core=1

/-- Some copy is still to be forwarded. -/
def Unfinished (b : Broadcast) : Prop := ∃copy∈b.inFlight,copy.receiver=none

theorem sendBroadcast_forwards (sender core : ℤ) : ∃copy∈m.sendBroadcast sender core,copy.receiver=none := by
  rw [sendBroadcast,broadcastHops]
  rcases le_total (m.computePosition sender).2 (m.computePosition core).2 with hy | hy
  · refine ⟨⟨m.computeCoreId (m.computePosition core).1 ((m.computePosition core).2+1),none⟩,?_,rfl⟩
    simp [hy]
  · refine ⟨⟨m.computeCoreId (m.computePosition core).1 ((m.computePosition core).2 - 1),none⟩,?_,rfl⟩
    simp [hy]

theorem pull_unfinished (sender : ℤ) {b : Broadcast} (h : Unfinished b) (i : ℕ) :
    Unfinished (m.pull sender b i) := by
  obtain ⟨copy,hcopy,hnone⟩:=h
  rw [pull]
  cases hi : b.inFlight[i]? with
  | none => exact ⟨copy,hcopy,hnone⟩
  | some pulled =>
    by_cases hreceiver : pulled.receiver=some pulled.core
    · refine ⟨copy,?_,hnone⟩
      have hne : copy≠pulled := fun heq => by
        rw [← heq,hnone] at hreceiver
        cases hreceiver
      obtain ⟨j,hj⟩:=List.getElem?_of_mem hcopy
      have hji : j≠i := fun heq => by
        rw [heq,hi,Option.some.injEq] at hj
        exact hne hj.symm
      exact List.mem_append_left _ (List.mem_eraseIdx_iff_getElem?.mpr ⟨j,hji,hj⟩)
    · obtain ⟨next,hnext,hnextnone⟩:=m.sendBroadcast_forwards sender pulled.core
      refine ⟨next,?_,hnextnone⟩
      simp only [if_neg hreceiver]
      exact List.mem_append_right _ hnext

theorem forwarding_unfinished (sender : ℤ) (order : List ℕ) : Unfinished (m.forwarding sender order) := by
  rw [forwarding]
  generalize hstart : m.startBroadcast sender=b
  have hb : Unfinished b := by
    rw [← hstart]
    exact m.sendBroadcast_forwards sender sender
  clear hstart
  induction order generalizing b with
  | nil => exact hb
  | cons i order ih => exact ih (m.pull sender b i) (m.pull_unfinished sender hb i)

/-- On no mesh and from no sender does the forwarding of a broadcast end. -/
theorem broadcast_never_ends (sender : ℤ) : ¬ m.BroadcastsOnce sender := by
  rintro ⟨order,hempty,-⟩
  obtain ⟨copy,hcopy,-⟩:=m.forwarding_unfinished sender order
  rw [hempty] at hcopy
  cases hcopy

/-- On a mesh of two by two cores the sender's neighbour above gets a copy over each of the two
edges, and both are forwarded back to the sender. -/
theorem broadcast_duplicates :
    (forwarding ⟨2,2,1,false,by decide,by decide,by decide⟩ 0 [0,0]).received=[2,2] ∧ (⟨0,none⟩ : Copy) ∈
      (forwarding ⟨2,2,1,false,by decide,by decide,by decide⟩ 0 [0,0]).inFlight := by
  decide +kernel

end Mesh

end Sniper.MeshNetwork
