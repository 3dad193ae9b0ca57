import Sniper.FallibleRuns
import Sniper.MachineValues

/-!
# Routing on the mesh of `network_model_emesh_hop_by_hop.cc`

Core numbers fit in 32 bits, so no product overflows. Queueing delays are left out.
-/

namespace Sniper.MeshNetwork

inductive OutputDirection where
  | up
  | down
  | left
  | right
  | self
  | peer
  | destination
  deriving DecidableEq,Repr

/-- The dimensions that `computeMeshDimensions` accepts. -/
structure Mesh where
  width : ℤ
  height : ℤ
  concentration : ℤ
  wrapAround : Bool
  width_pos : 0<width
  height_pos : 0<height
  concentration_pos : 0<concentration

namespace Mesh

section

variable (m : Mesh)

def applicationCores : ℤ := m.concentration*m.height*m.width

def computePosition (core : ℤ) : ℤ × ℤ :=
  ((core / m.concentration) % m.width,(core / m.concentration) / m.width)

def computeCoreId (x y : ℤ) : ℤ := ((y+m.height) % m.height*m.width+(x+m.width) % m.width)*m.concentration

def computeDistance (sender receiver : ℤ) : ℤ :=
  let (sx,sy) := m.computePosition sender
  let (dx,dy) := m.computePosition receiver
  if m.wrapAround then
    min |sx - dx| (m.width - |sx - dx|)+min |sy - dy| (m.height - |sy - dy|)
  else |sx - dx| + |sy - dy|

/-- `m_fake_node`: the core is not the master of a node. -/
def isFakeNode (core : ℤ) : Bool := core % m.concentration≠0 ∨ core ≥ m.concentration*m.width*m.height

def getNextDest (core finalDest : ℤ) : OutputDirection × ℤ :=
  if finalDest ≥ m.applicationCores then (.destination,finalDest)
  else if core / m.concentration=finalDest / m.concentration then (.destination,finalDest)
  else if m.isFakeNode core then (.peer,core - core % m.concentration)
  else
    let (sx,sy) := m.computePosition core
    let (dx,dy) := m.computePosition finalDest
    if (sx > dx : Bool) ^^ (m.wrapAround && (|sx - dx| > (m.width+1) / 2 : Bool)) then
      (.left,m.computeCoreId (sx - 1) sy)
    else if sx≠dx then (.right,m.computeCoreId (sx+1) sy)
    else if (sy > dy : Bool) ^^ (m.wrapAround && (|sy - dy| > (m.height+1) / 2 : Bool)) then
      (.down,m.computeCoreId sx (sy - 1))
    else if sy≠dy then (.up,m.computeCoreId sx (sy+1))
    else (.self,core)

def routePacket (core receiver : ℤ) : OutputDirection × ℤ :=
  if m.isFakeNode core then (.destination,receiver) else m.getNextDest core receiver

end

/-- The loop of `netSend`: the packet is routed at every node until the next one is the
receiver. The result lists the hops; the loop is cut off after `fuel` of them. -/
def netSend (m : Mesh) (receiver : ℤ) : ℕ → ℤ → Option (List OutputDirection)
  | 0,_ => none
  | fuel+1,core =>
    let (direction,next) := m.routePacket core receiver
    if next=receiver then some [direction]
    else (netSend m receiver fuel next).map (direction :: ·)

end Mesh

def OutputDirection.isLink : OutputDirection → Bool
  | .up | .down | .left | .right => true
  | _ => false

def linkHops (hops : List OutputDirection) : ℕ := hops.countP OutputDirection.isLink

/-- The hops that routing takes from `a` to `b` on a line or ring of `n` nodes. -/
def hopsAlong (wrap : Bool) (n a b : ℤ) : ℤ := if wrap=true ∧ |a - b| > (n+1) / 2 then n - |a - b| else |a - b|

section Dimension

variable {wrap : Bool} {n a b : ℤ}

section

variable (ha : 0≤a ∧ a<n)
include ha

theorem wrap_pred : (a - 1+n) % n=if a=0 then n - 1 else a - 1 := by
  split_ifs with h
  · subst h
    rw [Int.emod_eq_of_lt] <;> omega
  · rw [Int.add_emod_right,Int.emod_eq_of_lt] <;> omega

theorem wrap_succ : (a+1+n) % n=if a+1=n then 0 else a+1 := by
  split_ifs with h
  · rw [h,Int.add_emod_right,Int.emod_self]
  · rw [Int.add_emod_right,Int.emod_eq_of_lt] <;> omega

section

variable (hb : 0≤b ∧ b<n)
include hb

theorem hopsAlong_pred (h : ((a > b : Bool) ^^ (wrap && (|a - b| > (n+1) / 2 : Bool)))=true) :
    hopsAlong wrap n ((a - 1+n) % n) b+1=hopsAlong wrap n a b := by
  rw [wrap_pred ha]
  cases wrap <;> by_cases hab : a > b <;> by_cases hfar : |a - b| > (n+1) / 2 <;>
    simp [hab,hfar] at h <;> simp only [hopsAlong] <;> split_ifs <;> grind

theorem hopsAlong_succ (hne : a≠b) (h : ((a > b : Bool) ^^ (wrap && (|a - b| > (n+1) / 2 : Bool)))=false) :
    hopsAlong wrap n ((a+1+n) % n) b+1=hopsAlong wrap n a b := by
  rw [wrap_succ ha]
  cases wrap <;> by_cases hab : a > b <;> by_cases hfar : |a - b| > (n+1) / 2 <;>
    simp [hab,hfar] at h <;> simp only [hopsAlong] <;> split_ifs <;> grind

theorem hopsAlong_nonneg : 0≤hopsAlong wrap n a b := by
  rw [hopsAlong]
  split_ifs <;> grind

theorem hopsAlong_eq_zero : hopsAlong wrap n a b=0 ↔ a=b := by
  rw [hopsAlong]
  split_ifs <;> grind

end

end

theorem hopsAlong_ring :
    hopsAlong true n a b=min |a - b| (n - |a - b|)+if 2 * |a - b| = n+1 then 1 else 0 := by
  rw [hopsAlong]
  split_ifs <;> grind

end Dimension

namespace Mesh

variable {m : Mesh} {core receiver : ℤ}

/-- An application core. -/
def OnMesh (m : Mesh) (core : ℤ) : Prop := 0 ≤ core ∧ core < m.applicationCores

/-- The master of a node of the mesh. -/
def Master (m : Mesh) (core : ℤ) : Prop := m.OnMesh core ∧ core % m.concentration=0

instance (m : Mesh) (core : ℤ) : Decidable (m.OnMesh core) := instDecidableAnd

instance (m : Mesh) (core : ℤ) : Decidable (m.Master core) := instDecidableAnd

theorem OnMesh.node (h : m.OnMesh core) :
    0 ≤ core / m.concentration ∧ core / m.concentration < m.height*m.width := by
  have hpos := m.concentration_pos
  refine ⟨Int.ediv_nonneg h.1 hpos.le,?_⟩
  rw [Int.ediv_lt_iff_lt_mul hpos,mul_comm,← mul_assoc]
  exact h.2

theorem OnMesh.position (h : m.OnMesh core) :
    (0≤(m.computePosition core).1 ∧ (m.computePosition core).1 < m.width) ∧
      0≤(m.computePosition core).2 ∧ (m.computePosition core).2 < m.height := by
  have hpos := m.width_pos
  obtain ⟨hnonneg,hlt⟩:=h.node
  refine ⟨⟨Int.emod_nonneg _ hpos.ne',Int.emod_lt_of_pos _ hpos⟩,Int.ediv_nonneg hnonneg hpos.le,?_⟩
  rw [computePosition,Int.ediv_lt_iff_lt_mul hpos]
  exact hlt

theorem computePosition_eq_iff : m.computePosition core=m.computePosition receiver ↔
      core / m.concentration=receiver / m.concentration := by
  constructor
  · intro h
    simp only [computePosition,Prod.mk.injEq] at h
    rw [← Int.emod_add_mul_ediv (core / m.concentration) m.width,h.1,h.2,Int.emod_add_mul_ediv]
  · intro h
    rw [computePosition,h]
    rfl

theorem Master.not_fake (h : m.Master core) : m.isFakeNode core=false := by
  have hlt := h.1.2
  rw [applicationCores,mul_assoc,mul_comm m.height,← mul_assoc] at hlt
  simp [isFakeNode,h.2,hlt]

theorem computePosition_computeCoreId (x y : ℤ) :
    m.computePosition (m.computeCoreId x y)=((x+m.width) % m.width,(y+m.height) % m.height) := by
  have hpos := m.width_pos
  rw [computePosition,computeCoreId,Int.mul_ediv_cancel _ m.concentration_pos.ne',add_comm,
     Int.add_mul_emod_self_right,Int.emod_emod,Int.add_mul_ediv_right _ _ hpos.ne',
    Int.ediv_eq_zero_of_lt (Int.emod_nonneg _ hpos.ne') (Int.emod_lt_of_pos _ hpos),zero_add]

theorem master_computeCoreId (x y : ℤ) : m.Master (m.computeCoreId x y) := by
  have hx := Int.emod_nonneg (x+m.width) m.width_pos.ne'
  have hx' := Int.emod_lt_of_pos (x+m.width) m.width_pos
  have hy := Int.emod_nonneg (y+m.height) m.height_pos.ne'
  have hy' := Int.emod_lt_of_pos (y+m.height) m.height_pos
  have hnode : (y+m.height) % m.height*m.width+(x+m.width) % m.width <
      m.height*m.width := by
    nlinarith [m.width_pos]
  refine ⟨⟨?_,?_⟩,Int.mul_emod_left _ _⟩
  · exact mul_nonneg (add_nonneg (mul_nonneg hy m.width_pos.le) hx) m.concentration_pos.le
  · rw [applicationCores,computeCoreId,mul_assoc,mul_comm]
    exact mul_lt_mul_of_pos_left hnode m.concentration_pos

def hopsTo (m : Mesh) (receiver core : ℤ) : ℤ :=
  hopsAlong m.wrapAround m.width (m.computePosition core).1 (m.computePosition receiver).1 +
    hopsAlong m.wrapAround m.height (m.computePosition core).2 (m.computePosition receiver).2

theorem hopsTo_nonneg (hc : m.OnMesh core) (hr : m.OnMesh receiver) : 0 ≤ m.hopsTo receiver core :=
  add_nonneg (hopsAlong_nonneg hc.position.1 hr.position.1)
    (hopsAlong_nonneg hc.position.2 hr.position.2)

theorem hopsTo_eq_zero (hc : m.OnMesh core) (hr : m.OnMesh receiver) :
    m.hopsTo receiver core=0 ↔ core / m.concentration=receiver / m.concentration := by
  rw [hopsTo,add_eq_zero_iff_of_nonneg (hopsAlong_nonneg hc.position.1 hr.position.1)
    (hopsAlong_nonneg hc.position.2 hr.position.2),hopsAlong_eq_zero hc.position.1 hr.position.1,
    hopsAlong_eq_zero hc.position.2 hr.position.2,← Prod.ext_iff,computePosition_eq_iff]

theorem routePacket_link (hc : m.Master core) (hr : m.OnMesh receiver)
    (h : core / m.concentration≠receiver / m.concentration) :
    ∃direction next,m.routePacket core receiver=(direction,next) ∧ direction.isLink=true ∧
      m.Master next ∧ m.hopsTo receiver next+1=m.hopsTo receiver core := by
  obtain ⟨hx,hy⟩:=hc.1.position
  obtain ⟨hx',hy'⟩:=hr.position
  have hne : m.computePosition core≠m.computePosition receiver := mt computePosition_eq_iff.mp h
  rw [routePacket,hc.not_fake,if_neg Bool.false_ne_true,getNextDest,if_neg (not_le.mpr hr.2),if_neg h,
    hc.not_fake,if_neg Bool.false_ne_true]
  generalize hp : m.computePosition core=p at hx hy hne
  generalize hq : m.computePosition receiver=q at hx' hy' hne
  obtain ⟨sx,sy⟩:=p
  obtain ⟨dx,dy⟩:=q
  have hstay : ∀ {a n : ℤ},0≤a ∧ a<n → (a+n) % n=a := fun ha => by
    rw [Int.add_emod_right,Int.emod_eq_of_lt ha.1 ha.2]
  have hto : ∀x y,m.hopsTo receiver (m.computeCoreId x y) =
      hopsAlong m.wrapAround m.width ((x+m.width) % m.width) dx +
        hopsAlong m.wrapAround m.height ((y+m.height) % m.height) dy := fun x y => by
    rw [hopsTo,computePosition_computeCoreId,hq]
  have hfrom : m.hopsTo receiver core=hopsAlong m.wrapAround m.width sx dx +
      hopsAlong m.wrapAround m.height sy dy := by
    rw [hopsTo,hp,hq]
  dsimp only at hx hy hx' hy' ⊢
  split_ifs with hleft hright hdown hup
  · refine ⟨_,_,rfl,rfl,master_computeCoreId _ _,?_⟩
    rw [hto,hfrom,hstay hy,← hopsAlong_pred hx hx' hleft]
    ring
  · refine ⟨_,_,rfl,rfl,master_computeCoreId _ _,?_⟩
    rw [hto,hfrom,hstay hy,← hopsAlong_succ hx hx' hright (Bool.eq_false_of_not_eq_true hleft)]
    ring
  · refine ⟨_,_,rfl,rfl,master_computeCoreId _ _,?_⟩
    rw [hto,hfrom,hstay hx,← hopsAlong_pred hy hy' hdown]
    ring
  · refine ⟨_,_,rfl,rfl,master_computeCoreId _ _,?_⟩
    rw [hto,hfrom,hstay hx,← hopsAlong_succ hy hy' hup (Bool.eq_false_of_not_eq_true hdown)]
    ring
  · exact absurd (Prod.ext (not_not.mp hright) (not_not.mp hup)) hne

theorem netSend_arrives (hr : m.OnMesh receiver) (n : ℕ) (core : ℤ) (hc : m.Master core)
    (hn : m.hopsTo receiver core=n) : ∃fuel hops,m.netSend receiver fuel core=some hops ∧ linkHops hops=n := by
  induction n generalizing core with
  | zero =>
    have hnode := (hopsTo_eq_zero hc.1 hr).mp hn
    refine ⟨1,[.destination],?_,rfl⟩
    simp [netSend,routePacket,hc.not_fake,getNextDest,hnode]
  | succ n ih =>
    have hnode : core / m.concentration≠receiver / m.concentration := fun heq => by
      have hzero := (hopsTo_eq_zero hc.1 hr).mpr heq
      omega
    obtain ⟨direction,next,hroute,hlink,hnext,hcloser⟩:=routePacket_link hc hr hnode
    by_cases harrived : next=receiver
    · have hzero := (hopsTo_eq_zero hnext.1 hr).mpr (by rw [harrived])
      refine ⟨1,[direction],?_,?_⟩
      · simp only [netSend,hroute,if_pos harrived]
      · have hn : n=0 := by omega
        simp [linkHops,hlink,hn]
    · obtain ⟨fuel,hops,hsend,hcount⟩:=ih next hnext (by omega)
      refine ⟨fuel+1,direction::hops,?_,?_⟩
      · simp only [netSend,hroute,if_neg harrived,hsend,Option.map_some]
      · rw [linkHops,List.countP_cons_of_pos hlink]
        exact congrArg (· + 1) hcount

theorem netSend_unique {fuel fuel' : ℕ} {hops hops' : List OutputDirection}
    (h : m.netSend receiver fuel core=some hops) (h' : m.netSend receiver fuel' core=some hops') :
    hops=hops' := by
  induction fuel generalizing fuel' core hops hops' with
  | zero => cases h
  | succ fuel ih =>
    cases fuel' with
    | zero => cases h'
    | succ fuel' =>
      rw [netSend] at h h'
      generalize m.routePacket core receiver=route at h h'
      obtain ⟨direction,next⟩:=route
      dsimp only at h h'
      split_ifs at h h'
      · rw [← Option.some.inj h,← Option.some.inj h']
      · obtain ⟨rest,hrest,rfl⟩:=Option.map_eq_some_iff.mp h
        obtain ⟨rest',hrest',rfl⟩:=Option.map_eq_some_iff.mp h'
        rw [ih hrest hrest']

/-- The packet reaches its receiver over as many links as `computeDistance` counts. -/
def RoutesShortest (m : Mesh) (sender receiver : ℤ) : Prop :=
  ∃fuel hops,m.netSend receiver fuel sender=some hops ∧
    (linkHops hops : ℤ)=m.computeDistance sender receiver

/-- Every packet of a master reaches its receiver. It takes a shortest route unless it has to
go more than half around a ring with an odd number of nodes by just one hop. -/
theorem routesShortest_iff (m : Mesh) (sender receiver : ℤ) (hs : m.Master sender) (hr : m.OnMesh receiver) :
    m.RoutesShortest sender receiver ↔ (m.wrapAround=true →
      2 * |(m.computePosition sender).1 - (m.computePosition receiver).1| ≠ m.width+1 ∧
      2 * |(m.computePosition sender).2 - (m.computePosition receiver).2| ≠ m.height+1) := by
  obtain ⟨n,hn⟩:=Int.eq_ofNat_of_zero_le (hopsTo_nonneg hs.1 hr)
  obtain ⟨fuel,hops,hsend,hcount⟩:=netSend_arrives hr n sender hs hn
  have hiff : m.RoutesShortest sender receiver ↔
      m.hopsTo receiver sender=m.computeDistance sender receiver := by
    constructor
    · rintro ⟨fuel',hops',hsend',hcount'⟩
      rw [hn,← hcount,netSend_unique hsend hsend',hcount']
    · intro heq
      refine ⟨fuel,hops,hsend,?_⟩
      rw [hcount,← heq,hn]
  rw [hiff,hopsTo,computeDistance]
  cases hwrap : m.wrapAround with
  | false => simp [hopsAlong]
  | true =>
    rw [hopsAlong_ring,hopsAlong_ring]
    simp only [if_true,true_implies]
    split_ifs with hx hy hy
    · exact ⟨fun h => by omega,fun h => absurd hx h.1⟩
    · exact ⟨fun h => by omega,fun h => absurd hx h.1⟩
    · exact ⟨fun h => by omega,fun h => absurd hy h.2⟩
    · exact ⟨fun _ => ⟨hx,hy⟩,fun _ => by omega⟩

/-- On a torus of four by four nodes of two cores. -/
theorem routesShortest_torus : RoutesShortest ⟨4,4,2,true,by decide,by decide,by decide⟩ 0 31 :=
  (routesShortest_iff ⟨4,4,2,true,by decide,by decide,by decide⟩ 0 31 (by decide +kernel)
    (by decide +kernel)).mpr fun _ => by decide +kernel

/-- On a ring of three nodes two hops lead from the first to the last, which are neighbours. -/
theorem ring_of_three_detours :
    netSend ⟨3,1,1,true,by decide,by decide,by decide⟩ 2 2 0=some [.right,.right] ∧
    computeDistance ⟨3,1,1,true,by decide,by decide,by decide⟩ 0 2=1 ∧
    ¬ RoutesShortest ⟨3,1,1,true,by decide,by decide,by decide⟩ 0 2 := by
  have hsend : netSend ⟨3,1,1,true,by decide,by decide,by decide⟩ 2 2 0 =
      some [.right,.right] := by
    decide +kernel
  have hdist : computeDistance ⟨3,1,1,true,by decide,by decide,by decide⟩ 0 2=1 := by
    decide +kernel
  refine ⟨hsend,hdist,?_⟩
  rintro ⟨fuel,hops,hsend',hcount⟩
  rw [← netSend_unique hsend hsend',hdist] at hcount
  exact absurd hcount (by decide)

end Mesh

end Sniper.MeshNetwork
