import Sniper.NumaOwnership

/-! # Placement of regions and bound memory -/

namespace Sniper.PhysicalMemory
open BuddyAllocator FallibleRuns IntervalTilings Function List

namespace NumaReservationThpAllocator

variable {s s' : NumaReservationThpAllocator} {k : ℕ}

/-- Node `k` has the region reserved, a free 2MB block, or a free block of the requested
order. -/
def CanServe (s : NumaReservationThpAllocator) (k : ℕ) (req : NumaRequest) : Prop :=
  ∃nd,s.numa.nodes[k]?=some nd ∧ ((s.maps k).lookup (region2mb req.address)≠none ∨
    ¬ nd.buddy.NoLarge ∨ ∃j,Buddy.orderOf req.size≤j ∧ nd.buddy.freeList j≠[])

theorem useRegionOnNode_engine {address : ℕ} {region : Region} {page : ℕ × Bool}
    (h : s.useRegionOnNode address k region = .ok (page,s')) : s'.engine=s.engine := by
  simp only [useRegionOnNode] at h
  split_ifs at h
  · cases h
    rfl
  · cases h
    rfl

theorem checkFor2mbAllocationOnNode_engine {address : ℕ} {r : Option (ℕ × Bool)}
    (h : s.checkFor2mbAllocationOnNode address k = .ok (r,s')) : s'.engine=s.engine := by
  rw [checkFor2mbAllocationOnNode] at h
  split_ifs at h
  · cases h
    rfl
  · split at h
    · obtain ⟨⟨page,t⟩,huse,h⟩:=bind_ok h
      cases h
      exact useRegionOnNode_engine huse
    · obtain ⟨⟨reserved,numa⟩,-,h⟩:=bind_ok h
      cases reserved with
      | none =>
        cases h
        rfl
      | some block =>
        obtain ⟨⟨page,t⟩,huse,h⟩:=bind_ok h
        cases h
        have hsame := useRegionOnNode_engine huse
        exact hsame

theorem checkFor2mbAllocationOnNode_large {address : ℕ} {page : ℕ × Bool} {nd : NodeBuddy}
    (hk : s.numa.nodes[k]?=some nd) (hwf : nd.buddy.WellFormed)
    (hnone : (s.maps k).lookup (region2mb address)=none)
    (h : s.checkFor2mbAllocationOnNode address k = .ok (some page,s')) : ¬ nd.buddy.NoLarge := by
  rw [checkFor2mbAllocationOnNode] at h
  split_ifs at h
  · cases h
  · rw [hnone] at h
    obtain ⟨⟨reserved,numa⟩,hres,h⟩:=bind_ok h
    rw [NumaBuddyAllocator.reserve2mbPage,hk] at hres
    obtain ⟨⟨block,b⟩,hblock,hres⟩:=bind_ok hres
    rcases Buddy.reserve2mbPage_cases hwf hblock with ⟨block,rfl,-,hlarge,-⟩ | ⟨rfl,-,-⟩
    · exact hlarge
    · cases hres
      cases h

/-- The two ways in which node `k` serves a request: from a region, which it needs a free 2MB
block for if the region is new, or from its small blocks if it has no 2MB block. -/
def ServedBy (s : NumaReservationThpAllocator) (k : ℕ) (req : NumaRequest) (a : Allocation)
    (s' : NumaReservationThpAllocator) : Prop :=
  ∃nd,s.numa.nodes[k]?=some nd ∧
    ((s.TouchesOnNode k req.address a s' ∧
      ((s.maps k).lookup (region2mb req.address)=none → ¬ nd.buddy.NoLarge)) ∨
    ((s.maps k).lookup (region2mb req.address)=none ∧ nd.buddy.NoLarge ∧
      ∃page,a=⟨some page,12⟩ ∧ s.TakesOnNode k req.size page s'))

theorem allocateFrom_serves {order : UtilizationSort} {req : NumaRequest} {a : Allocation}
    (hwf : ∀ (k : ℕ) nd,s.numa.nodes[k]?=some nd → nd.buddy.WellFormed) (hserve : s.CanServe k req)
    (h : s.allocateFrom order req k = .ok (a,s')) :
    s'.engine=s.engine.recordAllocation k 4096 ∧ s.ServedBy k req a s' := by
  obtain ⟨nd,hk,hserve⟩:=hserve
  rw [allocateFrom] at h
  obtain ⟨⟨page2mb,t⟩,hcheck,hrest⟩:=bind_ok h
  have hengine := checkFor2mbAllocationOnNode_engine hcheck
  rcases checkFor2mbAllocationOnNode_ok (hwf k) hcheck with
    ⟨page,promoted,rfl,htouch⟩ | ⟨rfl,rfl,hnone⟩
  · cases hrest
    refine ⟨?_,nd,hk,.inl ⟨htouch,fun hlook => ?_⟩⟩
    · simp only [record,hengine]
    · exact checkFor2mbAllocationOnNode_large hk (hwf k nd hk) hlook hcheck
  · obtain ⟨hlook,hlarge⟩:=hnone nd hk
    obtain ⟨⟨page,u⟩,halloc,hdemote⟩:=bind_ok hrest
    have hengine' : u.engine=t.engine := by
      obtain ⟨⟨p,numa⟩,-,hu⟩:=bind_ok halloc
      cases hu
      rfl
    rcases allocateOnNode_ok (hwf k) halloc with ⟨page,rfl,htake⟩ | ⟨rfl,rfl,hempty⟩
    · cases hdemote
      refine ⟨?_,nd,hk,.inr ⟨hlook,hlarge,page,rfl,htake⟩⟩
      simp only [record,hengine']
    · rcases hserve with hres | hbig | ⟨j,hj,hfree⟩
      · exact absurd hlook hres
      · exact absurd hlarge hbig
      · exact absurd (hempty nd hk j hj) hfree

end NumaReservationThpAllocator

/-- All pages of the grant are pages of node `k`. -/
def Grant.OnNode (g : Grant Unit) (nodes : List NodeBuddy) (k : ℕ) : Prop :=
  ∃nd q,nodes[k]?=some nd ∧ g.allocation.ppn=some q ∧ nd.Owns q ∧
    ∀v p,g.Gives v p → nd.Owns p

theorem Grant.onNode_withBuddy {g : Grant Unit} {nodes : List NodeBuddy} {j k : ℕ} {b : Buddy} :
    g.OnNode (withBuddy nodes j b) k ↔ g.OnNode nodes k := by
  by_cases hkj : k=j
  · subst hkj
    cases hk : nodes[k]? with
    | none =>
      have hnone : (withBuddy nodes k b)[k]?=none := by
        rw [withBuddy,List.getElem?_modify,hk]
        rfl
      simp [Grant.OnNode,hk,hnone]
    | some nd =>
      simp only [Grant.OnNode,hk,withBuddy_self hk,Option.some_inj]
      constructor
      · rintro ⟨_,q,rfl,hq⟩
        exact ⟨nd,q,rfl,hq⟩
      · rintro ⟨_,q,rfl,hq⟩
        exact ⟨_,q,rfl,hq⟩
  · rw [Grant.OnNode,withBuddy_of_ne hkj]
    rfl

theorem Grant.exists_gives {g : Grant Unit} {q : ℕ} (h : g.allocation.ppn=some q) : ∃v,g.Gives v q := by
  by_cases hsize : g.allocation.pageSize=21
  · refine ⟨g.vpn / 512*512,?_⟩
    simp only [Grant.Gives,h,if_pos hsize]
    omega
  · exact ⟨g.vpn,by simp only [Grant.Gives,h,if_neg hsize,and_self]⟩

theorem Grant.onNode_of_gives {g : Grant Unit} {nodes : List NodeBuddy} {k q : ℕ} {nd : NodeBuddy}
    (hk : nodes[k]?=some nd) (hq : g.allocation.ppn=some q) (h : ∀v p,g.Gives v p → nd.Owns p) :
    g.OnNode nodes k := by
  obtain ⟨v,hv⟩:=Grant.exists_gives hq
  exact ⟨nd,q,hk,hq,h v q hv,h⟩

section Apart

variable {numa : NumaBuddyAllocator}
  (hapart : numa.nodes.Pairwise fun a b => a.basePfn+a.numPages≤b.basePfn)
include hapart

theorem Grant.OnNode.node_eq {g : Grant Unit} {k q : ℕ} (h : g.OnNode numa.nodes k)
    (hq : g.allocation.ppn=some q) : numa.getNodeForPfn q=k := by
  obtain ⟨nd,q',hk,hq',hown,-⟩:=h
  cases hq.symm.trans hq'
  exact NumaTraced.getNodeForPfn_eq hapart hk hown.inside

end Apart

section Step

variable {s s' : NumaReservationThpAllocator} {spent : ℕ → Multiset ℕ}
  {grants : List (Grant Unit)} {k : ℕ} {a : Allocation}

theorem touches_inRegion {address : ℕ} (h : s.TouchesOnNode k address a s') {v p : ℕ}
    (hgives : (Grant.mk () (address / 2^12) a).Gives v p) : InRegion (s'.maps k) v p := by
  obtain ⟨nd,b,old,-,-,-,-,hmaps,rfl⟩:=h
  rw [hmaps,update_self]
  exact @inRegion_of_grant Unit p () ⟨0,address,false,false⟩ (s.maps k) _ v
    (Finset.mem_insert_self _ _) hgives

section

variable (hown : NumaOwned s.numa.nodes s.maps spent grants)
include hown

theorem touches_onNode {address : ℕ} (h : s.TouchesOnNode k address a s') :
    (Grant.mk () (address / 2^12) a).OnNode s'.numa.nodes k := by
  have hin := fun v p => touches_inRegion (v:=v) (p:=p) h
  obtain ⟨nd,b,old,hk,-,hfrom,hnodes,hmaps,rfl⟩:=h
  have hnd := hfrom.nodeOwned (hown.owned k nd hk) s.thresholdForPromotion (offsetIn2mb address)
  obtain ⟨q,hq⟩ : ∃q,((old.touch s.thresholdForPromotion (offsetIn2mb address)).grant
      (offsetIn2mb address)).ppn=some q := by
    unfold Region.grant
    split_ifs
    · exact ⟨_,rfl⟩
    · exact ⟨_,rfl⟩
  rw [hnodes]
  refine Grant.onNode_of_gives (withBuddy_self hk) hq fun v p hgives => ?_
  have hv := hin v p hgives
  rw [hmaps,update_self] at hv
  exact hnd.owns_reserved hv.mem_reservedCells

theorem takes_onNode {size page vpn : ℕ} (h : s.TakesOnNode k size page s') :
    (Grant.mk () vpn ⟨some page,12⟩).OnNode s'.numa.nodes k := by
  obtain ⟨nd,b,p,hk,rfl,htake,hnodes,-⟩:=h
  rw [hnodes]
  refine Grant.onNode_of_gives (withBuddy_self hk) rfl fun v q hgives => ?_
  obtain ⟨-,rfl⟩:=Grant.gives_small.mp hgives
  refine (hown.owned k nd hk).owns_free ?_
  rw [NodeBuddy.freeCells_takes htake]
  refine Multiset.mem_add.mpr (.inr (Multiset.mem_Ico.mpr ⟨le_rfl,?_⟩))
  exact Nat.lt_add_of_pos_right (Nat.two_pow_pos _)

theorem served_onNode {req : NumaRequest} (h : s.ServedBy k req a s') :
    (Grant.mk () (req.address / 2^12) a).OnNode s'.numa.nodes k := by
  obtain ⟨nd,hk,⟨htouch,-⟩ | ⟨-,-,page,rfl,htake⟩⟩:=h
  · exact touches_onNode hown htouch
  · exact takes_onNode hown htake

end

theorem served_nodes {req : NumaRequest} (h : s.ServedBy k req a s') :
    ∃nd b,s.numa.nodes[k]?=some nd ∧ s'.numa.nodes=withBuddy s.numa.nodes k b ∧
      (nd.buddy.NoLarge → b.NoLarge) := by
  obtain ⟨nd,hk,⟨htouch,-⟩ | ⟨-,-,page,rfl,htake⟩⟩:=h
  · obtain ⟨nd',b,old,hk',-,hfrom,hnodes,-⟩:=htouch
    refine ⟨nd',b,hk',hnodes,fun hlarge => ?_⟩
    rcases hfrom with ⟨-,rfl⟩ | ⟨-,p,-,htakes⟩
    · exact hlarge
    · exact htakes.noLarge hlarge
  · obtain ⟨nd',b,p,hk',-,htakes,hnodes,-⟩:=htake
    exact ⟨nd',b,hk',hnodes,htakes.noLarge⟩

end Step

theorem NumaPlacementEngine.leastUtilized_eligible (e : NumaPlacementEngine) (eligible : ℕ → Bool)
    (h : ∃i<e.numNodes,eligible i=true ∧ e.utilization i<11 / 10) :
    eligible (e.leastUtilized eligible)=true := by
  obtain ⟨i,hi,helig,hutil⟩:=h
  unfold leastUtilized
  suffices ∀ (l : List ℕ) (best : ℕ × ℚ),(best.2<11 / 10 → eligible best.1=true) →
      (i∈l ∨ best.2<11 / 10) →
      eligible (l.foldl (fun (best : ℕ × ℚ) i =>
        if eligible i ∧ e.utilization i<best.2 then (i,e.utilization i) else best) best).1 =
          true from
    this (List.range e.numNodes) (0,11 / 10) (fun h => absurd h (lt_irrefl _))
      (.inl (mem_range.mpr hi))
  intro l
  induction l with
  | nil => exact fun best hbest hroom => hbest (hroom.resolve_left not_mem_nil)
  | cons j l ih =>
    intro best hbest hroom
    rw [foldl_cons]
    split_ifs with hj
    · refine ih _ (fun _ => hj.1) ?_
      by_cases hij : i=j
      · exact .inr (hij ▸ hutil)
      · rcases hroom with hmem | hlt
        · exact .inl ((mem_cons.mp hmem).resolve_left hij)
        · exact .inr (hj.2.trans hlt)
    · refine ih _ hbest ?_
      by_cases hij : i=j
      · subst hij
        refine .inr (lt_of_le_of_lt ?_ hutil)
        exact not_lt.mp fun hlt => hj ⟨helig,hlt⟩
      · exact hroom.imp_left fun hmem => (mem_cons.mp hmem).resolve_left hij

namespace NumaTraced

/-- Some bound node has a utilization below 1.1, and the bound node that the engine chooses
can serve the request itself. -/
def BoundServes (t : NumaTraced) (req : NumaRequest) : Prop :=
  (∃i<t.allocator.engine.numNodes,t.allocator.engine.bindMask.getD i false=true ∧
    t.allocator.engine.utilization i<11 / 10) ∧
  t.allocator.CanServe (t.allocator.target req) req

/-- Every page handed out belongs to a node of the mask. -/
def InMask (mask : List Bool) (t : NumaTraced) : Prop :=
  ∀g∈t.grants,∀p,g.Holds p → ∃ (k : ℕ) (nd : NodeBuddy),
    t.allocator.numa.nodes[k]?=some nd ∧ nd.basePfn≤p ∧ p<nd.basePfn+nd.numPages ∧
    mask.getD k false=true

/-- The invariant of a run under the BIND policy. -/
structure Bound (mask : List Bool) (t : NumaTraced) : Prop where
  owned : t.Owned
  policy : t.allocator.engine.policy = .bind
  bindMask : t.allocator.engine.bindMask=mask
  onNode : ∀g∈t.grants,∃k,g.OnNode t.allocator.numa.nodes k ∧ mask.getD k false=true

theorem Bound.inMask {mask : List Bool} {t : NumaTraced} (h : t.Bound mask) : t.InMask mask := by
  intro g hg p hp
  obtain ⟨k,⟨nd,q,hk,-,-,hown⟩,hbit⟩:=h.onNode g hg
  obtain ⟨v,hv,-⟩:=hp.gives
  exact ⟨k,nd,hk,(hown v p hv).inside.1,(hown v p hv).inside.2,hbit⟩

theorem demotesFull_of_canServe {t : NumaTraced} {req : NumaRequest}
    (h : t.allocator.CanServe (t.allocator.target req) req) : t.DemotesFull req := by
  rintro ⟨nd,hk,hlook,hlarge,hempty⟩
  obtain ⟨nd',hk',hserve⟩:=h
  cases hk.symm.trans hk'
  rcases hserve with hres | hbig | ⟨j,hj,hfree⟩
  · exact absurd hlook hres
  · exact absurd hlarge hbig
  · exact absurd (hempty j hj) hfree

theorem step_bound {order : UtilizationSort} {mask : List Bool} {t t' : NumaTraced} {req : NumaRequest}
    (h : t.Bound mask) (hserve : t.BoundServes req) (he : t.step order req = .ok t') : t'.Bound mask := by
  have howned := step_owned h.owned (demotesFull_of_canServe hserve.2) he
  obtain ⟨spent,hown⟩:=h.owned
  obtain ⟨⟨a,s'⟩,ha,he⟩:=bind_ok he
  cases he
  obtain ⟨hengine,hserved⟩:=NumaReservationThpAllocator.allocateFrom_serves
    (fun k nd hk => (hown.owned k nd hk).wellFormed) hserve.2 ha
  have hfields : s'.engine.policy=t.allocator.engine.policy ∧
      s'.engine.bindMask=t.allocator.engine.bindMask := by
    rw [hengine,NumaPlacementEngine.recordAllocation]
    split_ifs
    · exact ⟨rfl,rfl⟩
    · exact ⟨rfl,rfl⟩
  have htarget : mask.getD (t.allocator.target req) false=true := by
    have hchosen := t.allocator.engine.leastUtilized_eligible _ hserve.1
    rw [h.bindMask] at hchosen
    rw [NumaReservationThpAllocator.target,NumaPlacementEngine.selectAllocationNode,h.policy]
    simpa only [h.bindMask] using hchosen
  refine ⟨howned,hfields.1.trans h.policy,hfields.2.trans h.bindMask,fun g hg => ?_⟩
  rcases mem_cons.mp hg with rfl | hg
  · exact ⟨_,served_onNode hown hserved,htarget⟩
  · obtain ⟨k,hon,hbit⟩:=h.onNode g hg
    obtain ⟨nd,b,-,hnodes,-⟩:=served_nodes hserved
    refine ⟨k,?_,hbit⟩
    rw [hnodes]
    exact Grant.onNode_withBuddy.mpr hon

end NumaTraced

variable (order : UtilizationSort) {numNodes maxOrder applicationCores : ℕ}
  {perNodeMemMb perNodeKernelMb : List UInt64} {fragType : String}
  {threshold utilizationThreshold : ℚ} {policy : NumaPolicy} {s : NumaReservationThpAllocator}

/-- Under the BIND policy with any mask, a run whose calls all find a bound node with room
only hands out pages of bound nodes. -/
theorem bind_stays_in_mask
    (hsizes : ∀x∈perNodeMemMb.zip perNodeKernelMb,x.1.toNat<2^31 ∧ x.2.toNat<2^31)
    (hnew : NumaReservationThpAllocator.new numNodes perNodeMemMb perNodeKernelMb maxOrder fragType
      threshold .bind utilizationThreshold applicationCores = .ok s)
    (mask : List Bool) {calls : List NumaRequest}
    (hserve : Along (NumaTraced.step order) NumaTraced.BoundServes
      ⟨{s with engine:={s.engine with bindMask:=mask}},[]⟩ calls)
    {pre : List NumaRequest} (hpre : pre <+: calls) {t : NumaTraced}
    (hrun : run (NumaTraced.step order)
      ⟨{s with engine:={s.engine with bindMask:=mask}},[]⟩ pre = .ok t) :
    t.InMask mask := by
  obtain ⟨post,rfl⟩:=hpre
  have hown := new_numaOwned hsizes hnew
  have hbind : s.engine.policy = .bind := by
    obtain ⟨numa,-,hs⟩:=bind_ok hnew
    cases hs
    rfl
  have hinit : NumaTraced.Bound mask
      ⟨{s with engine:={s.engine with bindMask:=mask}},[]⟩ :=
    ⟨⟨_,hown⟩,hbind,rfl,fun g hg => absurd hg not_mem_nil⟩
  exact (run_invariant (fun t req t' ht hG he => NumaTraced.step_bound ht hG he) hinit
    hserve.left hrun).inMask

/-- With two nodes and the second one bound, the first page comes from the second node. -/
theorem bind_stays_in_mask_second : ∃s,twoNodes [2,2] [0,0] 1 .bind = .ok s ∧
    ∃t,run (NumaTraced.step .insertion) ⟨{s with engine:={s.engine with bindMask:=[false,true]}},[]⟩
      (touches [0]) = .ok t ∧
    (t.grants.map fun g => g.allocation.ppn)=[some 512] ∧ t.InMask [false,true] := by
  refine exists_ok_ok_and (P:=fun s _ =>
    let start : NumaReservationThpAllocator := {s with engine:={s.engine with bindMask:=[false,true]}}
    start.target ⟨4096,0,none⟩=1 ∧ (∃nd,start.numa.nodes[1]?=some nd ∧ nd.buddy.freeList 9≠[]) ∧
    start.engine.numNodes=2 ∧ start.engine.utilization 1<11 / 10) (by decide +kernel) ?_
  rintro s t hs ht ⟨htarget,⟨nd,hnode,hfree⟩,hnum,hutil⟩
  refine bind_stays_in_mask .insertion (by simp) hs _ ?_ prefix_rfl ht
  refine ⟨⟨⟨1,by rw [hnum]; decide,rfl,hutil⟩,?_⟩,fun _ _ => trivial⟩
  rw [htarget]
  refine ⟨nd,hnode,.inr (.inr ⟨9,?_,hfree⟩)⟩
  exact (show Buddy.orderOf 4096=0 from ceilLog2_two_pow 0).le.trans (by decide)

/-- The only bound node has no memory behind its kernel, and the request is answered with a
page of the other node. -/
theorem bind_spills_out_of_mask : ∃s,twoNodes [1,1] [1,0] 1 .bind = .ok s ∧
    ∃t,run (NumaTraced.step .insertion) ⟨{s with engine:={s.engine with bindMask:=[true,false]}},[]⟩
      (touches [0]) = .ok t ∧ ¬ t.InMask [true,false] := by
  refine exists_ok_ok (P:=fun _ t => (∃g∈t.grants,g.allocation.ppn=some 511 ∧ g.allocation.pageSize=12) ∧
    (t.allocator.numa.nodes.map fun nd => nd.basePfn+nd.numPages)=[256,512]) (by decide +kernel) ?_
  rintro s t - - ⟨⟨g,hg,hppn,hsize⟩,hends⟩ hin
  have hp : g.Holds 511 := by
    rw [Grant.Holds,hppn,hsize]
    rfl
  obtain ⟨k,nd,hk,-,hlt,hbit⟩:=hin g hg 511 hp
  have hend : ([256,512] : List ℕ)[k]?=some (nd.basePfn+nd.numPages) := by
    rw [← hends,List.getElem?_map,hk,Option.map_some]
  rcases k with _ | _ | k
  · have : 256=nd.basePfn+nd.numPages := Option.some.inj hend
    omega
  · cases hbit
  · cases hend

namespace NumaTraced

section

variable (t : NumaTraced)

/-- Each 2MB region is reserved on one node at most. -/
def OneReservation : Prop :=
  ∀r i j,(t.allocator.maps i).lookup r≠none → (t.allocator.maps j).lookup r≠none → i=j

/-- A promoted region gives every page of it the frame that any other answer gave it. -/
def KeepsFrames : Prop :=
  ∀g∈t.grants,g.allocation.pageSize=21 → ∀g'∈t.grants,∀v p,g'.Gives v p →
    v / 512=g.vpn / 512 → g.Gives v p

/-- The pages of the region that were handed out before lie on the node that the engine
chooses now, and that node can serve the request itself. -/
def StaysHome (req : NumaRequest) : Prop :=
  (∀g∈t.grants,g.vpn / 512=region2mb req.address → ∀q,g.allocation.ppn=some q →
    t.allocator.getNumaNodeForPpn q=t.allocator.target req) ∧
  t.allocator.CanServe (t.allocator.target req) req

/-- The grant is in the block of its region on node `k`, or it is a single page of node `k`,
where the region is not reserved and cannot be any more. -/
def Settled (s : NumaReservationThpAllocator) (g : Grant Unit) (k : ℕ) : Prop :=
  (∀v p,g.Gives v p → InRegion (s.maps k) v p) ∨
    (g.allocation.pageSize=12 ∧ (s.maps k).lookup (g.vpn / 512)=none ∧
      ∃nd,s.numa.nodes[k]?=some nd ∧ nd.buddy.NoLarge)

/-- The invariant of a run in which regions stay on their nodes. -/
structure Homed : Prop where
  owned : t.Owned
  settled : ∀g∈t.grants,∃k,g.OnNode t.allocator.numa.nodes k ∧ Settled t.allocator g k
  reserved : ∀k r,(t.allocator.maps k).lookup r≠none →
    ∃g∈t.grants,g.vpn / 512=r ∧ g.OnNode t.allocator.numa.nodes k
  sameNode : ∀g∈t.grants,∀g'∈t.grants,g.vpn / 512=g'.vpn / 512 → ∀k k',
    g.OnNode t.allocator.numa.nodes k → g'.OnNode t.allocator.numa.nodes k' → k=k'

end

theorem vpn_region (address : ℕ) : address / 2^12 / 512=region2mb address := by
  rw [region2mb,Nat.div_div_eq_div_mul]
  rfl

section Settled

variable {s s' : NumaReservationThpAllocator} {k j : ℕ} {req : NumaRequest} {a : Allocation}

theorem noLarge_served (h : s.ServedBy k req a s') (nd : NodeBuddy) (hj : s.numa.nodes[j]?=some nd)
    (hlarge : nd.buddy.NoLarge) : ∃nd',s'.numa.nodes[j]?=some nd' ∧ nd'.buddy.NoLarge := by
  obtain ⟨nd₀,b,hk,hnodes,hb⟩:=served_nodes h
  rw [hnodes]
  by_cases hjk : j=k
  · subst hjk
    cases hj.symm.trans hk
    exact ⟨_,withBuddy_self hk,hb hlarge⟩
  · exact ⟨nd,(withBuddy_of_ne hjk).trans hj,hlarge⟩

/-- A grant stays settled when another request is served. The case to exclude is a new
reservation for the region of a single page, which needs a free 2MB block. -/
theorem Settled.served {g : Grant Unit} (hg : Settled s g j) (h : s.ServedBy k req a s') : Settled s' g j := by
  have hkeeps := noLarge_served (j:=j) h
  obtain ⟨nd,hk,⟨htouch,hfresh⟩ | ⟨-,-,page,rfl,htake⟩⟩:=h
  · obtain ⟨nd',b,old,-,hold,hfrom,-,hmaps,-⟩:=htouch
    by_cases hjk : j=k
    · subst hjk
      rcases hg with hin | ⟨hsize,hnone,nd₁,hnd₁,hlarge⟩
      · refine .inl fun v p hv => ?_
        rw [hmaps,update_self]
        exact (hin v p hv).touch (fun _ hr => hfrom.lookup_eq hr) hold
      · cases hk.symm.trans hnd₁
        have hother : g.vpn / 512≠region2mb req.address := fun heq => hfresh (heq ▸ hnone) hlarge
        refine .inr ⟨hsize,?_,hkeeps nd hk hlarge⟩
        rw [hmaps,update_self,AList.lookup_insert_ne hother]
        exact hnone
    · have hsame : s'.maps j=s.maps j := by rw [hmaps,update_of_ne hjk]
      rcases hg with hin | ⟨hsize,hnone,nd₁,hnd₁,hlarge⟩
      · exact .inl fun v p hv => hsame ▸ hin v p hv
      · exact .inr ⟨hsize,hsame ▸ hnone,hkeeps nd₁ hnd₁ hlarge⟩
  · obtain ⟨nd',b,p,-,-,-,-,hmaps⟩:=htake
    rcases hg with hin | ⟨hsize,hnone,nd₁,hnd₁,hlarge⟩
    · exact .inl fun v p hv => hmaps ▸ hin v p hv
    · exact .inr ⟨hsize,hmaps ▸ hnone,hkeeps nd₁ hnd₁ hlarge⟩

theorem settled_new (h : s.ServedBy k req a s') : Settled s' ⟨(),req.address / 2^12,a⟩ k := by
  have hkeeps := noLarge_served (j:=k) h
  obtain ⟨nd,hk,⟨htouch,-⟩ | ⟨hnone,hlarge,page,rfl,htake⟩⟩:=h
  · exact .inl fun v p hv => touches_inRegion htouch hv
  · obtain ⟨nd',b,p,-,-,-,-,hmaps⟩:=htake
    refine .inr ⟨rfl,?_,hkeeps nd hk hlarge⟩
    rw [hmaps,vpn_region]
    exact hnone

theorem reserved_served (h : s.ServedBy k req a s') {r : ℕ} (hr : (s'.maps j).lookup r≠none) :
    (s.maps j).lookup r≠none ∨ (j=k ∧ r=region2mb req.address) := by
  obtain ⟨nd,hk,⟨htouch,-⟩ | ⟨-,-,page,rfl,htake⟩⟩:=h
  · obtain ⟨nd',b,old,-,-,-,-,hmaps,-⟩:=htouch
    by_cases hjk : j=k
    · subst hjk
      rw [hmaps,update_self] at hr
      by_cases hreg : r=region2mb req.address
      · exact .inr ⟨rfl,hreg⟩
      · rw [AList.lookup_insert_ne hreg] at hr
        exact .inl hr
    · rw [hmaps,update_of_ne hjk] at hr
      exact .inl hr
  · obtain ⟨nd',b,p,-,-,-,-,hmaps⟩:=htake
    exact .inl (hmaps ▸ hr)

end Settled

theorem step_homed {order : UtilizationSort} {t t' : NumaTraced} {req : NumaRequest} (h : t.Homed)
    (hhome : t.StaysHome req) (he : t.step order req = .ok t') : t'.Homed := by
  have howned := step_owned h.owned (demotesFull_of_canServe hhome.2) he
  obtain ⟨spent,hown⟩:=h.owned
  obtain ⟨⟨a,s'⟩,ha,he⟩:=bind_ok he
  cases he
  obtain ⟨-,hserved⟩:=NumaReservationThpAllocator.allocateFrom_serves
    (fun k nd hk => (hown.owned k nd hk).wellFormed) hhome.2 ha
  have hnew := served_onNode hown hserved
  obtain ⟨nd,b,-,hnodes,-⟩:=served_nodes hserved
  have hsame : ∀ (g : Grant Unit) k,
      g.OnNode s'.numa.nodes k ↔ g.OnNode t.allocator.numa.nodes k := by
    intro g k
    rw [hnodes]
    exact Grant.onNode_withBuddy
  -- an earlier grant of the region is on the node that serves the new one
  have hearlier : ∀g∈t.grants,g.vpn / 512=req.address / 2^12 / 512 → ∀k,
      g.OnNode t.allocator.numa.nodes k → k=t.allocator.target req := by
    intro g hg hreg k hon
    obtain ⟨nd',q,-,hq,-⟩:=id hon
    rw [← hon.node_eq hown.apart hq]
    exact hhome.1 g hg (hreg.trans (vpn_region _)) q hq
  have hnewAt : ∀k,(Grant.mk () (req.address / 2^12) a).OnNode s'.numa.nodes k →
      k=t.allocator.target req := by
    obtain ⟨spent',hown'⟩:=howned
    intro k hon
    obtain ⟨nd',q,-,hq,-⟩:=id hon
    rw [← hon.node_eq hown'.apart hq]
    exact hnew.node_eq hown'.apart hq
  refine ⟨howned,fun g hg => ?_,fun k r hr => ?_,fun g hg g' hg' hreg k k' hk hk' => ?_⟩
  · rcases mem_cons.mp hg with rfl | hg
    · exact ⟨_,hnew,settled_new hserved⟩
    · obtain ⟨k,hon,hset⟩:=h.settled g hg
      exact ⟨k,(hsame g k).mpr hon,hset.served hserved⟩
  · rcases reserved_served hserved hr with hold | ⟨rfl,rfl⟩
    · obtain ⟨g,hg,hreg,hon⟩:=h.reserved k r hold
      exact ⟨g,mem_cons_of_mem _ hg,hreg,(hsame g k).mpr hon⟩
    · exact ⟨_,mem_cons_self,vpn_region _,hnew⟩
  · rcases mem_cons.mp hg with rfl | hg <;> rcases mem_cons.mp hg' with rfl | hg'
    · exact (hnewAt k hk).trans (hnewAt k' hk').symm
    · exact (hnewAt k hk).trans (hearlier g' hg' hreg.symm k' ((hsame g' k').mp hk')).symm
    · exact (hearlier g hg hreg k ((hsame g k).mp hk)).trans (hnewAt k' hk').symm
    · exact h.sameNode g hg g' hg' hreg k k' ((hsame g k).mp hk) ((hsame g' k').mp hk')

theorem Homed.oneReservation {t : NumaTraced} (h : t.Homed) : t.OneReservation := by
  intro r i j hi hj
  obtain ⟨g,hg,hreg,hon⟩:=h.reserved i r hi
  obtain ⟨g',hg',hreg',hon'⟩:=h.reserved j r hj
  exact h.sameNode g hg g' hg' (hreg.trans hreg'.symm) i j hon hon'

theorem gives_region {g : Grant Unit} {v p : ℕ} (h : g.Gives v p) : v / 512=g.vpn / 512 := by
  cases hq : g.allocation.ppn with
  | none =>
    rw [Grant.Gives,hq] at h
    exact h.elim
  | some q =>
    rw [Grant.Gives,hq] at h
    dsimp only at h
    split_ifs at h
    · exact h.1
    · rw [h.1]

theorem Homed.keepsFrames {t : NumaTraced} (h : t.Homed) : t.KeepsFrames := by
  intro g hg hsize g' hg' v p hv hreg
  obtain ⟨k,hon,hset⟩:=h.settled g hg
  obtain ⟨k',hon',hset'⟩:=h.settled g' hg'
  obtain rfl : k=k':=h.sameNode g hg g' hg' (hreg.symm.trans (gives_region hv)) k k' hon hon'
  obtain ⟨nd,q,-,hq,-⟩:=hon
  have hgives : g.Gives v (q+v % 512) := by
    simp only [Grant.Gives,hq,if_pos hsize]
    exact ⟨hreg,trivial⟩
  rcases hset with hin | ⟨hsmall,-⟩
  · obtain ⟨region,hlook,heq,-⟩:=hin v _ hgives
    rcases hset' with hin' | ⟨-,hnone,-⟩
    · obtain ⟨region',hlook',rfl,-⟩:=hin' v p hv
      cases hlook.symm.trans hlook'
      rwa [heq] at hgives
    · rw [← gives_region hv,hlook] at hnone
      cases hnone
  · omega

end NumaTraced

/-- For every policy and number of nodes, a run in which the engine keeps choosing the node of
the region, and that node has room, reserves each region on one node and promotes it without
moving a page. -/
theorem regions_stay_home
    (hsizes : ∀x∈perNodeMemMb.zip perNodeKernelMb,x.1.toNat<2^31 ∧ x.2.toNat<2^31)
    (hnew : NumaReservationThpAllocator.new numNodes perNodeMemMb perNodeKernelMb maxOrder fragType
      threshold policy utilizationThreshold applicationCores = .ok s)
    (engine : NumaPlacementEngine) {calls : List NumaRequest}
    (hhome : Along (NumaTraced.step order) NumaTraced.StaysHome ⟨{s with engine},[]⟩ calls)
    {pre : List NumaRequest} (hpre : pre <+: calls) {t : NumaTraced}
    (hrun : run (NumaTraced.step order) ⟨{s with engine},[]⟩ pre = .ok t) :
    t.OneReservation ∧ t.KeepsFrames := by
  obtain ⟨post,rfl⟩:=hpre
  have hown := new_numaOwned hsizes hnew
  have hempty : s.maps=fun _ => ∅ := by
    obtain ⟨numa,-,hs⟩:=bind_ok hnew
    cases hs
    rfl
  have hinit : NumaTraced.Homed ⟨{s with engine},[]⟩ := by
    refine ⟨⟨_,hown⟩,fun g hg => absurd hg not_mem_nil,fun k r hr => ?_,fun g hg => absurd hg not_mem_nil⟩
    rw [hempty] at hr
    exact absurd (AList.lookup_empty r) hr
  have hhomed := run_invariant (fun t req t' ht hG he => NumaTraced.step_homed ht hG he) hinit
    hhome.left hrun
  exact ⟨hhomed.oneReservation,hhomed.keepsFrames⟩

/-- Two pages of one region on the preferred node; the second one promotes the region. -/
theorem regions_stay_home_preferred : ∃s,twoNodes [2,2] [0,0] (1 / 512) .preferred = .ok s ∧
    ∃t,run (NumaTraced.step .insertion) ⟨s,[]⟩ (touches [0,2^12]) = .ok t ∧
    (t.grants.map fun g => (g.allocation.ppn,g.allocation.pageSize))=[(some 0,21),(some 0,12)] ∧
    t.OneReservation ∧ t.KeepsFrames := by
  refine exists_ok_ok_and (P:=fun s _ =>
    (∃nd,s.numa.nodes[s.target ⟨4096,0,none⟩]?=some nd ∧ nd.buddy.freeList 9≠[]) ∧
    ∃t₁,NumaTraced.step .insertion ⟨s,[]⟩ ⟨4096,0,none⟩ = .ok t₁ ∧
      (∀g∈t₁.grants,g.allocation.ppn=some 0) ∧ t₁.allocator.getNumaNodeForPpn 0=0 ∧
      t₁.allocator.target ⟨4096,2^12,none⟩=0 ∧
      ∃nd,t₁.allocator.numa.nodes[0]?=some nd ∧ (t₁.allocator.maps 0).lookup 0≠none) (by decide +kernel) ?_
  rintro s t hs ht ⟨⟨nd,hnode,hfree⟩,t₁,ht₁,hfirst,hat,htarget,nd',hnode',hregion⟩
  refine regions_stay_home .insertion (by simp) hs s.engine ?_ prefix_rfl ht
  refine ⟨⟨fun g hg => absurd hg not_mem_nil,nd,hnode,.inr (.inr ⟨9,?_,hfree⟩)⟩,
    fun u hu => ⟨⟨fun g hg _ q hq => ?_,?_⟩,fun _ _ => trivial⟩⟩
  · exact (show Buddy.orderOf 4096=0 from ceilLog2_two_pow 0).le.trans (by decide)
  · cases ht₁.symm.trans hu
    cases (hfirst g hg).symm.trans hq
    exact hat.trans htarget.symm
  · cases ht₁.symm.trans hu
    rw [show t₁.allocator.target _=0 from htarget]
    exact ⟨nd',hnode',.inl hregion⟩

/-- Three first touches of one region under the INTERLEAVE policy with two nodes: both nodes
reserve a block for the region, and when the first node promotes it, the second page moves
from the other node to page 1. -/
theorem interleaving_splits_region : ∃s,twoNodes [2,2] [0,0] (1 / 512) .interleave = .ok s ∧
    ∃t,run (NumaTraced.step .insertion) ⟨s,[]⟩ (touches [0,2^12,2^13]) = .ok t ∧
    ¬ t.OneReservation ∧ ¬ t.KeepsFrames := by
  refine exists_ok_ok (P:=fun _ t =>
    (t.allocator.maps 0).lookup 0≠none ∧ (t.allocator.maps 1).lookup 0≠none ∧
    (∃g∈t.grants,g.vpn=2 ∧ g.allocation.ppn=some 0 ∧ g.allocation.pageSize=21) ∧
    ∃g∈t.grants,g.vpn=1 ∧ g.allocation.ppn=some 513 ∧ g.allocation.pageSize=12) (by decide +kernel) ?_
  rintro s t - - ⟨hzero,hone,⟨g,hg,hlarge⟩,g',hg',hsmall⟩
  refine ⟨fun hres => ?_,fun hkeep => ?_⟩
  · have : 0=1 := hres 0 0 1 hzero hone
    omega
  · have hgives : g'.Gives 1 513 := by simp [Grant.Gives,hsmall]
    have hmoved := hkeep g hg hlarge.2.2 g' hg' 1 513 hgives (by rw [hlarge.1])
    simp [Grant.Gives,hlarge] at hmoved

end Sniper.PhysicalMemory
