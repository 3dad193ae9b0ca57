import Sniper.NumaOwnership

/-!
# Data frames stay behind the kernels of their nodes

A demotion returns with each unused page its right neighbour, so pages may be free twice.
-/

namespace Sniper.PhysicalMemory
open BuddyAllocator FallibleRuns IntervalTilings Function List

/-- Where a node lies; its kernel comes first. -/
structure NodeLayout where
  basePfn : ℕ
  numPages : ℕ
  kernelPages : ℕ

def NodeBuddy.layout (nd : NodeBuddy) : NodeLayout := ⟨nd.basePfn,nd.numPages,nd.kernelPages⟩

theorem NodeBuddy.owns_congr {nd nd' : NodeBuddy} (h : nd'.layout=nd.layout) {p : ℕ} :
    nd'.Owns p ↔ nd.Owns p := by
  simp only [NodeBuddy.layout,NodeLayout.mk.injEq] at h
  rw [NodeBuddy.Owns,NodeBuddy.Owns,h.1,h.2.1,h.2.2]

theorem exists_layout {nodes nodes' : List NodeBuddy}
    (h : nodes'.map NodeBuddy.layout=nodes.map NodeBuddy.layout) {k : ℕ} {nd : NodeBuddy}
    (hk : nodes[k]?=some nd) : ∃nd',nodes'[k]?=some nd' ∧ nd'.layout=nd.layout := by
  have hmap := congrArg (·[k]?) h
  simp only [List.getElem?_map,hk,Option.map_some] at hmap
  exact Option.map_eq_some_iff.mp hmap

theorem owned_congr {nodes nodes' : List NodeBuddy}
    (h : nodes'.map NodeBuddy.layout=nodes.map NodeBuddy.layout) {p : ℕ} (hp : ∃nd∈nodes,nd.Owns p) :
    ∃nd∈nodes',nd.Owns p := by
  obtain ⟨nd,hnd,hown⟩:=hp
  obtain ⟨k,hk⟩:=mem_iff_getElem?.mp hnd
  obtain ⟨nd',hk',hsame⟩:=exists_layout h hk
  exact ⟨nd',mem_of_getElem? hk',(NodeBuddy.owns_congr hsame).mpr hown⟩

theorem layout_withBuddy (nodes : List NodeBuddy) (k : ℕ) (b : Buddy) :
    (withBuddy nodes k b).map NodeBuddy.layout=nodes.map NodeBuddy.layout := by
  apply ext_getElem?
  intro j
  rw [List.getElem?_map,List.getElem?_map]
  by_cases hj : j=k
  · subst hj
    cases hnode : nodes[j]? with
    | none => rw [withBuddy,List.getElem?_modify,hnode]; rfl
    | some nd => rw [withBuddy_self hnode]; rfl
  · rw [withBuddy_of_ne hj]

/-- The free and the reserved pages of the node lie behind its kernel. A node with such pages has
blocks of two pages. -/
structure NodeContained (nd : NodeBuddy) (m : AList (fun _ : ℕ => Region)) : Prop where
  wellFormed : nd.buddy.WellFormed
  free : ∀p∈nd.freeCells,nd.Owns p
  reserved : ∀p∈reservedCells m,nd.Owns p
  halves : ∀p,nd.Owns p → 1≤nd.buddy.maxOrder

namespace NodeContained

variable {nd : NodeBuddy} {m : AList (fun _ : ℕ => Region)} {b : Buddy}

variable (h : NodeContained nd m)
include h

theorem owns_taken {p n : ℕ} (htake : nd.buddy.Takes b (Multiset.Ico p (p+n))) {q : ℕ}
    (hq : q∈Multiset.Ico (p+nd.basePfn) (p+nd.basePfn+n)) : nd.Owns q := by
  apply h.free
  rw [NodeBuddy.freeCells_takes htake]
  exact Multiset.mem_add.mpr (.inr hq)

theorem takes {p n : ℕ} (htake : nd.buddy.Takes b (Multiset.Ico p (p+n))) :
    NodeContained {nd with buddy:=b} m := by
  refine ⟨htake.wellFormed,fun q hq => h.free q ?_,h.reserved,fun q hq => ?_⟩
  · rw [NodeBuddy.freeCells_takes htake]
    exact Multiset.mem_add.mpr (.inl hq)
  · rw [htake.maxOrder]
    exact h.halves q hq

theorem erase {r : ℕ} {old : Region} (hlook : m.lookup r=some old) : NodeContained nd (m.erase r) := by
  refine ⟨h.wellFormed,h.free,fun p hp => h.reserved p ?_,h.halves⟩
  rw [reservedCells_of_lookup hlook]
  exact Multiset.mem_add.mpr (.inr hp)

theorem owns_region {r : ℕ} {old : Region} (hlook : m.lookup r=some old) {p : ℕ} (hp : p∈old.cells) :
    nd.Owns p :=
  h.reserved p (Multiset.mem_of_le (cells_le_reservedCells hlook) hp)

theorem returns {p : ℕ} (hp : nd.Owns p) (hnext : nd.Owns (p+1)) :
    ∃b,nd.buddy.free (p - nd.basePfn) (p+1 - nd.basePfn) = .ok b ∧
      NodeContained {nd with buddy:=b} m := by
  have hbase : nd.basePfn≤p := hp.inside.1
  have hspans : Interval.Spans ⟨p - nd.basePfn,p+1 - nd.basePfn⟩ (2^1) := by
    rw [Interval.Spans]
    dsimp only
    omega
  obtain ⟨b,hfree,hmax,hwf,hcells,-⟩:=Buddy.free_spec h.wellFormed hspans (h.halves p hp)
  refine ⟨b,hfree,hwf,fun q hq => ?_,h.reserved,fun q hq => ?_⟩
  · rw [NodeBuddy.freeCells,hcells,Multiset.map_add,Multiset.mem_add] at hq
    rcases hq with hq | hq
    · exact h.free q hq
    · obtain ⟨i,hi,rfl⟩:=Multiset.mem_map.mp hq
      rw [Interval.mem_cells,Interval.Contains] at hi
      dsimp only at hi ⊢
      have hcases : i+nd.basePfn=p ∨ i+nd.basePfn=p+1 := by omega
      rcases hcases with heq | heq
      · rw [heq]
        exact hp
      · rw [heq]
        exact hnext
  · rw [hmax]
    exact h.halves q hq

end NodeContained

theorem ObtainsOnNode.owns {nd : NodeBuddy} {m : AList (fun _ : ℕ => Region)} {r : ℕ} {old : Region} {b : Buddy}
    (h : ObtainsOnNode nd m r old b) (hnd : NodeContained nd m) {p : ℕ} (hp : p∈old.cells) : nd.Owns p := by
  rcases h with ⟨hlook,-⟩ | ⟨-,q,rfl,htake⟩
  · exact hnd.owns_region hlook hp
  · exact hnd.owns_taken htake hp

theorem ObtainsOnNode.nodeContained {nd : NodeBuddy} {m : AList (fun _ : ℕ => Region)} {r : ℕ}
    {old : Region} {b : Buddy} (h : ObtainsOnNode nd m r old b) (hnd : NodeContained nd m) (t : ℚ)
    (offset : Fin 512) :
    NodeContained {nd with buddy:=b} (m.insert r (old.touch t offset)) := by
  have hreserved : ∀p∈reservedCells (m.insert r (old.touch t offset)),nd.Owns p := by
    intro p hp
    rw [reservedCells_insert,Region.touch_cells,Multiset.mem_add] at hp
    rcases hp with hp | hp
    · exact h.owns hnd hp
    · cases hlook : m.lookup r with
      | none =>
        rw [reservedCells_erase_of_lookup_none hlook] at hp
        exact hnd.reserved p hp
      | some reg => exact (hnd.erase hlook).reserved p hp
  rcases h with ⟨-,rfl⟩ | ⟨-,q,-,htake⟩
  · exact ⟨hnd.wellFormed,hnd.free,hreserved,hnd.halves⟩
  · have hrest := hnd.takes htake
    exact ⟨hrest.wellFormed,hrest.free,hreserved,hrest.halves⟩

theorem Region.mem_cells_of_holds {old : Region} {t : ℚ} {offset : Fin 512} {vpn p : ℕ}
    (h : (Grant.mk () vpn ((old.touch t offset).grant offset)).Holds p) : p∈old.cells := by
  rw [Region.mem_cells]
  rw [Region.grant] at h
  split_ifs at h with hprom
  · exact h
  · obtain rfl : p=old.regionBegin+offset:=h
    omega

structure Contained (nodes : List NodeBuddy) (maps : ℕ → AList (fun _ : ℕ => Region)) : Prop where
  apart : nodes.Pairwise fun a b => a.basePfn+a.numPages≤b.basePfn
  contained : ∀i nd,nodes[i]?=some nd → NodeContained nd (maps i)

namespace Contained

variable {nodes : List NodeBuddy} {maps : ℕ → AList (fun _ : ℕ => Region)} {k : ℕ} {nd : NodeBuddy}

theorem replace (h : Contained nodes maps) (hk : nodes[k]?=some nd) {b : Buddy}
    {m : AList (fun _ : ℕ => Region)} (hnd : NodeContained {nd with buddy:=b} m) :
    Contained (withBuddy nodes k b) (update maps k m) := by
  refine ⟨apart_withBuddy h.apart,fun i nd' hi => ?_⟩
  by_cases hik : i=k
  · subst hik
    rw [withBuddy_self hk,Option.some_inj] at hi
    rw [update_self,← hi]
    exact hnd
  · rw [withBuddy_of_ne hik] at hi
    rw [update_of_ne hik]
    exact h.contained i nd' hi

theorem erase (h : Contained nodes maps) {r : ℕ} {old : Region} (hlook : (maps k).lookup r=some old) :
    Contained nodes (update maps k ((maps k).erase r)) := by
  refine ⟨h.apart,fun i nd' hi => ?_⟩
  by_cases hik : i=k
  · subst hik
    rw [update_self]
    exact (h.contained i nd' hi).erase hlook
  · rw [update_of_ne hik]
    exact h.contained i nd' hi

end Contained

theorem NumaBuddyAllocator.free_contained {numa numa' : NumaBuddyAllocator}
    {maps : ℕ → AList (fun _ : ℕ => Region)} {k p : ℕ} {nd : NodeBuddy} (h : Contained numa.nodes maps)
    (hk : numa.nodes[k]?=some nd) (hp : nd.Owns p) (hnext : nd.Owns (p+1))
    (he : numa.free p (p+1) = .ok numa') : Contained numa'.nodes maps ∧
      numa'.nodes.map NodeBuddy.layout=numa.nodes.map NodeBuddy.layout := by
  obtain ⟨b,hb,hnd⟩:=(h.contained k nd hk).returns hp hnext
  have hnode : numa.getNodeForPfn p=k := NumaTraced.getNodeForPfn_eq h.apart hk hp.inside
  simp only [NumaBuddyAllocator.free,hnode,hk,hb,ok_bind] at he
  cases he
  have hreplace := h.replace hk hnd
  rw [update_eq_self] at hreplace
  exact ⟨hreplace,layout_withBuddy _ _ _⟩

namespace NumaReservationThpAllocator

variable {s s' : NumaReservationThpAllocator} {k : ℕ}

/-- Every region of the node that could be demoted has its last page in use, or the node goes on
behind it. -/
def EndsInside (s : NumaReservationThpAllocator) (k : ℕ) : Prop :=
  ∀nd r region,s.numa.nodes[k]?=some nd → (s.maps k).lookup r=some region →
    region.promoted=false → Fin.last 511∈region.bits ∨ nd.Owns (region.regionBegin+512)

theorem freeUnusedOnNode_contained {numa numa' : NumaBuddyAllocator} {maps : ℕ → AList (fun _ : ℕ => Region)}
    {nd : NodeBuddy} {region : Region} {r : ℕ} (h : Contained numa.nodes maps) (hk : numa.nodes[k]?=some nd)
    (hlook : (maps k).lookup r=some region)
    (hlast : Fin.last 511∈region.bits ∨ nd.Owns (region.regionBegin+512))
    (he : freeUnusedOnNode region numa = .ok numa') : Contained numa'.nodes maps ∧
      numa'.nodes.map NodeBuddy.layout=numa.nodes.map NodeBuddy.layout := by
  have howns : ∀j : Fin 512,nd.Owns (region.regionBegin+j) := by
    intro j
    apply (h.contained k nd hk).owns_region hlook
    rw [Region.mem_cells]
    omega
  have hnext : ∀j : Fin 512,j∉region.bits → nd.Owns (region.regionBegin+j+1) := by
    intro j hj
    by_cases hj511 : j=Fin.last 511
    · subst hj511
      exact hlast.resolve_left hj
    · have hval : j.val+1<512 := by
        have hne := Fin.val_ne_of_ne hj511
        rw [Fin.val_last] at hne
        omega
      exact howns ⟨j+1,hval⟩
  refine run_invariant (I:=fun numa'' => Contained numa''.nodes maps ∧
      numa''.nodes.map NodeBuddy.layout=numa.nodes.map NodeBuddy.layout) (G:=fun _ _ => True)
    ?_ ⟨h,rfl⟩ (along_of_forall (fun _ _ => trivial) _ _) he
  rintro t j t' ⟨ht,hlayout⟩ - hstep
  obtain ⟨nd',hk',hsame⟩:=exists_layout hlayout hk
  split_ifs at hstep with hj
  · cases hstep
    exact ⟨ht,hlayout⟩
  · obtain ⟨ht',hlayout'⟩:=NumaBuddyAllocator.free_contained ht hk'
      ((NodeBuddy.owns_congr hsame).mpr (howns j)) ((NodeBuddy.owns_congr hsame).mpr (hnext j hj)) hstep
    exact ⟨ht',hlayout'.trans hlayout⟩

theorem demotePageOnNode_contained {order : UtilizationSort} {demoted : Bool}
    (h : Contained s.numa.nodes s.maps) (hends : s.EndsInside k)
    (he : s.demotePageOnNode order k = .ok (demoted,s')) : Contained s'.numa.nodes s'.maps ∧
      s'.numa.nodes.map NodeBuddy.layout=s.numa.nodes.map NodeBuddy.layout := by
  rw [demotePageOnNode] at he
  split_ifs at he with hlen
  · cases he
    exact ⟨h,rfl⟩
  · obtain ⟨nd,hk⟩ : ∃nd,s.numa.nodes[k]?=some nd:=⟨_,List.getElem?_eq_getElem (not_le.mp hlen)⟩
    cases hv : victimOnNode order (s.maps k) with
    | none =>
      rw [hv] at he
      cases he
      exact ⟨h,rfl⟩
    | some v =>
      obtain ⟨r,region⟩:=v
      obtain ⟨hlook,hprom⟩:=victimOnNode_some hv
      rw [hv] at he
      obtain ⟨numa,hfree,he⟩:=bind_ok he
      cases he
      obtain ⟨hnuma,hlayout⟩:=freeUnusedOnNode_contained h hk hlook
        (hends nd r region hk hlook hprom) hfree
      exact ⟨hnuma.erase hlook,hlayout⟩

theorem Answers.contained {req : NumaRequest} {a : Allocation} (h : s.Answers req a s')
    (hs : Contained s.numa.nodes s.maps) : (Contained s'.numa.nodes s'.maps ∧
      s'.numa.nodes.map NodeBuddy.layout=s.numa.nodes.map NodeBuddy.layout) ∧
      ∀vpn p,(Grant.mk () vpn a).Holds p → ∃nd∈s.numa.nodes,nd.Owns p := by
  obtain ⟨k,htouch | ⟨page,rfl,htake⟩⟩:=h
  · obtain ⟨nd,b,old,hk,-,hfrom,hnodes,hmaps,rfl⟩:=htouch
    have hnd := hs.contained k nd hk
    rw [hnodes,hmaps]
    refine ⟨⟨hs.replace hk (hfrom.nodeContained hnd _ _),layout_withBuddy _ _ _⟩,?_⟩
    intro vpn p hp
    exact ⟨nd,mem_of_getElem? hk,hfrom.owns hnd (Region.mem_cells_of_holds hp)⟩
  · obtain ⟨nd,b,p,hk,rfl,htake,hnodes,hmaps⟩:=htake
    have hnd := hs.contained k nd hk
    have hreplace := hs.replace hk (hnd.takes htake)
    rw [update_eq_self] at hreplace
    rw [hnodes,hmaps]
    refine ⟨⟨hreplace,layout_withBuddy _ _ _⟩,?_⟩
    intro vpn q hq
    obtain rfl : q=p+nd.basePfn:=hq
    refine ⟨nd,mem_of_getElem? hk,hnd.owns_taken htake ?_⟩
    exact Multiset.mem_Ico.mpr ⟨le_rfl,Nat.lt_add_of_pos_right (Nat.two_pow_pos _)⟩

theorem allocate_contained {order : UtilizationSort} {req : NumaRequest} {a : Allocation}
    (h : Contained s.numa.nodes s.maps)
    (hends : s.UnderPressureOnNode (s.target req) req → s.EndsInside (s.target req))
    (he : s.allocate order req = .ok (a,s')) : (Contained s'.numa.nodes s'.maps ∧
      s'.numa.nodes.map NodeBuddy.layout=s.numa.nodes.map NodeBuddy.layout) ∧
      ∀vpn p,(Grant.mk () vpn a).Holds p → ∃nd∈s'.numa.nodes,nd.Owns p := by
  obtain ⟨s₁,hs₁,hanswer⟩:=allocateFrom_cases (fun k nd hk => (h.contained k nd hk).wellFormed)
    (fun demoted s₁ hpress hdem k nd hk =>
      ((demotePageOnNode_contained h (hends hpress) hdem).1.contained k nd hk).wellFormed) he
  have hsettled : Contained s₁.numa.nodes s₁.maps ∧
      s₁.numa.nodes.map NodeBuddy.layout=s.numa.nodes.map NodeBuddy.layout := by
    rcases hs₁ with rfl | ⟨hpress,demoted,hdem⟩
    · exact ⟨h,rfl⟩
    · exact demotePageOnNode_contained h (hends hpress) hdem
  obtain ⟨⟨hcont,hlayout⟩,hpages⟩:=hanswer.contained hsettled.1
  refine ⟨⟨hcont,hlayout.trans hsettled.2⟩,?_⟩
  intro vpn p hp
  exact owned_congr hlayout (hpages vpn p hp)

end NumaReservationThpAllocator

theorem pagesIn_le_of_single {memorySize kernelSize : Int32} {fragType : String} {b : Buddy}
    (h : Buddy.new memorySize 0 kernelSize fragType = .ok b) :
    Buddy.pagesIn memorySize≤Buddy.pagesIn kernelSize := by
  rw [Buddy.new,if_neg (by decide)] at h
  obtain ⟨lists,hfill,-⟩:=bind_ok h
  rw [Buddy.fillLoop] at hfill
  split_ifs at hfill with hlt
  exact not_lt.mp hlt

theorem pages_le_pages {memMb kernelMb : UInt64} (hle : kernelMb ≤ memMb) (hmem : memMb.toNat<2^31) :
    NumaBuddyAllocator.pages kernelMb≤NumaBuddyAllocator.pages memMb := by
  have hnat := UInt64.le_iff_toNat_le.mp hle
  have hpages : ∀mb : UInt64,mb.toNat<2^31 →
      NumaBuddyAllocator.pages mb=mb.toNat*1024 / 4 := by
    intro mb hmb
    show mb.toNat*1024 % 2^64 / 4=mb.toNat*1024 / 4
    rw [Nat.mod_eq_of_lt (by omega)]
  rw [hpages _ hmem,hpages _ (hnat.trans_lt hmem)]
  exact Nat.div_le_div_right (Nat.mul_le_mul_right _ hnat)

theorem buildNodes_layout {maxOrder : ℕ} {fragType : String} {base : ℕ} {sizes : List (UInt64 × UInt64)}
    {nodes : List NodeBuddy} (hsizes : ∀x∈sizes,x.2≤x.1 ∧ x.1.toNat<2^31)
    (h : NumaBuddyAllocator.buildNodes maxOrder fragType base sizes = .ok nodes) :
    nodes.length=sizes.length ∧ (∀nd,nodes[0]?=some nd → nd.basePfn=base) ∧
      ∀nd∈nodes,nd.kernelPages≤nd.numPages ∧ ∀p,nd.Owns p → 1≤nd.buddy.maxOrder := by
  induction sizes generalizing base nodes with
  | nil =>
    cases h
    refine ⟨rfl,fun nd hnd => ?_,fun nd hnd => absurd hnd not_mem_nil⟩
    cases hnd
  | cons x sizes ih =>
    obtain ⟨memMb,kernelMb⟩:=x
    obtain ⟨buddy,hbuddy,h⟩:=bind_ok h
    obtain ⟨rest,hrest,h⟩:=bind_ok h
    cases h
    obtain ⟨hle,hmem⟩ : kernelMb ≤ memMb ∧ memMb.toNat<2^31:=hsizes (memMb,kernelMb) mem_cons_self
    have hkernel : kernelMb.toNat<2^31 := (UInt64.le_iff_toNat_le.mp hle).trans_lt hmem
    obtain ⟨hlength,-,hnodes⟩:=ih (fun x hx => hsizes x (mem_cons_of_mem _ hx)) hrest
    refine ⟨congrArg (· + 1) hlength,fun nd hnd => ?_,fun nd hnd => ?_⟩
    · cases hnd
      rfl
    · rcases mem_cons.mp hnd with rfl | hnd
      · refine ⟨pages_le_pages hle hmem,fun p hp => ?_⟩
        obtain ⟨hmax,-⟩:=Buddy.new_ok hbuddy
        rw [hmax,Nat.one_le_iff_ne_zero]
        rintro rfl
        have hempty := pagesIn_le_of_single hbuddy
        rw [pagesIn_toInt hmem,pagesIn_toInt hkernel] at hempty
        obtain ⟨hlow,hhigh⟩:=hp
        dsimp only at hlow hhigh
        omega
      · exact hnodes nd hnd

/-- The nodes lie one behind the other from page 0. -/
structure KernelLayout (nodes : List NodeLayout) : Prop where
  apart : nodes.Pairwise fun a b => a.basePfn+a.numPages≤b.basePfn
  nonempty : nodes≠[]
  first : ∀nd,nodes[0]?=some nd → nd.basePfn=0
  kernel_le : ∀nd∈nodes,nd.kernelPages≤nd.numPages

theorem new_contained {numNodes maxOrder applicationCores : ℕ} {perNodeMemMb perNodeKernelMb : List UInt64}
    {fragType : String} {threshold utilizationThreshold : ℚ} {policy : NumaPolicy}
    {s : NumaReservationThpAllocator}
    (hsizes : ∀x∈(perNodeMemMb.zip perNodeKernelMb).take numNodes,x.2≤x.1 ∧ x.1.toNat<2^31)
    (h : NumaReservationThpAllocator.new numNodes perNodeMemMb perNodeKernelMb maxOrder fragType
      threshold policy utilizationThreshold applicationCores = .ok s) :
    Contained s.numa.nodes s.maps ∧ KernelLayout (s.numa.nodes.map NodeBuddy.layout) := by
  obtain ⟨numa,hnuma,h⟩:=bind_ok h
  cases h
  rw [NumaBuddyAllocator.new] at hnuma
  split_ifs at hnuma with hargs
  obtain ⟨nodes,hnodes,hnuma⟩:=bind_ok hnuma
  cases hnuma
  obtain ⟨hlength,hfirst,hkernel⟩:=buildNodes_layout hsizes hnodes
  obtain ⟨hown,hapart⟩:=buildNodes_ok (fun x hx => ⟨(hsizes x hx).2,
    (UInt64.le_iff_toNat_le.mp (hsizes x hx).1).trans_lt (hsizes x hx).2⟩) hnodes
  refine ⟨⟨hapart,fun i nd hi => ?_⟩,?_⟩
  · have hnd := mem_of_getElem? hi
    have howned := (hown nd hnd).2
    exact ⟨howned.wellFormed,fun p hp => howned.owns_free hp,fun p hp => absurd hp (Multiset.notMem_zero p),
      (hkernel nd hnd).2⟩
  · refine ⟨pairwise_map.mpr hapart,?_,?_,?_⟩
    · intro hnil
      have hnodes : nodes=[] := map_eq_nil_iff.mp hnil
      rw [hnodes,length_take,length_zip,length_nil] at hlength
      omega
    · intro r hr
      rw [List.getElem?_map,Option.map_eq_some_iff] at hr
      obtain ⟨nd,hnd,rfl⟩:=hr
      exact hfirst nd hnd
    · intro r hr
      obtain ⟨nd,hnd,rfl⟩:=mem_map.mp hr
      exact (hkernel nd hnd).1

end Sniper.PhysicalMemory
