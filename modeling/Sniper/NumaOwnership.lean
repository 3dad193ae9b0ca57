import Sniper.NumaAllocator
import Sniper.PageGrants

/-!
# Which node owns which page

On every node the free pages, the reserved blocks and the pages that were given away for good make
up the pages after the kernel, each once.
-/

namespace Sniper.PhysicalMemory
open BuddyAllocator FallibleRuns IntervalTilings Function List

/-- The free pages of a node under their global numbers. -/
def NodeBuddy.freeCells (nd : NodeBuddy) : Multiset ℕ := nd.buddy.freeCells.map (· + nd.basePfn)

def NodeBuddy.cells (nd : NodeBuddy) : Multiset ℕ :=
  Multiset.Ico (nd.basePfn+nd.kernelPages) (nd.basePfn+nd.numPages)

/-- The page is one of the node's, behind its kernel. -/
def NodeBuddy.Owns (nd : NodeBuddy) (p : ℕ) : Prop := nd.basePfn+nd.kernelPages≤p ∧ p<nd.basePfn+nd.numPages

theorem NodeBuddy.mem_cells {nd : NodeBuddy} {p : ℕ} : p∈nd.cells ↔ nd.Owns p := Multiset.mem_Ico

theorem NodeBuddy.freeCells_takes {nd : NodeBuddy} {b : Buddy} {p n : ℕ}
    (h : nd.buddy.Takes b (Multiset.Ico p (p+n))) :
    nd.freeCells=NodeBuddy.freeCells {nd with buddy:=b} +
      Multiset.Ico (p+nd.basePfn) (p+nd.basePfn+n) := by
  rw [NodeBuddy.freeCells,h.cells,Multiset.map_add,Multiset.map_add_right_Ico,Nat.add_right_comm p n]
  rfl

/-- The pages of one node are free, reserved or spent, each exactly once. -/
structure NodeOwned (nd : NodeBuddy) (m : AList (fun _ : ℕ => Region)) (spent : Multiset ℕ) :
    Prop where
  wellFormed : nd.buddy.WellFormed
  cells : nd.freeCells+reservedCells m+spent=nd.cells

namespace NodeOwned

variable {nd : NodeBuddy} {m : AList (fun _ : ℕ => Region)} {spent : Multiset ℕ} {p v v' : ℕ}

variable (h : NodeOwned nd m spent)
include h

theorem nodup : (nd.freeCells+reservedCells m+spent).Nodup := by
  rw [h.cells]
  exact Multiset.nodup_Ico

theorem owns_free (hp : p∈nd.freeCells) : nd.Owns p := by
  rw [← NodeBuddy.mem_cells,← h.cells,Multiset.mem_add,Multiset.mem_add]
  exact .inl (.inl hp)

theorem owns_reserved (hp : p∈reservedCells m) : nd.Owns p := by
  rw [← NodeBuddy.mem_cells,← h.cells,Multiset.mem_add,Multiset.mem_add]
  exact .inl (.inr hp)

theorem owns_held (hp : InRegion m v p ∨ p∈spent) : nd.Owns p := by
  rcases hp with hp | hp
  · exact h.owns_reserved hp.mem_reservedCells
  · rw [← NodeBuddy.mem_cells,← h.cells,Multiset.mem_add]
    exact .inr hp

theorem reserved_not_spent (hp : p∈reservedCells m) : p∉spent :=
  Multiset.disjoint_left.mp (Multiset.nodup_add.mp h.nodup).2.2
    (Multiset.mem_add.mpr (.inr hp))

theorem free_not_held (hp : p∈nd.freeCells) : ¬ (InRegion m v p ∨ p∈spent) := by
  have hsplit := Multiset.nodup_add.mp h.nodup
  rintro (hin | hspent)
  · exact Multiset.disjoint_left.mp (Multiset.nodup_add.mp hsplit.1).2.2 hp hin.mem_reservedCells
  · exact Multiset.disjoint_left.mp hsplit.2.2 (Multiset.mem_add.mpr (.inl hp)) hspent

theorem reserved_nodup : (reservedCells m).Nodup :=
  (Multiset.nodup_add.mp (Multiset.nodup_add.mp h.nodup).1).2.1

end NodeOwned

/-- The region was reserved on the node before, or a free 2MB block is reserved for it now. -/
def ObtainsOnNode (nd : NodeBuddy) (m : AList (fun _ : ℕ => Region)) (r : ℕ) (old : Region) (b : Buddy) :
    Prop :=
  (m.lookup r=some old ∧ b=nd.buddy) ∨
    (m.lookup r=none ∧ ∃p,old=⟨p+nd.basePfn,∅,false⟩ ∧
      nd.buddy.Takes b (Multiset.Ico p (p+512)))

namespace ObtainsOnNode

variable {nd : NodeBuddy} {m : AList (fun _ : ℕ => Region)} {r : ℕ} {old : Region} {b : Buddy}

theorem lookup_eq (h : ObtainsOnNode nd m r old b) {reg : Region} (hr : m.lookup r=some reg) : reg=old := by
  rcases h with ⟨hlook,-⟩ | ⟨hlook,-⟩
  · exact Option.some.inj (hr.symm.trans hlook)
  · cases hr.symm.trans hlook

theorem nodeOwned {spent : Multiset ℕ} (h : ObtainsOnNode nd m r old b)
    (hnd : NodeOwned nd m spent) (t : ℚ) (offset : Fin 512) :
    NodeOwned {nd with buddy:=b} (m.insert r (old.touch t offset)) spent := by
  rcases h with ⟨hlook,rfl⟩ | ⟨hlook,p,rfl,htake⟩
  · refine ⟨hnd.wellFormed,?_⟩
    rw [reservedCells_insert,Region.touch_cells,← reservedCells_of_lookup hlook]
    exact hnd.cells
  · refine ⟨htake.wellFormed,?_⟩
    have hcells : Region.cells ⟨p+nd.basePfn,∅,false⟩ =
        Multiset.Ico (p+nd.basePfn) (p+nd.basePfn+512) := rfl
    rw [reservedCells_insert,Region.touch_cells,reservedCells_erase_of_lookup_none hlook,hcells,← add_assoc,
      ← NodeBuddy.freeCells_takes htake]
    exact hnd.cells

end ObtainsOnNode

variable {nd : NodeBuddy} {p : ℕ}

theorem NodeOwned.takes {m : AList (fun _ : ℕ => Region)} {spent : Multiset ℕ} {b : Buddy} {n : ℕ}
    (h : NodeOwned nd m spent) (htake : nd.buddy.Takes b (Multiset.Ico p (p+n))) :
    NodeOwned {nd with buddy:=b} m
      (Multiset.Ico (p+nd.basePfn) (p+nd.basePfn+n)+spent) := by
  refine ⟨htake.wellFormed,?_⟩
  have hcells := h.cells
  rw [NodeBuddy.freeCells_takes htake] at hcells
  refine Eq.trans ?_ hcells
  abel

theorem NodeOwned.erase {m : AList (fun _ : ℕ => Region)} {spent : Multiset ℕ} {r : ℕ} {old : Region}
    (h : NodeOwned nd m spent) (hlook : m.lookup r=some old) : NodeOwned nd (m.erase r) (old.cells+spent) := by
  refine ⟨h.wellFormed,?_⟩
  have hcells := h.cells
  rw [reservedCells_of_lookup hlook] at hcells
  refine Eq.trans ?_ hcells
  abel

theorem Grant.gives_inj {α : Type} {g : Grant α} {v v' : ℕ} (h : g.Gives v p) (h' : g.Gives v' p) : v=v' := by
  cases hq : g.allocation.ppn with
  | none =>
    rw [Grant.Gives,hq] at h
    exact h.elim
  | some q =>
    rw [Grant.Gives,hq] at h h'
    dsimp only at h h'
    split_ifs at h h'
    · omega
    · exact h.1.trans h'.1.symm

/-- The nodes follow one another, their pages are accounted for, and every page given away is
in the block of its region or spent, and was given to one virtual page. -/
structure NumaOwned (nodes : List NodeBuddy) (maps : ℕ → AList (fun _ : ℕ => Region))
    (spent : ℕ → Multiset ℕ) (grants : List (Grant Unit)) : Prop where
  apart : nodes.Pairwise fun a b => a.basePfn+a.numPages≤b.basePfn
  owned : ∀i nd,nodes[i]?=some nd → NodeOwned nd (maps i) (spent i)
  placed : ∀g∈grants,∀v p,g.Gives v p →
    ∃i nd,nodes[i]?=some nd ∧ (InRegion (maps i) v p ∨ p∈spent i)
  noReuse : ∀g∈grants,∀g'∈grants,∀v v' p,g.Gives v p → g'.Gives v' p → v=v'

theorem owner_unique {nodes : List NodeBuddy} (h : nodes.Pairwise fun a b => a.basePfn+a.numPages≤b.basePfn)
    {i j : ℕ} {nd' : NodeBuddy} (hi : nodes[i]?=some nd) (hj : nodes[j]?=some nd')
    (hp : nd.basePfn≤p ∧ p<nd.basePfn+nd.numPages) (hp' : nd'.basePfn≤p ∧ p<nd'.basePfn+nd'.numPages) : i=j :=
  row_unique NodeBuddy.basePfn (fun nd => nd.basePfn+nd.numPages) h hi hj hp hp'

theorem NodeBuddy.Owns.inside (h : nd.Owns p) : nd.basePfn≤p ∧ p<nd.basePfn+nd.numPages :=
  ⟨le_trans (Nat.le_add_right _ _) h.1,h.2⟩

section Replace

variable {nodes : List NodeBuddy} {maps : ℕ → AList (fun _ : ℕ => Region)}
  {spent : ℕ → Multiset ℕ} {grants : List (Grant Unit)} {k : ℕ} {nd : NodeBuddy} {b : Buddy}
  {m : AList (fun _ : ℕ => Region)} {sp : Multiset ℕ}

theorem withBuddy_self (h : nodes[k]?=some nd) :
    (withBuddy nodes k b)[k]?=some {nd with buddy:=b} := by
  rw [withBuddy,List.getElem?_modify,h]
  simp

theorem withBuddy_of_ne {j : ℕ} (h : j≠k) : (withBuddy nodes k b)[j]?=nodes[j]? := by
  rw [withBuddy,List.getElem?_modify]
  simp [Ne.symm h]

theorem withBuddy_same (h : nodes[k]?=some nd) : withBuddy nodes k nd.buddy=nodes := by
  apply ext_getElem?
  intro j
  by_cases hj : j=k
  · subst hj
    rw [withBuddy_self h,h]
  · exact withBuddy_of_ne hj

theorem apart_withBuddy (h : nodes.Pairwise fun a b => a.basePfn+a.numPages≤b.basePfn) :
    (withBuddy nodes k b).Pairwise fun a b => a.basePfn+a.numPages≤b.basePfn := by
  rw [pairwise_iff_getElem] at h ⊢
  intro i j hi hj hij
  rw [withBuddy,length_modify] at hi hj
  have := h i j hi hj hij
  simp only [withBuddy,getElem_modify]
  split_ifs <;> exact this

section

variable (h : NumaOwned nodes maps spent grants) (hk : nodes[k]?=some nd)
include h hk

theorem NumaOwned.replace (hnd : NodeOwned {nd with buddy:=b} m sp)
    (hheld : ∀v p,InRegion (maps k) v p ∨ p∈spent k → InRegion m v p ∨ p∈sp) :
    NumaOwned (withBuddy nodes k b) (update maps k m) (update spent k sp)
      grants := by
  refine ⟨apart_withBuddy h.apart,fun i nd' hi => ?_,fun g hg v p hgives => ?_,h.noReuse⟩
  · by_cases hik : i=k
    · subst hik
      rw [withBuddy_self hk,Option.some_inj] at hi
      rw [update_self,update_self,← hi]
      exact hnd
    · rw [withBuddy_of_ne hik] at hi
      rw [update_of_ne hik,update_of_ne hik]
      exact h.owned i nd' hi
  · obtain ⟨i,nd',hi,hplace⟩:=h.placed g hg v p hgives
    by_cases hik : i=k
    · subst hik
      refine ⟨i,_,withBuddy_self hk,?_⟩
      rw [update_self,update_self]
      exact hheld v p hplace
    · refine ⟨i,nd',(withBuddy_of_ne hik).trans hi,?_⟩
      rw [update_of_ne hik,update_of_ne hik]
      exact hplace

theorem NumaOwned.cons {g : Grant Unit} (hheld : ∀v p,g.Gives v p → InRegion (maps k) v p ∨ p∈spent k)
    (hfresh : ∀v v' p,g.Gives v p → (∃g'∈grants,g'.Gives v' p) → v=v') :
    NumaOwned nodes maps spent (g::grants) := by
  refine ⟨h.apart,h.owned,fun g' hg' v p hgives => ?_,fun g₁ h₁ g₂ h₂ v v' p hv hv' => ?_⟩
  · rcases mem_cons.mp hg' with rfl | hg'
    · exact ⟨k,nd,hk,hheld v p hgives⟩
    · exact h.placed g' hg' v p hgives
  · rcases mem_cons.mp h₁ with rfl | hold₁ <;> rcases mem_cons.mp h₂ with rfl | hold₂
    · exact Grant.gives_inj hv hv'
    · exact hfresh v v' p hv ⟨g₂,hold₂,hv'⟩
    · exact (hfresh v' v p hv' ⟨g₁,hold₁,hv⟩).symm
    · exact h.noReuse g₁ hold₁ g₂ hold₂ v v' p hv hv'

theorem NumaOwned.held_of_owns {v p : ℕ} (hp : nd.Owns p) (hgave : ∃g∈grants,g.Gives v p) :
    InRegion (maps k) v p ∨ p∈spent k := by
  obtain ⟨g,hg,hgives⟩:=hgave
  obtain ⟨i,nd',hi,hplace⟩:=h.placed g hg v p hgives
  have hown := (h.owned i nd' hi).owns_held hplace
  obtain rfl : i=k:=owner_unique h.apart hi hk hown.inside hp.inside
  exact hplace

theorem NumaOwned.region {address : ℕ} {t : ℚ} {old : Region} (hold : old.promoted=false)
    (hfrom : ObtainsOnNode nd (maps k) (region2mb address) old b) :
    NumaOwned (withBuddy nodes k b) (update maps k ((maps k).insert (region2mb address)
      (old.touch t (offsetIn2mb address)))) spent
      (⟨(),address / 2^12,(old.touch t (offsetIn2mb address)).grant (offsetIn2mb address)⟩::grants) := by
  have hnd := hfrom.nodeOwned (h.owned k nd hk) t (offsetIn2mb address)
  have hbase := h.replace hk hnd fun v p hplace =>
    hplace.imp_left fun hin => hin.touch (fun _ hr => hfrom.lookup_eq hr) hold
  rw [update_eq_self] at hbase
  have hheld : ∀v p,(Grant.mk () (address / 2^12) ((old.touch t (offsetIn2mb address)).grant
      (offsetIn2mb address))).Gives v p → InRegion ((maps k).insert (region2mb address)
        (old.touch t (offsetIn2mb address))) v p :=
    fun v p hgives => @inRegion_of_grant Unit p () ⟨0,address,false,false⟩ (maps k) _ v
      (Finset.mem_insert_self _ _) hgives
  refine hbase.cons (withBuddy_self hk) (fun v p hgives => ?_) fun v v' p hgives hgave => ?_
  · rw [update_self]
    exact .inl (hheld v p hgives)
  · have hin := hheld v p hgives
    have hother := hbase.held_of_owns (withBuddy_self hk)
      (hnd.owns_reserved hin.mem_reservedCells) hgave
    rw [update_self] at hother
    rcases hother with hin' | hspent
    · exact hin.inj hnd.reserved_nodup hin'
    · exact absurd hspent (hnd.reserved_not_spent hin.mem_reservedCells)

theorem NumaOwned.fallback {p n vpn : ℕ} (hn : 0<n) (htake : nd.buddy.Takes b (Multiset.Ico p (p+n))) :
    NumaOwned (withBuddy nodes k b) maps (update spent k
      (Multiset.Ico (p+nd.basePfn) (p+nd.basePfn+n)+spent k)) (⟨(),vpn,⟨some (p+nd.basePfn),12⟩⟩::grants) := by
  have hnd := h.owned k nd hk
  have hbase := h.replace hk (hnd.takes htake) fun v p hplace =>
    hplace.imp_right fun hspent => Multiset.mem_add.mpr (.inr hspent)
  rw [update_eq_self] at hbase
  have hpage : p+nd.basePfn∈Multiset.Ico (p+nd.basePfn) (p+nd.basePfn+n) :=
    Multiset.mem_Ico.mpr ⟨le_rfl,by omega⟩
  have hfree : p+nd.basePfn∈nd.freeCells := by
    rw [NodeBuddy.freeCells_takes htake]
    exact Multiset.mem_add.mpr (.inr hpage)
  refine hbase.cons (withBuddy_self hk) (fun v q hgives => ?_) fun v v' q hgives hgave => ?_
  · obtain ⟨-,rfl⟩:=Grant.gives_small.mp hgives
    rw [update_self]
    exact .inr (Multiset.mem_add.mpr (.inl hpage))
  · obtain ⟨-,rfl⟩:=Grant.gives_small.mp hgives
    exact absurd (h.held_of_owns hk (hnd.owns_free hfree) hgave) (hnd.free_not_held hfree)

theorem NumaOwned.erase {r : ℕ} {old : Region} (hlook : (maps k).lookup r=some old) :
    NumaOwned nodes (update maps k ((maps k).erase r)) (update spent k (old.cells+spent k)) grants := by
  have hnd := (h.owned k nd hk).erase hlook
  have hbase := h.replace (b:=nd.buddy) hk hnd ?_
  · rw [withBuddy_same hk] at hbase
    exact hbase
  · rintro v p (⟨reg,hreg,rfl,hbit⟩ | hspent)
    · by_cases hv : v / 512=r
      · rw [hv,hlook] at hreg
        cases hreg
        refine .inr (Multiset.mem_add.mpr (.inl (Region.mem_cells.mpr ?_)))
        omega
      · refine .inl ⟨reg,?_,rfl,hbit⟩
        rw [AList.lookup_erase_ne hv,hreg]
    · exact .inr (Multiset.mem_add.mpr (.inr hspent))

end

end Replace

namespace NumaReservationThpAllocator

variable {s s' : NumaReservationThpAllocator} {k : ℕ}

section

variable (s)

/-- A region of node `k` was touched and answers with `a`. -/
def TouchesOnNode (k address : ℕ) (a : Allocation) (s' : NumaReservationThpAllocator) : Prop :=
  ∃nd b old,s.numa.nodes[k]?=some nd ∧ old.promoted=false ∧
    ObtainsOnNode nd (s.maps k) (region2mb address) old b ∧
    s'.numa.nodes=withBuddy s.numa.nodes k b ∧
    s'.maps=Function.update s.maps k ((s.maps k).insert (region2mb address)
      (old.touch s.thresholdForPromotion (offsetIn2mb address))) ∧
    a=(old.touch s.thresholdForPromotion (offsetIn2mb address)).grant (offsetIn2mb address)

/-- A block of the free pages of node `k` was taken and its first page is the answer. -/
def TakesOnNode (k size page : ℕ) (s' : NumaReservationThpAllocator) : Prop :=
  ∃nd b p,s.numa.nodes[k]?=some nd ∧ page=p+nd.basePfn ∧
    nd.buddy.Takes b (Multiset.Ico p (p+2^Buddy.orderOf size)) ∧
    s'.numa.nodes=withBuddy s.numa.nodes k b ∧ s'.maps=s.maps

/-- Node `k` has no reservation for the request, no free 2MB block and no free block of the
requested order. -/
def UnderPressureOnNode (k : ℕ) (req : NumaRequest) : Prop :=
  ∃nd,s.numa.nodes[k]?=some nd ∧ (s.maps k).lookup (region2mb req.address)=none ∧
    nd.buddy.NoLarge ∧ ∀j,Buddy.orderOf req.size≤j → nd.buddy.freeList j=[]

end

variable {region : Region} {order : UtilizationSort} {a : Allocation} {req : NumaRequest}

theorem useRegionOnNode_ok {address page : ℕ} {promoted : Bool}
    (h : s.useRegionOnNode address k region = .ok ((page,promoted),s')) :
    region.promoted=false ∧ s'.numa=s.numa ∧
      s'.maps=update s.maps k ((s.maps k).insert (region2mb address)
        (region.touch s.thresholdForPromotion (offsetIn2mb address))) ∧
      (⟨some page,if promoted then 21 else 12⟩ : Allocation) =
        (region.touch s.thresholdForPromotion (offsetIn2mb address)).grant (offsetIn2mb address) := by
  simp only [useRegionOnNode] at h
  split_ifs at h with hprom htouch
  · cases h
    exact ⟨by simpa using hprom,rfl,rfl,by simp [Region.grant,htouch]⟩
  · cases h
    exact ⟨by simpa using hprom,rfl,rfl,by simp [Region.grant,htouch]⟩

theorem reserveOnNode_ok {numa numa' : NumaBuddyAllocator} {nd : NodeBuddy} {r : Option Interval}
    (hk : numa.nodes[k]?=some nd) (hwf : nd.buddy.WellFormed) (h : numa.reserve2mbPage k = .ok (r,numa')) :
    (∃ (b : Buddy) (block : Interval),r=some ⟨block.first+nd.basePfn,block.last+nd.basePfn⟩ ∧
      nd.buddy.Takes b (Multiset.Ico block.first (block.first+512)) ∧
      numa'.nodes=withBuddy numa.nodes k b) ∨ (r=none ∧ numa'=numa ∧ nd.buddy.NoLarge) := by
  rw [NumaBuddyAllocator.reserve2mbPage,hk] at h
  obtain ⟨⟨block,b⟩,hres,h⟩:=bind_ok h
  cases h
  rcases Buddy.reserve2mbPage_cases hwf hres with ⟨block,rfl,-,-,htake⟩ | ⟨rfl,rfl,hlarge⟩
  · exact .inl ⟨b,block,rfl,htake,rfl⟩
  · exact .inr ⟨rfl,congrArg NumaBuddyAllocator.mk (withBuddy_same hk),hlarge⟩

theorem checkFor2mbAllocationOnNode_ok {address : ℕ} {r : Option (ℕ × Bool)}
    (hwf : ∀nd,s.numa.nodes[k]?=some nd → nd.buddy.WellFormed)
    (h : s.checkFor2mbAllocationOnNode address k = .ok (r,s')) :
    (∃page promoted,r=some (page,promoted) ∧
      s.TouchesOnNode k address ⟨some page,if promoted then 21 else 12⟩ s') ∨
    (r=none ∧ s'=s ∧ ∀nd,s.numa.nodes[k]?=some nd →
      (s.maps k).lookup (region2mb address)=none ∧ nd.buddy.NoLarge) := by
  rw [checkFor2mbAllocationOnNode] at h
  split_ifs at h with hlen
  · cases h
    refine .inr ⟨rfl,rfl,fun nd hk => ?_⟩
    rw [List.getElem?_eq_none hlen] at hk
    cases hk
  · obtain ⟨nd,hk⟩ : ∃nd,s.numa.nodes[k]?=some nd:=⟨_,List.getElem?_eq_getElem (not_le.mp hlen)⟩
    cases hlook : (s.maps k).lookup (region2mb address) with
    | some region =>
      rw [hlook] at h
      obtain ⟨⟨⟨page,promoted⟩,t⟩,huse,h⟩:=bind_ok h
      cases h
      obtain ⟨hold,hnuma,hmaps,hgrant⟩:=useRegionOnNode_ok huse
      refine .inl ⟨page,promoted,rfl,nd,nd.buddy,region,hk,hold,.inl ⟨hlook,rfl⟩,?_,hmaps,hgrant⟩
      rw [hnuma,withBuddy_same hk]
    | none =>
      rw [hlook] at h
      obtain ⟨⟨reserved,numa⟩,hres,h⟩:=bind_ok h
      rcases reserveOnNode_ok hk (hwf nd hk) hres with
        ⟨b,block,rfl,htake,hnodes⟩ | ⟨rfl,rfl,hlarge⟩
      · obtain ⟨⟨⟨page,promoted⟩,t⟩,huse,h⟩:=bind_ok h
        cases h
        obtain ⟨hold,hnuma,hmaps,hgrant⟩:=useRegionOnNode_ok huse
        refine .inl ⟨page,promoted,rfl,nd,b,_,hk,hold,.inr ⟨hlook,block.first,rfl,htake⟩,?_,?_,hgrant⟩
        · rw [hnuma]
          exact hnodes
        · rw [hmaps]
          simp only [setMap,update_self,update_idem]
          rw [AList.insert_insert]
      · cases h
        refine .inr ⟨rfl,rfl,fun nd' hk' => ⟨rfl,?_⟩⟩
        obtain rfl : nd=nd':=Option.some.inj (hk.symm.trans hk')
        exact hlarge

theorem allocateOnNode_ok {size : ℕ} {r : Option ℕ} (hwf : ∀nd,s.numa.nodes[k]?=some nd → nd.buddy.WellFormed)
    (h : s.allocateOnNode k size = .ok (r,s')) :
    (∃page,r=some page ∧ s.TakesOnNode k size page s') ∨ (r=none ∧ s'=s ∧ ∀nd,s.numa.nodes[k]?=some nd →
      ∀j,Buddy.orderOf size≤j → nd.buddy.freeList j=[]) := by
  obtain ⟨⟨page,numa⟩,halloc,h⟩:=bind_ok h
  cases h
  rw [NumaBuddyAllocator.allocate] at halloc
  cases hk : s.numa.nodes[k]? with
  | none =>
    rw [hk] at halloc
    cases halloc
    exact .inr ⟨rfl,rfl,fun nd hnd => by cases hnd⟩
  | some nd =>
    rw [hk] at halloc
    obtain ⟨⟨page',b⟩,hb,halloc⟩:=bind_ok halloc
    cases halloc
    rcases Buddy.allocate_cases (hwf nd hk) hb with ⟨p,rfl,htake⟩ | ⟨rfl,rfl,hempty⟩
    · exact .inl ⟨_,rfl,nd,b,p,hk,rfl,htake,rfl,rfl⟩
    · refine .inr ⟨rfl,?_,fun nd' hk' => ?_⟩
      · rw [NumaBuddyAllocator.setBuddy,withBuddy_same hk]
      · cases hk'
        exact hempty

/-- Every region of the node that could be demoted has all its pages in use. -/
def AllFullOnNode (s : NumaReservationThpAllocator) (k : ℕ) : Prop :=
  ∀r region,(s.maps k).lookup r=some region → region.promoted=false →
    region.bits=Finset.univ

theorem freeUnusedOnNode_of_full (h : region.bits=Finset.univ) (numa : NumaBuddyAllocator) :
    freeUnusedOnNode region numa = .ok numa := by
  simp only [freeUnusedOnNode,h,Finset.mem_univ,↓reduceIte]
  induction List.finRange 512 with
  | nil => rfl
  | cons j l ih => exact ih

theorem victimOnNode_some {m : AList (fun _ : ℕ => Region)} {r : ℕ} (h : victimOnNode order m=some (r,region)) :
    m.lookup r=some region ∧ region.promoted=false := by
  have hvictim : ReservationThpAllocator.victim order
      ⟨.new 0,⟨0,.getLargePageRatio,0,0,fun _ => []⟩,m,0,{}⟩=some (r,region) := h
  obtain ⟨hlook,hprom,-⟩:=ReservationThpAllocator.victim_some hvictim
  exact ⟨hlook,hprom⟩

theorem demotePageOnNode_ok {demoted : Bool} {nd : NodeBuddy} (hk : s.numa.nodes[k]?=some nd)
    (hfull : s.AllFullOnNode k) (h : s.demotePageOnNode order k = .ok (demoted,s')) :
    s'=s ∨ ∃r old,(s.maps k).lookup r=some old ∧ s'=s.setMap k ((s.maps k).erase r) := by
  rw [demotePageOnNode,if_neg (not_le.mpr (List.getElem?_eq_some_iff.mp hk).1)] at h
  cases hv : victimOnNode order (s.maps k) with
  | none =>
    rw [hv] at h
    cases h
    exact .inl rfl
  | some v =>
    obtain ⟨hlook,hprom⟩:=victimOnNode_some hv
    simp only [hv,freeUnusedOnNode_of_full (hfull v.1 v.2 hlook hprom),ok_bind] at h
    cases h
    exact .inr ⟨v.1,v.2,hlook,rfl⟩

/-- The state in which the answer of a call is found: the one before the call, or the one after
giving up a full region. -/
def Settles (s : NumaReservationThpAllocator) (s₁ : NumaReservationThpAllocator) : Prop :=
  s₁=s ∨ ∃k nd r old,s.numa.nodes[k]?=some nd ∧ (s.maps k).lookup r=some old ∧
    s₁=s.setMap k ((s.maps k).erase r)

/-- What a call without a harmful demotion can do: after settling, some node answers from a
region or from its free pages. -/
def Answers (s : NumaReservationThpAllocator) (req : NumaRequest) (a : Allocation)
    (s' : NumaReservationThpAllocator) : Prop :=
  ∃k,s.TouchesOnNode k req.address a s' ∨ ∃page,a=⟨some page,12⟩ ∧
    s.TakesOnNode k req.size page s'

section

variable (hwf : ∀ (k : ℕ) nd,s.numa.nodes[k]?=some nd → nd.buddy.WellFormed)
include hwf

theorem spill_ok {ns : List ℕ} (h : spill req ns s = .ok (a,s')) : s.Answers req a s' := by
  induction ns with
  | nil => cases h
  | cons n ns ih =>
    rw [spill] at h
    obtain ⟨⟨page2mb,t⟩,hcheck,hrest⟩:=bind_ok h
    rcases checkFor2mbAllocationOnNode_ok (hwf n) hcheck with
      ⟨page,promoted,rfl,htouch⟩ | ⟨rfl,rfl,-⟩
    · cases hrest
      exact ⟨n,.inl htouch⟩
    · obtain ⟨⟨page,u⟩,halloc,hlast⟩:=bind_ok hrest
      rcases allocateOnNode_ok (hwf n) halloc with ⟨page,rfl,htake⟩ | ⟨rfl,rfl,-⟩
      · cases hlast
        exact ⟨n,.inr ⟨page,rfl,htake⟩⟩
      · exact ih hlast

theorem allocateFrom_cases (hdemote : ∀demoted s₁,s.UnderPressureOnNode k req → s.demotePageOnNode
    order k = .ok (demoted,s₁) → ∀ (j : ℕ) nd,s₁.numa.nodes[j]?=some nd → nd.buddy.WellFormed)
    (h : s.allocateFrom order req k = .ok (a,s')) : ∃s₁,(s₁=s ∨ s.UnderPressureOnNode k req ∧
      ∃demoted,s.demotePageOnNode order k = .ok (demoted,s₁)) ∧ s₁.Answers req a s' := by
  rw [allocateFrom] at h
  obtain ⟨⟨page2mb,t⟩,hcheck,hrest⟩:=bind_ok h
  rcases checkFor2mbAllocationOnNode_ok (hwf k) hcheck with
    ⟨page,promoted,rfl,htouch⟩ | ⟨rfl,rfl,hnone⟩
  · cases hrest
    exact ⟨s,.inl rfl,k,.inl htouch⟩
  · obtain ⟨⟨page,u⟩,halloc,hlater⟩:=bind_ok hrest
    rcases allocateOnNode_ok (hwf k) halloc with ⟨page,rfl,htake⟩ | ⟨rfl,rfl,hempty⟩
    · cases hlater
      exact ⟨_,.inl rfl,k,.inr ⟨page,rfl,htake⟩⟩
    · obtain ⟨⟨demoted,v⟩,hdem,hretry⟩:=bind_ok hlater
      have hsettle : v=u ∨ u.UnderPressureOnNode k req ∧
          ∃demoted,u.demotePageOnNode order k = .ok (demoted,v) := by
        cases hk : u.numa.nodes[k]? with
        | none =>
          rw [demotePageOnNode,if_pos (List.getElem?_eq_none_iff.mp hk)] at hdem
          cases hdem
          exact .inl rfl
        | some nd =>
          exact .inr ⟨⟨nd,hk,(hnone nd hk).1,(hnone nd hk).2,hempty nd hk⟩,demoted,hdem⟩
      have hwf' : ∀ (j : ℕ) nd,v.numa.nodes[j]?=some nd → nd.buddy.WellFormed := by
        rcases hsettle with rfl | ⟨hpress,b,hb⟩
        · exact hwf
        · exact hdemote b v hpress hb
      refine ⟨v,hsettle,?_⟩
      cases demoted with
      | false => exact spill_ok hwf' hretry
      | true =>
        obtain ⟨⟨page,w⟩,halloc',hlast⟩:=bind_ok hretry
        rcases allocateOnNode_ok (hwf' k) halloc' with ⟨page,rfl,htake⟩ | ⟨rfl,rfl,-⟩
        · cases hlast
          exact ⟨k,.inr ⟨page,rfl,htake⟩⟩
        · exact spill_ok hwf' hlast

theorem allocateFrom_ok (hfull : s.UnderPressureOnNode k req → s.AllFullOnNode k)
    (h : s.allocateFrom order req k = .ok (a,s')) : ∃s₁,s.Settles s₁ ∧ s₁.Answers req a s' := by
  have hsettle : ∀demoted s₁,s.UnderPressureOnNode k req →
      s.demotePageOnNode order k = .ok (demoted,s₁) → s.Settles s₁ ∧ s₁.numa=s.numa := by
    intro demoted s₁ hpress hdem
    obtain ⟨nd,hk,-⟩:=id hpress
    rcases demotePageOnNode_ok hk (hfull hpress) hdem with rfl | ⟨r,old,hlook,rfl⟩
    · exact ⟨.inl rfl,rfl⟩
    · exact ⟨.inr ⟨k,nd,r,old,hk,hlook,rfl⟩,rfl⟩
  obtain ⟨s₁,hs₁,hanswer⟩:=allocateFrom_cases hwf (fun demoted s₁ hpress hdem j nd hj =>
    hwf j nd ((hsettle demoted s₁ hpress hdem).2 ▸ hj)) h
  refine ⟨s₁,?_,hanswer⟩
  rcases hs₁ with rfl | ⟨hpress,demoted,hdem⟩
  · exact .inl rfl
  · exact (hsettle demoted s₁ hpress hdem).1

end

end NumaReservationThpAllocator

/-- The allocator together with all its answers, newest first. -/
structure NumaTraced where
  allocator : NumaReservationThpAllocator
  grants : List (Grant Unit)

/-- The grant consists of the page, or of a 2MB block with the page in it. -/
def Grant.Holds {α : Type} (g : Grant α) (p : ℕ) : Prop :=
  match g.allocation.ppn with
  | none => False
  | some q => if g.allocation.pageSize=21 then q≤p ∧ p<q+512 else p=q

theorem Grant.Holds.gives {α : Type} {g : Grant α} {p : ℕ} (h : g.Holds p) :
    ∃v,g.Gives v p ∧ v / 512=g.vpn / 512 ∧ (g.allocation.pageSize=21 ∨ v=g.vpn) := by
  cases hq : g.allocation.ppn with
  | none =>
    rw [Grant.Holds,hq] at h
    exact h.elim
  | some q =>
    rw [Grant.Holds,hq] at h
    dsimp only at h
    split_ifs at h with hsize
    · refine ⟨g.vpn / 512*512+(p - q),?_,by omega,.inl hsize⟩
      rw [Grant.Gives,hq]
      dsimp only
      rw [if_pos hsize]
      omega
    · refine ⟨g.vpn,?_,rfl,.inr rfl⟩
      rw [Grant.Gives,hq]
      dsimp only
      rw [if_neg hsize]
      exact ⟨rfl,h⟩

namespace NumaTraced

def step (order : UtilizationSort) (t : NumaTraced) (req : NumaRequest) : Except Abort NumaTraced := do
  let (a,s) ← t.allocator.allocate order req
  .ok ⟨s,⟨(),req.address / 2^12,a⟩::t.grants⟩

section

variable (t : NumaTraced)

/-- Frames of different virtual pages share a page only within a promoted 2MB region. -/
def Disjoint : Prop :=
  ∀g∈t.grants,∀g'∈t.grants,g.vpn≠g'.vpn → ∀p,g.Holds p → g'.Holds p →
    g.vpn / 512=g'.vpn / 512 ∧ (g.allocation.pageSize=21 ∨ g'.allocation.pageSize=21)

/-- Every page handed out lies behind the kernel of the node that `getNumaNodeForPPN` reports,
and on no other node. -/
def OnReportedNode : Prop :=
  ∀g∈t.grants,∀p,g.Holds p →
    (∃nd,t.allocator.numa.nodes[t.allocator.getNumaNodeForPpn p]?=some nd ∧ nd.Owns p) ∧
    ∀ (j : ℕ) nd,t.allocator.numa.nodes[j]?=some nd →
      nd.basePfn≤p ∧ p<nd.basePfn+nd.numPages → j=t.allocator.getNumaNodeForPpn p

/-- If the call demotes a region of the chosen node, all regions it could demote are full. -/
def DemotesFull (req : NumaRequest) : Prop :=
  t.allocator.UnderPressureOnNode (t.allocator.target req) req →
    t.allocator.AllFullOnNode (t.allocator.target req)

/-- The invariant of a run. -/
def Owned : Prop := ∃spent,NumaOwned t.allocator.numa.nodes t.allocator.maps spent t.grants

end

variable {t : NumaTraced}

theorem step_owned {order : UtilizationSort} {t' : NumaTraced} {req : NumaRequest} (h : t.Owned)
    (hfull : t.DemotesFull req) (he : t.step order req = .ok t') : t'.Owned := by
  obtain ⟨spent,h⟩:=h
  obtain ⟨⟨a,s'⟩,ha,he⟩:=bind_ok he
  cases he
  obtain ⟨s₁,hsettle,k,hanswer⟩:=NumaReservationThpAllocator.allocateFrom_ok
    (fun k nd hk => (h.owned k nd hk).wellFormed) hfull ha
  have hsettled : ∃spent₁,NumaOwned s₁.numa.nodes s₁.maps spent₁ t.grants := by
    rcases hsettle with rfl | ⟨j,nd,r,old,hj,hlook,rfl⟩
    · exact ⟨spent,h⟩
    · exact ⟨_,h.erase hj hlook⟩
  obtain ⟨spent₁,h₁⟩:=hsettled
  rcases hanswer with ⟨nd,b,old,hk,hold,hfrom,hnodes,hmaps,rfl⟩ |
    ⟨page,rfl,nd,b,p,hk,rfl,htake,hnodes,hmaps⟩
  · rw [Owned,hnodes,hmaps]
    exact ⟨_,h₁.region hk hold hfrom⟩
  · rw [Owned,hnodes,hmaps]
    exact ⟨_,h₁.fallback hk (Nat.two_pow_pos _) htake⟩

theorem Owned.disjoint (h : t.Owned) : t.Disjoint := by
  obtain ⟨spent,h⟩:=h
  intro g hg g' hg' hne p hp hp'
  obtain ⟨v,hv,hdiv,hsize⟩:=hp.gives
  obtain ⟨v',hv',hdiv',hsize'⟩:=hp'.gives
  obtain rfl : v=v':=h.noReuse g hg g' hg' v v' p hv hv'
  refine ⟨hdiv.symm.trans hdiv',?_⟩
  rcases hsize with hsize | rfl
  · exact .inl hsize
  · rcases hsize' with hsize' | heq
    · exact .inr hsize'
    · exact absurd heq hne

theorem getNodeForPfn_eq {numa : NumaBuddyAllocator} {k p : ℕ} {nd : NodeBuddy}
    (hapart : numa.nodes.Pairwise fun a b => a.basePfn+a.numPages≤b.basePfn) (hk : numa.nodes[k]?=some nd)
    (hp : nd.basePfn≤p ∧ p<nd.basePfn+nd.numPages) : numa.getNodeForPfn p=k := by
  rw [NumaBuddyAllocator.getNodeForPfn]
  cases hf : numa.nodes.findIdx? fun nd =>
      decide (nd.basePfn≤p ∧ p<nd.basePfn+nd.numPages) with
  | none =>
    have hno := List.findIdx?_eq_none_iff.mp hf nd (mem_of_getElem? hk)
    rw [decide_eq_false_iff_not] at hno
    exact absurd hp hno
  | some j =>
    obtain ⟨hj,hpred,-⟩:=List.findIdx?_eq_some_iff_getElem.mp hf
    rw [decide_eq_true_eq] at hpred
    exact owner_unique hapart (List.getElem?_eq_getElem hj) hk hpred hp

theorem Owned.onReportedNode (h : t.Owned) : t.OnReportedNode := by
  obtain ⟨spent,h⟩:=h
  intro g hg p hp
  obtain ⟨v,hv,-⟩:=hp.gives
  obtain ⟨k,nd,hk,hplace⟩:=h.placed g hg v p hv
  have hown := (h.owned k nd hk).owns_held hplace
  have hnode : t.allocator.getNumaNodeForPpn p=k := getNodeForPfn_eq h.apart hk hown.inside
  refine ⟨⟨nd,hnode ▸ hk,hown⟩,fun j nd' hj hp' => ?_⟩
  rw [hnode]
  exact owner_unique h.apart hj hk hp' hown.inside

end NumaTraced

theorem pagesIn_toInt {mb : UInt64} (h : mb.toNat<2^31) :
    Buddy.pagesIn (NumaBuddyAllocator.toInt mb)=NumaBuddyAllocator.pages mb := by
  have hword : toWord (NumaBuddyAllocator.toInt mb)=mb := by
    have hint : (NumaBuddyAllocator.toInt mb).toInt=mb.toNat := by
      have hnat : (NumaBuddyAllocator.toInt mb).toBitVec.toNat=mb.toNat := by
        show mb.toNat % 2^32=mb.toNat
        omega
      show (NumaBuddyAllocator.toInt mb).toBitVec.toInt=mb.toNat
      rw [BitVec.toInt_eq_toNat_cond,hnat,if_pos (by omega)]
    have htoWord := toWord_toNat (NumaBuddyAllocator.toInt mb)
    rw [hint,if_neg (by omega)] at htoWord
    exact UInt64.toNat_inj.mp (Nat.cast_injective htoWord)
  rw [Buddy.pagesIn,Buddy.wordPages,hword,NumaBuddyAllocator.pages]

theorem buildNodes_ok {maxOrder : ℕ} {fragType : String} {base : ℕ} {sizes : List (UInt64 × UInt64)}
    {nodes : List NodeBuddy} (hsizes : ∀x∈sizes,x.1.toNat<2^31 ∧ x.2.toNat<2^31)
    (h : NumaBuddyAllocator.buildNodes maxOrder fragType base sizes = .ok nodes) :
    (∀nd∈nodes,base≤nd.basePfn ∧ NodeOwned nd ∅ 0) ∧
      nodes.Pairwise fun a b => a.basePfn+a.numPages≤b.basePfn := by
  induction sizes generalizing base nodes with
  | nil =>
    cases h
    exact ⟨fun nd hnd => absurd hnd not_mem_nil,.nil⟩
  | cons x sizes ih =>
    obtain ⟨memMb,kernelMb⟩:=x
    obtain ⟨buddy,hbuddy,h⟩:=bind_ok h
    obtain ⟨rest,hrest,h⟩:=bind_ok h
    cases h
    obtain ⟨hmem,hkernel⟩:=hsizes (memMb,kernelMb) mem_cons_self
    obtain ⟨-,hwf,hcells⟩:=Buddy.new_ok hbuddy
    obtain ⟨hnodes,hapart⟩:=ih (fun x hx => hsizes x (mem_cons_of_mem _ hx)) hrest
    rw [pagesIn_toInt hmem,pagesIn_toInt hkernel] at hcells
    refine ⟨fun nd hnd => ?_,pairwise_cons.mpr ⟨fun nd hnd => (hnodes nd hnd).1,hapart⟩⟩
    rcases mem_cons.mp hnd with rfl | hnd
    · refine ⟨le_rfl,hwf,?_⟩
      rw [reservedCells_empty,add_zero,add_zero,NodeBuddy.freeCells,hcells,Multiset.map_add_right_Ico,
        NodeBuddy.cells,Nat.add_comm base,Nat.add_comm base]
    · obtain ⟨hbase,hown⟩:=hnodes nd hnd
      exact ⟨le_trans (Nat.le_add_right _ _) hbase,hown⟩

variable {numNodes maxOrder applicationCores : ℕ} {perNodeMemMb perNodeKernelMb : List UInt64}
  {fragType : String} {threshold utilizationThreshold : ℚ} {policy : NumaPolicy}
  {s : NumaReservationThpAllocator}

theorem new_numaOwned
    (hsizes : ∀x∈perNodeMemMb.zip perNodeKernelMb,x.1.toNat<2^31 ∧ x.2.toNat<2^31)
    (h : NumaReservationThpAllocator.new numNodes perNodeMemMb perNodeKernelMb maxOrder fragType
      threshold policy utilizationThreshold applicationCores = .ok s) :
    NumaOwned s.numa.nodes s.maps (fun _ => 0) [] := by
  obtain ⟨numa,hnuma,h⟩:=bind_ok h
  cases h
  rw [NumaBuddyAllocator.new] at hnuma
  split_ifs at hnuma
  obtain ⟨nodes,hnodes,hnuma⟩:=bind_ok hnuma
  cases hnuma
  obtain ⟨hown,hapart⟩:=buildNodes_ok
    (fun x hx => hsizes x (mem_of_mem_take hx)) hnodes
  refine ⟨hapart,fun i nd hi => (hown nd (mem_of_getElem? hi)).2,?_,?_⟩
  · exact fun g hg => absurd hg not_mem_nil
  · exact fun g hg => absurd hg not_mem_nil

/-- For every configuration, placement engine and sequence of calls whose demotions only meet
full regions, frames of different virtual pages are disjoint outside a promoted region and
every page lies behind the kernel of the node reported for it. -/
theorem numa_frames_owned (order : UtilizationSort)
    (hsizes : ∀x∈perNodeMemMb.zip perNodeKernelMb,x.2≤x.1 ∧ x.1.toNat<2^31)
    (hnew : NumaReservationThpAllocator.new numNodes perNodeMemMb perNodeKernelMb maxOrder fragType
      threshold policy utilizationThreshold applicationCores = .ok s)
    (engine : NumaPlacementEngine) {calls : List NumaRequest}
    (hfull : Along (NumaTraced.step order) NumaTraced.DemotesFull ⟨{s with engine},[]⟩ calls)
    {pre : List NumaRequest} (hpre : pre <+: calls) {t : NumaTraced}
    (hrun : run (NumaTraced.step order) ⟨{s with engine},[]⟩ pre = .ok t) :
    t.Disjoint ∧ t.OnReportedNode := by
  obtain ⟨post,rfl⟩:=hpre
  have hown := new_numaOwned (fun x hx => ⟨(hsizes x hx).2,
    lt_of_le_of_lt (UInt64.le_iff_toNat_le.mp (hsizes x hx).1) (hsizes x hx).2⟩) hnew
  have hinit : NumaTraced.Owned ⟨{s with engine},[]⟩ := ⟨_,hown⟩
  have hown : t.Owned := run_invariant
    (fun t req t' ht hfull he => NumaTraced.step_owned ht hfull he) hinit hfull.left hrun
  exact ⟨hown.disjoint,hown.onReportedNode⟩

def twoNodes (memMb kernelMb : List UInt64) (threshold : ℚ) (policy : NumaPolicy) :
    Except Abort NumaReservationThpAllocator :=
  NumaReservationThpAllocator.new 2 memMb kernelMb 9 "largepage" threshold policy 1 1

def touches (addresses : List ℕ) : List NumaRequest := addresses.map (⟨4096,·,none⟩)

/-- Two nodes in turn: each answers from a block that it reserves for the call. -/
theorem numa_frames_owned_interleaved : ∃s,twoNodes [4,4] [0,2] 1 .interleave = .ok s ∧
    ∃t,run (NumaTraced.step .insertion) ⟨s,[]⟩ (touches [0,2^12]) = .ok t ∧
    (t.grants.map fun g => g.allocation.ppn)=[some 1537,some 512] ∧ t.Disjoint ∧ t.OnReportedNode := by
  refine exists_ok_ok_and (P:=fun s t => (s.maps (s.target ⟨4096,0,none⟩)).entries.length=0 ∧
    ∃t₁,NumaTraced.step .insertion ⟨s,[]⟩ ⟨4096,0,none⟩ = .ok t₁ ∧
      (t₁.allocator.maps (t₁.allocator.target ⟨4096,2^12,none⟩)).entries.length=0) (by decide +kernel) ?_
  rintro s t hs ht ⟨hempty,t₁,ht₁,hempty'⟩
  have hnone : ∀ (m : AList fun _ : ℕ => Region),m.entries.length=0 → ∀r,m.lookup r=none := by
    intro m hm r
    rw [AList.lookup,length_eq_zero_iff.mp hm]
    rfl
  have hfull : Along (NumaTraced.step .insertion) NumaTraced.DemotesFull ⟨s,[]⟩ (touches [0,2^12]) := by
    refine ⟨fun _ r region hlook => ?_,fun u hu => ⟨fun _ r region hlook => ?_,fun _ _ => trivial⟩⟩
    · cases (hnone _ hempty r).symm.trans hlook
    · obtain rfl : t₁=u := Except.ok.inj (ht₁.symm.trans hu)
      cases (hnone _ hempty' r).symm.trans hlook
  exact numa_frames_owned .insertion (by simp) hs s.engine hfull prefix_rfl ht

/-- Two nodes of 2MB, the second with a kernel of 1MB. The second call demotes the region of
the first one, and a page of the second node's kernel is handed out; later two virtual pages
share page 511. -/
theorem numa_demotion_leaves_node : ∃s,twoNodes [2,2] [0,1] 1 .preferred = .ok s ∧
    ∃t,run (NumaTraced.step .insertion) ⟨s,[]⟩ (touches [0,2^21,2^21+2^12,2^21+2^13]) = .ok t ∧
    ¬ t.Disjoint ∧ ¬ t.OnReportedNode := by
  refine exists_ok_ok (P:=fun _ t =>
    (∃g∈t.grants,g.vpn=514 ∧ g.allocation.ppn=some 511 ∧ g.allocation.pageSize=12) ∧
    (∃g∈t.grants,g.vpn=513 ∧ g.allocation.ppn=some 511 ∧ g.allocation.pageSize=12) ∧
    (∃g∈t.grants,g.allocation.ppn=some 512 ∧ g.allocation.pageSize=12) ∧
    ∃nd∈t.allocator.numa.nodes[t.allocator.getNumaNodeForPpn 512]?,nd.basePfn+nd.kernelPages=768)
    (by decide +kernel) ?_
  rintro s t - - ⟨⟨g₁,hg₁,hone⟩,⟨g₂,hg₂,htwo⟩,⟨g,hg,hppn,hsize⟩,nd,hnd,hkernel⟩
  have hholds : ∀ (g : Grant Unit) q,g.allocation.ppn=some q → g.allocation.pageSize=12 →
      g.Holds q := by
    intro g q hppn hsize
    rw [Grant.Holds,hppn,hsize]
    rfl
  refine ⟨fun hdisj => ?_,fun hon => ?_⟩
  · have hshare := (hdisj g₁ hg₁ g₂ hg₂ (by omega) 511 (hholds _ _ hone.2.1 hone.2.2)
      (hholds _ _ htwo.2.1 htwo.2.2)).2
    omega
  · obtain ⟨nd',hnd',hlow,-⟩:=(hon g hg 512 (hholds _ _ hppn hsize)).1
    cases hnd.symm.trans hnd'
    omega

end Sniper.PhysicalMemory
