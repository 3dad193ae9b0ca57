import Sniper.NumaContainment

/-!
# Page-table frames of `numa_reserve_thp.h`

Every node hands out the pages of its kernel for page tables; page 0 is left to the root. The sums
of `handle_page_table_allocations` wrap at `2 ^ 64`.
-/

namespace Sniper.PhysicalMemory
open FallibleRuns IntervalTilings List

structure NumaKernelPools where
  /-- `m_per_node_kernel_next_pfn` -/
  nextPfn : ℕ → ℕ
  /-- `m_per_node_kernel_end_pfn` -/
  endPfn : ℕ → ℕ

namespace NumaKernelPools

/-- The first page that node `k` may give to a page table. -/
def firstPfn (k : ℕ) (nd : NodeLayout) : ℕ := if k=0 then nd.basePfn+1 else nd.basePfn

def new (nodes : List NodeLayout) : NumaKernelPools where
  nextPfn k := (nodes[k]?).elim 0 (firstPfn k)
  endPfn k := (nodes[k]?).elim 0 fun nd => nd.basePfn+nd.kernelPages

def fits (p : NumaKernelPools) (k pages : ℕ) : Bool := decide ((p.nextPfn k+pages) % 2^64≤p.endPfn k)

def take (p : NumaKernelPools) (k pages : ℕ) : NumaKernelPools :=
  {p with nextPfn:=Function.update p.nextPfn k ((p.nextPfn k+pages) % 2^64)}

end NumaKernelPools

/-- `pages_needed`, in the wrapping arithmetic of the source. -/
def pagesNeeded (bytes : UInt64) : ℕ := ((bytes+4095) / 4096).toNat

namespace NumaReservationThpAllocator

/-- The node of a core; the core number is cast to 32 bits. -/
def pageTableNode (s : NumaReservationThpAllocator) (coreId : UInt64) : ℕ :=
  s.cpuLocalNode (if coreId = -1 then none else some (coreId.toNat % 2^32))

def handlePageTableAllocations (s : NumaReservationThpAllocator) (pools : NumaKernelPools)
    (bytes coreId : UInt64) : Except Abort (ℕ × NumaKernelPools) :=
  let target := s.pageTableNode coreId
  let pages := pagesNeeded bytes
  if pools.fits target pages then .ok (pools.nextPfn target,pools.take target pages)
  else
    match (List.range s.numa.nodes.length).find? fun n => n≠target ∧ pools.fits n pages with
    | some n => .ok (pools.nextPfn n,pools.take n pages)
    | none => .error .assertion

end NumaReservationThpAllocator

/-- The answer to a request for page-table pages, with the node of the core that asked. -/
structure TableFrames where
  pfn : ℕ
  bytes : UInt64
  home : ℕ

namespace TableFrames

def pages (f : TableFrames) : ℕ := (f.bytes.toNat+4095) / 4096

def Contains (f : TableFrames) (p : ℕ) : Prop := f.pfn≤p ∧ p<f.pfn+f.pages

end TableFrames

structure NumaMemory where
  data : NumaTraced
  pools : NumaKernelPools
  /-- the page-table frames, newest first -/
  tables : List TableFrames

inductive NumaCall where
  | allocate (req : NumaRequest)
  | handlePageTableAllocations (bytes coreId : UInt64)

namespace NodeLayout

def InKernel (nd : NodeLayout) (p : ℕ) : Prop := nd.basePfn≤p ∧ p<nd.basePfn+nd.kernelPages

/-- Somewhere in the kernel of the node as many pages in a row are not page 0 and in no table. -/
def CanHold (nd : NodeLayout) (pages : ℕ) (tables : List TableFrames) : Prop :=
  ∃p,p≠0 ∧ nd.basePfn≤p ∧ p+pages≤nd.basePfn+nd.kernelPages ∧
    ∀q,p≤q → q<p+pages → ∀f∈tables,¬ f.Contains q

end NodeLayout

/-- A request is answered by the node of its core, or that node had no room for it. -/
def SpillsLast (nodes : List NodeLayout) (tables : List TableFrames) : Prop :=
  ∀f older,f::older <:+ tables → ∃nd,nodes[f.home]?=some nd ∧
    ((nd.basePfn≤f.pfn ∧ f.pfn+f.pages≤nd.basePfn+nd.kernelPages) ∨
      ¬ nd.CanHold f.pages older)

namespace NumaMemory

def nodes (t : NumaMemory) : List NodeLayout := t.data.allocator.numa.nodes.map NodeBuddy.layout

def new (s : NumaReservationThpAllocator) : NumaMemory := ⟨⟨s,[]⟩,.new (s.numa.nodes.map NodeBuddy.layout),[]⟩

def step (order : UtilizationSort) (t : NumaMemory) : NumaCall → Except Abort NumaMemory
  | .allocate req => do
    let data ← t.data.step order req
    .ok {t with data}
  | .handlePageTableAllocations bytes coreId => do
    let (pfn,pools) ← t.data.allocator.handlePageTableAllocations t.pools bytes coreId
    .ok {t with pools,tables:=⟨pfn,bytes,t.data.allocator.pageTableNode coreId⟩::t.tables}

structure TablesSeparate (t : NumaMemory) : Prop where
  disjoint : t.tables.Pairwise fun f g => ∀p,f.Contains p → ¬ g.Contains p
  not_zero : ∀f∈t.tables,¬ f.Contains 0
  in_one_kernel : ∀f∈t.tables,∃ (k : ℕ) (nd : NodeLayout),t.nodes[k]?=some nd ∧
    (∀p,f.Contains p → nd.InKernel p) ∧
    ∀ (j : ℕ) (nd' : NodeLayout),t.nodes[j]?=some nd' → j≠k → ∀p,f.Contains p → ¬ nd'.InKernel p
  not_data : ∀f∈t.tables,∀g∈t.data.grants,∀p,f.Contains p → ¬ g.Holds p
  spill : SpillsLast t.nodes t.tables

/-- A demotion does not reach beyond the node, and the bytes of a request can be rounded up. -/
def Harmless (t : NumaMemory) : NumaCall → Prop
  | .allocate req =>
    t.data.allocator.UnderPressureOnNode (t.data.allocator.target req) req →
      t.data.allocator.EndsInside (t.data.allocator.target req)
  | .handlePageTableAllocations bytes _ => bytes.toNat+4095<2^64

end NumaMemory

section

variable (nodes : List NodeLayout)

/-- No node but the first has a kernel at page 0, and page numbers do not wrap behind the kernels. -/
structure Numbered : Prop where
  not_zero : ∀ (k : ℕ) (nd : NodeLayout),nodes[k]?=some nd → k≠0 → nd.kernelPages≠0 →
    nd.basePfn≠0
  no_wrap : ∀nd∈nodes,nd.basePfn+nd.kernelPages+2^52<2^64

/-- Each node has given away its kernel pages up to the next one. -/
structure Pooled (pools : NumaKernelPools) (tables : List TableFrames) :
    Prop where
  endPfn : ∀ (k : ℕ) nd,nodes[k]?=some nd → pools.endPfn k=nd.basePfn+nd.kernelPages
  low : ∀ (k : ℕ) nd,nodes[k]?=some nd → NumaKernelPools.firstPfn k nd≤pools.nextPfn k
  high : ∀ (k : ℕ) nd,nodes[k]?=some nd →
    pools.nextPfn k=NumaKernelPools.firstPfn k nd ∨ pools.nextPfn k≤nd.basePfn+nd.kernelPages
  filled : ∀ (k : ℕ) nd,nodes[k]?=some nd → ∀p,NumaKernelPools.firstPfn k nd≤p →
    p<pools.nextPfn k → ∃f∈tables,f.Contains p
  placed : ∀f∈tables,∃k nd,nodes[k]?=some nd ∧ NumaKernelPools.firstPfn k nd≤f.pfn ∧
    f.pfn+f.pages≤pools.nextPfn k ∧ f.pfn+f.pages≤nd.basePfn+nd.kernelPages
  disjoint : tables.Pairwise fun f g => ∀p,f.Contains p → ¬ g.Contains p

theorem NumaKernelPools.base_le_firstPfn (k : ℕ) (nd : NodeLayout) :
    nd.basePfn≤firstPfn k nd ∧ firstPfn k nd≤nd.basePfn+1 := by
  rw [firstPfn]
  split_ifs
  · omega
  · omega

theorem pooled_new : Pooled nodes (.new nodes) [] := by
  have hnext : ∀ (k : ℕ) nd,nodes[k]?=some nd →
      (NumaKernelPools.new nodes).nextPfn k=NumaKernelPools.firstPfn k nd := by
    intro k nd hk
    simp [NumaKernelPools.new,hk]
  refine ⟨fun k nd hk => ?_,fun k nd hk => (hnext k nd hk).ge,fun k nd hk => .inl (hnext k nd hk),
    fun k nd hk p hlow hp => ?_,fun f hf => absurd hf not_mem_nil,List.Pairwise.nil⟩
  · simp [NumaKernelPools.new,hk]
  · rw [hnext k nd hk] at hp
    omega

end

namespace Pooled

variable {nodes : List NodeLayout} {pools : NumaKernelPools} {tables : List TableFrames}

theorem contains_inKernel {f : TableFrames} {k : ℕ} {nd : NodeLayout}
    (hlow : NumaKernelPools.firstPfn k nd≤f.pfn) (hhigh : f.pfn+f.pages≤nd.basePfn+nd.kernelPages) {p : ℕ}
    (hp : f.Contains p) : nd.InKernel p := by
  have := (NumaKernelPools.base_le_firstPfn k nd).1
  obtain ⟨h₁,h₂⟩:=hp
  exact ⟨by omega,by omega⟩

theorem kernel_unique (hlayout : KernelLayout nodes) {i j p : ℕ} {nd nd' : NodeLayout}
    (hi : nodes[i]?=some nd) (hj : nodes[j]?=some nd') (hp : nd.InKernel p) (hp' : nd'.InKernel p) : i=j := by
  have hle := hlayout.kernel_le nd (mem_of_getElem? hi)
  have hle' := hlayout.kernel_le nd' (mem_of_getElem? hj)
  obtain ⟨h₁,h₂⟩:=hp
  obtain ⟨h₃,h₄⟩:=hp'
  exact row_unique NodeLayout.basePfn (fun nd => nd.basePfn+nd.numPages) hlayout.apart hi hj
    ⟨h₁,by omega⟩ ⟨h₃,by omega⟩

section

variable (h : Pooled nodes pools tables)
include h

theorem next_le {k : ℕ} {nd : NodeLayout} (hk : nodes[k]?=some nd) :
    pools.nextPfn k≤nd.basePfn+nd.kernelPages+1 := by
  have := (NumaKernelPools.base_le_firstPfn k nd).2
  rcases h.high k nd hk with heq | hle
  · omega
  · omega

theorem fits_iff (hnumbered : Numbered nodes) {k : ℕ} {nd : NodeLayout} (hk : nodes[k]?=some nd) {pages : ℕ}
    (hpages : pages<2^52) : pools.nextPfn k+pages<2^64 ∧
      (pools.fits k pages=true ↔ pools.nextPfn k+pages≤nd.basePfn+nd.kernelPages) := by
  have hnext := h.next_le hk
  have hend := hnumbered.no_wrap nd (mem_of_getElem? hk)
  have hlt : pools.nextPfn k+pages<2^64 := by omega
  refine ⟨hlt,?_⟩
  rw [NumaKernelPools.fits,decide_eq_true_eq,Nat.mod_eq_of_lt hlt,h.endPfn k nd hk]

theorem take (hlayout : KernelLayout nodes) {k : ℕ} {nd : NodeLayout} (hk : nodes[k]?=some nd)
    {f : TableFrames} (hpfn : f.pfn=pools.nextPfn k) (hwrap : f.pfn+f.pages<2^64)
    (hfit : f.pfn+f.pages≤nd.basePfn+nd.kernelPages) : Pooled nodes (pools.take k f.pages) (f::tables) := by
  have hself : (pools.take k f.pages).nextPfn k=f.pfn+f.pages := by
    rw [NumaKernelPools.take]
    simp only [Function.update_self]
    rw [← hpfn,Nat.mod_eq_of_lt hwrap]
  have hother : ∀j,j≠k → (pools.take k f.pages).nextPfn j=pools.nextPfn j :=
    fun j hj => Function.update_of_ne hj _ _
  have hlow : NumaKernelPools.firstPfn k nd≤f.pfn := (h.low k nd hk).trans hpfn.ge
  have hgrow : ∀j,pools.nextPfn j≤(pools.take k f.pages).nextPfn j := by
    intro j
    by_cases hj : j=k
    · subst hj
      omega
    · exact (hother j hj).ge
  refine ⟨h.endPfn,fun j nd' hj => (h.low j nd' hj).trans (hgrow j),fun j nd' hj => ?_,
    fun j nd' hj p hp₁ hp₂ => ?_,
    fun g hg => ?_,pairwise_cons.mpr ⟨fun g hg p hp => ?_,h.disjoint⟩⟩
  · by_cases hjk : j=k
    · subst hjk
      obtain rfl : nd=nd':=Option.some.inj (hk.symm.trans hj)
      exact .inr (hself.le.trans hfit)
    · rw [hother j hjk]
      exact h.high j nd' hj
  · by_cases hnext : p<pools.nextPfn j
    · obtain ⟨g,hg,hcont⟩:=h.filled j nd' hj p hp₁ hnext
      exact ⟨g,mem_cons_of_mem _ hg,hcont⟩
    · have hjk : j=k := by
        by_contra hne
        rw [hother j hne] at hp₂
        exact hnext hp₂
      subst hjk
      exact ⟨f,mem_cons_self,by omega,by omega⟩
  · rcases mem_cons.mp hg with rfl | hg
    · exact ⟨k,nd,hk,hlow,hself.ge,hfit⟩
    · obtain ⟨j,nd',hj,hfirst,hnext,hend⟩:=h.placed g hg
      exact ⟨j,nd',hj,hfirst,hnext.trans (hgrow j),hend⟩
  · -- an older table of the same node ends before the next page
    intro hp'
    obtain ⟨j,nd',hj,hfirst,hnext,hend⟩:=h.placed g hg
    obtain rfl : k=j:=kernel_unique hlayout hk hj (contains_inKernel hlow hfit hp)
      (contains_inKernel hfirst hend hp')
    have h₁ := hp.1
    have h₂ := hp'.2
    omega

theorem not_canHold (hlayout : KernelLayout nodes) {k : ℕ} {nd : NodeLayout} (hk : nodes[k]?=some nd)
    {pages : ℕ} (hfull : nd.basePfn+nd.kernelPages<pools.nextPfn k+pages) : ¬ nd.CanHold pages tables := by
  rintro ⟨p,hzero,hbase,hend,hfree⟩
  have hfirst : NumaKernelPools.firstPfn k nd≤p := by
    rw [NumaKernelPools.firstPfn]
    split_ifs with hk0
    · subst hk0
      rw [hlayout.first nd hk]
      omega
    · exact hbase
  have hlt : p<pools.nextPfn k := by omega
  obtain ⟨f,hf,hcont⟩:=h.filled k nd hk p hfirst hlt
  have hpages : pages=0 := by
    by_contra hne
    exact hfree p le_rfl (by omega) f hf hcont
  rcases h.high k nd hk with heq | hle
  · omega
  · omega

end

end Pooled

theorem SpillsLast.cons {nodes : List NodeLayout} {tables : List TableFrames} {f : TableFrames}
    {nd : NodeLayout} (h : SpillsLast nodes tables) (hhome : nodes[f.home]?=some nd)
    (hf : (nd.basePfn≤f.pfn ∧ f.pfn+f.pages≤nd.basePfn+nd.kernelPages) ∨
      ¬ nd.CanHold f.pages tables) : SpillsLast nodes (f::tables) := by
  intro g older hsuffix
  rcases suffix_cons_iff.mp hsuffix with heq | hsuffix
  · cases heq
    exact ⟨nd,hhome,hf⟩
  · exact h g older hsuffix

theorem pagesNeeded_eq {bytes : UInt64} (h : bytes.toNat+4095<2^64) :
    pagesNeeded bytes=(bytes.toNat+4095) / 4096 := by
  show (bytes.toNat+4095) % 2^64 / 4096=(bytes.toNat+4095) / 4096
  rw [Nat.mod_eq_of_lt h]

namespace NumaReservationThpAllocator

variable {s : NumaReservationThpAllocator} {pools pools' : NumaKernelPools} {bytes coreId : UInt64}

theorem pageTableNode_lt (h : s.numa.nodes≠[]) : s.pageTableNode coreId<s.numa.nodes.length := by
  have hpos := length_pos_iff.mpr h
  unfold pageTableNode cpuLocalNode
  split
  · exact hpos
  · split_ifs
    · exact hpos
    · omega

theorem handlePageTableAllocations_ok {pfn : ℕ}
    (he : s.handlePageTableAllocations pools bytes coreId = .ok (pfn,pools')) : ∃k,(k=s.pageTableNode coreId ∨
        pools.fits (s.pageTableNode coreId) (pagesNeeded bytes)=false ∧ k<s.numa.nodes.length) ∧
      pools.fits k (pagesNeeded bytes)=true ∧ pfn=pools.nextPfn k ∧
      pools'=pools.take k (pagesNeeded bytes) := by
  simp only [handlePageTableAllocations] at he
  split_ifs at he with hfits
  · cases he
    exact ⟨_,.inl rfl,hfits,rfl,rfl⟩
  · split at he
    · rename_i n hfind
      cases he
      have hpred := List.find?_some hfind
      have hmem := mem_range.mp (mem_of_find?_eq_some hfind)
      rw [decide_eq_true_eq] at hpred
      exact ⟨n,.inr ⟨Bool.eq_false_of_not_eq_true hfits,hmem⟩,hpred.2,rfl,rfl⟩
    · cases he

end NumaReservationThpAllocator

namespace NumaMemory

variable {order : UtilizationSort} {nodes : List NodeLayout} {t t' : NumaMemory}

/-- The invariant of a run over nodes that stay where they are. -/
structure Kept (nodes : List NodeLayout) (t : NumaMemory) : Prop where
  nodes_eq : t.nodes=nodes
  contained : Contained t.data.allocator.numa.nodes t.data.allocator.maps
  frames : ∀g∈t.data.grants,∀p,g.Holds p → ∃nd∈t.data.allocator.numa.nodes,nd.Owns p
  pooled : Pooled nodes t.pools t.tables
  spill : SpillsLast nodes t.tables

theorem kept_allocate {req : NumaRequest} (h : t.Kept nodes) (hharm : t.Harmless (.allocate req))
    (he : t.step order (.allocate req) = .ok t') : t'.Kept nodes := by
  obtain ⟨data,hdata,he⟩:=bind_ok he
  cases he
  obtain ⟨⟨a,s'⟩,ha,hdata⟩:=bind_ok hdata
  cases hdata
  obtain ⟨⟨hcont,hlayout⟩,hpages⟩:=NumaReservationThpAllocator.allocate_contained h.contained hharm ha
  refine ⟨hlayout.trans h.nodes_eq,hcont,fun g hg p hp => ?_,h.pooled,h.spill⟩
  rcases mem_cons.mp hg with rfl | hg
  · exact hpages _ p hp
  · exact owned_congr hlayout (h.frames g hg p hp)

theorem kept_pageTable {bytes coreId : UInt64} (hlayout : KernelLayout nodes) (hnumbered : Numbered nodes)
    (h : t.Kept nodes) (hharm : t.Harmless (.handlePageTableAllocations bytes coreId))
    (he : t.step order (.handlePageTableAllocations bytes coreId) = .ok t') : t'.Kept nodes := by
  obtain ⟨⟨pfn,pools⟩,htable,he⟩:=bind_ok he
  cases he
  obtain ⟨k,hnode,hfits,rfl,rfl⟩:=NumaReservationThpAllocator.handlePageTableAllocations_ok htable
  have hlength : t.data.allocator.numa.nodes.length=nodes.length := by
    rw [← h.nodes_eq,NumaMemory.nodes,length_map]
  have hhome : t.data.allocator.pageTableNode coreId<nodes.length := by
    rw [← hlength]
    apply NumaReservationThpAllocator.pageTableNode_lt
    rw [← length_pos_iff,hlength]
    exact length_pos_iff.mpr hlayout.nonempty
  have hklt : k<nodes.length := by
    rcases hnode with rfl | ⟨-,hlt⟩
    · exact hhome
    · exact hlt.trans_eq hlength
  obtain ⟨nd,hk⟩ : ∃nd,nodes[k]?=some nd:=⟨_,List.getElem?_eq_getElem hklt⟩
  obtain ⟨home,hhome⟩ : ∃nd,nodes[t.data.allocator.pageTableNode coreId]?=some nd:=
    ⟨_,List.getElem?_eq_getElem hhome⟩
  -- the table that the call adds
  obtain ⟨f,hf⟩ : ∃f : TableFrames,
      f=⟨t.pools.nextPfn k,bytes,t.data.allocator.pageTableNode coreId⟩ := ⟨_,rfl⟩
  have hpages : pagesNeeded bytes=f.pages := by
    rw [hf]
    exact pagesNeeded_eq hharm
  have hpfn : f.pfn=t.pools.nextPfn k := by rw [hf]
  have hsmall : pagesNeeded bytes<2^52 := by
    have hround : bytes.toNat+4095<2^64 := hharm
    rw [pagesNeeded_eq hround]
    omega
  obtain ⟨hwrap,hiff⟩:=h.pooled.fits_iff hnumbered hk hsmall
  have hfit := hiff.mp hfits
  rw [hpages,← hpfn] at hwrap hfit
  rw [← hf,hpages]
  refine ⟨h.nodes_eq,h.contained,h.frames,h.pooled.take hlayout hk hpfn hwrap hfit,?_⟩
  have hhomeNode : nodes[f.home]?=some home := by
    rw [hf]
    exact hhome
  apply h.spill.cons hhomeNode
  rcases hnode with rfl | ⟨hnot,-⟩
  · left
    obtain rfl : nd=home:=Option.some.inj (hk.symm.trans hhome)
    have hfirst := (NumaKernelPools.base_le_firstPfn _ nd).1.trans (h.pooled.low _ nd hk)
    exact ⟨hfirst.trans hpfn.ge,hfit⟩
  · right
    apply h.pooled.not_canHold hlayout hhome
    rw [← hpages,← not_le,← (h.pooled.fits_iff hnumbered hhome hsmall).2,hnot]
    decide

theorem kept_step {c : NumaCall} (hlayout : KernelLayout nodes) (hnumbered : Numbered nodes)
    (h : t.Kept nodes) (hharm : t.Harmless c) (he : t.step order c = .ok t') : t'.Kept nodes := by
  cases c with
  | allocate req => exact kept_allocate h hharm he
  | handlePageTableAllocations bytes coreId => exact kept_pageTable hlayout hnumbered h hharm he

theorem kept_new {s : NumaReservationThpAllocator} (h : Contained s.numa.nodes s.maps) :
    (new s).Kept (s.numa.nodes.map NodeBuddy.layout) := by
  refine ⟨rfl,h,fun g hg => absurd hg not_mem_nil,pooled_new _,?_⟩
  intro f older hsuffix
  cases suffix_nil.mp hsuffix

theorem Kept.not_zero (h : t.Kept nodes) (hnumbered : Numbered nodes) {f : TableFrames} (hf : f∈t.tables) :
    ¬ f.Contains 0 := by
  rintro ⟨hpfn,hpages⟩
  obtain ⟨k,nd,hk,hfirst,-,hend⟩:=h.pooled.placed f hf
  rw [NumaKernelPools.firstPfn] at hfirst
  split_ifs at hfirst with hk0
  · omega
  · exact hnumbered.not_zero k nd hk hk0 (by omega) (by omega)

theorem Kept.not_data (h : t.Kept nodes) (hlayout : KernelLayout nodes) {f : TableFrames} (hf : f∈t.tables)
    {g : Grant Unit} (hg : g∈t.data.grants) {p : ℕ} (hp : f.Contains p) : ¬ g.Holds p := by
  intro hheld
  obtain ⟨k,nd,hk,hfirst,-,hend⟩:=h.pooled.placed f hf
  obtain ⟨hlow,hhigh⟩:=Pooled.contains_inKernel hfirst hend hp
  have hle := hlayout.kernel_le nd (mem_of_getElem? hk)
  obtain ⟨owner,howner,hown⟩:=h.frames g hg p hheld
  obtain ⟨j,hj⟩:=mem_iff_getElem?.mp howner
  have hj' : nodes[j]?=some owner.layout := by
    rw [← h.nodes_eq,NumaMemory.nodes,List.getElem?_map,hj]
    rfl
  obtain rfl : k=j:=row_unique NodeLayout.basePfn (fun nd => nd.basePfn+nd.numPages)
    hlayout.apart hk hj' ⟨hlow,by omega⟩ hown.inside
  obtain rfl : nd=owner.layout:=Option.some.inj (hk.symm.trans hj')
  exact absurd hown.1 (not_le.mpr hhigh)

theorem Kept.tablesSeparate (h : t.Kept nodes) (hlayout : KernelLayout nodes) (hnumbered : Numbered nodes) :
    t.TablesSeparate := by
  refine ⟨h.pooled.disjoint,fun f hf => h.not_zero hnumbered hf,fun f hf => ?_,
    fun f hf g hg p hp => h.not_data hlayout hf hg hp,?_⟩
  · rw [h.nodes_eq]
    obtain ⟨k,nd,hk,hfirst,-,hend⟩:=h.pooled.placed f hf
    refine ⟨k,nd,hk,fun p hp => Pooled.contains_inKernel hfirst hend hp,?_⟩
    intro j nd' hj hne p hp hother
    exact hne (Pooled.kernel_unique hlayout hj hk hother (Pooled.contains_inKernel hfirst hend hp))
  · rw [h.nodes_eq]
    exact h.spill

end NumaMemory

/-- For every configuration, placement engine and mixture of calls whose demotions end inside their
nodes, the page-table frames are kept apart from each other, from page 0 and from the data, each
in the kernel of one node, and leave the node of the core only when it is full. -/
theorem page_tables_separate (order : UtilizationSort) {numNodes maxOrder applicationCores : ℕ}
    {perNodeMemMb perNodeKernelMb : List UInt64} {fragType : String}
    {threshold utilizationThreshold : ℚ} {policy : NumaPolicy} {s : NumaReservationThpAllocator}
    (hsizes : ∀x∈(perNodeMemMb.zip perNodeKernelMb).take numNodes,x.2≤x.1 ∧ x.1.toNat<2^31)
    (hnew : NumaReservationThpAllocator.new numNodes perNodeMemMb perNodeKernelMb maxOrder fragType
      threshold policy utilizationThreshold applicationCores = .ok s)
    (hnumbered : Numbered (s.numa.nodes.map NodeBuddy.layout)) (engine : NumaPlacementEngine)
    {calls : List NumaCall}
    (hcalls : Along (NumaMemory.step order) NumaMemory.Harmless (.new {s with engine}) calls)
    {pre : List NumaCall} (hpre : pre <+: calls) {t : NumaMemory}
    (hrun : run (NumaMemory.step order) (.new {s with engine}) pre = .ok t) :
    t.TablesSeparate := by
  obtain ⟨post,rfl⟩:=hpre
  obtain ⟨hcontained,hlayout⟩:=new_contained hsizes hnew
  have hstart : (NumaMemory.new {s with engine}).Kept (s.numa.nodes.map NodeBuddy.layout) :=
    NumaMemory.kept_new (s:={s with engine}) hcontained
  have hkept := run_invariant
    (fun t c t' ht hharm he => NumaMemory.kept_step hlayout hnumbered ht hharm he) hstart hcalls.left
    hrun
  exact hkept.tablesSeparate hlayout hnumbered

/-- The second table does not fit behind the first one and goes to the other node. -/
theorem page_tables_separate_with_spill : ∃s,twoNodes [4,4] [1,2] 1 .preferred = .ok s ∧
    ∃t,run (NumaMemory.step .insertion) (.new s) [.handlePageTableAllocations 4096 0,.allocate ⟨4096,0,none⟩,
      .handlePageTableAllocations (2^20) 0] = .ok t ∧
    (t.tables.map fun f => (f.home,f.pfn))=[(0,1024),(0,1)] ∧ t.TablesSeparate := by
  refine exists_ok_ok_and (P:=fun s _ =>
    (s.numa.nodes.map fun nd => (nd.basePfn,nd.numPages,nd.kernelPages))=[(0,1024,256),(1024,1024,512)] ∧
    ∃t₁,NumaMemory.step .insertion (.new s) (.handlePageTableAllocations 4096 0) = .ok t₁ ∧
      (t₁.data.allocator.maps (t₁.data.allocator.target ⟨4096,0,none⟩)).entries.length=0)
    (by decide +kernel) ?_
  rintro s t hs ht ⟨hnodes,t₁,ht₁,hempty⟩
  have hlayout : s.numa.nodes.map NodeBuddy.layout=[⟨0,1024,256⟩,⟨1024,1024,512⟩] := by
    have hmap := congrArg (List.map fun x : ℕ × ℕ × ℕ => NodeLayout.mk x.1 x.2.1 x.2.2) hnodes
    rw [map_map] at hmap
    exact hmap
  have hnumbered : Numbered (s.numa.nodes.map NodeBuddy.layout) := by
    rw [hlayout]
    refine ⟨fun k nd hk hne _ => ?_,fun nd hnd => ?_⟩
    · match k,hne,hk with
      | 1,_,hk =>
        cases hk
        decide
    · have hcases : nd=⟨0,1024,256⟩ ∨ nd=⟨1024,1024,512⟩ := by simpa using hnd
      rcases hcases with rfl | rfl
      · norm_num
      · norm_num
  refine page_tables_separate .insertion (by simp) hs hnumbered s.engine ?_ prefix_rfl ht
  refine ⟨?_,fun u hu => ⟨fun _ nd r region _ hlook => ?_,fun v _ => ⟨?_,fun _ _ => trivial⟩⟩⟩
  · rw [NumaMemory.Harmless,show (4096 : UInt64).toNat=4096 from by decide]
    norm_num
  · obtain rfl : t₁=u := Except.ok.inj (ht₁.symm.trans hu)
    rw [AList.lookup,length_eq_zero_iff.mp hempty] at hlook
    cases hlook
  · rw [NumaMemory.Harmless,show (2^20 : UInt64).toNat=1048576 from by decide]
    norm_num

/-- A demotion on the last pages of node 0 frees the first kernel page of node 1, which then is a
data frame and a page table. When node 0 has no pages at all, node 1 gives page 0 away. -/
theorem page_tables_meet_data_and_zero :
    (∃s,twoNodes [2,2] [0,1] 1 .preferred = .ok s ∧
      ∃t,run (NumaMemory.step .insertion) (.new s) [.allocate ⟨4096,0,none⟩,.allocate ⟨4096,2^21,none⟩,
        .handlePageTableAllocations 4096 0] = .ok t ∧ ¬ t.TablesSeparate) ∧
    ∃s,twoNodes [0,2] [0,1] 1 .preferred = .ok s ∧
      ∃t,run (NumaMemory.step .insertion) (.new s) [.handlePageTableAllocations 4096 0] = .ok t ∧
      ¬ t.TablesSeparate := by
  constructor
  · refine exists_ok_ok (P:=fun _ t =>
      (∃g∈t.data.grants,g.allocation.ppn=some 512 ∧ g.allocation.pageSize=12) ∧
      ∃f∈t.tables,f.pfn=512 ∧ f.pages=1) (by decide +kernel) ?_
    rintro s t - - ⟨⟨g,hg,hppn,hsize⟩,f,hf,hpfn,hpages⟩ h
    refine h.not_data f hf g hg 512 ⟨by omega,by omega⟩ ?_
    rw [Grant.Holds,hppn,hsize]
    rfl
  · refine exists_ok_ok (P:=fun _ t => ∃f∈t.tables,f.pfn=0 ∧ f.pages=1) (by decide +kernel) ?_
    rintro s t - - ⟨f,hf,hpfn,hpages⟩ h
    exact h.not_zero f hf ⟨by omega,by omega⟩

end Sniper.PhysicalMemory
