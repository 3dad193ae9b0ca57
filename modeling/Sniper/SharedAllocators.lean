import Sniper.TabledGrants

/-!
# Applications that share one allocator

An allocator is steady if its answers to one application agree with each other, whatever it
answers to the others in between.
-/

namespace Sniper.PageFaults
open BuddyAllocator FallibleRuns PhysicalMemory RadixPageTable Function List

variable {σ ι : Type} [DecidableEq ι]

/-- An allocator with an invariant over its state and the answers it gave to each
application. An application asks only for pages that it has no answer for. -/
structure SteadyAllocator (σ ι : Type) [DecidableEq ι] extends AllocatorInterface σ where
  Inv : σ → (ι → List (Grant Unit)) → Prop
  inv_withBase : ∀s grants pointers,Inv s grants → Inv (withBase s pointers) grants
  inv_allocate : ∀s s' grants i req a,Inv s grants → req.isPagetableAllocation=false →
    (∀g∈grants i,¬ g.Covers req.vpn) → allocate s req = .ok (a,s') →
      Inv s' (Function.update grants i (⟨(),req.vpn,a⟩::grants i))
  agree : ∀s grants i,Inv s grants → ∀g∈grants i,∀g'∈grants i,∀v,
    g.Covers v → g'.Covers v → g.page v=g'.page v
  bounded : ∀s grants i,Inv s grants → ∀g∈grants i,∀v p,
    g.Covers v → g.page v=some p → p < invalidWord
  sizes : ∀s grants i,Inv s grants → ∀g∈grants i,
    g.allocation.pageSize=12 ∨ g.allocation.pageSize=21
  /-- the instruction flag matters only to an allocator with an instruction area -/
  allocate_data : ∀s req,usesInstructionArea req=false →
    allocate s req=allocate s {req with isInstructionAllocation:=false}

instance : CoeOut (SteadyAllocator σ ι) (AllocatorInterface σ) := ⟨SteadyAllocator.toAllocatorInterface⟩

theorem forall_update {γ : ι → Type} {P : ∀i,γ i → Prop} {f : ∀i,γ i} {i : ι} {x : γ i} (hx : P i x)
    (h : ∀j,j≠i → P j (f j)) (j : ι) : P j (update f i x j) := by
  by_cases hj : j=i
  · subst hj
    rw [update_self]
    exact hx
  · rw [update_of_ne hj]
    exact h j hj

/-- Answers of 4KB, one for each page asked for. -/
structure SinglePages (grants : List (Grant Unit)) : Prop where
  small : ∀g∈grants,g.allocation.pageSize=12
  bounded : ∀g∈grants,∀p,g.allocation.ppn=some p → p < invalidWord
  agree : ∀g∈grants,∀g'∈grants,g.vpn=g'.vpn → g.allocation.ppn=g'.allocation.ppn

theorem Grant.covers_of_small {g : Grant Unit} (hsize : g.allocation.pageSize=12) {v : ℕ} :
    g.Covers v ↔ v=g.vpn := by
  rw [Grant.Covers,hsize,if_neg (by decide)]

theorem SinglePages.cons {grants : List (Grant Unit)} {v : ℕ} {ppn : Option ℕ} (h : SinglePages grants)
    (hfirst : ∀g∈grants,¬ g.Covers v) (hppn : ∀p,ppn=some p → p < invalidWord) :
    SinglePages (⟨(),v,⟨ppn,12⟩⟩::grants) := by
  have hnew : ∀g∈grants,v≠g.vpn := fun g hg hv =>
    hfirst g hg ((Grant.covers_of_small (h.small g hg)).mpr hv)
  refine ⟨?_,?_,?_⟩
  · exact forall_mem_cons.mpr ⟨rfl,h.small⟩
  · exact forall_mem_cons.mpr ⟨hppn,h.bounded⟩
  · intro g hg g' hg' hv
    rcases mem_cons.mp hg with rfl | hold <;> rcases mem_cons.mp hg' with rfl | hold'
    · rfl
    · exact absurd hv (hnew g' hold')
    · exact absurd hv.symm (hnew g hold)
    · exact h.agree g hold g' hold' hv

structure BaselineInv (s : BaselineAllocator) (grants : ι → List (Grant Unit)) : Prop where
  wellFormed : s.buddy.WellFormed
  free : ∀p∈s.buddy.freeCells,p < invalidWord
  answers : ∀i,SinglePages (grants i)

theorem allocateInstruction_lt (s : PhysicalMemoryAllocator) (size : UInt64) (p : ℕ)
    (h : (s.allocateInstruction size).1.map UInt64.toNat=some p) : p < invalidWord := by
  rw [PhysicalMemoryAllocator.allocateInstruction] at h
  split_ifs at h
  · cases h
  · cases h
    have hlt := s.instructionCurrentAddress.toNat_lt
    rw [UInt64.toNat_div,invalidWord]
    change s.instructionCurrentAddress.toNat / 4096<_
    omega

theorem BaselineInv.allocate {s s' : BaselineAllocator} {grants : ι → List (Grant Unit)} {i : ι}
    {req : Request} {a : Allocation} (h : BaselineInv s grants) (hfirst : ∀g∈grants i,¬ g.Covers req.vpn)
    (he : s.allocate req = .ok (a,s')) : BaselineInv s' (update grants i (⟨(),req.vpn,a⟩::grants i)) := by
  cases harea : BaselineAllocator.usesInstructionArea req with
  | true =>
    rw [BaselineAllocator.allocate_of_instruction harea] at he
    cases he
    refine ⟨h.wellFormed,h.free,forall_update ?_ fun j _ => h.answers j⟩
    exact (h.answers i).cons hfirst (allocateInstruction_lt _ _)
  | false =>
    obtain ⟨page,hpage,rfl,-⟩:=BaselineAllocator.allocate_of_data harea he
    rcases Buddy.allocate_cases h.wellFormed hpage with ⟨q,rfl,htake⟩ | ⟨rfl,hsame,-⟩
    · have hmem : ∀p,p∈s'.buddy.freeCells ∨
          p∈Multiset.Ico q (q+2^Buddy.orderOf req.size) → p < invalidWord := by
        intro p hp
        refine h.free p ?_
        rw [htake.cells]
        exact Multiset.mem_add.mpr hp
      refine ⟨htake.wellFormed,fun p hp => hmem p (.inl hp),forall_update ?_ fun j _ => h.answers j⟩
      refine (h.answers i).cons hfirst fun p hp => hmem p (.inr ?_)
      cases hp
      exact Multiset.mem_Ico.mpr ⟨le_rfl,by have := Nat.two_pow_pos (Buddy.orderOf req.size); omega⟩
    · refine ⟨hsame ▸ h.wellFormed,hsame ▸ h.free,forall_update ?_ fun j _ => h.answers j⟩
      exact (h.answers i).cons hfirst fun p hp => by cases hp

/-- The allocator, the page table of each application, and the answers each was given,
newest first. -/
structure Applications (σ ι : Type) where
  allocator : σ
  tables : ι → PageTableRadix
  grants : ι → List (Grant Unit)

namespace Applications

def new (allocator : σ) (frameSize : ι → ℕ) (pageSizeList : ι → List ℕ) : Applications σ ι :=
  ⟨allocator,fun i => .new 4 (frameSize i) (pageSizeList i),fun _ => []⟩

def handle (A : AllocatorInterface σ) (t : Applications σ ι) (i : ι) (ctx : FaultCtx) :
    Except Abort (Applications σ ι) := do
  let (out,allocator,table) ← handlePageFault A ctx t.allocator (t.tables i)
  .ok ⟨allocator,Function.update t.tables i table,
    Function.update t.grants i (⟨(),ctx.vpn,out.allocation⟩::t.grants i)⟩

/-- Walk the page table of the application and handle faults until a walk succeeds, for at
most the given number of walks. -/
def walkUntilMapped (handle : PTWResult → Applications σ ι → Except Abort (Applications σ ι)) (i : ι)
    (address : ℕ) : ℕ → Applications σ ι → Except Abort (PTWResult × Applications σ ι)
  | 0,_ => .error .unfinished
  | rounds + 1,t => do
    let r ← (t.tables i).initializeWalk address
    if r.faultHappened then
      let t ← handle r t
      walkUntilMapped handle i address rounds t
    else .ok (r,t)

/-- The invariant of the allocator, and page tables filled from its answers. -/
structure Coherent (A : SteadyAllocator σ ι) (V : Set ℕ) (t : Applications σ ι) : Prop where
  apart : ToldApart V
  inv : A.Inv t.allocator t.grants
  represents : ∀i,Mapped.Represents ⟨t.tables i,(t.grants i).map mappingOf⟩
  known : ∀i,∀g∈t.grants i,g.vpn∈V

variable {A : SteadyAllocator σ ι} {V : Set ℕ} {t t' : Applications σ ι} {i : ι}

theorem Coherent.tabled (h : t.Coherent A V) (i : ι) : Tabled V (t.tables i) (t.grants i) :=
  ⟨h.apart,h.represents i,h.known i,A.agree _ _ i h.inv,A.bounded _ _ i h.inv,A.sizes _ _ i h.inv⟩

theorem new_coherent (hV : ToldApart V) {s : σ} (hs : A.Inv s fun _ => []) {frameSize : ι → ℕ}
    {pageSizeList : ι → List ℕ}
    (hframe : ∀i,512≤frameSize i) (hsmall : ∀i,(pageSizeList i)[0]?=some 12)
    (hlarge : ∀i,(pageSizeList i)[1]?=some 21) : (new s frameSize pageSizeList).Coherent A V :=
  ⟨hV,hs,fun i => (Tabled.new hV (hframe i) (hsmall i) (hlarge i)).represents,
    fun _ _ hg => absurd hg not_mem_nil⟩

/-- All answers of the first state are answers of the second. -/
def Extends (t t' : Applications σ ι) : Prop := ∀i,∀g∈t.grants i,g∈t'.grants i

theorem handle_coherent {ctx : FaultCtx} (h : t.Coherent A V) (hknown : ctx.vpn∈V)
    (hfirst : ∀g∈t.grants i,¬ g.Covers ctx.vpn) (he : t.handle A i ctx = .ok t') :
    t'.Coherent A V ∧ t.Extends t' := by
  obtain ⟨⟨out,allocator,table⟩,hfault,he⟩:=bind_ok he
  cases he
  obtain ⟨s₁,base₁,halloc,-,hupdate,rfl⟩:=handlePageFault_ok hfault
  have hvpn : ctx.request.vpn=ctx.vpn := Nat.mul_div_cancel _ (by decide)
  have hinv := A.inv_allocate _ _ _ i _ _ h.inv rfl (by rw [hvpn]; exact hfirst) halloc
  rw [hvpn] at hinv
  have hsize : out.allocation.pageSize=12 ∨ out.allocation.pageSize=21 := by
    refine A.sizes _ _ i hinv ⟨(),ctx.vpn,out.allocation⟩ ?_
    rw [update_self]
    exact mem_cons_self
  refine ⟨⟨h.apart,A.inv_withBase _ _ _ hinv,fun j => ?_,fun j => ?_⟩,fun j g hg => ?_⟩
  · by_cases hj : j=i
    · subst hj
      simp only [update_self]
      exact (h.tabled j).represents_cons (g:=⟨(),ctx.vpn,out.allocation⟩) hsize hupdate
    · simp only [update_of_ne hj]
      exact h.represents j
  · by_cases hj : j=i
    · subst hj
      simp only [update_self]
      exact forall_mem_cons.mpr ⟨hknown,h.known j⟩
    · simp only [update_of_ne hj]
      exact h.known j
  · by_cases hj : j=i
    · subst hj
      simp only [update_self]
      exact mem_cons_of_mem _ hg
    · simpa only [update_of_ne hj] using hg

theorem walkUntilMapped_ok {address rounds : ℕ} {faultCtx : PTWResult → FaultCtx}
    (hctx : ∀r,(faultCtx r).vpn=address / 2^12) (ha : address / 2 ^ 12∈V) {r : PTWResult}
    (h : t.Coherent A V) (he : walkUntilMapped (fun r t => t.handle A i (faultCtx r)) i address rounds t =
      .ok (r,t')) : t'.Coherent A V ∧ t.Extends t' ∧ (t'.tables i).initializeWalk address = .ok r ∧
        r.faultHappened=false := by
  induction rounds generalizing t with
  | zero => cases he
  | succ rounds ih =>
    obtain ⟨r₁,hwalk,he⟩:=bind_ok he
    cases hf : r₁.faultHappened with
    | false =>
      rw [hf,if_neg (by decide)] at he
      cases he
      exact ⟨h,fun _ _ hg => hg,hwalk,hf⟩
    | true =>
      rw [hf,if_pos rfl] at he
      obtain ⟨t₁,hhandle,he⟩:=bind_ok he
      obtain ⟨h₁,hext₁⟩:=handle_coherent h (by rw [hctx]; exact ha)
        (by rw [hctx]; exact (h.tabled i).not_covers_of_fault ha hwalk hf) hhandle
      obtain ⟨h',hext,hwalk',hf'⟩:=ih h₁ he
      exact ⟨h',fun j g hg => hext j g (hext₁ j g hg),hwalk',hf'⟩

end Applications

end Sniper.PageFaults
