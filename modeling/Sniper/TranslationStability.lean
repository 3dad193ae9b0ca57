import Sniper.DemotionSafety
import Sniper.TabledGrants

/-!
# Physical addresses do not change

The page table holds the newest answer of the allocator for every page, and the answers for a page
agree.
-/

namespace Sniper.PageFaults
open BuddyAllocator FallibleRuns PhysicalMemory RadixPageTable

/-- The allocator and the page table of one application, with all answers of the allocator,
newest first. -/
structure Machine where
  allocator : ReservationThpAllocator
  table : PageTableRadix
  grants : List (Grant Unit)

namespace Machine

def new (allocator : ReservationThpAllocator) (frameSize : ℕ) (pageSizeList : List ℕ) : Machine :=
  ⟨allocator,.new 4 frameSize pageSizeList,[]⟩

def handle (order : UtilizationSort) (t : Machine) (ctx : FaultCtx) : Except Abort Machine := do
  let (out,allocator,table) ←
    handlePageFault (ReservationThpAllocator.interface order) ctx t.allocator t.table
  .ok ⟨allocator,table,⟨(),ctx.vpn,out.allocation⟩::t.grants⟩

/-- One round of the loop in `performAddressTranslation`: a walk, and the handling of its
fault. The flag marks an access for instructions. -/
def translate (order : UtilizationSort) (t : Machine) (access : ℕ × Bool) : Except Abort Machine := do
  let r ← t.table.initializeWalk access.1
  if r.faultHappened then t.handle order (initFaultCtx access.1 r.requestedFrames access.2)
  else .ok t

end Machine

variable {V : Set ℕ}

/-- The answers agree with each other, and the page table holds them. -/
structure Coherent (V : Set ℕ) (bound : ℕ) (t : Machine) : Prop where
  apart : ToldApart V
  small : bound < invalidWord
  settled : Settled bound t.allocator t.grants
  represents : Mapped.Represents ⟨t.table,t.grants.map mappingOf⟩
  known : ∀g∈t.grants,g.vpn∈V

theorem Coherent.tabled {bound : ℕ} {t : Machine} (h : Coherent V bound t) : Tabled V t.table t.grants :=
  ⟨h.apart,h.represents,h.known,h.settled.agree,
    fun g hg v p hv hp => lt_of_le_of_lt (h.settled.bounded g hg v p hv hp) h.small,h.settled.sizes⟩

theorem FaultCtx.request_vpn (ctx : FaultCtx) : ctx.request.vpn=ctx.vpn := Nat.mul_div_cancel _ (by decide)

namespace Machine

variable {ctx : FaultCtx} {order : UtilizationSort} {t t' : Machine} {bound : ℕ} {access : ℕ × Bool}

theorem handle_ok (h : t.handle order ctx = .ok t') : ∃a s₁ base frames used,
      t.allocator.allocate order ctx.request = .ok (a,s₁) ∧
      t.table.updatePageTableFrames ctx.address a.ppnWord a.pageSize frames =
        .ok (used,t'.table) ∧
      t'.allocator={s₁ with toPhysicalMemoryAllocator:=base} ∧
      t'.grants=⟨(),ctx.vpn,a⟩::t.grants := by
  obtain ⟨⟨out,allocator,table⟩,hfault,h⟩:=bind_ok h
  cases h
  obtain ⟨s₁,base₁,halloc,-,hupdate,hs'⟩:=handlePageFault_ok hfault
  exact ⟨_,s₁,_,_,_,halloc,hupdate,hs',rfl⟩

theorem handle_coherent (h : Coherent V bound t) (hknown : ctx.vpn∈V) (hfirst :
    t.allocator.twoMbMap.lookup (region2mb ctx.address)=none → ∀g∈t.grants,¬ g.Covers ctx.vpn)
    (he : t.handle order ctx = .ok t') : Coherent V bound t' := by
  obtain ⟨a,s₁,base,frames,used,halloc,hupdate,hallocator,hgrants⟩:=handle_ok he
  have hsettled : Settled bound s₁ (⟨(),ctx.vpn,a⟩::t.grants) := by
    have hstep := Settled.step () ctx.request h.settled rfl ?_ halloc
    · rw [ctx.request_vpn] at hstep
      exact hstep
    · rw [ctx.request_vpn]
      exact hfirst
  have hsize := hsettled.sizes _ List.mem_cons_self
  have hrepresents := h.tabled.represents_cons (g:=⟨(),ctx.vpn,a⟩) hsize hupdate
  rw [← hgrants] at hrepresents
  refine ⟨h.apart,h.small,?_,hrepresents,?_⟩
  · rw [hallocator,hgrants]
    exact hsettled.withBase base
  · intro g hg
    rw [hgrants] at hg
    rcases List.mem_cons.mp hg with rfl | hg
    · exact hknown
    · exact h.known g hg

/-- All answers of the first machine are answers of the second. -/
def Extends (t t' : Machine) : Prop := ∀g∈t.grants,g∈t'.grants

/-- Every address that has a physical address keeps it. -/
def KeepsAddresses (V : Set ℕ) (t t' : Machine) : Prop :=
  ∀a x,a / 2 ^ 12∈V → tableAddress t.table a = some x → tableAddress t'.table a = some x

theorem Extends.keepsAddresses (hext : t.Extends t') (h : Coherent V bound t) (h' : Coherent V bound t') :
    t.KeepsAddresses V t' :=
  fun _ _ ha hx => h.tabled.address_kept h'.tabled hext ha hx

theorem handle_extends (he : t.handle order ctx = .ok t') : t.Extends t' := by
  obtain ⟨a,s₁,base,frames,used,-,-,-,hgrants⟩:=handle_ok he
  intro g hg
  rw [hgrants]
  exact List.mem_cons_of_mem _ hg

theorem translate_cases (he : t.translate order access = .ok t') :
    ∃r,t.table.initializeWalk access.1 = .ok r ∧ ((r.faultHappened=false ∧ t'=t) ∨ (r.faultHappened=true ∧
        t.handle order (initFaultCtx access.1 r.requestedFrames access.2) = .ok t')) := by
  obtain ⟨r,hr,he⟩:=bind_ok he
  refine ⟨r,hr,?_⟩
  cases hf : r.faultHappened with
  | false =>
    rw [hf,if_neg (by decide)] at he
    cases he
    exact Or.inl ⟨rfl,rfl⟩
  | true =>
    rw [hf,if_pos rfl] at he
    exact Or.inr ⟨rfl,he⟩

theorem translate_coherent (h : Coherent V bound t) (hin : access.1 / 2 ^ 12∈V)
    (he : t.translate order access = .ok t') : Coherent V bound t' ∧ t.Extends t' := by
  obtain ⟨r,hr,⟨-,rfl⟩ | ⟨hf,he⟩⟩:=translate_cases he
  · exact ⟨h,fun g hg => hg⟩
  · refine ⟨handle_coherent h ?_ ?_ he,handle_extends he⟩
    · exact hin
    · intro _
      exact h.tabled.not_covers_of_fault hin hr hf

theorem new_coherent (hV : ToldApart V) {memorySize kernelSize : Int32} {maxOrder : ℕ} {fragType : String}
    {threshold : ℚ}
    {s : ReservationThpAllocator} {frameSize : ℕ} {pageSizeList : List ℕ}
    (hs : ReservationThpAllocator.new memorySize maxOrder kernelSize fragType threshold = .ok s)
    (hframe : 512≤frameSize) (hsmall : pageSizeList[0]?=some 12) (hlarge : pageSizeList[1]?=some 21) :
    Coherent V (Buddy.pagesIn memorySize) (Machine.new s frameSize pageSizeList) := by
  refine ⟨hV,Buddy.pagesIn_lt memorySize,Settled.new hs,?_,?_⟩
  · exact (Mapped.new_faithful hframe hsmall hlarge).toRepresents
  · intro g hg
    cases hg

theorem run_coherent {accesses : List (ℕ × Bool)} (h : Coherent V bound t)
    (hin : ∀access∈accesses,access.1 / 2 ^ 12∈V) (he : run (translate order) t accesses = .ok t') :
    Coherent V bound t' ∧ t.Extends t' := by
  induction accesses generalizing t with
  | nil =>
    cases he
    exact ⟨h,fun g hg => hg⟩
  | cons access accesses ih =>
    obtain ⟨t₁,he₁,he⟩:=run_cons_ok he
    obtain ⟨h₁,hext₁⟩:=translate_coherent h (hin access List.mem_cons_self) he₁
    obtain ⟨h',hext'⟩:=ih h₁ (fun a ha => hin a (List.mem_cons_of_mem _ ha)) he
    exact ⟨h',fun g hg => hext' g (hext₁ g hg)⟩

theorem run_keepsAddresses {t₀ : Machine} {before after : List (ℕ × Bool)} (hinit : Coherent V bound t₀)
    (hin : ∀access∈before++after,access.1 / 2 ^ 12∈V) (ht : run (translate order) t₀ before = .ok t)
    (ht' : run (translate order) t after = .ok t') : Coherent V bound t' ∧ t.KeepsAddresses V t' := by
  rw [List.forall_mem_append] at hin
  obtain ⟨h,-⟩:=run_coherent hinit hin.1 ht
  obtain ⟨h',hext⟩:=run_coherent h hin.2 ht'
  exact ⟨h',hext.keepsAddresses h h'⟩

/-- If the access faults, its request does not make the allocator demote a region. -/
def NoDemotion (t : Machine) (access : ℕ × Bool) : Prop :=
  ∀r,t.table.initializeWalk access.1 = .ok r → r.faultHappened=true →
    ¬ t.allocator.UnderPressure (initFaultCtx access.1 r.requestedFrames access.2).request

/-- Different addresses have different physical addresses. -/
def Distinct (V : Set ℕ) (t : Machine) : Prop :=
  ∀a b x,a / 2 ^ 12∈V → b / 2 ^ 12∈V → tableAddress t.table a = some x →
    tableAddress t.table b = some x → a = b

theorem handle_tracked {spent : Multiset ℕ} (h : Tracked spent (⟨t.allocator,t.grants⟩ : Traced Unit))
    (hdem : ¬ t.allocator.UnderPressure ctx.request) (he : t.handle order ctx = .ok t') :
    ∃spent',Tracked spent' (⟨t'.allocator,t'.grants⟩ : Traced Unit) := by
  obtain ⟨a,s₁,base,frames,used,halloc,-,hallocator,hgrants⟩:=handle_ok he
  have hstep : Traced.step order ⟨t.allocator,t.grants⟩ ((),ctx.request) =
      .ok ⟨s₁,⟨(),ctx.vpn,a⟩::t.grants⟩ := by
    simp only [Traced.step,halloc,ok_bind,ctx.request_vpn]
    rfl
  obtain ⟨spent',h'⟩:=Traced.step_tracked h (fun hpress => (hdem hpress).elim) hstep
  refine ⟨spent',?_⟩
  rw [hallocator,hgrants]
  exact ⟨h'.wellFormed,h'.orders,h'.nodup,h'.placed,h'.noReuse⟩

theorem translate_tracked (h : ∃spent,Tracked spent (⟨t.allocator,t.grants⟩ : Traced Unit))
    (hdem : t.NoDemotion access) (he : t.translate order access = .ok t') :
    ∃spent,Tracked spent (⟨t'.allocator,t'.grants⟩ : Traced Unit) := by
  obtain ⟨spent,h⟩:=h
  obtain ⟨r,hr,⟨-,rfl⟩ | ⟨hf,he⟩⟩:=translate_cases he
  · exact ⟨spent,h⟩
  · exact handle_tracked h (hdem r hr hf) he

theorem distinct_of_noReuse (h : Coherent V bound t)
    (hreuse : Traced.NoReuse (⟨t.allocator,t.grants⟩ : Traced Unit)) : t.Distinct V := by
  intro a b x ha hb hx hx'
  obtain ⟨g,hg,p,hcov,hp,rfl⟩:=h.tabled.grant_of_address ha hx
  obtain ⟨g',hg',p',hcov',hp',heq⟩:=h.tabled.grant_of_address hb hx'
  have hpages : p=p' := by omega
  subst hpages
  have hvpn := hreuse () () _ _ p ⟨g,hg,rfl,Grant.gives_iff.mpr ⟨hcov,hp⟩⟩
    ⟨g',hg',rfl,Grant.gives_iff.mpr ⟨hcov',hp'⟩⟩
  omega

end Machine

section

variable (order : UtilizationSort) (memorySize kernelSize : Int32) (maxOrder : ℕ) (fragType : String)
  (threshold : ℚ) (s : ReservationThpAllocator)
  (hs : ReservationThpAllocator.new memorySize maxOrder kernelSize fragType threshold = .ok s)
  (frameSize : ℕ) (pageSizeList : List ℕ) (hframe : 512≤frameSize) (hsmall : pageSizeList[0]?=some 12)
  (hlarge : pageSizeList[1]?=some 21) (hV : ToldApart V) (before after : List (ℕ × Bool))
  (hin : ∀access∈before++after,access.1 / 2 ^ 12∈V)
include hs hframe hsmall hlarge hV hin

/-- As long as no region is demoted, different addresses have different physical addresses,
and an address that has a physical address keeps it, also when its region is promoted. -/
theorem promotion_keeps_addresses
    (hdem : Along (Machine.translate order) Machine.NoDemotion (.new s frameSize pageSizeList)
      (before++after)) (t t' : Machine)
    (ht : run (Machine.translate order) (.new s frameSize pageSizeList) before = .ok t)
    (ht' : run (Machine.translate order) t after = .ok t') : t.KeepsAddresses V t' ∧ t'.Distinct V := by
  have hinit := Machine.new_coherent hV hs hframe hsmall hlarge
  obtain ⟨h',hkeeps⟩ := Machine.run_keepsAddresses hinit hin ht ht'
  have hrun : run (Machine.translate order) (.new s frameSize pageSizeList) (before++after) = .ok t' := by
    rw [run_append,ht]
    exact ht'
  obtain ⟨spent,htracked⟩ := run_invariant
    (fun _ _ _ htracked hdem he => Machine.translate_tracked htracked hdem he)
    ⟨0,(Traced.new_tracked hs).1⟩ hdem hrun
  exact ⟨hkeeps,Machine.distinct_of_noReuse h' htracked.noReuse⟩

/-- Whatever the allocator reserves, promotes and demotes, an address that has a physical
address keeps it. -/
theorem demotion_keeps_addresses (t t' : Machine)
    (ht : run (Machine.translate order) (.new s frameSize pageSizeList) before = .ok t)
    (ht' : run (Machine.translate order) t after = .ok t') : t.KeepsAddresses V t' := by
  have hinit := Machine.new_coherent hV hs hframe hsmall hlarge
  exact (Machine.run_keepsAddresses hinit hin ht ht').2

end

/-- Accesses on a fresh machine with 4MB of memory, that is two blocks of 2MB. -/
def sampleRun (threshold : ℚ) (levels : ℕ) (addresses : List ℕ) : Except Abort Machine := do
  let s ← ReservationThpAllocator.new 4 9 0 "largepage" threshold
  run (Machine.translate .insertion) ⟨s,.new levels 512 [12,21],[]⟩ (addresses.map fun a => (a,false))

/-- The second page of a region promotes it, and the first page keeps its address. -/
theorem promotion_keeps_first_page : ∃t,sampleRun (1 / 512) 4 [0] = .ok t ∧
    ∃t',t.translate .insertion (4096,false) = .ok t' ∧ t'.allocator.stats.twoMbPromoted=1 ∧
    t.KeepsAddresses (Set.Iio (2 ^ 36)) t' ∧ t'.Distinct (Set.Iio (2 ^ 36)) := by
  refine exists_ok_ok_and (P:=fun t _ => (t.allocator.twoMbMap.lookup 0).isSome) (by decide +kernel)
    fun t t' ht ht' hreserved => ?_
  obtain ⟨s,hs,hrun⟩ := bind_ok ht
  obtain ⟨s',hs',hlarge⟩ : ∃s',ReservationThpAllocator.new 4 9 0 "largepage" (1 / 512) = .ok s' ∧
      s'.buddy.freeList 9≠[] := by
    decide +kernel
  obtain rfl : s=s' := Except.ok.inj (hs.symm.trans hs')
  refine promotion_keeps_addresses .insertion 4 0 9 "largepage" (1 / 512) s hs 512 [12,21]
    le_rfl rfl rfl toldApart_Iio _ [(4096,false)] (by simp) ?_ t t' hrun ?_
  · refine ⟨fun r _ _ hpress => hlarge (hpress.noLarge 9 le_rfl),fun t₁ ht₁ => ?_⟩
    obtain ⟨t₂,ht₂,hnil⟩ := run_cons_ok (show run _ _ ((0,false)::[]) = .ok t from hrun)
    cases hnil
    cases ht₁.symm.trans ht₂
    refine ⟨fun r _ _ hpress => ?_,fun _ _ => trivial⟩
    have hregion : region2mb (initFaultCtx 4096 r.requestedFrames false).request.address=0 := by
      simp [region2mb,FaultCtx.request,FaultCtx.address,initFaultCtx]
    have hnone : t.allocator.twoMbMap.lookup 0=none := hregion ▸ hpress.unreserved
    cases hreserved.symm.trans (congrArg Option.isSome hnone)
  · rw [run_cons,ht',ok_bind,run_nil]

/-- Where this fails without demotion: two addresses that differ in bit 48 only share a
physical address; a region is promoted over another one from which it differs in bit 48;
and with three levels neighbouring pages share a translation. -/
theorem promotion_fails_off_canonical :
    (∃t,sampleRun (1 / 512) 4 [0] = .ok t ∧ t.allocator.stats.twoMbDemoted=0 ∧
      tableAddress t.table 0=some (512*4096) ∧ tableAddress t.table (2^48)=some (512*4096)) ∧
    (∃t,sampleRun (1 / 512) 4 [0,2^48+4096] = .ok t ∧
      ∃t',t.translate .insertion (2^48+8192,false) = .ok t' ∧ t'.allocator.stats.twoMbDemoted=0 ∧
      tableAddress t.table 0=some (512*4096) ∧ tableAddress t'.table 0=some 0) ∧
    ∃t,sampleRun (1 / 512) 3 [0] = .ok t ∧ t.allocator.stats.twoMbDemoted=0 ∧
      tableAddress t.table 0=some (512*4096) ∧ tableAddress t.table 4096=some (512*4096) := by
  decide +kernel

/-- The third region finds no free block and demotes the first; the page of the first
region keeps its address while another page of the region is mapped. -/
theorem demotion_keeps_first_page : ∃t,sampleRun 1 4 [0,2^21,2^22] = .ok t ∧
    ∃t',t.translate .insertion (4096,false) = .ok t' ∧ t.allocator.stats.twoMbDemoted=1 ∧
    t.KeepsAddresses (Set.Iio (2 ^ 36)) t' := by
  refine exists_ok_ok_and (P:=fun _ _ => True) (by decide +kernel) fun t t' ht ht' _ => ?_
  obtain ⟨s,hs,hrun⟩ := bind_ok ht
  refine demotion_keeps_addresses .insertion 4 0 9 "largepage" 1 s hs 512 [12,21] le_rfl rfl rfl
    toldApart_Iio _ [(4096,false)] (by simp) t t' hrun ?_
  rw [run_cons,ht',ok_bind,run_nil]

/-- Where this fails: two regions that differ in bit 48 are reserved, the first of them is
demoted, and the promotion of the other one changes the address of its page. -/
theorem demotion_fails_off_canonical :
    ∃t,sampleRun (2 / 512) 4 [0,2^48+4096,2^48+8192,2^21] = .ok t ∧
    ∃t',t.translate .insertion (2^48+12288,false) = .ok t' ∧
    t.allocator.stats.twoMbDemoted=1 ∧ t.allocator.twoMbMap.lookup 0=none ∧
    tableAddress t.table 0=some (512*4096) ∧ tableAddress t'.table 0=some 0 := by
  decide +kernel

end Sniper.PageFaults
