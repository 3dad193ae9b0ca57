import Sniper.TlbCoherence

/-!
# Perfect translation

With perfect translation the MMU bypasses the TLBs and `initializeWalk` handles a fault itself, on
the core whose number is the id of the application and as one of a data access.
-/

namespace Sniper.PageFaults
open FallibleRuns PhysicalMemory RadixPageTable List

theorem takeFrames_append {n m : ℕ} {base base₁ base₂ : PhysicalMemoryAllocator}
    {frames frames' : List UInt64} (h : takeFrames n base = .ok (frames,base₁))
    (h' : takeFrames m base₁ = .ok (frames',base₂)) : takeFrames (n+m) base = .ok (frames++frames',base₂) := by
  induction n generalizing base frames with
  | zero =>
    cases h
    rw [Nat.zero_add]
    exact h'
  | succ n ih =>
    simp only [takeFrames,PhysicalMemoryAllocator.handlePageTableAllocations,page_ne_invalid,↓reduceIte] at h
    obtain ⟨⟨frames₁,base'⟩,htake,h⟩:=bind_ok h
    cases h
    simp only [Nat.succ_add,takeFrames,PhysicalMemoryAllocator.handlePageTableAllocations,page_ne_invalid,
      ↓reduceIte,ih htake,ok_bind,cons_append]

theorem giveBackFrames_one (n : ℕ) (base : PhysicalMemoryAllocator) :
    giveBackFrames n (base.handlePageTableDeallocations 4096) =
      (giveBackFrames n base).handlePageTableDeallocations 4096 := by
  induction n generalizing base with
  | zero => rfl
  | succ n ih => exact ih _

theorem giveBackFrames_takeFrames {n : ℕ} {base base' : PhysicalMemoryAllocator} {frames : List UInt64}
    (h : takeFrames n base = .ok (frames,base')) : giveBackFrames n base'=base := by
  induction n generalizing base frames with
  | zero =>
    cases h
    rfl
  | succ n ih =>
    simp only [takeFrames,PhysicalMemoryAllocator.handlePageTableAllocations,page_ne_invalid,↓reduceIte] at h
    obtain ⟨⟨frames₁,base₁⟩,htake,h⟩:=bind_ok h
    cases h
    rw [giveBackFrames,giveBackFrames_one,ih htake]
    simp only [PhysicalMemoryAllocator.handlePageTableDeallocations,UInt64.add_sub_cancel]

/-- An update reads no more frames than it uses. -/
theorem updateFrom_congr {pt : PageTableRadix} {address ppn pageSize level used : ℕ} {frame frame' : PTFrame}
    {frames : List ℕ} (rest : List ℕ)
    (h : pt.updateFrom address ppn pageSize level frame frames = .ok (frame',used)) :
    pt.updateFrom address ppn pageSize level frame (frames.take used++rest) = .ok (frame',used) := by
  induction level generalizing frame frame' frames used with
  | zero => exact h
  | succ level ih =>
    obtain ⟨offset,ho,hcases⟩:=PageTableRadix.updateFrom_cases h
    rw [PageTableRadix.updateFrom,ho,ok_bind]
    rcases hcases with ⟨hleaf,rfl,rfl⟩ | ⟨hleaf,hlevel,rfl,rfl⟩ |
      ⟨hleaf,hlevel,next,next',rest',used',hnext,rfl,hdata⟩
    · rw [if_pos hleaf]
    · rw [hleaf,if_neg Bool.false_ne_true,if_pos hlevel]
    · rw [hleaf,if_neg Bool.false_ne_true,if_neg hlevel]
      rcases hdata with ⟨hdata,rfl,rfl⟩ | ⟨hdata,p,rfl,rfl,rfl⟩
      · simp only [hdata,ih hnext,ok_bind]
      · simp only [hdata,take_succ_cons,cons_append,ih hnext,ok_bind]

theorem updatePageTableFrames_congr {pt pt' : PageTableRadix} {address ppn pageSize used : ℕ}
    {frames : List ℕ} (rest : List ℕ) (hlen : frames.length=used)
    (h : pt.updatePageTableFrames address ppn pageSize frames = .ok (used,pt')) :
    pt.updatePageTableFrames address ppn pageSize (frames++rest) = .ok (used,pt') := by
  obtain ⟨⟨root,used'⟩,hroot,h⟩:=bind_ok h
  cases h
  have hcongr := updateFrom_congr rest hroot
  rw [take_of_length_le (le_of_eq hlen)] at hcongr
  rw [PageTableRadix.updatePageTableFrames,hcongr]
  rfl

theorem allocatePageTableFrames_eq {ctx : FaultCtx} {a : Allocation} {base base₁ : PhysicalMemoryAllocator}
    {table table' : PageTableRadix} {used : ℕ} {frames : List UInt64}
    (htake : takeFrames used base = .ok (frames,base₁))
    (hupdate : table.updatePageTableFrames ctx.address a.ppnWord a.pageSize
      (frames.map UInt64.toNat) = .ok (used,table')) (hle : used ≤ ctx.metadataFrames) :
    ∃all,allocatePageTableFrames ctx a base table = .ok (⟨a,all,used⟩,base₁,table') := by
  obtain ⟨rest,start,hrest,-⟩:=takeFrames_total (ctx.metadataFrames - used) base₁
  have hall := takeFrames_append htake hrest
  rw [Nat.add_sub_cancel' hle] at hall
  have hlen : (frames.map UInt64.toNat).length=used := by
    rw [length_map,(takeFrames_ok htake).1]
  have hupdate' := updatePageTableFrames_congr (rest.map UInt64.toNat) hlen hupdate
  rw [← map_append] at hupdate'
  refine ⟨frames++rest,?_⟩
  simp only [allocatePageTableFrames,hall,hupdate',ok_bind,giveBackFrames_takeFrames hrest]

theorem index_page (height address : ℕ) : index height (address / 2^12*2^12)=index height address := by
  rw [index,index,vpn,vpn,Nat.mul_div_cancel _ (Nat.two_pow_pos 12)]

theorem view_congr {a b : ℕ} (h : ∀height,index height a=index height b) (height : ℕ) (frame : PTFrame) :
    view height frame a=view height frame b := by
  induction height generalizing frame with
  | zero => rfl
  | succ height ih => simp only [view,h,ih]

theorem missing_congr {a b : ℕ} (h : ∀height,index height a=index height b) (height : ℕ) (frame : PTFrame) :
    missing height frame a=missing height frame b := by
  induction height generalizing frame with
  | zero => rfl
  | succ height ih => simp only [missing,h,ih]

theorem missing_le (height : ℕ) (frame : PTFrame) (address : ℕ) : missing height frame address≤height := by
  induction height generalizing frame with
  | zero => rfl
  | succ height ih =>
    rw [missing]
    split
    · exact Nat.le_succ_of_le (ih _)
    · exact Nat.le_succ height

variable {σ ι : Type} [DecidableEq ι]

namespace Applications

variable {A : SteadyAllocator σ ι} {V : Set ℕ} {t : Applications σ ι} {i : ι} {address : ℕ}
  {r : PTWResult}

theorem Coherent.requestedFrames_le (h : t.Coherent A V) (hwalk : (t.tables i).initializeWalk address = .ok r)
    (hf : r.faultHappened=true) : r.requestedFrames≤(t.tables i).levels := by
  have hrep := h.represents i
  rw [(walk_spec hrep.standard hrep.shaped address).2 r hwalk hf,hrep.standard.levels]
  exact missing_le _ _ _

theorem Coherent.update_total (h : t.Coherent A V) (hwalk : (t.tables i).initializeWalk address = .ok r)
    (hf : r.faultHappened=true) {pageSize : ℕ} (hsize : pageSize=12 ∨ pageSize=21) :
    ∃used ≤ r.requestedFrames,∀ppn frames,used≤frames.length → ∃table,
      (t.tables i).updatePageTableFrames (address / 2^12*2^12) ppn pageSize frames = .ok (used,table) := by
  have hrep := h.represents i
  obtain ⟨hanswers,hmissing⟩:=walk_spec hrep.standard hrep.shaped address
  have hview := (hanswers.ok hwalk).1.view_none hf
  rw [← view_congr (index_page · address)] at hview
  obtain ⟨k,hk,rfl⟩:=exists_height hsize
  obtain ⟨n,hneed,hle⟩:=needed_of_view_none hrep.shaped hview (show k<4 by omega)
  rw [missing_congr (index_page · address),← hmissing r hwalk hf] at hle
  refine ⟨n,hle,fun ppn frames hlen => ?_⟩
  obtain ⟨table,hupdate,-⟩:=update_spec hrep.standard hrep.shaped hk ppn hneed hlen
  exact ⟨table,hupdate⟩

theorem Coherent.handle_congr (h : t.Coherent A V) (ha : address / 2 ^ 12∈V)
    (hwalk : (t.tables i).initializeWalk address = .ok r) (hf : r.faultHappened=true) {ctx ctx' : FaultCtx}
    (hvpn : ctx.vpn=address / 2^12) (hvpn' : ctx'.vpn=ctx.vpn)
    (hframes : r.requestedFrames ≤ ctx.metadataFrames) (hframes' : r.requestedFrames ≤ ctx'.metadataFrames)
    (halloc : A.allocate t.allocator ctx'.request=A.allocate t.allocator ctx.request) :
    t.handle A i ctx'=t.handle A i ctx := by
  have haddr : ctx'.address=ctx.address := by rw [FaultCtx.address,FaultCtx.address,hvpn']
  rw [handle,handle,handlePageFault,handlePageFault,halloc]
  cases hans : A.allocate t.allocator ctx.request with
  | error e => rfl
  | ok answer =>
    obtain ⟨a,s₁⟩:=answer
    have hreq : ctx.request.vpn=address / 2^12 := (Nat.mul_div_cancel _ (by decide)).trans hvpn
    have hinv := A.inv_allocate _ _ _ i _ _ h.inv rfl
      (by rw [hreq]; exact (h.tabled i).not_covers_of_fault ha hwalk hf) hans
    have hsize : a.pageSize=12 ∨ a.pageSize=21 := by
      refine A.sizes _ _ i hinv ⟨(),ctx.request.vpn,a⟩ ?_
      rw [Function.update_self]
      exact mem_cons_self
    obtain ⟨used,hle,hupdate⟩:=h.update_total hwalk hf hsize
    obtain ⟨frames,start,htake,hlen⟩:=takeFrames_total used (A.base s₁)
    obtain ⟨table,hupdate⟩:=hupdate a.ppnWord (frames.map UInt64.toNat)
      (by rw [length_map,hlen])
    have hupdate₁ : (t.tables i).updatePageTableFrames ctx.address a.ppnWord a.pageSize
        (frames.map UInt64.toNat) = .ok (used,table) := by
      rw [FaultCtx.address,hvpn]
      exact hupdate
    obtain ⟨all,hall⟩:=allocatePageTableFrames_eq htake hupdate₁ (hle.trans hframes)
    rw [← haddr] at hupdate₁
    obtain ⟨all',hall'⟩:=allocatePageTableFrames_eq htake hupdate₁ (hle.trans hframes')
    simp only [ok_bind,hall,hall',hvpn']

theorem Coherent.mapped_of_handle {t' : Applications σ ι} {ctx : FaultCtx} (h' : t'.Coherent A V)
    (ha : address / 2 ^ 12∈V) (hvpn : ctx.vpn=address / 2^12) (he : t.handle A i ctx = .ok t')
    (hwalk : (t'.tables i).initializeWalk address = .ok r) : r.faultHappened=false := by
  obtain ⟨⟨out,allocator,table⟩,-,he⟩:=bind_ok he
  cases he
  by_contra hf
  have hg : (⟨(),ctx.vpn,out.allocation⟩ : Grant Unit) ∈
      Function.update t.grants i (⟨(),ctx.vpn,out.allocation⟩::t.grants i) i := by
    rw [Function.update_self]
    exact mem_cons_self
  refine (h'.tabled i).not_covers_of_fault ha hwalk (Bool.eq_true_of_not_eq_false hf) _ hg ?_
  rw [Grant.Covers,hvpn]
  split_ifs <;> rfl

theorem Coherent.handled {t' : Applications σ ι} {ctx : FaultCtx} (h : t.Coherent A V) (ha : address / 2 ^ 12∈V)
    (hvpn : ctx.vpn=address / 2^12) (hwalk : (t.tables i).initializeWalk address = .ok r)
    (hf : r.faultHappened=true) (he : t.handle A i ctx = .ok t') : t'.Coherent A V := by
  have hfirst := (h.tabled i).not_covers_of_fault ha hwalk hf
  rw [← hvpn] at ha hfirst
  exact (handle_coherent h ha hfirst he).1

/-- Two walks are enough: more rounds of the loop change nothing. -/
theorem Coherent.two_rounds (h : t.Coherent A V) (ha : address / 2 ^ 12∈V) {faultCtx : PTWResult → FaultCtx}
    (hctx : ∀r,(faultCtx r).vpn=address / 2^12) (rounds : ℕ) :
    walkUntilMapped (fun r t => t.handle A i (faultCtx r)) i address (rounds+2) t =
      walkUntilMapped (fun r t => t.handle A i (faultCtx r)) i address 2 t := by
  rw [walkUntilMapped,walkUntilMapped]
  cases hwalk : (t.tables i).initializeWalk address with
  | error e => rfl
  | ok r =>
    rw [ok_bind,ok_bind]
    split_ifs with hf
    · cases hhandle : t.handle A i (faultCtx r) with
      | error e => rfl
      | ok t' =>
        have h' := h.handled ha (hctx r) hwalk hf hhandle
        rw [ok_bind,ok_bind,walkUntilMapped,walkUntilMapped]
        cases hwalk' : (t'.tables i).initializeWalk address with
        | error e => rfl
        | ok r' =>
          have hf' := h'.mapped_of_handle ha (hctx r) hhandle hwalk'
          simp only [ok_bind,hf',Bool.false_eq_true,↓reduceIte]
    · rfl

theorem Coherent.walkUntilMapped_congr (h : t.Coherent A V) (ha : address / 2 ^ 12∈V)
    {handle : PTWResult → Applications σ ι → Except Abort (Applications σ ι)}
    {faultCtx : PTWResult → FaultCtx} (hctx : ∀r,(faultCtx r).vpn = address / 2 ^ 12)
    (hsame : ∀t : Applications σ ι,t.Coherent A V → ∀r,(t.tables i).initializeWalk address = .ok r →
      r.faultHappened=true → handle r t = t.handle A i (faultCtx r)) (rounds : ℕ) :
    walkUntilMapped handle i address rounds t =
      walkUntilMapped (fun r t => t.handle A i (faultCtx r)) i address rounds t := by
  induction rounds generalizing t with
  | zero => rfl
  | succ rounds ih =>
    rw [walkUntilMapped,walkUntilMapped]
    cases hwalk : (t.tables i).initializeWalk address with
    | error e => rw [error_bind,error_bind]
    | ok r =>
      rw [ok_bind,ok_bind]
      split_ifs with hf
      · rw [hsame t h r hwalk hf]
        cases hhandle : t.handle A i (faultCtx r) with
        | error e => rw [error_bind,error_bind]
        | ok t' =>
          rw [ok_bind,ok_bind]
          exact ih (h.handled ha (hctx r) hwalk hf hhandle)
      · rfl

omit [DecidableEq ι] in
theorem walkUntilMapped_mapped
    (handle : PTWResult → Applications σ ι → Except Abort (Applications σ ι)) {x : ℕ}
    (h : tableAddress (t.tables i) address=some x) (rounds : ℕ) :
    ∃r,walkUntilMapped handle i address (rounds+1) t = .ok (r,t) ∧ physicalAddress r address = x := by
  obtain ⟨r,hwalk,hf,hx⟩ := tableAddress_eq_some.mp h
  refine ⟨r,?_,hx⟩
  simp only [walkUntilMapped,hwalk,ok_bind,hf,Bool.false_eq_true,↓reduceIte]

end Applications

def associativities (tlbs : List (List (Tlb ι))) : List (List ℕ) := tlbs.map (List.map Tlb.associativity)

/-- The replacement policies answer with ways that every TLB has. -/
def Fits (choose : ℕ → ℕ) (tlbs : List (List (Tlb ι))) : Prop :=
  ∀level∈associativities tlbs,∀n∈level,∀k,choose k<n

section Total

omit [DecidableEq ι]

variable {choose : ℕ → ℕ}

theorem Tlb.allocateAll_total {t : Tlb ι} (h : ∀k,choose k<t.associativity)
    (trs : List (EvictedTranslation ι)) (k : ℕ) : ∃dropped k' t',
      t.allocateAll choose trs k = .ok (dropped,k',t') ∧ t'.associativity=t.associativity := by
  induction trs generalizing t k with
  | nil => exact ⟨[],k,t,rfl,rfl⟩
  | cons tr trs ih =>
    obtain ⟨d,t₁,h₁,hassoc⟩ : ∃d t₁,t.allocate tr (choose k) = .ok (d,t₁) ∧
        t₁.associativity=t.associativity := by
      rw [Tlb.allocate]
      split_ifs
      · exact ⟨_,_,rfl,rfl⟩
      · exact ⟨_,_,rfl,rfl⟩
      · exact absurd (h k) ‹_›
    obtain ⟨dropped,k',t',h₂,hassoc'⟩:=ih (hassoc ▸ h) (k+1)
    refine ⟨d.toList++dropped,k',t',?_,hassoc'.trans hassoc⟩
    rw [Tlb.allocateAll,h₁,ok_bind]
    simp only [h₂,ok_bind]

theorem allocateLevel_total {tlbs : List (Tlb ι)} (h : ∀n∈tlbs.map Tlb.associativity,∀k,choose k<n)
    (wants : Tlb ι → List (EvictedTranslation ι)) (k : ℕ) : ∃dropped k' tlbs',
      allocateLevel choose wants tlbs k = .ok (dropped,k',tlbs') ∧
        tlbs'.map Tlb.associativity=tlbs.map Tlb.associativity := by
  induction tlbs generalizing k with
  | nil => exact ⟨[],k,[],rfl,rfl⟩
  | cons t tlbs ih =>
    obtain ⟨hhead,htail⟩:=forall_mem_cons.mp h
    obtain ⟨dropped,k₁,t₁,h₁,hassoc⟩:=Tlb.allocateAll_total hhead (wants t) k
    obtain ⟨more,k₂,tlbs₂,h₂,hassocs⟩:=ih htail k₁
    refine ⟨dropped++more,k₂,t₁::tlbs₂,?_,?_⟩
    · rw [allocateLevel,h₁,ok_bind]
      simp only [h₂,ok_bind]
    · rw [map_cons,map_cons,hassoc,hassocs]

theorem allocateLevels_total {tlbs : List (List (Tlb ι))} (h : Fits choose tlbs) (instruction : Bool)
    (current : EvictedTranslation ι) (hitLevel : Option ℕ) (i : ℕ) (carried : List (EvictedTranslation ι))
    (k : ℕ) : ∃tlbs',allocateLevels choose instruction current hitLevel tlbs i carried k = .ok tlbs' ∧
        associativities tlbs'=associativities tlbs := by
  induction tlbs generalizing i carried k with
  | nil => exact ⟨[],rfl,rfl⟩
  | cons level rest ih =>
    obtain ⟨hhead,htail⟩:=forall_mem_cons.mp h
    obtain ⟨dropped,k₁,level₁,h₁,hassoc⟩:=allocateLevel_total hhead
      (wanted instruction current hitLevel i carried) k
    obtain ⟨rest₁,h₂,hassocs⟩:=ih htail (i+1) dropped k₁
    refine ⟨level₁::rest₁,?_,?_⟩
    · rw [allocateLevels,h₁,ok_bind]
      simp only [h₂,ok_bind]
    · rw [associativities,map_cons,hassoc]
      exact congrArg _ hassocs

end Total

/-- `handle_page_fault` of the handler of a core, which updates the page table of the thread on
that core. The page is allocated before the thread is looked for. -/
def Applications.handleOn (A : AllocatorInterface σ) (threads : List (Option ι)) (core : ℕ)
    (ctx : FaultCtx) (t : Applications σ ι) : Except Abort (Applications σ ι) :=
  match threads[core]? with
  | none => .error .assertion
  | some none => do
    let _ ← A.allocate t.allocator ctx.request
    .error .assertion
  | some (some i) => t.handle A i ctx

/-- The zero-latency path of `mmu_base.cc`. The page table was made with the id of its
application as the number of its core. -/
def translateWithoutTiming (A : AllocatorInterface σ) (appId : ι → ℕ) (threads : List (Option ι))
    (rounds : ℕ) (apps : Applications σ ι) (i : ι) (address : ℕ) :
    Except Abort (ℕ × Applications σ ι) := do
  let (r,apps') ← apps.walkUntilMapped (fun _ => Applications.handleOn A threads (appId i)
    (initFaultCtx address (apps.tables i).levels false)) i address rounds
  .ok (physicalAddress r address,apps')

namespace Mmu

section

variable (A : AllocatorInterface σ) (appId : ι → ℕ)

/-- `performAddressTranslation` with perfect translation. -/
def perfectAddressTranslation (rounds : ℕ) (m : Mmu σ ι) (call : TranslationCall ι) :
    Except Abort (ℕ × Mmu σ ι) := do
  let (pa,apps) ← translateWithoutTiming A appId call.threads rounds m.apps call.app call.address
  .ok (pa,{m with apps})

/-- The page is mapped already, or the core that handles its fault runs a thread of the
application and the page is not one for the instruction area. -/
def MappedOrData (m : Mmu σ ι) (call : TranslationCall ι) : Prop :=
  (tableAddress (m.apps.tables call.app) call.address).isSome ∨
    call.threads[appId call.app]? = some (some call.app) ∧
      A.usesInstructionArea (initFaultCtx call.address 0 call.instruction).request = false

instance (m : Mmu σ ι) (call : TranslationCall ι) : Decidable (m.MappedOrData A appId call) :=
  inferInstanceAs (Decidable (_ ∨ _))

end

variable {A : SteadyAllocator σ ι} {appId : ι → ℕ} {V : Set ℕ} {m : Mmu σ ι}
  {call : TranslationCall ι}

theorem Coherent.walks_agree (h : m.Coherent A V) (ha : call.address / 2 ^ 12∈V)
    (hcall : m.MappedOrData A appId call) (n k : ℕ) :
    m.apps.walkUntilMapped (fun _ => Applications.handleOn A call.threads (appId call.app)
        (initFaultCtx call.address (m.apps.tables call.app).levels false)) call.app call.address (n+2) =
      performPtw A (k+2) m.apps call := by
  rcases hcall with hmapped | ⟨hthread,harea⟩
  · obtain ⟨x,hx⟩ := Option.isSome_iff_exists.mp hmapped
    obtain ⟨r,hwalk,hf,-⟩ := tableAddress_eq_some.mp hx
    simp only [performPtw,Applications.walkUntilMapped,hwalk,ok_bind,hf,Bool.false_eq_true,↓reduceIte]
  · rw [performPtw,h.apps.two_rounds ha (fun _ => rfl) k,← h.apps.two_rounds ha (fun _ => rfl) n]
    refine h.apps.walkUntilMapped_congr ha (fun _ => rfl) ?_ (n+2)
    intro t ht r hwalk hf
    rw [Applications.handleOn,hthread]
    refine ht.handle_congr ha hwalk hf rfl rfl le_rfl ?_ (A.allocate_data t.allocator _ harea).symm
    have hle := ht.requestedFrames_le hwalk hf
    rw [(ht.represents call.app).standard.levels] at hle
    change r.requestedFrames≤(m.apps.tables call.app).levels
    rw [(h.apps.represents call.app).standard.levels]
    exact hle

/-- The states that the two modes reach while one application runs. -/
structure Alike (A : SteadyAllocator σ ι) (V : Set ℕ) (i : ι) (ways : List (List ℕ))
    (perfect timed : Mmu σ ι) : Prop where
  coherent : timed.Coherent A V
  apps : perfect.apps = timed.apps
  owned : AllHold (fun e => e.owner=i) timed.tlbs
  ways : associativities timed.tlbs = ways

theorem Coherent.translations_agree (h : m.Coherent A V) (ha : call.address / 2 ^ 12∈V)
    (hown : m.OwnEntry call) (hcall : m.MappedOrData A appId call) (n k : ℕ) :
    translateWithoutTiming A appId call.threads (n+2) m.apps call.app call.address =
      (m.translation A (k+2) call).map fun r =>
        (r.1.ppn*2^12+call.address % 2^r.1.pageSize,r.2) := by
  cases hit : m.lookup call with
  | some found =>
    obtain ⟨level,e⟩ := found
    obtain ⟨-,-,haddress⟩ := h.hit ha hit
    rw [hown (level,e) hit] at haddress
    obtain ⟨r,hwalk,hr⟩ := Applications.walkUntilMapped_mapped (fun _ => Applications.handleOn A
      call.threads (appId call.app) (initFaultCtx call.address (m.apps.tables call.app).levels false))
      haddress (n+1)
    rw [translateWithoutTiming,hwalk,translation,hit,ok_bind]
    change Except.ok (physicalAddress r call.address,m.apps)=_
    rw [hr]
    rfl
  | none =>
    rw [translateWithoutTiming,h.walks_agree ha hcall n k,translation,hit]
    cases performPtw A (k+2) m.apps call with
    | error e => rfl
    | ok found => rfl

theorem translation_owner {i : ι} {rounds : ℕ} {current : EvictedTranslation ι}
    {apps : Applications σ ι} (happ : call.app=i) (hown : m.OwnEntry call)
    (h : m.translation A rounds call = .ok (current,apps)) : current.owner=i := by
  rw [translation] at h
  cases hit : m.lookup call with
  | some found =>
    rw [hit] at h
    cases h
    exact (hown found hit).trans happ
  | none =>
    rw [hit] at h
    obtain ⟨⟨r,apps'⟩,-,h⟩ := bind_ok h
    cases h
    exact happ

theorem Alike.step {i : ι} {ways : List (List ℕ)} {perfect timed : Mmu σ ι}
    (h : Alike A V i ways perfect timed) (happ : call.app=i) (ha : call.address / 2 ^ 12∈V)
    (hcall : perfect.MappedOrData A appId call) (hfits : ∀level∈ways,∀n∈level,∀k,call.choose k<n)
    (n k : ℕ) : Matches (Alike A V i ways) (perfect.perfectAddressTranslation A appId (n+2) call)
      (timed.performAddressTranslation A (k+2) call) := by
  have hown : timed.OwnEntry call := by
    rintro ⟨level,e⟩ hit
    exact (lookupLevels_some h.owned hit).1.trans happ.symm
  rw [MappedOrData,h.apps] at hcall
  rw [perfectAddressTranslation,h.apps,h.coherent.translations_agree ha hown hcall n k]
  cases htranslation : timed.translation A (k+2) call with
  | error e =>
    refine Or.inl ⟨e,rfl,?_⟩
    rw [performAddressTranslation,htranslation,error_bind]
  | ok found =>
    obtain ⟨current,apps⟩ := found
    obtain ⟨tlbs,htlbs,hways⟩ := allocateLevels_total (show Fits call.choose timed.tlbs by
      rw [Fits,h.ways]
      exact hfits) call.instruction current ((timed.lookup call).map Prod.fst) 0 [] 0
    have htimed : timed.performAddressTranslation A (k+2) call =
        .ok (current.ppn*2^12+call.address % 2^current.pageSize,⟨apps,tlbs⟩) := by
      rw [performAddressTranslation,htranslation,ok_bind]
      simp only [htlbs,ok_bind]
    refine Or.inr ⟨_,_,⟨apps,tlbs⟩,rfl,htimed,(h.coherent.step ha htimed).1,rfl,?_,hways.trans h.ways⟩
    exact allocateLevels_holds h.owned (translation_owner happ hown htranslation) (by simp) htlbs

/-- An access of the application with the id 0, with the applications of the threads on the
cores. -/
def access (threads : List (Option Unit)) (instruction : Bool) (address : ℕ) : TranslationCall Unit :=
  ⟨(),address,instruction,fun _ => 0,threads⟩

end Mmu

end Sniper.PageFaults
