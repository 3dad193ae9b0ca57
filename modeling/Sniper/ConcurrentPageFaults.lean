import Sniper.TranslationStability

/-!
# Page faults on several cores

Each core walks the page table and handles a fault later, under a lock and with the result of the
old walk.
-/

namespace Sniper.RadixPageTable
open FallibleRuns

variable (pt : PageTableRadix)

theorem offset_fails (level address : ℕ) : Fails (pt.offset level address) (· ≠ .alreadyPromoted) := by
  simp only [PageTableRadix.offset]
  split_ifs
  · exact fails_error (by decide)
  · exact fails_ok _ _
  · exact fails_error (by decide)

theorem walkFrom_fails (address level : ℕ) (frame : PTFrame) (counter : ℕ) (visited : List PTWAccess) :
    Fails (pt.walkFrom address level frame counter visited) (· ≠ .alreadyPromoted) := by
  induction level generalizing frame counter visited with
  | zero => exact fails_ok _ _
  | succ level ih =>
    rw [PageTableRadix.walkFrom]
    refine (offset_fails _ _ _).bind fun offset _ => ?_
    dsimp only
    split
    · split_ifs
      · exact fails_error (by decide)
      · split
        · exact fails_error (by decide)
        · exact fails_ok _ _
    · exact fails_ok _ _
    · exact fails_ok _ _
    · exact fails_error (by decide)
    · exact fails_ok _ _
    · exact ih _ _ _
    · exact fails_error (by decide)

theorem updateFrom_fails (address ppn pageSize level : ℕ) (frame : PTFrame) (frames : List ℕ) :
    Fails (pt.updateFrom address ppn pageSize level frame frames) (· ≠ .alreadyPromoted) := by
  induction level generalizing frame frames with
  | zero => exact fails_ok _ _
  | succ level ih =>
    rw [PageTableRadix.updateFrom]
    refine (offset_fails _ _ _).bind fun offset _ => ?_
    split_ifs
    · exact fails_ok _ _
    · exact fails_ok _ _
    · cases hdata : (frame.entries offset).data with
      | translation valid old =>
        simp only [hdata]
        exact fails_error (by decide)
      | nextLevel next =>
        cases next with
        | some next =>
          simp only [hdata]
          exact (ih _ _).bind fun _ _ => fails_ok _ _
        | none =>
          simp only [hdata]
          cases frames with
          | nil => exact fails_error (by decide)
          | cons p rest => exact (ih _ _).bind fun _ _ => fails_ok _ _

end Sniper.RadixPageTable

namespace Sniper.PageFaults
open BuddyAllocator FallibleRuns PhysicalMemory RadixPageTable

theorem allocatePageTableFrames_fails (ctx : FaultCtx) (a : Allocation) (base : PhysicalMemoryAllocator)
    (table : PageTableRadix) : Fails (allocatePageTableFrames ctx a base table) (· ≠ .alreadyPromoted) := by
  obtain ⟨frames,start,htake,-⟩:=takeFrames_total ctx.metadataFrames base
  rw [allocatePageTableFrames,htake,ok_bind]
  refine Fails.bind ?_ fun _ _ => fails_ok _ _
  exact (updateFrom_fails _ _ _ _ _ _ _).bind fun _ _ => fails_ok _ _

theorem Machine.handle_fails (order : UtilizationSort) (t : Machine) (ctx : FaultCtx)
    (h : ∀region,t.allocator.twoMbMap.lookup (region2mb ctx.address)=some region →
      region.promoted=false) : Fails (t.handle order ctx) (· ≠ .alreadyPromoted) := by
  refine Fails.bind ?_ fun _ _ => fails_ok _ _
  have halloc := ReservationThpAllocator.allocate_not_alreadyPromoted order t.allocator
    ctx.request fun _ => h
  refine Fails.bind halloc fun _ _ => ?_
  exact (allocatePageTableFrames_fails _ _ _ _).bind fun _ _ => fails_ok _ _

variable {κ : Type}

/-- The shared machine, and for each core the fault it has to handle. -/
structure Cores (κ : Type) where
  machine : Machine
  pending : κ → Option FaultCtx

inductive CoreStep (κ : Type) where
  | walk (core : κ) (address : ℕ) (isInstruction : Bool)
  | handle (core : κ)

namespace Cores

def new (machine : Machine) : Cores κ := ⟨machine,fun _ => none⟩

/-- A core that has a fault to handle does not walk, and one that has none does not handle. -/
def step [DecidableEq κ] (order : UtilizationSort) (t : Cores κ) : CoreStep κ → Except Abort (Cores κ)
  | .walk core address isInstruction =>
    match t.pending core with
    | some _ => .ok t
    | none => do
      let r ← t.machine.table.initializeWalk address
      let fault := if r.faultHappened then
        some (initFaultCtx address r.requestedFrames isInstruction) else none
      .ok {t with pending:=Function.update t.pending core fault}
  | .handle core =>
    match t.pending core with
    | none => .ok t
    | some ctx => do
      let machine ← t.machine.handle order ctx
      .ok ⟨machine,Function.update t.pending core none⟩

/-- The page of the fault still faults, or its region is reserved and not promoted. -/
def StillOpen (t : Machine) (ctx : FaultCtx) : Prop :=
  (∃r,t.table.initializeWalk ctx.address = .ok r ∧ r.faultHappened=true) ∨
    ∃region,t.allocator.twoMbMap.lookup (region2mb ctx.address)=some region ∧
      region.promoted=false

/-- Addresses are of the set, and faults are handled while they are still open. -/
def Timely (V : Set ℕ) (t : Cores κ) : CoreStep κ → Prop
  | .walk _ address _ => address / 2 ^ 12∈V
  | .handle core => ∀ctx,t.pending core=some ctx → StillOpen t.machine ctx

instance [DecidableEq κ] (V : Set ℕ) [DecidablePred (· ∈ V)] (t : Cores κ) (step : CoreStep κ) :
    Decidable (t.Timely V step) :=
  match step with
  | .walk _ address _ => inferInstanceAs (Decidable (address / 2 ^ 12∈V))
  | .handle core => inferInstanceAs (Decidable (∀ctx∈t.pending core,_ ∨ _))

/-- All answers give a virtual page the same physical page. -/
def OneFrame (t : Machine) : Prop := ∀g∈t.grants,∀g'∈t.grants,∀v p p',g.Gives v p → g'.Gives v p' → p=p'

variable {V : Set ℕ}

/-- The machine is coherent, and the faults to be handled are those of addresses of the set. -/
structure Ready (V : Set ℕ) (bound : ℕ) (t : Cores κ) : Prop where
  coherent : Coherent V bound t.machine
  known : ∀core ctx,t.pending core=some ctx → ctx.vpn∈V

theorem StillOpen.not_promoted {bound : ℕ} {t : Machine} {ctx : FaultCtx} (h : Coherent V bound t)
    (hknown : ctx.vpn∈V) (hopen : StillOpen t ctx) (region : Region)
    (hlook : t.allocator.twoMbMap.lookup (region2mb ctx.address)=some region) : region.promoted=false := by
  rcases hopen with ⟨r,hr,hf⟩ | ⟨region',hlook',hprom⟩
  · rw [← Bool.not_eq_true]
    intro hprom
    obtain ⟨g,hg,hsize,hvpn⟩:=h.settled.promoted _ region hlook hprom
    rw [← ctx.request_vpn] at hknown
    refine h.tabled.not_covers_of_fault (a := ctx.address) hknown hr hf g hg ?_
    rw [Grant.Covers,if_pos hsize,hvpn,region2mb]
    omega
  · cases hlook.symm.trans hlook'
    exact hprom

theorem StillOpen.not_covers {bound : ℕ} {t : Machine} {ctx : FaultCtx} (h : Coherent V bound t)
    (hknown : ctx.vpn∈V) (hopen : StillOpen t ctx)
    (hnone : t.allocator.twoMbMap.lookup (region2mb ctx.address)=none) : ∀g∈t.grants,¬ g.Covers ctx.vpn := by
  rcases hopen with ⟨r,hr,hf⟩ | ⟨region',hlook',-⟩
  · rw [← ctx.request_vpn] at hknown ⊢
    exact h.tabled.not_covers_of_fault hknown hr hf
  · exact nomatch hnone.symm.trans hlook'

theorem Ready.setPending [DecidableEq κ] {bound : ℕ} {t : Cores κ} {machine : Machine} (h : t.Ready V bound)
    (hmachine : Coherent V bound machine) (core : κ) (fault : Option FaultCtx)
    (hfault : ∀ctx,fault=some ctx → ctx.vpn∈V) :
    Ready V bound ⟨machine,Function.update t.pending core fault⟩ := by
  refine ⟨hmachine,?_⟩
  intro other ctx hctx
  change Function.update t.pending core fault other=some ctx at hctx
  by_cases hother : other=core
  · subst hother
    rw [Function.update_self] at hctx
    exact hfault ctx hctx
  · rw [Function.update_of_ne hother] at hctx
    exact h.known other ctx hctx

theorem step_ready [DecidableEq κ] {bound : ℕ} {order : UtilizationSort} {t t' : Cores κ} {st : CoreStep κ}
    (h : t.Ready V bound) (htimely : t.Timely V st) (he : t.step order st = .ok t') :
    t'.Ready V bound ∧ t.machine.Extends t'.machine := by
  cases st with
  | walk core address isInstruction =>
    cases hpending : t.pending core with
    | some ctx =>
      simp only [step,hpending] at he
      cases he
      exact ⟨h,fun g hg => hg⟩
    | none =>
      simp only [step,hpending] at he
      obtain ⟨r,-,he⟩:=bind_ok he
      cases he
      refine ⟨h.setPending h.coherent core _ ?_,fun g hg => hg⟩
      intro ctx hctx
      split_ifs at hctx
      cases hctx
      exact htimely
  | handle core =>
    cases hpending : t.pending core with
    | none =>
      simp only [step,hpending] at he
      cases he
      exact ⟨h,fun g hg => hg⟩
    | some ctx =>
      simp only [step,hpending] at he
      obtain ⟨machine,hhandle,he⟩:=bind_ok he
      cases he
      have hknown := h.known core ctx hpending
      have hmachine := Machine.handle_coherent h.coherent hknown
        (StillOpen.not_covers h.coherent hknown (htimely ctx hpending)) hhandle
      refine ⟨h.setPending hmachine core none ?_,Machine.handle_extends hhandle⟩
      intro _ hnone
      cases hnone

theorem step_fails [DecidableEq κ] {bound : ℕ} {order : UtilizationSort} {t : Cores κ} {st : CoreStep κ}
    (h : t.Ready V bound) (htimely : t.Timely V st) : Fails (t.step order st) (· ≠ .alreadyPromoted) := by
  cases st with
  | walk core address isInstruction =>
    cases hpending : t.pending core with
    | some ctx =>
      simp only [step,hpending]
      exact fails_ok _ _
    | none =>
      simp only [step,hpending]
      exact (walkFrom_fails _ _ _ _ _ _).bind fun _ _ => fails_ok _ _
  | handle core =>
    cases hpending : t.pending core with
    | none =>
      simp only [step,hpending]
      exact fails_ok _ _
    | some ctx =>
      simp only [step,hpending]
      refine (Machine.handle_fails order t.machine ctx ?_).bind fun _ _ => fails_ok _ _
      exact StillOpen.not_promoted h.coherent (h.known core ctx hpending)
        (htimely ctx hpending)

theorem Ready.oneFrame {bound : ℕ} {t : Cores κ} (h : t.Ready V bound) : OneFrame t.machine := by
  intro g hg g' hg' v p p' hp hp'
  obtain ⟨hcov,hpage⟩:=Grant.gives_iff.mp hp
  obtain ⟨hcov',hpage'⟩:=Grant.gives_iff.mp hp'
  have hagree := h.coherent.settled.agree g hg g' hg' v hcov hcov'
  rw [hpage,hpage'] at hagree
  exact Option.some.inj hagree

end Cores

/-- In every interleaving in which all faults are handled while they are still open, no page
is given two frames, no address changes its physical address, and the assertion of the
allocator about promoted regions is never reached. -/
theorem concurrent_faults_of_timely [DecidableEq κ] (order : UtilizationSort) (memorySize kernelSize : Int32)
    (maxOrder : ℕ) (fragType : String) (threshold : ℚ) (s : ReservationThpAllocator)
    (hs : ReservationThpAllocator.new memorySize maxOrder kernelSize fragType threshold = .ok s)
    (frameSize : ℕ) (pageSizeList : List ℕ) (hframe : 512≤frameSize) (hsmall : pageSizeList[0]?=some 12)
    (hlarge : pageSizeList[1]?=some 21) {V : Set ℕ} (hV : ToldApart V)
    (before after : List (CoreStep κ))
    (htimely : Along (Cores.step order) (Cores.Timely V) (Cores.new (.new s frameSize pageSizeList))
      (before++after)) : run (Cores.step order) (Cores.new (.new s frameSize pageSizeList)) (before++after) ≠
        .error .alreadyPromoted ∧ ∀t t' : Cores κ,
        run (Cores.step order) (Cores.new (.new s frameSize pageSizeList)) before = .ok t →
        run (Cores.step order) t after = .ok t' →
        Cores.OneFrame t'.machine ∧ t.machine.KeepsAddresses V t'.machine := by
  have hinit : Cores.Ready V (Buddy.pagesIn memorySize)
      (Cores.new (.new s frameSize pageSizeList) : Cores κ) :=
    ⟨Machine.new_coherent hV hs hframe hsmall hlarge,fun _ _ hnone => nomatch hnone⟩
  constructor
  · intro herr
    refine run_error (fun _ _ _ h htimely he => (Cores.step_ready h htimely he).1)
      (fun _ _ e h htimely he => Cores.step_fails h htimely e he) hinit htimely herr rfl
  · intro t t' ht ht'
    have h := run_invariant (fun _ _ _ h htimely he => (Cores.step_ready h htimely he).1)
      hinit htimely.left ht
    have h' := run_invariant (fun _ _ _ h htimely he => (Cores.step_ready h htimely he).1)
      h (htimely.right ht) ht'
    have hext : t.machine.Extends t'.machine :=
      run_relates (R:=fun t t' : Cores κ => t.machine.Extends t'.machine)
        (fun _ _ hg => hg) (fun _ _ _ hst htu g hg => htu g (hst g hg))
        (fun _ _ _ h htimely he => Cores.step_ready h htimely he) h (htimely.right ht) ht'
    exact ⟨h'.oneFrame,hext.keepsAddresses h.coherent h'.coherent⟩

/-- Two cores fault on one page; the second one handles its fault when the page is mapped
and its region reserved. -/
theorem concurrent_faults_on_one_page : ∃s,ReservationThpAllocator.new 4 9 0 "largepage" 1 = .ok s ∧
    ∃t,run (Cores.step .insertion) (Cores.new (.new s 512 [12,21]))
      [.walk false 0 false,.walk true 0 false,.handle false] = .ok t ∧
    ∃t',run (Cores.step .insertion) t [.handle true] = .ok t' ∧
      Cores.OneFrame t'.machine ∧ t.machine.KeepsAddresses (Set.Iio (2 ^ 36)) t'.machine := by
  refine exists_ok_ok (P:=fun s t => (∃t',run (Cores.step .insertion) t [.handle true] = .ok t') ∧
    Along (Cores.step .insertion) (Cores.Timely (Set.Iio (2 ^ 36))) (Cores.new (.new s 512 [12,21]))
      ([.walk false 0 false,.walk true 0 false,.handle false]++[.handle true])) (by decide +kernel) ?_
  rintro s t hs ht ⟨⟨t',ht'⟩,htimely⟩
  exact ⟨t',ht',(concurrent_faults_of_timely .insertion 4 0 9 "largepage" 1 s hs 512 [12,21] le_rfl rfl rfl
    toldApart_Iio _ _ htimely).2 t t' ht ht'⟩

/-- Two cores fault on one page and handle their faults one after the other. If the first
fault promotes the region, the second one reaches the assertion; in a memory without a 2MB
block, the second one gives the page another frame and replaces its mapping. -/
theorem concurrent_faults_collide : (∃s,ReservationThpAllocator.new 4 9 0 "largepage" 0 = .ok s ∧
      run (Cores.step .insertion) (Cores.new (.new s 512 [12,21]))
        [.walk false 0 false,.walk true 0 false,.handle false,.handle true] = .error .alreadyPromoted) ∧
    (∃s t t',ReservationThpAllocator.new 1 9 0 "largepage" 1 = .ok s ∧
      run (Cores.step .insertion) (Cores.new (.new s 512 [12,21]))
        [.walk false 0 false,.walk true 0 false,.handle false] = .ok t ∧
      run (Cores.step .insertion) t [.handle true] = .ok t' ∧
      tableAddress t.machine.table 0=some (255*4096) ∧ tableAddress t'.machine.table 0=some (254*4096)) := by
  simp only [exists_and_left]
  decide +kernel

end Sniper.PageFaults
