import Sniper.PageFaultHandler
import Sniper.BuddyOperations

/-!
# Three users of one memory

Page-table frames are taken from a pointer below the end of the kernel, pages of instructions
from a pointer that starts there, and pages of data from a buddy allocator that starts there too.
-/

namespace Sniper.PhysicalMemory
open BuddyAllocator FallibleRuns List

theorem PhysicalMemoryAllocator.kernelEndAddress_new (kernelSize : Int32) :
    (new kernelSize).kernelEndAddress.toNat % 4096=0 := by
  have hend : (new kernelSize).kernelEndAddress.toNat =
      (toWord kernelSize).toNat*1024 % 2^64*1024 % 2^64 := by
    simp [new,UInt64.toNat_mul]
  rw [hend]
  omega

theorem PhysicalMemoryAllocator.allocateInstruction_cases {b : PhysicalMemoryAllocator} {size : ℕ}
    (hsize : b.instructionCurrentAddress.toNat+size<2^64) :
    b.allocateInstruction (UInt64.ofNat size)=(none,b) ∨
      ∃page b',b.allocateInstruction (UInt64.ofNat size)=(some page,b') ∧
        page.toNat=b.instructionCurrentAddress.toNat / 4096 ∧ b'.kernelEndAddress=b.kernelEndAddress ∧
        b'.instructionCurrentAddress.toNat=b.instructionCurrentAddress.toNat+size := by
  by_cases hfull : b.instructionCurrentAddress+UInt64.ofNat size > b.instructionEndAddress
  · exact Or.inl (if_pos hfull)
  · refine Or.inr ⟨_,_,if_neg hfull,UInt64.toNat_div _ _,rfl,?_⟩
    change (b.instructionCurrentAddress+UInt64.ofNat size).toNat=_
    rw [UInt64.toNat_add,UInt64.toNat_ofNat_of_lt' (lt_of_le_of_lt (Nat.le_add_left _ _) hsize)]
    exact Nat.mod_eq_of_lt hsize

def Allocation.pages (a : Allocation) : List ℕ :=
  match a.ppn with
  | none => []
  | some page => if a.pageSize=21 then List.range' page 512 else [page]

inductive PageRequest where
  | page (req : Request)
  | pageTableFrame

/-- An allocator with the pages it has handed out so far, by the part of memory that they
were taken from. -/
structure Carving (σ : Type) where
  allocator : σ
  instructionPages : List ℕ
  dataPages : List ℕ
  frames : List ℕ

namespace Carving

variable {σ : Type}

def new (s : σ) : Carving σ := ⟨s,[],[],[]⟩

def step (A : AllocatorInterface σ) (t : Carving σ) : PageRequest → Except Abort (Carving σ)
  | .page req => do
    let (a,s) ← A.allocate t.allocator req
    if A.usesInstructionArea req then
      .ok {t with allocator:=s,instructionPages:=a.pages++t.instructionPages}
    else .ok {t with allocator:=s,dataPages:=a.pages++t.dataPages}
  | .pageTableFrame =>
    let (frame,base) := (A.base t.allocator).handlePageTableAllocations 4096
    .ok {t with allocator:=A.withBase t.allocator base,frames:=frame.toNat::t.frames}

variable {req : Request} {memorySize : Int32} {t t' : Carving BaselineAllocator}

theorem step_page {A : AllocatorInterface σ} {t t' : Carving σ}
    (h : t.step A (.page req) = .ok t') : ∃a s,A.allocate t.allocator req = .ok (a,s) ∧
      t'=if A.usesInstructionArea req then
          {t with allocator:=s,instructionPages:=a.pages++t.instructionPages}
        else {t with allocator:=s,dataPages:=a.pages++t.dataPages} := by
  obtain ⟨⟨a,s⟩,halloc,h⟩:=bind_ok h
  refine ⟨a,s,halloc,?_⟩
  cases harea : A.usesInstructionArea req with
  | true =>
    simp only [harea,if_true] at h
    exact (Except.ok.inj h).symm
  | false =>
    simp only [harea,Bool.false_eq_true,if_false] at h
    exact (Except.ok.inj h).symm

/-- No page of instructions is a page of data or a page-table frame. -/
def Disjoint (t : Carving σ) : Prop := ∀q∈t.instructionPages,q∉t.dataPages ∧ q∉t.frames

section

variable (memorySize) (t)

/-- Pages of instructions are taken where no page of data has been handed out, data is cut
from blocks above the pages of instructions, and frames are taken below the end of the
kernel. -/
def Separate : PageRequest → Prop
  | .page req =>
    let pointer := t.allocator.instructionCurrentAddress.toNat
    if BaselineAllocator.usesInstructionArea req then
      0 < req.size ∧ pointer+req.size<2^64 ∧
        (pointer / 4096∈t.allocator.buddy.freeCells ∨
          Buddy.pagesIn memorySize≤pointer / 4096)
    else ∀block∈t.allocator.buddy.sourceBlock req.size,pointer≤4096*block.first
  | .pageTableFrame => t.allocator.kernelStartAddress<t.allocator.kernelEndAddress

instance (r : PageRequest) : Decidable (t.Separate memorySize r) :=
  match r with
  | .page _ => by
    unfold Separate
    infer_instance
  | .pageTableFrame => by
    unfold Separate
    infer_instance

/-- Pages of instructions lie between the end of the kernel and the pointer, frames below
the end of the kernel, and pages of data are pages of the memory that are neither free nor
pages of instructions. -/
structure Carved : Prop where
  wellFormed : t.allocator.buddy.WellFormed
  taken : (t.allocator.buddy.freeCells+(t.dataPages : Multiset ℕ)).Nodup
  inMemory : ∀p∈t.allocator.buddy.freeCells+(t.dataPages : Multiset ℕ),
    p<Buddy.pagesIn memorySize
  aligned : t.allocator.kernelEndAddress.toNat % 4096=0
  above : t.allocator.kernelEndAddress.toNat≤t.allocator.instructionCurrentAddress.toNat
  instructions : ∀q∈t.instructionPages,t.allocator.kernelEndAddress.toNat≤4096*q ∧
    4096*q<t.allocator.instructionCurrentAddress.toNat
  below : ∀f∈t.frames,4096*f<t.allocator.kernelEndAddress.toNat
  apart : ∀q∈t.instructionPages,q∉t.dataPages

end

theorem Carved.disjoint (h : t.Carved memorySize) : t.Disjoint := by
  intro q hq
  refine ⟨h.apart q hq,?_⟩
  intro hf
  have hbelow := h.below q hf
  have habove := (h.instructions q hq).1
  omega

theorem new_carved {kernelSize : Int32} {maxOrder : ℕ} {fragType : String} {s : BaselineAllocator}
    (h : BaselineAllocator.new memorySize maxOrder kernelSize fragType = .ok s) :
    (new s).Carved memorySize := by
  obtain ⟨buddy,hbuddy,h⟩:=bind_ok h
  cases h
  obtain ⟨-,hwf,hcells⟩:=Buddy.new_ok hbuddy
  have hpages : buddy.freeCells+(([] : List ℕ) : Multiset ℕ) =
      Multiset.Ico (Buddy.pagesIn kernelSize) (Buddy.pagesIn memorySize) := by
    rw [hcells]
    exact add_zero _
  refine ⟨hwf,?_,?_,PhysicalMemoryAllocator.kernelEndAddress_new kernelSize,le_rfl,?_,?_,?_⟩
  · change (buddy.freeCells+(([] : List ℕ) : Multiset ℕ)).Nodup
    rw [hpages]
    exact Multiset.nodup_Ico
  · intro p hp
    change p∈buddy.freeCells+(([] : List ℕ) : Multiset ℕ) at hp
    rw [hpages] at hp
    exact (Multiset.mem_Ico.mp hp).2
  · exact fun q hq => absurd hq not_mem_nil
  · exact fun q hq => absurd hq not_mem_nil
  · exact fun q hq => absurd hq not_mem_nil

theorem Carved.instruction (h : t.Carved memorySize) (hinst : BaselineAllocator.usesInstructionArea req=true)
    (hsep : t.Separate memorySize (.page req))
    (he : t.step BaselineAllocator.interface (.page req) = .ok t') : t'.Carved memorySize := by
  rw [Separate,if_pos hinst] at hsep
  obtain ⟨hpos,hsize,hfree⟩:=hsep
  obtain ⟨a,s,halloc,ht⟩:=step_page he
  have ht := ht.trans (if_pos hinst)
  subst ht
  change t.allocator.allocate req=_ at halloc
  rw [BaselineAllocator.allocate_of_instruction hinst] at halloc
  rcases PhysicalMemoryAllocator.allocateInstruction_cases hsize with
    hnone | ⟨page,b',hsome,hpage,hkernel,hnext⟩
  · rw [hnone] at halloc
    cases halloc
    exact ⟨h.wellFormed,h.taken,h.inMemory,h.aligned,h.above,h.instructions,h.below,h.apart⟩
  · rw [hsome] at halloc
    cases halloc
    have haligned := h.aligned
    have habove := h.above
    rw [← hkernel] at haligned habove
    refine ⟨h.wellFormed,h.taken,h.inMemory,haligned,?_,?_,?_,?_⟩
    · change b'.kernelEndAddress.toNat≤b'.instructionCurrentAddress.toNat
      omega
    · intro q hq
      change b'.kernelEndAddress.toNat≤4096*q ∧ 4096*q<b'.instructionCurrentAddress.toNat
      rcases mem_cons.mp hq with rfl | hold
      · omega
      · have hq := h.instructions q hold
        rw [← hkernel] at hq
        omega
    · intro f hf
      have hf := h.below f hf
      rw [← hkernel] at hf
      exact hf
    · intro q hq hdata
      rcases mem_cons.mp hq with rfl | hold
      · rw [hpage] at hdata
        rcases hfree with hmem | hbeyond
        · exact Multiset.disjoint_left.mp (Multiset.nodup_add.mp h.taken).2.2 hmem hdata
        · have := h.inMemory _ (Multiset.mem_add.mpr (Or.inr hdata))
          omega
      · exact h.apart q hold hdata

theorem Carved.data (h : t.Carved memorySize) (hdata : BaselineAllocator.usesInstructionArea req=false)
    (hsep : t.Separate memorySize (.page req))
    (he : t.step BaselineAllocator.interface (.page req) = .ok t') : t'.Carved memorySize := by
  have harea : ¬ BaselineAllocator.usesInstructionArea req=true := by
    rw [hdata]
    exact Bool.false_ne_true
  rw [Separate,if_neg harea] at hsep
  obtain ⟨a,s,halloc,ht⟩:=step_page he
  have ht := ht.trans (if_neg harea)
  subst ht
  obtain ⟨page,hpage,rfl,hbase⟩:=BaselineAllocator.allocate_of_data hdata halloc
  have haligned := h.aligned
  have habove := h.above
  have hinst := h.instructions
  have hbelow := h.below
  rw [← hbase] at haligned habove hinst hbelow
  rcases Buddy.allocate_cases h.wellFormed hpage with ⟨p,rfl,htakes⟩ | ⟨rfl,hbuddy,-⟩
  · obtain ⟨block,hblock,hle⟩:=Buddy.allocate_sourceBlock hpage
    have hpointer := hsep block hblock
    have hsub : s.buddy.freeCells+((p::t.dataPages : List ℕ) : Multiset ℕ) ≤
        t.allocator.buddy.freeCells+(t.dataPages : Multiset ℕ) := by
      rw [htakes.cells,← Multiset.cons_coe,← Multiset.singleton_add,← add_assoc]
      refine add_le_add_left (add_le_add_right ?_ _) _
      rw [Multiset.singleton_le,Multiset.mem_Ico]
      exact ⟨le_rfl,Nat.lt_add_of_pos_right (Nat.two_pow_pos _)⟩
    refine ⟨htakes.wellFormed,Multiset.nodup_of_le hsub h.taken,
      fun q hq => h.inMemory q (Multiset.mem_of_le hsub hq),haligned,habove,hinst,hbelow,?_⟩
    intro q hq hmem
    rcases mem_cons.mp hmem with rfl | hold
    · have := (h.instructions q hq).2
      omega
    · exact h.apart q hq hold
  · refine ⟨?_,?_,?_,haligned,habove,hinst,hbelow,h.apart⟩
    · change s.buddy.WellFormed
      rw [hbuddy]
      exact h.wellFormed
    · change (s.buddy.freeCells+(t.dataPages : Multiset ℕ)).Nodup
      rw [hbuddy]
      exact h.taken
    · change ∀p∈s.buddy.freeCells+(t.dataPages : Multiset ℕ),_
      rw [hbuddy]
      exact h.inMemory

theorem step_carved {r : PageRequest} (h : t.Carved memorySize) (hsep : t.Separate memorySize r)
    (he : t.step BaselineAllocator.interface r = .ok t') : t'.Carved memorySize := by
  cases r with
  | page req =>
    cases hinst : BaselineAllocator.usesInstructionArea req with
    | true => exact h.instruction hinst hsep he
    | false => exact h.data hinst hsep he
  | pageTableFrame =>
    have he : { t with
        allocator := { t.allocator with
          kernelStartAddress := t.allocator.kernelStartAddress+4096 }
        frames := (t.allocator.kernelStartAddress / 4096).toNat::t.frames }=t' :=
      Except.ok.inj he
    subst he
    refine ⟨h.wellFormed,h.taken,h.inMemory,h.aligned,h.above,h.instructions,?_,h.apart⟩
    intro f hf
    rcases mem_cons.mp hf with rfl | hold
    · have hlt := UInt64.lt_iff_toNat_lt.mp hsep
      have hdiv : (t.allocator.kernelStartAddress / 4096).toNat =
          t.allocator.kernelStartAddress.toNat / 4096 := UInt64.toNat_div _ _
      rw [hdiv]
      exact lt_of_le_of_lt (Nat.mul_div_le _ _) hlt
    · exact h.below f hold

theorem step_instructionPages {A : AllocatorInterface σ} (hA : ∀req,A.usesInstructionArea req=false)
    {t t' : Carving σ} {r : PageRequest} (he : t.step A r = .ok t') :
    t'.instructionPages=t.instructionPages := by
  cases r with
  | page req =>
    obtain ⟨a,s,-,rfl⟩:=step_page he
    rw [hA req,if_neg Bool.false_ne_true]
  | pageTableFrame =>
    have ht := Except.ok.inj he
    subst ht
    rfl

end Carving

/-- No page of instructions is ever handed out as data or as a page-table frame: by the
baseline allocator while its requests are separate, by the reservation allocator always. -/
theorem instruction_pages_apart (memorySize kernelSize : Int32) (maxOrder : ℕ) (fragType : String)
    (requests : List PageRequest) :
    (∀s t,BaselineAllocator.new memorySize maxOrder kernelSize fragType = .ok s →
      Along (Carving.step BaselineAllocator.interface) (Carving.Separate memorySize) (.new s) requests →
      run (Carving.step BaselineAllocator.interface) (.new s) requests = .ok t → t.Disjoint) ∧
    (∀order threshold s t,
      ReservationThpAllocator.new memorySize maxOrder kernelSize fragType threshold = .ok s →
      run (Carving.step (ReservationThpAllocator.interface order)) (.new s) requests = .ok t → t.Disjoint) := by
  constructor
  · intro s t hs hsep ht
    exact (run_invariant (fun _ _ _ h hsep he => Carving.step_carved h hsep he)
      (Carving.new_carved hs) hsep ht).disjoint
  · intro order threshold s t hs ht
    have hnone : t.instructionPages=[] := by
      refine run_invariant (G:=fun _ _ => True) (I:=fun t => t.instructionPages=[])
        (fun u r u' hu _ he => ?_) rfl (along_of_forall (fun _ _ => trivial) _ _) ht
      exact (Carving.step_instructionPages (fun _ => rfl) he).trans hu
    intro q hq
    rw [hnone] at hq
    exact absurd hq not_mem_nil

def pageRequest (isInstruction : Bool) : PageRequest :=
  .page {size:=4096,address:=0,isInstructionAllocation:=isInstruction}

theorem instruction_pages_apart_interleaved :
    (∃s,BaselineAllocator.new 6 9 2 "largepage" = .ok s ∧
      ∃t,run (Carving.step BaselineAllocator.interface) (.new s)
        [pageRequest true,pageRequest false,.pageTableFrame,pageRequest true] = .ok t ∧
      (t.instructionPages=[513,512] ∧ t.dataPages=[1535] ∧ t.frames=[1]) ∧ t.Disjoint) ∧
    ∃s,ReservationThpAllocator.new 6 9 2 "largepage" 1 = .ok s ∧
      ∃t,run (Carving.step (ReservationThpAllocator.interface .insertion)) (.new s)
        [pageRequest true,pageRequest false,.pageTableFrame,pageRequest true] = .ok t ∧ t.Disjoint := by
  constructor
  · refine exists_ok_ok_and (P:=fun s _ => Along (Carving.step BaselineAllocator.interface)
      (Carving.Separate 6) (.new s) [pageRequest true,pageRequest false,.pageTableFrame,pageRequest true])
      (by decide +kernel) fun s t hs ht hsep => ?_
    exact (instruction_pages_apart 6 2 9 "largepage" _).1 s t hs hsep ht
  · refine exists_ok_ok (P:=fun _ _ => True) (by decide +kernel) fun s t hs ht _ => ?_
    exact (instruction_pages_apart 6 2 9 "largepage" _).2 .insertion 1 s t hs ht

/-- In 1MB of memory after the kernel, the 256th page of data is the first one set aside for
instructions; after 255 page-table frames a kernel of 1MB is full, and the next frame is
that page too. -/
theorem instruction_page_handed_out_twice :
    (∃s,BaselineAllocator.new 3 9 2 "largepage" = .ok s ∧
      ∃t,run (Carving.step BaselineAllocator.interface) (.new s)
        (List.replicate 256 (pageRequest false)++[pageRequest true]) = .ok t ∧
      512∈t.instructionPages ∧ 512∈t.dataPages ∧ ¬ t.Disjoint) ∧
    ∃s,BaselineAllocator.new 3 9 1 "largepage" = .ok s ∧
      ∃t,run (Carving.step BaselineAllocator.interface) (.new s)
        (List.replicate 256 .pageTableFrame++[pageRequest true]) = .ok t ∧
      256∈t.instructionPages ∧ 256∈t.frames ∧ ¬ t.Disjoint := by
  constructor
  · exact exists_ok_ok (P:=fun _ t => 512∈t.instructionPages ∧ 512∈t.dataPages) (by decide +kernel)
      fun _ _ _ _ h => ⟨h.1,h.2,fun hapart => (hapart 512 h.1).1 h.2⟩
  · exact exists_ok_ok (P:=fun _ t => 256∈t.instructionPages ∧ 256∈t.frames) (by decide +kernel)
      fun _ _ _ _ h => ⟨h.1,h.2,fun hapart => (hapart 256 h.1).2 h.2⟩

end Sniper.PhysicalMemory
