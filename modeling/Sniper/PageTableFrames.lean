import Sniper.PageFaultHandler

/-!
# The frames of the page tables

All address spaces take the frames of their page tables from one pointer.
-/

namespace Sniper.RadixPageTable
open FallibleRuns

/-- The page numbers of the frames below a frame of the given level, with multiplicity. -/
def framesBelow : ℕ → PTFrame → Multiset ℕ
  | 0,_ => 0
  | level+1,frame => ∑ i∈Finset.range 512,
    match (frame.entries i).data with
    | .nextLevel (some next) => next.emulatedPpn ::ₘ framesBelow level next
    | _ => 0

def entryFrames (level : ℕ) (entry : PTEntry PTFrame) : Multiset ℕ :=
  match entry.data with
  | .nextLevel (some next) => next.emulatedPpn ::ₘ framesBelow level next
  | _ => 0

theorem framesBelow_succ (level : ℕ) (frame : PTFrame) : framesBelow (level+1) frame =
      ∑ i∈Finset.range 512,entryFrames level (frame.entries i) := rfl

theorem framesBelow_zero (frame : PTFrame) : framesBelow 0 frame=0 := rfl

attribute [irreducible] framesBelow

theorem framesBelow_fresh (level ppn : ℕ) (isPte : Bool) : framesBelow level (PTFrame.fresh ppn isPte)=0 := by
  cases level with
  | zero => exact framesBelow_zero _
  | succ level =>
    rw [framesBelow_succ]
    exact Finset.sum_eq_zero fun i _ => rfl

theorem framesBelow_set (level : ℕ) (frame : PTFrame) {offset : ℕ} (ho : offset<512)
    (entry : PTEntry PTFrame) :
    framesBelow (level+1) (frame.set offset entry)+entryFrames level (frame.entries offset) =
      framesBelow (level+1) frame+entryFrames level entry := by
  have hmem := Finset.mem_range.mpr ho
  have hothers : ∑ i∈(Finset.range 512).erase offset,
      entryFrames level ((frame.set offset entry).entries i) =
        ∑ i∈(Finset.range 512).erase offset,entryFrames level (frame.entries i) := by
    refine Finset.sum_congr rfl fun i hi => ?_
    rw [PTFrame.entries_set,Function.update_of_ne (Finset.ne_of_mem_erase hi)]
  rw [framesBelow_succ,framesBelow_succ,← Finset.add_sum_erase _ _ hmem,← Finset.add_sum_erase _ _ hmem,
    hothers,PTFrame.entries_set,Function.update_self]
  generalize ∑ i∈(Finset.range 512).erase offset,entryFrames level (frame.entries i)=others
  rw [add_right_comm,add_comm (entryFrames level entry),add_right_comm]

def PTFrame.child (frame : PTFrame) (i : ℕ) : Option PTFrame :=
  match (frame.entries i).data with
  | .nextLevel next => next
  | .translation _ _ => none

theorem mem_framesBelow {level i : ℕ} {frame next : PTFrame} (hi : i<512) (h : frame.child i=some next) :
    next.emulatedPpn∈framesBelow (level+1) frame := by
  rw [framesBelow_succ,Multiset.mem_sum]
  refine ⟨i,Finset.mem_range.mpr hi,?_⟩
  cases hdata : (frame.entries i).data with
  | translation valid ppn => simp [PTFrame.child,hdata] at h
  | nextLevel child =>
    simp only [PTFrame.child,hdata] at h
    simp [entryFrames,hdata,h]

theorem offset_lt {pt : PageTableRadix} {level address offset : ℕ}
    (h : pt.offset level address = .ok offset) : offset<512 := by
  simp only [PageTableRadix.offset] at h
  split_ifs at h
  cases h
  exact Nat.mod_lt _ (by decide)

theorem exchange_le {below below' old new extra : Multiset ℕ} (h : below'+old=below+new)
    (hle : new ≤ old+extra) : below'≤below+extra := by
  have hsum : below'+old≤below+extra+old := by
    rw [h,add_right_comm,add_assoc]
    exact add_le_add_right hle below
  exact le_of_add_le_add_right hsum

theorem updateFrom_frames {pt : PageTableRadix} {address ppn pageSize level used : ℕ} {frame frame' : PTFrame}
    {frames : List ℕ} (h : pt.updateFrom address ppn pageSize level frame frames = .ok (frame',used)) :
    used≤frames.length ∧ frame'.emulatedPpn=frame.emulatedPpn ∧
      framesBelow level frame'≤framesBelow level frame+(frames.take used : Multiset ℕ) := by
  induction level generalizing frame frame' frames used with
  | zero =>
    cases h
    refine ⟨Nat.zero_le _,rfl,?_⟩
    rw [framesBelow_zero]
    exact Multiset.zero_le _
  | succ level ih =>
    obtain ⟨offset,ho,⟨-,rfl,rfl⟩ | ⟨-,-,rfl,rfl⟩ | ⟨-,-,next,next',rest,used',hnext,rfl,
      hdata⟩⟩ := PageTableRadix.updateFrom_cases h
    · exact ⟨Nat.zero_le _,rfl,
        exchange_le (framesBelow_set level frame (offset_lt ho) _) (Multiset.zero_le _)⟩
    · exact ⟨Nat.zero_le _,rfl,Multiset.le_add_right _ _⟩
    · obtain ⟨hlen,hppn,hle⟩:=ih hnext
      have hset := framesBelow_set level frame (offset_lt ho)
        ⟨(frame.entries offset).isPte,.nextLevel (some next')⟩
      rcases hdata with ⟨hdata,rfl,rfl⟩ | ⟨hdata,p,rfl,rfl,rfl⟩
      · refine ⟨hlen,rfl,exchange_le hset ?_⟩
        simp only [entryFrames,hdata,hppn]
        rw [Multiset.cons_add]
        exact Multiset.cons_le_cons _ hle
      · refine ⟨Nat.succ_le_succ hlen,rfl,exchange_le hset ?_⟩
        simp only [entryFrames,hdata,hppn,PTFrame.emulatedPpn_fresh]
        rw [framesBelow_fresh,zero_add] at hle
        rw [zero_add,List.take_succ_cons]
        exact Multiset.cons_le_cons p hle

/-- The page numbers of all frames of a table but the root, which has page 0. -/
def PageTableRadix.frameNumbers (pt : PageTableRadix) : Multiset ℕ := framesBelow pt.levels pt.root

theorem PageTableRadix.updatePageTableFrames_frames {pt pt' : PageTableRadix} {address ppn pageSize used : ℕ}
    {frames : List ℕ} (h : pt.updatePageTableFrames address ppn pageSize frames = .ok (used,pt')) :
    used≤frames.length ∧ pt'.frameNumbers≤pt.frameNumbers+(frames.take used : Multiset ℕ) := by
  obtain ⟨⟨root,used'⟩,hupdate,h⟩:=bind_ok h
  cases h
  obtain ⟨hlen,-,hle⟩:=updateFrom_frames hupdate
  exact ⟨hlen,hle⟩

end Sniper.RadixPageTable

namespace Sniper.PageFaults
open FallibleRuns PhysicalMemory RadixPageTable

variable {σ ι : Type}

/-- Address spaces that share one allocator, and the number of frames that their page tables
have installed so far. -/
structure AddressSpaces (σ ι : Type) where
  allocator : σ
  tables : ι → PageTableRadix
  installed : ℕ

namespace AddressSpaces

def fault [DecidableEq ι] (A : AllocatorInterface σ) (t : AddressSpaces σ ι) (call : ι × FaultCtx) :
    Except Abort (AddressSpaces σ ι) := do
  let (out,allocator,table) ← handlePageFault A call.2 t.allocator (t.tables call.1)
  .ok ⟨allocator,Function.update t.tables call.1 table,t.installed+out.framesUsed⟩

def liveFrames [Fintype ι] (t : AddressSpaces σ ι) : Multiset ℕ := ∑ i,(t.tables i).frameNumbers

/-- Frames have pages of their own, none of them page 0, the pointer counts them, and they
all lie below the end of the kernel. -/
structure FramesApart [Fintype ι] (A : AllocatorInterface σ) (t : AddressSpaces σ ι) : Prop where
  distinct : t.liveFrames.Nodup
  nonzero : 0∉t.liveFrames
  pointer : (A.base t.allocator).kernelStartAddress.toNat=4096*(1+t.installed)
  inside : ∀p∈t.liveFrames,4096*p<(A.base t.allocator).kernelEndAddress.toNat

/-- The frames that the fault asks for lie below the end of the kernel. -/
def FramesFit (A : AllocatorInterface σ) (t : AddressSpaces σ ι) (call : ι × FaultCtx) : Prop :=
  (A.base t.allocator).kernelStartAddress.toNat+4096*call.2.metadataFrames ≤
    (A.base t.allocator).kernelEndAddress.toNat

instance (A : AllocatorInterface σ) (t : AddressSpaces σ ι) (call : ι × FaultCtx) :
    Decidable (t.FramesFit A call) :=
  inferInstanceAs (Decidable (_≤_))

/-- The live frames are among the pages that the pointer has passed. -/
structure Passed [Fintype ι] (A : AllocatorInterface σ) (t : AddressSpaces σ ι) : Prop where
  pointer : (A.base t.allocator).kernelStartAddress.toNat=4096*(1+t.installed)
  live : t.liveFrames≤(List.range' 1 t.installed : Multiset ℕ)
  inside : t.installed=0 ∨ 4096*(1+t.installed)≤(A.base t.allocator).kernelEndAddress.toNat

theorem Passed.framesApart [Fintype ι] {A : AllocatorInterface σ} {t : AddressSpaces σ ι} (h : t.Passed A) :
    t.FramesApart A := by
  have hmem : ∀p∈t.liveFrames,1≤p ∧ p<1+t.installed := by
    intro p hp
    exact List.mem_range'_1.mp (Multiset.mem_coe.mp (Multiset.mem_of_le h.live hp))
  refine ⟨Multiset.nodup_of_le h.live (Multiset.coe_nodup.mpr List.nodup_range'),?_,h.pointer,?_⟩
  · intro hzero
    exact absurd (hmem 0 hzero).1 (by decide)
  · intro p hp
    obtain ⟨-,hlt⟩:=hmem p hp
    rcases h.inside with hnone | hend
    · rw [hnone] at hlt
      exact absurd (hmem p hp).1 (Nat.not_le.mpr hlt)
    · omega

theorem liveFrames_update [Fintype ι] [DecidableEq ι] (tables : ι → PageTableRadix) (i : ι)
    (table : PageTableRadix)
    {extra : Multiset ℕ} (h : table.frameNumbers≤(tables i).frameNumbers+extra) :
    ∑ j,(Function.update tables i table j).frameNumbers ≤ ∑ j,(tables j).frameNumbers+extra := by
  refine exchange_le ?_ h
  have hothers : ∑ j∈Finset.univ.erase i,(Function.update tables i table j).frameNumbers =
      ∑ j∈Finset.univ.erase i,(tables j).frameNumbers := by
    refine Finset.sum_congr rfl fun j hj => ?_
    rw [Function.update_of_ne (Finset.ne_of_mem_erase hj)]
  rw [← Finset.add_sum_erase _ _ (Finset.mem_univ i),← Finset.add_sum_erase _ _ (Finset.mem_univ i),hothers,
    Function.update_self]
  abel

theorem fault_passed [Fintype ι] [DecidableEq ι] {A : AllocatorInterface σ} {t t' : AddressSpaces σ ι}
    {call : ι × FaultCtx} (h : t.Passed A) (hfit : t.FramesFit A call) (he : t.fault A call = .ok t') :
    t'.Passed A := by
  obtain ⟨⟨out,s',table'⟩,hfault,he⟩:=bind_ok he
  cases he
  obtain ⟨s₁,base₁,halloc,htake,hupdate,rfl⟩:=handlePageFault_ok hfault
  obtain ⟨hstart,hend⟩:=A.kernel_allocate halloc
  have hbound := (A.base t.allocator).kernelEndAddress.toNat_lt
  have hpointer := h.pointer
  rw [FramesFit,hpointer] at hfit
  rw [← hstart] at hpointer
  obtain ⟨hframes,hstart₁⟩:=takeFrames_consecutive htake hpointer (by omega)
  obtain ⟨hlen,hbase₁⟩:=takeFrames_ok htake
  obtain ⟨hused,hlive⟩:=PageTableRadix.updatePageTableFrames_frames hupdate
  rw [List.length_map,hlen] at hused
  rw [hframes,List.take_range'_of_length_ge hused] at hlive
  have hend₁ : base₁.kernelEndAddress=(A.base t.allocator).kernelEndAddress := by
    rw [hbase₁]
    exact hend
  refine ⟨?_,?_,Or.inr ?_⟩
  · rw [A.base_withBase]
    refine giveBackFrames_kernelStart ?_
    rw [hstart₁]
    change _=4096*(1+(t.installed+out.framesUsed)+_)
    omega
  · refine le_trans (liveFrames_update t.tables call.1 table' hlive) ?_
    have hrange := List.range'_append_1 (s:=1) (m:=t.installed) (n:=out.framesUsed)
    rw [← hrange,← Multiset.coe_add]
    exact add_le_add_left h.live _
  · rw [A.base_withBase,giveBackFrames_kernelEnd,hend₁]
    change 4096*(1+(t.installed+out.framesUsed))≤_
    omega

theorem new_passed [Fintype ι] {A : AllocatorInterface σ} {kernelSize : Int32} {s₀ : σ}
    (hbase : A.base s₀ = .new kernelSize) (levels frameSize : ι → ℕ) (pageSizeList : ι → List ℕ) :
    Passed A ⟨s₀,fun i => .new (levels i) (frameSize i) (pageSizeList i),0⟩ := by
  refine ⟨?_,?_,Or.inl rfl⟩
  · rw [hbase]
    rfl
  · refine le_of_eq (Finset.sum_eq_zero fun i _ => ?_)
    exact framesBelow_fresh _ 0 false

end AddressSpaces

/-- In every run in which the frames of each fault fit below the end of the kernel, the
frames of all page tables are apart in every state reached. -/
theorem frames_apart_of_fit [Fintype ι] [DecidableEq ι] (A : AllocatorInterface σ) (kernelSize : Int32)
    (s₀ : σ) (hbase : A.base s₀ = .new kernelSize) (levels frameSize : ι → ℕ) (pageSizeList : ι → List ℕ)
    (calls : List (ι × FaultCtx)) (t : AddressSpaces σ ι)
    (hfit : Along (AddressSpaces.fault A) (AddressSpaces.FramesFit A)
      ⟨s₀,fun i => .new (levels i) (frameSize i) (pageSizeList i),0⟩ calls) (ht : run (AddressSpaces.fault A)
      ⟨s₀,fun i => .new (levels i) (frameSize i) (pageSizeList i),0⟩ calls = .ok t) : t.FramesApart A :=
  (run_invariant (fun _ _ _ h hfit he => AddressSpaces.fault_passed h hfit he)
    (AddressSpaces.new_passed hbase levels frameSize pageSizeList) hfit ht).framesApart

/-- Two address spaces that fault on the same page. -/
theorem frames_apart_of_two_spaces : ∃s,BaselineAllocator.new 4 9 1 "largepage" = .ok s ∧
    ∃t,run (AddressSpaces.fault BaselineAllocator.interface)
      (⟨s,fun _ : Bool => .new 4 512 [12,21],0⟩ : AddressSpaces _ _)
      [(false,⟨0,3,false⟩),(true,⟨0,3,false⟩)] = .ok t ∧ t.FramesApart BaselineAllocator.interface := by
  refine exists_ok_ok (P:=fun _ _ => True) (by decide +kernel) fun s t hs ht _ => ?_
  have hbase : BaselineAllocator.interface.base s = .new 1 := by
    cases hs
    rfl
  refine frames_apart_of_fit BaselineAllocator.interface 1 s hbase (fun _ => 4) (fun _ => 512)
    (fun _ => [12,21]) _ t ?_ ht
  cases hs
  refine ⟨by decide +kernel,?_⟩
  intro t ht
  cases ht
  exact ⟨by decide +kernel,fun _ _ => trivial⟩

/-- Faults in 86 different ranges of 512GB: each needs a path of three new frames. -/
def spillingCalls : List (Unit × FaultCtx) := (List.range 86).map fun i => ((),⟨i*2^27,3,false⟩)

/-- With a kernel of 1MB the last of these faults places a frame at the end of the kernel. -/
theorem frames_reach_kernel_end : ∃s,BaselineAllocator.new 4 9 1 "largepage" = .ok s ∧
    ∃t,run (AddressSpaces.fault BaselineAllocator.interface)
      (⟨s,fun _ => .new 4 512 [12,21],0⟩ : AddressSpaces _ _) spillingCalls = .ok t ∧
    ¬ t.FramesApart BaselineAllocator.interface := by
  refine exists_ok_ok (P:=fun _ t => ∃next∈(t.tables ()).root.child 85,
    t.allocator.kernelEndAddress.toNat=256*4096 ∧ next.emulatedPpn=256 ∧ (t.tables ()).levels=4)
    (by decide +kernel) ?_
  rintro s t - - ⟨next,hnext,hend,hppn,hlevels⟩ hapart
  have hmem : next.emulatedPpn∈t.liveFrames := by
    rw [AddressSpaces.liveFrames,Fintype.sum_unique,PageTableRadix.frameNumbers]
    exact hlevels.symm ▸ mem_framesBelow (by decide) hnext
  have hlt : 4096*next.emulatedPpn<t.allocator.kernelEndAddress.toNat := hapart.inside _ hmem
  omega

end Sniper.PageFaults
