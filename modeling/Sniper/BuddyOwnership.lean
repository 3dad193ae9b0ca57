import Sniper.BuddyOperations

/-!
# Ownership of pages under arbitrary use of the buddy allocator

The free blocks and the blocks handed out tile the pages after the kernel.
-/

namespace Sniper.BuddyAllocator
open IntervalTilings FallibleRuns Buddy List

/-- The allocator together with every block handed out and not yet returned. -/
structure Ledger where
  buddy : Buddy
  handedOut : List Interval

/-- One call on the allocator. `fragmentMemory` carries the passes granted to its loop. -/
inductive Op where
  | allocate (bytes : ℕ)
  | reserve2mbPage
  | checkIfFree (page : ℕ) (alloc : Bool)
  | fragmentMemory (target : ℚ) (fuel : ℕ)
  | fragmentMemoryToTargetCount (target : ℕ)
  | free (block : Interval)

namespace Ledger

def servedBlock (bytes : ℕ) (page : ℕ) : Interval := ⟨page,page+2^Buddy.orderOf bytes - 1⟩

def step (gen : Buddy.Generator) (o : Ledger) : Op → Except Abort Ledger
  | .allocate bytes => do
    let (r,s) ← o.buddy.allocate bytes
    .ok ⟨s,(r.map (servedBlock bytes)).toList++o.handedOut⟩
  | .reserve2mbPage => do
    let (r,s) ← o.buddy.reserve2mbPage
    .ok ⟨s,r.toList++o.handedOut⟩
  | .checkIfFree page alloc =>
    let (free,s) := o.buddy.checkIfFree page alloc
    .ok ⟨s,(if free && alloc then [⟨page,page⟩] else [])++o.handedOut⟩
  | .fragmentMemory target fuel => do
    let s ← o.buddy.fragmentMemory gen target fuel
    .ok ⟨s,o.handedOut⟩
  | .fragmentMemoryToTargetCount target => do
    let s ← o.buddy.fragmentMemoryToTargetCount gen target
    .ok ⟨s,o.handedOut⟩
  | .free block => do
    let s ← o.buddy.free block.first block.last
    .ok ⟨s,o.handedOut.erase block⟩

/-- Requests are for at least one page and returns are of blocks that are handed out. -/
def Admissible (o : Ledger) : Op → Prop
  | .allocate bytes => 4096≤bytes
  | .free block => block∈o.handedOut
  | _ => True

def ReturnsHandedOut (o : Ledger) : Op → Prop
  | .free block => block∈o.handedOut
  | _ => True

variable {o o' : Ledger} {op : Op} {s : Buddy} {hi lo : ℕ} {gen : Buddy.Generator}

theorem Admissible.returnsHandedOut (h : o.Admissible op) : o.ReturnsHandedOut op := by
  cases op with
  | free block => exact h
  | _ => trivial

/-- The requested order does not pass the one value the out-of-memory test compares with. -/
def InRange (o : Ledger) : Op → Prop
  | .allocate bytes => Buddy.orderOf bytes ≤ o.buddy.maxOrder+1
  | _ => True

/-- The step reads no list that the allocator does not have, and no shift is too wide. -/
def Defined (o : Ledger) : Op → Prop
  | .allocate bytes => Buddy.orderOf bytes ≤ o.buddy.maxOrder+1
  | .reserve2mbPage => Buddy.largeOrder < o.buddy.listCount
  | .fragmentMemory _ _ => ¬ (o.buddy.fragFun = .getAverageSizeRatio ∧ o.buddy.maxOrder<3)
  | _ => True

/-- Free and handed-out blocks are pairwise disjoint, have the sizes of their lists, and
together are exactly the pages in `[lo, hi)`. -/
structure Owned (o : Ledger) (lo hi : ℕ) : Prop where
  apart : (o.buddy.allBlocks++o.handedOut).Pairwise Interval.Apart
  spans : ∀k,∀b∈o.buddy.freeList k,b.Spans (2^k)
  covers : ∀p,(∃b∈o.buddy.allBlocks++o.handedOut,b.Contains p) ↔ lo≤p ∧ p<hi

/-- The inductive form of `Owned`: one equation between multisets of pages. -/
structure Balanced (lo hi : ℕ) (o : Ledger) : Prop where
  wellFormed : o.buddy.WellFormed
  large : 9 ≤ o.buddy.maxOrder
  handed : ∀b∈o.handedOut,∃k ≤ o.buddy.maxOrder,b.Spans (2^k)
  cells : o.buddy.freeCells+cells o.handedOut=Multiset.Ico lo hi

theorem cells_allBlocks (h : s.WellFormed) : cells s.allBlocks=s.freeCells := by
  rw [Buddy.allBlocks,cells_flatMap,Buddy.freeCells]
  symm
  apply Finset.sum_subset
  · intro k hk
    simp only [Finset.mem_range,Buddy.listCount] at *
    omega
  · intro k _ hk
    rw [Finset.mem_range,Nat.not_lt] at hk
    rw [h.beyond k hk,cells_nil]

theorem Balanced.owned (h : o.Balanced lo hi) : o.Owned lo hi := by
  have htiles : Tiles (o.buddy.allBlocks++o.handedOut) lo hi := by
    rw [Tiles,cells_append,cells_allBlocks h.wellFormed]
    exact h.cells
  refine ⟨pairwise_apart_of_nodup (htiles ▸ Multiset.nodup_Ico),h.wellFormed.spans,fun p => ?_⟩
  rw [← mem_cells,htiles,Multiset.mem_Ico]

private theorem order_le_of_found {s' : Buddy} {bytes p : ℕ} (h : s.WellFormed)
    (he : s.allocate bytes = .ok (some p,s')) : Buddy.orderOf bytes ≤ s.maxOrder := by
  by_contra hlt
  have hempty : ∀k,Buddy.orderOf bytes≤k → s.freeList k=[] := fun k hk => h.beyond k (by omega)
  cases (allocate_of_empty hempty he).1

theorem large_le_maxOrder (h : s.WellFormed) (hlarge : ¬ s.NoLarge) : 9 ≤ s.maxOrder := by
  by_contra hlt
  exact hlarge fun k hk => h.beyond k (by omega)

/-- The free blocks have the sizes of their lists, so do the handed-out ones, and together they
are exactly the pages in `[lo, hi)`, for any `max_order`. -/
structure Sound (lo hi : ℕ) (o : Ledger) : Prop where
  wellFormed : o.buddy.WellFormed
  handed : ∀b∈o.handedOut,∃k ≤ o.buddy.maxOrder,b.Spans (2^k)
  cells : o.buddy.freeCells+cells o.handedOut=Multiset.Ico lo hi

theorem Balanced.sound (h : o.Balanced lo hi) : o.Sound lo hi := ⟨h.wellFormed,h.handed,h.cells⟩

theorem step_cases (h : o.Sound lo hi) (hret : o.ReturnsHandedOut op) (he : o.step gen op = .ok o') :
    (∃l,o'.handedOut=l++o.handedOut ∧ o.buddy.Takes o'.buddy (cells l) ∧
        ∀b∈l,∃k ≤ o.buddy.maxOrder,b.Spans (2^k)) ∨
      ∃block∈o.handedOut,op = .free block ∧ o'.handedOut=o.handedOut.erase block ∧
        o.buddy.free block.first block.last = .ok o'.buddy := by
  cases op with
  | allocate bytes =>
    obtain ⟨⟨r,s⟩,ha,he⟩:=bind_ok he
    cases he
    rcases allocate_cases h.wellFormed ha with ⟨p,rfl,ht⟩ | ⟨rfl,rfl,-⟩
    · have hspan : (servedBlock bytes p).Spans (2^Buddy.orderOf bytes) := Interval.spans_mk (Nat.two_pow_pos _)
      refine Or.inl ⟨[servedBlock bytes p],rfl,?_,?_⟩
      · rw [cells_cons,cells_nil,add_zero,hspan.cells_eq]
        exact ht
      · intro b hb
        rw [mem_singleton.mp hb]
        exact ⟨_,order_le_of_found h.wellFormed ha,hspan⟩
    · exact Or.inl ⟨[],rfl,Buddy.Takes.refl h.wellFormed,by simp⟩
  | reserve2mbPage =>
    obtain ⟨⟨r,s⟩,ha,he⟩:=bind_ok he
    cases he
    rcases reserve2mbPage_cases h.wellFormed ha with
      ⟨b,rfl,hspan,hlarge,ht⟩ | ⟨rfl,rfl,-⟩
    · refine Or.inl ⟨[b],rfl,?_,?_⟩
      · rw [cells_cons,cells_nil,add_zero,hspan.cells_eq]
        exact ht
      · intro c hc
        rw [mem_singleton.mp hc]
        exact ⟨9,large_le_maxOrder h.wellFormed hlarge,hspan⟩
    · exact Or.inl ⟨[],rfl,Buddy.Takes.refl h.wellFormed,by simp⟩
  | checkIfFree page alloc =>
    cases hc : o.buddy.checkIfFree page alloc with
    | mk free s =>
      simp only [step,hc] at he
      cases he
      have ht := checkIfFree_takes h.wellFormed hc
      refine Or.inl ⟨_,rfl,?_,?_⟩
      · split_ifs at ht ⊢
        · simpa using ht
        · exact ht
      · intro b hb
        split_ifs at hb
        · rw [mem_singleton.mp hb]
          exact ⟨0,Nat.zero_le _,rfl⟩
        · cases hb
  | fragmentMemory target fuel =>
    obtain ⟨s,hs,he⟩:=bind_ok he
    cases he
    exact Or.inl ⟨[],rfl,fragmentMemory_takes h.wellFormed hs,by simp⟩
  | fragmentMemoryToTargetCount target =>
    obtain ⟨s,hs,he⟩:=bind_ok he
    cases he
    exact Or.inl ⟨[],rfl,targetLoop_takes _ h.wellFormed hs,by simp⟩
  | free block =>
    obtain ⟨s,hs,he⟩:=bind_ok he
    cases he
    exact Or.inr ⟨block,hret,rfl,rfl,hs⟩

theorem Sound.free {block : Interval} (h : o.Sound lo hi) (hb : block∈o.handedOut) :
    ∃s,o.buddy.free block.first block.last = .ok s ∧
      s.maxOrder=o.buddy.maxOrder ∧ Sound lo hi ⟨s,o.handedOut.erase block⟩ := by
  obtain ⟨k,hk,hspan⟩:=h.handed block hb
  obtain ⟨s,hs,hmax,hwf,hcells,-⟩:=free_spec h.wellFormed hspan hk
  refine ⟨s,hs,hmax,hwf,?_,?_⟩
  · intro b hb
    rw [show (Ledger.mk s (o.handedOut.erase block)).buddy.maxOrder=o.buddy.maxOrder from hmax]
    exact h.handed b (mem_of_mem_erase hb)
  · have hperm := cells_perm (perm_cons_erase hb)
    rw [cells_cons] at hperm
    rw [hcells,add_assoc,← hperm]
    exact h.cells

theorem step_sound (h : o.Sound lo hi) (hret : o.ReturnsHandedOut op) (he : o.step gen op = .ok o') :
    o'.buddy.maxOrder=o.buddy.maxOrder ∧ o'.Sound lo hi := by
  rcases step_cases h hret he with ⟨l,hout,ht,hl⟩ | ⟨block,hb,-,hout,hfree⟩
  · refine ⟨ht.maxOrder,ht.wellFormed,?_,?_⟩
    · intro b hb
      rw [hout] at hb
      rw [ht.maxOrder]
      rcases mem_append.mp hb with hb | hb
      · exact hl b hb
      · exact h.handed b hb
    · rw [hout,cells_append,← add_assoc,← ht.cells]
      exact h.cells
  · obtain ⟨s,hs,hmax,hsound⟩:=h.free hb
    cases hs.symm.trans hfree
    cases o'
    cases hout
    exact ⟨hmax,hsound⟩

theorem step_balanced (h : o.Balanced lo hi) (hadm : o.Admissible op) (he : o.step gen op = .ok o') :
    o'.Balanced lo hi := by
  obtain ⟨hmax,hs⟩:=step_sound h.sound hadm.returnsHandedOut he
  exact ⟨hs.wellFormed,hmax ▸ h.large,hs.handed,hs.cells⟩

theorem Balanced.defined (h : o.Balanced lo hi) (hin : o.InRange op) : o.Defined op := by
  have hlarge := h.large
  cases op with
  | allocate bytes => exact hin
  | reserve2mbPage =>
    rw [Defined,Buddy.largeOrder,Buddy.listCount]
    omega
  | fragmentMemory target fuel => exact fun hsmall => by omega
  | _ => trivial

theorem step_error {e : Abort} (h : o.Sound lo hi) (hadm : o.Admissible op) (hdef : o.Defined op)
    (he : o.step gen op = .error e) : e = .unfinished := by
  cases op with
  | allocate bytes =>
    obtain ⟨r,hr⟩ := allocate_ok h.wellFormed hadm hdef
    simp only [step,hr,ok_bind] at he
    cases he
  | reserve2mbPage =>
    obtain ⟨r,hr⟩ := reserve2mbPage_ok h.wellFormed hdef
    simp only [step,hr,ok_bind] at he
    cases he
  | checkIfFree page alloc => cases he
  | fragmentMemory target fuel =>
    cases hf : o.buddy.fragmentMemory gen target fuel with
    | error e' =>
      simp only [step,hf,error_bind] at he
      cases he
      rw [Buddy.fragmentMemory,if_neg hdef] at hf
      exact fragmentLoop_error fuel hf
    | ok s =>
      simp only [step,hf,ok_bind] at he
      cases he
  | fragmentMemoryToTargetCount target =>
    obtain ⟨s,hs⟩ : ∃s,o.buddy.fragmentMemoryToTargetCount gen target = .ok s :=
      targetLoop_ok _ h.wellFormed le_rfl
    simp only [step,hs,ok_bind] at he
    cases he
  | free block =>
    obtain ⟨s,hs,-⟩ := h.free hadm
    simp only [step,hs,ok_bind] at he
    cases he

theorem step_outOfRange (hadm : o.Admissible op) (hout : ¬ o.InRange op) :
    o.step gen op = .error .outOfBounds := by
  cases op with
  | allocate bytes =>
    have hb : 4096≤bytes := hadm
    have ho : o.buddy.maxOrder+1<Buddy.orderOf bytes := Nat.lt_of_not_le hout
    have hz : ¬ bytes / 4096=0 := by omega
    simp only [step,Buddy.allocate,hz,ho,↓reduceIte,error_bind]
  | _ => exact absurd trivial hout

end Ledger

/-- The constructor succeeds and after every step of the run the ledger is owned; a run
may also stop inside `fragmentMemory`, whose loop need not end. -/
def OwnershipHolds (gen : Buddy.Generator) (memorySize kernelSize : Int32) (maxOrder : ℕ) (fragType : String)
    (ops : List Op) : Prop :=
  ∃s,Buddy.new memorySize maxOrder kernelSize fragType = .ok s ∧ ∀pre,pre <+: ops →
    match run (Ledger.step gen) ⟨s,[]⟩ pre with
    | .ok o => o.Owned (Buddy.pagesIn kernelSize) (Buddy.pagesIn memorySize)
    | .error e => e = .unfinished

/-- Every step of the run from the freshly built allocator meets `G`. -/
def AdmissibleRun (gen : Buddy.Generator) (memorySize kernelSize : Int32) (maxOrder : ℕ) (fragType : String)
    (G : Ledger → Op → Prop) (ops : List Op) : Prop :=
  ∀s,Buddy.new memorySize maxOrder kernelSize fragType = .ok s →
    Along (Ledger.step gen) G ⟨s,[]⟩ ops

/-- A run from the freshly built allocator that only returns what was handed out ends in `o`. -/
def Reachable (gen : Buddy.Generator) (memorySize kernelSize : Int32) (maxOrder : ℕ) (fragType : String)
    (o : Ledger) : Prop :=
  ∃s ops,Buddy.new memorySize maxOrder kernelSize fragType = .ok s ∧
    Along (Ledger.step gen) Ledger.ReturnsHandedOut ⟨s,[]⟩ ops ∧
    run (Ledger.step gen) ⟨s,[]⟩ ops = .ok o

theorem sound_new {memorySize kernelSize : Int32} {maxOrder : ℕ} {fragType : String} {s : Buddy}
    (h : Buddy.new memorySize maxOrder kernelSize fragType = .ok s) :
    Ledger.Sound (Buddy.pagesIn kernelSize) (Buddy.pagesIn memorySize) ⟨s,[]⟩ := by
  obtain ⟨-,hwf,hcells⟩:=new_ok h
  exact ⟨hwf,by simp,by simpa using hcells⟩

theorem Reachable.sound {gen : Buddy.Generator} {memorySize kernelSize : Int32} {maxOrder : ℕ}
    {fragType : String} {o : Ledger} (h : Reachable gen memorySize kernelSize maxOrder fragType o) :
    o.Sound (Buddy.pagesIn kernelSize) (Buddy.pagesIn memorySize) := by
  obtain ⟨s,ops,hnew,hret,hrun⟩:=h
  exact run_invariant (fun o op o' hs hG he => (Ledger.step_sound hs hG he).2) (sound_new hnew)
    hret hrun

/-- For every pair of sizes, every `max_order` of at least 9 and every admissible run, page
ownership holds after every step exactly when the first block size fits a 64-bit shift and no
request of the run has an order beyond `max_order + 1`. -/
theorem ownership_iff (gen : Buddy.Generator) (memorySize kernelSize : Int32) (maxOrder : ℕ)
    (fragType : String) (ops : List Op) (hmin : 9 ≤ maxOrder)
    (hadm : AdmissibleRun gen memorySize kernelSize maxOrder fragType Ledger.Admissible ops) :
    OwnershipHolds gen memorySize kernelSize maxOrder fragType ops ↔ maxOrder<64 ∧
        AdmissibleRun gen memorySize kernelSize maxOrder fragType Ledger.InRange ops := by
  constructor
  · rintro ⟨s,hs,hall⟩
    have hlt : maxOrder<64 := by
      by_contra hge
      rw [Buddy.new,if_pos (by omega)] at hs
      cases hs
    refine ⟨hlt,fun t ht => ?_⟩
    cases hs.symm.trans ht
    refine along_of_run (E:=fun e => e = .unfinished) ?_ (hadm s hs) ?_
    · intro o op ho hout
      exact ⟨_,Ledger.step_outOfRange ho hout,by simp⟩
    · intro e he
      have hend := hall ops (prefix_refl ops)
      rwa [he] at hend
  · rintro ⟨hlt,hrange⟩
    obtain ⟨s,hs,hmax,hwf,hcells⟩:=new_spec memorySize kernelSize maxOrder fragType (by omega) hlt
    refine ⟨s,hs,?_⟩
    rintro pre ⟨post,rfl⟩
    have hstart : Ledger.Balanced (Buddy.pagesIn kernelSize) (Buddy.pagesIn memorySize)
        ⟨s,[]⟩ := ⟨hwf,hmax ▸ hmin,by simp,by simpa using hcells⟩
    have hboth := ((hadm s hs).and (hrange s hs)).left
    cases hr : run (Ledger.step gen) ⟨s,[]⟩ pre with
    | ok o =>
      exact (run_invariant (fun o op o' hb hG he => Ledger.step_balanced hb hG.1 he)
        hstart hboth hr).owned
    | error e =>
      exact run_error (fun o op o' hb hG he => Ledger.step_balanced hb hG.1 he)
        (fun o op e hb hG he => Ledger.step_error hb.sound hG.1 (hb.defined hG.2) he) hstart hboth hr

def lowGenerator : Buddy.Generator where
  State := Unit
  seed := ()
  draw _ lo _ := (lo,())
  le_draw _ _ _ _ := le_rfl
  draw_le _ _ _ h := h

theorem ownership_after_mixed_run : OwnershipHolds lowGenerator 4 1 9 "largepage"
      [.allocate 8192,.reserve2mbPage,.fragmentMemoryToTargetCount 0,.checkIfFree 300 true] := by
  refine (ownership_iff _ _ _ _ _ _ le_rfl ?_).mpr ⟨by decide,?_⟩
  · intro s hs
    refine ⟨show 4096≤8192 by decide,fun _ _ => ?_⟩
    exact ⟨trivial,fun _ _ => ⟨trivial,fun _ _ => ⟨trivial,fun _ _ => trivial⟩⟩⟩
  · intro s hs
    refine ⟨?_,fun _ _ => ⟨trivial,fun _ _ => ⟨trivial,fun _ _ => ⟨trivial,fun _ _ =>
      trivial⟩⟩⟩⟩
    have hone : Buddy.orderOf 8192=1 := ceilLog2_two_pow 1
    simp [Ledger.InRange,hone]

/-- An 8MB request is admissible on an allocator of `max_order` 9 and has no successor state. -/
theorem ownership_fails_on_oversized_request :
    AdmissibleRun lowGenerator 4 1 9 "largepage" Ledger.Admissible [.allocate (2^23)] ∧
      ¬ OwnershipHolds lowGenerator 4 1 9 "largepage" [.allocate (2^23)] := by
  have hadm : AdmissibleRun lowGenerator 4 1 9 "largepage" Ledger.Admissible
      [.allocate (2^23)] := fun s hs => ⟨show 4096≤2^23 by decide,fun _ _ => trivial⟩
  refine ⟨hadm,?_⟩
  rintro ⟨s,hs,hall⟩
  have hmax := (new_ok hs).1
  have horder : Buddy.orderOf (2^23)=11 := ceilLog2_two_pow 11
  have hend := hall _ (prefix_refl _)
  have hout : ¬ Ledger.InRange ⟨s,[]⟩ (.allocate (2^23)) := by
    simp only [Ledger.InRange,horder,hmax]
    omega
  rw [run_cons,Ledger.step_outOfRange (hadm s hs).1 hout,error_bind] at hend
  cases hend

end Sniper.BuddyAllocator
