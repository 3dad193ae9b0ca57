import Sniper.BuddyOwnership

/-!
# Request sizes and the free page counter of the buddy allocator

The counter of free pages is kept apart from the lists, and agrees with them as long as no 2MB
page has been reserved.
-/

namespace Sniper.BuddyAllocator
open IntervalTilings FallibleRuns

def pagesFor (bytes : ℕ) : ℕ := (bytes+4095) / 4096

/-- The request is answered with enough pages taken from the free ones, or it fails and no free
block has that many. -/
def ServesRequest (s : Buddy) (bytes : ℕ) : Prop :=
  ∃r s',s.allocate bytes = .ok (r,s') ∧
    (∀p∈r,∃n,pagesFor bytes≤n ∧
      cells s.allBlocks=cells s'.allBlocks+Multiset.Ico p (p+n)) ∧
    (r=none → ∀b∈s.allBlocks,b.size<pagesFor bytes)

theorem mem_allBlocks {s : Buddy} (h : s.WellFormed) {b : Interval} : b∈s.allBlocks ↔ ∃k,b∈s.freeList k := by
  simp only [Buddy.allBlocks,List.mem_flatMap,List.mem_range,Buddy.listCount]
  constructor
  · rintro ⟨k,-,hb⟩
    exact ⟨k,hb⟩
  · rintro ⟨k,hb⟩
    have hk := h.le_maxOrder (List.ne_nil_of_mem hb)
    exact ⟨k,by omega,hb⟩

theorem forall_size_lt_iff {s : Buddy} (h : s.WellFormed) (n : ℕ) :
    (∀b∈s.allBlocks,b.size<n) ↔ ∀k,ceilLog2 n≤k → s.freeList k=[] := by
  constructor
  · intro hsmall k hk
    rw [List.eq_nil_iff_forall_not_mem]
    intro b hb
    have hlt := hsmall b ((mem_allBlocks h).mpr ⟨k,hb⟩)
    rw [(h.spans k b hb).size_eq (Nat.two_pow_pos k)] at hlt
    have hle : n≤2^k := (Nat.clog_le_iff_le_pow Nat.one_lt_two).mp hk
    omega
  · intro hempty b hb
    obtain ⟨k,hk⟩:=(mem_allBlocks h).mp hb
    rw [(h.spans k b hk).size_eq (Nat.two_pow_pos k)]
    by_contra hle
    have hlog : ceilLog2 n≤k := (Nat.clog_le_iff_le_pow Nat.one_lt_two).mpr (by omega)
    rw [hempty k hlog] at hk
    cases hk

theorem pagesFor_le_iff (bytes : ℕ) : pagesFor bytes≤2^Buddy.orderOf bytes ↔
      4096 ∣ bytes ∨ ¬ (bytes / 4096).isPowerOfTwo := by
  have hpow : bytes / 4096≤2^Buddy.orderOf bytes := Nat.le_pow_clog Nat.one_lt_two _
  have hpower : (bytes / 4096).isPowerOfTwo ↔ bytes / 4096=2^Buddy.orderOf bytes := by
    constructor
    · rintro ⟨k,hk⟩
      rw [Buddy.orderOf,hk,ceilLog2_two_pow]
    · intro hk
      exact ⟨_,hk⟩
  rw [hpower,pagesFor]
  omega

theorem serves_request_iff {gen : Buddy.Generator} {memorySize kernelSize : Int32} {maxOrder : ℕ}
    {fragType : String} {o : Ledger} {bytes : ℕ} (h : Reachable gen memorySize kernelSize maxOrder fragType o)
    (hb : 4096≤bytes) (hle : bytes≤2^o.buddy.maxOrder*4096) : ServesRequest o.buddy bytes ↔
      4096 ∣ bytes ∨ ¬ (bytes / 4096).isPowerOfTwo ∨ ∀b∈o.buddy.allBlocks,b.size<bytes / 4096 := by
  have hwf := h.sound.wellFormed
  have horder : Buddy.orderOf bytes ≤ o.buddy.maxOrder := by
    apply (Nat.clog_le_iff_le_pow Nat.one_lt_two).mpr
    omega
  obtain ⟨⟨r,s⟩,hr⟩:=Buddy.allocate_ok hwf hb (by omega)
  rw [← or_assoc,← pagesFor_le_iff bytes]
  rcases Buddy.allocate_cases hwf hr with ⟨p,rfl,ht⟩ | ⟨rfl,rfl,hempty⟩
  · have hcells : cells o.buddy.allBlocks =
        cells s.allBlocks+Multiset.Ico p (p+2^Buddy.orderOf bytes) := by
      rw [Ledger.cells_allBlocks hwf,Ledger.cells_allBlocks ht.wellFormed]
      exact ht.cells
    have hfound : ¬ ∀b∈o.buddy.allBlocks,b.size<bytes / 4096 := by
      intro hsmall
      have hempty := (forall_size_lt_iff hwf _).mp hsmall
      cases (Buddy.allocate_of_empty hempty hr).1
    rw [or_iff_left hfound]
    constructor
    · rintro ⟨r,s',hr',hserved,-⟩
      cases hr.symm.trans hr'
      obtain ⟨n,hn,htaken⟩:=hserved p rfl
      have hcard := congrArg Multiset.card (hcells.symm.trans htaken)
      simp only [Multiset.card_add,card_Ico,Nat.add_sub_cancel_left] at hcard
      rw [Nat.add_left_cancel hcard]
      exact hn
    · intro hpages
      refine ⟨some p,s,hr,?_,by simp⟩
      intro q hq
      cases hq
      exact ⟨_,hpages,hcells⟩
  · have hsmall := (forall_size_lt_iff hwf (bytes / 4096)).mpr hempty
    refine iff_of_true ⟨none,_,hr,by simp,?_⟩ (Or.inr hsmall)
    intro _ b hb'
    have hlt := hsmall b hb'
    rw [pagesFor]
    omega

/-- A request of two pages on a fresh allocator takes two pages. -/
theorem serves_request_of_whole_pages : ∃s,Buddy.new 4 9 1 "largepage" = .ok s ∧ ServesRequest s 8192 := by
  obtain ⟨s,hs,hmax,-⟩:=Buddy.new_spec 4 1 9 "largepage" (by decide) (by decide)
  have hfresh : Reachable lowGenerator 4 1 9 "largepage" ⟨s,[]⟩ := ⟨s,[],hs,trivial,rfl⟩
  refine ⟨s,hs,(serves_request_iff hfresh (by decide) ?_).mpr (Or.inl (by decide))⟩
  rw [hmax]
  decide

/-- A request of 4097 bytes takes one page, although 768 are free. -/
theorem request_served_one_page_short :
    ∃s,Buddy.new 4 9 1 "largepage" = .ok s ∧ ¬ ServesRequest s 4097 := by
  refine exists_ok (P:=fun s => ∃t,s.allocate 4097 = .ok (some 1023,t)) (by decide +kernel) ?_
  rintro s hs ⟨t,hr⟩ ⟨r,s',hr',hserved,-⟩
  cases hr.symm.trans hr'
  obtain ⟨n,hn,hcells⟩:=hserved 1023 rfl
  have hwf := (Buddy.new_ok hs).2.1
  rcases Buddy.allocate_cases hwf hr with ⟨p,hp,ht⟩ | ⟨hnone,-⟩
  · cases hp
    rw [Ledger.cells_allBlocks hwf,Ledger.cells_allBlocks ht.wellFormed,ht.cells] at hcells
    have hcard := congrArg Multiset.card hcells
    have horder : Buddy.orderOf 4097=0 := ceilLog2_two_pow 0
    simp only [Multiset.card_add,card_Ico,Nat.add_sub_cancel_left,horder] at hcard
    have hneed : pagesFor 4097=2 := rfl
    omega
  · cases hnone

namespace Buddy

variable {s s' : Buddy} {gen : Generator}

theorem new_freePages {memorySize kernelSize : Int32} {maxOrder : ℕ} {fragType : String}
    (h : new memorySize maxOrder kernelSize fragType = .ok s) :
    s.freePages=wordPages memorySize - wordPages kernelSize := by
  rw [new] at h
  split_ifs at h
  obtain ⟨lists,-,h⟩:=bind_ok h
  cases h
  rfl

theorem splitDown_freePages {ind n : ℕ} {block block' : Interval}
    (he : splitDown ind n s block = .ok (s',block')) : s'.freePages=s.freePages := by
  induction n generalizing s block with
  | zero =>
    cases he
    rfl
  | succ n ih =>
    rw [splitDown] at he
    split_ifs at he
    have hrest := ih he
    exact hrest

theorem isolate_freePages (page k : ℕ) (s : Buddy) (block : Interval) :
    (isolate page k s block).1.freePages=s.freePages := by
  induction k generalizing s block with
  | zero => rfl
  | succ k ih =>
    rw [isolate]
    split_ifs
    · exact ih _ _
    · exact ih _ _

theorem allocate_freePages {bytes p : ℕ} (he : s.allocate bytes = .ok (some p,s')) :
    s'.freePages=s.freePages - UInt64.ofNat (2^orderOf bytes) := by
  rcases allocate_answer he with ⟨-,hr,-⟩ | ⟨i,block,t,block',-,-,hsplit,-,rfl⟩
  · cases hr
  · dsimp only
    rw [splitDown_freePages hsplit]
    rfl

theorem reserve2mbPage_freePages {r : Option Interval} (he : s.reserve2mbPage = .ok (r,s')) :
    s'.freePages=s.freePages := by
  simp only [reserve2mbPage] at he
  split_ifs at he
  split at he
  · cases he
    rfl
  · split at he
    · cases he
      rfl
    · split at he
      · cases he
      · split at he
        · cases he
        · cases he
          rfl

theorem checkIfFree_freePages {page : ℕ} {alloc free : Bool}
    (he : s.checkIfFree page alloc=(free,s')) :
    s'.freePages=s.freePages - (if free && alloc then 1 else 0) := by
  unfold checkIfFree at he
  cases hl : s.locate page with
  | none =>
    rw [hl] at he
    cases he
    simp
  | some ij =>
    obtain ⟨i,j⟩:=ij
    cases hget : (s.freeList i)[j]? with
    | none =>
      simp only [hl,hget] at he
      cases he
      simp
    | some block =>
      simp only [hl,hget] at he
      cases alloc with
      | false =>
        cases he
        simp
      | true =>
        simp only [↓reduceIte] at he
        cases he
        dsimp only
        rw [isolate_freePages]
        rfl

theorem free_freePages {b : Interval} {k : ℕ} (hb : b.Spans (2^k)) (he : s.free b.first b.last = .ok s') :
    s'.freePages=s.freePages+UInt64.ofNat (2^k) := by
  have hpos : 0<2^k := Nat.two_pow_pos k
  have hsize : b.last+1 - b.first=2^k := by
    unfold Interval.Spans at hb
    omega
  simp only [free,hsize,ceilLog2_two_pow,hpos.ne',↓reduceIte] at he
  split_ifs at he
  cases he
  rfl

theorem fragmentStep_freePages {upper : ℕ → ℕ} {g g' : gen.State} (hup : Draws upper)
    (he : fragmentStep gen upper s g=some (s',g')) : s'.freePages=s.freePages := by
  obtain ⟨i,j,temp,rest,-,-,-,-,-,-,rfl⟩:=fragmentStep_cases hup he
  rfl

theorem fragmentMemory_freePages {target : ℚ} {fuel : ℕ} (he : fragmentMemory gen s target fuel = .ok s') :
    s'.freePages=s.freePages := by
  rw [fragmentMemory] at he
  split_ifs at he
  refine fragmentLoop_invariant (P:=fun t => t.freePages=s.freePages) ?_ fuel rfl he
  intro t g u g' ht hstep
  rw [fragmentStep_freePages draws_below hstep,ht]

theorem fragmentMemoryToTargetCount_freePages {target : ℕ}
    (he : fragmentMemoryToTargetCount gen s target = .ok s') : s'.freePages=s.freePages := by
  refine targetLoop_invariant (P:=fun t => t.freePages=s.freePages) ?_ _ rfl he
  intro t g u g' ht hstep
  rw [fragmentStep_freePages draws_eight hstep,ht]

end Buddy

namespace Ledger

/-- The counter and the handed-out pages together, in the arithmetic of the counter. -/
def counted (o : Ledger) : UInt64 := o.buddy.freePages+UInt64.ofNat (cells o.handedOut).card

variable {o o' : Ledger}

theorem counted_handOut {b : Interval} {n : ℕ} (hb : b.Spans n) (hout : o'.handedOut=b::o.handedOut)
    (hfree : o'.buddy.freePages=o.buddy.freePages - UInt64.ofNat n) : o'.counted=o.counted := by
  have hcard : b.cells.card=n := by
    rw [hb.cells_eq,card_Ico]
    omega
  rw [counted,counted,hout,hfree,cells_cons,Multiset.card_add,hcard,UInt64.ofNat_add]
  grind

theorem counted_returned {b : Interval} {n : ℕ} (hb : b.Spans n) (hmem : b∈o.handedOut)
    (hout : o'.handedOut=o.handedOut.erase b) (hfree : o'.buddy.freePages=o.buddy.freePages+UInt64.ofNat n) :
    o'.counted=o.counted := by
  have hcard : b.cells.card=n := by
    rw [hb.cells_eq,card_Ico]
    omega
  have hperm := cells_perm (List.perm_cons_erase hmem)
  rw [counted,counted,hout,hfree,hperm,cells_cons,Multiset.card_add,hcard,UInt64.ofNat_add]
  grind

theorem step_counted {gen : Buddy.Generator} {lo hi : ℕ} {op : Op} (h : o.Sound lo hi)
    (hret : o.ReturnsHandedOut op) (hop : op ≠ .reserve2mbPage) (he : o.step gen op = .ok o') :
    o'.counted=o.counted := by
  cases op with
  | allocate bytes =>
    obtain ⟨⟨r,s⟩,ha,he⟩:=bind_ok he
    cases he
    rcases Buddy.allocate_cases h.wellFormed ha with ⟨p,rfl,-⟩ | ⟨rfl,rfl,-⟩
    · have hspan : (servedBlock bytes p).Spans (2^Buddy.orderOf bytes) := Interval.spans_mk (Nat.two_pow_pos _)
      exact counted_handOut hspan rfl (Buddy.allocate_freePages ha)
    · rfl
  | reserve2mbPage => exact absurd rfl hop
  | checkIfFree page alloc =>
    cases hc : o.buddy.checkIfFree page alloc with
    | mk free s =>
      simp only [step,hc] at he
      cases he
      have hfree := Buddy.checkIfFree_freePages hc
      split_ifs at hfree with htaken
      · simp only [htaken,↓reduceIte]
        exact counted_handOut (b:=⟨page,page⟩) (n:=1) rfl rfl hfree
      · simp only [htaken,counted,hfree,UInt64.sub_zero]
        rfl
  | fragmentMemory target fuel =>
    obtain ⟨s,hs,he⟩:=bind_ok he
    cases he
    rw [counted,counted,Buddy.fragmentMemory_freePages hs]
  | fragmentMemoryToTargetCount target =>
    obtain ⟨s,hs,he⟩:=bind_ok he
    cases he
    rw [counted,counted,Buddy.fragmentMemoryToTargetCount_freePages hs]
  | free block =>
    obtain ⟨s,hs,he⟩:=bind_ok he
    cases he
    obtain ⟨k,-,hspan⟩:=h.handed block hret
    exact counted_returned hspan hret rfl (Buddy.free_freePages hspan hs)

def ReservesNothing (o : Ledger) : Op → Prop
  | .reserve2mbPage => o.buddy.NoLarge
  | _ => True

theorem step_counted_of_reservesNothing {gen : Buddy.Generator} {lo hi : ℕ} {op : Op} (h : o.Sound lo hi)
    (hret : o.ReturnsHandedOut op) (hres : o.ReservesNothing op) (he : o.step gen op = .ok o') :
    o'.counted=o.counted := by
  by_cases hop : op = .reserve2mbPage
  · subst hop
    obtain ⟨⟨r,s⟩,ha,he⟩:=bind_ok he
    cases he
    rcases Buddy.reserve2mbPage_cases h.wellFormed ha with ⟨-,-,-,hlarge,-⟩ | ⟨rfl,rfl,-⟩
    · exact absurd hres hlarge
    · rfl
  · exact step_counted h hret hop he

end Ledger

/-- The counter is the number of pages in the free lists. -/
def Accounted (s : Buddy) : Prop := s.getFreePages.toNat=(s.allBlocks.map Interval.size).sum

theorem accounted_iff {s : Buddy} (h : s.WellFormed) : Accounted s ↔ s.freePages.toNat=s.freeCells.card := by
  rw [Accounted,← card_cells,Ledger.cells_allBlocks h]
  · rfl
  · intro b hb
    obtain ⟨k,hk⟩:=(mem_allBlocks h).mp hb
    have hspan := h.spans k b hk
    have hpos := Nat.two_pow_pos k
    unfold Interval.Spans at hspan
    omega

theorem accounted_of_counted {lo hi : ℕ} {o : Ledger} {total : UInt64} (h : o.Sound lo hi)
    (htotal : total.toNat=hi - lo) (hcount : o.counted=total) : Accounted o.buddy := by
  rw [accounted_iff h.wellFormed]
  have hcard := congrArg Multiset.card h.cells
  have hword := congrArg UInt64.toNat hcount
  have hlt := o.buddy.freePages.toNat_lt
  have hbound := total.toNat_lt
  simp only [Multiset.card_add,card_Ico] at hcard
  rw [Ledger.counted,UInt64.toNat_add,UInt64.toNat_ofNat',htotal] at hword
  omega

theorem pagesIn_le_of_accounted {memorySize kernelSize : Int32} {maxOrder : ℕ} {fragType : String} {s : Buddy}
    (hnew : Buddy.new memorySize maxOrder kernelSize fragType = .ok s) (h : Accounted s) :
    Buddy.pagesIn kernelSize≤Buddy.pagesIn memorySize := by
  obtain ⟨-,hwf,hcells⟩:=Buddy.new_ok hnew
  rw [accounted_iff hwf,hcells,card_Ico,Buddy.new_freePages hnew,UInt64.toNat_sub] at h
  have hm := (Buddy.wordPages memorySize).toNat_lt
  have hk := (Buddy.wordPages kernelSize).toNat_lt
  unfold Buddy.pagesIn at *
  omega

theorem Ledger.step_undefined {gen : Buddy.Generator} {o : Ledger} {op : Op} (hadm : o.Admissible op)
    (h : ¬ o.Defined op) : ∃e,o.step gen op = .error e ∧ ¬ e = .unfinished := by
  cases op with
  | allocate bytes => exact ⟨_,step_outOfRange hadm h,by decide⟩
  | reserve2mbPage =>
    refine ⟨.outOfBounds,?_,by decide⟩
    rw [step,Buddy.reserve2mbPage,if_pos (Nat.le_of_not_lt h),error_bind]
  | fragmentMemory target fuel =>
    refine ⟨.shiftTooWide,?_,by decide⟩
    rw [step,Buddy.fragmentMemory,if_pos (not_not.mp h),error_bind]
  | _ => exact absurd trivial h

theorem not_accounted_of_reserved {gen : Buddy.Generator} {lo hi : ℕ} {o : Ledger} {op : Op}
    (h : o.Sound lo hi) (hacc : Accounted o.buddy) (hres : ¬ o.ReservesNothing op) :
    ∃o',o.step gen op = .ok o' ∧ ¬ Accounted o'.buddy := by
  cases op with
  | reserve2mbPage =>
    have hmax := Ledger.large_le_maxOrder h.wellFormed hres
    obtain ⟨⟨r,s⟩,hr⟩ := Buddy.reserve2mbPage_ok h.wellFormed
      (by rw [Buddy.largeOrder,Buddy.listCount]; omega)
    rcases Buddy.reserve2mbPage_cases h.wellFormed hr with ⟨b,rfl,-,-,ht⟩ | ⟨-,-,hnone⟩
    · refine ⟨⟨s,b::o.handedOut⟩,by simp [Ledger.step,hr],?_⟩
      have hcard := congrArg Multiset.card ht.cells
      simp only [Multiset.card_add,card_Ico,Nat.add_sub_cancel_left] at hcard
      rw [accounted_iff h.wellFormed] at hacc
      rw [accounted_iff ht.wellFormed,Buddy.reserve2mbPage_freePages hr]
      omega
    · exact absurd hnone hres
  | _ => exact absurd trivial hres

/-- Along every run of admissible calls the counter agrees with the free lists exactly when the
memory holds the kernel and no 2MB page is reserved. The run only stops inside a loop that need
not end exactly when every call is defined. -/
theorem accounting_iff (gen : Buddy.Generator) {memorySize kernelSize : Int32} {maxOrder : ℕ}
    {fragType : String} {s : Buddy} {ops : List Op}
    (hnew : Buddy.new memorySize maxOrder kernelSize fragType = .ok s)
    (hadm : Along (Ledger.step gen) Ledger.Admissible ⟨s,[]⟩ ops) :
    ((∀pre,pre <+: ops → ∀o,run (Ledger.step gen) ⟨s,[]⟩ pre = .ok o → Accounted o.buddy) ↔
      Buddy.pagesIn kernelSize≤Buddy.pagesIn memorySize ∧
        Along (Ledger.step gen) Ledger.ReservesNothing ⟨s,[]⟩ ops) ∧
    ((∀e,run (Ledger.step gen) ⟨s,[]⟩ ops = .error e → e = .unfinished) ↔
      Along (Ledger.step gen) Ledger.Defined ⟨s,[]⟩ ops) := by
  have hstart := sound_new hnew
  have hret := hadm.mono fun o op hG => Ledger.Admissible.returnsHandedOut hG
  refine ⟨⟨?_,?_⟩,fun hends => along_of_run (fun _ _ => Ledger.step_undefined) hadm hends,
    fun hdef e he => ?_⟩
  · intro hacc
    refine ⟨pagesIn_le_of_accounted hnew (hacc [] List.nil_prefix _ rfl),?_⟩
    exact along_of_reached
      (I:=Ledger.Sound (Buddy.pagesIn kernelSize) (Buddy.pagesIn memorySize))
      (fun o op hs hP hG => not_accounted_of_reserved hs hP hG)
      (fun o op o' hs hG he => (Ledger.step_sound hs hG he).2) hstart hret hacc
  · rintro ⟨hle,hres⟩ pre ⟨post,rfl⟩ o hrun
    have htotal : (Buddy.wordPages memorySize - Buddy.wordPages kernelSize).toNat =
        Buddy.pagesIn memorySize - Buddy.pagesIn kernelSize :=
      UInt64.toNat_sub_of_le _ _ (UInt64.le_iff_toNat_le.mpr hle)
    have hcounted : Ledger.counted ⟨s,[]⟩ =
        Buddy.wordPages memorySize - Buddy.wordPages kernelSize := by
      simp [Ledger.counted,Buddy.new_freePages hnew]
    obtain ⟨hsound,hcount⟩:=run_invariant
      (I:=fun o => o.Sound (Buddy.pagesIn kernelSize) (Buddy.pagesIn memorySize) ∧
        o.counted=Buddy.wordPages memorySize - Buddy.wordPages kernelSize)
      (fun o op o' hI hG he => ⟨(Ledger.step_sound hI.1 hG.1 he).2,
        (Ledger.step_counted_of_reservesNothing hI.1 hG.1 hG.2 he).trans hI.2⟩)
      ⟨hstart,hcounted⟩ (hret.and hres).left hrun
    exact accounted_of_counted hsound htotal hcount
  · exact run_error (fun o op o' hs hG he => (Ledger.step_sound hs hG.1.returnsHandedOut he).2)
      (fun o op e hs hG he => Ledger.step_error hs hG.1 hG.2 he) hstart (hadm.and hdef) he

/-- A request, a fragmentation and a single page: 765 pages are left. -/
theorem accounting_of_mixed_run : ∃s,Buddy.new 4 9 1 "largepage" = .ok s ∧
    ∃o,run (Ledger.step lowGenerator) ⟨s,[]⟩
      [.allocate 8192,.fragmentMemoryToTargetCount 0,.checkIfFree 300 true] = .ok o ∧
    o.buddy.getFreePages=765 ∧ Accounted o.buddy := by
  refine exists_ok_ok_and (P:=fun _ _ => True) (by decide +kernel) fun s o hs ho _ => ?_
  refine (accounting_iff lowGenerator hs ?_).1.mpr ⟨by decide,?_⟩ _ (List.prefix_refl _) o ho
  · exact ⟨show 4096≤8192 by decide,fun _ _ => ⟨trivial,fun _ _ => ⟨trivial,fun _ _ => trivial⟩⟩⟩
  · exact ⟨trivial,fun _ _ => ⟨trivial,fun _ _ => ⟨trivial,fun _ _ => trivial⟩⟩⟩

/-- One reservation after construction: 256 pages are free and the counter says 768. -/
theorem accounting_fails_after_reservation : ∃s,Buddy.new 4 9 1 "largepage" = .ok s ∧
    ∃o,run (Ledger.step lowGenerator) ⟨s,[]⟩ [.reserve2mbPage] = .ok o ∧ ¬ Accounted o.buddy := by
  refine exists_ok_ok (P:=fun _ o => o.buddy.getFreePages.toNat=768 ∧
    (o.buddy.allBlocks.map Interval.size).sum=256) (by decide +kernel) fun _ _ _ _ h => ?_
  rw [Accounted,h.1,h.2]
  decide

end Sniper.BuddyAllocator
