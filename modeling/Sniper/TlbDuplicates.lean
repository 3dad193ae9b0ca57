import Sniper.TlbShootdown

/-!
# One entry for each page

An entry that a level drops is pushed to the next one without a lookup.
-/

namespace Sniper.PageFaults
open FallibleRuns PhysicalMemory SetAssociativeStores List

variable {σ ι : Type}

def TlbEntry.page (e : TlbEntry ι) : ℕ × ℕ := (e.tag,e.pageSize)

namespace Tlb

/-- No set has two entries with one tag and page size. -/
def Distinct (t : Tlb ι) : Prop := ∀i v w e e',t.sets i v=some e → t.sets i w=some e' → e.page=e'.page → v=w

/-- The TLB has no entry for the page. -/
def Free (t : Tlb ι) (page : ℕ × ℕ) : Prop := ∀i w e,t.sets i w=some e → e.page≠page

def pushed (instruction : Bool) (carried : List (EvictedTranslation ι)) (t : Tlb ι) :
    List (EvictedTranslation ι) :=
  if t.type.serves instruction && !t.prefetch then
    carried.filter fun tr => t.supportsPageSize tr.pageSize
  else []

/-- The TLB is not given one page twice, and has no entry yet for a page that is pushed to it. -/
def takesFresh (instruction : Bool) (current : EvictedTranslation ι) (hitLevel : Option ℕ) (i : ℕ)
    (carried : List (EvictedTranslation ι)) (t : Tlb ι) : Bool :=
  decide ((wanted instruction current hitLevel i carried t).map fun tr => tr.entry.page).Nodup &&
    (t.pushed instruction carried).all fun tr => (t.findTLB tr.entry.tag tr.pageSize).isNone

end Tlb

def freshLevels (choose : ℕ → ℕ) (instruction : Bool) (current : EvictedTranslation ι) (hitLevel : Option ℕ) :
    List (List (Tlb ι)) → ℕ → List (EvictedTranslation ι) → ℕ → Bool
  | [],_,_,_ => true
  | tlbs::rest,i,carried,k =>
    tlbs.all (Tlb.takesFresh instruction current hitLevel i carried) &&
      match allocateLevel choose (wanted instruction current hitLevel i carried) tlbs k with
      | .ok (dropped,k,_) => freshLevels choose instruction current hitLevel rest (i+1) dropped k
      | .error _ => true

namespace Mmu

def NoDuplicates (m : Mmu σ ι) : Prop := ∀level∈m.tlbs,∀t∈level,t.Distinct

/-- What a level drops in the call is new to the TLBs that take it. -/
def pushesFresh [DecidableEq ι] (A : AllocatorInterface σ) (rounds : ℕ) (m : Mmu σ ι)
    (call : TranslationCall ι) : Bool :=
  match m.translation A rounds call with
  | .ok (current,_) => freshLevels call.choose call.instruction current
      ((m.lookup call).map Prod.fst) m.tlbs 0 [] 0
  | .error _ => true

end Mmu

namespace Tlb

variable {t t' : Tlb ι} {tr : EvictedTranslation ι} {trs dropped : List (EvictedTranslation ι)}

theorem allocate_fresh {way : ℕ} {dropped : Option (EvictedTranslation ι)} (hp : t.Placed) (hd : t.Distinct)
    (hsize : tr.pageSize∈t.pageSizeList) (hfree : t.Free tr.entry.page)
    (h : t.allocate tr way = .ok (dropped,t')) : t'.Placed ∧ t'.Distinct ∧ t'.pageSizeList=t.pageSizeList ∧
      ∀page,t.Free page → tr.entry.page≠page → t'.Free page := by
  have hp' := hp.allocate hsize h
  rw [allocate] at h
  split_ifs at h with hpre hway
  · cases h
    exact ⟨hp,hd,rfl,fun _ hpage _ => hpage⟩
  · cases h
    refine ⟨hp',fun i v w e e' he he' hpage => ?_,rfl,fun page hpage hne i w e he => ?_⟩
    · rcases place_cases he with ⟨rfl,rfl,rfl⟩ | ⟨-,hold⟩ <;>
        rcases place_cases he' with ⟨-,rfl,rfl⟩ | ⟨-,hold'⟩
      · rfl
      · exact absurd hpage.symm (hfree _ w e' hold')
      · exact absurd hpage (hfree _ v e hold)
      · exact hd i v w e e' hold hold' hpage
    · rcases place_cases he with ⟨-,-,rfl⟩ | ⟨-,hold⟩
      · exact hne
      · exact hpage i w e hold

theorem allocateAll_fresh {choose : ℕ → ℕ} {k k' : ℕ} (hp : t.Placed) (hd : t.Distinct)
    (hsize : ∀tr∈trs,tr.pageSize∈t.pageSizeList) (hnodup : (trs.map fun tr => tr.entry.page).Nodup)
    (hfree : ∀tr∈trs,t.Free tr.entry.page) (h : t.allocateAll choose trs k = .ok (dropped,k',t')) :
    t'.Placed ∧ t'.Distinct := by
  induction trs generalizing k dropped t with
  | nil =>
    cases h
    exact ⟨hp,hd⟩
  | cons tr trs ih =>
    obtain ⟨⟨dropped₁,t₁⟩,h₁,h⟩:=bind_ok h
    obtain ⟨⟨more,k₂,t₂⟩,h₂,h⟩:=bind_ok h
    cases h
    rw [forall_mem_cons] at hsize hfree
    rw [map_cons,nodup_cons] at hnodup
    obtain ⟨hp₁,hd₁,hsizes,hfree₁⟩:=allocate_fresh hp hd hsize.1 hfree.1 h₁
    refine ih hp₁ hd₁ (hsizes ▸ hsize.2) hnodup.2 (fun tr' htr' => ?_) h₂
    refine hfree₁ _ (hfree.2 tr' htr') fun heq => hnodup.1 ?_
    rw [heq]
    exact mem_map_of_mem htr'

theorem Placed.free_of_findTLB (h : t.Placed) {page : ℕ × ℕ} (hnone : t.findTLB page.1 page.2=none) :
    t.Free page := by
  rintro i w e he rfl
  exact (h.findTLB_eq_none _ _).mp hnone i w e he ⟨rfl,rfl⟩

theorem Placed.free_of_lookup (h : t.Placed) {tr : EvictedTranslation ι} (hmiss : t.lookup tr.address=none) :
    t.Free tr.entry.page := by
  intro i w e he hpage
  obtain ⟨htag,hsize⟩:=Prod.mk.inj hpage
  refine h.lookup_eq_none.mp hmiss i w e he ?_
  rw [TlbEntry.Covers,htag,hsize]
  rfl

end Tlb

section Levels

variable {instruction : Bool} {address : ℕ} {current : EvictedTranslation ι} {hitLevel : Option ℕ}
  {i k k' : ℕ} {carried dropped : List (EvictedTranslation ι)} {choose : ℕ → ℕ}

theorem lookupLevel_none {tlbs : List (Tlb ι)} (h : lookupLevel instruction address tlbs=none) :
    ∀t∈tlbs,t.type.serves instruction=true → t.lookup address=none := by
  have hfold : ∀hit : Option (TlbEntry ι),tlbs.foldl (fun hit t =>
      if t.type.serves instruction then (t.lookup address).or hit else hit) hit=none →
      hit=none ∧ ∀t∈tlbs,t.type.serves instruction=true → t.lookup address=none := by
    clear h
    induction tlbs with
    | nil => exact fun hit hnone => ⟨hnone,fun t ht => absurd ht not_mem_nil⟩
    | cons t tlbs ih =>
      intro hit hnone
      obtain ⟨hfirst,hrest⟩:=ih _ hnone
      rw [forall_mem_cons]
      dsimp only at hfirst
      split_ifs at hfirst with hserves
      · rw [Option.or_eq_none_iff] at hfirst
        exact ⟨hfirst.2,fun _ => hfirst.1,hrest⟩
      · exact ⟨hfirst,fun hyes => absurd hyes hserves,hrest⟩
  exact (hfold none h).2

theorem lookupLevels_missed {tlbs : List (List (Tlb ι))} {j : ℕ} {level : List (Tlb ι)}
    (hlevel : tlbs[j]?=some level)
    (h : ((lookupLevels instruction address tlbs).map Prod.fst).all (fun l => j<l)=true) :
    lookupLevel instruction address level=none := by
  induction tlbs generalizing j with
  | nil => cases hlevel
  | cons tlbs rest ih =>
    rw [lookupLevels] at h
    cases hfirst : lookupLevel instruction address tlbs with
    | some e => simp [hfirst] at h
    | none =>
      cases j with
      | zero =>
        cases hlevel
        exact hfirst
      | succ j =>
        refine ih hlevel ?_
        rw [hfirst] at h
        cases hrest : lookupLevels instruction address rest with
        | none => rfl
        | some hit => simpa [hrest] using h

theorem wanted_fresh {t : Tlb ι} (hp : t.Placed)
    (hmiss : hitLevel.all (fun l => i<l)=true → t.type.serves instruction=true →
      t.lookup current.address=none) (hfresh : t.takesFresh instruction current hitLevel i carried=true) :
    ∀tr∈wanted instruction current hitLevel i carried t,tr.pageSize∈t.pageSizeList ∧ t.Free tr.entry.page := by
  rw [Tlb.takesFresh,Bool.and_eq_true,all_eq_true,Tlb.pushed] at hfresh
  intro tr htr
  rw [wanted] at htr
  by_cases hserves : (t.type.serves instruction && !t.prefetch)=true
  · rw [if_pos hserves] at htr hfresh
    rcases mem_append.mp htr with hpush | hdemand
    · refine ⟨contains_iff_mem.mp (mem_filter.mp hpush).2,hp.free_of_findTLB ?_⟩
      exact Option.isNone_iff_eq_none.mp (hfresh.2 tr hpush)
    · split_ifs at hdemand with hallocate
      · rw [mem_singleton.mp hdemand]
        rw [Bool.and_eq_true] at hserves
        rw [Bool.and_eq_true,Bool.and_eq_true] at hallocate
        exact ⟨contains_iff_mem.mp hallocate.1.1,hp.free_of_lookup (hmiss hallocate.2 hserves.1)⟩
      · cases hdemand
  · rw [if_neg hserves] at htr
    cases htr

theorem allocateLevel_fresh {wants : Tlb ι → List (EvictedTranslation ι)} {tlbs tlbs' : List (Tlb ι)}
    (ht : ∀t∈tlbs,t.Placed ∧ t.Distinct ∧ ((wants t).map fun tr => tr.entry.page).Nodup ∧
      ∀tr∈wants t,tr.pageSize∈t.pageSizeList ∧ t.Free tr.entry.page)
    (h : allocateLevel choose wants tlbs k = .ok (dropped,k',tlbs')) : ∀t∈tlbs',t.Placed ∧ t.Distinct := by
  induction tlbs generalizing k dropped tlbs' with
  | nil =>
    cases h
    exact fun t ht => absurd ht not_mem_nil
  | cons t tlbs ih =>
    obtain ⟨⟨dropped₁,k₁,t₁⟩,h₁,h⟩:=bind_ok h
    obtain ⟨⟨more,k₂,tlbs₂⟩,h₂,h⟩:=bind_ok h
    cases h
    rw [forall_mem_cons] at ht ⊢
    obtain ⟨⟨hp,hd,hnodup,hwants⟩,hrest⟩:=ht
    exact ⟨Tlb.allocateAll_fresh hp hd (fun tr htr => (hwants tr htr).1) hnodup
      (fun tr htr => (hwants tr htr).2) h₁,ih hrest h₂⟩

theorem allocateLevels_fresh {tlbs tlbs' : List (List (Tlb ι))}
    (ht : ∀level∈tlbs,∀t∈level,t.Placed ∧ t.Distinct)
    (hmiss : ∀j level,tlbs[j]?=some level → hitLevel.all (fun l => i+j<l)=true →
      lookupLevel instruction current.address level=none)
    (hfresh : freshLevels choose instruction current hitLevel tlbs i carried k=true)
    (h : allocateLevels choose instruction current hitLevel tlbs i carried k = .ok tlbs') :
    ∀level∈tlbs',∀t∈level,t.Placed ∧ t.Distinct := by
  induction tlbs generalizing i carried k tlbs' with
  | nil =>
    cases h
    exact ht
  | cons level rest ih =>
    obtain ⟨⟨dropped,k₁,level₁⟩,h₁,h⟩:=bind_ok h
    obtain ⟨rest₁,h₂,h⟩:=bind_ok h
    cases h
    rw [freshLevels,h₁,Bool.and_eq_true,all_eq_true] at hfresh
    rw [forall_mem_cons] at ht ⊢
    constructor
    · refine allocateLevel_fresh (fun t hmem => ?_) h₁
      have htake := hfresh.1 t hmem
      refine ⟨(ht.1 t hmem).1,(ht.1 t hmem).2,?_,wanted_fresh (ht.1 t hmem).1 ?_ htake⟩
      · rw [Tlb.takesFresh,Bool.and_eq_true,decide_eq_true_eq] at htake
        exact htake.1
      · exact fun hbefore => lookupLevel_none (hmiss 0 level rfl hbefore) t hmem
    · refine ih ht.2 (fun j level' hlevel hbefore => hmiss (j+1) level' hlevel ?_) hfresh.2 h₂
      rwa [← Nat.add_assoc,Nat.add_right_comm]

end Levels

namespace Mmu

variable [DecidableEq ι] {A : AllocatorInterface σ} {rounds pa : ℕ} {m m' : Mmu σ ι}
  {call : TranslationCall ι}

def Tidy (m : Mmu σ ι) : Prop := ∀level∈m.tlbs,∀t∈level,t.Placed ∧ t.Distinct

theorem Tidy.step (h : m.Tidy) (hfresh : m.pushesFresh A rounds call=true)
    (he : m.performAddressTranslation A rounds call = .ok (pa,m')) : m'.Tidy := by
  obtain ⟨⟨current,apps⟩,hcurrent,he⟩:=bind_ok he
  obtain ⟨tlbs,htlbs,he⟩:=bind_ok he
  cases he
  rw [pushesFresh,hcurrent] at hfresh
  refine allocateLevels_fresh h (fun j level hlevel hbefore => ?_) hfresh htlbs
  rw [Nat.zero_add] at hbefore
  have haddress : current.address=call.address := by
    rw [translation] at hcurrent
    cases hit : m.lookup call with
    | some found =>
      rw [hit] at hcurrent
      cases hcurrent
      rfl
    | none =>
      rw [hit] at hcurrent
      obtain ⟨⟨r,apps₁⟩,-,hcurrent⟩:=bind_ok hcurrent
      cases hcurrent
      rfl
  rw [haddress]
  exact lookupLevels_missed hlevel hbefore

/-- In every run in which the levels push only entries that are new to the next one, no set of a
TLB holds two entries for one page. -/
theorem tlb_no_duplicates (A : AllocatorInterface σ) (rounds : ℕ) {m m' : Mmu σ ι}
    (hempty : AllHold (fun _ => False) m.tlbs) {calls : List (TranslationCall ι)}
    (h : Along (step A rounds) (fun m call => m.pushesFresh A rounds call=true) m calls)
    (hrun : run (step A rounds) m calls = .ok m') : m'.NoDuplicates := by
  have hstart : m.Tidy := fun level hlevel t ht =>
    ⟨Tlb.Placed.of_empty (hempty level hlevel t ht),
      fun i v w e e' he => (hempty level hlevel t ht i v e he).elim⟩
  have hend : m'.Tidy := run_invariant (fun m call m' hm hfresh hs => by
    obtain ⟨⟨pa,m₁⟩,he,hs⟩:=bind_ok hs
    cases hs
    exact hm.step hfresh he) hstart h hrun
  exact fun level hlevel t ht => (hend level hlevel t ht).2

def twoLevels (s : σ) (allocateOnMiss : Bool) : Mmu σ Unit :=
  ⟨.new s (fun _ => 512) fun _ => [12,21],
    [[oneEntryTlb Unit],[{oneEntryTlb Unit with associativity:=3,allocateOnMiss}]]⟩

def pageCall (page : ℕ) (choose : ℕ → ℕ) : TranslationCall Unit := ⟨(),page*4096,false,choose,[]⟩

/-- A second level that is filled by the first one only. -/
theorem tlb_no_duplicates_of_three : ∃s,BaselineAllocator.new 4 9 1 "largepage" = .ok s ∧
    ∃m,run (step BaselineAllocator.interface 2) (twoLevels s false)
      [pageCall 0 fun _ => 0,pageCall 1 fun _ => 0,pageCall 2 id] = .ok m ∧ m.NoDuplicates := by
  refine exists_ok_ok (P:=fun s _ => Along (step BaselineAllocator.interface 2)
    (fun m call => m.pushesFresh BaselineAllocator.interface 2 call=true) (twoLevels s false)
    [pageCall 0 fun _ => 0,pageCall 1 fun _ => 0,pageCall 2 id]) (by decide +kernel)
    fun s m _ hm hfresh => tlb_no_duplicates _ 2 (fun level hlevel t ht i w e he => ?_) hfresh hm
  simp only [twoLevels,mem_cons,not_mem_nil,or_false] at hlevel
  rcases hlevel with rfl | rfl <;> rw [mem_singleton.mp ht] at he <;> cases he

/-- The first miss fills both levels; the second one drops the page from the first level and pushes
it to the second, which has it. -/
theorem tlb_duplicates : ∃s,BaselineAllocator.new 4 9 1 "largepage" = .ok s ∧
    ∃m,run (step BaselineAllocator.interface 2) (twoLevels s true)
      [pageCall 0 fun _ => 0,pageCall 1 id] = .ok m ∧ ¬ m.NoDuplicates := by
  refine exists_ok_ok (P:=fun _ m => ∃level∈m.tlbs,∃t∈level,(∃e,t.sets 0 0=some e ∧ e.page=(0,12)) ∧
    ∃e,t.sets 0 1=some e ∧ e.page=(0,12)) (by decide +kernel) ?_
  rintro s m - - ⟨level,hlevel,t,ht,⟨e,he,hpage⟩,e',he',hpage'⟩ h
  exact Nat.zero_ne_one (h level hlevel t ht 0 0 1 e e' he he' (hpage.trans hpage'.symm))

end Mmu

end Sniper.PageFaults
