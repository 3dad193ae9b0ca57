import Sniper.ReservationAllocator
import Sniper.BuddyOperations

/-! # What one call of the reservation allocator can do -/

namespace Sniper.PhysicalMemory
open BuddyAllocator FallibleRuns IntervalTilings Buddy List

def Region.cells (r : Region) : Multiset ℕ := Multiset.Ico r.regionBegin (r.regionBegin+512)

/-- What `allocate` returns for a page of a region that has just been touched. -/
def Region.grant (offset : Fin 512) (r : Region) : Allocation :=
  if r.promoted then ⟨some r.regionBegin,21⟩ else ⟨some (r.regionBegin+offset),12⟩

@[simp] theorem Region.touch_cells (t : ℚ) (offset : Fin 512) (r : Region) :
    (r.touch t offset).cells=r.cells := rfl

variable {r : Region} {k : ℕ} {m : AList (fun _ : ℕ => Region)}

theorem Region.mem_cells {p : ℕ} : p∈r.cells ↔ r.regionBegin≤p ∧ p < r.regionBegin+512 := Multiset.mem_Ico

/-- The pages of all reserved blocks, with multiplicity. -/
def reservedCells (m : AList (fun _ : ℕ => Region)) : Multiset ℕ := (m.entries.map fun e => e.2.cells).sum

@[simp] theorem reservedCells_empty : reservedCells ∅ = 0 := rfl

theorem reservedCells_insert (m : AList (fun _ : ℕ => Region)) (k : ℕ) (r : Region) :
    reservedCells (m.insert k r)=r.cells+reservedCells (m.erase k) := by
  simp [reservedCells,AList.entries_insert,AList.erase]

theorem reservedCells_of_lookup (h : m.lookup k=some r) :
    reservedCells m=r.cells+reservedCells (m.erase k) := by
  have hmem : (⟨k,r⟩ : Sigma fun _ : ℕ => Region)∈m.entries := AList.mem_lookup_iff.mp h
  obtain ⟨r',front,back,-,hentries,herase⟩:=exists_of_kerase (mem_keys_of_mem hmem)
  have hr : r'=r := by
    have hlook : r'∈m.lookup k := by
      rw [AList.mem_lookup_iff,hentries]
      simp
    exact Option.some.inj (hlook.symm.trans h)
  simp only [reservedCells,AList.erase,herase]
  rw [hentries,hr]
  simp [add_left_comm]

theorem reservedCells_erase_of_lookup_none (h : m.lookup k=none) :
    reservedCells (m.erase k)=reservedCells m := by
  have hkeys : k∉m.entries.keys := AList.lookup_eq_none.mp h
  simp only [reservedCells,AList.erase,kerase_of_notMem_keys hkeys]

theorem cells_le_reservedCells (h : m.lookup k=some r) : r.cells ≤ reservedCells m := by
  rw [reservedCells_of_lookup h]
  exact Multiset.le_add_right _ _

/-- The pages that `demote_page` returns for a region: two for each page not in use. -/
def Region.freedCells (r : Region) : Multiset ℕ :=
  ∑ j : Fin 512,if j∈r.bits then 0
    else Interval.cells ⟨r.regionBegin+j,r.regionBegin+(j+1)⟩

/-- The pages of a region that are not in use, each once. -/
def Region.clearCells (r : Region) : Multiset ℕ := ∑ j : Fin 512,if j∈r.bits then 0 else {r.regionBegin+j.val}

theorem Region.freedCells_of_full (h : r.bits=Finset.univ) : r.freedCells=0 :=
  Finset.sum_eq_zero fun j _ => if_pos (h ▸ Finset.mem_univ j)

theorem Region.clearCells_eq_zero_iff : r.clearCells=0 ↔ r.bits=Finset.univ := by
  rw [← Multiset.card_eq_zero,Region.clearCells,Multiset.card_sum,Finset.sum_eq_zero_iff,
    Finset.eq_univ_iff_forall]
  refine forall_congr' fun j => ?_
  by_cases hj : j∈r.bits <;> simp [hj]

theorem Region.card_freedCells (r : Region) : r.freedCells.card=2*r.clearCells.card := by
  simp only [Region.freedCells,Region.clearCells,Multiset.card_sum,Finset.mul_sum]
  refine Finset.sum_congr rfl fun j _ => ?_
  split_ifs
  · rfl
  · simp only [Interval.cells,Multiset.Ico,Finset.card_val,Nat.card_Ico,Multiset.card_singleton]
    omega

attribute [irreducible] Region.freedCells

theorem Region.le_of_mem_freedCells {p : ℕ} (h : p∈r.freedCells) : p ≤ r.regionBegin+512 := by
  rw [Region.freedCells,Multiset.mem_sum] at h
  obtain ⟨j,-,hj⟩:=h
  split_ifs at hj
  · exact (Multiset.notMem_zero p hj).elim
  · have hlast := (Multiset.mem_Ico.mp hj).2
    have hj := j.isLt
    dsimp only at hlast
    omega

theorem Region.freedCells_eq_clearCells_iff : r.freedCells=r.clearCells ↔ r.bits=Finset.univ := by
  constructor
  · intro h
    have hcard := r.card_freedCells
    rw [h] at hcard
    exact clearCells_eq_zero_iff.mp (Multiset.card_eq_zero.mp (by omega))
  · intro h
    rw [freedCells_of_full h,clearCells_eq_zero_iff.mpr h]

namespace ReservationThpAllocator

/-- Every region that could be demoted has all its pages in use. -/
def AllFull (s : ReservationThpAllocator) : Prop :=
  ∀r region,s.twoMbMap.lookup r=some region → region.promoted=false →
    region.bits=Finset.univ

variable {s s' : ReservationThpAllocator} {order : UtilizationSort} {region : Region}

theorem mem_utilization {u : ℕ × ℚ} : u∈s.utilization ↔ ∃region,s.twoMbMap.lookup u.1=some region ∧
      region.promoted=false ∧ u.2=(region.bits.card : ℚ) / 512 := by
  simp only [utilization,mem_map,mem_filter]
  constructor
  · rintro ⟨⟨k,region⟩,⟨hmem,hprom⟩,rfl⟩
    exact ⟨region,AList.mem_lookup_iff.mpr hmem,by simpa using hprom,rfl⟩
  · rintro ⟨region,hlook,hprom,hu⟩
    exact ⟨⟨u.1,region⟩,⟨AList.mem_lookup_iff.mp hlook,by simpa using hprom⟩,Prod.ext rfl hu.symm⟩

theorem victim_some {r : ℕ} (h : s.victim order=some (r,region)) :
    s.twoMbMap.lookup r=some region ∧ region.promoted=false ∧
      ∀r' region',s.twoMbMap.lookup r'=some region' → region'.promoted=false →
        region.bits.card ≤ region'.bits.card := by
  obtain ⟨u,hu,hr⟩:=Option.bind_eq_some_iff.mp h
  obtain ⟨region₀,hlook,heq⟩:=Option.map_eq_some_iff.mp hr
  cases heq
  obtain ⟨l,hl⟩:=List.head?_eq_some_iff.mp hu
  have hmem : u∈s.utilization := (order.perm _).mem_iff.mp (hl ▸ mem_cons_self)
  obtain ⟨region₁,hlook₁,hprom,hfrac⟩:=mem_utilization.mp hmem
  cases hlook.symm.trans hlook₁
  refine ⟨hlook,hprom,?_⟩
  intro r' region' hlook' hprom'
  have hmem' : (r',(region'.bits.card : ℚ) / 512)∈order.sort s.utilization :=
    (order.perm _).mem_iff.mpr (mem_utilization.mpr ⟨region',hlook',hprom',rfl⟩)
  have hsorted := order.sorted s.utilization
  rw [hl] at hmem' hsorted
  rcases mem_cons.mp hmem' with heq | htail
  · have hsame := congrArg Prod.snd heq
    rw [hfrac] at hsame
    have hcard : (region'.bits.card : ℚ)=region.bits.card := by linarith
    exact le_of_eq (Nat.cast_injective hcard).symm
  · have hle := (pairwise_cons.mp hsorted).1 _ htail
    rw [hfrac] at hle
    have hcard : (region.bits.card : ℚ) ≤ region'.bits.card := by linarith
    exact Nat.cast_le.mp hcard

theorem victim_none (h : s.victim order=none) :
    ∀r region,s.twoMbMap.lookup r=some region → region.promoted=true := by
  intro r region hlook
  by_contra hprom
  have hmem : (r,(region.bits.card : ℚ) / 512)∈order.sort s.utilization :=
    (order.perm _).mem_iff.mpr
      (mem_utilization.mpr ⟨region,hlook,by simpa using hprom,rfl⟩)
  cases hl : order.sort s.utilization with
  | nil =>
    rw [hl] at hmem
    cases hmem
  | cons u l =>
    have hu : u∈s.utilization := (order.perm _).mem_iff.mp (hl ▸ mem_cons_self)
    obtain ⟨region',hlook',-⟩:=mem_utilization.mp hu
    simp [victim,hl,hlook'] at h

theorem allFull_iff_victim {r : ℕ} (h : s.victim order=some (r,region)) :
    s.AllFull ↔ region.bits=Finset.univ := by
  obtain ⟨hlook,hprom,hmin⟩:=victim_some h
  constructor
  · intro hall
    exact hall r region hlook hprom
  · intro hfull r' region' hlook' hprom'
    have hle := hmin r' region' hlook' hprom'
    rw [hfull,Finset.card_univ] at hle
    exact (Finset.card_eq_iff_eq_univ _).mp (le_antisymm (Finset.card_le_univ _) hle)

theorem freeUnused_spec (region : Region) {b : Buddy} (h : b.WellFormed) (hmax : 1≤b.maxOrder) :
    ∃b',freeUnused region b = .ok b' ∧ b'.maxOrder=b.maxOrder ∧ b'.WellFormed ∧
      b'.freeCells=b.freeCells+region.freedCells ∧ (b.NoLarge → b'.NoLarge) := by
  rw [freeUnused,Region.freedCells,Fin.sum_univ_def]
  induction List.finRange 512 generalizing b with
  | nil => exact ⟨b,rfl,rfl,h,by simp,id⟩
  | cons j l ih =>
    by_cases hj : j∈region.bits
    · simp only [foldlM_cons,hj,↓reduceIte,ok_bind,map_cons,sum_cons,zero_add]
      exact ih h hmax
    · have hspan : Interval.Spans ⟨region.regionBegin+j,region.regionBegin+(j+1)⟩ (2^1) :=
        Nat.add_assoc _ (j.val+1) 1
      obtain ⟨b₁,hfree,hmax₁,hwf₁,hcells₁,hlarge₁⟩:=free_spec h hspan hmax
      obtain ⟨b₂,hfold,hmax₂,hwf₂,hcells₂,hlarge₂⟩:=ih hwf₁ (hmax₁.symm ▸ hmax)
      refine ⟨b₂,?_,hmax₂.trans hmax₁,hwf₂,?_,fun hs => hlarge₂ (hlarge₁ (by decide) hs)⟩
      · simp only [foldlM_cons,hj,↓reduceIte,hfree,ok_bind]
        exact hfold
      · rw [hcells₂,hcells₁,map_cons,sum_cons,if_neg hj,add_assoc]

theorem freeUnused_of_full (h : region.bits=Finset.univ) (b : Buddy) : freeUnused region b = .ok b := by
  simp only [freeUnused,h,Finset.mem_univ,↓reduceIte]
  induction List.finRange 512 with
  | nil => rfl
  | cons j l ih => exact ih

/-- The region was reserved before, or a free 2MB block is reserved for it now. -/
def Obtains (s : ReservationThpAllocator) (r : ℕ) (old : Region) (b : Buddy) : Prop :=
  (s.twoMbMap.lookup r=some old ∧ b=s.buddy) ∨
    (s.twoMbMap.lookup r=none ∧ ¬ s.buddy.NoLarge ∧ old.bits = ∅ ∧ s.buddy.Takes b old.cells)

/-- The request finds no reservation, no free 2MB block and no free block of its order. -/
structure UnderPressure (s : ReservationThpAllocator) (req : Request) : Prop where
  data : req.isPagetableAllocation=false
  unreserved : s.twoMbMap.lookup (region2mb req.address)=none
  noLarge : s.buddy.NoLarge
  noBlock : ∀k,Buddy.orderOf req.size≤k → s.buddy.freeList k=[]

inductive AllocateStep (order : UtilizationSort) (s : ReservationThpAllocator) (req : Request)
    (s' : ReservationThpAllocator) : Allocation → Prop where
  | pagetable (page : Option ℕ) (out : Multiset ℕ) (hreq : req.isPagetableAllocation=true)
      (htake : s.buddy.Takes s'.buddy out) (hmap : s'.twoMbMap=s.twoMbMap) :
      AllocateStep order s req s' ⟨page,12⟩
  | region (old : Region) (hreq : req.isPagetableAllocation=false)
      (hold : old.promoted=false) (hfrom : s.Obtains (region2mb req.address) old s'.buddy)
      (hmap : s'.twoMbMap=s.twoMbMap.insert (region2mb req.address)
        (old.touch s.thresholdForPromotion (offsetIn2mb req.address))) :
      AllocateStep order s req s' ((old.touch s.thresholdForPromotion
        (offsetIn2mb req.address)).grant (offsetIn2mb req.address))
  | fallback (page : ℕ) (hreq : req.isPagetableAllocation=false)
      (hnone : s.twoMbMap.lookup (region2mb req.address)=none) (hlarge : s.buddy.NoLarge)
      (htake : s.buddy.Takes s'.buddy (Multiset.Ico page (page+2^Buddy.orderOf req.size)))
      (hmap : s'.twoMbMap=s.twoMbMap) : AllocateStep order s req s' ⟨some page,12⟩
  | demotion (r : ℕ) (old : Region) (b : Buddy) (page : Option ℕ) (hpress : s.UnderPressure req)
      (hvictim : s.victim order=some (r,old)) (hfree : freeUnused old s.buddy = .ok b)
      (halloc : b.allocate req.size = .ok (page,s'.buddy))
      (hmap : s'.twoMbMap=s.twoMbMap.erase r) : AllocateStep order s req s' ⟨page,12⟩

theorem useRegion_ok {address page : ℕ} {promoted : Bool}
    (h : s.useRegion address region = .ok ((page,promoted),s')) :
    region.promoted=false ∧ s'.buddy=s.buddy ∧
      s'.twoMbMap=s.twoMbMap.insert (region2mb address)
        (region.touch s.thresholdForPromotion (offsetIn2mb address)) ∧
      (⟨some page,if promoted then 21 else 12⟩ : Allocation) =
        (region.touch s.thresholdForPromotion (offsetIn2mb address)).grant (offsetIn2mb address) := by
  simp only [useRegion] at h
  split_ifs at h with hprom htouch
  · cases h
    exact ⟨by simpa using hprom,rfl,rfl,by simp [Region.grant,htouch]⟩
  · cases h
    exact ⟨by simpa using hprom,rfl,rfl,by simp [Region.grant,htouch]⟩

/-- A successful reservation leads to a touched region; a failed one finds the region
unreserved and no free 2MB block, and changes nothing. -/
theorem checkFor2mbAllocation_ok {address : ℕ} {r : Option (ℕ × Bool)} (hwf : s.buddy.WellFormed)
    (h : s.checkFor2mbAllocation address = .ok (r,s')) :
    (∃page promoted old,r=some (page,promoted) ∧ old.promoted=false ∧
      s.Obtains (region2mb address) old s'.buddy ∧
      s'.twoMbMap=s.twoMbMap.insert (region2mb address)
        (old.touch s.thresholdForPromotion (offsetIn2mb address)) ∧
      (⟨some page,if promoted then 21 else 12⟩ : Allocation) =
        (old.touch s.thresholdForPromotion (offsetIn2mb address)).grant (offsetIn2mb address)) ∨
    (r=none ∧ s'=s ∧ s.twoMbMap.lookup (region2mb address)=none ∧ s.buddy.NoLarge) := by
  rw [checkFor2mbAllocation] at h
  cases hlook : s.twoMbMap.lookup (region2mb address) with
  | some region =>
    rw [hlook] at h
    obtain ⟨⟨⟨page,promoted⟩,t⟩,huse,h⟩:=bind_ok h
    cases h
    obtain ⟨hold,hbuddy,hmap,hgrant⟩:=useRegion_ok huse
    exact Or.inl ⟨page,promoted,region,rfl,hold,Or.inl ⟨hlook,hbuddy⟩,hmap,hgrant⟩
  | none =>
    rw [hlook] at h
    obtain ⟨⟨reserved,b⟩,hres,h⟩:=bind_ok h
    rcases reserve2mbPage_cases hwf hres with
      ⟨block,rfl,hspan,hlarge,htake⟩ | ⟨rfl,rfl,hlarge⟩
    · obtain ⟨⟨⟨page,promoted⟩,t⟩,huse,h⟩:=bind_ok h
      cases h
      obtain ⟨hold,hbuddy,hmap,hgrant⟩:=useRegion_ok huse
      refine Or.inl ⟨page,promoted,⟨block.first,∅,false⟩,rfl,hold,?_,?_,hgrant⟩
      · exact Or.inr ⟨hlook,hlarge,rfl,hbuddy ▸ htake⟩
      · rw [hmap]
        exact AList.insert_insert _
    · cases h
      exact Or.inr ⟨rfl,rfl,rfl,hlarge⟩

theorem allocateFromBuddy_ok {size : ℕ} {page : Option ℕ}
    (h : s.allocateFromBuddy size = .ok (page,s')) :
    ∃b,s.buddy.allocate size = .ok (page,b) ∧ s'={s with buddy:=b} := by
  obtain ⟨⟨page',b⟩,hb,h⟩:=bind_ok h
  cases h
  exact ⟨b,hb,rfl⟩

theorem demotePage_ok (h : s.demotePage order = .ok (true,s')) :
    ∃r old,s.victim order=some (r,old) ∧ freeUnused old s.buddy = .ok s'.buddy ∧
      s'.twoMbMap=s.twoMbMap.erase r ∧ s'.thresholdForPromotion=s.thresholdForPromotion ∧
      s'.toPhysicalMemoryAllocator=s.toPhysicalMemoryAllocator := by
  rw [demotePage] at h
  cases hv : s.victim order with
  | none =>
    rw [hv] at h
    cases h
  | some v =>
    rw [hv] at h
    obtain ⟨b,hb,h⟩:=bind_ok h
    cases h
    exact ⟨v.1,v.2,rfl,hb,rfl,rfl,rfl⟩

/-- Every successful `allocate` is one of the listed outcomes. -/
theorem allocate_step {req : Request} {a : Allocation} (hwf : s.buddy.WellFormed)
    (h : s.allocate order req = .ok (a,s')) : AllocateStep order s req s' a := by
  rw [allocate] at h
  split_ifs at h with hreq
  · obtain ⟨⟨page,t⟩,hserve,h⟩:=bind_ok h
    cases h
    obtain ⟨b,hb,rfl⟩:=allocateFromBuddy_ok hserve
    rcases allocate_cases hwf hb with ⟨p,rfl,htake⟩ | ⟨rfl,rfl,-⟩
    · exact .pagetable _ _ hreq htake rfl
    · exact .pagetable _ 0 hreq (Buddy.Takes.refl hwf) rfl
  · have hdata : req.isPagetableAllocation=false := by simpa using hreq
    obtain ⟨⟨page2mb,t⟩,hcheck,h⟩:=bind_ok h
    have hwf' : s.countAllocation.buddy.WellFormed := hwf
    rcases checkFor2mbAllocation_ok hwf' hcheck with
      ⟨page,promoted,old,rfl,hold,hfrom,hmap,hgrant⟩ | ⟨rfl,rfl,hnone,hlarge⟩
    · cases h
      rw [hgrant]
      exact .region old hdata hold hfrom hmap
    · obtain ⟨⟨page,t⟩,hserve,h⟩:=bind_ok h
      obtain ⟨b,hb,rfl⟩:=allocateFromBuddy_ok hserve
      rcases allocate_cases hwf hb with ⟨p,rfl,htake⟩ | ⟨rfl,rfl,hempty⟩
      · cases h
        exact .fallback p hdata hnone hlarge htake rfl
      · obtain ⟨⟨demoted,u⟩,hdem,h⟩:=bind_ok h
        cases demoted with
        | false => cases h
        | true =>
          obtain ⟨⟨page,w⟩,hserve',h⟩:=bind_ok h
          cases h
          obtain ⟨b',hb',rfl⟩:=allocateFromBuddy_ok hserve'
          obtain ⟨r,old,hvictim,hfree,hmap,-⟩:=demotePage_ok hdem
          exact .demotion r old u.buddy page ⟨hdata,hnone,hlarge,hempty⟩ hvictim hfree hb' hmap

theorem useRegion_eq (s : ReservationThpAllocator) (address : ℕ) (region : Region)
    (hold : region.promoted=false) : ∃page promoted s',s.useRegion address region = .ok ((page,promoted),s') ∧
      s'.thresholdForPromotion=s.thresholdForPromotion := by
  simp only [useRegion,hold,Bool.false_eq_true,↓reduceIte]
  split_ifs
  · exact ⟨_,_,_,rfl,rfl⟩
  · exact ⟨_,_,_,rfl,rfl⟩

variable (order)

theorem allocate_of_reserved (s : ReservationThpAllocator) (req : Request)
    (hreq : req.isPagetableAllocation=false) (hlook : s.twoMbMap.lookup (region2mb req.address)=some region)
    (hold : region.promoted=false) : ∃s',s.allocate order req =
        .ok ((region.touch s.thresholdForPromotion (offsetIn2mb req.address)).grant
          (offsetIn2mb req.address),s') ∧
      s'.buddy=s.buddy ∧ s'.thresholdForPromotion=s.thresholdForPromotion ∧
      s'.twoMbMap=s.twoMbMap.insert (region2mb req.address)
        (region.touch s.thresholdForPromotion (offsetIn2mb req.address)) := by
  obtain ⟨page,promoted,s',huse,hthr⟩:=useRegion_eq s.countAllocation req.address region hold
  obtain ⟨-,hbuddy,hmap,hgrant⟩:=useRegion_ok huse
  refine ⟨s',?_,hbuddy,hthr,hmap⟩
  have hlook' : s.countAllocation.twoMbMap.lookup (region2mb req.address)=some region := hlook
  rw [allocate,if_neg (by simp [hreq]),checkFor2mbAllocation,hlook']
  simp only [huse,ok_bind]
  rw [hgrant]
  rfl

theorem freeUnused_fails (region : Region) (b : Buddy) : Fails (freeUnused region b) Buddy.FreeListError := by
  rw [freeUnused]
  induction List.finRange 512 generalizing b with
  | nil => exact fails_ok _ _
  | cons j l ih =>
    rw [foldlM_cons]
    refine Fails.bind ?_ fun b' _ => ih b'
    split_ifs
    · exact fails_ok _ _
    · exact free_fails _ _ _

theorem allocate_not_alreadyPromoted (s : ReservationThpAllocator) (req : Request)
    (h : req.isPagetableAllocation=false → ∀region,
      s.twoMbMap.lookup (region2mb req.address)=some region → region.promoted=false) :
    Fails (s.allocate order req) (· ≠ .alreadyPromoted) := by
  have hlist : ∀e,Buddy.FreeListError e → e ≠ .alreadyPromoted := by
    rintro e (rfl | rfl | rfl) <;> simp
  have hserve : ∀t : ReservationThpAllocator,
      Fails (t.allocateFromBuddy req.size) (· ≠ .alreadyPromoted) := fun t =>
    ((allocate_fails _ _).mono hlist).bind fun _ _ => fails_ok _ _
  have huse : ∀ (t : ReservationThpAllocator) (region : Region),region.promoted=false →
      Fails (t.useRegion req.address region) (· ≠ .alreadyPromoted) := by
    intro t region hold
    obtain ⟨page,promoted,t',ht,-⟩:=useRegion_eq t req.address region hold
    rw [ht]
    exact fails_ok _ _
  rw [allocate]
  split_ifs with hreq
  · exact (hserve _).bind fun _ _ => fails_ok _ _
  · refine Fails.bind ?_ ?_
    · rw [checkFor2mbAllocation]
      cases hlook : s.countAllocation.twoMbMap.lookup (region2mb req.address) with
      | some region =>
        have hold := h (by simpa using hreq) region hlook
        exact (huse _ region hold).bind fun _ _ => fails_ok _ _
      | none =>
        refine ((reserve2mbPage_fails _).mono hlist).bind ?_
        rintro ⟨reserved,b⟩ -
        cases reserved with
        | none => exact fails_ok _ _
        | some block => exact (huse _ _ rfl).bind fun _ _ => fails_ok _ _
    · rintro ⟨page2mb,t⟩ -
      cases page2mb with
      | some page => exact fails_ok _ _
      | none =>
        refine (hserve _).bind ?_
        rintro ⟨fallback,t'⟩ -
        cases fallback with
        | some page => exact fails_ok _ _
        | none =>
          refine Fails.bind ?_ ?_
          · rw [demotePage]
            cases t'.victim order with
            | none => exact fails_ok _ _
            | some v => exact ((freeUnused_fails _ _).mono hlist).bind fun _ _ => fails_ok _ _
          · rintro ⟨demoted,u⟩ -
            cases demoted with
            | true => exact (hserve _).bind fun _ _ => fails_ok _ _
            | false => exact fails_error (by simp)

theorem allocate_of_block (s : ReservationThpAllocator) (req : Request) {block : Interval} {b : Buddy}
    (hreq : req.isPagetableAllocation=false) (hlook : s.twoMbMap.lookup (region2mb req.address)=none)
    (hres : s.buddy.reserve2mbPage = .ok (some block,b)) : ∃s',s.allocate order req =
        .ok ((Region.touch s.thresholdForPromotion (offsetIn2mb req.address)
          ⟨block.first,∅,false⟩).grant (offsetIn2mb req.address),s') ∧
      s'.buddy=b ∧ s'.thresholdForPromotion=s.thresholdForPromotion ∧
      s'.twoMbMap=s.twoMbMap.insert (region2mb req.address)
        (Region.touch s.thresholdForPromotion (offsetIn2mb req.address) ⟨block.first,∅,false⟩) := by
  obtain ⟨page,promoted,s',huse,hthr⟩:=useRegion_eq
    { s.countAllocation with
      buddy := b
      twoMbMap := s.countAllocation.twoMbMap.insert (region2mb req.address)
        ⟨block.first,∅,false⟩
      stats := { s.countAllocation.stats with
        twoMbReserved := s.countAllocation.stats.twoMbReserved+1 } }
    req.address ⟨block.first,∅,false⟩ rfl
  obtain ⟨-,hbuddy,hmap,hgrant⟩:=useRegion_ok huse
  refine ⟨s',?_,hbuddy,hthr,hmap.trans (AList.insert_insert _)⟩
  have hlook' : s.countAllocation.twoMbMap.lookup (region2mb req.address)=none := hlook
  have hres' : s.countAllocation.buddy.reserve2mbPage = .ok (some block,b) := hres
  rw [allocate,if_neg (by simp [hreq]),checkFor2mbAllocation,hlook']
  simp only [hres',huse,ok_bind]
  rw [hgrant]
  rfl

end ReservationThpAllocator

theorem Region.touch_one (offset : Fin 512) (r : Region) : (r.touch 1 offset).promoted=false := by
  have hcard : (insert offset r.bits).card≤512 := by
    simpa using Finset.card_le_univ (insert offset r.bits)
  have hle : ((insert offset r.bits).card : ℚ)≤512 := by exact_mod_cast hcard
  simp only [Region.touch,decide_eq_false_iff_not,not_lt]
  linarith

end Sniper.PhysicalMemory
