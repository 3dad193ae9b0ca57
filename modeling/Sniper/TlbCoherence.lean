import Sniper.TlbHierarchy

/-!
# What a TLB hit returns

A TLB compares tags and page sizes only and is not flushed when another application is scheduled,
so a hit is right if the entry is one of the running application.
-/

namespace Sniper.PageFaults
open FallibleRuns PhysicalMemory RadixPageTable SetAssociativeStores List

variable {σ ι : Type}

namespace Tlb

def Holds (P : TlbEntry ι → Prop) (t : Tlb ι) : Prop := ∀i w e,t.sets i w=some e → P e

variable {P : TlbEntry ι → Prop}

theorem lookup_some {t : Tlb ι} {address : ℕ} {e : TlbEntry ι} (ht : t.Holds P)
    (h : t.lookup address=some e) : P e ∧ e.tag=address / 2^e.pageSize := by
  obtain ⟨size,-,hsize⟩:=exists_of_findSome?_eq_some h
  obtain ⟨⟨w,e'⟩,hfind,rfl⟩:=Option.map_eq_some_iff.mp hsize
  obtain ⟨-,hheld,hmatch⟩:=find_some hfind
  rw [Bool.and_eq_true,beq_iff_eq,beq_iff_eq] at hmatch
  obtain ⟨htag,rfl⟩:=hmatch
  exact ⟨ht _ _ _ hheld,htag⟩

theorem allocate_holds {t t' : Tlb ι} {tr : EvictedTranslation ι} {way : ℕ}
    {dropped : Option (EvictedTranslation ι)} (ht : t.Holds P) (htr : P tr.entry)
    (h : t.allocate tr way = .ok (dropped,t')) : t'.Holds P ∧ ∀d∈dropped.toList,P d.entry := by
  rw [allocate] at h
  split_ifs at h with hpre hway
  · cases h
    exact ⟨ht,fun d hd => absurd hd not_mem_nil⟩
  · cases h
    refine ⟨fun i w e he => ?_,fun d hd => ?_⟩
    · rcases place_cases he with ⟨-,-,rfl⟩ | ⟨-,hold⟩
      · exact htr
      · exact ht i w e hold
    · obtain ⟨e,he,rfl⟩:=Option.map_eq_some_iff.mp (Option.mem_toList.mp hd)
      rw [e.translation_entry]
      exact ht _ _ e he

theorem allocateAll_holds {choose : ℕ → ℕ} {trs dropped : List (EvictedTranslation ι)} {k k' : ℕ}
    {t t' : Tlb ι} (ht : t.Holds P) (htrs : ∀tr∈trs,P tr.entry)
    (h : t.allocateAll choose trs k = .ok (dropped,k',t')) : t'.Holds P ∧ ∀d∈dropped,P d.entry := by
  induction trs generalizing k dropped t with
  | nil =>
    cases h
    exact ⟨ht,fun d hd => absurd hd not_mem_nil⟩
  | cons tr trs ih =>
    obtain ⟨⟨dropped₁,t₁⟩,h₁,h⟩:=bind_ok h
    obtain ⟨⟨more,k₂,t₂⟩,h₂,h⟩:=bind_ok h
    cases h
    obtain ⟨ht₁,hdropped₁⟩:=allocate_holds ht (htrs tr mem_cons_self) h₁
    obtain ⟨ht₂,hmore⟩:=ih ht₁ (fun tr' htr' => htrs tr' (mem_cons_of_mem _ htr')) h₂
    exact ⟨ht₂,forall_mem_append.mpr ⟨hdropped₁,hmore⟩⟩

end Tlb

/-- Every entry of every TLB satisfies `P`. -/
def AllHold (P : TlbEntry ι → Prop) (tlbs : List (List (Tlb ι))) : Prop := ∀level∈tlbs,∀t∈level,t.Holds P

section AllHold

variable {P : TlbEntry ι → Prop} {instruction : Bool} {address : ℕ} {e : TlbEntry ι}

theorem lookupLevel_some {tlbs : List (Tlb ι)} (ht : ∀t∈tlbs,t.Holds P)
    (h : lookupLevel instruction address tlbs=some e) : P e ∧ e.tag=address / 2^e.pageSize := by
  have hfold : ∀hit : Option (TlbEntry ι),(∀e,hit=some e → P e ∧ e.tag=address / 2^e.pageSize) →
      tlbs.foldl (fun hit t => if t.type.serves instruction then (t.lookup address).or hit else hit)
        hit=some e → P e ∧ e.tag=address / 2^e.pageSize := by
    clear h
    induction tlbs with
    | nil => exact fun hit hhit h => hhit e h
    | cons t tlbs ih =>
      intro hit hhit h
      refine ih (fun t' ht' => ht t' (mem_cons_of_mem _ ht')) _ ?_ h
      intro e' he'
      dsimp only at he'
      split_ifs at he' with hserves
      · rcases Option.or_eq_some_iff.mp he' with hnew | ⟨-,hold⟩
        · exact Tlb.lookup_some (ht t mem_cons_self) hnew
        · exact hhit e' hold
      · exact hhit e' he'
  exact hfold none (fun _ he => by cases he) h

theorem lookupLevels_some {tlbs : List (List (Tlb ι))} {level : ℕ} (ht : AllHold P tlbs)
    (h : lookupLevels instruction address tlbs=some (level,e)) : P e ∧ e.tag=address / 2^e.pageSize := by
  induction tlbs generalizing level with
  | nil => cases h
  | cons tlbs rest ih =>
    rw [lookupLevels] at h
    cases hl : lookupLevel instruction address tlbs with
    | some e' =>
      rw [hl] at h
      cases h
      exact lookupLevel_some (ht tlbs mem_cons_self) hl
    | none =>
      rw [hl] at h
      obtain ⟨⟨level',e'⟩,hrest,heq⟩:=Option.map_eq_some_iff.mp h
      cases heq
      exact ih (fun level hlevel => ht level (mem_cons_of_mem _ hlevel)) hrest

theorem wanted_holds {current : EvictedTranslation ι} {hitLevel : Option ℕ} {i : ℕ}
    {carried : List (EvictedTranslation ι)} (hcurrent : P current.entry) (hcarried : ∀tr∈carried,P tr.entry)
    (t : Tlb ι) : ∀tr∈wanted instruction current hitLevel i carried t,P tr.entry := by
  intro tr htr
  rw [wanted] at htr
  split_ifs at htr
  · rcases mem_append.mp htr with htr | htr
    · exact hcarried tr (mem_of_mem_filter htr)
    · rw [mem_singleton.mp htr]
      exact hcurrent
  · exact hcarried tr (mem_of_mem_filter (append_nil _ ▸ htr))
  · exact absurd htr not_mem_nil

theorem allocateLevel_holds {choose : ℕ → ℕ} {wants : Tlb ι → List (EvictedTranslation ι)}
    {tlbs tlbs' : List (Tlb ι)} {k k' : ℕ} {dropped : List (EvictedTranslation ι)} (ht : ∀t∈tlbs,t.Holds P)
    (hwants : ∀t,∀tr∈wants t,P tr.entry) (h : allocateLevel choose wants tlbs k = .ok (dropped,k',tlbs')) :
    (∀t∈tlbs',t.Holds P) ∧ ∀d∈dropped,P d.entry := by
  induction tlbs generalizing k dropped tlbs' with
  | nil =>
    cases h
    exact ⟨ht,fun d hd => absurd hd not_mem_nil⟩
  | cons t tlbs ih =>
    obtain ⟨⟨dropped₁,k₁,t₁⟩,h₁,h⟩:=bind_ok h
    obtain ⟨⟨more,k₂,tlbs₂⟩,h₂,h⟩:=bind_ok h
    cases h
    obtain ⟨ht₁,hdropped₁⟩:=Tlb.allocateAll_holds (ht t mem_cons_self) (hwants t) h₁
    obtain ⟨ht₂,hmore⟩:=ih (fun t' ht' => ht t' (mem_cons_of_mem _ ht')) h₂
    exact ⟨forall_mem_cons.mpr ⟨ht₁,ht₂⟩,forall_mem_append.mpr ⟨hdropped₁,hmore⟩⟩

theorem allocateLevels_holds {choose : ℕ → ℕ} {current : EvictedTranslation ι} {hitLevel : Option ℕ}
    {tlbs tlbs' : List (List (Tlb ι))} {i k : ℕ} {carried : List (EvictedTranslation ι)} (ht : AllHold P tlbs)
    (hcurrent : P current.entry) (hcarried : ∀tr∈carried,P tr.entry)
    (h : allocateLevels choose instruction current hitLevel tlbs i carried k = .ok tlbs') :
    AllHold P tlbs' := by
  induction tlbs generalizing i carried k tlbs' with
  | nil =>
    cases h
    exact ht
  | cons level rest ih =>
    obtain ⟨⟨dropped,k₁,level₁⟩,h₁,h⟩:=bind_ok h
    obtain ⟨rest₁,h₂,h⟩:=bind_ok h
    cases h
    obtain ⟨hlevel,hdropped⟩:=allocateLevel_holds (ht level mem_cons_self)
      (wanted_holds hcurrent hcarried) h₁
    exact forall_mem_cons.mpr ⟨hlevel,ih (fun l hl => ht l (mem_cons_of_mem _ hl)) hdropped h₂⟩

end AllHold

/-- The entry gives the addresses that the page table of its application gives. -/
def TlbEntry.Right (V : Set ℕ) (apps : Applications σ ι) (e : TlbEntry ι) : Prop :=
  ∀b,b / 2^12∈V → b / 2^e.pageSize=e.tag →
    tableAddress (apps.tables e.owner) b=some (e.ppn*2^12+b % 2^e.pageSize)

namespace Mmu

variable [DecidableEq ι]

/-- The two ways a call succeeds: an entry is found, or a walk ends in a mapped page. -/
theorem performAddressTranslation_cases {A : AllocatorInterface σ} {rounds pa : ℕ} {m m' : Mmu σ ι}
    {call : TranslationCall ι} (h : m.performAddressTranslation A rounds call = .ok (pa,m')) :
    ∃current,pa=current.ppn*2^12+call.address % 2^current.pageSize ∧
      allocateLevels call.choose call.instruction current ((m.lookup call).map Prod.fst) m.tlbs
        0 [] 0 = .ok m'.tlbs ∧ ((∃level e,m.lookup call=some (level,e) ∧ m'.apps=m.apps ∧
          current=⟨call.address,e.pageSize,e.ppn,e.owner⟩) ∨
        (m.lookup call=none ∧ ∃r,performPtw A rounds m.apps call = .ok (r,m'.apps) ∧
          current=⟨call.address,r.pageSize,r.ppn,call.app⟩)) := by
  obtain ⟨⟨current,apps⟩,hcurrent,h⟩:=bind_ok h
  obtain ⟨tlbs,htlbs,h⟩:=bind_ok h
  cases h
  refine ⟨current,rfl,htlbs,?_⟩
  rw [translation] at hcurrent
  cases hit : m.lookup call with
  | some found =>
    obtain ⟨level,e⟩:=found
    rw [hit] at hcurrent
    cases hcurrent
    exact Or.inl ⟨level,e,rfl,rfl,rfl⟩
  | none =>
    rw [hit] at hcurrent
    obtain ⟨⟨r,apps₁⟩,hptw,hcurrent⟩:=bind_ok hcurrent
    cases hcurrent
    exact Or.inr ⟨rfl,r,hptw,rfl⟩

structure Coherent (A : SteadyAllocator σ ι) (V : Set ℕ) (m : Mmu σ ι) : Prop where
  apps : m.apps.Coherent A V
  entries : AllHold (TlbEntry.Right V m.apps) m.tlbs

theorem Coherent.empty {A : SteadyAllocator σ ι} {V : Set ℕ} {m : Mmu σ ι} (h : m.apps.Coherent A V)
    (hempty : AllHold (fun _ => False) m.tlbs) : m.Coherent A V :=
  ⟨h,fun level hlevel t ht i w e he => (hempty level hlevel t ht i w e he).elim⟩

variable {A : SteadyAllocator σ ι} {V : Set ℕ} {rounds pa : ℕ} {m m' : Mmu σ ι}
  {call : TranslationCall ι}

theorem Coherent.hit (h : m.Coherent A V) (ha : call.address / 2 ^ 12∈V) {level : ℕ} {e : TlbEntry ι}
    (hit : m.lookup call=some (level,e)) : e.Right V m.apps ∧ e.tag=call.address / 2^e.pageSize ∧
      tableAddress (m.apps.tables e.owner) call.address=some (e.ppn*2^12+call.address % 2^e.pageSize) := by
  obtain ⟨hright,htag⟩:=lookupLevels_some h.entries hit
  exact ⟨hright,htag,hright _ ha htag.symm⟩

theorem Coherent.walked (h : m.Coherent A V) (ha : call.address / 2 ^ 12∈V) {r : PTWResult}
    {apps : Applications σ ι} (hptw : performPtw A rounds m.apps call = .ok (r,apps)) :
    apps.Coherent A V ∧ m.apps.Extends apps ∧
      (EvictedTranslation.entry ⟨call.address,r.pageSize,r.ppn,call.app⟩).Right V apps := by
  obtain ⟨hcoh,hext,hwalk,hf⟩:=Applications.walkUntilMapped_ok (fun _ => rfl) ha h.apps hptw
  exact ⟨hcoh,hext,fun b hb hpage => (hcoh.tabled call.app).address_of_samePage ha hb hwalk hf hpage⟩

theorem Coherent.step (h : m.Coherent A V) (ha : call.address / 2 ^ 12∈V)
    (he : m.performAddressTranslation A rounds call = .ok (pa,m')) :
    m'.Coherent A V ∧ m.apps.Extends m'.apps := by
  obtain ⟨current,-,htlbs,⟨level,e,hit,happs,rfl⟩ | ⟨-,r,hptw,rfl⟩⟩:=performAddressTranslation_cases he
  · obtain ⟨hright,htag,-⟩:=h.hit ha hit
    have hcurrent : (EvictedTranslation.entry
        ⟨call.address,e.pageSize,e.ppn,e.owner⟩).Right V m.apps := by
      rw [EvictedTranslation.entry,← htag]
      exact hright
    refine ⟨⟨happs ▸ h.apps,?_⟩,fun i g hg => happs ▸ hg⟩
    rw [happs]
    exact allocateLevels_holds h.entries hcurrent (by simp) htlbs
  · obtain ⟨hcoh,hext,hright⟩:=h.walked ha hptw
    refine ⟨⟨hcoh,allocateLevels_holds ?_ hright (by simp) htlbs⟩,hext⟩
    exact fun l hl t ht i w e he =>
      fun b hb htag => (h.apps.tabled _).address_kept (hcoh.tabled _) (hext _) hb
        (h.entries l hl t ht i w e he b hb htag)

def step (A : AllocatorInterface σ) (rounds : ℕ) : Mmu σ ι → TranslationCall ι → Except Abort (Mmu σ ι) :=
  next (performAddressTranslation A rounds)

/-- An entry that the call hits was made for the running application. -/
def OwnEntry (m : Mmu σ ι) (call : TranslationCall ι) : Prop :=
  ∀hit∈m.lookup call,hit.2.owner = call.app

instance (m : Mmu σ ι) (call : TranslationCall ι) : Decidable (m.OwnEntry call) :=
  inferInstanceAs (Decidable (∀hit∈m.lookup call,hit.2.owner = call.app))

def oneEntryTlb (ι : Type) : Tlb ι := ⟨.unified,1,[12,21],true,false,fun _ => 0,fun _ _ => none⟩

def start (s : σ) (ι : Type) : Mmu σ ι := ⟨.new s (fun _ => 512) fun _ => [12,21],[[oneEntryTlb ι]]⟩

end Mmu

end Sniper.PageFaults
