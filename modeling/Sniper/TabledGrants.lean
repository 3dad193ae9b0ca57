import Sniper.SettledGrants
import Sniper.PageFaultHandler
import Sniper.RadixRefinement

/-!
# The page table of one application and the answers it was filled from

The page table sees 48 bits of an address and the allocator all 64, so all of this is about
addresses whose 2MB regions differ in the low 48 bits.
-/

namespace Sniper.PageFaults
open FallibleRuns PhysicalMemory RadixPageTable

/-- The page table tells the 2MB regions of the virtual pages apart. -/
def ToldApart (V : Set ℕ) : Prop :=
  ∀v∈V,∀w∈V,v / 512 % 2 ^ 27 = w / 512 % 2 ^ 27 → v / 512 = w / 512

theorem toldApart_Iio : ToldApart (Set.Iio (2 ^ 36)) := by
  intro v hv w hw h
  rw [Set.mem_Iio] at hv hw
  omega

variable {V : Set ℕ}

theorem ToldApart.samePage {a v k : ℕ} (h : ToldApart V) (ha : a / 2 ^ 12∈V) (hv : v∈V)
    (hk : k = 12 ∨ k = 21) : SamePage 48 k a (v * 2 ^ 12) ↔ a / 2 ^ k = v * 2 ^ 12 / 2 ^ k := by
  have hsame := h _ ha v hv
  rw [SamePage]
  rcases hk with rfl | rfl <;> omega

/-- The physical address that the MMU forms from the result of a walk. Page numbers of
memory are below `2 ^ 52`, so that nothing wraps. -/
def physicalAddress (r : PTWResult) (address : ℕ) : ℕ := r.ppn*2^12+address % 2^r.pageSize

/-- The physical address that the walk of an address leads to, if it succeeds. -/
def tableAddress (table : PageTableRadix) (a : ℕ) : Option ℕ :=
  match table.initializeWalk a with
  | .ok r => if r.faultHappened then none else some (physicalAddress r a)
  | .error _ => none

theorem tableAddress_eq_some {table : PageTableRadix} {a x : ℕ} : tableAddress table a=some x ↔
    ∃r,table.initializeWalk a = .ok r ∧ r.faultHappened=false ∧ physicalAddress r a=x := by
  rw [tableAddress]
  cases table.initializeWalk a with
  | error e => simp
  | ok r => cases hf : r.faultHappened <;> simp [hf]

/-- The call of `updatePageTableFrames` that an answer leads to. -/
def mappingOf (g : Grant Unit) : Mapping := ⟨g.vpn*2^12,g.allocation.ppnWord,g.allocation.pageSize⟩

theorem mappingOf_covers {g : Grant Unit} {a : ℕ} (h : ToldApart V) (ha : a / 2 ^ 12∈V)
    (hg : g.vpn∈V) (hsize : g.allocation.pageSize=12 ∨ g.allocation.pageSize=21) :
    (mappingOf g).Covers 48 a ↔ g.Covers (a / 2^12) := by
  rcases hsize with hsize | hsize
  · simp only [Mapping.Covers,mappingOf,hsize,Grant.Covers,h.samePage ha hg (.inl rfl)]
    rw [if_neg (by decide),Nat.mul_div_cancel _ (by decide)]
  · simp only [Mapping.Covers,mappingOf,hsize,Grant.Covers,h.samePage ha hg (.inr rfl)]
    rw [if_pos trivial]
    omega

theorem physicalAddress_eq {g : Grant Unit} {a p : ℕ} {r : PTWResult}
    (hsize : g.allocation.pageSize=12 ∨ g.allocation.pageSize=21) (hp : g.page (a / 2^12)=some p)
    (hr : r.ppn=g.allocation.ppnWord) (hr' : r.pageSize=g.allocation.pageSize) :
    physicalAddress r a=p*2^12+a % 2^12 := by
  obtain ⟨q,hq,hp⟩:=Option.map_eq_some_iff.mp hp
  rw [Allocation.ppnWord,hq,Option.getD_some] at hr
  rw [physicalAddress,hr,hr']
  rcases hsize with hsize | hsize
  · rw [hsize,if_neg (by decide)] at hp
    rw [hsize,hp]
  · rw [hsize,if_pos rfl] at hp
    rw [hsize]
    omega

/-- The table was filled from answers that agree with each other. -/
structure Tabled (V : Set ℕ) (table : PageTableRadix) (grants : List (Grant Unit)) : Prop where
  apart : ToldApart V
  represents : Mapped.Represents ⟨table,grants.map mappingOf⟩
  known : ∀g∈grants,g.vpn∈V
  agree : ∀g∈grants,∀g'∈grants,∀v,g.Covers v → g'.Covers v → g.page v=g'.page v
  bounded : ∀g∈grants,∀v p,g.Covers v → g.page v=some p → p < invalidWord
  sizes : ∀g∈grants,g.allocation.pageSize=12 ∨ g.allocation.pageSize=21

namespace Tabled

variable {table table' : PageTableRadix} {grants grants' : List (Grant Unit)}

theorem new (h : ToldApart V) {frameSize : ℕ} {pageSizeList : List ℕ} (hframe : 512≤frameSize)
    (hsmall : pageSizeList[0]?=some 12) (hlarge : pageSizeList[1]?=some 21) :
    Tabled V (.new 4 frameSize pageSizeList) [] :=
  ⟨h,(Mapped.new_faithful hframe hsmall hlarge).toRepresents,by simp,by simp,by simp,by simp⟩

section

variable (h : Tabled V table grants)
include h

theorem covers_iff {g : Grant Unit} (hg : g∈grants) {a : ℕ} (ha : a / 2 ^ 12∈V) :
    (mappingOf g).Covers 48 a ↔ g.Covers (a / 2^12) :=
  mappingOf_covers h.apart ha (h.known g hg) (h.sizes g hg)

theorem answers (a : ℕ) : Answers (table.initializeWalk a) (lastMapping 48 (grants.map mappingOf) a) := by
  rw [← h.represents.view a]
  exact (walk_spec h.represents.standard h.represents.shaped a).1

theorem exists_grant {a ppn size : ℕ} (ha : a / 2 ^ 12∈V)
    (hlast : lastMapping 48 (grants.map mappingOf) a=some (ppn,size)) :
    ∃g∈grants,g.Covers (a / 2^12) ∧ g.allocation.ppnWord=ppn ∧ g.allocation.pageSize=size := by
  obtain ⟨m,hm,hcov,hppn,hsize⟩:=lastMapping_mem hlast
  obtain ⟨g,hg,rfl⟩:=List.mem_map.mp hm
  exact ⟨g,hg,(h.covers_iff hg ha).mp hcov,hppn,hsize⟩

theorem not_covers_of_fault {a : ℕ} {r : PTWResult} (ha : a / 2 ^ 12∈V) (hr : table.initializeWalk a = .ok r)
    (hf : r.faultHappened=true) : ∀g∈grants,¬ g.Covers (a / 2^12) := by
  intro g hg hcov
  have hnone := ((h.answers a).ok hr).1.view_none hf
  exact lastMapping_none hnone _ (List.mem_map_of_mem hg) ((h.covers_iff hg ha).mpr hcov)

theorem grant_of_walk {a : ℕ} {r : PTWResult} (ha : a / 2 ^ 12∈V) (hr : table.initializeWalk a = .ok r)
    (hf : r.faultHappened=false) :
    ∃g∈grants,∃q,g.Covers (a / 2^12) ∧ g.allocation=⟨some q,r.pageSize⟩ ∧ r.ppn=q := by
  obtain ⟨hreports,hvalid⟩:=(h.answers a).ok hr
  cases hlast : lastMapping 48 (grants.map mappingOf) a with
  | none =>
    rw [hlast] at hreports
    cases hf.symm.trans hreports.1
  | some entry =>
    obtain ⟨ppn,size⟩:=entry
    rw [hlast] at hreports hvalid
    obtain ⟨g,hg,hcov,hppn,hsize⟩:=h.exists_grant ha hlast
    cases hq : g.allocation.ppn with
    | none =>
      rw [Allocation.ppnWord,hq,Option.getD_none] at hppn
      exact (hvalid size (hppn ▸ rfl)).elim
    | some q =>
      rw [Allocation.ppnWord,hq,Option.getD_some] at hppn
      refine ⟨g,hg,q,hcov,?_,hreports.2.1.trans hppn.symm⟩
      rw [← hq,hreports.2.2,← hsize]

theorem grant_of_address {a x : ℕ} (ha : a / 2 ^ 12∈V) (hx : tableAddress table a=some x) :
    ∃g∈grants,∃p,g.Covers (a / 2^12) ∧ g.page (a / 2^12)=some p ∧ x=p*2^12+a % 2^12 := by
  obtain ⟨r,hr,hf,rfl⟩:=tableAddress_eq_some.mp hx
  obtain ⟨g,hg,q,hcov,halloc,hppn⟩:=h.grant_of_walk ha hr hf
  have hpage : ∃p,g.page (a / 2^12)=some p := by
    rw [Grant.page,halloc]
    exact ⟨_,rfl⟩
  obtain ⟨p,hp⟩:=hpage
  refine ⟨g,hg,p,hcov,hp,physicalAddress_eq (h.sizes g hg) hp ?_ ?_⟩
  · rw [hppn,halloc]
    rfl
  · rw [halloc]

theorem address_of_grant {a p : ℕ} (ha : a / 2 ^ 12∈V) {g : Grant Unit} (hg : g∈grants)
    (hcov : g.Covers (a / 2^12)) (hp : g.page (a / 2^12)=some p) :
    tableAddress table a=some (p*2^12+a % 2^12) := by
  have hsome : ∃x,tableAddress table a=some x := by
    rcases h.answers a with ⟨size,hlast,-⟩ | ⟨-,r,hr,hreports⟩
    · obtain ⟨g',hg',hcov',hppn,-⟩:=h.exists_grant ha hlast
      have hp' := (h.agree g' hg' g hg _ hcov' hcov).trans hp
      obtain ⟨q,hq,hpq⟩:=Option.map_eq_some_iff.mp hp'
      rw [Allocation.ppnWord,hq,Option.getD_some] at hppn
      have hlt := h.bounded g hg _ p hcov hp
      split_ifs at hpq <;> omega
    · refine ⟨_,tableAddress_eq_some.mpr ⟨r,hr,?_,rfl⟩⟩
      cases hlast : lastMapping 48 (grants.map mappingOf) a with
      | none =>
        refine (lastMapping_none hlast _ (List.mem_map_of_mem hg) ?_).elim
        exact (h.covers_iff hg ha).mpr hcov
      | some entry =>
        rw [hlast] at hreports
        exact hreports.1
  obtain ⟨x,hx⟩:=hsome
  obtain ⟨g',hg',p',hcov',hp',rfl⟩:=h.grant_of_address ha hx
  cases ((h.agree g' hg' g hg _ hcov' hcov).symm.trans hp').symm.trans hp
  exact hx

theorem address_of_samePage {a b : ℕ} {r : PTWResult} (ha : a / 2 ^ 12∈V) (hb : b / 2 ^ 12∈V)
    (hr : table.initializeWalk a = .ok r) (hf : r.faultHappened=false)
    (hpage : b / 2^r.pageSize=a / 2^r.pageSize) : tableAddress table b=some (r.ppn*2^12+b % 2^r.pageSize) := by
  obtain ⟨g,hg,q,hcov,halloc,rfl⟩:=h.grant_of_walk ha hr hf
  have hsize := h.sizes g hg
  rw [halloc] at hsize
  rcases hsize with hsize | hsize
  · change r.pageSize=12 at hsize
    rw [hsize] at hpage halloc ⊢
    refine h.address_of_grant hb hg (hpage ▸ hcov) ?_
    rw [Grant.page,halloc]
    rfl
  · change r.pageSize=21 at hsize
    rw [hsize] at hpage halloc ⊢
    rw [Grant.Covers,halloc,if_pos rfl] at hcov
    have hcov' : g.Covers (b / 2^12) := by
      rw [Grant.Covers,halloc,if_pos rfl]
      omega
    have hpage' : g.page (b / 2^12)=some (r.ppn+b / 2^12 % 512) := by
      rw [Grant.page,halloc]
      rfl
    rw [h.address_of_grant hb hg hcov' hpage',Option.some_inj]
    omega

theorem address_kept (h' : Tabled V table' grants') (hsub : ∀g∈grants,g∈grants') {a x : ℕ} (ha : a / 2 ^ 12∈V)
    (hx : tableAddress table a=some x) : tableAddress table' a=some x := by
  obtain ⟨g,hg,p,hcov,hp,rfl⟩:=h.grant_of_address ha hx
  exact h'.address_of_grant ha (hsub g hg) hcov hp

theorem represents_cons {g : Grant Unit} {frames : List ℕ} {used : ℕ}
    (hsize : g.allocation.pageSize=12 ∨ g.allocation.pageSize=21) (hupdate :
    table.updatePageTableFrames (g.vpn*2^12) g.allocation.ppnWord g.allocation.pageSize frames =
    .ok (used,table')) : Mapped.Represents ⟨table',(g::grants).map mappingOf⟩ := by
  have hmapped : Mapped.step ⟨table,grants.map mappingOf⟩ (mappingOf g,frames) =
      .ok ⟨table',(g::grants).map mappingOf⟩ := by
    have hupdate' : table.updatePageTableFrames (mappingOf g).address (mappingOf g).ppn
        (mappingOf g).pageSize frames = .ok (used,table') := hupdate
    simp only [Mapped.step,hupdate',ok_bind,List.map_cons]
  exact h.represents.step_ok hsize hmapped

end

end Tabled

end Sniper.PageFaults
