import Sniper.PageGrants

/-!
# One page number for each virtual page

The answers for a page agree, also across demotions: from the first demotion on no free 2MB block
is left.
-/

namespace Sniper.PhysicalMemory
open BuddyAllocator FallibleRuns

variable {α : Type}

/-- The grant answers for the virtual page. -/
def Grant.Covers (g : Grant α) (v : ℕ) : Prop :=
  if g.allocation.pageSize=21 then v / 512=g.vpn / 512 else v=g.vpn

def Grant.page (g : Grant α) (v : ℕ) : Option ℕ :=
  g.allocation.ppn.map fun q => if g.allocation.pageSize=21 then q+v % 512 else q

variable {v : ℕ} {a : α}

theorem Grant.gives_iff {g : Grant α} {p : ℕ} : g.Gives v p ↔ g.Covers v ∧ g.page v=some p := by
  cases hppn : g.allocation.ppn with
  | none => simp [Grant.Gives,Grant.page,hppn]
  | some q =>
    by_cases hsize : g.allocation.pageSize=21
    · simp [Grant.Gives,Grant.Covers,Grant.page,hppn,hsize,eq_comm]
    · simp [Grant.Gives,Grant.Covers,Grant.page,hppn,hsize,eq_comm]

theorem Grant.covers_small {v₀ : ℕ} {ppn : Option ℕ} : (Grant.mk a v₀ ⟨ppn,12⟩).Covers v ↔ v=v₀ := Iff.rfl

theorem Grant.page_small {v₀ : ℕ} {ppn : Option ℕ} : (Grant.mk a v₀ ⟨ppn,12⟩).page v=ppn := by
  cases ppn with
  | none => rfl
  | some q => rfl

theorem Grant.page_region {req : Request} {reg : Region}
    (h : (Grant.mk a req.vpn (reg.grant (offsetIn2mb req.address))).Covers v) :
    v / 512=region2mb req.address ∧ (Grant.mk a req.vpn (reg.grant (offsetIn2mb req.address))).page v =
        some (reg.regionBegin+v % 512) := by
  by_cases hprom : reg.promoted=true
  · rw [Region.grant,if_pos hprom] at h ⊢
    simp only [Grant.Covers,↓reduceIte,req.vpn_div] at h
    exact ⟨h,rfl⟩
  · rw [Region.grant,if_neg hprom] at h ⊢
    cases Grant.covers_small.mp h
    rw [Grant.page_small,req.vpn_div,req.vpn_mod]
    exact ⟨rfl,rfl⟩

theorem lookup_of_erase {m : AList (fun _ : ℕ => Region)} {k r : ℕ} {reg : Region}
    (h : (m.erase r).lookup k=some reg) : m.lookup k=some reg := by
  by_cases hk : k=r
  · subst hk
    rw [AList.lookup_erase] at h
    cases h
  · rw [AList.lookup_erase_ne hk] at h
    exact h

namespace ReservationThpAllocator

/-- Reserved blocks lie below the bound; so do free pages as long as a large block is free,
and later they pass it at most by one page, since `demote_page` returns one page too many. -/
structure Sound (bound : ℕ) (s : ReservationThpAllocator) : Prop where
  wellFormed : s.buddy.WellFormed
  orders : ∀k reg,s.twoMbMap.lookup k=some reg → 9 ≤ s.buddy.maxOrder
  free : ∀p∈s.buddy.freeCells,p≤bound
  large : ¬ s.buddy.NoLarge → ∀p∈s.buddy.freeCells,p<bound
  reserved : ∀k reg,s.twoMbMap.lookup k=some reg → reg.regionBegin+512≤bound

variable {bound r : ℕ} {s s' : ReservationThpAllocator} {b : Buddy} {old : Region}

theorem Sound.takes {out : Multiset ℕ} (h : s.Sound bound) (htake : s.buddy.Takes s'.buddy out)
    (hmap : s'.twoMbMap=s.twoMbMap) : s'.Sound bound := by
  have hmem : ∀p∈s'.buddy.freeCells,p∈s.buddy.freeCells := by
    intro p hp
    rw [htake.cells]
    exact Multiset.mem_add.mpr (Or.inl hp)
  refine ⟨htake.wellFormed,?_,fun p hp => h.free p (hmem p hp),?_,?_⟩
  · intro k reg hlook
    rw [htake.maxOrder]
    exact h.orders k reg (hmap ▸ hlook)
  · intro hlarge p hp
    exact h.large (fun hno => hlarge (htake.noLarge hno)) p (hmem p hp)
  · intro k reg hlook
    exact h.reserved k reg (hmap ▸ hlook)

theorem Obtains.noLarge (h : s.Obtains r old b) (hno : s.buddy.NoLarge) : b.NoLarge := by
  rcases h with ⟨-,rfl⟩ | ⟨-,hlarge,-⟩
  · exact hno
  · exact (hlarge hno).elim

theorem Obtains.le_bound (h : s.Obtains r old b) (hs : s.Sound bound) : old.regionBegin+512≤bound := by
  rcases h with ⟨hlook,-⟩ | ⟨-,hlarge,-,htake⟩
  · exact hs.reserved r old hlook
  · have hlast : old.regionBegin+511∈s.buddy.freeCells := by
      rw [htake.cells]
      exact Multiset.mem_add.mpr (Or.inr (Region.mem_cells.mpr ⟨by omega,by omega⟩))
    exact hs.large hlarge _ hlast

theorem Sound.region {reg : Region} (h : s.Sound bound) (hfrom : s.Obtains r old s'.buddy)
    (hbegin : reg.regionBegin=old.regionBegin) (hmap : s'.twoMbMap=s.twoMbMap.insert r reg) :
    s'.Sound bound := by
  have hmem : ∀p∈s'.buddy.freeCells,p∈s.buddy.freeCells := by
    intro p hp
    rcases hfrom with ⟨-,heq⟩ | ⟨-,-,-,htake⟩
    · exact heq ▸ hp
    · rw [htake.cells]
      exact Multiset.mem_add.mpr (Or.inl hp)
  refine ⟨hfrom.wellFormed h.wellFormed,?_,fun p hp => h.free p (hmem p hp),?_,?_⟩
  · exact fun _ _ _ => hfrom.nine_le_maxOrder h.wellFormed h.orders
  · intro hlarge p hp
    exact h.large (fun hno => hlarge (hfrom.noLarge hno)) p (hmem p hp)
  · intro k reg' hlook
    rw [hmap] at hlook
    by_cases hk : k=r
    · subst hk
      rw [AList.lookup_insert] at hlook
      cases hlook
      rw [hbegin]
      exact hfrom.le_bound h
    · rw [AList.lookup_insert_ne hk] at hlook
      exact h.reserved k reg' hlook

/-- Giving up a region may put the page behind its block on the free lists. -/
theorem Sound.demotion {size : ℕ} {page : Option ℕ} (h : s.Sound bound) (hno : s.buddy.NoLarge)
    (hlook : s.twoMbMap.lookup r=some old) (hfree : freeUnused old s.buddy = .ok b)
    (halloc : b.allocate size = .ok (page,s'.buddy)) (hmap : s'.twoMbMap=s.twoMbMap.erase r) :
    s'.Sound bound ∧ s'.buddy.NoLarge ∧ ∀p,page=some p → p≤bound := by
  have hmax := h.orders r old hlook
  obtain ⟨b₁,hb₁,hmax₁,hwf₁,hcells,hno₁⟩:=freeUnused_spec old h.wellFormed (by omega)
  cases hfree.symm.trans hb₁
  have hno₁ := hno₁ hno
  have hmid : Sound bound {s with buddy:=b,twoMbMap:=s.twoMbMap.erase r} := by
    refine ⟨hwf₁,?_,?_,fun hlarge => (hlarge hno₁).elim,?_⟩
    · intro k reg _
      exact hmax₁.symm ▸ hmax
    · intro p hp
      change p∈b.freeCells at hp
      rw [hcells,Multiset.mem_add] at hp
      rcases hp with hp | hp
      · exact h.free p hp
      · have := Region.le_of_mem_freedCells hp
        have := h.reserved r old hlook
        omega
    · intro k reg hk
      exact h.reserved k reg (lookup_of_erase hk)
  rcases Buddy.allocate_cases hwf₁ halloc with ⟨q,rfl,htake⟩ | ⟨rfl,hsame,-⟩
  · refine ⟨hmid.takes htake hmap,htake.noLarge hno₁,?_⟩
    intro p hp
    cases hp
    refine hmid.free q ?_
    change q∈b.freeCells
    rw [htake.cells,Multiset.mem_add,Multiset.mem_Ico]
    exact Or.inr ⟨le_rfl,by have := Nat.two_pow_pos (Buddy.orderOf size); omega⟩
  · have htake : b.Takes s'.buddy 0 := by
      rw [hsame]
      exact Buddy.Takes.refl hwf₁
    exact ⟨hmid.takes htake hmap,htake.noLarge hno₁,fun p hp => nomatch hp⟩

end ReservationThpAllocator

/-- The answer for the page is the place of the page in the block of its region, or the
region has no block and cannot get one any more. -/
def Grant.Placed (s : ReservationThpAllocator) (g : Grant α) (v : ℕ) : Prop :=
  (∃reg,s.twoMbMap.lookup (v / 512)=some reg ∧ g.page v=some (reg.regionBegin+v % 512)) ∨
    (s.twoMbMap.lookup (v / 512)=none ∧ s.buddy.NoLarge)

/-- The answers given to one party so far, seen against the state of the allocator. -/
structure Consistent (bound : ℕ) (s : ReservationThpAllocator) (grants : List (Grant α)) : Prop where
  sound : s.Sound bound
  placed : ∀g∈grants,∀v,g.Covers v → g.Placed s v
  agree : ∀g∈grants,∀g'∈grants,∀v,g.Covers v → g'.Covers v → g.page v=g'.page v
  bounded : ∀g∈grants,∀v p,g.Covers v → g.page v=some p → p≤bound
  sizes : ∀g∈grants,g.allocation.pageSize=12 ∨ g.allocation.pageSize=21

/-- Where there is one party only, a promoted region also has an answer of its size. -/
structure Settled (bound : ℕ) (s : ReservationThpAllocator) (grants : List (Grant α)) : Prop
    extends Consistent bound s grants where
  promoted : ∀k reg,s.twoMbMap.lookup k=some reg → reg.promoted=true →
    ∃g∈grants,g.allocation.pageSize=21 ∧ g.vpn / 512=k

variable {s : ReservationThpAllocator}

theorem Consistent.cons {bound : ℕ} {grants : List (Grant α)} {g₀ : Grant α} (h : Consistent bound s grants)
    (hplaced : ∀v,g₀.Covers v → g₀.Placed s v)
    (hagree : ∀g∈grants,∀v,g.Covers v → g₀.Covers v → g.page v=g₀.page v)
    (hbounded : ∀v p,g₀.Covers v → g₀.page v=some p → p≤bound)
    (hsize : g₀.allocation.pageSize=12 ∨ g₀.allocation.pageSize=21) : Consistent bound s (g₀::grants) := by
  refine ⟨h.sound,List.forall_mem_cons.mpr ⟨hplaced,h.placed⟩,?_,
    List.forall_mem_cons.mpr ⟨hbounded,h.bounded⟩,List.forall_mem_cons.mpr ⟨hsize,h.sizes⟩⟩
  intro g hg g' hg' v hv hv'
  rcases List.mem_cons.mp hg with rfl | hold <;> rcases List.mem_cons.mp hg' with rfl | hold'
  · rfl
  · exact (hagree g' hold' v hv' hv).symm
  · exact hagree g hold v hv hv'
  · exact h.agree g hold g' hold' v hv hv'

theorem Grant.Placed.page_of_obtains {g : Grant α} {v : ℕ} {old : Region} {b : Buddy} (h : g.Placed s v)
    (hfrom : s.Obtains (v / 512) old b) : g.page v=some (old.regionBegin+v % 512) := by
  rcases h with ⟨reg,hlook,hpage⟩ | ⟨hnone,hno⟩
  · cases hfrom.lookup_eq hlook
    exact hpage
  · rcases hfrom with ⟨hlook,-⟩ | ⟨-,hlarge,-⟩
    · cases hnone.symm.trans hlook
    · exact (hlarge hno).elim

theorem Region.grant_pageSize (reg : Region) (offset : Fin 512) :
    (reg.grant offset).pageSize=if reg.promoted then 21 else 12 := by
  rw [Region.grant]
  split_ifs <;> rfl

section Region

variable {bound : ℕ} {s s' : ReservationThpAllocator} {grants : List (Grant α)} {req : Request}
  {old reg : Region} (h : Consistent bound s grants)
  (hfrom : s.Obtains (region2mb req.address) old s'.buddy) (hbegin : reg.regionBegin=old.regionBegin)
  (hmap : s'.twoMbMap=s.twoMbMap.insert (region2mb req.address) reg)

include h hfrom hbegin hmap

theorem Consistent.region_kept : Consistent bound s' grants := by
  refine ⟨h.sound.region hfrom hbegin hmap,?_,h.agree,h.bounded,h.sizes⟩
  intro g hg v hv
  have hplaced := h.placed g hg v hv
  by_cases hdiv : v / 512=region2mb req.address
  · refine Or.inl ⟨reg,?_,?_⟩
    · rw [hmap,hdiv,AList.lookup_insert]
    · rw [← hdiv] at hfrom
      rw [hbegin]
      exact hplaced.page_of_obtains hfrom
  · rw [Grant.Placed,hmap,AList.lookup_insert_ne hdiv]
    exact hplaced.imp_right (And.imp_right hfrom.noLarge)

theorem Consistent.region {a : α} :
    Consistent bound s' (⟨a,req.vpn,reg.grant (offsetIn2mb req.address)⟩::grants) := by
  refine (h.region_kept hfrom hbegin hmap).cons ?_ ?_ ?_ ?_
  · intro v hv
    obtain ⟨hdiv,hpage⟩:=Grant.page_region hv
    refine Or.inl ⟨reg,?_,hpage⟩
    rw [hmap,hdiv,AList.lookup_insert]
  · intro g hg v hv hv₀
    obtain ⟨hdiv,hpage⟩:=Grant.page_region hv₀
    rw [hpage,hbegin]
    rw [← hdiv] at hfrom
    exact (h.placed g hg v hv).page_of_obtains hfrom
  · intro v p hv hp
    obtain ⟨-,hpage⟩:=Grant.page_region hv
    have hle := hfrom.le_bound h.sound
    cases hp.symm.trans hpage
    omega
  · change (reg.grant _).pageSize=12 ∨ (reg.grant _).pageSize=21
    rw [Region.grant_pageSize]
    split_ifs
    · exact Or.inr rfl
    · exact Or.inl rfl

end Region

/-- A data request is answered with a page outside all reserved regions. -/
structure AnsweredSingly (bound : ℕ) (s s' : ReservationThpAllocator) (req : Request)
    (page : Option ℕ) : Prop where
  unreserved : s.twoMbMap.lookup (region2mb req.address)=none
  sound : s'.Sound bound
  noLarge : s'.buddy.NoLarge
  regions : ∀k reg,s'.twoMbMap.lookup k=some reg → s.twoMbMap.lookup k=some reg
  bounded : ∀p,page=some p → p≤bound

section Single

variable {bound : ℕ} {s s' : ReservationThpAllocator} {grants : List (Grant α)} {req : Request}
  {page : Option ℕ}

theorem Consistent.single_kept (h : Consistent bound s grants)
    (hsingle : AnsweredSingly bound s s' req page) : Consistent bound s' grants := by
  refine ⟨hsingle.sound,?_,h.agree,h.bounded,h.sizes⟩
  intro g hg v hv
  cases hlook : s'.twoMbMap.lookup (v / 512) with
  | none => exact Or.inr ⟨hlook,hsingle.noLarge⟩
  | some reg =>
    have hlook' := hsingle.regions _ _ hlook
    rcases h.placed g hg v hv with ⟨reg',hreg',hpage'⟩ | ⟨hnone',-⟩
    · cases hlook'.symm.trans hreg'
      exact Or.inl ⟨reg,hlook,hpage'⟩
    · cases hnone'.symm.trans hlook'

theorem Consistent.single {a : α} (h : Consistent bound s grants) (hfirst : ∀g∈grants,¬ g.Covers req.vpn)
    (hsingle : AnsweredSingly bound s s' req page) : Consistent bound s' (⟨a,req.vpn,⟨page,12⟩⟩::grants) := by
  refine (h.single_kept hsingle).cons ?_ ?_ ?_ (Or.inl rfl)
  · intro v hv
    cases Grant.covers_small.mp hv
    refine Or.inr ⟨?_,hsingle.noLarge⟩
    rw [req.vpn_div]
    cases hk : s'.twoMbMap.lookup (region2mb req.address) with
    | none => rfl
    | some reg => cases hsingle.unreserved.symm.trans (hsingle.regions _ _ hk)
  · intro g hg v hv hv₀
    cases Grant.covers_small.mp hv₀
    exact (hfirst g hg hv).elim
  · intro v p hv hp
    rw [Grant.page_small] at hp
    exact hsingle.bounded p hp

end Single

section Step

variable {bound : ℕ} {order : UtilizationSort} {s s' : ReservationThpAllocator}
  {grants : List (Grant α)} {answer : Allocation} {req : Request}

theorem ReservationThpAllocator.Sound.step_cases (h : s.Sound bound) (hdata : req.isPagetableAllocation=false)
    (he : s.allocate order req = .ok (answer,s')) :
    (∃old reg,s.Obtains (region2mb req.address) old s'.buddy ∧ reg.regionBegin=old.regionBegin ∧
      s'.twoMbMap=s.twoMbMap.insert (region2mb req.address) reg ∧
      answer=reg.grant (offsetIn2mb req.address)) ∨
    ∃page,answer=⟨page,12⟩ ∧ AnsweredSingly bound s s' req page := by
  cases ReservationThpAllocator.allocate_step h.wellFormed he with
  | pagetable page out hreq htake hmap => cases hdata.symm.trans hreq
  | region old hreq hold hfrom hmap => 
    exact Or.inl ⟨old,old.touch s.thresholdForPromotion (offsetIn2mb req.address),hfrom,rfl,hmap,rfl⟩
  | fallback page hreq hnone hlarge htake hmap =>
    refine Or.inr ⟨_,rfl,hnone,h.takes htake hmap,htake.noLarge hlarge,?_,?_⟩
    · intro k reg hlook
      rw [← hmap]
      exact hlook
    · intro p hp
      cases hp
      refine h.free _ ?_
      rw [htake.cells,Multiset.mem_add,Multiset.mem_Ico]
      exact Or.inr ⟨le_rfl,by have := Nat.two_pow_pos (Buddy.orderOf req.size); omega⟩
  | demotion r old b page hpress hvictim hfree halloc hmap =>
    obtain ⟨hlook,-,-⟩:=ReservationThpAllocator.victim_some hvictim
    obtain ⟨hsound,hno,hpage⟩:=h.demotion hpress.noLarge hlook hfree halloc hmap
    refine Or.inr ⟨_,rfl,hpress.unreserved,hsound,hno,?_,hpage⟩
    intro k reg hk
    rw [hmap] at hk
    exact lookup_of_erase hk

theorem Consistent.kept (h : Consistent bound s grants) (hdata : req.isPagetableAllocation=false)
    (he : s.allocate order req = .ok (answer,s')) : Consistent bound s' grants := by
  rcases h.sound.step_cases hdata he with ⟨old,reg,hfrom,hbegin,hmap,-⟩ | ⟨page,-,hsingle⟩
  · exact h.region_kept hfrom hbegin hmap
  · exact h.single_kept hsingle

theorem Consistent.step (a : α) (h : Consistent bound s grants) (hdata : req.isPagetableAllocation=false)
    (hfirst : s.twoMbMap.lookup (region2mb req.address)=none → ∀g∈grants,¬ g.Covers req.vpn)
    (he : s.allocate order req = .ok (answer,s')) : Consistent bound s' (⟨a,req.vpn,answer⟩::grants) := by
  rcases h.sound.step_cases hdata he with
    ⟨old,reg,hfrom,hbegin,hmap,rfl⟩ | ⟨page,rfl,hsingle⟩
  · exact h.region hfrom hbegin hmap
  · exact h.single (hfirst hsingle.unreserved) hsingle

theorem Settled.step (a : α) (req : Request) (h : Settled bound s grants)
    (hdata : req.isPagetableAllocation=false)
    (hfirst : s.twoMbMap.lookup (region2mb req.address)=none → ∀g∈grants,¬ g.Covers req.vpn)
    (he : s.allocate order req = .ok (answer,s')) : Settled bound s' (⟨a,req.vpn,answer⟩::grants) := by
  refine ⟨h.toConsistent.step a hdata hfirst he,?_⟩
  intro k reg' hlook hprom
  have hold : s.twoMbMap.lookup k=some reg' →
      ∃g∈⟨a,req.vpn,answer⟩::grants,g.allocation.pageSize=21 ∧ g.vpn / 512=k := by
    intro hlook
    obtain ⟨g,hg,hsize⟩:=h.promoted k reg' hlook hprom
    exact ⟨g,List.mem_cons_of_mem _ hg,hsize⟩
  rcases h.sound.step_cases hdata he with ⟨old,reg,-,-,hmap,rfl⟩ | ⟨page,-,hsingle⟩
  · rw [hmap] at hlook
    by_cases hk : k=region2mb req.address
    · subst hk
      rw [AList.lookup_insert] at hlook
      cases hlook
      refine ⟨_,List.mem_cons_self,?_,req.vpn_div⟩
      exact (Region.grant_pageSize _ _).trans (if_pos hprom)
    · rw [AList.lookup_insert_ne hk] at hlook
      exact hold hlook
  · exact hold (hsingle.regions k reg' hlook)

end Step

variable {s : ReservationThpAllocator}

theorem Consistent.withBase {bound : ℕ} {grants : List (Grant α)} (h : Consistent bound s grants)
    (base : PhysicalMemoryAllocator) :
    Consistent bound {s with toPhysicalMemoryAllocator:=base} grants :=
  ⟨⟨h.sound.wellFormed,h.sound.orders,h.sound.free,h.sound.large,h.sound.reserved⟩,h.placed,h.agree,h.bounded,
    h.sizes⟩

theorem Settled.withBase {bound : ℕ} {grants : List (Grant α)} (h : Settled bound s grants)
    (base : PhysicalMemoryAllocator) :
    Settled bound {s with toPhysicalMemoryAllocator:=base} grants :=
  ⟨h.toConsistent.withBase base,h.promoted⟩

theorem Settled.new {memorySize kernelSize : Int32} {maxOrder : ℕ} {fragType : String} {threshold : ℚ}
    (h : ReservationThpAllocator.new memorySize maxOrder kernelSize fragType threshold = .ok s) :
    Settled (Buddy.pagesIn memorySize) s ([] : List (Grant α)) := by
  obtain ⟨b,hb,h⟩:=bind_ok h
  cases h
  obtain ⟨-,hwf,hcells⟩:=Buddy.new_ok hb
  have hfree : ∀p∈b.freeCells,p<Buddy.pagesIn memorySize := by
    intro p hp
    rw [hcells] at hp
    exact (Multiset.mem_Ico.mp hp).2
  exact ⟨⟨⟨hwf,nofun,fun p hp => (hfree p hp).le,fun _ => hfree,nofun⟩,nofun,nofun,nofun,nofun⟩,nofun⟩

end Sniper.PhysicalMemory
