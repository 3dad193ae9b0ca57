import Sniper.ReservationSteps

/-!
# Who holds which physical page

A run of the reservation allocator is recorded as the list of its answers: one 4KB page for the
virtual page that asked, or, after a promotion, 512 pages for the whole region.
-/

namespace Sniper.PhysicalMemory
open BuddyAllocator FallibleRuns

variable {α : Type}

/-- One answer of `allocate`, with the application and the virtual page that asked. -/
structure Grant (α : Type) where
  app : α
  vpn : ℕ
  allocation : Allocation

/-- The grant gives physical page `p` to virtual page `v`. -/
def Grant.Gives (g : Grant α) (v p : ℕ) : Prop :=
  match g.allocation.ppn with
  | none => False
  | some q =>
    if g.allocation.pageSize=21 then v / 512=g.vpn / 512 ∧ p=q+v % 512
    else v=g.vpn ∧ p=q

def Request.vpn (req : Request) : ℕ := req.address / 2^12

theorem Request.vpn_div (req : Request) : req.vpn / 512=region2mb req.address := by
  rw [Request.vpn,region2mb,Nat.div_div_eq_div_mul]
  rfl

theorem Request.vpn_mod (req : Request) : req.vpn % 512=offsetIn2mb req.address := rfl

/-- The allocator together with all its answers to data requests, newest first. -/
structure Traced (α : Type) where
  allocator : ReservationThpAllocator
  grants : List (Grant α)

namespace Traced

def step (order : UtilizationSort) (t : Traced α) (call : α × Request) : Except Abort (Traced α) := do
  let (a,s) ← t.allocator.allocate order call.2
  .ok ⟨s,if call.2.isPagetableAllocation then t.grants
    else ⟨call.1,call.2.vpn,a⟩::t.grants⟩

/-- Some answer gave physical page `p` to virtual page `v` of application `a`. -/
def Gave (t : Traced α) (a : α) (v p : ℕ) : Prop := ∃g∈t.grants,g.app=a ∧ g.Gives v p

/-- No physical page was given to two virtual pages. -/
def NoReuse (t : Traced α) : Prop := ∀a a' v v' p,t.Gave a v p → t.Gave a' v' p → v=v'

end Traced

/-- The page belongs to the block of its region, at its own place and marked as used. -/
def InRegion (m : AList (fun _ : ℕ => Region)) (v p : ℕ) : Prop :=
  ∃r,m.lookup (v / 512)=some r ∧ p=r.regionBegin+v % 512 ∧
    (r.promoted=false → pageIndex v∈r.bits)

variable {m : AList (fun _ : ℕ => Region)} {p v : ℕ} {a : α}

theorem InRegion.mem_cells (h : InRegion m v p) : ∃r,m.lookup (v / 512)=some r ∧ p∈r.cells := by
  obtain ⟨r,hlook,rfl,-⟩:=h
  exact ⟨r,hlook,Region.mem_cells.mpr ⟨Nat.le_add_right _ _,by omega⟩⟩

theorem InRegion.mem_reservedCells (h : InRegion m v p) : p∈reservedCells m := by
  obtain ⟨r,hlook,hp⟩:=h.mem_cells
  exact Multiset.mem_of_le (cells_le_reservedCells hlook) hp

theorem lookup_eq_of_mem_cells (hm : (reservedCells m).Nodup) {k k' : ℕ} {r r' : Region}
    (hk : m.lookup k=some r) (hk' : m.lookup k'=some r') (hp : p∈r.cells) (hp' : p∈r'.cells) : k=k' := by
  by_contra hne
  rw [reservedCells_of_lookup hk] at hm
  have hk'' : (m.erase k).lookup k'=some r' := by
    rw [AList.lookup_erase_ne (Ne.symm hne)]
    exact hk'
  exact Multiset.disjoint_left.mp (Multiset.nodup_add.mp hm).2.2 hp
    (Multiset.mem_of_le (cells_le_reservedCells hk'') hp')

theorem InRegion.inj (hm : (reservedCells m).Nodup) {v' : ℕ} (h : InRegion m v p) (h' : InRegion m v' p) :
    v=v' := by
  obtain ⟨r,hlook,hp⟩:=h.mem_cells
  obtain ⟨r',hlook',hp'⟩:=h'.mem_cells
  have hdiv := lookup_eq_of_mem_cells hm hlook hlook' hp hp'
  obtain ⟨r₁,hlook₁,heq,-⟩:=h
  obtain ⟨r₁',hlook₁',heq',-⟩:=h'
  rw [hdiv] at hlook₁
  cases hlook₁.symm.trans hlook₁'
  omega

/-- `spent` holds the pages that have left the free lists for good. Free pages, reserved
pages and spent pages are all different, and every page given away is in the block of its
region or spent. -/
structure Tracked (spent : Multiset ℕ) (t : Traced α) : Prop where
  wellFormed : t.allocator.buddy.WellFormed
  orders : ∀k reg,t.allocator.twoMbMap.lookup k=some reg → 9≤t.allocator.buddy.maxOrder
  nodup : (t.allocator.buddy.freeCells+reservedCells t.allocator.twoMbMap+spent).Nodup
  placed : ∀a v p,t.Gave a v p → InRegion t.allocator.twoMbMap v p ∨ p∈spent
  noReuse : t.NoReuse

theorem Traced.gave_cons {s : ReservationThpAllocator} {g : Grant α} {gs : List (Grant α)} :
    Traced.Gave ⟨s,g::gs⟩ a v p ↔ (g.app=a ∧ g.Gives v p) ∨ ∃g'∈gs,g'.app=a ∧ g'.Gives v p := by
  simp [Traced.Gave]

theorem Grant.gives_small {v₀ q : ℕ} : (Grant.mk a v₀ ⟨some q,12⟩).Gives v p ↔ v=v₀ ∧ p=q := by
  simp [Grant.Gives]

theorem Grant.not_gives_none {v₀ n : ℕ} : ¬ (Grant.mk a v₀ ⟨none,n⟩).Gives v p := id

namespace ReservationThpAllocator

variable {b : Buddy} {old : Region} {r : ℕ} {s : ReservationThpAllocator}

variable (h : s.Obtains r old b)
include h

theorem Obtains.lookup_eq {reg : Region} (hr : s.twoMbMap.lookup r=some reg) : reg=old := by
  rcases h with ⟨hlook,-⟩ | ⟨hlook,-⟩
  · exact Option.some.inj (hr.symm.trans hlook)
  · cases hr.symm.trans hlook

theorem Obtains.wellFormed (hwf : s.buddy.WellFormed) : b.WellFormed := by
  rcases h with ⟨-,rfl⟩ | ⟨-,-,-,htake⟩
  · exact hwf
  · exact htake.wellFormed

theorem Obtains.nine_le_maxOrder (hwf : s.buddy.WellFormed)
    (hs : ∀k reg,s.twoMbMap.lookup k=some reg → 9 ≤ s.buddy.maxOrder) : 9≤b.maxOrder := by
  rcases h with ⟨hlook,rfl⟩ | ⟨-,hlarge,-,htake⟩
  · exact hs r old hlook
  · rw [htake.maxOrder]
    by_contra hlt
    exact hlarge fun k hk => hwf.beyond k (by omega)

theorem Obtains.cells : b.freeCells+(old.cells+reservedCells (s.twoMbMap.erase r)) =
      s.buddy.freeCells+reservedCells s.twoMbMap := by
  rcases h with ⟨hlook,rfl⟩ | ⟨hlook,-,-,htake⟩
  · rw [reservedCells_of_lookup hlook]
  · rw [reservedCells_erase_of_lookup_none hlook,htake.cells,add_assoc]

end ReservationThpAllocator

variable {old : Region} {p : ℕ} {a : α} {req : Request} {s' : ReservationThpAllocator}
  {spent : Multiset ℕ} {t : Traced α}

theorem InRegion.touch {k : ℕ} {t : ℚ} {offset : Fin 512} (h : InRegion m v p)
    (hk : ∀reg,m.lookup k=some reg → reg=old) (hold : old.promoted=false) :
    InRegion (m.insert k (old.touch t offset)) v p := by
  obtain ⟨reg,hlook,hp,hbit⟩:=h
  by_cases hv : v / 512=k
  · rw [hv] at hlook
    cases hk reg hlook
    refine ⟨old.touch t offset,by rw [hv,AList.lookup_insert],hp,fun _ => ?_⟩
    exact Finset.mem_insert_of_mem (hbit hold)
  · exact ⟨reg,by rw [AList.lookup_insert_ne hv,hlook],hp,hbit⟩

theorem inRegion_of_grant {m : AList (fun _ : ℕ => Region)} {reg : Region} {v : ℕ}
    (hbit : offsetIn2mb req.address∈reg.bits)
    (h : (Grant.mk a req.vpn (reg.grant (offsetIn2mb req.address))).Gives v p) :
    InRegion (m.insert (region2mb req.address) reg) v p := by
  by_cases hprom : reg.promoted=true
  · rw [Region.grant,if_pos hprom] at h
    simp only [Grant.Gives,↓reduceIte] at h
    obtain ⟨hv,rfl⟩:=h
    rw [req.vpn_div] at hv
    exact ⟨reg,by rw [hv,AList.lookup_insert],rfl,fun hf => absurd (hprom.symm.trans hf) (by decide)⟩
  · rw [Region.grant,if_neg hprom] at h
    obtain ⟨rfl,rfl⟩:=Grant.gives_small.mp h
    exact ⟨reg,by rw [req.vpn_div,AList.lookup_insert],by rw [req.vpn_mod],fun _ => hbit⟩

section

variable (h : Tracked spent t)
include h

theorem Tracked.region (hold : old.promoted=false)
    (hfrom : t.allocator.Obtains (region2mb req.address) old s'.buddy) (hmap : s'.twoMbMap =
    t.allocator.twoMbMap.insert (region2mb req.address) (old.touch t.allocator.thresholdForPromotion
    (offsetIn2mb req.address))) : Tracked spent ⟨s',⟨a,req.vpn,(old.touch t.allocator.thresholdForPromotion
      (offsetIn2mb req.address)).grant (offsetIn2mb req.address)⟩::t.grants⟩ := by
  have hnodup : (s'.buddy.freeCells+reservedCells s'.twoMbMap+spent).Nodup := by
    rw [hmap,reservedCells_insert,Region.touch_cells,hfrom.cells]
    exact h.nodup
  have hplaced : ∀b v p,Traced.Gave ⟨s',⟨a,req.vpn,(old.touch
      t.allocator.thresholdForPromotion (offsetIn2mb req.address)).grant
      (offsetIn2mb req.address)⟩::t.grants⟩ b v p →
      InRegion s'.twoMbMap v p ∨ (p∈spent ∧ t.Gave b v p) := by
    intro b v p hgave
    rcases Traced.gave_cons.mp hgave with ⟨-,hnew⟩ | hgave
    · refine Or.inl ?_
      rw [hmap]
      exact inRegion_of_grant (Finset.mem_insert_self _ _) hnew
    · rcases h.placed b v p hgave with hin | hspent
      · refine Or.inl ?_
        rw [hmap]
        exact hin.touch (fun _ hr => hfrom.lookup_eq hr) hold
      · exact Or.inr ⟨hspent,hgave⟩
  have hdisj := (Multiset.nodup_add.mp hnodup).2.2
  refine ⟨hfrom.wellFormed h.wellFormed,?_,hnodup,?_,?_⟩
  · exact fun _ _ _ => hfrom.nine_le_maxOrder h.wellFormed h.orders
  · intro b v p hgave
    exact (hplaced b v p hgave).imp_right And.left
  · intro b b' v v' p hgave hgave'
    have hres : ∀w,InRegion s'.twoMbMap w p → p∈spent → False := by
      intro w hin hspent
      exact Multiset.disjoint_left.mp hdisj
        (Multiset.mem_add.mpr (Or.inr hin.mem_reservedCells)) hspent
    rcases hplaced b v p hgave with hin | ⟨hspent,hgave⟩ <;>
      rcases hplaced b' v' p hgave' with hin' | ⟨hspent',hgave'⟩
    · exact hin.inj (Multiset.nodup_add.mp (Multiset.nodup_add.mp hnodup).1).2.1 hin'
    · exact (hres v hin hspent').elim
    · exact (hres v' hin' hspent).elim
    · exact h.noReuse b b' v v' p hgave hgave'

theorem Tracked.not_gave_free (hp : p∈t.allocator.buddy.freeCells) (a : α) (v : ℕ) : ¬ t.Gave a v p := by
  intro hgave
  have hsplit := Multiset.nodup_add.mp h.nodup
  rcases h.placed a v p hgave with hin | hspent
  · exact Multiset.disjoint_left.mp (Multiset.nodup_add.mp hsplit.1).2.2 hp hin.mem_reservedCells
  · exact Multiset.disjoint_left.mp hsplit.2.2 (Multiset.mem_add.mpr (Or.inl hp)) hspent

theorem Tracked.takes {out : Multiset ℕ} (htake : t.allocator.buddy.Takes s'.buddy out)
    (hmap : s'.twoMbMap=t.allocator.twoMbMap) : Tracked (out+spent) ⟨s',t.grants⟩ := by
  refine ⟨htake.wellFormed,?_,?_,?_,h.noReuse⟩
  · intro k reg hlook
    rw [hmap] at hlook
    exact htake.maxOrder.symm ▸ h.orders k reg hlook
  · have hsum : s'.buddy.freeCells+reservedCells s'.twoMbMap+(out+spent) =
        t.allocator.buddy.freeCells+reservedCells t.allocator.twoMbMap+spent := by
      rw [hmap,htake.cells]
      abel
    rw [hsum]
    exact h.nodup
  · intro a v p hgave
    rw [hmap]
    exact (h.placed a v p hgave).imp_right fun hp => Multiset.mem_add.mpr (Or.inr hp)

theorem Tracked.fallback {out : Multiset ℕ} {page : ℕ} (htake : t.allocator.buddy.Takes s'.buddy out)
    (hpage : page∈out) (hmap : s'.twoMbMap=t.allocator.twoMbMap) :
    Tracked (out+spent) ⟨s',⟨a,req.vpn,⟨some page,12⟩⟩::t.grants⟩ := by
  have hbase := h.takes htake hmap
  have hfree : page∈t.allocator.buddy.freeCells := by
    rw [htake.cells]
    exact Multiset.mem_add.mpr (Or.inr hpage)
  refine ⟨hbase.wellFormed,hbase.orders,hbase.nodup,?_,?_⟩
  · intro b v p hgave
    rcases Traced.gave_cons.mp hgave with ⟨-,hnew⟩ | hgave
    · obtain ⟨-,rfl⟩:=Grant.gives_small.mp hnew
      exact Or.inr (Multiset.mem_add.mpr (Or.inl hpage))
    · exact hbase.placed b v p hgave
  · intro b b' v v' p hgave hgave'
    rcases Traced.gave_cons.mp hgave with ⟨-,hnew⟩ | hearlier <;>
      rcases Traced.gave_cons.mp hgave' with ⟨-,hnew'⟩ | hearlier'
    · rw [(Grant.gives_small.mp hnew).1,(Grant.gives_small.mp hnew').1]
    · obtain ⟨-,rfl⟩:=Grant.gives_small.mp hnew
      exact (h.not_gave_free hfree b' v' hearlier').elim
    · obtain ⟨-,rfl⟩:=Grant.gives_small.mp hnew'
      exact (h.not_gave_free hfree b v hearlier).elim
    · exact h.noReuse b b' v v' p hearlier hearlier'

theorem Tracked.demotion {r : ℕ} (hlook : t.allocator.twoMbMap.lookup r=some old)
    (hbuddy : s'.buddy=t.allocator.buddy) (hmap : s'.twoMbMap=t.allocator.twoMbMap.erase r) :
    Tracked (old.cells+spent) ⟨s',⟨a,req.vpn,⟨none,12⟩⟩::t.grants⟩ := by
  have hgave : ∀b v p,Traced.Gave ⟨s',⟨a,req.vpn,⟨none,12⟩⟩::t.grants⟩ b v p →
      t.Gave b v p := by
    intro b v p hgave
    rcases Traced.gave_cons.mp hgave with ⟨-,hnew⟩ | hearlier
    · exact (Grant.not_gives_none hnew).elim
    · exact hearlier
  refine ⟨hbuddy ▸ h.wellFormed,?_,?_,?_,?_⟩
  · intro _ _ _
    exact hbuddy.symm ▸ h.orders r old hlook
  · have hsum : s'.buddy.freeCells+reservedCells s'.twoMbMap+(old.cells+spent) =
        t.allocator.buddy.freeCells+reservedCells t.allocator.twoMbMap+spent := by
      rw [hmap,hbuddy,reservedCells_of_lookup hlook]
      abel
    rw [hsum]
    exact h.nodup
  · intro b v p hnew
    rcases h.placed b v p (hgave b v p hnew) with ⟨reg,hreg,rfl,hbit⟩ | hspent
    · by_cases hv : v / 512=r
      · rw [hv,hlook] at hreg
        cases hreg
        refine Or.inr (Multiset.mem_add.mpr (Or.inl (Region.mem_cells.mpr ?_)))
        omega
      · refine Or.inl ⟨reg,?_,rfl,hbit⟩
        rw [hmap,AList.lookup_erase_ne hv,hreg]
    · exact Or.inr (Multiset.mem_add.mpr (Or.inr hspent))
  · intro b b' v v' p hnew hnew'
    exact h.noReuse b b' v v' p (hgave b v p hnew) (hgave b' v' p hnew')

end

namespace Traced

/-- If the call demotes a region, all regions it could demote are full. -/
def DemotesFull (t : Traced α) (call : α × Request) : Prop :=
  t.allocator.UnderPressure call.2 → t.allocator.AllFull

theorem demotion_of_full {s b b' : Buddy} {size : ℕ} {page : Option ℕ} (hfull : old.bits=Finset.univ)
    (hempty : ∀k,Buddy.orderOf size≤k → s.freeList k=[])
    (hfree : ReservationThpAllocator.freeUnused old s = .ok b) (halloc : b.allocate size = .ok (page,b')) :
    page=none ∧ b'=s := by
  rw [ReservationThpAllocator.freeUnused_of_full hfull] at hfree
  cases hfree
  exact Buddy.allocate_of_empty hempty halloc

theorem step_tracked {order : UtilizationSort} {t' : Traced α} {call : α × Request} (h : Tracked spent t)
    (hfull : t.DemotesFull call) (he : t.step order call = .ok t') : ∃spent',Tracked spent' t' := by
  obtain ⟨⟨a,s'⟩,ha,he⟩:=bind_ok he
  cases he
  cases ReservationThpAllocator.allocate_step h.wellFormed ha with
  | pagetable page out hreq htake hmap =>
    rw [if_pos hreq]
    exact ⟨_,h.takes htake hmap⟩
  | region old hreq hold hfrom hmap =>
    rw [if_neg (by simp [hreq])]
    exact ⟨_,h.region hold hfrom hmap⟩
  | fallback page hreq hnone hlarge htake hmap =>
    rw [if_neg (by simp [hreq])]
    exact ⟨_,h.fallback htake (Multiset.mem_Ico.mpr ⟨le_rfl,by
      have := Nat.two_pow_pos (Buddy.orderOf call.2.size)
      omega⟩) hmap⟩
  | demotion r old b page hpress hvictim hfree halloc hmap =>
    rw [if_neg (by simp [hpress.data])]
    obtain ⟨hlook,hprom,-⟩:=ReservationThpAllocator.victim_some hvictim
    obtain ⟨rfl,hbuddy⟩:=demotion_of_full (hfull hpress r old hlook hprom)
      hpress.noBlock hfree halloc
    exact ⟨_,h.demotion hlook hbuddy hmap⟩

end Traced

end Sniper.PhysicalMemory
