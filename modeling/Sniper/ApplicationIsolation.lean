import Sniper.DemotionSafety

/-!
# Applications that share the reservation map

`two_mb_map` is keyed by the virtual region alone, so two applications that touch the same
2MB virtual region use the same reserved block.
-/

namespace Sniper.PhysicalMemory
open BuddyAllocator FallibleRuns ReservationThpAllocator

variable {α : Type}

namespace Traced

/-- No physical page was given to two applications. -/
def Isolated (t : Traced α) : Prop := ∀a a' v v' p,t.Gave a v p → t.Gave a' v' p → a=a'

/-- Nobody but the caller has been answered for the virtual region of the request. -/
def OnlyCaller (t : Traced α) (call : α × Request) : Prop :=
  ∀g∈t.grants,g.vpn / 512=region2mb call.2.address → g.app=call.1

/-- If the call runs into the assertion on promoted regions, the region is the caller's own. -/
def NoForeignAbort (order : UtilizationSort) (t : Traced α) (call : α × Request) : Prop :=
  t.allocator.allocate order call.2 = .error .alreadyPromoted → t.OnlyCaller call

/-- A reserved region is the caller's own, or the call only adds one unused page of it. -/
def Harmless (t : Traced α) (call : α × Request) : Prop :=
  call.2.isPagetableAllocation=false → ∀region,
    t.allocator.twoMbMap.lookup (region2mb call.2.address)=some region →
      t.OnlyCaller call ∨ (region.promoted=false ∧
        offsetIn2mb call.2.address∉region.bits ∧
        (region.touch t.allocator.thresholdForPromotion
          (offsetIn2mb call.2.address)).promoted=false)

theorem Harmless.noForeignAbort {order : UtilizationSort} {t : Traced α} {call : α × Request}
    (h : t.Harmless call) : t.NoForeignAbort order call := by
  intro habort
  by_contra hother
  refine allocate_not_alreadyPromoted order t.allocator call.2 ?_
    .alreadyPromoted habort rfl
  intro hreq region hlook
  exact ((h hreq region hlook).resolve_left hother).1

end Traced

theorem Grant.Gives.region {g : Grant α} {v p : ℕ} (h : g.Gives v p) : v / 512=g.vpn / 512 := by
  rw [Grant.Gives] at h
  split at h
  · exact h.elim
  · split_ifs at h
    · exact h.1
    · rw [h.1]

theorem gives_of_touch {req : Request} {old : Region} {thr : ℚ} {a : α} {v p : ℕ}
    (h : (Grant.mk a req.vpn ((old.touch thr (offsetIn2mb req.address)).grant
      (offsetIn2mb req.address))).Gives v p) : v / 512=region2mb req.address ∧ p∈old.cells := by
  have hv : v / 512=region2mb req.address := h.region.trans req.vpn_div
  obtain ⟨reg,hlook,hp⟩:=(inRegion_of_grant (m:=∅) (Finset.mem_insert_self _ _) h).mem_cells
  rw [hv,AList.lookup_insert] at hlook
  cases hlook
  exact ⟨hv,hp⟩

theorem Traced.Isolated.cons {t : Traced α} {s : ReservationThpAllocator} {g : Grant α} (h : t.Isolated)
    (hnew : ∀a v v' p,g.Gives v p → t.Gave a v' p → a=g.app) : Traced.Isolated ⟨s,g::t.grants⟩ := by
  intro a a' v v' p hgave hgave'
  rcases Traced.gave_cons.mp hgave with ⟨rfl,hg⟩ | hearlier <;>
    rcases Traced.gave_cons.mp hgave' with ⟨rfl,hg'⟩ | hearlier'
  · rfl
  · exact (hnew a' v v' p hg hearlier').symm
  · exact hnew a v' v p hg' hearlier
  · exact h a a' v v' p hearlier hearlier'

theorem Tracked.region_foreign {spent : Multiset ℕ} {t : Traced α} {call : α × Request} {old : Region}
    {b : Buddy} (h : Tracked spent t) (hharm : t.Harmless call) (hreq : call.2.isPagetableAllocation=false)
    (hfrom : t.allocator.Obtains (region2mb call.2.address) old b) {a : α} {v v' p : ℕ}
    (hnew : (Grant.mk call.1 call.2.vpn ((old.touch t.allocator.thresholdForPromotion
      (offsetIn2mb call.2.address)).grant (offsetIn2mb call.2.address))).Gives v p) (hgave : t.Gave a v' p) :
    a=call.1 := by
  obtain ⟨hv,hp⟩:=gives_of_touch hnew
  rcases hfrom with ⟨hlook,-⟩ | ⟨-,-,-,htake⟩
  · have hspent : p∉spent := fun hs => Multiset.disjoint_left.mp (Multiset.nodup_add.mp h.nodup).2.2
      (Multiset.mem_add.mpr (Or.inr (Multiset.mem_of_le (cells_le_reservedCells hlook) hp))) hs
    have hin := (h.placed a v' p hgave).resolve_right hspent
    obtain ⟨reg,hlook',hp'⟩:=hin.mem_cells
    have hv' := lookup_eq_of_mem_cells
      (Multiset.nodup_add.mp (Multiset.nodup_add.mp h.nodup).1).2.1 hlook' hlook hp' hp
    rcases hharm hreq old hlook with honly | ⟨hold,hbit,htouch⟩
    · obtain ⟨g,hg,rfl,hgives⟩:=hgave
      exact honly g hg (hgives.region.symm.trans hv')
    · rw [Region.grant,htouch] at hnew
      obtain ⟨rfl,rfl⟩:=Grant.gives_small.mp hnew
      obtain ⟨reg',hlook'',heq,hset⟩:=hin
      rw [hv',hlook] at hlook''
      cases hlook''
      have hoff : pageIndex v'=offsetIn2mb call.2.address := by
        apply Fin.ext
        have hsame : old.regionBegin+(offsetIn2mb call.2.address).val =
          old.regionBegin+v' % 512 := heq
        exact (Nat.add_left_cancel hsame).symm
      exact (hbit (hoff ▸ hset hold)).elim
  · refine (h.not_gave_free ?_ a v' hgave).elim
    rw [htake.cells]
    exact Multiset.mem_add.mpr (Or.inr hp)

namespace Traced

theorem step_isolated {order : UtilizationSort} {spent : Multiset ℕ} {t t' : Traced α} {call : α × Request}
    (h : Tracked spent t) (hiso : t.Isolated) (hfull : t.DemotesFull call) (hharm : t.Harmless call)
    (he : t.step order call = .ok t') : t'.Isolated := by
  obtain ⟨⟨a,s'⟩,ha,he⟩:=bind_ok he
  cases he
  cases allocate_step h.wellFormed ha with
  | pagetable page out hreq htake hmap =>
    rw [if_pos hreq]
    exact hiso
  | region old hreq hold hfrom hmap =>
    rw [if_neg (by simp [hreq])]
    apply hiso.cons
    intro b v v' p hnew hgave
    exact h.region_foreign hharm hreq hfrom hnew hgave
  | fallback page hreq hnone hlarge htake hmap =>
    rw [if_neg (by simp [hreq])]
    apply hiso.cons
    intro b v v' p hnew hgave
    obtain ⟨-,rfl⟩:=Grant.gives_small.mp hnew
    refine (h.not_gave_free ?_ b v' hgave).elim
    rw [htake.cells]
    have hpos := Nat.two_pow_pos (Buddy.orderOf call.2.size)
    exact Multiset.mem_add.mpr (Or.inr (Multiset.mem_Ico.mpr ⟨le_rfl,by omega⟩))
  | demotion r old b page hpress hvictim hfree halloc hmap =>
    rw [if_neg (by simp [hpress.data])]
    obtain ⟨hlook,hprom,-⟩:=victim_some hvictim
    obtain ⟨rfl,-⟩:=demotion_of_full (hfull hpress r old hlook hprom) hpress.noBlock hfree halloc
    apply hiso.cons
    intro b v v' p hnew
    exact (Grant.not_gives_none hnew).elim

/-- No state of the run gives one page to two applications, and no call of the run aborts
on a region that another application was answered for. -/
def Isolation (order : UtilizationSort) (t : Traced α) (calls : List (α × Request)) : Prop :=
  (∀pre,pre <+: calls → ∀t',run (step order) t pre = .ok t' → t'.Isolated) ∧
    Along (step order) (NoForeignAbort order) t calls

end Traced

/-- For every configuration, applications are isolated in every run whose demotions meet
only full regions and whose calls are harmless to regions of other applications. -/
theorem isolation_of_harmless (order : UtilizationSort) (memorySize kernelSize : Int32) (maxOrder : ℕ)
    (fragType : String) (threshold : ℚ) (calls : List (α × Request)) (s : ReservationThpAllocator)
    (hs : ReservationThpAllocator.new memorySize maxOrder kernelSize fragType threshold = .ok s)
    (hcalls : Along (Traced.step order) (fun t call => t.DemotesFull call ∧ t.Harmless call)
      ⟨s,[]⟩ calls) : Traced.Isolation order ⟨s,[]⟩ calls := by
  have hstep : ∀ (t : Traced α) (call : α × Request) (t' : Traced α),
      ((∃spent,Tracked spent t) ∧ t.Isolated) → (t.DemotesFull call ∧ t.Harmless call) →
        t.step order call = .ok t' → (∃spent,Tracked spent t') ∧ t'.Isolated := by
    rintro t call t' ⟨⟨spent,ht⟩,hiso⟩ ⟨hfull,hharm⟩ he
    exact ⟨Traced.step_tracked ht hfull he,Traced.step_isolated ht hiso hfull hharm he⟩
  have hinit : (∃spent,Tracked spent (⟨s,[]⟩ : Traced α)) ∧
      Traced.Isolated (⟨s,[]⟩ : Traced α) := by
    refine ⟨⟨0,(Traced.new_tracked hs).1⟩,?_⟩
    rintro a a' v v' p ⟨g,hg,-⟩
    cases hg
  constructor
  · rintro pre ⟨post,rfl⟩ t' hrun
    exact (run_invariant hstep hinit hcalls.left hrun).2
  · exact hcalls.mono fun t call hcall => hcall.2.noForeignAbort

/-- Two applications that touch different regions of a 2MB memory. -/
theorem isolation_of_two_regions : Traced.Isolation .insertion ⟨⟨.new 0,oneBlockBuddy,∅,0,{}⟩,[]⟩
      [(0,⟨4096,0,false,false⟩),(1,⟨4096,2^21,false,false⟩)] := by
  obtain ⟨b,hres,-⟩:=oneBlockBuddy_reserve
  obtain ⟨s,hs,-,-,hmap⟩:=allocate_of_block .insertion
    ⟨.new 0,oneBlockBuddy,∅,0,{}⟩ ⟨4096,0,false,false⟩ rfl rfl hres
  refine isolation_of_harmless .insertion 2 0 9 "largepage" 0 _ _ rfl ⟨⟨?_,?_⟩,?_⟩
  · exact fun _ r region hlook => nomatch hlook
  · exact fun _ region hlook => nomatch hlook
  · intro t ht
    simp only [Traced.step,hs,ok_bind] at ht
    cases ht
    refine ⟨⟨fun _ r region hlook hprom => ?_,fun _ region hlook => Or.inl ?_⟩,fun _ _ => trivial⟩
    · have hmap' : s.twoMbMap=AList.insert 0 (Region.touch 0 0 ⟨0,∅,false⟩) ∅ := hmap
      have hlook' : s.twoMbMap.lookup r=some region := hlook
      rw [hmap'] at hlook'
      by_cases hr : r=0
      · subst hr
        rw [AList.lookup_insert] at hlook'
        cases hlook'
        simp [Region.touch] at hprom
      · rw [AList.lookup_insert_ne hr] at hlook'
        cases hlook'
    · intro g hg hregion
      rw [List.mem_singleton.mp hg] at hregion
      cases hregion

/-- Two applications that each fault once on virtual page 0 are given the same page. -/
theorem isolation_fails_in_shared_region : ReservationThpAllocator.new 2 9 0 "largepage" 1 =
        .ok ⟨.new 0,oneBlockBuddy,∅,1,{}⟩ ∧ ¬ Traced.Isolation .insertion ⟨⟨.new 0,oneBlockBuddy,∅,1,{}⟩,[]⟩
        [(0,⟨4096,0,false,false⟩),(1,⟨4096,0,false,false⟩)] := by
  refine ⟨rfl,?_⟩
  rintro ⟨hiso,-⟩
  obtain ⟨s,hs,-,hmap,hthr⟩:=oneBlockBuddy_touch .insertion
  have hlook : s.twoMbMap.lookup 0=some ⟨0,{0},false⟩ := hmap ▸ rfl
  obtain ⟨s',hs',-⟩:=allocate_of_reserved .insertion s
    ⟨4096,0,false,false⟩ rfl hlook rfl
  have hgrant : Region.grant 0 (Region.touch 1 0 ⟨0,{0},false⟩)=⟨some 0,12⟩ := by
    rw [Region.grant,if_neg (by simp [Region.touch_one])]
    rfl
  rw [hthr,show offsetIn2mb 0=0 from rfl,hgrant] at hs'
  have hrun : run (Traced.step .insertion) ⟨⟨.new 0,oneBlockBuddy,∅,1,{}⟩,[]⟩
      [(0,⟨4096,0,false,false⟩),(1,⟨4096,0,false,false⟩)] =
      .ok ⟨s',[⟨1,0,⟨some 0,12⟩⟩,⟨0,0,⟨some 0,12⟩⟩]⟩ := by
    simp only [run_cons,run_nil,Traced.step,hs,hs',ok_bind]
    rfl
  have hsame := hiso _ (List.prefix_refl _) _ hrun 0 1 0 0 0
    ⟨⟨0,0,⟨some 0,12⟩⟩,by simp,rfl,Grant.gives_small.mpr ⟨rfl,rfl⟩⟩
    ⟨⟨1,0,⟨some 0,12⟩⟩,by simp,rfl,Grant.gives_small.mpr ⟨rfl,rfl⟩⟩
  cases hsame

end Sniper.PhysicalMemory
