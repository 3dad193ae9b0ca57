import Sniper.HugePageAccounting

/-! # Alignment of the huge-page pools -/

namespace Sniper.HugePages
open FallibleRuns

theorem HugePageSize.pages_dvd (size : HugePageSize) : size.pages ∣ 2^64 := by
  cases size with
  | size2mb => exact Nat.pow_dvd_pow 2 (show 9≤64 by decide)
  | size1gb => exact Nat.pow_dvd_pow 2 (show 18≤64 by decide)

namespace HugeTlbfs

theorem layPages_aligned {size : HugePageSize} {n : ℕ} {ppn : UInt64} (hppn : size.pages ∣ ppn.toNat) :
    ∀x∈(layPages size n ppn).1,size.pages ∣ x.basePpn.toNat := by
  induction n generalizing ppn with
  | zero =>
    intro x hx
    cases hx
  | succ n ih =>
    intro x hx
    rcases List.mem_cons.mp hx with rfl | hx
    · exact hppn
    · refine ih ?_ x hx
      rw [UInt64.toNat_add,toNat_ofNat_pages,Nat.dvd_mod_iff size.pages_dvd]
      exact Nat.dvd_add hppn (dvd_refl _)

theorem dvd_layPages_end_iff (n : ℕ) : 262144 ∣ (layPages .size2mb n poolBasePpn).2.toNat ↔ 512 ∣ n := by
  have hbase : poolBasePpn.toNat=0x100000 := rfl
  have hdvd : 262144 ∣ 2^64 := HugePageSize.size1gb.pages_dvd
  rw [layPages_end,hbase,Nat.dvd_mod_iff hdvd]
  simp only [HugePageSize.pages]
  omega

/-- Every page of every pool starts at a multiple of its size. -/
def Aligned (s : HugeTlbfs) : Prop := ∀size,∀x∈s.pool size,size.pages ∣ x.block.first

theorem new_aligned {enabled : Bool} {nr2mb nr1gb : UInt64} (h : enabled=true → nr1gb=0 ∨ 512 ∣ nr2mb.toNat) :
    (new enabled nr2mb nr1gb).Aligned := by
  intro size x hx
  cases enabled with
  | false => cases hx
  | true =>
    cases size with
    | size2mb => exact layPages_aligned (by decide) x hx
    | size1gb =>
      rcases h rfl with rfl | hdvd
      · cases hx
      · exact layPages_aligned ((dvd_layPages_end_iff nr2mb.toNat).mpr hdvd) x hx

theorem Aligned.of_blocks {s s' : HugeTlbfs} (h : s.Aligned)
    (hblocks : ∀size,(s'.pool size).map HugePageInfo.block =
      (s.pool size).map HugePageInfo.block) : s'.Aligned := by
  intro size x hx
  have hmem : x.block∈(s.pool size).map HugePageInfo.block := by
    rw [← hblocks size]
    exact List.mem_map_of_mem hx
  obtain ⟨y,hy,hblock⟩:=List.mem_map.mp hmem
  rw [← hblock]
  exact h size y hy

theorem Aligned.allocated {s : HugeTlbfs} (h : s.Aligned) {appId : Int32} {vaddr base : UInt64}
    {size : HugePageSize} (he : (s.allocateHugePage appId vaddr size).1=some base) :
    size.pages ∣ base.toNat := by
  simp only [HugeTlbfs.allocateHugePage] at he
  split_ifs at he
  obtain ⟨x,hx,rfl⟩:=Option.map_eq_some_iff.mp he
  exact h size x (List.mem_of_getElem? hx)

end HugeTlbfs

/-- Whatever a request returns after any calls starts at a multiple of its size. -/
def AllocationsAligned (enabled : Bool) (nrHugepages2mb nrHugepages1gb : UInt64) : Prop :=
  ∀calls l appId vaddr size base,
    run PoolLedger.step (.new enabled nrHugepages2mb nrHugepages1gb) calls = .ok l →
    (l.service.allocateHugePage appId vaddr size).1=some base → size.pages ∣ base.toNat

/-- All allocations are aligned exactly when there are no 1GB pages or the 2MB pages make up whole
gigabytes. -/
theorem allocations_aligned_iff (enabled : Bool) (nr2mb nr1gb : UInt64) :
    AllocationsAligned enabled nr2mb nr1gb ↔ (enabled=true → nr1gb=0 ∨ 512 ∣ nr2mb.toNat) := by
  constructor
  · rintro haligned rfl
    by_contra hcond
    obtain ⟨hsome,hodd⟩:=not_or.mp hcond
    have hpos : 0<nr1gb.toNat := by
      rw [Nat.pos_iff_ne_zero]
      intro hzero
      exact hsome (UInt64.toNat_inj.mp hzero)
    obtain ⟨n,hn⟩ : ∃n,nr1gb.toNat=n+1:=⟨nr1gb.toNat - 1,by omega⟩
    have hfirst : ((PoolLedger.new true nr2mb nr1gb).service.allocateHugePage 0 0 .size1gb).1 =
        some (HugeTlbfs.layPages .size2mb nr2mb.toNat HugeTlbfs.poolBasePpn).2 := by
      have hpool : (PoolLedger.new true nr2mb nr1gb).service.pool .size1gb =
          (HugeTlbfs.layPages .size1gb (n+1)
            (HugeTlbfs.layPages .size2mb nr2mb.toNat HugeTlbfs.poolBasePpn).2).1 := by
        rw [← hn]
        rfl
      have hidx : (PoolLedger.new true nr2mb nr1gb).service.findFreeHugePage .size1gb=0 := by
        rw [HugeTlbfs.findFreeHugePage,hpool]
        rfl
      simp only [HugeTlbfs.allocateHugePage,hidx,hpool]
      rfl
    have hdvd := haligned [] _ 0 0 .size1gb _ rfl hfirst
    exact hodd ((HugeTlbfs.dvd_layPages_end_iff nr2mb.toNat).mp hdvd)
  · intro hcond calls l appId vaddr size base hrun he
    have hl : l.service.Aligned := by
      refine run_invariant (I:=fun l => l.service.Aligned) (G:=fun _ _ => True) ?_
        (HugeTlbfs.new_aligned hcond) (along_of_forall (fun _ _ => trivial) _ _) hrun
      intro l c l' h _ hstep
      exact h.of_blocks (PoolLedger.step_blocks hstep)
    exact hl.allocated he

/-- One 2MB page before the first 1GB page. -/
theorem allocations_misaligned_after_one_page : ¬ AllocationsAligned true 1 1 := by
  intro haligned
  have heval : ((PoolLedger.new true 1 1).service.allocateHugePage 0 0 .size1gb).1 =
      some 0x100200 := by
    decide +kernel
  exact absurd (haligned [] _ 0 0 .size1gb _ rfl heval) (by decide)

end Sniper.HugePages
