import Sniper.RadixTreeViews

/-!
# The four-level page table refines a map from pages to frames

An address has the translation of the newest mapping whose page contains it, in 48 bits.
-/

namespace Sniper.RadixPageTable
open FallibleRuns RadixDigits

/-- The arguments of one call of `updatePageTableFrames` that say what is mapped where. -/
structure Mapping where
  address : ℕ
  ppn : ℕ
  pageSize : ℕ

/-- Two addresses lie in one page of the given size, as far as `bits` address bits tell. -/
def SamePage (bits pageSize a b : ℕ) : Prop := a % 2^bits / 2^pageSize=b % 2^bits / 2^pageSize

instance (bits pageSize a b : ℕ) : Decidable (SamePage bits pageSize a b) := inferInstanceAs (Decidable (_=_))

/-- The page of the mapping contains the address. -/
def Mapping.Covers (bits : ℕ) (m : Mapping) (a : ℕ) : Prop := SamePage bits m.pageSize a m.address

instance (bits : ℕ) (m : Mapping) (a : ℕ) : Decidable (m.Covers bits a) :=
  inferInstanceAs (Decidable (SamePage _ _ _ _))

/-- The translation of the newest mapping that covers the address. -/
def lastMapping (bits : ℕ) : List Mapping → ℕ → Option (ℕ × ℕ)
  | [],_ => none
  | m::ms,a => if m.Covers bits a then some (m.ppn,m.pageSize) else lastMapping bits ms a

/-- A page table with the mappings entered so far, newest first. -/
structure Mapped where
  table : PageTableRadix
  history : List Mapping

namespace Mapped

/-- One call of `updatePageTableFrames` with its list of frames. -/
def step (t : Mapped) (call : Mapping × List ℕ) : Except Abort Mapped := do
  let (_,table) ←
    t.table.updatePageTableFrames call.1.address call.1.ppn call.1.pageSize call.2
  .ok ⟨table,call.1::t.history⟩

/-- The call maps a page of 4KB or 2MB whose walk faults, with the frames that walk asks for. -/
def AfterFault (t : Mapped) (call : Mapping × List ℕ) : Prop :=
  (call.1.pageSize=12 ∨ call.1.pageSize=21) ∧
    ∃r,t.table.initializeWalk call.1.address = .ok r ∧ r.faultHappened=true ∧
      r.requestedFrames ≤ call.2.length

/-- Every walk answers with the newest covering mapping, or faults if there is none. -/
def Refines (bits : ℕ) (t : Mapped) : Prop :=
  ∀a,∃r,t.table.initializeWalk a = .ok r ∧ Reports r (lastMapping bits t.history a)

/-- The call changes the answer of no walk outside the page it maps. -/
def LeavesOthers (bits : ℕ) (t : Mapped) (call : Mapping × List ℕ) : Prop :=
  ∀t',t.step call = .ok t' → ∀a,¬ call.1.Covers bits a → ∃r r',
    t.table.initializeWalk a = .ok r ∧ t'.table.initializeWalk a = .ok r' ∧
      r'.faultHappened=r.faultHappened ∧ r'.ppn=r.ppn ∧ r'.pageSize=r.pageSize

end Mapped

variable {k : ℕ} {deleted : Bool} {pt : PageTableRadix}

theorem samePage_iff_agree (hk : k≤1) (a b : ℕ) :
    SamePage 48 (sizeAt k) a b ↔ Agree 512 k 4 (vpn a) (vpn b) := by
  have hpage : ∀x,x % 2^48 / 2^sizeAt k=vpn x / 512^k % 512^(4 - k) := by
    intro x
    have hpow : 2^48=2^sizeAt k*512^(4 - k) := by
      rcases Nat.le_one_iff_eq_zero_or_eq_one.mp hk with rfl | rfl <;> rfl
    have hsplit : 2^sizeAt k=2^12*512^k := by
      rcases Nat.le_one_iff_eq_zero_or_eq_one.mp hk with rfl | rfl <;> rfl
    rw [hpow,Nat.mod_mul_right_div_self,hsplit,vpn,Nat.div_div_eq_div_mul]
  have hfour : k+(4 - k)=4 := by omega
  rw [SamePage,hpage,hpage,← agree_iff (by decide),hfour]

theorem walk_spec (h : Standard pt) (hs : Shaped deleted 4 pt.root) (a : ℕ) :
    Answers (pt.initializeWalk a) (view 4 pt.root a) ∧ ∀r,pt.initializeWalk a = .ok r →
      r.faultHappened=true → r.requestedFrames=missing 4 pt.root a := by
  rw [PageTableRadix.initializeWalk,h.levels]
  exact walkFrom_spec h le_rfl (by decide) hs a 0 []

theorem update_spec (h : Standard pt) (hs : Shaped deleted 4 pt.root) {n address : ℕ}
    {frames : List ℕ} (hk : k≤1) (ppn : ℕ) (hn : needed k 4 pt.root address=some n)
    (hlen : n≤frames.length) :
    ∃pt',pt.updatePageTableFrames address ppn (sizeAt k) frames = .ok (n,pt') ∧ Standard pt' ∧
      Shaped deleted 4 pt'.root ∧ ∀a,view 4 pt'.root a =
        if SamePage 48 (sizeAt k) a address then some (ppn,sizeAt k) else view 4 pt.root a := by
  obtain ⟨root,hupdate,hshape,hentered⟩:=updateFrom_spec h hk (by omega) le_rfl hs ppn hn hlen
  rw [← h.levels] at hupdate
  refine ⟨{pt with root},?_,h.setRoot root,hshape,?_⟩
  · simp only [PageTableRadix.updatePageTableFrames,hupdate,ok_bind]
  · intro a
    by_cases hpage : SamePage 48 (sizeAt k) a address
    · rw [if_pos hpage]
      exact hentered.inside a ((samePage_iff_agree hk _ _).mp hpage)
    · rw [if_neg hpage]
      exact hentered.outside a fun hag => hpage ((samePage_iff_agree hk _ _).mpr hag)

theorem update_ok {pt' : PageTableRadix} (h : Standard pt) {used address ppn : ℕ} {frames : List ℕ} (hk : k≤1)
    (he : pt.updatePageTableFrames address ppn (sizeAt k) frames = .ok (used,pt')) :
    ∃n,needed k 4 pt.root address=some n ∧ n≤frames.length := by
  obtain ⟨⟨root,used'⟩,hupdate,-⟩:=bind_ok he
  rw [h.levels] at hupdate
  exact needed_of_updateFrom h hk (by omega) le_rfl hupdate

theorem lastMapping_mem {bits : ℕ} {history : List Mapping} {a ppn size : ℕ}
    (h : lastMapping bits history a=some (ppn,size)) :
    ∃m∈history,m.Covers bits a ∧ m.ppn=ppn ∧ m.pageSize=size := by
  induction history with
  | nil => cases h
  | cons m ms ih =>
    rw [lastMapping] at h
    split_ifs at h with hcov
    · cases h
      exact ⟨m,List.mem_cons_self,hcov,rfl,rfl⟩
    · obtain ⟨m',hm',hrest⟩:=ih h
      exact ⟨m',List.mem_cons_of_mem _ hm',hrest⟩

theorem lastMapping_none {bits : ℕ} {history : List Mapping} {a : ℕ} (h : lastMapping bits history a=none) :
    ∀m∈history,¬ m.Covers bits a := by
  induction history with
  | nil =>
    intro m hm
    cases hm
  | cons m ms ih =>
    rw [lastMapping] at h
    split_ifs at h with hcov
    intro m' hm'
    rcases List.mem_cons.mp hm' with rfl | hm'
    · exact hcov
    · exact ih h m' hm'

theorem Reports.view_none {r : PTWResult} {o : Option (ℕ × ℕ)} (h : Reports r o) (hf : r.faultHappened=true) :
    o=none := by
  cases o with
  | none => rfl
  | some p => exact nomatch hf.symm.trans h.1

theorem Reports.unique {r r' : PTWResult} {o : Option (ℕ × ℕ)} (h : Reports r o) (h' : Reports r' o) :
    r'.faultHappened=r.faultHappened ∧ r'.ppn=r.ppn ∧ r'.pageSize=r.pageSize := by
  cases o with
  | none => exact ⟨h'.1.trans h.1.symm,h'.2.1.trans h.2.1.symm,h'.2.2.trans h.2.2.symm⟩
  | some p => exact ⟨h'.1.trans h.1.symm,h'.2.1.trans h.2.1.symm,h'.2.2.trans h.2.2.symm⟩

theorem exists_height {size : ℕ} (h : size=12 ∨ size=21) : ∃k≤1,size=sizeAt k := by
  rcases h with rfl | rfl
  · exact ⟨0,by decide,rfl⟩
  · exact ⟨1,le_rfl,rfl⟩

namespace Mapped

/-- The table is shaped, and its view is the newest covering mapping. -/
structure Represents (t : Mapped) : Prop where
  standard : Standard t.table
  shaped : Shaped false 4 t.table.root
  view : ∀a,view 4 t.table.root a=lastMapping 48 t.history a

variable {call : Mapping × List ℕ} {t : Mapped}

theorem Represents.update {k n : ℕ} (h : t.Represents) (hk : k≤1) (hsize : call.1.pageSize=sizeAt k)
    (hn : needed k 4 t.table.root call.1.address=some n) (hlen : n ≤ call.2.length) :
    ∃t',t.step call = .ok t' ∧ t'.Represents ∧ t'.history=call.1::t.history := by
  obtain ⟨table,hupdate,hstd,hshape,hview⟩:=update_spec h.standard h.shaped hk call.1.ppn hn hlen
  refine ⟨⟨table,call.1::t.history⟩,?_,⟨hstd,hshape,?_⟩,rfl⟩
  · simp only [step,hsize,hupdate,ok_bind]
  · intro a
    have hcovers : SamePage 48 (sizeAt k) a call.1.address ↔ call.1.Covers 48 a := by
      rw [← hsize]
      exact Iff.rfl
    rw [hview a,lastMapping,h.view a,hsize]
    exact if_congr hcovers rfl rfl

theorem Represents.step_ok {t' : Mapped} (h : t.Represents) (hsize : call.1.pageSize=12 ∨ call.1.pageSize=21)
    (he : t.step call = .ok t') : t'.Represents := by
  obtain ⟨k,hk,hsize⟩:=exists_height hsize
  obtain ⟨⟨used,table⟩,hupdate,-⟩:=bind_ok he
  rw [hsize] at hupdate
  obtain ⟨n,hn,hlen⟩:=update_ok h.standard hk hupdate
  obtain ⟨t₁,ht₁,hrep,-⟩:=h.update hk hsize hn hlen
  cases he.symm.trans ht₁
  exact hrep

theorem Represents.step_total (h : t.Represents) (hfault : t.AfterFault call) :
    ∃t',t.step call = .ok t' ∧ t'.Represents ∧ t'.history=call.1::t.history := by
  obtain ⟨hsize,r,hwalk,hf,hframes⟩:=hfault
  obtain ⟨k,hk,hsize⟩:=exists_height hsize
  obtain ⟨hanswers,hmissing⟩:=walk_spec h.standard h.shaped call.1.address
  obtain ⟨n,hneed,hle⟩:=needed_of_view_none h.shaped ((hanswers.ok hwalk).1.view_none hf)
    (show k<4 by omega)
  exact h.update hk hsize hneed (le_trans hle (hmissing r hwalk hf ▸ hframes))

/-- The table represents mappings none of which has the page number `-1`. -/
structure Faithful (t : Mapped) : Prop extends t.Represents where
  valid : ∀m∈t.history,m.ppn≠invalidWord

theorem Faithful.refines (h : t.Faithful) : t.Refines 48 := by
  intro a
  have hanswers := (walk_spec h.standard h.shaped a).1
  rw [h.view a] at hanswers
  rcases hanswers with ⟨size,hlast,-⟩ | ⟨-,hreports⟩
  · obtain ⟨m,hm,-,hppn,-⟩:=lastMapping_mem hlast
    exact (h.valid m hm hppn).elim
  · exact hreports

theorem step_faithful (h : t.Faithful) (hfault : t.AfterFault call) (hppn : call.1.ppn≠invalidWord) :
    ∃t',t.step call = .ok t' ∧ t'.Faithful ∧ t'.history=call.1::t.history := by
  obtain ⟨t',ht',hrep,hhistory⟩:=h.toRepresents.step_total hfault
  refine ⟨t',ht',⟨hrep,?_⟩,hhistory⟩
  intro m hm
  rw [hhistory] at hm
  rcases List.mem_cons.mp hm with rfl | hm
  · exact hppn
  · exact h.valid m hm

theorem Faithful.leavesOthers (h : t.Faithful) (hfault : t.AfterFault call) (hppn : call.1.ppn≠invalidWord) :
    t.LeavesOthers 48 call := by
  intro t' ht' a hcov
  obtain ⟨t₁,ht₁,hfaithful,hhistory⟩:=step_faithful h hfault hppn
  cases ht'.symm.trans ht₁
  obtain ⟨r,hwalk,hreports⟩:=h.refines a
  obtain ⟨r',hwalk',hreports'⟩:=hfaithful.refines a
  rw [hhistory,lastMapping,if_neg hcov] at hreports'
  exact ⟨r,r',hwalk,hwalk',hreports.unique hreports'⟩

theorem new_faithful {frameSize : ℕ} {pageSizeList : List ℕ} (hframe : 512≤frameSize)
    (hsmall : pageSizeList[0]?=some 12) (hlarge : pageSizeList[1]?=some 21) :
    Faithful ⟨.new 4 frameSize pageSizeList,[]⟩ := by
  refine ⟨⟨⟨rfl,hframe,hsmall,hlarge⟩,shaped_fresh false 0 4,?_⟩,?_⟩
  · intro a
    exact view_fresh 0 4 a false
  · intro m hm
    cases hm

end Mapped

/-- For four levels, every sequence of updates that each follow a fault of their address and
bring the frames it asks for succeeds; the walk of any address then answers with the newest
covering mapping, and no update changed the walk of an address outside its page. -/
theorem radix_refines_last_mapping (frameSize : ℕ) (pageSizeList : List ℕ) (hframe : 512≤frameSize)
    (hsmall : pageSizeList[0]?=some 12) (hlarge : pageSizeList[1]?=some 21) (calls : List (Mapping × List ℕ))
    (hcalls : Along Mapped.step (fun t call => t.AfterFault call ∧ call.1.ppn≠invalidWord)
      ⟨.new 4 frameSize pageSizeList,[]⟩ calls) :
    (∃t,run Mapped.step ⟨.new 4 frameSize pageSizeList,[]⟩ calls = .ok t ∧ t.Refines 48) ∧
      Along Mapped.step (Mapped.LeavesOthers 48) ⟨.new 4 frameSize pageSizeList,[]⟩ calls := by
  have hinit := Mapped.new_faithful hframe hsmall hlarge
  have hstep : ∀ (t : Mapped) (call : Mapping × List ℕ),t.Faithful →
      (t.AfterFault call ∧ call.1.ppn≠invalidWord) →
        ∃t',t.step call = .ok t' ∧ t'.Faithful := by
    intro t call ht hcall
    obtain ⟨t',ht',hfaithful,-⟩:=Mapped.step_faithful ht hcall.1 hcall.2
    exact ⟨t',ht',hfaithful⟩
  constructor
  · obtain ⟨t,ht,hfaithful⟩:=run_total hstep hinit hcalls
    exact ⟨t,ht,hfaithful.refines⟩
  · refine hcalls.of_invariant (fun t call ht hcall => ht.leavesOthers hcall.1 hcall.2) ?_ hinit
    intro t call t' ht hcall he
    obtain ⟨t₁,ht₁,hfaithful⟩:=hstep t call ht hcall
    cases he.symm.trans ht₁
    exact hfaithful

/-- A 4KB mapping and a later 2MB mapping over it, each after a fault. -/
theorem radix_refines_small_then_large : (∃t,run Mapped.step ⟨.new 4 512 [12,21],[]⟩
        [(⟨4096,7,12⟩,[1,2,3]),(⟨8192,512,21⟩,[])] = .ok t ∧ t.Refines 48) ∧
      Along Mapped.step (Mapped.LeavesOthers 48) ⟨.new 4 512 [12,21],[]⟩
        [(⟨4096,7,12⟩,[1,2,3]),(⟨8192,512,21⟩,[])] := by
  refine radix_refines_last_mapping 512 [12,21] le_rfl rfl rfl _ ⟨⟨⟨?_,?_⟩,?_⟩,?_⟩
  · exact Or.inl rfl
  · exact ⟨_,rfl,rfl,le_rfl⟩
  · decide
  · intro t ht
    cases ht
    exact ⟨⟨⟨Or.inr rfl,_,rfl,rfl,le_rfl⟩,by decide⟩,fun _ _ => trivial⟩

/-- The walk refines the newest mapping for all 64 address bits, at the end of the run. -/
def RefinesRun (levels frameSize : ℕ) (pageSizeList : List ℕ) (calls : List (Mapping × List ℕ)) : Prop :=
  ∃t,run Mapped.step ⟨.new levels frameSize pageSizeList,[]⟩ calls = .ok t ∧ t.Refines 64

/-- Every call of the run follows a fault of its address and brings the frames asked for. -/
def FaultingRun (levels frameSize : ℕ) (pageSizeList : List ℕ) (calls : List (Mapping × List ℕ)) : Prop :=
  Along Mapped.step Mapped.AfterFault ⟨.new levels frameSize pageSizeList,[]⟩ calls

/-- The calls are admitted, and the table does not refine the mappings. -/
def Diverges (levels frameSize : ℕ) (pageSizeList : List ℕ) (calls : List (Mapping × List ℕ)) : Prop :=
  FaultingRun levels frameSize pageSizeList calls ∧ ¬ RefinesRun levels frameSize pageSizeList calls

/-- Where the refinement fails: with five levels the last index is taken from the page
offset, and with three no index is taken from the bits of a 4KB page; with four levels
address bits from 48 up are ignored; the page number `-1` trips an
assertion; a frame of fewer than 512 entries is indexed past its end; and a page size list
without a second entry is read past its end. -/
theorem radix_refinement_limits : Diverges 5 512 [12,21] [(⟨4096,7,12⟩,[1,2,3,4])] ∧
    Diverges 3 512 [12,21] [(⟨0,7,12⟩,[1,2])] ∧ Diverges 4 512 [12,21] [(⟨0,7,12⟩,[1,2,3])] ∧
    Diverges 4 512 [12,21] [(⟨0,invalidWord,12⟩,[1,2,3])] ∧ ¬ RefinesRun 4 1 [12,21] [] ∧
    Diverges 4 512 [12] [(⟨0,7,21⟩,[1,2,3])] := by
  refine ⟨⟨?_,?_⟩,⟨?_,?_⟩,⟨?_,?_⟩,⟨?_,?_⟩,?_,?_,?_⟩
  · exact ⟨⟨Or.inl rfl,_,rfl,rfl,le_rfl⟩,fun _ _ => trivial⟩
  · rintro ⟨t,ht,href⟩
    cases ht
    obtain ⟨r,hr,hreports⟩:=href 4104
    cases hr
    exact nomatch hreports.1
  · exact ⟨⟨Or.inl rfl,_,rfl,rfl,le_rfl⟩,fun _ _ => trivial⟩
  · rintro ⟨t,ht,href⟩
    cases ht
    obtain ⟨r,hr,hreports⟩:=href 4096
    cases hr
    exact nomatch hreports.1
  · exact ⟨⟨Or.inl rfl,_,rfl,rfl,le_rfl⟩,fun _ _ => trivial⟩
  · rintro ⟨t,ht,href⟩
    cases ht
    obtain ⟨r,hr,hreports⟩:=href (2^48)
    cases hr
    exact nomatch hreports.1
  · exact ⟨⟨Or.inl rfl,_,rfl,rfl,le_rfl⟩,fun _ _ => trivial⟩
  · rintro ⟨t,ht,href⟩
    cases ht
    obtain ⟨r,hr,-⟩:=href 0
    cases hr
  · rintro ⟨t,ht,href⟩
    cases ht
    obtain ⟨r,hr,-⟩:=href (2^39)
    cases hr
  · exact ⟨⟨Or.inr rfl,_,rfl,rfl,le_rfl⟩,fun _ _ => trivial⟩
  · rintro ⟨t,ht,href⟩
    cases ht
    obtain ⟨r,hr,-⟩:=href 0
    cases hr

end Sniper.RadixPageTable
