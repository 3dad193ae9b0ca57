import Sniper.RadixRefinement

/-! # Unmapping and mapping again -/

namespace Sniper.RadixPageTable
open FallibleRuns RadixDigits

/-- The height of the entry marked as a translation on the path of the address. -/
def leafHeight : ℕ → PTFrame → ℕ → Option ℕ
  | 0,_,_ => none
  | height+1,frame,address =>
    match (frame.entries (index height address)).isPte,
      (frame.entries (index height address)).data with
    | true,_ => some height
    | false,.nextLevel (some next) => leafHeight height next address
    | false,_ => none

variable {address height k : ℕ} {frame : PTFrame}

theorem leafHeight_lt (h : leafHeight height frame address=some k) : k<height := by
  induction height generalizing frame with
  | zero => cases h
  | succ height ih =>
    rw [leafHeight] at h
    split at h
    · cases h
      exact Nat.lt_succ_self _
    · exact Nat.lt_succ_of_lt (ih h)
    · cases h

theorem view_of_leafHeight {a : ℕ} (h : leafHeight height frame address=some k)
    (ha : Agree 512 k height (vpn a) (vpn address)) : view height frame a=view height frame address := by
  induction height generalizing frame with
  | zero => cases h
  | succ height ih =>
    have hle : k≤height := Nat.lt_succ_iff.mp (leafHeight_lt h)
    obtain ⟨hdigit,hrest⟩:=(agree_succ hle).mp ha
    have hindex : index height a=index height address := hdigit
    rw [leafHeight] at h
    rw [view,view,hindex]
    generalize frame.entries (index height address)=e at h ⊢
    rcases e with ⟨_ | _,⟨valid,_⟩ | _ | next⟩
    · rfl
    · rfl
    · exact ih h hrest
    · cases valid <;> rfl
    · rfl
    · rfl

theorem sizeAt_of_view {deleted : Bool} {ppn size : ℕ} (hs : Shaped deleted height frame)
    (h : view height frame address=some (ppn,size)) :
    ∃k≤1,leafHeight height frame address=some k ∧ size=sizeAt k := by
  induction height generalizing frame with
  | zero => cases h
  | succ height ih =>
    have hentry := hs (index height address)
    rw [view] at h
    rw [leafHeight]
    generalize frame.entries (index height address)=e at hentry h ⊢
    cases hentry with
    | leaf valid ppn' hheight hdeleted =>
      cases valid with
      | false => cases h
      | true =>
        cases h
        exact ⟨height,hheight,rfl,rfl⟩
    | blank hheight => cases h
    | absent hheight => cases h
    | child next hheight hnext => exact ih hnext h

/-- The view after clearing the entry at height `k`: empty on that page, unchanged elsewhere. -/
structure Cleared (k height address : ℕ) (before after : PTFrame) : Prop where
  inside : ∀a,Agree 512 k height (vpn a) (vpn address) → view height after a=none
  outside : ∀a,¬ Agree 512 k height (vpn a) (vpn address) →
    view height after a=view height before a

theorem deleteFrom_spec {pt : PageTableRadix} (h : Standard pt) (hh : height≤4)
    (hs : Shaped true height frame) (hk : leafHeight height frame address=some k) :
    ∃frame',pt.deleteFrom address height frame = .ok frame' ∧ Shaped true height frame' ∧
      Cleared k height address frame frame' := by
  induction height generalizing frame with
  | zero => cases hk
  | succ height ih =>
    have hle : k≤height := Nat.lt_succ_iff.mp (leafHeight_lt hk)
    have hentry := hs (index height address)
    have hbefore := view_of_index frame height address
    have hmarked : height≤1 → Shaped true (height+1)
          (frame.set (index height address) ⟨true,.translation false invalidWord⟩) ∧
        Cleared height (height+1) address frame
          (frame.set (index height address) ⟨true,.translation false invalidWord⟩) := by
      intro hheight
      refine ⟨hs.set (.leaf false _ hheight fun _ => rfl) _,?_,?_⟩
      · intro a ha
        have heq : index height a=index height address := ((agree_succ le_rfl).mp ha).1
        rw [view,PTFrame.entries_set,heq,Function.update_self]
      · intro a ha
        refine view_set_of_ne frame _ fun hindex => ha ?_
        exact (agree_succ le_rfl).mpr ⟨hindex,agree_self⟩
    rw [PageTableRadix.deleteFrom,h.offset_eq (by omega),ok_bind]
    rw [leafHeight] at hk
    generalize frame.entries (index height address)=e at hentry hk hbefore ⊢
    cases hentry with
    | leaf valid ppn hheight hdeleted =>
      cases hk
      exact ⟨_,rfl,hmarked hheight⟩
    | blank hheight =>
      cases hk
      exact ⟨_,rfl,hmarked (by omega)⟩
    | absent hheight => cases hk
    | child next hheight hnext =>
      obtain ⟨next',hdelete,hshape,hcleared⟩:=ih (by omega) hnext hk
      refine ⟨frame.set (index height address) ⟨false,.nextLevel (some next')⟩,?_,
        hs.set (.child next' hheight hshape) _,?_,?_⟩
      · simp only [Bool.false_eq_true,↓reduceIte,if_neg hheight,hdelete,ok_bind]
      · intro a ha
        obtain ⟨hdigit,hrest⟩:=(agree_succ hle).mp ha
        have hindex : index height a=index height address := hdigit
        rw [view_set_child frame next' hindex]
        exact hcleared.inside a hrest
      · intro a ha
        by_cases hindex : index height a=index height address
        · rw [view_set_child frame next' hindex,hbefore a hindex]
          exact hcleared.outside a fun hrest => ha ((agree_succ hle).mpr ⟨hindex,hrest⟩)
        · exact view_set_of_ne frame _ hindex

theorem deleteFrom_none {pt : PageTableRadix} (h : Standard pt) (hh : height≤4) (hpos : 0<height)
    (hs : Shaped true height frame) (hk : leafHeight height frame address=none) :
    pt.deleteFrom address height frame = .error .nullDereference := by
  induction height generalizing frame with
  | zero => omega
  | succ height ih =>
    have hentry := hs (index height address)
    rw [PageTableRadix.deleteFrom,h.offset_eq (by omega),ok_bind]
    rw [leafHeight] at hk
    generalize frame.entries (index height address)=e at hentry hk ⊢
    cases hentry with
    | leaf valid ppn hheight hdeleted => cases hk
    | blank hheight => cases hk
    | absent hheight => simp only [Bool.false_eq_true,↓reduceIte,if_neg hheight]
    | child next hheight hnext =>
      simp only [Bool.false_eq_true,↓reduceIte,if_neg hheight,
        ih (by omega) (Nat.pos_of_ne_zero hheight) hnext hk,error_bind]

/-- One call on the table. The flag of an update selects a 2MB page. -/
inductive Edit where
  | map (large : Bool) (address ppn : ℕ) (frames : List ℕ)
  | delete (address : ℕ)

def heightOf (large : Bool) : ℕ := if large then 1 else 0

theorem heightOf_le_one (large : Bool) : heightOf large≤1 := by
  cases large <;> decide

def bitsOf (large : Bool) : ℕ := if large then 21 else 12

theorem bitsOf_eq (large : Bool) : bitsOf large=sizeAt (heightOf large) := by
  cases large <;> rfl

/-- The map with removals, from the newest edit back: an update defines its page, and a
deletion removes the page that contains its address at that time. -/
def lastEdit : List Edit → ℕ → Option (ℕ × ℕ)
  | [],_ => none
  | .map large address ppn _::es,a =>
    if SamePage 48 (bitsOf large) a address then some (ppn,bitsOf large) else lastEdit es a
  | .delete address::es,a =>
    match lastEdit es address with
    | none => lastEdit es a
    | some (_,size) => if SamePage 48 size a address then none else lastEdit es a

/-- A page table with all calls made on it, newest first. -/
structure Edited where
  table : PageTableRadix
  edits : List Edit

namespace Edited

def step (t : Edited) (e : Edit) : Except Abort Edited :=
  match e with
  | .map large address ppn frames => do
    let (_,table) ← t.table.updatePageTableFrames address ppn (bitsOf large) frames
    .ok ⟨table,e::t.edits⟩
  | .delete address => do
    let table ← t.table.deletePage address
    .ok ⟨table,e::t.edits⟩

/-- Every walk answers as the map with removals does. -/
def Tracks (t : Edited) : Prop := ∀a,∃r,t.table.initializeWalk a = .ok r ∧ Reports r (lastEdit t.edits a)

/-- An update has a real page number, meets no translation above the height of its page and
brings frames for the absent levels; a deletion finds an entry marked as a translation. -/
def Fits (t : Edited) : Edit → Prop
  | .map large address ppn frames => ppn≠invalidWord ∧
      ∃n,needed (heightOf large) 4 t.table.root address=some n ∧ n≤frames.length
  | .delete address => ∃k,leafHeight 4 t.table.root address=some k

structure Faithful (t : Edited) : Prop where
  standard : Standard t.table
  shaped : Shaped true 4 t.table.root
  view : ∀a,view 4 t.table.root a=lastEdit t.edits a
  valid : ∀a size,lastEdit t.edits a≠some (invalidWord,size)

variable {t : Edited}

theorem Faithful.tracks (h : t.Faithful) : t.Tracks := by
  intro a
  have hanswers := (walk_spec h.standard h.shaped a).1
  rw [h.view a] at hanswers
  rcases hanswers with ⟨size,hlast,-⟩ | ⟨-,hreports⟩
  · exact (h.valid a size hlast).elim
  · exact hreports

theorem step_map (h : t.Faithful) {large : Bool} {address n : ℕ} {frames : List ℕ} (ppn : ℕ)
    (hn : needed (heightOf large) 4 t.table.root address=some n) (hlen : n≤frames.length) :
    ∃t',t.step (.map large address ppn frames) = .ok t' ∧ Standard t'.table ∧
      Shaped true 4 t'.table.root ∧ t'.edits = .map large address ppn frames::t.edits ∧
      ∀a,RadixPageTable.view 4 t'.table.root a=lastEdit t'.edits a := by
  obtain ⟨table,hupdate,hstd,hshape,hview⟩:=
    update_spec h.standard h.shaped (heightOf_le_one large) ppn hn hlen
  refine ⟨⟨table,.map large address ppn frames::t.edits⟩,?_,hstd,hshape,rfl,?_⟩
  · simp only [step,bitsOf_eq,hupdate,ok_bind]
  · intro a
    rw [hview a,lastEdit,bitsOf_eq,h.view a]

theorem step_delete (h : t.Faithful) {address k : ℕ} (hk : leafHeight 4 t.table.root address=some k) :
    ∃t',t.step (.delete address) = .ok t' ∧ t'.Faithful := by
  obtain ⟨root,hdelete,hshape,hcleared⟩:=deleteFrom_spec h.standard le_rfl h.shaped hk
  have hdelete' : t.table.deleteFrom address t.table.levels t.table.root = .ok root := by
    rw [h.standard.levels]
    exact hdelete
  have hview : ∀a,RadixPageTable.view 4 root a=lastEdit (.delete address::t.edits) a := by
    intro a
    have hsame := fun ha => view_of_leafHeight (a:=a) hk ha
    rw [lastEdit]
    cases hlast : lastEdit t.edits address with
    | none =>
      rw [h.view,h.view,hlast] at hsame
      by_cases hag : Agree 512 k 4 (vpn a) (vpn address)
      · rw [hcleared.inside a hag,hsame hag]
      · rw [hcleared.outside a hag,h.view]
    | some entry =>
      obtain ⟨ppn,size⟩:=entry
      obtain ⟨k',hk',hleaf,rfl⟩:=sizeAt_of_view h.shaped ((h.view address).trans hlast)
      cases hk.symm.trans hleaf
      simp only
      by_cases hpage : SamePage 48 (sizeAt k) a address
      · rw [if_pos hpage]
        exact hcleared.inside a ((samePage_iff_agree hk' _ _).mp hpage)
      · rw [if_neg hpage,← h.view a]
        exact hcleared.outside a fun hag => hpage ((samePage_iff_agree hk' _ _).mpr hag)
  refine ⟨⟨{t.table with root},.delete address::t.edits⟩,?_,h.standard.setRoot root,hshape,hview,?_⟩
  · simp only [step,PageTableRadix.deletePage,hdelete',ok_bind]
  · intro a size hlast
    rw [lastEdit] at hlast
    split at hlast
    · exact h.valid a size hlast
    · split_ifs at hlast
      exact h.valid a size hlast

theorem step_faithful {e : Edit} (h : t.Faithful) (hfits : t.Fits e) :
    ∃t',t.step e = .ok t' ∧ t'.Faithful := by
  cases e with
  | map large address ppn frames =>
    obtain ⟨hppn,n,hn,hlen⟩:=hfits
    obtain ⟨t',ht',hstd,hshape,hedits,hview⟩:=step_map h ppn hn hlen
    refine ⟨t',ht',hstd,hshape,hview,?_⟩
    intro a size hlast
    rw [hedits,lastEdit] at hlast
    split_ifs at hlast
    · cases hlast
      exact hppn rfl
    · exact h.valid a size hlast
  | delete address =>
    obtain ⟨k,hk⟩:=hfits
    exact step_delete h hk

theorem fits_of_tracks {t' : Edited} {e : Edit} (h : t.Faithful) (he : t.step e = .ok t')
    (htracks : t'.Tracks) : t.Fits e := by
  cases e with
  | map large address ppn frames =>
    obtain ⟨⟨used,table⟩,hupdate,-⟩:=bind_ok he
    rw [bitsOf_eq] at hupdate
    obtain ⟨n,hn,hlen⟩:=update_ok h.standard (heightOf_le_one large) hupdate
    refine ⟨?_,n,hn,hlen⟩
    rintro rfl
    obtain ⟨t₁,ht₁,hstd,hshape,hedits,hview⟩:=step_map h invalidWord hn hlen
    cases he.symm.trans ht₁
    obtain ⟨r,hr,-⟩:=htracks address
    have hlast : lastEdit t'.edits address=some (invalidWord,bitsOf large) := by
      rw [hedits,lastEdit]
      exact if_pos rfl
    have hanswers := (walk_spec hstd hshape address).1
    rw [hview,hlast] at hanswers
    exact (hanswers.ok hr).2 _ rfl
  | delete address =>
    obtain ⟨table,hdelete,-⟩:=bind_ok he
    obtain ⟨root,hdelete,-⟩:=bind_ok hdelete
    rw [h.standard.levels] at hdelete
    cases hk : leafHeight 4 t.table.root address with
    | none =>
      rw [deleteFrom_none h.standard le_rfl (by decide) h.shaped hk] at hdelete
      cases hdelete
    | some k => exact ⟨k,hk⟩

theorem new_faithful {frameSize : ℕ} {pageSizeList : List ℕ} (hframe : 512≤frameSize)
    (hsmall : pageSizeList[0]?=some 12) (hlarge : pageSizeList[1]?=some 21) :
    Faithful ⟨.new 4 frameSize pageSizeList,[]⟩ :=
  ⟨⟨rfl,hframe,hsmall,hlarge⟩,shaped_fresh true 0 4,fun a => view_fresh 0 4 a false,
    fun _ _ hlast => nomatch hlast⟩

end Edited

/-- After every call of the sequence the table is there and answers as the map does. -/
def TracksRun (frameSize : ℕ) (pageSizeList : List ℕ) (edits : List Edit) : Prop :=
  ∀pre,pre <+: edits → ∃t,
    run Edited.step ⟨.new 4 frameSize pageSizeList,[]⟩ pre = .ok t ∧ t.Tracks

/-- A four-level table follows the map with removals through a whole sequence of updates
and deletions, without an abort, exactly when every call fits the table it meets. -/
theorem unmapping_tracks_iff (frameSize : ℕ) (pageSizeList : List ℕ) (hframe : 512≤frameSize)
    (hsmall : pageSizeList[0]?=some 12) (hlarge : pageSizeList[1]?=some 21) (edits : List Edit) :
    TracksRun frameSize pageSizeList edits ↔
      Along Edited.step Edited.Fits ⟨.new 4 frameSize pageSizeList,[]⟩ edits := by
  have hinit := Edited.new_faithful hframe hsmall hlarge
  constructor
  · refine along_of_states (fun t e t' => Edited.fits_of_tracks) ?_ hinit
    intro t e t' ht hfits he
    obtain ⟨t₁,ht₁,hfaithful⟩:=Edited.step_faithful ht hfits
    cases he.symm.trans ht₁
    exact hfaithful
  · rintro hfits pre ⟨post,rfl⟩
    obtain ⟨t,ht,hfaithful⟩:=run_total (fun t e ht hfits => Edited.step_faithful ht hfits) hinit hfits.left
    exact ⟨t,ht,hfaithful.tracks⟩

/-- A 4KB mapping is deleted and its page mapped again, inside a 2MB page in the end. -/
theorem unmapping_tracks_remap : TracksRun 512 [12,21]
      [.map false 4096 7 [1,2,3],.delete 4096,.map false 4096 9 [],.map true 0 512 []] := by
  refine (unmapping_tracks_iff 512 [12,21] le_rfl rfl rfl _).mpr ⟨⟨?_,3,rfl,le_rfl⟩,?_⟩
  · decide
  · intro t ht
    cases ht
    refine ⟨⟨0,rfl⟩,?_⟩
    intro t ht
    cases ht
    refine ⟨⟨by decide,0,rfl,le_rfl⟩,?_⟩
    intro t ht
    cases ht
    exact ⟨⟨by decide,0,rfl,le_rfl⟩,fun _ _ => trivial⟩

/-- A deletion under an absent level dereferences a null pointer, and a 4KB update under a
deleted 2MB page follows its entry as a pointer. -/
theorem unmapping_aborts : (run Edited.step ⟨.new 4 512 [12,21],[]⟩ [.delete 0] = .error .nullDereference ∧
      ¬ TracksRun 512 [12,21] [.delete 0]) ∧ (run Edited.step ⟨.new 4 512 [12,21],[]⟩
        [.map true 0 512 [1,2],.delete 0,.map false 0 7 [3]] = .error .translationFollowed ∧
      ¬ TracksRun 512 [12,21] [.map true 0 512 [1,2],.delete 0,.map false 0 7 [3]]) := by
  refine ⟨⟨rfl,?_⟩,rfl,?_⟩
  · intro htracks
    obtain ⟨t,ht,-⟩:=htracks _ (List.prefix_refl _)
    cases ht
  · intro htracks
    obtain ⟨t,ht,-⟩:=htracks _ (List.prefix_refl _)
    cases ht

end Sniper.RadixPageTable
