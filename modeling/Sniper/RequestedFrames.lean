import Sniper.RadixTreeViews

/-!
# The frames that a faulting walk asks for

The walk and the update agree as long as the index into every frame is defined: from six levels on
a shift count is negative.
-/

namespace Sniper.RadixPageTable
open FallibleRuns

/-- Entries of a table that was built by updates alone, with `S` for the frames below. -/
inductive EntryGrown (S : PTFrame → Prop) (height : ℕ) : PTEntry PTFrame → Prop where
  | leaf (ppn : ℕ) : EntryGrown S height ⟨true,.translation true ppn⟩
  | null (isPte : Bool) (hpte : height≠0 → isPte=false) :
      EntryGrown S height ⟨isPte,.nextLevel none⟩
  | child (next : PTFrame) (hheight : height≠0) (hnext : S next) :
      EntryGrown S height ⟨false,.nextLevel (some next)⟩

def Grown : ℕ → PTFrame → Prop
  | 0,_ => True
  | height+1,frame => ∀i,EntryGrown (Grown height) height (frame.entries i)

theorem grown_fresh (ppn height : ℕ) : Grown height (PTFrame.fresh ppn (height == 1)) := by
  cases height with
  | zero => trivial
  | succ height =>
    intro i
    exact .null _ fun hheight => by simpa using hheight

theorem grown_root (height : ℕ) : Grown height (PTFrame.fresh 0 false) := by
  cases height with
  | zero => trivial
  | succ height =>
    intro i
    exact .null false fun _ => rfl

theorem Grown.set {height : ℕ} {frame : PTFrame} {e : PTEntry PTFrame} (h : Grown (height+1) frame)
    (he : EntryGrown (Grown height) height e) (i : ℕ) : Grown (height+1) (frame.set i e) := by
  intro j
  rw [PTFrame.entries_set]
  by_cases hj : j=i
  · rw [hj,Function.update_self]
    exact he
  · rw [Function.update_of_ne hj]
    exact h j

namespace PageTableRadix

variable {address level ppn used k : ℕ} {frame frame' : PTFrame} {frames : List ℕ}
  {pt : PageTableRadix}

theorem updateFrom_grown {pageSize : ℕ} (h : Grown level frame)
    (he : pt.updateFrom address ppn pageSize level frame frames = .ok (frame',used)) : Grown level frame' := by
  induction level generalizing frame frame' frames used with
  | zero => trivial
  | succ level ih =>
    obtain ⟨offset,-,⟨-,-,rfl⟩ | ⟨-,-,-,rfl⟩ | ⟨-,hlevel,next,next',rest,used',hnext,rfl,
      hdata⟩⟩ := updateFrom_cases he
    · exact h.set (.leaf ppn) offset
    · exact h
    · have hentry := h offset
      generalize frame.entries offset=e at hentry hdata ⊢
      cases hentry with
      | leaf ppn' => simp at hdata
      | null isPte hpte =>
        rcases hdata with ⟨hsome,-⟩ | ⟨-,emulatedPpn,-,-,rfl⟩
        · simp at hsome
        · rw [hpte hlevel]
          exact h.set (.child next' hlevel (ih (grown_fresh emulatedPpn level) hnext)) offset
      | child below hheight hbelow =>
        rcases hdata with ⟨hsome,-⟩ | ⟨hnone,-⟩
        · cases hsome
          exact h.set (.child next' hlevel (ih hbelow hnext)) offset
        · cases hnone

/-- The index into the frame is defined at every level from `low` to `high`. -/
def Indexed (pt : PageTableRadix) (address low high : ℕ) : Prop :=
  ∀level,low≤level → level≤high → ∃offset,pt.offset level address = .ok offset

theorem indexed_of_updateFrom (hk : k≤1)
    (he : pt.updateFrom address ppn (sizeAt k) level frame frames = .ok (frame',used)) :
    pt.Indexed address (k+1) level := by
  induction level generalizing frame frame' frames used with
  | zero =>
    intro l hlow hhigh
    omega
  | succ level ih =>
    obtain ⟨offset,ho,hcases⟩:=updateFrom_cases he
    rw [isLeaf_sizeAt hk] at hcases
    intro l hlow hhigh
    rcases Nat.lt_or_eq_of_le hhigh with hlt | rfl
    · rcases hcases with ⟨hleaf,-⟩ | ⟨-,hlevel,-⟩ | ⟨-,-,next,next',rest,used',hnext,-⟩
      · have hheight := of_decide_eq_true hleaf
        omega
      · omega
      · exact ih hnext l hlow (by omega)
    · exact ⟨offset,ho⟩

theorem updateFrom_fresh (hk : k≤1) (hle : k≤level) (hindex : pt.Indexed address (k+1) (level+1))
    (ppn emulatedPpn : ℕ) (isPte : Bool) (hlen : level - k≤frames.length) :
    ∃frame',pt.updateFrom address ppn (sizeAt k) (level+1) (PTFrame.fresh emulatedPpn isPte)
      frames = .ok (frame',level - k) := by
  induction level generalizing emulatedPpn isPte frames with
  | zero =>
    obtain ⟨offset,ho⟩:=hindex 1 (by omega) (by omega)
    obtain rfl : k=0 := by omega
    rw [updateFrom,ho,ok_bind,isLeaf_sizeAt hk,if_pos (by simp)]
    exact ⟨_,rfl⟩
  | succ level ih =>
    obtain ⟨offset,ho⟩:=hindex (level+1+1) (by omega) le_rfl
    rw [updateFrom,ho,ok_bind,isLeaf_sizeAt hk]
    by_cases hleaf : level+1=k
    · rw [if_pos (by simpa using hleaf),hleaf,Nat.sub_self]
      exact ⟨_,rfl⟩
    · rw [if_neg (by simpa using hleaf),if_neg (by omega)]
      simp only [PTFrame.entries_fresh]
      cases frames with
      | nil =>
        rw [List.length_nil] at hlen
        omega
      | cons next frames =>
        rw [List.length_cons] at hlen
        obtain ⟨frame',hframe⟩:=ih (by omega) (fun l hlow hhigh => hindex l hlow (by omega)) next
          (level+1 == 1) (show level - k≤frames.length by omega)
        simp only [hframe,ok_bind]
        rw [show level - k+1=level+1 - k by omega]
        exact ⟨_,rfl⟩

theorem walkFrom_fault {counter : ℕ} {visited : List PTWAccess} {r : PTWResult} (h : Grown (level+1) frame)
    (hwalk : pt.walkFrom address (level+1) frame counter visited = .ok r) (hfault : r.faultHappened=true) :
    ∃offset,pt.offset (level+1) address = .ok offset ∧
      ((frame.entries offset).data = .nextLevel none ∧ r.requestedFrames=level ∨
        level≠0 ∧ ∃next counter' visited',Grown level next ∧
          (frame.entries offset).data = .nextLevel (some next) ∧
          pt.walkFrom address level next counter' visited' = .ok r) := by
  rw [walkFrom] at hwalk
  obtain ⟨offset,ho,hwalk⟩:=bind_ok hwalk
  refine ⟨offset,ho,?_⟩
  have hentry := h offset
  dsimp only at hwalk
  generalize frame.entries offset=e at hentry hwalk ⊢
  cases hentry with
  | leaf ppn =>
    simp only at hwalk
    split_ifs at hwalk
    split at hwalk
    · cases hwalk
    · cases hwalk
      cases hfault
  | null isPte hpte =>
    cases isPte with
    | false =>
      cases hwalk
      exact Or.inl ⟨rfl,rfl⟩
    | true =>
      cases hwalk
      exact Or.inl ⟨rfl,rfl⟩
  | child next hheight hnext => exact Or.inr ⟨hheight,next,_,_,hnext,rfl,hwalk⟩

/-- After a fault the update takes no more frames than the walk asked for, and a 4KB page takes
just as many. -/
theorem updateFrom_after_fault {counter : ℕ} (hk : k≤1) (hle : k≤level) {visited : List PTWAccess}
    {r : PTWResult} (h : Grown (level+1) frame)
    (hwalk : pt.walkFrom address (level+1) frame counter visited = .ok r) (hfault : r.faultHappened=true)
    (hindex : pt.Indexed address (k+1) (level+1)) (ppn : ℕ) (hlen : r.requestedFrames≤frames.length) :
    ∃frame' used,pt.updateFrom address ppn (sizeAt k) (level+1) frame frames =
      .ok (frame',used) ∧ used ≤ r.requestedFrames ∧ (k=0 → used=r.requestedFrames) := by
  induction level generalizing frame counter visited with
  | zero =>
    obtain ⟨offset,ho,⟨-,hreq⟩ | ⟨hlevel,-⟩⟩:=walkFrom_fault h hwalk hfault
    · obtain rfl : k=0 := by omega
      rw [updateFrom,ho,ok_bind,isLeaf_sizeAt hk,if_pos (by simp)]
      exact ⟨_,0,rfl,by omega,by omega⟩
    · exact absurd rfl hlevel
  | succ level ih =>
    obtain ⟨offset,ho,hcases⟩:=walkFrom_fault h hwalk hfault
    rw [updateFrom,ho,ok_bind,isLeaf_sizeAt hk]
    by_cases hleaf : level+1=k
    · rw [if_pos (by simpa using hleaf)]
      exact ⟨_,0,rfl,by omega,by omega⟩
    · rw [if_neg (by simpa using hleaf),if_neg (by omega)]
      have hbelow : pt.Indexed address (k+1) (level+1) := fun l hlow hhigh => hindex l hlow (by omega)
      rcases hcases with ⟨hnull,hreq⟩ | ⟨-,next,counter',visited',hnext,hchild,hwalk'⟩
      · cases frames with
        | nil =>
          rw [List.length_nil] at hlen
          omega
        | cons emulatedPpn frames =>
          rw [List.length_cons] at hlen
          obtain ⟨frame',hframe⟩:=updateFrom_fresh hk (by omega) hbelow ppn emulatedPpn
            (level+1 == 1) (show level - k≤frames.length by omega)
          simp only [hnull,hframe,ok_bind]
          exact ⟨_,_,rfl,by omega,by omega⟩
      · obtain ⟨frame',used,hframe,hused,hexact⟩:=ih (by omega) hnext hwalk' hbelow
        simp only [hchild,hframe,ok_bind]
        exact ⟨_,used,rfl,hused,hexact⟩

theorem indexed_of_levels (hlevels : pt.levels≤5) (hframe : 512≤pt.frameSize) (address low : ℕ)
    (hlow : 1≤low) : pt.Indexed address low pt.levels := by
  intro level hl hh
  rw [offset,if_neg (by omega)]
  exact ⟨_,if_pos ((Nat.mod_lt _ (by decide)).trans_le hframe)⟩

end PageTableRadix

structure UpdateCall where
  address : ℕ
  ppn : ℕ
  pageSize : ℕ
  frames : List ℕ

namespace PageTableRadix

def applyUpdate (pt : PageTableRadix) (c : UpdateCall) : Except Abort PageTableRadix := do
  let (_,pt) ← pt.updatePageTableFrames c.address c.ppn c.pageSize c.frames
  .ok pt

theorem applyUpdate_grown {pt pt' : PageTableRadix} {c : UpdateCall} (h : Grown pt.levels pt.root)
    (he : pt.applyUpdate c = .ok pt') : Grown pt'.levels pt'.root := by
  obtain ⟨⟨used,t⟩,hupdate,he⟩:=bind_ok he
  cases he
  obtain ⟨⟨root,used'⟩,hroot,hupdate⟩:=bind_ok hupdate
  cases hupdate
  exact updateFrom_grown h hroot

def leafLevel (pageSize : ℕ) : ℕ := if pageSize=21 then 2 else 1

/-- The update returns and has used no more frames than requested, for a 4KB page all of them. -/
def FramesSuffice (pt : PageTableRadix) (address ppn pageSize : ℕ) (frames : List ℕ) (requested : ℕ) : Prop :=
  ∃used pt',pt.updatePageTableFrames address ppn pageSize frames = .ok (used,pt') ∧
    used ≤ requested ∧ (pageSize=12 → used=requested)

theorem framesSuffice_of_indexed {pt : PageTableRadix} (h : Grown pt.levels pt.root) {address k : ℕ}
    (hk : k≤1) {r : PTWResult} (hwalk : pt.initializeWalk address = .ok r) (hfault : r.faultHappened=true)
    (hindex : pt.Indexed address (k+1) pt.levels) (ppn : ℕ) {frames : List ℕ}
    (hlen : r.requestedFrames≤frames.length) :
    FramesSuffice pt address ppn (sizeAt k) frames r.requestedFrames := by
  rw [initializeWalk] at hwalk
  cases hlevels : pt.levels with
  | zero =>
    rw [hlevels,walkFrom] at hwalk
    cases hwalk
    cases hfault
  | succ level =>
    rw [hlevels] at h hwalk hindex
    have hupdate : ∃frame' used,pt.updateFrom address ppn (sizeAt k) (level+1) pt.root frames =
        .ok (frame',used) ∧ used ≤ r.requestedFrames ∧ (k=0 → used=r.requestedFrames) := by
      by_cases hle : k≤level
      · exact updateFrom_after_fault hk hle h hwalk hfault hindex ppn hlen
      · -- a 2MB page in a table of one level is not entered at all
        obtain ⟨offset,ho,-⟩:=walkFrom_fault h hwalk hfault
        obtain rfl : level=0 := by omega
        rw [updateFrom,ho,ok_bind,isLeaf_sizeAt hk,if_neg (by simp; omega),if_pos rfl]
        exact ⟨_,0,rfl,Nat.zero_le _,by omega⟩
    obtain ⟨frame',used,hframe,hused,hexact⟩:=hupdate
    refine ⟨used,{pt with root:=frame'},?_,hused,?_⟩
    · rw [updatePageTableFrames,hlevels,hframe]
      rfl
    · intro hsize
      apply hexact
      rw [sizeAt] at hsize
      omega

/-- In a table that was built by updates, the frames that a faulting walk asks for suffice exactly
when the index is defined at every level down to the one of the page. -/
theorem frames_suffice_iff {levels frameSize : ℕ} {pageSizeList : List ℕ} {calls : List UpdateCall}
    {pt : PageTableRadix} (hrun : run applyUpdate (new levels frameSize pageSizeList) calls = .ok pt)
    {address : ℕ} {r : PTWResult} (hwalk : pt.initializeWalk address = .ok r) (hfault : r.faultHappened=true)
    (ppn : ℕ) {pageSize : ℕ} (hsize : pageSize=12 ∨ pageSize=21) {frames : List ℕ}
    (hlen : frames.length=r.requestedFrames) :
    FramesSuffice pt address ppn pageSize frames r.requestedFrames ↔
      pt.Indexed address (leafLevel pageSize) pt.levels := by
  have hgrown : Grown pt.levels pt.root :=
    run_invariant (I:=fun pt => Grown pt.levels pt.root) (G:=fun _ _ => True)
      (fun _ _ _ h _ he => applyUpdate_grown h he) (grown_root levels)
      (along_of_forall (fun _ _ => trivial) _ _) hrun
  obtain ⟨k,hk,rfl,hleaf⟩ : ∃k≤1,pageSize=sizeAt k ∧ leafLevel pageSize=k+1 := by
    rcases hsize with rfl | rfl
    · exact ⟨0,by decide,rfl,rfl⟩
    · exact ⟨1,le_rfl,rfl,rfl⟩
  rw [hleaf]
  constructor
  · rintro ⟨used,pt',hupdate,-⟩
    obtain ⟨⟨root,used'⟩,hroot,-⟩:=bind_ok hupdate
    exact indexed_of_updateFrom hk hroot
  · intro hindex
    exact framesSuffice_of_indexed hgrown hk hwalk hfault hindex ppn hlen.ge

/-- A second 2MB region in a table of four levels asks for one frame more than it takes. -/
theorem frames_suffice_in_four_levels :
    ∃pt,run applyUpdate (new 4 512 [12,21]) [⟨0,7,12,[1,2,3]⟩] = .ok pt ∧
      ∃r,pt.initializeWalk (2^21) = .ok r ∧ (r.faultHappened=true ∧ r.requestedFrames=1) ∧
      FramesSuffice pt (2^21) 512 21 [4] 1 := by
  refine exists_ok_ok (P:=fun pt r => (r.faultHappened=true ∧ r.requestedFrames=1) ∧ pt.levels=4 ∧
    pt.frameSize=512) (by decide +kernel) ?_
  rintro pt r hrun hwalk ⟨⟨hfault,hreq⟩,hlevels,hframe⟩
  refine ⟨⟨hfault,hreq⟩,?_⟩
  have hlen : [4].length=r.requestedFrames := hreq.symm
  rw [← hreq]
  refine (frames_suffice_iff hrun hwalk hfault 512 (Or.inr rfl) hlen).mpr ?_
  exact indexed_of_levels (by omega) (by omega) _ _ (by decide)

/-- With six levels the last shift count is negative. -/
theorem frames_do_not_suffice_in_six_levels :
    ∃r,(new 6 512 [12,21]).initializeWalk 0 = .ok r ∧ r.faultHappened=true ∧
      r.requestedFrames=5 ∧ ¬ FramesSuffice (new 6 512 [12,21]) 0 7 12 [1,2,3,4,5] 5 := by
  refine ⟨⟨0,[⟨0,0,false⟩],0,true,5⟩,rfl,rfl,rfl,?_⟩
  rintro ⟨used,pt',hupdate,-⟩
  have heval : ((new 6 512 [12,21]).updatePageTableFrames 0 7 12 [1,2,3,4,5]).toOption.isNone =
      true := by
    decide +kernel
  rw [hupdate] at heval
  cases heval

end PageTableRadix

end Sniper.RadixPageTable
