import Sniper.PageWalkSchedules

/-! # When a page walk is complete -/

namespace Sniper.PageWalks.PageWalk
open SubsecondTime

variable {w : PageWalk} {l : Leaf} {tab level : ℕ}

theorem lt_maxTime_iff {t : SubsecondTime} : t < maxTime ↔ t≠maxTime := BitVec.lt_allOnes_iff

theorem slowestBelow_ne_zero {r : ℕ} (h : w.slowestBelow tab level r≠0) :
    ∃ (i : ℕ) (a : WalkAccess),w.accesses[i]?=some a ∧ a.tableLevel=tab ∧ a.depth=level := by
  induction r with
  | zero => exact absurd rfl h
  | succ r ih =>
    rw [slowestBelow] at h
    split_ifs at h with hgroup
    · obtain ⟨a,ha⟩:=inGroup_iff.mp hgroup.1
      exact ⟨r,a,ha⟩
    · exact ih h

theorem delayFor_none_eq (h : ∀ (i : ℕ) (b : WalkAccess),w.accesses[i]?=some b →
      b.tableLevel=tab → b.depth<level → w.start b.tableLevel b.depth≠maxTime) :
    w.delayFor none tab level=w.delay tab level := by
  induction level with
  | zero => rfl
  | succ level ih =>
    rw [delayFor,delay,ih fun i b hb htab hlt => h i b hb htab (Nat.lt_succ_of_lt hlt)]
    congr 1
    show (if w.start tab level < maxTime then w.slowest tab level else 0)=_
    by_cases hzero : w.slowest tab level=0
    · rw [hzero,ite_self]
    · obtain ⟨i,b,hb,rfl,rfl⟩:=slowestBelow_ne_zero hzero
      rw [if_pos (lt_maxTime_iff.mpr (h i b hb rfl (Nat.lt_succ_self _)))]

theorem delayFor_succ_of_deeper (hdeeper : l.access.depth<level) :
    w.delayFor (some l) tab (level+1)=w.delayFor (some l) tab level +
      if w.now+w.delayFor (some l) tab level<l.time then w.slowest tab level else 0 := by
  rw [delayFor]
  congr 1
  unfold recordedBelow
  dsimp only
  rw [if_neg (fun h => hdeeper.ne h.1),if_neg (fun h => hdeeper.ne h.1),sentSlowest,
    limit_of_before (Or.inl hdeeper)]
  rfl

theorem delayFor_leaf_table (hl : w.IsLeaf l) (hdeeper : l.access.depth<level) :
    w.delayFor (some l) l.access.tableLevel level=l.time - w.now := by
  induction level,hdeeper using Nat.le_induction with
  | base =>
    have hindex := (List.getElem?_eq_some_iff.mp hl.access_eq).1
    rw [delayFor,delayFor_eq_none (Or.inl le_rfl),recordedBelow_leaf l _ hindex,hl.time_eq]
    ring
  | succ level hlt ih =>
    rw [delayFor_succ_of_deeper hlt,ih,if_neg,add_zero]
    rw [add_sub_cancel]
    exact BitVec.lt_irrefl _

theorem calculatePTWCycles_leaf (hl : w.IsLeaf l) : w.calculatePTWCycles=l.time - w.now := by
  have hfinds : w.Finds (some l) := hl
  have hdepth := Nat.lt_succ_of_le (depth_le hl.access_eq)
  have hcorrect : w.walk.correct=some (l.access.tableLevel,l.access.depth) := by
    rw [(atPoint_walk hfinds).correct]
    exact found_of_before (Or.inl hdepth)
  simp only [calculatePTWCycles,hcorrect]
  rw [addLevels_eq hfinds (tableLevel_le hl.access_eq),delayFor_leaf_table hl hdepth]
  exact zero_add _

section

variable (w) (p : ℕ) (a : WalkAccess)

def completion : SubsecondTime := w.start a.tableLevel a.depth+w.latency p

/-- The walk returns the time that access `p` needs. The accesses up to it are sent and all that are
sent begin as scheduled; those that come later begin before it is done. -/
structure Timed : Prop where
  result : w.calculatePTWCycles=w.completion p a - w.now
  early : ∀ (i : ℕ) (b : WalkAccess),w.accesses[i]?=some b → Precedes b i a p ∨ i=p →
    (i,w.start b.tableLevel b.depth)∈w.walk.sent
  scheduled : ∀ (i : ℕ) (b : WalkAccess) (t : SubsecondTime),w.accesses[i]?=some b →
    (i,t)∈w.walk.sent → t=w.start b.tableLevel b.depth
  stops : ∀ (i : ℕ) (b : WalkAccess) (t : SubsecondTime),w.accesses[i]?=some b →
    Precedes a p b i → (i,t)∈w.walk.sent → t<w.completion p a

/-- No access up to `p` should begin at the greatest time. -/
def NeverLast : Prop :=
  ∀ (i : ℕ) (b : WalkAccess),w.accesses[i]?=some b → Precedes b i a p ∨ i=p →
    w.start b.tableLevel b.depth≠maxTime

/-- A later table that goes deeper than access `p` spends no time at its depth, or does not come to
this depth before the access is done. -/
def NothingHidden : Prop :=
  ∀ (i : ℕ) (b : WalkAccess),w.accesses[i]?=some b → a.tableLevel<b.tableLevel →
    a.depth<b.depth →
    w.slowest b.tableLevel a.depth=0 ∨ w.completion p a≤w.start b.tableLevel a.depth

end

theorem delayFor_deeper (hnext : w.now+w.delayFor (some l) tab (l.access.depth+1)<l.time →
      w.delayFor (some l) tab (l.access.depth+1)=w.delay tab (l.access.depth+1))
    (hdeeper : l.access.depth<level) (hsent : w.now+w.delayFor (some l) tab level<l.time) :
    w.delayFor (some l) tab level=w.delay tab level := by
  induction level,hdeeper using Nat.le_induction with
  | base => exact hnext hsent
  | succ level hlt ih =>
    rw [delayFor_succ_of_deeper hlt] at hsent ⊢
    split_ifs at hsent ⊢ with hguard
    · rw [ih hguard]
      rfl
    · rw [add_zero] at hsent
      exact absurd hsent hguard

section Leaf

variable (hl : w.IsLeaf l) (hlast : w.NeverLast l.index l.access)
include hlast

theorem delayFor_none_scheduled (hle : level≤l.access.depth) : w.delayFor none tab level=w.delay tab level := by
  apply delayFor_none_eq
  intro i b hb htab hlt
  exact hlast i b hb (Or.inl (Or.inl (hlt.trans_le hle)))

theorem delayFor_scheduled (hle : level≤l.access.depth) : w.delayFor (some l) tab level=w.delay tab level := by
  rw [delayFor_eq_none (Or.inl hle),delayFor_none_scheduled hlast hle]

theorem delayFor_earlier_table (htab : tab<l.access.tableLevel) :
    w.delayFor (some l) tab (l.access.depth+1)=w.delay tab (l.access.depth+1) := by
  rw [delayFor_eq_none (Or.inr ⟨rfl,htab⟩)]
  apply delayFor_none_eq
  intro i b hb hbtab hlt
  apply hlast i b hb
  left
  unfold Precedes Before
  omega

theorem delayFor_later_table (htab : l.access.tableLevel<tab) :
    w.delayFor (some l) tab (l.access.depth+1)=w.delay tab l.access.depth := by
  rw [delayFor,delayFor_scheduled hlast le_rfl]
  unfold recordedBelow
  dsimp only
  rw [if_pos ⟨rfl,htab⟩]
  exact add_zero _

include hl

theorem leaf_time : l.time=w.completion l.index l.access := by
  have hstart : w.now+w.delay l.access.tableLevel l.access.depth < maxTime :=
    lt_maxTime_iff.mpr (hlast l.index l.access hl.access_eq (Or.inr rfl))
  rw [hl.time_eq,delayFor_none_scheduled hlast le_rfl,if_pos hstart]
  rfl

theorem early_sent {i : ℕ} {b : WalkAccess} (hb : w.accesses[i]?=some b)
    (hbefore : Precedes b i l.access l.index ∨ i=l.index) : (i,w.start b.tableLevel b.depth)∈w.walk.sent := by
  have hfinds : w.Finds (some l) := hl
  have hle : b.depth≤l.access.depth ∧ ¬ Before l.access l.index b.depth b.tableLevel i := by
    rcases hbefore with hbefore | rfl
    · unfold Precedes Before at hbefore
      unfold Before
      omega
    · have haccess := hl.access_eq
      rw [hb] at haccess
      cases haccess
      unfold Before
      omega
  refine (sent_iff hfinds i _).mpr ⟨b,hb,?_,?_⟩
  · rw [delayFor_scheduled hlast hle.1]
    rfl
  · rw [limit_of_not_before hle.2]
    exact lt_maxTime_iff.mpr (hlast i b hb hbefore)

theorem sent_stops {i : ℕ} {b : WalkAccess} (hb : w.accesses[i]?=some b)
    (hafter : Precedes l.access l.index b i) {t : SubsecondTime} (ht : (i,t)∈w.walk.sent) :
    t<w.completion l.index l.access := by
  have hfinds : w.Finds (some l) := hl
  obtain ⟨b',hb',-,hlt⟩:=(sent_iff hfinds i t).mp ht
  rw [hb] at hb'
  cases hb'
  rwa [limit_of_before hafter,leaf_time hl hlast] at hlt

theorem sent_scheduled (hhidden : w.NothingHidden l.index l.access) {i : ℕ} {b : WalkAccess}
    (hb : w.accesses[i]?=some b) {t : SubsecondTime} (ht : (i,t)∈w.walk.sent) :
    t=w.start b.tableLevel b.depth := by
  have hfinds : w.Finds (some l) := hl
  obtain ⟨b',hb',rfl,hlt⟩:=(sent_iff hfinds i t).mp ht
  rw [hb] at hb'
  cases hb'
  show _=w.now+_
  congr 1
  rcases Nat.lt_or_ge l.access.depth b.depth with hdeeper | hle
  · rw [limit_of_before (Or.inl hdeeper)] at hlt
    apply delayFor_deeper _ hdeeper hlt
    intro hnext
    rcases Nat.lt_trichotomy b.tableLevel l.access.tableLevel with htab | htab | htab
    · exact delayFor_earlier_table hlast htab
    · -- the table of the leaf sends nothing below it
      rw [htab,delayFor_leaf_table hl hdeeper,add_sub_cancel] at hlt
      exact absurd hlt (BitVec.lt_irrefl _)
    · rw [delayFor_later_table hlast htab] at hnext ⊢
      rw [leaf_time hl hlast] at hnext
      rcases hhidden i b hb htab hdeeper with hzero | hdone
      · rw [delay,hzero,add_zero]
      · exact absurd hnext (BitVec.not_lt.mpr hdone)
  · exact delayFor_scheduled hlast hle

/-- Hidden time shows at the next depth at which the later table has an access. -/
theorem nothingHidden_of_scheduled (hscheduled : ∀ (i : ℕ) (b : WalkAccess) (t : SubsecondTime),
      w.accesses[i]?=some b → (i,t)∈w.walk.sent → t=w.start b.tableLevel b.depth) :
    w.NothingHidden l.index l.access := by
  intro i b hb htab hdeeper
  by_contra hnot
  rw [not_or,BitVec.not_le] at hnot
  obtain ⟨hslow,hearly⟩:=hnot
  classical
  -- the first depth below the leaf at which the table has an access
  have hsome : ∃d,l.access.depth<d ∧ ∃ (j : ℕ) (c : WalkAccess),w.accesses[j]?=some c ∧
      c.tableLevel=b.tableLevel ∧ c.depth=d := ⟨b.depth,hdeeper,i,b,hb,rfl,rfl⟩
  obtain ⟨hlt,j,c,hc,hctab,hcdepth⟩:=Nat.find_spec hsome
  have hempty : ∀d,l.access.depth<d → d<c.depth → w.slowest b.tableLevel d=0 := by
    intro d hd hdc
    by_contra hne
    obtain ⟨k,e,he,hetab,hedepth⟩:=slowestBelow_ne_zero hne
    rw [hcdepth] at hdc
    exact Nat.find_min hsome hdc ⟨hd,k,e,he,hetab,hedepth⟩
  rw [← hcdepth] at hlt
  have hboth : ∀d,l.access.depth<d → d ≤ c.depth →
      w.delayFor (some l) b.tableLevel d=w.delay b.tableLevel l.access.depth ∧
        w.delay b.tableLevel d =
          w.delay b.tableLevel l.access.depth+w.slowest b.tableLevel l.access.depth := by
    intro d hd
    induction d,hd using Nat.le_induction with
    | base => exact fun _ => ⟨delayFor_later_table hlast htab,rfl⟩
    | succ d hd ih =>
      intro hdc
      obtain ⟨hfor,hdelay⟩:=ih (Nat.le_of_succ_le hdc)
      have hzero := hempty d hd hdc
      rw [delayFor_succ_of_deeper hd,hzero,ite_self,add_zero,delay,hzero,add_zero]
      exact ⟨hfor,hdelay⟩
  obtain ⟨hfor,hdelay⟩:=hboth c.depth hlt le_rfl
  have hfinds : w.Finds (some l) := hl
  have hsent : (j,w.start b.tableLevel l.access.depth)∈w.walk.sent := by
    refine (sent_iff hfinds j _).mpr ⟨c,hc,?_,?_⟩
    · rw [hctab,hfor]
      rfl
    · rw [limit_of_before (Or.inl hlt),leaf_time hl hlast]
      exact hearly
  have hstart := hscheduled j c _ hc hsent
  rw [hctab,start,start,hdelay,← add_assoc] at hstart
  exact hslow (left_eq_add.mp hstart)

end Leaf

/-- For every walk with one access that finds the translation: it is timed as scheduled exactly when
no access up to this one begins at the greatest time and the later tables hide no time. The first
condition alone gives the result, and that nothing is sent after the end of the access. -/
theorem walk_timed_iff (w : PageWalk) (p : ℕ) (a : WalkAccess) (hp : w.accesses[p]?=some a)
    (hpte : a.isPte=true) (honly : ∀ (i : ℕ) (b : WalkAccess),w.accesses[i]?=some b →
      b.isPte=true → i=p) : (w.Timed p a ↔ w.NeverLast p a ∧ w.NothingHidden p a) ∧
    (w.NeverLast p a → w.calculatePTWCycles=w.completion p a - w.now ∧
      ∀ (i : ℕ) (b : WalkAccess) (t : SubsecondTime),w.accesses[i]?=some b →
        Precedes a p b i → (i,t)∈w.walk.sent → t<w.completion p a) := by
  obtain ⟨l,hl,rfl,rfl⟩ : ∃l,w.IsLeaf l ∧ l.index=p ∧ l.access=a:=
    ⟨⟨p,a,w.now+w.delayFor none a.tableLevel a.depth +
      if w.now+w.delayFor none a.tableLevel a.depth < maxTime then w.latency p else 0⟩,⟨hp,hpte,honly,rfl⟩,
      rfl,rfl⟩
  have hresult : w.NeverLast l.index l.access →
      w.calculatePTWCycles=w.completion l.index l.access - w.now := by
    intro hlast
    rw [calculatePTWCycles_leaf hl,leaf_time hl hlast]
  refine ⟨⟨fun h => ?_,?_⟩,fun hlast => ⟨hresult hlast,fun i b t hb hafter ht =>
    sent_stops hl hlast hb hafter ht⟩⟩
  · have hlast : w.NeverLast l.index l.access := by
      intro i b hb hbefore
      have hfinds : w.Finds (some l) := hl
      obtain ⟨c,hc,-,hlt⟩:=(sent_iff hfinds i _).mp (h.early i b hb hbefore)
      rw [hb] at hc
      cases hc
      rw [limit_of_not_before] at hlt
      · exact lt_maxTime_iff.mp hlt
      · rcases hbefore with hbefore | rfl
        · unfold Precedes Before at hbefore
          unfold Before
          omega
        · rw [hl.access_eq] at hb
          cases hb
          unfold Before
          omega
    exact ⟨hlast,nothingHidden_of_scheduled hl hlast h.scheduled⟩
  · rintro ⟨hlast,hhidden⟩
    exact ⟨hresult hlast,fun i b hb hbefore => early_sent hl hlast hb hbefore,
      fun i b t hb ht => sent_scheduled hl hlast hhidden hb ht,
      fun i b t hb hafter ht => sent_stops hl hlast hb hafter ht⟩

/-- Two depths of one table. -/
theorem walk_timed_of_two : Timed ⟨100,[⟨⟨0,8,false⟩,0⟩,⟨⟨1,16,true⟩,0⟩],fun _ => 10⟩ 1 ⟨⟨1,16,true⟩,0⟩ := by
  refine (walk_timed_iff _ 1 _ rfl rfl ?_).1.mpr ⟨?_,?_⟩
  · intro i b hb hpte
    rcases i with _ | _ | i
    · cases hb
      cases hpte
    · rfl
    · cases hb
  · intro i b hb _
    rcases i with _ | _ | i
    · cases hb
      decide
    · cases hb
      decide
    · cases hb
  · intro i b hb htab
    rcases i with _ | _ | i
    · cases hb
      exact absurd htab (by decide)
    · cases hb
      exact absurd htab (by decide)
    · cases hb

/-- The translation is found in table 0 after 10. Table 1 needs 20 at its first depth, so its second
access should begin at 20; it is sent at 0. -/
theorem walk_timed_fails : let w : PageWalk := ⟨0,[⟨⟨0,8,true⟩,0⟩,⟨⟨0,16,false⟩,1⟩,⟨⟨1,24,false⟩,1⟩],
      fun i => if i=0 then 10 else 20⟩
    w.completion 0 ⟨⟨0,8,true⟩,0⟩=10 ∧ w.start 1 1=20 ∧ (2,0)∈w.walk.sent := by
  decide +kernel

def tableTime (w : PageWalk) (tab : ℕ) : ℕ := ∑ level∈Finset.range (w.levels + 1),(w.slowest tab level).toNat

def slowestTable (w : PageWalk) : ℕ := (Finset.range (w.tables + 1)).sup w.tableTime

/-- The table has come to a depth that begins at the greatest time. Nothing is sent from there on. -/
def Stuck (w : PageWalk) (tab level : ℕ) : Prop := ∃d ≤ level,w.start tab d = maxTime

instance (w : PageWalk) (tab level : ℕ) : Decidable (w.Stuck tab level) := inferInstanceAs (Decidable (∃_,_))

/-- What the table takes up to a depth that begins at the greatest time. -/
def keptTime (w : PageWalk) (tab : ℕ) : ℕ :=
  ∑ level∈Finset.range (w.levels + 1),if w.Stuck tab level then 0 else (w.slowest tab level).toNat

/-- What the table should take from such a depth on. -/
def lostTime (w : PageWalk) (tab : ℕ) : ℕ :=
  ∑ level∈Finset.range (w.levels + 1),if w.Stuck tab level then (w.slowest tab level).toNat else 0

theorem keptTime_add_lostTime (w : PageWalk) (tab : ℕ) : w.keptTime tab + w.lostTime tab = w.tableTime tab := by
  rw [keptTime,lostTime,tableTime,← Finset.sum_add_distrib]
  apply Finset.sum_congr rfl
  intro level _
  split_ifs
  · exact zero_add _
  · exact add_zero _

theorem delay_toNat (w : PageWalk) (tab level : ℕ) : (w.delay tab level).toNat =
    (∑ d∈Finset.range level,(w.slowest tab d).toNat) % 2 ^ 64 := by
  induction level with
  | zero => rfl
  | succ level ih =>
    rw [delay,BitVec.toNat_add,ih,Finset.sum_range_succ,Nat.mod_add_mod]

theorem delayFor_none_succ (w : PageWalk) (tab level : ℕ) :
    w.delayFor none tab (level + 1) = w.delayFor none tab level +
      if w.now + w.delayFor none tab level < maxTime then w.slowest tab level else 0 := rfl

/-- A table that is stuck keeps its delay, and up to then the delay is the scheduled one. -/
theorem delayFor_none_stuck (w : PageWalk) (tab level : ℕ) :
    (w.Stuck tab level → w.now + w.delayFor none tab level = maxTime) ∧
      (¬w.Stuck tab level → w.delayFor none tab level = w.delay tab level) := by
  induction level with
  | zero =>
    refine ⟨?_,fun _ => rfl⟩
    rintro ⟨d,hd,hstart⟩
    rwa [Nat.le_zero.mp hd] at hstart
  | succ level ih =>
    by_cases hstuck : w.Stuck tab level
    · obtain ⟨d,hd,hstart⟩ := hstuck
      have hmax := ih.1 ⟨d,hd,hstart⟩
      rw [delayFor_none_succ,hmax,if_neg (BitVec.lt_irrefl _),add_zero]
      exact ⟨fun _ => hmax,fun hnot => absurd ⟨d,Nat.le_succ_of_le hd,hstart⟩ hnot⟩
    · have hdelay := ih.2 hstuck
      have hlt : w.now + w.delay tab level < maxTime :=
        lt_maxTime_iff.mpr fun hmax => hstuck ⟨level,le_rfl,hmax⟩
      rw [delayFor_none_succ,hdelay,if_pos hlt]
      refine ⟨?_,fun _ => rfl⟩
      rintro ⟨d,hd,hstart⟩
      rcases Nat.le_succ_iff.mp hd with hd | rfl
      · exact absurd ⟨d,hd,hstart⟩ hstuck
      · exact hstart

theorem delayFor_none_toNat (w : PageWalk) (tab level : ℕ) : (w.delayFor none tab level).toNat =
    (∑ d∈Finset.range level,if w.Stuck tab d then 0 else (w.slowest tab d).toNat) % 2 ^ 64 := by
  induction level with
  | zero => rfl
  | succ level ih =>
    obtain ⟨hkeeps,hdelay⟩ := w.delayFor_none_stuck tab level
    rw [delayFor_none_succ,BitVec.toNat_add,ih,Finset.sum_range_succ,Nat.mod_add_mod]
    by_cases hstuck : w.Stuck tab level
    · rw [if_pos hstuck,if_neg (hkeeps hstuck ▸ BitVec.lt_irrefl _)]
      rfl
    · rw [if_neg hstuck,if_pos]
      rw [hdelay hstuck]
      exact lt_maxTime_iff.mpr fun hmax => hstuck ⟨level,le_rfl,hmax⟩

theorem calculatePTWCycles_none (hfinds : w.Finds none) :
    w.calculatePTWCycles = ∑ tab∈Finset.range (w.tables+1),w.delayFor none tab (w.levels+1) := by
  have hsum : ∀count≤w.tables+1,((List.range count).foldl
      (fun (acc : SubsecondTime × SubsecondTime) tab =>
        let walkLatency := w.addLevels tab acc.1
        (walkLatency,if acc.2<walkLatency then walkLatency else acc.2)) (0,0)).1 =
      ∑ tab∈Finset.range count,w.delayFor none tab (w.levels+1) := by
    intro count hcount
    induction count with
    | zero => rfl
    | succ count ih =>
      rw [List.range_succ,List.foldl_append,Finset.sum_range_succ,← ih (Nat.le_of_succ_le hcount)]
      exact addLevels_eq hfinds (Nat.le_of_succ_le_succ hcount) _
  have hcorrect : w.walk.correct=none := (atPoint_walk hfinds).correct
  simp only [calculatePTWCycles,hcorrect]
  exact hsum (w.tables+1) le_rfl

theorem toNat_sum (f : ℕ → SubsecondTime) (g : ℕ → ℕ) (hf : ∀i,(f i).toNat=g i % 2^64) (count : ℕ) :
    (∑ i∈Finset.range count,f i).toNat=(∑ i∈Finset.range count,g i) % 2^64 := by
  induction count with
  | zero => rfl
  | succ count ih =>
    rw [Finset.sum_range_succ,Finset.sum_range_succ,BitVec.toNat_add,ih,hf,← Nat.add_mod]

theorem sum_eq_sup_iff (f : ℕ → ℕ) (n : ℕ) : ∑ i∈Finset.range (n+1),f i=(Finset.range (n+1)).sup f ↔
      ∃t≤n,∀i≤n,i≠t → f i=0 := by
  constructor
  · intro h
    obtain ⟨t,ht,hsup⟩:=Finset.exists_mem_eq_sup (Finset.range (n+1)) ⟨0,by simp⟩ f
    refine ⟨t,Nat.le_of_lt_succ (Finset.mem_range.mp ht),fun i hi hne => ?_⟩
    rw [hsup,← Finset.add_sum_erase _ _ ht] at h
    have hrest : ∑ j∈(Finset.range (n+1)).erase t,f j=0 := by omega
    exact Finset.sum_eq_zero_iff.mp hrest i
      (Finset.mem_erase.mpr ⟨hne,Finset.mem_range.mpr (Nat.lt_succ_of_le hi)⟩)
  · rintro ⟨t,ht,hzero⟩
    have hmem : t∈Finset.range (n+1) := Finset.mem_range.mpr (Nat.lt_succ_of_le ht)
    have hzero' : ∀i∈Finset.range (n+1),i≠t → f i=0 := fun i hi =>
      hzero i (Nat.le_of_lt_succ (Finset.mem_range.mp hi))
    rw [Finset.sum_eq_single_of_mem t hmem hzero']
    apply le_antisymm (Finset.le_sup hmem)
    apply Finset.sup_le
    intro i hi
    by_cases hit : i=t
    · rw [hit]
    · rw [hzero' i hi hit]
      exact Nat.zero_le _

/-- For every walk without a translation: the result is the time of the slowest table exactly when this
is below `2 ^ 64` and what the table loses is made up for by the times that are added for the others.
When nothing begins at the greatest time and nothing overflows, at most one table may take time. -/
theorem walk_slowest_iff (w : PageWalk)
    (hnone : ∀ (i : ℕ) (b : WalkAccess),w.accesses[i]? = some b → b.isPte = false) :
    (w.calculatePTWCycles.toNat = w.slowestTable ↔ ∃t ≤ w.tables,w.tableTime t = w.slowestTable ∧
      w.tableTime t < 2 ^ 64 ∧
      (∑ tab∈(Finset.range (w.tables + 1)).erase t,w.keptTime tab) % 2 ^ 64 = w.lostTime t) ∧
    ((∀ (i : ℕ) (b : WalkAccess),w.accesses[i]? = some b → w.start b.tableLevel b.depth ≠ maxTime) →
      ∑ tab∈Finset.range (w.tables + 1),w.tableTime tab < 2 ^ 64 →
      (w.calculatePTWCycles.toNat = w.slowestTable ↔
        ∃t ≤ w.tables,∀tab ≤ w.tables,tab ≠ t → w.tableTime tab = 0)) := by
  have hresult := calculatePTWCycles_none (w := w) hnone
  refine ⟨?_,fun hstarts hlt => ?_⟩
  · have hsum := toNat_sum _ _ (fun tab => w.delayFor_none_toNat tab (w.levels + 1)) (w.tables + 1)
    rw [← hresult] at hsum
    -- the table is split off from the sum of all tables
    have hsplit : ∀t ≤ w.tables,w.tableTime t = w.slowestTable → (w.calculatePTWCycles.toNat = w.slowestTable ↔
        w.tableTime t < 2 ^ 64 ∧
          (∑ tab∈(Finset.range (w.tables + 1)).erase t,w.keptTime tab) % 2 ^ 64 = w.lostTime t) := by
      intro t ht heq
      have hkept := Finset.add_sum_erase (Finset.range (w.tables + 1)) w.keptTime
        (Finset.mem_range.mpr (Nat.lt_succ_of_le ht))
      have htime := w.keptTime_add_lostTime t
      have hbound := w.calculatePTWCycles.isLt
      change _ = (∑ tab∈Finset.range (w.tables + 1),w.keptTime tab) % 2 ^ 64 at hsum
      rw [← hkept] at hsum
      omega
    obtain ⟨t,ht,heq⟩ := Finset.exists_mem_eq_sup (Finset.range (w.tables + 1)) ⟨0,by simp⟩ w.tableTime
    have hle : t ≤ w.tables := Nat.le_of_lt_succ (Finset.mem_range.mp ht)
    constructor
    · intro h
      exact ⟨t,hle,heq.symm,(hsplit t hle heq.symm).mp h⟩
    · rintro ⟨t,ht,heq,h⟩
      exact (hsplit t ht heq).mpr h
  · have htoNat : w.calculatePTWCycles.toNat = ∑ tab∈Finset.range (w.tables + 1),w.tableTime tab := by
      rw [hresult,← Nat.mod_eq_of_lt hlt]
      apply toNat_sum
      intro tab
      rw [delayFor_none_eq fun i c hc _ _ => hstarts i c hc]
      exact w.delay_toNat tab (w.levels + 1)
    rw [htoNat]
    exact sum_eq_sup_iff w.tableTime w.tables

/-- Two depths of one table, and a second table that takes no time. -/
theorem walk_slowest_of_two :
    calculatePTWCycles ⟨100,[⟨⟨0,8,false⟩,0⟩,⟨⟨0,24,false⟩,1⟩,⟨⟨1,16,false⟩,0⟩],
      fun i => if i = 1 then 0 else 10⟩ = 20 := by
  have h := (walk_slowest_iff ⟨100,[⟨⟨0,8,false⟩,0⟩,⟨⟨0,24,false⟩,1⟩,⟨⟨1,16,false⟩,0⟩],
    fun i => if i = 1 then 0 else 10⟩ ?_).1.mpr ⟨0,by decide,by decide,by decide,by decide⟩
  · exact BitVec.eq_of_toNat_eq (h.trans (by decide))
  · intro i b hb
    rcases i with _ | _ | _ | i
    · cases hb
      rfl
    · cases hb
      rfl
    · cases hb
      rfl
    · cases hb

/-- Two tables that are walked at the same time, of 10 and of 8: the result is 18. -/
theorem walk_slowest_fails :
    let w : PageWalk := ⟨0,[⟨⟨0,8,false⟩,0⟩,⟨⟨0,16,false⟩,1⟩],fun i => if i=0 then 10 else 8⟩
    w.slowestTable=10 ∧ w.calculatePTWCycles=18 := by
  decide +kernel

end Sniper.PageWalks.PageWalk
