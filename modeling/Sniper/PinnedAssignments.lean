import Sniper.PinnedScheduler

/-!
# Which thread runs on which core

A core and the thread on it name each other. A rescheduling keeps this, puts a thread on the core
only if it is runnable and allowed there, and leaves the core idle only if there is no such thread.
-/

namespace Sniper.Scheduling
open FallibleRuns NotedRuns NotedRuns.Noted Function List

variable {n : ℕ}

namespace Assignment

variable {a b : Assignment n} {c : Fin n} {t : ℕ}

section

variable (a)

def coreOf (t : ℕ) : Option (Fin n) := (a.threadInfo[t]?).bind (·.coreRunning)

def Runnable (t : ℕ) : Prop := a.threadsRunnable[t]?=some true

def HasAffinity (t : ℕ) (c : Fin n) : Prop := ∃info,a.threadInfo[t]?=some info ∧ info.coreAffinity c=true

/-- A thread runs on a core exactly when its core is that core. -/
def Consistent : Prop := ∀c t,a.coreThreadRunning c=some t ↔ a.coreOf t=some c

/-- What a call of `reschedule` for a core has done. -/
structure Rescheduled (c : Fin n) (before after : Assignment n) : Prop where
  placed : ∀t d,after.coreThreadRunning d=some t → before.coreThreadRunning d≠some t →
    after.Runnable t ∧ after.HasAffinity t d
  idle : after.coreThreadRunning c=none → ∀t,after.Runnable t → after.HasAffinity t c →
    after.coreOf t≠none

/-- A thread that the loop of `reschedule` may choose. -/
def Candidate (c : Fin n) (t : ℕ) : Prop :=
  a.Runnable t ∧ a.HasAffinity t c ∧ (a.coreOf t=none ∨ a.coreOf t=some c)

end

theorem coreOf_eq {info : ThreadInfo n} (h : a.threadInfo[t]?=some info) : a.coreOf t=info.coreRunning := by
  rw [coreOf,h,Option.bind_some]

theorem hasAffinity_iff {info : ThreadInfo n} (h : a.threadInfo[t]?=some info) :
    a.HasAffinity t c ↔ info.coreAffinity c=true := by
  constructor
  · rintro ⟨info',hinfo',haff⟩
    rw [h] at hinfo'
    cases hinfo'
    exact haff
  · exact fun haff => ⟨info,h,haff⟩

theorem candidate_iff {info : ThreadInfo n} (h : a.threadInfo[t]?=some info) :
    a.Candidate c t ↔ info.coreAffinity c ∧ a.threadsRunnable[t]?=some true ∧
      (info.coreRunning=none ∨ info.coreRunning=some c) := by
  rw [Candidate,hasAffinity_iff h,coreOf_eq h,Runnable]
  tauto

/-- The core has got the thread `new`, or none, in the place of its current thread. -/
structure Moved (c : Fin n) (new : Option ℕ) (a b : Assignment n) : Prop where
  running : b.coreThreadRunning=Function.update a.coreThreadRunning c new
  cores : ∀u,b.coreOf u =
    if new=some u then some c else if a.coreThreadRunning c=some u then none else a.coreOf u
  affinity : ∀u d,b.HasAffinity u d ↔ a.HasAffinity u d
  runnable : b.threadsRunnable=a.threadsRunnable

theorem Moved.consistent {new : Option ℕ} (h : Moved c new a b) (ha : a.Consistent)
    (hnew : ∀t,new=some t → a.Candidate c t) : b.Consistent := by
  intro d u
  rw [h.running,h.cores]
  by_cases hd : d=c
  · rw [hd,update_self]
    by_cases hu : new=some u
    · rw [if_pos hu]
      exact iff_of_true hu rfl
    · rw [if_neg hu]
      by_cases hcur : a.coreThreadRunning c=some u
      · simp [hcur,hu]
      · simp [hcur,hu,← ha c u]
  · rw [update_of_ne hd,ha d u]
    by_cases hu : new=some u
    · rw [if_pos hu]
      refine iff_of_false (fun hcore => ?_) (by simpa using Ne.symm hd)
      rcases (hnew u hu).2.2 with hnone | hsome
      · rw [hnone] at hcore
        cases hcore
      · rw [hsome] at hcore
        exact hd (Option.some.inj hcore).symm
    · rw [if_neg hu]
      by_cases hcur : a.coreThreadRunning c=some u
      · rw [if_pos hcur,(ha c u).mp hcur]
        exact iff_of_false (by simpa using Ne.symm hd) (by simp)
      · rw [if_neg hcur]

theorem Moved.rescheduled {new : Option ℕ} (h : Moved c new a b) (ha : a.Consistent)
    (hnew : ∀t,new=some t → a.Candidate c t) (hnone : new=none → ∀t,¬ a.Candidate c t) :
    Rescheduled c a b where
  placed t d hafter hbefore := by
    rw [h.running] at hafter
    by_cases hd : d=c
    · rw [hd,update_self] at hafter
      obtain ⟨hrunnable,haffinity,-⟩:=hnew t hafter
      rw [hd,Runnable,h.runnable]
      exact ⟨hrunnable,(h.affinity t c).mpr haffinity⟩
    · rw [update_of_ne hd] at hafter
      exact absurd hafter hbefore
  idle hidle t hrunnable haffinity hcore := by
    rw [h.running,update_self] at hidle
    rw [Runnable,h.runnable] at hrunnable
    rw [h.affinity] at haffinity
    -- the thread was off core or on this one, so that it would have been chosen
    refine hnone hidle t ⟨hrunnable,haffinity,?_⟩
    rw [h.cores,hidle,if_neg (by simp)] at hcore
    by_cases hcur : a.coreThreadRunning c=some t
    · exact Or.inr ((ha c t).mp hcur)
    · rw [if_neg hcur] at hcore
      exact Or.inl hcore

end Assignment

theorem ThreadInfo.score_gt (info : ThreadInfo n) (time : SubsecondTime) : -2^63 < info.score time := by
  have hsmall : ∀t : SubsecondTime,t.getPS.toInt=(t.toNat / 1000 : ℕ) ∧ t.toNat / 1000<2^62 :=
    fun t => by
      have hlt := t.isLt
      have hnat : t.getPS.toNat=t.toNat / 1000 := by
        rw [SubsecondTime.getPS,BitVec.toNat_udiv]
        rfl
      refine ⟨?_,by omega⟩
      rw [BitVec.toInt_eq_toNat_of_lt (by omega),hnat]
  have hsub : ∀t u : SubsecondTime,-2^63<(t.getPS - u.getPS).toInt := fun t u => by
    obtain ⟨ht,htlt⟩:=hsmall t
    obtain ⟨hu,hult⟩:=hsmall u
    rw [BitVec.toInt_sub,ht,hu,Int.bmod_eq_of_le (by omega) (by omega)]
    omega
  rw [score]
  split
  · exact hsub _ _
  · exact hsub _ _

namespace PinnedScheduler

open Assignment

variable {s s' : PinnedScheduler n} {c : Fin n} {t : ℕ} {time : SubsecondTime}

section

variable (s)

/-- The vector of runnable threads is not the longer one. -/
def Fits : Prop := s.threadsRunnable.length ≤ s.threadInfo.length

instance : Decidable s.Fits := inferInstanceAs (Decidable (_≤_))

theorem getInfo_yields (t : ℕ) :
    Yields (s.getInfo t) (fun info => s.threadInfo[t]?=some info) (¬ t<s.threadInfo.length) := by
  rw [getInfo]
  cases hinfo : s.threadInfo[t]? with
  | none => exact Or.inr ⟨Nat.not_lt.mpr (List.getElem?_eq_none_iff.mp hinfo),_,rfl⟩
  | some info => exact Or.inl ⟨info,rfl,rfl⟩

end

theorem getInfo_ok {info : ThreadInfo n} (h : s.threadInfo[t]?=some info) : s.getInfo t = .ok info := by
  rw [getInfo,h]

/-- No vector grows, and there are as many threads as before. -/
structure Frame (s s' : PinnedScheduler n) : Prop where
  infoLength : s'.threadInfo.length=s.threadInfo.length
  runnableLength : s'.threadsRunnable.length=s.threadsRunnable.length
  numThreads : s'.numThreads=s.numThreads

theorem Frame.refl (s : PinnedScheduler n) : Frame s s := ⟨rfl,rfl,rfl⟩

theorem Frame.trans {s'' : PinnedScheduler n} (h : Frame s s') (h' : Frame s' s'') : Frame s s'' :=
  ⟨h'.infoLength.trans h.infoLength,h'.runnableLength.trans h.runnableLength,h'.numThreads.trans h.numThreads⟩

theorem Frame.fits (h : Frame s s') (hs : s.Fits) : s'.Fits := by
  rw [Fits,h.infoLength,h.runnableLength]
  exact hs

/-- The core of one thread has changed, and nothing of the cores. -/
structure Edited (t : ℕ) (core : Option (Fin n)) (s s' : PinnedScheduler n) : Prop extends
    Frame s s' where
  running : s'.coreThreadRunning=s.coreThreadRunning
  cores : ∀u,s'.coreOf u=if u=t then core else s.coreOf u
  affinity : ∀u d,s'.HasAffinity u d ↔ s.HasAffinity u d
  runnable : s'.threadsRunnable=s.threadsRunnable

theorem getElem?_set_info {info : ThreadInfo n} (h : s.threadInfo[t]?=some info)
    (info' : ThreadInfo n) (u : ℕ) :
    (s.threadInfo.set t info')[u]?=if u=t then some info' else s.threadInfo[u]? := by
  obtain ⟨hlt,-⟩:=List.getElem?_eq_some_iff.mp h
  rw [List.getElem?_set]
  by_cases hu : t=u
  · rw [if_pos hu,if_pos hlt,if_pos hu.symm]
  · rw [if_neg hu,if_neg (Ne.symm hu)]

theorem modifyInfo_edited {info : ThreadInfo n} (h : s.threadInfo[t]?=some info)
    {f : ThreadInfo n → ThreadInfo n} (hf : (f info).coreAffinity=info.coreAffinity) :
    ∃s',s.modifyInfo t f = .ok s' ∧ Edited t (f info).coreRunning s s' := by
  refine ⟨{s with threadInfo:=s.threadInfo.set t (f info)},?_,⟨length_set,rfl,rfl⟩,rfl,fun u => ?_,
    fun u d => ?_,rfl⟩
  · rw [modifyInfo,getInfo_ok h,ok_bind]
  · rw [coreOf,getElem?_set_info h]
    by_cases hu : u=t
    · rw [if_pos hu,if_pos hu,Option.bind_some]
    · rw [if_neg hu,if_neg hu]
      rfl
  · rw [HasAffinity,getElem?_set_info h]
    by_cases hu : u=t
    · rw [if_pos hu,hu,hasAffinity_iff h,← hf]
      simp
    · rw [if_neg hu]
      rfl

/-- The best thread so far is a candidate, and without one no thread before was. -/
def Best (s : PinnedScheduler n) (c : Fin n) (best : Option ℕ × ℤ) (rest : List ℕ) : Prop :=
  (∀t∈rest,t<s.threadsRunnable.length) ∧ (∀t,best.1=some t → s.Candidate c t) ∧
    (best.1=none → best.2 = -2^63 ∧ ∀t,s.Candidate c t → t∈rest)

theorem consider_yields {best : Option ℕ × ℤ} {rest : List ℕ} (h : s.Best c best (t::rest)) :
    Yields (s.consider time c best t) (s.Best c · rest) (¬ s.Fits) := by
  obtain ⟨hlt,hbest,hnone⟩:=h
  have hrest : ∀u∈rest,u<s.threadsRunnable.length := fun u hu =>
    hlt u (mem_cons_of_mem t hu)
  rw [consider]
  refine ((s.getInfo_yields t).weaken fun hout hfits =>
    hout ((hlt t mem_cons_self).trans_le hfits)).bind fun info hinfo => ?_
  have hiff := candidate_iff (a:=s.toAssignment) (c:=c) hinfo
  by_cases hcand : s.Candidate c t
  · rw [if_pos (hiff.mp hcand)]
    refine yields_ok ?_ _
    by_cases hscore : best.2 < info.score time
    · rw [if_pos hscore]
      refine ⟨hrest,fun u hu => ?_,fun h => by cases h⟩
      cases hu
      exact hcand
    · rw [if_neg hscore]
      refine ⟨hrest,hbest,fun hempty => absurd ?_ hscore⟩
      rw [(hnone hempty).1]
      exact info.score_gt time
  · rw [if_neg fun h => hcand (hiff.mpr h)]
    refine yields_ok ⟨hrest,hbest,fun hempty => ⟨(hnone hempty).1,fun u hu => ?_⟩⟩ _
    exact (mem_cons.mp ((hnone hempty).2 u hu)).resolve_left fun heq => hcand (heq ▸ hu)

theorem pick_yields (s : PinnedScheduler n) (time : SubsecondTime) (c : Fin n) :
    Yields (s.pick time c) (s.Best c · []) (¬ s.Fits) := by
  refine yields_foldlM (Q:=s.Best c) (fun best t rest h => consider_yields h) ⟨?_,?_,
    fun _ => ⟨rfl,fun t ht => ?_⟩⟩
  · exact fun t ht => mem_range.mp ht
  · exact fun t ht => by cases ht
  · exact mem_range.mpr (List.getElem?_eq_some_iff.mp ht.1).1

theorem unschedule_ok (hs : s.Consistent) (time : SubsecondTime) (c : Fin n) :
    ∃s',s.unschedule time c = .ok s' ∧ Frame s s' ∧ s'.coreThreadRunning=s.coreThreadRunning ∧
      (∀u,s'.coreOf u=if s.coreThreadRunning c=some u then none else s.coreOf u) ∧
      (∀u d,s'.HasAffinity u d ↔ s.HasAffinity u d) ∧ s'.threadsRunnable=s.threadsRunnable := by
  rw [unschedule]
  cases hcur : s.coreThreadRunning c with
  | none => exact ⟨s,rfl,.refl s,rfl,fun u => by simp,fun u d => Iff.rfl,rfl⟩
  | some t =>
    obtain ⟨info,hinfo,-⟩:=Option.bind_eq_some_iff.mp ((hs c t).mp hcur)
    obtain ⟨s',hok,hedit⟩:=modifyInfo_edited hinfo (f:=fun info => { info with
      coreRunning := none,lastScheduledOut := time+SubsecondTime.ps (BitVec.ofNat 64 c) }) rfl
    refine ⟨s',hok,hedit.toFrame,hedit.running,fun u => ?_,hedit.affinity,hedit.runnable⟩
    rw [hedit.cores]
    simp only [Option.some.injEq,eq_comm]

theorem place_ok (time : SubsecondTime) (c : Fin n) {new : Option ℕ}
    (hnew : ∀t,new=some t → t<s.threadInfo.length ∧ s.coreOf t=none) :
    ∃s',s.place time c new = .ok s' ∧ Frame s s' ∧
      s'.coreThreadRunning=update s.coreThreadRunning c new ∧
      (∀u,s'.coreOf u=if new=some u then some c else s.coreOf u) ∧
      (∀u d,s'.HasAffinity u d ↔ s.HasAffinity u d) ∧ s'.threadsRunnable=s.threadsRunnable := by
  cases new with
  | none => exact ⟨_,rfl,⟨rfl,rfl,rfl⟩,rfl,fun u => by simp; rfl,fun u d => Iff.rfl,rfl⟩
  | some t =>
    obtain ⟨hlt,hcore⟩:=hnew t rfl
    have hinfo : s.threadInfo[t]?=some s.threadInfo[t] := List.getElem?_eq_getElem hlt
    rw [coreOf_eq (a:=s.toAssignment) hinfo] at hcore
    obtain ⟨s',hok,hedit⟩:=modifyInfo_edited (t:=t)
      (s:={s with coreThreadRunning:=update s.coreThreadRunning c (some t)}) hinfo
      (f:=fun info => {info with coreRunning:=some c,lastScheduledIn:=time}) rfl
    have hget : getInfo {s with coreThreadRunning:=update s.coreThreadRunning c (some t)} t =
        .ok s.threadInfo[t] := getInfo_ok hinfo
    refine ⟨s',?_,⟨hedit.infoLength,hedit.runnableLength,hedit.numThreads⟩,hedit.running,fun u => ?_,
      hedit.affinity,hedit.runnable⟩
    · simp only [place,hget,ok_bind,hcore]
      exact hok
    · rw [hedit.cores]
      simp only [Option.some.injEq,eq_comm]
      rfl

theorem unschedule_place_ok (hs : s.Consistent) (time : SubsecondTime) {new : Option ℕ}
    (hnew : ∀t,new=some t → s.Candidate c t) (hne : s.coreThreadRunning c≠new) :
    ∃s1 s',s.unschedule time c = .ok s1 ∧ s1.place time c new = .ok s' ∧ Frame s s' ∧
      Moved c new s.toAssignment s'.toAssignment := by
  obtain ⟨s1,hok1,hframe1,hrunning1,hcores1,haffinity1,hrunnable1⟩:=unschedule_ok hs time c
  have hfree : ∀t,new=some t → t<s1.threadInfo.length ∧ s1.coreOf t=none := by
    intro t ht
    obtain ⟨hrunnable,⟨info,hinfo,-⟩,hcore⟩:=hnew t ht
    refine ⟨hframe1.infoLength ▸ (List.getElem?_eq_some_iff.mp hinfo).1,?_⟩
    have hother : s.coreThreadRunning c≠some t := fun h => hne (h.trans ht.symm)
    rw [hcores1,if_neg hother]
    exact hcore.resolve_right fun h => hother ((hs c t).mpr h)
  obtain ⟨s2,hok2,hframe2,hrunning2,hcores2,haffinity2,hrunnable2⟩:=place_ok time c hfree
  refine ⟨s1,s2,hok1,hok2,hframe1.trans hframe2,?_,fun u => ?_,fun u d => ?_,?_⟩
  · rw [hrunning2,hrunning1]
  · rw [hcores2,hcores1]
  · rw [haffinity2,haffinity1]
  · rw [hrunnable2,hrunnable1]

structure Inv (s : PinnedScheduler n) : Prop where
  consistent : s.Consistent
  created : s.numThreads ≤ s.threadInfo.length
  running : ∀t c,s.coreOf t=some c → t<s.numThreads
  runnable : ∀t,s.Runnable t → t<s.numThreads

/-- The calls of `reschedule` have done what they should. -/
def Reschedules {α : Type} (x : Noted (Rescheduling n) Abort α) (Q : α → Prop) (mayFail : Prop) : Prop :=
  x.Meets (fun m => Rescheduled m.core m.before m.after) Q mayFail

theorem Inv.rescheduled (hs : s.Inv) (hs' : s'.Consistent)
    (hmoved : Rescheduled c s.toAssignment s'.toAssignment) (hframe : Frame s s')
    (hrunnable : s'.threadsRunnable=s.threadsRunnable) : s'.Inv := by
  have hcreated : ∀t,s'.Runnable t → t<s'.numThreads := fun t ht => by
    rw [Runnable,hrunnable] at ht
    rw [hframe.numThreads]
    exact hs.runnable t ht
  refine ⟨hs',?_,fun t d hcore => ?_,hcreated⟩
  · rw [hframe.numThreads,hframe.infoLength]
    exact hs.created
  · have hafter := (hs' d t).mpr hcore
    by_cases hbefore : s.coreThreadRunning d=some t
    · rw [hframe.numThreads]
      exact hs.running t d ((hs.consistent d t).mp hbefore)
    · exact hcreated t (hmoved.placed t d hafter hbefore).1

theorem Inv.withQuantum (hs : s.Inv) (quantumLeft : Fin n → SubsecondTime) : Inv {s with quantumLeft} :=
  ⟨hs.consistent,hs.created,hs.running,hs.runnable⟩

theorem Inv.reschedule (hs : s.Inv) (time : SubsecondTime) (c : Fin n) :
    Reschedules (s.reschedule time c) (fun s' => s'.Inv ∧ Frame s s') (¬ s.Fits) := by
  rw [PinnedScheduler.reschedule]
  split_ifs with hinit
  · -- the core is not idle
    have hidle : Rescheduled c s.toAssignment s.toAssignment :=
      ⟨fun t d h hne => absurd h hne,fun hnone => by simp [hnone] at hinit⟩
    exact .note_bind hidle (meets_pure ⟨hs,.refl s⟩)
  refine .quiet_bind (s.pick_yields time c) fun (new,best) _ ⟨_,hnew,hnone⟩ => ?_
  dsimp only at hnew hnone
  have hempty : new=none → ∀t,¬ s.Candidate c t := fun h t ht => by
    cases (hnone h).2 t ht
  by_cases hcur : s.coreThreadRunning c=new
  · have hsame : Moved c new s.toAssignment s.toAssignment :=
      ⟨by rw [← hcur,update_eq_self],fun u => ?_,fun u d => Iff.rfl,rfl⟩
    · simp only [ne_eq,hcur,not_true_eq_false,if_false,pure_bind_eq]
      exact .note_bind (hsame.rescheduled hs.consistent hnew hempty)
        (meets_pure ⟨hs.withQuantum _,⟨rfl,rfl,rfl⟩⟩)
    · rw [hcur]
      by_cases hu : new=some u
      · rw [if_pos hu]
        exact (hs.consistent c u).mp (hcur.trans hu)
      · rw [if_neg hu,if_neg hu]
  · obtain ⟨s1,s',hok,hok',hframe,hmoved⟩:=unschedule_place_ok hs.consistent time hnew hcur
    simp only [ne_eq,hcur,not_false_eq_true,if_true,hok,hok',quiet_ok_bind]
    have hresched := hmoved.rescheduled hs.consistent hnew hempty
    refine .note_bind hresched (meets_pure ⟨Inv.withQuantum ?_ _,
      ⟨hframe.infoLength,hframe.runnableLength,hframe.numThreads⟩⟩)
    exact hs.rescheduled (hmoved.consistent hs.consistent hnew) hresched hframe hmoved.runnable

end PinnedScheduler

end Sniper.Scheduling
