import Sniper.PinnedAssignments

/-! # The pinned scheduler over whole runs -/

namespace Sniper.Scheduling
open FallibleRuns NotedRuns NotedRuns.Noted List

variable {n : ℕ}

namespace PinnedScheduler

open Assignment

variable {s s' : PinnedScheduler n} {t : ℕ}

/-- The thread has an element in the vector of threads, and the vectors fit. -/
def Ready (s : PinnedScheduler n) (t : ℕ) : Prop := t<s.threadInfo.length ∧ s.Fits

theorem Frame.ready (h : Frame s s') (hs : s.Ready t) : s'.Ready t := ⟨h.infoLength ▸ hs.1,h.fits hs.2⟩

theorem Inv.rescheduleFree (hs : s.Inv) (t : ℕ) (time : SubsecondTime) :
    Reschedules (s.rescheduleFree t time) (fun s' => s'.Inv ∧ Frame s s') (¬ s.Ready t) := by
  rw [PinnedScheduler.rescheduleFree,findFreeCoreForThread]
  refine .quiet_bind (Q:=fun _ => True) (((s.getInfo_yields t).weaken fun hout hready =>
    hout hready.1).bind fun info _ => yields_ok trivial _) fun free _ _ => ?_
  cases free with
  | none => exact meets_pure ⟨hs,.refl s⟩
  | some c => exact (hs.reschedule time c).weaken fun hfits hready => hfits hready.2

theorem Inv.rescheduleRunning (hs : s.Inv) (t : ℕ) (time : SubsecondTime) :
    Reschedules (s.rescheduleRunning t time) (fun s' => s'.Inv ∧ Frame s s') (¬ s.Ready t) := by
  rw [PinnedScheduler.rescheduleRunning]
  refine .quiet_bind ((s.getInfo_yields t).weaken fun hout hready => hout hready.1)
    fun info _ _ => ?_
  cases info.coreRunning with
  | none => exact meets_pure ⟨hs,.refl s⟩
  | some c => exact (hs.reschedule time c).weaken fun hfits hready => hfits hready.2

theorem Inv.setRunnable (hs : s.Inv) (ht : t<s.numThreads) (runnable : Bool) :
    Yields (s.setRunnable t runnable) (fun s' => s'.Inv ∧ Frame s s') (¬ t<s.threadsRunnable.length) := by
  rw [PinnedScheduler.setRunnable]
  split_ifs with hlt
  · refine yields_ok ⟨⟨hs.consistent,hs.created,hs.running,fun u hu => ?_⟩,⟨rfl,length_set,rfl⟩⟩ _
    by_cases hut : u=t
    · rw [hut]
      exact ht
    · refine hs.runnable u ?_
      rwa [Runnable,List.getElem?_set_ne (Ne.symm hut)] at hu
  · exact Or.inr ⟨hlt,_,rfl⟩

/-- Every thread is on the core on which it was. -/
structure SameCores (s s' : PinnedScheduler n) : Prop where
  running : s'.coreThreadRunning=s.coreThreadRunning
  cores : ∀u,s'.coreOf u=s.coreOf u
  runnable : s'.threadsRunnable=s.threadsRunnable
  numThreads : s.numThreads ≤ s'.numThreads
  created : s'.numThreads ≤ s'.threadInfo.length

theorem SameCores.inv (h : SameCores s s') (hs : s.Inv) : s'.Inv where
  consistent c t := by
    rw [h.running,h.cores]
    exact hs.consistent c t
  created := h.created
  running t c hcore := by
    rw [h.cores] at hcore
    exact (hs.running t c hcore).trans_le h.numThreads
  runnable t ht := by
    rw [Runnable,h.runnable] at ht
    exact (hs.runnable t ht).trans_le h.numThreads

theorem SameCores.trans {s'' : PinnedScheduler n} (h : SameCores s s') (h' : SameCores s' s'') :
    SameCores s s'' :=
  ⟨h'.running.trans h.running,fun u => (h'.cores u).trans (h.cores u),h'.runnable.trans h.runnable,
    h.numThreads.trans h'.numThreads,h'.created⟩

theorem modifyInfo_yields (hs : s.numThreads ≤ s.threadInfo.length) {f : ThreadInfo n → ThreadInfo n}
    (hf : ∀info,(f info).coreRunning=info.coreRunning) (t : ℕ) :
    Yields (s.modifyInfo t f) (fun s' => SameCores s s' ∧ Frame s s') (¬ t<s.threadInfo.length) := by
  rw [modifyInfo]
  refine (s.getInfo_yields t).bind fun info hinfo => yields_ok ⟨⟨rfl,fun u => ?_,rfl,le_rfl,
    hs.trans length_set.ge⟩,⟨length_set,rfl,rfl⟩⟩ _
  rw [coreOf,getElem?_set_info hinfo]
  by_cases hu : u=t
  · rw [if_pos hu,Option.bind_some,hf,hu,coreOf_eq (a:=s.toAssignment) hinfo]
  · rw [if_neg hu]
    rfl

theorem resizeInfo_sameCores (hs : s.numThreads ≤ s.threadInfo.length) (size : ℕ) :
    SameCores s (s.resizeInfo size) := by
  refine ⟨rfl,fun u => ?_,rfl,le_rfl,hs.trans (by simp [resizeInfo])⟩
  simp only [coreOf,resizeInfo]
  by_cases hu : u<s.threadInfo.length
  · rw [List.getElem?_append_left hu]
  · rw [List.getElem?_append_right (Nat.not_lt.mp hu),List.getElem?_replicate,
      List.getElem?_eq_none (Nat.not_lt.mp hu)]
    split_ifs
    · rfl
    · rfl

theorem length_resizeInfo (s : PinnedScheduler n) (size : ℕ) :
    (s.resizeInfo size).threadInfo.length=max s.threadInfo.length size := by
  simp [resizeInfo]
  omega

theorem Inv.threadYield (hs : s.Inv) (t : ℕ) (time : SubsecondTime) :
    Reschedules (s.threadYield t time) (fun s' => s'.Inv ∧ Frame s s') (¬ s.Ready t) := by
  rw [PinnedScheduler.threadYield]
  refine .quiet_bind ((s.getInfo_yields t).weaken fun hout hready => hout hready.1)
    fun info _ _ => ?_
  cases info.coreRunning with
  | none => exact meets_pure ⟨hs,.refl s⟩
  | some c =>
    refine (((hs.withQuantum (Function.update s.quantumLeft c 0)).reschedule time c).weaken fun hfits hready =>
      hfits hready.2).bind fun s1 _ ⟨hs1,hframe⟩ => ?_
    have hframe' : Frame s s1 := ⟨hframe.infoLength,hframe.runnableLength,hframe.numThreads⟩
    refine .quiet_bind ((s1.getInfo_yields t).weaken fun hout hready =>
      hout (hframe'.ready hready).1) fun info' _ _ => ?_
    split_ifs
    · exact meets_pure ⟨hs1,hframe'⟩
    · exact (hs1.rescheduleFree t time).mono (fun s2 h => ⟨h.1,hframe'.trans h.2⟩)
        fun hnot hready => hnot (hframe'.ready hready)

/-- The length of the vector of runnable threads in the start of a thread. -/
def grown (s : PinnedScheduler n) (t : ℕ) : ℕ :=
  if s.threadsRunnable.length≤t then s.threadsRunnable.length+16 else s.threadsRunnable.length

section

variable (hs : s.Inv)
include hs

theorem Inv.setInitializing (t : ℕ) (initializing : Bool) : (s.setInitializing t initializing).Inv :=
  ⟨hs.consistent,hs.created,hs.running,hs.runnable⟩

theorem Inv.growRunnable (k : ℕ) :
    Inv {s with threadsRunnable:=s.threadsRunnable++List.replicate k false} := by
  refine ⟨hs.consistent,hs.created,hs.running,fun u hu => hs.runnable u ?_⟩
  rw [Runnable] at hu ⊢
  by_cases hlt : u<s.threadsRunnable.length
  · rwa [List.getElem?_append_left hlt] at hu
  · rw [List.getElem?_append_right (Nat.not_lt.mp hlt),List.getElem?_replicate] at hu
    split_ifs at hu
    simp at hu

theorem Inv.makeRunnable (ht : t<s.numThreads) (time : SubsecondTime) :
    Reschedules (quiet (s.setRunnable t true) >>= fun s' => s'.rescheduleFree t time) Inv
      (¬ (t<s.threadsRunnable.length ∧ s.Fits)) := by
  refine .quiet_bind ((hs.setRunnable ht true).weaken fun hout hbound => hout hbound.1)
    fun s1 _ ⟨hs1,hframe⟩ => ?_
  exact (hs1.rescheduleFree t time).mono (fun _ h => h.1) fun hnot hbound =>
    hnot (hframe.ready ⟨ht.trans_le hs.created,hbound.2⟩)

theorem Inv.makeUnrunnable (ht : t<s.numThreads) (time : SubsecondTime) :
    Reschedules (quiet (s.setRunnable t false) >>= fun s' => s'.rescheduleRunning t time) Inv
      (¬ (t<s.threadsRunnable.length ∧ s.Fits)) := by
  refine .quiet_bind ((hs.setRunnable ht false).weaken fun hout hbound => hout hbound.1)
    fun s1 _ ⟨hs1,hframe⟩ => ?_
  exact (hs1.rescheduleRunning t time).mono (fun _ h => h.1) fun hnot hbound =>
    hnot (hframe.ready ⟨ht.trans_le hs.created,hbound.2⟩)

theorem Inv.threadStart (ht : t<s.numThreads) (time : SubsecondTime) :
    Reschedules (s.threadStart t time) Inv (¬ (t<s.grown t ∧ s.grown t ≤ s.threadInfo.length)) := by
  have hs1 := hs.setInitializing t false
  have hlength : (s.setInitializing t false).threadsRunnable.length=s.threadsRunnable.length := rfl
  rw [PinnedScheduler.threadStart,hlength,grown]
  by_cases hlen : s.threadsRunnable.length≤t
  · rw [if_pos hlen,if_pos hlen]
    refine ((hs1.growRunnable 16).makeRunnable ht time).weaken fun hnot hbound =>
      hnot ⟨?_,?_⟩
    · rw [length_append,length_replicate]
      exact hbound.1
    · rw [Fits,length_append,length_replicate]
      exact hbound.2
  · rw [if_neg hlen,if_neg hlen]
    exact hs1.makeRunnable ht time

theorem Inv.threadStall (ht : t<s.numThreads) (unscheduled : Bool) (time : SubsecondTime) :
    Reschedules (s.threadStall t unscheduled time) Inv
      (¬ (unscheduled=true ∨ t<s.threadsRunnable.length ∧ s.Fits)) := by
  cases unscheduled with
  | true => exact meets_pure (hs.setInitializing t false)
  | false =>
    exact ((hs.setInitializing t false).makeUnrunnable ht time).weaken fun hnot hbound =>
      hnot (hbound.resolve_left Bool.false_ne_true)

theorem Inv.periodic (time : SubsecondTime) : Reschedules (s.periodic time) Inv (¬ s.Fits) := by
  rw [PinnedScheduler.periodic]
  refine (meets_foldlM (Q:=fun s1 => s1.Inv ∧ Frame s s1) (fun s1 c ⟨hs1,hframe⟩ => ?_) ⟨hs,.refl s⟩ _).bind
    fun s1 _ ⟨hs1,_⟩ => meets_pure ⟨hs1.consistent,hs1.created,hs1.running,hs1.runnable⟩
  rw [tick]
  split_ifs
  · exact (hs1.reschedule time c).mono (fun s2 h => ⟨h.1,hframe.trans h.2⟩)
      fun hnot hfits => hnot (hframe.fits hfits)
  · exact meets_pure ⟨hs1.withQuantum _,⟨hframe.infoLength,hframe.runnableLength,hframe.numThreads⟩⟩

end

theorem coreRunning_foldl_addAffinity (cores : List (Fin n)) (info : ThreadInfo n) :
    (cores.foldl ThreadInfo.addAffinity info).coreRunning=info.coreRunning := by
  induction cores generalizing info with
  | nil => rfl
  | cons c cores ih => exact ih (info.addAffinity c)

/-- The mask names a core that does not exist. -/
def BadMask (n : ℕ) (mask : Option (List ℕ)) : Prop := ∃cpu∈mask.getD [],n ≤ cpu

instance (mask : Option (List ℕ)) : Decidable (BadMask n mask) :=
  inferInstanceAs (Decidable (∃cpu∈mask.getD [],n ≤ cpu))

/-- The step sets an affinity to a core that does not exist. -/
def SetsBadMask : PinnedStep n → Prop
  | .setAffinity _ _ mask _ => BadMask n mask
  | _ => False

theorem setMask_yields (hs : s.numThreads ≤ s.threadInfo.length) (ht : t<s.threadInfo.length)
    (mask : Option (List ℕ)) :
    Yields (s.setMask t mask) (fun s' => SameCores s s' ∧ Frame s s') (BadMask n mask) := by
  cases mask with
  | none =>
    exact (modifyInfo_yields hs (coreRunning_foldl_addAffinity _) t).weaken fun hout => absurd ht hout
  | some cpus =>
    refine ((modifyInfo_yields hs (f:=ThreadInfo.clearAffinity) (fun _ => rfl) t).weaken fun hout =>
      absurd ht hout).bind fun s1 h1 => ?_
    refine (yields_foldlM (Q:=fun s2 rest => (SameCores s s2 ∧ Frame s s2) ∧ ∀cpu∈rest,cpu∈cpus)
      (fun s2 cpu rest h2 => ?_) ⟨h1,fun cpu h => h⟩).mono (fun s2 h => h.1) fun h => h
    obtain ⟨⟨hsame,hframe⟩,hrest⟩:=h2
    split_ifs with hcpu
    · refine (modifyInfo_yields hsame.created (f:=fun info => info.addAffinity ⟨cpu,hcpu⟩)
        (fun _ => rfl) t).mono (fun s3 h3 => ?_) fun hout => absurd (hframe.infoLength ▸ ht) hout
      exact ⟨⟨hsame.trans h3.1,hframe.trans h3.2⟩,fun u hu => hrest u (mem_cons_of_mem cpu hu)⟩
    · exact Or.inr ⟨⟨cpu,hrest cpu mem_cons_self,Nat.not_lt.mp hcpu⟩,_,rfl⟩

theorem getRunnable_yields (s : PinnedScheduler n) (t : ℕ) :
    Yields (s.getRunnable t) (fun _ => True) (¬ t<s.threadsRunnable.length) := by
  rw [getRunnable]
  cases hrun : s.threadsRunnable[t]? with
  | none => exact Or.inr ⟨Nat.not_lt.mpr (List.getElem?_eq_none_iff.mp hrun),_,rfl⟩
  | some b => exact Or.inl ⟨b,rfl,trivial⟩

theorem Inv.threadSetAffinity (hs : s.Inv) (caller : Option ℕ) (t : ℕ) (mask : Option (List ℕ))
    (time : SubsecondTime) : Reschedules (s.threadSetAffinity caller t mask time) Inv
      (BadMask n mask ∨ ¬ (t<s.numThreads → t<s.threadsRunnable.length ∧ s.Fits)) := by
  rw [PinnedScheduler.threadSetAffinity]
  generalize hsize : (if s.threadInfo.length≤t then s.resizeInfo (t+16) else s)=s1
  have hs1 : SameCores s s1 ∧ t<s1.threadInfo.length ∧ (t<s.numThreads → Frame s s1) ∧
      s1.numThreads=s.numThreads := by
    rw [← hsize]
    split_ifs with hlen
    · refine ⟨resizeInfo_sameCores hs.created _,?_,fun ht => ?_,rfl⟩
      · rw [length_resizeInfo]
        omega
      · exact absurd (ht.trans_le hs.created) (Nat.not_lt.mpr hlen)
    · exact ⟨⟨rfl,fun _ => rfl,rfl,le_rfl,hs.created⟩,Nat.not_le.mp hlen,fun _ => .refl s,rfl⟩
  obtain ⟨hsame1,ht1,hframe1,hnum1⟩:=hs1
  refine .quiet_bind ((modifyInfo_yields hsame1.created (f:=fun info => {info with explicitAffinity:=true})
    (fun _ => rfl) t).weaken fun hout => absurd ht1 hout) fun s2 _ ⟨hsame2,hframe2⟩ => ?_
  refine .quiet_bind ((setMask_yields hsame2.created (hframe2.infoLength ▸ ht1) mask).weaken Or.inl)
    fun s3 _ ⟨hsame3,hframe3⟩ => ?_
  have hs3 : s3.Inv := ((hsame1.trans hsame2).trans hsame3).inv hs
  have hframe13 := hframe2.trans hframe3
  have hnum3 : s3.numThreads=s.numThreads := hframe13.numThreads.trans hnum1
  split_ifs with hcreated hcaller
  · exact meets_pure hs3
  all_goals
    rw [hnum3,Nat.not_le] at hcreated
    have hframe : Frame s s3 := (hframe1 hcreated).trans hframe13
    have hbound : (t<s.numThreads → t<s.threadsRunnable.length ∧ s.Fits) →
        t<s3.threadsRunnable.length ∧ s3.Ready t := fun h =>
      ⟨hframe.runnableLength ▸ (h hcreated).1,hframe.ready ⟨hcreated.trans_le hs.created,(h hcreated).2⟩⟩
  · exact (hs3.threadYield t time).mono (fun _ h => h.1) fun hnot => Or.inr fun h => hnot (hbound h).2
  · refine .quiet_bind ((s3.getInfo_yields t).weaken fun hout => Or.inr fun h =>
      hout (hbound h).2.1) fun info _ _ => ?_
    have hrunnable := (s3.getRunnable_yields t).weaken fun hout =>
      (Or.inr fun h => hout (hbound h).1 : BadMask n mask ∨ _)
    cases info.coreRunning with
    | some c =>
      dsimp only
      split_ifs
      · exact .quiet_bind hrunnable fun _ _ _ => meets_pure hs3
      · exact meets_pure (hs3.withQuantum _)
    | none =>
      refine .quiet_bind hrunnable fun runnable _ _ => ?_
      cases runnable with
      | false => exact meets_pure hs3
      | true =>
        exact (hs3.rescheduleFree t time).mono (fun _ h => h.1) fun hnot => Or.inr fun h =>
          hnot (hbound h).2

theorem Inv.assign (hs : s.Inv) (hcore : s.coreOf t=none) (ht : t<s.numThreads) {free : Option (Fin n)}
    (hfree : ∀c,free=some c → s.coreThreadRunning c=none)
    (hrunning : ∀d,s'.coreThreadRunning d=if free=some d then some t else s.coreThreadRunning d)
    (hcores : ∀u,s'.coreOf u=if u=t then free else s.coreOf u)
    (hrunnable : s'.threadsRunnable=s.threadsRunnable) (hframe : Frame s s') : s'.Inv := by
  refine ⟨fun d u => ?_,?_,fun u d hd => ?_,fun u hu => ?_⟩
  · rw [hrunning,hcores]
    by_cases hd : free=some d
    · rw [if_pos hd]
      by_cases hu : u=t
      · rw [if_pos hu,hu]
        exact iff_of_true rfl hd
      · rw [if_neg hu,← hs.consistent d u,hfree d hd]
        simp [Ne.symm hu]
    · rw [if_neg hd,hs.consistent d u]
      by_cases hu : u=t
      · rw [if_pos hu,hu,hcore]
        exact iff_of_false (by simp) hd
      · rw [if_neg hu]
  · rw [hframe.numThreads,hframe.infoLength]
    exact hs.created
  · rw [hframe.numThreads]
    by_cases hu : u=t
    · rw [hu]
      exact ht
    · rw [hcores,if_neg hu] at hd
      exact hs.running u d hd
  · rw [hframe.numThreads]
    rw [Runnable,hrunnable] at hu
    exact hs.runnable u hu

theorem Inv.addThread (hs : s.Inv) : SameCores s s.addThread := by
  have hcreated := hs.created
  rw [PinnedScheduler.addThread]
  split_ifs with hlen
  · obtain ⟨hrunning,hcores,hrunnable,hnum,-⟩:=
      resizeInfo_sameCores hs.created (s.threadInfo.length+16)
    refine ⟨hrunning,hcores,hrunnable,Nat.le_succ _,?_⟩
    rw [length_resizeInfo]
    simp only [PinnedScheduler.setInitializing,resizeInfo] at hlen ⊢
    omega
  · refine ⟨rfl,fun _ => rfl,rfl,Nat.le_succ _,?_⟩
    simp only [PinnedScheduler.setInitializing] at hlen ⊢
    omega

theorem numThreads_addThread (s : PinnedScheduler n) : s.addThread.numThreads=s.numThreads+1 := by
  rw [PinnedScheduler.addThread]
  split_ifs
  · rfl
  · rfl

theorem Inv.threadCreate (hs : s.Inv) (initial : List (Fin n)) :
    Yields (s.threadCreate initial) (fun x => x.2.Inv) False := by
  rw [PinnedScheduler.threadCreate]
  have hsame1 := hs.addThread
  have hnum1 : s.numThreads<s.addThread.numThreads := by
    rw [numThreads_addThread]
    exact Nat.lt_succ_self _
  have ht1 : s.numThreads<s.addThread.threadInfo.length := hnum1.trans_le hsame1.created
  refine ((modifyInfo_yields hsame1.created (fun info => ?_) s.numThreads).weaken fun hout =>
    hout ht1).bind fun s2 ⟨hsame2,hframe2⟩ => ?_
  · split_ifs
    · rfl
    · exact coreRunning_foldl_addAffinity _ _
  have hs2 : s2.Inv := (hsame1.trans hsame2).inv hs
  have ht2 : s.numThreads<s2.threadInfo.length := hframe2.infoLength ▸ ht1
  have hinfo : s2.threadInfo[s.numThreads]?=some s2.threadInfo[s.numThreads] := List.getElem?_eq_getElem ht2
  -- the thread is new, so that it is on no core
  have hcore : s2.coreOf s.numThreads=none := by
    rw [(hsame1.trans hsame2).cores,Option.eq_none_iff_forall_ne_some]
    exact fun c hc => Nat.lt_irrefl _ (hs.running _ c hc)
  rw [findFreeCoreForThread,bind_assoc,getInfo_ok hinfo,ok_bind,ok_bind]
  cases hfree : (List.finRange n).find? fun c => s2.threadInfo[s.numThreads].coreAffinity c &&
      (s2.coreThreadRunning c).isNone with
  | none =>
    obtain ⟨s3,hok,hedit⟩:=modifyInfo_edited hinfo
      (f:=fun info => {info with coreRunning:=none}) rfl
    rw [hok,ok_bind]
    refine Or.inl ⟨_,rfl,hs2.assign hcore (hframe2.numThreads ▸ hnum1) (fun c h => by cases h)
      (fun d => ?_) hedit.cores hedit.runnable hedit.toFrame⟩
    rw [hedit.running,if_neg (by simp)]
  | some c =>
    obtain ⟨s3,hok,hedit⟩:=modifyInfo_edited hinfo
      (f:=fun info => {info with coreRunning:=some c}) rfl
    rw [hok,ok_bind]
    refine Or.inl ⟨_,rfl,hs2.assign hcore (hframe2.numThreads ▸ hnum1) (fun d h => ?_) (fun d => ?_)
      hedit.cores hedit.runnable ⟨hedit.infoLength,hedit.runnableLength,hedit.numThreads⟩⟩
    · cases h
      have hidle := List.find?_some hfree
      rw [Bool.and_eq_true,Option.isNone_iff_eq_none] at hidle
      exact hidle.2
    · dsimp only
      rw [hedit.running]
      by_cases hd : c=d
      · rw [hd,if_pos rfl,Function.update_self]
      · rw [if_neg (by simpa using hd),Function.update_of_ne (Ne.symm hd)]

/-- The vectors have the elements that the step uses: a thread has an element in the vector of
runnable threads, which is not longer than that of the threads. -/
def InBounds (s : PinnedScheduler n) : PinnedStep n → Prop
  | .create _ => True
  | .start t _ => t<s.numThreads ∧ t<s.grown t ∧ s.grown t ≤ s.threadInfo.length
  | .stall t unscheduled _ =>
    t<s.numThreads ∧ (unscheduled=true ∨ t<s.threadsRunnable.length ∧ s.Fits)
  | .resume t _ | .exit t _ => t<s.numThreads ∧ t<s.threadsRunnable.length ∧ s.Fits
  | .yield t _ => t<s.numThreads ∧ s.Fits
  | .setAffinity _ t _ _ => t<s.numThreads → t<s.threadsRunnable.length ∧ s.Fits
  | .periodic _ => s.Fits

instance (s : PinnedScheduler n) (i : PinnedStep n) : Decidable (s.InBounds i) := by
  cases i <;> unfold InBounds <;> infer_instance

theorem inv_new (n : ℕ) (quantum : SubsecondTime) : (new n quantum).Inv where
  consistent c t := iff_of_false (fun h => by cases h) (fun h => by cases h)
  created := Nat.le_refl 0
  running _ _ h := by cases h
  runnable t h := by
    rw [Runnable,new,List.getElem?_replicate] at h
    split_ifs at h
    cases h

theorem Inv.stepNoted (hs : s.Inv) {i : PinnedStep n} (hi : s.InBounds i) :
    Reschedules (s.stepNoted i) Inv (SetsBadMask i) := by
  have hof : ∀ {t x bound},t<s.numThreads → bound → Reschedules x Inv (¬ bound) →
      Reschedules (s.ofThread t x) Inv False := fun ht hbound hx => by
    rw [ofThread,if_pos ht]
    exact hx.weaken fun hnot => hnot hbound
  cases i with
  | create initial => exact .quiet_bind (hs.threadCreate initial) fun x _ hx => meets_pure hx
  | start t time => exact hof hi.1 hi.2 (hs.threadStart hi.1 time)
  | stall t unscheduled time => exact hof hi.1 hi.2 (hs.threadStall hi.1 unscheduled time)
  | resume t time =>
    exact hof hi.1 hi.2 ((hs.setInitializing t false).makeRunnable hi.1 time)
  | exit t time =>
    exact hof hi.1 hi.2 ((hs.setInitializing t false).makeUnrunnable hi.1 time)
  | yield t time =>
    exact hof hi.1 ⟨hi.1.trans_le hs.created,hi.2⟩ ((hs.threadYield t time).mono (fun _ h => h.1) fun h => h)
  | setAffinity caller t mask time =>
    exact (hs.threadSetAffinity caller t mask time).mono
      (fun _ h => h) fun h => h.resolve_right fun hnot => hnot hi
  | periodic time => exact (hs.periodic time).weaken fun hnot => hnot hi

/-- The two maps agree, and every rescheduling has placed only threads that were runnable and
allowed there, and left its core idle only if there was none. -/
theorem run_scheduled {quantum : SubsecondTime} {steps : List (PinnedStep n)}
    (hbounds : Along step InBounds (new n quantum) steps) :
    (∀m∈(runNoted stepNoted (new n quantum) steps).notes,Rescheduled m.core m.before m.after) ∧
    (∀s,run step (new n quantum) steps = .ok s → s.Consistent) ∧
    ((∀i∈steps,¬ SetsBadMask i) → ∃s,run step (new n quantum) steps = .ok s) := by
  have hresult : ∀s i,(stepNoted (n:=n) s i).result=s.step i := fun _ _ => rfl
  have hinv := inv_new n quantum
  have hrun : Reschedules (runNoted stepNoted (new n quantum) steps) Inv True := runNoted_meets hresult
    (fun s i hs hi => (Inv.stepNoted hs hi).weaken fun _ => trivial) hinv hbounds
  refine ⟨hrun.notes,fun s hs => ?_,fun hmask => ?_⟩
  · rw [← runNoted_result hresult] at hs
    exact (hrun.result.of_ok hs).consistent
  · have hgood := hbounds.and (along_of_mem hmask (new n quantum))
    obtain ⟨s,hok,-⟩:=run_total (fun s i hs (hi : s.InBounds i ∧ ¬ SetsBadMask i) =>
      ((Inv.stepNoted hs hi.1).result.weaken hi.2).total) hinv hgood
    exact ⟨s,hok⟩

/-- Three threads share two cores, and the first one moves to the core of the others. -/
def sharedCores [NeZero n] : List (PinnedStep n) :=
  [.create [0],.create [1],.create [1],.start 0 0,.start 1 0,.start 2 0,.periodic 5000,
    .setAffinity (some 0) 0 (some [1]) 6000,.stall 2 false 7000,.periodic 9000]

theorem run_scheduled_shared : (runNoted stepNoted (new 2 1000) sharedCores).notes.length=6 ∧
    (∀m∈(runNoted stepNoted (new 2 1000) sharedCores).notes,Rescheduled m.core m.before m.after) ∧
    ∃s,run step (new 2 1000) sharedCores = .ok s ∧ s.Consistent := by
  have h : Along step InBounds (new 2 1000) sharedCores := by decide +kernel
  exact ⟨by decide +kernel,(run_scheduled h).1,_,rfl,(run_scheduled h).2.1 _ rfl⟩

/-- The last of 34 threads starts first. The vector of runnable threads grows from 16 to 32
elements, and its element 33 is written. -/
theorem early_start_out_of_bounds : ∃s,
    run step (new 1 0) (List.replicate 34 (.create [0])) = .ok s ∧ s.numThreads=34 ∧
      s.threadsRunnable.length=16 ∧ s.step (.start 33 0) = .error .outOfBounds :=
  ⟨_,rfl,by decide +kernel,by decide +kernel,by decide +kernel⟩

end PinnedScheduler

end Sniper.Scheduling
