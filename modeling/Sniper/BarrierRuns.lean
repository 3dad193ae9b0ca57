import Sniper.BarrierSafety

/-!
# The quantum barrier over whole runs

Every call and hook keeps the times and the threads in the barrier in order, as long as the times
stay clear of the end of the 64 bits and a thread that waits to be released keeps its core.
-/

namespace Sniper.Barrier
open FallibleRuns NotedRuns NotedRuns.Noted Function List

namespace BarrierServer

variable {n : ℕ} {θ : Type} {l : Ledger n θ} {s s' : BarrierServer n θ} {c : Fin n}
  {w : Waiting θ} {caller : Option (Fin n × Waiting θ)}

theorem checkCores_spec {cores : List (Fin n)} {reached : Bool} (h : s.checkCores cores reached=true) :
    (∀c∈cores,s.groups.group c=none → s.isCoreRunning c=true → s.nextBarrierTime ≤ s.localClock c) ∧
    (reached=true ∨ ∃c∈cores,s.groups.group c=none ∧ s.isCoreRunning c=true) := by
  induction cores generalizing reached with
  | nil => exact ⟨fun c hc => absurd hc not_mem_nil,Or.inl h⟩
  | cons d cores ih =>
    rw [checkCores] at h
    split_ifs at h with hgroup hrun hclock
    · obtain ⟨hall,hsome⟩:=ih h
      refine ⟨fun c hc hmaster hcore => ?_,?_⟩
      · rcases mem_cons.mp hc with rfl | hc
        · simp [hmaster] at hgroup
        · exact hall c hc hmaster hcore
      · exact hsome.imp_right fun ⟨c,hc,h⟩ => ⟨c,mem_cons_of_mem d hc,h⟩
    · obtain ⟨hall,-⟩:=ih h
      refine ⟨fun c hc hmaster hcore => ?_,Or.inr ⟨d,mem_cons_self,by simpa using hgroup,hrun⟩⟩
      rcases mem_cons.mp hc with rfl | hc
      · bv_omega
      · exact hall c hc hmaster hcore
    · obtain ⟨hall,hsome⟩:=ih h
      refine ⟨fun c hc hmaster hcore => ?_,?_⟩
      · rcases mem_cons.mp hc with rfl | hc
        · exact absurd hcore hrun
        · exact hall c hc hmaster hcore
      · exact hsome.imp_right fun ⟨c,hc,h⟩ => ⟨c,mem_cons_of_mem d hc,h⟩

theorem isBarrierReached_spec (h : s.isBarrierReached=true) :
    (∀c,s.groups.group c=none → s.isCoreRunning c=true → s.nextBarrierTime ≤ s.localClock c) ∧
    ∃c,s.groups.group c=none ∧ s.isCoreRunning c=true := by
  obtain ⟨hall,hsome⟩:=checkCores_spec h
  obtain ⟨c,-,hc⟩:=hsome.resolve_left Bool.false_ne_true
  exact ⟨fun c => hall c (mem_finRange c),c,hc⟩

/-- Each core whose thread waits to be released is running. -/
def Restartable (s : BarrierServer n θ) : Prop := ∀c∈s.toRelease,s.isCoreRunning c=true

theorem Base.toRelease_nil (hs : Base caller l s) (hreached : s.isBarrierReached=true)
    (hrestart : s.Restartable) : s.toRelease=[] := by
  refine eq_nil_iff_forall_not_mem.mpr fun c hc => ?_
  obtain ⟨hacq,hmaster,-⟩:=hs.toRelease c hc
  have hle := (isBarrierReached_spec hreached).1 c hmaster (hrestart c hc)
  rw [hs.acquired_of_le hle] at hacq
  cases hacq

theorem Base.good_release (hs : Base caller l s) (hglobal : s.globalTime<s.nextBarrierTime)
    (hreached : s.isBarrierReached=true) : l.Good (.releases s.nextBarrierTime fun c =>
      (s.groups.group c).isNone && s.isCoreRunning c) := by
  intro c hc
  rw [Bool.and_eq_true,Option.isNone_iff_eq_none] at hc
  have hle := (isBarrierReached_spec hreached).1 c hc.1 hc.2
  obtain ⟨w,-,hw⟩:=hs.acquired c (hs.acquired_of_le hle)
  rw [hw.reported]
  rcases hw.clock with hclock | ⟨hclock,-⟩
  · exact hclock ▸ hle
  · rw [hclock] at hle
    bv_omega

theorem Base.wait (hs : Base (some (c,w)) l s) : Base none l (s.wait c w) := by
  have hsame : ∀u,(s.wait c w).inside none u=s.inside (some (c,w)) u := fun u => by
    by_cases hu : u=c
    · simp [inside,callerAt,BarrierServer.wait,hu]
    · simp [inside,callerAt,BarrierServer.wait,hu,Ne.symm hu]
  refine ⟨hs.positive,hs.passed,fun u hu => ?_,fun u hu => ?_,fun u hu hnot => ?_,hs.nodup,
    fun m v hm => absurd hm (by simp)⟩
  · rw [hsame u]
    exact (hs.acquired u hu).imp fun _ h => ⟨h.1,h.2.of_eq rfl rfl rfl rfl⟩
  · rw [hsame u]
    exact hs.toRelease u hu
  · rw [hsame u]
    exact hs.gone u hu hnot

/-- The threads in the barrier are in order, and so are the two times. -/
structure Inv (l : Ledger n θ) (s : BarrierServer n θ) : Prop where
  base : Base none l s
  global : s.globalTime<s.nextBarrierTime

theorem inv_new (groups : SmtGroups n) (numHostCores : ℕ) {quantum : BitVec 64}
    (hquantum : interval quantum≠0) (coreState : Fin n → CoreState θ) (threadRunning : θ → Bool) :
    Inv ⟨fun _ => 0,fun _ => false⟩ (new groups numHostCores quantum coreState threadRunning) := by
  have hpos : 0 < interval quantum := by bv_omega
  constructor
  · constructor
    case positive => exact hpos
    case passed => exact fun _ _ => hpos
    all_goals simp [new,inside,callerAt]
  · exact hpos

/-- No thread in the barrier is this one. -/
def NotIn (s : BarrierServer n θ) (t : θ) : Prop := ∀c,∀w∈s.waiting c,w.thread≠t

theorem Base.enter (hs : Base none l s) (hacq : s.acquired c=false) (hrelease : c∉s.toRelease)
    (hmaster : s.groups.group c=none) (hout : s.NotIn w.thread) (hreported : l.reported c=w.time)
    (hbound : w.time.toNat+s.barrierInterval.toNat<2^64) : Base (some (c,w)) l (s.enter c w) := by
  have hempty : s.waiting c=[] := by
    have hgone := hs.gone c hacq hrelease
    rwa [inside,callerAt,append_nil] at hgone
  have hother : ∀u,u≠c → (s.enter c w).inside (some (c,w)) u=s.inside none u := fun u hu => by
    rw [inside,inside,callerAt,callerAt,if_neg (Ne.symm hu)]
    rfl
  refine ⟨hs.positive,fun u hu => ?_,fun u hu => ?_,fun u hu => ?_,fun u hu hnot => ?_,hs.nodup,
    fun m v hm => ?_⟩
  · by_cases huc : u=c
    · simp [BarrierServer.enter,huc] at hu
    · simp only [BarrierServer.enter,update_of_ne huc] at hu ⊢
      exact hs.passed u hu
  · by_cases huc : u=c
    · rw [huc]
      refine ⟨w,?_,hmaster,?_,hreported,hbound,Or.inl ?_⟩
      · rw [inside,callerAt,if_pos rfl]
        exact congrArg (· ++ [w]) hempty
      · simp [BarrierServer.enter]
      · simp [BarrierServer.enter]
    · simp only [BarrierServer.enter,update_of_ne huc] at hu
      obtain ⟨v,hv,hreached⟩:=hs.acquired u hu
      exact ⟨v,(hother u huc).trans hv,hreached.of_eq rfl (update_of_ne huc ..) rfl (update_of_ne huc ..)⟩
  · have huc : u≠c := fun heq => hrelease (heq ▸ hu)
    obtain ⟨hu1,hu2,v,hv,hleave⟩:=hs.toRelease u hu
    refine ⟨?_,hu2,v,(hother u huc).trans hv,hleave⟩
    simp only [BarrierServer.enter,update_of_ne huc]
    exact hu1
  · have huc : u≠c := fun heq => by simp [BarrierServer.enter,heq] at hu
    rw [hother u huc]
    simp only [BarrierServer.enter,update_of_ne huc] at hu
    exact hs.gone u hu hnot
  · cases hm
    exact ⟨by simp [BarrierServer.enter],hout⟩

variable [DecidableEq θ]

theorem Base.barrierRelease (hs : Base caller l s) (hglobal : s.globalTime<s.nextBarrierTime)
    (hreached : s.isBarrierReached=true) (hrestart : s.Restartable) (input : ReleaseInput n θ) :
    Keeps l (s.barrierRelease (caller.map (·.2.thread)) input) fun l' x =>
      Stopped caller l' x.1 x.2 ∧ Later s x.2 := by
  rw [BarrierServer.barrierRelease,if_neg (by simp [hs.toRelease_nil hreached hrestart])]
  obtain ⟨hall,c,hmaster,hrun⟩:=isBarrierReached_spec hreached
  have hle := hall c hmaster hrun
  refine .note_bind (hs.good_release hglobal hreached) ?_
  refine (hs.advanceUntil hglobal ⟨c,hs.acquired_of_le hle,hle⟩ input.periods).bind
    fun l₁ ⟨mustWait,s₁⟩ _ ⟨hstopped,hlater⟩ => ?_
  refine ((hstopped.base.shuffle (input.perm s₁.toRelease)).doRelease s₁.numHostCores).bind
    fun l₂ s₂ _ ⟨hl,hs₂,hsignals⟩ => tracks_pure ?_
  obtain ⟨r,wt,rfl,-,-⟩ := hsignals
  exact ⟨⟨hl ▸ hs₂,hstopped.global,hl ▸ hstopped.leaves⟩,hlater⟩

theorem Base.arrives (hs : Base none l s) (hacq : s.acquired c=false) (hout : s.NotIn w.thread) :
    Base none (l.note (.arrives c w)) s := by
  have hsame : ∀u v,s.inside none u=[v] → update l.disturbed w.thread false v.thread =
      l.disturbed v.thread := fun u v hv => by
    rw [inside,callerAt,append_nil] at hv
    exact update_of_ne (hout u v (hv ▸ mem_singleton_self v)) _ _
  refine ⟨hs.positive,hs.passed,fun u hu => ?_,fun u hu => ?_,hs.gone,hs.nodup,hs.caller⟩
  · have hne : u≠c := fun heq => Bool.false_ne_true (hacq.symm.trans (heq ▸ hu))
    obtain ⟨v,hv,hreached⟩:=hs.acquired u hu
    refine ⟨v,hv,hreached.master,hreached.thread,?_,hreached.bounded,?_⟩
    · exact (update_of_ne hne ..).trans hreached.reported
    · dsimp only [Ledger.note]
      rw [hsame u v hv]
      exact hreached.clock
  · obtain ⟨hacq,hmaster,v,hv,hleave⟩:=hs.toRelease u hu
    refine ⟨hacq,hmaster,v,hv,?_⟩
    dsimp only [MayLeave,Ledger.note]
    rw [hsame u v hv]
    exact hleave

theorem masterOf_group (g : SmtGroups n) (c : Fin n) : g.group (g.masterOf c)=none := by
  rw [SmtGroups.masterOf]
  cases h : g.group c with
  | none => exact h
  | some m => exact g.master c m h

theorem Inv.arrive (hs : Inv l s) (hrestart : s.Restartable) (hrelease : c∉s.toRelease)
    (hmaster : s.groups.group c=none) (hout : s.NotIn w.thread)
    (hbound : s.nextBarrierTime≤w.time → w.time.toNat+s.barrierInterval.toNat<2^64)
    (input : ReleaseInput n θ) :
    Keeps l (s.arrive c w input) fun l' s' => Inv l' s' ∧ Later s s' := by
  rw [BarrierServer.arrive]
  split_ifs with hacq htime
  · exact tracks_error (by decide)
  · have hbase := hs.base.arrives (Bool.eq_false_iff.mpr hacq) hout
    exact .note_bind trivial (.note_bind (fun _ => htime) (tracks_pure ⟨⟨hbase,hs.global⟩,.refl s⟩))
  have hfree := Bool.eq_false_iff.mpr hacq
  have hbase := hs.base.arrives hfree hout
  refine .note_bind trivial ?_
  refine (hbase.doRelease 1).bind ?_
  rintro l₁ s₁ - ⟨rfl,hs₁,r,wt,rfl,hr,hw⟩
  have hentered := hs₁.enter hfree (fun hin => hrelease (hr c hin)) hmaster
    (fun u v hv => hout u v (hw u v hv)) (update_self ..) (hbound (by bv_omega))
  dsimp only
  split_ifs with hreached
  · refine (hentered.barrierRelease hs.global hreached (fun u hu => hrestart u (hr u hu)) input).bind ?_
    rintro l₂ ⟨mustWait,s₂⟩ - ⟨hstopped,hlater⟩
    cases mustWait with
    | true => exact tracks_pure ⟨⟨hstopped.base.wait,hstopped.global⟩,hlater⟩
    | false =>
      exact .note_bind (hstopped.leaves rfl c w rfl).good
        (tracks_pure ⟨⟨hstopped.base,hstopped.global⟩,hlater⟩)
  · exact tracks_pure ⟨⟨hentered.wait,hs.global⟩,.refl s⟩

theorem Inv.signal (hs : Inv l s) (hrestart : s.Restartable) (input : ReleaseInput n θ) :
    Keeps l (s.signal input) fun l' s' => Inv l' s' ∧ Later s s' := by
  rw [BarrierServer.signal]
  split_ifs with hreached
  · refine (hs.base.barrierRelease hs.global hreached hrestart input).bind ?_
    rintro l' ⟨mustWait,s'⟩ - ⟨hstopped,hlater⟩
    exact tracks_pure ⟨⟨by simpa using hstopped.base,hstopped.global⟩,hlater⟩
  · exact tracks_pure ⟨hs,.refl s⟩

theorem Inv.releaseThread (hs : Inv l s) (t : θ) : Keeps l (s.releaseThread t) fun l' s' =>
    Inv l' s' ∧ Later s s' ∧ (s.Restartable → s'.Restartable) := by
  refine (hs.base.releaseThread t).mono fun l' s' ⟨hs',h⟩ => ?_
  obtain ⟨lc,r,wt,rfl,hr⟩ := h
  exact ⟨⟨hs',hs.global⟩,.refl s,fun hrestart u hu => hrestart u (hr u hu)⟩

section

variable (s)

/-- A thread that waits to be released keeps its core: the core runs, and no other thread arrives
for it. The times of the threads that arrive stay an interval clear of the end of the 64 bits. -/
def Orderly : BarrierStep n θ → Prop
  | .synchronize core time _ => s.Restartable ∧ s.groups.masterOf core∉s.toRelease ∧
      (s.nextBarrierTime≤time → time.toNat+s.barrierInterval.toNat<2^64)
  | .threadExit _ _ | .threadStall _ _ => s.Restartable
  | _ => True

instance : Decidable s.Restartable := inferInstanceAs (Decidable (∀c∈s.toRelease,s.isCoreRunning c=true))

instance : (i : BarrierStep n θ) → Decidable (s.Orderly i)
  | .synchronize core time _ => inferInstanceAs (Decidable (s.Restartable ∧
      s.groups.masterOf core∉s.toRelease ∧
      (s.nextBarrierTime≤time → time.toNat+s.barrierInterval.toNat<2^64)))
  | .threadExit _ _ | .threadStall _ _ => inferInstanceAs (Decidable s.Restartable)
  | .threadMigrate _ | .outside _ _ => inferInstanceAs (Decidable True)

end

theorem Inv.synchronize (hs : Inv l s) {core : Fin n} {time : SubsecondTime} {input : ReleaseInput n θ}
    (hi : s.Orderly (.synchronize core time input)) :
    Keeps l (s.synchronize core time input) fun l' s' => Inv l' s' ∧ Later s s' := by
  have harrive : ∀t,Keeps l (if ∃c,∃w∈s.waiting c,w.thread=t then pure s
      else s.arrive (s.groups.masterOf core) ⟨t,time⟩ input) fun l' s' => Inv l' s' ∧ Later s s' := by
    intro t
    split_ifs with hin
    · exact tracks_pure ⟨hs,.refl s⟩
    · exact hs.arrive hi.1 hi.2.1 (masterOf_group _ core) (fun c w hw ht => hin ⟨c,w,hw,ht⟩) hi.2.2 input
  rw [BarrierServer.synchronize]
  cases s.coreState core with
  | running t => exact harrive t
  | initializing t => exact harrive t
  | other => exact tracks_error (by decide)

theorem Inv.stepNoted (hs : Inv l s) {i : BarrierStep n θ} (hi : s.Orderly i) :
    Keeps l (s.stepNoted i) fun l' s' => Inv l' s' ∧ Later s s' := by
  cases i with
  | synchronize core time input => exact hs.synchronize hi
  | threadExit t input | threadStall t input =>
    exact (hs.releaseThread t).bind fun l' s' _ ⟨hs',hlater,hkept⟩ =>
      (hs'.signal (hkept hi) input).mono fun _ _ h => ⟨h.1,hlater.trans h.2⟩
  | threadMigrate t => exact (hs.releaseThread t).mono fun _ _ h => ⟨h.1,h.2.1⟩
  | outside coreState threadRunning =>
    exact tracks_pure ⟨⟨⟨hs.base.positive,hs.base.passed,
      fun c hc => (hs.base.acquired c hc).imp fun _ h => ⟨h.1,h.2.of_eq rfl rfl rfl rfl⟩,
      hs.base.toRelease,hs.base.gone,hs.base.nodup,hs.base.caller⟩,hs.global⟩,.refl s⟩

/-- The times never decrease, every release waits for the running masters, every thread that is not
disturbed leaves after its time, and no release finds a thread that has not restarted. -/
theorem run_barrier {groups : SmtGroups n} {numHostCores : ℕ} {quantum : BitVec 64}
    {coreState : Fin n → CoreState θ} {threadRunning : θ → Bool} (hquantum : interval quantum≠0)
    {steps : List (BarrierStep n θ)}
    (horder : Along step Orderly (new groups numHostCores quantum coreState threadRunning) steps) :
    Sound Ledger.note Ledger.Good ⟨fun _ => 0,fun _ => false⟩
      (runNoted stepNoted (new groups numHostCores quantum coreState threadRunning) steps).notes ∧
    (∀s,run step (new groups numHostCores quantum coreState threadRunning) steps = .ok s →
      s.globalTime<s.nextBarrierTime) ∧ (∀first rest s s',steps=first++rest →
      run step (new groups numHostCores quantum coreState threadRunning) first = .ok s →
      run step s rest = .ok s' → Later s s') ∧
    run step (new groups numHostCores quantum coreState threadRunning) steps ≠ .error .notRestarted := by
  have hresult : ∀ (s : BarrierServer n θ) i,(s.stepNoted i).result=s.step i := fun _ _ => rfl
  have hinv := inv_new groups numHostCores hquantum coreState threadRunning
  have hstep : ∀ (s : BarrierServer n θ) i s',(∃l,Inv l s) → s.Orderly i → s.step i = .ok s' →
      (∃l,Inv l s') ∧ Later s s' := fun _ _ s' ⟨_,hs⟩ hi hok =>
    ((hs.stepNoted hi).ok s' hok).imp_left fun h => ⟨_,h⟩
  have hrun : Keeps _ (runNoted stepNoted _ steps) Inv := runNoted_tracks (J:=Inv) (G:=Orderly) hresult
    (fun _ _ _ hs hi => (Inv.stepNoted hs hi).mono fun _ _ h => h.1) hinv horder
  refine ⟨hrun.sound,fun s hs => ?_,fun first rest s s' hsplit hfirst hrest => ?_,fun herror => ?_⟩
  · rw [← runNoted_result hresult] at hs
    exact (hrun.ok s hs).global
  · subst hsplit
    have hs := run_invariant (fun s i s' hs hi hok => (hstep s i s' hs hi hok).1) ⟨_,hinv⟩ horder.left hfirst
    exact run_relates Later.refl (fun _ _ _ h h' => h.trans h') hstep hs (horder.right hfirst) hrest
  · rw [← runNoted_result hresult] at herror
    exact hrun.error _ herror rfl

def migrating (periods : List (List ℕ)) : ReleaseInput 4 ℕ := ⟨periods,id,fun _ => .refl _⟩

/-- Four cores on one host core, each with its own thread. -/
def fourCores (quantum : BitVec 64) : BarrierServer 4 ℕ :=
  new ⟨fun _ => none,fun _ _ h => by cases h⟩ 1 quantum (fun c => .running c) fun _ => true

/-- The threads arrive one after the other; the last one is the caller of a release. -/
def arrivals (cores : List (Fin 4)) (nanoseconds : BitVec 64) (migrated : List ℕ) : List (BarrierStep 4 ℕ) :=
  cores.map fun c => .synchronize c (SubsecondTime.ns nanoseconds) (migrating [migrated])

def twoRounds : List (BarrierStep 4 ℕ) :=
  arrivals [0,1,2,3] 100 []++arrivals [3,2,1,0] 200 [2]++[.threadStall 0 (migrating [])]

theorem run_barrier_four : ∃s,run step (fourCores 100) twoRounds = .ok s ∧ s.globalTime<s.nextBarrierTime ∧
    (runNoted stepNoted (fourCores 100) twoRounds).notes.length=19 ∧
    Sound Ledger.note Ledger.Good ⟨fun _ => 0,fun _ => false⟩
      (runNoted stepNoted (fourCores 100) twoRounds).notes := by
  obtain ⟨hsound,hglobal,-⟩ := run_barrier (show interval 100≠0 by decide)
    (show Along step Orderly (fourCores 100) twoRounds by decide +kernel)
  exact ⟨_,rfl,hglobal _ rfl,by decide +kernel,hsound⟩

/-- Three of the four threads are migrated in the first release, and their cores become idle. The
fourth arrives again while two of them still wait to be released. -/
theorem release_before_restart : (∃s,run step (fourCores 100) (arrivals [0,1,2,3] 100 [0,1,2] ++
      [.outside (fun c => if c=3 then .running 3 else .other) fun _ => true]) = .ok s ∧
    s.toRelease.length=2 ∧
    s.step (.synchronize 3 (SubsecondTime.ns 200) (migrating [[]])) = .error .notRestarted) ∧
    ∃s s',run step (fourCores 10000000000000) (arrivals [0,1,2] 10000000000000 []) = .ok s ∧
      s.step (.synchronize 3 (SubsecondTime.ns 10000000000000) (migrating [[0]])) = .ok s' ∧
      s'.nextBarrierTime<s.nextBarrierTime :=
  ⟨⟨_,rfl,by decide +kernel,by decide +kernel⟩,_,_,rfl,rfl,by decide +kernel⟩

end BarrierServer

end Sniper.Barrier
