import Sniper.FallibleRuns
import Sniper.MachineValues
import Sniper.SubsecondTimes

/-!
# The synchronisation server of `sync_server.cc`

A call of a thread runs under the lock of the thread manager, so calls are the steps. A stalled
thread stays inside its call and returns in a step of its own. The owner `NO_OWNER` is `none`.
-/

namespace Sniper.Synchronization
open FallibleRuns

structure SimMutex (θ : Type) where
  owner : Option θ
  waiting : List θ
  deriving DecidableEq

structure CondWaiter (θ μ : Type) where
  threadId : θ
  mutex : μ
  deriving DecidableEq

/-- The calls in which a thread can be stalled. -/
inductive BlockingCall (μ κ : Type) where
  | lock (mutex : μ)
  | wait (cond : κ) (mutex : μ)
  deriving DecidableEq

inductive ThreadStatus where
  | running
  | stalled
  deriving DecidableEq

structure Thread (μ κ : Type) where
  status : ThreadStatus
  /-- the call that the thread has not returned from since it was stalled -/
  call : Option (BlockingCall μ κ)
  wakeupTime : SubsecondTime
  deriving DecidableEq

namespace SimMutex

variable {θ : Type}

def new : SimMutex θ := ⟨none,[]⟩

variable (x : SimMutex θ)

def isLocked [DecidableEq θ] (t : θ) : Bool :=
  match x.owner with
  | none => false
  | some o => o≠t

/-- The part that `lock` and `lock_async` share: whether the thread gets the mutex at once. -/
def enter (t : θ) : Bool × SimMutex θ :=
  match x.owner with
  | none => (true,{x with owner:=some t})
  | some _ => (false,{x with waiting:=x.waiting++[t]})

def unlock [DecidableEq θ] (t : θ) : Except Abort (SimMutex θ) :=
  if x.owner=some t then
    match x.waiting with
    | [] => .ok {x with owner:=none}
    | w::rest => .ok ⟨some w,rest⟩
  else .error .assertion

end SimMutex

structure SyncServer (θ μ κ : Type) where
  rescheduleCost : SubsecondTime
  mutexes : μ → Option (SimMutex θ)
  conds : κ → Option (List (CondWaiter θ μ))
  threads : θ → Thread μ κ

/-- The calls of the threads, and the return of a thread that was stalled. -/
inductive SyncStep (θ μ κ : Type) where
  | mutexLock (t : θ) (m : μ) (tryLock : Bool) (time : SubsecondTime)
  | mutexUnlock (t : θ) (m : μ) (time : SubsecondTime)
  | condWait (t : θ) (c : κ) (m : μ) (time : SubsecondTime)
  | condSignal (t : θ) (c : κ) (time : SubsecondTime)
  | condBroadcast (t : θ) (c : κ) (time : SubsecondTime)
  | returns (t : θ)

namespace SyncServer

variable {θ μ κ : Type}

def new (rescheduleCost : SubsecondTime) : SyncServer θ μ κ :=
  ⟨rescheduleCost,fun _ => none,fun _ => none,fun _ => ⟨.running,none,0⟩⟩

section

variable [DecidableEq θ] [DecidableEq μ] [DecidableEq κ] (s : SyncServer θ μ κ)

def getMutex (m : μ) : SimMutex θ := (s.mutexes m).getD .new

def getCond (c : κ) : List (CondWaiter θ μ) := (s.conds c).getD []

def setMutex (m : μ) (x : SimMutex θ) : SyncServer θ μ κ :=
  {s with mutexes:=Function.update s.mutexes m (some x)}

def setCond (c : κ) (queue : List (CondWaiter θ μ)) : SyncServer θ μ κ :=
  {s with conds:=Function.update s.conds c (some queue)}

def setThread (t : θ) (x : Thread μ κ) : SyncServer θ μ κ := {s with threads:=Function.update s.threads t x}

def stallThread (t : θ) (call : BlockingCall μ κ) : SyncServer θ μ κ :=
  s.setThread t {s.threads t with status:=.stalled,call:=some call}

def resumeThread (t : θ) (time : SubsecondTime) : SyncServer θ μ κ :=
  s.setThread t {s.threads t with status:=.running,wakeupTime:=time}

end

/-- `SimMutex::lock` and `lock_async` up to the change of the thread. -/
def enter [DecidableEq μ] (s : SyncServer θ μ κ) (m : μ) (t : θ) : Bool × SyncServer θ μ κ :=
  let (granted,x) := (s.getMutex m).enter t
  (granted,s.setMutex m x)

/-- The result, unless the thread is stalled. A stalled thread gets `true` and the time of its
resumption plus the rescheduling cost. -/
def mutexLock [DecidableEq θ] [DecidableEq μ] (s : SyncServer θ μ κ) (t : θ) (m : μ) (tryLock : Bool)
    (time : SubsecondTime) :
    Option (SubsecondTime × Bool) × SyncServer θ μ κ :=
  if tryLock && (s.getMutex m).isLocked t then (some (time,false),s)
  else
    let (granted,s) := s.enter m t
    if granted then (some (time+s.rescheduleCost,true),s)
    else (none,s.stallThread t (.lock m))

/-- `SimMutex::unlock`, with the next owner. -/
def unlock [DecidableEq θ] [DecidableEq μ] (s : SyncServer θ μ κ) (m : μ) (t : θ)
    (time : SubsecondTime) : Except Abort (Option θ × SyncServer θ μ κ) := do
  let x ← (s.getMutex m).unlock t
  match x.owner with
  | none => .ok (none,s.setMutex m x)
  | some w => .ok (some w,(s.setMutex m x).resumeThread w time)

def owner (s : SyncServer θ μ κ) (m : μ) : Option θ := (s.getMutex m).owner

def waiting (s : SyncServer θ μ κ) (m : μ) : List θ := (s.getMutex m).waiting

section Updates

variable (s : SyncServer θ μ κ)

@[simp] theorem getMutex_setMutex [DecidableEq μ] (m m' : μ) (x : SimMutex θ) :
    (s.setMutex m x).getMutex m' = if m'=m then x else s.getMutex m' := by
  by_cases h : m'=m
  · subst h
    simp [getMutex,setMutex]
  · simp [getMutex,setMutex,h]

@[simp] theorem threads_setMutex [DecidableEq μ] (m : μ) (x : SimMutex θ) :
    (s.setMutex m x).threads = s.threads := rfl

@[simp] theorem getCond_setMutex [DecidableEq μ] (m : μ) (x : SimMutex θ) :
    (s.setMutex m x).getCond = s.getCond := rfl

@[simp] theorem getCond_setCond [DecidableEq κ] (c c' : κ) (queue : List (CondWaiter θ μ)) :
    (s.setCond c queue).getCond c' = if c'=c then queue else s.getCond c' := by
  by_cases h : c'=c
  · subst h
    simp [getCond,setCond]
  · simp [getCond,setCond,h]

@[simp] theorem getCond_setThread [DecidableEq θ] (t : θ) (x : Thread μ κ) :
    (s.setThread t x).getCond = s.getCond := rfl

@[simp] theorem threads_setThread [DecidableEq θ] (t t' : θ) (x : Thread μ κ) :
    (s.setThread t x).threads t' = if t'=t then x else s.threads t' :=
  Function.update_apply _ _ _ _

variable [DecidableEq μ]

theorem enter_free {m : μ} (h : s.owner m=none) (t : θ) :
    s.enter m t = (true,s.setMutex m ⟨some t,s.waiting m⟩) := by
  rw [enter,SimMutex.enter,show (s.getMutex m).owner=none from h]
  rfl

theorem enter_owned {m : μ} {o : θ} (h : s.owner m=some o) (t : θ) :
    s.enter m t = (false,s.setMutex m ⟨some o,s.waiting m++[t]⟩) := by
  rw [enter,SimMutex.enter,show (s.getMutex m).owner=some o from h]
  rfl

end Updates

variable [DecidableEq θ] [DecidableEq μ]

section

variable (s : SyncServer θ μ κ)

def returns (t : θ) : SyncServer θ μ κ := s.setThread t {s.threads t with call:=none}

def mutexUnlock (t : θ) (m : μ) (time : SubsecondTime) : Except Abort (SubsecondTime × SyncServer θ μ κ) :=
  match s.mutexes m with
  | none => .error .assertion
  | some _ => do
    let (newOwner,s') ← s.unlock m t (time+s.rescheduleCost)
    .ok (time+if newOwner=none then 0 else s.rescheduleCost,s')

def lockAsync (m : μ) (t : θ) (time : SubsecondTime) : Bool × SyncServer θ μ κ :=
  let (granted,s) := s.enter m t
  (granted,if granted then s.resumeThread t time else s)

variable [DecidableEq κ]

def condWait (t : θ) (c : κ) (m : μ) (time : SubsecondTime) : Except Abort (SyncServer θ μ κ) := do
  let (_,s) ← s.unlock m t time
  .ok ((s.setCond c (s.getCond c++[⟨t,m⟩])).stallThread t (.wait c m))

def wake (c : κ) (w : CondWaiter θ μ) (rest : List (CondWaiter θ μ)) (time : SubsecondTime) :
    Bool × SyncServer θ μ κ :=
  (s.setCond c rest).lockAsync w.mutex w.threadId time

def condSignal (c : κ) (time : SubsecondTime) : Option θ × SyncServer θ μ κ :=
  match s.getCond c with
  | [] => (none,s.setCond c [])
  | w::rest =>
    let (granted,s) := s.wake c w rest time
    (if granted then some w.threadId else none,s)

end

/-- The loop of `broadcast` over the queue. -/
def wakeAll [DecidableEq κ] (c : κ) (time : SubsecondTime) :
    List (CondWaiter θ μ) → SyncServer θ μ κ → SyncServer θ μ κ
  | [],s => s
  | w::rest,s => wakeAll c time rest (s.wake c w rest time).2

section

variable [DecidableEq κ] (s : SyncServer θ μ κ)

def condBroadcast (c : κ) (time : SubsecondTime) : SyncServer θ μ κ :=
  wakeAll c time (s.getCond c) (s.setCond c (s.getCond c))

def step : SyncStep θ μ κ → Except Abort (SyncServer θ μ κ)
  | .mutexLock t m tryLock time => .ok (s.mutexLock t m tryLock time).2
  | .mutexUnlock t m time => do
    let (_,s) ← s.mutexUnlock t m time
    .ok s
  | .condWait t c m time => s.condWait t c m time
  | .condSignal _ c time => .ok (s.condSignal c time).2
  | .condBroadcast _ c time => .ok (s.condBroadcast c time)
  | .returns t => .ok (s.returns t)

end

/-- The call returns at once and leaves the caller running. A free mutex is taken with the
result `true`, and of any other mutex nothing changes and the result is `false`. -/
def TryLockPrompt (s : SyncServer θ μ κ) (t : θ) (m : μ) (time : SubsecondTime) : Prop :=
  (s.mutexLock t m true time).2.threads t=s.threads t ∧
    if s.owner m=none then
      (∃τ,(s.mutexLock t m true time).1=some (τ,true)) ∧
        (s.mutexLock t m true time).2.owner m=some t
    else
      (∃τ,(s.mutexLock t m true time).1=some (τ,false)) ∧
        (s.mutexLock t m true time).2.getMutex m=s.getMutex m

/-- An attempt to lock is answered at once unless the caller owns the mutex: `isLocked` calls
such a mutex unlocked, and `lock` queues the caller behind itself. -/
theorem tryLock_prompt_iff (s : SyncServer θ μ κ) (t : θ) (m : μ) (time : SubsecondTime) :
    s.TryLockPrompt t m time ↔ s.owner m≠some t := by
  cases howner : s.owner m with
  | none =>
    have hlocked : (s.getMutex m).isLocked t=false := by
      rw [SimMutex.isLocked,show (s.getMutex m).owner=none from howner]
    simp [TryLockPrompt,mutexLock,hlocked,s.enter_free howner,owner,
      show (s.getMutex m).owner=none from howner]
  | some o =>
    by_cases hot : o=t
    · subst hot
      have hlocked : (s.getMutex m).isLocked o=false := by
        rw [SimMutex.isLocked,show (s.getMutex m).owner=some o from howner]
        simp
      simp [TryLockPrompt,mutexLock,hlocked,s.enter_owned howner,howner]
    · have hlocked : (s.getMutex m).isLocked t=true := by
        rw [SimMutex.isLocked,show (s.getMutex m).owner=some o from howner]
        simp [hot]
      simp [TryLockPrompt,mutexLock,hlocked,howner,hot]

/-- A thread that has locked a mutex stalls when it tries to lock it again. -/
theorem tryLock_stalls_owner : ∃s : SyncServer (Fin 1) (Fin 1) (Fin 1),
    run step (new 0) [.mutexLock 0 0 false 0] = .ok s ∧ (s.threads 0).status = .running ∧
    (s.mutexLock 0 0 true 0).1=none ∧ ((s.mutexLock 0 0 true 0).2.threads 0).status = .stalled ∧
    (s.mutexLock 0 0 true 0).2.waiting 0=[0] := by
  decide

end SyncServer

end Sniper.Synchronization
