import Sniper.NotedRuns
import Sniper.SubsecondTimes

/-!
# The quantum barrier

`BarrierSyncServer` without fast-forward and without parked cores. It is noted who arrives, is
disturbed and leaves, and when the barrier is released.
-/

namespace Sniper.Barrier
open NotedRuns NotedRuns.Noted

/-- Why a call has no successor state. -/
inductive BarrierAbort where
  /-- the core is not running or initializing -/
  | notRunning
  /-- the core or its sibling is already in the barrier -/
  | alreadyInBarrier
  /-- reached the barrier while some threads haven't even restarted -/
  | notRestarted
  /-- the loop did not finish within the periods given to it -/
  | unfinished
  deriving DecidableEq,Repr

/-- The state of a core, with its thread. -/
inductive CoreState (θ : Type) where
  | running (thread : θ)
  | initializing (thread : θ)
  | other
  deriving DecidableEq

/-- The master of each core that is not a master itself. -/
structure SmtGroups (n : ℕ) where
  group : Fin n → Option (Fin n)
  master : ∀c m,group c=some m → group m=none

def SmtGroups.masterOf {n : ℕ} (g : SmtGroups n) (c : Fin n) : Fin n := (g.group c).getD c

/-- A thread in `synchronize`, and the time that it has reported. -/
structure Waiting (θ : Type) where
  thread : θ
  time : SubsecondTime
  deriving DecidableEq

/-- What happens in a release that is not decided by the server: the threads that each
`HOOK_PERIODIC` migrates, and the order of the threads to release. -/
structure ReleaseInput (n : ℕ) (θ : Type) where
  periods : List (List θ)
  shuffle : List (Fin n) → List (Fin n)
  perm : ∀l,(shuffle l).Perm l

inductive BarrierEvent (n : ℕ) (θ : Type) where
  | arrives (core : Fin n) (w : Waiting θ)
  /-- the thread is stalled, ended or migrated -/
  | disturbs (t : θ)
  /-- the barrier time, and the masters that were running -/
  | releases (barrierTime : SubsecondTime) (running : Fin n → Bool)
  | leaves (w : Waiting θ) (barrierTime : SubsecondTime)

structure BarrierServer (n : ℕ) (θ : Type) where
  groups : SmtGroups n
  numHostCores : ℕ
  barrierInterval : SubsecondTime
  coreState : Fin n → CoreState θ
  threadRunning : θ → Bool
  nextBarrierTime : SubsecondTime
  globalTime : SubsecondTime
  localClock : Fin n → SubsecondTime
  acquired : Fin n → Bool
  coreThread : Fin n → Option θ
  /-- the back of `m_to_release` comes first -/
  toRelease : List (Fin n)
  /-- the threads that wait at each condition variable -/
  waiting : Fin n → List (Waiting θ)

abbrev Observed (n : ℕ) (θ α : Type) := Noted (BarrierEvent n θ) BarrierAbort α

/-- Calls, hooks, and the changes to the cores and threads outside of the server. -/
inductive BarrierStep (n : ℕ) (θ : Type) where
  | synchronize (core : Fin n) (time : SubsecondTime) (input : ReleaseInput n θ)
  | threadExit (t : θ) (input : ReleaseInput n θ)
  | threadStall (t : θ) (input : ReleaseInput n θ)
  | threadMigrate (t : θ)
  | outside (coreState : Fin n → CoreState θ) (threadRunning : θ → Bool)

namespace BarrierServer

variable {n : ℕ} {θ : Type} [DecidableEq θ]

/-- A quantum of 0 nanoseconds stands for the largest interval. -/
def interval (quantum : BitVec 64) : SubsecondTime := if quantum≠0 then SubsecondTime.ns quantum else .maxTime

def new (groups : SmtGroups n) (numHostCores : ℕ) (quantum : BitVec 64) (coreState : Fin n → CoreState θ)
    (threadRunning : θ → Bool) : BarrierServer n θ where
  groups := groups
  numHostCores := numHostCores
  barrierInterval := interval quantum
  coreState := coreState
  threadRunning := threadRunning
  nextBarrierTime := interval quantum
  globalTime := 0
  localClock := fun _ => 0
  acquired := fun _ => false
  coreThread := fun _ => none
  toRelease := []
  waiting := fun _ => []

def signalCore (s : BarrierServer n θ) (c : Fin n) : Observed n θ (BarrierServer n θ) :=
  match s.waiting c with
  | [] => pure s
  | w::rest => do
    note (.leaves w s.nextBarrierTime)
    pure {s with waiting:=Function.update s.waiting c rest}

def doRelease : ℕ → BarrierServer n θ → Observed n θ (BarrierServer n θ)
  | 0,s => pure s
  | k+1,s =>
    match s.toRelease with
    | [] => pure s
    | c::rest => do
      let s ← {s with toRelease:=rest}.signalCore c
      doRelease k s

section

variable (s : BarrierServer n θ)

def releaseThread (t : θ) : Observed n θ (BarrierServer n θ) := do
  note (.disturbs t)
  doRelease 1 { s with
    localClock := fun c => if s.acquired c ∧ s.coreThread c=some t then 0 else s.localClock c }

/-- `isCoreRunning` without its siblings. -/
def isContextRunning (c : Fin n) : Bool :=
  match s.coreState c with
  | .running t => s.threadRunning t
  | _ => false

def isCoreRunning (c : Fin n) : Bool :=
  s.isContextRunning c ||
    (List.finRange n).any fun d => decide (s.groups.group d=some c) && s.isContextRunning d

end

/-- The loop over the cores, with whether a core has reached the barrier so far. -/
def checkCores (s : BarrierServer n θ) : List (Fin n) → Bool → Bool
  | [],reached => reached
  | c::cores,reached =>
    if (s.groups.group c).isSome then s.checkCores cores reached
    else if s.isCoreRunning c then
      if s.localClock c<s.nextBarrierTime then false else s.checkCores cores true
    else s.checkCores cores reached

section

variable (s : BarrierServer n θ)

def isBarrierReached : Bool := s.checkCores (List.finRange n) false

def passed : List (Fin n) :=
  (List.finRange n).filter fun c => s.acquired c && decide (s.localClock c<s.nextBarrierTime)

/-- The passed cores are let go, all but that of the caller through `m_to_release`. -/
def letGo (caller : Option θ) : BarrierServer n θ :=
  { s with
    acquired := fun c => s.acquired c && !decide (s.localClock c<s.nextBarrierTime)
    toRelease := (s.passed.filter fun c => s.coreThread c≠caller).reverse++s.toRelease }

def advance (migrated : List θ) : Observed n θ (BarrierServer n θ) := do
  let s ← migrated.foldlM releaseThread {s with globalTime:=s.nextBarrierTime}
  pure {s with nextBarrierTime:=s.nextBarrierTime+s.barrierInterval}

end

/-- The loop that advances the barrier time until a core can be resumed, and whether the caller
must wait. -/
def advanceUntil (caller : Option θ) : List (List θ) → BarrierServer n θ →
    Observed n θ (Bool × BarrierServer n θ)
  | [],_ => quiet (.error .unfinished)
  | migrated::periods,s => do
    let s ← s.advance migrated
    if s.passed=[] then advanceUntil caller periods s
    else pure (!(s.passed.any fun c => s.coreThread c=caller),s.letGo caller)

variable (s : BarrierServer n θ)

def barrierRelease (caller : Option θ) (input : ReleaseInput n θ) : Observed n θ (Bool × BarrierServer n θ) :=
  if s.toRelease≠[] then quiet (.error .notRestarted)
  else do
    note (.releases s.nextBarrierTime fun c => (s.groups.group c).isNone && s.isCoreRunning c)
    let (mustWait,s) ← advanceUntil caller input.periods s
    let s ← doRelease s.numHostCores {s with toRelease:=input.shuffle s.toRelease}
    pure (mustWait,s)

/-- The thread has entered the barrier: its core has reached the barrier time. -/
def enter (c : Fin n) (w : Waiting θ) : BarrierServer n θ :=
  { s with
    localClock := Function.update s.localClock c w.time
    acquired := Function.update s.acquired c true
    coreThread := Function.update s.coreThread c (some w.thread) }

def wait (c : Fin n) (w : Waiting θ) : BarrierServer n θ :=
  {s with waiting:=Function.update s.waiting c (s.waiting c++[w])}

/-- `synchronize` for the master of the group. -/
def arrive (c : Fin n) (w : Waiting θ) (input : ReleaseInput n θ) : Observed n θ (BarrierServer n θ) :=
  if s.acquired c then quiet (.error .alreadyInBarrier)
  else do
    note (.arrives c w)
    if w.time<s.nextBarrierTime then do
      note (.leaves w s.nextBarrierTime)
      pure s
    else do
      let s ← doRelease 1 s
      let s := s.enter c w
      if s.isBarrierReached then do
        let (mustWait,s) ← s.barrierRelease (some w.thread) input
        if mustWait then pure (s.wait c w)
        else do
          note (.leaves w s.nextBarrierTime)
          pure s
      else pure (s.wait c w)

/-- A thread that is in the barrier makes no call. -/
def synchronize (core : Fin n) (time : SubsecondTime) (input : ReleaseInput n θ) :
    Observed n θ (BarrierServer n θ) :=
  match s.coreState core with
  | .other => quiet (.error .notRunning)
  | .running t | .initializing t =>
    if ∃c,∃w∈s.waiting c,w.thread=t then pure s
    else s.arrive (s.groups.masterOf core) ⟨t,time⟩ input

def signal (input : ReleaseInput n θ) : Observed n θ (BarrierServer n θ) :=
  if s.isBarrierReached then do
    let (_,s) ← s.barrierRelease none input
    pure s
  else pure s

def threadExit (t : θ) (input : ReleaseInput n θ) : Observed n θ (BarrierServer n θ) := do
  let s ← s.releaseThread t
  s.signal input

def threadStall (t : θ) (input : ReleaseInput n θ) : Observed n θ (BarrierServer n θ) := do
  let s ← s.releaseThread t
  s.signal input

def stepNoted : BarrierStep n θ → Observed n θ (BarrierServer n θ)
  | .synchronize core time input => s.synchronize core time input
  | .threadExit t input => s.threadExit t input
  | .threadStall t input => s.threadStall t input
  | .threadMigrate t => s.releaseThread t
  | .outside coreState threadRunning => pure {s with coreState,threadRunning}

def step (i : BarrierStep n θ) : Except BarrierAbort (BarrierServer n θ) := (s.stepNoted i).result

end BarrierServer

end Sniper.Barrier
