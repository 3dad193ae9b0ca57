import Sniper.MachineValues
import Sniper.NotedRuns
import Sniper.SubsecondTimes

/-!
# The pinned scheduler

`SchedulerPinnedBase` with the wrappers of `SchedulerDynamic` around its handlers. The vectors
keyed by thread grow in steps of 16 elements, and are read and written without a check. The calls of
`reschedule` are noted.
-/

namespace Sniper.Scheduling
open NotedRuns NotedRuns.Noted

structure ThreadInfo (n : ℕ) where
  hasAffinity : Bool
  explicitAffinity : Bool
  coreAffinity : Fin n → Bool
  coreRunning : Option (Fin n)
  lastScheduledIn : SubsecondTime
  lastScheduledOut : SubsecondTime

namespace ThreadInfo

variable {n : ℕ}

def new : ThreadInfo n := ⟨false,false,fun _ => false,none,0,0⟩

variable (info : ThreadInfo n)

def clearAffinity : ThreadInfo n := {info with coreAffinity:=fun _ => false}

def addAffinity (c : Fin n) : ThreadInfo n :=
  {info with coreAffinity:=Function.update info.coreAffinity c true,hasAffinity:=true}

/-- The time since the thread was scheduled in or out, with a sign: a difference of unsigned
numbers that is read as a signed one. -/
def score (time : SubsecondTime) : ℤ :=
  match info.coreRunning with
  | some _ => (info.lastScheduledIn.getPS - time.getPS).toInt
  | none => (time.getPS - info.lastScheduledOut.getPS).toInt

end ThreadInfo

/-- Which thread runs on which core, and which threads may. -/
structure Assignment (n : ℕ) where
  threadInfo : List (ThreadInfo n)
  coreThreadRunning : Fin n → Option ℕ
  threadsRunnable : List Bool

structure PinnedScheduler (n : ℕ) extends Assignment n where
  quantum : SubsecondTime
  lastPeriodic : SubsecondTime
  quantumLeft : Fin n → SubsecondTime
  numThreads : ℕ
  /-- the threads that the thread manager has in state `INITIALIZING` -/
  initializing : ℕ → Bool

/-- What a call of `reschedule` finds and leaves. -/
structure Rescheduling (n : ℕ) where
  core : Fin n
  before : Assignment n
  after : Assignment n

abbrev Scheduled (n : ℕ) := Noted (Rescheduling n) Abort (PinnedScheduler n)

/-- The hooks and the calls of the thread manager. The times are those of the core models. -/
inductive PinnedStep (n : ℕ) where
  | create (initial : List (Fin n))
  | start (t : ℕ) (time : SubsecondTime)
  | stall (t : ℕ) (unscheduled : Bool) (time : SubsecondTime)
  | resume (t : ℕ) (time : SubsecondTime)
  | exit (t : ℕ) (time : SubsecondTime)
  | yield (t : ℕ) (time : SubsecondTime)
  | setAffinity (caller : Option ℕ) (t : ℕ) (mask : Option (List ℕ)) (time : SubsecondTime)
  | periodic (time : SubsecondTime)

namespace PinnedScheduler

variable {n : ℕ}

def new (n : ℕ) (quantum : SubsecondTime) : PinnedScheduler n where
  threadInfo := []
  coreThreadRunning := fun _ => none
  threadsRunnable := List.replicate 16 false
  quantum := quantum
  lastPeriodic := 0
  quantumLeft := fun _ => 0
  numThreads := 0
  initializing := fun _ => false

section

variable (s : PinnedScheduler n)

def getInfo (t : ℕ) : Except Abort (ThreadInfo n) :=
  match s.threadInfo[t]? with
  | some info => .ok info
  | none => .error .outOfBounds

def modifyInfo (t : ℕ) (f : ThreadInfo n → ThreadInfo n) : Except Abort (PinnedScheduler n) := do
  let info ← s.getInfo t
  .ok {s with threadInfo:=s.threadInfo.set t (f info)}

def getRunnable (t : ℕ) : Except Abort Bool :=
  match s.threadsRunnable[t]? with
  | some runnable => .ok runnable
  | none => .error .outOfBounds

def setRunnable (t : ℕ) (runnable : Bool) : Except Abort (PinnedScheduler n) :=
  if t<s.threadsRunnable.length then
    .ok {s with threadsRunnable:=s.threadsRunnable.set t runnable}
  else .error .outOfBounds

def resizeInfo (size : ℕ) : PinnedScheduler n :=
  {s with threadInfo:=s.threadInfo++List.replicate (size - s.threadInfo.length) .new}

def findFreeCoreForThread (t : ℕ) : Except Abort (Option (Fin n)) := do
  let info ← s.getInfo t
  .ok ((List.finRange n).find? fun c => info.coreAffinity c && (s.coreThreadRunning c).isNone)

variable (time : SubsecondTime) (c : Fin n)

/-- One round of the loop of `reschedule`, with the best thread so far and its score. -/
def consider (best : Option ℕ × ℤ) (t : ℕ) : Except Abort (Option ℕ × ℤ) := do
  let info ← s.getInfo t
  if info.coreAffinity c ∧ s.threadsRunnable[t]?=some true ∧
      (info.coreRunning=none ∨ info.coreRunning=some c) then
    .ok (if best.2 < info.score time then (some t,info.score time) else best)
  else .ok best

def pick : Except Abort (Option ℕ × ℤ) :=
  (List.range s.threadsRunnable.length).foldlM (s.consider time c) (none,-2^63)

def unschedule : Except Abort (PinnedScheduler n) :=
  match s.coreThreadRunning c with
  | none => .ok s
  | some t => s.modifyInfo t fun info =>
      {info with coreRunning:=none,lastScheduledOut:=time+SubsecondTime.ps (BitVec.ofNat 64 c)}

def place (t : Option ℕ) : Except Abort (PinnedScheduler n) := do
  let s := {s with coreThreadRunning:=Function.update s.coreThreadRunning c t}
  match t with
  | none => .ok s
  | some t =>
    let info ← s.getInfo t
    let s := match info.coreRunning with
      | none => s
      | some c' => {s with coreThreadRunning:=Function.update s.coreThreadRunning c' none}
    s.modifyInfo t fun info => {info with coreRunning:=some c,lastScheduledIn:=time}

/-- A thread that is starting up is not rescheduled. -/
def reschedule : Scheduled n :=
  if (s.coreThreadRunning c).any s.initializing then do
    note ⟨c,s.toAssignment,s.toAssignment⟩
    pure s
  else do
    let (t,_) ← quiet (s.pick time c)
    let s' ← if s.coreThreadRunning c≠t then do
        let s' ← quiet (s.unschedule time c)
        quiet (s'.place time c t)
      else pure s
    note ⟨c,s.toAssignment,s'.toAssignment⟩
    pure {s' with quantumLeft:=Function.update s'.quantumLeft c s'.quantum}

end

section

variable (s : PinnedScheduler n)

/-- A free core is rescheduled if there is one for the thread. -/
def rescheduleFree (t : ℕ) (time : SubsecondTime) : Scheduled n := do
  match ← quiet (s.findFreeCoreForThread t) with
  | none => pure s
  | some c => s.reschedule time c

/-- The core of the thread is rescheduled if it is on one. -/
def rescheduleRunning (t : ℕ) (time : SubsecondTime) : Scheduled n := do
  let info ← quiet (s.getInfo t)
  match info.coreRunning with
  | none => pure s
  | some c => s.reschedule time c

def setInitializing (t : ℕ) (initializing : Bool) : PinnedScheduler n :=
  {s with initializing:=Function.update s.initializing t initializing}

def addThread : PinnedScheduler n :=
  let t := s.numThreads
  let s := setInitializing {s with numThreads:=t+1} t true
  if s.threadInfo.length≤t then s.resizeInfo (s.threadInfo.length+16) else s

/-- The cores in `initial` are those that `threadSetInitialAffinity` adds. -/
def threadCreate (initial : List (Fin n)) : Except Abort (Option (Fin n) × PinnedScheduler n) := do
  let t := s.numThreads
  let s := s.addThread
  let s ← s.modifyInfo t fun info =>
    if info.hasAffinity then info else initial.foldl ThreadInfo.addAffinity info.clearAffinity
  let free ← s.findFreeCoreForThread t
  let s ← s.modifyInfo t fun info => {info with coreRunning:=free}
  match free with
  | none => .ok (none,s)
  | some c => .ok (some c,{ s with
      coreThreadRunning := Function.update s.coreThreadRunning c (some t)
      quantumLeft := Function.update s.quantumLeft c s.quantum })

def threadYield (t : ℕ) (time : SubsecondTime) : Scheduled n := do
  let info ← quiet (s.getInfo t)
  match info.coreRunning with
  | none => pure s
  | some c =>
    let s ← {s with quantumLeft:=Function.update s.quantumLeft c 0}.reschedule time c
    let info ← quiet (s.getInfo t)
    if info.coreAffinity c then pure s else s.rescheduleFree t time

/-- The affinity is set to the cores of a mask, or to all cores without one. -/
def setMask (t : ℕ) (mask : Option (List ℕ)) : Except Abort (PinnedScheduler n) := do
  match mask with
  | none => s.modifyInfo t fun info => (List.finRange n).foldl ThreadInfo.addAffinity info
  | some cpus =>
    let s ← s.modifyInfo t ThreadInfo.clearAffinity
    cpus.foldlM (fun s cpu =>
      if h : cpu<n then s.modifyInfo t fun info => info.addAffinity ⟨cpu,h⟩
      else .error .assertion) s

def threadSetAffinity (caller : Option ℕ) (t : ℕ) (mask : Option (List ℕ)) (time : SubsecondTime) :
    Scheduled n := do
  let s := if s.threadInfo.length≤t then s.resizeInfo (t+16) else s
  let s ← quiet (s.modifyInfo t fun info => {info with explicitAffinity:=true})
  let s ← quiet (s.setMask t mask)
  if s.numThreads≤t then pure s
  else if caller=some t then s.threadYield t time
  else
    let info ← quiet (s.getInfo t)
    match info.coreRunning with
    | some c =>
      if info.coreAffinity c then
        let _ ← quiet (s.getRunnable t)
        pure s
      else pure {s with quantumLeft:=Function.update s.quantumLeft c 0}
    | none =>
      if ← quiet (s.getRunnable t) then s.rescheduleFree t time else pure s

def threadStart (t : ℕ) (time : SubsecondTime) : Scheduled n := do
  let s := s.setInitializing t false
  let s := if s.threadsRunnable.length≤t then
      {s with threadsRunnable:=s.threadsRunnable++List.replicate 16 false}
    else s
  let s ← quiet (s.setRunnable t true)
  s.rescheduleFree t time

/-- A thread that is stalled because it is not scheduled stays runnable. -/
def threadStall (t : ℕ) (unscheduled : Bool) (time : SubsecondTime) : Scheduled n := do
  let s := s.setInitializing t false
  if unscheduled then pure s
  else
    let s ← quiet (s.setRunnable t false)
    s.rescheduleRunning t time

def threadResume (t : ℕ) (time : SubsecondTime) : Scheduled n := do
  let s ← quiet ((s.setInitializing t false).setRunnable t true)
  s.rescheduleFree t time

def threadExit (t : ℕ) (time : SubsecondTime) : Scheduled n := do
  let s ← quiet ((s.setInitializing t false).setRunnable t false)
  s.rescheduleRunning t time

end

def tick (time delta : SubsecondTime) (s : PinnedScheduler n) (c : Fin n) : Scheduled n :=
  if s.quantumLeft c<delta ∨ s.coreThreadRunning c=none then s.reschedule time c
  else pure {s with quantumLeft:=Function.update s.quantumLeft c (s.quantumLeft c - delta)}

variable (s : PinnedScheduler n)

def periodic (time : SubsecondTime) : Scheduled n := do
  let s ← (List.finRange n).foldlM (tick time (time - s.lastPeriodic)) s
  pure {s with lastPeriodic:=time}

/-- The thread manager finds no thread that was not created. -/
def ofThread (t : ℕ) (x : Scheduled n) : Scheduled n :=
  if t<s.numThreads then x else quiet (.error .assertion)

def stepNoted : PinnedStep n → Scheduled n
  | .create initial => do
    let (_,s) ← quiet (s.threadCreate initial)
    pure s
  | .start t time => s.ofThread t (s.threadStart t time)
  | .stall t unscheduled time => s.ofThread t (s.threadStall t unscheduled time)
  | .resume t time => s.ofThread t (s.threadResume t time)
  | .exit t time => s.ofThread t (s.threadExit t time)
  | .yield t time => s.ofThread t (s.threadYield t time)
  | .setAffinity caller t mask time => s.threadSetAffinity caller t mask time
  | .periodic time => s.periodic time

def step (i : PinnedStep n) : Except Abort (PinnedScheduler n) := (s.stepNoted i).result

end PinnedScheduler

end Sniper.Scheduling
