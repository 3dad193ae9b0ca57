import Sniper.MachineValues
import Sniper.NotedRuns
import Sniper.SubsecondTimes

/-!
# The futexes of `syscall_server.cc`

Calls and periodic scans are the steps. Programs write memory as they like, so the word that a call
reads is part of the state. Threads also stall for other reasons and are then resumed by others.
-/

namespace Sniper.Futexes
open NotedRuns NotedRuns.Noted

structure Waiter (θ : Type) where
  threadId : θ
  mask : BitVec 32
  timeout : SubsecondTime
  deriving DecidableEq

/-- Why a thread is stalled; `other` stands for the remaining `stall_type_t`. -/
inductive StallType where
  | futex
  | sleep
  | other
  deriving DecidableEq

inductive ThreadStatus where
  | idle
  | running
  | stalled (reason : StallType)
  deriving DecidableEq

structure Thread where
  status : ThreadStatus
  wakeupTime : SubsecondTime
  wakeupMsg : Bool
  deriving DecidableEq

/-- `struct timespec`. -/
structure Timespec where
  tvSec : BitVec 64
  tvNsec : BitVec 64

/-- `futex_args_t`. -/
structure FutexArgs (α : Type) where
  uaddr : α
  op : BitVec 32
  val : BitVec 32
  timeout : Option Timespec
  val2 : BitVec 32
  uaddr2 : α
  val3 : BitVec 32

/-- The commands that are handled. -/
inductive FutexCmd where
  | wait
  | wake
  | cmpRequeue
  | wakeOp
  | waitBitset
  | wakeBitset
  deriving DecidableEq,Repr

/-- The operation number without `FUTEX_PRIVATE_FLAG` and `FUTEX_CLOCK_REALTIME`. -/
def FutexCmd.decode (op : BitVec 32) : Option FutexCmd :=
  match (op &&& ~~~384#32).toNat with
  | 0 => some .wait
  | 1 => some .wake
  | 4 => some .cmpRequeue
  | 5 => some .wakeOp
  | 9 => some .waitBitset
  | 10 => some .wakeBitset
  | _ => none

def matchAny : BitVec 32 := BitVec.allOnes 32

def eAgain : ℤ := 11

def eTimedOut : ℤ := 110

/-- What happens to a thread in the queues of the futexes. -/
inductive FutexEvent (θ : Type) where
  | queued (thread : θ)
  | woken (thread : θ)
  | timedOut (thread : θ)
  | requeued (thread : θ)
  deriving DecidableEq

structure SyscallServer (θ α π : Type) where
  rescheduleCost : SubsecondTime
  osEmuTimeStart : BitVec 64
  va2pa : θ → α → π
  memory : π → BitVec 32
  sleeping : List (Waiter θ)
  futexes : π → List (Waiter θ)
  /-- the keys of `m_futexes` -/
  known : List π
  threads : θ → Thread
  /-- whether the core of the thread has executed an instruction -/
  started : θ → Bool

/-- A computation that notes what happens to the threads. -/
abbrev Logged (θ β : Type) := Noted (FutexEvent θ) Abort β

/-- The calls of threads, the periodic scan, and what happens outside of the server. -/
inductive FutexStep (θ α π : Type) where
  | call (t : θ) (args : FutexArgs α) (time : SubsecondTime)
  | sleep (t : θ) (wakeTime : SubsecondTime)
  | periodic (time : SubsecondTime)
  | exit (t : θ) (clearTid : Option α) (time : SubsecondTime)
  | start (t : θ)
  | stall (t : θ)
  | resume (t : θ) (time : SubsecondTime)
  | store (p : π) (value : BitVec 32)

/-- The read-modify-write of `futexDoOp`: the new value, and whether the comparison holds. -/
def futexDoOp (encodedOp oldval : BitVec 32) : Except Abort (BitVec 32 × Bool) := do
  let op := (encodedOp.sshiftRight 28 &&& 7).toNat
  let cmp := (encodedOp.sshiftRight 24 &&& 15).toNat
  let shifted := (encodedOp <<< 8).sshiftRight 20
  let cmparg := (encodedOp <<< 20).sshiftRight 20
  let oparg ←
    if encodedOp.msb then
      if 0 ≤ shifted.toInt ∧ shifted.toInt<32 then .ok (1#32 <<< shifted.toNat)
      else .error .shiftTooWide
    else .ok shifted
  let newval ← match op with
    | 0 => .ok oparg
    | 1 => .ok (oldval+oparg)
    | 2 => .ok (oldval ||| oparg)
    | 3 => .ok (oldval &&& ~~~oparg)
    | 4 => .ok (oldval ^^^ oparg)
    | _ => .error .assertion
  let ret ← match cmp with
    | 0 => .ok (decide (oldval=cmparg))
    | 1 => .ok (decide (oldval≠cmparg))
    | 2 => .ok (decide (oldval.toInt<cmparg.toInt))
    | 3 => .ok (decide (oldval.toInt ≤ cmparg.toInt))
    | 4 => .ok (decide (oldval.toInt > cmparg.toInt))
    | 5 => .ok (decide (oldval.toInt ≥ cmparg.toInt))
    | _ => .error .assertion
  .ok (newval,ret)

/-- The first waiter whose mask meets the given one, and the rest. -/
def takeMatching {θ : Type} (mask : BitVec 32) : List (Waiter θ) → Option (Waiter θ × List (Waiter θ))
  | [] => none
  | w::queue =>
    if mask &&& w.mask≠0 then some (w,queue)
    else (takeMatching mask queue).map fun (x,rest) => (x,w::rest)

def takeTimedOut {θ : Type} (time : SubsecondTime) : List (Waiter θ) → Option (Waiter θ × List (Waiter θ))
  | [] => none
  | w::queue =>
    if w.timeout≤time then some (w,queue)
    else (takeTimedOut time queue).map fun (x,rest) => (x,w::rest)

namespace SyscallServer

variable {θ α π : Type} [DecidableEq θ] [DecidableEq α] [DecidableEq π]

def new (rescheduleCost : SubsecondTime) (osEmuTimeStart : BitVec 64) (va2pa : θ → α → π)
    (memory : π → BitVec 32) (started : θ → Bool) : SyscallServer θ α π where
  rescheduleCost := rescheduleCost
  osEmuTimeStart := osEmuTimeStart
  va2pa := va2pa
  memory := memory
  sleeping := []
  futexes := fun _ => []
  known := []
  threads := fun _ => ⟨.idle,0,false⟩
  started := started

section

variable (s : SyscallServer θ α π)

def setFutex (p : π) (queue : List (Waiter θ)) : SyscallServer θ α π :=
  {s with futexes:=Function.update s.futexes p queue}

variable (t : θ)

def setThread (x : Thread) : SyscallServer θ α π := {s with threads:=Function.update s.threads t x}

def setStatus (status : ThreadStatus) : SyscallServer θ α π := s.setThread t {s.threads t with status}

/-- `ThreadManager::stallThread`, up to the wait of the thread. -/
def stallThread (reason : StallType) : SyscallServer θ α π := s.setStatus t (.stalled reason)

def resumeThread (time : SubsecondTime) (msg : Bool) : SyscallServer θ α π := s.setThread t ⟨.running,time,msg⟩

def applyRescheduleCost (conditional : Bool) : SubsecondTime :=
  if conditional && s.started t then s.rescheduleCost else 0

/-- The futex of an address, which is created if it was not seen before. -/
def findFutexByUaddr (uaddr : α) : π × SyscallServer θ α π :=
  let p := s.va2pa t uaddr
  (p,if p∈s.known then s else {s with known:=s.known++[p]})

def dequeueWaiter (p : π) (mask : BitVec 32) (time : SubsecondTime) :
    Logged θ (Option θ × SyscallServer θ α π) :=
  match takeMatching mask (s.futexes p) with
  | none => pure (none,s)
  | some (w,rest) => do
    note (.woken w.threadId)
    pure (some w.threadId,(s.setFutex p rest).resumeThread w.threadId time true)

end

/-- The loop that wakes up to a number of waiters, and how many it has woken. -/
def wakeUp (p : π) (mask : BitVec 32) (time : SubsecondTime) :
    ℕ → SyscallServer θ α π → Logged θ (ℕ × SyscallServer θ α π)
  | 0,s => pure (0,s)
  | k+1,s => do
    match ← s.dequeueWaiter p mask time with
    | (none,s) => pure (0,s)
    | (some _,s) =>
      let (woken,s) ← wakeUp p mask time k s
      pure (woken+1,s)

section

variable (s : SyscallServer θ α π) (t : θ)

/-- The result is `none` for a thread that is stalled. -/
def futexWait (uaddr : α) (val actVal mask : BitVec 32) (currTime timeoutTime : SubsecondTime) :
    Logged θ (Option (ℤ × SubsecondTime) × SyscallServer θ α π) :=
  let (p,s) := s.findFutexByUaddr t uaddr
  if val≠actVal then pure (some (-eAgain,currTime),s)
  else do
    note (.queued t)
    pure (none,(s.setFutex p (s.futexes p++[⟨t,mask,timeoutTime⟩])).stallThread t .futex)

/-- What `futexWait` returns to a thread that has been resumed. -/
def waitResult (x : Thread) : ℤ × SubsecondTime := (if x.wakeupMsg then 0 else -eTimedOut,x.wakeupTime)

/-- The value and the end time of a call that has woken some waiters. -/
def wokenResult (woken : ℕ) (currTime : SubsecondTime) : ℤ × SubsecondTime :=
  (woken,currTime+s.applyRescheduleCost t (decide (0<woken)))

def futexWake (uaddr : α) (nrWake mask : BitVec 32) (currTime : SubsecondTime) :
    Logged θ ((ℤ × SubsecondTime) × SyscallServer θ α π) := do
  let (p,s) := s.findFutexByUaddr t uaddr
  let (woken,s) ← wakeUp p mask (currTime+s.applyRescheduleCost t true) nrWake.toInt.toNat s
  pure (s.wokenResult t woken currTime,s)

def futexWakeOp (uaddr uaddr2 : α) (nrWake nrWake2 op : BitVec 32) (currTime : SubsecondTime) :
    Logged θ ((ℤ × SubsecondTime) × SyscallServer θ α π) := do
  let (p,s) := s.findFutexByUaddr t uaddr
  let (p2,s) := s.findFutexByUaddr t uaddr2
  let (newval,ret) ← quiet (futexDoOp op (s.memory p2))
  let s := {s with memory:=Function.update s.memory p2 newval}
  let time := currTime+s.applyRescheduleCost t true
  let (woken,s) ← wakeUp p matchAny time nrWake.toInt.toNat s
  let (woken2,s) ← if ret then wakeUp p2 matchAny time nrWake2.toInt.toNat s else pure (0,s)
  pure (s.wokenResult t (woken+woken2) currTime,s)

/-- `SimFutex::requeueWaiter`: whether there was a waiter. -/
def requeueWaiter (p p2 : π) : Logged θ (Bool × SyscallServer θ α π) :=
  match s.futexes p with
  | [] => pure (false,s)
  | w::rest => do
    note (.requeued w.threadId)
    let s := s.setFutex p rest
    pure (true,s.setFutex p2 (s.futexes p2++[w]))

end

/-- The loop that requeues until there is no waiter left. -/
def requeueAll (p p2 : π) : ℕ → SyscallServer θ α π → Logged θ (SyscallServer θ α π)
  | 0,_ => quiet (.error .unfinished)
  | k+1,s => do
    match ← s.requeueWaiter p p2 with
    | (false,s) => pure s
    | (true,s) => requeueAll p p2 k s

section

variable (s : SyscallServer θ α π)

/-- The loop gets one round for each waiter and one more. -/
def futexCmpRequeue (t : θ) (uaddr : α) (val : BitVec 32) (uaddr2 : α) (val3 actVal : BitVec 32)
    (currTime : SubsecondTime) : Logged θ ((ℤ × SubsecondTime) × SyscallServer θ α π) :=
  let (p,s) := s.findFutexByUaddr t uaddr
  if val3≠actVal then pure ((-eAgain,currTime),s)
  else do
    let (woken,s) ← wakeUp p matchAny currTime val.toInt.toNat s
    let (p2,s) := s.findFutexByUaddr t uaddr2
    let s ← requeueAll p p2 ((s.futexes p).length+1) s
    pure ((woken,currTime),s)

/-- The deadline of a wait. The start time of the emulated system is subtracted from relative
timeouts as well. -/
def timeoutTime (cmd : FutexCmd) (timeout : Option Timespec) (currTime : SubsecondTime) : SubsecondTime :=
  match timeout with
  | none => .maxTime
  | some x =>
    let timeoutVal := SubsecondTime.sec (x.tvSec - s.osEmuTimeStart)+SubsecondTime.ns x.tvNsec
    if cmd = .waitBitset then timeoutVal else currTime+timeoutVal

/-- The wake commands compare with `FUTEX_WAIT_BITSET`, as the wait commands do. -/
def bitset (cmd : FutexCmd) (val3 : BitVec 32) : BitVec 32 := if cmd = .waitBitset then val3 else matchAny

def handleFutexCall (t : θ) (args : FutexArgs α) (currTime : SubsecondTime) :
    Logged θ (Option (ℤ × SubsecondTime) × SyscallServer θ α π) :=
  let actVal := s.memory (s.va2pa t args.uaddr)
  match FutexCmd.decode args.op with
  | none => quiet (.error .assertion)
  | some .wait => s.futexWait t args.uaddr args.val actVal (bitset .wait args.val3) currTime
      (s.timeoutTime .wait args.timeout currTime)
  | some .waitBitset => s.futexWait t args.uaddr args.val actVal (bitset .waitBitset args.val3)
      currTime (s.timeoutTime .waitBitset args.timeout currTime)
  | some .wake => do
    let (result,s) ← s.futexWake t args.uaddr args.val (bitset .wake args.val3) currTime
    pure (some result,s)
  | some .wakeBitset => do
    let (result,s) ← s.futexWake t args.uaddr args.val (bitset .wakeBitset args.val3) currTime
    pure (some result,s)
  | some .wakeOp => do
    let (result,s) ← s.futexWakeOp t args.uaddr args.uaddr2 args.val args.val2 args.val3 currTime
    pure (some result,s)
  | some .cmpRequeue =>
    if args.uaddr≠args.uaddr2 then do
      let (result,s) ← s.futexCmpRequeue t args.uaddr args.val args.uaddr2 args.val3 actVal currTime
      pure (some result,s)
    else quiet (.error .assertion)

def handleSleepCall (t : θ) (wakeTime : SubsecondTime) : SyscallServer θ α π :=
  stallThread {s with sleeping:=s.sleeping++[⟨t,0,wakeTime⟩]} t .sleep

end

/-- `SimFutex::wakeTimedOut`: at most one waiter in each scan. -/
def wakeTimedOut (time : SubsecondTime) (s : SyscallServer θ α π) (p : π) : Logged θ (SyscallServer θ α π) :=
  match takeTimedOut time (s.futexes p) with
  | none => pure s
  | some (w,rest) => do
    note (.timedOut w.threadId)
    pure ((s.setFutex p rest).resumeThread w.threadId time false)

variable (s : SyscallServer θ α π)

/-- The order in which the futexes are scanned makes no difference. -/
def futexPeriodic (time : SubsecondTime) : Logged θ (SyscallServer θ α π) :=
  let s := match takeTimedOut time s.sleeping with
    | none => s
    | some (w,rest) => {s with sleeping:=rest}.resumeThread w.threadId time false
  s.known.foldlM (wakeTimedOut time) s

/-- The end of a thread, which wakes a waiter for its `clear_tid` address. -/
def exitThread (t : θ) (clearTid : Option α) (time : SubsecondTime) : Logged θ (SyscallServer θ α π) :=
  let s := s.setStatus t .idle
  match clearTid with
  | none => pure s
  | some uaddr => do
    let s := {s with memory:=Function.update s.memory (s.va2pa t uaddr) 0}
    let (_,s) ← s.futexWake t uaddr 1 matchAny time
    pure s

/-- A thread that is not running makes no call. -/
def stepNoted : FutexStep θ α π → Logged θ (SyscallServer θ α π)
  | .call t args time =>
    if (s.threads t).status = .running then do
      let (_,s) ← s.handleFutexCall t args time
      pure s
    else pure s
  | .sleep t wakeTime =>
    pure (if (s.threads t).status = .running then s.handleSleepCall t wakeTime else s)
  | .periodic time => s.futexPeriodic time
  | .exit t clearTid time =>
    if (s.threads t).status = .running then s.exitThread t clearTid time else pure s
  | .start t => pure (if (s.threads t).status = .idle then s.setStatus t .running else s)
  | .stall t => pure (if (s.threads t).status = .running then s.stallThread t .other else s)
  | .resume t time =>
    pure (if (s.threads t).status = .stalled .other then s.resumeThread t time false else s)
  | .store p value => pure {s with memory:=Function.update s.memory p value}

def step (i : FutexStep θ α π) : Except Abort (SyscallServer θ α π) := (s.stepNoted i).result

end SyscallServer

end Sniper.Futexes
