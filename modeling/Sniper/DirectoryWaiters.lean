import Sniper.NotedRuns
import Sniper.DirectoryReplies

/-!
# The waiters of a shared last-level cache

On a reply the network thread passes the stack lock on to the first sleeper and takes it back
afterwards; other cores may come in between. The directory is not restricted here: any message
may arrive at any time. Nobody takes messages from `toDirectory`.
-/

namespace Sniper.Coherence
open FallibleRuns NotedRuns Noted

structure CacheDirectoryWaiter (n : ℕ) where
  exclusive : Bool
  isPrefetch : Bool
  /-- the core of `cache_cntlr` -/
  core : Fin n
  deriving DecidableEq,Repr

/-- What the user thread of a core sleeps for. -/
structure Miss where
  address : ℕ
  exclusive : Bool
  deriving DecidableEq,Repr

inductive NetworkThread where
  | idle
  /-- the thread of the first waiter has been woken and has the stack lock -/
  | passed (address : ℕ)
  /-- the woken thread has released the stack lock -/
  | returning (address : ℕ)
  deriving DecidableEq,Repr

def NetworkThread.block : NetworkThread → Option ℕ
  | .idle => none
  | .passed a | .returning a => some a

structure SharedCache (n : ℕ) (δ : Type) where
  lines : ℕ → Line δ
  /-- `m_directory_waiters` -/
  waiters : ℕ → List (CacheDirectoryWaiter n)
  network : NetworkThread
  /-- what the core waits for at its semaphore, if it does -/
  threads : Fin n → Option Miss

/-- What a core or the network thread does while it has the stack lock of a block. -/
inductive WaiterStep (n : ℕ) (δ : Type) where
  | access (c : Fin n) (address : ℕ) (exclusive isPrefetch : Bool)
  | store (address : ℕ) (data : δ)
  | evict (address : ℕ)
  | deliver (address : ℕ) (m : CacheMsg δ) (stack : δ)
  | refill (c : Fin n)
  | resume

inductive WaiterEvent (n : ℕ) where
  | enqueue (address : ℕ) (w : CacheDirectoryWaiter n)
  | reply (address : ℕ)
  | wake (address : ℕ) (w : CacheDirectoryWaiter n) (state : CacheState)
  | refill (address : ℕ) (w : CacheDirectoryWaiter n) (miss : Miss) (state : CacheState)
  deriving DecidableEq,Repr

/-- Whether an access finds what it needs. A store makes an `EXCLUSIVE` line `MODIFIED`. -/
def CacheState.permits : CacheState → Bool → Bool
  | .modified,_ | .exclusive,_ | .shared,false | .owned,false => true
  | .shared,true | .owned,true | .invalid,_ | .sharedUpgrading,_ => false

namespace SharedCache

variable {n : ℕ} {δ : Type}

abbrev Attempt (n : ℕ) (α : Type) := Noted (WaiterEvent n) Abort α

def new (memory : ℕ → δ) : SharedCache n δ := ⟨fun a => .new (memory a),fun _ => [],.idle,fun _ => none⟩

def setLine (s : SharedCache n δ) (a : ℕ) (l : Line δ) : SharedCache n δ :=
  {s with lines:=Function.update s.lines a l}

/-- The core joins the waiters of the block and goes to sleep. -/
def initiateDirectoryAccess (s : SharedCache n δ) (a : ℕ) (w : CacheDirectoryWaiter n) :
    Attempt n (SharedCache n δ) := do
  note (.enqueue a w)
  let l ← quiet ((s.lines a).initiateDirectoryAccess w.exclusive)
  pure { s.setLine a l with
    waiters := Function.update s.waiters a (s.waiters a++[w])
    threads := Function.update s.threads w.core (some ⟨a,w.exclusive⟩) }

/-- An access that the levels above do not serve. A core that sleeps makes none, and the stack
lock may be with another core. -/
def access (s : SharedCache n δ) (c : Fin n) (a : ℕ) (exclusive isPrefetch : Bool) :
    Attempt n (SharedCache n δ) :=
  if s.threads c≠none ∨ s.network = .passed a then pure s
  else if (s.lines a).state.permits exclusive then do
    pure (s.setLine a (← quiet ((s.lines a).access exclusive)))
  else s.initiateDirectoryAccess a ⟨exclusive,isPrefetch,c⟩

/-- The loop over the waiters, up to the next one that is woken. An exclusive waiter of a `SHARED`
line stays first and asks for an upgrade. -/
def wakeFront (s : SharedCache n δ) (a : ℕ) : Attempt n (SharedCache n δ) :=
  match s.waiters a with
  | [] => pure {s with network:=.idle}
  | w::_ =>
    if w.exclusive ∧ (s.lines a).state = .shared then do
      let l ← quiet (s.lines a).processUpgradeReqToDirectory
      pure {s.setLine a l with network:=.idle}
    else if w.isPrefetch ∧ (s.lines a).state = .invalid then quiet (.error .nullDereference)
    else do
      note (.wake a w (s.lines a).state)
      pure {s with network:=.passed a}

/-- The requester of a reply is looked up among the waiters before the reply is processed. -/
def handleReply (s : SharedCache n δ) (a : ℕ) (line : Except Abort (Line δ)) : Attempt n (SharedCache n δ) :=
  if s.waiters a=[] then quiet (.error .assertion)
  else do
    note (.reply a)
    let l ← quiet line
    (s.setLine a l).wakeFront a

def handleMsgFromDramDirectory (s : SharedCache n δ) (a : ℕ) (m : CacheMsg δ) (stack : δ) :
    Attempt n (SharedCache n δ) :=
  match m with
  | .exRep data => s.handleReply a ((s.lines a).processExRepFromDramDirectory data)
  | .shRep data => s.handleReply a ((s.lines a).processShRepFromDramDirectory data)
  | .upgradeRep => s.handleReply a (s.lines a).processUpgradeRepFromDramDirectory
  | .invReq | .flushReq | .wbReq => do
    pure (s.setLine a (← quiet ((s.lines a).handleMsgFromDramDirectory m stack)))

/-- The woken thread tries the access for which it slept once more. That the line is there is
asserted, except for metadata that is not to be kept in the caches above. -/
def refill (s : SharedCache n δ) (c : Fin n) : Attempt n (SharedCache n δ) :=
  match s.network,s.threads c with
  | .passed a,some x =>
    match s.waiters a with
    | [] => pure s
    | w::_ =>
      if w.core=c then do
        note (.refill a w x (s.lines x.address).state)
        if (s.lines x.address).state.permits x.exclusive then
          let l ← quiet ((s.lines x.address).access x.exclusive)
          pure { s.setLine x.address l with
            network := .returning a,threads := Function.update s.threads c none }
        else quiet (.error .assertion)
      else pure s
  | _,_ => pure s

variable (s : SharedCache n δ)

def dequeue (a : ℕ) : Except Abort (SharedCache n δ) :=
  if s.waiters a=[] then .error .assertion
  else .ok { s.setLine a {s.lines a with waiters:=(s.lines a).waiters.tail} with
    waiters := Function.update s.waiters a (s.waiters a).tail }

def resume : Attempt n (SharedCache n δ) :=
  match s.network with
  | .returning a => do (← quiet (s.dequeue a)).wakeFront a
  | .idle | .passed _ => pure s

/-- Only an idle network thread handles a message or makes room for a block. -/
def stepNoted : WaiterStep n δ → Attempt n (SharedCache n δ)
  | .access c a exclusive isPrefetch => s.access c a exclusive isPrefetch
  | .store a data =>
    pure (if s.network = .passed a then s else s.setLine a ((s.lines a).store data))
  | .evict a => pure (if s.network = .idle then s.setLine a (s.lines a).evict else s)
  | .deliver a m stack =>
    if s.network = .idle then s.handleMsgFromDramDirectory a m stack else pure s
  | .refill c => s.refill c
  | .resume => s.resume

def step (i : WaiterStep n δ) : Except Abort (SharedCache n δ) := (s.stepNoted i).result

end SharedCache

end Sniper.Coherence
