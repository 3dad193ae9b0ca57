import Sniper.NucaCache

/-!
# The cache side of the directory protocol

A cache stands for the whole hierarchy above it. A channel delivers its messages in order; there
is one for each cache and block, so messages for different blocks may overtake each other.
-/

namespace Sniper.Coherence
open FallibleRuns

/-- The messages of the directory to a cache. -/
inductive CacheMsg (δ : Type) where
  | exRep (data : δ)
  | shRep (data : δ)
  | upgradeRep
  | invReq
  | flushReq
  | wbReq
  deriving DecidableEq,Repr

/-- The messages of a cache to the directory. -/
inductive DirectoryMsg (δ : Type) where
  | exReq
  | shReq
  | upgradeReq
  | invRep
  | flushRep (data : δ)
  | wbRep (data : δ)
  deriving DecidableEq,Repr

structure Line (δ : Type) where
  state : CacheState
  data : δ
  /-- `m_directory_waiters`: whether each of them is exclusive -/
  waiters : List Bool
  toCache : List (CacheMsg δ)
  toDirectory : List (DirectoryMsg δ)
  deriving DecidableEq,Repr

namespace Line

variable {δ : Type}

def new (data : δ) : Line δ := ⟨.invalid,data,[],[],[]⟩

section

variable (l : Line δ)

def send (m : DirectoryMsg δ) : Line δ := {l with toDirectory:=l.toDirectory++[m]}

def receive (m : CacheMsg δ) : Line δ := {l with toCache:=l.toCache++[m]}

def processExReqToDirectory : Except Abort (Line δ) :=
  if l.state = .invalid then .ok (l.send .exReq) else .error .assertion

def processUpgradeReqToDirectory : Except Abort (Line δ) :=
  if l.state = .shared then .ok ({l with state:=.sharedUpgrading}.send .upgradeReq)
  else .error .assertion

def processShReqToDirectory : Line δ := l.send .shReq

/-- Only the first waiter of a block sends a request. -/
def initiateDirectoryAccess (exclusive : Bool) : Except Abort (Line δ) :=
  let queued := {l with waiters:=l.waiters++[exclusive]}
  if l.waiters=[] then
    if exclusive then
      if l.state = .shared then queued.processUpgradeReqToDirectory
      else queued.processExReqToDirectory
    else .ok queued.processShReqToDirectory
  else .ok queued

/-- An access of a core, as far as the last-level cache decides it: a hit, a silent upgrade
from `EXCLUSIVE` to `MODIFIED`, or an access to the directory. -/
def access (exclusive : Bool) : Except Abort (Line δ) :=
  match exclusive,l.state with
  | true,.modified => .ok l
  | true,.exclusive => .ok {l with state:=.modified}
  | false,.modified | false,.owned | false,.shared | false,.exclusive => .ok l
  | _,_ => l.initiateDirectoryAccess exclusive

def store (data : δ) : Line δ :=
  match l.state with
  | .exclusive | .modified => {l with state:=.modified,data:=data}
  | _ => l

/-- The line is chosen as a victim. A line in `SHARED_UPGRADING` never is. -/
def evict : Line δ :=
  match l.state with
  | .modified => {l with state:=.invalid}.send (.flushRep l.data)
  | .shared | .exclusive => {l with state:=.invalid}.send .invRep
  | _ => l

end

/-- The loop over the waiters after a reply has made the line readable. An exclusive waiter
makes an `EXCLUSIVE` line `MODIFIED`, and on a `SHARED` line it sends an upgrade request and
keeps waiting, with all that follow it. -/
def wake (l : Line δ) : List Bool → Except Abort (Line δ)
  | [] => .ok {l with waiters:=[]}
  | true::waiters =>
    if l.state = .shared then {l with waiters:=true::waiters}.processUpgradeReqToDirectory
    else wake {l with state:=.modified} waiters
  | false::waiters => wake l waiters

variable (l : Line δ)

/-- The waiters of a block are looked up before a reply is handled. -/
def wakeWaiters : Except Abort (Line δ) := if l.waiters=[] then .error .nullDereference else l.wake l.waiters

def insertCacheBlock (state : CacheState) (data : δ) : Except Abort (Line δ) :=
  if l.state = .invalid then .ok {l with state,data} else .error .assertion

def processExRepFromDramDirectory (data : δ) : Except Abort (Line δ) := l.insertCacheBlock .exclusive data

def processShRepFromDramDirectory (data : δ) : Except Abort (Line δ) := l.insertCacheBlock .shared data

/-- No `UPGRADE_REP` carries data. -/
def processUpgradeRepFromDramDirectory : Except Abort (Line δ) :=
  if l.state = .sharedUpgrading then .ok {l with state:=.modified} else .error .assertion

/-- `MODIFIED` data would be lost without a buffer to write it to. -/
def processInvReqFromDramDirectory : Except Abort (Line δ) :=
  match l.state with
  | .invalid => .ok l
  | .modified => .error .assertion
  | _ => .ok ({l with state:=.invalid}.send .invRep)

def processFlushReqFromDramDirectory : Line δ :=
  match l.state with
  | .invalid => l
  | _ => {l with state:=.invalid}.send (.flushRep l.data)

/-- While the line is being upgraded `data_buf` is sent as the stack holds it. -/
def processWbReqFromDramDirectory (stack : δ) : Line δ :=
  match l.state with
  | .invalid => l
  | .sharedUpgrading => l.send (.wbRep stack)
  | _ => {l with state:=.shared}.send (.wbRep l.data)

def handleMsgFromDramDirectory (m : CacheMsg δ) (stack : δ) : Except Abort (Line δ) :=
  match m with
  | .exRep data => do (← l.processExRepFromDramDirectory data).wakeWaiters
  | .shRep data => do (← l.processShRepFromDramDirectory data).wakeWaiters
  | .upgradeRep => do (← l.processUpgradeRepFromDramDirectory).wakeWaiters
  | .invReq => l.processInvReqFromDramDirectory
  | .flushReq => .ok l.processFlushReqFromDramDirectory
  | .wbReq => .ok (l.processWbReqFromDramDirectory stack)

def deliver (stack : δ) : Except Abort (Line δ) :=
  match l.toCache with
  | [] => .ok l
  | m::rest => {l with toCache:=rest}.handleMsgFromDramDirectory m stack

end Line

end Sniper.Coherence
