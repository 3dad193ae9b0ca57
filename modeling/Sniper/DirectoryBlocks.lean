import Sniper.LastLevelCaches

/-!
# The directory's handling of one block

Where the source ends the work on a request by calling `processNextReqFromL2Cache`, always as its
last action, the function returns `true`. Performance counters are left out.
-/

namespace Sniper.Coherence
open FallibleRuns

inductive CoherencyProtocol where
  | msi
  | mesi
  | mesif
  deriving DecidableEq,Repr

/-- `DirectoryState::dstate_t`; no function makes an entry `OWNED`. -/
inductive DirectoryState where
  | uncached
  | shared
  | exclusive
  | modified
  deriving DecidableEq,Repr

/-- `DirectoryEntryLimitedNoBroadcast`, for caches `0` to `n - 1`. A full-map directory is
one whose maximal number of sharers is `n`. -/
structure DirectoryEntry (n : ℕ) where
  dstate : DirectoryState
  sharers : Finset (Fin n)
  owner : Option (Fin n)
  forwarder : Option (Fin n)
  deriving DecidableEq

inductive RequestType where
  | exReq
  | shReq
  | upgradeReq
  | nullifyReq
  deriving DecidableEq,Repr

structure ShmemReq (n : ℕ) where
  type : RequestType
  requester : Fin n
  waitForData : Bool
  forwardingFrom : Option (Fin n)
  /-- the message of the request points to the buffer of a `FLUSH_REP`, which is deleted with
  that message -/
  savedData : Bool
  /-- the sharer that had to make room for the requester; not in the source, and read by no
  function -/
  overflow : Option (Fin n)
  deriving DecidableEq

inductive DramMsg (δ : Type) where
  | readReq
  | writeReq (data : δ)
  deriving DecidableEq,Repr

structure DirectoryConfig where
  protocol : CoherencyProtocol
  maxHwSharers : ℕ

/-- What the source leaves open while the directory handles one message: the forwarder of a
new entry, which the constructor does not set, the random sharer, the content of a deleted
buffer, the way that the replacement policy of the NUCA cache chooses, and the variables that
`sendDataToNUCA` does not initialise. -/
structure Unspecified (n : ℕ) (δ : Type) where
  forwarder : Option (Fin n)
  pick : ℕ
  freed : δ
  way : ℕ
  stack : Evicted δ

namespace DirectoryEntry

variable {n : ℕ}

def new (forwarder : Option (Fin n)) : DirectoryEntry n := ⟨.uncached,∅,none,forwarder⟩

variable (e : DirectoryEntry n)

def numSharers : ℕ := e.sharers.card

/-- In the order of the core numbers. -/
def sharersList : List (Fin n) := (List.finRange n).filter fun c => c∈e.sharers

/-- Whether there was room for the sharer. -/
def addSharer (c : Fin n) (maxHwSharers : ℕ) : Except Abort (Bool × DirectoryEntry n) :=
  if c∈e.sharers then .error .assertion
  else if e.numSharers ≥ maxHwSharers then .ok (false,e)
  else .ok (true,{e with sharers:=insert c e.sharers})

def removeSharer (c : Fin n) : Except Abort (DirectoryEntry n) :=
  if c∈e.sharers then .ok {e with sharers:=e.sharers.erase c} else .error .assertion

def setOwner (c : Fin n) : Except Abort (DirectoryEntry n) :=
  if c∈e.sharers then .ok {e with owner:=some c} else .error .assertion

def getOneSharer (pick : ℕ) : Except Abort (Fin n) :=
  match e.sharersList[pick % e.sharersList.length]? with
  | some c => .ok c
  | none => .error .assertion

/-- A requester becomes the only sharer and the owner of an uncached block. -/
def take (c : Fin n) (maxHwSharers : ℕ) (dstate : DirectoryState) : Except Abort (DirectoryEntry n) := do
  let (added,e) ← e.addSharer c maxHwSharers
  if added then
    let e ← e.setOwner c
    .ok {e with dstate}
  else .error .assertion

end DirectoryEntry

namespace ShmemReq

variable {n : ℕ}

def new (type : RequestType) (requester : Fin n) : ShmemReq n := ⟨type,requester,false,none,false,none⟩

def isForwarding (r : ShmemReq n) : Bool := r.forwardingFrom.isSome

end ShmemReq

structure Block (n : ℕ) (δ : Type) where
  entry : DirectoryEntry n
  queue : List (ShmemReq n)
  lines : Fin n → Line δ
  toDram : List (DramMsg δ)

namespace Block

variable {n : ℕ} {δ : Type}

section

variable (b : Block n δ)

def withEntry (entry : DirectoryEntry n) : Block n δ := {b with entry}

def send (c : Fin n) (m : CacheMsg δ) : Block n δ :=
  {b with lines:=Function.update b.lines c ((b.lines c).receive m)}

def sendAll (m : Fin n → CacheMsg δ) (receivers : List (Fin n)) : Block n δ :=
  receivers.foldl (fun b c => b.send c (m c)) b

/-- `INVALID_CORE_ID` is not a receiver. -/
def sendOwner (m : CacheMsg δ) : Except Abort (Block n δ) :=
  match b.entry.owner with
  | some c => .ok (b.send c m)
  | none => .error .assertion

def updateFront (f : ShmemReq n → ShmemReq n) : Block n δ :=
  match b.queue with
  | [] => b
  | r::rest => {b with queue:=f r::rest}

end

variable (cfg : DirectoryConfig)

/-- With MESIF a sharer is asked for the data, unless that has failed once. -/
def forwardsFrom (b : Block n δ) (r : ShmemReq n) : Option (Fin n) :=
  if cfg.protocol = .mesif ∧ r.forwardingFrom=none ∧ b.entry.dstate = .shared then
    b.entry.forwarder
  else none

variable (nuca : Option δ)

/-- `nuca` is what the NUCA cache holds for the block, if there is such a cache. -/
def retrieveDataAndSendToL2Cache (reply : δ → CacheMsg δ) (receiver : Fin n) (cached : Option δ)
    (b : Block n δ) : Except Abort (Block n δ × Bool) :=
  match cached with
  | some data =>
    .ok ((b.withEntry {b.entry with forwarder:=some receiver}).send receiver (reply data),true)
  | none =>
    match nuca with
    | some data => .ok (b.send receiver (reply data),true)
    | none =>
      match b.queue with
      | [] => .error .assertion
      | r::rest =>
        match b.forwardsFrom cfg r with
        | some c =>
          let waiting := {b with queue:={r with forwardingFrom:=some c}::rest}
          .ok (waiting.send c .wbReq,false)
        | none =>
          .ok ({ b with queue:={r with waitForData:=true}::rest
                        toDram := b.toDram++[.readReq] },false)

def processExReqFromL2Cache (r : ShmemReq n) (cached : Option δ) (b : Block n δ) :
    Except Abort (Block n δ × Bool) :=
  match b.entry.dstate with
  | .exclusive | .modified =>
    if cached.isSome then .error .assertion
    else do .ok (← b.sendOwner .flushReq,false)
  | .shared =>
    if cached.isSome then .error .assertion
    else .ok (b.sendAll (fun _ => .invReq) b.entry.sharersList,false)
  | .uncached => do
    let e ← b.entry.take r.requester cfg.maxHwSharers .modified
    (b.withEntry e).retrieveDataAndSendToL2Cache cfg nuca .exRep r.requester cached

def processShReqFromL2Cache (pick : ℕ) (r : ShmemReq n) (cached : Option δ) (b : Block n δ) :
    Except Abort (Block n δ × Bool) :=
  match b.entry.dstate with
  | .exclusive =>
    if b.entry.owner=some r.requester ∨ cached.isSome then .error .assertion
    else do .ok (← b.sendOwner .wbReq,false)
  | .modified =>
    if cached.isSome then .error .assertion
    else do .ok (← b.sendOwner .wbReq,false)
  | .shared =>
    if r.requester∈b.entry.sharers then
      b.retrieveDataAndSendToL2Cache cfg nuca .shRep r.requester cached
    else do
      let (added,e) ← b.entry.addSharer r.requester cfg.maxHwSharers
      if added then
        (b.withEntry e).retrieveDataAndSendToL2Cache cfg nuca .shRep r.requester cached
      else
        let c ← b.entry.getOneSharer pick
        .ok ((b.updateFront fun r => {r with overflow:=some c}).send c .invReq,false)
  | .uncached =>
    if cfg.protocol = .msi then do
      let e ← b.entry.take r.requester cfg.maxHwSharers .shared
      (b.withEntry e).retrieveDataAndSendToL2Cache cfg nuca .shRep r.requester cached
    else do
      let e ← b.entry.take r.requester cfg.maxHwSharers .exclusive
      (b.withEntry e).retrieveDataAndSendToL2Cache cfg nuca .exRep r.requester cached

/-- The data of a request that has some saved is read from a buffer that was deleted. -/
def processUpgradeReqFromL2Cache (freed : δ) (r : ShmemReq n) (cached : Option δ) (b : Block n δ) :
    Except Abort (Block n δ × Bool) :=
  match b.entry.dstate with
  | .exclusive | .modified =>
    match b.entry.sharersList with
    | [] => .error .outOfBounds
    | first::_ =>
      if first=r.requester then
        if b.entry.owner=some r.requester then
          .ok ((b.withEntry {b.entry with dstate:=.modified}).send r.requester .upgradeRep,true)
        else .error .assertion
      else do .ok (← b.sendOwner .flushReq,false)
  | .shared =>
    if b.entry.sharersList=[r.requester] then do
      let e ← b.entry.setOwner r.requester
      .ok ((b.withEntry {e with dstate:=.modified}).send r.requester .upgradeRep,true)
    else
      -- if the requester has lost its copy, the first sharer is asked for the data
      let first := if r.requester∈b.entry.sharers then none else b.entry.sharersList.head?
      .ok (b.sendAll (fun c => if first=some c then .flushReq else .invReq)
        (b.entry.sharersList.filter fun c => c≠r.requester),false)
  | .uncached =>
    if b.entry.numSharers=0 then do
      let e ← b.entry.take r.requester cfg.maxHwSharers .modified
      let cached := cached.or (if r.savedData then some freed else none)
      (b.withEntry e).retrieveDataAndSendToL2Cache cfg nuca .exRep r.requester cached
    else .error .assertion

/-- An uncached entry is given up, which is left to the caller. -/
def processNullifyReq (b : Block n δ) : Except Abort (Block n δ × Bool) :=
  match b.entry.dstate with
  | .exclusive | .modified => do .ok (← b.sendOwner .flushReq,false)
  | .shared => .ok (b.sendAll (fun _ => .invReq) b.entry.sharersList,false)
  | .uncached => .ok (b,true)

def processFront (u : Unspecified n δ) (cached : Option δ) (b : Block n δ) : Except Abort (Block n δ × Bool) :=
  match b.queue with
  | [] => .error .assertion
  | r::_ =>
    match r.type with
    | .exReq => b.processExReqFromL2Cache cfg nuca r cached
    | .shReq => b.processShReqFromL2Cache cfg nuca u.pick r cached
    | .upgradeReq => b.processUpgradeReqFromL2Cache cfg nuca u.freed r cached
    | .nullifyReq => b.processNullifyReq

end Block

end Sniper.Coherence
