import Sniper.DirectoryBlocks

/-!
# The directory's handling of one message

Writing back and the work on the front request are left to the caller, in this order.
-/

namespace Sniper.Coherence
open FallibleRuns

variable {n : ℕ} {δ : Type}

/-- The first message to the directory has been taken from the channel. -/
def Line.handOver (l : Line δ) : Line δ := {l with toDirectory:=l.toDirectory.tail}

/-- The replies are those messages that need an entry. -/
def DirectoryMsg.isReply : DirectoryMsg δ → Bool
  | .invRep | .flushRep _ | .wbRep _ => true
  | _ => false

/-- A block after a message, the data to write back, and the data with which to work on the
front request, if that is to be done. -/
structure Handled (n : ℕ) (δ : Type) where
  block : Block n δ
  writeBack : Option δ
  work : Option (Option δ)

namespace DirectoryEntry

def uncacheIfEmpty (e : DirectoryEntry n) : DirectoryEntry n :=
  if e.numSharers=0 then {e with dstate:=.uncached} else e

def forgetForwarder (e : DirectoryEntry n) (c : Fin n) : DirectoryEntry n :=
  {e with forwarder:=if e.forwarder=some c then none else e.forwarder}

end DirectoryEntry

/-- Whether an `INV_REP` of a cache is what the request was waiting for. -/
def ShmemReq.wokenBy (r : ShmemReq n) (e : DirectoryEntry n) (sender : Fin n) : Bool :=
  match r.type with
  | .exReq | .nullifyReq => e.dstate = .uncached
  | .upgradeReq => e.numSharers=1 ∧ r.requester∈e.sharers ∨ e.numSharers=0
  | .shReq => !r.waitForData && !(r.isForwarding && r.forwardingFrom≠some sender)

namespace Block

def popMessage (b : Block n δ) (c : Fin n) : Block n δ :=
  {b with lines:=Function.update b.lines c (b.lines c).handOver}

def enqueue (b : Block n δ) (r : ShmemReq n) : Handled n δ :=
  ⟨{b with queue:=b.queue++[r]},none,if b.queue=[] then some none else none⟩

variable (sender : Fin n)

def processInvRepFromL2Cache (b : Block n δ) : Except Abort (Handled n δ) :=
  if b.entry.dstate = .shared ∨ b.entry.dstate = .exclusive then do
    let e ← b.entry.removeSharer sender
    let e := (e.forgetForwarder sender).uncacheIfEmpty
    .ok ⟨b.withEntry e,none,if b.queue.head?.any (·.wokenBy e sender) then some none else none⟩
  else .error .assertion

/-- The data of a flush goes to the request at the front, to memory, or to both; while other
sharers are being invalidated the request keeps a pointer to it. -/
def flushed (data : δ) (e : DirectoryEntry n) (b : Block n δ) : Handled n δ :=
  match b.queue with
  | [] => ⟨b.withEntry e,some data,none⟩
  | r::rest =>
    match r.type with
    | .exReq => ⟨b.withEntry e,none,some (some data)⟩
    | .shReq => ⟨b.withEntry e,some data,some (some data)⟩
    | .upgradeReq =>
      if e.numSharers=0 then ⟨b.withEntry e,none,some (some data)⟩
      else ⟨{b.withEntry e with queue:={r with savedData:=true}::rest},none,none⟩
    | .nullifyReq => ⟨b.withEntry e,some data,some none⟩

def processFlushRepFromL2Cache (data : δ) (b : Block n δ) : Except Abort (Handled n δ) := do
  let e ← b.entry.removeSharer sender
  let e := {e with forwarder:=none,owner:=none}
  if e.numSharers=0 ∨ e.dstate = .shared then .ok (b.flushed data e.uncacheIfEmpty)
  else .error .assertion

def processWbRepFromL2Cache (data : δ) (b : Block n δ) : Except Abort (Handled n δ) :=
  if sender∈b.entry.sharers then
    match b.queue with
    | [] => .error .assertion
    | r::_ =>
      if r.type = .shReq then
        .ok ⟨b.withEntry {b.entry with owner:=none,dstate:=.shared},none,some (some data)⟩
      else .error .assertion
  else .error .assertion

def handleMsgFromL2Cache (b : Block n δ) : DirectoryMsg δ → Except Abort (Handled n δ)
  | .exReq => .ok (b.enqueue (.new .exReq sender))
  | .shReq => .ok (b.enqueue (.new .shReq sender))
  | .upgradeReq => .ok (b.enqueue (.new .upgradeReq sender))
  | .invRep => b.processInvRepFromL2Cache sender
  | .flushRep data => b.processFlushRepFromL2Cache sender data
  | .wbRep data => b.processWbRepFromL2Cache sender data

/-- The reply to the front request once DRAM has sent the data. -/
def processDRAMReply (data : δ) (b : Block n δ) : Except Abort (Block n δ) :=
  match b.queue with
  | [] => .error .assertion
  | r::_ =>
    match r.type,b.entry.dstate with
    | .shReq,.shared => .ok (b.send r.requester (.shRep data))
    | .shReq,.exclusive => .ok (b.send r.requester (.exRep data))
    | .exReq,.modified => .ok (b.send r.requester (.exRep data))
    | .upgradeReq,_ => .ok (b.send r.requester (.exRep data))
    | _,_ => .error .assertion

end Block

end Sniper.Coherence
