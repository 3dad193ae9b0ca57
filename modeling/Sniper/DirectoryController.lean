import Sniper.DirectoryMessages

/-! # The directory controller with its entries, and the runs of the protocol -/

namespace Sniper.Coherence
open FallibleRuns

structure DirectorySystem (n : ℕ) (δ : Type) where
  config : DirectoryConfig
  associativity : ℕ
  /-- the set of `splitAddress` -/
  setIndex : ℕ → ℕ
  /-- the addresses of the entries of each set; a free entry has `INVALID_ADDRESS` -/
  slots : ℕ → List (Option ℕ)
  /-- `m_replaced_directory_entry_list` -/
  replaced : List ℕ
  /-- `m_replacement_ptrs` -/
  pointers : ℕ → ℕ
  nuca : Option (NucaCache δ)
  memory : ℕ → δ
  fromDram : ℕ → List δ
  blocks : ℕ → Block n δ

/-- What can happen: an access of a core, a store to a block that may be written, an eviction,
the delivery of a message to a cache or to the directory, and the work of DRAM. -/
inductive ProtocolStep (n : ℕ) (δ : Type) where
  | access (c : Fin n) (address : ℕ) (exclusive : Bool)
  | store (c : Fin n) (address : ℕ) (data : δ)
  | evict (c : Fin n) (address : ℕ)
  | deliver (c : Fin n) (address : ℕ) (stack : δ)
  | receive (c : Fin n) (address : ℕ) (u : ℕ → Unspecified n δ)
  | dram (address : ℕ)
  | dramReply (address : ℕ) (u : ℕ → Unspecified n δ)

namespace DirectorySystem

variable {n : ℕ} {δ : Type}

/-- No cache has a copy and every entry is free. The replacement pointers are not initialised,
and neither are the forwarders. -/
def new (config : DirectoryConfig) (associativity : ℕ) (setIndex pointers : ℕ → ℕ)
    (nuca : Option (NucaCache δ)) (memory : ℕ → δ) : DirectorySystem n δ where
  config := config
  associativity := associativity
  setIndex := setIndex
  slots := fun _ => List.replicate associativity none
  replaced := []
  pointers := pointers
  nuca := nuca
  memory := memory
  fromDram := fun _ => []
  blocks := fun a => ⟨.new none,[],fun _ => .new (memory a),[]⟩

section

variable (s : DirectorySystem n δ)

def setBlock (a : ℕ) (b : Block n δ) : DirectorySystem n δ := {s with blocks:=Function.update s.blocks a b}

def setSlots (i : ℕ) (slots : List (Option ℕ)) : DirectorySystem n δ :=
  {s with slots:=Function.update s.slots i slots}

def freshEntry (a : ℕ) (forwarder : Option (Fin n)) : DirectorySystem n δ :=
  s.setBlock a ((s.blocks a).withEntry (.new forwarder))

/-- Whether the block has an entry; a free one of its set is taken for it. -/
def getDirectoryEntry (a : ℕ) (forwarder : Option (Fin n)) : Bool × DirectorySystem n δ :=
  let set := s.slots (s.setIndex a)
  if some a∈set then (true,s)
  else if none∈set then
    (true,(s.setSlots (s.setIndex a) (set.replace none (some a))).freshEntry a forwarder)
  else (decide (a∈s.replaced),s)

/-- The entries of the set, from the one that the replacement pointer points to. -/
def getReplacementCandidates (a : ℕ) : List ℕ × DirectorySystem n δ :=
  let i := s.setIndex a
  ((List.range s.associativity).filterMap fun k =>
      ((s.slots i)[(k+s.pointers i) % 2^32 % s.associativity]?).join,
    {s with pointers:=Function.update s.pointers i ((s.pointers i+1) % 2^32)})

/-- The first entry with the fewest sharers among those of blocks without a request. -/
def replacementCandidate (candidates : List ℕ) : Option ℕ :=
  candidates.foldl (fun best a =>
    if (∀b∈best,(s.blocks a).entry.numSharers<(s.blocks b).entry.numSharers) ∧
        (s.blocks a).queue=[] then some a else best) none

def replaceDirectoryEntry (victim a : ℕ) (forwarder : Option (Fin n)) : Except Abort (DirectorySystem n δ) :=
  let set := s.slots (s.setIndex victim)
  if some victim∈set then
    .ok ({ s.setSlots (s.setIndex victim) (set.replace (some victim) (some a)) with
      replaced := s.replaced++[victim] }.freshEntry a forwarder)
  else .error .assertion

variable (a : ℕ)

def invalidateDirectoryEntry : Except Abort (DirectorySystem n δ) :=
  if a∈s.replaced then .ok {s with replaced:=s.replaced.erase a} else .error .assertion

/-- The block is nullified. It has no other request, so none is worked on after this one. -/
def nullify (requester : Fin n) : Except Abort (DirectorySystem n δ) :=
  if (s.blocks a).queue=[] then do
    let (b,done) ← {s.blocks a with queue:=[.new .nullifyReq requester]}.processNullifyReq
    if done then (s.setBlock a {b with queue:=b.queue.tail}).invalidateDirectoryEntry a
    else .ok (s.setBlock a b)
  else .error .assertion

def processDirectoryEntryAllocationReq (requester : Fin n) (forwarder : Option (Fin n)) :
    Except Abort (DirectorySystem n δ) :=
  let (candidates,s) := s.getReplacementCandidates a
  match s.replacementCandidate candidates with
  | none => .error .assertion
  | some victim => do
    let s ← s.replaceDirectoryEntry victim a forwarder
    s.nullify victim requester

/-- The entry of a request, which is allocated if there is none. A nullified block has one. -/
def ensureEntry (r : ShmemReq n) (forwarder : Option (Fin n)) : Except Abort (DirectorySystem n δ) :=
  let (found,s) := s.getDirectoryEntry a forwarder
  if found then .ok s
  else if r.type = .nullifyReq then .error .assertion
  else s.processDirectoryEntryAllocationReq a r.requester forwarder

def sendToDram (m : DramMsg δ) : DirectorySystem n δ :=
  s.setBlock a {s.blocks a with toDram:=(s.blocks a).toDram++[m]}

/-- The data is kept in the NUCA cache, if there is one. Any way may be its replacement
policy's choice. -/
def sendDataToNUCA (data : δ) (u : Unspecified n δ) : Except Abort (DirectorySystem n δ) :=
  match s.nuca with
  | none => .ok s
  | some c => do
    let (c,dropped) ← c.sendDataToNuca a data (u.way % c.associativity) u.stack
    .ok (dropped.foldl (fun s w => s.sendToDram w.address (.writeReq w.data)) {s with nuca:=some c})

def sendDataToDram (data : δ) (u : Unspecified n δ) : Except Abort (DirectorySystem n δ) :=
  if s.nuca.isSome then s.sendDataToNUCA a data u else .ok (s.sendToDram a (.writeReq data))

end

/-- The work on the front request and, as long as requests are answered, on those behind it;
with the number of requests. -/
def work (a : ℕ) (u : ℕ → Unspecified n δ) :
    ℕ → Option δ → DirectorySystem n δ → Except Abort (DirectorySystem n δ)
  | 0,_,_ => .error .unfinished
  | k+1,cached,s =>
    match (s.blocks a).queue with
    | [] => .error .assertion
    | r::_ => do
      let s ← s.ensureEntry a r (u k).forwarder
      let (b,done) ← (s.blocks a).processFront s.config (s.nuca.bind fun c => c.read a) (u k) cached
      let s := s.setBlock a b
      if done then
        let s ← if r.type = .nullifyReq then s.invalidateDirectoryEntry a else .ok s
        let s := s.setBlock a {s.blocks a with queue:=(s.blocks a).queue.tail}
        if (s.blocks a).queue=[] then .ok s else work a u k none s
      else .ok s

def processNextReqFromL2Cache (s : DirectorySystem n δ) (a : ℕ) (u : ℕ → Unspecified n δ) :
    Except Abort (DirectorySystem n δ) :=
  let s := s.setBlock a {s.blocks a with queue:=(s.blocks a).queue.tail}
  if (s.blocks a).queue=[] then .ok s else work a u (s.blocks a).queue.length none s

def handleMsgFromL2Cache (s : DirectorySystem n δ) (c : Fin n) (a : ℕ) (u : ℕ → Unspecified n δ)
    (m : DirectoryMsg δ) : Except Abort (DirectorySystem n δ) :=
  let queued := (s.blocks a).queue.length+1
  let (found,s) := s.getDirectoryEntry a (u queued).forwarder
  if m.isReply ∧ found=false then .error .assertion
  else do
    let h ← ((s.blocks a).popMessage c).handleMsgFromL2Cache c m
    let s := s.setBlock a h.block
    let s ← match h.writeBack with
      | some data => s.sendDataToDram a data (u queued)
      | none => .ok s
    match h.work with
    | some cached => work a u (s.blocks a).queue.length cached s
    | none => .ok s

def processDRAMReply (s : DirectorySystem n δ) (a : ℕ) (u : ℕ → Unspecified n δ) (data : δ) :
    Except Abort (DirectorySystem n δ) :=
  let queued := (s.blocks a).queue.length
  let (found,s) := s.getDirectoryEntry a (u queued).forwarder
  if found then do
    let b ← (s.blocks a).processDRAMReply data
    let s ← (s.setBlock a b).sendDataToNUCA a data (u queued)
    s.processNextReqFromL2Cache a u
  else .error .assertion

variable (s : DirectorySystem n δ)

def setLine (c : Fin n) (a : ℕ) (l : Line δ) : DirectorySystem n δ :=
  s.setBlock a {s.blocks a with lines:=Function.update (s.blocks a).lines c l}

def dram (a : ℕ) : DirectorySystem n δ :=
  match (s.blocks a).toDram with
  | [] => s
  | m::rest =>
    let s := s.setBlock a {s.blocks a with toDram:=rest}
    match m with
    | .readReq => {s with fromDram:=Function.update s.fromDram a (s.fromDram a++[s.memory a])}
    | .writeReq data => {s with memory:=Function.update s.memory a data}

def step : ProtocolStep n δ → Except Abort (DirectorySystem n δ)
  | .access c a exclusive => do
    .ok (s.setLine c a (← ((s.blocks a).lines c).access exclusive))
  | .store c a data => .ok (s.setLine c a (((s.blocks a).lines c).store data))
  | .evict c a => .ok (s.setLine c a ((s.blocks a).lines c).evict)
  | .deliver c a stack => do .ok (s.setLine c a (← ((s.blocks a).lines c).deliver stack))
  | .receive c a u =>
    match ((s.blocks a).lines c).toDirectory with
    | [] => .ok s
    | m::_ => s.handleMsgFromL2Cache c a u m
  | .dram a => .ok (s.dram a)
  | .dramReply a u =>
    match s.fromDram a with
    | [] => .ok s
    | data::rest =>
      {s with fromDram:=Function.update s.fromDram a rest}.processDRAMReply a u data

end DirectorySystem

end Sniper.Coherence
