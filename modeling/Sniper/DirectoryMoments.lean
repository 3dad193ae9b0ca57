import Sniper.DirectoryController
import Sniper.DirectoryReplies
import Sniper.NotedRuns

/-!
# The moments of a run of the directory

The functions of the controller, with a note of each thing they do and the state before it. They
compute what the functions of the controller compute.
-/

namespace Sniper.Coherence
open FallibleRuns NotedRuns NotedRuns.Noted

inductive DirectoryEvent (n : ℕ) (δ : Type) where
  /-- a request is put at the end of the queue -/
  | arrive (address : ℕ) (request : ShmemReq n)
  /-- the work on the front request begins -/
  | start (address : ℕ)
  /-- a call of `getDirectoryEntry` -/
  | lookup (address : ℕ)
  /-- a call of `processDirectoryEntryAllocationReq` -/
  | allocate (address : ℕ)
  /-- a call of `replaceDirectoryEntry` -/
  | replace (victim address : ℕ)
  /-- the work on the front request, with the data that a cache sent -/
  | process (address : ℕ) (cached : Option δ) (u : Unspecified n δ)
  /-- a call of `invalidateDirectoryEntry` -/
  | invalidate (address : ℕ)
  /-- a call of `processNextReqFromL2Cache` -/
  | complete (address : ℕ)
  /-- a message of the directory reaches a cache -/
  | deliver (c : Fin n) (address : ℕ) (m : CacheMsg δ)

/-- Something the directory does, and the state before it. -/
structure Moment (n : ℕ) (δ : Type) where
  state : DirectorySystem n δ
  event : DirectoryEvent n δ

/-- A computation of the directory with its moments. -/
abbrev Watched (n : ℕ) (δ α : Type) := Noted (Moment n δ) Abort α

namespace DirectorySystem

variable {n : ℕ} {δ : Type}

section

variable (s : DirectorySystem n δ) (a : ℕ)

def nullifyNoted (requester : Fin n) : Watched n δ (DirectorySystem n δ) := do
  note ⟨s,.arrive a (.new .nullifyReq requester)⟩
  if (s.blocks a).queue=[] then
    let queued := {s.blocks a with queue:=[.new .nullifyReq requester]}
    note ⟨s.setBlock a queued,.start a⟩
    let (b,done) ← quiet queued.processNullifyReq
    if done then
      note ⟨s.setBlock a b,.invalidate a⟩
      note ⟨s.setBlock a b,.complete a⟩
      quiet ((s.setBlock a {b with queue:=b.queue.tail}).invalidateDirectoryEntry a)
    else pure (s.setBlock a b)
  else quiet (.error .assertion)

def processDirectoryEntryAllocationReqNoted (requester : Fin n) (forwarder : Option (Fin n)) :
    Watched n δ (DirectorySystem n δ) := do
  note ⟨s,.allocate a⟩
  let (candidates,s) := s.getReplacementCandidates a
  match s.replacementCandidate candidates with
  | none => quiet (.error .assertion)
  | some victim =>
    note ⟨s,.replace victim a⟩
    let s ← quiet (s.replaceDirectoryEntry victim a forwarder)
    s.nullifyNoted victim requester

def ensureEntryNoted (r : ShmemReq n) (forwarder : Option (Fin n)) : Watched n δ (DirectorySystem n δ) := do
  note ⟨s,.lookup a⟩
  let (found,s) := s.getDirectoryEntry a forwarder
  if found then pure s
  else if r.type = .nullifyReq then quiet (.error .assertion)
  else s.processDirectoryEntryAllocationReqNoted a r.requester forwarder

/-- The entry of a block that has been nullified is given up. -/
def releaseNoted (type : RequestType) : Watched n δ (DirectorySystem n δ) :=
  if type = .nullifyReq then do
    note ⟨s,.invalidate a⟩
    quiet (s.invalidateDirectoryEntry a)
  else pure s

end

def workNoted (a : ℕ) (u : ℕ → Unspecified n δ) :
    ℕ → Option δ → DirectorySystem n δ → Watched n δ (DirectorySystem n δ)
  | 0,_,_ => quiet (.error .unfinished)
  | k+1,cached,s =>
    match (s.blocks a).queue with
    | [] => quiet (.error .assertion)
    | r::_ => do
      let s ← s.ensureEntryNoted a r (u k).forwarder
      note ⟨s,.process a cached (u k)⟩
      let (b,done) ← quiet
        ((s.blocks a).processFront s.config (s.nuca.bind fun c => c.read a) (u k) cached)
      let s := s.setBlock a b
      if done then
        let s ← s.releaseNoted a r.type
        note ⟨s,.complete a⟩
        let s := s.setBlock a {s.blocks a with queue:=(s.blocks a).queue.tail}
        if (s.blocks a).queue=[] then pure s
        else
          note ⟨s,.start a⟩
          workNoted a u k none s
      else pure s

section

variable (s : DirectorySystem n δ)

def processNextReqFromL2CacheNoted (a : ℕ) (u : ℕ → Unspecified n δ) : Watched n δ (DirectorySystem n δ) := do
  note ⟨s,.complete a⟩
  let s := s.setBlock a {s.blocks a with queue:=(s.blocks a).queue.tail}
  if (s.blocks a).queue=[] then pure s
  else
    note ⟨s,.start a⟩
    workNoted a u (s.blocks a).queue.length none s

def noteRequest (m : DirectoryMsg δ) (event : RequestType → DirectoryEvent n δ) : Watched n δ Unit :=
  match m.request with
  | some type => note ⟨s,event type⟩
  | none => pure ()

def handleMsgFromL2CacheNoted (c : Fin n) (a : ℕ) (u : ℕ → Unspecified n δ) (m : DirectoryMsg δ) :
    Watched n δ (DirectorySystem n δ) := do
  let queued := (s.blocks a).queue.length+1
  note ⟨s,.lookup a⟩
  let (found,s) := s.getDirectoryEntry a (u queued).forwarder
  if m.isReply ∧ found=false then quiet (.error .assertion)
  else
    s.noteRequest m fun type => .arrive a (.new type c)
    let h ← quiet (((s.blocks a).popMessage c).handleMsgFromL2Cache c m)
    let s := s.setBlock a h.block
    let s ← quiet (match h.writeBack with
      | some data => s.sendDataToDram a data (u queued)
      | none => .ok s)
    match h.work with
    | some cached =>
      s.noteRequest m fun _ => .start a
      workNoted a u (s.blocks a).queue.length cached s
    | none => pure s

def processDRAMReplyNoted (a : ℕ) (u : ℕ → Unspecified n δ) (data : δ) : Watched n δ (DirectorySystem n δ) := do
  let queued := (s.blocks a).queue.length
  note ⟨s,.lookup a⟩
  let (found,s) := s.getDirectoryEntry a (u queued).forwarder
  if found then
    let b ← quiet ((s.blocks a).processDRAMReply data)
    let s ← quiet ((s.setBlock a b).sendDataToNUCA a data (u queued))
    s.processNextReqFromL2CacheNoted a u
  else quiet (.error .assertion)

def stepNoted : ProtocolStep n δ → Watched n δ (DirectorySystem n δ)
  | .deliver c a stack => do
    match ((s.blocks a).lines c).toCache with
    | [] => pure ()
    | m::_ => note ⟨s,.deliver c a m⟩
    quiet (s.step (.deliver c a stack))
  | .receive c a u =>
    match ((s.blocks a).lines c).toDirectory with
    | [] => pure s
    | m::_ => s.handleMsgFromL2CacheNoted c a u m
  | .dramReply a u =>
    match s.fromDram a with
    | [] => pure s
    | data::rest =>
      {s with fromDram:=Function.update s.fromDram a rest}.processDRAMReplyNoted a u data
  | .access c a exclusive => quiet (s.step (.access c a exclusive))
  | .store c a data => quiet (s.step (.store c a data))
  | .evict c a => quiet (s.step (.evict c a))
  | .dram a => quiet (s.step (.dram a))

end

section

variable (s : DirectorySystem n δ)
include s

theorem nullifyNoted_result (a : ℕ) (requester : Fin n) :
    (s.nullifyNoted a requester).result=s.nullify a requester := by
  rw [nullifyNoted,nullify,result_bind,result_note,ok_bind]
  split_ifs
  · rw [result_bind,result_note,ok_bind,result_bind,result_quiet]
    refine congrArg _ (funext fun x => ?_)
    obtain ⟨b,done⟩:=x
    cases done with
    | true => rfl
    | false => rfl
  · rfl

theorem processDirectoryEntryAllocationReqNoted_result (a : ℕ) (requester : Fin n)
    (forwarder : Option (Fin n)) : (s.processDirectoryEntryAllocationReqNoted a requester forwarder).result =
      s.processDirectoryEntryAllocationReq a requester forwarder := by
  rw [processDirectoryEntryAllocationReqNoted,processDirectoryEntryAllocationReq,result_bind,result_note,
    ok_bind]
  dsimp only
  cases (s.getReplacementCandidates a).2.replacementCandidate (s.getReplacementCandidates a).1 with
  | none => rfl
  | some victim =>
    dsimp only
    rw [result_bind,result_note,ok_bind,result_bind,result_quiet]
    exact congrArg _ (funext fun t => nullifyNoted_result t victim requester)

theorem ensureEntryNoted_result (a : ℕ) (r : ShmemReq n) (forwarder : Option (Fin n)) :
    (s.ensureEntryNoted a r forwarder).result=s.ensureEntry a r forwarder := by
  rw [ensureEntryNoted,ensureEntry,result_bind,result_note,ok_bind]
  dsimp only
  split_ifs
  · rfl
  · rfl
  · exact processDirectoryEntryAllocationReqNoted_result ..

theorem releaseNoted_result (a : ℕ) (type : RequestType) :
    (s.releaseNoted a type).result =
      if type = .nullifyReq then s.invalidateDirectoryEntry a else .ok s := by
  rw [releaseNoted]
  split_ifs
  · rfl
  · rfl

end

theorem workNoted_result (a : ℕ) (u : ℕ → Unspecified n δ) (k : ℕ) (cached : Option δ)
    (s : DirectorySystem n δ) : (workNoted a u k cached s).result=work a u k cached s := by
  induction k generalizing cached s with
  | zero => rfl
  | succ k ih =>
    rw [workNoted,work]
    cases (s.blocks a).queue with
    | nil => rfl
    | cons r rest =>
      dsimp only
      rw [result_bind,ensureEntryNoted_result]
      refine congrArg _ (funext fun s => ?_)
      rw [result_bind,result_note,ok_bind,result_bind,result_quiet]
      refine congrArg _ (funext fun x => ?_)
      obtain ⟨b,done⟩:=x
      cases done with
      | false => rfl
      | true =>
        simp only [if_true]
        rw [result_bind,releaseNoted_result]
        -- whether an entry is given up first, the rest is the same
        split_ifs
        all_goals
          refine congrArg _ (funext fun s => ?_)
          rw [result_bind,result_note,ok_bind]
          split_ifs
          · rfl
          · rw [result_bind,result_note,ok_bind,ih]

section

variable (s : DirectorySystem n δ)
include s

theorem processNextReqFromL2CacheNoted_result (a : ℕ) (u : ℕ → Unspecified n δ) :
    (s.processNextReqFromL2CacheNoted a u).result=s.processNextReqFromL2Cache a u := by
  rw [processNextReqFromL2CacheNoted,processNextReqFromL2Cache,result_bind,result_note,ok_bind]
  dsimp only
  split_ifs
  · rfl
  · rw [result_bind,result_note,ok_bind,workNoted_result]

theorem noteRequest_result (m : DirectoryMsg δ) (event : RequestType → DirectoryEvent n δ) :
    (s.noteRequest m event).result = .ok () := by
  rw [noteRequest]
  cases m.request with
  | none => rfl
  | some type => rfl

theorem handleMsgFromL2CacheNoted_result (c : Fin n) (a : ℕ) (u : ℕ → Unspecified n δ) (m : DirectoryMsg δ) :
    (s.handleMsgFromL2CacheNoted c a u m).result=s.handleMsgFromL2Cache c a u m := by
  rw [handleMsgFromL2CacheNoted,handleMsgFromL2Cache]
  dsimp only
  rw [result_bind,result_note,ok_bind]
  split_ifs
  · rfl
  · rw [result_bind,noteRequest_result,ok_bind,result_bind,result_quiet]
    refine congrArg _ (funext fun h => ?_)
    rw [result_bind,result_quiet]
    cases h.writeBack with
    | none =>
      cases h.work with
      | none => rfl
      | some cached =>
        simp only [ok_bind]
        rw [result_bind,noteRequest_result,ok_bind,workNoted_result]
    | some data =>
      refine congrArg _ (funext fun t => ?_)
      cases h.work with
      | none => rfl
      | some cached =>
        dsimp only
        rw [result_bind,noteRequest_result,ok_bind,workNoted_result]

theorem processDRAMReplyNoted_result (a : ℕ) (u : ℕ → Unspecified n δ) (data : δ) :
    (s.processDRAMReplyNoted a u data).result=s.processDRAMReply a u data := by
  rw [processDRAMReplyNoted,processDRAMReply]
  dsimp only
  rw [result_bind,result_note,ok_bind]
  split_ifs
  · rw [result_bind,result_quiet]
    refine congrArg _ (funext fun b => ?_)
    rw [result_bind,result_quiet]
    exact congrArg _ (funext fun t => processNextReqFromL2CacheNoted_result t a u)
  · rfl

theorem stepNoted_result (i : ProtocolStep n δ) : (s.stepNoted i).result=s.step i := by
  cases i with
  | deliver c a stack =>
    rw [stepNoted]
    cases ((s.blocks a).lines c).toCache with
    | nil => rfl
    | cons m rest => rfl
  | receive c a u =>
    rw [stepNoted,step]
    cases ((s.blocks a).lines c).toDirectory with
    | nil => rfl
    | cons m rest => exact handleMsgFromL2CacheNoted_result s c a u m
  | dramReply a u =>
    rw [stepNoted,step]
    cases s.fromDram a with
    | nil => rfl
    | cons data rest => exact processDRAMReplyNoted_result _ a u data
  | access c a exclusive => rfl
  | store c a data => rfl
  | evict c a => rfl
  | dram a => rfl

end

end DirectorySystem

end Sniper.Coherence
