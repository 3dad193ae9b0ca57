import Sniper.DirectorySafety

/-!
# The forwarder of a shared block

The forwarder of a new entry is whatever the memory held. The functions that handle a request
note each call of `retrieveDataAndSendToL2Cache` here.
-/

namespace Sniper.Coherence
open FallibleRuns NotedRuns NotedRuns.Noted

variable {n : ℕ} {δ : Type}

/-- A call of `retrieveDataAndSendToL2Cache`: the block and the data that a cache sent. -/
structure Retrieval (n : ℕ) (δ : Type) where
  block : Block n δ
  cached : Option δ

namespace Block

variable {cfg : DirectoryConfig} {nuca cached : Option δ} {b : Block n δ} {r : ShmemReq n}

section

variable (cfg) (nuca)

def retrieveDataAndSendToL2CacheNoted (reply : δ → CacheMsg δ) (receiver : Fin n) (cached : Option δ)
    (b : Block n δ) : Noted (Retrieval n δ) Abort (Block n δ × Bool) := do
  note ⟨b,cached⟩
  quiet (b.retrieveDataAndSendToL2Cache cfg nuca reply receiver cached)

def processExReqFromL2CacheNoted (r : ShmemReq n) (cached : Option δ) (b : Block n δ) :
    Noted (Retrieval n δ) Abort (Block n δ × Bool) :=
  match b.entry.dstate with
  | .uncached => do
    let e ← quiet (b.entry.take r.requester cfg.maxHwSharers .modified)
    (b.withEntry e).retrieveDataAndSendToL2CacheNoted cfg nuca .exRep r.requester cached
  | .exclusive | .modified | .shared => quiet (b.processExReqFromL2Cache cfg nuca r cached)

def processShReqFromL2CacheNoted (pick : ℕ) (r : ShmemReq n) (cached : Option δ) (b : Block n δ) :
    Noted (Retrieval n δ) Abort (Block n δ × Bool) :=
  match b.entry.dstate with
  | .shared =>
    if r.requester∈b.entry.sharers then
      b.retrieveDataAndSendToL2CacheNoted cfg nuca .shRep r.requester cached
    else do
      let (added,e) ← quiet (b.entry.addSharer r.requester cfg.maxHwSharers)
      if added then
        (b.withEntry e).retrieveDataAndSendToL2CacheNoted cfg nuca .shRep r.requester cached
      else
        let c ← quiet (b.entry.getOneSharer pick)
        pure ((b.updateFront fun r => {r with overflow:=some c}).send c .invReq,false)
  | .uncached =>
    if cfg.protocol = .msi then do
      let e ← quiet (b.entry.take r.requester cfg.maxHwSharers .shared)
      (b.withEntry e).retrieveDataAndSendToL2CacheNoted cfg nuca .shRep r.requester cached
    else do
      let e ← quiet (b.entry.take r.requester cfg.maxHwSharers .exclusive)
      (b.withEntry e).retrieveDataAndSendToL2CacheNoted cfg nuca .exRep r.requester cached
  | .exclusive | .modified => quiet (b.processShReqFromL2Cache cfg nuca pick r cached)

def processUpgradeReqFromL2CacheNoted (freed : δ) (r : ShmemReq n) (cached : Option δ) (b : Block n δ) :
    Noted (Retrieval n δ) Abort (Block n δ × Bool) :=
  match b.entry.dstate with
  | .uncached =>
    if b.entry.numSharers=0 then do
      let e ← quiet (b.entry.take r.requester cfg.maxHwSharers .modified)
      let cached := cached.or (if r.savedData then some freed else none)
      (b.withEntry e).retrieveDataAndSendToL2CacheNoted cfg nuca .exRep r.requester cached
    else quiet (.error .assertion)
  | .exclusive | .modified | .shared => quiet (b.processUpgradeReqFromL2Cache cfg nuca freed r cached)

def processFrontNoted (u : Unspecified n δ) (cached : Option δ) (b : Block n δ) :
    Noted (Retrieval n δ) Abort (Block n δ × Bool) :=
  match b.queue with
  | [] => quiet (.error .assertion)
  | r::_ =>
    match r.type with
    | .exReq => b.processExReqFromL2CacheNoted cfg nuca r cached
    | .shReq => b.processShReqFromL2CacheNoted cfg nuca u.pick r cached
    | .upgradeReq => b.processUpgradeReqFromL2CacheNoted cfg nuca u.freed r cached
    | .nullifyReq => quiet b.processNullifyReq

end

theorem processExReqNoted_result : (b.processExReqFromL2CacheNoted cfg nuca r cached).result =
    b.processExReqFromL2Cache cfg nuca r cached := by
  rw [processExReqFromL2CacheNoted]
  cases hs : b.entry.dstate with
  | uncached =>
    dsimp only
    rw [result_bind,result_quiet,processExReqFromL2Cache,hs]
    rfl
  | exclusive | modified | shared => rfl

theorem processShReqNoted_result {pick : ℕ} : (b.processShReqFromL2CacheNoted cfg nuca pick r cached).result =
      b.processShReqFromL2Cache cfg nuca pick r cached := by
  rw [processShReqFromL2CacheNoted]
  cases hs : b.entry.dstate with
  | shared =>
    dsimp only
    rw [processShReqFromL2Cache,hs]
    dsimp only
    split_ifs
    · rfl
    · rw [result_bind,result_quiet]
      refine congrArg _ (funext fun x => ?_)
      obtain ⟨added,e⟩:=x
      cases added with
      | true => rfl
      | false =>
        dsimp only
        rw [if_neg Bool.false_ne_true,if_neg Bool.false_ne_true,result_bind,result_quiet]
        rfl
  | uncached =>
    dsimp only
    rw [processShReqFromL2Cache,hs]
    dsimp only
    split_ifs
    · rw [result_bind,result_quiet]
      rfl
    · rw [result_bind,result_quiet]
      rfl
  | exclusive | modified => rfl

theorem processUpgradeReqNoted_result {freed : δ} :
    (b.processUpgradeReqFromL2CacheNoted cfg nuca freed r cached).result =
      b.processUpgradeReqFromL2Cache cfg nuca freed r cached := by
  rw [processUpgradeReqFromL2CacheNoted]
  cases hs : b.entry.dstate with
  | uncached =>
    dsimp only
    rw [processUpgradeReqFromL2Cache,hs]
    dsimp only
    by_cases hsharers : b.entry.numSharers=0
    · rw [if_pos hsharers,if_pos hsharers,result_bind,result_quiet]
      rfl
    · rw [if_neg hsharers,if_neg hsharers,result_quiet]
  | exclusive | modified | shared => rfl

theorem processFrontNoted_result {u : Unspecified n δ} :
    (b.processFrontNoted cfg nuca u cached).result=b.processFront cfg nuca u cached := by
  rw [processFrontNoted,processFront]
  cases b.queue with
  | nil => rfl
  | cons r rest =>
    dsimp only
    cases r.type with
    | exReq => exact processExReqNoted_result
    | shReq => exact processShReqNoted_result
    | upgradeReq => exact processUpgradeReqNoted_result
    | nullifyReq => rfl

/-- The forwarder is looked at: no cache has sent the data, the NUCA cache has none, and no
sharer has been asked for it yet. -/
def looksAtForwarder (cfg : DirectoryConfig) (nuca : Option δ) (x : Retrieval n δ) : Bool :=
  x.cached.isNone && nuca.isNone && cfg.protocol = .mesif &&
    x.block.queue.head?.any (fun r => r.forwardingFrom=none) && x.block.entry.dstate = .shared

/-- Wherever the forwarder is looked at, it shares the block. -/
abbrev LooksValidly (cfg : DirectoryConfig) (nuca : Option δ) {α : Type}
    (x : Noted (Retrieval n δ) Abort α) : Prop :=
  x.Meets (fun y => looksAtForwarder cfg nuca y=true → y.block.entry.ForwardsShared) (fun _ => True) True

theorem take_dstate {e e' : DirectoryEntry n} {c : Fin n} {maxHwSharers : ℕ} {dstate : DirectoryState}
    (h : e.take c maxHwSharers dstate = .ok e') : e'.dstate=dstate := by
  obtain ⟨⟨added,e₁⟩,-,h⟩:=bind_ok h
  dsimp only at h
  split_ifs at h
  obtain ⟨e₂,-,h⟩:=bind_ok h
  cases h
  rfl

theorem retrieveNoted_of_ne {reply : δ → CacheMsg δ} {receiver : Fin n} (h : b.entry.dstate ≠ .shared) :
    LooksValidly cfg nuca (b.retrieveDataAndSendToL2CacheNoted cfg nuca reply receiver cached) := by
  refine .note_bind (fun hlooks => ?_) (meets_anyhow _)
  simp [looksAtForwarder,h] at hlooks

theorem retrieveNoted_of_shares {reply : δ → CacheMsg δ} {receiver : Fin n}
    (h : cached=none → cfg.protocol = .mesif → b.entry.ForwardsShared) :
    LooksValidly cfg nuca (b.retrieveDataAndSendToL2CacheNoted cfg nuca reply receiver cached) := by
  refine .note_bind (fun hlooks => ?_) (meets_anyhow _)
  simp [looksAtForwarder] at hlooks
  exact h hlooks.1.1.1.1 hlooks.1.1.2

theorem Ready.processFrontNoted (h : b.Ready cfg cached) (nuca : Option δ) (u : Unspecified n δ) :
    LooksValidly cfg nuca (b.processFrontNoted cfg nuca u cached) := by
  have hquiet : ∀x : Except Abort (Block n δ × Bool),LooksValidly (n:=n) cfg nuca (quiet x) :=
    fun x => meets_anyhow _
  -- a requester that takes the block makes it exclusive or modified
  have htake : ∀ {r : ShmemReq n} {dstate : DirectoryState} {reply : δ → CacheMsg δ} {data : Option δ},
      dstate ≠ .shared → LooksValidly cfg nuca (do
        let e ← quiet (b.entry.take r.requester cfg.maxHwSharers dstate)
        (b.withEntry e).retrieveDataAndSendToL2CacheNoted cfg nuca reply r.requester data) :=
    fun hne => .quiet_bind (yields_of_ok trivial fun _ hok => take_dstate hok) fun e _ hdstate =>
      retrieveNoted_of_ne (by rw [show (b.withEntry e).entry=e from rfl,hdstate]; exact hne)
  rw [Block.processFrontNoted]
  cases b.queue with
  | nil => exact hquiet _
  | cons r rest =>
    dsimp only
    cases r.type with
    | exReq =>
      dsimp only
      rw [processExReqFromL2CacheNoted]
      cases b.entry.dstate with
      | uncached => exact htake (by decide)
      | exclusive | modified | shared => exact hquiet _
    | upgradeReq =>
      dsimp only
      rw [processUpgradeReqFromL2CacheNoted]
      cases b.entry.dstate with
      | uncached =>
        dsimp only
        by_cases hsharers : b.entry.numSharers=0
        · rw [if_pos hsharers]
          exact htake (by decide)
        · rw [if_neg hsharers]
          exact hquiet _
      | exclusive | modified | shared => exact hquiet _
    | nullifyReq => exact hquiet _
    | shReq =>
      dsimp only
      rw [processShReqFromL2CacheNoted]
      cases hs : b.entry.dstate with
      | exclusive | modified => exact hquiet _
      | uncached =>
        dsimp only
        split_ifs with hp
        · refine .ok_bind fun e _ =>
            retrieveNoted_of_shares fun _ hmesif => ?_
          rw [hp] at hmesif
          cases hmesif
        · exact htake (by decide)
      | shared =>
        dsimp only
        split_ifs
        · exact retrieveNoted_of_shares fun hcached hp => h.forwarder hp hs hcached
        · refine .ok_bind fun ⟨added,e⟩ hadd => ?_
          dsimp only
          split_ifs with hadded
          · refine retrieveNoted_of_shares fun hcached hp c hc => ?_
            rw [DirectoryEntry.addSharer] at hadd
            split_ifs at hadd
            · cases hadd
              cases hadded
            · cases hadd
              exact Finset.mem_insert_of_mem (h.forwarder hp hs hcached c hc)
          · exact .ok_bind fun c _ => meets_pure trivial

end Block

namespace DirectorySystem

def consulted (m : Moment n δ) : List (DirectoryEntry n) :=
  match m.event with
  | .process a cached u =>
    let nuca := m.state.nuca.bind fun c => c.read a
    (((m.state.blocks a).processFrontNoted m.state.config nuca u cached).notes.filter
      (Block.looksAtForwarder m.state.config nuca)).map fun x => x.block.entry
  | _ => []

theorem Prepared.consulted {cfg : DirectoryConfig} {m : Moment n δ} (h : Prepared cfg m) :
    ∀e∈consulted m,e.ForwardsShared := by
  rw [DirectorySystem.consulted]
  split
  · next a cached u hevent =>
    obtain ⟨hconfig,hready⟩:=h a cached u hevent
    intro e he
    obtain ⟨x,hx,rfl⟩:=List.mem_map.mp he
    obtain ⟨hx,hlooks⟩:=List.mem_filter.mp hx
    rw [hconfig] at hx hlooks
    exact (hready.processFrontNoted _ u).notes x hx hlooks
  · exact fun e he => absurd he List.not_mem_nil

/-- Whenever the forwarder of a shared block is looked at it is a sharer, if there is one. A new
entry may have any forwarder, even a cache that never asks for anything. -/
theorem run_forwarder_shares (associativity : ℕ) (setIndex pointers : ℕ → ℕ) (nuca : Option (NucaCache δ))
    (memory : ℕ → δ) (hways : ∀c∈nuca,0<c.associativity) (steps : List (ProtocolStep n δ)) :
    ∀m∈(runNoted stepNoted (new ⟨.mesif,n⟩ associativity setIndex pointers nuca memory) steps).notes,
      ∀e∈consulted m,e.forwarder=none ∨ ∃c,e.forwarder=some c ∧ c∈e.sharers := by
  have hrun : (runNoted stepNoted (new ⟨.mesif,n⟩ associativity setIndex pointers nuca memory) steps).Meets
      (Prepared ⟨.mesif,n⟩) (fun s => s.Inv ⟨.mesif,n⟩) True :=
    runNoted_meets (G:=fun _ _ => True) stepNoted_result
      (fun s i hs _ => hs.stepNoted (fun hn => hn) (Or.inr trivial) (hs.tied le_rfl i))
      (inv_new ⟨.mesif,n⟩ associativity setIndex pointers hways memory)
      (along_of_forall (fun _ _ => trivial) _ steps)
  intro m hm e he
  have hshares := (hrun.notes m hm).consulted e he
  cases hforwarder : e.forwarder with
  | none => exact Or.inl rfl
  | some c => exact Or.inr ⟨c,rfl,hshares c hforwarder⟩

/-- Cache 1 gets the data from cache 0, and is asked for it when cache 2 reads the block. -/
def forwarding [NeZero n] : List (ProtocolStep n ℕ) :=
  .flatten [fetch 0 0 false,[.access 1 0 false,.receive 1 0 plain,.deliver 0 0 0,.receive 0 0 plain,
    .deliver 1 0 0,.access 2 0 false,.receive 2 0 plain]]

theorem run_forwarder_shares_forwarding : ∃m∈(runNoted stepNoted (oneEntry 3 .mesif 3) forwarding).notes,
      ∃e∈consulted m,e.forwarder=some 1 ∧ (e.forwarder=none ∨ ∃c,e.forwarder=some c ∧ c∈e.sharers) := by
  have hconsulted : ((runNoted stepNoted (oneEntry 3 .mesif 3) forwarding).notes.flatMap consulted).map
      DirectoryEntry.forwarder=[some 1] := by decide +kernel
  have hmem : some 1∈((runNoted stepNoted (oneEntry 3 .mesif 3) forwarding).notes.flatMap consulted).map
      DirectoryEntry.forwarder := by
    rw [hconsulted]
    exact List.mem_cons_self
  obtain ⟨e,he,hforwarder⟩:=List.mem_map.mp hmem
  obtain ⟨m,hm,he⟩:=List.mem_flatMap.mp he
  exact ⟨m,hm,e,he,hforwarder,run_forwarder_shares 1 (fun _ => 0) (fun _ => 0) none (fun _ => 0)
    (fun _ h => by cases h) forwarding m hm e he⟩

end DirectorySystem

end Sniper.Coherence
