import Sniper.BlockMessages

/-! # New entries and the queue of a block -/

namespace Sniper.Coherence
open FallibleRuns DirectoryEntry

variable {n : ℕ} {δ : Type}

/-- The block is being nullified. -/
def frontNullify (queue : List (ShmemReq n)) : Prop := ∃r,queue.head?=some r ∧ r.type = .nullifyReq

theorem DirectoryEntry.addSharer_room {e e' : DirectoryEntry n} {c : Fin n} {maxHwSharers : ℕ} {added : Bool}
    (hc : c∉e.sharers) (hroom : n ≤ maxHwSharers) (h : e.addSharer c maxHwSharers = .ok (added,e')) :
    added=true := by
  have hcard : e.sharers.card<n := by
    have := Finset.card_lt_univ_of_notMem hc
    rwa [Fintype.card_fin] at this
  rw [addSharer,if_neg hc,if_neg (by rw [numSharers]; omega)] at h
  cases h
  rfl

namespace Block

variable {b : Block n δ} {cfg : DirectoryConfig}

theorem Rests.withDram (h : b.Rests cfg) (toDram : List (DramMsg δ)) :
    ({b with toDram} : Block n δ).Rests cfg :=
  ⟨⟨h.proper,h.distinct,h.fresh⟩,h.fits,h.waits,h.forwarder⟩

theorem proper_new (maxHwSharers : ℕ) (forwarder : Option (Fin n)) :
    (DirectoryEntry.new forwarder).Proper maxHwSharers :=
  ⟨⟨fun _ => rfl,fun _ => rfl⟩,fun h => by simp [DirectoryEntry.new] at h,Nat.zero_le _⟩

theorem Fits.freshEntry {asks asks' : Fin n → Ask} (h : b.Fits asks) (hempty : b.entry.sharers = ∅)
    (forwarder : Option (Fin n)) : (b.withEntry (.new forwarder)).Fits asks' := by
  intro c
  have hold : c∉b.entry.sharers := by rw [hempty]; exact Finset.notMem_empty c
  have hnew : c∉(DirectoryEntry.new forwarder).sharers := Finset.notMem_empty c
  refine fits_of_role ?_ rfl (h c)
  exact (role_outside hnew).trans (role_outside hold).symm

theorem Rests.freshEntry (h : b.Rests cfg) (hu : b.entry.dstate = .uncached) (hqueue : b.queue=[])
    (forwarder : Option (Fin n)) : (b.withEntry (.new forwarder)).Rests cfg := by
  refine ⟨⟨proper_new _ _,h.distinct,h.fresh⟩,h.fits.freshEntry (h.proper.uncached.mp hu) _,fun r hr => ?_,
    fun _ hs => by cases hs⟩
  rw [show (b.withEntry (.new forwarder)).queue=[] from hqueue] at hr
  cases hr

theorem Ready.freshEntry {cached : Option δ} (h : b.Ready cfg cached) (hu : b.entry.dstate = .uncached)
    (forwarder : Option (Fin n)) : (b.withEntry (.new forwarder)).Ready cfg cached := by
  refine ⟨⟨proper_new _ _,h.distinct,h.fresh⟩,h.fits.freshEntry (h.proper.uncached.mp hu) _,fun r hr => ?_,
    fun _ => Or.inl rfl,fun _ hs => by cases hs⟩
  obtain ⟨hwait,hforwarding⟩:=h.pending r hr
  refine ⟨hwait,fun hf => ?_⟩
  have hs := (hforwarding hf).2.1
  rw [hu] at hs
  cases hs

section Idle

variable {cfg : DirectoryConfig} {b : Block n δ}

theorem Rests.settled (h : b.Rests cfg) (hqueue : b.queue=[]) : b.Settled cfg := by
  have hasked : asked b.entry b.queue=fun _ => .nothing := by
    rw [hqueue]
    rfl
  refine ⟨h.proper,h.distinct,fun r hr => ?_,hasked ▸ h.fits,fun hp hs => ?_⟩
  · rw [hqueue] at hr
    cases hr
  · rcases h.forwarder hp hs with hforwards | ⟨-,r,hr,-⟩
    · exact hforwards
    · rw [hqueue] at hr
      cases hr

theorem Settled.nullify (h : b.Settled cfg) (hqueue : b.queue=[]) (requester : Fin n) :
    ({b with queue:=[.new .nullifyReq requester]} : Block n δ).Ready cfg none := by
  refine ⟨⟨h.proper,List.pairwise_singleton _ _,fun r hr => by cases hr⟩,fun c => ?_,fun r hr => ?_,
    fun hc => absurd hc Bool.false_ne_true,fun hp hs _ => h.forwarder hp hs⟩
  · have hfits := h.fits c
    rw [hqueue] at hfits
    exact hfits
  · cases hr
    exact ⟨rfl,fun hf => absurd hf Bool.false_ne_true⟩

theorem rests_new (cfg : DirectoryConfig) (data : δ) :
    (⟨.new none,[],fun _ => .new data,[]⟩ : Block n δ).Rests cfg := by
  refine Settled.rests ⟨proper_new _ _,List.Pairwise.nil,fun r hr => (by cases hr),fun c => ?_,
    fun _ hs => by cases hs⟩ rfl
  have hout : (⟨.invalid,[],[],none,none⟩ : Shape)∈shapes .outside := by decide +kernel
  exact fits_of_role (role_outside (Finset.notMem_empty c)) rfl hout

theorem Rests.reply_cached (h : b.Rests cfg) {c : Fin n} {m : DirectoryMsg δ}
    (hmsg : (b.lines c).toDirectory.head?=some m) (hm : m.isReply=true) : b.entry.dstate ≠ .uncached := by
  refine h.proper.dstate_ne (c:=c) ?_
  cases m with
  | exReq | shReq | upgradeReq => cases hm
  | invRep =>
    obtain ⟨-,hout,haw,-⟩:=movesShapes.invRep _ _ (h.fits c) (head_outbox hmsg _)
    exact (sharer_of_role hout haw).1
  | flushRep data =>
    obtain ⟨-,hout,haw,-⟩:=movesShapes.flushRep _ _ (h.fits c) (head_outbox hmsg _)
    exact (sharer_of_role hout haw).1
  | wbRep data =>
    obtain ⟨r,hshares⟩:=h.shares (movesShapes.wbRep _ _ (h.fits c) (head_outbox hmsg _)).2
    exact hshares.sharer

end Idle

section Copies

variable {cfg : DirectoryConfig} {b : Block n δ} {c : Fin n}

variable (h : b.Rests cfg)
include h

theorem Rests.holds (hc : (b.lines c).state ≠ .invalid) : c∈b.entry.sharers ∧ awaited b.queue≠some c ∧
      b.entry.role (asked b.entry b.queue) (awaited b.queue) c =
        b.entry.dstate.holder (asked b.entry b.queue c) := by
  refine sharer_of_role (fun hout => hc ?_) fun haw => hc ?_
  · exact movesShapes.noCopy _ _ (h.fits c) (Or.inl hout)
  · exact movesShapes.noCopy _ _ (h.fits c) (Or.inr haw)

theorem Rests.mem_sharers (hc : (b.lines c).state ≠ .invalid) : c∈b.entry.sharers := (h.holds hc).1

theorem Rests.invRep_dstate (hmsg : (b.lines c).toDirectory.head?=some .invRep) :
    b.entry.dstate ≠ .modified ∧ b.entry.dstate ≠ .uncached := by
  obtain ⟨-,hout,haw,howner⟩:=movesShapes.invRep _ _ (h.fits c) (head_outbox hmsg _)
  obtain ⟨hmem,-,hrole⟩:=sharer_of_role hout haw
  refine ⟨fun hd => ?_,h.proper.dstate_ne hmem⟩
  rw [hrole,hd] at howner
  exact howner _ rfl

theorem Rests.upgradeRep_state (hmsg : (b.lines c).toCache.head?=some .upgradeRep) :
    (b.lines c).state ≠ .invalid := by
  intro hinvalid
  have hshape : ∀r,∀v∈shapes r,v.state = .invalid → v.inbox.head?≠some .upgradeRep := by
    decide +kernel
  obtain ⟨rest,hrest⟩:=List.head?_eq_some_iff.mp hmsg
  refine hshape _ _ (h.fits c) hinvalid ?_
  simp [Line.shape,live,hinvalid,hrest,CacheMsg.kind,CacheMsg.isRequest]

end Copies

section Queue

variable {cfg : DirectoryConfig} {nuca cached : Option δ} {b b' : Block n δ} {r : ShmemReq n}
  {rest : List (ShmemReq n)} {done : Bool}

/-- The queue keeps the type of its front request and all that is behind it. With room for
every cache no sharer has to make room. -/
def KeepsFront (cfg : DirectoryConfig) (b' : Block n δ) (r : ShmemReq n) (rest : List (ShmemReq n)) : Prop :=
  ∃r',b'.queue=r'::rest ∧ r'.type=r.type ∧ (n ≤ cfg.maxHwSharers → r'.overflow=r.overflow)

theorem retrieve_keepsFront {reply : δ → CacheMsg δ} {receiver : Fin n} (hqueue : b.queue=r::rest)
    (h : b.retrieveDataAndSendToL2Cache cfg nuca reply receiver cached = .ok (b',done)) :
    b'.KeepsFront cfg r rest := by
  unfold retrieveDataAndSendToL2Cache at h
  cases cached with
  | some d =>
    cases h
    exact ⟨r,hqueue,rfl,fun _ => rfl⟩
  | none =>
    cases nuca with
    | some d =>
      cases h
      exact ⟨r,hqueue,rfl,fun _ => rfl⟩
    | none =>
      simp only [hqueue] at h
      split at h
      · cases h
        exact ⟨_,rfl,rfl,fun _ => rfl⟩
      · cases h
        exact ⟨_,rfl,rfl,fun _ => rfl⟩

theorem sendOwner_queue {m : CacheMsg δ} (h : b.sendOwner m = .ok b') : b'.queue=b.queue := by
  unfold sendOwner at h
  split at h
  · cases h
    rfl
  · cases h

theorem asks_keepsFront {m : CacheMsg δ} (hqueue : b.queue=r::rest)
    (h : (do .ok (← b.sendOwner m,false) : Except Abort (Block n δ × Bool)) = .ok (b',done)) :
    b'.KeepsFront cfg r rest := by
  obtain ⟨b₁,hsend,h⟩:=bind_ok h
  cases h
  exact ⟨r,(sendOwner_queue hsend).trans hqueue,rfl,fun _ => rfl⟩

theorem processNullifyReq_keepsFront (hqueue : b.queue=r::rest) (h : b.processNullifyReq = .ok (b',done)) :
    b'.KeepsFront cfg r rest ∧ (done=true → b'=b ∧ b.entry.dstate = .uncached) := by
  unfold processNullifyReq at h
  cases hs : b.entry.dstate with
  | exclusive | modified =>
    simp only [hs] at h
    refine ⟨asks_keepsFront hqueue h,fun hdone => ?_⟩
    obtain ⟨b₁,-,h⟩:=bind_ok h
    cases h
    cases hdone
  | shared =>
    simp only [hs] at h
    cases h
    exact ⟨⟨r,(b.sendAll_frame _ _).2.1.trans hqueue,rfl,fun _ => rfl⟩,fun hdone => by cases hdone⟩
  | uncached =>
    simp only [hs] at h
    cases h
    exact ⟨⟨r,hqueue,rfl,fun _ => rfl⟩,fun _ => ⟨rfl,rfl⟩⟩

variable {q : ShmemReq n} {handled : Handled n δ}

section

variable (hqueue : b.queue=r::rest)
include hqueue

theorem processExReq_keepsFront (h : b.processExReqFromL2Cache cfg nuca q cached = .ok (b',done)) :
    b'.KeepsFront cfg r rest := by
  unfold processExReqFromL2Cache at h
  cases hs : b.entry.dstate with
  | exclusive | modified =>
    simp only [hs] at h
    split_ifs at h
    exact asks_keepsFront hqueue h
  | shared =>
    simp only [hs] at h
    split_ifs at h
    cases h
    exact ⟨r,(b.sendAll_frame _ _).2.1.trans hqueue,rfl,fun _ => rfl⟩
  | uncached =>
    simp only [hs] at h
    obtain ⟨e,-,h⟩:=bind_ok h
    exact retrieve_keepsFront (by exact hqueue) h

theorem processShReq_keepsFront {pick : ℕ}
    (h : b.processShReqFromL2Cache cfg nuca pick q cached = .ok (b',done)) : b'.KeepsFront cfg r rest := by
  unfold processShReqFromL2Cache at h
  cases hs : b.entry.dstate with
  | exclusive | modified =>
    simp only [hs] at h
    split_ifs at h
    exact asks_keepsFront hqueue h
  | shared =>
    simp only [hs] at h
    split_ifs at h with hmem
    · exact retrieve_keepsFront hqueue h
    · obtain ⟨⟨added,e⟩,hadd,h⟩:=bind_ok h
      dsimp only at h
      split_ifs at h with hadded
      · exact retrieve_keepsFront (by exact hqueue) h
      · obtain ⟨c,-,h⟩:=bind_ok h
        cases h
        refine ⟨{r with overflow:=some c},?_,rfl,fun hroom => absurd ?_ hadded⟩
        · rw [updateFront,hqueue]
          rfl
        · exact addSharer_room hmem hroom hadd
  | uncached =>
    simp only [hs] at h
    split_ifs at h
    all_goals
      obtain ⟨e,-,h⟩:=bind_ok h
      exact retrieve_keepsFront (by exact hqueue) h

theorem processUpgradeReq_keepsFront {freed : δ}
    (h : b.processUpgradeReqFromL2Cache cfg nuca freed q cached = .ok (b',done)) :
    b'.KeepsFront cfg r rest := by
  unfold processUpgradeReqFromL2Cache at h
  cases hs : b.entry.dstate with
  | exclusive | modified =>
    simp only [hs] at h
    split at h
    · cases h
    · split_ifs at h
      · cases h
        exact ⟨r,hqueue,rfl,fun _ => rfl⟩
      · exact asks_keepsFront hqueue h
  | shared =>
    simp only [hs] at h
    split_ifs at h
    · obtain ⟨e,-,h⟩:=bind_ok h
      cases h
      exact ⟨r,hqueue,rfl,fun _ => rfl⟩
    all_goals
      cases h
      exact ⟨r,(b.sendAll_frame _ _).2.1.trans hqueue,rfl,fun _ => rfl⟩
  | uncached =>
    simp only [hs] at h
    split_ifs at h
    all_goals
      obtain ⟨e,-,h⟩:=bind_ok h
      exact retrieve_keepsFront (by exact hqueue) h

theorem processFront_keepsFront {u : Unspecified n δ} (h : b.processFront cfg nuca u cached = .ok (b',done)) :
    b'.KeepsFront cfg r rest := by
  rw [processFront,hqueue] at h
  cases ht : r.type with
  | exReq =>
    simp only [ht] at h
    exact processExReq_keepsFront hqueue h
  | shReq =>
    simp only [ht] at h
    exact processShReq_keepsFront hqueue h
  | upgradeReq =>
    simp only [ht] at h
    exact processUpgradeReq_keepsFront hqueue h
  | nullifyReq =>
    simp only [ht] at h
    exact (processNullifyReq_keepsFront hqueue h).1

end

/-- What the directory needs to know of a queue, apart from the invariant of its block. -/
structure SameFront (queue queue' : List (ShmemReq n)) : Prop where
  reads : awaitedReads queue'=awaitedReads queue
  nullify : frontNullify queue' ↔ frontNullify queue
  overflow : (∀r,queue.head?=some r → r.overflow=none) →
    ∀r,queue'.head?=some r → r.overflow=none

section

variable (queue : List (ShmemReq n))

theorem SameFront.refl : SameFront queue queue := ⟨rfl,Iff.rfl,id⟩

theorem SameFront.saved (r : ShmemReq n) (rest : List (ShmemReq n)) :
    SameFront (r::rest) ({r with savedData:=true}::rest) := by
  refine ⟨rfl,?_,fun h r' hr' => ?_⟩
  · simp [frontNullify]
  · cases hr'
    exact h r rfl

theorem SameFront.append {type : RequestType} (ht : type ≠ .nullifyReq) (c : Fin n) :
    SameFront queue (queue++[.new type c]) := by
  cases queue with
  | nil =>
    refine ⟨rfl,?_,fun _ r hr => ?_⟩
    · simp [frontNullify,ShmemReq.new,ht]
    · cases hr
      rfl
  | cons r rest => exact ⟨rfl,Iff.rfl,id⟩

/-- What a message leaves of the queue. When it makes the directory work on the front request
nothing has been added behind it. -/
def KeepsQueue (handled : Handled n δ) : Prop :=
  SameFront queue handled.block.queue ∧
    (handled.work.isSome → handled.block.queue.tail=queue.tail)

end

theorem keepsQueue_of_eq (h : handled.block.queue=b.queue) : KeepsQueue b.queue handled :=
  ⟨h ▸ SameFront.refl _,fun _ => by rw [h]⟩

theorem flushed_keepsQueue (data : δ) (e : DirectoryEntry n) (b : Block n δ) :
    KeepsQueue b.queue (b.flushed data e) := by
  cases hqueue : b.queue with
  | nil =>
    have hidle : b.flushed data e=⟨b.withEntry e,some data,none⟩ := by rw [flushed,hqueue]
    rw [hidle,← hqueue]
    exact keepsQueue_of_eq rfl
  | cons r rest =>
    have hkeep : ∀writeBack work,KeepsQueue (r::rest) ⟨b.withEntry e,writeBack,work⟩ :=
      fun _ _ => hqueue ▸ keepsQueue_of_eq rfl
    rw [flushed,hqueue]
    cases ht : r.type with
    | exReq | shReq | nullifyReq =>
      simp only [ht]
      exact hkeep _ _
    | upgradeReq =>
      simp only [ht]
      split_ifs
      · exact hkeep _ _
      · exact ⟨by simpa only [ht] using SameFront.saved r rest,fun _ => rfl⟩

theorem handleMsg_keepsQueue {c : Fin n} {m : DirectoryMsg δ} (h : b.handleMsgFromL2Cache c m = .ok handled) :
    KeepsQueue b.queue handled := by
  cases m with
  | exReq | shReq | upgradeReq =>
    cases h
    refine ⟨SameFront.append b.queue (by decide) c,fun hwork => ?_⟩
    have hempty : b.queue=[] := by
      by_contra hne
      simp [enqueue,hne] at hwork
    simp [enqueue,hempty]
  | invRep =>
    rw [handleMsgFromL2Cache,processInvRepFromL2Cache] at h
    split_ifs at h
    obtain ⟨e,-,h⟩:=bind_ok h
    cases h
    exact keepsQueue_of_eq rfl
  | flushRep data =>
    rw [handleMsgFromL2Cache,processFlushRepFromL2Cache] at h
    obtain ⟨e,-,h⟩:=bind_ok h
    dsimp only at h
    split_ifs at h
    cases h
    exact flushed_keepsQueue data _ b
  | wbRep data =>
    rw [handleMsgFromL2Cache,processWbRepFromL2Cache] at h
    split_ifs at h
    split at h
    · cases h
    · split_ifs at h
      cases h
      exact keepsQueue_of_eq rfl

theorem handleMsg_request {c : Fin n} {m : DirectoryMsg δ} (h : b.handleMsgFromL2Cache c m = .ok handled)
    (hm : m.isReply=false) : handled.block.entry=b.entry ∧ (b.queue=[] → handled.work.isSome) := by
  cases m with
  | exReq | shReq | upgradeReq =>
    cases h
    exact ⟨rfl,fun hempty => by simp [enqueue,hempty]⟩
  | invRep | flushRep | wbRep => cases hm

/-- For a block that has no entry, or is losing it: the message is the first request, or it may end
the nullification. -/
def NeedsEntry (b : Block n δ) : DirectoryMsg δ → Prop
  | .exReq | .shReq | .upgradeReq => b.queue=[]
  | .invRep => b.entry.numSharers=1
  | .flushRep _ => True
  | .wbRep _ => False

theorem handleMsg_needsEntry {c : Fin n} {m : DirectoryMsg δ} (h : b.handleMsgFromL2Cache c m = .ok handled)
    (hwork : handled.work.isSome) (hfront : m.isReply=true → frontNullify b.queue) : b.NeedsEntry m := by
  cases m with
  | exReq | shReq | upgradeReq =>
    cases h
    by_contra hne
    simp [enqueue,show b.queue≠[] from hne] at hwork
  | invRep =>
    obtain ⟨r,hr,ht⟩ := hfront rfl
    rw [handleMsgFromL2Cache,processInvRepFromL2Cache] at h
    split_ifs at h with hd
    obtain ⟨e,he,h⟩ := bind_ok h
    cases h
    rw [removeSharer] at he
    split_ifs at he with hc
    cases he
    -- the entry was cached before, so it has lost its last sharer
    have hone : (b.entry.sharers.erase c).card=0 := by
      by_contra hmore
      rcases hd with hd | hd <;>
        simp [hr,ShmemReq.wokenBy,ht,forgetForwarder,uncacheIfEmpty,numSharers,hmore,hd] at hwork
    rw [Finset.card_erase_of_mem hc] at hone
    have hpos := Finset.card_pos.mpr ⟨c,hc⟩
    exact le_antisymm (Nat.le_of_sub_eq_zero hone) hpos
  | flushRep data => trivial
  | wbRep data =>
    obtain ⟨r,hr,ht⟩ := hfront rfl
    rw [handleMsgFromL2Cache,processWbRepFromL2Cache] at h
    split_ifs at h
    split at h
    · cases h
    · next q rest hqueue =>
      rw [hqueue] at hr
      cases hr
      rw [ht] at h
      cases h

end Queue

end Block

end Sniper.Coherence
