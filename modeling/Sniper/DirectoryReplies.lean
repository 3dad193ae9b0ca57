import Sniper.DirectoryMessages
import Sniper.BlockInvariant

/-!
# What becomes of the requests of a block

The work on the front request ends with one reply to its requester or sends no reply at all.
-/

namespace Sniper.Coherence
open FallibleRuns List

variable {n : ℕ} {δ : Type}

def ShmemReq.kind (r : ShmemReq n) : RequestType × Fin n := (r.type,r.requester)

def kinds (queue : List (ShmemReq n)) : List (RequestType × Fin n) := queue.map ShmemReq.kind

def DirectoryMsg.request : DirectoryMsg δ → Option RequestType
  | .exReq => some .exReq
  | .shReq => some .shReq
  | .upgradeReq => some .upgradeReq
  | .invRep | .flushRep _ | .wbRep _ => none

def CacheMsg.isReply : CacheMsg δ → Bool
  | .exRep _ | .shRep _ | .upgradeRep => true
  | .invReq | .flushReq | .wbReq => false

/-- The replies to a request. A reader of a block without a copy may get it `EXCLUSIVE`, and a
cache that has lost its copy gets the data instead of an upgrade. -/
def CacheMsg.Answers (type : RequestType) : CacheMsg δ → Prop
  | .exRep _ => type ≠ .nullifyReq
  | .shRep _ => type = .shReq
  | .upgradeRep => type = .upgradeReq
  | .invReq | .flushReq | .wbReq => False

def Line.replies (l : Line δ) : List (CacheMsg δ) := l.toCache.filter CacheMsg.isReply

namespace Block

variable {cfg : DirectoryConfig} {nuca cached : Option δ} {b b' : Block n δ} {r : ShmemReq n}
  {rest : List (ShmemReq n)} {done : Bool}

/-- No cache has been sent a reply. -/
def Silent (b b' : Block n δ) : Prop := ∀c,(b'.lines c).replies=(b.lines c).replies

/-- The requester, and no other cache, has been sent one reply. -/
def Answered (r : ShmemReq n) (b b' : Block n δ) : Prop :=
  ∃m : CacheMsg δ,m.Answers r.type ∧
    ∀c,(b'.lines c).replies=(b.lines c).replies++if r.requester=c then [m] else []

/-- The work on a request keeps the queue. It ends with a reply, or with none if there is no
requester to answer. -/
structure Serves (r : ShmemReq n) (b b' : Block n δ) (done : Bool) : Prop where
  kinds : kinds b'.queue=kinds b.queue
  waiting : done=false → b.Silent b'
  answered : done=true → r.type ≠ .nullifyReq → b.Answered r b'
  nullified : done=true → r.type = .nullifyReq → b.Silent b'

theorem replies_send (b : Block n δ) (c d : Fin n) (m : CacheMsg δ) :
    ((b.send c m).lines d).replies =
      (b.lines d).replies++if c=d then [m].filter CacheMsg.isReply else [] := by
  rw [send_lines]
  by_cases h : c=d
  · rw [if_pos h.symm,if_pos h,Line.replies,Line.receive,filter_append]
    rfl
  · rw [if_neg (Ne.symm h),if_neg h,append_nil]

theorem silent_send {c : Fin n} {m : CacheMsg δ} (hm : m.isReply=false) : b.Silent (b.send c m) := by
  intro d
  rw [replies_send,filter_cons_of_neg (by simp [hm])]
  simp

theorem answered_send {m : CacheMsg δ} (hm : m.Answers r.type) (h : ∀c,b'.lines c=b.lines c) :
    b.Answered r (b'.send r.requester m) := by
  have hreply : m.isReply=true := by
    cases m with
    | exRep | shRep | upgradeRep => rfl
    | invReq | flushReq | wbReq => exact absurd hm id
  refine ⟨m,hm,fun c => ?_⟩
  rw [replies_send,h,filter_cons_of_pos hreply]
  rfl

theorem Silent.trans {b'' : Block n δ} (h : b.Silent b') (h' : b'.Silent b'') : b.Silent b'' :=
  fun c => (h' c).trans (h c)

theorem silent_sendAll {m : Fin n → CacheMsg δ} (hm : ∀c,(m c).isReply=false) (cs : List (Fin n)) :
    b.Silent (b.sendAll m cs) := by
  induction cs generalizing b with
  | nil => exact fun _ => rfl
  | cons c cs ih => exact (silent_send (hm c)).trans ih

theorem Serves.of_silent (hkinds : Coherence.kinds b'.queue=Coherence.kinds b.queue) (h : b.Silent b') :
    Serves r b b' false :=
  ⟨hkinds,fun _ => h,fun hdone => absurd hdone (by decide),fun hdone => absurd hdone (by decide)⟩

theorem Serves.of_answered (hkinds : Coherence.kinds b'.queue=Coherence.kinds b.queue) (h : b.Answered r b') :
    Serves r b b' true := by
  refine ⟨hkinds,fun hdone => absurd hdone (by decide),fun _ _ => h,fun _ ht => ?_⟩
  obtain ⟨m,hm,-⟩:=h
  cases m with
  | exRep => exact absurd ht hm
  | shRep | upgradeRep =>
    rw [show r.type=_ from hm] at ht
    cases ht
  | invReq | flushReq | wbReq => exact absurd hm id

theorem sendOwner_serves {m : CacheMsg δ} (hm : m.isReply=false)
    (h : (do .ok (← b.sendOwner m,false) : Except Abort (Block n δ × Bool)) = .ok (b',done)) :
    Serves r b b' done := by
  obtain ⟨b₁,hsend,h⟩:=bind_ok h
  cases h
  rw [sendOwner] at hsend
  cases howner : b.entry.owner with
  | none =>
    rw [howner] at hsend
    cases hsend
  | some c =>
    rw [howner] at hsend
    cases hsend
    exact .of_silent rfl (silent_send hm)

theorem retrieve_serves {reply : δ → CacheMsg δ} (hreply : ∀data,(reply data).Answers r.type) {x : Block n δ}
    (hkinds : kinds x.queue=kinds b.queue) (hlines : x.lines=b.lines)
    (h : x.retrieveDataAndSendToL2Cache cfg nuca reply r.requester cached = .ok (b',done)) :
    Serves r b b' done := by
  have hsame : ∀c,x.lines c=b.lines c := fun c => by rw [hlines]
  have hsilent : b.Silent x := fun c => by rw [hsame]
  unfold retrieveDataAndSendToL2Cache at h
  cases cached with
  | some data =>
    cases h
    exact .of_answered hkinds (answered_send (hreply data) hsame)
  | none =>
    cases nuca with
    | some data =>
      cases h
      exact .of_answered hkinds (answered_send (hreply data) hsame)
    | none =>
      cases hqueue : x.queue with
      | nil =>
        simp only [hqueue] at h
        cases h
      | cons q queue =>
        simp only [hqueue] at h
        cases hforward : x.forwardsFrom cfg q with
        | some c =>
          simp only [hforward] at h
          cases h
          refine .of_silent ?_ (hsilent.trans (silent_send rfl))
          rw [← hkinds,hqueue]
          rfl
        | none =>
          simp only [hforward] at h
          cases h
          refine .of_silent ?_ hsilent
          rw [← hkinds,hqueue]
          rfl

theorem processExReq_serves (ht : r.type = .exReq)
    (h : b.processExReqFromL2Cache cfg nuca r cached = .ok (b',done)) : Serves r b b' done := by
  unfold processExReqFromL2Cache at h
  cases hs : b.entry.dstate with
  | exclusive | modified =>
    simp only [hs] at h
    split_ifs at h
    exact sendOwner_serves rfl h
  | shared =>
    simp only [hs] at h
    split_ifs at h
    cases h
    exact .of_silent (by rw [(b.sendAll_frame _ _).2.1]) (silent_sendAll (fun _ => rfl) _)
  | uncached =>
    simp only [hs] at h
    obtain ⟨e,-,h⟩:=bind_ok h
    exact retrieve_serves (x:=b.withEntry e) (fun _ => by simp [CacheMsg.Answers,ht]) rfl rfl h

theorem processShReq_serves {pick : ℕ} (ht : r.type = .shReq)
    (h : b.processShReqFromL2Cache cfg nuca pick r cached = .ok (b',done)) : Serves r b b' done := by
  have hsh : ∀data : δ,(CacheMsg.shRep data).Answers r.type := fun _ => ht
  have hex : ∀data : δ,(CacheMsg.exRep data).Answers r.type := fun _ => by simp [CacheMsg.Answers,ht]
  unfold processShReqFromL2Cache at h
  cases hs : b.entry.dstate with
  | exclusive | modified =>
    simp only [hs] at h
    split_ifs at h
    exact sendOwner_serves rfl h
  | shared =>
    simp only [hs] at h
    split_ifs at h with hmem
    · exact retrieve_serves hsh rfl rfl h
    · obtain ⟨⟨added,e⟩,-,h⟩:=bind_ok h
      dsimp only at h
      split_ifs at h
      · exact retrieve_serves (x:=b.withEntry e) hsh rfl rfl h
      · obtain ⟨c,-,h⟩:=bind_ok h
        cases h
        have hfront : kinds (b.updateFront fun r => {r with overflow:=some c}).queue=kinds b.queue ∧
            (b.updateFront fun r => {r with overflow:=some c}).lines=b.lines := by
          cases hqueue : b.queue <;> simp [updateFront,hqueue,kinds,ShmemReq.kind]
        refine .of_silent hfront.1 (Silent.trans (fun d => ?_) (silent_send rfl))
        rw [hfront.2]
  | uncached =>
    simp only [hs] at h
    split_ifs at h
    · obtain ⟨e,-,h⟩:=bind_ok h
      exact retrieve_serves (x:=b.withEntry e) hsh rfl rfl h
    · obtain ⟨e,-,h⟩:=bind_ok h
      exact retrieve_serves (x:=b.withEntry e) hex rfl rfl h

theorem processUpgradeReq_serves {freed : δ} (ht : r.type = .upgradeReq)
    (h : b.processUpgradeReqFromL2Cache cfg nuca freed r cached = .ok (b',done)) : Serves r b b' done := by
  have hupgrade : (CacheMsg.upgradeRep : CacheMsg δ).Answers r.type := ht
  have hex : ∀data : δ,(CacheMsg.exRep data).Answers r.type := fun _ => by simp [CacheMsg.Answers,ht]
  unfold processUpgradeReqFromL2Cache at h
  cases hs : b.entry.dstate with
  | exclusive | modified =>
    simp only [hs] at h
    split at h
    · cases h
    · split_ifs at h
      · cases h
        exact .of_answered rfl (answered_send hupgrade fun _ => rfl)
      · exact sendOwner_serves rfl h
  | shared =>
    simp only [hs] at h
    by_cases hsharers : b.entry.sharersList=[r.requester]
    · rw [if_pos hsharers] at h
      obtain ⟨e,-,h⟩:=bind_ok h
      cases h
      exact .of_answered rfl (answered_send hupgrade fun _ => rfl)
    · rw [if_neg hsharers] at h
      cases h
      refine .of_silent (by rw [(b.sendAll_frame _ _).2.1]) (silent_sendAll (fun c => ?_) _)
      split_ifs <;> rfl
  | uncached =>
    simp only [hs] at h
    split_ifs at h
    all_goals
      obtain ⟨e,-,h⟩:=bind_ok h
      exact retrieve_serves (x:=b.withEntry e) hex rfl rfl h

theorem processNullifyReq_serves (ht : r.type = .nullifyReq) (h : b.processNullifyReq = .ok (b',done)) :
    Serves r b b' done := by
  unfold processNullifyReq at h
  cases hs : b.entry.dstate with
  | exclusive | modified =>
    simp only [hs] at h
    exact sendOwner_serves rfl h
  | shared =>
    simp only [hs] at h
    cases h
    exact .of_silent (by rw [(b.sendAll_frame _ _).2.1]) (silent_sendAll (fun _ => rfl) _)
  | uncached =>
    simp only [hs] at h
    cases h
    exact ⟨rfl,fun hdone => absurd hdone (by decide),fun _ hne => absurd ht hne,fun _ _ _ => rfl⟩

theorem processFront_serves {u : Unspecified n δ} (hqueue : b.queue=r::rest)
    (h : b.processFront cfg nuca u cached = .ok (b',done)) : Serves r b b' done := by
  rw [processFront,hqueue] at h
  cases ht : r.type with
  | exReq =>
    simp only [ht] at h
    exact processExReq_serves ht h
  | shReq =>
    simp only [ht] at h
    exact processShReq_serves ht h
  | upgradeReq =>
    simp only [ht] at h
    exact processUpgradeReq_serves ht h
  | nullifyReq =>
    simp only [ht] at h
    exact processNullifyReq_serves ht h

theorem flushed_kinds (data : δ) (e : DirectoryEntry n) (b : Block n δ) :
    kinds (b.flushed data e).block.queue=kinds b.queue ∧ (b.flushed data e).block.lines=b.lines ∧
      ((b.flushed data e).work.isSome → (b.flushed data e).block.queue≠[]) := by
  rw [flushed]
  cases hqueue : b.queue with
  | nil => exact ⟨congrArg kinds hqueue,rfl,fun hwork => absurd hwork Bool.false_ne_true⟩
  | cons r rest =>
    have hkeep : kinds (b.withEntry e).queue=kinds (r::rest) ∧ (b.withEntry e).queue≠[] := by
      rw [show (b.withEntry e).queue=r::rest from hqueue]
      exact ⟨rfl,cons_ne_nil r rest⟩
    cases ht : r.type with
    | exReq | shReq | nullifyReq =>
      simp only [ht]
      exact ⟨hkeep.1,rfl,fun _ => hkeep.2⟩
    | upgradeReq =>
      simp only [ht]
      split_ifs
      · exact ⟨hkeep.1,rfl,fun _ => hkeep.2⟩
      · exact ⟨by simp [kinds,ShmemReq.kind,ht],rfl,fun hwork => absurd hwork Bool.false_ne_true⟩

theorem handleMsg_kinds {c : Fin n} {m : DirectoryMsg δ} {handled : Handled n δ}
    (h : b.handleMsgFromL2Cache c m = .ok handled) :
    kinds handled.block.queue=kinds b.queue++(m.request.map fun t => (t,c)).toList ∧
      handled.block.lines=b.lines ∧ (m.request.isSome → (handled.work.isSome ↔ b.queue=[])) ∧
      (handled.work.isSome → handled.block.queue≠[]) := by
  cases m with
  | exReq | shReq | upgradeReq =>
    cases h
    refine ⟨by simp [enqueue,kinds,ShmemReq.kind,ShmemReq.new,DirectoryMsg.request],rfl,fun _ => ?_,
      fun _ => by simp [enqueue]⟩
    by_cases hempty : b.queue=[] <;> simp [enqueue,hempty]
  | invRep =>
    rw [handleMsgFromL2Cache,processInvRepFromL2Cache] at h
    split_ifs at h
    obtain ⟨e,-,h⟩:=bind_ok h
    cases h
    refine ⟨(append_nil _).symm,rfl,fun hm => absurd hm Bool.false_ne_true,fun hwork hempty => ?_⟩
    simp [show b.queue=[] from hempty] at hwork
  | flushRep data =>
    rw [handleMsgFromL2Cache,processFlushRepFromL2Cache] at h
    obtain ⟨e,-,h⟩:=bind_ok h
    dsimp only at h
    split_ifs at h
    cases h
    obtain ⟨hkinds,hlines,hwork⟩:=flushed_kinds data
      ({e with forwarder:=none,owner:=none} : DirectoryEntry n).uncacheIfEmpty b
    exact ⟨hkinds.trans (append_nil _).symm,hlines,fun hm => absurd hm Bool.false_ne_true,hwork⟩
  | wbRep data =>
    rw [handleMsgFromL2Cache,processWbRepFromL2Cache] at h
    split_ifs at h
    split at h
    · cases h
    · next r rest hqueue =>
      split_ifs at h
      cases h
      refine ⟨(append_nil _).symm,rfl,fun hm => absurd hm Bool.false_ne_true,fun _ hempty => ?_⟩
      cases hqueue.symm.trans hempty

theorem exists_front_of_processDRAMReply {data : δ} (h : b.processDRAMReply data = .ok b') :
    ∃r rest,b.queue=r::rest := by
  refine exists_cons_of_ne_nil fun hempty => ?_
  rw [processDRAMReply,hempty] at h
  cases h

theorem processDRAMReply_answered {data : δ} (hqueue : b.queue=r::rest)
    (h : b.processDRAMReply data = .ok b') : b'.queue=b.queue ∧ r.type ≠ .nullifyReq ∧ b.Answered r b' := by
  rw [processDRAMReply,hqueue] at h
  have hanswer : ∀m : CacheMsg δ,m.Answers r.type → b.Answered r (b.send r.requester m) :=
    fun m hm => answered_send hm fun _ => rfl
  cases ht : r.type with
  | exReq | shReq =>
    cases hs : b.entry.dstate <;> simp only [ht,hs] at h <;> cases h
    all_goals exact ⟨rfl,by simp,hanswer _ (by simp [CacheMsg.Answers,ht])⟩
  | upgradeReq =>
    simp only [ht] at h
    cases h
    exact ⟨rfl,by simp,hanswer _ (by simp [CacheMsg.Answers,ht])⟩
  | nullifyReq =>
    simp only [ht] at h
    cases h

end Block

end Sniper.Coherence
