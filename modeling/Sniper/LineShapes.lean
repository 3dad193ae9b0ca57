import Sniper.DirectoryBlocks

/-!
# The shapes a line can have

For each role that the directory has for a cache only finitely many shapes of the line and its
channels occur, if data and ignored requests are left out.
-/

namespace Sniper.Coherence
open FallibleRuns List

variable {δ : Type}

namespace CacheMsg

def kind : CacheMsg δ → CacheMsg Unit
  | .exRep _ => .exRep ()
  | .shRep _ => .shRep ()
  | .upgradeRep => .upgradeRep
  | .invReq => .invReq
  | .flushReq => .flushReq
  | .wbReq => .wbReq

def isRequest : CacheMsg δ → Bool
  | .invReq | .flushReq | .wbReq => true
  | _ => false

@[simp] theorem isRequest_kind (m : CacheMsg δ) : m.kind.isRequest=m.isRequest := by
  cases m <;> rfl

end CacheMsg

def DirectoryMsg.kind : DirectoryMsg δ → DirectoryMsg Unit
  | .exReq => .exReq
  | .shReq => .shReq
  | .upgradeReq => .upgradeReq
  | .invRep => .invRep
  | .flushRep _ => .flushRep ()
  | .wbRep _ => .wbRep ()

/-- What the directory has asked a cache for. A sharer that is asked for `data` receives a
`FLUSH_REQ` or only an `INV_REQ`, because one sharer's data is enough. -/
inductive Ask where
  | nothing
  | invalidation
  | data
  | share
  deriving DecidableEq,Repr

/-- What a cache is to the directory. -/
inductive Role where
  | outside
  | awaited
  | sharer (ask : Ask)
  | owner (modified : Bool) (ask : Ask)
  deriving DecidableEq,Repr

instance {p : Ask → Prop} [DecidablePred p] : Decidable (∀a,p a) :=
  decidable_of_iff (p .nothing ∧ p .invalidation ∧ p .data ∧ p .share)
    ⟨fun ⟨hn,hi,hd,hs⟩ a => by cases a <;> assumption,fun h => ⟨h _,h _,h _,h _⟩⟩

instance {p : Role → Prop} [DecidablePred p] : Decidable (∀r,p r) :=
  decidable_of_iff (p .outside ∧ p .awaited ∧ (∀a,p (.sharer a)) ∧ ∀m a,p (.owner m a))
    ⟨fun ⟨ho,ha,hs,hw⟩ r => by
      cases r with
      | outside => exact ho
      | awaited => exact ha
      | sharer a => exact hs a
      | owner m a => exact hw m a,fun h => ⟨h _,h _,fun _ => h _,fun _ _ => h _⟩⟩

structure Shape where
  state : CacheState
  inbox : List (CacheMsg Unit)
  outbox : List (DirectoryMsg Unit)
  /-- the request of the cache in the queue of the directory -/
  queued : Option RequestType
  /-- whether the first waiter is exclusive -/
  wants : Option Bool
  deriving DecidableEq,Repr

namespace Shape

/-- No copy and these messages on their way; the next request may have been sent. -/
def leaving (sent : List (DirectoryMsg Unit)) : List Shape :=
  [⟨.invalid,[],sent,none,none⟩,⟨.invalid,[],sent++[.exReq],none,some true⟩,
    ⟨.invalid,[],sent++[.shReq],none,some false⟩]

/-- A copy was given up while an upgrade of it was asked for. -/
def lostUpgrade (sent : DirectoryMsg Unit) : List Shape :=
  [⟨.invalid,[],[sent],some .upgradeReq,some true⟩,⟨.invalid,[],[.upgradeReq,sent],none,some true⟩]

def upgrading (asked : List (CacheMsg Unit)) : List Shape :=
  [⟨.sharedUpgrading,asked,[],some .upgradeReq,some true⟩,
    ⟨.sharedUpgrading,asked,[.upgradeReq],none,some true⟩]

def copy (state : CacheState) (asked : List (CacheMsg Unit)) : Shape := ⟨state,asked,[],none,none⟩

def granted (reply : CacheMsg Unit) (asked : List (CacheMsg Unit)) (exclusive : Bool) : Shape :=
  ⟨.invalid,reply::asked,[],none,some exclusive⟩

/-- The request is in the queue and the cache has nothing. -/
def queuedOnly : List Shape :=
  [⟨.invalid,[],[],some .exReq,some true⟩,⟨.invalid,[],[],some .shReq,some false⟩,
    ⟨.invalid,[],[],some .upgradeReq,some true⟩]

def sharing (asked : List (CacheMsg Unit)) : List Shape :=
  [granted (.shRep ()) asked false,copy .shared asked]++upgrading asked

def owning : Bool → List (CacheMsg Unit) → List Shape
  | false,asked => [granted (.exRep ()) asked false,copy .exclusive asked,copy .modified asked]
  | true,asked => [granted (.exRep ()) asked true,⟨.sharedUpgrading,.upgradeRep::asked,[],none,some true⟩,
      copy .modified asked]

def disowned : Bool → List Shape
  | false => leaving [.flushRep ()]++leaving [.invRep]
  | true => leaving [.flushRep ()]

def writtenBack : List Shape :=
  [⟨.shared,[],[.wbRep ()],none,none⟩,⟨.sharedUpgrading,[],[.wbRep (),.upgradeReq],none,some true⟩] ++
      leaving [.wbRep (),.invRep]

end Shape

open Shape in
def shapes : Role → List Shape
  | .outside => leaving []++queuedOnly
  | .awaited => queuedOnly
  | .sharer .nothing => sharing []++leaving [.invRep]
  | .sharer .invalidation => sharing [.invReq]++leaving [.invRep]++lostUpgrade .invRep
  | .sharer .data => sharing [.invReq]++sharing [.flushReq]++leaving [.invRep] ++
      leaving [.flushRep ()]++lostUpgrade .invRep++lostUpgrade (.flushRep ())
  | .sharer .share => sharing [.wbReq]++leaving [.invRep]++writtenBack ++
      [⟨.sharedUpgrading,[],[.wbRep ()],some .upgradeReq,some true⟩,
        ⟨.sharedUpgrading,[],[.upgradeReq,.wbRep ()],none,some true⟩]
  | .owner m .nothing => owning m []++disowned m
  | .owner _ .invalidation => []
  | .owner m .data => owning m [.flushReq]++disowned m
  | .owner m .share => owning m [.wbReq]++disowned m++writtenBack

/-- The messages that find a copy when they are delivered, or bring one. -/
def live (state : CacheState) (messages : List (CacheMsg δ)) : List (CacheMsg δ) :=
  if state = .invalid then messages.dropWhile CacheMsg.isRequest else messages

namespace Shape

variable (v : Shape)

def receive (m : CacheMsg Unit) : Shape := {v with inbox:=live v.state (v.inbox++[m])}

def give (m : DirectoryMsg Unit) : Shape :=
  {v with state:=.invalid,inbox:=live .invalid v.inbox,outbox:=v.outbox++[m]}

def access (exclusive : Bool) : Shape :=
  match exclusive,v.state with
  | true,.modified => v
  | true,.exclusive => {v with state:=.modified}
  | false,.modified | false,.owned | false,.shared | false,.exclusive => v
  | _,_ =>
    if v.wants=none then
      if exclusive then
        if v.state = .shared then
          { v with state:=.sharedUpgrading,outbox:=v.outbox++[.upgradeReq],
                   wants := some true }
        else {v with outbox:=v.outbox++[.exReq],wants:=some true}
      else {v with outbox:=v.outbox++[.shReq],wants:=some false}
    else v

def store : Shape :=
  match v.state with
  | .exclusive | .modified => {v with state:=.modified}
  | _ => v

def evict : Shape :=
  match v.state with
  | .modified => v.give (.flushRep ())
  | .shared | .exclusive => v.give .invRep
  | _ => v

/-- What can become of the line when the first message of `inbox` is delivered; the waiters
after the first decide. -/
def deliver : List Shape :=
  match v.inbox with
  | [] => []
  | m::rest =>
    let w := {v with inbox:=rest}
    match m with
    | .exRep _ =>
      let upgraded := {w with state:=.modified,wants:=none}
      if v.wants=some true then [upgraded]
      else [{w with state:=.exclusive,wants:=none},upgraded]
    | .shRep _ => [{w with state:=.shared,wants:=none},
        { w with state:=.sharedUpgrading,outbox:=v.outbox++[.upgradeReq],
                 wants := some true }]
    | .upgradeRep => [{w with state:=.modified,wants:=none}]
    | .invReq => [w.give .invRep]
    | .flushReq => [w.give (.flushRep ())]
    | .wbReq =>
      if v.state = .sharedUpgrading then [{w with outbox:=v.outbox++[.wbRep ()]}]
      else [{w with state:=.shared,outbox:=v.outbox++[.wbRep ()]}]

/-- The assertions that guard the delivery hold. -/
def Deliverable : Prop :=
  match v.inbox with
  | .exRep _::_ | .shRep _::_ => v.state = .invalid ∧ v.wants≠none
  | .upgradeRep::_ => v.state = .sharedUpgrading ∧ v.wants≠none
  | .invReq::_ => v.state ≠ .modified
  | _ => True

instance : Decidable v.Deliverable := by
  unfold Deliverable
  split <;> infer_instance

end Shape

/-- A cache keeps the shape of its line in the list of its role, and its assertions hold. -/
structure KeepsShapes : Prop where
  access : ∀r,∀v∈shapes r,∀exclusive,v.access exclusive∈shapes r
  store : ∀r,∀v∈shapes r,v.store∈shapes r
  evict : ∀r,∀v∈shapes r,v.evict∈shapes r
  deliver : ∀r,∀v∈shapes r,v.Deliverable ∧ ∀v'∈v.deliver,v'∈shapes r
  unwanted : ∀r,∀v∈shapes r,v.wants=none → v.state ≠ .sharedUpgrading ∧ v.state ≠ .owned

theorem keepsShapes : KeepsShapes where
  access := by decide +kernel
  store := by decide +kernel
  evict := by decide +kernel
  deliver := by decide +kernel
  unwanted := by decide +kernel

theorem dropWhile_dropWhile_append {α : Type*} (p : α → Bool) (xs ys : List α) :
    (xs.dropWhile p++ys).dropWhile p=(xs++ys).dropWhile p := by
  induction xs with
  | nil => rfl
  | cons x xs ih =>
    by_cases hx : p x
    · rw [dropWhile_cons_of_pos hx,ih,cons_append,dropWhile_cons_of_pos hx]
    · rw [dropWhile_cons_of_neg hx]

theorem live_append (state : CacheState) (xs ys : List (CacheMsg δ)) :
    live state (live state xs++ys)=live state (xs++ys) := by
  rw [live,live,live]
  split_ifs
  · exact dropWhile_dropWhile_append _ _ _
  · rfl

theorem live_invalid_live (state : CacheState) (xs : List (CacheMsg δ)) :
    live .invalid (live state xs)=live .invalid xs := by
  by_cases h : state = .invalid
  · subst h
    simpa using live_append .invalid xs []
  · exact congrArg (live .invalid) (if_neg h)

namespace Line

/-- `queued` is the request of the cache that is in the queue of the directory. -/
def shape (l : Line δ) (queued : Option RequestType) : Shape :=
  ⟨l.state,live l.state (l.toCache.map CacheMsg.kind),l.toDirectory.map DirectoryMsg.kind,queued,
    l.waiters.head?⟩

variable (l : Line δ) (q : Option RequestType)

theorem receive_shape (m : CacheMsg δ) : (l.receive m).shape q=(l.shape q).receive m.kind := by
  simp only [shape,receive,Shape.receive,map_append,map_cons,map_nil,live_append]

theorem give_shape (m : DirectoryMsg δ) :
    ({l with state:=.invalid}.send m).shape q=(l.shape q).give m.kind := by
  simp only [shape,send,Shape.give,map_append,map_cons,map_nil,live_invalid_live]

theorem store_shape (data : δ) : (l.store data).shape q=(l.shape q).store := by
  obtain ⟨state,d,waiters,toCache,toDirectory⟩:=l
  cases state <;> rfl

theorem evict_shape : l.evict.shape q=(l.shape q).evict := by
  cases h : l.state <;> simp only [evict,Shape.evict,h,shape]
  all_goals exact (give_shape l q _).trans (by rw [shape,h]; rfl)

theorem access_shape (exclusive : Bool) (h : l.waiters=[] → l.state ≠ .sharedUpgrading ∧
      l.state ≠ .owned) : ∃l',l.access exclusive = .ok l' ∧ l'.shape q=(l.shape q).access exclusive := by
  obtain ⟨state,d,waiters,toCache,toDirectory⟩:=l
  cases waiters with
  | nil =>
    obtain ⟨hup,howned⟩:=h rfl
    cases exclusive <;> cases state <;>
      simp_all [access,Shape.access,initiateDirectoryAccess,processShReqToDirectory,processExReqToDirectory,
        processUpgradeReqToDirectory,send,shape,live,DirectoryMsg.kind]
  | cons w ws =>
    cases exclusive <;> cases state <;>
      simp [access,Shape.access,initiateDirectoryAccess,shape,live]

theorem wake_modified (h : l.state = .modified) (ws : List Bool) :
    l.wake ws = .ok {l with waiters:=[]} := by
  induction ws with
  | nil => rfl
  | cons w ws ih =>
    cases w with
    | false => exact ih
    | true =>
      rw [wake,if_neg (by rw [h]; decide),← h]
      exact ih

theorem wake_exclusive (h : l.state = .exclusive) (ws : List Bool) :
    l.wake ws = .ok {l with waiters:=[],state:=if true∈ws then .modified else .exclusive} := by
  induction ws with
  | nil => simp [wake,← h]
  | cons w ws ih =>
    cases w with
    | false => simpa [wake] using ih
    | true =>
      rw [wake,if_neg (by rw [h]; decide),wake_modified _ rfl]
      simp

theorem wake_shared (h : l.state = .shared) (ws : List Bool) :
    l.wake ws = .ok {l with waiters:=[]} ∨
      ∃rest,l.wake ws = .ok ({l with waiters:=true::rest,state:=.sharedUpgrading}.send
        .upgradeReq) := by
  induction ws with
  | nil => exact Or.inl rfl
  | cons w ws ih =>
    cases w with
    | false => exact ih
    | true =>
      refine Or.inr ⟨ws,?_⟩
      rw [wake,if_pos h,processUpgradeReqToDirectory,if_pos h]

variable {l q}

variable {m : CacheMsg δ} {rest : List (CacheMsg δ)}

theorem deliver_stale (hbox : l.toCache=m::rest) (hstate : l.state = .invalid)
    (hm : m.isRequest) (stack : δ) :
    l.deliver stack = .ok {l with toCache:=rest} ∧
      ({l with toCache:=rest} : Line δ).shape q=l.shape q := by
  have hlive : live l.state (rest.map CacheMsg.kind)=live l.state (l.toCache.map CacheMsg.kind) := by
    rw [hstate,hbox,map_cons,live,live,if_pos rfl,dropWhile_cons_of_pos (by rwa [CacheMsg.isRequest_kind]),
      if_pos rfl]
  refine ⟨?_,by rw [shape,hlive,shape]⟩
  rw [deliver,hbox]
  cases m <;> simp_all [CacheMsg.isRequest,handleMsgFromDramDirectory,processInvReqFromDramDirectory,
    processFlushReqFromDramDirectory,processWbReqFromDramDirectory]

theorem inbox_of_live (hbox : l.toCache=m::rest) (h : ¬ (l.state = .invalid ∧ m.isRequest)) :
    (l.shape q).inbox=m.kind::rest.map CacheMsg.kind := by
  rw [shape,hbox,map_cons,live]
  split_ifs with hstate
  · rw [dropWhile_cons_of_neg]
    rw [CacheMsg.isRequest_kind]
    exact fun hm => h ⟨hstate,hm⟩
  · rfl

theorem waiters_of_wants (h : (l.shape q).wants≠none) : l.waiters≠[] := fun hnil => h (by rw [shape,hnil]; rfl)

theorem deliver_reply (hbox : l.toCache=m::rest) (hm : ¬ m.isRequest) (hv : (l.shape q).Deliverable)
    (stack : δ) : ∃l',l.deliver stack = .ok l' ∧ l'.shape q∈(l.shape q).deliver := by
  have hin := inbox_of_live (q:=q) hbox fun h => hm h.2
  rw [Shape.Deliverable,hin] at hv
  rw [Shape.deliver,hin]
  cases m with
  | exRep d =>
    have hstate : l.state = .invalid := hv.1
    have hok : l.deliver stack = .ok { l with
        toCache := rest,data := d,waiters := [],
        state := if true∈l.waiters then .modified else .exclusive } := by
      rw [deliver,hbox]
      simp only [handleMsgFromDramDirectory,processExRepFromDramDirectory,insertCacheBlock,if_pos hstate,
        ok_bind,wakeWaiters,if_neg (waiters_of_wants hv.2)]
      exact wake_exclusive _ rfl _
    refine ⟨_,hok,?_⟩
    by_cases hex : true∈l.waiters
    · by_cases hw : l.waiters.head?=some true <;> simp [CacheMsg.kind,hw,shape,hex,live]
    · have hw : l.waiters.head?≠some true := fun hw => hex (mem_of_head? hw)
      simp [CacheMsg.kind,hw,shape,hex,live]
  | shRep d =>
    have hstate : l.state = .invalid := hv.1
    have heq : l.deliver stack =
        Line.wake {l with toCache:=rest,data:=d,state:=.shared} l.waiters := by
      rw [deliver,hbox]
      simp only [handleMsgFromDramDirectory,processShRepFromDramDirectory,insertCacheBlock,if_pos hstate,
        ok_bind,wakeWaiters,if_neg (waiters_of_wants hv.2)]
    rw [heq]
    obtain hok | ⟨ws,hok⟩:=wake_shared {l with toCache:=rest,data:=d,state:=.shared} rfl
      l.waiters
    · exact ⟨_,hok,by simp [CacheMsg.kind,shape,live]⟩
    · exact ⟨_,hok,by simp [CacheMsg.kind,shape,live,send,DirectoryMsg.kind]⟩
  | upgradeRep =>
    have hstate : l.state = .sharedUpgrading := hv.1
    have hok : l.deliver stack = .ok {l with toCache:=rest,waiters:=[],state:=.modified} := by
      rw [deliver,hbox]
      simp only [handleMsgFromDramDirectory,processUpgradeRepFromDramDirectory,if_pos hstate,ok_bind,
        wakeWaiters,if_neg (waiters_of_wants hv.2)]
      exact wake_modified _ rfl _
    exact ⟨_,hok,by simp [CacheMsg.kind,shape,live]⟩
  | invReq | flushReq | wbReq => exact absurd rfl hm

theorem deliver_request (hbox : l.toCache=m::rest) (hm : m.isRequest) (hstate : l.state ≠ .invalid)
    (hv : (l.shape q).Deliverable) (stack : δ) :
    ∃l',l.deliver stack = .ok l' ∧ l'.shape q∈(l.shape q).deliver := by
  have hin := inbox_of_live (q:=q) hbox (fun h => hstate h.1)
  rw [Shape.Deliverable,hin] at hv
  rw [deliver,hbox,Shape.deliver,hin]
  obtain ⟨state,d,waiters,toCache,toDirectory⟩:=l
  cases m with
  | exRep | shRep | upgradeRep => cases hm
  | invReq | flushReq | wbReq =>
    cases state <;>
      simp_all [handleMsgFromDramDirectory,processInvReqFromDramDirectory,processFlushReqFromDramDirectory,
        processWbReqFromDramDirectory,CacheMsg.kind,shape,send,Shape.give,DirectoryMsg.kind,live]

theorem deliver_shape (hv : (l.shape q).Deliverable) (stack : δ) :
    ∃l',l.deliver stack = .ok l' ∧ (l'.shape q=l.shape q ∨ l'.shape q∈(l.shape q).deliver) := by
  cases hbox : l.toCache with
  | nil => exact ⟨l,by rw [deliver,hbox],Or.inl rfl⟩
  | cons m rest =>
    by_cases hm : m.isRequest
    · by_cases hstate : l.state = .invalid
      · obtain ⟨hok,hshape⟩:=deliver_stale (q:=q) hbox hstate hm stack
        exact ⟨_,hok,Or.inl hshape⟩
      · obtain ⟨l',hok,hshape⟩:=deliver_request hbox hm hstate hv stack
        exact ⟨l',hok,Or.inr hshape⟩
    · obtain ⟨l',hok,hshape⟩:=deliver_reply hbox hm hv stack
      exact ⟨l',hok,Or.inr hshape⟩

end Line

namespace Shape

/-- The request of the cache is taken from the queue and answered. -/
def answer (v : Shape) (m : CacheMsg Unit) : Shape := {v with queued:=none}.receive m

def received (v : Shape) : Shape := {v with outbox:=v.outbox.tail}

end Shape

/-- How the messages of the directory and to it move a line between the lists. -/
structure MovesShapes : Prop where
  awaited : ∀v∈shapes .awaited,v∈shapes .outside
  outside : ∀v∈shapes .outside,v.queued≠none → v∈shapes .awaited
  answerExclusive : ∀v∈shapes .outside,v.queued=some .exReq ∨ v.queued=some .upgradeReq →
    v.answer (.exRep ())∈shapes (.owner true .nothing)
  answerShared : ∀v∈shapes .outside,v.queued=some .shReq →
    v.answer (.exRep ())∈shapes (.owner false .nothing) ∧
      v.answer (.shRep ())∈shapes (.sharer .nothing)
  answerUpgrade : ∀v∈shapes (.sharer .nothing),v.queued=some .upgradeReq →
    v.answer .upgradeRep∈shapes (.owner true .nothing)
  askSharer : ∀v∈shapes (.sharer .nothing),
    v.receive .invReq∈shapes (.sharer .invalidation) ∧ v.receive .invReq∈shapes (.sharer .data) ∧
      v.receive .flushReq∈shapes (.sharer .data) ∧ v.receive .wbReq∈shapes (.sharer .share)
  askOwner : ∀m,∀v∈shapes (.owner m .nothing),
    v.receive .flushReq∈shapes (.owner m .data) ∧ v.receive .wbReq∈shapes (.owner m .share)
  invRep : ∀r,∀v∈shapes r,v.outbox.head?=some .invRep →
    v.received∈shapes .outside ∧ r ≠ .outside ∧ r ≠ .awaited ∧ ∀ask,r ≠ .owner true ask
  flushRep : ∀r,∀v∈shapes r,v.outbox.head?=some (.flushRep ()) →
    v.received∈shapes .outside ∧ r ≠ .outside ∧ r ≠ .awaited ∧
      ∀ask,r = .sharer ask → ask = .data
  wbRep : ∀r,∀v∈shapes r,v.outbox.head?=some (.wbRep ()) →
    v.received∈shapes (.sharer .nothing) ∧ (r = .sharer .share ∨ ∃m,r = .owner m .share)
  exReq : ∀r,∀v∈shapes r,v.outbox.head?=some .exReq →
    v.queued=none ∧ {v.received with queued:=some .exReq}∈shapes r
  shReq : ∀r,∀v∈shapes r,v.outbox.head?=some .shReq →
    v.queued=none ∧ {v.received with queued:=some .shReq}∈shapes r
  upgradeReq : ∀r,∀v∈shapes r,v.outbox.head?=some .upgradeReq →
    v.queued=none ∧ {v.received with queued:=some .upgradeReq}∈shapes r
  fetching : ∀r,∀v∈shapes r,v.queued=some .exReq ∨ v.queued=some .shReq →
    r = .outside ∨ r = .awaited
  upgrading : ∀r,∀v∈shapes r,v.queued=some .upgradeReq → ∀m ask,r ≠ .owner m ask
  writable : ∀r,∀v∈shapes r,v.state = .exclusive ∨ v.state = .modified → ∀ask,r ≠ .sharer ask
  noCopy : ∀r,∀v∈shapes r,r = .outside ∨ r = .awaited → v.state = .invalid

theorem movesShapes : MovesShapes where
  awaited := by decide +kernel
  outside := by decide +kernel
  answerExclusive := by decide +kernel
  answerShared := by decide +kernel
  answerUpgrade := by decide +kernel
  askSharer := by decide +kernel
  askOwner := by decide +kernel
  invRep := by decide +kernel
  flushRep := by decide +kernel
  wbRep := by decide +kernel
  exReq := by decide +kernel
  shReq := by decide +kernel
  upgradeReq := by decide +kernel
  fetching := by decide +kernel
  upgrading := by decide +kernel
  writable := by decide +kernel
  noCopy := by decide +kernel

end Sniper.Coherence
