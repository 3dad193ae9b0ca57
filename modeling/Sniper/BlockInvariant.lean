import Sniper.LineShapes

/-!
# The invariant of one block

Between two messages the directory has no request for a block, or the front request waits.
`Ready` is the invariant before the work on the front request and `Settled` the one after it.
-/

namespace Sniper.Coherence
open FallibleRuns List

variable {n : ℕ} {δ : Type}

def queuedRequest : List (ShmemReq n) → Fin n → Option RequestType
  | [],_ => none
  | r::rest,c =>
    if r.type ≠ .nullifyReq ∧ r.requester=c then some r.type else queuedRequest rest c

def DirectoryState.holder : DirectoryState → Ask → Role
  | .uncached,_ => .outside
  | .shared,ask => .sharer ask
  | .exclusive,ask => .owner false ask
  | .modified,ask => .owner true ask

def DirectoryEntry.role (e : DirectoryEntry n) (asks : Fin n → Ask) (awaited : Option (Fin n)) (c : Fin n) :
    Role :=
  if c∈e.sharers then if awaited=some c then .awaited else e.dstate.holder (asks c)
  else .outside

namespace ShmemReq

/-- The requester is a sharer already and waits for the data. -/
def granted (r : ShmemReq n) : Bool := r.waitForData || r.isForwarding

/-- What the directory asks of a sharer while the request waits. -/
def ask (r : ShmemReq n) (e : DirectoryEntry n) (c : Fin n) : Ask :=
  match e.dstate with
  | .uncached => .nothing
  | .exclusive | .modified => if r.type = .shReq then .share else .data
  | .shared =>
    match r.type with
    | .exReq | .nullifyReq => .invalidation
    | .upgradeReq =>
      if c=r.requester then .nothing
      else if r.requester∈e.sharers then .invalidation else .data
    | .shReq =>
      if r.waitForData then .nothing
      else if r.isForwarding then if r.forwardingFrom=some c then .share else .nothing
      else if r.overflow=some c then .invalidation else .nothing

/-- The state of the directory while a sharer is sent the data. -/
def Fetches (s : DirectoryState) : RequestType → Prop
  | .shReq => s = .shared ∨ s = .exclusive
  | .exReq | .upgradeReq => s = .modified
  | .nullifyReq => False

/-- What the request at the front waits for. -/
inductive Waits (e : DirectoryEntry n) (r : ShmemReq n) : Prop where
  | data (wait : r.waitForData=true) (sharer : r.requester∈e.sharers)
      (fetches : Fetches e.dstate r.type)
  | forward (c : Fin n) (wait : r.waitForData=false) (forwarding : r.forwardingFrom=some c)
      (type : r.type = .shReq) (dstate : e.dstate = .shared) (sharer : r.requester∈e.sharers)
      (forwarder : c∈e.sharers) (other : c≠r.requester)
  | replies (wait : r.waitForData=false) (forwarding : r.forwardingFrom=none)
      (cached : e.dstate ≠ .uncached)
      (upgrade : e.dstate = .shared → r.type = .upgradeReq → e.sharers≠{r.requester})
      (overflow : e.dstate = .shared → r.type = .shReq → ∃c∈e.sharers,r.overflow=some c)

end ShmemReq

/-- The cache that the front request waits for data for. -/
def awaited (queue : List (ShmemReq n)) : Option (Fin n) :=
  queue.head?.bind fun r => if r.granted then some r.requester else none

def asked (e : DirectoryEntry n) (queue : List (ShmemReq n)) (c : Fin n) : Ask :=
  match queue.head? with
  | some r => r.ask e c
  | none => .nothing

structure DirectoryEntry.Proper (maxHwSharers : ℕ) (e : DirectoryEntry n) : Prop where
  uncached : e.dstate = .uncached ↔ e.sharers = ∅
  owned : e.dstate = .exclusive ∨ e.dstate = .modified → ∃c,e.owner=some c ∧ e.sharers={c}
  bounded : e.sharers.card ≤ maxHwSharers

/-- The requester of an entry in the queue that has not been worked on. -/
def ShmemReq.Fresh (r : ShmemReq n) : Prop := r = .new r.type r.requester ∧ r.type ≠ .nullifyReq

def Distinct (queue : List (ShmemReq n)) : Prop :=
  queue.Pairwise fun r r' => r.type ≠ .nullifyReq → r'.type ≠ .nullifyReq → r.requester≠r'.requester

/-- The forwarder, if there is one, is a sharer. -/
def DirectoryEntry.ForwardsShared (e : DirectoryEntry n) : Prop := ∀c∈e.forwarder,c∈e.sharers

namespace Block

def Fits (b : Block n δ) (asks : Fin n → Ask) : Prop :=
  ∀c,(b.lines c).shape (queuedRequest b.queue c)∈shapes (b.entry.role asks (awaited b.queue) c)

variable (cfg : DirectoryConfig)

structure Sound (b : Block n δ) : Prop where
  proper : b.entry.Proper cfg.maxHwSharers
  distinct : Distinct b.queue
  fresh : ∀r∈b.queue.tail,r.Fresh

/-- The invariant between two messages. -/
structure Rests (b : Block n δ) : Prop extends b.Sound cfg where
  fits : b.Fits (asked b.entry b.queue)
  waits : ∀r,b.queue.head?=some r → r.Waits b.entry
  -- an entry for one sharer may have a forwarder that was never set
  forwarder : cfg.protocol = .mesif → b.entry.dstate = .shared → b.entry.ForwardsShared ∨
    b.entry.sharers.card=1 ∧ ∃r,b.queue.head?=some r ∧ r.type = .shReq ∧ r.granted=false

/-- The invariant before the work on the front request, with the data that a cache sent. -/
structure Ready (cached : Option δ) (b : Block n δ) : Prop
    extends b.Sound cfg where
  fits : b.Fits fun _ => .nothing
  pending : ∀r,b.queue.head?=some r → r.waitForData=false ∧
    (r.isForwarding → r.type = .shReq ∧ b.entry.dstate = .shared ∧ r.requester∈b.entry.sharers)
  useful : cached.isSome → b.entry.dstate = .uncached ∨
    b.entry.dstate = .shared ∧ ∀r,b.queue.head?=some r → r.type = .shReq ∧
      (r.isForwarding ∨ b.entry.sharers.card=1)
  forwarder : cfg.protocol = .mesif → b.entry.dstate = .shared → cached=none →
    b.entry.ForwardsShared

/-- The invariant after a request has been answered and taken from the queue. -/
structure Settled (b : Block n δ) : Prop where
  proper : b.entry.Proper cfg.maxHwSharers
  distinct : Distinct b.queue
  fresh : ∀r∈b.queue,r.Fresh
  fits : b.Fits fun _ => .nothing
  forwarder : cfg.protocol = .mesif → b.entry.dstate = .shared → b.entry.ForwardsShared

end Block

section Queue

variable {r : ShmemReq n} {queue rest : List (ShmemReq n)} {c d : Fin n}

theorem queuedRequest_eq_none : queuedRequest queue c=none ↔ ∀r∈queue,r.type ≠ .nullifyReq → r.requester≠c := by
  induction queue with
  | nil => simp [queuedRequest]
  | cons r rest ih =>
    rw [queuedRequest,forall_mem_cons]
    split_ifs with h
    · simp [h]
    · rw [ih]
      exact ⟨fun hrest => ⟨fun ht hc => h ⟨ht,hc⟩,hrest⟩,fun hrest => hrest.2⟩

theorem queuedRequest_cons_self (h : r.type ≠ .nullifyReq) : queuedRequest (r::rest) r.requester=some r.type :=
  if_pos ⟨h,rfl⟩

theorem queuedRequest_cons_of_ne (h : r.requester≠c) : queuedRequest (r::rest) c=queuedRequest rest c :=
  if_neg fun hr => h hr.2

theorem queuedRequest_congr {r' : ShmemReq n} (ht : r'.type=r.type) (hr : r'.requester=r.requester) :
    queuedRequest (r'::rest) c=queuedRequest (r::rest) c := by
  rw [queuedRequest,queuedRequest,ht,hr]

theorem queuedRequest_append {type : RequestType} (ht : type ≠ .nullifyReq)
    (hc : queuedRequest queue c=none) :
    queuedRequest (queue++[.new type c]) d=if c=d then some type else queuedRequest queue d := by
  induction queue with
  | nil => simp [queuedRequest,ShmemReq.new,ht]
  | cons r rest ih =>
    rw [queuedRequest_eq_none,forall_mem_cons,← queuedRequest_eq_none] at hc
    rw [cons_append,queuedRequest,ih hc.2,queuedRequest]
    by_cases hr : r.type ≠ .nullifyReq ∧ r.requester=d
    · rw [if_pos hr,if_pos hr,if_neg]
      rintro rfl
      exact hc.1 hr.1 hr.2
    · rw [if_neg hr,if_neg hr]

theorem Distinct.append {type : RequestType} (h : Distinct queue) (hc : queuedRequest queue c=none) :
    Distinct (queue++[.new type c]) := by
  refine pairwise_append.mpr ⟨h,pairwise_singleton _ _,?_⟩
  intro r hr r' hr' ht _
  rw [mem_singleton.mp hr']
  exact queuedRequest_eq_none.mp hc r hr ht

theorem Distinct.queuedRequest_rest (h : Distinct (r::rest)) (ht : r.type ≠ .nullifyReq) :
    queuedRequest rest r.requester=none :=
  queuedRequest_eq_none.mpr fun r' hr' ht' heq =>
    (pairwise_cons.mp h).1 r' hr' ht ht' heq.symm

theorem Distinct.congr {r' : ShmemReq n} (h : Distinct (r::rest)) (ht : r'.type=r.type)
    (hr : r'.requester=r.requester) : Distinct (r'::rest) := by
  rw [Distinct,pairwise_cons] at h ⊢
  rw [ht,hr]
  exact h

theorem ShmemReq.Fresh.granted (h : r.Fresh) : r.granted=false := by
  rw [h.1]
  rfl

theorem awaited_cons : awaited (r::rest)=if r.granted then some r.requester else none := rfl

theorem awaited_fresh (h : ∀r∈queue,r.Fresh) : awaited queue=none := by
  cases queue with
  | nil => rfl
  | cons r rest => rw [awaited_cons,(h r mem_cons_self).granted,if_neg Bool.false_ne_true]

end Queue

namespace Block

variable {cfg : DirectoryConfig} {b : Block n δ}

theorem Settled.rests (h : b.Settled cfg) (hqueue : b.queue=[]) : b.Rests cfg := by
  refine ⟨⟨h.proper,h.distinct,fun r hr => h.fresh r (mem_of_mem_tail hr)⟩,?_,?_,?_⟩
  · have hasked : asked b.entry b.queue=fun _ => .nothing := by
      rw [hqueue]
      rfl
    rw [hasked]
    exact h.fits
  · rw [hqueue]
    intro r hr
    cases hr
  · exact fun hp hs => Or.inl (h.forwarder hp hs)

theorem Settled.ready (h : b.Settled cfg) : b.Ready cfg none := by
  refine ⟨⟨h.proper,h.distinct,fun r hr => h.fresh r (mem_of_mem_tail hr)⟩,h.fits,?_,?_,?_⟩
  · intro r hr
    rw [(h.fresh r (mem_of_head? hr)).1]
    exact ⟨rfl,fun hf => absurd hf Bool.false_ne_true⟩
  · exact fun hc => absurd hc Bool.false_ne_true
  · exact fun hp hs _ => h.forwarder hp hs

variable (b)

theorem send_lines (c d : Fin n) (m : CacheMsg δ) :
    (b.send c m).lines d=if d=c then (b.lines d).receive m else b.lines d := by
  by_cases h : d=c
  · subst h
    simp [send]
  · simp [send,h]

theorem sendAll_frame (m : Fin n → CacheMsg δ) (cs : List (Fin n)) :
    (b.sendAll m cs).entry=b.entry ∧ (b.sendAll m cs).queue=b.queue ∧ (b.sendAll m cs).toDram=b.toDram := by
  induction cs generalizing b with
  | nil => exact ⟨rfl,rfl,rfl⟩
  | cons c cs ih => exact ih (b.send c (m c))

theorem sendAll_lines (m : Fin n → CacheMsg δ) {cs : List (Fin n)} (hcs : cs.Nodup)
    (d : Fin n) :
    (b.sendAll m cs).lines d=if d∈cs then (b.lines d).receive (m d) else b.lines d := by
  induction cs generalizing b with
  | nil => rfl
  | cons c cs ih =>
    obtain ⟨hc,hcs⟩:=nodup_cons.mp hcs
    rw [sendAll,foldl_cons]
    change ((b.send c (m c)).sendAll m cs).lines d=_
    rw [ih _ hcs,send_lines]
    by_cases hd : d=c
    · subst hd
      rw [if_neg hc,if_pos rfl,if_pos mem_cons_self]
    · simp [hd]

end Block

end Sniper.Coherence
