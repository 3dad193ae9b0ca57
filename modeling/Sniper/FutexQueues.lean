import Sniper.FutexWakeups

/-!
# The queues of the futexes

Every thread that is stalled on a futex is in one queue, once.
-/

namespace Sniper.Futexes
open NotedRuns NotedRuns.Noted Function List

variable {θ α π : Type}

def FutexEvent.thread : FutexEvent θ → θ
  | .queued t | .woken t | .timedOut t | .requeued t => t

def FutexEvent.isWoken : FutexEvent θ → Bool
  | .woken _ => true
  | _ => false

theorem takeTimedOut_sublist {time : SubsecondTime} {queue rest : List (Waiter θ)} {w : Waiter θ}
    (h : takeTimedOut time queue=some (w,rest)) : rest.Sublist queue := by
  induction queue generalizing rest with
  | nil => cases h
  | cons x queue ih =>
    rw [takeTimedOut] at h
    split_ifs at h with hx
    · cases h
      exact sublist_cons_self w queue
    · obtain ⟨⟨y,rest'⟩,htake,hpair⟩:=Option.map_eq_some_iff.mp h
      cases hpair
      exact (ih htake).cons_cons x

namespace SyscallServer

variable {s s' s'' : SyscallServer θ α π}

section

variable (s)

def queued (p : π) : List θ := (s.futexes p).map (·.threadId)

/-- Each thread that is stalled on a futex is in one queue, and no other thread is. -/
structure Queues : Prop where
  once : ∀p,(s.queued p).Nodup
  apart : ∀p q t,t∈s.queued p → t∈s.queued q → p=q
  stalled : ∀t,(∃p,t∈s.queued p) ↔ (s.threads t).status = .stalled .futex

structure Inv : Prop extends s.Queues where
  masks : ∀p,∀w∈s.futexes p,w.mask≠0
  asleep : ∀w∈s.sleeping,(s.threads w.threadId).status = .stalled .sleep
  sleepers : (s.sleeping.map (·.threadId)).Nodup

end

theorem inv_new (rescheduleCost : SubsecondTime) (osEmuTimeStart : BitVec 64) (va2pa : θ → α → π)
    (memory : π → BitVec 32) (started : θ → Bool) :
    (new rescheduleCost osEmuTimeStart va2pa memory started).Inv where
  once _ := nodup_nil
  apart _ _ _ h := by cases h
  stalled _ := iff_of_false (fun ⟨_,h⟩ => by cases h) (by simp [new])
  masks _ _ h := by cases h
  asleep _ h := by cases h
  sleepers := nodup_nil

/-- The threads have left the queues and run. -/
structure Leaves (s s' : SyscallServer θ α π) (ts : List θ) : Prop where
  nodup : ts.Nodup
  waited : ∀t∈ts,∃p,t∈s.queued p
  sublist : ∀p,(s'.futexes p).Sublist (s.futexes p)
  left : ∀p t,t∈s.queued p → (t∈s'.queued p ↔ t∉ts)
  running : ∀t∈ts,(s'.threads t).status = .running
  same : ∀t∉ts,s'.threads t=s.threads t
  sleeping : s'.sleeping=s.sleeping

section Leaves

variable {ts us : List θ} {p : π} {t : θ}

theorem Leaves.mem_queued (h : Leaves s s' ts) (ht : t∈s'.queued p) : t∈s.queued p :=
  ((h.sublist p).map _).subset ht

theorem Leaves.gone (h : Leaves s s' ts) (ht : t∈ts) : t∉s'.queued p := fun hin =>
  (h.left p t (h.mem_queued hin)).mp hin ht

theorem leaves_outside (s : SyscallServer θ α π) (known : List π) (memory : π → BitVec 32) :
    Leaves s {s with known,memory} [] where
  nodup := nodup_nil
  waited := by simp
  sublist _ := List.Sublist.refl _
  left _ _ ht := by simpa [queued] using ht
  running := by simp
  same _ _ := rfl
  sleeping := rfl

theorem Leaves.trans (h : Leaves s s' ts) (h' : Leaves s' s'' us) :
    Leaves s s'' (ts++us) where
  nodup := by
    refine nodup_append.mpr ⟨h.nodup,h'.nodup,fun t ht u hu htu => ?_⟩
    obtain ⟨p,hp⟩:=h'.waited u hu
    exact h.gone ht (htu ▸ hp)
  waited t ht := by
    rcases mem_append.mp ht with ht | ht
    · exact h.waited t ht
    · obtain ⟨p,hp⟩:=h'.waited t ht
      exact ⟨p,h.mem_queued hp⟩
  sublist p := (h'.sublist p).trans (h.sublist p)
  left p t ht := by
    rw [mem_append,not_or]
    constructor
    · intro hin
      exact ⟨(h.left p t ht).mp (h'.mem_queued hin),(h'.left p t (h'.mem_queued hin)).mp hin⟩
    · rintro ⟨hts,hus⟩
      exact (h'.left p t ((h.left p t ht).mpr hts)).mpr hus
  running t ht := by
    by_cases hus : t∈us
    · exact h'.running t hus
    · rw [h'.same t hus]
      exact h.running t ((mem_append.mp ht).resolve_right hus)
  same t ht := by
    rw [mem_append,not_or] at ht
    rw [h'.same t ht.2,h.same t ht.1]
  sleeping := h'.sleeping.trans h.sleeping

theorem leaves_take [DecidableEq π] {out left : List (Waiter θ)} (hs : s.Queues)
    (hperm : (out++left).Perm (s.futexes p)) (hsub : left.Sublist (s.futexes p))
    (hfutexes : s'.futexes=update s.futexes p left)
    (hrunning : ∀t∈out.map (·.threadId),(s'.threads t).status = .running)
    (hsame : ∀t∉out.map (·.threadId),s'.threads t=s.threads t) (hsleeping : s'.sleeping=s.sleeping) :
    Leaves s s' (out.map (·.threadId)) := by
  have hthreads : (out.map (·.threadId)++left.map (·.threadId)).Perm (s.queued p) := by
    rw [← map_append]
    exact hperm.map _
  have hnodup := hthreads.nodup_iff.mpr (hs.once p)
  have hself : s'.queued p=left.map (·.threadId) := by
    rw [queued,hfutexes,update_self]
  have hother : ∀q,q≠p → s'.futexes q=s.futexes q := fun q hq => by
    rw [hfutexes,update_of_ne hq]
  have hwaited : ∀t∈out.map (·.threadId),t∈s.queued p := fun t ht =>
    hthreads.mem_iff.mp (mem_append_left _ ht)
  refine ⟨hnodup.of_append_left,fun t ht => ⟨p,hwaited t ht⟩,fun q => ?_,fun q t ht => ?_,hrunning,hsame,
    hsleeping⟩
  · by_cases hq : q=p
    · rw [hq,hfutexes,update_self]
      exact hsub
    · rw [hother q hq]
  · by_cases hq : q=p
    · subst hq
      rw [hself]
      constructor
      · exact fun hin hout => (nodup_append.mp hnodup).2.2 t hout t hin rfl
      · exact (mem_append.mp (hthreads.mem_iff.mpr ht)).resolve_left
    · rw [queued,hother q hq]
      exact iff_of_true ht fun hout => hq (hs.apart q p t ht (hwaited t hout))

theorem Leaves.queues (h : Leaves s s' ts) (hs : s.Queues) : s'.Queues where
  once p := (hs.once p).sublist ((h.sublist p).map _)
  apart p q t hp hq := hs.apart p q t (h.mem_queued hp) (h.mem_queued hq)
  stalled t := by
    by_cases ht : t∈ts
    · rw [h.running t ht]
      exact iff_of_false (fun ⟨p,hp⟩ => h.gone ht hp) (by simp)
    · rw [h.same t ht,← hs.stalled t]
      constructor
      · rintro ⟨p,hp⟩
        exact ⟨p,h.mem_queued hp⟩
      · rintro ⟨p,hp⟩
        exact ⟨p,(h.left p t hp).mpr ht⟩

theorem Leaves.inv (h : Leaves s s' ts) (hs : s.Inv) : s'.Inv where
  toQueues := h.queues hs.toQueues
  masks p w hw := hs.masks p w ((h.sublist p).subset hw)
  asleep w hw := by
    rw [h.sleeping] at hw
    have hsleep := hs.asleep w hw
    rw [h.same _ fun hts => ?_]
    · exact hsleep
    · rw [(hs.stalled _).mp (h.waited _ hts)] at hsleep
      cases hsleep
  sleepers := h.sleeping ▸ hs.sleepers

theorem Leaves.resumed_iff (h : Leaves s s' ts) (hs : s.Queues) (t : θ) :
    t∈ts ↔ (s.threads t).status = .stalled .futex ∧ (s'.threads t).status = .running := by
  constructor
  · exact fun ht => ⟨(hs.stalled t).mp (h.waited t ht),h.running t ht⟩
  · rintro ⟨hstalled,hrunning⟩
    by_contra ht
    rw [h.same t ht,hstalled] at hrunning
    cases hrunning

/-- The threads with an event have been woken, and they are counted. -/
def Woken (s : SyscallServer θ α π) (events : List (FutexEvent θ)) (count : ℤ) (s' : SyscallServer θ α π) :
    Prop :=
  ∃ts,events=ts.map .woken ∧ count=ts.length ∧ Leaves s s' ts

variable {events events' : List (FutexEvent θ)} {count count' : ℤ}

theorem woken_none (s : SyscallServer θ α π) : Woken s [] 0 s := ⟨[],rfl,rfl,leaves_outside s s.known s.memory⟩

theorem Woken.of_outside {known : List π} {memory : π → BitVec 32}
    (h : Woken {s with known,memory} events count s') : Woken s events count s' := by
  obtain ⟨ts,hevents,hcount,hts⟩ := h
  exact ⟨ts,hevents,hcount,(leaves_outside s known memory).trans hts⟩

theorem Woken.trans (h : Woken s events count s') (h' : Woken s' events' count' s'') :
    Woken s (events++events') (count+count') s'' := by
  obtain ⟨ts,rfl,rfl,hts⟩ := h
  obtain ⟨us,rfl,rfl,hus⟩ := h'
  exact ⟨ts++us,map_append.symm,by simp,hts.trans hus⟩

end Leaves

section Waking

variable [DecidableEq π] [DecidableEq θ]

variable (hs : s.Queues)
include hs

theorem leaves_resumeAll (p : π) (mask : BitVec 32) (k : ℕ) (time : SubsecondTime) :
    Leaves s (s.resumeAll p (firstMatching mask k (s.futexes p))
      (withoutMatching mask k (s.futexes p)) time) ((firstMatching mask k (s.futexes p)).map (·.threadId)) := by
  refine leaves_take hs (firstMatching_perm mask k _) (withoutMatching_sublist mask k _) rfl
    (fun t ht => ?_) (fun t ht => ?_) rfl
  · simp only [resumeAll,if_pos ht]
  · simp only [resumeAll,if_neg ht]

theorem wakeUp_woken (p : π) (mask : BitVec 32) (time : SubsecondTime) (k : ℕ) :
    (wakeUp p mask time k s).Leads fun events x => Woken s events x.1 x.2 := by
  rw [wakeUp_eq]
  rintro _ ⟨⟩
  exact ⟨_,(map_map ..).symm,by rw [length_map],leaves_resumeAll hs p mask k time⟩

theorem futexWake_woken (t : θ) (uaddr : α) (nrWake mask : BitVec 32) (time : SubsecondTime) :
    (s.futexWake t uaddr nrWake mask time).Leads fun events x => Woken s events x.1.1 x.2 := by
  obtain ⟨known,hfind⟩ := s.findFutexByUaddr_eq t uaddr
  have hknown := leaves_outside s known s.memory
  rw [futexWake,hfind]
  refine (wakeUp_woken (hknown.queues hs) _ mask _ _).bind ?_
  rintro ⟨woken,s'⟩ - hwoken
  refine leads_pure ?_
  rw [append_nil]
  exact hwoken.of_outside

theorem wakeTimedOut_leaves (time : SubsecondTime) (p : π) :
    ∃ts s',wakeTimedOut time s p=⟨.ok s',ts.map .timedOut⟩ ∧ Leaves s s' ts := by
  rw [wakeTimedOut]
  cases htake : takeTimedOut time (s.futexes p) with
  | none => exact ⟨[],s,rfl,leaves_outside s s.known s.memory⟩
  | some x =>
    obtain ⟨w,rest⟩:=x
    refine ⟨[w].map (·.threadId),_,rfl,leaves_take hs (takeTimedOut_some htake).2
      (takeTimedOut_sublist htake) ?_ (fun t ht => ?_) (fun t ht => ?_) ?_⟩
    · rfl
    · rw [map_singleton,mem_singleton] at ht
      simp [ht,resumeThread,setThread]
    · rw [map_singleton,mem_singleton] at ht
      simp only [resumeThread,setThread,setFutex,update_of_ne ht]
    · rfl

theorem wakeTimedOut_foldlM_leaves (time : SubsecondTime) (ps : List π) :
    ∃ts s',ps.foldlM (wakeTimedOut time) s=⟨.ok s',ts.map .timedOut⟩ ∧ Leaves s s' ts := by
  induction ps generalizing s with
  | nil => exact ⟨[],s,rfl,leaves_outside s s.known s.memory⟩
  | cons p ps ih =>
    obtain ⟨ts,s₁,hfirst,hts⟩ := wakeTimedOut_leaves hs time p
    obtain ⟨us,s₂,hrest,hus⟩ := ih (hts.queues hs)
    refine ⟨ts++us,s₂,?_,hts.trans hus⟩
    rw [foldlM_cons,hfirst,mk_ok_bind,hrest,map_append]

end Waking

section Requeueing

variable [DecidableEq π] {p p2 : π} {t : θ} {k : ℕ}

/-- The queue of the first futex has been appended to that of the second. -/
def requeued (s : SyscallServer θ α π) (p p2 : π) : SyscallServer θ α π :=
  { s with
    futexes := Function.update (Function.update s.futexes p []) p2 (s.futexes p2++s.futexes p) }

theorem requeueAll_eq (hne : p≠p2) (hk : (s.futexes p).length<k) :
    requeueAll p p2 k s=⟨.ok (s.requeued p p2),(s.queued p).map .requeued⟩ := by
  induction k generalizing s with
  | zero => exact absurd hk (Nat.not_lt_zero _)
  | succ k ih =>
    rw [requeueAll,requeueWaiter]
    cases hqueue : s.futexes p with
    | nil =>
      have hself : update s.futexes p []=s.futexes := by
        rw [← hqueue,update_eq_self]
      simp [requeued,queued,hqueue,hself,pure_eq,mk_ok_bind]
    | cons w rest =>
      rw [hqueue,length_cons,Nat.succ_lt_succ_iff] at hk
      simp only [setFutex,update_of_ne hne.symm,note,pure_eq,mk_ok_bind]
      rw [ih (by simpa [update_of_ne hne] using hk)]
      simp only [requeued,queued,hqueue,update_of_ne hne,update_self,append_assoc,singleton_append,map_cons,
        append_nil]
      congr 3
      funext q
      by_cases hq : q=p2
      · rw [hq,update_self,update_self]
      · by_cases hqp : q=p
        · simp [hqp,hne]
        · simp [hq,hqp]

theorem requeueAll_self (hqueue : s.futexes p≠[]) (k : ℕ) :
    (requeueAll p p k s).result = .error .unfinished := by
  induction k generalizing s with
  | zero => rfl
  | succ k ih =>
    rw [requeueAll,requeueWaiter]
    cases hp : s.futexes p with
    | nil => exact absurd hp hqueue
    | cons w rest => exact ih (by simp [setFutex])

theorem queued_requeued (hne : p≠p2) (q : π) :
    (s.requeued p p2).queued q =
      if q=p2 then s.queued p2++s.queued p else if q=p then [] else s.queued q := by
  simp only [queued,requeued]
  by_cases hq : q=p2
  · rw [if_pos hq,hq,update_self,map_append]
  · by_cases hqp : q=p
    · rw [if_neg hq,if_pos hqp,hqp]
      simp [hne]
    · rw [if_neg hq,if_neg hqp]
      simp [hq,hqp]

theorem mem_queued_requeued (hne : p≠p2) {q : π} :
    t∈(s.requeued p p2).queued q ↔ q=p2 ∧ t∈s.queued p ∨ q≠p ∧ t∈s.queued q := by
  rw [queued_requeued hne]
  by_cases hq : q=p2
  · rw [if_pos hq,hq,mem_append]
    have := hne.symm
    tauto
  · by_cases hqp : q=p
    · simp [hqp,hne]
    · simp [hq,hqp]

theorem Queues.requeued (hs : s.Queues) (hne : p≠p2) : (s.requeued p p2).Queues where
  once q := by
    rw [queued_requeued hne]
    by_cases hq : q=p2
    · rw [if_pos hq,nodup_append]
      refine ⟨hs.once p2,hs.once p,fun t ht u hu htu => hne ?_⟩
      exact hs.apart p p2 t (htu ▸ hu) ht
    · by_cases hqp : q=p
      · rw [if_neg hq,if_pos hqp]
        exact nodup_nil
      · rw [if_neg hq,if_neg hqp]
        exact hs.once q
  apart q r u hq hr := by
    rw [mem_queued_requeued hne] at hq hr
    rcases hq with ⟨hq,hup⟩ | ⟨hqp,huq⟩
    · rcases hr with ⟨hr,-⟩ | ⟨hrp,hur⟩
      · rw [hq,hr]
      · exact absurd (hs.apart r p u hur hup) hrp
    · rcases hr with ⟨hr,hup⟩ | ⟨hrp,hur⟩
      · exact absurd (hs.apart q p u huq hup) hqp
      · exact hs.apart q r u huq hur
  stalled u := by
    rw [show (s.requeued p p2).threads=s.threads from rfl,← hs.stalled u]
    constructor
    · rintro ⟨q,hq⟩
      rcases (mem_queued_requeued hne).mp hq with ⟨-,hup⟩ | ⟨-,huq⟩
      · exact ⟨p,hup⟩
      · exact ⟨q,huq⟩
    · rintro ⟨q,hq⟩
      by_cases hqp : q=p
      · exact ⟨p2,(mem_queued_requeued hne).mpr (.inl ⟨rfl,hqp ▸ hq⟩)⟩
      · exact ⟨q,(mem_queued_requeued hne).mpr (.inr ⟨hqp,hq⟩)⟩

theorem Inv.requeued (hs : s.Inv) (hne : p≠p2) : (s.requeued p p2).Inv where
  toQueues := hs.toQueues.requeued hne
  masks q w hw := by
    simp only [SyscallServer.requeued] at hw
    by_cases hq : q=p2
    · rw [hq,update_self,mem_append] at hw
      exact hw.elim (hs.masks p2 w) (hs.masks p w)
    · rw [update_of_ne hq] at hw
      by_cases hqp : q=p
      · rw [hqp,update_self] at hw
        cases hw
      · rw [update_of_ne hqp] at hw
        exact hs.masks q w hw
  asleep := hs.asleep
  sleepers := hs.sleepers

end Requeueing

end SyscallServer

end Sniper.Futexes
