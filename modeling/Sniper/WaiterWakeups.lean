import Sniper.DirectoryWaiters

/-!
# Every waiter is woken once

A core sleeps if and only if it has a waiter that has not had its turn. While a reply is handled
the line stays readable.
-/

namespace Sniper.Coherence
open FallibleRuns NotedRuns Noted Function List

/-- The states in which a line is while its waiters are woken. -/
def CacheState.Held (state : CacheState) : Prop := state = .shared ∨ state = .exclusive ∨ state = .modified

theorem CacheState.Held.ne_invalid {state : CacheState} (h : state.Held) : state ≠ .invalid := by
  rintro rfl
  rcases h with h | h | h <;> cases h

theorem CacheState.Held.permits {state : CacheState} (h : state.Held) {exclusive : Bool}
    (hshared : ¬ (exclusive=true ∧ state = .shared)) : state.permits exclusive=true := by
  rcases h with rfl | rfl | rfl
  · cases exclusive with
    | false => rfl
    | true => exact absurd ⟨rfl,rfl⟩ hshared
  · rfl
  · rfl

/-- The line is readable when a waiter is woken and when its thread reads it, and the thread
sleeps for the access of the waiter. -/
def WaiterEvent.Permitted {n : ℕ} : WaiterEvent n → Prop
  | .wake _ w state => state.permits w.exclusive=true
  | .refill a w miss state => miss=⟨a,w.exclusive⟩ ∧ state.permits w.exclusive=true
  | .enqueue .. | .reply _ => True

namespace Line

variable {δ : Type} {l l' : Line δ} {exclusive : Bool}

def requested (l : Line δ) : ℕ := l.toDirectory.countP fun m => m.request.isSome

/-- The waiters are still the same, and no request has been sent. -/
structure Keeps (l l' : Line δ) : Prop where
  waiters : l'.waiters=l.waiters
  requested : l'.requested=l.requested

theorem requested_send (l : Line δ) (m : DirectoryMsg δ) :
    (l.send m).requested=l.requested+if m.request.isSome then 1 else 0 := by
  simp [requested,send,countP_append,countP_singleton]

theorem keeps_send {m : DirectoryMsg δ} (hm : m.request=none) (l : Line δ) (state : CacheState) :
    l.Keeps ({l with state}.send m) := by
  refine ⟨rfl,?_⟩
  rw [requested_send,hm]
  rfl

theorem access_permitted (h : l.state.permits exclusive=true) :
    l.access exclusive = .ok {l with state:=if exclusive then .modified else l.state} := by
  obtain ⟨state,data,waiters,toCache,toDirectory⟩:=l
  cases exclusive <;> cases state <;> first | rfl | cases h

theorem store_keeps (l : Line δ) (data : δ) : l.Keeps (l.store data) := by
  rw [store]
  split <;> exact ⟨rfl,rfl⟩

theorem evict_keeps (l : Line δ) : l.Keeps l.evict := by
  rw [evict]
  split
  · exact keeps_send rfl l .invalid
  · exact keeps_send rfl l .invalid
  · exact keeps_send rfl l .invalid
  · exact ⟨rfl,rfl⟩

theorem processUpgradeReq_shared (h : l.state = .shared) :
    l.processUpgradeReqToDirectory = .ok ({l with state:=.sharedUpgrading}.send .upgradeReq) :=
  if_pos h

theorem initiateDirectoryAccess_first (hempty : l.waiters=[])
    (h : l.initiateDirectoryAccess exclusive = .ok l') :
    ∃ (state : CacheState) (m : DirectoryMsg δ),m.request.isSome=true ∧
      l'={l with state,waiters:=l.waiters++[exclusive]}.send m := by
  unfold initiateDirectoryAccess processUpgradeReqToDirectory processExReqToDirectory
    processShReqToDirectory at h
  dsimp only at h
  rw [if_pos hempty] at h
  split_ifs at h <;> cases h
  · exact ⟨_,_,rfl,rfl⟩
  · exact ⟨_,_,rfl,rfl⟩
  · exact ⟨_,_,rfl,rfl⟩

theorem initiateDirectoryAccess_joins (h : l.initiateDirectoryAccess exclusive = .ok l') :
    l'.waiters=l.waiters++[exclusive] ∧
    l'.requested=l.requested+(if l.waiters=[] then 1 else 0) ∧
    (l.waiters≠[] → l'.state=l.state) := by
  by_cases hempty : l.waiters=[]
  · obtain ⟨state,m,hm,rfl⟩:=initiateDirectoryAccess_first hempty h
    refine ⟨rfl,?_,fun hne => absurd hempty hne⟩
    rw [requested_send,if_pos hm,if_pos hempty]
    rfl
  · unfold initiateDirectoryAccess at h
    dsimp only at h
    rw [if_neg hempty] at h
    cases h
    exact ⟨rfl,by rw [if_neg hempty]; rfl,fun _ => rfl⟩

theorem wake_waiters (l : Line δ) (flags ws : List Bool) :
    ({l with waiters:=flags} : Line δ).wake ws=l.wake ws := by
  induction ws generalizing l with
  | nil => rfl
  | cons w ws ih =>
    cases w with
    | false => exact ih l
    | true =>
      rw [wake,wake]
      split_ifs
      · rfl
      · exact ih {l with state:=.modified}

theorem wake_permitted {ws : List Bool} (hup : ¬ (exclusive=true ∧ l.state = .shared)) :
    l.wake (exclusive::ws) =
      ({l with state:=if exclusive then .modified else l.state} : Line δ).wake ws := by
  cases exclusive with
  | false => rfl
  | true =>
    rw [wake,if_neg fun hshared => hup ⟨rfl,hshared⟩]
    rfl

theorem insertCacheBlock_keeps {state : CacheState} {data : δ} (hheld : state.Held)
    (h : l.insertCacheBlock state data = .ok l') : l.Keeps l' ∧ l'.state.Held := by
  unfold insertCacheBlock at h
  split_ifs at h
  cases h
  exact ⟨⟨rfl,rfl⟩,hheld⟩

theorem processUpgradeRep_keeps (h : l.processUpgradeRepFromDramDirectory = .ok l') :
    l.Keeps l' ∧ l'.state.Held := by
  unfold processUpgradeRepFromDramDirectory at h
  split_ifs at h
  cases h
  exact ⟨⟨rfl,rfl⟩,Or.inr (Or.inr rfl)⟩

theorem processInvReq_keeps (h : l.processInvReqFromDramDirectory = .ok l') : l.Keeps l' := by
  unfold processInvReqFromDramDirectory at h
  split at h
  · cases h
    exact ⟨rfl,rfl⟩
  · cases h
  · cases h
    exact keeps_send rfl l .invalid

theorem processFlushReq_keeps (l : Line δ) : l.Keeps l.processFlushReqFromDramDirectory := by
  rw [processFlushReqFromDramDirectory]
  split
  · exact ⟨rfl,rfl⟩
  · exact keeps_send rfl l .invalid

theorem processWbReq_keeps (l : Line δ) (stack : δ) : l.Keeps (l.processWbReqFromDramDirectory stack) := by
  rw [processWbReqFromDramDirectory]
  split
  · exact ⟨rfl,rfl⟩
  · exact keeps_send rfl l l.state
  · exact keeps_send rfl l .shared

end Line

namespace SharedCache

variable {n : ℕ} {δ : Type} {s s' : SharedCache n δ} {a : ℕ} {w : CacheDirectoryWaiter n}

section

variable (s)

def pending (a : ℕ) : List (CacheDirectoryWaiter n) :=
  if s.network = .returning a then (s.waiters a).tail else s.waiters a

/-- The waiter whose turn it is stays first, and the line permits its access. -/
structure Attends (a : ℕ) : Prop where
  flags : (s.lines a).waiters=(s.waiters a).map (·.exclusive)
  served : s.network.block=some a → s.waiters a≠[] ∧ (s.lines a).state.Held
  permitted : s.network = .passed a → ∀w∈(s.waiters a).head?,
    (s.lines a).state.permits w.exclusive=true

structure Inv : Prop where
  blocks : ∀a,s.Attends a
  /-- a core sleeps as long as it has a waiter whose access has not been made -/
  asleep : ∀c x,s.threads c=some x ↔
    ∃w∈s.pending x.address,w.core=c ∧ w.exclusive=x.exclusive
  cores : ∀a,((s.pending a).map (·.core)).Nodup

end

theorem attends_away (hflags : (s.lines a).waiters=(s.waiters a).map (·.exclusive))
    (haway : s.network.block≠some a) : s.Attends a :=
  ⟨hflags,fun h => absurd h haway,fun h => absurd (congrArg NetworkThread.block h) haway⟩

theorem inv_new (memory : ℕ → δ) : (new memory : SharedCache n δ).Inv where
  blocks a := attends_away rfl (by simp [new,NetworkThread.block])
  asleep c x := by simp [new,pending]
  cores a := by simp [new,pending]

theorem setLine_lines_self (s : SharedCache n δ) (a : ℕ) (l : Line δ) : (s.setLine a l).lines a=l :=
  update_self ..

theorem setLine_lines_of_ne (s : SharedCache n δ) (l : Line δ) {b : ℕ} (h : b≠a) :
    (s.setLine a l).lines b=s.lines b := update_of_ne h ..

theorem Attends.frame (h : s.Attends a) (hlines : s'.lines a=s.lines a) (hwaiters : s'.waiters a=s.waiters a)
    (hnetwork : s'.network.block=some a → s'.network=s.network) : s'.Attends a := by
  refine ⟨?_,fun hb => ?_,fun hn => ?_⟩
  · rw [hlines,hwaiters]
    exact h.flags
  · rw [hlines,hwaiters]
    exact h.served (hnetwork hb ▸ hb)
  · rw [hlines,hwaiters]
    exact h.permitted (hnetwork (congrArg NetworkThread.block hn) ▸ hn)

theorem Inv.setLine (h : s.Inv) {l : Line δ} (hw : l.waiters=(s.lines a).waiters)
    (hstate : s.network.block=some a → l.state.Held ∧
      ∀exclusive,(s.lines a).state.permits exclusive=true → l.state.permits exclusive=true) :
    (s.setLine a l).Inv := by
  refine ⟨fun b => ?_,h.asleep,h.cores⟩
  by_cases hba : b=a
  · subst hba
    have hb := h.blocks b
    refine ⟨?_,fun hn => ⟨(hb.served hn).1,?_⟩,fun hn w hw => ?_⟩
    · rw [setLine_lines_self,hw]
      exact hb.flags
    · rw [setLine_lines_self]
      exact (hstate hn).1
    · rw [setLine_lines_self]
      exact (hstate (congrArg NetworkThread.block hn)).2 _ (hb.permitted hn w hw)
  · exact (h.blocks b).frame (setLine_lines_of_ne s l hba) rfl fun _ => rfl

theorem Inv.idle (h : s.Inv) (hn : s.network = .idle) :
    ({s with network:=.idle} : SharedCache n δ).Inv := by
  rw [← hn]
  exact h

section WakeFront

variable {rest : List (CacheDirectoryWaiter n)}

theorem wakeFront_nil (hqueue : s.waiters a=[]) :
    s.wakeFront a=pure {s with network:=.idle} := by
  rw [wakeFront,hqueue]

theorem wakeFront_upgrade (hqueue : s.waiters a=w::rest) (hexclusive : w.exclusive=true)
    (hshared : (s.lines a).state = .shared) :
    s.wakeFront a=pure { s.setLine a
      ({s.lines a with state:=.sharedUpgrading}.send .upgradeReq) with network := .idle } := by
  rw [wakeFront,hqueue]
  dsimp only
  rw [if_pos ⟨hexclusive,hshared⟩,Line.processUpgradeReq_shared hshared,quiet_ok_bind]

theorem wakeFront_wake (hqueue : s.waiters a=w::rest) (hheld : (s.lines a).state.Held)
    (hup : ¬ (w.exclusive=true ∧ (s.lines a).state = .shared)) :
    s.wakeFront a=(do
      note (.wake a w (s.lines a).state)
      pure {s with network:=.passed a}) := by
  rw [wakeFront,hqueue]
  dsimp only
  rw [if_neg hup,if_neg fun hprefetch => hheld.ne_invalid hprefetch.2]

end WakeFront

theorem Inv.wakeFront (h : ({s with network:=.idle} : SharedCache n δ).Inv)
    (hheld : (s.lines a).state.Held) {mayFail : Prop} :
    (s.wakeFront a).Meets WaiterEvent.Permitted Inv mayFail := by
  cases hqueue : s.waiters a with
  | nil =>
    rw [wakeFront_nil hqueue]
    exact meets_pure h
  | cons w rest =>
    by_cases hup : w.exclusive=true ∧ (s.lines a).state = .shared
    · rw [wakeFront_upgrade hqueue hup.1 hup.2]
      exact meets_pure (h.setLine rfl fun hn => by cases hn)
    · have hpermits := hheld.permits hup
      rw [wakeFront_wake hqueue hheld hup]
      refine .note_bind hpermits (meets_pure ⟨fun b => ?_,h.asleep,h.cores⟩)
      by_cases hba : b=a
      · subst hba
        refine ⟨(h.blocks b).flags,fun _ => ⟨?_,hheld⟩,fun _ v hv => ?_⟩
        · rw [hqueue]
          exact cons_ne_nil w rest
        · rw [hqueue] at hv
          cases hv
          exact hpermits
      · exact (h.blocks b).frame rfl rfl fun hn => absurd (Option.some.inj hn).symm hba

theorem Inv.handleReply (h : s.Inv) (hn : s.network = .idle) {line : Except Abort (Line δ)}
    (hline : ∀l,line = .ok l → (s.lines a).Keeps l ∧ l.state.Held) :
    (s.handleReply a line).Meets WaiterEvent.Permitted Inv True := by
  rw [SharedCache.handleReply]
  split_ifs with hempty
  · exact meets_error _
  · refine .note_bind trivial (.quiet_bind (yields_of_ok trivial hline) fun l _ hl => ?_)
    have hinv : (s.setLine a l).Inv := h.setLine hl.1.waiters fun hb => by
      rw [hn] at hb
      cases hb
    refine (hinv.idle hn).wakeFront ?_
    rw [setLine_lines_self]
    exact hl.2

theorem Inv.handleMsg (h : s.Inv) (hn : s.network = .idle) (m : CacheMsg δ) (stack : δ) :
    (s.handleMsgFromDramDirectory a m stack).Meets WaiterEvent.Permitted Inv True := by
  -- an idle network thread has no waiter to keep the line for
  have hkeep : ∀l,(s.lines a).Keeps l → (s.setLine a l).Inv := fun l hl =>
    h.setLine hl.waiters fun hb => by
      rw [hn] at hb
      cases hb
  cases m with
  | exRep data => exact h.handleReply hn fun l => Line.insertCacheBlock_keeps (Or.inr (Or.inl rfl))
  | shRep data => exact h.handleReply hn fun l => Line.insertCacheBlock_keeps (Or.inl rfl)
  | upgradeRep => exact h.handleReply hn fun l => Line.processUpgradeRep_keeps
  | invReq =>
    exact .quiet_bind (yields_of_ok trivial fun l hok => Line.processInvReq_keeps hok)
      fun l _ hl => meets_pure (hkeep l hl)
  | flushReq => exact meets_pure (hkeep _ (Line.processFlushReq_keeps _))
  | wbReq => exact meets_pure (hkeep _ (Line.processWbReq_keeps _ stack))

theorem pending_of_ne (hn : s.network ≠ .returning a) : s.pending a=s.waiters a := if_neg hn

theorem pending_returning (hn : s.network = .returning a) : s.pending a=(s.waiters a).tail := if_pos hn

theorem Inv.threads_of_pending (h : s.Inv) (hw : w∈s.pending a) :
    s.threads w.core=some ⟨a,w.exclusive⟩ := (h.asleep w.core ⟨a,w.exclusive⟩).mpr ⟨w,hw,rfl,rfl⟩

theorem held_accessed {state : CacheState} (h : state.Held) (exclusive : Bool) :
    (if exclusive then .modified else state : CacheState).Held := by
  cases exclusive with
  | false => exact h
  | true => exact Or.inr (Or.inr rfl)

def returned (s : SharedCache n δ) (a : ℕ) (w : CacheDirectoryWaiter n) : SharedCache n δ :=
  { s.setLine a { s.lines a with
      state := if w.exclusive then .modified else (s.lines a).state } with
    network := .returning a
    threads := Function.update s.threads w.core none }

theorem Inv.refill_passed (h : s.Inv) {rest : List (CacheDirectoryWaiter n)}
    (hn : s.network = .passed a) (hqueue : s.waiters a=w::rest) :
    s.refill w.core=(do
      note (.refill a w ⟨a,w.exclusive⟩ (s.lines a).state)
      pure (s.returned a w)) ∧ (s.lines a).state.permits w.exclusive=true := by
  have hpending : w∈s.pending a := by
    rw [pending_of_ne (by rw [hn]; simp),hqueue]
    exact mem_cons_self
  have hpermits := (h.blocks a).permitted hn w (by rw [hqueue]; rfl)
  refine ⟨?_,hpermits⟩
  rw [SharedCache.refill,hn,h.threads_of_pending hpending]
  dsimp only
  rw [hqueue]
  dsimp only
  rw [if_pos rfl,if_pos hpermits,Line.access_permitted hpermits,quiet_ok_bind]
  rfl

theorem Inv.refill_cases (h : s.Inv) (c : Fin n) : s.refill c=pure s ∨
    ∃a w rest,s.network = .passed a ∧ s.waiters a=w::rest ∧
      (s.lines a).state.permits w.exclusive=true ∧ s.refill c=(do
        note (.refill a w ⟨a,w.exclusive⟩ (s.lines a).state)
        pure (s.returned a w)) := by
  rw [SharedCache.refill]
  split
  case h_2 => exact Or.inl rfl
  case h_1 a x hn hx =>
    cases hqueue : s.waiters a with
    | nil => exact Or.inl rfl
    | cons w rest =>
      dsimp only
      by_cases hcore : w.core=c
      · obtain ⟨hrefill,hpermits⟩:=h.refill_passed hn hqueue
        refine Or.inr ⟨a,w,rest,hn,hqueue,hpermits,?_⟩
        rw [SharedCache.refill,hn,hcore,hx] at hrefill
        dsimp only at hrefill
        rw [hqueue] at hrefill
        rw [← hrefill]
      · rw [if_neg hcore]
        exact Or.inl rfl

theorem Inv.asleep_of_ne (h : s.Inv) {t : SharedCache n δ} {c : Fin n} {x : Miss} (hc : c≠w.core)
    (hsame : t.threads c=s.threads c)
    (hself : ∀v : CacheDirectoryWaiter n,v.core≠w.core → (v∈t.pending a ↔ v∈s.pending a))
    (hothers : ∀b≠a,t.pending b=s.pending b) : t.threads c=some x ↔
      ∃v∈t.pending x.address,v.core=c ∧ v.exclusive=x.exclusive := by
  rw [hsame,h.asleep c x]
  by_cases hxa : x.address=a
  · rw [hxa]
    apply exists_congr
    intro v
    apply and_congr_left
    rintro ⟨rfl,-⟩
    exact (hself v hc).symm
  · rw [hothers _ hxa]

theorem Inv.returned (h : s.Inv) {rest : List (CacheDirectoryWaiter n)} (hn : s.network = .passed a)
    (hqueue : s.waiters a=w::rest) : (s.returned a w).Inv := by
  obtain ⟨t,ht⟩ : ∃t,t=s.returned a w:=⟨_,rfl⟩
  have hheld := ((h.blocks a).served (congrArg NetworkThread.block hn)).2
  have hpending : s.pending a=w::rest := by
    rw [pending_of_ne (by rw [hn]; simp),hqueue]
  have hself : t.pending a=rest := by
    rw [pending_returning (ht ▸ rfl),ht]
    exact congrArg List.tail hqueue
  have hothers : ∀b≠a,t.pending b=s.pending b := fun b hb => by
    rw [pending_of_ne (by rw [ht]; simpa [SharedCache.returned] using Ne.symm hb),
      pending_of_ne (by rw [hn]; simp),ht]
    rfl
  have hnodup := h.cores a
  rw [hpending,map_cons,nodup_cons] at hnodup
  rw [← ht]
  refine ⟨fun b => ?_,fun c x => ?_,fun b => ?_⟩
  · by_cases hba : b=a
    · subst hba
      refine ⟨?_,fun _ => ⟨?_,?_⟩,fun hp => ?_⟩
      · rw [ht]
        exact (congrArg Line.waiters (setLine_lines_self s b _)).trans (h.blocks b).flags
      · rw [ht]
        exact fun hnil => absurd (hqueue.symm.trans hnil) (cons_ne_nil w rest)
      · rw [ht]
        exact (setLine_lines_self s b _).symm ▸ held_accessed hheld w.exclusive
      · rw [ht] at hp
        cases hp
    · subst ht
      exact (h.blocks b).frame (setLine_lines_of_ne s _ hba) rfl
        fun hb => absurd (Option.some.inj hb).symm hba
  · by_cases hc : c=w.core
    · subst hc
      have hnone : t.threads w.core=none := by
        rw [ht]
        exact update_self ..
      rw [hnone]
      refine iff_of_false (by simp) ?_
      rintro ⟨v,hv,hcore,-⟩
      by_cases hxa : x.address=a
      · rw [hxa,hself] at hv
        exact hnodup.1 (mem_map.mpr ⟨v,hv,hcore⟩)
      · rw [hothers _ hxa] at hv
        have hv' := h.threads_of_pending hv
        rw [hcore,h.threads_of_pending (hpending ▸ mem_cons_self)] at hv'
        exact hxa (congrArg Miss.address (Option.some.inj hv')).symm
    · have hsame : t.threads c=s.threads c := by
        rw [ht]
        exact update_of_ne hc ..
      apply h.asleep_of_ne hc hsame _ hothers
      intro v hv
      rw [hself,hpending,mem_cons]
      exact (or_iff_right fun hvw => hv (congrArg CacheDirectoryWaiter.core hvw)).symm
  · by_cases hba : b=a
    · rw [hba,hself]
      exact hnodup.2
    · rw [hothers b hba]
      exact h.cores b

theorem Inv.refill (h : s.Inv) (c : Fin n) : (s.refill c).Meets WaiterEvent.Permitted Inv True := by
  rcases h.refill_cases c with hstay | ⟨a,w,rest,hn,hqueue,hpermits,hturn⟩
  · rw [hstay]
    exact meets_pure h
  · rw [hturn]
    exact .note_bind ⟨rfl,hpermits⟩ (meets_pure (h.returned hn hqueue))

section

variable (s)

def dequeued (a : ℕ) : SharedCache n δ :=
  { s.setLine a {s.lines a with waiters:=(s.lines a).waiters.tail} with
    waiters := Function.update s.waiters a (s.waiters a).tail }

theorem dequeued_lines_self (a : ℕ) :
    (s.dequeued a).lines a={s.lines a with waiters:=(s.lines a).waiters.tail} :=
  setLine_lines_self s a _

theorem dequeued_lines_of_ne {b : ℕ} (h : b≠a) : (s.dequeued a).lines b=s.lines b := setLine_lines_of_ne s _ h

theorem dequeued_waiters_self (a : ℕ) : (s.dequeued a).waiters a=(s.waiters a).tail := update_self ..

theorem dequeued_waiters_of_ne {b : ℕ} (h : b≠a) : (s.dequeued a).waiters b=s.waiters b := update_of_ne h ..

end

theorem Inv.dequeued (h : s.Inv) (hn : s.network = .returning a) :
    ({s.dequeued a with network:=.idle} : SharedCache n δ).Inv := by
  have hpending : ∀b,({s.dequeued a with network:=.idle} : SharedCache n δ).pending b =
      s.pending b := by
    intro b
    rw [pending_of_ne (by simp)]
    by_cases hba : b=a
    · rw [hba,pending_returning hn]
      exact dequeued_waiters_self s a
    · rw [pending_of_ne (by rw [hn]; simpa using Ne.symm hba)]
      exact dequeued_waiters_of_ne s hba
  refine ⟨fun b => ?_,fun c x => ?_,fun b => ?_⟩
  · by_cases hba : b=a
    · subst hba
      refine attends_away ?_ (by simp [NetworkThread.block])
      change ((s.dequeued b).lines b).waiters=((s.dequeued b).waiters b).map _
      rw [dequeued_lines_self,dequeued_waiters_self,map_tail,(h.blocks b).flags]
    · exact (h.blocks b).frame (dequeued_lines_of_ne s hba) (dequeued_waiters_of_ne s hba)
        fun hb => by cases hb
  · rw [hpending]
    exact h.asleep c x
  · rw [hpending]
    exact h.cores b

theorem Inv.resume_returning (h : s.Inv) (hn : s.network = .returning a) :
    s.resume=(s.dequeued a).wakeFront a := by
  have hne := ((h.blocks a).served (congrArg NetworkThread.block hn)).1
  rw [SharedCache.resume,hn]
  dsimp only
  rw [dequeue,if_neg hne,quiet_ok_bind]
  rfl

theorem Inv.resume (h : s.Inv) : s.resume.Meets WaiterEvent.Permitted Inv True := by
  cases hn : s.network with
  | idle =>
    rw [SharedCache.resume,hn]
    exact meets_pure h
  | passed a =>
    rw [SharedCache.resume,hn]
    exact meets_pure h
  | returning a =>
    rw [h.resume_returning hn]
    refine (h.dequeued hn).wakeFront ?_
    rw [dequeued_lines_self]
    exact ((h.blocks a).served (congrArg NetworkThread.block hn)).2

section

variable (s)

def joined (a : ℕ) (w : CacheDirectoryWaiter n) (l : Line δ) : SharedCache n δ :=
  { s.setLine a l with
    waiters := Function.update s.waiters a (s.waiters a++[w])
    threads := Function.update s.threads w.core (some ⟨a,w.exclusive⟩) }

theorem joined_waiters_self (a : ℕ) (w : CacheDirectoryWaiter n) (l : Line δ) :
    (s.joined a w l).waiters a=s.waiters a++[w] := update_self ..

theorem joined_waiters_of_ne (w : CacheDirectoryWaiter n) (l : Line δ) {b : ℕ} (h : b≠a) :
    (s.joined a w l).waiters b=s.waiters b := update_of_ne h ..

end

theorem Inv.joined (h : s.Inv) {l : Line δ} (hcore : s.threads w.core=none) (hn : s.network ≠ .passed a)
    (hw : l.waiters=(s.lines a).waiters++[w.exclusive])
    (hstate : (s.lines a).waiters≠[] → l.state=(s.lines a).state) : (s.joined a w l).Inv := by
  obtain ⟨t,ht⟩ : ∃t,t=s.joined a w l:=⟨_,rfl⟩
  have hnetwork : t.network=s.network := ht ▸ rfl
  have hwaiters : t.waiters a=s.waiters a++[w] := ht ▸ joined_waiters_self s a w l
  have hself : t.pending a=s.pending a++[w] := by
    by_cases hreturning : s.network = .returning a
    · have hne := ((h.blocks a).served (congrArg NetworkThread.block hreturning)).1
      rw [pending_returning hreturning,pending_returning (hnetwork.trans hreturning),hwaiters,
        tail_append_of_ne_nil hne]
    · rw [pending_of_ne hreturning,pending_of_ne (hnetwork ▸ hreturning),hwaiters]
  have hothers : ∀b≠a,t.pending b=s.pending b := fun b hb => by
    rw [pending,pending,hnetwork,ht,joined_waiters_of_ne s w l hb]
  have hawake : ∀b,∀v∈s.pending b,v.core≠w.core := fun b v hv hc => by
    have hv' := h.threads_of_pending hv
    rw [hc,hcore] at hv'
    cases hv'
  rw [← ht]
  refine ⟨fun b => ?_,fun c x => ?_,fun b => ?_⟩
  · by_cases hba : b=a
    · subst hba
      have hlines : t.lines b=l := ht ▸ setLine_lines_self s b l
      have hflags := (h.blocks b).flags
      refine ⟨?_,fun hb => ?_,fun hp => absurd (hnetwork.symm.trans hp) hn⟩
      · rw [hlines,hwaiters,hw,hflags,map_append,map_singleton]
      · obtain ⟨hne,hheld⟩:=(h.blocks b).served (hnetwork ▸ hb)
        rw [hlines,hwaiters,hstate (by rw [hflags]; simpa using hne)]
        exact ⟨append_ne_nil_of_right_ne_nil _ (cons_ne_nil w []),hheld⟩
    · subst ht
      exact (h.blocks b).frame (setLine_lines_of_ne s l hba) (joined_waiters_of_ne s w l hba)
        fun _ => rfl
  · by_cases hc : c=w.core
    · subst hc
      have hsome : t.threads w.core=some ⟨a,w.exclusive⟩ := ht ▸ update_self ..
      rw [hsome]
      constructor
      · rintro ⟨⟩
        exact ⟨w,by rw [hself]; simp,rfl,rfl⟩
      · rintro ⟨v,hv,hvcore,hx⟩
        by_cases hxa : x.address=a
        · rw [hxa,hself,mem_append,mem_singleton] at hv
          rcases hv with hv | rfl
          · exact absurd hvcore (hawake a v hv)
          · rw [hx,← hxa]
        · exact absurd hvcore (hawake _ v (hothers _ hxa ▸ hv))
    · have hsame : t.threads c=s.threads c := ht ▸ update_of_ne hc ..
      apply h.asleep_of_ne hc hsame _ hothers
      intro v hv
      rw [hself,mem_append,mem_singleton]
      exact or_iff_left fun hvw => hv (congrArg CacheDirectoryWaiter.core hvw)
  · by_cases hba : b=a
    · rw [hba,hself,map_append,map_singleton]
      refine List.Nodup.append (h.cores a) (nodup_singleton _) fun c hc hc' => ?_
      obtain ⟨v,hv,rfl⟩:=mem_map.mp hc
      exact hawake a v hv (mem_singleton.mp hc')
    · rw [hothers b hba]
      exact h.cores b

theorem Inv.access (h : s.Inv) (c : Fin n) (exclusive isPrefetch : Bool) :
    (s.access c a exclusive isPrefetch).Meets WaiterEvent.Permitted Inv True := by
  rw [SharedCache.access]
  split_ifs with hblocked hpermits
  · exact meets_pure h
  · rw [Line.access_permitted hpermits,quiet_ok_bind]
    refine meets_pure (h.setLine rfl fun hb => ⟨held_accessed ((h.blocks a).served hb).2 exclusive,?_⟩)
    intro e he
    cases exclusive with
    | false => exact he
    | true => rfl
  · obtain ⟨hawake,hlock⟩:=not_or.mp hblocked
    refine .note_bind trivial (.quiet_bind (yields_of_ok trivial fun l hok =>
      Line.initiateDirectoryAccess_joins hok) fun l _ hl => ?_)
    exact meets_pure (h.joined (not_not.mp hawake) hlock hl.1 hl.2.2)

theorem store_permits (l : Line δ) (data : δ) (exclusive : Bool) (h : l.state.permits exclusive=true) :
    (l.store data).state.permits exclusive=true := by
  rw [Line.store]
  split
  · rfl
  · rfl
  · exact h

theorem store_held (l : Line δ) (data : δ) (h : l.state.Held) : (l.store data).state.Held := by
  rw [Line.store]
  split
  · exact Or.inr (Or.inr rfl)
  · exact Or.inr (Or.inr rfl)
  · exact h

theorem Inv.stepNoted (h : s.Inv) (i : WaiterStep n δ) :
    (s.stepNoted i).Meets WaiterEvent.Permitted Inv True := by
  cases i with
  | access c a exclusive isPrefetch => exact h.access c exclusive isPrefetch
  | store a data =>
    refine meets_pure ?_
    split_ifs with hlock
    · exact h
    · exact h.setLine (Line.store_keeps _ data).waiters fun hb =>
        ⟨store_held _ data ((h.blocks a).served hb).2,store_permits _ data⟩
  | evict a =>
    refine meets_pure ?_
    split_ifs with hn
    · refine h.setLine (Line.evict_keeps _).waiters fun hb => ?_
      rw [hn] at hb
      cases hb
    · exact h
  | deliver a m stack =>
    rw [SharedCache.stepNoted]
    split_ifs with hn
    · exact h.handleMsg hn m stack
    · exact meets_pure h
  | refill c => exact h.refill c
  | resume => exact h.resume

end SharedCache

end Sniper.Coherence
