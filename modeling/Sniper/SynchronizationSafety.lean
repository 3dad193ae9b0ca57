import Sniper.NotedRuns
import Sniper.SyncServer

/-!
# Ownership of mutexes and places of threads

A stalled thread has one place, a queue of a mutex or of a condition variable, and a running
thread has none. What a step does to the mutexes is noted beside it.
-/

namespace Sniper.Synchronization
open FallibleRuns NotedRuns Function List

variable {θ μ κ : Type}

/-- What happens to the ownership of a mutex. -/
inductive MutexEvent (θ : Type) where
  | taken (thread : θ)
  | queued (thread : θ)
  | handed (thread : θ)
  | released (thread : θ)
  deriving DecidableEq

/-- An event changes the owner of a mutex, unless it gives away a mutex that has one or
releases a mutex for a thread that does not own it. -/
def MutexEvent.apply [DecidableEq θ] : Option θ → MutexEvent θ → Option (Option θ)
  | none,.taken t => some (some t)
  | none,.handed t => some (some t)
  | some o,.released t => if o=t then some none else none
  | some o,.queued _ => some (some o)
  | _,_ => none

def queuedThreads (history : List (MutexEvent θ)) : List θ :=
  history.filterMap fun
    | .queued t => some t
    | _ => none

def handedThreads (history : List (MutexEvent θ)) : List θ :=
  history.filterMap fun
    | .handed t => some t
    | _ => none

/-- The history of one mutex. -/
def historyOf [DecidableEq μ] (m : μ) (events : List (μ × MutexEvent θ)) : List (MutexEvent θ) :=
  events.filterMap fun e => if e.1=m then some e.2 else none

theorem historyOf_map [DecidableEq μ] (m m' : μ) (events : List (MutexEvent θ)) :
    historyOf m' (events.map (m,·)) = if m'=m then events else [] := by
  rw [historyOf,filterMap_map]
  split_ifs with h
  · subst h
    exact (filterMap_congr fun e _ => if_pos rfl).trans filterMap_some
  · exact filterMap_eq_nil_iff.mpr fun e _ => if_neg (Ne.symm h)

def BlockingCall.mutex : BlockingCall μ κ → μ
  | .lock m => m
  | .wait _ m => m

namespace SyncServer

section Events

variable [DecidableEq θ] [DecidableEq μ]

section

variable (s : SyncServer θ μ κ) (m : μ) (t : θ)

/-- What `enter` does to the mutex. -/
def entering : List (μ × MutexEvent θ) :=
  [if (s.enter m t).1 then .taken t else .queued t].map (m,·)

/-- What `unlock` does to the mutex. -/
def leaving : List (μ × MutexEvent θ) :=
  match (s.getMutex m).unlock t with
  | .error _ => []
  | .ok x => (.released t::(x.owner.map .handed).toList).map (m,·)

end

/-- What `wakeAll` does to the mutexes of the threads it wakes. -/
def enteringAll [DecidableEq κ] (c : κ) (time : SubsecondTime) :
    List (CondWaiter θ μ) → SyncServer θ μ κ → List (μ × MutexEvent θ)
  | [],_ => []
  | w::rest,s => s.entering w.mutex w.threadId++enteringAll c time rest (s.wake c w rest time).2

variable [DecidableEq κ] (s : SyncServer θ μ κ)

/-- What a step does to the mutexes. -/
def events : SyncStep θ μ κ → List (μ × MutexEvent θ)
  | .mutexLock t m tryLock _ => if tryLock && (s.getMutex m).isLocked t then [] else s.entering m t
  | .mutexUnlock t m _ | .condWait t _ m _ => s.leaving m t
  | .condSignal _ c _ =>
    match s.getCond c with
    | [] => []
    | w::_ => s.entering w.mutex w.threadId
  | .condBroadcast _ c time => enteringAll c time (s.getCond c) (s.setCond c (s.getCond c))
  | .returns _ => []

def stepNoted (i : SyncStep θ μ κ) : Noted (μ × MutexEvent θ) Abort (SyncServer θ μ κ) :=
  ⟨s.step i,s.events i⟩

end Events

/-- The threads that wait for a mutex or for a condition variable. -/
def queue (s : SyncServer θ μ κ) : μ ⊕ κ → List θ
  | .inl m => s.waiting m
  | .inr c => (s.getCond c).map CondWaiter.threadId

/-- The invariant, with the queue that each stalled thread is in. -/
structure Placed (s : SyncServer θ μ κ) (place : θ → Option (μ ⊕ κ)) : Prop where
  mem : ∀t p,t∈s.queue p ↔ place t=some p
  nodup : ∀p,(s.queue p).Nodup
  stalled : ∀t,(s.threads t).status = .stalled ↔ place t≠none
  mutexCall : ∀t m,place t=some (.inl m) →
    ∃call,(s.threads t).call=some call ∧ call.mutex=m
  condCall : ∀c,∀w∈s.getCond c,(s.threads w.threadId).call=some (.wait c w.mutex)
  resumed : ∀t call,(s.threads t).status = .running → (s.threads t).call=some call →
    s.owner call.mutex=some t
  owned : ∀m,s.owner m=none → s.waiting m=[]

theorem new_placed (cost : SubsecondTime) : (new cost : SyncServer θ μ κ).Placed fun _ => none := by
  refine ⟨fun t p => ?_,fun p => ?_,fun t => ?_,fun t m h => ?_,fun c w h => ?_,fun t call _ h => ?_,
    fun m _ => rfl⟩
  · cases p <;> simp [queue,waiting,getMutex,getCond,new,SimMutex.new]
  · cases p <;> simp [queue,waiting,getMutex,getCond,new,SimMutex.new]
  · simp [new]
  · cases h
  · cases h
  · cases h

section Queues

variable (s : SyncServer θ μ κ)

section

variable [DecidableEq μ] (m m' : μ) (x : SimMutex θ)

@[simp] theorem waiting_setMutex :
    (s.setMutex m x).waiting m'=if m'=m then x.waiting else s.waiting m' := by
  rw [waiting,getMutex_setMutex]
  split_ifs <;> rfl

@[simp] theorem owner_setMutex : (s.setMutex m x).owner m'=if m'=m then x.owner else s.owner m' := by
  rw [owner,getMutex_setMutex]
  split_ifs <;> rfl

end

section

variable [DecidableEq θ] (t : θ) (x : Thread μ κ)

@[simp] theorem waiting_setThread : (s.setThread t x).waiting=s.waiting := rfl

@[simp] theorem owner_setThread : (s.setThread t x).owner=s.owner := rfl

@[simp] theorem queue_setThread : (s.setThread t x).queue=s.queue := by
  funext p
  cases p <;> rfl

end

variable [DecidableEq μ] [DecidableEq κ]

@[simp] theorem queue_setMutex (m : μ) (x : SimMutex θ) :
    (s.setMutex m x).queue=update s.queue (.inl m) x.waiting := by
  funext p
  cases p with
  | inl m' => simp [queue,update_apply]
  | inr c => simp [queue]

@[simp] theorem queue_setCond (c : κ) (q : List (CondWaiter θ μ)) :
    (s.setCond c q).queue=update s.queue (.inr c) (q.map CondWaiter.threadId) := by
  funext p
  cases p with
  | inl m => rfl
  | inr c' =>
    by_cases h : c'=c
    · subst h
      simp [queue]
    · simp [queue,h]

end Queues

section Places

variable [DecidableEq μ] [DecidableEq κ] {queue : μ ⊕ κ → List θ}

theorem nodup_update (hnodup : ∀p,(queue p).Nodup) {p : μ ⊕ κ} {q : List θ} (hq : q.Nodup) (p' : μ ⊕ κ) :
    (update queue p q p').Nodup := by
  rw [update_apply]
  split_ifs
  · exact hq
  · exact hnodup p'

variable [DecidableEq θ] {place : θ → Option (μ ⊕ κ)} (hmem : ∀t p,t∈queue p ↔ place t=some p)
include hmem

theorem mem_update_append {t : θ} (ht : place t=none) (p : μ ⊕ κ) (t' : θ) (p' : μ ⊕ κ) :
    t'∈update queue p (queue p++[t]) p' ↔ update place t (some p) t'=some p' := by
  by_cases hp : p'=p
  · subst hp
    by_cases htt : t'=t
    · subst htt
      simp
    · simp [hmem,htt]
  · by_cases htt : t'=t
    · subst htt
      simp [hmem,hp,ht,Ne.symm hp]
    · simp [hmem,hp,htt]

theorem mem_update_tail (hnodup : ∀p,(queue p).Nodup) {p : μ ⊕ κ} {t : θ} {rest : List θ}
    (hp : queue p=t::rest) (t' : θ)
    (p' : μ ⊕ κ) : t'∈update queue p rest p' ↔ update place t none t'=some p' := by
  have htp : place t=some p := (hmem t p).mp (by rw [hp]; exact mem_cons_self)
  have hrest : t∉rest := (nodup_cons.mp (hp ▸ hnodup p)).1
  by_cases htt : t'=t
  · subst htt
    by_cases hpp : p'=p
    · subst hpp
      simpa using hrest
    · have hne : place t'≠some p' := by
        rw [htp]
        exact fun h => hpp (Option.some.inj h).symm
      simp [hpp,hmem,hne]
  · by_cases hpp : p'=p
    · subst hpp
      have hcons := hmem t' p'
      rw [hp,mem_cons] at hcons
      simp [← hcons,htt]
    · simp [hpp,hmem,htt]

end Places

section Steps

variable {s : SyncServer θ μ κ} {place : θ → Option (μ ⊕ κ)} {t : θ} {m : μ} {c : κ}

section

variable (h : s.Placed place)
include h

theorem Placed.call_of_waiting (ht : t∈s.waiting m) :
    (s.threads t).status = .stalled ∧ ∃call,(s.threads t).call=some call ∧ call.mutex=m := by
  have hplace := (h.mem t (.inl m)).mp ht
  refine ⟨(h.stalled t).mpr ?_,h.mutexCall t m hplace⟩
  rw [hplace]
  exact Option.some_ne_none _

theorem Placed.place_none (hrun : (s.threads t).status = .running) : place t=none := by
  by_contra hne
  rw [(h.stalled t).mpr hne] at hrun
  cases hrun

variable [DecidableEq μ] [DecidableEq κ]

theorem Placed.take (hfree : s.owner m=none) : (s.setMutex m ⟨some t,s.waiting m⟩).Placed place := by
  have hqueue : (s.setMutex m ⟨some t,s.waiting m⟩).queue=s.queue := by
    rw [queue_setMutex]
    exact update_eq_self (Sum.inl m) s.queue
  refine ⟨?_,?_,h.stalled,h.mutexCall,h.condCall,fun t' call hrun hcall => ?_,fun m' hm' => ?_⟩
  · rw [hqueue]
    exact h.mem
  · rw [hqueue]
    exact h.nodup
  · have howner := h.resumed t' call hrun hcall
    have hne : call.mutex≠m := fun heq => by
      rw [heq,hfree] at howner
      cases howner
    rw [owner_setMutex,if_neg hne]
    exact howner
  · rw [owner_setMutex] at hm'
    rw [waiting_setMutex]
    split_ifs at hm' ⊢
    exact h.owned m' hm'

variable [DecidableEq θ]

theorem Placed.join {s' : SyncServer θ μ κ} {p : μ ⊕ κ} (call : BlockingCall μ κ)
    (hrun : (s.threads t).status = .running) (hqueue : s'.queue=update s.queue p (s.queue p++[t]))
    (hthreads : s'.threads=(s.stallThread t call).threads) (hmutex : ∀m,p = .inl m → call.mutex=m)
    (hcond : ∀c,∀w∈s'.getCond c,w∈s.getCond c ∨ w.threadId=t ∧ call = .wait c w.mutex)
    (howner : s'.owner=s.owner) (howned : ∀m,s'.owner m=none → s'.waiting m=[]) :
    s'.Placed (update place t (some p)) := by
  have hplace := h.place_none hrun
  have hself : s'.threads t={s.threads t with status:=.stalled,call:=some call} := by
    rw [hthreads,stallThread,threads_setThread,if_pos rfl]
  have hother : ∀t',t'≠t → s'.threads t'=s.threads t' := fun t' ht' => by
    rw [hthreads,stallThread,threads_setThread,if_neg ht']
  refine ⟨fun t' p' => ?_,fun p' => ?_,fun t' => ?_,fun t' m' hm' => ?_,fun c w hw => ?_,
    fun t' call' hrun' hcall => ?_,
    howned⟩
  · rw [hqueue]
    exact mem_update_append h.mem hplace p t' p'
  · rw [hqueue]
    refine nodup_update h.nodup (nodup_append.mpr ⟨h.nodup p,nodup_singleton t,?_⟩) p'
    intro a ha b hb hab
    rw [mem_singleton] at hb
    have hmem := (h.mem a p).mp ha
    rw [hab,hb,hplace] at hmem
    cases hmem
  · by_cases ht' : t'=t
    · subst ht'
      simp [hself]
    · rw [hother t' ht',update_of_ne ht']
      exact h.stalled t'
  · by_cases ht' : t'=t
    · subst ht'
      rw [update_self,Option.some.injEq] at hm'
      exact ⟨call,by rw [hself],hmutex m' hm'⟩
    · rw [update_of_ne ht'] at hm'
      rw [hother t' ht']
      exact h.mutexCall t' m' hm'
  · rcases hcond c w hw with hold | ⟨hwt,hcall⟩
    · have hne : w.threadId≠t := fun heq => by
        have hmem := (h.mem w.threadId (.inr c)).mp (mem_map_of_mem hold)
        rw [heq,hplace] at hmem
        cases hmem
      rw [hother _ hne]
      exact h.condCall c w hold
    · rw [hwt,hself,hcall]
  · by_cases ht' : t'=t
    · subst ht'
      rw [hself] at hrun'
      cases hrun'
    · rw [hother t' ht'] at hrun' hcall
      rw [howner]
      exact h.resumed t' call' hrun' hcall

theorem Placed.queueUp {o : θ} (howner : s.owner m=some o) (hrun : (s.threads t).status = .running) :
    ((s.setMutex m ⟨some o,s.waiting m++[t]⟩).stallThread t (.lock m)).Placed
      (update place t (some (.inl m))) := by
  refine h.join (.lock m) hrun ?_ rfl (fun m' hm' => Sum.inl.inj hm') (fun c w hw => .inl hw)
    ?_ ?_
  · rw [stallThread,queue_setThread,queue_setMutex]
    rfl
  · funext m'
    rw [stallThread,owner_setThread,owner_setMutex]
    split_ifs with hm
    · rw [hm,howner]
    · rfl
  · intro m' hm'
    rw [stallThread,owner_setThread,owner_setMutex] at hm'
    rw [stallThread,waiting_setThread,waiting_setMutex]
    split_ifs at hm' ⊢
    exact h.owned m' hm'

theorem Placed.waitUp (hrun : (s.threads t).status = .running) :
    ((s.setCond c (s.getCond c++[⟨t,m⟩])).stallThread t (.wait c m)).Placed
      (update place t (some (.inr c))) := by
  refine h.join (.wait c m) hrun ?_ rfl (fun m' hm' => by cases hm') (fun c' w hw => ?_) rfl
    h.owned
  · rw [stallThread,queue_setThread,queue_setCond,map_append]
    rfl
  · rw [stallThread,getCond_setThread,getCond_setCond] at hw
    split_ifs at hw with hc
    · rcases mem_append.mp hw with hw | hw
      · exact .inl (hc ▸ hw)
      · rw [mem_singleton.mp hw,hc]
        exact .inr ⟨rfl,rfl⟩
    · exact .inl hw

theorem Placed.leave {s' : SyncServer θ μ κ} {p : μ ⊕ κ} {rest : List θ} {time : SubsecondTime}
    (hp : s.queue p=t::rest) (hcall : ∃call,(s.threads t).call=some call ∧ call.mutex=m)
    (hothers : ∀t' call,(s.threads t').status = .running → (s.threads t').call=some call →
    call.mutex≠m) (hqueue : s'.queue=update s.queue p rest)
    (hthreads : s'.threads=(s.resumeThread t time).threads)
    (hcond : ∀c,∀w∈s'.getCond c,w∈s.getCond c)
    (howner : ∀m',s'.owner m'=if m'=m then some t else s.owner m')
    (howned : ∀m',s'.owner m'=none → s'.waiting m'=[]) :
    s'.Placed (update place t none) := by
  have hself : s'.threads t={s.threads t with status:=.running,wakeupTime:=time} := by
    rw [hthreads,resumeThread,threads_setThread,if_pos rfl]
  have hother : ∀t',t'≠t → s'.threads t'=s.threads t' := fun t' ht' => by
    rw [hthreads,resumeThread,threads_setThread,if_neg ht']
  have hcalls : ∀t',(s'.threads t').call=(s.threads t').call := fun t' => by
    by_cases ht' : t'=t
    · rw [ht',hself]
    · rw [hother t' ht']
  refine ⟨fun t' p' => ?_,fun p' => ?_,fun t' => ?_,fun t' m' hm' => ?_,fun c w hw => ?_,
    fun t' call' hrun' hcall' => ?_,
    howned⟩
  · rw [hqueue]
    exact mem_update_tail h.mem h.nodup hp t' p'
  · rw [hqueue]
    exact nodup_update h.nodup (nodup_cons.mp (hp ▸ h.nodup p)).2 p'
  · by_cases ht' : t'=t
    · subst ht'
      simp [hself]
    · rw [hother t' ht',update_of_ne ht']
      exact h.stalled t'
  · have hne : t'≠t := fun heq => by
      rw [heq,update_self] at hm'
      cases hm'
    rw [update_of_ne hne] at hm'
    rw [hcalls]
    exact h.mutexCall t' m' hm'
  · rw [hcalls]
    exact h.condCall c w (hcond c w hw)
  · rw [hcalls] at hcall'
    by_cases ht' : t'=t
    · subst ht'
      obtain ⟨call,hc,hm⟩ := hcall
      rw [hc,Option.some.injEq] at hcall'
      rw [← hcall',howner,if_pos hm]
    · rw [hother t' ht'] at hrun'
      rw [howner,if_neg (hothers t' call' hrun' hcall')]
      exact h.resumed t' call' hrun' hcall'

theorem Placed.unlock (howner : s.owner m=some t) (hcall : (s.threads t).call=none)
    (hrun : (s.threads t).status = .running) (time : SubsecondTime) :
    ∃w s' place',s.unlock m t time = .ok (w,s') ∧ s'.Placed place' ∧ s'.threads t=s.threads t := by
  have hmutex : (s.getMutex m).owner=some t := howner
  have hothers : ∀t' call,(s.threads t').status = .running → (s.threads t').call=some call →
      call.mutex≠m := fun t' call hrun' hcall' heq => by
    have hself := h.resumed t' call hrun' hcall'
    rw [heq,howner,Option.some.injEq] at hself
    rw [← hself,hcall] at hcall'
    cases hcall'
  rw [SyncServer.unlock,SimMutex.unlock,if_pos hmutex]
  cases hwait : (s.getMutex m).waiting with
  | nil =>
    refine ⟨none,_,place,rfl,?_,rfl⟩
    have hqueue : (s.setMutex m ⟨none,[]⟩).queue=s.queue := by
      rw [queue_setMutex,← hwait]
      exact update_eq_self (Sum.inl m) s.queue
    refine ⟨?_,?_,h.stalled,h.mutexCall,h.condCall,fun t' call hrun' hcall' => ?_,fun m' hm' => ?_⟩
    · rw [hqueue]
      exact h.mem
    · rw [hqueue]
      exact h.nodup
    · rw [owner_setMutex,if_neg (hothers t' call hrun' hcall')]
      exact h.resumed t' call hrun' hcall'
    · rw [owner_setMutex] at hm'
      rw [waiting_setMutex]
      split_ifs at hm' ⊢
      · rfl
      · exact h.owned m' hm'
  | cons w rest =>
    have hw : w∈s.waiting m := by
      rw [waiting,hwait]
      exact mem_cons_self
    obtain ⟨hstalled,hcallw⟩ := h.call_of_waiting hw
    have hne : t≠w := fun heq => by
      rw [heq,hstalled] at hrun
      cases hrun
    refine ⟨some w,_,update place w none,rfl,?_,?_⟩
    · refine h.leave (p:=.inl m) hwait hcallw hothers ?_ rfl (fun c w hw => hw) (fun m' => ?_)
        (fun m' hm' => ?_)
      · rw [resumeThread,queue_setThread,queue_setMutex]
      · rw [resumeThread,owner_setThread,owner_setMutex]
      · rw [resumeThread,owner_setThread,owner_setMutex] at hm'
        rw [resumeThread,waiting_setThread,waiting_setMutex]
        split_ifs at hm' ⊢
        exact h.owned m' hm'
    · rw [resumeThread,threads_setThread,if_neg hne]
      rfl

end

variable {rest : List (CondWaiter θ μ)} {w : CondWaiter θ μ}

theorem queue_cond (hcond : s.getCond c=w::rest) :
    s.queue (.inr c)=w.threadId::rest.map CondWaiter.threadId := by
  rw [queue,hcond,map_cons]

theorem mem_getCond_tail [DecidableEq κ] (hcond : s.getCond c=w::rest) (c' : κ) (w' : CondWaiter θ μ)
    (hw' : w'∈(s.setCond c rest).getCond c') : w'∈s.getCond c' := by
  rw [getCond_setCond] at hw'
  split_ifs at hw' with hc
  · rw [hc,hcond]
    exact mem_cons_of_mem _ hw'
  · exact hw'

section

variable (h : s.Placed place)
include h

theorem Placed.returns [DecidableEq θ] (hrun : (s.threads t).status = .running) :
    (s.returns t).Placed place := by
  have hplace := h.place_none hrun
  have hother : ∀t',t'≠t → (s.returns t).threads t'=s.threads t' := fun t' ht' => by
    rw [SyncServer.returns,threads_setThread,if_neg ht']
  refine ⟨?_,?_,fun t' => ?_,fun t' m' hm' => ?_,fun c w hw => ?_,fun t' call hrun' hcall' => ?_,h.owned⟩
  · rw [SyncServer.returns,queue_setThread]
    exact h.mem
  · rw [SyncServer.returns,queue_setThread]
    exact h.nodup
  · by_cases ht' : t'=t
    · subst ht'
      simp [SyncServer.returns,hplace,hrun]
    · rw [hother t' ht']
      exact h.stalled t'
  · have hne : t'≠t := fun heq => by
      rw [heq,hplace] at hm'
      cases hm'
    rw [hother t' hne]
    exact h.mutexCall t' m' hm'
  · have hne : w.threadId≠t := fun heq => by
      have hmem := (h.mem w.threadId (.inr c)).mp (mem_map_of_mem hw)
      rw [heq,hplace] at hmem
      cases hmem
    rw [hother _ hne]
    exact h.condCall c w hw
  · by_cases ht' : t'=t
    · subst ht'
      simp [SyncServer.returns] at hcall'
    · rw [hother t' ht'] at hrun' hcall'
      exact h.resumed t' call hrun' hcall'

variable [DecidableEq κ]

theorem Placed.setCond_self [DecidableEq μ] : (s.setCond c (s.getCond c)).Placed place := by
  have hqueue : (s.setCond c (s.getCond c)).queue=s.queue := by
    rw [queue_setCond]
    exact update_eq_self (Sum.inr c) s.queue
  refine ⟨?_,?_,h.stalled,h.mutexCall,fun c' w hw => ?_,h.resumed,h.owned⟩
  · rw [hqueue]
    exact h.mem
  · rw [hqueue]
    exact h.nodup
  · rw [getCond_setCond] at hw
    split_ifs at hw with hc
    · exact h.condCall c' w (hc ▸ hw)
    · exact h.condCall c' w hw

variable [DecidableEq θ] [DecidableEq μ]

theorem Placed.wake_free (hcond : s.getCond c=w::rest) (howner : s.owner w.mutex=none)
    (time : SubsecondTime) :
    (((s.setCond c rest).setMutex w.mutex ⟨some w.threadId,
      s.waiting w.mutex⟩).resumeThread w.threadId time).Placed (update place w.threadId none) := by
  have hcall := h.condCall c w (by rw [hcond]; exact mem_cons_self)
  refine h.leave (m:=w.mutex) (queue_cond hcond) ⟨_,hcall,rfl⟩
    (fun t' call hrun' hcall' heq => ?_) ?_ rfl (mem_getCond_tail hcond) (fun m' => ?_)
    (fun m' hm' => ?_)
  · have hself := h.resumed t' call hrun' hcall'
    rw [heq,howner] at hself
    cases hself
  · rw [resumeThread,queue_setThread,queue_setMutex,queue_setCond]
    refine update_eq_self_iff.mpr ?_
    rw [update_of_ne Sum.inl_ne_inr]
    rfl
  · rw [resumeThread,owner_setThread,owner_setMutex]
    rfl
  · rw [resumeThread,owner_setThread,owner_setMutex] at hm'
    rw [resumeThread,waiting_setThread,waiting_setMutex]
    split_ifs at hm' ⊢
    exact h.owned m' hm'

theorem Placed.wake_owned {o : θ} (hcond : s.getCond c=w::rest) (howner : s.owner w.mutex=some o) :
    ((s.setCond c rest).setMutex w.mutex ⟨some o,s.waiting w.mutex++[w.threadId]⟩).Placed
        (update (update place w.threadId none) w.threadId (some (.inl w.mutex))) := by
  have hcall := h.condCall c w (by rw [hcond]; exact mem_cons_self)
  have hqueue := queue_cond hcond
  have hplace : place w.threadId=some (.inr c) := (h.mem _ _).mp (by rw [hqueue]; exact mem_cons_self)
  have hmem := mem_update_tail h.mem h.nodup hqueue
  have hnodup := nodup_update (p:=.inr c) h.nodup (nodup_cons.mp (hqueue ▸ h.nodup (.inr c))).2
  have hqueue' : ((s.setCond c rest).setMutex w.mutex ⟨some o,s.waiting w.mutex++[w.threadId]⟩).queue=update
    (update s.queue (.inr c)
        (rest.map CondWaiter.threadId)) (.inl w.mutex)
        (update s.queue (.inr c) (rest.map CondWaiter.threadId) (.inl w.mutex) ++
          [w.threadId]) := by
    rw [queue_setMutex,queue_setCond,update_of_ne Sum.inl_ne_inr]
    rfl
  refine ⟨?_,?_,fun t' => ?_,fun t' m' hm' => ?_,
    fun c' w' hw' => h.condCall c' w' (mem_getCond_tail hcond c' w' hw'),fun t' call hrun' hcall' => ?_,
    fun m' hm' => ?_⟩
  · rw [hqueue']
    exact mem_update_append hmem (update_self _ _ _) _
  · rw [hqueue']
    refine nodup_update hnodup (nodup_append.mpr ⟨hnodup _,nodup_singleton _,?_⟩)
    intro a ha b hb hab
    rw [mem_singleton] at hb
    have hplace' := (hmem a (.inl w.mutex)).mp ha
    rw [hab,hb,update_self] at hplace'
    cases hplace'
  · have hold := h.stalled t'
    by_cases ht' : t'=w.threadId
    · subst ht'
      rw [hplace] at hold
      simpa [setCond] using hold
    · simpa [ht',setCond] using hold
  · by_cases ht' : t'=w.threadId
    · subst ht'
      rw [update_self,Option.some.injEq,Sum.inl.injEq] at hm'
      exact ⟨_,hcall,hm'⟩
    · rw [update_of_ne ht',update_of_ne ht'] at hm'
      exact h.mutexCall t' m' hm'
  · have hself := h.resumed t' call hrun' hcall'
    rw [owner_setMutex]
    split_ifs with hm
    · rw [← howner,← hm]
      exact hself
    · exact hself
  · rw [owner_setMutex] at hm'
    rw [waiting_setMutex]
    split_ifs at hm' ⊢
    exact h.owned m' hm'

/-- The first thread that waits for a condition variable gets its mutex or queues on it. -/
theorem Placed.wake (hcond : s.getCond c=w::rest) (time : SubsecondTime) :
    (∃place',(s.wake c w rest time).2.Placed place') ∧ (s.wake c w rest time).2.getCond c=rest := by
  cases howner : s.owner w.mutex with
  | none =>
    have hwake : s.wake c w rest time=(true,((s.setCond c rest).setMutex w.mutex
        ⟨some w.threadId,s.waiting w.mutex⟩).resumeThread w.threadId time) := by
      rw [SyncServer.wake,lockAsync,(s.setCond c rest).enter_free howner]
      rfl
    rw [hwake]
    refine ⟨⟨_,h.wake_free hcond howner time⟩,?_⟩
    rw [resumeThread,getCond_setThread,getCond_setMutex,getCond_setCond,if_pos rfl]
  | some o =>
    have hwake : s.wake c w rest time=(false,(s.setCond c rest).setMutex w.mutex
        ⟨some o,s.waiting w.mutex++[w.threadId]⟩) := by
      rw [SyncServer.wake,lockAsync,(s.setCond c rest).enter_owned howner]
      rfl
    rw [hwake]
    refine ⟨⟨_,h.wake_owned hcond howner⟩,?_⟩
    rw [getCond_setMutex,getCond_setCond,if_pos rfl]

theorem Placed.wakeAll {queue : List (CondWaiter θ μ)} (hcond : s.getCond c=queue) (time : SubsecondTime) :
    ∃place',(wakeAll c time queue s).Placed place' := by
  induction queue generalizing s place with
  | nil => exact ⟨place,h⟩
  | cons w rest ih =>
    obtain ⟨⟨place',h'⟩,hrest⟩ := h.wake hcond time
    exact ih h' hrest

end

end Steps

section Records

variable [DecidableEq θ] [DecidableEq μ]

/-- The events lead from the owners and the waiting threads of one state to those of another. -/
def Recorded (s : SyncServer θ μ κ) (events : List (μ × MutexEvent θ)) (s' : SyncServer θ μ κ) : Prop :=
  ∀m,(historyOf m events).foldlM MutexEvent.apply (s.owner m) = some (s'.owner m) ∧
    s.waiting m++queuedThreads (historyOf m events) = handedThreads (historyOf m events)++s'.waiting m

variable {s s' : SyncServer θ μ κ} {m : μ} {t : θ}

theorem recorded_nil (s : SyncServer θ μ κ) : s.Recorded [] s := fun _ => ⟨rfl,append_nil _⟩

theorem Recorded.trans {s₁ s₂ s₃ : SyncServer θ μ κ} {events events' : List (μ × MutexEvent θ)}
    (h : s₁.Recorded events s₂) (h' : s₂.Recorded events' s₃) : s₁.Recorded (events++events') s₃ := by
  intro m
  obtain ⟨howner,hfifo⟩ := h m
  obtain ⟨howner',hfifo'⟩ := h' m
  simp only [historyOf,queuedThreads,handedThreads,filterMap_append] at *
  refine ⟨?_,?_⟩
  · rw [foldlM_append,howner]
    exact howner'
  · rw [← append_assoc,hfifo,append_assoc,hfifo',append_assoc]

theorem recorded_setMutex {x : SimMutex θ} {events : List (MutexEvent θ)}
    (howner : events.foldlM MutexEvent.apply (s.owner m) = some x.owner)
    (hfifo : s.waiting m++queuedThreads events = handedThreads events++x.waiting) :
    s.Recorded (events.map (m,·)) (s.setMutex m x) := by
  intro m'
  rw [historyOf_map,owner_setMutex,waiting_setMutex]
  split_ifs with h
  · subst h
    exact ⟨howner,hfifo⟩
  · exact ⟨rfl,append_nil _⟩

theorem recorded_enter (s : SyncServer θ μ κ) (m : μ) (t : θ) :
    s.Recorded (s.entering m t) (s.enter m t).2 := by
  cases howner : s.owner m with
  | none =>
    rw [entering,s.enter_free howner]
    exact recorded_setMutex (by rw [howner]; rfl) (by simp [queuedThreads,handedThreads])
  | some o =>
    rw [entering,s.enter_owned howner]
    exact recorded_setMutex (by rw [howner]; rfl) (by simp [queuedThreads,handedThreads])

theorem recorded_unlock {time : SubsecondTime} {w : Option θ} (h : s.unlock m t time = .ok (w,s')) :
    s.Recorded (s.leaving m t) s' := by
  obtain ⟨x,hx,h⟩ := bind_ok h
  have howner : (s.getMutex m).owner = some t := by
    by_contra hne
    rw [SimMutex.unlock,if_neg hne] at hx
    cases hx
  rw [leaving,hx]
  rw [SimMutex.unlock,if_pos howner] at hx
  cases hwait : (s.getMutex m).waiting with
  | nil =>
    rw [hwait] at hx
    cases hx
    cases h
    exact recorded_setMutex (by simp [owner,howner,MutexEvent.apply])
      (by simp [queuedThreads,handedThreads,waiting,hwait])
  | cons w rest =>
    rw [hwait] at hx
    cases hx
    cases h
    exact recorded_setMutex (by simp [owner,howner,MutexEvent.apply])
      (by simp [queuedThreads,handedThreads,waiting,hwait])

variable [DecidableEq κ]

theorem recorded_wake (s : SyncServer θ μ κ) (c : κ) (w : CondWaiter θ μ) (rest : List (CondWaiter θ μ))
    (time : SubsecondTime) : s.Recorded (s.entering w.mutex w.threadId) (s.wake c w rest time).2 := by
  have henter : s.Recorded (s.entering w.mutex w.threadId)
    ((s.setCond c rest).enter w.mutex w.threadId).2 :=
    recorded_enter (s.setCond c rest) w.mutex w.threadId
  rw [wake,lockAsync]
  dsimp only
  split_ifs
  · exact henter
  · exact henter

theorem recorded_wakeAll (c : κ) (time : SubsecondTime) (queue : List (CondWaiter θ μ))
    (s : SyncServer θ μ κ) : s.Recorded (enteringAll c time queue s) (wakeAll c time queue s) := by
  induction queue generalizing s with
  | nil => exact recorded_nil s
  | cons w rest ih => exact (recorded_wake s c w rest time).trans (ih _)

theorem stepNoted_result (s : SyncServer θ μ κ) (i : SyncStep θ μ κ) : (s.stepNoted i).result = s.step i := rfl

theorem recorded_step (s : SyncServer θ μ κ) (i : SyncStep θ μ κ) : (s.stepNoted i).Leads s.Recorded := by
  intro s' h
  replace h : s.step i = .ok s' := h
  rw [stepNoted]
  cases i with
  | mutexLock t m tryLock time =>
    cases h
    rw [events,mutexLock]
    split_ifs
    · exact recorded_nil s
    · have henter := recorded_enter s m t
      dsimp only
      split_ifs
      · exact henter
      · exact henter
  | mutexUnlock t m time =>
    obtain ⟨⟨time',s''⟩,h,hs⟩ := bind_ok h
    cases hs
    rw [mutexUnlock] at h
    cases hm : s.mutexes m with
    | none =>
      rw [hm] at h
      cases h
    | some x =>
      rw [hm] at h
      obtain ⟨⟨w,s'⟩,hunlock,hs⟩ := bind_ok h
      cases hs
      exact recorded_unlock hunlock
  | condWait t c m time =>
    obtain ⟨⟨w,s''⟩,hunlock,hs⟩ := bind_ok h
    cases hs
    have hrecorded := recorded_unlock hunlock
    exact hrecorded
  | condSignal t c time =>
    cases h
    rw [events,condSignal]
    cases s.getCond c with
    | nil => exact recorded_nil s
    | cons w rest => exact recorded_wake s c w rest time
  | condBroadcast t c time =>
    cases h
    exact recorded_wakeAll c time (s.getCond c) (s.setCond c (s.getCond c))
  | returns t =>
    cases h
    exact recorded_nil s

theorem recorded_run (s : SyncServer θ μ κ) (steps : List (SyncStep θ μ κ)) :
    (runNoted stepNoted s steps).Leads s.Recorded :=
  runNoted_leads (I:=fun _ => True) (G:=fun _ _ => True) stepNoted_result recorded_nil
    (fun _ _ _ _ _ => Recorded.trans) (fun _ _ _ _ _ _ => trivial)
      (fun s i _ _ => recorded_step s i) trivial
    (along_of_forall (fun _ _ => trivial) s steps)

end Records

section

variable (s : SyncServer θ μ κ)

/-- The thread is outside of any call. -/
def Idle (t : θ) : Prop := (s.threads t).status = .running ∧ (s.threads t).call=none

instance (t : θ) : Decidable (s.Idle t) := instDecidableAnd

/-- Locks are blocking and never by the owner; unlocks and waits are by the owner. -/
def Admissible : SyncStep θ μ κ → Prop
  | .mutexLock t m tryLock _ => s.Idle t ∧ tryLock=false ∧ s.owner m≠some t
  | .mutexUnlock t m _ => s.Idle t ∧ s.owner m=some t
  | .condWait t _ m _ => s.Idle t ∧ s.owner m=some t
  | .condSignal t _ _ => s.Idle t
  | .condBroadcast t _ _ => s.Idle t
  | .returns t => (s.threads t).status = .running ∧ (s.threads t).call≠none

end

variable [DecidableEq θ]

instance : ∀ (s : SyncServer θ μ κ) (i : SyncStep θ μ κ),Decidable (s.Admissible i)
  | _,.mutexLock _ _ _ _ => instDecidableAnd
  | _,.mutexUnlock _ _ _ => instDecidableAnd
  | _,.condWait _ _ _ _ => instDecidableAnd
  | _,.condSignal _ _ _ => instDecidableAnd
  | _,.condBroadcast _ _ _ => instDecidableAnd
  | _,.returns _ => instDecidableAnd

variable [DecidableEq μ] [DecidableEq κ] {place : θ → Option (μ ⊕ κ)} {s : SyncServer θ μ κ}

theorem Placed.mutexLock {t : θ} (h : s.Placed place) (hrun : (s.threads t).status = .running) (m : μ)
    (time : SubsecondTime) : ∃place',(s.mutexLock t m false time).2.Placed place' := by
  rw [SyncServer.mutexLock,Bool.false_and,if_neg Bool.false_ne_true]
  cases howner : s.owner m with
  | none =>
    rw [s.enter_free howner]
    exact ⟨place,h.take howner⟩
  | some o =>
    rw [s.enter_owned howner]
    exact ⟨_,h.queueUp howner hrun⟩

theorem Placed.step {i : SyncStep θ μ κ} (h : s.Placed place) (hi : s.Admissible i) :
    ∃s',s.step i = .ok s' ∧ ∃place',s'.Placed place' := by
  cases i with
  | mutexLock t m tryLock time =>
    obtain ⟨⟨hrun,-⟩,rfl,-⟩ := hi
    exact ⟨_,rfl,h.mutexLock hrun m time⟩
  | mutexUnlock t m time =>
    obtain ⟨⟨hrun,hcall⟩,howner⟩ := hi
    obtain ⟨w,s',place',hunlock,h',-⟩ := h.unlock howner hcall hrun (time+s.rescheduleCost)
    refine ⟨s',?_,place',h'⟩
    rw [SyncServer.step,SyncServer.mutexUnlock]
    cases hm : s.mutexes m with
    | none =>
      rw [owner,getMutex,hm] at howner
      cases howner
    | some x =>
      dsimp only
      rw [hunlock]
      rfl
  | condWait t c m time =>
    obtain ⟨⟨hrun,hcall⟩,howner⟩ := hi
    obtain ⟨w,s',place',hunlock,h',hthread⟩ := h.unlock howner hcall hrun time
    refine ⟨_,?_,_,h'.waitUp (t:=t) (m:=m) (c:=c) (by rw [hthread]; exact hrun)⟩
    rw [SyncServer.step,SyncServer.condWait,hunlock]
    rfl
  | condSignal t c time =>
    refine ⟨_,rfl,?_⟩
    rw [SyncServer.condSignal]
    cases hcond : s.getCond c with
    | nil =>
      refine ⟨place,?_⟩
      have hself := h.setCond_self (c:=c)
      rwa [hcond] at hself
    | cons w rest => exact (h.wake hcond time).1
  | condBroadcast t c time =>
    refine ⟨_,rfl,h.setCond_self.wakeAll ?_ time⟩
    rw [getCond_setCond,if_pos rfl]
  | returns t => exact ⟨_,rfl,place,h.returns hi.1⟩

/-- What holds in every state of a run, with the events up to it. -/
structure Sound (s : SyncServer θ μ κ)
    (events : List (μ × MutexEvent θ)) : Prop where
  /-- no history gives a mutex to a second thread before the first has released it -/
  exclusive : ∀m,(historyOf m events).foldlM MutexEvent.apply none = some (s.owner m)
  blocked : ∀t,(s.threads t).status = .stalled →
    ∃p,(s.queue p).count t=1 ∧ ∀p',t∈s.queue p' → p'=p
  running : ∀t,(s.threads t).status = .running → ∀p,t∉s.queue p
  owned : ∀m,s.waiting m≠[] → s.owner m≠none
  fifo : ∀m,queuedThreads (historyOf m events) = handedThreads (historyOf m events)++s.waiting m
  waited : ∀t c m,(s.threads t).status = .running → (s.threads t).call=some (.wait c m) →
    s.owner m=some t

omit [DecidableEq κ] in
theorem Placed.sound {events : List (μ × MutexEvent θ)} {cost : SubsecondTime} (h : s.Placed place)
    (hrecorded : (new cost).Recorded events s) : s.Sound events := by
  refine ⟨fun m => (hrecorded m).1,fun t ht => ?_,fun t ht p hp => ?_,
    fun m hm howner => hm (h.owned m howner),
    fun m => (hrecorded m).2,fun t c m hrun hcall => h.resumed t _ hrun hcall⟩
  · obtain ⟨p,hp⟩ := Option.ne_none_iff_exists'.mp ((h.stalled t).mp ht)
    refine ⟨p,count_eq_one_of_mem (h.nodup p) ((h.mem t p).mpr hp),fun p' hp' => ?_⟩
    have hplace := (h.mem t p').mp hp'
    rw [hp,Option.some.injEq] at hplace
    exact hplace.symm
  · have hplace := (h.mem t p).mp hp
    rw [h.place_none ht] at hplace
    cases hplace

/-- For any threads, mutexes and condition variables and any sequence of admissible calls, no
assertion fails and in every state mutexes have one owner, threads have one place, waiters are
served in order and threads return from a wait with their mutex. -/
theorem synchronization_sound (cost : SubsecondTime) (steps : List (SyncStep θ μ κ))
    (hadm : Along step Admissible (new cost) steps) : (∃s,run step (new cost) steps = .ok s) ∧
      ∀pre,pre <+: steps → ∀s,run step (new cost) pre = .ok s →
        s.Sound (runNoted stepNoted (new cost) pre).notes := by
  have hstep : ∀ (s : SyncServer θ μ κ) i,(∃place,s.Placed place) → s.Admissible i →
      ∃s',s.step i = .ok s' ∧ ∃place',s'.Placed place' := fun s i ⟨place,h⟩ hi => h.step hi
  have hinit : ∃place,(new cost : SyncServer θ μ κ).Placed place := ⟨_,new_placed cost⟩
  refine ⟨?_,fun pre hpre s hs => ?_⟩
  · obtain ⟨s,hs,-⟩ := run_total hstep hinit hadm
    exact ⟨s,hs⟩
  · obtain ⟨post,rfl⟩ := hpre
    obtain ⟨s',hs',place,h⟩ := run_total hstep hinit hadm.left
    obtain rfl : s = s' := Except.ok.inj (hs.symm.trans hs')
    rw [← runNoted_result stepNoted_result] at hs
    exact h.sound (recorded_run (new cost) pre s hs)

def handover (t u : θ) : List (SyncStep θ Unit Unit) :=
  [.mutexLock t () false 0,.mutexLock u () false 1,.condWait t () () 2,.returns u,.condSignal u () 3,
    .mutexUnlock u () 4]

/-- A thread waits on a condition variable while another one queues on its mutex; after the
signal the mutex comes back to it. -/
theorem synchronization_sound_handover : ∃s : SyncServer (Fin 2) Unit Unit,
    run step (new 5) (handover 0 1) = .ok s ∧
    historyOf () (runNoted stepNoted (new 5) (handover 0 1)).notes =
      [.taken 0,.queued 1,.released 0,.handed 1,.queued 0,.released 1,.handed 0] ∧
    (s.threads 0).call=some (.wait () ()) ∧ s.owner ()=some 0 ∧
    s.Sound (runNoted stepNoted (new 5) (handover 0 1)).notes := by
  obtain ⟨s,hs,hcall,howner⟩ : ∃s : SyncServer (Fin 2) Unit Unit,run step (new 5) (handover 0 1) = .ok s ∧
      (s.threads 0).call=some (.wait () ()) ∧ s.owner ()=some 0 := by
    decide +kernel
  exact ⟨s,hs,by decide +kernel,hcall,howner,
    (synchronization_sound 5 (handover 0 1) (by decide +kernel)).2 _ prefix_rfl s hs⟩

end SyncServer

end Sniper.Synchronization
