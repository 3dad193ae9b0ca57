import Sniper.FutexQueues

/-! # The calls and scans of the futexes over whole runs -/

namespace Sniper.Futexes
open FallibleRuns NotedRuns NotedRuns.Noted List

namespace SyscallServer

variable {θ α π : Type} {s s' : SyscallServer θ α π}

/-- What a call or a scan has done to the threads: each is moved at most once, and the resumed
ones are those with the given event. -/
structure Moves (event : θ → FutexEvent θ) (s s' : SyscallServer θ α π)
    (events : List (FutexEvent θ)) : Prop where
  once : (events.map FutexEvent.thread).Nodup
  resumed : ∀u,event u∈events ↔
    (s.threads u).status = .stalled .futex ∧ (s'.threads u).status = .running

/-- A call moves each thread at most once. It returns the number of the threads that it has
resumed, or an error and then it has moved none. -/
def CallMoves (s s' : SyscallServer θ α π) (events : List (FutexEvent θ))
    (result : Option (ℤ × SubsecondTime)) : Prop :=
  Moves .woken s s' events ∧ ∀value endTime,result=some (value,endTime) →
    value=events.countP FutexEvent.isWoken ∨ value<0 ∧ events=[]

/-- A bitset wait has a mask, and a requeue is between different futexes. -/
def SaneCall (s : SyscallServer θ α π) (t : θ) (args : FutexArgs α) : Prop :=
  (FutexCmd.decode args.op=some .waitBitset → args.val3≠0) ∧
    (FutexCmd.decode args.op=some .cmpRequeue → s.va2pa t args.uaddr≠s.va2pa t args.uaddr2)

instance [DecidableEq π] (s : SyscallServer θ α π) (t : θ) (args : FutexArgs α) :
    Decidable (s.SaneCall t args) :=
  inferInstanceAs (Decidable (_ ∧ _))

def Sane (s : SyscallServer θ α π) : FutexStep θ α π → Prop
  | .call t args _ => s.SaneCall t args
  | _ => True

instance [DecidableEq π] (s : SyscallServer θ α π) (i : FutexStep θ α π) : Decidable (s.Sane i) := by
  cases i <;> unfold Sane <;> infer_instance

theorem moves_nil {event : θ → FutexEvent θ} (hthreads : s'.threads=s.threads) : Moves event s s' [] where
  once := nodup_nil
  resumed u := by
    rw [hthreads]
    refine iff_of_false (not_mem_nil) fun ⟨hstalled,hrunning⟩ => ?_
    rw [hstalled] at hrunning
    cases hrunning

theorem Leaves.moves {event : θ → FutexEvent θ} {ts : List θ} (h : Leaves s s' ts) (hs : s.Queues)
    (hthread : ∀t,(event t).thread=t) : Moves event s s' (ts.map event) where
  once := by
    rw [map_map,show FutexEvent.thread ∘ event=id from funext hthread,map_id]
    exact h.nodup
  resumed u := by
    rw [← h.resumed_iff hs u,mem_map]
    constructor
    · rintro ⟨t,ht,heq⟩
      rwa [← hthread u,← heq,hthread t]
    · exact fun hu => ⟨u,hu,rfl⟩

theorem countP_woken (ts : List θ) : (ts.map .woken).countP FutexEvent.isWoken=ts.length := by
  rw [countP_map,countP_eq_length]
  exact fun _ _ => rfl

theorem Woken.callMoves {events : List (FutexEvent θ)} {endTime : SubsecondTime} {value : ℤ}
    (h : Woken s events value s') (hs : s.Inv) : s'.Inv ∧ CallMoves s s' events (some (value,endTime)) := by
  obtain ⟨ts,rfl,rfl,hts⟩ := h
  refine ⟨hts.inv hs,hts.moves hs.toQueues fun _ => rfl,fun v e hr => .inl ?_⟩
  cases hr
  rw [countP_woken]

theorem callMoves_again (s : SyscallServer θ α π) (known : List π) (time : SubsecondTime) :
    CallMoves s {s with known} [] (some (-eAgain,time)) := by
  refine ⟨moves_nil rfl,fun v e hr => .inr ?_⟩
  cases hr
  exact ⟨by decide,rfl⟩

theorem Leaves.moves_requeued [DecidableEq π] {ts : List θ} (h : Leaves s s' ts) (hs : s.Queues) (p p2 : π) :
    Moves .woken s (s'.requeued p p2) (ts.map .woken++(s'.queued p).map .requeued) := by
  have hmoves : Moves .woken s s' _ := h.moves hs fun _ => rfl
  refine ⟨?_,fun u => ?_⟩
  · have hqueue : ((s'.queued p).map FutexEvent.requeued).map FutexEvent.thread=s'.queued p := by
      rw [map_map]
      exact map_id _
    rw [map_append,hqueue]
    refine nodup_append.mpr ⟨hmoves.once,(h.queues hs).once p,fun t ht u hu htu => ?_⟩
    rw [map_map] at ht
    obtain ⟨t',ht',rfl⟩:=mem_map.mp ht
    exact h.gone ht' (htu ▸ hu)
  · refine Iff.trans ?_ (hmoves.resumed u)
    simp

theorem countP_requeued (woken left : List (Waiter θ)) : (woken.map (FutexEvent.woken ·.threadId)++
    left.map (FutexEvent.requeued ·.threadId)).countP FutexEvent.isWoken=woken.length := by
  simp [countP_map,Function.comp_def,FutexEvent.isWoken]

theorem matchAny_all {queue : List (Waiter θ)} (h : ∀w∈queue,w.mask≠0) (k : ℕ) :
    firstMatching matchAny k queue=queue.take k ∧ withoutMatching matchAny k queue=queue.drop k := by
  have hmeets : ∀w∈queue,w.meets matchAny=true := fun w hw => decide_eq_true (by
    rw [matchAny,BitVec.allOnes_and]
    exact h w hw)
  refine ⟨by rw [firstMatching,filter_eq_self.mpr hmeets],?_⟩
  clear h
  induction queue generalizing k with
  | nil => cases k <;> rfl
  | cons w queue ih =>
    cases k with
    | zero => rfl
    | succ k =>
      rw [withoutMatching,if_pos (hmeets w mem_cons_self),drop_succ_cons]
      exact ih k fun x hx => hmeets x (mem_cons_of_mem w hx)

section Threads

variable {t : θ} {x : Thread}

theorem Inv.not_queued (hs : s.Inv) (hrun : (s.threads t).status = .running) (p : π) :
    t∉s.queued p := fun ht => by
  have hstalled := (hs.stalled t).mp ⟨p,ht⟩
  rw [hrun] at hstalled
  cases hstalled

theorem Inv.not_asleep (hs : s.Inv) (hrun : (s.threads t).status = .running) :
    t∉s.sleeping.map (·.threadId) := fun ht => by
  obtain ⟨w,hw,rfl⟩:=mem_map.mp ht
  have hasleep := hs.asleep w hw
  rw [hrun] at hasleep
  cases hasleep

variable [DecidableEq θ]

theorem Inv.setThread (hs : s.Inv) (hfutex : (s.threads t).status ≠ .stalled .futex)
    (hsleep : (s.threads t).status ≠ .stalled .sleep) (hx : x.status ≠ .stalled .futex) :
    (s.setThread t x).Inv where
  once := hs.once
  apart := hs.apart
  stalled u := by
    refine (hs.stalled u).trans ?_
    by_cases hu : u=t
    · simp [SyscallServer.setThread,hu,hfutex,hx]
    · simp [SyscallServer.setThread,hu]
  masks := hs.masks
  asleep w hw := by
    have hne : w.threadId≠t := fun heq => hsleep (heq ▸ hs.asleep w hw)
    simpa [SyscallServer.setThread,hne] using hs.asleep w hw
  sleepers := hs.sleepers

theorem Inv.sleep (hs : s.Inv) (hrun : (s.threads t).status = .running) (wakeTime : SubsecondTime) :
    (s.handleSleepCall t wakeTime).Inv := by
  have hset := hs.setThread (t:=t) (x:={s.threads t with status:=.stalled .sleep})
    (by simp [hrun]) (by simp [hrun]) (by simp)
  refine ⟨⟨hset.once,hset.apart,hset.stalled⟩,hset.masks,fun w hw => ?_,?_⟩
  · rcases mem_append.mp hw with hw | hw
    · exact hset.asleep w hw
    · rw [mem_singleton.mp hw]
      simp [handleSleepCall,stallThread,setStatus,SyscallServer.setThread]
  · have hnodup := nodup_append.mpr ⟨hs.sleepers,nodup_singleton t,fun u hu v hv huv =>
      hs.not_asleep hrun (mem_singleton.mp hv ▸ huv ▸ hu)⟩
    simpa [handleSleepCall,stallThread,setStatus,SyscallServer.setThread] using hnodup

theorem Inv.wakeSleeper (hs : s.Inv) {time : SubsecondTime} {w : Waiter θ} {rest : List (Waiter θ)}
    (htake : takeTimedOut time s.sleeping=some (w,rest)) :
    (resumeThread {s with sleeping:=rest} w.threadId time false).Inv := by
  obtain ⟨-,hperm⟩:=takeTimedOut_some htake
  have hmem : ∀v∈rest,v∈s.sleeping := fun v hv => hperm.mem_iff.mp (mem_cons_of_mem w hv)
  have hw := hs.asleep w (hperm.mem_iff.mp mem_cons_self)
  have hnodup := (hperm.map (·.threadId)).nodup_iff.mpr hs.sleepers
  rw [map_cons,nodup_cons] at hnodup
  refine ⟨⟨hs.once,hs.apart,fun u => (hs.stalled u).trans ?_⟩,hs.masks,fun v hv => ?_,hnodup.2⟩
  · by_cases hu : u=w.threadId
    · simp [resumeThread,SyscallServer.setThread,hu,hw]
    · simp [resumeThread,SyscallServer.setThread,hu]
  · have hne : v.threadId≠w.threadId := fun heq => hnodup.1 (heq ▸ mem_map_of_mem hv)
    simpa [resumeThread,SyscallServer.setThread,hne] using hs.asleep v (hmem v hv)

variable [DecidableEq π]

theorem Inv.enqueue (hs : s.Inv) (hrun : (s.threads t).status = .running) (p : π) {mask : BitVec 32}
    (hmask : mask≠0) (timeout : SubsecondTime) :
    ((s.setFutex p (s.futexes p++[⟨t,mask,timeout⟩])).stallThread t .futex).Inv := by
  generalize hnext : (s.setFutex p (s.futexes p++[⟨t,mask,timeout⟩])).stallThread t .futex=s'
  have hself : s'.futexes p=s.futexes p++[⟨t,mask,timeout⟩] := by
    rw [← hnext]
    simp [stallThread,setStatus,SyscallServer.setThread,setFutex]
  have hother : ∀q,q≠p → s'.futexes q=s.futexes q := fun q hq => by
    rw [← hnext]
    simp [stallThread,setStatus,SyscallServer.setThread,setFutex,hq]
  have hthread : (s'.threads t).status = .stalled .futex := by
    rw [← hnext]
    simp [stallThread,setStatus,SyscallServer.setThread]
  have hthreads : ∀u,u≠t → s'.threads u=s.threads u := fun u hu => by
    rw [← hnext]
    simp [stallThread,setStatus,SyscallServer.setThread,setFutex,hu]
  have hsleeping : s'.sleeping=s.sleeping := by
    rw [← hnext]
    rfl
  have hmem : ∀q u,u∈s'.queued q ↔ u∈s.queued q ∨ u=t ∧ q=p := fun q u => by
    by_cases hq : q=p
    · simp [queued,hq,hself]
    · simp [queued,hq,hother q hq]
  have hout := hs.not_queued hrun
  refine ⟨⟨fun q => ?_,fun q r u hq hr => ?_,fun u => ?_⟩,fun q w hw => ?_,fun w hw => ?_,?_⟩
  · by_cases hq : q=p
    · rw [hq,queued,hself,map_append,nodup_append]
      refine ⟨hs.once p,nodup_singleton t,fun u hu v hv huv => hout p ?_⟩
      have hvt : v=t := mem_singleton.mp hv
      rw [← hvt,← huv]
      exact hu
    · rw [queued,hother q hq]
      exact hs.once q
  · rcases (hmem q u).mp hq with hq | ⟨rfl,rfl⟩
    · rcases (hmem r u).mp hr with hr | ⟨rfl,rfl⟩
      · exact hs.apart q r u hq hr
      · exact absurd hq (hout q)
    · rcases (hmem r u).mp hr with hr | ⟨-,rfl⟩
      · exact absurd hr (hout r)
      · rfl
  · by_cases hu : u=t
    · rw [hu,hthread]
      exact iff_of_true ⟨p,(hmem p t).mpr (.inr ⟨rfl,rfl⟩)⟩ rfl
    · rw [hthreads u hu,← hs.stalled u]
      simp [hmem,hu]
  · by_cases hq : q=p
    · rw [hq,hself,mem_append] at hw
      rcases hw with hw | hw
      · exact hs.masks p w hw
      · rw [mem_singleton.mp hw]
        exact hmask
    · rw [hother q hq] at hw
      exact hs.masks q w hw
  · rw [hsleeping] at hw
    rw [hthreads _ fun heq => hs.not_asleep hrun (heq ▸ mem_map_of_mem hw)]
    exact hs.asleep w hw
  · rw [hsleeping]
    exact hs.sleepers

end Threads

section Calls

variable [DecidableEq π] [DecidableEq θ] {t : θ} {time timeout : SubsecondTime}
  {result : Option (ℤ × SubsecondTime)}

theorem Inv.futexWait (hs : s.Inv) (hrun : (s.threads t).status = .running) (uaddr : α)
    (val actVal : BitVec 32) {mask : BitVec 32} (hmask : mask≠0) (time timeout : SubsecondTime) :
    (s.futexWait t uaddr val actVal mask time timeout).Leads fun events x =>
      x.2.Inv ∧ CallMoves s x.2 events x.1 := by
  obtain ⟨known,hfind⟩:=s.findFutexByUaddr_eq t uaddr
  have hknown : Inv {s with known} := (leaves_outside s known s.memory).inv hs
  rw [SyscallServer.futexWait,hfind]
  dsimp only
  split_ifs with hval
  · exact leads_pure ⟨hknown,callMoves_again s known time⟩
  · refine .note_bind (leads_pure ⟨hknown.enqueue hrun _ hmask timeout,⟨nodup_singleton t,fun u => ?_⟩,
      fun v e hr => by cases hr⟩)
    -- the thread itself was running before, and the others are as they were
    by_cases hu : u=t
    · simp [hu,hrun]
    · refine iff_of_false (by simp) ?_
      rintro ⟨hstalled,hrunning⟩
      simp [stallThread,setStatus,SyscallServer.setThread,setFutex,hu,hstalled] at hrunning

theorem futexWakeOp_woken (hs : s.Queues) (t : θ) (uaddr uaddr2 : α) (nrWake nrWake2 op : BitVec 32)
    (time : SubsecondTime) : (s.futexWakeOp t uaddr uaddr2 nrWake nrWake2 op time).Leads fun events x =>
      Woken s events x.1.1 x.2 := by
  obtain ⟨known,hfind⟩:=s.findFutexByUaddr_eq t uaddr
  obtain ⟨known',hfind'⟩:=findFutexByUaddr_eq {s with known} t uaddr2
  simp only [futexWakeOp,hfind,hfind']
  refine .quiet_bind ?_
  rintro ⟨newval,ret⟩ -
  have hstore := leaves_outside s known' (Function.update s.memory (s.va2pa t uaddr2) newval)
  refine (wakeUp_woken (hstore.queues hs) _ matchAny _ _).bind ?_
  rintro ⟨woken,s₁⟩ - hfirst
  dsimp only
  split_ifs
  · obtain ⟨ts,-,-,hts⟩ := id hfirst
    exact .map fun x hx => (hfirst.trans
      (wakeUp_woken (hts.queues (hstore.queues hs)) _ matchAny _ _ x hx)).of_outside
  · exact leads_pure (hfirst.trans (woken_none s₁)).of_outside

theorem futexCmpRequeue_eq (s : SyscallServer θ α π) {uaddr uaddr2 : α} (val actVal : BitVec 32)
    (time : SubsecondTime) (hne : s.va2pa t uaddr≠s.va2pa t uaddr2) :
    let woken := firstMatching matchAny val.toInt.toNat (s.futexes (s.va2pa t uaddr))
    let left := withoutMatching matchAny val.toInt.toNat (s.futexes (s.va2pa t uaddr))
    ∃known,s.futexCmpRequeue t uaddr val uaddr2 actVal actVal time=⟨.ok ((woken.length,time),
      (resumeAll {s with known} (s.va2pa t uaddr) woken left time).requeued (s.va2pa t uaddr)
        (s.va2pa t uaddr2)),woken.map (.woken ·.threadId)++left.map (.requeued ·.threadId)⟩ := by
  obtain ⟨known,hfind⟩:=s.findFutexByUaddr_eq t uaddr
  have hwake := wakeUp_eq {s with known} (s.va2pa t uaddr) matchAny time val.toInt.toNat
  dsimp only at hwake ⊢
  generalize firstMatching matchAny val.toInt.toNat (s.futexes (s.va2pa t uaddr))=woken at hwake ⊢
  generalize withoutMatching matchAny val.toInt.toNat (s.futexes (s.va2pa t uaddr))=left at hwake ⊢
  obtain ⟨known',hfind'⟩:=findFutexByUaddr_eq
    (resumeAll {s with known} (s.va2pa t uaddr) woken left time) t uaddr2
  have hrequeue := requeueAll_eq (s:=resumeAll {s with known:=known'} (s.va2pa t uaddr) woken left time) hne
    (Nat.lt_add_one _)
  refine ⟨known',?_⟩
  rw [futexCmpRequeue,hfind]
  simp only [ne_eq,not_true_eq_false,if_false,hwake,mk_ok_bind,hfind']
  simp only [resumeAll,queued,Function.update_self,map_map] at hrequeue ⊢
  rw [hrequeue,mk_ok_bind,pure_eq,append_nil]
  rfl

/-- The call resumes the first waiters, as many as it asks for, and appends the others to the
second queue in their order. -/
def Requeues [DecidableEq α] (s : SyscallServer θ α π) (t : θ) (args : FutexArgs α) (time : SubsecondTime) :
    Prop :=
  let p := s.va2pa t args.uaddr
  let p2 := s.va2pa t args.uaddr2
  let woken := (s.futexes p).take args.val.toInt.toNat
  let left := (s.futexes p).drop args.val.toInt.toNat
  ∃s',s.handleFutexCall t args time=⟨.ok (some (woken.length,time),s'),
      woken.map (.woken ·.threadId)++left.map (.requeued ·.threadId)⟩ ∧
    s'.futexes=Function.update (Function.update s.futexes p []) p2 (s.futexes p2++left) ∧
    (∀u∈woken.map (·.threadId),(s'.threads u).status = .running) ∧
    ∀u∉woken.map (·.threadId),s'.threads u=s.threads u

theorem Inv.futexCmpRequeue (hs : s.Inv) {uaddr uaddr2 : α} {val val3 actVal : BitVec 32}
    (hne : s.va2pa t uaddr≠s.va2pa t uaddr2) (time : SubsecondTime) :
    (s.futexCmpRequeue t uaddr val uaddr2 val3 actVal time).Leads fun events x =>
      x.2.Inv ∧ CallMoves s x.2 events (some x.1) := by
  by_cases hval : val3=actVal
  · subst hval
    obtain ⟨known,heq⟩:=s.futexCmpRequeue_eq val val3 time hne
    have hknown := leaves_outside s known s.memory
    have hwoken := hknown.trans (leaves_resumeAll (hknown.queues hs.toQueues) (s.va2pa t uaddr)
      matchAny val.toInt.toNat time)
    have hmoves := hwoken.moves_requeued hs.toQueues (s.va2pa t uaddr) (s.va2pa t uaddr2)
    simp only [queued,resumeAll,Function.update_self,map_map,nil_append] at hmoves
    rw [heq]
    rintro _ ⟨⟩
    refine ⟨(hwoken.inv hs).requeued hne,hmoves,fun v e hr => .inl ?_⟩
    cases hr
    rw [countP_requeued]
  · obtain ⟨known,hfind⟩:=s.findFutexByUaddr_eq t uaddr
    rw [SyscallServer.futexCmpRequeue,hfind]
    simp only [ne_eq,hval,not_false_eq_true,if_true]
    exact leads_pure ⟨(leaves_outside s known s.memory).inv hs,callMoves_again s known time⟩

theorem bitset_ne_zero {cmd : FutexCmd} {val3 : BitVec 32} (h : cmd = .waitBitset → val3≠0) :
    bitset cmd val3≠0 := by
  rw [bitset]
  split_ifs with hcmd
  · exact h hcmd
  · decide

theorem Inv.periodic (hs : s.Inv) (time : SubsecondTime) :
    ∃s' events,s.futexPeriodic time=⟨.ok s',events⟩ ∧ s'.Inv ∧ Moves .timedOut s s' events := by
  rw [futexPeriodic]
  cases htake : takeTimedOut time s.sleeping with
  | none =>
    obtain ⟨ts,s',heq,hts⟩ := wakeTimedOut_foldlM_leaves hs.toQueues time s.known
    exact ⟨s',_,heq,hts.inv hs,hts.moves hs.toQueues fun _ => rfl⟩
  | some x =>
    obtain ⟨w,rest⟩:=x
    have hwake := hs.wakeSleeper htake
    obtain ⟨ts,s',heq,hts⟩ := wakeTimedOut_foldlM_leaves hwake.toQueues time s.known
    have hmoves : Moves .timedOut _ s' _ := hts.moves hwake.toQueues fun _ => rfl
    refine ⟨s',_,heq,hts.inv hwake,hmoves.once,fun u => (hmoves.resumed u).trans ?_⟩
    rw [← hwake.stalled u,← hs.stalled u]
    rfl

theorem Inv.exit (hs : s.Inv) (hrun : (s.threads t).status = .running) (clearTid : Option α)
    (time : SubsecondTime) : (s.exitThread t clearTid time).Leads fun _ s' => s'.Inv := by
  have hidle : (s.setStatus t .idle).Inv := hs.setThread (by simp [hrun]) (by simp [hrun]) (by simp)
  cases clearTid with
  | none => exact leads_pure hidle
  | some uaddr =>
    have hstore := (leaves_outside (s.setStatus t .idle) s.known
      (Function.update s.memory (s.va2pa t uaddr) 0)).inv hidle
    refine Leads.map fun x hx => ?_
    obtain ⟨ts,-,-,hts⟩ := futexWake_woken hstore.toQueues t uaddr 1 matchAny time x hx
    exact hts.inv hstore

variable [DecidableEq α] {args : FutexArgs α}

theorem Inv.call (hs : s.Inv) (hrun : (s.threads t).status = .running) (hsane : s.SaneCall t args)
    (time : SubsecondTime) : (s.handleFutexCall t args time).Leads fun events x =>
      x.2.Inv ∧ CallMoves s x.2 events x.1 := by
  have hwake : ∀mask,(s.futexWake t args.uaddr args.val mask time).Leads fun events x =>
      x.2.Inv ∧ CallMoves s x.2 events (some x.1) := fun mask x hx =>
    (futexWake_woken hs.toQueues t args.uaddr args.val mask time x hx).callMoves hs
  rw [handleFutexCall]
  cases hcmd : FutexCmd.decode args.op with
  | none => exact leads_error _
  | some cmd =>
    cases cmd with
    | wait => exact hs.futexWait hrun _ _ _ (bitset_ne_zero (by simp)) _ _
    | waitBitset => exact hs.futexWait hrun _ _ _ (bitset_ne_zero fun _ => hsane.1 hcmd) _ _
    | wake | wakeBitset => exact (hwake _).map
    | wakeOp =>
      exact .map fun x hx => (futexWakeOp_woken hs.toQueues _ _ _ _ _ _ _ x hx).callMoves hs
    | cmpRequeue =>
      dsimp only
      split_ifs
      · exact (hs.futexCmpRequeue (hsane.2 hcmd) time).map
      · exact leads_error _

theorem Inv.requeues (hs : s.Inv) (hcmd : FutexCmd.decode args.op=some .cmpRequeue)
    (hsane : s.SaneCall t args) (hval : args.val3=s.memory (s.va2pa t args.uaddr)) (time : SubsecondTime) :
    s.Requeues t args time := by
  have hne := hsane.2 hcmd
  have hadr : args.uaddr≠args.uaddr2 := fun heq => hne (by rw [heq])
  obtain ⟨known,heq⟩:=s.futexCmpRequeue_eq args.val args.val3 time hne
  obtain ⟨hfirst,hleft⟩:=matchAny_all (hs.masks (s.va2pa t args.uaddr)) args.val.toInt.toNat
  rw [hfirst,hleft] at heq
  have hcall : s.handleFutexCall t args time=s.futexCmpRequeue t args.uaddr args.val args.uaddr2
      args.val3 args.val3 time >>= fun x => pure (some x.1,x.2) := by
    simp only [handleFutexCall,hcmd,if_pos hadr,← hval]
  rw [heq,mk_ok_bind,pure_eq,append_nil] at hcall
  refine ⟨_,hcall,?_,fun u hu => ?_,fun u hu => ?_⟩
  · simp [SyscallServer.requeued,resumeAll,Function.update_of_ne hne.symm]
  · simp only [SyscallServer.requeued,resumeAll,if_pos hu]
  · simp only [SyscallServer.requeued,resumeAll,if_neg hu]

theorem Inv.step (hs : s.Inv) {i : FutexStep θ α π} (hsane : s.Sane i) :
    (s.stepNoted i).Leads fun _ s' => s'.Inv := by
  cases i with
  | call t args time =>
    rw [stepNoted]
    split_ifs with hrun
    · exact .map fun x hx => (hs.call hrun hsane time x hx).1
    · exact leads_pure hs
  | sleep t wakeTime =>
    refine leads_pure ?_
    split_ifs with hrun
    · exact hs.sleep hrun wakeTime
    · exact hs
  | periodic time =>
    obtain ⟨s',events,heq,hs',-⟩ := hs.periodic time
    rw [stepNoted,heq]
    rintro _ ⟨⟩
    exact hs'
  | exit t clearTid time =>
    rw [stepNoted]
    split_ifs with hrun
    · exact hs.exit hrun clearTid time
    · exact leads_pure hs
  | start t | stall t | resume t =>
    refine leads_pure ?_
    split_ifs with hstatus
    · exact hs.setThread (by simp [hstatus]) (by simp [hstatus]) (by simp)
    · exact hs
  | store p value => exact leads_pure ((leaves_outside s s.known _).inv hs)

/-- Each thread that is stalled on a futex is in one queue, once. The calls and scans move each
thread at most once, and a requeue keeps the order of the waiters. -/
structure FutexLaws (s : SyscallServer θ α π) : Prop where
  queues : s.Queues
  calls : ∀t args time,(s.threads t).status = .running → s.SaneCall t args →
    (s.handleFutexCall t args time).Leads fun events x => CallMoves s x.2 events x.1
  requeues : ∀t args time,FutexCmd.decode args.op=some .cmpRequeue → s.SaneCall t args →
    args.val3=s.memory (s.va2pa t args.uaddr) → s.Requeues t args time
  scans : ∀time,∃s' events,s.futexPeriodic time=⟨.ok s',events⟩ ∧ Moves .timedOut s s' events

theorem run_futexLaws {rescheduleCost : SubsecondTime} {osEmuTimeStart : BitVec 64} {va2pa : θ → α → π}
    {memory : π → BitVec 32} {started : θ → Bool} {steps : List (FutexStep θ α π)}
    (hsane : Along step Sane (new rescheduleCost osEmuTimeStart va2pa memory started) steps)
    (hrun : run step (new rescheduleCost osEmuTimeStart va2pa memory started) steps = .ok s) : s.FutexLaws := by
  have hs : s.Inv := run_invariant (fun _ _ s' hs hsane => Inv.step hs hsane s') (inv_new _ _ _ _ _)
    hsane hrun
  refine ⟨hs.toQueues,fun _ _ time hrunning hcall x hx => (hs.call hrunning hcall time x hx).2,
    fun _ _ time hcmd hcall hval => hs.requeues hcmd hcall hval time,fun time => ?_⟩
  obtain ⟨s',events,heq,-,hmoves⟩ := hs.periodic time
  exact ⟨s',events,heq,hmoves⟩

end Calls

/-- Three threads, the first of which waits for some bits of the futex at address 0 and the second
for any. -/
def twoWaiters (mask : BitVec 32) : List (FutexStep ℕ ℕ ℕ) :=
  [.start 0,.start 1,.start 2,.call 0 (callArgs 9 0 none mask) 0,.call 1 (callArgs 0 0 none 0) 0]

/-- A requeue to the futex at address 1 that wakes one waiter. -/
def requeueArgs : FutexArgs ℕ := ⟨0,4,1,none,0,1,0⟩

theorem run_futexLaws_requeued : ∃s,run step (new 0 0 (fun _ uaddr => uaddr) (fun _ => 0) fun _ => true)
      (twoWaiters 1++[.call 2 requeueArgs 0]) = .ok s ∧ s.queued 0=[] ∧ s.queued 1=[1] ∧ s.FutexLaws := by
  have hsane : Along step Sane (new 0 0 (fun _ uaddr => uaddr) (fun _ => 0) fun _ => true)
      (twoWaiters 1++[.call 2 requeueArgs 0]) := by decide +kernel
  exact ⟨_,rfl,by decide +kernel,by decide +kernel,run_futexLaws hsane rfl⟩

/-- A waiter without a mask is passed over, and a requeue between two addresses of one futex never
ends. -/
theorem requeue_passes_over : (∃s s',
    run step (new 0 0 (fun _ uaddr => uaddr) (fun _ => 0) fun _ => true) (twoWaiters 0) = .ok s ∧
      s.queued 0=[0,1] ∧ (s.handleFutexCall 2 requeueArgs 0).result = .ok (some (1,0),s') ∧
      (s'.threads 0).status = .stalled .futex ∧ (s'.threads 1).status = .running ∧ s'.queued 1=[0]) ∧
    ∃s,run step (new 0 0 (fun _ _ => 0) (fun _ => 0) fun _ => true) (twoWaiters 1) = .ok s ∧
      (s.handleFutexCall 2 requeueArgs 0).result = .error .unfinished ∧
      ∀k,(requeueAll 0 0 k s).result = .error .unfinished :=
  ⟨⟨_,_,rfl,by decide +kernel,rfl,by decide +kernel,by decide +kernel,by decide +kernel⟩,_,rfl,rfl,
    requeueAll_self (by decide +kernel)⟩

end SyscallServer

end Sniper.Futexes
