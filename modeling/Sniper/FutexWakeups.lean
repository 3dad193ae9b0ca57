import Sniper.SyscallServer

/-! # Which waiters a futex call or a scan wakes -/

namespace Sniper.Futexes
open FallibleRuns NotedRuns NotedRuns.Noted Function List

variable {θ α π : Type}

def Waiter.meets (mask : BitVec 32) (w : Waiter θ) : Bool := decide (mask &&& w.mask≠0)

def Timespec.femtoseconds (x : Timespec) : ℕ := x.tvSec.toNat*10^15+x.tvNsec.toNat*10^6

def firstMatching (mask : BitVec 32) (count : ℕ) (queue : List (Waiter θ)) : List (Waiter θ) :=
  (queue.filter (Waiter.meets mask)).take count

def withoutMatching (mask : BitVec 32) : ℕ → List (Waiter θ) → List (Waiter θ)
  | 0,queue => queue
  | _,[] => []
  | k+1,w::queue =>
    if w.meets mask then withoutMatching mask k queue else w::withoutMatching mask (k+1) queue

@[simp] theorem withoutMatching_zero (mask : BitVec 32) (queue : List (Waiter θ)) :
    withoutMatching mask 0 queue=queue := by
  cases queue <;> rfl

section Matching

variable {mask : BitVec 32} {queue rest : List (Waiter θ)} {w : Waiter θ}

theorem takeMatching_none (h : takeMatching mask queue=none) :
    queue.filter (Waiter.meets mask)=[] ∧ ∀k,withoutMatching mask k queue=queue := by
  induction queue with
  | nil => exact ⟨rfl,fun k => by cases k <;> rfl⟩
  | cons x queue ih =>
    rw [takeMatching] at h
    split_ifs at h with hx
    have hmeets : x.meets mask=false := decide_eq_false hx
    obtain ⟨hfilter,hleft⟩:=ih (Option.map_eq_none_iff.mp h)
    refine ⟨by rw [filter_cons_of_neg (by simp [hmeets]),hfilter],fun k => ?_⟩
    cases k with
    | zero => exact withoutMatching_zero mask _
    | succ k => rw [withoutMatching,hmeets,if_neg Bool.false_ne_true,hleft]

theorem takeMatching_some (h : takeMatching mask queue=some (w,rest)) (k : ℕ) :
    firstMatching mask (k+1) queue=w::firstMatching mask k rest ∧
      withoutMatching mask (k+1) queue=withoutMatching mask k rest := by
  induction queue generalizing rest with
  | nil => cases h
  | cons x queue ih =>
    rw [takeMatching] at h
    split_ifs at h with hx
    · cases h
      have hmeets : w.meets mask=true := decide_eq_true hx
      exact ⟨by rw [firstMatching,filter_cons_of_pos hmeets]; rfl,by rw [withoutMatching,hmeets,if_pos rfl]⟩
    · have hmeets : ¬ x.meets mask=true := fun hm => hx (of_decide_eq_true hm)
      obtain ⟨⟨y,rest'⟩,htake,hpair⟩:=Option.map_eq_some_iff.mp h
      cases hpair
      obtain ⟨hfirst,hleft⟩:=ih htake
      refine ⟨?_,?_⟩
      · rw [firstMatching,filter_cons_of_neg hmeets]
        rw [firstMatching] at hfirst
        rw [hfirst,firstMatching,firstMatching,filter_cons_of_neg hmeets]
      · rw [withoutMatching,if_neg hmeets,hleft]
        cases k with
        | zero => rw [withoutMatching_zero,withoutMatching_zero]
        | succ k => rw [withoutMatching,if_neg hmeets]

theorem firstMatching_perm (mask : BitVec 32) (k : ℕ) (queue : List (Waiter θ)) :
    (firstMatching mask k queue++withoutMatching mask k queue).Perm queue := by
  induction queue generalizing k with
  | nil => cases k <;> simp [firstMatching,withoutMatching]
  | cons w queue ih =>
    cases k with
    | zero => simp [firstMatching,withoutMatching]
    | succ k =>
      by_cases hw : w.meets mask=true
      · rw [firstMatching,filter_cons_of_pos hw,withoutMatching,if_pos hw]
        exact (ih k).cons w
      · rw [firstMatching,filter_cons_of_neg hw,withoutMatching,if_neg hw]
        exact perm_middle.trans ((ih (k+1)).cons w)

theorem withoutMatching_sublist (mask : BitVec 32) (k : ℕ) (queue : List (Waiter θ)) :
    (withoutMatching mask k queue).Sublist queue := by
  induction queue generalizing k with
  | nil => cases k <;> exact List.Sublist.refl []
  | cons w queue ih =>
    cases k with
    | zero => rw [withoutMatching_zero]
    | succ k =>
      rw [withoutMatching]
      split_ifs
      · exact (ih k).cons w
      · exact (ih (k+1)).cons_cons w

theorem matching_congr {wide : BitVec 32} (hwide : ∀w : Waiter θ,w.meets mask → w.meets wide) {k : ℕ}
    (h : ∀w∈firstMatching wide k queue,w.meets mask) :
    firstMatching mask k queue=firstMatching wide k queue ∧
      withoutMatching mask k queue=withoutMatching wide k queue := by
  induction queue generalizing k with
  | nil => cases k <;> exact ⟨rfl,rfl⟩
  | cons w queue ih =>
    cases k with
    | zero => simp [firstMatching]
    | succ k =>
      by_cases hw : w.meets wide=true
      · rw [firstMatching,filter_cons_of_pos hw] at h
        obtain ⟨hfirst,hleft⟩:=ih fun x hx => h x (mem_cons_of_mem w hx)
        have hmask := h w mem_cons_self
        rw [firstMatching] at hfirst
        rw [firstMatching,firstMatching,filter_cons_of_pos hmask,filter_cons_of_pos hw,take_succ_cons,
          take_succ_cons,hfirst,withoutMatching,if_pos hmask,withoutMatching,if_pos hw]
        exact ⟨rfl,hleft⟩
      · have hmask : ¬ w.meets mask=true := fun hm => hw (hwide w hm)
        rw [firstMatching,filter_cons_of_neg hw] at h
        obtain ⟨hfirst,hleft⟩:=ih h
        rw [firstMatching] at hfirst
        rw [firstMatching,firstMatching,filter_cons_of_neg hmask,filter_cons_of_neg hw,withoutMatching,
          if_neg hmask,withoutMatching,if_neg hw,hleft]
        exact ⟨hfirst,rfl⟩

end Matching

theorem takeTimedOut_some {time : SubsecondTime} {queue rest : List (Waiter θ)} {w : Waiter θ}
    (h : takeTimedOut time queue=some (w,rest)) : w.timeout≤time ∧ (w::rest).Perm queue := by
  induction queue generalizing rest with
  | nil => cases h
  | cons x queue ih =>
    rw [takeTimedOut] at h
    split_ifs at h with hx
    · cases h
      exact ⟨hx,.refl _⟩
    · obtain ⟨⟨y,rest'⟩,htake,hpair⟩:=Option.map_eq_some_iff.mp h
      cases hpair
      obtain ⟨htime,hperm⟩:=ih htake
      exact ⟨htime,(List.Perm.swap x w rest').trans (hperm.cons x)⟩

theorem meets_matchAny {mask : BitVec 32} (w : Waiter θ) (h : w.meets mask) : w.meets matchAny := by
  have hne := of_decide_eq_true h
  refine decide_eq_true ?_
  rw [matchAny,BitVec.allOnes_and]
  intro hzero
  rw [hzero] at hne
  exact hne BitVec.and_zero

namespace SyscallServer

variable [DecidableEq π]

theorem findFutexByUaddr_eq (s : SyscallServer θ α π) (t : θ) (uaddr : α) :
    ∃known,s.findFutexByUaddr t uaddr=(s.va2pa t uaddr,{s with known}) := by
  rw [findFutexByUaddr]
  split_ifs
  · exact ⟨s.known,rfl⟩
  · exact ⟨_,rfl⟩

variable [DecidableEq θ] {s s' : SyscallServer θ α π} {p : π} {t : θ}

/-- The waiters have been taken from the queue and resumed. -/
def resumeAll (s : SyscallServer θ α π) (p : π) (woken left : List (Waiter θ)) (time : SubsecondTime) :
    SyscallServer θ α π :=
  { s with
    futexes := Function.update s.futexes p left
    threads := fun t => if t∈woken.map (·.threadId) then ⟨.running,time,true⟩ else s.threads t }

theorem wakeUp_eq (s : SyscallServer θ α π) (p : π) (mask : BitVec 32) (time : SubsecondTime) (k : ℕ) :
    let woken := firstMatching mask k (s.futexes p)
    wakeUp p mask time k s=⟨.ok (woken.length,s.resumeAll p woken (withoutMatching mask k (s.futexes p)) time),
      woken.map (.woken ·.threadId)⟩ := by
  induction k generalizing s with
  | zero => simp [wakeUp,firstMatching,resumeAll,pure_eq]
  | succ k ih =>
    rw [wakeUp,dequeueWaiter]
    cases htake : takeMatching mask (s.futexes p) with
    | none =>
      obtain ⟨hfilter,hleft⟩:=takeMatching_none htake
      simp [firstMatching,hfilter,hleft,resumeAll,pure_eq,mk_ok_bind]
    | some x =>
      obtain ⟨w,rest⟩:=x
      obtain ⟨hfirst,hleft⟩:=takeMatching_some htake k
      simp only [ih,hfirst,hleft,note,mk_ok_bind,pure_eq]
      simp only [resumeThread,setThread,setFutex,update_self,resumeAll,update_idem,length_cons,map_cons,
        append_nil,singleton_append,mem_cons]
      congr 4
      funext u
      by_cases hu : u=w.threadId
      · simp [hu]
      · simp [hu]

/-- The call wakes the first waiters whose mask meets its mask, as many as it asks for. -/
def WakesBitset [DecidableEq α] (s : SyscallServer θ α π) (t : θ) (args : FutexArgs α)
    (time : SubsecondTime) : Prop :=
  let queue := s.futexes (s.va2pa t args.uaddr)
  let woken := (firstMatching args.val3 args.val.toInt.toNat queue).map (·.threadId)
  ∃endTime s',(s.handleFutexCall t args time).result = .ok
      (some ((min args.val.toInt.toNat (queue.countP (Waiter.meets args.val3)) : ℕ),endTime),s') ∧
    s'.futexes=Function.update s.futexes (s.va2pa t args.uaddr)
      (withoutMatching args.val3 args.val.toInt.toNat queue) ∧
    (∀u∈woken,(s'.threads u).status = .running ∧ (s'.threads u).wakeupMsg=true) ∧
    ∀u∉woken,s'.threads u=s.threads u

theorem futexWake_eq (s : SyscallServer θ α π) (t : θ) (uaddr : α) (nrWake mask : BitVec 32)
    (time : SubsecondTime) :
    let woken := firstMatching mask nrWake.toInt.toNat (s.futexes (s.va2pa t uaddr))
    ∃known,s.futexWake t uaddr nrWake mask time=⟨.ok (s.wokenResult t woken.length time,
      resumeAll {s with known} (s.va2pa t uaddr) woken
        (withoutMatching mask nrWake.toInt.toNat (s.futexes (s.va2pa t uaddr)))
        (time+s.applyRescheduleCost t true)),woken.map (.woken ·.threadId)⟩ := by
  obtain ⟨known,hfind⟩:=s.findFutexByUaddr_eq t uaddr
  refine ⟨known,?_⟩
  rw [futexWake,hfind]
  simp only [wakeUp_eq,mk_ok_bind,pure_eq,append_nil]
  rfl

theorem wakeBitset_iff [DecidableEq α] (s : SyscallServer θ α π) (t : θ) (args : FutexArgs α)
    (time : SubsecondTime) (hcmd : FutexCmd.decode args.op=some .wakeBitset) : s.WakesBitset t args time ↔
      ∀w∈firstMatching matchAny args.val.toInt.toNat (s.futexes (s.va2pa t args.uaddr)),w.meets args.val3 := by
  obtain ⟨known,hwake⟩:=s.futexWake_eq t args.uaddr args.val matchAny time
  have hcall : s.handleFutexCall t args time=s.futexWake t args.uaddr args.val matchAny time >>=
      fun x => pure (some x.1,x.2) := by
    simp only [handleFutexCall,hcmd]
    rfl
  rw [hwake] at hcall
  replace hcall := congrArg Noted.result hcall
  generalize hqueue : s.futexes (s.va2pa t args.uaddr)=queue at hcall ⊢
  constructor
  · rintro ⟨endTime',s',hok,hfutexes,-⟩
    rw [hqueue] at hfutexes
    rw [hcall] at hok
    obtain ⟨-,rfl⟩:=Prod.mk.inj (Except.ok.inj hok)
    have hleft := congrFun hfutexes (s.va2pa t args.uaddr)
    simp only [resumeAll,update_self] at hleft
    -- the two wake-ups leave the same waiters, so they take the same ones
    have hperm := (firstMatching_perm matchAny args.val.toInt.toNat queue).trans
      (firstMatching_perm args.val3 args.val.toInt.toNat queue).symm
    rw [hleft,perm_append_right_iff] at hperm
    intro w hw
    exact (mem_filter.mp (mem_of_mem_take (hperm.mem_iff.mp hw))).2
  · intro hall
    obtain ⟨hfirst,hleft⟩:=matching_congr meets_matchAny hall
    rw [← hfirst,← hleft] at hcall
    have hlength : (firstMatching args.val3 args.val.toInt.toNat queue).length =
        min args.val.toInt.toNat (queue.countP (Waiter.meets args.val3)) := by
      rw [firstMatching,length_take,countP_eq_length_filter]
    rw [hlength,wokenResult] at hcall
    subst hqueue
    refine ⟨_,_,hcall,rfl,fun u hu => ?_,fun u hu => ?_⟩
    · simp only [resumeAll,if_pos hu,and_self]
    · simp only [resumeAll,if_neg hu]

def twoThreads (osEmuTimeStart : BitVec 64) : SyscallServer ℕ ℕ ℕ :=
  ((new 0 osEmuTimeStart (fun _ uaddr => uaddr) (fun _ => 0) fun _ => true).setStatus 0 .running).setStatus
    1 .running

def callArgs (op val : BitVec 32) (timeout : Option Timespec) (val3 : BitVec 32) : FutexArgs ℕ :=
  ⟨0,op,val,timeout,0,0,val3⟩

/-- Three waiters, of which the first two meet the mask of a call that wakes two. -/
theorem wakeBitset_iff_plain :
    (((twoThreads 0).setFutex 0 [⟨0,3,.maxTime⟩,⟨2,2,.maxTime⟩,⟨3,1,.maxTime⟩]).stallThread 0
      .futex).WakesBitset 1 (callArgs 10 2 none 2) 0 :=
  (wakeBitset_iff _ 1 (callArgs 10 2 none 2) 0 rfl).mpr (by decide +kernel)

/-- A thread that waits for bit 0 is woken by a call for bit 1. -/
theorem wakeBitset_ignores_mask : ∃s s',run step (twoThreads 0) [.call 0 (callArgs 9 0 none 1) 0] = .ok s ∧
      firstMatching 2 1 (s.futexes 0)=[] ∧
      (s.handleFutexCall 1 (callArgs 10 1 none 2) 0).result = .ok (some (1,0),s') ∧
      (s'.threads 0).status = .running :=
  ⟨_,_,rfl,by decide +kernel,rfl,by decide +kernel⟩

theorem wakeTimedOut_early {time : SubsecondTime} {w : Waiter θ} (hw : w∈s.futexes p) :
    ∃s',(wakeTimedOut time s p).result = .ok s' ∧ (w∈s'.futexes p ∨ w.timeout≤time) := by
  rw [wakeTimedOut]
  cases htake : takeTimedOut time (s.futexes p) with
  | none => exact ⟨s,rfl,.inl hw⟩
  | some x =>
    obtain ⟨v,rest⟩:=x
    obtain ⟨htime,hperm⟩:=takeTimedOut_some htake
    refine ⟨_,rfl,?_⟩
    simp only [resumeThread,setThread,setFutex,update_self]
    rcases mem_cons.mp (hperm.mem_iff.mpr hw) with rfl | hrest
    · exact .inr htime
    · exact .inl hrest

/-- A relative wait records the deadline at which it is due, and no scan ends it before. -/
def RecordsRelative [DecidableEq α] (s : SyscallServer θ α π) (t : θ) (args : FutexArgs α)
    (time : SubsecondTime) (due : ℕ) : Prop :=
  ∃s' w,(s.handleFutexCall t args time).result = .ok (none,s') ∧
    s'.futexes (s.va2pa t args.uaddr)=s.futexes (s.va2pa t args.uaddr)++[w] ∧
    w.threadId=t ∧ w.timeout.toNat=due ∧
    ∀ (later : SyscallServer θ α π) (p : π) (now : SubsecondTime),w∈later.futexes p →
      ∃s'',(wakeTimedOut now later p).result = .ok s'' ∧ (w∈s''.futexes p ∨ due≤now.toNat)

/-- The start time is subtracted in units that make `2 ^ 64` of every multiple of `2 ^ 49`. -/
theorem scaled_eq_iff {d due start : ℕ} (hd : d<2^64) (hmod : (d+start*10^15) % 2^64=due % 2^64) :
    d=due ↔ due<2^64 ∧ 2^49 ∣ start := by
  have hscale : start*10^15=2^15*(start*5^15) := by ring
  constructor
  · rintro rfl
    refine ⟨hd,?_⟩
    have hdvd : 2^64 ∣ start*10^15 := Nat.modEq_zero_iff_dvd.mp (Nat.ModEq.add_left_cancel' d hmod)
    rw [hscale,show 64=15+49 from rfl,pow_add] at hdvd
    have hfive : 2^49 ∣ start*5^15 := Nat.dvd_of_mul_dvd_mul_left (Nat.two_pow_pos 15) hdvd
    have hcoprime : Nat.Coprime (2^49) (5^15) := Nat.Coprime.pow 49 15 (by decide)
    exact hcoprime.dvd_of_dvd_mul_right hfive
  · rintro ⟨hdue,k,rfl⟩
    have hzero : 2^49*k*10^15=2^64*(k*5^15) := by ring
    rw [hzero,Nat.add_mul_mod_self_left,Nat.mod_eq_of_lt hd,Nat.mod_eq_of_lt hdue] at hmod
    exact hmod

theorem relative_deadline (time start : BitVec 64) (x : Timespec) :
    (time+(SubsecondTime.sec (x.tvSec - start)+SubsecondTime.ns x.tvNsec)).toNat =
        time.toNat+x.femtoseconds ↔ time.toNat+x.femtoseconds<2^64 ∧ 2^49 ∣ start.toNat := by
  refine scaled_eq_iff (BitVec.isLt _) ?_
  have hsum : time+(SubsecondTime.sec (x.tvSec - start)+SubsecondTime.ns x.tvNsec) +
      start*1000000000000000=time+(x.tvSec*1000000000000000+x.tvNsec*1000000) := by
    rw [SubsecondTime.sec,SubsecondTime.ns]
    ring
  have hnat := congrArg BitVec.toNat hsum
  rw [BitVec.toNat_add,BitVec.toNat_mul,Nat.add_mod_mod] at hnat
  refine hnat.trans ?_
  rw [BitVec.toNat_add,BitVec.toNat_add,BitVec.toNat_mul,BitVec.toNat_mul,Nat.add_mod_mod,← Nat.add_assoc,
    Nat.add_mod_mod,Nat.add_right_comm,Nat.add_mod_mod,Nat.add_right_comm,Nat.add_assoc]
  rfl

theorem relativeTimeout_iff [DecidableEq α] (s : SyscallServer θ α π) (t : θ) (args : FutexArgs α)
    (x : Timespec) (time : SubsecondTime) (hcmd : FutexCmd.decode args.op=some .wait)
    (hx : args.timeout=some x) (hval : args.val=s.memory (s.va2pa t args.uaddr)) :
    s.RecordsRelative t args time (time.toNat+x.femtoseconds) ↔
      time.toNat+x.femtoseconds<2^64 ∧ 2^49 ∣ s.osEmuTimeStart.toNat := by
  obtain ⟨known,hfind⟩:=s.findFutexByUaddr_eq t args.uaddr
  rw [← relative_deadline]
  generalize hd : time+(SubsecondTime.sec (x.tvSec - s.osEmuTimeStart)+SubsecondTime.ns x.tvNsec)=d
  have hdeadline : s.timeoutTime .wait args.timeout time=d := by
    simp only [timeoutTime,hx,← hd]
    rfl
  obtain ⟨s',hcall,hqueue⟩ : ∃s',(s.handleFutexCall t args time).result = .ok (none,s') ∧
      s'.futexes (s.va2pa t args.uaddr)=s.futexes (s.va2pa t args.uaddr)++[⟨t,matchAny,d⟩] := by
    simp only [handleFutexCall,hcmd,futexWait,hfind,hdeadline,hval,ne_eq,not_true,if_false]
    exact ⟨_,rfl,update_self ..⟩
  constructor
  · rintro ⟨s'',w,hok,happend,-,hdue,-⟩
    rw [hcall] at hok
    obtain ⟨-,rfl⟩:=Prod.mk.inj (Except.ok.inj hok)
    rw [hqueue,append_cancel_left_eq,List.cons.injEq] at happend
    rw [← hdue,← happend.1]
  · intro hdue
    refine ⟨s',⟨t,matchAny,d⟩,hcall,hqueue,rfl,hdue,fun later p now hin => ?_⟩
    rw [← hdue]
    exact wakeTimedOut_early hin

theorem relativeTimeout_iff_second :
    (twoThreads 0).RecordsRelative 0 (callArgs 0 0 (some ⟨1,0⟩) 0) 5 (5+10^15) :=
  (relativeTimeout_iff _ 0 (callArgs 0 0 (some ⟨1,0⟩) 0) ⟨1,0⟩ 5 rfl rfl rfl).mpr
    ⟨by decide +kernel,by decide +kernel⟩

/-- With a start time of one second a wait of two seconds ends after one. With that of the
default configuration a wait of one second gets a deadline after 1564 seconds. -/
theorem relative_wait_mistimed :
    (∃s s',run step (twoThreads 1) [.call 0 (callArgs 0 0 (some ⟨2,0⟩) 0) 0] = .ok s ∧
      (s.threads 0).status = .stalled .futex ∧ run step s [.periodic 1000000000000000] = .ok s' ∧
      waitResult (s'.threads 0)=(-eTimedOut,1000000000000000)) ∧
    ∃s,run step (twoThreads 1337000000) [.call 0 (callArgs 0 0 (some ⟨1,0⟩) 0) 0] = .ok s ∧
      s.futexes 0=[⟨0,matchAny,1564718394591576064⟩] :=
  ⟨⟨_,_,rfl,by decide +kernel,rfl,by decide +kernel⟩,_,rfl,by decide +kernel⟩

end SyscallServer

end Sniper.Futexes
