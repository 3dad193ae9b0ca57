import Sniper.SyscallServer

/-!
# The next timeout

When no thread runs, the barrier asks the system call server how long to wait.
-/

namespace Sniper.Futexes
open FallibleRuns List

variable {θ α π : Type}

section

variable (queue : List (Waiter θ))

/-- `SimFutex::getNextTimeout`, and the same scan over the sleeping threads. -/
def queueTimeout : SubsecondTime :=
  queue.foldl (fun next w => if w.timeout < .maxTime then w.timeout else next) .maxTime

theorem lt_maxTime {t : SubsecondTime} : t < .maxTime ↔ t ≠ .maxTime := BitVec.lt_allOnes_iff

/-- The last waiter of the queue that does not wait forever. -/
def lastTimed : Option (Waiter θ) := (queue.filter (·.timeout < .maxTime)).getLast?

theorem queueTimeout_eq : queueTimeout queue=((lastTimed queue).map Waiter.timeout).getD .maxTime := by
  induction queue using reverseRecOn with
  | nil => rfl
  | append_singleton queue w ih =>
    rw [queueTimeout,foldl_append,← queueTimeout,ih,lastTimed,lastTimed,filter_append]
    by_cases h : w.timeout < .maxTime <;> simp [h]

end

theorem queueTimeout_le {queue : List (Waiter θ)} {t : SubsecondTime} (ht : t < .maxTime) :
    queueTimeout queue≤t ↔ ∃v∈lastTimed queue,v.timeout≤t := by
  rw [queueTimeout_eq]
  cases lastTimed queue with
  | none => simpa using ht
  | some v => simp

theorem queueTimeout_cases (queue : List (Waiter θ)) :
    (queueTimeout queue = .maxTime ∧ ∀w∈queue,w.timeout = .maxTime) ∨
      ∃w∈queue,w.timeout < .maxTime ∧ w.timeout=queueTimeout queue := by
  rw [queueTimeout_eq]
  cases h : lastTimed queue with
  | none => exact .inl ⟨rfl,by simpa [lastTimed,lt_maxTime] using h⟩
  | some v =>
    have hv : v∈queue ∧ v.timeout < .maxTime := by simpa using mem_of_getLast? h
    exact .inr ⟨v,hv.1,hv.2,rfl⟩

namespace SyscallServer

variable (s : SyscallServer θ α π)

/-- The source has a parameter for the time as well, and does not read it. -/
def getNextTimeout : SubsecondTime :=
  s.known.foldl
    (fun next p => if queueTimeout (s.futexes p)<next then queueTimeout (s.futexes p) else next)
    (queueTimeout s.sleeping)

def queues : List (List (Waiter θ)) := s.sleeping::s.known.map s.futexes

def waiters : List (Waiter θ) := s.queues.flatten

/-- The least timeout of all, or `MaxTime` if every one is infinite. -/
structure IsNextTimeout (t : SubsecondTime) : Prop where
  least : ∀w∈s.waiters,t≤w.timeout
  attained : t = .maxTime ∨ ∃w∈s.waiters,w.timeout=t

variable {s}

theorem getNextTimeout_spec : (∃q∈s.queues,s.getNextTimeout=queueTimeout q) ∧
    ∀q∈s.queues,s.getNextTimeout≤queueTimeout q := by
  have hscan : ∀ (l : List π) a,
      let r := l.foldl (fun next p =>
        if queueTimeout (s.futexes p)<next then queueTimeout (s.futexes p) else next) a
      (r=a ∨ ∃p∈l,r=queueTimeout (s.futexes p)) ∧
        r≤a ∧ ∀p∈l,r≤queueTimeout (s.futexes p) := by
    intro l
    induction l with
    | nil => simp
    | cons p l ih =>
      intro a
      have h := ih (if queueTimeout (s.futexes p)<a then queueTimeout (s.futexes p) else a)
      simp only [foldl_cons,mem_cons,forall_eq_or_imp,exists_eq_or_imp]
      split_ifs at h ⊢ with hlt
      · exact ⟨.inr h.1,by bv_omega,h.2⟩
      · exact ⟨h.1.imp_right .inr,h.2.1,by bv_omega,h.2.2⟩
  simpa [queues,getNextTimeout] using hscan s.known (queueTimeout s.sleeping)

/-- The answer is right exactly if no finite timeout is earlier than the last finite one of every
queue. That no thread can be woken is always noticed. -/
theorem nextTimeout_least_iff (s : SyscallServer θ α π) :
    (s.IsNextTimeout s.getNextTimeout ↔ ∀w∈s.waiters,w.timeout < .maxTime →
      ∃q∈s.queues,∃v∈lastTimed q,v.timeout≤w.timeout) ∧
    (¬ s.getNextTimeout < .maxTime ↔ ∀w∈s.waiters,w.timeout = .maxTime) := by
  obtain ⟨⟨q,hq,heq⟩,hle⟩:=s.getNextTimeout_spec
  have hmem : ∀w∈q,w∈s.waiters := fun w hw => mem_flatten.mpr ⟨q,hq,hw⟩
  constructor
  · constructor
    · intro h w hw hlt
      exact ⟨q,hq,(queueTimeout_le hlt).mp (heq ▸ h.least w hw)⟩
    · intro h
      constructor
      · intro w hw
        by_cases hlt : w.timeout < .maxTime
        · obtain ⟨q',hq',hv⟩:=h w hw hlt
          exact BitVec.le_trans (hle q' hq') ((queueTimeout_le hlt).mpr hv)
        · have htop : (SubsecondTime.maxTime).toNat=2^64 - 1 := BitVec.toNat_allOnes
          bv_omega
      · rcases queueTimeout_cases q with ⟨hmax,-⟩ | ⟨w,hw,-,hattained⟩
        · exact .inl (heq.trans hmax)
        · exact .inr ⟨w,hmem w hw,hattained.trans heq.symm⟩
  · constructor
    · intro hmax w hw
      obtain ⟨q',hq',hw⟩:=mem_flatten.mp hw
      rcases queueTimeout_cases q' with ⟨-,hall⟩ | ⟨v,-,hlt,hv⟩
      · exact hall w hw
      · exact absurd (hle q' hq') (by bv_omega)
    · intro hall hlt
      rcases queueTimeout_cases q with ⟨hmax,-⟩ | ⟨w,hw,hlt',-⟩
      · rw [heq,hmax] at hlt
        exact BitVec.lt_irrefl _ hlt
      · rw [hall w (hmem w hw)] at hlt'
        exact BitVec.lt_irrefl _ hlt'

/-- Of two threads that sleep until 5 and until 9, the answer is 9. -/
theorem later_sleeper_hides_earlier : ∃s : SyscallServer (Fin 2) Unit Unit,
    run step (new 0 0 (fun _ _ => ()) (fun _ => 0) fun _ => true)
      [.start 0,.start 1,.sleep 0 5,.sleep 1 9] = .ok s ∧
    s.sleeping.map Waiter.timeout=[5,9] ∧ s.getNextTimeout=9 ∧ ¬ s.IsNextTimeout s.getNextTimeout := by
  refine ⟨_,rfl,rfl,rfl,fun h => ?_⟩
  exact absurd (h.least ⟨0,0,5⟩ (by decide)) (by decide)

end SyscallServer

end Sniper.Futexes
