import Sniper.SubsecondTimes

/-!
# The page table walkers

A walk that finds all walkers busy waits until the first one is free.
-/

namespace Sniper.PageWalks
open List

section Overlap

variable {ι τ : Type*} [LinearOrder τ]

def overlap (start finish : ι → τ) (l : List ι) (x : τ) : ℕ := l.countP fun i => start i≤x ∧ x<finish i

/-- An overlap of intervals is greatest at the start of one of them. -/
theorem overlap_le_iff (start finish : ι → τ) (l : List ι) (bound : ℕ) :
    (∀x,overlap start finish l x≤bound) ↔ ∀i∈l,overlap start finish l (start i)≤bound := by
  constructor
  · exact fun h i _ => h (start i)
  · intro h x
    cases hmax : (l.filter fun i => start i≤x ∧ x<finish i).argmax start with
    | none =>
      rw [overlap,countP_eq_length_filter,argmax_eq_none.mp hmax]
      exact Nat.zero_le bound
    | some m =>
      have hm := mem_filter.mp (argmax_mem hmax)
      have hle : overlap start finish l x ≤ overlap start finish l (start m) := by
        apply countP_mono_left
        intro i hi hx
        rw [decide_eq_true_iff] at hx ⊢
        have hlast := le_of_mem_argmax (mem_filter.mpr ⟨hi,decide_eq_true hx⟩) hmax
        have hmx := of_decide_eq_true hm.2
        exact ⟨hlast,hmx.1.trans_lt hx.2⟩
      exact hle.trans (h m hm.1)

end Overlap

structure MshrEntry where
  requestTime : SubsecondTime
  completionTime : SubsecondTime

structure Mshr where
  maxEntries : ℕ
  entries : List MshrEntry
  minTime : SubsecondTime

namespace Mshr

/-- The constructor leaves `min_time` at zero. -/
def new (maxEntries : ℕ) : Mshr := ⟨maxEntries,[],SubsecondTime.zero⟩

def allocate (m : Mshr) (entry : MshrEntry) : Mshr :=
  { m with
    minTime := if entry.completionTime < m.minTime then entry.completionTime else m.minTime
    entries := m.entries++[entry] }

def getSlotAllocationDelay (m : Mshr) (requestIncoming : SubsecondTime) : SubsecondTime :=
  if m.entries.isEmpty then SubsecondTime.zero
  else if m.maxEntries < m.entries.length+1 then
    if requestIncoming < m.minTime then m.minTime - requestIncoming else SubsecondTime.zero
  else SubsecondTime.zero

def removeCompletedEntries (m : Mshr) (now : SubsecondTime) : Mshr :=
  {m with entries:=m.entries.dropWhile fun entry => entry.completionTime≤now}

end Mshr

/-- A call of `performAddressTranslation`. A miss asks for a walker after the latency of the TLBs
and occupies it for the latencies of the walk and of a fault. A fault that is left to a kernel in
user space has no walk and counts as a call that allocates nothing. -/
inductive TranslationCall where
  | hit (time : SubsecondTime)
  | miss (time requestTime walkLatency faultLatency : SubsecondTime)

structure Walk where
  start : SubsecondTime
  completion : SubsecondTime

structure WalkerState where
  walkers : Mshr
  /-- the walks so far; no function reads it -/
  walks : List Walk

def WalkerState.new (maxEntries : ℕ) : WalkerState := ⟨.new maxEntries,[]⟩

def WalkerState.step (s : WalkerState) : TranslationCall → WalkerState
  | .hit time => {s with walkers:=s.walkers.removeCompletedEntries time}
  | .miss time requestTime walkLatency faultLatency =>
    let walkers := s.walkers.removeCompletedEntries time
    let delay := walkers.getSlotAllocationDelay requestTime
    let completionTime := requestTime+delay+walkLatency+faultLatency
    { walkers:=walkers.allocate ⟨requestTime,completionTime⟩
      walks := s.walks++[⟨requestTime+delay,completionTime⟩] }

def WalkerState.run (s : WalkerState) (calls : List TranslationCall) : WalkerState :=
  calls.foldl WalkerState.step s

def inProgress (walks : List Walk) (time : SubsecondTime) : ℕ :=
  walks.countP fun w => w.start≤time ∧ time<w.completion

def TranslationCall.immediateWalk : TranslationCall → Option Walk
  | .hit _ => none
  | .miss _ requestTime walkLatency faultLatency =>
    some ⟨requestTime,requestTime+walkLatency+faultLatency⟩

theorem Mshr.getSlotAllocationDelay_eq_zero {m : Mshr} (h : m.minTime=SubsecondTime.zero)
    (requestIncoming : SubsecondTime) : m.getSlotAllocationDelay requestIncoming=0 := by
  have hlt : ¬ requestIncoming<SubsecondTime.zero := BitVec.not_lt_zero
  rw [getSlotAllocationDelay,h,if_neg hlt]
  split_ifs
  · rfl
  · rfl
  · rfl

theorem Mshr.allocate_minTime {m : Mshr} (h : m.minTime=SubsecondTime.zero) (entry : MshrEntry) :
    (m.allocate entry).minTime=SubsecondTime.zero := by
  have hlt : ¬ entry.completionTime<SubsecondTime.zero := BitVec.not_lt_zero
  simp only [allocate,h,if_neg hlt]

theorem WalkerState.step_of_minTime {s : WalkerState} (h : s.walkers.minTime=SubsecondTime.zero)
    (call : TranslationCall) : (s.step call).walkers.minTime=SubsecondTime.zero ∧
      (s.step call).walks=s.walks++call.immediateWalk.toList := by
  cases call with
  | hit time => exact ⟨h,(append_nil _).symm⟩
  | miss time requestTime walkLatency faultLatency =>
    refine ⟨Mshr.allocate_minTime h _,?_⟩
    have hzero := Mshr.getSlotAllocationDelay_eq_zero
      (show (s.walkers.removeCompletedEntries time).minTime=SubsecondTime.zero from h) requestTime
    simp only [WalkerState.step,TranslationCall.immediateWalk,Option.toList_some,hzero,add_zero]

theorem WalkerState.run_walks {s : WalkerState} (h : s.walkers.minTime=SubsecondTime.zero)
    (calls : List TranslationCall) :
    (s.run calls).walks=s.walks++calls.filterMap TranslationCall.immediateWalk := by
  induction calls generalizing s with
  | nil => exact (append_nil _).symm
  | cons call calls ih =>
    obtain ⟨hmin,hwalks⟩:=step_of_minTime h call
    have hrun : s.run (call::calls)=(s.step call).run calls := rfl
    rw [hrun,ih hmin,hwalks,append_assoc]
    cases hwalk : call.immediateWalk with
    | none => rw [filterMap_cons_none hwalk,Option.toList_none,nil_append]
    | some w => rw [filterMap_cons_some hwalk,Option.toList_some,singleton_append]

/-- In every run of translations, at no time more walks than walkers are in progress, exactly when
this holds at the request of every miss for walks that all begin at once: no walk waits. -/
theorem walkers_limit_iff (maxEntries : ℕ) (calls : List TranslationCall) :
    (∀time,inProgress ((WalkerState.new maxEntries).run calls).walks time ≤ maxEntries) ↔
      ∀w∈calls.filterMap TranslationCall.immediateWalk,
        inProgress (calls.filterMap TranslationCall.immediateWalk) w.start ≤ maxEntries := by
  have hwalks := WalkerState.run_walks (s:=.new maxEntries) rfl calls
  rw [hwalks,show (WalkerState.new maxEntries).walks=[] from rfl,nil_append]
  constructor
  · exact fun h w _ => h w.start
  · intro h time
    exact (overlap_le_iff _ _ _ maxEntries).mpr h time.toNat

/-- One walker and two misses: at time 12 both walks are in progress. -/
theorem walkers_limit_fails :
    inProgress ((WalkerState.new 1).run [.miss 10 10 100 0,.miss 12 12 100 0]).walks 12=2 := by
  decide +kernel

end Sniper.PageWalks
