import Sniper.SubsecondTimes

/-!
# Banks of the detailed DRAM model

A bank keeps its open row, the time at which it is available and the latest busy intervals, which
serve requests that arrive out of order. Statistics other than the page hits are left out.
-/

namespace Sniper.DramBanks

open List SubsecondTime

structure IntervalNode where
  startTime : SubsecondTime
  endTime : SubsecondTime
  openPage : UInt64
deriving DecidableEq

def IntervalNode.Covers (i : IntervalNode) (t : SubsecondTime) : Prop := i.startTime ≤ t ∧ t ≤ i.endTime

instance (i : IntervalNode) (t : SubsecondTime) : Decidable (i.Covers t) := inferInstanceAs (Decidable (_ ∧ _))

abbrev StartsBefore : IntervalNode → IntervalNode → Prop := Order.Preimage IntervalNode.startTime (· ≤ ·)

/-- The intervals of a priority queue in an order in which it pops them. -/
def BusyIntervals := {l : List IntervalNode // l.Pairwise StartsBefore}

namespace BusyIntervals

def empty : BusyIntervals := ⟨[],.nil⟩

/-- The queue of a bank after `push`, limited to a hundred intervals. -/
def push (q : BusyIntervals) (node : IntervalNode) : BusyIntervals :=
  let l := q.1.orderedInsert StartsBefore node
  have hl : l.Pairwise StartsBefore := q.2.orderedInsert node q.1
  if 100 < l.length then ⟨l.tail,hl.tail⟩ else ⟨l,hl⟩

end BusyIntervals

/-- The value `-1` of an open page. -/
def noPage : UInt64 := -1

def scanIntervals (pktTime : SubsecondTime) : IntervalNode → List IntervalNode → SubsecondTime × IntervalNode
  | lastInterval,[] => (pktTime,lastInterval)
  | lastInterval,interval :: temp =>
    if pktTime < interval.startTime then (pktTime,lastInterval)
    else if interval.Covers pktTime then (interval.endTime + ns 1,interval)
    else scanIntervals pktTime interval temp

def fallsWithinInterval (q : BusyIntervals) (pktTime : SubsecondTime) : SubsecondTime × IntervalNode :=
  if q.1 = [] then (pktTime,⟨0,0,0⟩) else scanIntervals pktTime ⟨0,0,noPage⟩ q.1

structure BankInfo where
  openPage : UInt64
  tAvail : SubsecondTime
  maxTime : SubsecondTime
  busyIntervals : BusyIntervals

/-- The configured delays and the row policy. -/
structure DramTiming where
  bankKeepOpen : SubsecondTime
  bankOpenDelay : SubsecondTime
  bankCloseDelay : SubsecondTime
  dramAccessCost : SubsecondTime
  openRowPolicy : Bool

/-- An access with its time at the bank stage. -/
structure Access where
  time : SubsecondTime
  page : UInt64

namespace BankInfo

def new : BankInfo := ⟨noPage,0,0,.empty⟩

/-- The time the access is recorded at, and the bank its row is compared with. -/
def locate (b : BankInfo) (a : Access) : SubsecondTime × BankInfo :=
  if b.maxTime < a.time then (a.time,{b with maxTime := a.time,openPage := a.page})
  else
    let result := fallsWithinInterval b.busyIntervals a.time
    (result.1,{b with tAvail := result.1,openPage := result.2.openPage})

variable (cfg : DramTiming) (b : BankInfo)

def isPageHit (a : Access) : Bool :=
  (b.locate a).2.openPage = a.page ∧ a.time ≤ (b.locate a).2.tAvail + cfg.bankKeepOpen

/-- When the commands of an access begin that misses, and the delays that are added then. -/
def rowMiss (tNow : SubsecondTime) : SubsecondTime × List SubsecondTime :=
  if tNow ≤ b.tAvail + cfg.bankKeepOpen then (tNow,[cfg.bankCloseDelay,cfg.bankOpenDelay])
  else if tNow < b.tAvail + cfg.bankKeepOpen + cfg.bankCloseDelay then
    (b.tAvail + cfg.bankKeepOpen + cfg.bankCloseDelay,[cfg.bankOpenDelay])
  else (tNow,[cfg.bankOpenDelay])

/-- When the commands of an access begin, and all its delays. -/
def commands (a : Access) : SubsecondTime × List SubsecondTime :=
  let located := (b.locate a).2
  let tNow := if a.time < located.tAvail then located.tAvail else a.time
  let (begins,delays) := if b.isPageHit cfg a then (tNow,[]) else located.rowMiss cfg tNow
  (begins,delays ++ [cfg.dramAccessCost])

def access (a : Access) : BankInfo :=
  let located := (b.locate a).2
  let tNow := (b.commands cfg a).2.foldl (· + ·) (b.commands cfg a).1
  { openPage := if b.isPageHit cfg a then located.openPage else if cfg.openRowPolicy then a.page else 0
    tAvail := tNow
    maxTime := if located.maxTime < tNow then tNow else located.maxTime
    busyIntervals := b.busyIntervals.push ⟨(b.locate a).1,tNow,a.page⟩ }

/-- When an access completes, as a number: `tAvail` is its remainder modulo `2 ^ 64`. -/
def completion (a : Access) : ℕ :=
  (b.commands cfg a).1.toNat + ((b.commands cfg a).2.map BitVec.toNat).sum

/-- The bank after a sequence of accesses. -/
def served (accesses : List Access) : BankInfo := accesses.foldl (access cfg) new

end BankInfo

open BankInfo

theorem scanIntervals_fst (t : SubsecondTime) (last : IntervalNode) {l : List IntervalNode}
    (hl : l.Pairwise StartsBefore) :
    (scanIntervals t last l).1 = ((l.find? (·.Covers t)).map (·.endTime + ns 1)).getD t := by
  induction l generalizing last with
  | nil => rfl
  | cons i l ih =>
    obtain ⟨hi,hl⟩ := pairwise_cons.1 hl
    by_cases ht : t < i.startTime
    · -- the intervals after this one start even later
      have hnone : (i :: l).find? (·.Covers t) = none := by
        simp only [find?_eq_none,decide_eq_true_eq]
        intro j hj hcov
        have hstart : i.startTime ≤ j.startTime := by
          rcases mem_cons.1 hj with rfl | hj
          · exact BitVec.le_refl _
          · exact hi j hj
        exact absurd (BitVec.le_trans hstart hcov.1) (BitVec.not_le.mpr ht)
      rw [hnone,scanIntervals,if_pos ht]
      rfl
    · by_cases hcov : i.Covers t
      · simp [scanIntervals,ht,hcov]
      · simp [scanIntervals,ht,hcov,ih _ hl]

theorem fallsWithinInterval_fst (q : BusyIntervals) (t : SubsecondTime) :
    (fallsWithinInterval q t).1 = ((q.1.find? (·.Covers t)).map (·.endTime + ns 1)).getD t := by
  by_cases hq : q.1 = []
  · simp [fallsWithinInterval,hq]
  · simp [fallsWithinInterval,hq,scanIntervals_fst t _ q.2]

theorem IntervalNode.Covers.of_wrap {i : IntervalNode} {t : SubsecondTime} (h : i.Covers t)
    (hwrap : 2 ^ 64 ≤ i.endTime.toNat + 10 ^ 6) (hle : t ≤ i.endTime + ns 1) : i.Covers (i.endTime + ns 1) := by
  have hns : (ns 1).toNat = 10 ^ 6 := rfl
  have hsum := BitVec.toNat_add i.endTime (ns 1)
  have hend := i.endTime.isLt
  refine ⟨BitVec.le_trans h.1 hle,?_⟩
  rw [BitVec.le_def]
  omega

/-- The availability time is right exactly when the end of the first interval around the request plus
one nanosecond stays below `2 ^ 64` and no interval covers it. -/
theorem available_outside_iff (q : BusyIntervals) (t : SubsecondTime) :
    (t ≤ (fallsWithinInterval q t).1 ∧ ∀i∈q.1,¬i.Covers (fallsWithinInterval q t).1) ↔
      ∀i∈q.1.find? (·.Covers t),i.endTime.toNat + 10 ^ 6 < 2 ^ 64 ∧
        ∀j∈q.1,¬j.Covers (i.endTime + ns 1) := by
  rw [fallsWithinInterval_fst]
  cases hfind : q.1.find? (·.Covers t) with
  | none => simpa using hfind
  | some i =>
    have hcov : i.Covers t := by simpa using find?_some hfind
    have hle : t.toNat ≤ i.endTime.toNat := hcov.2
    simp only [Option.map_some,Option.getD_some,Option.mem_some_iff,forall_eq']
    refine and_congr_left fun hout => ⟨fun hlate => ?_,fun hwrap => ?_⟩
    · by_contra hwrap
      exact hout i (mem_of_find?_eq_some hfind) (hcov.of_wrap (not_lt.mp hwrap) hlate)
    · rw [BitVec.le_def,BitVec.toNat_add_of_lt hwrap]
      exact Nat.le_add_right_of_le hle

/-- The second access starts right after the first one ends. A request within the first interval
is then sent into the second one. -/
theorem available_inside_next : let cfg : DramTiming := ⟨0,10,10,2000000,true⟩
    let q := (served cfg [⟨1000,7⟩,⟨2001011,7⟩]).busyIntervals
    (fallsWithinInterval q 1000).1 = 3001010 ∧ ∃i∈q.1,i.Covers 3001010 := by
  decide +kernel

theorem toNat_foldl_add (delays : List SubsecondTime) (t : SubsecondTime)
    (h : t.toNat + (delays.map BitVec.toNat).sum < 2 ^ 64) :
    (delays.foldl (· + ·) t).toNat = t.toNat + (delays.map BitVec.toNat).sum := by
  induction delays generalizing t with
  | nil => rfl
  | cons d delays ih =>
    rw [map_cons,sum_cons,← Nat.add_assoc] at h ⊢
    have hd : (t + d).toNat = t.toNat + d.toNat := BitVec.toNat_add_of_lt (by omega)
    rw [foldl_cons,ih _ (by rwa [hd]),hd]

section

variable {cfg : DramTiming}

theorem le_rowMiss (cfg : DramTiming) (b : BankInfo) (t : SubsecondTime) : t ≤ (b.rowMiss cfg t).1 := by
  rw [rowMiss]
  split_ifs with hopen hclosing
  · exact BitVec.le_refl t
  · exact BitVec.le_of_lt hclosing
  · exact BitVec.le_refl t

theorem time_le_completion (cfg : DramTiming) (b : BankInfo) (a : Access) :
    a.time.toNat ≤ b.completion cfg a := by
  have hbegins : a.time ≤ (b.commands cfg a).1 := by
    have hwait : a.time ≤ if a.time < (b.locate a).2.tAvail then (b.locate a).2.tAvail else a.time := by
      split_ifs with hlate
      · exact BitVec.le_of_lt hlate
      · exact BitVec.le_refl _
    rw [commands]
    by_cases hhit : b.isPageHit cfg a = true
    · rwa [if_pos hhit]
    · rw [if_neg hhit]
      exact BitVec.le_trans hwait (le_rowMiss ..)
  exact Nat.le_add_right_of_le hbegins

theorem tAvail_access {b : BankInfo} {a : Access} (h : b.completion cfg a < 2 ^ 64) :
    (b.access cfg a).tAvail.toNat = b.completion cfg a := toNat_foldl_add _ _ h

/-- Every access but the first is later than the completion before it. -/
def InOrder (cfg : DramTiming) (l : List Access) : Prop :=
  ∀front p a,front ++ [p,a] <+: l → (served cfg front).completion cfg p < a.time.toNat

theorem InOrder.left {l : List Access} {a : Access} (h : InOrder cfg (l ++ [a])) : InOrder cfg l :=
  fun front p b hb => h front p b (hb.trans (prefix_append l [a]))

theorem served_concat (cfg : DramTiming) (l : List Access) (a : Access) :
    served cfg (l ++ [a]) = (served cfg l).access cfg a := by
  simp [served,foldl_append]

/-- Both times of the bank are earlier than an access in order. -/
theorem InOrder.times_lt {l : List Access} {a : Access} (h : InOrder cfg (l ++ [a])) (hne : l ≠ []) :
    (served cfg l).maxTime < a.time ∧ (served cfg l).tAvail < a.time := by
  induction l using reverseRecOn generalizing a with
  | nil => exact absurd rfl hne
  | append_singleton l p ih =>
    have hcompletion := h l p a (by simp)
    have htAvail := tAvail_access (hcompletion.trans a.time.isLt)
    have htime := time_le_completion cfg (served cfg l) p
    -- an access that is not in the future is the first one, of a bank whose latest time is zero
    have hlocate : ((served cfg l).locate p).2.maxTime ≤ p.time := by
      rw [locate]
      split_ifs with hfuture
      · exact BitVec.le_refl _
      · by_cases hl : l = []
        · subst hl
          exact Nat.zero_le _
        · exact absurd (ih h.left hl).1 hfuture
    rw [served_concat]
    have hlast : ((served cfg l).access cfg p).tAvail < a.time := by rwa [BitVec.lt_def,htAvail]
    refine ⟨?_,hlast⟩
    have hlocate' : ((served cfg l).locate p).2.maxTime.toNat ≤ p.time.toNat := hlocate
    simp only [access]
    split_ifs
    · exact hlast
    · rw [BitVec.lt_def]
      omega

/-- The first access hits only at time zero for row zero, or within the keep-open time of zero. -/
def FirstHit (cfg : DramTiming) (a : Access) : Prop :=
  if a.time = 0 then a.page = 0 else a.time ≤ cfg.bankKeepOpen

theorem isPageHit_first (a : Access) : (served cfg []).isPageHit cfg a = true ↔ FirstHit cfg a := by
  by_cases ha : a.time = 0#64
  · have hkeep : 0#64 ≤ cfg.bankKeepOpen := Nat.zero_le _
    simp [FirstHit,isPageHit,locate,served,new,ha,fallsWithinInterval,BusyIntervals.empty,hkeep,
      eq_comm (b := a.page)]
  · have hfuture : 0#64 < a.time := Nat.pos_of_ne_zero fun hzero => ha (BitVec.eq_of_toNat_eq hzero)
    simp [FirstHit,isPageHit,locate,served,new,ha,hfuture]

theorem InOrder.isPageHit {l : List Access} {a : Access} (h : InOrder cfg (l ++ [a])) (hne : l ≠ []) :
    (served cfg l).isPageHit cfg a = true ↔ a.time ≤ (served cfg l).tAvail + cfg.bankKeepOpen := by
  simp [BankInfo.isPageHit,locate,(h.times_lt hne).1]

/-- A sum that wraps around lies before its first summand. -/
theorem le_add_iff {t x d : SubsecondTime} (ht : x < t) :
    t ≤ x + d ↔ x.toNat + d.toNat < 2 ^ 64 ∧ t.toNat ≤ x.toNat + d.toNat := by
  have hsum := BitVec.toNat_add x d
  rw [BitVec.lt_def] at ht
  rw [BitVec.le_def]
  omega

end

/-- With accesses in order, hits are classified by the row and the time exactly for an access to the
row of the access before, if the keep-open time ends below `2 ^ 64`, for one to another row after that
time, and for a first access that the initial row does not serve. -/
theorem page_hit_exact_iff (cfg : DramTiming) (l : List Access) (a : Access) (h : InOrder cfg (l ++ [a])) :
    ((served cfg l).isPageHit cfg a = true ↔ ∃p∈l.getLast?,a.page = p.page ∧
        a.time.toNat ≤ (served cfg l).tAvail.toNat + cfg.bankKeepOpen.toNat) ↔
      (∀p∈l.getLast?,if a.page = p.page then (served cfg l).tAvail.toNat + cfg.bankKeepOpen.toNat < 2 ^ 64
          else (served cfg l).tAvail + cfg.bankKeepOpen < a.time) ∧
        (l = [] → ¬FirstHit cfg a) := by
  cases hlast : l.getLast? with
  | none =>
    obtain rfl := getLast?_eq_none_iff.1 hlast
    simp [isPageHit_first]
  | some p =>
    have hne : l ≠ [] := by
      rintro rfl
      cases hlast
    by_cases hpage : a.page = p.page
    · have htime := a.time.isLt
      simp only [h.isPageHit hne,le_add_iff (h.times_lt hne).2,hne,hpage]
      simp
      omega
    · simp [h.isPageHit hne,hne,hpage]

theorem page_hit_exact_of_pair : let cfg : DramTiming := ⟨50,10,10,20,true⟩
    (served cfg [⟨100,7⟩]).isPageHit cfg ⟨135,7⟩ = true ↔ ∃p∈[(⟨100,7⟩ : Access)].getLast?,7 = p.page ∧
      135 ≤ (served cfg [⟨100,7⟩]).tAvail.toNat + cfg.bankKeepOpen.toNat := by
  intro cfg
  have horder : InOrder cfg ([⟨100,7⟩] ++ [⟨135,7⟩]) := by
    rintro (_ | ⟨b,front⟩) p a h
    · obtain ⟨rfl,rfl⟩ : p = ⟨100,7⟩ ∧ a = ⟨135,7⟩ := by simpa using h
      decide
    · have hlength := h.length_le
      simp at hlength
  refine (page_hit_exact_iff cfg [⟨100,7⟩] ⟨135,7⟩ horder).2 ?_
  simp
  decide

/-- Two accesses to different rows within the keep-open time: the second one hits. -/
theorem page_hit_other_row : let cfg : DramTiming := ⟨50,10,10,20,true⟩
    (served cfg [⟨100,7⟩]).tAvail = 130 ∧ (served cfg [⟨100,7⟩]).isPageHit cfg ⟨135,8⟩ = true := by
  decide +kernel

end Sniper.DramBanks
