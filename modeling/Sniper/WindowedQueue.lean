import Sniper.SubsecondTimes

/-!
# The window of the M/G/1 queue model

`QueueModelWindowedMG1` keeps the packets of the last while and counts them as they come and go.
The delay is computed from the counters in floating point and is left out: nothing reads it.
-/

namespace Sniper.WindowedMG1
open List

structure Packet where
  time : SubsecondTime
  serviceTime : SubsecondTime
  deriving DecidableEq

/-- A call of `computeQueueDelay`, and the time of the barrier then. -/
structure Call extends Packet where
  globalTime : SubsecondTime

/-- `m_num_arrivals`, `m_service_time_sum` and `m_service_time_sum2`. -/
structure Tally where
  numArrivals : BitVec 64
  serviceTimeSum : BitVec 64
  serviceTimeSum2 : BitVec 64
  deriving DecidableEq

def Tally.plus (c : Tally) (p : Packet) : Tally :=
  ⟨c.numArrivals+1,c.serviceTimeSum+p.serviceTime.getPS,
    c.serviceTimeSum2+p.serviceTime.getPS*p.serviceTime.getPS⟩

def Tally.minus (c : Tally) (p : Packet) : Tally :=
  ⟨c.numArrivals - 1,c.serviceTimeSum - p.serviceTime.getPS,
    c.serviceTimeSum2 - p.serviceTime.getPS*p.serviceTime.getPS⟩

/-- The multimap in the order of its keys. -/
structure QueueModel where
  windowSize : SubsecondTime
  window : List Packet
  tally : Tally

namespace QueueModel

def new (windowSize : SubsecondTime) : QueueModel := ⟨windowSize,[],⟨0,0,0⟩⟩

variable (q : QueueModel)

/-- A packet is put behind those of the same time. -/
def addItem (p : Packet) : QueueModel :=
  { q with
    window := q.window.orderedInsert (fun a b => a.time<b.time) p
    tally := q.tally.plus p }

def removeFrom (earliest : SubsecondTime) : List Packet → Tally → List Packet × Tally
  | [],c => ([],c)
  | p::rest,c => if p.time<earliest then removeFrom earliest rest (c.minus p) else (p::rest,c)

def removeItems (earliest : SubsecondTime) : QueueModel :=
  let (window,tally) := removeFrom earliest q.window q.tally
  {q with window,tally}

/-- The part of `computeQueueDelay` up to the delay. The differences wrap around. -/
def advance (c : Call) : QueueModel :=
  let a := c.globalTime - q.windowSize
  let b := c.time - 10*q.windowSize
  q.removeItems (if a<b then b else a)

def computeQueueDelay (c : Call) : QueueModel := (q.advance c).addItem c.toPacket

end QueueModel

/-- The time from which on packets stay in the window of `w` at the call. -/
def bound (w : SubsecondTime) (c : Call) : ℕ := max (c.globalTime.toNat - w.toNat) (c.time.toNat - 10*w.toNat)

/-- The packets of the calls that no later call, of these or of `later`, puts out of the window. -/
def survivors (w : SubsecondTime) : List Call → List Call → List Packet
  | [],_ => []
  | c::calls,later =>
    if ∀d∈calls++later,bound w d ≤ c.time.toNat then c.toPacket::survivors w calls later
    else survivors w calls later

/-- The counters of a window. -/
def tallyOf (window : List Packet) : Tally :=
  ⟨window.length,(window.map (·.serviceTime.getPS)).sum,
    (window.map fun p => p.serviceTime.getPS*p.serviceTime.getPS).sum⟩

/-- When the delay of `c` is computed after `calls`, the window has exactly the survivors, and the
counters are theirs. -/
structure WindowExact (w : SubsecondTime) (calls : List Call) (c : Call) : Prop where
  window : ((calls.foldl QueueModel.computeQueueDelay (.new w)).advance c).window.Perm
    (survivors w calls [c])
  tally : ((calls.foldl QueueModel.computeQueueDelay (.new w)).advance c).tally =
    tallyOf (survivors w calls [c])

/-- Neither difference of the call wraps around. -/
def Unwrapped (w : SubsecondTime) (c : Call) : Prop := w.toNat ≤ c.globalTime.toNat ∧ 10*w.toNat ≤ c.time.toNat

instance (w : SubsecondTime) (c : Call) : Decidable (Unwrapped w c) := inferInstanceAs (Decidable (_ ∧ _))

section Survivors

variable (w : SubsecondTime) (calls later : List Call) (c : Call)

theorem survivors_concat : survivors w calls (later++[c]) =
    (survivors w calls later).filter fun p => bound w c≤p.time.toNat := by
  induction calls with
  | nil => rfl
  | cons d calls ih =>
    simp only [survivors,ih,← append_assoc,@forall_mem_append _ _ (calls++later) [c],forall_mem_singleton]
    by_cases hd : ∀e∈calls++later,bound w e≤d.time.toNat
    · by_cases hc : bound w c≤d.time.toNat
      · rw [if_pos ⟨hd,hc⟩,if_pos hd,filter_cons_of_pos (by simpa using hc)]
      · rw [if_neg fun h => hc h.2,if_pos hd,filter_cons_of_neg (by simpa using hc)]
    · rw [if_neg hd,if_neg fun h => hd h.1]

theorem survivors_append : survivors w (calls++[c]) later =
    survivors w calls (c::later)++survivors w [c] later := by
  induction calls with
  | nil => rfl
  | cons d calls ih =>
    rw [cons_append,survivors,survivors,ih,append_assoc,singleton_append]
    split_ifs
    · rfl
    · rfl

end Survivors

theorem tallyOf_cons (p : Packet) (l : List Packet) : tallyOf (p::l)=(tallyOf l).plus p := by
  simp [tallyOf,Tally.plus,add_comm]

theorem tallyOf_perm {l l' : List Packet} (h : l.Perm l') : tallyOf l=tallyOf l' := by
  rw [tallyOf,tallyOf,h.length_eq,(h.map _).sum_eq,(h.map _).sum_eq]

namespace QueueModel

theorem removeFrom_tallyOf (earliest : SubsecondTime) (l : List Packet) :
    removeFrom earliest l (tallyOf l)=(l.dropWhile (·.time<earliest),
      tallyOf (l.dropWhile (·.time<earliest))) := by
  induction l with
  | nil => rfl
  | cons p l ih =>
    have hminus : (tallyOf (p::l)).minus p=tallyOf l := by
      simp [tallyOf_cons,Tally.minus,Tally.plus]
    rw [removeFrom,hminus,dropWhile_cons]
    by_cases h : p.time<earliest <;> simp [h,ih]

theorem dropWhile_sorted {l : List Packet} (h : l.Pairwise fun a b => a.time≤b.time)
    (earliest : SubsecondTime) : l.dropWhile (·.time<earliest)=l.filter fun p => earliest≤p.time := by
  induction h with
  | nil => rfl
  | @cons p l hp _ ih =>
    rw [dropWhile_cons,filter_cons,ih]
    by_cases hlt : p.time<earliest
    · simp [hlt,BitVec.not_le.mpr hlt]
    · have hle : earliest≤p.time := BitVec.not_lt.mp hlt
      have hall : l.filter (fun p => earliest≤p.time)=l :=
        filter_eq_self.mpr fun q hq => decide_eq_true (BitVec.le_trans hle (hp q hq))
      simp [hlt,hle,hall]

theorem pairwise_orderedInsert {l : List Packet} (h : l.Pairwise fun a b => a.time≤b.time) (p : Packet) :
    (l.orderedInsert (fun a b => a.time<b.time) p).Pairwise fun a b => a.time≤b.time := by
  induction h with
  | nil => simp
  | @cons q l hq hl ih =>
    rw [orderedInsert]
    split_ifs with hlt
    · have hle : p.time≤q.time := BitVec.le_of_lt hlt
      exact .cons (forall_mem_cons.mpr ⟨hle,fun x hx => BitVec.le_trans hle (hq x hx)⟩) (.cons hq hl)
    · refine .cons (fun x hx => ?_) ih
      rcases (mem_orderedInsert _).mp hx with rfl | hx
      · exact BitVec.not_lt.mp hlt
      · exact hq x hx

/-- The state after some calls. -/
structure Follows (w : SubsecondTime) (calls : List Call) (q : QueueModel) : Prop where
  windowSize : q.windowSize=w
  sorted : q.window.Pairwise fun a b => a.time≤b.time
  window : q.window.Perm (survivors w calls [])
  tally : q.tally=tallyOf q.window

variable {w : SubsecondTime} {calls : List Call} {c : Call} {q : QueueModel}

theorem Follows.advance (h : Follows w calls q) (hc : Unwrapped w c) :
    (q.advance c).windowSize=w ∧ (q.advance c).window.Pairwise (fun a b => a.time≤b.time) ∧
      (q.advance c).window.Perm (survivors w calls [c]) ∧ (q.advance c).tally=tallyOf (q.advance c).window := by
  obtain ⟨earliest,hearliest,hadvance⟩ : ∃earliest,earliest.toNat=bound w c ∧
      q.advance c=q.removeItems earliest := by
    refine ⟨_,?_,rfl⟩
    have hsub : (c.globalTime - q.windowSize).toNat=c.globalTime.toNat - w.toNat := by
      rw [h.windowSize]
      exact BitVec.toNat_sub_of_le hc.1
    have hmul : (10*w).toNat=10*w.toNat := by
      rw [BitVec.toNat_mul]
      exact Nat.mod_eq_of_lt (hc.2.trans_lt c.time.isLt)
    have hsub' : (c.time - 10*q.windowSize).toNat=c.time.toNat - 10*w.toNat := by
      rw [h.windowSize,BitVec.toNat_sub_of_le (BitVec.le_def.mpr (hmul.trans_le hc.2)),hmul]
    simp only [BitVec.lt_def,hsub,hsub',bound]
    split_ifs with hlt
    · rw [hsub',Nat.max_eq_right hlt.le]
    · rw [hsub,Nat.max_eq_left (not_lt.mp hlt)]
  have hfilter : (fun p : Packet => decide (earliest≤p.time)) =
      fun p => decide (bound w c≤p.time.toNat) := by
    simp only [← hearliest,BitVec.le_def]
  rw [hadvance,removeItems,h.tally,removeFrom_tallyOf,dropWhile_sorted h.sorted,hfilter]
  refine ⟨h.windowSize,h.sorted.filter _,?_,rfl⟩
  have hconcat := survivors_concat w calls [] c
  rw [nil_append] at hconcat
  rw [hconcat]
  exact h.window.filter _

theorem Follows.computeQueueDelay (h : Follows w calls q) (hc : Unwrapped w c) :
    Follows w (calls++[c]) (q.computeQueueDelay c) := by
  obtain ⟨hsize,hsorted,hwindow,htally⟩:=h.advance hc
  have hinsert := perm_orderedInsert (fun a b : Packet => a.time<b.time) c.toPacket
    (q.advance c).window
  refine ⟨hsize,pairwise_orderedInsert hsorted _,?_,?_⟩
  · rw [survivors_append]
    exact hinsert.trans ((hwindow.cons _).trans (perm_append_singleton _ _).symm)
  · exact (congrArg (·.plus c.toPacket) htally).trans ((tallyOf_perm hinsert).trans (tallyOf_cons _ _)).symm

end QueueModel

theorem follows_run {w : SubsecondTime} {calls : List Call} (h : ∀c∈calls,Unwrapped w c) :
    QueueModel.Follows w calls (calls.foldl .computeQueueDelay (.new w)) := by
  induction calls using reverseRecOn with
  | nil => exact ⟨rfl,.nil,.nil,rfl⟩
  | append_singleton calls c ih =>
    rw [foldl_append]
    exact (ih fun d hd => h d (mem_append_left _ hd)).computeQueueDelay (h c (by simp))

/-- If no difference wraps around, the window has the packets that it should have. -/
theorem window_exact (w : SubsecondTime) (calls : List Call) (c : Call) (h : ∀d∈calls++[c],Unwrapped w d) :
    WindowExact w calls c := by
  obtain ⟨-,-,hwindow,htally⟩:=(follows_run fun d hd => h d (mem_append_left _ hd)).advance (h c (by simp))
  exact ⟨hwindow,htally.trans (tallyOf_perm hwindow)⟩

theorem window_exact_two : WindowExact 10 [⟨⟨100,3000⟩,10⟩] ⟨⟨105,2000⟩,12⟩ := window_exact _ _ _ (by decide)

/-- At the start the global time is less than the window, and the second call at once loses the
first packet. -/
theorem window_wraps : ¬ WindowExact 10 [⟨⟨5,3000⟩,0⟩] ⟨⟨6,2000⟩,0⟩ := by
  intro h
  exact absurd h.window.length_eq (by decide)

end Sniper.WindowedMG1
