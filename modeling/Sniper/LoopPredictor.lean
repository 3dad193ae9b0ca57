import Mathlib

/-!
# The loop branch predictor

An entry follows a branch with outcomes `d … d !d`. The flag that enables an entry survives its
replacement, and then makes lookups of an unknown branch hit.
-/

namespace Sniper.BranchPrediction
open List

/-- One entry of a way. The one-bit `SaturatingPredictor` has only the counters zero and minus one,
and is given by its prediction. -/
structure LoopEntry where
  prediction : Bool
  previousActual : Bool
  enabled : Bool
  count : ℕ
  limit : ℕ
deriving DecidableEq

namespace LoopEntry

/-- What a lookup predicts. -/
def predicted (e : LoopEntry) : Bool := if e.count=e.limit then !e.prediction else e.prediction

def predictionMatch (e : LoopEntry) (actual : Bool) : Bool :=
  if e.count=e.limit then e.prediction≠actual else e.prediction=actual

def sameDirection (e : LoopEntry) (actual : Bool) : LoopEntry :=
  let counter := (e.count+1) % 2^32
  if e.predictionMatch actual then {e with count:=if e.count=e.limit then 0 else counter}
  else if e.count<e.limit then {e with count:=0,limit:=e.count}
  else {e with count:=counter,limit:=counter,enabled:=false}

def update (e : LoopEntry) (actual : Bool) : LoopEntry :=
  if e.previousActual=actual ∧ actual=!e.prediction then ⟨actual,actual,false,1,1⟩
  else if e.previousActual≠actual ∧ (actual=!e.prediction) ∧ e.enabled=false then
    {e with previousActual:=actual,enabled:=true,count:=0}
  else {e.sameDirection actual with previousActual:=actual}

/-- The entry after the outcomes `actual 0`, …, `actual (k - 1)`. -/
def train (e : LoopEntry) (actual : ℕ → Bool) : ℕ → LoopEntry
  | 0 => e
  | k+1 => (e.train actual k).update (actual k)

/-- The outcomes `d` repeated `n` times and then `!d`, over and over. -/
def outcome (d : Bool) (n k : ℕ) : Bool := if k % (n+1)<n then d else !d

/-- The entry that follows the outcomes, `k` outcomes after an exit. -/
def following (d : Bool) (n k : ℕ) : LoopEntry := ⟨d,if k=0 then !d else d,true,k,n⟩

section Update

variable {e : LoopEntry} {d : Bool}

@[simp] theorem update_previousActual (a : Bool) : (e.update a).previousActual=a := by
  rw [update]
  split_ifs <;> rfl

theorem update_prediction {a : Bool} (h : e.previousActual≠a) : (e.update a).prediction=e.prediction := by
  rw [update,if_neg fun h' => h h'.1]
  split_ifs
  · rfl
  · simp only [sameDirection]
    split_ifs <;> rfl

theorem update_count_le (h : e.count≤e.limit) (a : Bool) : (e.update a).count≤(e.update a).limit := by
  have hmod := Nat.mod_le (e.count+1) (2^32)
  rw [update]
  split_ifs
  · exact le_rfl
  · exact Nat.zero_le _
  · simp only [sameDirection]
    split_ifs <;> grind

theorem update_same (h : e.prediction=d) : e.update d =
    ⟨d,d,e.enabled && e.count≠e.limit,(e.count+1) % 2^32,
      if e.count=e.limit then (e.count+1) % 2^32 else e.limit⟩ := by
  subst h
  by_cases hc : e.count=e.limit
  · simp [update,sameDirection,predictionMatch,hc]
  · simp [update,sameDirection,predictionMatch,hc]

theorem update_exit (h : e.prediction=d) (hprev : e.previousActual=d) (hle : e.count≤e.limit) :
    e.update (!d)=⟨d,!d,true,0,if e.enabled then e.count else e.limit⟩ := by
  subst h
  cases he : e.enabled with
  | false => simp [update,hprev,he]
  | true =>
    rcases hle.eq_or_lt with hc | hc
    · simp [update,sameDirection,predictionMatch,hprev,he,hc]
    · simp [update,sameDirection,predictionMatch,hprev,he,hc,hc.ne]

theorem update_turn (h : e.prediction=!d) (hprev : e.previousActual=d) : e.update d=⟨d,d,false,1,1⟩ := by
  simp [update,h,hprev]

end Update

section Training

variable {e : LoopEntry} {d : Bool} {n : ℕ} {actual : ℕ → Bool}

theorem train_add (a b : ℕ) : e.train actual (a+b)=(e.train actual a).train (fun k => actual (a+k)) b := by
  induction b with
  | zero => rfl
  | succ b ih => rw [← Nat.add_assoc,train,ih,train]

theorem train_count_le (h : e.count≤e.limit) (k : ℕ) : (e.train actual k).count≤(e.train actual k).limit := by
  induction k with
  | zero => exact h
  | succ k ih => exact update_count_le ih _

theorem train_prediction {k : ℕ} (h : e.prediction=d) (hrun : ∀j<k,actual j=d) :
    (e.train actual k).prediction=d := by
  induction k with
  | zero => exact h
  | succ k ih =>
    rw [train,hrun k k.lt_succ_self,update_same (ih fun j hj => hrun j (by omega))]

@[simp] theorem outcome_add_period (k : ℕ) : outcome d n (n+1+k)=outcome d n k := by
  simp [outcome]

theorem outcome_of_lt {k : ℕ} (h : k<n) : outcome d n k=d := by
  rw [outcome,Nat.mod_eq_of_lt (by omega),if_pos h]

@[simp] theorem outcome_self : outcome d n n=!d := by
  simp [outcome]

theorem outcome_add_of_mod {a : ℕ} (h : a % (n+1)=0) (k : ℕ) : outcome d n (a+k)=outcome d n k := by
  rw [outcome,outcome,Nat.add_mod,h,Nat.zero_add,Nat.mod_mod]

/-- The count after an exit goes up to the old limit and on from there with the entry disabled. -/
theorem train_of_exit {l k : ℕ} (hn : n<2^32) (hk : k≤n) :
    (⟨d,!d,true,0,l⟩ : LoopEntry).train (outcome d n) k =
      if k≤l then ⟨d,if k=0 then !d else d,true,k,l⟩ else ⟨d,d,false,k,k⟩ := by
  induction k with
  | zero => simp [train]
  | succ k ih =>
    have hlt : k+1<4294967296 := by omega
    rw [train,ih (by omega),outcome_of_lt (by omega)]
    rcases lt_trichotomy k l with h | rfl | h
    · simp [h.le,h.ne,Nat.succ_le_of_lt h,update_same,Nat.mod_eq_of_lt hlt]
    · simp [update_same,Nat.mod_eq_of_lt hlt]
    · simp [h.not_ge,show ¬k+1≤l by omega,update_same,Nat.mod_eq_of_lt hlt]

theorem train_exit_period {l : ℕ} (hn : 0<n) (hn' : n<2^32) :
    (⟨d,!d,true,0,l⟩ : LoopEntry).train (outcome d n) (n+1)=following d n 0 := by
  rw [train,train_of_exit hn' le_rfl,outcome_self,if_neg hn.ne']
  split_ifs with h
  · rw [update_exit rfl rfl h]
    simp [following]
  · rw [update_exit rfl rfl le_rfl]
    simp [following]

/-- A whole period after an exit leaves an entry of direction `d`, unless the outcomes alternate
and the entry sees them in the other direction. -/
theorem train_period (hle : e.count≤e.limit) (hprev : e.previousActual=!d) (hn : 0<n)
    (h : e.prediction=d ∨ 2≤n) : ∃l,e.train (outcome d n) (n+1)=⟨d,!d,true,0,l⟩ := by
  have hpred : (e.train (outcome d n) n).prediction=d := by
    by_cases hd : e.prediction=d
    · exact train_prediction hd fun j hj => outcome_of_lt hj
    · -- the second outcome in a row turns the entry
      obtain ⟨m,rfl⟩:=Nat.exists_eq_add_of_le (h.resolve_left hd)
      have hfirst : (e.update d).prediction=!d := by
        rw [update_prediction (by simp [hprev])]
        exact Bool.eq_not.2 hd
      rw [train_add]
      apply train_prediction
      · simp only [train,outcome_of_lt (show 0<2+m by omega),outcome_of_lt (show 1<2+m by omega)]
        rw [update_turn hfirst (update_previousActual d)]
      · intro j hj
        exact outcome_of_lt (by omega)
  have hlast : (e.train (outcome d n) n).previousActual=d := by
    obtain ⟨m,rfl⟩:=Nat.exists_eq_succ_of_ne_zero hn.ne'
    rw [train,update_previousActual,outcome_of_lt m.lt_succ_self]
  rw [train,outcome_self,update_exit hpred hlast (train_count_le hle n)]
  exact ⟨_,rfl⟩

theorem train_two_periods (hle : e.count≤e.limit) (hprev : e.previousActual=!d) (hn : 0<n) (hn' : n<2^32)
    (h : e.prediction=d ∨ 2≤n) : e.train (outcome d n) (n+1+(n+1))=following d n 0 := by
  obtain ⟨l,hl⟩:=train_period hle hprev hn h
  rw [train_add,hl]
  simp only [outcome_add_period]
  exact train_exit_period hn hn'

/-- The entry is at the right place of the outcomes to come. -/
def Follows (n : ℕ) (e : LoopEntry) (actual : ℕ → Bool) : Prop :=
  ∃d k,k≤n ∧ e=following d n k ∧ ∀j,actual j=outcome d n (k+j)

theorem Follows.predicted (h : Follows n e actual) : e.enabled=true ∧ e.predicted=actual 0 := by
  obtain ⟨d,k,hk,rfl,hactual⟩:=h
  rcases hk.eq_or_lt with rfl | hlt
  · simp [hactual,following,LoopEntry.predicted]
  · simp [hactual,following,LoopEntry.predicted,hlt.ne,outcome_of_lt hlt]

theorem Follows.update (h : Follows n e actual) (hn : 0<n) (hn' : n<2^32) :
    Follows n (e.update (actual 0)) fun j => actual (1+j) := by
  obtain ⟨d,k,hk,rfl,hactual⟩:=h
  simp only [hactual,Nat.add_zero]
  rcases hk.eq_or_lt with rfl | hlt
  · have hexit := @update_exit (following d k k) d rfl (if_neg hn.ne') le_rfl
    refine ⟨d,0,Nat.zero_le _,?_,fun j => ?_⟩
    · rw [outcome_self,hexit]
      simp [following]
    · simp only [← Nat.add_assoc,outcome_add_period,Nat.zero_add]
  · have hmod : k+1<4294967296 := by omega
    refine ⟨d,k+1,hlt,?_,fun j => by rw [Nat.add_assoc]⟩
    rw [outcome_of_lt hlt,@update_same (following d n k) d rfl]
    simp [following,hlt.ne,Nat.mod_eq_of_lt hmod]

theorem Follows.train (h : Follows n e actual) (hn : 0<n) (hn' : n<2^32) (m : ℕ) :
    Follows n (e.train actual m) fun j => actual (m+j) := by
  induction m with
  | zero => simpa [LoopEntry.train] using h
  | succ m ih => simpa [LoopEntry.train,Nat.add_assoc] using ih.update hn hn'

/-- From an exit on, the entry follows the outcomes after at most three periods. -/
theorem exists_follows_of_exit (hle : e.count≤e.limit) (hprev : e.previousActual=!d) (hn : 0<n)
    (hn' : n<2^32) : ∃m≤3*(n+1),Follows n (e.train (outcome d n) m) fun j => outcome d n (m+j) := by
  by_cases h : e.prediction=d ∨ 2≤n
  · refine ⟨n+1+(n+1),by omega,d,0,Nat.zero_le _,train_two_periods hle hprev hn hn' h,fun j => ?_⟩
    simp [Nat.add_assoc (n+1)]
  · -- the outcomes alternate: one step later they are those of the other direction
    obtain rfl : n=1 := by omega
    have hnot : e.prediction=!d := Bool.eq_not.2 fun hd => h (.inl hd)
    have hother (j : ℕ) : outcome d 1 (1+j)=outcome (!d) 1 j := by
      rcases Nat.mod_two_eq_zero_or_one j with hj | hj
      · simp [outcome,hj,Nat.add_mod]
      · simp [outcome,hj,Nat.add_mod]
    have hstep := @train_two_periods (e.update d) (!d) 1 (update_count_le hle d) (by simp) hn hn'
      (.inl ((update_prediction (by simp [hprev])).trans hnot))
    refine ⟨1+(1+1+(1+1)),by omega,!d,0,Nat.zero_le _,?_,fun j => ?_⟩
    · simp only [train_add 1,hother]
      exact hstep
    · simp only [Nat.add_assoc 1 (1+1+(1+1)),Nat.add_assoc (1+1) (1+1),hother,outcome_add_period,Nat.zero_add]

/-- After at most four periods the entry follows the outcomes, whatever it was before. -/
theorem exists_follows (hle : e.count≤e.limit) (hn : 0<n) (hn' : n<2^32) (phase : ℕ) :
    ∃m≤4*(n+1),Follows n (e.train (fun k => outcome d n (phase+k)) m) fun j => outcome d n (phase+(m+j)) := by
  obtain ⟨w,hw⟩ : ∃w,w+phase % (n+1)=n:=
    ⟨_,Nat.sub_add_cancel (Nat.le_of_lt_succ (Nat.mod_lt phase n.succ_pos))⟩
  have hphase := Nat.div_add_mod phase (n+1)
  have hexit : outcome d n (phase+w)=!d := by
    rw [show phase+w=(n+1)*(phase / (n+1))+n by omega,outcome_add_of_mod (by simp),outcome_self]
  have hzero : (phase+(w+1)) % (n+1)=0 := by
    rw [show phase+(w+1)=(n+1)*(phase / (n+1))+(n+1) by omega]
    simp
  have hrest (k : ℕ) : outcome d n (phase+(w+1+k))=outcome d n k := by
    rw [← Nat.add_assoc,outcome_add_of_mod hzero]
  have hprev : (e.train (fun k => outcome d n (phase+k)) (w+1)).previousActual=!d := by
    rw [train,update_previousActual,hexit]
  obtain ⟨m,hm,hfollows⟩:=exists_follows_of_exit (train_count_le hle (w+1)) hprev hn hn'
  refine ⟨w+1+m,by omega,?_⟩
  rw [train_add]
  simpa only [hrest,Nat.add_assoc (w+1)] using hfollows

/-- From the fourth period on the entry follows the outcomes. -/
theorem train_follows (hle : e.count≤e.limit) (hn : 0<n) (hn' : n<2^32) (phase : ℕ) {m : ℕ}
    (hm : 4*(n+1) ≤ m) : Follows n (e.train (fun k => outcome d n (phase+k)) m)
      fun j => outcome d n (phase+(m+j)) := by
  obtain ⟨k,hk,hfollows⟩:=exists_follows (d:=d) hle hn hn' phase
  obtain ⟨m,rfl⟩:=Nat.exists_eq_add_of_le (hk.trans hm)
  rw [train_add]
  simpa only [Nat.add_assoc k] using hfollows.train hn hn' m

end Training

end LoopEntry

/-- An entry with its tag and the time of its last use. -/
structure LoopSlot where
  tag : BitVec 6
  lru : BitVec 64
  entry : LoopEntry

/-- The entries of all ways. Every way has an entry for each of the 64 indices. -/
structure LoopBranchPredictor (ways : ℕ) where
  lruUseCount : BitVec 64
  slots : BitVec 6 → Fin ways → LoopSlot

inductive LoopCall
  | lookup (ip : BitVec 64)
  | update (ip : BitVec 64) (actual : Bool)

namespace LoopBranchPredictor

variable {ways : ℕ} (s : LoopBranchPredictor ways) (ip : BitVec 64) (actual : Bool)

def new (ways : ℕ) : LoopBranchPredictor ways := ⟨0,fun _ _ => ⟨0,0,⟨true,false,false,0,0⟩⟩⟩

def index : BitVec 6 := ip.extractLsb' 4 6

def tag : BitVec 6 := ip.extractLsb' 10 6

/-- Write an entry, as the one used last. -/
def put (i : BitVec 6) (w : Fin ways) (slot : LoopSlot) : LoopBranchPredictor ways :=
  ⟨s.lruUseCount+1,Function.update s.slots i
    (Function.update (s.slots i) w {slot with lru:=s.lruUseCount})⟩

/-- The first way with the tag of the branch. -/
def matchingWay : Option (Fin ways) := Fin.find? fun w => (s.slots (index ip) w).tag=tag ip

/-- The first way with the tag of the branch that is enabled. -/
def hitWay : Option (Fin ways) := Fin.find? fun w =>
  (s.slots (index ip) w).entry.enabled ∧ (s.slots (index ip) w).tag=tag ip

/-- The prediction, if there is a hit. -/
def lookup : Option Bool × LoopBranchPredictor ways :=
  match s.hitWay ip with
  | none => (none,s)
  | some w => (some (s.slots (index ip) w).entry.predicted,s.put (index ip) w (s.slots (index ip) w))

variable [NeZero ways]

def lruWay (i : BitVec 6) : Fin ways := (finRange ways).foldl
  (fun lruWay w => if (s.slots i w).lru<(s.slots i lruWay).lru then w else lruWay) 0

def update : LoopBranchPredictor ways :=
  match s.matchingWay ip with
  | some w =>
    let slot := s.slots (index ip) w
    s.put (index ip) w {slot with entry:=slot.entry.update actual}
  | none =>
    let w := s.lruWay (index ip)
    let slot := s.slots (index ip) w
    -- the entry stays enabled if it was
    s.put (index ip) w { slot with
      tag := tag ip
      entry := ⟨actual,actual,slot.entry.enabled,1,1⟩ }

def next : LoopCall → LoopBranchPredictor ways
  | .lookup ip => (s.lookup ip).2
  | .update ip actual => s.update ip actual

def run (calls : List LoopCall) : LoopBranchPredictor ways := calls.foldl (fun s c => s.next c) s

/-- The entry of the branch. -/
def entryAt : Option LoopEntry := (s.matchingWay ip).map fun w => (s.slots (index ip) w).entry

end LoopBranchPredictor

/-- The call does not update another branch with the index of `ip`. -/
def LoopCall.Apart (ip : BitVec 64) : LoopCall → Prop
  | .lookup _ => True
  | .update ip' _ => LoopBranchPredictor.index ip'=LoopBranchPredictor.index ip → ip'=ip

/-- The outcome of the branch that the call passes on. -/
def LoopCall.outcomeOf (ip : BitVec 64) : LoopCall → Option Bool
  | .lookup _ => none
  | .update ip' actual => if ip'=ip then some actual else none

namespace LoopBranchPredictor

section Convergence

open LoopEntry hiding update

variable {ways : ℕ} {s : LoopBranchPredictor ways} {ip : BitVec 64} {e : LoopEntry}

theorem put_slots (i j : BitVec 6) (w v : Fin ways) (slot : LoopSlot) :
    (s.put i w slot).slots j v =
      if j=i ∧ v=w then {slot with lru:=s.lruUseCount} else s.slots j v := by
  by_cases hj : j=i
  · subst hj
    by_cases hv : v=w
    · simp [put,hv]
    · simp [put,hv]
  · simp [put,hj]

def Inv (s : LoopBranchPredictor ways) : Prop := ∀i w,(s.slots i w).entry.count≤(s.slots i w).entry.limit

theorem Inv.put (h : s.Inv) {i : BitVec 6} {w : Fin ways} {slot : LoopSlot}
    (hslot : slot.entry.count ≤ slot.entry.limit) : (s.put i w slot).Inv := by
  intro j v
  rw [put_slots]
  split_ifs
  · exact hslot
  · exact h j v

theorem entryAt_congr {s' : LoopBranchPredictor ways}
    (h : ∀w,(s'.slots (index ip) w).tag=(s.slots (index ip) w).tag ∧
      (s'.slots (index ip) w).entry=(s.slots (index ip) w).entry) : s'.entryAt ip=s.entryAt ip := by
  simp only [entryAt,matchingWay,h]

theorem entryAt_put_other {i : BitVec 6} (hi : i≠index ip) (w : Fin ways) (slot : LoopSlot) :
    (s.put i w slot).entryAt ip=s.entryAt ip :=
  entryAt_congr fun v => by simp [put_slots,hi.symm]

theorem lookup_slots (ip : BitVec 64) (i : BitVec 6) (w : Fin ways) :
    ((s.lookup ip).2.slots i w).tag=(s.slots i w).tag ∧
      ((s.lookup ip).2.slots i w).entry=(s.slots i w).entry := by
  rw [lookup]
  split
  · exact ⟨rfl,rfl⟩
  · simp only [put_slots]
    split_ifs with h
    · simp [h]
    · simp

theorem Inv.entryAt (h : s.Inv) (he : s.entryAt ip=some e) : e.count≤e.limit := by
  obtain ⟨w,-,rfl⟩:=Option.map_eq_some_iff.1 he
  exact h _ w

theorem lookup_of_enabled (he : s.entryAt ip=some e) (hen : e.enabled=true) :
    (s.lookup ip).1=some e.predicted := by
  obtain ⟨w,hw,rfl⟩:=Option.map_eq_some_iff.1 he
  obtain ⟨htag,hbefore⟩:=Fin.find?_eq_some_iff.1 hw
  have hhit : s.hitWay ip=some w := by
    refine Fin.find?_eq_some_iff.2 ⟨by simpa [hen] using htag,fun v hv => ?_⟩
    have := hbefore v hv
    simp_all
  rw [lookup,hhit]

variable [NeZero ways]

theorem Inv.next (h : s.Inv) (c : LoopCall) : (s.next c).Inv := by
  cases c with
  | lookup ip =>
    simp only [LoopBranchPredictor.next,lookup]
    split
    · exact h
    · exact h.put (h _ _)
  | update ip a =>
    simp only [LoopBranchPredictor.next,update]
    split
    · exact h.put (update_count_le (h _ _) a)
    · exact h.put le_rfl

theorem Inv.run (h : s.Inv) (calls : List LoopCall) : (s.run calls).Inv := by
  induction calls generalizing s with
  | nil => exact h
  | cons c calls ih => exact ih (h.next c)

theorem entryAt_update_other {ip' : BitVec 64} (hi : index ip'≠index ip) (a : Bool) :
    (s.update ip' a).entryAt ip=s.entryAt ip := by
  rw [update]
  split
  · exact entryAt_put_other hi _ _
  · exact entryAt_put_other hi _ _

theorem entryAt_update (he : s.entryAt ip=some e) (a : Bool) :
    (s.update ip a).entryAt ip=some (e.update a) := by
  obtain ⟨w,hw,rfl⟩:=Option.map_eq_some_iff.1 he
  have htag (v : Fin ways) : ((s.update ip a).slots (index ip) v).tag =
      (s.slots (index ip) v).tag := by
    simp only [update,hw,put_slots]
    split_ifs with h
    · rw [h.2]
    · rfl
  have hway : (s.update ip a).matchingWay ip=some w := by
    rw [← hw]
    simp only [matchingWay,htag]
  rw [entryAt,hway]
  simp [update,hw,put_slots]

theorem entryAt_install (hs : s.Inv) (he : s.entryAt ip=none) (a : Bool) :
    ∃e : LoopEntry,e.count≤e.limit ∧ (s.update ip a).entryAt ip=some e := by
  have hnone : s.matchingWay ip=none := Option.map_eq_none_iff.1 he
  have hway : (s.update ip a).matchingWay ip=some (s.lruWay (index ip)) := by
    refine Fin.find?_eq_some_iff.2 ⟨?_,fun v hv => ?_⟩
    · simp [update,hnone,put_slots]
    · simpa [update,hnone,put_slots,hv.ne] using Fin.find?_eq_none_iff.1 hnone v
  refine ⟨_,?_,by rw [entryAt,hway]; rfl⟩
  exact (hs.next (.update ip a)) _ _

theorem entryAt_run (he : s.entryAt ip=some e) {calls : List LoopCall}
    (hapart : ∀c∈calls,c.Apart ip) : (s.run calls).entryAt ip =
      some ((calls.filterMap (LoopCall.outcomeOf ip)).foldl LoopEntry.update e) := by
  induction calls generalizing s e with
  | nil => exact he
  | cons c calls ih =>
    obtain ⟨hc,hcalls⟩:=forall_mem_cons.1 hapart
    cases c with
    | lookup ip' => exact ih ((entryAt_congr (lookup_slots ip' _)).trans he) hcalls
    | update ip' a =>
      by_cases hip : ip'=ip
      · subst hip
        simpa [LoopCall.outcomeOf,run,next] using ih (entryAt_update he a) hcalls
      · simpa [LoopCall.outcomeOf,run,next,hip] using
          ih ((entryAt_update_other (mt hc hip) a).trans he) hcalls

/-- From the first update on the entry of the branch is updated with its outcomes. -/
theorem exists_entryAt_run (hs : s.Inv) {calls : List LoopCall} (hapart : ∀c∈calls,c.Apart ip) {o : Bool}
    {os : List Bool} (hos : calls.filterMap (LoopCall.outcomeOf ip)=o::os) :
    ∃e : LoopEntry,e.count≤e.limit ∧ (s.run calls).entryAt ip=some (os.foldl LoopEntry.update e) := by
  induction calls generalizing s with
  | nil => cases hos
  | cons c calls ih =>
    obtain ⟨hc,hcalls⟩:=forall_mem_cons.1 hapart
    cases c with
    | lookup ip' => exact ih (hs.next (.lookup ip')) hcalls hos
    | update ip' a =>
      by_cases hip : ip'=ip
      · subst hip
        obtain ⟨rfl,rfl⟩ : a=o ∧ calls.filterMap (LoopCall.outcomeOf ip')=os := by
          simpa [LoopCall.outcomeOf] using hos
        obtain ⟨e,hle,he⟩ : ∃e : LoopEntry,e.count≤e.limit ∧
            (s.update ip' a).entryAt ip'=some e := by
          cases he : s.entryAt ip' with
          | none => exact entryAt_install hs he a
          | some e => exact ⟨_,update_count_le (hs.entryAt he) a,entryAt_update he a⟩
        exact ⟨e,hle,entryAt_run he hcalls⟩
      · exact ih (hs.next (.update ip' a)) hcalls (by simpa [LoopCall.outcomeOf,hip] using hos)

theorem foldl_update_eq_train (e : LoopEntry) (o : ℕ → Bool) (m : ℕ) :
    ((range m).map o).foldl LoopEntry.update e=e.train o m := by
  induction m with
  | zero => rfl
  | succ m ih => simp [range_succ,ih,LoopEntry.train]

/-- After six periods of the outcomes `d … d !d` every lookup of the branch hits and predicts its
next outcome. -/
theorem loop_predicted (before calls : List LoopCall) (d : Bool) (n phase m : ℕ) (hn : 1≤n) (hn' : n<2^32 - 1)
    (hapart : ∀c∈calls,c.Apart ip) (hm : 6*(n+1) ≤ m) (houtcomes : calls.filterMap (LoopCall.outcomeOf ip) =
      (range m).map fun k => outcome d n (phase+k)) :
    ((((new ways).run before).run calls).lookup ip).1=some (outcome d n (phase+m)) := by
  obtain ⟨m,rfl⟩:=Nat.exists_eq_add_of_lt (show 0 < m by omega)
  have hs : ((new ways).run before).Inv := Inv.run (fun _ _ => le_rfl) before
  have hshift : (fun k => outcome d n (phase+k)) ∘ Nat.succ =
      fun k => outcome d n (phase+1+k) := by
    funext k
    simp [Nat.add_comm k,Nat.add_assoc]
  rw [Nat.zero_add,range_succ_eq_map,map_cons,map_map,hshift] at houtcomes
  obtain ⟨e,hle,he⟩:=exists_entryAt_run hs hapart houtcomes
  rw [foldl_update_eq_train] at he
  obtain ⟨hen,hpred⟩:=(train_follows hle hn (by omega) (phase+1)
    (show 4*(n+1) ≤ m by omega)).predicted
  rw [lookup_of_enabled he hen,hpred]
  congr 2
  omega

theorem loop_predicted_alternating :
    let calls := (range 12).map fun k => LoopCall.update 0x400 (outcome true 1 (0+k))
    (((new 2).run calls).lookup 0x400).1=some true := by
  refine loop_predicted [] _ true 1 0 12 (by decide) (by decide) ?_ (by decide) rfl
  intro c hc
  obtain ⟨k,-,rfl⟩:=mem_map.1 hc
  exact fun _ => rfl

end Convergence

end LoopBranchPredictor

/-- What an update did: it gave the entry a new tag, enabled or not, or observed an outcome, which
may have left a run of equal outcomes. -/
inductive LoopEvent
  | installed (enabled : Bool)
  | observed (left : Bool)
deriving DecidableEq

structure LoopNote (ways : ℕ) where
  index : BitVec 6
  way : Fin ways
  event : LoopEvent

/-- A predictor with the notes of its updates, the last one first. -/
structure LoopHistory (ways : ℕ) where
  predictor : LoopBranchPredictor ways
  notes : List (LoopNote ways)

namespace LoopHistory

open LoopBranchPredictor

variable {ways : ℕ} [NeZero ways]

def note (s : LoopBranchPredictor ways) : LoopCall → List (LoopNote ways)
  | .lookup _ => []
  | .update ip actual =>
    match s.matchingWay ip with
    | some w =>
      let e := (s.slots (index ip) w).entry
      [⟨index ip,w,.observed (actual≠e.previousActual ∧ actual≠e.prediction)⟩]
    | none =>
      let w := s.lruWay (index ip)
      [⟨index ip,w,.installed (s.slots (index ip) w).entry.enabled⟩]

def next (h : LoopHistory ways) (c : LoopCall) : LoopHistory ways :=
  ⟨h.predictor.next c,note h.predictor c++h.notes⟩

def observe (ways : ℕ) [NeZero ways] (calls : List LoopCall) : LoopHistory ways :=
  calls.foldl next ⟨.new ways,[]⟩

/-- Since its tag was installed last, the entry has seen an outcome that leaves a run. -/
def trained (i : BitVec 6) (w : Fin ways) : List (LoopNote ways) → Bool
  | [] => false
  | x::notes =>
    if x.index=i ∧ x.way=w then
      match x.event with
      | .installed _ => false
      | .observed left => left || trained i w notes
    else trained i w notes

end LoopHistory

theorem LoopEntry.update_enabled {e : LoopEntry} {a : Bool} (h : (e.update a).enabled=true) :
    e.enabled=true ∨ (a≠e.previousActual ∧ a≠e.prediction) := by
  rw [LoopEntry.update] at h
  split_ifs at h with h1 h2
  · exact .inr ⟨h2.1.symm,by simp [h2.2.1]⟩
  · left
    simp only [sameDirection] at h
    split_ifs at h <;> exact h

namespace LoopHistory

open LoopBranchPredictor

variable {ways : ℕ} {h : LoopHistory ways}

def Inv (h : LoopHistory ways) : Prop :=
  ∀i w,(h.predictor.slots i w).entry.enabled=true → trained i w h.notes=true

theorem Inv.put (hinv : h.Inv) {i : BitVec 6} {w : Fin ways} {slot : LoopSlot}
    {event : LoopEvent} (hslot : slot.entry.enabled=true → trained i w (⟨i,w,event⟩::h.notes)=true) :
    Inv ⟨h.predictor.put i w slot,⟨i,w,event⟩::h.notes⟩ := by
  intro j v hen
  simp only [put_slots] at hen
  split_ifs at hen with hv
  · obtain ⟨rfl,rfl⟩:=hv
    exact hslot hen
  · rw [trained,if_neg fun h' => hv ⟨h'.1.symm,h'.2.symm⟩]
    exact hinv j v hen

variable [NeZero ways]

theorem Inv.next (hinv : h.Inv) {c : LoopCall}
    (hc : ∀x∈note h.predictor c,x.event≠.installed true) : (h.next c).Inv := by
  cases c with
  | lookup ip =>
    intro i w hen
    exact hinv i w ((lookup_slots ip i w).2 ▸ hen)
  | update ip a =>
    simp only [LoopHistory.next,LoopBranchPredictor.next,update,note] at hc ⊢
    split
    · next w hway =>
      apply hinv.put
      intro hen
      rcases LoopEntry.update_enabled hen with hen | hleft
      · simp [trained,hinv _ _ hen]
      · simp [trained,hleft]
    · next hway =>
      simp only [hway,mem_singleton,forall_eq] at hc
      exact hinv.put fun hen => absurd (congrArg _ hen) hc

theorem observe_concat (calls : List LoopCall) (c : LoopCall) :
    observe ways (calls++[c])=(observe ways calls).next c := by
  simp [observe]

/-- Hits are on trained entries in every run in which no enabled entry is given a new tag. -/
theorem hits_trained (calls : List LoopCall) (hcalls : ∀x∈(observe ways calls).notes,x.event≠.installed true)
    (ip : BitVec 64) (w : Fin ways) (hw : (observe ways calls).predictor.hitWay ip=some w) :
    trained (index ip) w (observe ways calls).notes=true := by
  have hinv : (observe ways calls).Inv := by
    clear hw
    induction calls using reverseRecOn with
    | nil =>
      intro i w hen
      cases hen
    | append_singleton calls c ih =>
      rw [observe_concat] at hcalls ⊢
      obtain ⟨hc,hbefore⟩:=forall_mem_append.1 hcalls
      exact (ih hbefore).next hc
  have hhit := (Fin.find?_eq_some_iff.1 hw).1
  simp only [Bool.decide_and,Bool.and_eq_true,decide_eq_true_eq] at hhit
  exact hinv _ _ hhit.1

theorem hits_trained_once :
    trained (index 0x400) 0 (observe 2 [.update 0x400 true,.update 0x400 false]).notes=true := by
  apply hits_trained
  · decide
  · decide

/-- Trained on `true` and `false`, the entry of the first branch is given to the third one, and a
lookup of that one hits. -/
theorem replaced_entry_hits : let calls : List LoopCall :=
      [.update 0x400 true,.update 0x400 false,.update 0x800 true,.update 0xc00 true]
    let h := observe 2 calls
    h.predictor.hitWay 0xc00=some 0 ∧ trained (index 0xc00) 0 h.notes=false := by
  decide +kernel

end LoopHistory

end Sniper.BranchPrediction
