import Sniper.ReplacementSets

/-!
# The least recently used way

`CacheSetLRU` ranks the ways of a set with one byte each: the way that was used last has rank 0.
-/

namespace Sniper.WayGating
open Coherence FallibleRuns RecencyRanks

structure LruState where
  lruBits : ℕ → UInt8
  /-- the uses of the ways so far, the latest first; no function reads it -/
  uses : List ℕ

namespace LruState

/-- At first way 0 counts as the way that was used last. -/
def new (associativity : ℕ) : LruState := ⟨UInt8.ofNat,List.range associativity⟩

def moveToMru (associativity : ℕ) (st : LruState) (i : ℕ) : LruState :=
  ⟨WayGating.moveToMru associativity st.lruBits i,i::st.uses⟩

/-- The ranks of the first `n` ways are the numbers below `n`, in the order of their last uses. -/
def InOrder (n : ℕ) (st : LruState) : Prop := Ranked (Set.Iio n) n st.uses fun i => (st.lruBits i).toNat

end LruState

/-- The attempts that are left, and the number of the next one. `cntlr` has the answers of
`isInLowerLevelCache`, one for each attempt. -/
def lruAttempts (s : PolicySet LruState) (numAttempts : ℕ) (cntlr : Option (ℕ → Bool)) :
    ℕ → ℕ → LruState → Except Abort (ℕ × LruState)
  | 0,_,_ => .error .assertion
  | left+1,attempt,st =>
    let index := s.blocks.lruScan st.lruBits
    let moved := st.moveToMru s.associativity index
    if s.associativity ≤ index then .error .assertion
    else if attempt+1<numAttempts then
      match cntlr with
      | none => .error .assertion
      | some isInLowerLevelCache =>
        if isInLowerLevelCache attempt then
          lruAttempts s numAttempts cntlr left (attempt+1) moved
        else .ok (index,moved)
    else .ok (index,moved)

/-- `CacheSetLRU`. An access asserts that its rank has a counter in the statistics. -/
def lruPolicy (numAttempts : ℕ) : SetPolicy LruState (Option (ℕ → Bool)) where
  getReplacementIndex s cntlr :=
    match s.firstInvalid with
    | some i => .ok (i,s.state.moveToMru s.associativity i)
    | none => lruAttempts s numAttempts cntlr numAttempts 0 s.state
  updateReplacementIndex s i :=
    if s.associativity≤(s.state.lruBits i).toNat then .error .assertion
    else .ok (s.state.moveToMru s.associativity i)

theorem CacheSet.lruScan_eq (s : CacheSet) (lruBits : ℕ → UInt8) : s.lruScan lruBits =
    (maxScan lruBits s.isValidReplacement (List.range s.associativity) (0,0)).1 := rfl

theorem CacheSet.lruScan_cases (s : CacheSet) (lruBits : ℕ → UInt8) : (s.lruScan lruBits=0 ∧
      ∀j<s.associativity,s.isValidReplacement j=true → lruBits j=0) ∨
    (s.lruScan lruBits<s.associativity ∧ s.isValidReplacement (s.lruScan lruBits)=true ∧
      lruBits (s.lruScan lruBits)≠0 ∧ ∀j<s.associativity,s.isValidReplacement j=true →
        (lruBits j).toNat≤(lruBits (s.lruScan lruBits)).toNat) := by
  rw [CacheSet.lruScan_eq]
  rcases maxScan_cases (fun a b : UInt8 => UInt8.lt_iff_toNat_lt) lruBits s.isValidReplacement
      (List.range s.associativity) (0,0) with ⟨heq,hall⟩ | ⟨i,hi,hp,hlt,heq,hall⟩
  · left
    rw [heq]
    refine ⟨rfl,fun j hj hv => UInt8.toNat_inj.mp ?_⟩
    exact Nat.le_zero.mp (hall j (List.mem_range.mpr hj) hv)
  · right
    rw [heq]
    refine ⟨List.mem_range.mp hi,hp,?_,fun j hj hv => hall j (List.mem_range.mpr hj) hv⟩
    intro hzero
    rw [hzero] at hlt
    exact lt_irrefl _ hlt

theorem CacheSet.lruScan_lt_associativity {s : CacheSet} (lruBits : ℕ → UInt8) (hn : 0<s.associativity) :
    s.lruScan lruBits<s.associativity := by
  rcases s.lruScan_cases lruBits with ⟨heq,-⟩ | ⟨hlt,-⟩
  · rw [heq]
    exact hn
  · exact hlt

theorem LruState.inOrder_new {n : ℕ} (hn : n≤256) : (LruState.new n).InOrder n := by
  apply (ranked_range n).congr
  intro i hi
  rw [Set.mem_Iio] at hi
  exact UInt8.toNat_ofNat_of_lt' (hi.trans_le hn)

theorem LruState.InOrder.moveToMru {n : ℕ} {st : LruState} (h : st.InOrder n) {a : ℕ} (ha : a<n) :
    (st.moveToMru n a).InOrder n := by
  apply (Ranked.touch h ha).congr
  intro i hi
  rw [Set.mem_Iio] at hi
  show (WayGating.moveToMru n st.lruBits a i).toNat=_
  unfold WayGating.moveToMru
  by_cases hia : i=a
  · rw [hia,Function.update_self,touch_self]
    rfl
  · rw [Function.update_of_ne hia,touch_of_ne _ hia]
    by_cases hlt : (st.lruBits i).toNat<(st.lruBits a).toNat
    · rw [if_pos ⟨hi,UInt8.lt_iff_toNat_lt.mpr hlt⟩,if_pos hlt,UInt8.toNat_add,UInt8.toNat_one]
      -- the rank of `a` fits into a byte, so the next rank does
      have hbyte := (st.lruBits a).toNat_lt
      exact Nat.mod_eq_of_lt (by omega)
    · rw [if_neg (fun hlt' => hlt (UInt8.lt_iff_toNat_lt.mp hlt'.2)),if_neg hlt]

theorem lruAttempts_inOrder {s : PolicySet LruState} {numAttempts left attempt i : ℕ}
    {cntlr : Option (ℕ → Bool)} {st st' : LruState} (h : st.InOrder s.associativity)
    (he : lruAttempts s numAttempts cntlr left attempt st = .ok (i,st')) : st'.InOrder s.associativity := by
  induction left generalizing attempt st with
  | zero => cases he
  | succ left ih =>
    unfold lruAttempts at he
    dsimp only at he
    split_ifs at he with hlt hask
    · have hmoved := h.moveToMru (not_le.mp hlt)
      cases cntlr with
      | none => cases he
      | some isInLowerLevelCache =>
        dsimp only at he
        split_ifs at he
        · exact ih hmoved he
        · cases he
          exact hmoved
    · cases he
      exact h.moveToMru (not_le.mp hlt)

theorem lru_run_inOrder {n numAttempts : ℕ} (hn : n≤256) {calls : List (SetCall (Option (ℕ → Bool)))}
    {s : PolicySet LruState} (he : run (lruPolicy numAttempts).step (.new n (.new n)) calls = .ok s) :
    s.Tidy n ∧ s.state.InOrder n := by
  refine SetPolicy.run_keeps ?_ ?_ (LruState.inOrder_new hn) he
  · intro s cntlr i st htidy h hget hi
    simp only [lruPolicy] at hget
    cases hfirst : s.firstInvalid with
    | some j =>
      rw [hfirst] at hget
      cases hget
      rw [htidy.associativity_eq]
      exact h.moveToMru hi
    | none =>
      rw [hfirst] at hget
      rw [← htidy.associativity_eq] at h ⊢
      exact lruAttempts_inOrder h hget
  · intro s i st htidy h hi hupdate
    simp only [lruPolicy] at hupdate
    split_ifs at hupdate
    cases hupdate
    rw [htidy.associativity_eq]
    exact h.moveToMru hi

namespace PolicySet

/-- Of the ways that may be replaced, the last use of way `i` is the longest ago. -/
def LeastRecentlyUsed (s : PolicySet LruState) (i : ℕ) : Prop :=
  s.isValidReplacement i=true ∧
    ∀j,s.isValidReplacement j=true → s.state.uses.idxOf j ≤ s.state.uses.idxOf i

variable {s : PolicySet LruState} {n : ℕ}

theorem lruPolicy_full (hn : 0<s.associativity) (hfull : s.firstInvalid=none) (cntlr : Option (ℕ → Bool)) :
    (lruPolicy 1).getReplacementIndex s cntlr = .ok (s.blocks.lruScan s.state.lruBits,
        s.state.moveToMru s.associativity (s.blocks.lruScan s.state.lruBits)) := by
  have hlt : s.blocks.lruScan s.state.lruBits<s.associativity := CacheSet.lruScan_lt_associativity _ hn
  simp only [lruPolicy,hfull,lruAttempts]
  rw [if_neg (not_le.mpr hlt),if_neg (by omega)]

theorem leastRecentlyUsed_iff (htidy : s.Tidy n) (h : s.state.InOrder n) {i : ℕ}
    (hi : s.isValidReplacement i=true) : s.LeastRecentlyUsed i ↔ ∀j,s.isValidReplacement j=true →
        (s.state.lruBits j).toNat≤(s.state.lruBits i).toNat := by
  rw [LeastRecentlyUsed,and_iff_right hi]
  apply forall_congr'
  intro j
  apply imp_congr_right
  intro hj
  rw [← not_lt,← not_lt,h.recency i (htidy.lt hi) j (htidy.lt hj)]

end PolicySet

/-- In every reachable set of at most 256 ways the ranks are the numbers below the associativity in
the order of last uses. With every active way in use and one attempt, the victim is the least
recently used of the ways that may be replaced exactly when one of them is not the way used last,
or way 0 is one of them. -/
theorem lru_victim_iff (n : ℕ) (hn : n≤256) (numAttempts : ℕ) (calls : List (SetCall (Option (ℕ → Bool))))
    (s : PolicySet LruState) (hs : run (lruPolicy numAttempts).step (.new n (.new n)) calls = .ok s) :
    s.state.InOrder n ∧ ∀cntlr : Option (ℕ → Bool),
      (∀i<s.activeWays,(s.infos i).isValid=true) → (∃i,s.isValidReplacement i=true) →
      ((∃i st,(lruPolicy 1).getReplacementIndex s cntlr = .ok (i,st) ∧ s.LeastRecentlyUsed i) ↔
        (∃i,s.isValidReplacement i=true ∧ s.state.lruBits i≠0) ∨ s.isValidReplacement 0=true) := by
  obtain ⟨htidy,horder⟩:=lru_run_inOrder hn hs
  refine ⟨horder,fun cntlr hvalid hsome => ?_⟩
  obtain ⟨w,hw⟩:=hsome
  have hpos : 0<s.associativity := by
    rw [htidy.associativity_eq]
    exact Nat.zero_lt_of_lt (htidy.lt hw)
  rw [PolicySet.lruPolicy_full hpos (PolicySet.firstInvalid_eq_none hvalid) cntlr]
  have hscan := s.blocks.lruScan_cases s.state.lruBits
  have hlt : ∀j,s.isValidReplacement j=true → j<s.blocks.associativity := by
    intro j hj
    show j<s.associativity
    rw [htidy.associativity_eq]
    exact htidy.lt hj
  constructor
  · rintro ⟨i,st,hget,hleast⟩
    cases hget
    rcases hscan with ⟨heq,-⟩ | ⟨-,hv,hbits,-⟩
    · rw [heq] at hleast
      exact Or.inr hleast.1
    · exact Or.inl ⟨_,hv,hbits⟩
  · intro hcond
    refine ⟨_,_,rfl,?_⟩
    rcases hscan with ⟨heq,hzero⟩ | ⟨-,hv,-,hmax⟩
    · -- only ways of rank 0 may be replaced, so way 0 is among them
      have hv : s.isValidReplacement 0=true := by
        rcases hcond with ⟨i,hi,hbits⟩ | hv
        · exact absurd (hzero i (hlt i hi) hi) hbits
        · exact hv
      rw [heq,PolicySet.leastRecentlyUsed_iff htidy horder hv]
      intro j hj
      rw [hzero j (hlt j hj) hj]
      exact Nat.zero_le _
    · rw [PolicySet.leastRecentlyUsed_iff htidy horder hv]
      exact fun j hj => hmax j (hlt j hj) hj

/-- A set of four ways where way 1 was used last and may be replaced, and so may way 0. -/
theorem lru_victim_of_four : ∃s,run (lruPolicy 1).step (.new 4 (.new 4))
      [.insert 10 .data false none,.insert 11 .data false none,.insert 12 .data false none,
        .insert 13 .data false none,.access 11] = .ok s ∧
    ∃i st,(lruPolicy 1).getReplacementIndex s none = .ok (i,st) ∧ s.LeastRecentlyUsed i := by
  refine exists_ok (P:=fun s => s.activeWays=4 ∧ (∀i<4,(s.infos i).isValid=true) ∧ s.isValidReplacement 0=true)
    (by decide +kernel) ?_
  rintro s hs ⟨hactive,hvalid,hzero⟩
  exact ((lru_victim_iff 4 (by decide) 1 _ s hs).2 none (hactive ▸ hvalid) ⟨0,hzero⟩).mpr (Or.inr hzero)

/-- Way 0 waits for its upgrade and way 1 was used last: the victim is way 0. -/
theorem lru_victim_upgrading : ∃s,run (lruPolicy 1).step (.new 2 (.new 2))
      [.insert 10 .data false none,.insert 11 .data false none,.setCState 10 .sharedUpgrading] = .ok s ∧
    s.activeWays=2 ∧ (∀i<2,(s.infos i).isValid=true) ∧ s.isValidReplacement 1=true ∧
    ∃st,(lruPolicy 1).getReplacementIndex s none = .ok (0,st) ∧ s.isValidReplacement 0=false := by
  decide +kernel

end Sniper.WayGating
