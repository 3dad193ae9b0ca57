import Sniper.RotatingReplacement

/-!
# Replacement by predicted intervals of re-reference

A search of `CacheSetSRRIP` takes the first way whose counter is at its maximum; after a round
without such a way all counters grow by one. A way that query-based selection rejects uses up one
iteration of the round.
-/

namespace Sniper.WayGating
open Coherence FallibleRuns CacheSet Function List

/-- The constants of a `CacheSetSRRIP`. -/
structure SrripInfo where
  numBits : ℕ
  numAttempts : ℕ
  tlbEnabled : Bool
  /-- the shift of an `int` that makes `m_rrip_max` is defined -/
  numBits_lt : numBits<31

def SrripInfo.rripMax (info : SrripInfo) : UInt8 := UInt8.ofNat (2^info.numBits - 1)

def SrripInfo.rripInsert (info : SrripInfo) : UInt8 := info.rripMax - 1

structure RripState where
  rripBits : ℕ → UInt8
  replacementPointer : UInt8

namespace RripState

def new (info : SrripInfo) : RripState := ⟨fun _ => info.rripInsert,0⟩

def setBits (st : RripState) (i : ℕ) (bits : UInt8) : RripState :=
  {st with rripBits:=Function.update st.rripBits i bits}

def advance (blocks : CacheSet) (st : RripState) : RripState :=
  {st with replacementPointer:=blocks.nextPointer st.replacementPointer}

/-- The loop that increments the counters after a round. -/
def age (associativity : ℕ) (rripMax : UInt8) (st : RripState) : RripState :=
  { st with rripBits:=fun i =>
      if i<associativity ∧ st.rripBits i < rripMax then st.rripBits i+1 else st.rripBits i }

end RripState

def SrripInfo.favours (info : SrripInfo) (s : PolicySet RripState) (i : ℕ) : Bool :=
  (s.infos i).blockType.isMetadata && info.tlbEnabled

def srripTake (info : SrripInfo) (s : PolicySet RripState) (attempt : ℕ) (st : RripState) :
    Except Abort (Option ℕ × ℕ × RripState) :=
  let index := st.replacementPointer.toNat
  if s.isValidReplacement index then
    .ok (some index,attempt,(st.advance s.blocks).setBits index info.rripInsert)
  else .error .assertion

/-- The iterations of a round that are left; `cntlr` has the answers of `isInLowerLevelCache`, one
for each attempt. -/
def srripScan (info : SrripInfo) (s : PolicySet RripState) (cntlr : Option (ℕ → Bool)) :
    ℕ → ℕ → RripState → Except Abort (Option ℕ × ℕ × RripState)
  | 0,attempt,st => .ok (none,attempt,st)
  | left+1,attempt,st =>
    let index := st.replacementPointer.toNat
    if st.rripBits index < info.rripMax then
      srripScan info s cntlr left attempt (st.advance s.blocks)
    else if attempt+1 < info.numAttempts then
      match cntlr with
      | none => .error .assertion
      | some isInLowerLevelCache =>
        if isInLowerLevelCache attempt || info.favours s index then
          srripScan info s cntlr left (attempt+1) (st.setBits index 0)
        else srripTake info s attempt st
    else srripTake info s attempt st

def srripRounds (info : SrripInfo) (s : PolicySet RripState) (cntlr : Option (ℕ → Bool)) :
    ℕ → ℕ → RripState → Except Abort (ℕ × RripState)
  | 0,_,_ => .error .unfinished
  | rounds+1,attempt,st => do
    let (found,attempt,st) ← srripScan info s cntlr s.associativity attempt st
    match found with
    | some i => .ok (i,st)
    | none => srripRounds info s cntlr rounds attempt (st.age s.associativity info.rripMax)

/-- `CacheSetSRRIP`. An access asserts that its counter has a place in the statistics, which have
one for each way. -/
def srripPolicy (info : SrripInfo) : SetPolicy RripState (Option (ℕ → Bool)) where
  getReplacementIndex s cntlr :=
    match s.firstInvalid with
    | some i => .ok (i,s.state.setBits i (if info.favours s i then 0 else info.rripInsert))
    | none => srripRounds info s cntlr (info.rripMax.toNat+1) 0 s.state
  updateReplacementIndex s i :=
    if s.associativity≤(s.state.rripBits i).toNat then .error .assertion
    else if info.favours s i then .ok (s.state.setBits i 0)
    else if 0<s.state.rripBits i then .ok (s.state.setBits i (s.state.rripBits i - 1))
    else .ok s.state

/-- No counter is above the maximum and the pointer is at a way. -/
structure RripState.Bounded (rripMax : UInt8) (n : ℕ) (st : RripState) : Prop where
  bits_le : ∀i,(st.rripBits i).toNat ≤ rripMax.toNat
  pointer_lt : st.replacementPointer.toNat<n

section Bounded

variable {info : SrripInfo} {n : ℕ} {st : RripState} {m : UInt8}

theorem SrripInfo.rripMax_pos (hbits : 1 ≤ info.numBits) : 0 < info.rripMax.toNat := by
  obtain ⟨k,hk⟩:=Nat.exists_eq_add_of_le hbits
  rw [rripMax,hk,UInt8.toNat_ofNat']
  have hodd : (2^(1+k) - 1) % 2=1 := by
    have hpos := Nat.two_pow_pos k
    rw [pow_add]
    omega
  omega

theorem SrripInfo.rripInsert_le (info : SrripInfo) (hmax : 0 < info.rripMax.toNat) :
    info.rripInsert.toNat ≤ info.rripMax.toNat := by
  have hle : (1 : UInt8) ≤ info.rripMax := UInt8.le_iff_toNat_le.mpr hmax
  rw [rripInsert,UInt8.toNat_sub_of_le _ _ hle]
  exact Nat.sub_le _ _

theorem RripState.Bounded.setBits (h : st.Bounded m n) (i : ℕ) {bits : UInt8} (hbits : bits.toNat ≤ m.toNat) :
    (st.setBits i bits).Bounded m n := by
  refine ⟨fun j => ?_,h.pointer_lt⟩
  simp only [RripState.setBits,update_apply]
  split_ifs
  · exact hbits
  · exact h.bits_le j

theorem RripState.Bounded.advance (h : st.Bounded m n) {blocks : CacheSet} (hn : blocks.associativity=n) :
    (st.advance blocks).Bounded m n := by
  refine ⟨h.bits_le,?_⟩
  subst hn
  exact nextPointer_lt h.pointer_lt

theorem RripState.age_toNat (associativity : ℕ) (m : UInt8) (st : RripState) (i : ℕ) :
    ((st.age associativity m).rripBits i).toNat =
      if i<associativity ∧ (st.rripBits i).toNat < m.toNat then (st.rripBits i).toNat+1
      else (st.rripBits i).toNat := by
  simp only [RripState.age,UInt8.lt_iff_toNat_lt]
  split_ifs with hlt
  · have hbyte := m.toNat_lt
    rw [UInt8.toNat_add,UInt8.toNat_one]
    exact Nat.mod_eq_of_lt (by omega)
  · rfl

theorem RripState.Bounded.age (h : st.Bounded m n) (associativity : ℕ) :
    (st.age associativity m).Bounded m n := by
  refine ⟨fun i => ?_,h.pointer_lt⟩
  have hle := h.bits_le i
  rw [RripState.age_toNat]
  split_ifs <;> omega

variable {s : PolicySet RripState} {cntlr : Option (ℕ → Bool)} {st' : RripState}

section

variable (hmax : 0 < info.rripMax.toNat) (hn : s.associativity=n)
include hmax hn

theorem srripTake_bounded (h : st.Bounded info.rripMax n) {found : Option ℕ} {attempt attempt' : ℕ}
    (he : srripTake info s attempt st = .ok (found,attempt',st')) : st'.Bounded info.rripMax n := by
  simp only [srripTake] at he
  split_ifs at he
  cases he
  exact (h.advance hn).setBits _ (info.rripInsert_le hmax)

theorem srripScan_bounded {left : ℕ} {found : Option ℕ} {attempt attempt' : ℕ} (h : st.Bounded info.rripMax n)
    (he : srripScan info s cntlr left attempt st = .ok (found,attempt',st')) : st'.Bounded info.rripMax n := by
  induction left generalizing attempt st with
  | zero =>
    cases he
    exact h
  | succ left ih =>
    unfold srripScan at he
    dsimp only at he
    split_ifs at he with hlt hask
    · exact ih (h.advance hn) he
    · cases cntlr with
      | none => cases he
      | some isInLowerLevelCache =>
        dsimp only at he
        split_ifs at he
        · exact ih (h.setBits _ (Nat.zero_le _)) he
        · exact srripTake_bounded hmax hn h he
    · exact srripTake_bounded hmax hn h he

theorem srripRounds_bounded {rounds attempt i : ℕ} (h : st.Bounded info.rripMax n)
    (he : srripRounds info s cntlr rounds attempt st = .ok (i,st')) : st'.Bounded info.rripMax n := by
  induction rounds generalizing attempt st with
  | zero => cases he
  | succ rounds ih =>
    obtain ⟨⟨found,attempt',st''⟩,hscan,he⟩:=bind_ok he
    have hbounded := srripScan_bounded hmax hn h hscan
    cases found with
    | some j =>
      cases he
      exact hbounded
    | none => exact ih (hbounded.age _) he

theorem srripPolicy_bounded (h : s.state.Bounded info.rripMax n) {i : ℕ}
    (he : (srripPolicy info).getReplacementIndex s cntlr = .ok (i,st')) : st'.Bounded info.rripMax n := by
  simp only [srripPolicy] at he
  cases hfirst : s.firstInvalid with
  | some j =>
    rw [hfirst] at he
    cases he
    apply h.setBits
    split_ifs
    · exact Nat.zero_le _
    · exact info.rripInsert_le hmax
  | none =>
    rw [hfirst] at he
    exact srripRounds_bounded hmax hn h he

end

theorem srrip_run_bounded (hbits : 1 ≤ info.numBits) (hn : 0<n) {calls : List (SetCall (Option (ℕ → Bool)))}
    (he : run (srripPolicy info).step (.new n (.new info)) calls = .ok s) :
    s.Tidy n ∧ s.state.Bounded info.rripMax n := by
  have hmax := SrripInfo.rripMax_pos hbits
  have hinit : (RripState.new info).Bounded info.rripMax n := ⟨fun _ => info.rripInsert_le hmax,hn⟩
  refine SetPolicy.run_keeps ?_ ?_ hinit he
  · intro s cntlr i st htidy h hget hi
    exact srripPolicy_bounded hmax htidy.associativity_eq h hget
  · intro s i st htidy h hi hupdate
    simp only [srripPolicy] at hupdate
    split_ifs at hupdate with hassert hfavour hpos
    · cases hupdate
      exact h.setBits i (Nat.zero_le _)
    · cases hupdate
      have hone : (1 : UInt8) ≤ s.state.rripBits i := UInt8.le_iff_toNat_le.mpr (UInt8.lt_iff_toNat_lt.mp hpos)
      apply h.setBits
      rw [UInt8.toNat_sub_of_le _ _ hone]
      exact (Nat.sub_le _ _).trans (h.bits_le i)
    · cases hupdate
      exact h

end Bounded

/-- The ways at which the rest of a round stops, in order, if all of them are rejected, and the
state that this leaves. -/
def srripMeets (blocks : CacheSet) (rripMax : UInt8) : ℕ → RripState → List ℕ × RripState
  | 0,st => ([],st)
  | left+1,st =>
    let index := st.replacementPointer.toNat
    if st.rripBits index < rripMax then srripMeets blocks rripMax left (st.advance blocks)
    else
      let rest := srripMeets blocks rripMax left (st.setBits index 0)
      (index::rest.1,rest.2)

def srripMeetsRounds (blocks : CacheSet) (rripMax : UInt8) : ℕ → RripState → List ℕ
  | 0,_ => []
  | rounds+1,st =>
    let first := srripMeets blocks rripMax blocks.associativity st
    first.1++srripMeetsRounds blocks rripMax rounds (first.2.age blocks.associativity rripMax)

/-- The ways that a search comes to as long as it rejects them. -/
def PolicySet.srripCandidates (info : SrripInfo) (s : PolicySet RripState) : List ℕ :=
  srripMeetsRounds s.blocks info.rripMax (info.rripMax.toNat+1) s.state

/-- What becomes of the candidates from an attempt on: `none` if all are rejected. -/
def srripDecide (info : SrripInfo) (s : PolicySet RripState) (isInLowerLevelCache : ℕ → Bool) :
    ℕ → List ℕ → Option (Except Abort ℕ)
  | _,[] => none
  | attempt,i::rest =>
    if attempt+1 < info.numAttempts ∧ (isInLowerLevelCache attempt || info.favours s i) then
      srripDecide info s isInLowerLevelCache (attempt+1) rest
    else some (if s.isValidReplacement i then .ok i else .error .assertion)

section Decide

variable {info : SrripInfo} {s : PolicySet RripState} {isInLowerLevelCache : ℕ → Bool}

theorem srripDecide_append (attempt : ℕ) (ws us : List ℕ) :
    srripDecide info s isInLowerLevelCache attempt (ws++us) =
      (srripDecide info s isInLowerLevelCache attempt ws).or
        (srripDecide info s isInLowerLevelCache (attempt+ws.length) us) := by
  induction ws generalizing attempt with
  | nil => rfl
  | cons i ws ih =>
    rw [cons_append,srripDecide,srripDecide,ih,length_cons,Nat.add_right_comm,Nat.add_assoc]
    split_ifs
    · rfl
    · rfl
    · rfl

theorem srripTake_eq (info : SrripInfo) (s : PolicySet RripState) (attempt : ℕ) (st : RripState) :
    ∃st',srripTake info s attempt st =
    (if s.isValidReplacement st.replacementPointer.toNat then .ok st.replacementPointer.toNat
      else .error .assertion : Except Abort ℕ).map fun i => (some i,attempt,st') := by
  refine ⟨(st.advance s.blocks).setBits st.replacementPointer.toNat info.rripInsert,?_⟩
  rw [srripTake]
  split_ifs
  · rfl
  · rfl

theorem srripScan_spec (left attempt : ℕ) (st : RripState) : ∃attempt' st',
    srripScan info s (some isInLowerLevelCache) left attempt st =
      (srripDecide info s isInLowerLevelCache attempt (srripMeets s.blocks info.rripMax left st).1).elim
      (.ok (none,attempt+(srripMeets s.blocks info.rripMax left st).1.length,
        (srripMeets s.blocks info.rripMax left st).2)) fun r => r.map fun i => (some i,attempt',st') := by
  induction left generalizing attempt st with
  | zero => exact ⟨attempt,st,rfl⟩
  | succ left ih =>
    rw [srripMeets]
    unfold srripScan
    dsimp only
    by_cases hlt : st.rripBits st.replacementPointer.toNat < info.rripMax
    · simp only [if_pos hlt]
      exact ih attempt (st.advance s.blocks)
    · simp only [if_neg hlt,srripDecide]
      by_cases hreject : attempt+1 < info.numAttempts ∧
          (isInLowerLevelCache attempt || info.favours s st.replacementPointer.toNat)=true
      · rw [if_pos hreject.1,if_pos hreject.2,if_pos hreject,length_cons,Nat.add_left_comm,
          Nat.add_comm _ (attempt+1)]
        exact ih (attempt+1) (st.setBits st.replacementPointer.toNat 0)
      · obtain ⟨st',htake⟩:=srripTake_eq info s attempt st
        refine ⟨attempt,st',?_⟩
        rw [if_neg hreject,Option.elim_some,← htake]
        split_ifs with hask hanswer
        · exact absurd ⟨hask,hanswer⟩ hreject
        · rfl
        · rfl

theorem srripRounds_spec (rounds attempt : ℕ) (st : RripState) : ∃st',
    srripRounds info s (some isInLowerLevelCache) rounds attempt st =
      ((srripDecide info s isInLowerLevelCache attempt
        (srripMeetsRounds s.blocks info.rripMax rounds st)).getD (.error .unfinished)).map fun i =>
          (i,st') := by
  induction rounds generalizing attempt st with
  | zero => exact ⟨st,rfl⟩
  | succ rounds ih =>
    obtain ⟨attempt',st',hscan⟩:=srripScan_spec s.associativity attempt st
    rw [srripMeetsRounds,srripDecide_append,srripRounds,hscan,
      show s.blocks.associativity=s.associativity from rfl]
    cases srripDecide info s isInLowerLevelCache attempt
        (srripMeets s.blocks info.rripMax s.associativity st).1 with
    | none => exact ih _ _
    | some r =>
      refine ⟨st',?_⟩
      cases r with
      | ok i => rfl
      | error e => rfl

theorem srripDecide_congr {isInLowerLevelCache' : ℕ → Bool} {attempt : ℕ} {ws : List ℕ}
    (h : ∀a,attempt≤a → isInLowerLevelCache a=isInLowerLevelCache' a) :
    srripDecide info s isInLowerLevelCache attempt ws = srripDecide info s isInLowerLevelCache' attempt ws := by
  induction ws generalizing attempt with
  | nil => rfl
  | cons i ws ih =>
    rw [srripDecide,srripDecide,h attempt le_rfl,ih fun a ha => h a (Nat.le_of_succ_le ha)]

theorem srripDecide_ok {attempt i : ℕ} {ws : List ℕ}
    (h : srripDecide info s isInLowerLevelCache attempt ws=some (.ok i)) : s.isValidReplacement i=true := by
  induction ws generalizing attempt with
  | nil => cases h
  | cons w ws ih =>
    rw [srripDecide] at h
    split_ifs at h with hreject hvalid
    · exact ih h
    · cases h
      exact hvalid
    · cases h

theorem srripDecide_cons_ok {attempt w : ℕ} {ws : List ℕ} :
    (∃i,srripDecide info s isInLowerLevelCache attempt (w::ws)=some (.ok i)) ↔
      if attempt+1 < info.numAttempts ∧ (isInLowerLevelCache attempt || info.favours s w) then
        ∃i,srripDecide info s isInLowerLevelCache (attempt+1) ws=some (.ok i)
      else s.isValidReplacement w=true := by
  rw [srripDecide]
  split_ifs with hreject hvalid
  · exact Iff.rfl
  · exact iff_of_true ⟨w,rfl⟩ hvalid
  · apply iff_of_false
    · rintro ⟨i,hi⟩
      cases hi
    · exact hvalid

/-- Within the attempts that are left, every candidate that the search may settle for is one that
may be replaced; favoured blocks are passed over until the last attempt. -/
def PolicySet.Settles (info : SrripInfo) (s : PolicySet RripState) (attempt : ℕ) (ws : List ℕ) : Prop :=
  (∃i,ws[info.numAttempts - 1 - attempt]?=some i ∧ s.isValidReplacement i=true) ∧
    ∀k < info.numAttempts - 1 - attempt,∀i,ws[k]?=some i →
      s.isValidReplacement i=true ∨ info.favours s i=true

theorem PolicySet.settles_cons (attempt i : ℕ) (ws : List ℕ) :
    s.Settles info attempt (i::ws) ↔
      if attempt+1 < info.numAttempts then
        (s.isValidReplacement i=true ∨ info.favours s i=true) ∧ s.Settles info (attempt+1) ws
      else s.isValidReplacement i=true := by
  rw [Settles,Settles]
  split_ifs with hask
  · obtain ⟨m,hm⟩ : ∃m,info.numAttempts - 1 - attempt=m+1:=⟨info.numAttempts - 1 - attempt - 1,by omega⟩
    rw [hm,show info.numAttempts - 1 - (attempt+1)=m by omega,List.getElem?_cons_succ]
    constructor
    · rintro ⟨hlast,hbefore⟩
      refine ⟨hbefore 0 (Nat.succ_pos m) i rfl,hlast,fun k hk j hj => ?_⟩
      exact hbefore (k+1) (Nat.succ_lt_succ hk) j hj
    · rintro ⟨hfirst,hlast,hbefore⟩
      refine ⟨hlast,fun k hk j hj => ?_⟩
      cases k with
      | zero =>
        cases hj
        exact hfirst
      | succ k => exact hbefore k (Nat.lt_of_succ_lt_succ hk) j hj
  · rw [show info.numAttempts - 1 - attempt=0 by omega,List.getElem?_cons_zero]
    constructor
    · rintro ⟨⟨j,hj,hv⟩,-⟩
      cases hj
      exact hv
    · exact fun hv => ⟨⟨i,rfl,hv⟩,fun k hk => absurd hk (Nat.not_lt_zero k)⟩

theorem srripDecide_iff {attempt : ℕ} {ws : List ℕ} :
    (∀isInLowerLevelCache,∃i,srripDecide info s isInLowerLevelCache attempt ws=some (.ok i)) ↔
      s.Settles info attempt ws := by
  induction ws generalizing attempt with
  | nil =>
    apply iff_of_false
    · intro h
      obtain ⟨i,hi⟩:=h fun _ => false
      cases hi
    · rintro ⟨⟨i,hi,-⟩,-⟩
      cases hi
  | cons w ws ih =>
    rw [PolicySet.settles_cons,← ih]
    simp only [srripDecide_cons_ok]
    by_cases hask : attempt+1 < info.numAttempts
    · simp only [hask,true_and,if_true]
      constructor
      · intro h
        constructor
        · have hw := h fun _ => false
          by_cases hfavour : info.favours s w=true
          · exact Or.inr hfavour
          · rw [if_neg (by simp [hfavour])] at hw
            exact Or.inl hw
        · intro answers
          -- this attempt is rejected and the later ones are answered as before
          have hw := h (update answers attempt true)
          rw [update_self,Bool.true_or,if_pos rfl] at hw
          obtain ⟨i,hi⟩:=hw
          refine ⟨i,?_⟩
          rw [← hi]
          apply srripDecide_congr
          intro a ha
          rw [update_of_ne (by omega)]
      · rintro ⟨hw,hrest⟩ answers
        split_ifs with hreject
        · exact hrest answers
        · rcases hw with hv | hfavour
          · exact hv
          · rw [hfavour,Bool.or_true] at hreject
            exact absurd rfl hreject
    · simp only [hask,false_and,if_false]
      exact ⟨fun h => h fun _ => false,fun hv _ => hv⟩

end Decide

def RripState.distance (n : ℕ) (st : RripState) (w : ℕ) : ℕ :=
  if w<st.replacementPointer.toNat then w+n - st.replacementPointer.toNat
  else w - st.replacementPointer.toNat

/-- Way `w` has the greatest counter, and of the ways with this counter it is the next one for the
pointer. -/
structure RripState.Oldest (n : ℕ) (st : RripState) (w : ℕ) : Prop where
  lt : w<n
  greatest : ∀v<n,(st.rripBits v).toNat≤(st.rripBits w).toNat
  next : ∀v<n,st.rripBits v=st.rripBits w → st.distance n w ≤ st.distance n v

theorem RripState.Oldest.unique {n : ℕ} {st : RripState} (hp : st.replacementPointer.toNat<n) {v w : ℕ}
    (hv : st.Oldest n v) (hw : st.Oldest n w) : v=w := by
  have heq : st.rripBits v=st.rripBits w :=
    UInt8.toNat_inj.mp (le_antisymm (hw.greatest v hv.lt) (hv.greatest w hw.lt))
  have hdistance := le_antisymm (hv.next w hw.lt heq.symm) (hw.next v hv.lt heq)
  have hvn := hv.lt
  have hwn := hw.lt
  simp only [RripState.distance] at hdistance
  split_ifs at hdistance <;> omega

section Meets

variable {blocks : CacheSet} {m : UInt8} {st : RripState}

theorem srripMeets_head (left : ℕ) : (srripMeets blocks m left st).1.head? =
    (scanFrom blocks.nextPointer (fun q => decide (¬ st.rripBits q.toNat < m)) left
      st.replacementPointer).map UInt8.toNat := by
  induction left generalizing st with
  | zero => rfl
  | succ left ih =>
    rw [srripMeets,scanFrom]
    by_cases hlt : st.rripBits st.replacementPointer.toNat < m
    · rw [if_pos hlt,if_neg (by simp [hlt]),ih]
      rfl
    · rw [if_neg hlt,if_pos (by simp [hlt])]
      rfl

theorem srripMeets_of_none {left : ℕ}
    (h : scanFrom blocks.nextPointer (fun q => decide (¬ st.rripBits q.toNat < m)) left
      st.replacementPointer=none) : srripMeets blocks m left st =
    ([],{st with replacementPointer:=blocks.nextPointer^[left] st.replacementPointer}) := by
  induction left generalizing st with
  | zero => rfl
  | succ left ih =>
    rw [scanFrom] at h
    split_ifs at h with hlt
    rw [decide_eq_true_iff,not_not] at hlt
    rw [srripMeets,if_pos hlt]
    exact ih h

variable (hle : blocks.associativity≤256)
  (hp : st.replacementPointer.toNat<blocks.associativity)
include hle hp

theorem RripState.iterate_distance {w : ℕ} (hw : w<blocks.associativity) :
    (blocks.nextPointer^[st.distance blocks.associativity w] st.replacementPointer).toNat=w := by
  rw [nextPointer_iterate hp,min_eq_left hle,RripState.distance]
  split_ifs with hlt
  · rw [show st.replacementPointer.toNat+(w+blocks.associativity - st.replacementPointer.toNat) =
      w+blocks.associativity by omega,Nat.add_mod_right,Nat.mod_eq_of_lt hw]
  · rw [Nat.add_sub_cancel' (not_lt.mp hlt),Nat.mod_eq_of_lt hw]

theorem RripState.distance_iterate {t : ℕ} (ht : t<blocks.associativity) :
    st.distance blocks.associativity (blocks.nextPointer^[t] st.replacementPointer).toNat=t := by
  rw [nextPointer_iterate hp,min_eq_left hle,RripState.distance]
  by_cases hround : st.replacementPointer.toNat+t<blocks.associativity
  · rw [Nat.mod_eq_of_lt hround,if_neg (by omega)]
    omega
  · rw [Nat.mod_eq_sub_mod (not_lt.mp hround),Nat.mod_eq_of_lt (by omega),if_pos (by omega)]
    omega

theorem RripState.iterate_round :
    blocks.nextPointer^[blocks.associativity] st.replacementPointer=st.replacementPointer := by
  apply UInt8.toNat_inj.mp
  rw [nextPointer_iterate hp,min_eq_left hle,Nat.add_mod_right,Nat.mod_eq_of_lt hp]

theorem RripState.oldest_of_scan (hbits : ∀i,(st.rripBits i).toNat ≤ m.toNat) {q : UInt8}
    (h : scanFrom blocks.nextPointer (fun q => decide (¬ st.rripBits q.toNat < m))
      blocks.associativity st.replacementPointer=some q) : st.Oldest blocks.associativity q.toNat := by
  obtain ⟨hq,t,ht,rfl,hbefore⟩:=scanFrom_some h
  rw [decide_eq_true_iff,UInt8.lt_iff_toNat_lt,not_lt] at hq
  refine ⟨?_,fun v _ => (hbits v).trans hq,fun v hv heq => ?_⟩
  · rw [nextPointer_iterate hp,min_eq_left hle]
    exact Nat.mod_lt _ (by omega)
  · rw [RripState.distance_iterate hle hp ht]
    by_contra hlt
    have hnot := hbefore _ (not_le.mp hlt)
    rw [RripState.iterate_distance hle hp hv,heq,decide_eq_false_iff_not,not_not,
      UInt8.lt_iff_toNat_lt] at hnot
    exact absurd hnot (not_lt.mpr hq)

theorem srripMeetsRounds_head (hbits : ∀i,(st.rripBits i).toNat ≤ m.toNat) {rounds w : ℕ}
    (hw : w<blocks.associativity) (hrounds : m.toNat<(st.rripBits w).toNat+rounds) :
    ∃v,(srripMeetsRounds blocks m rounds st).head?=some v ∧ st.Oldest blocks.associativity v := by
  induction rounds generalizing st with
  | zero =>
    have hle := hbits w
    omega
  | succ rounds ih =>
    rw [srripMeetsRounds]
    cases hscan : scanFrom blocks.nextPointer (fun q => decide (¬ st.rripBits q.toNat < m))
        blocks.associativity st.replacementPointer with
    | some q =>
      refine ⟨q.toNat,?_,RripState.oldest_of_scan hle hp hbits hscan⟩
      rw [List.head?_append,srripMeets_head,hscan]
      rfl
    | none =>
      -- no counter is at the maximum, so the round changes nothing and all counters grow
      have hlt : ∀v<blocks.associativity,(st.rripBits v).toNat < m.toNat := by
        intro v hv
        have hdistance : st.distance blocks.associativity v<blocks.associativity := by
          rw [RripState.distance]
          split_ifs <;> omega
        have hnot := scanFrom_none hscan hdistance
        rwa [RripState.iterate_distance hle hp hv,decide_eq_false_iff_not,not_not,
          UInt8.lt_iff_toNat_lt] at hnot
      have hage : ∀v<blocks.associativity,
          ((st.age blocks.associativity m).rripBits v).toNat=(st.rripBits v).toNat+1 := by
        intro v hv
        rw [RripState.age_toNat,if_pos ⟨hv,hlt v hv⟩]
      have hbounded : st.Bounded m blocks.associativity := ⟨hbits,hp⟩
      rw [srripMeets_of_none hscan,RripState.iterate_round hle hp]
      obtain ⟨v,hv,holdest⟩:=ih (hbounded.age blocks.associativity).pointer_lt
        (hbounded.age blocks.associativity).bits_le (by rw [hage w hw]; omega)
      refine ⟨v,hv,holdest.lt,fun u hu => ?_,fun u hu heq => ?_⟩
      · have hgreatest := holdest.greatest u hu
        rw [hage u hu,hage v holdest.lt] at hgreatest
        exact Nat.le_of_succ_le_succ hgreatest
      · apply holdest.next u hu
        apply UInt8.toNat_inj.mp
        rw [hage u hu,hage v holdest.lt,heq]

end Meets

section Enough

variable {blocks : CacheSet} {m : UInt8} {st : RripState}

theorem srripMeets_bits {left w : ℕ} (hw : w∉(srripMeets blocks m left st).1) :
    (srripMeets blocks m left st).2.rripBits w=st.rripBits w := by
  induction left generalizing st with
  | zero => rfl
  | succ left ih =>
    rw [srripMeets] at hw ⊢
    by_cases hlt : st.rripBits st.replacementPointer.toNat < m
    · rw [if_pos hlt] at hw ⊢
      exact ih hw
    · rw [if_neg hlt] at hw ⊢
      rw [mem_cons,not_or] at hw
      exact (ih hw.2).trans (update_of_ne hw.1 ..)

section

variable (hp : st.replacementPointer.toNat<blocks.associativity)
include hp

theorem srripMeets_lt (left : ℕ) : (∀i∈(srripMeets blocks m left st).1,i<blocks.associativity) ∧
      (srripMeets blocks m left st).2.replacementPointer.toNat<blocks.associativity := by
  induction left generalizing st with
  | zero => exact ⟨fun i hi => absurd hi not_mem_nil,hp⟩
  | succ left ih =>
    rw [srripMeets]
    by_cases hlt : st.rripBits st.replacementPointer.toNat < m
    · rw [if_pos hlt]
      exact ih (nextPointer_lt hp)
    · rw [if_neg hlt]
      obtain ⟨hmem,hpointer⟩:=@ih (st.setBits st.replacementPointer.toNat 0) hp
      refine ⟨fun i hi => ?_,hpointer⟩
      rcases mem_cons.mp hi with rfl | hi
      · exact hp
      · exact hmem i hi

theorem srripMeets_age_lt : ((srripMeets blocks m blocks.associativity st).2.age
      blocks.associativity m).replacementPointer.toNat<blocks.associativity :=
  (srripMeets_lt hp blocks.associativity).2

theorem srripMeetsRounds_lt (rounds : ℕ) : ∀i∈srripMeetsRounds blocks m rounds st,i<blocks.associativity := by
  induction rounds generalizing st with
  | zero => exact fun i hi => absurd hi not_mem_nil
  | succ rounds ih =>
    intro i hi
    rw [srripMeetsRounds] at hi
    rcases mem_append.mp hi with hi | hi
    · exact (srripMeets_lt hp _).1 i hi
    · exact ih (srripMeets_age_lt hp) i hi

end

theorem RripState.distance_advance (hle : blocks.associativity≤256)
    (hp : st.replacementPointer.toNat<blocks.associativity) {w : ℕ} (hw : w<blocks.associativity)
    (hne : w≠st.replacementPointer.toNat) : (st.advance blocks).distance blocks.associativity w+1 =
      st.distance blocks.associativity w := by
  have hnext : (st.advance blocks).replacementPointer.toNat =
      (st.replacementPointer.toNat+1) % blocks.associativity := by
    have hnext := nextPointer_toNat hp
    rwa [min_eq_left hle] at hnext
  rw [RripState.distance,RripState.distance,hnext]
  by_cases hround : st.replacementPointer.toNat+1=blocks.associativity
  · rw [hround,Nat.mod_self]
    split_ifs <;> omega
  · rw [Nat.mod_eq_of_lt (by omega)]
    split_ifs <;> omega

/-- As long as a way at the maximum is not met, every iteration either rejects another way or
brings the pointer nearer. -/
theorem srripMeets_distance (hle : blocks.associativity≤256)
    (hp : st.replacementPointer.toNat<blocks.associativity) {left w : ℕ} (hw : w<blocks.associativity)
    (hmax : ¬ st.rripBits w < m) (hnot : w∉(srripMeets blocks m left st).1) :
    st.distance blocks.associativity w+(srripMeets blocks m left st).1.length =
      left+(srripMeets blocks m left st).2.distance blocks.associativity w := by
  induction left generalizing st with
  | zero => exact Nat.add_comm _ _
  | succ left ih =>
    rw [srripMeets] at hnot ⊢
    by_cases hlt : st.rripBits st.replacementPointer.toNat < m
    · rw [if_pos hlt] at hnot ⊢
      have hne : w≠st.replacementPointer.toNat := by
        rintro rfl
        exact hmax hlt
      have hstep := RripState.distance_advance hle hp hw hne
      have hrest := @ih (st.advance blocks) (nextPointer_lt hp) hmax hnot
      omega
    · rw [if_neg hlt] at hnot ⊢
      rw [mem_cons,not_or] at hnot
      have hkeep : (st.setBits st.replacementPointer.toNat 0).rripBits w=st.rripBits w :=
        update_of_ne hnot.1 ..
      have hrest := @ih (st.setBits st.replacementPointer.toNat 0) hp
        (by rw [hkeep]; exact hmax) hnot.2
      have hsame : (st.setBits st.replacementPointer.toNat 0).distance blocks.associativity w =
          st.distance blocks.associativity w := rfl
      rw [hsame] at hrest
      simp only [length_cons]
      omega

theorem RripState.age_ge {associativity w b : ℕ} (hw : w<associativity)
    (h : m.toNat≤(st.rripBits w).toNat+(b+1)) : m.toNat≤((st.age associativity m).rripBits w).toNat+b := by
  rw [RripState.age_toNat]
  split_ifs <;> omega

/-- A way that is never met, though its counter comes to the maximum two rounds before the end,
makes the search meet others: the two rounds have more iterations than the pointer has steps to
make. -/
theorem srripMeetsRounds_length (hle : blocks.associativity≤256)
    (hp : st.replacementPointer.toNat<blocks.associativity) {rounds w : ℕ} (hw : w<blocks.associativity)
    (hmax : m.toNat≤(st.rripBits w).toNat+rounds) (hnot : w∉srripMeetsRounds blocks m (rounds+2) st) :
    blocks.associativity≤(srripMeetsRounds blocks m (rounds+2) st).length := by
  induction rounds generalizing st with
  | zero =>
    simp only [srripMeetsRounds,append_nil,mem_append,not_or,length_append] at hnot ⊢
    obtain ⟨hfirst,hsecond⟩:=hnot
    have hbits : ¬ ((srripMeets blocks m blocks.associativity st).2.age
        blocks.associativity m).rripBits w < m := by
      rw [UInt8.lt_iff_toNat_lt,not_lt]
      refine RripState.age_ge (b:=0) hw ?_
      rw [srripMeets_bits hfirst]
      omega
    have hd₁ := srripMeets_distance hle hp hw
      (by rw [UInt8.lt_iff_toNat_lt,not_lt]; exact hmax) hfirst
    have hd₂ := srripMeets_distance hle (srripMeets_age_lt hp) hw hbits hsecond
    have hd : st.distance blocks.associativity w<blocks.associativity := by
      rw [RripState.distance]
      split_ifs <;> omega
    have hsame : ((srripMeets blocks m blocks.associativity st).2.age
        blocks.associativity m).distance blocks.associativity w =
      (srripMeets blocks m blocks.associativity st).2.distance blocks.associativity w := rfl
    rw [hsame] at hd₂
    omega
  | succ rounds ih =>
    rw [srripMeetsRounds] at hnot ⊢
    rw [mem_append,not_or] at hnot
    rw [length_append]
    apply le_trans _ (Nat.le_add_left _ _)
    refine ih (srripMeets_age_lt hp) ?_ hnot.2
    apply RripState.age_ge hw
    rw [srripMeets_bits hnot.1]
    exact hmax

theorem srripMeetsRounds_enough (hle : blocks.associativity≤256)
    (hp : st.replacementPointer.toNat<blocks.associativity) (hm : 0 < m.toNat)
    (hpos : ∀w<blocks.associativity,0<(st.rripBits w).toNat) :
    blocks.associativity≤(srripMeetsRounds blocks m (m.toNat+1) st).length := by
  by_cases hall : ∀w<blocks.associativity,w∈srripMeetsRounds blocks m (m.toNat+1) st
  · have hsub : (List.range blocks.associativity).Subperm
        (srripMeetsRounds blocks m (m.toNat+1) st) :=
      nodup_range.subperm fun w hw => hall w (mem_range.mp hw)
    simpa using hsub.length_le
  · push Not at hall
    obtain ⟨w,hw,hnot⟩:=hall
    obtain ⟨k,hk⟩ : ∃k,m.toNat=k+1:=⟨m.toNat - 1,by omega⟩
    rw [hk] at hnot ⊢
    have hbits := hpos w hw
    exact srripMeetsRounds_length hle hp hw (by omega) hnot

end Enough

section Victim

variable {info : SrripInfo} {s : PolicySet RripState} {n : ℕ}

theorem srripPolicy_full (hfull : s.firstInvalid=none) (isInLowerLevelCache : ℕ → Bool) (i : ℕ) :
    (∃st,(srripPolicy info).getReplacementIndex s (some isInLowerLevelCache) = .ok (i,st)) ↔
      srripDecide info s isInLowerLevelCache 0 (s.srripCandidates info)=some (.ok i) := by
  obtain ⟨st',hrounds⟩ : ∃st',(srripPolicy info).getReplacementIndex s (some isInLowerLevelCache) =
      ((srripDecide info s isInLowerLevelCache 0 (s.srripCandidates info)).getD
        (.error .unfinished)).map fun i => (i,st') := by
    simp only [srripPolicy,hfull]
    exact srripRounds_spec (info.rripMax.toNat+1) 0 s.state
  rw [hrounds]
  rcases srripDecide info s isInLowerLevelCache 0 (s.srripCandidates info) with - | e | j
  · simp [Except.map]
  · simp [Except.map]
  · simp [Except.map]

theorem settles_one (hle : n≤256) (htidy : s.Tidy n) (h : s.state.Bounded info.rripMax n)
    (hone : info.numAttempts≤1) : s.Settles info 0 (s.srripCandidates info) ↔
      ∃w,s.state.Oldest n w ∧ s.isValidReplacement w=true := by
  have hn : s.blocks.associativity=n := htidy.associativity_eq
  obtain ⟨v,hhead,holdest⟩ : ∃v,(s.srripCandidates info).head?=some v ∧
      s.state.Oldest n v := by
    subst hn
    exact srripMeetsRounds_head hle h.pointer_lt h.bits_le h.pointer_lt (by omega)
  rw [PolicySet.Settles,show info.numAttempts - 1 - 0=0 by omega,← List.head?_eq_getElem?,hhead]
  constructor
  · rintro ⟨⟨i,hi,hv⟩,-⟩
    cases hi
    exact ⟨v,holdest,hv⟩
  · rintro ⟨w,hw,hv⟩
    refine ⟨⟨v,rfl,?_⟩,fun k hk => absurd hk (Nat.not_lt_zero k)⟩
    rw [holdest.unique h.pointer_lt hw]
    exact hv

theorem settles_of_positive (hle : n≤256) (htidy : s.Tidy n) (hmax : 0 < info.rripMax.toNat)
    (h : s.state.Bounded info.rripMax n) (hattempts : info.numAttempts≤n)
    (hways : ∀w<n,s.isValidReplacement w=true ∧ s.state.rripBits w≠0) :
    s.Settles info 0 (s.srripCandidates info) := by
  have hn : s.blocks.associativity=n := htidy.associativity_eq
  subst hn
  have hvalid : ∀k i : ℕ,(s.srripCandidates info)[k]?=some i → s.isValidReplacement i=true := by
    intro k i hi
    exact (hways i (srripMeetsRounds_lt h.pointer_lt _ i (mem_of_getElem? hi))).1
  have hlength : s.blocks.associativity≤(s.srripCandidates info).length := by
    apply srripMeetsRounds_enough hle h.pointer_lt hmax
    intro w hw
    rw [Nat.pos_iff_ne_zero]
    exact fun hzero => (hways w hw).2 (UInt8.toNat_inj.mp hzero)
  have hlt : info.numAttempts - 1 - 0<(s.srripCandidates info).length := by
    have hpos := h.pointer_lt
    omega
  refine ⟨⟨_,List.getElem?_eq_getElem hlt,hvalid _ _ (List.getElem?_eq_getElem hlt)⟩,?_⟩
  exact fun k _ i hi => Or.inl (hvalid k i hi)

end Victim

/-- In every reachable set with a way that may be replaced, all counters are at most the maximum.
Whatever the lower-level caches answer, the search returns a way that may be replaced, exactly when
an active way is unused or the candidates settle. With one attempt they do exactly when the oldest
way may be replaced; with no more attempts than ways they do if all ways may be replaced and no
counter is zero. -/
theorem srrip_victim_iff (n : ℕ) (hn : n≤256) (info : SrripInfo) (hbits : 1 ≤ info.numBits)
    (calls : List (SetCall (Option (ℕ → Bool)))) (s : PolicySet RripState)
    (hs : run (srripPolicy info).step (.new n (.new info)) calls = .ok s)
    (hsome : ∃i,s.isValidReplacement i=true) : (∀i<n,s.state.rripBits i ≤ info.rripMax) ∧
    ((∀isInLowerLevelCache : ℕ → Bool,∃i st,
        (srripPolicy info).getReplacementIndex s (some isInLowerLevelCache) = .ok (i,st) ∧
        s.isValidReplacement i=true ∧ ∀j<n,st.rripBits j ≤ info.rripMax) ↔
      (∃i<s.activeWays,(s.infos i).isValid=false) ∨ s.Settles info 0 (s.srripCandidates info)) ∧
    (info.numAttempts≤1 → (s.Settles info 0 (s.srripCandidates info) ↔
      ∃w,s.state.Oldest n w ∧ s.isValidReplacement w=true)) ∧
    (info.numAttempts≤n → (∀w<n,s.isValidReplacement w=true ∧ s.state.rripBits w≠0) →
      s.Settles info 0 (s.srripCandidates info)) := by
  obtain ⟨w,hw⟩:=hsome
  have hpos := Nat.zero_lt_of_lt ((SetPolicy.run_tidy hs).lt hw)
  obtain ⟨htidy,hbounded⟩:=srrip_run_bounded hbits hpos hs
  have hmax := SrripInfo.rripMax_pos hbits
  refine ⟨fun i _ => UInt8.le_iff_toNat_le.mpr (hbounded.bits_le i),?_,settles_one hn htidy hbounded,
    settles_of_positive hn htidy hmax hbounded⟩
  have hafter : ∀answers i st,(srripPolicy info).getReplacementIndex s answers = .ok (i,st) →
      ∀j<n,st.rripBits j ≤ info.rripMax := by
    intro answers i st hget j _
    have hst := srripPolicy_bounded hmax htidy.associativity_eq hbounded hget
    exact UInt8.le_iff_toNat_le.mpr (hst.bits_le j)
  cases hfirst : s.firstInvalid with
  | some j =>
    obtain ⟨hj,hunused⟩:=PolicySet.firstInvalid_some hfirst
    refine iff_of_true (fun answers => ?_) (Or.inl ⟨j,hj,hunused⟩)
    have hget : (srripPolicy info).getReplacementIndex s (some answers) =
        .ok (j,s.state.setBits j (if info.favours s j then 0 else info.rripInsert)) := by
      simp only [srripPolicy,hfirst]
    exact ⟨j,_,hget,htidy.unused_isValidReplacement hj hunused,hafter _ _ _ hget⟩
  | none =>
    rw [or_iff_right (PolicySet.not_unused hfirst),← srripDecide_iff]
    apply forall_congr'
    intro answers
    constructor
    · rintro ⟨i,st,hget,-⟩
      exact ⟨i,(srripPolicy_full hfirst answers i).mp ⟨st,hget⟩⟩
    · rintro ⟨i,hi⟩
      obtain ⟨st,hget⟩:=(srripPolicy_full hfirst answers i).mpr hi
      exact ⟨i,st,hget,srripDecide_ok hi,hafter _ _ _ hget⟩

def twoBits (numAttempts : ℕ) : SrripInfo := ⟨2,numAttempts,false,by decide⟩

/-- Two blocks in two ways, with two attempts. -/
theorem srrip_victim_of_two : ∃s,run (srripPolicy (twoBits 2)).step (.new 2 (.new (twoBits 2)))
      [.insert 10 .data false none,.insert 11 .data false none] = .ok s ∧
    ∀isInLowerLevelCache : ℕ → Bool,∃i st,
      (srripPolicy (twoBits 2)).getReplacementIndex s (some isInLowerLevelCache) = .ok (i,st) ∧
      s.isValidReplacement i=true := by
  refine exists_ok (P:=fun s => ∀i<2,s.isValidReplacement i=true ∧ s.state.rripBits i≠0) (by decide +kernel)
    fun s hs hways answers => ?_
  have h := srrip_victim_iff 2 (by decide) (twoBits 2) (by decide) _ s hs ⟨0,(hways 0 (by decide)).1⟩
  obtain ⟨i,st,hget,hv,-⟩ := h.2.1.mpr (Or.inr (h.2.2.2 (by decide) hways)) answers
  exact ⟨i,st,hget,hv⟩

/-- A way that waits for its upgrade is the oldest one: the assertion fails although the other way
may be replaced. In a set of one way, a rejection leaves no iteration for the second attempt. -/
theorem srrip_victim_fails : (∃s,run (srripPolicy (twoBits 1)).step (.new 2 (.new (twoBits 1)))
        [.insert 10 .data false none,.insert 11 .data false none,
          .setCState 10 .sharedUpgrading] = .ok s ∧ s.isValidReplacement 1=true ∧
      (srripPolicy (twoBits 1)).getReplacementIndex s (some fun _ => false) = .error .assertion) ∧
    ∃s,run (srripPolicy ⟨1,2,false,by decide⟩).step (.new 1 (.new ⟨1,2,false,by decide⟩))
        [.insert 10 .data false none] = .ok s ∧ s.isValidReplacement 0=true ∧
      (srripPolicy ⟨1,2,false,by decide⟩).getReplacementIndex s (some fun _ => true) = .error .unfinished := by
  decide +kernel

end Sniper.WayGating
