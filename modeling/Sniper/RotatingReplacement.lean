import Sniper.ReplacementSets

/-! # Replacement with a rotating pointer -/

namespace Sniper.WayGating
open Coherence FallibleRuns CacheSet

section Scan

variable {β : Type*} {next : β → β} {p : β → Bool}

/-- The first of `steps` positions from `i` on that satisfies `p`. -/
def scanFrom (next : β → β) (p : β → Bool) : ℕ → β → Option β
  | 0,_ => none
  | steps+1,i => if p i then some i else scanFrom next p steps (next i)

theorem scanFrom_some {steps : ℕ} {i j : β} (h : scanFrom next p steps i=some j) :
    p j=true ∧ ∃t<steps,next^[t] i=j ∧ ∀u<t,p (next^[u] i)=false := by
  induction steps generalizing i with
  | zero => cases h
  | succ steps ih =>
    rw [scanFrom] at h
    split_ifs at h with hi
    · cases h
      exact ⟨hi,0,Nat.succ_pos steps,rfl,fun u hu => absurd hu (Nat.not_lt_zero u)⟩
    · obtain ⟨hj,t,ht,hiter,hbefore⟩:=ih h
      refine ⟨hj,t+1,Nat.succ_lt_succ ht,hiter,fun u hu => ?_⟩
      cases u with
      | zero => exact Bool.eq_false_iff.mpr hi
      | succ u => exact hbefore u (Nat.lt_of_succ_lt_succ hu)

theorem scanFrom_none {steps : ℕ} {i : β} (h : scanFrom next p steps i=none) {t : ℕ} (ht : t<steps) :
    p (next^[t] i)=false := by
  induction steps generalizing i t with
  | zero => exact absurd ht (Nat.not_lt_zero t)
  | succ steps ih =>
    rw [scanFrom] at h
    split_ifs at h with hi
    cases t with
    | zero => exact Bool.eq_false_iff.mpr hi
    | succ t => exact ih h (Nat.lt_of_succ_lt_succ ht)

end Scan

def wayBelow (associativity i : ℕ) : ℕ := if i=0 then associativity - 1 else i - 1

/-- `CacheSetRoundRobin::getReplacementIndex` calls itself until the way below the pointer may be
replaced, with the calls left. It returns the pointer of the last call. -/
def roundRobinIndex (s : PolicySet ℕ) : ℕ → ℕ → Except Abort (ℕ × ℕ)
  | 0,_ => .error .unfinished
  | calls+1,curr =>
    let index := wayBelow s.associativity curr
    if s.isValidReplacement index then .ok (curr,index) else roundRobinIndex s calls index

/-- `CacheSetRoundRobin`, which looks at no block to find an unused way. -/
def roundRobinPolicy : SetPolicy ℕ ℕ where
  getReplacementIndex s calls := roundRobinIndex s calls s.state
  updateReplacementIndex s _ := .ok s.state

def roundRobinInitial (associativity : ℕ) : ℕ := associativity - 1

theorem wayBelow_lt {n i : ℕ} (hi : i<n) : wayBelow n i<n := by
  rw [wayBelow]
  split_ifs <;> omega

theorem wayBelow_iterate {n i : ℕ} (hi : i<n) {t : ℕ} (ht : t≤n) :
    (wayBelow n)^[t] i=if t ≤ i then i - t else i+n - t := by
  induction t with
  | zero => simp
  | succ t ih =>
    rw [Function.iterate_succ_apply',ih (Nat.le_of_succ_le ht),wayBelow]
    split_ifs <;> omega

theorem roundRobinIndex_ok {s : PolicySet ℕ} {calls curr i index : ℕ}
    (h : roundRobinIndex s calls curr = .ok (i,index)) :
    (i=curr ∧ s.isValidReplacement (wayBelow s.associativity curr)=true) ∨ s.isValidReplacement i=false := by
  induction calls generalizing curr with
  | zero => cases h
  | succ calls ih =>
    rw [roundRobinIndex] at h
    split_ifs at h with hbelow
    · cases h
      exact Or.inl ⟨rfl,hbelow⟩
    · right
      rcases ih h with ⟨rfl,-⟩ | hi
      · exact Bool.eq_false_iff.mpr hbelow
      · exact hi

theorem roundRobinIndex_ends {s : PolicySet ℕ} {t curr : ℕ}
    (h : s.isValidReplacement ((wayBelow s.associativity)^[t+1] curr)=true) :
    ∃r,roundRobinIndex s (t+1) curr = .ok r := by
  induction t generalizing curr with
  | zero =>
    rw [roundRobinIndex]
    exact ⟨_,if_pos h⟩
  | succ t ih =>
    rw [roundRobinIndex]
    split_ifs with hbelow
    · exact ⟨_,rfl⟩
    · exact ih h

theorem roundRobinIndex_total {s : PolicySet ℕ} {n curr w : ℕ} (htidy : s.Tidy n) (hcurr : curr<n)
    (hw : s.isValidReplacement w=true) : ∃calls r,roundRobinIndex s calls curr = .ok r := by
  have hlt := htidy.lt hw
  -- the steps down from the pointer to `w`, a full round if it points there
  obtain ⟨t,ht,hreach⟩ : ∃t<n,(wayBelow n)^[t+1] curr=w := by
    by_cases hbelow : w<curr
    · refine ⟨curr - w - 1,by omega,?_⟩
      rw [wayBelow_iterate hcurr (by omega),if_pos (by omega)]
      omega
    · refine ⟨curr+n - w - 1,by omega,?_⟩
      rw [wayBelow_iterate hcurr (by omega),if_neg (by omega)]
      omega
  refine ⟨t+1,roundRobinIndex_ends ?_⟩
  rw [htidy.associativity_eq,hreach]
  exact hw

theorem roundRobin_run_lt {n : ℕ} (hn : 0<n) {calls : List (SetCall ℕ)} {s : PolicySet ℕ}
    (he : run roundRobinPolicy.step (.new n (roundRobinInitial n)) calls = .ok s) : s.Tidy n ∧ s.state<n := by
  refine SetPolicy.run_keeps (J:=fun pointer => pointer<n) ?_ ?_ ?_ he
  · intro s steps i pointer htidy h hget hi
    have hkeep : ∀steps curr,curr<n → roundRobinIndex s steps curr = .ok (i,pointer) →
        pointer<n := by
      intro steps
      induction steps with
      | zero =>
        intro curr hcurr hok
        cases hok
      | succ steps ih =>
        intro curr hcurr hok
        rw [roundRobinIndex,htidy.associativity_eq] at hok
        split_ifs at hok
        · cases hok
          exact wayBelow_lt hcurr
        · exact ih _ (wayBelow_lt hcurr) hok
    exact hkeep steps s.state h hget
  · intro s i pointer htidy h hi hupdate
    cases hupdate
    exact h
  · exact Nat.sub_lt hn Nat.one_pos

structure NmruState where
  lruBits : ℕ → UInt8
  replacementPointer : UInt8

def NmruState.new : NmruState := ⟨UInt8.ofNat,0⟩

namespace PolicySet

def touchNmru (s : PolicySet NmruState) (i : ℕ) : NmruState :=
  {s.state with lruBits:=moveToMru s.associativity s.state.lruBits i}

/-- The condition of the second loop of `CacheSetNMRU::getReplacementIndex`. -/
def nmruTakes (s : PolicySet NmruState) (pointer : UInt8) : Bool :=
  s.state.lruBits pointer.toNat != 0 && s.isValidReplacement pointer.toNat

end PolicySet

def nmruPolicy : SetPolicy NmruState Unit where
  getReplacementIndex s _ :=
    match s.firstInvalid with
    | some i => .ok (i,s.touchNmru i)
    | none =>
      match scanFrom s.blocks.nextPointer s.nmruTakes s.associativity s.state.replacementPointer with
      | some pointer => .ok (pointer.toNat,
          {s.touchNmru pointer.toNat with replacementPointer:=s.blocks.nextPointer pointer})
      | none => .error .assertion
  updateReplacementIndex s i := .ok (s.touchNmru i)

theorem CacheSet.nextPointer_iterate {s : CacheSet} {pointer : UInt8} (h : pointer.toNat<s.associativity)
    (t : ℕ) : (s.nextPointer^[t] pointer).toNat=(pointer.toNat+t) % min s.associativity 256 := by
  induction t generalizing pointer with
  | zero =>
    have hbyte := pointer.toNat_lt
    rw [Function.iterate_zero_apply,Nat.add_zero,Nat.mod_eq_of_lt (by omega)]
  | succ t ih =>
    rw [Function.iterate_succ_apply,ih (nextPointer_lt h),nextPointer_toNat h,Nat.mod_add_mod,Nat.add_assoc,
      Nat.add_comm 1 t]

theorem CacheSet.nextPointer_reaches {s : CacheSet} {pointer : UInt8} (h : pointer.toNat<s.associativity)
    {w : ℕ} (hw : w < min s.associativity 256) :
    ∃t < min s.associativity 256,(s.nextPointer^[t] pointer).toNat=w := by
  have hbyte := pointer.toNat_lt
  obtain ⟨m,hm⟩ : ∃m,m=min s.associativity 256:=⟨_,rfl⟩
  refine ⟨(w+m - pointer.toNat) % m,hm ▸ Nat.mod_lt _ (by omega),?_⟩
  rw [nextPointer_iterate h,← hm,Nat.add_mod_mod,show pointer.toNat+(w+m - pointer.toNat)=w+m by omega,
    Nat.add_mod_right,Nat.mod_eq_of_lt (by omega)]

theorem nmru_run_lt {n : ℕ} (hn : 0<n) {calls : List (SetCall Unit)} {s : PolicySet NmruState}
    (he : run nmruPolicy.step (.new n .new) calls = .ok s) : s.Tidy n ∧ s.state.replacementPointer.toNat<n := by
  refine SetPolicy.run_keeps (J:=fun st => st.replacementPointer.toNat<n) ?_ ?_ hn he
  · intro s input i st htidy h hget hi
    simp only [nmruPolicy] at hget
    cases hfirst : s.firstInvalid with
    | some j =>
      rw [hfirst] at hget
      cases hget
      exact h
    | none =>
      simp only [hfirst] at hget
      split at hget
      · cases hget
        rw [← htidy.associativity_eq] at hi ⊢
        exact nextPointer_lt hi
      · cases hget
  · intro s i st htidy h hi hupdate
    cases hupdate
    exact h

/-- The search succeeds exactly when some way within reach of the pointer may be taken. -/
theorem nmru_victim_iff {n : ℕ} {s : PolicySet NmruState} (htidy : s.Tidy n)
    (hp : s.state.replacementPointer.toNat<n) :
    (∃i st,nmruPolicy.getReplacementIndex s () = .ok (i,st) ∧ s.isValidReplacement i=true) ↔
      (∃i<s.activeWays,(s.infos i).isValid=false) ∨
        ∃w<256,s.isValidReplacement w=true ∧ s.state.lruBits w≠0 := by
  simp only [nmruPolicy]
  cases hfirst : s.firstInvalid with
  | some j =>
    obtain ⟨hj,hunused⟩:=PolicySet.firstInvalid_some hfirst
    refine iff_of_true ⟨j,_,rfl,htidy.unused_isValidReplacement hj hunused⟩ ?_
    exact Or.inl ⟨j,hj,hunused⟩
  | none =>
    rw [or_iff_right (PolicySet.not_unused hfirst)]
    dsimp only
    cases hscan : scanFrom s.blocks.nextPointer s.nmruTakes s.associativity
        s.state.replacementPointer with
    | some pointer =>
      obtain ⟨htakes,-⟩:=scanFrom_some hscan
      rw [PolicySet.nmruTakes,Bool.and_eq_true,bne_iff_ne] at htakes
      exact iff_of_true ⟨_,_,rfl,htakes.2⟩ ⟨_,pointer.toNat_lt,htakes.2,htakes.1⟩
    | none =>
      apply iff_of_false
      · rintro ⟨i,st,hok,-⟩
        cases hok
      rintro ⟨w,hw,hv,hbits⟩
      have hwn : w<s.blocks.associativity := by
        show w<s.associativity
        rw [htidy.associativity_eq]
        exact htidy.lt hv
      have hpn : s.state.replacementPointer.toNat<s.blocks.associativity := by
        show _<s.associativity
        rw [htidy.associativity_eq]
        exact hp
      obtain ⟨t,ht,hreach⟩:=nextPointer_reaches hpn (lt_min hwn hw)
      have hnot := scanFrom_none hscan (ht.trans_le (min_le_left _ _))
      rw [PolicySet.nmruTakes,hreach,hv,Bool.and_true,bne_eq_false_iff_eq] at hnot
      exact hbits hnot

/-- In every reachable set with a way that may be replaced, the round-robin search ends; its victim
may be replaced exactly when the pointer and the way below it may be. The NMRU search finds such a
victim exactly when an active way is unused, or a way that the pointer can name may be replaced and
is not the one used last. -/
theorem rotating_victims_iff (n : ℕ) :
    (∀calls s,run roundRobinPolicy.step (.new n (roundRobinInitial n)) calls = .ok s →
      (∃i,s.isValidReplacement i=true) → (∃k r,roundRobinPolicy.getReplacementIndex s k = .ok r) ∧
      ((∃k i pointer,roundRobinPolicy.getReplacementIndex s k = .ok (i,pointer) ∧
          s.isValidReplacement i=true) ↔ s.isValidReplacement s.state=true ∧
          s.isValidReplacement (wayBelow n s.state)=true)) ∧
    (∀calls s,run nmruPolicy.step (.new n .new) calls = .ok s → (∃i,s.isValidReplacement i=true) →
      ((∃i st,nmruPolicy.getReplacementIndex s () = .ok (i,st) ∧ s.isValidReplacement i=true) ↔
        (∃i<s.activeWays,(s.infos i).isValid=false) ∨
          ∃w<256,s.isValidReplacement w=true ∧ s.state.lruBits w≠0)) := by
  constructor
  · intro calls s hs hsome
    obtain ⟨w,hw⟩:=hsome
    have hn := Nat.zero_lt_of_lt ((SetPolicy.run_tidy hs).lt hw)
    obtain ⟨htidy,hpointer⟩:=roundRobin_run_lt hn hs
    refine ⟨roundRobinIndex_total htidy hpointer hw,?_⟩
    constructor
    · rintro ⟨k,i,pointer,hok,hv⟩
      rcases roundRobinIndex_ok hok with ⟨rfl,hbelow⟩ | hi
      · rw [htidy.associativity_eq] at hbelow
        exact ⟨hv,hbelow⟩
      · rw [hv] at hi
        cases hi
    · rintro ⟨hv,hbelow⟩
      rw [← htidy.associativity_eq] at hbelow
      exact ⟨1,s.state,_,if_pos hbelow,hv⟩
  · intro calls s hs hsome
    obtain ⟨w,hw⟩:=hsome
    have hn := Nat.zero_lt_of_lt ((SetPolicy.run_tidy hs).lt hw)
    obtain ⟨htidy,hpointer⟩:=nmru_run_lt hn hs
    exact nmru_victim_iff htidy hpointer

/-- A round-robin set of two ways and an NMRU set of two full ways. -/
theorem rotating_victims_of_two :
    (∃k i pointer,roundRobinPolicy.getReplacementIndex (.new 2 (roundRobinInitial 2)) k = .ok (i,pointer)) ∧
    ∃s,run nmruPolicy.step (.new 2 .new) [.insert 10 .data false (),.insert 11 .data false ()] = .ok s ∧
      ∃i st,nmruPolicy.getReplacementIndex s () = .ok (i,st) ∧ s.isValidReplacement i=true := by
  constructor
  · obtain ⟨k,i,pointer,hok,-⟩ := ((rotating_victims_iff 2).1 [] _ rfl ⟨0,by decide⟩).2.mpr
      ⟨by decide,by decide⟩
    exact ⟨k,i,pointer,hok⟩
  · exact exists_ok (P:=fun s => s.isValidReplacement 0=true ∧ s.state.lruBits 0≠0) (by decide +kernel)
      fun s hs hzero => ((rotating_victims_iff 2).2 _ s hs ⟨0,hzero.1⟩).mpr (Or.inr ⟨0,by decide,hzero⟩)

/-- The first victim of a round-robin set with way 1 switched off is way 1. An NMRU set with one
way has no victim for its second block. -/
theorem rotating_victims_fail :
    (∃s,run roundRobinPolicy.step (.new 2 (roundRobinInitial 2)) [.setActiveWays 1] = .ok s ∧
      s.isValidReplacement 0=true ∧ roundRobinPolicy.getReplacementIndex s 1 = .ok (1,0) ∧
      s.isValidReplacement 1=false) ∧
    ∃s,run nmruPolicy.step (.new 1 .new) [.insert 10 .data false ()] = .ok s ∧
      s.isValidReplacement 0=true ∧ nmruPolicy.getReplacementIndex s () = .error .assertion := by
  decide +kernel

end Sniper.WayGating
