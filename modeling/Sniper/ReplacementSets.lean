import Sniper.RecencyRanks
import Sniper.WayGating

/-!
# Cache sets under an arbitrary replacement policy

What a policy asks from outside, such as the answers of the lower-level caches, is an input of the
insertion.
-/

namespace Sniper.WayGating
open Coherence FallibleRuns

variable {ρ α : Type}

structure PolicySet (ρ : Type) where
  associativity : ℕ
  activeWays : ℕ
  infos : ℕ → CacheBlockInfo
  state : ρ

namespace PolicySet

def new (associativity : ℕ) (state : ρ) : PolicySet ρ := ⟨associativity,associativity,fun _ => .new,state⟩

def blocks (s : PolicySet ρ) : CacheSet := ⟨s.associativity,s.activeWays,s.infos,none,.random 0⟩

def isValidReplacement (s : PolicySet ρ) (i : ℕ) : Bool := s.blocks.isValidReplacement i

def firstInvalid (s : PolicySet ρ) : Option ℕ := s.blocks.firstInvalid

/-- The way of a block. No address has the tag of an unused way. -/
def find (s : PolicySet ρ) (tag : UInt64) : Option ℕ :=
  if tag=CacheBlockInfo.noTag then none else s.blocks.find tag

def changeBlock (s : PolicySet ρ) (tag : UInt64) (f : CacheBlockInfo → CacheBlockInfo) : PolicySet ρ :=
  match s.find tag with
  | some i => {s with infos:=Function.update s.infos i (f (s.infos i))}
  | none => s

end PolicySet

structure SetPolicy (ρ α : Type) where
  getReplacementIndex : PolicySet ρ → α → Except Abort (ℕ × ρ)
  updateReplacementIndex : PolicySet ρ → ℕ → Except Abort ρ

inductive SetCall (α : Type) where
  | insert (tag : UInt64) (blockType : BlockType) (tlb : Bool) (input : α)
  | access (tag : UInt64)
  | setCState (tag : UInt64) (cstate : CacheState)
  | setBlockType (tag : UInt64) (blockType : BlockType)
  | invalidate (tag : UInt64)
  | setActiveWays (ways : ℕ)

/-- A new block of a cache has no state yet, and one of a TLB is `SHARED`. -/
def newBlock (tag : UInt64) (blockType : BlockType) (tlb : Bool) : CacheBlockInfo :=
  ⟨tag,if tlb then .shared else .invalid,blockType⟩

/-- `Cache::setActiveWays` asks each set for at least one way and for no more than it has. -/
def SetPolicy.step (P : SetPolicy ρ α) (s : PolicySet ρ) : SetCall α → Except Abort (PolicySet ρ)
  | .insert tag blockType tlb input => do
    let (i,state) ← P.getReplacementIndex s input
    if s.associativity ≤ i then .error .assertion
    else .ok {s with state,infos:=Function.update s.infos i (newBlock tag blockType tlb)}
  | .access tag =>
    match s.find tag with
    | some i => do
      let state ← P.updateReplacementIndex s i
      .ok {s with state}
    | none => .ok s
  | .setCState tag cstate => .ok (s.changeBlock tag fun b => {b with cstate})
  | .setBlockType tag blockType => .ok (s.changeBlock tag fun b => {b with blockType})
  | .invalidate tag => .ok (s.changeBlock tag CacheBlockInfo.invalidate)
  | .setActiveWays ways => .ok {s with activeWays:=min (max ways 1) s.associativity}

namespace PolicySet

variable {s s' : PolicySet ρ} {n : ℕ}

theorem isValidReplacement_iff {i : ℕ} : s.isValidReplacement i=true ↔
    i<s.activeWays ∧ (s.infos i).cstate ≠ .sharedUpgrading := by
  rw [isValidReplacement,CacheSet.isValidReplacement,Bool.and_eq_true,decide_eq_true_iff,bne_iff_ne]
  rfl

theorem firstInvalid_some {i : ℕ} (h : s.firstInvalid=some i) : i<s.activeWays ∧ (s.infos i).isValid=false := by
  refine ⟨CacheSet.firstInvalid_lt h,?_⟩
  have hfound := List.find?_some h
  simpa [blocks] using hfound

theorem firstInvalid_none (h : s.firstInvalid=none) {i : ℕ} (hi : i<s.activeWays) :
    (s.infos i).isValid=true := by
  have hnot := List.find?_eq_none.mp h i (List.mem_range.mpr hi)
  simpa [blocks] using hnot

theorem not_unused (h : s.firstInvalid=none) : ¬ ∃i<s.activeWays,(s.infos i).isValid=false := by
  rintro ⟨i,hi,hunused⟩
  rw [firstInvalid_none h hi] at hunused
  cases hunused

theorem firstInvalid_eq_none (h : ∀i<s.activeWays,(s.infos i).isValid=true) : s.firstInvalid=none := by
  cases hfirst : s.firstInvalid with
  | none => rfl
  | some i =>
    obtain ⟨hi,hunused⟩:=firstInvalid_some hfirst
    rw [h i hi] at hunused
    cases hunused

theorem find_some {tag : UInt64} {i : ℕ} (h : s.find tag=some i) :
    i<s.associativity ∧ (s.infos i).tag=tag ∧ tag≠CacheBlockInfo.noTag := by
  rw [find] at h
  split_ifs at h with htag
  refine ⟨CacheSet.findBelow_lt h,?_,htag⟩
  have hbelow : ∀n,s.blocks.findBelow tag n=some i → (s.infos i).tag=tag := by
    intro n hn
    induction n with
    | zero => cases hn
    | succ n ih =>
      rw [CacheSet.findBelow] at hn
      split_ifs at hn with hhit
      · cases hn
        exact hhit
      · exact ih hn
  exact hbelow _ h

/-- The set has `n` ways, at least one of them switched on if there is any, and an unused way is
not in the middle of an upgrade. -/
structure Tidy (n : ℕ) (s : PolicySet ρ) : Prop where
  associativity_eq : s.associativity=n
  active_le : s.activeWays≤n
  active_pos : 0<n → 0<s.activeWays
  unused : ∀i,(s.infos i).isValid=false → (s.infos i).cstate ≠ .sharedUpgrading

theorem tidy_new (n : ℕ) (state : ρ) : Tidy n (new n state) :=
  ⟨rfl,le_rfl,id,fun _ _ => by simp [new,CacheBlockInfo.new]⟩

theorem Tidy.lt (h : s.Tidy n) {i : ℕ} (hi : s.isValidReplacement i=true) : i<n :=
  (isValidReplacement_iff.mp hi).1.trans_le h.active_le

theorem Tidy.unused_isValidReplacement (h : s.Tidy n) {i : ℕ} (hi : i<s.activeWays)
    (hv : (s.infos i).isValid=false) : s.isValidReplacement i=true :=
  isValidReplacement_iff.mpr ⟨hi,h.unused i hv⟩

theorem Tidy.setBlock (h : s.Tidy n) (state : ρ) (i : ℕ) {b : CacheBlockInfo}
    (hb : b.isValid=false → b.cstate ≠ .sharedUpgrading) :
    Tidy n {s with state,infos:=Function.update s.infos i b} := by
  refine ⟨h.associativity_eq,h.active_le,h.active_pos,fun j hj => ?_⟩
  by_cases hji : j=i
  · subst hji
    simp only [Function.update_self] at hj ⊢
    exact hb hj
  · simp only [Function.update_of_ne hji] at hj ⊢
    exact h.unused j hj

theorem Tidy.changeBlock (h : s.Tidy n) (tag : UInt64) {f : CacheBlockInfo → CacheBlockInfo}
    (hf : ∀b,(f b).tag=b.tag ∨ (f b).cstate ≠ .sharedUpgrading) : (s.changeBlock tag f).Tidy n := by
  rw [PolicySet.changeBlock]
  cases hfind : s.find tag with
  | none => exact h
  | some i =>
    obtain ⟨-,htag,hne⟩:=find_some hfind
    apply h.setBlock s.state i
    intro hunused
    rcases hf (s.infos i) with hsame | hstate
    · rw [CacheBlockInfo.isValid,hsame,htag] at hunused
      simp [hne] at hunused
    · exact hstate

theorem changeBlock_state (tag : UInt64) (f : CacheBlockInfo → CacheBlockInfo) :
    (s.changeBlock tag f).state=s.state := by
  rw [changeBlock]
  cases s.find tag with
  | none => rfl
  | some i => rfl

end PolicySet

namespace SetPolicy
open PolicySet

variable {P : SetPolicy ρ α} {J : ρ → Prop} {s s' : PolicySet ρ} {n : ℕ}

section

variable (hget : ∀s input i state,
  s.Tidy n → J s.state → P.getReplacementIndex s input = .ok (i,state) → i<n → J state)
  (hupdate : ∀s i state,s.Tidy n → J s.state → i<n → P.updateReplacementIndex s i = .ok state → J state)
include hget hupdate

theorem step_keeps (h : s.Tidy n ∧ J s.state) {call : SetCall α} (he : P.step s call = .ok s') :
    s'.Tidy n ∧ J s'.state := by
  obtain ⟨htidy,hJ⟩:=h
  cases call with
  | insert tag blockType tlb input =>
    obtain ⟨⟨i,state⟩,hi,he⟩:=bind_ok he
    dsimp only at he
    split_ifs at he with hlt
    cases he
    rw [htidy.associativity_eq,not_le] at hlt
    refine ⟨htidy.setBlock state i fun _ => ?_,hget s input i state htidy hJ hi hlt⟩
    cases tlb with
    | true => simp [newBlock]
    | false => simp [newBlock]
  | access tag =>
    simp only [SetPolicy.step] at he
    cases hfind : s.find tag with
    | none =>
      rw [hfind] at he
      cases he
      exact ⟨htidy,hJ⟩
    | some i =>
      rw [hfind] at he
      obtain ⟨state,hstate,he⟩:=bind_ok he
      cases he
      have hi := (find_some hfind).1
      rw [htidy.associativity_eq] at hi
      exact ⟨⟨htidy.associativity_eq,htidy.active_le,htidy.active_pos,htidy.unused⟩,
        hupdate s i state htidy hJ hi hstate⟩
  | setCState tag cstate =>
    cases he
    rw [changeBlock_state]
    exact ⟨htidy.changeBlock tag fun b => Or.inl rfl,hJ⟩
  | setBlockType tag blockType =>
    cases he
    rw [changeBlock_state]
    exact ⟨htidy.changeBlock tag fun b => Or.inl rfl,hJ⟩
  | invalidate tag =>
    cases he
    rw [changeBlock_state]
    exact ⟨htidy.changeBlock tag fun b => Or.inr (by simp [CacheBlockInfo.invalidate]),hJ⟩
  | setActiveWays ways =>
    cases he
    refine ⟨⟨htidy.associativity_eq,?_,?_,htidy.unused⟩,hJ⟩
    · rw [← htidy.associativity_eq]
      exact min_le_right _ _
    · intro hn
      rw [← htidy.associativity_eq] at hn
      exact lt_min (lt_max_of_lt_right Nat.one_pos) hn

theorem run_keeps {state : ρ} (hinit : J state) {calls : List (SetCall α)}
    (he : run P.step (.new n state) calls = .ok s) : s.Tidy n ∧ J s.state := by
  have hstep : ∀ (s : PolicySet ρ) (call : SetCall α) (s' : PolicySet ρ),s.Tidy n ∧ J s.state →
      True → P.step s call = .ok s' → s'.Tidy n ∧ J s'.state :=
    fun _ _ _ h _ hcall => step_keeps hget hupdate h hcall
  exact run_invariant hstep ⟨tidy_new n state,hinit⟩
    (along_of_forall (fun _ _ => trivial) _ calls) he

end

theorem run_tidy {state : ρ} {calls : List (SetCall α)} (he : run P.step (.new n state) calls = .ok s) :
    s.Tidy n :=
  (run_keeps (J:=fun _ => True) (fun _ _ _ _ _ _ _ _ => trivial)
    (fun _ _ _ _ _ _ _ => trivial) trivial he).1

end SetPolicy

end Sniper.WayGating
