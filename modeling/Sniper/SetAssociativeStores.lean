import Mathlib

/-!
# Set-associative stores

A lookup scans one set from its highest way down.
-/

namespace Sniper.SetAssociativeStores

variable {ν κ : Type*}

/-- The highest of the first `n` ways whose line satisfies `p`. -/
def find (p : ν → Bool) (ways : ℕ → Option ν) : ℕ → Option (ℕ × ν)
  | 0 => none
  | n+1 =>
    match ways n with
    | some l => if p l then some (n,l) else find p ways n
    | none => find p ways n

theorem find_some {p : ν → Bool} {ways : ℕ → Option ν} {n w : ℕ} {l : ν} (h : find p ways n=some (w,l)) :
    w<n ∧ ways w=some l ∧ p l := by
  induction n with
  | zero => cases h
  | succ n ih =>
    have hlower : find p ways n=some (w,l) → w<n+1 ∧ ways w=some l ∧ p l := fun h =>
      ⟨Nat.lt_succ_of_lt (ih h).1,(ih h).2⟩
    rw [find] at h
    cases hw : ways n with
    | none => exact hlower (by simpa only [hw] using h)
    | some l' =>
      simp only [hw] at h
      split_ifs at h with hp
      · cases h
        exact ⟨Nat.lt_succ_self _,hw,hp⟩
      · exact hlower h

theorem find_none {p : ν → Bool} {ways : ℕ → Option ν} {n w : ℕ} {l : ν} (h : find p ways n=none) (hw : w<n)
    (hl : ways w=some l) : p l=false := by
  induction n with
  | zero => exact absurd hw (Nat.not_lt_zero w)
  | succ n ih =>
    rw [find] at h
    rcases Nat.lt_succ_iff_lt_or_eq.mp hw with hlt | rfl
    · refine ih ?_ hlt
      cases hn : ways n with
      | none => simpa only [hn] using h
      | some l' =>
        simp only [hn] at h
        split_ifs at h
        exact h
    · simp only [hl] at h
      split_ifs at h with hp
      exact Bool.eq_false_iff.mpr hp

def place (s : ℕ → ℕ → Option ν) (i w : ℕ) (l : ν) : ℕ → ℕ → Option ν :=
  Function.update s i (Function.update (s i) w (some l))

theorem place_cases {s : ℕ → ℕ → Option ν} {i w j v : ℕ} {l l' : ν} (h : place s i w l j v=some l') :
    (j=i ∧ v=w ∧ l'=l) ∨ (¬ (j=i ∧ v=w) ∧ s j v=some l') := by
  by_cases hj : j=i
  · subst hj
    rw [place,Function.update_self] at h
    by_cases hv : v=w
    · subst hv
      rw [Function.update_self] at h
      cases h
      exact .inl ⟨rfl,rfl,rfl⟩
    · rw [Function.update_of_ne hv] at h
      exact .inr ⟨fun hjv => hv hjv.2,h⟩
  · rw [place,Function.update_of_ne hj] at h
    exact .inr ⟨fun hjv => hj hjv.1,h⟩

/-- Every line of the first `n` ways sits in the set its key selects, and no set holds two
lines with one key. -/
structure Keyed (index : κ → ℕ) (key : ν → κ) (n : ℕ) (s : ℕ → ℕ → Option ν) : Prop where
  inSet : ∀i w l,w<n → s i w=some l → index (key l)=i
  distinct : ∀i v w l l',v<n → w<n → s i v=some l → s i w=some l' →
    key l=key l' → v=w

section Keyed

variable {index : κ → ℕ} {key : ν → κ} {n : ℕ} {s : ℕ → ℕ → Option ν}

theorem keyed_empty (index : κ → ℕ) (key : ν → κ) (n : ℕ) : Keyed index key n fun _ _ => (none : Option ν) :=
  ⟨fun _ _ _ _ h => (Option.some_ne_none _ h.symm).elim,
    fun _ _ _ _ _ _ _ h => (Option.some_ne_none _ h.symm).elim⟩

theorem Keyed.same_place (h : Keyed index key n s) {i j v w : ℕ} {l l' : ν} (hv : v<n) (hw : w<n)
    (hl : s i v=some l) (hl' : s j w=some l') (hkey : key l=key l') : i=j ∧ v=w := by
  obtain rfl : i=j := by rw [← h.inSet i v l hv hl,← h.inSet j w l' hw hl',hkey]
  exact ⟨rfl,h.distinct i v w l l' hv hw hl hl' hkey⟩

theorem Keyed.place (h : Keyed index key n s) {w : ℕ} {l : ν}
    (hother : ∀v l',v<n → v≠w → s (index (key l)) v=some l' → key l'≠key l) :
    Keyed index key n (place s (index (key l)) w l) := by
  refine ⟨fun i v l' hv hl' => ?_,fun i u v l₁ l₂ hu hv h₁ h₂ hkey => ?_⟩
  · rcases place_cases hl' with ⟨rfl,-,rfl⟩ | ⟨-,hold⟩
    · rfl
    · exact h.inSet i v l' hv hold
  · rcases place_cases h₁ with ⟨rfl,rfl,rfl⟩ | ⟨hne₁,hold₁⟩ <;>
      rcases place_cases h₂ with ⟨hi,rfl,rfl⟩ | ⟨hne₂,hold₂⟩
    · rfl
    · exact absurd hkey.symm (hother v l₂ hv (fun hvu => hne₂ ⟨rfl,hvu⟩) hold₂)
    · subst hi
      exact absurd hkey (hother u l₁ hu (fun hu => hne₁ ⟨rfl,hu⟩) hold₁)
    · exact h.distinct i u v l₁ l₂ hu hv hold₁ hold₂ hkey

end Keyed

end Sniper.SetAssociativeStores
