import Mathlib

/-!
# Digits of a number in a fixed base

Digit `j` of `n` selects the branch of a radix tree at height `j`. Two numbers take the
same branches at the heights from `k` up to `l` exactly when they agree there as a whole.
-/

namespace Sniper.RadixDigits

def digit (b j n : ℕ) : ℕ := n / b^j % b

/-- `n` and `m` have the same digits at all heights `j` with `k ≤ j < l`. -/
def Agree (b k l n m : ℕ) : Prop := ∀j,k≤j → j<l → digit b j n=digit b j m

theorem agree_succ {b k l n m : ℕ} (hk : k≤l) :
    Agree b k (l+1) n m ↔ digit b l n=digit b l m ∧ Agree b k l n m := by
  constructor
  · intro h
    exact ⟨h l hk (Nat.lt_succ_self l),fun j hkj hj => h j hkj (by omega)⟩
  · rintro ⟨hl,h⟩ j hkj hj
    rcases Nat.lt_succ_iff_lt_or_eq.mp hj with hj | rfl
    · exact h j hkj hj
    · exact hl

theorem agree_self {b k n m : ℕ} : Agree b k k n m := fun j hkj hj => by omega

/-- Agreement on a range of digits as one equation. -/
theorem agree_iff {b : ℕ} (hb : 0<b) (k d n m : ℕ) : Agree b k (k+d) n m ↔ n / b^k % b^d=m / b^k % b^d := by
  induction d with
  | zero => simp [agree_self,Nat.mod_one]
  | succ d ih =>
    have hdigit : ∀x,x / b^k / b^d % b=digit b (k+d) x := by
      intro x
      rw [digit,pow_add,Nat.div_div_eq_div_mul]
    rw [← Nat.add_assoc,agree_succ (Nat.le_add_right k d),ih,pow_succ,Nat.mod_mul,Nat.mod_mul,hdigit,hdigit]
    have hpos : 0<b^d := Nat.pow_pos hb
    constructor
    · rintro ⟨hd,hrest⟩
      rw [hd,hrest]
    · intro h
      have hn : n / b^k % b^d<b^d := Nat.mod_lt _ hpos
      have hm : m / b^k % b^d<b^d := Nat.mod_lt _ hpos
      have hmod := congrArg (· % b^d) h
      simp only [Nat.add_mul_mod_self_left,Nat.mod_eq_of_lt hn,Nat.mod_eq_of_lt hm] at hmod
      refine ⟨?_,hmod⟩
      rw [hmod] at h
      exact Nat.eq_of_mul_eq_mul_left hpos (Nat.add_left_cancel h)

end Sniper.RadixDigits
