import Mathlib

/-!
# Machine values and the ways a run of the simulator can stop

The simulator is built without `NDEBUG`, so a failing assertion ends the process. Operations that
C++ leaves undefined are modelled as stopping too.
-/

namespace Sniper

/-- Why an operation has no successor state. -/
inductive Abort where
  /-- an `assert` or `LOG_ASSERT_ERROR` failed -/
  | assertion
  /-- the assertion of `checkFor2MBAllocation` that the region is not yet promoted failed -/
  | alreadyPromoted
  /-- the assertion of `allocate` that some reserved region can be demoted failed -/
  | nothingToDemote
  /-- a vector is read past its end, or `back()` is taken of an empty vector -/
  | outOfBounds
  /-- a null pointer is dereferenced -/
  | nullDereference
  /-- the pointer member of a union is read while the union holds a page translation -/
  | translationFollowed
  /-- the translation member of a union is read while the union holds a pointer -/
  | pointerAsTranslation
  /-- a shift by a negative count or by at least the width of the operand -/
  | shiftTooWide
  /-- `log2` of zero converted to an integer -/
  | logOfZero
  /-- the loop did not finish within the iterations granted to it -/
  | unfinished
  deriving DecidableEq,Repr

/-- `static_cast<UInt64>` of an `int`. -/
def toWord (x : Int32) : UInt64 := x.toInt64.toUInt64

theorem toWord_toNat (x : Int32) :
    ((toWord x).toNat : ℤ)=if x.toInt<0 then 2^64+x.toInt else x.toInt := by
  have hlt : (toWord x).toNat<2^64 := (toWord x).toNat_lt
  have hcond : x.toInt=if 2*(toWord x).toNat<2^64 then ((toWord x).toNat : ℤ)
      else (toWord x).toNat - ((2^64 : ℕ) : ℤ) :=
    (Int32.toInt_toInt64 x).symm.trans (BitVec.toInt_eq_toNat_cond x.toInt64.toBitVec)
  split_ifs at hcond ⊢ <;> omega

/-- `static_cast<UInt64>(-1)`, the value the allocators return for "no page". -/
def invalidWord : ℕ := 2^64 - 1

/-- `ceil(log2(n))` for a positive page count. The double computation of the source gives this
value for every count below about `2 ^ 49`; from there on the logarithm of a count just above a
power of two is rounded to a whole number. -/
def ceilLog2 (n : ℕ) : ℕ := Nat.clog 2 n

@[simp] theorem ceilLog2_two_pow (k : ℕ) : ceilLog2 (2^k)=k := Nat.clog_pow 2 k (by decide)

end Sniper
