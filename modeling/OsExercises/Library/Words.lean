import Mathlib.Data.Nat.Bitwise
import Mathlib.Algebra.Order.Ring.Int

/-!
# Conversions between C integers

A signed 32-bit word is an `Int32`; a `uint64_t` is a natural number, reduced modulo `2 ^ 64` where
an operation can leave the range. These are the two implicit conversions between them. On the
numbers below `2 ^ 31` both are the identity, which is what every user of this file needs.
-/

namespace OsExercises

/-- `int` to `uint64_t`: negative words wrap around. -/
def asUInt64 (word : Int32) : Nat := (word.toInt % 2 ^ 64).toNat

/-- `uint64_t` to `int`: the low 32 bits, read as a signed number. -/
def asInt (value : Nat) : Int32 := Int32.ofNat value

theorem toInt_asInt {value : Nat} (hvalue : value < 2 ^ 31) : (asInt value).toInt = value :=
  Int32.toInt_ofNat_of_lt hvalue

@[simp]
theorem asUInt64_asInt {value : Nat} (hvalue : value < 2 ^ 31) : asUInt64 (asInt value) = value := by
  rw [asUInt64, toInt_asInt hvalue]
  omega

@[simp]
theorem asInt_zero : asInt 0 = 0 := rfl

theorem asInt_inj {left right : Nat} (hleft : left < 2 ^ 31) (hright : right < 2 ^ 31) :
    asInt left = asInt right ↔ left = right := by
  rw [← Int32.toInt_inj, toInt_asInt hleft, toInt_asInt hright]
  omega

theorem asInt_eq_zero_iff {value : Nat} (hvalue : value < 2 ^ 31) : asInt value = 0 ↔ value = 0 := by
  rw [← Int32.toInt_inj, toInt_asInt hvalue, Int32.toInt_zero]
  omega

theorem asInt_lt_asInt_iff {left right : Nat} (hleft : left < 2 ^ 31) (hright : right < 2 ^ 31) :
    asInt left < asInt right ↔ left < right := by
  rw [Int32.lt_iff_toInt_lt, toInt_asInt hleft, toInt_asInt hright]
  omega

theorem asInt_nonneg {value : Nat} (hvalue : value < 2 ^ 31) : 0 ≤ asInt value := by
  rw [Int32.le_iff_toInt_le, toInt_asInt hvalue]
  exact Int.natCast_nonneg value

/-- A word whose conversion to `uint64_t` is small is the conversion of that number. -/
theorem eq_asInt_of_asUInt64_eq {word : Int32} {value : Nat} (hvalue : value < 2 ^ 31)
    (heq : asUInt64 word = value) : word = asInt value := by
  have hlower := Int32.le_toInt word
  have hupper := Int32.toInt_lt word
  rw [← Int32.toInt_inj, toInt_asInt hvalue]
  unfold asUInt64 at heq
  omega

end OsExercises
