import Mathlib.Data.BitVec

/-!
# Galois shift registers

A Galois register of any width shifts one place to the right and, when the bit it loses is set, adds
its polynomial. As long as the polynomial has its top bit, that bit tells afterwards which of the two
happened, so a step loses nothing: the register never gets from a nonzero state to zero.
-/

namespace OsExercises

variable {w : Nat} {polynomial rnd : BitVec w}

def galoisStep (polynomial rnd : BitVec w) : BitVec w :=
  (rnd >>> 1) ^^^ ((0 - (rnd &&& 1)) &&& polynomial)

@[simp]
theorem galoisStep_zero (polynomial : BitVec w) : galoisStep polynomial 0 = 0 := by
  simp [galoisStep]

theorem and_one_eq (rnd : BitVec w) : rnd &&& 1 = if rnd.getLsbD 0 then 1 else 0 := by
  ext i hi
  cases hbit : rnd.getLsbD 0 with
  | true =>
      rcases Nat.eq_zero_or_pos i with rfl | hpos
      · simp [← BitVec.getLsbD_eq_getElem, hbit]
      · simp [BitVec.getElem_and, BitVec.getElem_one, hpos.ne']
  | false =>
      rcases Nat.eq_zero_or_pos i with rfl | hpos
      · simp [← BitVec.getLsbD_eq_getElem, hbit]
      · simp [BitVec.getElem_and, BitVec.getElem_one, hpos.ne']

/-- The mask of the source is the polynomial when the lowest bit is set, and zero when it is not. -/
theorem galoisStep_eq (polynomial rnd : BitVec w) :
    galoisStep polynomial rnd = (rnd >>> 1) ^^^ (if rnd.getLsbD 0 then polynomial else 0) := by
  rw [galoisStep, and_one_eq]
  congr 1
  cases rnd.getLsbD 0 with
  | true => simp [BitVec.neg_one_eq_allOnes]
  | false => simp

/-- The top bit of the next state is the bit the shift lost. -/
theorem msb_galoisStep (hpolynomial : polynomial.msb = true) (rnd : BitVec w) :
    (galoisStep polynomial rnd).msb = rnd.getLsbD 0 := by
  have hshift : (rnd >>> 1).msb = false := by
    rw [BitVec.msb_ushiftRight]
    simp
  rw [galoisStep_eq, BitVec.msb_xor, hshift]
  cases rnd.getLsbD 0 <;> simp [hpolynomial]

theorem galoisStep_injective (hpolynomial : polynomial.msb = true) :
    Function.Injective (galoisStep polynomial) := by
  intro left right heq
  have hlow : left.getLsbD 0 = right.getLsbD 0 := by
    rw [← msb_galoisStep hpolynomial left, ← msb_galoisStep hpolynomial right, heq]
  have hshift : left >>> 1 = right >>> 1 := by
    rw [galoisStep_eq, galoisStep_eq, hlow] at heq
    exact BitVec.xor_left_inj _ |>.mp heq
  apply BitVec.eq_of_getLsbD_eq
  intro i hi
  cases i with
  | zero => exact hlow
  | succ i =>
      have hbit := congrArg (fun bits : BitVec w => bits.getLsbD i) hshift
      simpa [BitVec.getLsbD_ushiftRight, Nat.add_comm] using hbit

theorem galoisStep_ne_zero (hpolynomial : polynomial.msb = true) (hrnd : rnd ≠ 0) :
    galoisStep polynomial rnd ≠ 0 := by
  intro hzero
  apply hrnd
  apply galoisStep_injective hpolynomial
  rw [hzero, galoisStep_zero]

end OsExercises
