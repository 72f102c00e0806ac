import OsExercises.Library.Galois
import Mathlib.Dynamics.PeriodicPts.Lemmas

/-!
# The period of a Galois register

A step of the register is linear over the xor of states, and the states that it reaches from the top
bit generate all states. So a linear map that commutes with the step is determined by its value at the
top bit, and composing two such maps is a product of these values. That makes a power of the step as
cheap to compute as its exponent is short, and turns statements about all states into computations
with one.
-/

namespace OsExercises

open Function

variable {w : Nat} {polynomial : BitVec w}

theorem galoisStep_xor (polynomial left right : BitVec w) :
    galoisStep polynomial (left ^^^ right) =
      galoisStep polynomial left ^^^ galoisStep polynomial right := by
  rw [galoisStep_eq, galoisStep_eq, galoisStep_eq, BitVec.getLsbD_xor]
  ext i hi
  cases left.getLsbD 0 <;> cases right.getLsbD 0 <;> simp [Bool.xor_comm, Bool.xor_left_comm]

/-- A map that respects the xor of states and commutes with the step. -/
structure GaloisLinear (polynomial : BitVec w) (f : BitVec w → BitVec w) : Prop where
  xor : ∀ left right, f (left ^^^ right) = f left ^^^ f right
  step : ∀ rnd, f (galoisStep polynomial rnd) = galoisStep polynomial (f rnd)

namespace GaloisLinear

variable {f g : BitVec w → BitVec w}

theorem zero (h : GaloisLinear polynomial f) : f 0 = 0 := by
  have hxor := h.xor 0 0
  rw [BitVec.xor_self, BitVec.xor_self] at hxor
  exact hxor

theorem comp (hf : GaloisLinear polynomial f) (hg : GaloisLinear polynomial g) :
    GaloisLinear polynomial (f ∘ g) where
  xor left right := by rw [comp_apply, hg.xor, hf.xor, comp_apply, comp_apply]
  step rnd := by rw [comp_apply, hg.step, hf.step, comp_apply]

theorem add (hf : GaloisLinear polynomial f) (hg : GaloisLinear polynomial g) :
    GaloisLinear polynomial fun rnd => f rnd ^^^ g rnd where
  xor left right := by
    rw [hf.xor, hg.xor]
    ac_rfl
  step rnd := by rw [hf.step, hg.step, galoisStep_xor]

theorem id : GaloisLinear polynomial fun rnd => rnd where
  xor _ _ := rfl
  step _ := rfl

theorem iterate (polynomial : BitVec w) (n : Nat) :
    GaloisLinear polynomial (galoisStep polynomial)^[n] where
  xor left right := by
    induction n with
    | zero => rfl
    | succ n ih => rw [iterate_succ_apply', iterate_succ_apply', iterate_succ_apply', ih, galoisStep_xor]
  step rnd := by rw [← iterate_succ_apply, ← iterate_succ_apply' (galoisStep polynomial)]

end GaloisLinear

/-! ### Products -/

/-- The sum of the states that `left` steps to, one for each of the `n` low bits of `right` from the
highest on. -/
def galoisMul (polynomial : BitVec w) : Nat → BitVec w → BitVec w → BitVec w
  | 0, _, _ => 0
  | n + 1, left, right =>
      (if right.getLsbD n then left else 0) ^^^
        galoisMul polynomial n (galoisStep polynomial left) right

/-- The top bit. -/
def galoisUnit (w : Nat) : BitVec w := BitVec.twoPow w (w - 1)

theorem galoisStep_twoPow {n : Nat} (hn : n + 1 < w) :
    galoisStep polynomial (BitVec.twoPow w (n + 1)) = BitVec.twoPow w n := by
  have hlow : (BitVec.twoPow w (n + 1)).getLsbD 0 = false := by
    simp [BitVec.getLsbD_twoPow]
  rw [galoisStep_eq, hlow]
  have hindex : ∀ i, (n + 1 = 1 + i) = (n = i) := by
    intro i
    rw [Nat.add_comm 1 i]
    exact propext Nat.add_right_cancel_iff
  apply BitVec.eq_of_getLsbD_eq
  intro i hi
  simp [BitVec.getLsbD_twoPow, BitVec.getLsbD_ushiftRight, hindex, hn, Nat.lt_of_succ_lt hn]

/-- Until it loses a bit, the register moves its top bit down. -/
theorem iterate_galoisUnit {n : Nat} (hn : n < w) :
    (galoisStep polynomial)^[n] (galoisUnit w) = BitVec.twoPow w (w - 1 - n) := by
  induction n with
  | zero => rfl
  | succ n ih =>
      rw [iterate_succ_apply', ih (by omega), show w - 1 - n = (w - 1 - (n + 1)) + 1 by omega]
      exact galoisStep_twoPow (by omega)

/-- The sum of the states of the low bits. -/
theorem getLsbD_galoisMul (polynomial : BitVec w) {n k : Nat} (hw : n + k = w) (right : BitVec w)
    (i : Nat) :
    (galoisMul polynomial n ((galoisStep polynomial)^[k] (galoisUnit w)) right).getLsbD i =
      (decide (i < n) && right.getLsbD i) := by
  induction n generalizing k with
  | zero => simp [galoisMul]
  | succ n ih =>
      rw [galoisMul, ← iterate_succ_apply' (galoisStep polynomial), BitVec.getLsbD_xor, ih (by omega),
        iterate_galoisUnit (by omega), show w - 1 - k = n by omega]
      rcases Nat.lt_trichotomy i n with hlt | rfl | hgt
      · have hother : (if right.getLsbD n then BitVec.twoPow w n else 0).getLsbD i = false := by
          split
          · simp [BitVec.getLsbD_twoPow, hlt.ne']
          · exact BitVec.getLsbD_zero
        rw [hother, Bool.false_xor, decide_eq_true hlt, decide_eq_true (Nat.lt_succ_of_lt hlt)]
      · have hi : i < w := by omega
        cases hbit : right.getLsbD i with
        | true => simp [hi]
        | false => simp
      · have hother : (if right.getLsbD n then BitVec.twoPow w n else 0).getLsbD i = false := by
          split
          · simp [BitVec.getLsbD_twoPow, hgt.ne]
          · exact BitVec.getLsbD_zero
        rw [hother, decide_eq_false (Nat.lt_asymm hgt), decide_eq_false (by omega)]
        rfl

theorem galoisMul_unit (polynomial right : BitVec w) :
    galoisMul polynomial w (galoisUnit w) right = right := by
  apply BitVec.eq_of_getLsbD_eq
  intro i hi
  have hbit := getLsbD_galoisMul polynomial (k := 0) rfl right i
  rwa [decide_eq_true hi, Bool.true_and] at hbit

namespace GaloisLinear

variable {f : BitVec w → BitVec w}

theorem map_galoisMul (h : GaloisLinear polynomial f) (n : Nat) (left right : BitVec w) :
    f (galoisMul polynomial n left right) = galoisMul polynomial n (f left) right := by
  induction n generalizing left with
  | zero => exact h.zero
  | succ n ih =>
      rw [galoisMul, galoisMul, h.xor, ih, h.step]
      congr 1
      split
      · rfl
      · exact h.zero

/-- A linear map is the product with its value at the top bit. -/
theorem eq_galoisMul (h : GaloisLinear polynomial f) (rnd : BitVec w) :
    f rnd = galoisMul polynomial w (f (galoisUnit w)) rnd := by
  rw [← h.map_galoisMul, galoisMul_unit]

theorem galoisMul (polynomial : BitVec w) (n : Nat) (right : BitVec w) :
    GaloisLinear polynomial fun left => galoisMul polynomial n left right := by
  constructor
  · intro left left'
    induction n generalizing left left' with
    | zero => exact BitVec.xor_self.symm
    | succ n ih =>
        simp only [OsExercises.galoisMul]
        rw [galoisStep_xor, ih]
        split
        · ac_rfl
        · simp
  · intro left
    induction n generalizing left with
    | zero => exact (galoisStep_zero polynomial).symm
    | succ n ih =>
        simp only [OsExercises.galoisMul]
        rw [galoisStep_xor, ih]
        split
        · rfl
        · rw [galoisStep_zero]

/-- A map with an inverse at the top bit takes no other state to zero. -/
theorem eq_zero_of_inverse (h : GaloisLinear polynomial f) {inverse : BitVec w}
    (hinverse : OsExercises.galoisMul polynomial w (f (galoisUnit w)) inverse = galoisUnit w)
    {rnd : BitVec w} (hrnd : f rnd = 0) : rnd = 0 := by
  have hcomp := (GaloisLinear.galoisMul polynomial w inverse).comp h
  calc rnd
    _ = OsExercises.galoisMul polynomial w (galoisUnit w) rnd := (galoisMul_unit _ _).symm
    _ = OsExercises.galoisMul polynomial w (f rnd) inverse := by
        have heq := hcomp.eq_galoisMul rnd
        rw [comp_apply, comp_apply, hinverse] at heq
        exact heq.symm
    _ = 0 := by
        rw [hrnd]
        exact (GaloisLinear.galoisMul polynomial w inverse).zero

end GaloisLinear

/-! ### Powers -/

/-- The state that `m` steps lead to from the top bit, for an exponent of `n` bits. -/
def galoisPower (polynomial : BitVec w) : Nat → Nat → BitVec w
  | 0, _ => galoisUnit w
  | n + 1, m =>
      let half := galoisPower polynomial n (m / 2)
      let square := galoisMul polynomial w half half
      if m % 2 = 0 then square else galoisStep polynomial square

theorem galoisPower_eq {n m : Nat} (hm : m < 2 ^ n) :
    galoisPower polynomial n m = (galoisStep polynomial)^[m] (galoisUnit w) := by
  induction n generalizing m with
  | zero =>
      rw [Nat.lt_one_iff.mp hm]
      rfl
  | succ n ih =>
      have hsquare : galoisMul polynomial w (galoisPower polynomial n (m / 2))
          (galoisPower polynomial n (m / 2)) =
          (galoisStep polynomial)^[m / 2 + m / 2] (galoisUnit w) := by
        rw [ih (by omega), iterate_add_apply]
        exact ((GaloisLinear.iterate polynomial (m / 2)).eq_galoisMul _).symm
      rw [galoisPower]
      simp only [hsquare]
      split
      · rw [show m / 2 + m / 2 = m by omega]
      · rw [← iterate_succ_apply' (galoisStep polynomial), show (m / 2 + m / 2).succ = m by omega]

/-- Steps that lead back to the top bit lead back to every state. -/
theorem iterate_eq_self {n m : Nat} (hm : m < 2 ^ n)
    (hpower : galoisPower polynomial n m = galoisUnit w) (rnd : BitVec w) :
    (galoisStep polynomial)^[m] rnd = rnd := by
  rw [galoisPower_eq hm] at hpower
  rw [(GaloisLinear.iterate polynomial m).eq_galoisMul, hpower, galoisMul_unit]

/-- Steps whose difference to standing still has an inverse lead from no other state back to it. -/
theorem iterate_ne_self {n m : Nat} (hm : m < 2 ^ n) {inverse : BitVec w}
    (hinverse : galoisMul polynomial w (galoisPower polynomial n m ^^^ galoisUnit w) inverse =
      galoisUnit w) {rnd : BitVec w} (hrnd : rnd ≠ 0) : (galoisStep polynomial)^[m] rnd ≠ rnd := by
  intro hself
  rw [galoisPower_eq hm] at hinverse
  apply hrnd
  apply ((GaloisLinear.iterate polynomial m).add GaloisLinear.id).eq_zero_of_inverse hinverse
  rw [hself]
  exact BitVec.xor_self

/-- A period all of whose parts by a prime are no periods is the shortest one. -/
theorem minimalPeriod_eq_of_prime_div {α : Type} {f : α → α} {x : α} {n : Nat}
    (hperiod : IsPeriodicPt f n x)
    (hprime : ∀ p, p.Prime → p ∣ n → ¬ IsPeriodicPt f (n / p) x) : minimalPeriod f x = n := by
  obtain ⟨k, hk⟩ := hperiod.minimalPeriod_dvd
  by_contra hne
  have hk_one : k ≠ 1 := by
    rintro rfl
    rw [Nat.mul_one] at hk
    exact hne hk.symm
  obtain ⟨p, hp, q, rfl⟩ := Nat.exists_prime_and_dvd hk_one
  have hdiv : n / p = minimalPeriod f x * q := by
    rw [hk, show minimalPeriod f x * (p * q) = p * (minimalPeriod f x * q) by ac_rfl]
    exact Nat.mul_div_cancel_left _ hp.pos
  apply hprime p hp
  · exact ⟨minimalPeriod f x * q, by rw [hk]; ac_rfl⟩
  · rw [hdiv]
    exact (isPeriodicPt_minimalPeriod f x).mul_const q

end OsExercises
