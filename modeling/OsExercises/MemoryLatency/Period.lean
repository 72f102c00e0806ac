import OsExercises.MemoryLatency.Measure
import OsExercises.Library.GaloisPeriod
import Mathlib.Data.Int.CardIntervalMod
import Mathlib.Data.List.Prime
import Mathlib.Tactic.NormNum.Prime

/-!
# The period of the random walk

The polynomial of the source is primitive: from any state but zero, `rnd` comes back after `2 ^ 64 - 1`
steps and not before. A measurement makes at most as many iterations, so it never uses a value of `rnd`
twice. The sequential walk goes through the array in rounds.
-/

namespace OsExercises.MemoryLatency

open Function

/-! ### The random walk -/

/-- The maximal number of states without zero. -/
def fullPeriod : Nat := 2 ^ 64 - 1

theorem iterate_toBitVec (n : Nat) (rnd : UInt64) :
    (advance^[n] rnd).toBitVec = (galoisStep GALOIS_POLYNOMIAL.toBitVec)^[n] rnd.toBitVec := by
  induction n with
  | zero => rfl
  | succ n ih => rw [iterate_succ_apply', iterate_succ_apply', toBitVec_advance, ih]

theorem isPeriodicPt_fullPeriod (rnd : UInt64) : IsPeriodicPt advance fullPeriod rnd := by
  have hpower : galoisPower GALOIS_POLYNOMIAL.toBitVec 64 fullPeriod = galoisUnit 64 := by
    decide +kernel
  apply UInt64.toBitVec_inj.mp
  rw [iterate_toBitVec]
  exact iterate_eq_self (by decide) hpower rnd.toBitVec

/-- The prime factors of the period, each with an inverse for the difference that the steps of the
period divided by it make to standing still. -/
def inverses : List (Nat × BitVec 64) :=
  [(3, 0x403b51e4f96c9398), (5, 0xe9d4ab12928b121d), (17, 0x3adf38bdf4a0dc80),
    (257, 0x7f7f92c958475337), (641, 0xdbdab80550322efa), (65537, 0xa3038e602c2dda40),
    (6700417, 0xd1140584f6dad27d)]

theorem prod_inverses : (inverses.map Prod.fst).prod = fullPeriod := by decide

theorem prime_of_mem_inverses {q : Nat} (hq : q ∈ inverses.map Prod.fst) : q.Prime := by
  simp only [inverses, List.map_cons, List.map_nil, List.mem_cons, List.not_mem_nil, or_false] at hq
  rcases hq with rfl | rfl | rfl | rfl | rfl | rfl | rfl
  all_goals norm_num

theorem galoisMul_inverses : ∀ entry ∈ inverses,
    galoisMul GALOIS_POLYNOMIAL.toBitVec 64
      (galoisPower GALOIS_POLYNOMIAL.toBitVec ((fullPeriod / entry.1).log2 + 1)
        (fullPeriod / entry.1) ^^^ galoisUnit 64) entry.2 = galoisUnit 64 := by
  decide +kernel

/-- No part of the period by a prime is a period. -/
theorem not_isPeriodicPt_div {p : Nat} (hp : p.Prime) (hdvd : p ∣ fullPeriod) {rnd : UInt64}
    (hrnd : rnd ≠ 0) : ¬ IsPeriodicPt advance (fullPeriod / p) rnd := by
  intro hperiod
  have hbits : rnd.toBitVec ≠ 0 := fun heq => hrnd (UInt64.toBitVec_inj.mp heq)
  rw [← prod_inverses] at hdvd
  have hmem := mem_list_primes_of_dvd_prod hp.prime (fun q hq => (prime_of_mem_inverses hq).prime) hdvd
  obtain ⟨entry, hentry, rfl⟩ := List.mem_map.mp hmem
  apply iterate_ne_self Nat.lt_log2_self (galoisMul_inverses entry hentry) hbits
  rw [← iterate_toBitVec]
  exact congrArg UInt64.toBitVec hperiod

theorem minimalPeriod_advance {rnd : UInt64} (hrnd : rnd ≠ 0) :
    minimalPeriod advance rnd = fullPeriod := by
  apply minimalPeriod_eq_of_prime_div (isPeriodicPt_fullPeriod rnd)
  intro p hp hdvd
  exact not_isPeriodicPt_div hp hdvd hrnd

/-! ### The walks of a measurement -/

variable {index : UInt64 → UInt64 → UInt64} {arrSize : UInt64} {arr : Array UInt64}

theorem map_rnd_walk (remaining : Nat) (i rnd : UInt64) :
    (walk index remaining i rnd).map Iteration.rnd =
      (List.range remaining).map fun n => advance^[n] rnd := by
  induction remaining generalizing i rnd with
  | zero => rfl
  | succ remaining ih =>
      rw [walk, List.map_cons, ih, List.range_succ_eq_map, List.map_cons, List.map_map]
      rfl

theorem nodup_rnd_walk {remaining : Nat} (hremaining : remaining ≤ fullPeriod) (i : UInt64)
    {rnd : UInt64} (hrnd : rnd ≠ 0) : ((walk index remaining i rnd).map Iteration.rnd).Nodup := by
  rw [map_rnd_walk]
  apply List.nodup_range.map_on
  intro n hn m hm heq
  have hinjective := iterate_injOn_Iio_minimalPeriod (f := advance) (x := rnd)
  rw [minimalPeriod_advance hrnd] at hinjective
  exact hinjective ((List.mem_range.mp hn).trans_le hremaining)
    ((List.mem_range.mp hm).trans_le hremaining) heq

/-- Every random number of a measurement is new, and the last one is the first again only after all
`2 ^ 64 - 1` of them. -/
theorem random_walk_distinct (harrSize : arrSize ≠ 0) (harr : arr.size = arrSize.toNat) (clock : Clock)
    (repeats : UInt64) :
    (∀ rnd, rnd ≠ 0 → minimalPeriod advance rnd = 2 ^ 64 - 1) ∧
    ∃ random, measureLatency clock repeats arr arrSize 0 = some random ∧
      (random.accessWalk.map Iteration.rnd).Nodup ∧
      (random.baselineWalk.map Iteration.rnd).Nodup ∧
      (random.measurement.rnd = 12345 ↔ random.accessWalk.length = 2 ^ 64 - 1) := by
  have hcount : (atLeastOnce repeats arrSize).toNat ≤ fullPeriod :=
    Nat.le_sub_one_of_lt (atLeastOnce repeats arrSize).toNat_lt
  have hpositive : 0 < (atLeastOnce repeats arrSize).toNat := by
    rw [toNat_atLeastOnce]
    have hpos := UInt64.pos_iff_ne_zero.mpr harrSize
    rw [UInt64.lt_iff_toNat_lt] at hpos
    exact hpos.trans_le (Nat.le_max_right _ _)
  have hwalk : ∀ index : UInt64 → UInt64 → UInt64,
      ((walk index (atLeastOnce repeats arrSize).toNat 0 12345).map Iteration.rnd).Nodup :=
    fun _ => nodup_rnd_walk hcount 0 (by decide)
  refine ⟨fun rnd hrnd => minimalPeriod_advance hrnd, _, measure_zero harrSize harr clock repeats,
    hwalk _, hwalk _, ?_⟩
  rw [length_walk]
  change IsPeriodicPt advance _ 12345 ↔ _ = fullPeriod
  rw [isPeriodicPt_iff_minimalPeriod_dvd, minimalPeriod_advance (by decide)]
  constructor
  · exact fun hdvd => Nat.le_antisymm hcount (Nat.le_of_dvd hpositive hdvd)
  · exact fun heq => heq ▸ Nat.dvd_refl _

theorem random_walk_distinct_three : ∃ random,
    measureLatency ⟨⟨0, 0⟩, ⟨0, 7⟩, ⟨0, 8⟩, ⟨0, 30⟩⟩ 2 #[5, 6, 7] 3 0 = some random ∧
      (random.accessWalk.map Iteration.rnd).Nodup := by
  obtain ⟨-, random, hrandom, hnodup, -, -⟩ := random_walk_distinct (show (3 : UInt64) ≠ 0 by decide)
    (show (#[5, 6, 7] : Array UInt64).size = (3 : UInt64).toNat from rfl) ⟨⟨0, 0⟩, ⟨0, 7⟩, ⟨0, 8⟩, ⟨0, 30⟩⟩ 2
  exact ⟨random, hrandom, hnodup⟩

/-! ### The sequential walk -/

theorem map_index_walk (remaining k : Nat) (hfits : k + remaining ≤ 2 ^ 64 - 1) (rnd : UInt64) :
    ((walk (fun i _ => i % arrSize) remaining (UInt64.ofNat k) rnd).map fun iteration =>
      iteration.index.toNat) = (List.range remaining).map fun n => (k + n) % arrSize.toNat := by
  induction remaining generalizing k rnd with
  | zero => rfl
  | succ remaining ih =>
      have hindex : (UInt64.ofNat k % arrSize).toNat = k % arrSize.toNat := by
        rw [UInt64.toNat_mod, UInt64.toNat_ofNat', Nat.mod_eq_of_lt (show k < 2 ^ 64 by omega)]
      have hnext : UInt64.ofNat k + 1 = UInt64.ofNat (k + 1) := (UInt64.ofNat_add k 1).symm
      rw [walk, List.map_cons, hnext, ih (k + 1) (by omega), List.range_succ_eq_map, List.map_cons,
        List.map_map, hindex]
      congr 1
      apply List.map_congr_left
      intro n _
      simp only [comp_apply]
      rw [Nat.add_right_comm, Nat.add_assoc]

theorem count_index_walk {remaining k : Nat} (hfits : remaining ≤ 2 ^ 64 - 1)
    (hk : k < arrSize.toNat) (rnd : UInt64) :
    ((walk (fun i _ => i % arrSize) remaining 0 rnd).map fun iteration =>
      iteration.index.toNat).count k =
      remaining / arrSize.toNat + if k < remaining % arrSize.toNat then 1 else 0 := by
  have hindices := @map_index_walk arrSize remaining 0 (by omega) rnd
  have hcard := Nat.count_modEq_card remaining (show 0 < arrSize.toNat by omega) k
  rw [Nat.mod_eq_of_lt hk] at hcard
  rw [← hcard, Nat.count]
  calc ((walk (fun i _ => i % arrSize) remaining 0 rnd).map fun iteration =>
        iteration.index.toNat).count k
    _ = ((List.range remaining).map fun n => (0 + n) % arrSize.toNat).count k :=
        congrArg (List.count k) hindices
    _ = (List.range remaining).countP fun n => n ≡ k [MOD arrSize.toNat] := by
        rw [List.count, List.countP_map]
        apply List.countP_congr
        intro n _
        simp [Nat.ModEq, Nat.mod_eq_of_lt hk]

/-- Every element of the array is read, and no two of them differ in how often by more than one: the
first ones are read once more when the number of iterations is not a multiple of the size. -/
theorem sequential_walk_covers (harrSize : arrSize ≠ 0) (harr : arr.size = arrSize.toNat)
    (clock : Clock) (repeats : UInt64) :
    ∃ sequential, measureSequentialLatency clock repeats arr arrSize 0 = some sequential ∧
      ∀ k < arrSize.toNat,
        (sequential.accessWalk.map fun iteration => iteration.index.toNat).count k =
          sequential.accessWalk.length / arrSize.toNat +
            (if k < sequential.accessWalk.length % arrSize.toNat then 1 else 0) ∧
        1 ≤ (sequential.accessWalk.map fun iteration => iteration.index.toNat).count k := by
  have hcount : (atLeastOnce repeats arrSize).toNat ≤ 2 ^ 64 - 1 :=
    Nat.le_sub_one_of_lt (atLeastOnce repeats arrSize).toNat_lt
  have hle : arrSize.toNat ≤ (atLeastOnce repeats arrSize).toNat := by
    rw [toNat_atLeastOnce]
    exact Nat.le_max_right _ _
  refine ⟨_, measure_zero harrSize harr clock repeats, fun k hk => ?_⟩
  have hvisits := count_index_walk hcount hk 12345
  have hrounds : 1 ≤ (atLeastOnce repeats arrSize).toNat / arrSize.toNat :=
    Nat.div_pos hle (by omega)
  rw [length_walk]
  exact ⟨hvisits, hvisits ▸ hrounds.trans (Nat.le_add_right _ _)⟩

theorem sequential_walk_covers_three : ∃ sequential,
    measureSequentialLatency ⟨⟨0, 0⟩, ⟨0, 7⟩, ⟨0, 8⟩, ⟨0, 30⟩⟩ 7 #[5, 6, 7] 3 0 = some sequential ∧
      1 ≤ (sequential.accessWalk.map fun iteration => iteration.index.toNat).count 2 := by
  obtain ⟨sequential, hsequential, hcovers⟩ := sequential_walk_covers
    (show (3 : UInt64) ≠ 0 by decide)
    (show (#[5, 6, 7] : Array UInt64).size = (3 : UInt64).toNat from rfl)
    ⟨⟨0, 0⟩, ⟨0, 7⟩, ⟨0, 8⟩, ⟨0, 30⟩⟩ 7
  exact ⟨sequential, hsequential, (hcovers 2 (by decide)).2⟩

end OsExercises.MemoryLatency
