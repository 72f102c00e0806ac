import Mathlib.Data.Rat.Defs
import OsExercises.Library.Galois

/-!
# The measured loops

`measure_latency` and `measure_sequential_latency` time a loop that computes indices and then the same
loop with a memory access in it. They differ in the index only. Words of 64 bits are `UInt64`, as in
the source; a time per iteration is the exact quotient of which the source's `double` is the rounding.
-/

namespace OsExercises.MemoryLatency

def GALOIS_POLYNOMIAL : UInt64 :=
  ((1 : UInt64) <<< 63) ||| ((1 : UInt64) <<< 62) ||| ((1 : UInt64) <<< 60) ||| ((1 : UInt64) <<< 59)

structure Timespec where
  tvSec : UInt64
  tvNsec : UInt64

def nanosectime (t : Timespec) : UInt64 := t.tvSec * 1000000000 + t.tvNsec

structure Measurement where
  baseline : Rat
  accessTime : Rat
  rnd : UInt64

/-- What the four calls of `timespec_get` in one measurement answer. -/
structure Clock where
  t0 : Timespec
  t1 : Timespec
  t2 : Timespec
  t3 : Timespec

/-- The values of `rnd` and `index` in one iteration of a loop, once the index is computed. -/
structure Iteration where
  rnd : UInt64
  index : UInt64
  deriving DecidableEq

/-- `rnd = (rnd >> 1) ^ ((0-(rnd & 1)) & GALOIS_POLYNOMIAL)`. -/
def advance (rnd : UInt64) : UInt64 := (rnd >>> 1) ^^^ ((0 - (rnd &&& 1)) &&& GALOIS_POLYNOMIAL)

/-- A remainder, where division by zero is an error. -/
def modulo (dividend divisor : UInt64) : Option UInt64 :=
  if divisor = 0 then none else some (dividend % divisor)

/-- The loop over `i` with `remaining` iterations to go. The index comes from `indexOf i rnd`, and
`operand index` is what the iteration masks with `zero`. It answers the iterations it made and the
last `rnd`, or `none` when an iteration does something undefined. -/
def loop (indexOf : UInt64 → UInt64 → Option UInt64) (operand : UInt64 → Option UInt64)
    (zero : UInt64) : (remaining : Nat) → (i rnd : UInt64) → Option (List Iteration × UInt64)
  | 0, _, rnd => some ([], rnd)
  | remaining + 1, i, rnd => do
      let index ← indexOf i rnd
      let value ← operand index
      let (later, last) ← loop indexOf operand zero remaining (i + 1)
        (advance (rnd ^^^ (value &&& zero)))
      return (⟨rnd, index⟩ :: later, last)

/-- A measurement with the iterations of its two loops, which the source does not keep. -/
structure Measured where
  measurement : Measurement
  baselineWalk : List Iteration
  accessWalk : List Iteration

def perCycle (start stop : Timespec) (repeats : UInt64) : Rat :=
  (nanosectime stop - nanosectime start).toNat / repeats.toNat

/-- `arr[index]`, which is an error outside of the array. -/
def readElement (arr : Array UInt64) (index : UInt64) : Option UInt64 := arr[index.toNat]?

/-- `repeat = arr_size > repeat ? arr_size:repeat`. -/
def atLeastOnce (repeats arrSize : UInt64) : UInt64 :=
  if arrSize > repeats then arrSize else repeats

/-- The common text of the two measuring functions. -/
def measure (indexOf : UInt64 → UInt64 → Option UInt64) (clock : Clock) (repeats : UInt64)
    (arr : Array UInt64) (arrSize zero : UInt64) : Option Measured := do
  let repeats := atLeastOnce repeats arrSize
  let (baselineWalk, rnd) ← loop indexOf some zero repeats.toNat 0 12345
  let (accessWalk, rnd) ← loop indexOf (readElement arr) zero repeats.toNat 0
    ((rnd &&& zero) ^^^ 12345)
  return {
    measurement := {
      baseline := perCycle clock.t0 clock.t1 repeats
      accessTime := perCycle clock.t2 clock.t3 repeats
      rnd := rnd }
    baselineWalk := baselineWalk
    accessWalk := accessWalk }

def measureLatency (clock : Clock) (repeats : UInt64) (arr : Array UInt64) (arrSize zero : UInt64) :
    Option Measured :=
  measure (fun _ rnd => modulo rnd arrSize) clock repeats arr arrSize zero

def measureSequentialLatency (clock : Clock) (repeats : UInt64) (arr : Array UInt64)
    (arrSize zero : UInt64) : Option Measured :=
  measure (fun i _ => modulo i arrSize) clock repeats arr arrSize zero

/-! ### The random walk -/

theorem toBitVec_advance (rnd : UInt64) :
    (advance rnd).toBitVec = galoisStep GALOIS_POLYNOMIAL.toBitVec rnd.toBitVec := rfl

theorem msb_polynomial : GALOIS_POLYNOMIAL.toBitVec.msb = true := by decide

theorem advance_injective : Function.Injective advance := by
  intro left right heq
  apply UInt64.toBitVec_inj.mp
  apply galoisStep_injective msb_polynomial
  rw [← toBitVec_advance, ← toBitVec_advance, heq]

@[simp]
theorem advance_zero : advance 0 = 0 :=
  UInt64.toBitVec_inj.mp (galoisStep_zero _)

theorem advance_ne_zero {rnd : UInt64} (hrnd : rnd ≠ 0) : advance rnd ≠ 0 := by
  intro hzero
  have hbits : rnd.toBitVec ≠ 0 := fun heq => hrnd (UInt64.toBitVec_inj.mp heq)
  apply galoisStep_ne_zero msb_polynomial hbits
  rw [← toBitVec_advance, hzero]
  rfl

/-! ### The two loops of a measurement -/

section

variable {indexOf : UInt64 → UInt64 → Option UInt64} {operand : UInt64 → Option UInt64}
  {index : UInt64 → UInt64 → UInt64} {arrSize : UInt64}

/-- The iterations of a loop that masks everything away. -/
def walk (index : UInt64 → UInt64 → UInt64) : Nat → UInt64 → UInt64 → List Iteration
  | 0, _, _ => []
  | remaining + 1, i, rnd => ⟨rnd, index i rnd⟩ :: walk index remaining (i + 1) (advance rnd)

/-- With `zero = 0` a loop advances `rnd` once per iteration, whatever its operands are. -/
theorem loop_zero (hindex : ∀ i rnd, indexOf i rnd = some (index i rnd))
    (hoperand : ∀ i rnd, ∃ value, operand (index i rnd) = some value) (remaining : Nat)
    (i rnd : UInt64) :
    loop indexOf operand 0 remaining i rnd =
      some (walk index remaining i rnd, advance^[remaining] rnd) := by
  induction remaining generalizing i rnd with
  | zero => rfl
  | succ remaining ih =>
      obtain ⟨value, hvalue⟩ := hoperand i rnd
      simp [loop, walk, hindex, hvalue, ih]

/-- A loop whose indices can be read makes all its iterations, whatever `zero` is. -/
theorem exists_loop (hindex : ∀ i rnd, indexOf i rnd = some (index i rnd))
    (hoperand : ∀ i rnd, ∃ value, operand (index i rnd) = some value) (zero : UInt64)
    (remaining : Nat) (i rnd : UInt64) :
    ∃ result, loop indexOf operand zero remaining i rnd = some result := by
  induction remaining generalizing i rnd with
  | zero => exact ⟨_, rfl⟩
  | succ remaining ih =>
      obtain ⟨value, hvalue⟩ := hoperand i rnd
      obtain ⟨⟨later, last⟩, hlater⟩ := ih (i + 1) (advance (rnd ^^^ (value &&& zero)))
      exact ⟨(⟨rnd, index i rnd⟩ :: later, last), by simp [loop, hindex, hvalue, hlater]⟩

@[simp]
theorem length_walk (remaining : Nat) (i rnd : UInt64) :
    (walk index remaining i rnd).length = remaining := by
  induction remaining generalizing i rnd with
  | zero => rfl
  | succ remaining ih => simp [walk, ih]

theorem index_lt_of_mem_walk (hindex : ∀ i rnd, index i rnd < arrSize) {remaining : Nat}
    {i rnd : UInt64} {iteration : Iteration} (hmem : iteration ∈ walk index remaining i rnd) :
    iteration.index < arrSize := by
  induction remaining generalizing i rnd with
  | zero => simp [walk] at hmem
  | succ remaining ih =>
      rcases List.mem_cons.mp hmem with rfl | hlater
      · exact hindex i rnd
      · exact ih hlater

theorem rnd_ne_zero_of_mem_walk {remaining : Nat} {i rnd : UInt64} (hrnd : rnd ≠ 0)
    {iteration : Iteration} (hmem : iteration ∈ walk index remaining i rnd) :
    iteration.rnd ≠ 0 := by
  induction remaining generalizing i rnd with
  | zero => simp [walk] at hmem
  | succ remaining ih =>
      rcases List.mem_cons.mp hmem with rfl | hlater
      · exact hrnd
      · exact ih (advance_ne_zero hrnd) hlater

theorem iterate_advance_ne_zero {rnd : UInt64} (hrnd : rnd ≠ 0) (n : Nat) :
    advance^[n] rnd ≠ 0 := by
  induction n generalizing rnd with
  | zero => exact hrnd
  | succ n ih => exact ih (advance_ne_zero hrnd)

end

section

variable {arrSize : UInt64} {arr : Array UInt64}

theorem modulo_eq_some (harrSize : arrSize ≠ 0) (dividend : UInt64) :
    modulo dividend arrSize = some (dividend % arrSize) := if_neg harrSize

theorem toNat_atLeastOnce (repeats arrSize : UInt64) :
    (atLeastOnce repeats arrSize).toNat = max repeats.toNat arrSize.toNat := by
  unfold atLeastOnce
  split
  · rename_i hlt
    rw [gt_iff_lt, UInt64.lt_iff_toNat_lt] at hlt
    omega
  · rename_i hle
    rw [gt_iff_lt, UInt64.lt_iff_toNat_lt] at hle
    omega

/-- What a measurement should be: both loops make the same `count` iterations, all of them inside of
the array and with a random number that is not zero, and the last random number is `last`. -/
structure Measured.SameWalk (measured : Measured) (arrSize : UInt64) (count : Nat)
    (last : UInt64) : Prop where
  same : measured.baselineWalk = measured.accessWalk
  length : measured.baselineWalk.length = count
  index_lt : ∀ iteration ∈ measured.baselineWalk, iteration.index < arrSize
  rnd_ne_zero : ∀ iteration ∈ measured.baselineWalk, iteration.rnd ≠ 0
  last_eq : measured.measurement.rnd = last
  last_ne_zero : last ≠ 0

variable {dividend : UInt64 → UInt64 → UInt64}

theorem mod_arrSize_lt (harrSize : arrSize ≠ 0) (i rnd : UInt64) :
    dividend i rnd % arrSize < arrSize :=
  UInt64.mod_lt _ (UInt64.pos_iff_ne_zero.mpr harrSize)

theorem exists_read (harrSize : arrSize ≠ 0) (harr : arr.size = arrSize.toNat) (i rnd : UInt64) :
    ∃ value, readElement arr (dividend i rnd % arrSize) = some value := by
  have hbound : (dividend i rnd % arrSize).toNat < arr.size := by
    rw [harr]
    exact UInt64.lt_iff_toNat_lt.mp (mod_arrSize_lt harrSize i rnd)
  exact ⟨_, Array.getElem?_eq_getElem hbound⟩

theorem exists_measure (dividend : UInt64 → UInt64 → UInt64) (harrSize : arrSize ≠ 0)
    (harr : arr.size = arrSize.toNat) (clock : Clock) (repeats zero : UInt64) :
    ∃ measured,
      measure (fun i rnd => modulo (dividend i rnd) arrSize) clock repeats arr arrSize zero =
        some measured := by
  have hindex : ∀ i rnd, modulo (dividend i rnd) arrSize = some (dividend i rnd % arrSize) :=
    fun i rnd => modulo_eq_some harrSize _
  obtain ⟨⟨baselineWalk, rnd⟩, hbaseline⟩ := exists_loop hindex (fun _ _ => ⟨_, rfl⟩) zero
    (atLeastOnce repeats arrSize).toNat 0 12345
  obtain ⟨⟨accessWalk, last⟩, haccess⟩ := exists_loop hindex (exists_read harrSize harr) zero
    (atLeastOnce repeats arrSize).toNat 0 ((rnd &&& zero) ^^^ 12345)
  apply Option.isSome_iff_exists.mp
  simp [measure, hbaseline, haccess]

theorem measure_zero (harrSize : arrSize ≠ 0) (harr : arr.size = arrSize.toNat) (clock : Clock)
    (repeats : UInt64) :
    measure (fun i rnd => modulo (dividend i rnd) arrSize) clock repeats arr arrSize 0 = some
      { measurement := {
          baseline := perCycle clock.t0 clock.t1 (atLeastOnce repeats arrSize)
          accessTime := perCycle clock.t2 clock.t3 (atLeastOnce repeats arrSize)
          rnd := advance^[(atLeastOnce repeats arrSize).toNat] 12345 }
        baselineWalk :=
          walk (fun i rnd => dividend i rnd % arrSize) (atLeastOnce repeats arrSize).toNat 0 12345
        accessWalk :=
          walk (fun i rnd => dividend i rnd % arrSize) (atLeastOnce repeats arrSize).toNat 0 12345 } := by
  have hindex : ∀ i rnd, modulo (dividend i rnd) arrSize = some (dividend i rnd % arrSize) :=
    fun i rnd => modulo_eq_some harrSize _
  have hstart : ∀ rnd : UInt64, (rnd &&& 0) ^^^ 12345 = 12345 := by simp
  unfold measure
  dsimp only
  rw [loop_zero hindex fun _ _ => ⟨_, rfl⟩]
  simp only [Option.bind_eq_bind, Option.bind_some, hstart]
  rw [loop_zero hindex (exists_read harrSize harr)]
  rfl

theorem measure_sameWalk (dividend : UInt64 → UInt64 → UInt64) (harrSize : arrSize ≠ 0)
    (harr : arr.size = arrSize.toNat) (clock : Clock) (repeats : UInt64) :
    ∃ measured,
      measure (fun i rnd => modulo (dividend i rnd) arrSize) clock repeats arr arrSize 0 =
        some measured ∧
      measured.SameWalk arrSize (max repeats.toNat arrSize.toNat)
        (advance^[max repeats.toNat arrSize.toNat] 12345) := by
  refine ⟨_, measure_zero harrSize harr clock repeats, ?_⟩
  rw [← toNat_atLeastOnce]
  exact {
    same := rfl
    length := length_walk _ _ _
    index_lt := fun _ hmem => index_lt_of_mem_walk (mod_arrSize_lt harrSize) hmem
    rnd_ne_zero := fun _ hmem => rnd_ne_zero_of_mem_walk (by decide) hmem
    last_eq := rfl
    last_ne_zero := iterate_advance_ne_zero (by decide) _ }

/-- Baseline and access loop make the same walk in both functions, and both return the random number
that only the number of iterations determines, whatever the arrays contain. -/
theorem baseline_and_access_same_walk (repeats : UInt64) (harrSize : arrSize ≠ 0) :
    Function.Injective advance ∧ advance 0 = 0 ∧
    ∃ last, ∀ arr arr' : Array UInt64, arr.size = arrSize.toNat → arr'.size = arrSize.toNat →
      ∀ clock clock' : Clock, ∃ random sequential,
        measureLatency clock repeats arr arrSize 0 = some random ∧
        measureSequentialLatency clock' repeats arr' arrSize 0 = some sequential ∧
        random.SameWalk arrSize (max repeats.toNat arrSize.toNat) last ∧
        sequential.SameWalk arrSize (max repeats.toNat arrSize.toNat) last := by
  refine ⟨advance_injective, advance_zero, advance^[max repeats.toNat arrSize.toNat] 12345, ?_⟩
  intro arr arr' harr harr' clock clock'
  obtain ⟨random, hrandom, hrandomWalk⟩ := measure_sameWalk (fun _ rnd => rnd) harrSize harr
    clock repeats
  obtain ⟨sequential, hsequential, hsequentialWalk⟩ := measure_sameWalk (fun i _ => i) harrSize
    harr' clock' repeats
  exact ⟨random, sequential, hrandom, hsequential, hrandomWalk, hsequentialWalk⟩

theorem same_walk_three :
    ∃ random sequential,
      measureLatency ⟨⟨0, 0⟩, ⟨0, 7⟩, ⟨0, 8⟩, ⟨0, 30⟩⟩ 2 #[5, 6, 7] 3 0 = some random ∧
      measureSequentialLatency ⟨⟨0, 0⟩, ⟨0, 7⟩, ⟨0, 8⟩, ⟨0, 30⟩⟩ 2 #[8, 9, 1] 3 0 =
        some sequential ∧
      random.measurement.rnd = sequential.measurement.rnd := by
  obtain ⟨-, -, last, hlast⟩ := baseline_and_access_same_walk 2 (show (3 : UInt64) ≠ 0 by decide)
  obtain ⟨random, sequential, hrandom, hsequential, hwalk, hwalk'⟩ := hlast #[5, 6, 7] #[8, 9, 1] rfl
    rfl ⟨⟨0, 0⟩, ⟨0, 7⟩, ⟨0, 8⟩, ⟨0, 30⟩⟩ ⟨⟨0, 0⟩, ⟨0, 7⟩, ⟨0, 8⟩, ⟨0, 30⟩⟩
  exact ⟨random, sequential, hrandom, hsequential, hwalk.last_eq.trans hwalk'.last_eq.symm⟩

end

end OsExercises.MemoryLatency
