import OsExercises.Library.Words
import Mathlib.Algebra.BigOperators.Group.List.Basic

/-!
# The packed word of a job

`atomic_state` holds the stage in its two highest bits, the number of elements of the stage in the 31
bits below, and how many of them are done in the 31 lowest bits. A `uint64_t` is a number that
operations reduce modulo `2 ^ 64`.
-/

namespace OsExercises.MapReduce

inductive Stage where
  | undefined
  | map
  | shuffle
  | reduce
deriving DecidableEq

def Stage.value : Stage → Nat
  | .undefined => 0
  | .map => 1
  | .shuffle => 2
  | .reduce => 3

/-- `STAGE_LOCATION`. -/
def stageLocation (value : Nat) : Nat := value <<< 62 % 2 ^ 64

/-- `TOTAL_LOCATION`. -/
def totalLocation (value : Nat) : Nat := value <<< 31 % 2 ^ 64

def getStageBits (x : Nat) : Nat := x >>> 62

def getTotalBits (x : Nat) : Nat := x >>> 31 &&& 0x7fffffff

def getCountBits (x : Nat) : Nat := x &&& 0x7fffffff

/-- The word that `reset_counter` stores. -/
def resetWord (stage : Stage) (totalElements : Nat) : Nat :=
  stageLocation stage.value ||| totalLocation totalElements

/-- `fetch_add` on the word, but for the value it returns. -/
def fetchAdd (x amount : Nat) : Nat := (x + amount) % 2 ^ 64

/-- The guard of the loops of `map_phase` and `reduce_phase`. -/
def unfinished (x : Nat) : Bool := getCountBits x < getTotalBits x

/-! ### Words of small stages -/

/-- The word of a stage with `count` of `total` elements done. -/
def jobWord (stage : Stage) (total count : Nat) : Nat :=
  stage.value * 2 ^ 62 + total * 2 ^ 31 + count

variable {stage : Stage} {total count : Nat}

theorem Stage.value_lt (stage : Stage) : stage.value < 4 := by
  cases stage <;> decide

theorem resetWord_eq (htotal : total < 2 ^ 31) : resetWord stage total = jobWord stage total 0 := by
  have hstage := stage.value_lt
  have hlow : totalLocation total = total * 2 ^ 31 := by
    rw [totalLocation, Nat.shiftLeft_eq]
    omega
  have hhigh : stageLocation stage.value = 2 ^ 62 * stage.value := by
    rw [stageLocation, Nat.shiftLeft_eq]
    omega
  have hlt : total * 2 ^ 31 < 2 ^ 62 := by omega
  rw [resetWord, hhigh, hlow, ← Nat.two_pow_add_eq_or_of_lt hlt, jobWord]
  omega

/-- The mask of the two lower fields. -/
theorem low_bits (x : Nat) : x &&& 0x7fffffff = x % 2 ^ 31 := by
  rw [show 0x7fffffff = 2 ^ 31 - 1 from rfl, Nat.and_two_pow_sub_one_eq_mod]

theorem getTotalBits_lt (x : Nat) : getTotalBits x < 2 ^ 31 := by
  rw [getTotalBits, low_bits]
  exact Nat.mod_lt _ (Nat.two_pow_pos 31)

theorem getStageBits_jobWord (htotal : total < 2 ^ 31) (hcount : count < 2 ^ 31) :
    getStageBits (jobWord stage total count) = stage.value := by
  rw [getStageBits, Nat.shiftRight_eq_div_pow, jobWord]
  omega

theorem getCountBits_jobWord (hcount : count < 2 ^ 31) :
    getCountBits (jobWord stage total count) = count := by
  rw [getCountBits, low_bits, jobWord]
  omega

theorem getTotalBits_jobWord (htotal : total < 2 ^ 31) (hcount : count < 2 ^ 31) :
    getTotalBits (jobWord stage total count) = total := by
  rw [getTotalBits, low_bits, Nat.shiftRight_eq_div_pow, jobWord]
  omega

theorem unfinished_jobWord (htotal : total < 2 ^ 31) (hcount : count < 2 ^ 31) :
    unfinished (jobWord stage total count) = true ↔ count < total := by
  rw [unfinished, getCountBits_jobWord hcount, getTotalBits_jobWord htotal hcount, decide_eq_true_iff]

theorem fetchAdd_jobWord {amount : Nat} (htotal : total < 2 ^ 31) (hcount : count + amount < 2 ^ 31) :
    fetchAdd (jobWord stage total count) amount = jobWord stage total (count + amount) := by
  have hstage := stage.value_lt
  rw [fetchAdd, jobWord, jobWord, Nat.mod_eq_of_lt (by omega), Nat.add_assoc]

/-! ### Words of any size -/

/-- The word says that `count` of `total` elements of the stage are done, and the guard of the loops
agrees. -/
structure Decodes (stage : Stage) (total count x : Nat) : Prop where
  stageBits : getStageBits x = stage.value
  totalBits : getTotalBits x = total
  countBits : getCountBits x = count
  guard : count < total → unfinished x = true

theorem decodes_jobWord (htotal : total < 2 ^ 31) (hcount : count ≤ total) :
    Decodes stage total count (jobWord stage total count) where
  stageBits := getStageBits_jobWord htotal (by omega)
  totalBits := getTotalBits_jobWord htotal (by omega)
  countBits := getCountBits_jobWord (by omega)
  guard := (unfinished_jobWord htotal (by omega)).mpr

theorem foldl_fetchAdd_jobWord (htotal : total < 2 ^ 31) (amounts : List Nat)
    (hsum : count + amounts.sum ≤ total) :
    amounts.foldl fetchAdd (jobWord stage total count) = jobWord stage total (count + amounts.sum) := by
  induction amounts generalizing count with
  | nil => rfl
  | cons amount amounts ih =>
      rw [List.sum_cons] at hsum
      have hfirst : fetchAdd (jobWord stage total count) amount =
          jobWord stage total (count + amount) := fetchAdd_jobWord htotal (by omega)
      rw [List.foldl_cons, hfirst, ih (by omega), List.sum_cons, Nat.add_assoc]

/-- The word that `reset_counter` stores, and what is added to it later, decode to what they stand for
exactly when the number of elements fits its field. -/
theorem decodes_iff (stage : Stage) (total : Nat) (amounts : List Nat) (hsum : amounts.sum ≤ total) :
    Decodes stage total amounts.sum (amounts.foldl fetchAdd (resetWord stage total)) ↔
      total < 2 ^ 31 := by
  constructor
  · intro h
    have hlt := getTotalBits_lt (amounts.foldl fetchAdd (resetWord stage total))
    rwa [h.totalBits] at hlt
  · intro htotal
    have hword : amounts.foldl fetchAdd (resetWord stage total) =
        jobWord stage total (0 + amounts.sum) := by
      rw [resetWord_eq htotal]
      exact foldl_fetchAdd_jobWord htotal amounts (by omega)
    rw [hword, Nat.zero_add]
    exact decodes_jobWord htotal hsum

theorem decodes_iff_three :
    Decodes .map 3 2 ([1, 1].foldl fetchAdd (resetWord .map 3)) ↔ 3 < 2 ^ 31 :=
  decodes_iff .map 3 [1, 1] (by decide)

/-- A job with `2 ^ 31` inputs has a word without elements, so the workers leave at once. -/
theorem not_decodes_large : ¬ ∀ (stage : Stage) (total : Nat) (amounts : List Nat),
    total < 2 ^ 64 → amounts.sum ≤ total →
    Decodes stage total amounts.sum (amounts.foldl fetchAdd (resetWord stage total)) := by
  intro hall
  have htotal := (hall .map (2 ^ 31) [] (by decide) (by decide)).totalBits
  exact absurd htotal (by decide)

end OsExercises.MapReduce
