import Mathlib.Data.Rat.Floor
import Mathlib.Tactic.Linarith
import OsExercises.MemoryLatency.Measure

/-!
# The series of sizes

`main` measures arrays of 100 bytes and then of `factor` times the last size, as long as the size is
at most `max_size`. The factor is an exact rational number, and the product is cut to an integer. The
model begins when the arguments are parsed.
-/

namespace OsExercises.MemoryLatency

/-- The code `argument_validation` returns, with the text it prints. -/
def argumentValidation (maxSize : UInt64) (factor : Rat) (repeats : UInt64) : Int × String :=
  if factor ≤ 1 then (-1, "Factor needs to be higher then one\n")
  else if maxSize < 100 then (-1, "Max size should be more than 100 \n")
  else if repeats = 0 then (-1, "Reapeat shold be positive\n")
  else (0, "")

/-- `size = size*factor`. -/
def nextSize (factor : Rat) (size : UInt64) : UInt64 :=
  UInt64.ofNat (size.toNat * factor).floor.toNat

/-- What the system does in one iteration: whether `malloc` has memory, and the two clocks. -/
structure Round where
  allocated : Bool
  random : Clock
  sequential : Clock

/-- A line of the output, `size,r,s`. -/
structure Line where
  size : UInt64
  random : Rat
  sequential : Rat

def offset (measured : Measured) : Rat :=
  measured.measurement.accessTime - measured.measurement.baseline

/-- `size / sizeof(array_element_t)`. -/
def arraySize (size : UInt64) : UInt64 := size / 8

/-- The body of the loop of `main` for an array that `malloc` gave. -/
def measureSize (round : Round) (repeats zero size : UInt64) : Option Line := do
  let arr := Array.replicate (arraySize size).toNat zero
  let random ← measureLatency round.random repeats arr (arraySize size) zero
  let sequential ← measureSequentialLatency round.sequential repeats arr (arraySize size) zero
  return ⟨size, offset random, offset sequential⟩

/-- The loop of `main` from its iteration `count` on, with what it returns and prints. It is `none`
when the fuel runs out before the loop ends. -/
def sizeLoop (rounds : Nat → Round) (maxSize : UInt64) (factor : Rat) (repeats zero : UInt64) :
    (fuel count : Nat) → (size : UInt64) → Option (Int × List Line)
  | 0, _, _ => none
  | fuel + 1, count, size =>
      if size ≤ maxSize then
        if (rounds count).allocated then do
          let line ← measureSize (rounds count) repeats zero size
          let (code, lines) ← sizeLoop rounds maxSize factor repeats zero fuel (count + 1)
            (nextSize factor size)
          return (code, line :: lines)
        else some (-1, [])
      else some (0, [])

/-- The variable the compiler must not know to be zero. -/
def zeroOf (dummy : Timespec) : UInt64 :=
  if nanosectime dummy > 1000000000 then 0 else nanosectime dummy

def main (dummy : Timespec) (rounds : Nat → Round) (maxSize : UInt64) (factor : Rat)
    (repeats : UInt64) (fuel : Nat) : Option (Int × List Line) :=
  if (argumentValidation maxSize factor repeats).1 = -1 then some (-1, [])
  else sizeLoop rounds maxSize factor repeats (zeroOf dummy) fuel 0 100

/-! ### One size after another -/

section

variable {maxSize repeats zero size : UInt64} {factor : Rat} {rounds : Nat → Round}

theorem argumentValidation_accepts_iff :
    (argumentValidation maxSize factor repeats).1 = 0 ↔
      1 < factor ∧ 100 ≤ maxSize ∧ repeats ≠ 0 := by
  unfold argumentValidation
  split
  · rename_i hfactor
    simp [not_lt.mpr hfactor]
  · rename_i hfactor
    split
    · rename_i hmax
      simp [UInt64.not_le.mpr hmax]
    · rename_i hmax
      split
      · rename_i hrepeats
        simp [hrepeats]
      · rename_i hrepeats
        simp [hrepeats, not_le.mp hfactor, UInt64.not_lt.mp hmax]

theorem exists_measureSize (hsize : 100 ≤ size) (round : Round) (repeats zero : UInt64) :
    ∃ line, measureSize round repeats zero size = some line ∧ line.size = size := by
  have harrSize : arraySize size ≠ 0 := by
    rw [UInt64.le_iff_toNat_le] at hsize
    rw [arraySize, ne_eq, ← UInt64.toNat_inj, UInt64.toNat_div]
    simp only [UInt64.reduceToNat] at hsize ⊢
    omega
  have harr : (Array.replicate (arraySize size).toNat zero).size = (arraySize size).toNat :=
    Array.size_replicate
  obtain ⟨random, hrandom⟩ := exists_measure (fun _ rnd => rnd) harrSize harr
    round.random repeats zero
  obtain ⟨sequential, hsequential⟩ := exists_measure (fun i _ => i) harrSize harr
    round.sequential repeats zero
  exact ⟨⟨size, offset random, offset sequential⟩,
    by simp [measureSize, measureLatency, measureSequentialLatency, hrandom, hsequential], rfl⟩

/-- Below the bound the product fits, and the next size is its integer part. -/
theorem toNat_nextSize (hfactor : 0 ≤ factor) (hsize : size ≤ maxSize)
    (hbound : maxSize.toNat * factor < 2 ^ 64) :
    (nextSize factor size).toNat = ⌊size.toNat * factor⌋₊ := by
  have hle : (size.toNat : Rat) ≤ maxSize.toNat := by
    exact_mod_cast UInt64.le_iff_toNat_le.mp hsize
  have hlt : ⌊size.toNat * factor⌋₊ < 2 ^ 64 := by
    rw [Nat.floor_lt (by positivity)]
    calc
      size.toNat * factor ≤ maxSize.toNat * factor := by gcongr
      _ < ((2 ^ 64 : Nat) : Rat) := by exact_mod_cast hbound
  exact UInt64.toNat_ofNat_of_lt' hlt

theorem lt_nextSize (hfactor : 101 / 100 ≤ factor) (hhundred : 100 ≤ size) (hsize : size ≤ maxSize)
    (hbound : maxSize.toNat * factor < 2 ^ 64) : size < nextSize factor size := by
  have hsize' : (100 : Rat) ≤ size.toNat := by
    exact_mod_cast UInt64.le_iff_toNat_le.mp hhundred
  rw [UInt64.lt_iff_toNat_lt, toNat_nextSize (by linarith) hsize hbound, Nat.lt_iff_add_one_le]
  apply Nat.le_floor
  push_cast
  calc
    (size.toNat : Rat) + 1 ≤ size.toNat * (101 / 100) := by linarith
    _ ≤ size.toNat * factor := by gcongr

/-- A factor below `101 / 100` leaves the first size where it is. -/
theorem nextSize_hundred (hlower : 1 < factor) (hupper : factor < 101 / 100) :
    nextSize factor 100 = 100 := by
  have hhundred : ((100 : UInt64).toNat : Rat) = 100 := by norm_cast
  have hbound : ((100 : UInt64).toNat : Rat) * factor < 2 ^ 64 := by
    rw [hhundred]
    linarith
  rw [← UInt64.toNat_inj, toNat_nextSize (by linarith) (UInt64.le_refl 100) hbound, hhundred]
  apply (Nat.floor_eq_iff (by linarith)).mpr
  rw [hhundred]
  constructor <;> linarith

/-! ### The whole loop -/

/-- The sizes of the printed lines grow from `size` on. -/
def Grows (size : UInt64) (lines : List Line) : Prop :=
  (lines.map Line.size).Pairwise (· < ·) ∧ ∀ line ∈ lines, size ≤ line.size

theorem Grows.cons {lines : List Line} {line : Line} {next : UInt64} (hlines : Grows next lines)
    (hsize : line.size = size) (hlt : size < next) : Grows size (line :: lines) := by
  constructor
  · rw [List.map_cons, List.pairwise_cons]
    refine ⟨?_, hlines.1⟩
    intro later hlater
    obtain ⟨line', hmem, rfl⟩ := List.mem_map.mp hlater
    rw [hsize]
    exact UInt64.lt_of_lt_of_le hlt (hlines.2 line' hmem)
  · intro line' hmem
    rcases List.mem_cons.mp hmem with rfl | hlater
    · exact UInt64.le_of_eq hsize.symm
    · exact UInt64.le_of_lt (UInt64.lt_of_lt_of_le hlt (hlines.2 line' hlater))

/-- Every size is larger than the one before, so `maxSize - size` steps are left at most. -/
theorem exists_sizeLoop (hfactor : 101 / 100 ≤ factor) (hbound : maxSize.toNat * factor < 2 ^ 64)
    (fuel count : Nat) (hhundred : 100 ≤ size) (hfuel : maxSize.toNat < fuel + size.toNat) :
    ∃ code lines, sizeLoop rounds maxSize factor repeats zero (fuel + 1) count size =
      some (code, lines) ∧ Grows size lines := by
  induction fuel generalizing count size with
  | zero =>
      have hsize : ¬ size ≤ maxSize := by
        rw [UInt64.le_iff_toNat_le]
        omega
      exact ⟨0, [], by simp [sizeLoop, hsize], by simp [Grows]⟩
  | succ fuel ih =>
      rw [sizeLoop]
      split
      · rename_i hsize
        split
        · have hlt := lt_nextSize hfactor hhundred hsize hbound
          have hnext : 100 ≤ nextSize factor size :=
            UInt64.le_trans hhundred (UInt64.le_of_lt hlt)
          rw [UInt64.lt_iff_toNat_lt] at hlt
          obtain ⟨line, hline, hlineSize⟩ :=
            exists_measureSize hhundred (rounds count) repeats zero
          obtain ⟨code, lines, hlater, hgrows⟩ := ih (count + 1) hnext (by omega)
          exact ⟨code, line :: lines, by simp [hline, hlater], hgrows.cons hlineSize hlt⟩
        · exact ⟨-1, [], rfl, by simp [Grows]⟩
      · exact ⟨0, [], rfl, by simp [Grows]⟩

/-- With a smaller factor the loop never leaves the first size, as long as there is memory. -/
theorem sizeLoop_stalls (hlower : 1 < factor) (hupper : factor < 101 / 100)
    (hmax : 100 ≤ maxSize) (hmalloc : ∀ count, (rounds count).allocated = true)
    (fuel count : Nat) : sizeLoop rounds maxSize factor repeats zero fuel count 100 = none := by
  induction fuel generalizing count with
  | zero => rfl
  | succ fuel ih =>
      obtain ⟨line, hline, -⟩ := exists_measureSize (UInt64.le_refl 100) (rounds count)
        repeats zero
      simp [sizeLoop, hmax, hmalloc, hline, nextSize_hundred hlower hupper, ih]

/-- The program ends, whatever the system does, and the sizes it prints are strictly increasing. -/
def SeriesEnds (maxSize : UInt64) (factor : Rat) (repeats : UInt64) : Prop :=
  ∀ (dummy : Timespec) (rounds : Nat → Round), ∃ fuel code lines,
    main dummy rounds maxSize factor repeats fuel = some (code, lines) ∧
    (lines.map Line.size).Pairwise (· < ·)

theorem main_accepted (haccepted : (argumentValidation maxSize factor repeats).1 = 0)
    (dummy : Timespec) (fuel : Nat) :
    main dummy rounds maxSize factor repeats fuel =
      sizeLoop rounds maxSize factor repeats (zeroOf dummy) fuel 0 100 := by
  simp [main, haccepted]

theorem not_seriesEnds (haccepted : (argumentValidation maxSize factor repeats).1 = 0)
    (hupper : factor < 101 / 100) : ¬ SeriesEnds maxSize factor repeats := by
  intro hends
  obtain ⟨hlower, hmax, -⟩ := argumentValidation_accepts_iff.mp haccepted
  let still : Clock := ⟨⟨0, 0⟩, ⟨0, 0⟩, ⟨0, 0⟩, ⟨0, 0⟩⟩
  obtain ⟨fuel, code, lines, hmain, -⟩ := hends ⟨0, 0⟩ fun _ => ⟨true, still, still⟩
  rw [main_accepted haccepted, sizeLoop_stalls hlower hupper hmax fun _ => rfl] at hmain
  cases hmain

/-- The series ends exactly with the factors that enlarge the first size. -/
theorem seriesEnds_iff (haccepted : (argumentValidation maxSize factor repeats).1 = 0)
    (hbound : maxSize.toNat * factor < 2 ^ 64) :
    SeriesEnds maxSize factor repeats ↔ 101 / 100 ≤ factor := by
  constructor
  · intro hends
    by_contra hupper
    exact not_seriesEnds haccepted (not_le.mp hupper) hends
  · intro hfactor dummy rounds
    obtain ⟨code, lines, hloop, hgrows⟩ := exists_sizeLoop hfactor hbound maxSize.toNat 0
      (UInt64.le_refl 100) (by simp)
    exact ⟨maxSize.toNat + 1, code, lines, (main_accepted haccepted dummy _).trans hloop, hgrows.1⟩

theorem seriesEnds_three_halves : SeriesEnds 1000 (3 / 2) 1 := by
  refine (seriesEnds_iff ?_ ?_).mpr ?_
  · rw [argumentValidation_accepts_iff]
    exact ⟨by norm_num, by decide, by decide⟩
  · have hmax : ((1000 : UInt64).toNat : Rat) = 1000 := by norm_cast
    rw [hmax]
    norm_num
  · norm_num

/-- Counterexample: the accepted factor `129 / 128`, with which every size is 100. -/
theorem series_does_not_end :
    (argumentValidation 1000 (129 / 128) 1).1 = 0 ∧
    (1000 : UInt64).toNat * (129 / 128 : Rat) < 2 ^ 64 ∧ ¬ SeriesEnds 1000 (129 / 128) 1 := by
  have haccepted : (argumentValidation 1000 (129 / 128) 1).1 = 0 := by
    rw [argumentValidation_accepts_iff]
    exact ⟨by norm_num, by decide, by decide⟩
  have hmax : ((1000 : UInt64).toNat : Rat) = 1000 := by norm_cast
  refine ⟨haccepted, ?_, not_seriesEnds haccepted (by norm_num)⟩
  rw [hmax]
  norm_num

end

end OsExercises.MemoryLatency
