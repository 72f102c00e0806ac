import OsExercises.Library.Words

/-!
# Sizes of the virtual memory

`MemoryConstants.h` fixes three widths and derives everything else from them. The model keeps the
widths as parameters; `MemoryConstants.given` is the choice the header makes.
-/

namespace OsExercises.VirtualMemory

/-- `word_t`. -/
abbrev Word := Int32

/-- The three widths of `MemoryConstants.h`. -/
structure MemoryConstants where
  offsetWidth : Nat
  physicalAddressWidth : Nat
  virtualAddressWidth : Nat

namespace MemoryConstants

def given : MemoryConstants where
  offsetWidth := 4
  physicalAddressWidth := 10
  virtualAddressWidth := 20

variable (c : MemoryConstants)

/-- Words in a page or a frame, and entries in a table. -/
def pageSize : Nat := 2 ^ c.offsetWidth

def ramSize : Nat := 2 ^ c.physicalAddressWidth

def virtualMemorySize : Nat := 2 ^ c.virtualAddressWidth

def numFrames : Nat := c.ramSize / c.pageSize

def numPages : Nat := c.virtualMemorySize / c.pageSize

/-- `CEIL` of `(VIRTUAL_ADDRESS_WIDTH - OFFSET_WIDTH) / (double) OFFSET_WIDTH`. -/
def tablesDepth : Nat :=
  let width := c.virtualAddressWidth - c.offsetWidth
  if width % c.offsetWidth = 0 then width / c.offsetWidth else width / c.offsetWidth + 1

/-- Widths for which pages, frames and page numbers fit a word. -/
structure Valid : Prop where
  offsetWidth_pos : 1 ≤ c.offsetWidth
  offsetWidth_lt_physical : c.offsetWidth < c.physicalAddressWidth
  offsetWidth_lt_virtual : c.offsetWidth < c.virtualAddressWidth
  virtualAddressWidth_le : c.virtualAddressWidth ≤ 30
  physicalAddressWidth_le : c.physicalAddressWidth ≤ 30

theorem valid_given : given.Valid := by constructor <;> decide

variable {c}

theorem pageSize_pos : 0 < c.pageSize := Nat.two_pow_pos _

theorem tablesDepth_pos (hlt : c.offsetWidth < c.virtualAddressWidth) : 0 < c.tablesDepth := by
  unfold tablesDepth
  dsimp only
  split
  · rename_i hdvd
    exact Nat.div_pos (Nat.le_of_dvd (by omega) (Nat.dvd_of_mod_eq_zero hdvd)) (by
      rcases Nat.eq_zero_or_pos c.offsetWidth with hzero | hpos
      · rw [hzero, Nat.mod_zero] at hdvd
        omega
      · exact hpos)
  · exact Nat.succ_pos _

/-- The tables cover the page number, with less than one level to spare. -/
theorem tablesDepth_mul_lt (hpos : 1 ≤ c.offsetWidth) (hlt : c.offsetWidth < c.virtualAddressWidth) :
    c.tablesDepth * c.offsetWidth < c.virtualAddressWidth ∧
      c.virtualAddressWidth ≤ (c.tablesDepth + 1) * c.offsetWidth := by
  have hdiv := Nat.div_add_mod (c.virtualAddressWidth - c.offsetWidth) c.offsetWidth
  have hmod := Nat.mod_lt (c.virtualAddressWidth - c.offsetWidth) hpos
  rw [Nat.mul_comm c.offsetWidth] at hdiv
  unfold tablesDepth
  dsimp only
  split
  · simp only [Nat.add_mul, Nat.one_mul]
    omega
  · simp only [Nat.add_mul, Nat.one_mul]
    omega

namespace Valid

variable (hc : c.Valid)
include hc

theorem pageSize_mul_numFrames : c.numFrames * c.pageSize = c.ramSize :=
  Nat.div_mul_cancel (Nat.pow_dvd_pow 2 hc.offsetWidth_lt_physical.le)

theorem numPages_eq : c.numPages = 2 ^ (c.virtualAddressWidth - c.offsetWidth) :=
  Nat.pow_div hc.offsetWidth_lt_virtual.le (by decide)

theorem numFrames_eq : c.numFrames = 2 ^ (c.physicalAddressWidth - c.offsetWidth) :=
  Nat.pow_div hc.offsetWidth_lt_physical.le (by decide)

theorem numPages_mul_pageSize : c.numPages * c.pageSize = c.virtualMemorySize :=
  Nat.div_mul_cancel (Nat.pow_dvd_pow 2 hc.offsetWidth_lt_virtual.le)

theorem numFrames_lt : c.numFrames < 2 ^ 31 := by
  have := hc.physicalAddressWidth_le
  rw [hc.numFrames_eq]
  exact Nat.pow_lt_pow_right (by decide) (by omega)

theorem numPages_lt : c.numPages < 2 ^ 31 := by
  have := hc.virtualAddressWidth_le
  rw [hc.numPages_eq]
  exact Nat.pow_lt_pow_right (by decide) (by omega)

theorem ramSize_lt : c.ramSize < 2 ^ 31 := by
  have := hc.physicalAddressWidth_le
  exact Nat.pow_lt_pow_right (by decide) (by omega)

theorem tablesDepth_pos : 0 < c.tablesDepth :=
  MemoryConstants.tablesDepth_pos hc.offsetWidth_lt_virtual

/-- The entry `i` of a frame of the RAM is a word of the RAM. -/
theorem entry_lt_ramSize {frame i : Nat} (hframe : frame < c.numFrames) (hi : i < c.pageSize) :
    frame * c.pageSize + i < c.ramSize := by
  calc frame * c.pageSize + i < (frame + 1) * c.pageSize := by rw [Nat.add_mul]; omega
    _ ≤ c.numFrames * c.pageSize := Nat.mul_le_mul_right _ hframe
    _ = c.ramSize := hc.pageSize_mul_numFrames

end Valid

end MemoryConstants

end OsExercises.VirtualMemory
