import OsExercises.VirtualMemory.Address
import OsExercises.VirtualMemory.Programs

/-!
# The readings of an address

For any widths the indices of an address are read back as its page number, and with the offset they
tell addresses apart. `translate_address` keeps the page number in a `word_t`, though, so a page is
restored under the number under which it was evicted only while that number fits a `word_t`.
-/

namespace OsExercises.VirtualMemory

variable {c : MemoryConstants} {a b : Nat}

/-- The page number as `PMrestore` gets it, through `word_t pageIn`. -/
def restoredPage (c : MemoryConstants) (virtualAddress : Nat) : Nat :=
  asUInt64 (asInt (virtualAddress >>> c.offsetWidth))

theorem exists_restored {s s' : Machine} {frame : Nat}
    (hrun : translateAddress c a s = some (frame, s')) :
    ∃ made, s'.calls = made ++ s.calls ∧ ∀ call ∈ made, RestoresOnly (restoredPage c a) call.1 :=
  (built_translateAddress a).exists_made s frame s' hrun

/-! ### When the readings agree -/

/-- The page number by the indices, by the shift and as it is restored, and the offset. -/
structure ReadingsAgree (c : MemoryConstants) (a : Nat) : Prop where
  folded : pathPage c (addressPath c a c.tablesDepth) = a >>> c.offsetWidth
  restored : restoredPage c a = a >>> c.offsetWidth
  index_lt : ∀ level < c.tablesDepth, calculateBits c a level < c.pageSize
  offset : findOffset c a = a % c.pageSize
  evicted_restored : ∀ b < 2 ^ c.virtualAddressWidth,
    addressPath c b c.tablesDepth = addressPath c a c.tablesDepth →
      restoredPage c b = pathPage c (addressPath c a c.tablesDepth)
  distinct : ∀ b < 2 ^ c.virtualAddressWidth,
    addressPath c b c.tablesDepth = addressPath c a c.tablesDepth →
      findOffset c b = findOffset c a → b = a

/-- A `word_t` keeps a page number if it has less than 32 bits. -/
theorem asUInt64_asInt_iff {value : Nat} (hvalue : value < 2 ^ 63) :
    asUInt64 (asInt value) = value ↔ value < 2 ^ 31 := by
  refine ⟨fun heq => ?_, asUInt64_asInt⟩
  have hupper := Int32.toInt_lt (asInt value)
  have hlower := Int32.le_toInt (asInt value)
  unfold asUInt64 at heq
  omega

section Widths

variable (hpos : 1 ≤ c.offsetWidth) (hlt : c.offsetWidth < c.virtualAddressWidth)
  (hwidth : c.virtualAddressWidth < 64)
include hpos hlt hwidth

/-- The index path and the offset determine the address. -/
theorem eq_of_path_of_offset (ha : a < 2 ^ c.virtualAddressWidth)
    (hb : b < 2 ^ c.virtualAddressWidth)
    (hpath : addressPath c b c.tablesDepth = addressPath c a c.tablesDepth)
    (hoffset : findOffset c b = findOffset c a) : b = a := by
  rw [findOffset_eq (by omega), findOffset_eq (by omega)] at hoffset
  have hpage : b / c.pageSize = a / c.pageSize := by
    rw [← digits_addressPath_tablesDepth hpos hlt ha, ← digits_addressPath_tablesDepth hpos hlt hb,
      hpath]
  calc b
    _ = c.pageSize * (b / c.pageSize) + b % c.pageSize := (Nat.div_add_mod _ _).symm
    _ = c.pageSize * (a / c.pageSize) + a % c.pageSize := by rw [hpage, hoffset]
    _ = a := Nat.div_add_mod _ _

/-- Everything about an address agrees if and only if its page number fits a `word_t`. -/
theorem readingsAgree_iff (ha : a < 2 ^ c.virtualAddressWidth) :
    ReadingsAgree c a ↔ a >>> c.offsetWidth < 2 ^ 31 := by
  have hpages : ∀ d < 2 ^ c.virtualAddressWidth, d >>> c.offsetWidth < 2 ^ 63 := by
    intro d hd
    have hbound : 2 ^ c.virtualAddressWidth ≤ 2 ^ 63 :=
      Nat.pow_le_pow_right (by decide) (Nat.le_of_lt_succ hwidth)
    exact (Nat.shiftRight_le d c.offsetWidth).trans_lt (hd.trans_le hbound)
  constructor
  · intro hagree
    exact (asUInt64_asInt_iff (hpages a ha)).mp hagree.restored
  · intro hsmall
    have hrestored : restoredPage c a = a >>> c.offsetWidth := asUInt64_asInt hsmall
    have hfolded := pathPage_addressPath_eq hpos hlt hwidth ha
    constructor
    case folded => exact hfolded
    case restored => exact hrestored
    case index_lt => exact fun level _ => calculateBits_lt hpos hlt ha
    case offset => exact findOffset_eq (by omega) a
    case evicted_restored =>
      intro b hb hpath
      rw [← hpath, pathPage_addressPath_eq hpos hlt hwidth hb]
      have hshift : b >>> c.offsetWidth = a >>> c.offsetWidth := by
        rw [← pathPage_addressPath_eq hpos hlt hwidth hb, hpath, hfolded]
      exact asUInt64_asInt (hshift ▸ hsmall)
    case distinct => exact fun b hb => eq_of_path_of_offset hpos hlt hwidth ha hb

end Widths

/-- Widths for which a page number can need more than 31 bits. -/
def wideConstants : MemoryConstants where
  offsetWidth := 4
  physicalAddressWidth := 10
  virtualAddressWidth := 40

theorem readingsAgree_iff_wide : ReadingsAgree wideConstants (2 ^ 34) ∧
    ¬ ReadingsAgree wideConstants (2 ^ 35) := by
  constructor
  · rw [readingsAgree_iff (by decide) (by decide) (by decide) (by decide)]
    decide
  · rw [readingsAgree_iff (by decide) (by decide) (by decide) (by decide)]
    decide

/-- Page `2 ^ 31` is evicted under its number and restored under another one. -/
theorem not_readingsAgree_wide : ¬ ∀ (c : MemoryConstants) (a : Nat), 1 ≤ c.offsetWidth →
    c.offsetWidth < c.virtualAddressWidth → c.virtualAddressWidth < 64 →
    a < 2 ^ c.virtualAddressWidth → ReadingsAgree c a := by
  intro hall
  have hagree := hall wideConstants (2 ^ 35) (by decide) (by decide) (by decide) (by decide)
  have hrestored : restoredPage wideConstants (2 ^ 35) ≠ 2 ^ 35 >>> 4 := by decide
  exact hrestored hagree.restored

end OsExercises.VirtualMemory
