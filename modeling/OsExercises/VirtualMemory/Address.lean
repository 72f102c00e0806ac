import OsExercises.VirtualMemory.Translation
import Mathlib.Tactic.Ring

/-!
# Addresses, index paths and page numbers

A virtual address is read twice: level by level as indices, and as a shifted whole for its page
number. The search reads an index path back as a page number. Here the three are one thing: the
indices of an address are the digits of its page number in base `PAGE_SIZE`, most significant first.
-/

namespace OsExercises.VirtualMemory

variable {c : MemoryConstants}

/-- The page number of an index path, as `search_frame` builds it. -/
def pathPage (c : MemoryConstants) (path : List Nat) : Nat := path.foldl (extendPath c) 0

/-- The indices `translate_address` uses at the first `levels` levels. -/
def addressPath (c : MemoryConstants) (virtualAddress levels : Nat) : List Nat :=
  (List.range levels).map (calculateBits c virtualAddress)

/-- Bits of an index at the top level. -/
def topWidth (c : MemoryConstants) : Nat := c.virtualAddressWidth - c.tablesDepth * c.offsetWidth

/-- Indices of a table entry, the first one of the top level. -/
def IndexPath (c : MemoryConstants) (path : List Nat) : Prop :=
  (∀ i ∈ path, i < c.pageSize) ∧ ∀ i, path.head? = some i → i < 2 ^ topWidth c

/-- Digits read in base `PAGE_SIZE`. -/
def digits (c : MemoryConstants) (path : List Nat) : Nat :=
  path.foldl (fun value i => value * c.pageSize + i) 0

@[simp]
theorem digits_nil : digits c [] = 0 := rfl

@[simp]
theorem digits_concat (path : List Nat) (i : Nat) :
    digits c (path ++ [i]) = digits c path * c.pageSize + i := by
  simp [digits]

@[simp]
theorem pathPage_concat (path : List Nat) (i : Nat) :
    pathPage c (path ++ [i]) = extendPath c (pathPage c path) i := by
  simp [pathPage]

theorem addressPath_succ (virtualAddress levels : Nat) :
    addressPath c virtualAddress (levels + 1) =
      addressPath c virtualAddress levels ++ [calculateBits c virtualAddress levels] := by
  simp [addressPath, List.range_succ]

@[simp]
theorem length_addressPath (virtualAddress levels : Nat) :
    (addressPath c virtualAddress levels).length = levels := by
  simp [addressPath]

theorem addressPath_prefix (virtualAddress : Nat) {levels levels' : Nat} (hle : levels ≤ levels') :
    addressPath c virtualAddress levels <+: addressPath c virtualAddress levels' := by
  induction hle with
  | refl => exact List.prefix_refl _
  | step _ ih =>
      rw [addressPath_succ]
      exact ih.trans (List.prefix_append _ _)

/-! ### Digits -/

theorem digits_lt {path : List Nat} (hpath : ∀ i ∈ path, i < c.pageSize) :
    digits c path < c.pageSize ^ path.length := by
  induction path using List.reverseRecOn with
  | nil => simp
  | append_singleton path i ih =>
      have hrest := ih fun j hj => hpath j (by simp [hj])
      have hi := hpath i (by simp)
      rw [digits_concat, List.length_append, List.length_singleton, pow_succ]
      calc digits c path * c.pageSize + i < (digits c path + 1) * c.pageSize := by
            rw [Nat.add_mul]; omega
        _ ≤ c.pageSize ^ path.length * c.pageSize := Nat.mul_le_mul_right _ hrest

theorem digits_append (path rest : List Nat) :
    digits c (path ++ rest) = digits c path * c.pageSize ^ rest.length + digits c rest := by
  induction rest using List.reverseRecOn with
  | nil => simp
  | append_singleton rest i ih =>
      rw [← List.append_assoc, digits_concat, digits_concat, ih, List.length_append,
        List.length_singleton, pow_succ]
      ring

theorem digits_injective {path path' : List Nat} (hlength : path.length = path'.length)
    (hpath : ∀ i ∈ path, i < c.pageSize) (hpath' : ∀ i ∈ path', i < c.pageSize)
    (heq : digits c path = digits c path') : path = path' := by
  induction path using List.reverseRecOn generalizing path' with
  | nil => exact (List.length_eq_zero_iff.mp hlength.symm).symm
  | append_singleton path i ih =>
      obtain rfl | ⟨path', j, rfl⟩ := path'.eq_nil_or_concat'
      · simp at hlength
      · rw [digits_concat, digits_concat] at heq
        have hi := hpath i (by simp)
        have hj := hpath' j (by simp)
        have hdigit : i = j := by
          have := congrArg (· % c.pageSize) heq
          simpa [Nat.mul_add_mod_of_lt, hi, hj, Nat.add_mod, Nat.mod_eq_of_lt] using this
        subst hdigit
        have hrest := Nat.eq_of_mul_eq_mul_right MemoryConstants.pageSize_pos (Nat.add_right_cancel heq)
        rw [ih (by simpa using hlength) (fun k hk => hpath k (by simp [hk]))
          (fun k hk => hpath' k (by simp [hk])) hrest]

theorem shiftRight_offsetWidth (virtualAddress : Nat) :
    virtualAddress >>> c.offsetWidth = virtualAddress / c.pageSize :=
  Nat.shiftRight_eq_div_pow _ _

theorem extendPath_eq {value i : Nat} (hi : i < c.pageSize) (hfit : value * c.pageSize < 2 ^ 64) :
    extendPath c value i = value * c.pageSize + i := by
  have hshift : value <<< c.offsetWidth = value * c.pageSize := Nat.shiftLeft_eq _ _
  rw [extendPath, Nat.mod_eq_of_lt (by rwa [hshift]), ← Nat.shiftLeft_add_eq_or_of_lt hi, hshift]

/-! ### The indices of an address -/

section Widths

variable (hpos : 1 ≤ c.offsetWidth) (hlt : c.offsetWidth < c.virtualAddressWidth)
include hpos hlt

theorem topWidth_le : topWidth c ≤ c.offsetWidth := by
  have := (MemoryConstants.tablesDepth_mul_lt hpos hlt).2
  rw [Nat.add_mul] at this
  unfold topWidth
  omega

theorem topWidth_eq_mod (hremainder : c.virtualAddressWidth % c.offsetWidth ≠ 0) :
    c.virtualAddressWidth % c.offsetWidth = topWidth c := by
  have hle := topWidth_le hpos hlt
  have hdepth := (MemoryConstants.tablesDepth_mul_lt hpos hlt).1
  have hsplit : c.virtualAddressWidth = topWidth c + c.offsetWidth * c.tablesDepth := by
    rw [topWidth, Nat.mul_comm c.offsetWidth]
    omega
  rw [hsplit, Nat.add_mul_mod_self_left] at hremainder ⊢
  rcases hle.lt_or_eq with hless | heq
  · exact Nat.mod_eq_of_lt hless
  · rw [heq, Nat.mod_self] at hremainder
    exact absurd rfl hremainder

theorem digits_lt_of_indexPath {path : List Nat} (hpath : IndexPath c path)
    (hlength : path.length ≤ c.tablesDepth) :
    digits c path < 2 ^ (c.virtualAddressWidth - c.offsetWidth) := by
  have hdepth := MemoryConstants.tablesDepth_pos hlt
  have hcover := (MemoryConstants.tablesDepth_mul_lt hpos hlt).1
  cases path with
  | nil => exact Nat.two_pow_pos _
  | cons i path =>
      have hrest : digits c path < c.pageSize ^ path.length :=
        digits_lt fun j hj => hpath.1 j (by simp [hj])
      have hhead := hpath.2 i rfl
      have hcons : digits c (i :: path) = i * c.pageSize ^ path.length + digits c path := by
        simpa [digits] using digits_append (c := c) [i] path
      rw [List.length_cons] at hlength
      have hwidth : topWidth c + c.offsetWidth * path.length ≤
          c.virtualAddressWidth - c.offsetWidth := by
        have hlevels : c.offsetWidth * (path.length + 1) ≤ c.tablesDepth * c.offsetWidth := by
          rw [Nat.mul_comm]
          exact Nat.mul_le_mul_right _ hlength
        rw [Nat.mul_add] at hlevels
        unfold topWidth
        omega
      calc digits c (i :: path) < (i + 1) * c.pageSize ^ path.length := by
            rw [hcons, Nat.add_mul]; omega
        _ ≤ 2 ^ topWidth c * c.pageSize ^ path.length := Nat.mul_le_mul_right _ hhead
        _ = 2 ^ (topWidth c + c.offsetWidth * path.length) := by
            rw [MemoryConstants.pageSize, ← pow_mul, pow_add]
        _ ≤ 2 ^ (c.virtualAddressWidth - c.offsetWidth) := Nat.pow_le_pow_right (by decide) hwidth

/-- What is left of an address at the top level fits the narrow mask. -/
theorem topQuotient_lt {virtualAddress : Nat}
    (haddress : virtualAddress < 2 ^ c.virtualAddressWidth) :
    virtualAddress / c.pageSize ^ c.tablesDepth < 2 ^ topWidth c := by
  have hcover := (MemoryConstants.tablesDepth_mul_lt hpos hlt).1
  rw [Nat.div_lt_iff_lt_mul (pow_pos MemoryConstants.pageSize_pos _), MemoryConstants.pageSize,
    ← pow_mul, ← pow_add]
  refine haddress.trans_le (Nat.pow_le_pow_right (by decide) ?_)
  rw [topWidth, Nat.mul_comm c.offsetWidth]
  omega

/-- The special narrow mask of the top level makes no difference for an address in range. -/
theorem calculateBits_eq {virtualAddress level : Nat}
    (haddress : virtualAddress < 2 ^ c.virtualAddressWidth) :
    calculateBits c virtualAddress level =
      virtualAddress / c.pageSize ^ (c.tablesDepth - level) % c.pageSize := by
  have hshift : virtualAddress >>> ((c.tablesDepth - level) * c.offsetWidth) =
      virtualAddress / c.pageSize ^ (c.tablesDepth - level) := by
    rw [Nat.shiftRight_eq_div_pow, MemoryConstants.pageSize, ← pow_mul, Nat.mul_comm]
  unfold calculateBits
  simp only [Nat.one_shiftLeft, Nat.and_two_pow_sub_one_eq_mod, hshift]
  split
  · rfl
  · rename_i htop
    rw [not_or, not_not] at htop
    obtain ⟨rfl, hremainder⟩ := htop
    rw [topWidth_eq_mod hpos hlt hremainder, Nat.sub_zero]
    have hquotient := topQuotient_lt hpos hlt haddress
    rw [Nat.mod_eq_of_lt hquotient, Nat.mod_eq_of_lt]
    exact hquotient.trans_le (Nat.pow_le_pow_right (by decide) (topWidth_le hpos hlt))

theorem calculateBits_lt {virtualAddress level : Nat}
    (haddress : virtualAddress < 2 ^ c.virtualAddressWidth) :
    calculateBits c virtualAddress level < c.pageSize := by
  rw [calculateBits_eq hpos hlt haddress]
  exact Nat.mod_lt _ MemoryConstants.pageSize_pos

theorem calculateBits_zero_lt {virtualAddress : Nat}
    (haddress : virtualAddress < 2 ^ c.virtualAddressWidth) :
    calculateBits c virtualAddress 0 < 2 ^ topWidth c := by
  rw [calculateBits_eq hpos hlt haddress, Nat.sub_zero]
  exact (Nat.mod_le _ _).trans_lt (topQuotient_lt hpos hlt haddress)

theorem indexPath_addressPath {virtualAddress : Nat}
    (haddress : virtualAddress < 2 ^ c.virtualAddressWidth) (levels : Nat) :
    IndexPath c (addressPath c virtualAddress levels) := by
  constructor
  · intro i hi
    obtain ⟨level, -, rfl⟩ := List.mem_map.mp hi
    exact calculateBits_lt hpos hlt haddress
  · intro i hi
    cases levels with
    | zero => simp [addressPath] at hi
    | succ levels =>
        rw [addressPath, List.range_succ_eq_map, List.map_cons, List.head?_cons] at hi
        cases hi
        exact calculateBits_zero_lt hpos hlt haddress

theorem digits_addressPath {virtualAddress : Nat}
    (haddress : virtualAddress < 2 ^ c.virtualAddressWidth) :
    ∀ levels ≤ c.tablesDepth, digits c (addressPath c virtualAddress levels) =
      virtualAddress / c.pageSize ^ (c.tablesDepth + 1 - levels) := by
  intro levels
  induction levels with
  | zero =>
      intro _
      have hcover := (MemoryConstants.tablesDepth_mul_lt hpos hlt).2
      symm
      apply Nat.div_eq_of_lt
      rw [MemoryConstants.pageSize, ← pow_mul, Nat.mul_comm]
      exact haddress.trans_le (Nat.pow_le_pow_right (by decide) hcover)
  | succ levels ih =>
      intro hle
      rw [addressPath_succ, digits_concat, ih (by omega), calculateBits_eq hpos hlt haddress,
        show c.tablesDepth + 1 - levels = c.tablesDepth - levels + 1 by omega,
        show c.tablesDepth + 1 - (levels + 1) = c.tablesDepth - levels by omega, pow_succ,
        ← Nat.div_div_eq_div_mul, Nat.mul_comm]
      exact Nat.div_add_mod _ _

/-- The digits of a full address path are the page number. -/
theorem digits_addressPath_tablesDepth {virtualAddress : Nat}
    (haddress : virtualAddress < 2 ^ c.virtualAddressWidth) :
    digits c (addressPath c virtualAddress c.tablesDepth) = virtualAddress / c.pageSize := by
  rw [digits_addressPath hpos hlt haddress _ le_rfl, Nat.add_sub_cancel_left, pow_one]

/-- The search reads an index path back as its digits: the shifts never leave 64 bits. -/
theorem pathPage_eq_digits (hfit : c.virtualAddressWidth < 64) {path : List Nat}
    (hpath : IndexPath c path) (hlength : path.length ≤ c.tablesDepth) :
    pathPage c path = digits c path := by
  induction path using List.reverseRecOn with
  | nil => rfl
  | append_singleton path i ih =>
      have hinit : IndexPath c path := by
        refine ⟨fun j hj => hpath.1 j (by simp [hj]), fun j hj => hpath.2 j ?_⟩
        cases path with
        | nil => cases hj
        | cons k path => exact hj
      have hwhole := digits_lt_of_indexPath hpos hlt hpath hlength
      have hbound : 2 ^ (c.virtualAddressWidth - c.offsetWidth) ≤ 2 ^ 64 :=
        Nat.pow_le_pow_right (by decide) (by omega)
      rw [List.length_append, List.length_singleton] at hlength
      rw [digits_concat] at hwhole
      rw [pathPage_concat, digits_concat, ih hinit (by omega),
        extendPath_eq (hpath.1 i (by simp)) (by omega)]

/-- The indices of an address are read back as its page number. -/
theorem pathPage_addressPath_eq (hfit : c.virtualAddressWidth < 64) {virtualAddress : Nat}
    (haddress : virtualAddress < 2 ^ c.virtualAddressWidth) :
    pathPage c (addressPath c virtualAddress c.tablesDepth) = virtualAddress >>> c.offsetWidth := by
  have hpath := indexPath_addressPath hpos hlt haddress c.tablesDepth
  calc pathPage c (addressPath c virtualAddress c.tablesDepth)
    _ = digits c (addressPath c virtualAddress c.tablesDepth) :=
        pathPage_eq_digits hpos hlt hfit hpath (length_addressPath _ _).le
    _ = virtualAddress / c.pageSize := digits_addressPath_tablesDepth hpos hlt haddress
    _ = virtualAddress >>> c.offsetWidth := (shiftRight_offsetWidth _).symm

end Widths

theorem findOffset_eq (hoffset : c.offsetWidth ≤ 64) (virtualAddress : Nat) :
    findOffset c virtualAddress = virtualAddress % c.pageSize := by
  have hsplit : 2 ^ 64 = 2 ^ (64 - c.offsetWidth) * c.pageSize := by
    rw [MemoryConstants.pageSize, ← pow_add]
    congr 1
    omega
  rw [findOffset, Nat.shiftLeft_eq, Nat.shiftRight_eq_div_pow, hsplit, Nat.mul_comm virtualAddress,
    Nat.mul_mod_mul_left, Nat.mul_div_cancel_left _ (Nat.two_pow_pos _)]

end OsExercises.VirtualMemory
