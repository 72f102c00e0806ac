import OsExercises.VirtualMemory.Translate

/-!
# Calls of the virtual memory

`VMinitialize` starts a page table. `VMread` and `VMwrite` keep it, find the word of their address in
its page and leave every other word of every page as it was.
-/

namespace OsExercises.VirtualMemory

variable {c : MemoryConstants}

/-- A page has one word at an offset, be it in the RAM or in the swap file. -/
theorem Holds.unique {m : Memory} {t : FrameTree c} (hc : c.Valid) (ht : PageTable c m t none)
    {page offset : Nat} {word word' : Word} (hword : Holds c m t page offset word)
    (hword' : Holds c m t page offset word') : word = word' := by
  have hswapped : ∀ {path frame words}, IsPage t path frame → pathPage c path = page →
      m.swapFile page ≠ some words := by
    rintro path frame words hpage rfl hswap
    rw [ht.not_swapped hpage.1 hpage.2] at hswap
    cases hswap
  rcases hword with ⟨path, frame, hpage, hnumber, hram⟩ | ⟨words, hswap, hword⟩
  · rcases hword' with ⟨path', frame', hpage', hnumber', hram'⟩ | ⟨words, hswap, -⟩
    · have hpath := ht.path_eq_of_pathPage_eq hc hpage.1 hpage'.1 (hpage.2.trans hpage'.2.symm)
        (hnumber.trans hnumber'.symm)
      have hframe := hpage.1
      rw [hpath, hpage'.1] at hframe
      rw [← hram, ← hram', Option.some.inj hframe]
    · exact absurd hswap (hswapped hpage hnumber)
  · rcases hword' with ⟨path', frame', hpage', hnumber', -⟩ | ⟨words', hswap', hword'⟩
    · exact absurd hswap (hswapped hpage' hnumber')
    · rw [hswap] at hswap'
      rw [← hword, ← hword', Option.some.inj hswap']

section Write

variable {m : Memory} {t : FrameTree c} {path : List Nat} {frame offset : Nat}
  (hpage : IsPage t path frame) (hoffset : offset < c.pageSize) (value : Word)
include hpage hoffset

/-- The words of a page are no entries. -/
theorem PageTable.writePage (ht : PageTable c m t none) :
    PageTable c (m.store c (frame * c.pageSize + offset) value) t none := by
  refine ⟨ht.represents.congr fun path' frame' i hnode hshort => ?_, ht.top_index, ht.frames,
    ht.spare_fresh, ht.not_swapped⟩
  exact entry_congr (store_ram_of_ne hoffset value (hpage.ne_table hnode hshort).symm) i

theorem Holds.writePage_self :
    Holds c (m.store c (frame * c.pageSize + offset) value) t (pathPage c path) offset value :=
  Or.inl ⟨path, frame, hpage, rfl, by rw [store_ram m frame hoffset, if_pos ⟨rfl, rfl⟩]⟩

theorem Holds.writePage_other {page' offset' : Nat} {word : Word}
    (hother : page' ≠ pathPage c path ∨ offset' ≠ offset) (hword : Holds c m t page' offset' word) :
    Holds c (m.store c (frame * c.pageSize + offset) value) t page' offset' word := by
  rcases hword with ⟨path', frame', hpage', rfl, hram⟩ | hswap
  · refine Or.inl ⟨path', frame', hpage', rfl, ?_⟩
    rw [store_ram m frame hoffset, if_neg, hram]
    rintro ⟨rfl, rfl⟩
    have hpath := t.node_injective hpage'.1 hpage.1
    exact hother.elim (fun h => h (congrArg _ hpath)) fun h => h rfl
  · exact Or.inr hswap

end Write

section Calls

variable (hc : c.Valid)
include hc

/-- `VMinitialize` leaves a root table without entries, whatever the memory was before. -/
theorem ensures_vmInitialize (s : Machine) :
    Ensures (Machine.Legal c) (vmInitialize c) s
      fun _ s' => PageTable c s'.memory (PathTree.single 0) none := by
  have hframes : 0 < c.numFrames := by
    rw [hc.numFrames_eq]
    exact Nat.two_pow_pos _
  have hroot : ∀ {path frame},
      (PathTree.single 0 : FrameTree c).node path = some frame → path = [] ∧ frame = 0 := by
    intro path frame hnode
    by_cases hnil : path = []
    · subst hnil
      exact ⟨rfl, (Option.some.inj hnode).symm⟩
    · simp [PathTree.single, hnil] at hnode
  refine (ensures_initializeFrame hc hframes s).mono fun _ s' hs' => ?_
  obtain ⟨-, -, hzero⟩ := hs'
  refine ⟨.single fun i => if_neg fun hcond => hcond.2 (hzero i hcond.1), fun hnode => ?_,
    ⟨0, hframes, fun frame => ?_⟩, by rintro frame ⟨⟩, fun hnode hfull => ?_⟩
  · exact absurd (hroot hnode).1 (by simp)
  · simp only [reduceCtorEq, false_or, Nat.le_zero]
    constructor
    · rintro ⟨path, hnode⟩
      exact (hroot hnode).2
    · rintro rfl
      exact ⟨[], rfl⟩
  · have := hc.tablesDepth_pos
    rw [(hroot hnode).1, List.length_nil] at hfull
    omega

variable (hdepth : c.tablesDepth < c.numFrames) {virtualAddress : Nat} {t : FrameTree c} {s : Machine}
  (ht : PageTable c s.memory t none)
include hdepth ht

/-- A read finds the word of its address and loses none. -/
theorem ensures_vmRead (haddress : virtualAddress < c.virtualMemorySize) :
    Ensures (Machine.Legal c) (vmRead c virtualAddress) s fun result s' => ∃ t' word,
      result = some word ∧ PageTable c s'.memory t' none ∧ Keeps c s.memory t s'.memory t' ∧
        Holds c s'.memory t' (virtualAddress / c.pageSize) (virtualAddress % c.pageSize) word := by
  have hwidth := hc.physicalAddressWidth_le
  have hoffsetWidth := hc.offsetWidth_lt_physical
  have hoffset : virtualAddress % c.pageSize < c.pageSize :=
    Nat.mod_lt _ MemoryConstants.pageSize_pos
  simp only [vmRead, findOffset_eq (c := c) (by omega), if_neg (show
    ¬ c.virtualMemorySize - 1 < virtualAddress by omega)]
  refine (ensures_translateAddress hc haddress hdepth ht).bind ?_
  rintro frame s₁ ⟨t₁, ht₁, hpage, hkeeps⟩
  refine (ensures_pmRead s₁ (hc.entry_lt_ramSize (ht₁.frame_lt hpage.1) hoffset)).bind ?_
  rintro word s₂ ⟨rfl, hs₂⟩
  rw [load_entry _ _ hoffset]
  refine ensures_pure ⟨t₁, _, rfl, ?_, ?_, ?_⟩
  · rwa [hs₂]
  · rwa [hs₂]
  · rw [hs₂]
    exact Or.inl ⟨_, frame, hpage, pathPage_addressPath hc haddress, rfl⟩

theorem ensures_vmWrite (haddress : virtualAddress < c.virtualMemorySize) (value : Word) :
    Ensures (Machine.Legal c) (vmWrite c virtualAddress value) s fun success s' => ∃ t',
      success = true ∧ PageTable c s'.memory t' none ∧
        Holds c s'.memory t' (virtualAddress / c.pageSize) (virtualAddress % c.pageSize) value ∧
        ∀ page offset word, page ≠ virtualAddress / c.pageSize ∨ offset ≠ virtualAddress % c.pageSize →
          Holds c s.memory t page offset word → Holds c s'.memory t' page offset word := by
  have hwidth := hc.physicalAddressWidth_le
  have hoffsetWidth := hc.offsetWidth_lt_physical
  have hoffset : virtualAddress % c.pageSize < c.pageSize :=
    Nat.mod_lt _ MemoryConstants.pageSize_pos
  simp only [vmWrite, findOffset_eq (c := c) (by omega), if_neg (show
    ¬ c.virtualMemorySize - 1 < virtualAddress by omega)]
  refine (ensures_translateAddress hc haddress hdepth ht).bind ?_
  rintro frame s₁ ⟨t₁, ht₁, hpage, hkeeps⟩
  refine (ensures_pmWrite s₁ (hc.entry_lt_ramSize (ht₁.frame_lt hpage.1) hoffset)).bind ?_
  rintro - s₂ ⟨hs₂, -⟩
  have hnumber := pathPage_addressPath hc haddress
  rw [← hnumber]
  refine ensures_pure ⟨t₁, rfl, ?_, ?_, fun page offset word hother hword => ?_⟩
  · rw [hs₂]
    exact ht₁.writePage hpage hoffset value
  · rw [hs₂]
    exact Holds.writePage_self hpage hoffset value
  · rw [hs₂]
    exact (hkeeps page offset word hword).writePage_other hpage hoffset value hother

end Calls

end OsExercises.VirtualMemory
