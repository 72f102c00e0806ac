import OsExercises.VirtualMemory.Fault

/-!
# Translation

`translate_address` walks down the tables and fills the entries it finds empty. After each level the
page table is in order, the path of the address leads to the frame of that level and no word of a
page is lost; so `VMread` and `VMwrite` find the page of their address in the RAM.
-/

namespace OsExercises.VirtualMemory

variable {c : MemoryConstants}

/-- From a page table to a later one with all words of the pages kept. -/
def Keeps (c : MemoryConstants) (m : Memory) (t : FrameTree c) (m' : Memory) (t' : FrameTree c) :
    Prop :=
  ∀ page offset word, Holds c m t page offset word → Holds c m' t' page offset word

theorem Keeps.refl (m : Memory) (t : FrameTree c) : Keeps c m t m t := fun _ _ _ => id

theorem Keeps.trans {m m' m'' : Memory} {t t' t'' : FrameTree c} (h : Keeps c m t m' t')
    (h' : Keeps c m' t' m'' t'') : Keeps c m t m'' t'' :=
  fun page offset word hword => h' page offset word (h page offset word hword)

section

variable (hc : c.Valid)
include hc

/-- The zeros of the rounds made so far. -/
theorem ensures_initializeFrame {frame : Nat} (hframe : frame < c.numFrames) (s : Machine) :
    Ensures (Machine.Legal c) (initializeFrame c frame) s fun _ s' =>
      s'.memory.swapFile = s.memory.swapFile ∧
        (∀ frame', frame' ≠ frame → s'.memory.ram frame' = s.memory.ram frame') ∧
        ∀ i < c.pageSize, s'.memory.ram frame i = 0 := by
  refine ensures_foldlM_range (fun n _ (s' : Machine) => s'.memory.swapFile = s.memory.swapFile ∧
    (∀ frame', frame' ≠ frame → s'.memory.ram frame' = s.memory.ram frame') ∧
    ∀ i < n, s'.memory.ram frame i = 0) ?_ ⟨rfl, fun _ _ => rfl, fun i hi => absurd hi (by omega)⟩
  rintro n hn - s₁ ⟨hswap, hother, hzero⟩
  refine (ensures_pmWrite s₁ (hc.entry_lt_ramSize hframe hn)).mono fun _ s₂ hs₂ => ?_
  rw [hs₂.1]
  refine ⟨hswap, fun frame' hne => ?_, fun i hi => ?_⟩
  · rw [store_ram_of_ne hn 0 hne, hother frame' hne]
  · rw [store_ram s₁.memory frame hn]
    split
    · rfl
    · exact hzero i (by omega)

theorem ensures_initializeFrame_counter {frame : Nat} (hframe : frame < c.numFrames)
    (s : Machine) :
    Ensures (Machine.Legal c) (initializeFrame c frame) s
      fun _ s' => s'.memory.evictCounter = s.memory.evictCounter := by
  refine ensures_foldlM_range (fun _ _ (s' : Machine) =>
    s'.memory.evictCounter = s.memory.evictCounter) ?_ rfl
  rintro n hn - s₁ hcounter
  refine (ensures_pmWrite s₁ (hc.entry_lt_ramSize hframe hn)).mono fun _ s₂ hs₂ => ?_
  rw [hs₂.1]
  exact hcounter

/-- A table frame is filled by `initialize_frame`. -/
theorem ensures_fill_table {path : List Nat} {frame : Nat} (hframe : frame < c.numFrames)
    (hshort : path.length < c.tablesDepth) (s : Machine) :
    Ensures (Machine.Legal c) (initializeFrame c frame) s
      fun _ s' => Filled c s.memory s'.memory path frame ∧
        s'.memory.evictCounter = s.memory.evictCounter := by
  refine ((ensures_initializeFrame hc hframe s).and
    (ensures_initializeFrame_counter hc hframe s)).mono fun _ s' hs' => ?_
  obtain ⟨⟨hswap, hother, hzero⟩, hcounter⟩ := hs'
  refine ⟨⟨hother _, fun _ => hzero, fun hfull => absurd hfull hshort.ne, fun page => ?_⟩, hcounter⟩
  rw [if_neg fun hboth => hshort.ne hboth.1, hswap]

omit hc in
/-- A page frame is filled by `PMrestore`. -/
theorem ensures_fill_page {path : List Nat} {frame : Nat} (hframe : frame < c.numFrames)
    (hfull : path.length = c.tablesDepth) (s : Machine) :
    Ensures (Machine.Legal c) (pmRestore c frame (pathPage c path)) s
      fun _ s' => Filled c s.memory s'.memory path frame ∧
        s'.memory.evictCounter = s.memory.evictCounter := by
  refine (ensures_pmRestore s hframe).mono fun _ s' hs' => ?_
  refine ⟨⟨fun hne => ?_, fun hshort => absurd hfull hshort.ne, fun _ words hswap => ?_,
    fun page => ?_⟩, by rw [hs', restore_evictCounter]⟩
  · rw [hs', restore_ram_of_ne _ _ hne]
  · rw [hs', restore_ram_of_swapped hswap]
  · simp only [hs', restore_swapFile, hfull, true_and]

section Address

variable {virtualAddress : Nat} (haddress : virtualAddress < c.virtualMemorySize)
include haddress

theorem page_lt : virtualAddress / c.pageSize < c.numPages := by
  rwa [Nat.div_lt_iff_lt_mul MemoryConstants.pageSize_pos, hc.numPages_mul_pageSize]

theorem pathPage_addressPath :
    pathPage c (addressPath c virtualAddress c.tablesDepth) = virtualAddress / c.pageSize := by
  have hwidth := hc.virtualAddressWidth_le
  have hfolded := pathPage_addressPath_eq hc.offsetWidth_pos hc.offsetWidth_lt_virtual (by omega)
    haddress
  rw [hfolded, shiftRight_offsetWidth]

variable {m : Memory} {t : FrameTree c} {level : Nat}

/-- A page is mapped at the path of its address and nowhere else. -/
theorem PageTable.path_eq (ht : PageTable c m t none) {path : List Nat} {frame : Nat}
    (hpage : IsPage t path frame) (hnumber : pathPage c path = virtualAddress / c.pageSize) :
    path = addressPath c virtualAddress c.tablesDepth := by
  have hpath := indexPath_addressPath hc.offsetWidth_pos hc.offsetWidth_lt_virtual haddress
    c.tablesDepth
  refine digits_injective (by rw [hpage.2, length_addressPath]) (ht.indexPath hpage.1).1 hpath.1 ?_
  rw [← ht.pathPage_eq hc hpage.1, hnumber,
    digits_addressPath_tablesDepth hc.offsetWidth_pos hc.offsetWidth_lt_virtual haddress]

/-- While the way to it is not complete, the page of an address is not mapped. -/
theorem PageTable.unmapped (ht : PageTable c m t none) (hlevel : level ≤ c.tablesDepth)
    (hnone : t.node (addressPath c virtualAddress level) = none) (path : List Nat) (frame : Nat)
    (hpage : IsPage t path frame) : pathPage c path ≠ virtualAddress / c.pageSize := by
  intro hnumber
  have hmapped := hpage.1
  obtain ⟨rest, hrest⟩ := addressPath_prefix (c := c) virtualAddress hlevel
  rw [ht.path_eq hc haddress hpage hnumber, ← hrest] at hmapped
  obtain ⟨n, hn⟩ := t.node_of_append hmapped
  rw [hnone] at hn
  cases hn

/-- The index of the top level is narrower. -/
theorem top_index_lt (level : Nat) (htop : addressPath c virtualAddress level = []) :
    calculateBits c virtualAddress level < 2 ^ topWidth c := by
  have hzero := congrArg List.length htop
  rw [length_addressPath, List.length_nil] at hzero
  subst hzero
  exact calculateBits_zero_lt hc.offsetWidth_pos hc.offsetWidth_lt_virtual haddress

theorem level_bits_lt (level : Nat) : calculateBits c virtualAddress level < c.pageSize :=
  calculateBits_lt hc.offsetWidth_pos hc.offsetWidth_lt_virtual haddress

/-- The place of the entry of a level is computed without overflow. -/
theorem level_entry_eq {frame : Nat} (hframe : frame < c.numFrames) :
    (asUInt64 (asInt frame) * c.pageSize + calculateBits c virtualAddress level) % 2 ^ 64 =
      frame * c.pageSize + calculateBits c virtualAddress level := by
  have hentry := hc.entry_lt_ramSize hframe (level_bits_lt hc haddress level)
  have hram := hc.ramSize_lt
  rw [asUInt64_asInt (hframe.trans hc.numFrames_lt), Nat.mod_eq_of_lt (by omega)]

/-- The entry of a level is zero when the next level is missing, and its frame when it is not. -/
theorem ensures_readEntry {frame : Nat} {s : Machine} (hlevel : level < c.tablesDepth)
    (ht : PageTable c s.memory t none)
    (hnode : t.node (addressPath c virtualAddress level) = some frame) :
    Ensures (Machine.Legal c) (pmRead c (frame * c.pageSize + calculateBits c virtualAddress level))
      s fun word s' => s'.memory = s.memory ∧
        (word = 0 ↔ t.node (addressPath c virtualAddress (level + 1)) = none) ∧
        ∀ next, t.node (addressPath c virtualAddress (level + 1)) = some next →
          word = asInt next := by
  have hbit := level_bits_lt hc haddress level
  have hlength : (addressPath c virtualAddress level).length < c.tablesDepth := by simpa
  refine (ensures_pmRead s (hc.entry_lt_ramSize (ht.frame_lt hnode) hbit)).mono ?_
  rintro word s' ⟨hword, hs'⟩
  rw [load_entry _ _ hbit] at hword
  rw [addressPath_succ, hword]
  refine ⟨hs', ?_⟩
  rcases ht.row_eq hc hnode hlength hbit with ⟨hzero, hnone⟩ | ⟨next, hrow, hne, hchild⟩
  · refine ⟨iff_of_true hzero hnone, fun next hnext => ?_⟩
    rw [hnone] at hnext
    cases hnext
  · have hsmall := (ht.frame_lt hchild).trans hc.numFrames_lt
    rw [hrow, hchild]
    refine ⟨?_, fun next' hnext => congrArg asInt (Option.some.inj hnext)⟩
    rw [asInt_eq_zero_iff hsmall]
    exact iff_of_false hne (by simp)

/-- A level that is mapped: its entry is followed. -/
theorem ensures_translateLevel_mapped {frame next : Nat} {s : Machine}
    (hlevel : level < c.tablesDepth) (ht : PageTable c s.memory t none)
    (hnode : t.node (addressPath c virtualAddress level) = some frame)
    (hnext : t.node (addressPath c virtualAddress (level + 1)) = some next) :
    Ensures (Machine.Legal c)
      (translateLevel c virtualAddress (asInt (virtualAddress >>> c.offsetWidth)) (asInt frame) level)
      s fun word s' => word = asInt next ∧ s'.memory = s.memory := by
  simp only [translateLevel, level_entry_eq hc haddress (ht.frame_lt hnode)]
  refine (ensures_readEntry hc haddress hlevel ht hnode).bind ?_
  rintro word s₁ ⟨hs₁, hzero, hword⟩
  have hne : ¬ word = 0 := by
    rw [hzero, hnext]
    simp
  rw [if_neg hne]
  exact ensures_pure ⟨hword next hnext, hs₁⟩

omit haddress in
/-- The entry for a frame that is filled is set last. -/
theorem ensures_setEntry {m : Memory} {t' : FrameTree c} {path : List Nat} {i parent frame : Nat}
    {s : Machine} (ht' : PageTable c m t' (some frame)) (hparent : t'.node path = some parent)
    (hshort : path.length < c.tablesDepth) (hnone : t'.node (path ++ [i]) = none)
    (hi : i < c.pageSize) (htop : path = [] → i < 2 ^ topWidth c)
    (hfilled : Filled c m s.memory (path ++ [i]) frame) :
    Ensures (Machine.Legal c) (pmWrite c (parent * c.pageSize + i) (asInt frame)) s fun _ s' =>
      PageTable c s'.memory (FrameTree.link ht' hparent hshort hnone) none ∧
        Keeps c m t' s'.memory (FrameTree.link ht' hparent hshort hnone) ∧
        s'.memory.evictCounter = s.memory.evictCounter := by
  refine (ensures_pmWrite s (hc.entry_lt_ramSize (ht'.frame_lt hparent) hi)).mono fun _ s' hs' => ?_
  rw [hs'.1]
  refine ⟨ht'.link hparent hshort hnone hfilled hc hi htop, fun page offset word hword => ?_, rfl⟩
  exact hword.link ht' hparent hshort hnone hfilled hi

/-- The next level is in the tables, at the frame that the round answers; the way to it is as it was
and no word of a page is lost. -/
def LevelDone (c : MemoryConstants) (virtualAddress level : Nat) (m : Memory) (t : FrameTree c)
    (word : Word) (m' : Memory) : Prop :=
  ∃ t' frame', word = asInt frame' ∧ PageTable c m' t' none ∧
    t'.node (addressPath c virtualAddress (level + 1)) = some frame' ∧
    (∀ path, path <+: addressPath c virtualAddress level → t'.node path = t.node path) ∧
    Keeps c m t m' t'

/-- A fault at a level: `find_frame` leaves a frame spare in `m₁`, the frame is filled, and the entry
for the next level is set. -/
structure LevelFault (c : MemoryConstants) (virtualAddress level frame : Nat) (m : Memory)
    (t : FrameTree c) (m₁ : Memory) (t₁ : FrameTree c) (found : Nat) (m' : Memory)
    (t' : FrameTree c) : Prop where
  choice : FrameChoice c m t frame (virtualAddress / c.pageSize) m₁ found
  spare : PageTable c m₁ t₁ (some found)
  way : ∀ path, path <+: addressPath c virtualAddress level → t₁.node path = t.node path
  old : ∀ path n, t₁.node path = some n → t.node path = some n
  table : PageTable c m' t' none
  node : ∀ path, t'.node path =
    if path = addressPath c virtualAddress (level + 1) then some found else t₁.node path
  keeps : Keeps c m t m' t'
  counter : m'.evictCounter = m₁.evictCounter

/-- With its frame filled, a level is done once the entry is set. -/
theorem ensures_link {m : Memory} {t' : FrameTree c} {frame found : Nat} {s₃ : Machine}
    (hlevel : level < c.tablesDepth) (ht' : PageTable c m t' (some found))
    (hparent : t'.node (addressPath c virtualAddress level) = some frame)
    (hnone : t'.node (addressPath c virtualAddress (level + 1)) = none)
    (hfilled : Filled c m s₃.memory (addressPath c virtualAddress (level + 1)) found) :
    Ensures (Machine.Legal c) (do
      pmWrite c (frame * c.pageSize + calculateBits c virtualAddress level) (asInt found)
      pure (asInt found)) s₃ fun word s' => ∃ t'', word = asInt found ∧
        PageTable c s'.memory t'' none ∧
        (∀ path, t''.node path =
          if path = addressPath c virtualAddress (level + 1) then some found else t'.node path) ∧
        Keeps c m t' s'.memory t'' ∧ s'.memory.evictCounter = s₃.memory.evictCounter := by
  have hlength : (addressPath c virtualAddress level).length < c.tablesDepth := by simpa
  rw [addressPath_succ] at hnone hfilled ⊢
  refine (ensures_setEntry hc ht' hparent hlength hnone (level_bits_lt hc haddress level)
    (top_index_lt hc haddress level) hfilled).bind ?_
  rintro - s₄ ⟨ht₄, hkeeps, hcounter⟩
  exact ensures_pure ⟨_, rfl, ht₄, FrameTree.link_node ht' hparent hlength hnone, hkeeps, hcounter⟩

/-- A level that is not mapped: its frame is found and filled, and the entry is set. -/
theorem ensures_translateLevel_fault (hlevel : level < c.tablesDepth) {frame : Nat} {s : Machine}
    (ht : PageTable c s.memory t none) (hleft : FrameLeft t frame)
    (hnode : t.node (addressPath c virtualAddress level) = some frame)
    (hmissing : t.node (addressPath c virtualAddress (level + 1)) = none) :
    Ensures (Machine.Legal c)
      (translateLevel c virtualAddress (asInt (virtualAddress >>> c.offsetWidth)) (asInt frame) level)
      s fun word s' => ∃ m₁ t₁ found t', word = asInt found ∧
        LevelFault c virtualAddress level frame s.memory t m₁ t₁ found s'.memory t' := by
  have hframe := ht.frame_lt hnode
  have hpage := page_lt hc haddress
  have hlength : (addressPath c virtualAddress level).length < c.tablesDepth := by simpa
  have hunmapped := ht.unmapped hc haddress hlevel hmissing
  have hlevels := length_addressPath (c := c) virtualAddress (level + 1)
  simp only [translateLevel, level_entry_eq hc haddress hframe, shiftRight_offsetWidth]
  simp only [asUInt64_asInt (hframe.trans hc.numFrames_lt),
    asUInt64_asInt (hpage.trans hc.numPages_lt)]
  refine (ensures_readEntry hc haddress hlevel ht hnode).bind ?_
  rintro word s₁ ⟨hs₁, hzero, -⟩
  rw [if_pos (hzero.mpr hmissing)]
  refine (ensures_findFrame hc ht hpage ⟨_, hnode, hlength⟩ hunmapped hs₁ hleft).bind ?_
  intro found s₂ hchoice
  obtain ⟨t₁, ht₁, hkept, hold, hwords⟩ := hchoice.spare hc ht hnode hlength
  have hnone : t₁.node (addressPath c virtualAddress (level + 1)) = none := by
    by_contra hsome
    obtain ⟨n, hn⟩ := Option.ne_none_iff_exists'.mp hsome
    rw [hold _ n hn] at hmissing
    cases hmissing
  have hparent := (hkept _ (List.prefix_refl _)).trans hnode
  -- both ways of filling the frame are followed by the entry
  have hlink : ∀ s₃ : Machine,
      Filled c s₂.memory s₃.memory (addressPath c virtualAddress (level + 1)) found ∧
        s₃.memory.evictCounter = s₂.memory.evictCounter →
      Ensures (Machine.Legal c) (do
        pmWrite c (frame * c.pageSize + calculateBits c virtualAddress level) (asInt found)
        pure (asInt found)) s₃ fun word s' => ∃ m₁ t₁ found t', word = asInt found ∧
          LevelFault c virtualAddress level frame s.memory t m₁ t₁ found s'.memory t' := by
    rintro s₃ ⟨hfilled, hcounter⟩
    refine (ensures_link hc haddress hlevel ht₁ hparent hnone hfilled).mono ?_
    rintro word s' ⟨t', rfl, ht', hnodes, hkeeps, hcounter'⟩
    exact ⟨s₂.memory, t₁, found, t', rfl, hchoice, ht₁, hkept, hold, ht', hnodes,
      Keeps.trans hwords hkeeps, hcounter'.trans hcounter⟩
  rw [asUInt64_asInt (ht₁.spare_lt.trans hc.numFrames_lt)]
  by_cases hshort : level + 1 < c.tablesDepth
  · rw [if_pos hshort]
    exact (ensures_fill_table hc ht₁.spare_lt (hlevels.trans_lt hshort) s₂).bind fun _ => hlink
  · rw [if_neg hshort]
    have hfull : level + 1 = c.tablesDepth := by omega
    have hnumber : virtualAddress / c.pageSize =
        pathPage c (addressPath c virtualAddress (level + 1)) := by
      rw [hfull, pathPage_addressPath hc haddress]
    rw [hnumber]
    exact (ensures_fill_page ht₁.spare_lt (hlevels.trans hfull) s₂).bind fun _ => hlink

omit hc haddress in
theorem LevelFault.done {m₁ m' : Memory} {t₁ t' : FrameTree c} {frame found : Nat}
    (hfault : LevelFault c virtualAddress level frame m t m₁ t₁ found m' t') :
    LevelDone c virtualAddress level m t (asInt found) m' := by
  refine ⟨t', found, rfl, hfault.table, ?_, ?_, hfault.keeps⟩
  · rw [hfault.node, if_pos rfl]
  · -- the new node is longer than the way to it
    intro path hpre
    rw [hfault.node, if_neg, hfault.way path hpre]
    rintro rfl
    have hle := hpre.length_le
    rw [length_addressPath, length_addressPath] at hle
    omega

theorem ensures_translateLevel_missing (hlevel : level < c.tablesDepth) {frame : Nat} {s : Machine}
    (ht : PageTable c s.memory t none) (hleft : FrameLeft t frame)
    (hnode : t.node (addressPath c virtualAddress level) = some frame)
    (hmissing : t.node (addressPath c virtualAddress (level + 1)) = none) :
    Ensures (Machine.Legal c)
      (translateLevel c virtualAddress (asInt (virtualAddress >>> c.offsetWidth)) (asInt frame) level)
      s fun word s' => LevelDone c virtualAddress level s.memory t word s'.memory := by
  refine (ensures_translateLevel_fault hc haddress hlevel ht hleft hnode hmissing).mono ?_
  rintro word s' ⟨m₁, t₁, found, t', rfl, hfault⟩
  exact hfault.done

variable (hdepth : c.tablesDepth < c.numFrames)
include hdepth

theorem ensures_translateLevel (hlevel : level < c.tablesDepth) {frame : Nat} {s : Machine}
    (ht : PageTable c s.memory t none)
    (hnode : t.node (addressPath c virtualAddress level) = some frame) :
    Ensures (Machine.Legal c)
      (translateLevel c virtualAddress (asInt (virtualAddress >>> c.offsetWidth)) (asInt frame) level)
      s fun word s' => LevelDone c virtualAddress level s.memory t word s'.memory := by
  cases hnext : t.node (addressPath c virtualAddress (level + 1)) with
  | none =>
      have hleft := frameLeft_of_depth hdepth ⟨_, hnode, by rwa [length_addressPath]⟩
      exact ensures_translateLevel_missing hc haddress hlevel ht hleft hnode hnext
  | some next =>
      refine (ensures_translateLevel_mapped hc haddress hlevel ht hnode hnext).mono ?_
      rintro word s' ⟨hword, hs'⟩
      rw [hs']
      exact ⟨t, next, hword, ht, hnext, fun _ _ => rfl, Keeps.refl _ _⟩

theorem ensures_translateAddress {t : FrameTree c} {s : Machine} (ht : PageTable c s.memory t none) :
    Ensures (Machine.Legal c) (translateAddress c virtualAddress) s fun frame s' =>
      ∃ t', PageTable c s'.memory t' none ∧
        IsPage t' (addressPath c virtualAddress c.tablesDepth) frame ∧
        Keeps c s.memory t s'.memory t' := by
  unfold translateAddress
  refine (ensures_foldlM_range (fun level word (s' : Machine) => ∃ (t' : FrameTree c) (frame : Nat),
    word = asInt frame ∧ PageTable c s'.memory t' none ∧
      t'.node (addressPath c virtualAddress level) = some frame ∧
      Keeps c s.memory t s'.memory t') ?_ ?_).bind ?_
  · rintro level hlevel word s₁ ⟨t₁, frame, rfl, ht₁, hnode, hkeeps⟩
    refine (ensures_translateLevel hc haddress hdepth hlevel ht₁ hnode).mono ?_
    rintro word s₂ ⟨t₂, frame', hword, ht₂, hnode', -, hkeeps'⟩
    exact ⟨t₂, frame', hword, ht₂, hnode', hkeeps.trans hkeeps'⟩
  · exact ⟨t, 0, asInt_zero.symm, ht, ht.represents.root_node, Keeps.refl _ _⟩
  · rintro word s₁ ⟨t₁, frame, rfl, ht₁, hnode, hkeeps⟩
    refine ensures_pure ⟨t₁, ht₁, ?_, hkeeps⟩
    rw [asUInt64_asInt ((ht₁.frame_lt hnode).trans hc.numFrames_lt)]
    exact ⟨hnode, length_addressPath _ _⟩

end Address

end

end OsExercises.VirtualMemory
