import OsExercises.VirtualMemory.Access

/-!
# Sequences of calls

After any sequence of calls that starts with `VMinitialize` the page table is in order, and no
assertion of the physical memory has failed on the way. `TreeShape` says what this means for the
words of the RAM alone, without the tree of the invariant.
-/

namespace OsExercises.VirtualMemory

variable {c : MemoryConstants}

/-- The frame is a table of the page table. -/
def IsTable (c : MemoryConstants) (m : Memory) (frame : Nat) : Prop :=
  ∃ path, path.length < c.tablesDepth ∧ walk (entry c m) 0 path = some frame

def Reachable (c : MemoryConstants) (m : Memory) (frame : Nat) : Prop :=
  ∃ path, path.length ≤ c.tablesDepth ∧ walk (entry c m) 0 path = some frame

/-- The entries reachable from frame 0 form a tree, on an initial segment of the frames. -/
structure TreeShape (c : MemoryConstants) (m : Memory) : Prop where
  entry_range : ∀ frame, IsTable c m frame → ∀ i < c.pageSize, m.ram frame i ≠ 0 →
    1 ≤ (m.ram frame i).toInt ∧ (m.ram frame i).toInt < c.numFrames
  root_unreferenced : ∀ frame, IsTable c m frame → ∀ i, entry c m frame i ≠ some 0
  one_reference : ∀ frame, Reachable c m frame → frame ≠ 0 →
    ∃! reference : Nat × Nat, IsTable c m reference.1 ∧
      entry c m reference.1 reference.2 = some frame
  path_unique : ∀ path path' frame, path.length ≤ c.tablesDepth → path'.length ≤ c.tablesDepth →
    walk (entry c m) 0 path = some frame → walk (entry c m) 0 path' = some frame → path = path'
  initial_segment : ∃ last < c.numFrames, ∀ frame, Reachable c m frame ↔ frame ≤ last
  not_swapped : ∀ page frame, HoldsPage c m page frame → m.swapFile page = none

namespace PageTable

variable {m : Memory} {t : FrameTree c} (ht : PageTable c m t none)
include ht

theorem isTable_iff (frame : Nat) :
    IsTable c m frame ↔ ∃ path, path.length < c.tablesDepth ∧ t.node path = some frame := by
  refine exists_congr fun path => and_congr_right fun hlength => ?_
  rw [ht.represents.walk_eq path hlength.le]

theorem reachable_iff (frame : Nat) :
    Reachable c m frame ↔ ∃ path, t.node path = some frame := by
  constructor
  · rintro ⟨path, hlength, hwalk⟩
    exact ⟨path, by rw [← ht.represents.walk_eq path hlength, hwalk]⟩
  · rintro ⟨path, hnode⟩
    have hlength := t.length_le hnode
    exact ⟨path, hlength, by rw [ht.represents.walk_eq path hlength, hnode]⟩

theorem treeShape (hc : c.Valid) : TreeShape c m := by
  have hentry : ∀ {path frame i next}, path.length < c.tablesDepth → t.node path = some frame →
      entry c m frame i = some next → t.node (path ++ [i]) = some next := by
    intro path frame i next hlength hnode hnext
    rw [ht.represents.child_node i hnode hlength, hnext]
  refine ⟨?_, ?_, ?_, ?_, ?_, ?_⟩
  · intro frame htable i hi hne
    obtain ⟨path, hlength, hnode⟩ := (ht.isTable_iff frame).mp htable
    rcases ht.row_eq hc hnode hlength hi with ⟨hzero, -⟩ | ⟨next, hnext, hpos, hchild⟩
    · exact absurd hzero hne
    · have hlt := ht.frame_lt hchild
      rw [hnext, toInt_asInt (hlt.trans hc.numFrames_lt)]
      omega
  · intro frame htable i hroot
    obtain ⟨path, hlength, hnode⟩ := (ht.isTable_iff frame).mp htable
    exact ht.frame_ne_zero (hentry hlength hnode hroot) (by simp) rfl
  · intro frame hreach hne
    obtain ⟨full, hfull⟩ := (ht.reachable_iff frame).mp hreach
    obtain rfl | ⟨path, i, rfl⟩ := full.eq_nil_or_concat'
    · rw [ht.represents.root_node] at hfull
      exact absurd (Option.some.inj hfull).symm hne
    · obtain ⟨parent, hparent⟩ := t.parent_of_node hfull
      have hlength := ht.child_length hfull
      refine ⟨(parent, i), ⟨(ht.isTable_iff parent).mpr ⟨path, hlength, hparent⟩, ?_⟩, ?_⟩
      · rw [← hfull, ht.represents.child_node i hparent hlength]
      · rintro ⟨parent', i'⟩ ⟨htable, hnext⟩
        obtain ⟨path', hlength', hparent'⟩ := (ht.isTable_iff parent').mp htable
        have hsame := t.node_injective (hentry hlength' hparent' hnext) hfull
        obtain ⟨rfl, hsingle⟩ := List.append_inj' hsame rfl
        obtain rfl : i' = i := List.singleton_injective hsingle
        rw [hparent] at hparent'
        rw [Option.some.inj hparent']
  · intro path path' frame hlength hlength' hwalk hwalk'
    rw [ht.represents.walk_eq path hlength] at hwalk
    rw [ht.represents.walk_eq path' hlength'] at hwalk'
    exact t.node_injective hwalk hwalk'
  · obtain ⟨last, hlast, hframes⟩ := ht.frames
    refine ⟨last, hlast, fun frame => ?_⟩
    rw [ht.reachable_iff, ← hframes frame]
    simp
  · rintro page frame ⟨path, hfull, hwalk, rfl⟩
    rw [ht.represents.walk_eq path hfull.le] at hwalk
    exact ht.not_swapped hwalk hfull

end PageTable

section Runs

variable (hc : c.Valid) (hdepth : c.tablesDepth < c.numFrames)
include hc hdepth

theorem ensures_perform {t : FrameTree c} {s : Machine} (ht : PageTable c s.memory t none)
    (call : VmCall) :
    Ensures (Machine.Legal c) (call.perform c) s fun _ s' =>
      ∃ t' : FrameTree c, PageTable c s'.memory t' none := by
  cases call with
  | init =>
      refine (ensures_vmInitialize hc s).bind fun _ s₁ ht₁ => ?_
      exact ensures_pure ⟨_, ht₁⟩
  | read virtualAddress =>
      refine Ensures.bind (?_ : Ensures _ (vmRead c virtualAddress) s fun _ s' =>
        ∃ t' : FrameTree c, PageTable c s'.memory t' none) fun _ _ ht₁ => ensures_pure ht₁
      by_cases haddress : virtualAddress < c.virtualMemorySize
      · refine (ensures_vmRead hc hdepth ht haddress).mono ?_
        rintro - s₁ ⟨t₁, -, -, ht₁, -⟩
        exact ⟨t₁, ht₁⟩
      · have hsize : 0 < c.virtualMemorySize := Nat.two_pow_pos _
        rw [vmRead, if_pos (by omega)]
        exact ensures_pure ⟨t, ht⟩
  | write virtualAddress value =>
      refine Ensures.bind (?_ : Ensures _ (vmWrite c virtualAddress value) s fun _ s' =>
        ∃ t' : FrameTree c, PageTable c s'.memory t' none) fun _ _ ht₁ => ensures_pure ht₁
      by_cases haddress : virtualAddress < c.virtualMemorySize
      · refine (ensures_vmWrite hc hdepth ht haddress value).mono ?_
        rintro - s₁ ⟨t₁, -, ht₁, -⟩
        exact ⟨t₁, ht₁⟩
      · have hsize : 0 < c.virtualMemorySize := Nat.two_pow_pos _
        rw [vmWrite, if_pos (by omega)]
        exact ensures_pure ⟨t, ht⟩

theorem ensures_performAll (calls : List VmCall) :
    ∀ {t : FrameTree c} {s : Machine}, PageTable c s.memory t none →
      Ensures (Machine.Legal c) (performAll c calls) s fun _ s' =>
        ∃ t' : FrameTree c, PageTable c s'.memory t' none := by
  induction calls with
  | nil => exact fun {t s} ht => ensures_pure ⟨t, ht⟩
  | cons call calls ih =>
      intro t s ht
      refine (ensures_perform hc hdepth ht call).bind ?_
      rintro result s₁ ⟨t₁, ht₁⟩
      exact (ih ht₁).bind fun _ _ ht₂ => ensures_pure ht₂

/-- Every sequence of calls that starts with `VMinitialize` runs through without a failed assertion,
makes legal calls only and leaves a page table. -/
theorem performAll_run (m : Memory) (calls : List VmCall) :
    ∃ results s, performAll c (.init :: calls) m.machine = some (results, s) ∧
      CallsLegal c s.calls ∧ ∃ t : FrameTree c, PageTable c s.memory t none := by
  have hrun : Ensures (Machine.Legal c) (performAll c (.init :: calls)) m.machine fun _ s' =>
      ∃ t' : FrameTree c, PageTable c s'.memory t' none := by
    have hinit : Ensures (Machine.Legal c) (VmCall.init.perform c) m.machine fun _ s' =>
        ∃ t' : FrameTree c, PageTable c s'.memory t' none :=
      (ensures_vmInitialize hc m.machine).bind fun _ _ ht₁ => ensures_pure ⟨_, ht₁⟩
    refine hinit.bind ?_
    rintro result s₁ ⟨t₁, ht₁⟩
    exact (ensures_performAll hc hdepth calls ht₁).bind fun _ _ ht₂ => ensures_pure ht₂
  exact hrun (legal_machine m)

end Runs

/-! ### The sizes of the header -/

theorem given_tablesDepth_lt : MemoryConstants.given.tablesDepth < MemoryConstants.given.numFrames := by
  decide

/-- With the sizes of `MemoryConstants.h` the page table has the shape of a tree after every sequence
of calls. -/
theorem treeShape_performAll (m : Memory) (calls : List VmCall) :
    ∃ results s, performAll .given (.init :: calls) m.machine = some (results, s) ∧
      TreeShape .given s.memory := by
  obtain ⟨results, s, hrun, -, t, ht⟩ :=
    performAll_run MemoryConstants.valid_given given_tablesDepth_lt m calls
  exact ⟨results, s, hrun, ht.treeShape MemoryConstants.valid_given⟩

/-- No assertion fails, and every call of the physical memory was legal. -/
theorem callsLegal_performAll (m : Memory) (calls : List VmCall) :
    ∃ results s, performAll .given (.init :: calls) m.machine = some (results, s) ∧
      CallsLegal .given s.calls := by
  obtain ⟨results, s, hrun, hlegal, -⟩ :=
    performAll_run MemoryConstants.valid_given given_tablesDepth_lt m calls
  exact ⟨results, s, hrun, hlegal⟩

end OsExercises.VirtualMemory
