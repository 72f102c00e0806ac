import OsExercises.VirtualMemory.FlatMemory
import OsExercises.VirtualMemory.Policy
import OsExercises.Library.Runs
import Mathlib.Data.Finset.Card

/-!
# Restarts

`VMinitialize` clears the root table and nothing else. In the middle of a run this cuts off the pages
that are in the RAM, whose words are lost, while those in the swap file come back at their next
access. On the array that the virtual memory stands for, a restart changes the words of the pages in
the RAM only, and there are no more of these than frames that are not needed for the tables above a
page.

The array goes beside the machine, as the memory before a call says what it may change. It is
followed backwards, as what it holds at first is only known from the results.
-/

namespace OsExercises.VirtualMemory

variable {c : MemoryConstants}

/-! ### The array -/

/-- What a call made in a memory does to the array, with its result. A restart loses pages that are
in the RAM at that moment, and keeps every word of the others. -/
inductive FlatStep (c : MemoryConstants) (m : Memory) :
    FlatMemory c → VmCall × VmResult → FlatMemory c → Prop where
  | init {flat flat' : FlatMemory c} (lost : Finset Nat) :
      lost.card + c.tablesDepth ≤ c.numFrames →
      (∀ page ∈ lost, m.swapFile page = none ∧ ∃ frame, HoldsPage c m page frame) →
      (∀ virtualAddress : Fin c.virtualMemorySize,
        (virtualAddress : Nat) / c.pageSize ∉ lost → flat' virtualAddress = flat virtualAddress) →
      FlatStep c m flat (.init, .initialized) flat'
  | read {flat : FlatMemory c} (virtualAddress : Fin c.virtualMemorySize) :
      FlatStep c m flat (.read virtualAddress, .word (some (flat virtualAddress))) flat
  | readOut {flat : FlatMemory c} {virtualAddress : Nat} :
      c.virtualMemorySize ≤ virtualAddress →
      FlatStep c m flat (.read virtualAddress, .word none) flat
  | write {flat : FlatMemory c} (virtualAddress : Fin c.virtualMemorySize) (value : Word) :
      FlatStep c m flat (.write virtualAddress value, .written true)
        (Function.update flat virtualAddress value)
  | writeOut {flat : FlatMemory c} {virtualAddress : Nat} {value : Word} :
      c.virtualMemorySize ≤ virtualAddress →
      FlatStep c m flat (.write virtualAddress value, .written false) flat

/-- The machine makes a call, and the array beside it does what that call does. -/
def Beside (c : MemoryConstants) (before : Machine × FlatMemory c) (event : VmCall × VmResult)
    (after : Machine × FlatMemory c) : Prop :=
  event.1.perform c before.1 = some (event.2, after.1) ∧
    FlatStep c before.1.memory before.2 event after.2

/-! ### The pages in the RAM -/

section Pages

variable {m : Memory} {t : FrameTree c}

/-- The tables above a page have frames of their own. -/
theorem exists_tables (ht : PageTable c m t none) {path : List Nat} {frame : Nat}
    (hpage : IsPage t path frame) : ∃ tables : Finset Nat, tables.card = c.tablesDepth ∧
      ∀ n ∈ tables, n < c.numFrames ∧ ∀ path, ¬ IsPage t path n := by
  have htable : ∀ level, level < c.tablesDepth → ∃ n, t.node (path.take level) = some n := by
    intro level _
    have hnode := hpage.1
    rw [← List.take_append_drop level path] at hnode
    exact t.node_of_append hnode
  have hlength : ∀ level, level < c.tablesDepth → (path.take level).length = level := by
    intro level hlevel
    rw [List.length_take, hpage.2]
    omega
  have hnode : ∀ level, level < c.tablesDepth →
      t.node (path.take level) = some ((t.node (path.take level)).getD 0) := by
    intro level hlevel
    obtain ⟨n, hn⟩ := htable level hlevel
    rw [hn, Option.getD_some]
  refine ⟨(Finset.range c.tablesDepth).image fun level => (t.node (path.take level)).getD 0, ?_, ?_⟩
  · rw [Finset.card_image_of_injOn, Finset.card_range]
    intro level hlevel level' hlevel' heq
    have hlevel := Finset.mem_range.mp hlevel
    have hlevel' := Finset.mem_range.mp hlevel'
    have hsame := t.node_injective (hnode level hlevel)
      ((hnode level' hlevel').trans (congrArg some heq.symm))
    rw [← hlength level hlevel, hsame, hlength level' hlevel']
  · intro n hn
    obtain ⟨level, hlevel, rfl⟩ := Finset.mem_image.mp hn
    have hlevel := Finset.mem_range.mp hlevel
    refine ⟨ht.frame_lt (hnode level hlevel), ?_⟩
    rintro path' ⟨hnode', hfull⟩
    rw [t.node_injective hnode' (hnode level hlevel), hlength level hlevel] at hfull
    omega

/-- The pages in the RAM, of which there are no more than frames left by the tables above one. -/
theorem exists_resident (hdepth : c.tablesDepth < c.numFrames) (ht : PageTable c m t none) :
    ∃ resident : Finset Nat, resident.card + c.tablesDepth ≤ c.numFrames ∧
      ∀ page, page ∈ resident ↔ ∃ frame, HoldsPage c m page frame := by
  classical
  by_cases hany : ∃ path frame, IsPage t path frame
  · obtain ⟨path, frame, hpage⟩ := hany
    obtain ⟨tables, hcard, htables⟩ := exists_tables ht hpage
    let frames := (Finset.range c.numFrames).filter fun n => ∃ path, IsPage t path n
    have hchosen : ∀ n : Nat, ∃ page, ∀ path, IsPage t path n → pathPage c path = page := by
      intro n
      by_cases hn : ∃ path, IsPage t path n
      · obtain ⟨path, hn⟩ := hn
        refine ⟨pathPage c path, fun path' hn' => ?_⟩
        rw [t.node_injective hn'.1 hn.1]
      · exact ⟨0, fun path hpath => absurd ⟨path, hpath⟩ hn⟩
    choose page hpageOf using hchosen
    refine ⟨frames.image page, ?_, fun number => ⟨fun hmem => ?_, fun hholds => ?_⟩⟩
    · have hdisjoint : Disjoint frames tables := by
        rw [Finset.disjoint_left]
        intro n hframe htable
        obtain ⟨path, hpath⟩ := (Finset.mem_filter.mp hframe).2
        exact (htables n htable).2 path hpath
      have hsubset : frames ∪ tables ⊆ Finset.range c.numFrames := by
        refine Finset.union_subset (Finset.filter_subset _ _) fun n hn => ?_
        exact Finset.mem_range.mpr (htables n hn).1
      calc (frames.image page).card + c.tablesDepth
        _ ≤ frames.card + tables.card := by
            rw [hcard]
            exact Nat.add_le_add_right Finset.card_image_le _
        _ = (frames ∪ tables).card := (Finset.card_union_of_disjoint hdisjoint).symm
        _ ≤ (Finset.range c.numFrames).card := Finset.card_le_card hsubset
        _ = c.numFrames := Finset.card_range _
    · obtain ⟨n, hn, rfl⟩ := Finset.mem_image.mp hmem
      obtain ⟨path, hpath⟩ := (Finset.mem_filter.mp hn).2
      exact ⟨n, ht.holdsPage_iff.mpr ⟨path, hpath, hpageOf n path hpath⟩⟩
    · obtain ⟨frame, hframe⟩ := hholds
      obtain ⟨path, hpath, rfl⟩ := ht.holdsPage_iff.mp hframe
      rw [hpageOf frame path hpath]
      refine Finset.mem_image_of_mem page (Finset.mem_filter.mpr ⟨?_, path, hpath⟩)
      exact Finset.mem_range.mpr (ht.frame_lt hpath.1)
  · refine ⟨∅, ?_, fun number => ⟨fun hmem => absurd hmem (Finset.notMem_empty _), ?_⟩⟩
    · rw [Finset.card_empty]
      omega
    · rintro ⟨frame, hframe⟩
      obtain ⟨path, hpath, -⟩ := ht.holdsPage_iff.mp hframe
      exact absurd ⟨path, frame, hpath⟩ hany

/-- Before a restart the array had the words of the pages in the RAM. -/
theorem Agrees.before_init (hc : c.Valid) (hdepth : c.tablesDepth < c.numFrames)
    (ht : PageTable c m t none) {m' : Memory} (hswap : m'.swapFile = m.swapFile)
    {t' : FrameTree c} {flat' : FlatMemory c} (hagrees : Agrees m' t' flat') :
    ∃ flat : FlatMemory c, Agrees m t flat ∧ FlatStep c m flat (.init, .initialized) flat' := by
  classical
  obtain ⟨before, hbefore⟩ := exists_agrees hc ht
  obtain ⟨resident, hcard, hresident⟩ := exists_resident hdepth ht
  have hlost : ∀ page ∈ resident, m.swapFile page = none ∧ ∃ frame, HoldsPage c m page frame := by
    intro page hpage
    obtain ⟨frame, hframe⟩ := (hresident page).mp hpage
    exact ⟨(ht.treeShape hc).not_swapped page frame hframe, frame, hframe⟩
  refine ⟨fun virtualAddress =>
    if (virtualAddress : Nat) / c.pageSize ∈ resident then before virtualAddress
    else flat' virtualAddress, ?_, .init resident hcard hlost fun virtualAddress hout => ?_⟩
  · intro virtualAddress word hword
    change (if (virtualAddress : Nat) / c.pageSize ∈ resident then _ else _) = word
    split
    · exact hbefore virtualAddress word hword
    · rename_i hout
      apply hagrees
      rcases hword with ⟨path, frame, hpage, hnumber, -⟩ | hswapped
      · have hholds := ht.holdsPage_iff.mpr ⟨path, hpage, hnumber⟩
        exact absurd ((hresident _).mpr ⟨frame, hholds⟩) hout
      · rw [← hswap] at hswapped
        exact Or.inr hswapped
  · exact (if_neg hout).symm

end Pages

/-! ### Runs -/

section Run

variable (hc : c.Valid) (hdepth : c.tablesDepth < c.numFrames)
include hc hdepth

/-- The step lemma: an array after a call has one before it. -/
theorem ensures_flatStep (call : VmCall) {t : FrameTree c} {s : Machine}
    (ht : PageTable c s.memory t none) :
    Ensures (Machine.Legal c) (call.perform c) s fun result s' => ∃ t' : FrameTree c,
      PageTable c s'.memory t' none ∧ ∀ flat', Agrees s'.memory t' flat' →
        ∃ flat, Agrees s.memory t flat ∧ FlatStep c s.memory flat (call, result) flat' := by
  have hsize : 0 < c.virtualMemorySize := Nat.two_pow_pos _
  cases call with
  | init =>
      have hframes : 0 < c.numFrames := by omega
      refine ((ensures_vmInitialize hc s).and (ensures_initializeFrame hc hframes s)).bind ?_
      rintro - s₁ ⟨ht₁, hswap, -, -⟩
      exact ensures_pure ⟨_, ht₁, fun _ hagrees => hagrees.before_init hc hdepth ht hswap⟩
  | read virtualAddress =>
      by_cases haddress : virtualAddress < c.virtualMemorySize
      · refine (ensures_vmRead hc hdepth ht haddress).bind ?_
        rintro result s₁ ⟨t₁, word, rfl, ht₁, hkeeps, hword⟩
        refine ensures_pure ⟨t₁, ht₁, fun flat hagrees => ⟨flat, hagrees.of_keeps hkeeps, ?_⟩⟩
        rw [← hagrees ⟨virtualAddress, haddress⟩ word hword]
        exact .read ⟨virtualAddress, haddress⟩
      · rw [VmCall.perform, vmRead, if_pos (by omega)]
        exact ensures_pure ⟨t, ht, fun flat hagrees => ⟨flat, hagrees, .readOut (by omega)⟩⟩
  | write virtualAddress value =>
      by_cases haddress : virtualAddress < c.virtualMemorySize
      · refine (ensures_vmWrite hc hdepth ht haddress value).bind ?_
        rintro result s₁ ⟨t₁, rfl, ht₁, hself, hother⟩
        refine ensures_pure ⟨t₁, ht₁, fun flat hagrees => ?_⟩
        obtain ⟨flat₀, hagrees₀, rfl⟩ : ∃ flat₀ : FlatMemory c, Agrees s.memory t flat₀ ∧
            Function.update flat₀ ⟨virtualAddress, haddress⟩ value = flat :=
          hagrees.before_write hc ht hself hother
        exact ⟨flat₀, hagrees₀, .write ⟨virtualAddress, haddress⟩ value⟩
      · rw [VmCall.perform, vmWrite, if_pos (by omega)]
        exact ensures_pure ⟨t, ht, fun flat hagrees => ⟨flat, hagrees, .writeOut (by omega)⟩⟩

/-- The run lemma. -/
theorem exists_beside (calls : List VmCall) :
    ∀ {t : FrameTree c} {s : Machine}, PageTable c s.memory t none → s.Legal c →
      ∃ events flat s' flat', Agrees s.memory t flat ∧ Run (Beside c) (s, flat) events (s', flat') ∧
        events.map Prod.fst = calls ∧ performAll c calls s = some (events.map Prod.snd, s') := by
  induction calls with
  | nil =>
      intro t s ht _
      obtain ⟨flat, hagrees⟩ := exists_agrees hc ht
      exact ⟨[], flat, s, flat, hagrees, .start, rfl, rfl⟩
  | cons call calls ih =>
      intro t s ht hlegal
      obtain ⟨result, s₁, hcall, hlegal₁, t₁, ht₁, hstep⟩ :=
        ensures_flatStep hc hdepth call ht hlegal
      obtain ⟨events, flat₁, s', flat', hagrees₁, hrun, hcalls, hperform⟩ := ih ht₁ hlegal₁
      obtain ⟨flat, hagrees, hfirst⟩ := hstep flat₁ hagrees₁
      have hbeside : Beside c (s, flat) (call, result) (s₁, flat₁) := ⟨hcall, hfirst⟩
      refine ⟨(call, result) :: events, flat, s', flat', hagrees,
        (Run.start.next hbeside).append hrun, congrArg (call :: ·) hcalls, ?_⟩
      exact run_bind_eq hcall (run_bind_eq hperform rfl)

/-- With restarts in the middle and addresses out of range, the results of the calls are those of an
array, which loses at a restart no words but those of the pages in the RAM. -/
theorem performAll_restarts (m : Memory) (calls : List VmCall) :
    ∃ (events : List (VmCall × VmResult)) (flat flat' : FlatMemory c) (s₁ s : Machine),
      events.map Prod.fst = calls ∧
      VmCall.init.perform c m.machine = some (.initialized, s₁) ∧
      performAll c (.init :: calls) m.machine = some (.initialized :: events.map Prod.snd, s) ∧
      Run (Beside c) (s₁, flat) events (s, flat') := by
  obtain ⟨⟨⟩, s₁, hinit, hlegal, ht⟩ := ensures_vmInitialize hc m.machine (legal_machine m)
  have hfirst : VmCall.init.perform c m.machine = some (.initialized, s₁) := run_bind_eq hinit rfl
  obtain ⟨events, flat, s, flat', -, hrun, hcalls, hperform⟩ :=
    exists_beside hc hdepth calls ht hlegal
  exact ⟨events, flat, flat', s₁, s, hcalls, hfirst,
    run_bind_eq hfirst (run_bind_eq hperform rfl), hrun⟩

end Run

theorem performAll_restarts_given : ∃ (events : List (VmCall × VmResult))
    (flat flat' : FlatMemory .given) (s₁ s : Machine),
      events.map Prod.fst = [.write 5 9, .init, .read 5, .read 2000000] ∧
      VmCall.init.perform .given (Memory.machine ⟨fun _ _ => 1, fun _ => none, 0⟩) =
        some (.initialized, s₁) ∧
      performAll .given (.init :: [.write 5 9, .init, .read 5, .read 2000000])
        (Memory.machine ⟨fun _ _ => 1, fun _ => none, 0⟩) =
          some (.initialized :: events.map Prod.snd, s) ∧
      Run (Beside .given) (s₁, flat) events (s, flat') :=
  performAll_restarts MemoryConstants.valid_given given_tablesDepth_lt _ _

end OsExercises.VirtualMemory
