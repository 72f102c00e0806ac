import OsExercises.VirtualMemory.Stability

/-!
# Too few frames

An access that cannot be mapped should return 0. `find_frame` has no such result: when no table is
empty, every frame is used and no page is mapped, it takes frame 0, the root table. This cannot
happen when there are more frames than levels, and with fewer it happens at the first access.
-/

namespace OsExercises.VirtualMemory

variable {c : MemoryConstants}

/-! ### A search that takes nothing -/

/-- Until a page is taken the frame of the result is 0. -/
def NothingTaken (st : SearchState) : Prop :=
  0 ≤ st.maxDist ∧ (st.emptyFrame = false → st.maxDist = 0 → st.resultFrame = 0)

theorem nothingTaken_updateDistance {pageIn currPath frame illegal prevAdd : Nat} {st : SearchState}
    (hst : NothingTaken st) :
    NothingTaken (updateDistance c pageIn currPath frame illegal prevAdd st) := by
  simp only [updateDistance]
  split_ifs with hlegal hfar
  · have hpos := Int32.lt_of_le_of_lt hst.1 hfar
    refine ⟨Int32.le_of_lt hpos, fun _ hzero => ?_⟩
    dsimp only at hzero
    rw [hzero] at hpos
    exact absurd hpos Int32.lt_irrefl
  · exact hst
  · exact hst

/-- A row of a table takes nothing as long as the searches below it take nothing. -/
theorem nothingTaken_searchRow {illegal pageIn levels frame currPath i : Nat}
    {acc acc' : Bool × SearchState} {s s' : Machine}
    (hbelow : ∀ {next prevAdd path : Nat} {st st' : SearchState} {s s' : Machine}, NothingTaken st →
      searchFrame c illegal pageIn levels next prevAdd path st s = some (st', s') → NothingTaken st')
    (hst : NothingTaken acc.2)
    (hrun : searchRow c illegal pageIn levels frame currPath acc i s = some (acc', s')) :
    NothingTaken acc'.2 := by
  obtain ⟨isEmpty, st⟩ := acc
  obtain ⟨rowVal, s₁, -, hround⟩ := exists_of_run_bind hrun
  by_cases hzero : rowVal ≠ 0
  · rw [if_pos hzero] at hround
    obtain ⟨st₁, s₂, hsearch, hdone⟩ := exists_of_run_bind hround
    cases hdone
    have hstart : NothingTaken
        (if st.maxFrame < rowVal then { st with maxFrame := rowVal } else st) := by
      split_ifs
      · exact hst
      · exact hst
    exact hbelow hstart hsearch
  · rw [if_neg hzero] at hround
    cases hround
    exact hst

theorem nothingTaken_searchFrame {illegal pageIn : Nat} (levels : Nat) :
    ∀ {frame prevAdd currPath : Nat} {st st' : SearchState} {s s' : Machine}, NothingTaken st →
      searchFrame c illegal pageIn levels frame prevAdd currPath st s = some (st', s') →
      NothingTaken st' := by
  induction levels with
  | zero =>
      intro frame prevAdd currPath st st' s s' hst hrun
      rw [searchFrame.eq_def] at hrun
      split at hrun
      · cases hrun
        exact hst
      · rename_i hgo
        cases hrun
        have hempty : st.emptyFrame = false := by simpa using (not_or.mp hgo).1
        have hsame : { st with emptyFrame := false } = st := by rw [← hempty]
        rw [hsame]
        exact nothingTaken_updateDistance hst
  | succ levels ih =>
      intro frame prevAdd currPath st st' s s' hst hrun
      by_cases hgo : st.emptyFrame = true ∨ c.numFrames ≤ frame
      · rw [searchFrame.eq_def, if_pos hgo] at hrun
        cases hrun
        exact hst
      obtain ⟨hempty, hframe⟩ := not_or.mp hgo
      rw [searchFrame_succ (by simpa using hempty) (by omega)] at hrun
      obtain ⟨⟨isEmpty, st₁⟩, s₁, hrows, hlast⟩ := exists_of_run_bind hrun
      have hrow : ∀ acc i s acc' s', NothingTaken acc.2 →
          searchRow c illegal pageIn levels frame currPath acc i s = some (acc', s') →
          NothingTaken acc'.2 :=
        fun acc i s acc' s' => nothingTaken_searchRow ih
      have hstart : NothingTaken (true, st).2 := hst
      have hst₁ := foldlM_keeps (fun acc : Bool × SearchState => NothingTaken acc.2) hrow _ hstart
        hrows
      dsimp only at hlast
      split at hlast
      · cases hlast
        exact ⟨hst₁.1, fun hfalse => by cases hfalse⟩
      · cases hlast
        exact hst₁

section FindFrame

variable {m : Memory} {t : FrameTree c} {illegal pageIn : Nat} (hc : c.Valid)
  (ht : PageTable c m t none) (hpageIn : pageIn < c.numPages)
  (hillegal : ∃ path, t.node path = some illegal ∧ path.length < c.tablesDepth)
  (hunmapped : ∀ path frame, IsPage t path frame → pathPage c path ≠ pageIn) {s : Machine}
  (hs : s.memory = m)
include hc ht hpageIn hillegal hunmapped hs

/-- When there is no frame to take `find_frame` takes the root table. -/
theorem findFrame_eq_zero (hlegal : Machine.Legal c s) (hleft : ¬ FrameLeft t illegal) {frame : Nat}
    {s' : Machine} (hrun : findFrame c illegal (asInt pageIn) s = some (frame, s')) : frame = 0 := by
  obtain ⟨hnone, hrest⟩ := not_or.mp hleft
  obtain ⟨hused, hpages⟩ := not_or.mp hrest
  obtain ⟨st, s₁, hsearch, -, hs₁, hst⟩ :=
    ensures_search hc ht hpageIn hillegal hunmapped hs hlegal
  have hstart : NothingTaken .start := ⟨Int32.le_refl 0, fun _ _ => rfl⟩
  have hkept := nothingTaken_searchFrame c.tablesDepth hstart hsearch
  rw [findFrame, asUInt64_asInt (hpageIn.trans hc.numPages_lt), run_bind hsearch] at hrun
  have hempty : st.emptyFrame = false := by
    by_contra htrue
    obtain ⟨path, table, htable, -⟩ := hst.1 (by simpa using htrue)
    exact hnone ⟨path, table, htable⟩
  obtain ⟨⟨largest, hlargest, ⟨path, hnode⟩, hbound⟩, -, hfar⟩ := hst.2 hempty
  have hfull : ¬ (largest : Int) + 1 < c.numFrames := by
    intro hroom
    refine hused ⟨largest + 1, by omega, fun path' hnode' => ?_⟩
    exact Nat.not_succ_le_self largest (hbound path' _ trivial hnode')
  have hsmall := (ht.frame_lt hnode).trans hc.numFrames_lt
  rw [if_neg (by simp [hempty]), hlargest, toInt_asInt hsmall, if_neg hfull] at hrun
  obtain ⟨-, s₂, -, hevict⟩ := exists_of_run_bind hrun
  obtain ⟨-, s₃, -, hdone⟩ := exists_of_run_bind hevict
  cases hdone
  rcases hfar with ⟨hzero, -⟩ | ⟨path', page, -, hpage, -⟩
  · exact hkept.2 hempty hzero
  · exact absurd ⟨path', page, hpage⟩ hpages

end FindFrame

/-! ### The levels of a translation -/

/-- The loop of `translate_address` has come to the frame of a level with a page table. -/
structure AtLevel (c : MemoryConstants) (virtualAddress level : Nat) (s : Machine) (t : FrameTree c)
    (frame : Nat) (s' : Machine) : Prop where
  run : translateTo c virtualAddress level s = some (asInt frame, s')
  table : PageTable c s'.memory t none
  legal : Machine.Legal c s'
  node : t.node (addressPath c virtualAddress level) = some frame

/-- The entry that is read at a level. -/
def levelEntry (c : MemoryConstants) (virtualAddress level : Nat) (lastFrame : Word) : Nat :=
  (asUInt64 lastFrame * c.pageSize + calculateBits c virtualAddress level) % 2 ^ 64

section Levels

variable (hc : c.Valid) {virtualAddress level frame : Nat} {s s₁ : Machine} {t : FrameTree c}
  (haddress : virtualAddress < c.virtualMemorySize)
include hc haddress

theorem AtLevel.read_entry (h : AtLevel c virtualAddress level s t frame s₁)
    (hlevel : level < c.tablesDepth) : ∃ word s₂,
      pmRead c (levelEntry c virtualAddress level (asInt frame)) s₁ = some (word, s₂) ∧
        Machine.Legal c s₂ ∧ s₂.memory = s₁.memory ∧
        (word = 0 ↔ t.node (addressPath c virtualAddress (level + 1)) = none) := by
  rw [levelEntry, level_entry_eq hc haddress (h.table.frame_lt h.node)]
  obtain ⟨word, s₂, hrun, hlegal, hs₂, hzero, -⟩ :=
    ensures_readEntry hc haddress hlevel h.table h.node h.legal
  exact ⟨word, s₂, hrun, hlegal, hs₂, hzero⟩

/-- As long as there are frames to take the loop comes to the last level. -/
theorem exists_atLevel (ht : PageTable c s.memory t none) (hlegal : Machine.Legal c s)
    (hleft : ∀ level < c.tablesDepth, ∀ t frame s₁, AtLevel c virtualAddress level s t frame s₁ →
      t.node (addressPath c virtualAddress (level + 1)) = none → FrameLeft t frame) :
    ∀ level ≤ c.tablesDepth, ∃ t frame s₁, AtLevel c virtualAddress level s t frame s₁ := by
  intro level
  induction level with
  | zero => exact fun _ => ⟨t, 0, s, rfl, ht, hlegal, ht.represents.root_node⟩
  | succ level ih =>
      intro hlevel
      obtain ⟨t₁, frame, s₁, hat⟩ := ih (Nat.le_of_succ_le hlevel)
      cases hnext : t₁.node (addressPath c virtualAddress (level + 1)) with
      | none =>
          obtain ⟨word, s₂, hrun, hlegal₂, t₂, frame', rfl, ht₂, hnode, -⟩ :=
            ensures_translateLevel_missing hc haddress hlevel hat.table
              (hleft level hlevel t₁ frame s₁ hat hnext) hat.node hnext hat.legal
          refine ⟨t₂, frame', s₂, ?_, ht₂, hlegal₂, hnode⟩
          rw [translateTo_succ, run_bind hat.run, hrun]
      | some next =>
          obtain ⟨word, s₂, hrun, hlegal₂, rfl, hs₂⟩ :=
            ensures_translateLevel_mapped hc haddress hlevel hat.table hat.node hnext hat.legal
          refine ⟨t₁, next, s₂, ?_, hs₂ ▸ hat.table, hlegal₂, hnext⟩
          rw [translateTo_succ, run_bind hat.run, hrun]

omit hc haddress in
/-- The loop cannot come to a page with as many levels as frames: each level has a frame of its
own, and so has the root. -/
theorem AtLevel.depth_lt (h : AtLevel c virtualAddress c.tablesDepth s t frame s₁) :
    c.tablesDepth < c.numFrames := by
  have hlt := t.length_lt_card h.node (Finset.range c.numFrames) fun path n hnode =>
    Finset.mem_range.mpr (h.table.frame_lt hnode)
  rwa [length_addressPath, Finset.card_range] at hlt

end Levels

/-! ### Accesses -/

/-- Wherever a translation calls `find_frame`, the frame it returns is not that of the root table. -/
def FindsFrame (c : MemoryConstants) (virtualAddress : Nat) (s : Machine) : Prop :=
  ∀ level < c.tablesDepth, ∀ lastFrame s₁ s₂,
    translateTo c virtualAddress level s = some (lastFrame, s₁) →
    pmRead c (levelEntry c virtualAddress level lastFrame) s₁ = some (0, s₂) →
    ∃ frame s₃, findFrame c (asUInt64 lastFrame) (asInt (virtualAddress >>> c.offsetWidth)) s₂ =
      some (frame, s₃) ∧ frame ≠ 0

/-- On success the page is mapped below the root; on failure the RAM and the swap file are as they
were. In neither case was the root table evicted. -/
structure EndsCleanly (c : MemoryConstants) (virtualAddress : Nat) (s : Machine) (success : Bool)
    (s' : Machine) : Prop where
  mapped : success = true → ∃ frame ≠ 0, HoldsPage c s'.memory (virtualAddress / c.pageSize) frame
  unchanged : success = false → s'.memory.ram = s.memory.ram ∧
    s'.memory.swapFile = s.memory.swapFile
  root_kept : ∀ page m, (.evict 0 page, m) ∉ s'.calls

/-- What an access to the address does in a state, be it a read or a write. -/
structure CleanAccess (c : MemoryConstants) (virtualAddress : Nat) (s : Machine) : Prop where
  read : ∃ result s', vmRead c virtualAddress s = some (result, s') ∧
    EndsCleanly c virtualAddress s result.isSome s'
  write : ∀ value, ∃ success s', vmWrite c virtualAddress value s = some (success, s') ∧
    EndsCleanly c virtualAddress s success s'
  finds_frame : FindsFrame c virtualAddress s

/-- Accesses to the address are clean after every sequence of calls from `VMinitialize` on. -/
def FailsCleanly (c : MemoryConstants) (m : Memory) (virtualAddress : Nat) : Prop :=
  ∀ calls, ∃ results s, performAll c (.init :: calls) m.machine = some (results, s) ∧
    CleanAccess c virtualAddress s

theorem CallsLegal.root_kept {calls : List (PmCall × Memory)} (hlegal : CallsLegal c calls)
    (page : Nat) (m : Memory) : (.evict 0 page, m) ∉ calls := by
  intro hmem
  obtain ⟨later, before, rfl⟩ := List.append_of_mem hmem
  have hevict := hlegal (.evict 0 page) m before (List.suffix_append _ _)
  exact hevict.1 rfl

section Accesses

variable (hc : c.Valid) {virtualAddress : Nat} {s : Machine} {t : FrameTree c}
  (haddress : virtualAddress < c.virtualMemorySize) (ht : PageTable c s.memory t none)
  (hlegal : Machine.Legal c s)
include hc haddress ht hlegal

theorem not_findsFrame (hfew : c.numFrames ≤ c.tablesDepth) : ¬ FindsFrame c virtualAddress s := by
  intro hfinds
  have hleft : ∀ level < c.tablesDepth, ∀ t frame s₁, AtLevel c virtualAddress level s t frame s₁ →
      t.node (addressPath c virtualAddress (level + 1)) = none → FrameLeft t frame := by
    intro level hlevel t₁ frame s₁ hat hmissing
    by_contra hnone
    obtain ⟨word, s₂, hread, hlegal₂, hs₂, hword⟩ := hat.read_entry hc haddress hlevel
    obtain rfl := hword.mpr hmissing
    obtain ⟨found, s₃, hrun, hne⟩ := hfinds level hlevel _ s₁ s₂ hat.run hread
    rw [asUInt64_asInt ((hat.table.frame_lt hat.node).trans hc.numFrames_lt),
      shiftRight_offsetWidth] at hrun
    have hshort : ∃ path, t₁.node path = some frame ∧ path.length < c.tablesDepth :=
      ⟨_, hat.node, by rwa [length_addressPath]⟩
    exact hne (findFrame_eq_zero hc hat.table (page_lt hc haddress) hshort
      (hat.table.unmapped hc haddress hlevel hmissing) hs₂ hlegal₂ hnone hrun)
  obtain ⟨t₁, frame, s₁, hat⟩ := exists_atLevel hc haddress ht hlegal hleft c.tablesDepth le_rfl
  exact absurd (hat.depth_lt) hfew.not_gt

variable (hdepth : c.tablesDepth < c.numFrames)
include hdepth

theorem findsFrame : FindsFrame c virtualAddress s := by
  have hleft : ∀ level < c.tablesDepth, ∀ t frame s₁, AtLevel c virtualAddress level s t frame s₁ →
      t.node (addressPath c virtualAddress (level + 1)) = none → FrameLeft t frame := by
    intro level hlevel t₁ frame s₁ hat _
    exact frameLeft_of_depth hdepth ⟨_, hat.node, by rwa [length_addressPath]⟩
  intro level hlevel lastFrame s₁ s₂ hrun hread
  obtain ⟨t₁, frame, s₁', hat⟩ := exists_atLevel hc haddress ht hlegal hleft level hlevel.le
  obtain ⟨rfl, rfl⟩ := Prod.mk.inj (Option.some.inj (hrun.symm.trans hat.run))
  obtain ⟨word, s₂', hread', hlegal₂, hs₂, hword⟩ := hat.read_entry hc haddress hlevel
  obtain ⟨rfl, rfl⟩ := Prod.mk.inj (Option.some.inj (hread.symm.trans hread'))
  have hmissing := hword.mp rfl
  have hshort : (addressPath c virtualAddress level).length < c.tablesDepth := by
    rwa [length_addressPath]
  rw [asUInt64_asInt ((hat.table.frame_lt hat.node).trans hc.numFrames_lt), shiftRight_offsetWidth]
  obtain ⟨found, s₃, hfind, -, hchoice⟩ := ensures_findFrame hc hat.table (page_lt hc haddress)
    ⟨_, hat.node, hshort⟩ (hat.table.unmapped hc haddress hlevel hmissing) hs₂
    (hleft level hlevel t₁ frame s₁ hat hmissing) hlegal₂
  obtain ⟨t₂, ht₂, -⟩ := hchoice.spare hc hat.table hat.node hshort
  exact ⟨found, s₃, hfind, ht₂.spare_ne_zero⟩

omit hlegal in
/-- A translation followed by what a call does with the frame of the page. -/
theorem ensures_access {α : Type} {next : Nat → Vm α} (success : α → Bool)
    (hnext : ∀ t frame s₁, PageTable c s₁.memory t none →
      IsPage t (addressPath c virtualAddress c.tablesDepth) frame →
      Ensures (Machine.Legal c) (next frame) s₁ fun value s₂ =>
        success value = true ∧ PageTable c s₂.memory t none) :
    Ensures (Machine.Legal c) (translateAddress c virtualAddress >>= next) s fun value s' =>
      success value = true ∧ ∃ frame ≠ 0, HoldsPage c s'.memory (virtualAddress / c.pageSize) frame := by
  refine (ensures_translateAddress hc haddress hdepth ht).bind ?_
  rintro frame s₁ ⟨t₁, ht₁, hpage, -⟩
  refine (hnext t₁ frame s₁ ht₁ hpage).mono ?_
  rintro value s₂ ⟨hsuccess, ht₂⟩
  have hpos := hc.tablesDepth_pos
  refine ⟨hsuccess, frame, ht₂.frame_ne_zero hpage.1 ?_, _, hpage.2, ?_,
    pathPage_addressPath hc haddress⟩
  · exact List.ne_nil_of_length_pos (by rw [hpage.2]; exact hpos)
  · rw [ht₂.represents.walk_eq _ hpage.2.le, hpage.1]

theorem cleanAccess_of_depth : CleanAccess c virtualAddress s := by
  have hwidth := hc.physicalAddressWidth_le
  have hoffsetWidth := hc.offsetWidth_lt_physical
  have hin : ¬ c.virtualMemorySize - 1 < virtualAddress := by omega
  have hoffset : virtualAddress % c.pageSize < c.pageSize :=
    Nat.mod_lt _ MemoryConstants.pageSize_pos
  have hclean : ∀ {success : Bool} {s' : Machine}, Machine.Legal c s' → success = true →
      (∃ frame ≠ 0, HoldsPage c s'.memory (virtualAddress / c.pageSize) frame) →
      EndsCleanly c virtualAddress s success s' := by
    intro success s' hlegal' hsuccess hmapped
    refine ⟨fun _ => hmapped, fun hfalse => ?_, hlegal'.root_kept⟩
    rw [hsuccess] at hfalse
    cases hfalse
  refine ⟨?_, fun value => ?_, findsFrame hc haddress ht hlegal hdepth⟩
  · have hread : Ensures (Machine.Legal c) (vmRead c virtualAddress) s fun result s' =>
        result.isSome = true ∧
          ∃ frame ≠ 0, HoldsPage c s'.memory (virtualAddress / c.pageSize) frame := by
      rw [vmRead, if_neg hin, findOffset_eq (c := c) (by omega)]
      refine ensures_access hc haddress ht hdepth Option.isSome fun t₁ frame s₁ ht₁ hpage => ?_
      refine (ensures_pmRead s₁ (hc.entry_lt_ramSize (ht₁.frame_lt hpage.1) hoffset)).bind ?_
      rintro word s₂ ⟨-, hs₂⟩
      exact ensures_pure ⟨rfl, hs₂ ▸ ht₁⟩
    obtain ⟨result, s', hrun, hlegal', hsuccess, hmapped⟩ := hread hlegal
    exact ⟨result, s', hrun, hclean hlegal' hsuccess hmapped⟩
  · have hwrite : Ensures (Machine.Legal c) (vmWrite c virtualAddress value) s fun success s' =>
        success = true ∧
          ∃ frame ≠ 0, HoldsPage c s'.memory (virtualAddress / c.pageSize) frame := by
      rw [vmWrite, if_neg hin, findOffset_eq (c := c) (by omega)]
      refine ensures_access hc haddress ht hdepth id fun t₁ frame s₁ ht₁ hpage => ?_
      refine (ensures_pmWrite s₁ (hc.entry_lt_ramSize (ht₁.frame_lt hpage.1) hoffset)).bind ?_
      rintro - s₂ ⟨hs₂, -⟩
      exact ensures_pure ⟨rfl, hs₂ ▸ ht₁.writePage hpage hoffset value⟩
    obtain ⟨success, s', hrun, hlegal', hsuccess, hmapped⟩ := hwrite hlegal
    exact ⟨success, s', hrun, hclean hlegal' hsuccess hmapped⟩

end Accesses

/-- Whatever the memory and the address, accesses to it are clean after every sequence of calls if
and only if there are more frames than levels of tables. -/
theorem failsCleanly_iff (hc : c.Valid) (m : Memory) {virtualAddress : Nat}
    (haddress : virtualAddress < c.virtualMemorySize) :
    FailsCleanly c m virtualAddress ↔ c.tablesDepth < c.numFrames := by
  constructor
  · intro hclean
    by_contra hfew
    obtain ⟨results, s, hrun, haccess⟩ := hclean []
    obtain ⟨⟨⟩, s', hinit, hlegal, ht⟩ := ensures_vmInitialize hc m.machine (legal_machine m)
    have hperform : performAll c [.init] m.machine = some ([.initialized], s') :=
      run_bind_eq (run_bind_eq hinit rfl) rfl
    rw [hperform] at hrun
    cases hrun
    exact not_findsFrame hc haddress ht hlegal (not_lt.mp hfew) haccess.finds_frame
  · intro hdepth calls
    obtain ⟨results, s, hrun, hlegal, t, ht⟩ := performAll_run hc hdepth m calls
    exact ⟨results, s, hrun, cleanAccess_of_depth hc haddress ht hlegal hdepth⟩

/-- Two frames under two levels of tables: no room for a page. -/
def shortConstants : MemoryConstants where
  offsetWidth := 1
  physicalAddressWidth := 2
  virtualAddressWidth := 3

theorem valid_shortConstants : shortConstants.Valid := by constructor <;> decide

theorem failsCleanly_iff_given :
    FailsCleanly .given ⟨fun _ _ => 1, fun _ => none, 0⟩ 74565 ∧
      ¬ FailsCleanly shortConstants ⟨fun _ _ => 1, fun _ => none, 0⟩ 5 := by
  constructor
  · rw [failsCleanly_iff MemoryConstants.valid_given _ (by decide)]
    exact given_tablesDepth_lt
  · rw [failsCleanly_iff valid_shortConstants _ (by decide)]
    decide

/-- The first read evicts the root table as page 0, and returns 1. -/
theorem exists_root_evicted : ¬ ∀ (c : MemoryConstants) (m : Memory) (virtualAddress : Nat),
    c.Valid → virtualAddress < c.virtualMemorySize → FailsCleanly c m virtualAddress := by
  intro hall
  obtain ⟨results, s, hrun, haccess⟩ :=
    hall shortConstants ⟨fun _ _ => 0, fun _ => none, 0⟩ 0 valid_shortConstants (by decide) []
  obtain ⟨result, s', hread, hends⟩ := haccess.read
  have hevict : (((performAll shortConstants [.init] >>= fun _ => vmRead shortConstants 0)
      (Memory.machine ⟨fun _ _ => 0, fun _ => none, 0⟩)).map fun r =>
        (r.1, r.2.calls.any fun call => match call.1 with
          | .evict frame page => frame = 0 ∧ page = 0
          | _ => false)) = some (some 0, true) := by
    decide +kernel
  rw [run_bind hrun, hread] at hevict
  obtain ⟨-, hany⟩ := Prod.mk.inj (Option.some.inj hevict)
  obtain ⟨⟨call, before⟩, hmem, hcall⟩ := List.any_eq_true.mp hany
  cases call with
  | evict frame page =>
      obtain ⟨rfl, -⟩ := of_decide_eq_true hcall
      exact hends.root_kept page before hmem
  | read _ => cases hcall
  | write _ _ => cases hcall
  | restore _ _ => cases hcall

end OsExercises.VirtualMemory
