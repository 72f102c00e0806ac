import OsExercises.VirtualMemory.Runs

/-!
# A completed translation

Only the table being extended is protected while a frame is looked for; the tables above it are safe
as each of them has an entry. So the way walked so far stays through all later faults of the same
translation, and a second translation of the page finds it.
-/

namespace OsExercises.VirtualMemory

variable {c : MemoryConstants}

/-- The loop of `translate_address` up to a level, with the frame it has come to. -/
def translateTo (c : MemoryConstants) (virtualAddress level : Nat) : Vm Word :=
  (List.range level).foldlM
    (translateLevel c virtualAddress (asInt (virtualAddress >>> c.offsetWidth))) 0

theorem translateTo_succ (virtualAddress level : Nat) :
    translateTo c virtualAddress (level + 1) = (do
      let word ← translateTo c virtualAddress level
      translateLevel c virtualAddress (asInt (virtualAddress >>> c.offsetWidth)) word level) := by
  rw [translateTo, List.range_succ, List.foldlM_append]
  simp only [List.foldlM_cons, List.foldlM_nil, bind_pure]
  rfl

section

variable (hc : c.Valid)
include hc

/-- The indices of an address are those of its page. -/
theorem calculateBits_congr {a b level : Nat} (ha : a < c.virtualMemorySize)
    (hb : b < c.virtualMemorySize) (hpage : b / c.pageSize = a / c.pageSize)
    (hlevel : level < c.tablesDepth) : calculateBits c b level = calculateBits c a level := by
  have hpos := hc.offsetWidth_pos
  have hlt := hc.offsetWidth_lt_virtual
  have hdepth : c.tablesDepth - level = (c.tablesDepth - (level + 1)) + 1 := by omega
  rw [calculateBits_eq hpos hlt ha, calculateBits_eq hpos hlt hb, hdepth, pow_succ', ←
    Nat.div_div_eq_div_mul, ← Nat.div_div_eq_div_mul, hpage]

theorem addressPath_congr {a b : Nat} (ha : a < c.virtualMemorySize)
    (hb : b < c.virtualMemorySize) (hpage : b / c.pageSize = a / c.pageSize) :
    addressPath c b c.tablesDepth = addressPath c a c.tablesDepth := by
  apply List.map_congr_left
  intro level hlevel
  exact calculateBits_congr hc ha hb hpage (List.mem_range.mp hlevel)

variable {virtualAddress : Nat} (haddress : virtualAddress < c.virtualMemorySize)
include haddress

/-! ### A page that is mapped -/

/-- The translation of a mapped page changes nothing. -/
theorem ensures_translateAddress_mapped {t : FrameTree c} {frame : Nat} {s : Machine}
    (ht : PageTable c s.memory t none)
    (hpage : IsPage t (addressPath c virtualAddress c.tablesDepth) frame) :
    Ensures (Machine.Legal c) (translateAddress c virtualAddress) s
      fun frame' s' => frame' = frame ∧ s'.memory = s.memory := by
  have hway : ∀ level ≤ c.tablesDepth, ∃ n, t.node (addressPath c virtualAddress level) = some n := by
    intro level hlevel
    obtain ⟨rest, hrest⟩ := addressPath_prefix (c := c) virtualAddress hlevel
    have hfull := hpage.1
    rw [← hrest] at hfull
    exact t.node_of_append hfull
  unfold translateAddress
  refine (ensures_foldlM_range (fun level word (s' : Machine) => s'.memory = s.memory ∧
    ∃ n, word = asInt n ∧ t.node (addressPath c virtualAddress level) = some n) ?_ ?_).bind ?_
  · rintro level hlevel word s₁ ⟨hs₁, n, rfl, hnode⟩
    obtain ⟨next, hnext⟩ := hway (level + 1) hlevel
    have ht₁ : PageTable c s₁.memory t none := hs₁ ▸ ht
    refine (ensures_translateLevel_mapped hc haddress hlevel ht₁ hnode hnext).mono ?_
    rintro word s₂ ⟨rfl, hs₂⟩
    exact ⟨hs₂.trans hs₁, next, rfl, hnext⟩
  · exact ⟨rfl, 0, asInt_zero.symm, ht.represents.root_node⟩
  · rintro word s₁ ⟨hs₁, n, rfl, hnode⟩
    rw [hpage.1] at hnode
    obtain rfl := Option.some.inj hnode
    refine ensures_pure ⟨?_, hs₁⟩
    exact asUInt64_asInt ((ht.frame_lt hpage.1).trans hc.numFrames_lt)

/-! ### The way walked so far -/

/-- The loop up to a level, with all the frames it came to still in their places. -/
structure WayKept (c : MemoryConstants) (virtualAddress : Nat) (s : Machine) (t : FrameTree c)
    (level : Nat) (s' : Machine) (t' : FrameTree c) : Prop where
  table : PageTable c s'.memory t' none
  legal : Machine.Legal c s'
  way : ∀ earlier ≤ level, ∃ frame s₁, translateTo c virtualAddress earlier s = some (asInt frame, s₁) ∧
    t'.node (addressPath c virtualAddress earlier) = some frame ∧ (earlier = level → s₁ = s')

variable (hdepth : c.tablesDepth < c.numFrames)
include hdepth

theorem exists_wayKept {t : FrameTree c} {s : Machine} (ht : PageTable c s.memory t none)
    (hlegal : Machine.Legal c s) (level : Nat) (hlevel : level ≤ c.tablesDepth) :
    ∃ s' t', WayKept c virtualAddress s t level s' t' := by
  induction level with
  | zero =>
      refine ⟨s, t, ht, hlegal, fun earlier hearlier => ?_⟩
      obtain rfl := Nat.le_zero.mp hearlier
      exact ⟨0, s, rfl, ht.represents.root_node, fun _ => rfl⟩
  | succ level ih =>
      obtain ⟨s₁, t₁, ht₁, hlegal₁, hway⟩ := ih (Nat.le_of_succ_le hlevel)
      obtain ⟨frame, s₂, hrun, hnode, hlast⟩ := hway level le_rfl
      obtain rfl := hlast rfl
      obtain ⟨word, s₃, hstep, hlegal₃, t₃, next, rfl, ht₃, hnext, hkept, -⟩ :=
        ensures_translateLevel hc haddress hdepth hlevel ht₁ hnode hlegal₁
      refine ⟨s₃, t₃, ht₃, hlegal₃, fun earlier hearlier => ?_⟩
      rcases Nat.le_succ_iff.mp hearlier with hle | rfl
      · obtain ⟨frame', s₄, hrun', hnode', -⟩ := hway earlier hle
        have hbefore := addressPath_prefix (c := c) virtualAddress hle
        refine ⟨frame', s₄, hrun', ?_, fun heq => absurd heq (by omega)⟩
        rw [hkept _ hbefore, hnode']
      · refine ⟨next, s₃, ?_, hnext, fun _ => rfl⟩
        rw [translateTo_succ, run_bind hrun, hstep]

end

/-- After a translation the way to its frame is in the tables, with every frame that the loop came
to at a level, and translating an address of the same page again changes nothing. -/
theorem translation_stable (m : Memory) (calls : List VmCall) {a : Nat}
    (ha : a < MemoryConstants.given.virtualMemorySize) :
    ∃ results s frame s', performAll .given (.init :: calls) m.machine = some (results, s) ∧
      translateAddress .given a s = some (frame, s') ∧
      walk (entry .given s'.memory) 0 (addressPath .given a MemoryConstants.given.tablesDepth) =
        some frame ∧
      (∀ level ≤ MemoryConstants.given.tablesDepth, ∃ word s₁,
        translateTo .given a level s = some (word, s₁) ∧
        walk (entry .given s'.memory) 0 (addressPath .given a level) = some (asUInt64 word)) ∧
      ∀ b < MemoryConstants.given.virtualMemorySize,
        b / MemoryConstants.given.pageSize = a / MemoryConstants.given.pageSize →
        ∃ s₂, translateAddress .given b s' = some (frame, s₂) ∧ s₂.memory = s'.memory := by
  have hc := MemoryConstants.valid_given
  obtain ⟨results, s, hperform, hlegal, t, ht⟩ := performAll_run hc given_tablesDepth_lt m calls
  obtain ⟨s', t', ht', hlegal', hway⟩ := exists_wayKept hc ha given_tablesDepth_lt ht hlegal
    MemoryConstants.given.tablesDepth le_rfl
  have hwalks : ∀ level ≤ MemoryConstants.given.tablesDepth, ∃ word s₁,
      translateTo .given a level s = some (word, s₁) ∧
      walk (entry .given s'.memory) 0 (addressPath .given a level) = some (asUInt64 word) := by
    intro level hlevel
    obtain ⟨n, s₁, hrun, hnode, -⟩ := hway level hlevel
    refine ⟨asInt n, s₁, hrun, ?_⟩
    rw [ht'.represents.walk_eq _ (by rwa [length_addressPath]), hnode,
      asUInt64_asInt ((ht'.frame_lt hnode).trans hc.numFrames_lt)]
  obtain ⟨frame, s₁, hrun, hnode, hlast⟩ := hway _ le_rfl
  obtain rfl := hlast rfl
  have hsmall := (ht'.frame_lt hnode).trans hc.numFrames_lt
  have htranslate : translateAddress .given a s = some (frame, s₁) := by
    change (translateTo .given a _ >>= fun word => pure (asUInt64 word)) s = _
    rw [run_bind hrun, asUInt64_asInt hsmall]
    rfl
  refine ⟨results, s, frame, s₁, hperform, htranslate, ?_, hwalks, ?_⟩
  · rw [ht'.represents.walk_eq _ (by rw [length_addressPath]), hnode]
  · intro b hb hpage
    have hpath : IsPage t' (addressPath .given b MemoryConstants.given.tablesDepth) frame := by
      rw [addressPath_congr hc ha hb hpage]
      exact ⟨hnode, length_addressPath _ _⟩
    obtain ⟨frame', s₂, hagain, -, rfl, hsame⟩ :=
      ensures_translateAddress_mapped hc hb ht' hpath hlegal'
    exact ⟨s₂, hagain, hsame⟩

theorem translation_stable_write : ∃ results s frame s' s₂,
    performAll .given [.init, .write 70000 7] (Memory.machine ⟨fun _ _ => 1, fun _ => none, 0⟩) =
      some (results, s) ∧
    translateAddress .given 74565 s = some (frame, s') ∧
    translateAddress .given 74566 s' = some (frame, s₂) ∧ s₂.memory = s'.memory := by
  obtain ⟨results, s, frame, s', hperform, htranslate, -, -, hagain⟩ :=
    translation_stable ⟨fun _ _ => 1, fun _ => none, 0⟩ [.write 70000 7]
      (show 74565 < MemoryConstants.given.virtualMemorySize by decide)
  obtain ⟨s₂, htranslate', hsame⟩ := hagain 74566 (by decide) (by decide)
  exact ⟨results, s, frame, s', s₂, hperform, htranslate, htranslate', hsame⟩

end OsExercises.VirtualMemory
