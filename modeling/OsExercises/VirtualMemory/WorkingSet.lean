import OsExercises.VirtualMemory.Runs
import Mathlib.Data.Finset.Card

/-!
# The working set

The tables and pages on the ways to the pages that were accessed. As long as nothing is evicted the
RAM holds these and nothing else, each in a frame of its own; and something is evicted only when all
frames are used and one more is needed. So the accesses of a run cause an eviction exactly when their
working set does not fit the frames.
-/

namespace OsExercises.VirtualMemory

variable {c : MemoryConstants}

/-! ### Working sets -/

/-- The tables on the way to the page of an address, and the page. -/
def wayTo (c : MemoryConstants) (virtualAddress : Nat) : Finset (List Nat) :=
  (addressPath c virtualAddress c.tablesDepth).inits.toFinset

def VmCall.address? : VmCall → Option Nat
  | .init => none
  | .read virtualAddress => some virtualAddress
  | .write virtualAddress _ => some virtualAddress

/-- An address out of range is not translated. -/
def VmCall.way (c : MemoryConstants) (call : VmCall) : Finset (List Nat) :=
  match call.address? with
  | none => ∅
  | some virtualAddress =>
      if c.virtualMemorySize - 1 < virtualAddress then ∅ else wayTo c virtualAddress

/-- The root table is always there. -/
def workingSet (c : MemoryConstants) : List VmCall → Finset (List Nat)
  | [] => {[]}
  | call :: rest => call.way c ∪ workingSet c rest

/-- The tree has the tables and pages of the set. -/
def Explored (t : FrameTree c) (w : Finset (List Nat)) : Prop :=
  ∀ path, path ∈ w ↔ ∃ frame, t.node path = some frame

/-- All tables but the root and the one at `stop` have an entry. -/
def Grown (c : MemoryConstants) (w : Finset (List Nat)) (stop : List Nat) : Prop :=
  ∀ path ∈ w, path.length < c.tablesDepth → path ≠ stop → ∃ i, path ++ [i] ∈ w

/-- Either nothing was evicted since the counter stood at `count`, and the RAM holds the tables and
pages of the set, or the set does not fit the RAM. -/
inductive Account (c : MemoryConstants) (count : Nat) (w : Finset (List Nat)) (m : Memory)
    (t : FrameTree c) : Prop where
  | fits : m.evictCounter = count → Explored t w → Account c count w m t
  | exceeds : count < m.evictCounter → c.numFrames < w.card → Account c count w m t

section Count

variable {m : Memory} {t : FrameTree c} {w : Finset (List Nat)}

/-- Tables and pages have different frames. -/
theorem Explored.card_le (hexplored : Explored t w) (ht : PageTable c m t none) :
    w.card ≤ c.numFrames := by
  have hframe : ∀ path ∈ w, t.node path = some ((t.node path).getD 0) := by
    intro path hpath
    obtain ⟨frame, hnode⟩ := (hexplored path).mp hpath
    rw [hnode, Option.getD_some]
  calc w.card
    _ ≤ (Finset.range c.numFrames).card := by
        refine Finset.card_le_card_of_injOn (fun path => (t.node path).getD 0) ?_ ?_
        · intro path hpath
          exact Finset.mem_coe.mpr (Finset.mem_range.mpr (ht.frame_lt (hframe path hpath)))
        · intro path hpath path' hpath' heq
          refine t.node_injective (hframe path hpath) ?_
          change (t.node path).getD 0 = (t.node path').getD 0 at heq
          rw [heq]
          exact hframe path' hpath'
    _ = c.numFrames := Finset.card_range _

theorem Explored.le_card (hexplored : Explored t w)
    (hused : ∀ frame < c.numFrames, ∃ path, t.node path = some frame) : c.numFrames ≤ w.card := by
  calc c.numFrames
    _ = (Finset.range c.numFrames).card := (Finset.card_range _).symm
    _ ≤ (w.image fun path => (t.node path).getD 0).card := by
        apply Finset.card_le_card
        intro frame hframe
        obtain ⟨path, hnode⟩ := hused frame (Finset.mem_range.mp hframe)
        refine Finset.mem_image.mpr ⟨path, (hexplored path).mpr ⟨frame, hnode⟩, ?_⟩
        rw [hnode, Option.getD_some]
    _ ≤ w.card := Finset.card_image_le

end Count

/-! ### One level -/

section Level

variable {count virtualAddress level : Nat} {w : Finset (List Nat)} {m m₁ m' : Memory}
  {t t₁ t' : FrameTree c} {frame found : Nat}

theorem FrameChoice.counter_le {illegal pageIn : Nat}
    (hchoice : FrameChoice c m t illegal pageIn m' frame) : m.evictCounter ≤ m'.evictCounter := by
  cases hchoice with
  | empty => exact le_rfl
  | unused => exact le_rfl
  | evicted => exact Nat.le_succ _

/-- The tree stays as it is when the frame was not used before. -/
theorem LevelFault.node_eq {last : Nat}
    (hfault : LevelFault c virtualAddress level frame m t m₁ t₁ (last + 1) m' t')
    (hframes : ∀ n, (∃ path, t.node path = some n) ↔ n ≤ last) (path : List Nat) :
    t₁.node path = t.node path := by
  cases hnode : t.node path with
  | none =>
      by_contra hsome
      obtain ⟨n, hn⟩ := Option.ne_none_iff_exists'.mp hsome
      rw [hfault.old path n hn] at hnode
      cases hnode
  | some n =>
      obtain ⟨last', -, hframes'⟩ := hfault.spare.frames
      have hlast : last + 1 ≤ last' := (hframes' (last + 1)).mp (Or.inl rfl)
      have hn : n ≤ last := (hframes n).mp ⟨path, hnode⟩
      rcases (hframes' n).mpr (by omega) with hspare | ⟨path', hnode'⟩
      · have := Option.some.inj hspare
        omega
      · obtain rfl := t.node_injective (hfault.old path' n hnode') hnode
        exact hnode'

/-- A fault adds the next table or page to the set. -/
theorem Account.fault (hgrown : Grown c w (addressPath c virtualAddress level))
    (hnode : t.node (addressPath c virtualAddress level) = some frame)
    (hmissing : t.node (addressPath c virtualAddress (level + 1)) = none)
    (hfault : LevelFault c virtualAddress level frame m t m₁ t₁ found m' t')
    (h : Account c count w m t) :
    Account c count (insert (addressPath c virtualAddress (level + 1)) w) m' t' := by
  have hmono : m.evictCounter ≤ m'.evictCounter := by
    rw [hfault.counter]
    exact hfault.choice.counter_le
  cases h with
  | exceeds hcount hcard =>
      exact .exceeds (hcount.trans_le hmono)
        (hcard.trans_le (Finset.card_le_card (Finset.subset_insert _ _)))
  | fits hcount hexplored =>
      have hnew : addressPath c virtualAddress (level + 1) ∉ w := by
        intro hmem
        obtain ⟨n, hn⟩ := (hexplored _).mp hmem
        rw [hmissing] at hn
        cases hn
      cases hfault.choice with
      | @empty path i parent _ hparent htable =>
          -- no table of the set is empty but the one that is extended
          obtain ⟨hchild, hshort, hne, hleaf⟩ := htable
          obtain ⟨j, hj⟩ := hgrown _ ((hexplored _).mpr ⟨_, hchild⟩) hshort (by
            intro heq
            rw [heq, hnode] at hchild
            exact hne (Option.some.inj hchild).symm)
          obtain ⟨n, hn⟩ := (hexplored _).mp hj
          rw [hleaf j] at hn
          cases hn
      | @unused last hnone hframes hlast =>
          refine .fits (hfault.counter.trans hcount) fun path => ?_
          rw [Finset.mem_insert, hfault.node path]
          split
          · rename_i heq
            exact iff_of_true (Or.inl heq) ⟨_, rfl⟩
          · rename_i hne
            rw [or_iff_right hne, hexplored path, hfault.node_eq hframes]
      | evicted _ hused _ _ _ =>
          refine .exceeds ?_ ?_
          · rw [hfault.counter, ← hcount]
            exact Nat.lt_succ_self _
          · rw [Finset.card_insert_of_notMem hnew]
            exact Nat.lt_succ_of_le (hexplored.le_card hused)

/-- A level that is mapped was in the set before. -/
theorem Account.mapped {next : Nat}
    (hnext : t.node (addressPath c virtualAddress (level + 1)) = some next)
    (h : Account c count w m t) :
    Account c count (insert (addressPath c virtualAddress (level + 1)) w) m t := by
  cases h with
  | exceeds hcount hcard =>
      exact .exceeds hcount (hcard.trans_le (Finset.card_le_card (Finset.subset_insert _ _)))
  | fits hcount hexplored =>
      rw [Finset.insert_eq_of_mem ((hexplored _).mpr ⟨next, hnext⟩)]
      exact .fits hcount hexplored

end Level

/-! ### One call -/

/-- The levels of a way up to one of them. -/
def wayUpTo (c : MemoryConstants) (virtualAddress level : Nat) : Finset (List Nat) :=
  (addressPath c virtualAddress level).inits.toFinset

theorem mem_wayUpTo {virtualAddress level : Nat} {path : List Nat} :
    path ∈ wayUpTo c virtualAddress level ↔ path <+: addressPath c virtualAddress level := by
  rw [wayUpTo, List.mem_toFinset, List.mem_inits]

theorem wayUpTo_succ (virtualAddress level : Nat) :
    wayUpTo c virtualAddress (level + 1) =
      insert (addressPath c virtualAddress (level + 1)) (wayUpTo c virtualAddress level) := by
  ext path
  rw [Finset.mem_insert, mem_wayUpTo, mem_wayUpTo, addressPath_succ, List.prefix_concat_iff]

/-- All tables of the set but the root have an entry. -/
def Complete (c : MemoryConstants) (w : Finset (List Nat)) : Prop :=
  ∀ path ∈ w, path.length < c.tablesDepth → path ≠ [] → ∃ i, path ++ [i] ∈ w

theorem exists_next_of_prefix {path full : List Nat} (hpre : path <+: full) (hne : path ≠ full) :
    ∃ i, path ++ [i] <+: full := by
  obtain ⟨rest, rfl⟩ := hpre
  cases rest with
  | nil => exact absurd (List.append_nil path).symm hne
  | cons i rest =>
      refine ⟨i, rest, ?_⟩
      rw [List.append_assoc]
      rfl

theorem Complete.grown {w : Finset (List Nat)} (hcomplete : Complete c w)
    (virtualAddress level : Nat) :
    Grown c (wayUpTo c virtualAddress level ∪ w) (addressPath c virtualAddress level) := by
  have hway : ∀ path, path <+: addressPath c virtualAddress level →
      path ≠ addressPath c virtualAddress level →
      ∃ i, path ++ [i] ∈ wayUpTo c virtualAddress level ∪ w := by
    intro path hpre hne
    obtain ⟨i, hi⟩ := exists_next_of_prefix hpre hne
    exact ⟨i, Finset.mem_union_left _ (mem_wayUpTo.mpr hi)⟩
  intro path hpath hshort hne
  rcases Finset.mem_union.mp hpath with hmem | hmem
  · exact hway path (mem_wayUpTo.mp hmem) hne
  · by_cases hnil : path = []
    · subst hnil
      exact hway [] List.nil_prefix hne
    · obtain ⟨i, hi⟩ := hcomplete path hmem hshort hnil
      exact ⟨i, Finset.mem_union_right _ hi⟩

/-- A whole way ends in a page. -/
theorem Complete.union {w : Finset (List Nat)} (hcomplete : Complete c w) (virtualAddress : Nat) :
    Complete c (wayTo c virtualAddress ∪ w) := by
  intro path hpath hshort _
  apply hcomplete.grown virtualAddress c.tablesDepth path hpath hshort
  rintro rfl
  rw [length_addressPath] at hshort
  exact Nat.lt_irrefl _ hshort

section Call

variable {count : Nat} {w : Finset (List Nat)} (hc : c.Valid) (hdepth : c.tablesDepth < c.numFrames)
  {virtualAddress : Nat} {t : FrameTree c} {s : Machine}
include hc hdepth

theorem ensures_translateLevel_account (haddress : virtualAddress < c.virtualMemorySize)
    {level : Nat} (hlevel : level < c.tablesDepth) {frame : Nat} (ht : PageTable c s.memory t none)
    (hnode : t.node (addressPath c virtualAddress level) = some frame)
    (hgrown : Grown c w (addressPath c virtualAddress level))
    (haccount : Account c count w s.memory t) :
    Ensures (Machine.Legal c)
      (translateLevel c virtualAddress (asInt (virtualAddress >>> c.offsetWidth)) (asInt frame) level)
      s fun word s' => ∃ t' next, word = asInt next ∧ PageTable c s'.memory t' none ∧
        t'.node (addressPath c virtualAddress (level + 1)) = some next ∧
        Account c count (insert (addressPath c virtualAddress (level + 1)) w) s'.memory t' := by
  cases hnext : t.node (addressPath c virtualAddress (level + 1)) with
  | none =>
      have hleft := frameLeft_of_depth hdepth ⟨_, hnode, by rwa [length_addressPath]⟩
      refine (ensures_translateLevel_fault hc haddress hlevel ht hleft hnode hnext).mono ?_
      rintro word s' ⟨m₁, t₁, found, t', rfl, hfault⟩
      refine ⟨t', found, rfl, hfault.table, ?_, haccount.fault hgrown hnode hnext hfault⟩
      rw [hfault.node, if_pos rfl]
  | some next =>
      refine (ensures_translateLevel_mapped hc haddress hlevel ht hnode hnext).mono ?_
      rintro word s' ⟨rfl, hs'⟩
      rw [hs']
      exact ⟨t, next, rfl, ht, hnext, haccount.mapped hnext⟩

theorem ensures_translateAddress_account (haddress : virtualAddress < c.virtualMemorySize)
    (ht : PageTable c s.memory t none) (hcomplete : Complete c w) (hroot : [] ∈ w)
    (haccount : Account c count w s.memory t) :
    Ensures (Machine.Legal c) (translateAddress c virtualAddress) s fun frame s' =>
      ∃ t', PageTable c s'.memory t' none ∧
        IsPage t' (addressPath c virtualAddress c.tablesDepth) frame ∧
        Account c count (wayTo c virtualAddress ∪ w) s'.memory t' := by
  unfold translateAddress
  refine (ensures_foldlM_range (fun level word (s' : Machine) => ∃ (t' : FrameTree c) (frame : Nat),
    word = asInt frame ∧ PageTable c s'.memory t' none ∧
      t'.node (addressPath c virtualAddress level) = some frame ∧
      Account c count (wayUpTo c virtualAddress level ∪ w) s'.memory t') ?_ ?_).bind ?_
  · rintro level hlevel word s₁ ⟨t₁, frame, rfl, ht₁, hnode, haccount₁⟩
    rw [wayUpTo_succ, Finset.insert_union]
    exact ensures_translateLevel_account hc hdepth haddress hlevel ht₁ hnode
      (hcomplete.grown virtualAddress level) haccount₁
  · refine ⟨t, 0, asInt_zero.symm, ht, ht.represents.root_node, ?_⟩
    have hstart : wayUpTo c virtualAddress 0 ∪ w = w :=
      Finset.union_eq_right.mpr (Finset.singleton_subset_iff.mpr hroot)
    rwa [hstart]
  · rintro word s₁ ⟨t₁, frame, rfl, ht₁, hnode, haccount₁⟩
    refine ensures_pure ⟨t₁, ht₁, ?_, haccount₁⟩
    rw [asUInt64_asInt ((ht₁.frame_lt hnode).trans hc.numFrames_lt)]
    exact ⟨hnode, length_addressPath _ _⟩

omit hc hdepth in
theorem not_lt_of_range (haddress : virtualAddress < c.virtualMemorySize) :
    ¬ c.virtualMemorySize - 1 < virtualAddress := by
  omega

/-- A page table with its account. -/
def Accounted (c : MemoryConstants) (count : Nat) (w : Finset (List Nat)) (m : Memory) : Prop :=
  ∃ t : FrameTree c, PageTable c m t none ∧ Account c count w m t

omit hc hdepth in
theorem Account.writePage {m : Memory} (value : Word) {physicalAddress : Nat}
    (haccount : Account c count w m t) :
    Account c count w (m.store c physicalAddress value) t := by
  cases haccount with
  | fits hcount hexplored => exact .fits hcount hexplored
  | exceeds hcount hcard => exact .exceeds hcount hcard

theorem ensures_vmRead_account (hcomplete : Complete c w) (hroot : [] ∈ w)
    (haccounted : Accounted c count w s.memory) :
    Ensures (Machine.Legal c) (vmRead c virtualAddress) s fun _ s' =>
      Accounted c count (VmCall.way c (.read virtualAddress) ∪ w) s'.memory := by
  obtain ⟨t, ht, haccount⟩ := haccounted
  by_cases haddress : virtualAddress < c.virtualMemorySize
  · have hwidth := hc.physicalAddressWidth_le
    have hoffsetWidth := hc.offsetWidth_lt_physical
    have hin := not_lt_of_range haddress
    have hway : VmCall.way c (.read virtualAddress) = wayTo c virtualAddress := if_neg hin
    rw [hway, vmRead, if_neg hin, findOffset_eq (by omega)]
    refine (ensures_translateAddress_account hc hdepth haddress ht hcomplete hroot haccount).bind ?_
    rintro frame s₁ ⟨t₁, ht₁, hpage, haccount₁⟩
    refine (ensures_pmRead s₁ (hc.entry_lt_ramSize (ht₁.frame_lt hpage.1)
      (Nat.mod_lt _ MemoryConstants.pageSize_pos))).bind ?_
    rintro word s₂ ⟨-, hs₂⟩
    refine ensures_pure ⟨t₁, ?_⟩
    rw [hs₂]
    exact ⟨ht₁, haccount₁⟩
  · have hout : c.virtualMemorySize - 1 < virtualAddress := by
      have hsize : 0 < c.virtualMemorySize := Nat.two_pow_pos _
      omega
    have hway : VmCall.way c (.read virtualAddress) = ∅ := if_pos hout
    rw [hway, Finset.empty_union, vmRead, if_pos hout]
    exact ensures_pure ⟨t, ht, haccount⟩

theorem ensures_vmWrite_account (value : Word) (hcomplete : Complete c w) (hroot : [] ∈ w)
    (haccounted : Accounted c count w s.memory) :
    Ensures (Machine.Legal c) (vmWrite c virtualAddress value) s fun _ s' =>
      Accounted c count (VmCall.way c (.write virtualAddress value) ∪ w) s'.memory := by
  obtain ⟨t, ht, haccount⟩ := haccounted
  by_cases haddress : virtualAddress < c.virtualMemorySize
  · have hwidth := hc.physicalAddressWidth_le
    have hoffsetWidth := hc.offsetWidth_lt_physical
    have hoffset : virtualAddress % c.pageSize < c.pageSize :=
      Nat.mod_lt _ MemoryConstants.pageSize_pos
    have hin := not_lt_of_range haddress
    have hway : VmCall.way c (.write virtualAddress value) = wayTo c virtualAddress := if_neg hin
    rw [hway, vmWrite, if_neg hin, findOffset_eq (by omega)]
    refine (ensures_translateAddress_account hc hdepth haddress ht hcomplete hroot haccount).bind ?_
    rintro frame s₁ ⟨t₁, ht₁, hpage, haccount₁⟩
    refine (ensures_pmWrite s₁ (hc.entry_lt_ramSize (ht₁.frame_lt hpage.1) hoffset)).bind ?_
    rintro - s₂ ⟨hs₂, -⟩
    refine ensures_pure ⟨t₁, ?_⟩
    rw [hs₂]
    exact ⟨ht₁.writePage hpage hoffset value, haccount₁.writePage value⟩
  · have hout : c.virtualMemorySize - 1 < virtualAddress := by
      have hsize : 0 < c.virtualMemorySize := Nat.two_pow_pos _
      omega
    have hway : VmCall.way c (.write virtualAddress value) = ∅ := if_pos hout
    rw [hway, Finset.empty_union, vmWrite, if_pos hout]
    exact ensures_pure ⟨t, ht, haccount⟩

/-- The step lemma. -/
theorem ensures_perform_account {call : VmCall} (haccess : call ≠ .init) (hcomplete : Complete c w)
    (hroot : [] ∈ w) (haccounted : Accounted c count w s.memory) :
    Ensures (Machine.Legal c) (call.perform c) s fun _ s' =>
      Accounted c count (call.way c ∪ w) s'.memory := by
  cases call with
  | init => exact absurd rfl haccess
  | read virtualAddress =>
      exact (ensures_vmRead_account hc hdepth hcomplete hroot haccounted).bind
        fun _ _ haccounted' => ensures_pure haccounted'
  | write virtualAddress value =>
      exact (ensures_vmWrite_account hc hdepth value hcomplete hroot haccounted).bind
        fun _ _ haccounted' => ensures_pure haccounted'

omit hc hdepth in
theorem Complete.way (hcomplete : Complete c w) (call : VmCall) : Complete c (call.way c ∪ w) := by
  unfold VmCall.way
  split
  · rwa [Finset.empty_union]
  · split
    · rwa [Finset.empty_union]
    · exact hcomplete.union _

/-- The run lemma. -/
theorem ensures_performAll_account (calls : List VmCall) :
    ∀ {w : Finset (List Nat)} {s : Machine}, (∀ call ∈ calls, call ≠ .init) → Complete c w →
      [] ∈ w → Accounted c count w s.memory →
      Ensures (Machine.Legal c) (performAll c calls) s fun _ s' =>
        Accounted c count (workingSet c calls ∪ w) s'.memory := by
  induction calls with
  | nil =>
      intro w s _ _ hroot haccounted
      have hsame : workingSet c [] ∪ w = w :=
        Finset.union_eq_right.mpr (Finset.singleton_subset_iff.mpr hroot)
      rw [hsame]
      exact ensures_pure haccounted
  | cons call calls ih =>
      intro w s haccess hcomplete hroot haccounted
      have hfirst := haccess call List.mem_cons_self
      refine (ensures_perform_account hc hdepth hfirst hcomplete hroot haccounted).bind ?_
      intro result s₁ haccounted₁
      have hset : workingSet c (call :: calls) ∪ w = workingSet c calls ∪ (call.way c ∪ w) := by
        rw [workingSet, Finset.union_comm (call.way c), Finset.union_assoc]
      rw [hset]
      refine (ih (fun call hcall => haccess call (List.mem_cons_of_mem _ hcall))
        (hcomplete.way call) (Finset.mem_union_right _ hroot) haccounted₁).bind ?_
      exact fun results s₂ haccounted₂ => ensures_pure haccounted₂

end Call

/-! ### Runs -/

theorem nil_mem_workingSet (calls : List VmCall) : [] ∈ workingSet c calls := by
  induction calls with
  | nil => exact Finset.mem_singleton_self _
  | cons call calls ih => exact Finset.mem_union_right _ ih

theorem complete_root : Complete c {[]} := by
  intro path hpath _ hne
  exact absurd (Finset.mem_singleton.mp hpath) hne

theorem ensures_vmInitialize_account (hc : c.Valid) (s : Machine) :
    Ensures (Machine.Legal c) (vmInitialize c) s fun _ s' =>
      Accounted c s.memory.evictCounter {[]} s'.memory := by
  have hframes : 0 < c.numFrames := by
    rw [hc.numFrames_eq]
    exact Nat.two_pow_pos _
  refine ((ensures_vmInitialize hc s).and (ensures_initializeFrame_counter hc hframes s)).mono ?_
  rintro - s' ⟨ht, hcounter⟩
  refine ⟨_, ht, .fits hcounter fun path => ?_⟩
  rw [Finset.mem_singleton]
  constructor
  · rintro rfl
    exact ⟨0, rfl⟩
  · rintro ⟨frame, hnode⟩
    by_contra hne
    simp [PathTree.single, hne] at hnode

/-- An address in range that a call accesses. -/
def Accesses (c : MemoryConstants) (calls : List VmCall) (virtualAddress : Nat) : Prop :=
  virtualAddress < c.virtualMemorySize ∧ ∃ call ∈ calls, call.address? = some virtualAddress

theorem mem_way_iff {call : VmCall} {path : List Nat} :
    path ∈ call.way c ↔ ∃ virtualAddress < c.virtualMemorySize,
      call.address? = some virtualAddress ∧ path ∈ wayTo c virtualAddress := by
  have hsize : 0 < c.virtualMemorySize := Nat.two_pow_pos _
  unfold VmCall.way
  cases call.address? with
  | none => simp
  | some virtualAddress =>
      simp only [Option.some.injEq]
      split
      · rename_i hout
        refine iff_of_false (Finset.notMem_empty _) ?_
        rintro ⟨virtualAddress', hlt, rfl, -⟩
        omega
      · rename_i hin
        constructor
        · exact fun hpath => ⟨virtualAddress, by omega, rfl, hpath⟩
        · rintro ⟨virtualAddress', -, rfl, hpath⟩
          exact hpath

theorem mem_workingSet_iff {calls : List VmCall} {path : List Nat} (hne : path ≠ []) :
    path ∈ workingSet c calls ↔
      ∃ virtualAddress, Accesses c calls virtualAddress ∧ path ∈ wayTo c virtualAddress := by
  induction calls with
  | nil =>
      refine iff_of_false (fun hpath => hne (Finset.mem_singleton.mp hpath)) ?_
      rintro ⟨virtualAddress, ⟨-, call, hcall, -⟩, -⟩
      cases hcall
  | cons call calls ih =>
      rw [workingSet, Finset.mem_union, mem_way_iff, ih]
      constructor
      · rintro (⟨virtualAddress, hlt, haddress, hpath⟩ | ⟨virtualAddress, ⟨hlt, hcall⟩, hpath⟩)
        · exact ⟨virtualAddress, ⟨hlt, call, List.mem_cons_self, haddress⟩, hpath⟩
        · obtain ⟨call', hmem, haddress⟩ := hcall
          exact ⟨virtualAddress, ⟨hlt, call', List.mem_cons_of_mem _ hmem, haddress⟩, hpath⟩
      · rintro ⟨virtualAddress, ⟨hlt, call', hmem, haddress⟩, hpath⟩
        rcases List.mem_cons.mp hmem with rfl | hmem
        · exact Or.inl ⟨virtualAddress, hlt, haddress, hpath⟩
        · exact Or.inr ⟨virtualAddress, ⟨hlt, call', hmem, haddress⟩, hpath⟩

/-- The pages in the RAM are those that were accessed. -/
theorem Explored.holdsPage_iff (hc : c.Valid) {calls : List VmCall} {m : Memory} {t : FrameTree c}
    (ht : PageTable c m t none) (hexplored : Explored t (workingSet c calls)) (page : Nat) :
    (∃ frame, HoldsPage c m page frame) ↔
      ∃ virtualAddress, Accesses c calls virtualAddress ∧ virtualAddress / c.pageSize = page := by
  have hdepth := hc.tablesDepth_pos
  constructor
  · rintro ⟨frame, path, hfull, hwalk, rfl⟩
    rw [ht.represents.walk_eq path hfull.le] at hwalk
    have hne : path ≠ [] := by
      rintro rfl
      exact absurd hfull hdepth.ne
    obtain ⟨virtualAddress, haccess, hpath⟩ :=
      (mem_workingSet_iff hne).mp ((hexplored path).mpr ⟨frame, hwalk⟩)
    have hpre := mem_wayUpTo.mp hpath
    have hsame := hpre.eq_of_length (by rw [hfull, length_addressPath])
    rw [hsame, pathPage_addressPath hc haccess.1]
    exact ⟨virtualAddress, haccess, rfl⟩
  · rintro ⟨virtualAddress, haccess, rfl⟩
    have hlength := length_addressPath (c := c) virtualAddress c.tablesDepth
    have hne : addressPath c virtualAddress c.tablesDepth ≠ [] := by
      intro hnil
      rw [hnil, List.length_nil] at hlength
      omega
    have hmem := (mem_workingSet_iff hne).mpr
      ⟨virtualAddress, haccess, mem_wayUpTo.mpr (List.prefix_refl _)⟩
    obtain ⟨frame, hnode⟩ := (hexplored _).mp hmem
    refine ⟨frame, _, hlength, ?_, pathPage_addressPath hc haccess.1⟩
    rw [ht.represents.walk_eq _ hlength.le, hnode]

/-- Nothing is evicted exactly when the working set fits the frames, and then the pages that were
accessed are the ones in the RAM. -/
theorem no_eviction_iff (hc : c.Valid) (hdepth : c.tablesDepth < c.numFrames) (m : Memory)
    (calls : List VmCall) (haccess : ∀ call ∈ calls, call ≠ .init) :
    ∃ results s, performAll c (.init :: calls) m.machine = some (results, s) ∧
      (s.memory.evictCounter = m.evictCounter ↔ (workingSet c calls).card ≤ c.numFrames) ∧
      (s.memory.evictCounter = m.evictCounter → ∀ page, (∃ frame, HoldsPage c s.memory page frame) ↔
        ∃ virtualAddress, Accesses c calls virtualAddress ∧ virtualAddress / c.pageSize = page) := by
  have hrun : Ensures (Machine.Legal c) (performAll c (.init :: calls)) m.machine fun _ s' =>
      Accounted c m.evictCounter (workingSet c calls ∪ {[]}) s'.memory := by
    have hinit : Ensures (Machine.Legal c) (VmCall.perform c .init) m.machine fun _ s' =>
        Accounted c m.evictCounter {[]} s'.memory :=
      (ensures_vmInitialize_account hc m.machine).bind fun _ _ haccounted => ensures_pure haccounted
    refine hinit.bind fun _ s₁ haccounted => ?_
    refine (ensures_performAll_account hc hdepth calls haccess complete_root
      (Finset.mem_singleton_self _) haccounted).bind fun _ _ hrest => ensures_pure hrest
  obtain ⟨results, s, hperform, -, t, ht, haccount⟩ := hrun (legal_machine m)
  rw [Finset.union_eq_left.mpr (Finset.singleton_subset_iff.mpr (nil_mem_workingSet calls))]
    at haccount
  refine ⟨results, s, hperform, ?_⟩
  cases haccount with
  | fits hcount hexplored =>
      refine ⟨iff_of_true hcount (hexplored.card_le ht), fun _ => ?_⟩
      exact hexplored.holdsPage_iff hc ht
  | exceeds hcount hcard =>
      exact ⟨iff_of_false hcount.ne' (Nat.not_le_of_lt hcard), fun heq => absurd heq hcount.ne'⟩

/-- Two pages with a common table below the root take eight frames. -/
theorem no_eviction_two : (workingSet .given [.write 70000 7, .read 74565]).card = 8 ∧
    ∃ results s, performAll .given [.init, .write 70000 7, .read 74565]
      (Memory.machine ⟨fun _ _ => 1, fun _ => none, 0⟩) = some (results, s) ∧
      s.memory.evictCounter = 0 := by
  obtain ⟨results, s, hperform, hiff, -⟩ := no_eviction_iff MemoryConstants.valid_given
    given_tablesDepth_lt ⟨fun _ _ => 1, fun _ => none, 0⟩ [.write 70000 7, .read 74565] (by simp)
  exact ⟨by decide, results, s, hperform, hiff.mpr (by decide)⟩

end OsExercises.VirtualMemory
