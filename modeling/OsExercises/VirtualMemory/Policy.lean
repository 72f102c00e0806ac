import OsExercises.VirtualMemory.Runs
import OsExercises.VirtualMemory.Programs
import Mathlib.Order.Bounds.Basic

/-!
# The choice of a frame

What `find_frame` does to any memory whose tables form a tree, in the words of the RAM: an empty
table is taken before a frame never used, and a frame never used before the frame of the page
farthest from the one to come in.
-/

namespace OsExercises.VirtualMemory

variable {c : MemoryConstants} {m m' : Memory} {illegal pageIn frame : Nat}

/-! ### The policy -/

/-- A reachable table other than the protected one with all entries zero. -/
def EmptyTable (c : MemoryConstants) (m : Memory) (illegal frame : Nat) : Prop :=
  IsTable c m frame ∧ frame ≠ illegal ∧ ∀ i < c.pageSize, m.ram frame i = 0

/-- The one entry that points to a frame. -/
def OnlyReference (c : MemoryConstants) (m : Memory) (parent i frame : Nat) : Prop :=
  (IsTable c m parent ∧ entry c m parent i = some frame) ∧
    ∀ parent' i', IsTable c m parent' → entry c m parent' i' = some frame →
      parent' = parent ∧ i' = i

/-- Of the mapped pages one farthest from the page to come in, the first one of these. -/
def Victim (c : MemoryConstants) (m : Memory) (pageIn page frame : Nat) : Prop :=
  HoldsPage c m page frame ∧ ∀ page' frame', HoldsPage c m page' frame' →
    pageDistance c pageIn page' < pageDistance c pageIn page ∨
      (pageDistance c pageIn page' = pageDistance c pageIn page ∧ page ≤ page')

def Memory.clearEntry (m : Memory) (parent i : Nat) : Memory :=
  { m with ram := fun frame j => if frame = parent ∧ j = i then 0 else m.ram frame j }

/-- The frame chosen for a page to come in, and the memory that the choice leaves. -/
structure FramePolicy (c : MemoryConstants) (m : Memory) (illegal pageIn frame : Nat)
    (m' : Memory) : Prop where
  empty : (∃ table, EmptyTable c m illegal table) →
    EmptyTable c m illegal frame ∧
      ∃ parent i, OnlyReference c m parent i frame ∧ m' = m.clearEntry parent i
  unused : (∀ table, ¬ EmptyTable c m illegal table) →
    ∀ largest, IsGreatest {n | Reachable c m n} largest → largest + 1 < c.numFrames →
      frame = largest + 1 ∧ (∀ table i, IsTable c m table → entry c m table i ≠ some frame) ∧ m' = m
  evicted : (∀ table, ¬ EmptyTable c m illegal table) →
    ∀ largest, IsGreatest {n | Reachable c m n} largest → ¬ largest + 1 < c.numFrames →
      ∃ page parent i, Victim c m pageIn page frame ∧ OnlyReference c m parent i frame ∧
        m' = (m.evict frame page).clearEntry parent i

/-! ### The tree of a memory -/

namespace TreeShape

variable (h : TreeShape c m)

/-- The walks of a memory as a tree. -/
def tree (h : TreeShape c m) : FrameTree c where
  node path := if path.length ≤ c.tablesDepth then walk (entry c m) 0 path else none
  parent_of_node {path i n} hnode := by
    rw [List.length_append, List.length_singleton] at hnode
    split at hnode
    · rename_i hle
      rw [walk_concat] at hnode
      obtain ⟨parent, hparent, -⟩ := Option.bind_eq_some_iff.mp hnode
      exact ⟨parent, by rw [if_pos (Nat.le_of_succ_le hle), hparent]⟩
    · cases hnode
  node_injective {path path' n} hnode hnode' := by
    split at hnode
    · split at hnode'
      · exact h.path_unique path path' n ‹_› ‹_› hnode hnode'
      · cases hnode'
    · cases hnode
  length_le {path n} hnode := by
    split at hnode
    · assumption
    · cases hnode

theorem tree_node_iff {path : List Nat} {n : Nat} :
    h.tree.node path = some n ↔ path.length ≤ c.tablesDepth ∧ walk (entry c m) 0 path = some n := by
  change (if path.length ≤ c.tablesDepth then walk (entry c m) 0 path else none) = some n ↔ _
  split
  · rename_i hle
    exact (and_iff_right hle).symm
  · rename_i hle
    exact iff_of_false (by simp) fun hboth => hle hboth.1

/-- Without a narrow top level the tables say all that the invariant asks for. -/
theorem pageTable (htop : topWidth c = c.offsetWidth) : PageTable c m h.tree none := by
  have hwalk : ∀ {path n}, path.length ≤ c.tablesDepth → h.tree.node path = some n →
      walk (entry c m) 0 path = some n := fun hle hnode => (h.tree_node_iff.mp hnode).2
  constructor
  case represents =>
    refine ⟨h.tree_node_iff.mpr ⟨Nat.zero_le _, rfl⟩, ?_⟩
    intro path n i hnode hlength
    have hle : (path ++ [i]).length ≤ c.tablesDepth := by
      rwa [List.length_append, List.length_singleton]
    change (if (path ++ [i]).length ≤ c.tablesDepth then walk _ 0 (path ++ [i]) else none) = _
    rw [if_pos hle, walk_concat, hwalk hlength.le hnode]
    rfl
  case top_index =>
    intro i path n hnode
    obtain ⟨-, hnext⟩ := h.tree_node_iff.mp hnode
    obtain ⟨child, hchild, -⟩ := Option.bind_eq_some_iff.mp hnext
    rw [htop]
    exact entry_lt hchild
  case frames =>
    obtain ⟨last, hlast, hreach⟩ := h.initial_segment
    refine ⟨last, hlast, fun n => ?_⟩
    rw [← hreach n]
    simp only [reduceCtorEq, false_or, h.tree_node_iff]
    rfl
  case spare_fresh => exact fun hspare => by cases hspare
  case not_swapped =>
    intro path n hnode hfull
    exact h.not_swapped _ n ⟨path, hfull, hwalk hfull.le hnode, rfl⟩

end TreeShape

/-- The places of the frames in the tree. Where a memory is given word by word, the shape of its
tables can be checked frame by frame. -/
structure Placed (c : MemoryConstants) (m : Memory) (last : Nat) (place : Nat → List Nat) : Prop where
  last_lt : last < c.numFrames
  root_place : place 0 = []
  walk_place : ∀ frame ≤ last, (place frame).length ≤ c.tablesDepth ∧
    walk (entry c m) 0 (place frame) = some frame
  place_entry : ∀ frame ≤ last, (place frame).length < c.tablesDepth →
    ∀ i < c.pageSize, m.ram frame i ≠ 0 → asUInt64 (m.ram frame i) ≤ last ∧
      place (asUInt64 (m.ram frame i)) = place frame ++ [i]
  not_swapped : ∀ frame ≤ last, (place frame).length = c.tablesDepth →
    m.swapFile (pathPage c (place frame)) = none

namespace Placed

variable {last : Nat} {place : Nat → List Nat} (h : Placed c m last place)
include h

theorem place_of_entry {frame i next : Nat} (hframe : frame ≤ last)
    (hlength : (place frame).length < c.tablesDepth) (hentry : entry c m frame i = some next) :
    next ≤ last ∧ place next = place frame ++ [i] := by
  unfold entry at hentry
  split at hentry
  · rename_i hword
    obtain rfl := Option.some.inj hentry
    exact h.place_entry frame hframe hlength i hword.1 hword.2
  · cases hentry

theorem place_of_walk {path : List Nat} {frame : Nat} (hlength : path.length ≤ c.tablesDepth)
    (hwalk : walk (entry c m) 0 path = some frame) : frame ≤ last ∧ place frame = path :=
  OsExercises.place_of_walk (· ≤ last) (Nat.zero_le last) h.root_place
    (fun hframe hshort hentry => h.place_of_entry hframe hshort hentry) hlength hwalk

theorem place_of_isTable {frame : Nat} (htable : IsTable c m frame) :
    frame ≤ last ∧ (place frame).length < c.tablesDepth := by
  obtain ⟨path, hshort, hwalk⟩ := htable
  obtain ⟨hframe, rfl⟩ := h.place_of_walk hshort.le hwalk
  exact ⟨hframe, hshort⟩

theorem treeShape (hc : c.Valid) : TreeShape c m := by
  constructor
  case entry_range =>
    intro frame htable i hi hne
    obtain ⟨hframe, hshort⟩ := h.place_of_isTable htable
    obtain ⟨hnext, -⟩ := h.place_entry frame hframe hshort i hi hne
    have hsmall : asUInt64 (m.ram frame i) < 2 ^ 31 :=
      (hnext.trans_lt h.last_lt).trans hc.numFrames_lt
    have hword := eq_asInt_of_asUInt64_eq hsmall rfl
    have hpos : asUInt64 (m.ram frame i) ≠ 0 := fun hzero =>
      hne (hword.trans ((asInt_eq_zero_iff hsmall).mpr hzero))
    have hlast := h.last_lt
    rw [hword, toInt_asInt hsmall]
    omega
  case root_unreferenced =>
    intro frame htable i hentry
    obtain ⟨hframe, hshort⟩ := h.place_of_isTable htable
    have hplace := (h.place_of_entry hframe hshort hentry).2
    rw [h.root_place] at hplace
    simp at hplace
  case one_reference =>
    rintro frame ⟨full, hlength, hwalk⟩ hne
    obtain ⟨-, hfull⟩ := h.place_of_walk hlength hwalk
    obtain rfl | ⟨path, i, rfl⟩ := full.eq_nil_or_concat'
    · exact absurd (Option.some.inj hwalk).symm hne
    rw [List.length_append, List.length_singleton] at hlength
    rw [walk_concat] at hwalk
    obtain ⟨parent, hparent, hentry⟩ := Option.bind_eq_some_iff.mp hwalk
    refine ⟨(parent, i), ⟨⟨path, hlength, hparent⟩, hentry⟩, ?_⟩
    rintro ⟨parent', i'⟩ ⟨htable, hentry'⟩
    obtain ⟨path', hshort', hparent'⟩ := htable
    obtain ⟨hframe', rfl⟩ := h.place_of_walk hshort'.le hparent'
    have hplace := (h.place_of_entry hframe' hshort' hentry').2
    rw [hfull] at hplace
    obtain ⟨hpath, hsingle⟩ := List.append_inj' hplace rfl
    rw [hpath, hparent'] at hparent
    exact Prod.ext (Option.some.inj hparent) (List.singleton_injective hsingle).symm
  case path_unique =>
    intro path path' frame hlength hlength' hwalk hwalk'
    rw [← (h.place_of_walk hlength hwalk).2, (h.place_of_walk hlength' hwalk').2]
  case initial_segment =>
    refine ⟨last, h.last_lt, fun frame => ⟨?_, fun hframe => ?_⟩⟩
    · rintro ⟨path, hlength, hwalk⟩
      exact (h.place_of_walk hlength hwalk).1
    · exact ⟨place frame, h.walk_place frame hframe⟩
  case not_swapped =>
    rintro page frame ⟨path, hfull, hwalk, rfl⟩
    obtain ⟨hframe, rfl⟩ := h.place_of_walk hfull.le hwalk
    exact h.not_swapped frame hframe hfull

theorem not_holdsPage {page : Nat} (hpage : ∀ frame ≤ last, (place frame).length = c.tablesDepth →
    pathPage c (place frame) ≠ page) (frame : Nat) : ¬ HoldsPage c m page frame := by
  rintro ⟨path, hfull, hwalk, heq⟩
  obtain ⟨hframe, rfl⟩ := h.place_of_walk hfull.le hwalk
  exact hpage frame hframe hfull heq

end Placed

/-! ### The choice in the words of the RAM -/

theorem store_zero_eq_clearEntry (m : Memory) (parent : Nat) {i : Nat} (hi : i < c.pageSize) :
    m.store c (parent * c.pageSize + i) 0 = m.clearEntry parent i := by
  have hram : (m.store c (parent * c.pageSize + i) 0).ram = (m.clearEntry parent i).ram := by
    funext frame j
    exact store_ram m parent hi 0 frame j
  calc m.store c (parent * c.pageSize + i) 0
    _ = { m with ram := (m.store c (parent * c.pageSize + i) 0).ram } := rfl
    _ = { m with ram := (m.clearEntry parent i).ram } := by rw [hram]
    _ = m.clearEntry parent i := rfl

/-- The frame of the page does not change when the entry in its table is cleared. -/
theorem evict_clearEntry (m : Memory) {parent frame : Nat} (i page : Nat) (hne : frame ≠ parent) :
    (m.clearEntry parent i).evict frame page = (m.evict frame page).clearEntry parent i := by
  have hsame : (m.clearEntry parent i).ram frame = m.ram frame := by
    funext j
    exact if_neg fun hboth => hne hboth.1
  change { (m.clearEntry parent i) with
    swapFile := Function.update m.swapFile page (some ((m.clearEntry parent i).ram frame))
    evictCounter := m.evictCounter + 1 } = _
  rw [hsame]
  rfl

namespace PageTable

variable {t : FrameTree c} (ht : PageTable c m t none)
include ht

theorem emptyTable_iff : EmptyTable c m illegal frame ↔ ∃ path, IsEmptyTable t illegal path frame := by
  constructor
  · rintro ⟨htable, hlegal, hzero⟩
    obtain ⟨path, hshort, hnode⟩ := (ht.isTable_iff frame).mp htable
    refine ⟨path, hnode, hshort, hlegal, fun i => ?_⟩
    rw [ht.represents.child_node i hnode hshort]
    exact if_neg fun hboth => hboth.2 (hzero i hboth.1)
  · rintro ⟨path, hnode, hshort, hlegal, hleaf⟩
    refine ⟨(ht.isTable_iff frame).mpr ⟨path, hshort, hnode⟩, hlegal, fun i hi => ?_⟩
    have hnone := hleaf i
    rw [ht.represents.child_node i hnode hshort] at hnone
    by_contra hne
    rw [entry, if_pos ⟨hi, hne⟩] at hnone
    cases hnone

theorem holdsPage_iff {page : Nat} :
    HoldsPage c m page frame ↔ ∃ path, IsPage t path frame ∧ pathPage c path = page := by
  constructor
  · rintro ⟨path, hfull, hwalk, hpage⟩
    rw [ht.represents.walk_eq path hfull.le] at hwalk
    exact ⟨path, ⟨hwalk, hfull⟩, hpage⟩
  · rintro ⟨path, ⟨hnode, hfull⟩, hpage⟩
    exact ⟨path, hfull, by rw [ht.represents.walk_eq path hfull.le, hnode], hpage⟩

theorem onlyReference {path : List Nat} {i parent : Nat} (hparent : t.node path = some parent)
    (hchild : t.node (path ++ [i]) = some frame) : OnlyReference c m parent i frame := by
  have hshort := ht.child_length hchild
  constructor
  · refine ⟨(ht.isTable_iff parent).mpr ⟨path, hshort, hparent⟩, ?_⟩
    rw [← ht.represents.child_node i hparent hshort, hchild]
  · intro parent' i' htable hentry
    obtain ⟨path', hshort', hparent'⟩ := (ht.isTable_iff parent').mp htable
    rw [← ht.represents.child_node i' hparent' hshort'] at hentry
    obtain ⟨rfl, hsingle⟩ := List.append_inj' (t.node_injective hentry hchild) rfl
    rw [hparent] at hparent'
    exact ⟨(Option.some.inj hparent').symm, List.singleton_injective hsingle⟩

/-- What the search chooses is what the policy asks for. -/
theorem framePolicy (hchoice : FrameChoice c m t illegal pageIn m' frame) :
    FramePolicy c m illegal pageIn frame m' := by
  have hnoTable : (∀ path frame, ¬ IsEmptyTable t illegal path frame) →
      ¬ ∃ table, EmptyTable c m illegal table := by
    rintro hnone ⟨table, htable⟩
    obtain ⟨path, hpath⟩ := ht.emptyTable_iff.mp htable
    exact hnone path table hpath
  cases hchoice with
  | @empty path i parent _ hparent htable =>
      have hempty := ht.emptyTable_iff.mpr ⟨_, htable⟩
      have hi := (ht.indexPath htable.1).1 i (by simp)
      constructor
      case empty =>
        intro _
        exact ⟨hempty, parent, i, ht.onlyReference hparent htable.1,
          store_zero_eq_clearEntry m parent hi⟩
      case unused => exact fun hnone => absurd hempty (hnone _)
      case evicted => exact fun hnone => absurd hempty (hnone _)
  | @unused last hnone hused hunused =>
      have hlargest : ∀ largest, IsGreatest {n | Reachable c m n} largest → largest = last := by
        intro largest hgreatest
        have hreach := (ht.reachable_iff largest).mp hgreatest.1
        have hlast := (ht.reachable_iff last).mpr ((hused last).mpr le_rfl)
        exact le_antisymm ((hused largest).mp hreach) (hgreatest.2 hlast)
      constructor
      case empty => exact fun hempty => absurd hempty (hnoTable hnone)
      case unused =>
        intro _ largest hgreatest _
        rw [hlargest largest hgreatest]
        refine ⟨rfl, ?_, rfl⟩
        intro table i htable hentry
        obtain ⟨path, hshort, hnode⟩ := (ht.isTable_iff table).mp htable
        rw [← ht.represents.child_node i hnode hshort] at hentry
        exact Nat.not_succ_le_self last ((hused (last + 1)).mp ⟨_, hentry⟩)
      case evicted =>
        intro _ largest hgreatest hfull
        rw [hlargest largest hgreatest] at hfull
        exact absurd hunused hfull
  | @evicted path i parent _ hnone hused hparent hpage hbest =>
      have hi := (ht.indexPath hpage.1).1 i (by simp)
      constructor
      case empty => exact fun hempty => absurd hempty (hnoTable hnone)
      case unused =>
        intro _ largest hgreatest hroom
        have hlast := (ht.reachable_iff (largest + 1)).mpr (hused _ hroom)
        exact absurd (hgreatest.2 hlast) (Nat.not_succ_le_self largest)
      case evicted =>
        intro _ _ _ _
        refine ⟨pathPage c (path ++ [i]), parent, i, ⟨?_, ?_⟩, ht.onlyReference hparent hpage.1, ?_⟩
        · exact ht.holdsPage_iff.mpr ⟨_, hpage, rfl⟩
        · intro page' frame' hholds
          obtain ⟨path', hpage', rfl⟩ := ht.holdsPage_iff.mp hholds
          exact hbest path' frame' hpage'
        · rw [store_zero_eq_clearEntry m parent hi]
          exact evict_clearEntry m i _ (hpage.ne_table hparent (ht.child_length hpage.1))

end PageTable

/-! ### Two memories -/

/-- The table of frame 1 has lost its last entry. -/
def emptied : Memory where
  ram frame i := if frame = 0 ∧ i = 0 then 1 else 0
  swapFile _ := none
  evictCounter := 0

theorem placed_emptied : Placed .given emptied 1 fun frame => if frame = 1 then [0] else [] := by
  constructor <;> decide +kernel

/-- The first 57 pages are in the RAM, with seven tables above them. -/
def full : Memory where
  ram frame i :=
    if frame < 2 ∧ i = 0 then asInt (frame + 1)
    else if frame = 2 ∧ i < 4 then asInt (i + 3)
    else if 2 < frame ∧ frame < 7 ∧ 16 * (frame - 3) + i < 57 then asInt (16 * (frame - 3) + i + 7)
    else 0
  swapFile _ := none
  evictCounter := 0

theorem placed_full : Placed .given full 63 fun frame =>
    if frame < 3 then List.replicate frame 0
    else if frame < 7 then [0, 0, frame - 3]
    else [0, 0, (frame - 7) / 16, (frame - 7) % 16] := by
  constructor <;> decide +kernel

/-! ### The sizes of the header -/

/-- With the sizes of `MemoryConstants.h` `find_frame` follows the policy, in every memory whose
tables form a tree. -/
theorem findFrame_framePolicy {s : Machine} {illegal pageIn : Nat}
    (htree : TreeShape .given s.memory) (htable : IsTable .given s.memory illegal)
    (hpageIn : pageIn < MemoryConstants.given.numPages)
    (hunmapped : ∀ frame, ¬ HoldsPage .given s.memory pageIn frame) :
    ∃ frame s', findFrame .given illegal (asInt pageIn) s = some (frame, s') ∧
      FramePolicy .given s.memory illegal pageIn frame s'.memory := by
  have hc := MemoryConstants.valid_given
  have ht := htree.pageTable (by decide)
  have hillegal : ∃ path, htree.tree.node path = some illegal ∧
      path.length < MemoryConstants.given.tablesDepth := by
    obtain ⟨path, hshort, hnode⟩ := (ht.isTable_iff illegal).mp htable
    exact ⟨path, hnode, hshort⟩
  have hpages : ∀ path frame, IsPage htree.tree path frame → pathPage .given path ≠ pageIn :=
    fun path frame hpage heq => hunmapped frame (ht.holdsPage_iff.mpr ⟨path, hpage, heq⟩)
  have hfind : Ensures (Machine.Legal .given) (findFrame .given illegal (asInt pageIn))
      s.memory.machine fun frame s' =>
        FrameChoice .given s.memory htree.tree illegal pageIn s'.memory frame :=
    ensures_findFrame hc ht hpageIn hillegal hpages rfl
      (frameLeft_of_depth given_tablesDepth_lt hillegal)
  obtain ⟨frame, s₁, hrun, -, hchoice⟩ := hfind (legal_machine s.memory)
  -- the calls made before `s` are not read
  have hbuilt : Built (RestoresOnly pageIn) (findFrame .given illegal (asInt pageIn)) :=
    built_findFrame illegal (asInt pageIn)
  have hview : s.memory.machine.memory = s.memory := rfl
  obtain ⟨s', hrun', hsame⟩ := hbuilt.readsThrough.transfer hview hrun
  refine ⟨frame, s', hrun', ?_⟩
  rw [hsame]
  exact ht.framePolicy hchoice

/-- The empty table is used again, the first table below the root gets a new frame, and in the full RAM
page 0 makes room, as it is farthest from page 256. -/
theorem findFrame_framePolicy_cases :
    (∃ s, findFrame .given 0 (asInt 4096) emptied.machine = some (1, s) ∧
      EmptyTable .given emptied 0 1 ∧ FramePolicy .given emptied 0 4096 1 s.memory) ∧
    (∃ s s₁ frame, vmInitialize .given (Memory.machine ⟨fun _ _ => 1, fun _ => none, 0⟩) =
        some ((), s) ∧
      findFrame .given 0 (asInt 5) s = some (frame, s₁) ∧
        FramePolicy .given s.memory 0 5 frame s₁.memory) ∧
    ∃ s, findFrame .given 1 (asInt 256) full.machine = some (7, s) ∧ s.memory.evictCounter = 1 ∧
      FramePolicy .given full 1 256 7 s.memory := by
  have hc := MemoryConstants.valid_given
  refine ⟨?_, ?_, ?_⟩
  · have htree : TreeShape .given emptied.machine.memory := placed_emptied.treeShape hc
    have hunmapped : ∀ frame, ¬ HoldsPage .given emptied 4096 frame :=
      placed_emptied.not_holdsPage (by decide)
    obtain ⟨frame, s, hfind, hpolicy⟩ :=
      findFrame_framePolicy htree ⟨[], by decide, rfl⟩ (by decide) hunmapped
    have heval : (findFrame .given 0 (asInt 4096) emptied.machine).map Prod.fst = some 1 := by
      decide +kernel
    rw [hfind] at heval
    obtain rfl := Option.some.inj heval
    have hempty : EmptyTable .given emptied 0 1 :=
      ⟨⟨[0], by decide, by decide⟩, by decide, by decide⟩
    exact ⟨s, hfind, hempty, hpolicy⟩
  · obtain ⟨value, s, hrun, -, ht⟩ := ensures_vmInitialize hc
      (Memory.machine ⟨fun _ _ => 1, fun _ => none, 0⟩) (legal_machine _)
    have hroot : IsTable .given s.memory 0 :=
      (ht.isTable_iff 0).mpr ⟨[], by decide, ht.represents.root_node⟩
    have hunmapped : ∀ frame, ¬ HoldsPage .given s.memory 5 frame := by
      rintro frame hholds
      obtain ⟨path, ⟨hnode, hfull⟩, -⟩ := ht.holdsPage_iff.mp hholds
      cases path with
      | nil => cases hfull
      | cons i path => cases hnode
    obtain ⟨frame, s₁, hfind, hpolicy⟩ :=
      findFrame_framePolicy (ht.treeShape hc) hroot (by decide) hunmapped
    exact ⟨s, s₁, frame, hrun, hfind, hpolicy⟩
  · have htree : TreeShape .given full.machine.memory := placed_full.treeShape hc
    have htable : IsTable .given full 1 := ⟨[0], by decide, by decide⟩
    have hunmapped : ∀ frame, ¬ HoldsPage .given full 256 frame :=
      placed_full.not_holdsPage (by decide +kernel)
    obtain ⟨frame, s, hfind, hpolicy⟩ :=
      findFrame_framePolicy htree htable (by decide) hunmapped
    have heval : (findFrame .given 1 (asInt 256) full.machine).map
        (fun result => (result.1, result.2.memory.evictCounter)) = some (7, 1) := by
      decide +kernel
    rw [hfind] at heval
    obtain ⟨rfl, hcounter⟩ := Prod.mk.inj (Option.some.inj heval)
    exact ⟨s, hfind, hcounter, hpolicy⟩

end OsExercises.VirtualMemory
