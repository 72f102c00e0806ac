import OsExercises.VirtualMemory.Address
import OsExercises.Library.Ensures

/-!
# The page table in the RAM

The entries of the tables are a pointer structure on frames, and `PageTable` says that the tree it
spells out from frame 0 is in order: frame numbers are used up to some last one, each at one place,
and no page of the tree is in the swap file. In the middle of a fault one frame is out of the tree
and not yet back in it; it is the spare frame of the invariant.
-/

namespace OsExercises.VirtualMemory

variable {c : MemoryConstants}

/-- The frame an entry of a table names. -/
def entry (c : MemoryConstants) (m : Memory) (frame i : Nat) : Option Nat :=
  if i < c.pageSize ∧ m.ram frame i ≠ 0 then some (asUInt64 (m.ram frame i)) else none

/-- The page at this path is held by this frame. -/
def HoldsPage (c : MemoryConstants) (m : Memory) (page frame : Nat) : Prop :=
  ∃ path, path.length = c.tablesDepth ∧ walk (entry c m) 0 path = some frame ∧
    pathPage c path = page

abbrev FrameTree (c : MemoryConstants) := PathTree Nat Nat c.tablesDepth

structure PageTable (c : MemoryConstants) (m : Memory) (t : FrameTree c) (spare : Option Nat) :
    Prop where
  represents : t.Represents (entry c m) 0
  top_index : ∀ {i path frame}, t.node (i :: path) = some frame → i < 2 ^ topWidth c
  frames : ∃ last < c.numFrames, ∀ frame,
    (spare = some frame ∨ ∃ path, t.node path = some frame) ↔ frame ≤ last
  spare_fresh : ∀ {frame}, spare = some frame → ∀ path, t.node path ≠ some frame
  not_swapped : ∀ {path frame}, t.node path = some frame → path.length = c.tablesDepth →
    m.swapFile (pathPage c path) = none

/-! ### The calls of the physical memory -/

/-- What the assertions ask of a call, and what they leave unsaid of an eviction: the frame is not
the root table, and the call before cleared the entry through which it held the page. -/
def PmCall.Legal (c : MemoryConstants) (before : List (PmCall × Memory)) (m : Memory) :
    PmCall → Prop
  | .read physicalAddress => physicalAddress < c.ramSize
  | .write physicalAddress _ => physicalAddress < c.ramSize
  | .evict frameIndex evictedPageIndex =>
      frameIndex ≠ 0 ∧ frameIndex < c.numFrames ∧ evictedPageIndex < c.numPages ∧
        m.swapFile evictedPageIndex = none ∧
        ∃ physicalAddress linked rest, before = (.write physicalAddress 0, linked) :: rest ∧
          HoldsPage c linked evictedPageIndex frameIndex
  | .restore frameIndex _ => frameIndex < c.numFrames

def CallsLegal (c : MemoryConstants) (calls : List (PmCall × Memory)) : Prop :=
  ∀ call m before, (call, m) :: before <:+ calls → call.Legal c before m

def Machine.Legal (c : MemoryConstants) (s : Machine) : Prop := CallsLegal c s.calls

theorem callsLegal_cons {call : PmCall} {m : Memory} {calls : List (PmCall × Memory)}
    (hcall : call.Legal c calls m) (hcalls : CallsLegal c calls) :
    CallsLegal c ((call, m) :: calls) := by
  intro call' m' before hsuffix
  rcases List.suffix_cons_iff.mp hsuffix with heq | hlater
  · cases heq
    exact hcall
  · exact hcalls call' m' before hlater

theorem legal_machine (m : Memory) : Machine.Legal c m.machine := by
  intro call m' before hsuffix
  cases List.suffix_nil.mp hsuffix

theorem ensures_pmCall {α : Type} {call : PmCall} {assertion : Memory → Bool}
    {effect : Memory → α × Memory} {s : Machine} (hassert : assertion s.memory = true)
    (hlegal : call.Legal c s.calls s.memory) :
    Ensures (Machine.Legal c) (pmCall call assertion effect) s fun value s' =>
      (value, s'.memory) = effect s.memory ∧ s'.calls = (call, s.memory) :: s.calls := by
  intro hinv
  refine ⟨(effect s.memory).1, ⟨(effect s.memory).2, (call, s.memory) :: s.calls⟩, ?_, ?_, rfl, rfl⟩
  · rw [pmCall, if_pos hassert]
  · exact callsLegal_cons hlegal hinv

theorem ensures_pmRead {physicalAddress : Nat} (s : Machine)
    (haddress : physicalAddress < c.ramSize) :
    Ensures (Machine.Legal c) (pmRead c physicalAddress) s fun value s' =>
      value = s.memory.load c physicalAddress ∧ s'.memory = s.memory := by
  have hlegal : (PmCall.read physicalAddress).Legal c s.calls s.memory := haddress
  refine (ensures_pmCall (by simpa using haddress) hlegal).mono fun value s' hpost => ?_
  exact ⟨congrArg Prod.fst hpost.1, congrArg Prod.snd hpost.1⟩

theorem ensures_pmWrite {physicalAddress : Nat} {value : Word} (s : Machine)
    (haddress : physicalAddress < c.ramSize) :
    Ensures (Machine.Legal c) (pmWrite c physicalAddress value) s fun _ s' =>
      s'.memory = s.memory.store c physicalAddress value ∧
        s'.calls = (.write physicalAddress value, s.memory) :: s.calls := by
  have hlegal : (PmCall.write physicalAddress value).Legal c s.calls s.memory := haddress
  refine (ensures_pmCall (by simpa using haddress) hlegal).mono fun _ s' hpost => ?_
  exact ⟨congrArg Prod.snd hpost.1, hpost.2⟩

theorem ensures_pmRestore {frame page : Nat} (s : Machine) (hframe : frame < c.numFrames) :
    Ensures (Machine.Legal c) (pmRestore c frame page) s fun _ s' =>
      s'.memory = s.memory.restore frame page := by
  have hlegal : (PmCall.restore frame page).Legal c s.calls s.memory := hframe
  refine (ensures_pmCall (by simpa using hframe) hlegal).mono fun _ s' hpost => ?_
  exact congrArg Prod.snd hpost.1

theorem ensures_pmEvict {frame page : Nat} (s : Machine)
    (hlegal : (PmCall.evict frame page).Legal c s.calls s.memory) :
    Ensures (Machine.Legal c) (pmEvict c frame page) s fun _ s' =>
      s'.memory = s.memory.evict frame page := by
  obtain ⟨-, hframe, hpage, hswap, -⟩ := id hlegal
  refine (ensures_pmCall (by simp [hframe, hpage, hswap]) hlegal).mono fun _ s' hpost => ?_
  exact congrArg Prod.snd hpost.1

/-! ### The words of the RAM by frame and offset -/

theorem entry_div {frame i : Nat} (hi : i < c.pageSize) :
    (frame * c.pageSize + i) / c.pageSize = frame := by
  rw [Nat.mul_comm, Nat.mul_add_div MemoryConstants.pageSize_pos, Nat.div_eq_of_lt hi, Nat.add_zero]

theorem entry_mod {frame i : Nat} (hi : i < c.pageSize) :
    (frame * c.pageSize + i) % c.pageSize = i := by
  rw [Nat.mul_comm, Nat.mul_add_mod, Nat.mod_eq_of_lt hi]

@[simp]
theorem load_entry (m : Memory) (frame : Nat) {i : Nat} (hi : i < c.pageSize) :
    m.load c (frame * c.pageSize + i) = m.ram frame i := by
  rw [Memory.load, entry_div hi, entry_mod hi]

theorem store_ram (m : Memory) (frame : Nat) {i : Nat} (hi : i < c.pageSize) (value : Word)
    (frame' i' : Nat) :
    (m.store c (frame * c.pageSize + i) value).ram frame' i' =
      if frame' = frame ∧ i' = i then value else m.ram frame' i' := by
  simp only [Memory.store, entry_div hi, entry_mod hi]

@[simp]
theorem store_swapFile (m : Memory) (physicalAddress : Nat) (value : Word) :
    (m.store c physicalAddress value).swapFile = m.swapFile := rfl

@[simp]
theorem evict_swapFile (m : Memory) (frame page page' : Nat) :
    (m.evict frame page).swapFile page' =
      if page' = page then some (m.ram frame) else m.swapFile page' :=
  Function.update_apply m.swapFile page _ page'

@[simp]
theorem restore_swapFile (m : Memory) (frame page page' : Nat) :
    (m.restore frame page).swapFile page' = if page' = page then none else m.swapFile page' := by
  unfold Memory.restore
  split
  · rename_i hnone
    split
    · rename_i heq
      rw [heq, hnone]
    · rfl
  · exact Function.update_apply m.swapFile page none page'

theorem restore_evictCounter (m : Memory) (frame page : Nat) :
    (m.restore frame page).evictCounter = m.evictCounter := by
  unfold Memory.restore
  split <;> rfl

theorem restore_ram_of_ne (m : Memory) {frame frame' : Nat} (page : Nat) (hne : frame' ≠ frame) :
    (m.restore frame page).ram frame' = m.ram frame' := by
  unfold Memory.restore
  split
  · rfl
  · exact Function.update_of_ne hne _ _

theorem restore_ram_of_swapped {m : Memory} {frame page : Nat} {words : Page}
    (hswap : m.swapFile page = some words) : (m.restore frame page).ram frame = words := by
  simp [Memory.restore, hswap]

theorem entry_congr {m m' : Memory} {frame : Nat} (hram : m'.ram frame = m.ram frame) (i : Nat) :
    entry c m' frame i = entry c m frame i := by
  simp only [entry, hram]

theorem entry_lt {m : Memory} {frame i next : Nat} (hentry : entry c m frame i = some next) :
    i < c.pageSize := by
  unfold entry at hentry
  split at hentry
  · rename_i hcond
    exact hcond.1
  · cases hentry

/-! ### Frames and paths of a page table -/

namespace PageTable

variable {m : Memory} {t : FrameTree c} {spare : Option Nat}

theorem frame_lt (ht : PageTable c m t spare) {path : List Nat} {frame : Nat}
    (hnode : t.node path = some frame) : frame < c.numFrames := by
  obtain ⟨last, hlast, hframes⟩ := ht.frames
  exact ((hframes frame).mp (Or.inr ⟨path, hnode⟩)).trans_lt hlast

theorem frame_ne_zero (ht : PageTable c m t spare) {path : List Nat} {frame : Nat}
    (hnode : t.node path = some frame) (hpath : path ≠ []) : frame ≠ 0 := by
  rintro rfl
  exact hpath (t.node_injective hnode ht.represents.root_node)

theorem indexPath (ht : PageTable c m t spare) {path : List Nat} {frame : Nat}
    (hnode : t.node path = some frame) : IndexPath c path := by
  constructor
  · induction path using List.reverseRecOn generalizing frame with
    | nil => simp
    | append_singleton path i ih =>
        obtain ⟨parent, hparent⟩ := t.parent_of_node hnode
        have hlength := t.length_le hnode
        rw [List.length_append, List.length_singleton] at hlength
        have hentry := hnode
        rw [ht.represents.child_node i hparent (by omega)] at hentry
        intro j hj
        rcases List.mem_append.mp hj with hinit | hlast
        · exact ih hparent j hinit
        · rw [List.mem_singleton.mp hlast]
          exact entry_lt hentry
  · intro i hi
    cases path with
    | nil => cases hi
    | cons j path =>
        cases hi
        exact ht.top_index hnode

section Valid

variable (hc : c.Valid)
include hc

theorem pathPage_eq (ht : PageTable c m t spare) {path : List Nat} {frame : Nat}
    (hnode : t.node path = some frame) : pathPage c path = digits c path := by
  have hwidth := hc.virtualAddressWidth_le
  exact pathPage_eq_digits hc.offsetWidth_pos hc.offsetWidth_lt_virtual (by omega)
    (ht.indexPath hnode) (t.length_le hnode)

theorem pathPage_lt (ht : PageTable c m t spare) {path : List Nat} {frame : Nat}
    (hnode : t.node path = some frame) : pathPage c path < c.numPages := by
  rw [ht.pathPage_eq hc hnode, hc.numPages_eq]
  exact digits_lt_of_indexPath hc.offsetWidth_pos hc.offsetWidth_lt_virtual (ht.indexPath hnode)
    (t.length_le hnode)

/-- Two pages of the tree have different numbers. -/
theorem path_eq_of_pathPage_eq (ht : PageTable c m t spare) {path path' : List Nat}
    {frame frame' : Nat} (hnode : t.node path = some frame) (hnode' : t.node path' = some frame')
    (hlength : path.length = path'.length) (hpage : pathPage c path = pathPage c path') :
    path = path' := by
  rw [ht.pathPage_eq hc hnode, ht.pathPage_eq hc hnode'] at hpage
  exact digits_injective hlength (ht.indexPath hnode).1 (ht.indexPath hnode').1 hpage

/-- What a table's entry holds, as the tree has it. -/
theorem row_eq (ht : PageTable c m t spare) {path : List Nat} {frame i : Nat}
    (hnode : t.node path = some frame) (hlength : path.length < c.tablesDepth)
    (hi : i < c.pageSize) :
    (m.ram frame i = 0 ∧ t.node (path ++ [i]) = none) ∨
      ∃ next, m.ram frame i = asInt next ∧ next ≠ 0 ∧ t.node (path ++ [i]) = some next := by
  have hchild := ht.represents.child_node i hnode hlength
  by_cases hzero : m.ram frame i = 0
  · exact Or.inl ⟨hzero, by rw [hchild, entry, if_neg (by simp [hzero])]⟩
  · have hsome : t.node (path ++ [i]) = some (asUInt64 (m.ram frame i)) := by
      rw [hchild, entry, if_pos ⟨hi, hzero⟩]
    have hlt := (ht.frame_lt hsome).trans hc.numFrames_lt
    exact Or.inr ⟨_, eq_asInt_of_asUInt64_eq hlt rfl, ht.frame_ne_zero hsome (by simp), hsome⟩

end Valid

end PageTable

end OsExercises.VirtualMemory
