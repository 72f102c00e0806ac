import OsExercises.VirtualMemory.FindFrame

/-!
# A fault

A missing table or page is brought in by two changes of the page table. `find_frame` leaves a frame
spare, unlinked from where it was; the frame is then filled and linked where it is needed. Each
change keeps the page table in order and keeps the words of every page, be it in the RAM or in the
swap file.
-/

namespace OsExercises.VirtualMemory

variable {c : MemoryConstants} {m : Memory} {t : FrameTree c}

/-- The word of a page, wherever the page is. -/
def Holds (c : MemoryConstants) (m : Memory) (t : FrameTree c) (page offset : Nat) (word : Word) :
    Prop :=
  (∃ path frame, IsPage t path frame ∧ pathPage c path = page ∧ m.ram frame offset = word) ∨
    ∃ words, m.swapFile page = some words ∧ words offset = word

/-! ### Unlinking -/

theorem IsPage.ne_table {path path' : List Nat} {frame parent : Nat} (hpage : IsPage t path' frame)
    (hparent : t.node path = some parent) (hshort : path.length < c.tablesDepth) :
    frame ≠ parent := by
  rintro rfl
  have := congrArg List.length (t.node_injective hpage.1 hparent)
  have := hpage.2
  omega

theorem store_ram_of_ne {frame frame' i : Nat} (hi : i < c.pageSize) (value : Word)
    (hne : frame' ≠ frame) :
    (m.store c (frame * c.pageSize + i) value).ram frame' = m.ram frame' := by
  funext offset
  rw [store_ram m frame hi, if_neg fun h => hne h.1]

theorem entry_store {frame frame' i j : Nat} (hi : i < c.pageSize) (value : Word)
    (hne : frame' ≠ frame ∨ j ≠ i) :
    entry c (m.store c (frame * c.pageSize + i) value) frame' j = entry c m frame' j := by
  have hsame : (m.store c (frame * c.pageSize + i) value).ram frame' j = m.ram frame' j := by
    rw [store_ram m frame hi, if_neg fun h => hne.elim (fun h' => h' h.1) fun h' => h' h.2]
  simp only [entry, hsame]

theorem entry_store_self {frame i : Nat} (hi : i < c.pageSize) (value : Word) :
    entry c (m.store c (frame * c.pageSize + i) value) frame i =
      if value ≠ 0 then some (asUInt64 value) else none := by
  simp [entry, store_ram m frame hi, hi]

namespace PageTable

theorem child_length {spare : Option Nat} (_ : PageTable c m t spare) {path : List Nat}
    {i frame : Nat} (hchild : t.node (path ++ [i]) = some frame) : path.length < c.tablesDepth := by
  have := t.length_le hchild
  rw [List.length_append, List.length_singleton] at this
  omega

theorem spare_lt {frame : Nat} (ht : PageTable c m t (some frame)) : frame < c.numFrames := by
  obtain ⟨last, hlast, hframes⟩ := ht.frames
  exact ((hframes frame).mp (Or.inl rfl)).trans_lt hlast

theorem spare_ne_zero {frame : Nat} (ht : PageTable c m t (some frame)) : frame ≠ 0 := by
  rintro rfl
  exact ht.spare_fresh rfl [] ht.represents.root_node

/-- Clearing the entry of a frame without children makes the frame spare. -/
theorem unlink (ht : PageTable c m t none) {path : List Nat} {i parent frame : Nat}
    (hparent : t.node path = some parent) (hchild : t.node (path ++ [i]) = some frame)
    (hleaf : ∀ j, t.node (path ++ [i] ++ [j]) = none) :
    PageTable c (m.store c (parent * c.pageSize + i) 0) (t.detach (path ++ [i]) hleaf)
      (some frame) := by
  have hi := (ht.indexPath hchild).1 i (by simp)
  have hold : ∀ {path' frame'}, (t.detach (path ++ [i]) hleaf).node path' = some frame' →
      path' ≠ path ++ [i] ∧ t.node path' = some frame' := t.node_of_detach hleaf
  refine ⟨?_, fun hnode => ht.top_index (hold hnode).2, ?_, ?_, ?_⟩
  · refine ht.represents.detach hparent hleaf ?_ fun frame' j hne => entry_store hi 0 hne
    rw [entry_store_self hi, if_neg (by simp)]
  · obtain ⟨last, hlast, hframes⟩ := ht.frames
    refine ⟨last, hlast, fun frame' => ?_⟩
    rw [← hframes frame']
    simp only [reduceCtorEq, false_or, Option.some.injEq]
    constructor
    · rintro (rfl | ⟨path', hnode⟩)
      · exact ⟨_, hchild⟩
      · exact ⟨path', (hold hnode).2⟩
    · rintro ⟨path', hnode⟩
      by_cases hpath : path' = path ++ [i]
      · rw [hpath, hchild] at hnode
        exact Or.inl (Option.some.inj hnode)
      · exact Or.inr ⟨path', by rw [t.detach_node, if_neg hpath, hnode]⟩
  · rintro frame' hspare path' hnode
    cases hspare
    exact (hold hnode).1 (t.node_injective (hold hnode).2 hchild)
  · intro path' frame' hnode hlength
    exact ht.not_swapped (hold hnode).2 hlength

/-- Storing a page that is no longer in the tree in the swap file. -/
theorem evict {frame page : Nat} (ht : PageTable c m t (some frame))
    (hpage : ∀ path frame', IsPage t path frame' → pathPage c path ≠ page) :
    PageTable c (m.evict frame page) t (some frame) := by
  refine ⟨ht.represents.congr fun _ _ _ _ _ => rfl, ht.top_index, ht.frames, ht.spare_fresh, ?_⟩
  intro path frame' hnode hlength
  rw [evict_swapFile, if_neg (hpage path frame' ⟨hnode, hlength⟩)]
  exact ht.not_swapped hnode hlength

end PageTable

/-- A page that is not at the path detached stays where it is. -/
theorem Holds.unlink (ht : PageTable c m t none) {path : List Nat} {i parent frame page offset : Nat}
    {word : Word} (hparent : t.node path = some parent) (hchild : t.node (path ++ [i]) = some frame)
    (hleaf : ∀ j, t.node (path ++ [i] ++ [j]) = none) (hword : Holds c m t page offset word)
    (hother : IsPage t (path ++ [i]) frame → page ≠ pathPage c (path ++ [i])) :
    Holds c (m.store c (parent * c.pageSize + i) 0) (t.detach (path ++ [i]) hleaf) page offset
      word := by
  have hi := (ht.indexPath hchild).1 i (by simp)
  rcases hword with ⟨path', frame', hpage, rfl, hram⟩ | hswap
  · refine Or.inl ⟨path', frame', ⟨?_, hpage.2⟩, rfl, ?_⟩
    · rw [t.detach_node, if_neg, hpage.1]
      rintro rfl
      exact hother ⟨hchild, hpage.2⟩ rfl
    · rw [store_ram_of_ne hi 0 (hpage.ne_table hparent (ht.child_length hchild)), hram]
  · exact Or.inr hswap

/-- No word is lost when a page goes to the swap file. -/
theorem Holds.evict (hc : c.Valid) (ht : PageTable c m t none) {path : List Nat}
    {i parent frame page offset : Nat} {word : Word} (hparent : t.node path = some parent)
    (hpage : IsPage t (path ++ [i]) frame) (hleaf : ∀ j, t.node (path ++ [i] ++ [j]) = none)
    (hword : Holds c m t page offset word) :
    Holds c ((m.store c (parent * c.pageSize + i) 0).evict frame (pathPage c (path ++ [i])))
      (t.detach (path ++ [i]) hleaf) page offset word := by
  have hi := (ht.indexPath hpage.1).1 i (by simp)
  by_cases heq : page = pathPage c (path ++ [i])
  · -- the page itself goes to the swap file, with the words of its frame
    refine Or.inr ⟨_, by rw [evict_swapFile, if_pos heq], ?_⟩
    rw [store_ram_of_ne hi 0 (hpage.ne_table hparent (ht.child_length hpage.1))]
    rcases hword with ⟨path', frame', hpage', hnumber, hram⟩ | ⟨words, hswap, -⟩
    · have hpath := ht.path_eq_of_pathPage_eq hc hpage'.1 hpage.1
        (hpage'.2.trans hpage.2.symm) (hnumber.trans heq)
      have hframe := hpage'.1
      rw [hpath, hpage.1] at hframe
      rw [Option.some.inj hframe, hram]
    · rw [heq, ht.not_swapped hpage.1 hpage.2] at hswap
      cases hswap
  · rcases hword.unlink ht hparent hpage.1 hleaf (fun _ => heq) with hram | ⟨words, hswap, hword⟩
    · exact Or.inl hram
    · exact Or.inr ⟨words, by rw [evict_swapFile, if_neg heq, hswap], hword⟩

/-- What `find_frame` leaves: the frame it returns is spare, the path to the protected table is
still there and no word of a page is lost. -/
theorem FrameChoice.spare (hc : c.Valid) (ht : PageTable c m t none) {m' : Memory}
    {illegal pageIn frame : Nat} {stop : List Nat} (hstop : t.node stop = some illegal)
    (hshort : stop.length < c.tablesDepth) (hchoice : FrameChoice c m t illegal pageIn m' frame) :
    ∃ t' : FrameTree c, PageTable c m' t' (some frame) ∧
      (∀ path, path <+: stop → t'.node path = t.node path) ∧
      (∀ path n, t'.node path = some n → t.node path = some n) ∧
      ∀ page offset word, Holds c m t page offset word → Holds c m' t' page offset word := by
  cases hchoice with
  | @empty path i parent _ hparent htable =>
      obtain ⟨hchild, hdepth, hne, hleaf⟩ := htable
      have hoff : path ++ [i] ≠ stop := by
        rintro rfl
        rw [hchild] at hstop
        exact hne (Option.some.inj hstop)
      refine ⟨_, ht.unlink hparent hchild hleaf, ?_, ?_, ?_⟩
      · intro path' hpre
        rw [t.detach_node, if_neg (t.ne_of_childless hstop hleaf hoff hpre)]
      · exact fun path' n hnode => (t.node_of_detach hleaf hnode).2
      · intro page offset word hword
        refine hword.unlink ht hparent hchild hleaf fun hpage => ?_
        exact absurd hpage.2 hdepth.ne
  | @unused last hnone hframes hunused =>
      refine ⟨t, ⟨ht.represents, ht.top_index, ⟨last + 1, hunused, fun frame => ?_⟩, ?_,
        ht.not_swapped⟩, fun _ _ => rfl, fun _ _ => id, fun _ _ _ => id⟩
      · rw [hframes frame, Option.some.injEq]
        omega
      · rintro frame hspare path hnode
        cases hspare
        have := (hframes (last + 1)).mp ⟨path, hnode⟩
        omega
  | @evicted path i parent _ hnone hused hparent hpage hbest =>
      have hleaf := t.node_concat_eq_none hpage.2
      have hoff : path ++ [i] ≠ stop := by
        rintro rfl
        exact absurd hpage.2 hshort.ne
      refine ⟨_, (ht.unlink hparent hpage.1 hleaf).evict ?_, ?_, ?_, ?_⟩
      · intro path' frame' hpage' heq
        obtain ⟨hne, hnode⟩ := t.node_of_detach hleaf hpage'.1
        exact hne (ht.path_eq_of_pathPage_eq hc hnode hpage.1 (hpage'.2.trans hpage.2.symm) heq)
      · intro path' hpre
        rw [t.detach_node, if_neg (t.ne_of_childless hstop hleaf hoff hpre)]
      · exact fun path' n hnode => (t.node_of_detach hleaf hnode).2
      · exact fun page offset word hword => hword.evict hc ht hparent hpage hleaf

/-! ### Linking -/

/-- The frame is filled for the path: with zeros for a table, with the words of the page for a page,
which then leaves the swap file. -/
structure Filled (c : MemoryConstants) (m m' : Memory) (path : List Nat) (frame : Nat) : Prop where
  ram_of_ne : ∀ {frame'}, frame' ≠ frame → m'.ram frame' = m.ram frame'
  table : path.length < c.tablesDepth → ∀ i < c.pageSize, m'.ram frame i = 0
  page : path.length = c.tablesDepth → ∀ words, m.swapFile (pathPage c path) = some words →
    m'.ram frame = words
  swapFile : ∀ page, m'.swapFile page =
    if path.length = c.tablesDepth ∧ page = pathPage c path then none else m.swapFile page

section Link

variable {m' : Memory} {path : List Nat} {i parent frame : Nat}

theorem PageTable.childless_of_none (_ : PageTable c m t (some frame))
    (hnone : t.node path = none) (j : Nat) : t.node (path ++ [j]) = none := by
  by_contra hsome
  obtain ⟨n, hn⟩ := Option.ne_none_iff_exists'.mp hsome
  obtain ⟨parent, hparent⟩ := t.parent_of_node hn
  rw [hnone] at hparent
  cases hparent

variable (ht : PageTable c m t (some frame)) (hparent : t.node path = some parent)
  (hshort : path.length < c.tablesDepth) (hnone : t.node (path ++ [i]) = none)

/-- The tree with the spare frame at a path that was free. -/
def FrameTree.link : FrameTree c :=
  t.attach path i frame ⟨parent, hparent⟩ hshort (ht.childless_of_none hnone)
    fun path' hnode => ht.spare_fresh rfl path' hnode

theorem FrameTree.link_node (path' : List Nat) :
    (FrameTree.link ht hparent hshort hnone).node path' =
      if path' = path ++ [i] then some frame else t.node path' :=
  t.attach_node _ _ _ _ path'

variable (hfilled : Filled c m m' (path ++ [i]) frame)
include hfilled

/-- Setting the entry for a spare frame that is filled puts it into the tree. -/
theorem PageTable.link (hc : c.Valid) (hi : i < c.pageSize) (htop : path = [] → i < 2 ^ topWidth c) :
    PageTable c (m'.store c (parent * c.pageSize + i) (asInt frame))
      (FrameTree.link ht hparent hshort hnone) none := by
  have hfresh : ∀ path', t.node path' ≠ some frame := fun path' => ht.spare_fresh rfl path'
  have hlength : (path ++ [i]).length = path.length + 1 := by simp
  have hne : frame ≠ parent := fun heq => hfresh path (heq ▸ hparent)
  have hsmall := ht.spare_lt.trans hc.numFrames_lt
  refine ⟨?_, ?_, ?_, by rintro frame' ⟨⟩, ?_⟩
  · refine ht.represents.attach hparent hshort _ hfresh ?_ ?_ ?_
    · rw [entry_store_self hi, if_pos, asUInt64_asInt hsmall]
      exact fun hzero => ht.spare_ne_zero ((asInt_eq_zero_iff hsmall).mp hzero)
    · intro hdepth j
      rw [entry_store hi _ (Or.inl hne)]
      refine if_neg fun hcond => hcond.2 (hfilled.table ?_ j hcond.1)
      rwa [hlength]
    · intro frame' j hframe' hother
      rw [entry_store hi _ hother, entry_congr (hfilled.ram_of_ne hframe')]
  · intro j path' frame' hnode
    rw [FrameTree.link_node] at hnode
    split at hnode
    · rename_i heq
      cases path with
      | nil =>
          cases heq
          exact htop rfl
      | cons k path =>
          cases heq
          exact ht.top_index hparent
    · exact ht.top_index hnode
  · obtain ⟨last, hlast, hframes⟩ := ht.frames
    refine ⟨last, hlast, fun frame' => ?_⟩
    rw [← hframes frame']
    simp only [reduceCtorEq, false_or, Option.some.injEq, FrameTree.link_node]
    constructor
    · rintro ⟨path', hnode⟩
      split at hnode
      · exact Or.inl (Option.some.inj hnode)
      · exact Or.inr ⟨path', hnode⟩
    · rintro (rfl | ⟨path', hnode⟩)
      · exact ⟨path ++ [i], if_pos rfl⟩
      · refine ⟨path', ?_⟩
        rw [if_neg, hnode]
        rintro rfl
        rw [hnone] at hnode
        cases hnode
  · intro path' frame' hnode hfull
    rw [FrameTree.link_node] at hnode
    rw [store_swapFile, hfilled.swapFile]
    split at hnode
    · rename_i heq
      subst heq
      exact if_pos ⟨hfull, rfl⟩
    · split
      · rfl
      · exact ht.not_swapped hnode hfull

/-- No word is lost: a page that leaves the swap file is in the frame. -/
theorem Holds.link (hi : i < c.pageSize) {page offset : Nat} {word : Word}
    (hword : Holds c m t page offset word) :
    Holds c (m'.store c (parent * c.pageSize + i) (asInt frame))
      (FrameTree.link ht hparent hshort hnone) page offset word := by
  have hfresh : ∀ path', t.node path' ≠ some frame := fun path' => ht.spare_fresh rfl path'
  rcases hword with ⟨path', frame', hpage, rfl, hram⟩ | ⟨words, hswap, hword⟩
  · have hpath : path' ≠ path ++ [i] := by
      rintro rfl
      rw [hpage.1] at hnone
      cases hnone
    refine Or.inl ⟨path', frame', ⟨?_, hpage.2⟩, rfl, ?_⟩
    · rw [FrameTree.link_node, if_neg hpath, hpage.1]
    · have hframe' : frame' ≠ frame := fun heq => hfresh path' (heq ▸ hpage.1)
      rw [store_ram_of_ne hi _ (hpage.ne_table hparent hshort), hfilled.ram_of_ne hframe', hram]
  · by_cases hrestored : (path ++ [i]).length = c.tablesDepth ∧ page = pathPage c (path ++ [i])
    · obtain ⟨hfull, rfl⟩ := hrestored
      refine Or.inl ⟨path ++ [i], frame, ⟨?_, hfull⟩, rfl, ?_⟩
      · rw [FrameTree.link_node, if_pos rfl]
      · have hne : frame ≠ parent := fun heq => hfresh path (heq ▸ hparent)
        rw [store_ram_of_ne hi _ hne, hfilled.page hfull words hswap, hword]
    · refine Or.inr ⟨words, ?_, hword⟩
      rw [store_swapFile, hfilled.swapFile, if_neg hrestored, hswap]

end Link

end OsExercises.VirtualMemory
