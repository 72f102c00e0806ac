import OsExercises.VirtualMemory.PageTable

/-!
# The search of the page table

`search_frame` looks for three things at once: an empty table, the largest frame and the page
farthest from the one to come in. Until an empty table is found, what it holds describes the paths
visited so far (`Scanned`); the frames it takes into account for the maximum run ahead of them by the
table being read, so they have a predicate of their own. Once an empty table is found, nothing but
the maximum changes any more (`FoundEmpty`).
-/

namespace OsExercises.VirtualMemory

variable {c : MemoryConstants}

/-- The cyclic distance of two page numbers. -/
def pageDistance (c : MemoryConstants) (p1 p2 : Nat) : Nat :=
  min ((p1 - p2) + (p2 - p1)) (c.numPages - ((p1 - p2) + (p2 - p1)))

theorem cyclicalDistance_eq (hc : c.Valid) {p1 p2 : Nat} (h1 : p1 < c.numPages)
    (h2 : p2 < c.numPages) : cyclicalDistance c p1 p2 = asInt (pageDistance c p1 p2) := by
  have hpages := hc.numPages_lt
  have hsub : (if p2 < p1 then p1 - p2 else p2 - p1) = (p1 - p2) + (p2 - p1) := by
    split <;> omega
  have haround : (c.numPages + 2 ^ 64 - ((p1 - p2) + (p2 - p1))) % 2 ^ 64 =
      c.numPages - ((p1 - p2) + (p2 - p1)) := by
    omega
  unfold cyclicalDistance pageDistance
  simp only [hsub, haround]
  split
  · rw [min_eq_right (by omega)]
  · rw [min_eq_left (by omega)]

theorem pageDistance_pos {p1 p2 : Nat} (h1 : p1 < c.numPages) (h2 : p2 < c.numPages)
    (hne : p1 ≠ p2) : 0 < pageDistance c p1 p2 := by
  unfold pageDistance
  omega

theorem pageDistance_le {p1 p2 : Nat} : pageDistance c p1 p2 ≤ c.numPages :=
  (min_le_right _ _).trans (Nat.sub_le _ _)

/-! ### What the search holds -/

section Notions

variable (t : FrameTree c) (illegal pageIn : Nat)

/-- A table without entries that may be taken. -/
def IsEmptyTable (path : List Nat) (frame : Nat) : Prop :=
  t.node path = some frame ∧ path.length < c.tablesDepth ∧ frame ≠ illegal ∧
    ∀ i, t.node (path ++ [i]) = none

def IsPage (path : List Nat) (frame : Nat) : Prop :=
  t.node path = some frame ∧ path.length = c.tablesDepth

/-- The address of the entry that leads to a path; the search takes 0 for the root. -/
def EntryAt (path : List Nat) (address : Nat) : Prop :=
  (path = [] ∧ address = 0) ∨ ∃ parent i frame, path = parent ++ [i] ∧
    t.node parent = some frame ∧ address = frame * c.pageSize + i

/-- The search has stopped at an empty table. -/
def FoundEmpty (st : SearchState) : Prop :=
  ∃ path frame, IsEmptyTable t illegal path frame ∧ st.resultFrame = frame ∧
    EntryAt t path st.prevFrameAdd

/-- The page kept is farthest of those visited, and the first of the farthest. -/
def Farthest (visited : List Nat → Prop) (st : SearchState) : Prop :=
  (st.maxDist = 0 ∧ ∀ path frame, visited path → ¬ IsPage t path frame) ∨
    ∃ path frame, visited path ∧ IsPage t path frame ∧ st.resultFrame = frame ∧
      st.resultPath = pathPage c path ∧ EntryAt t path st.prevFrameAdd ∧
      st.maxDist = asInt (pageDistance c pageIn (pathPage c path)) ∧
      ∀ path' frame', visited path' → IsPage t path' frame' →
        pageDistance c pageIn (pathPage c path') < pageDistance c pageIn (pathPage c path) ∨
          pageDistance c pageIn (pathPage c path') = pageDistance c pageIn (pathPage c path) ∧
            pathPage c path ≤ pathPage c path'

/-- The largest frame is one of the tree and bounds those seen. -/
def MaxFrame (seen : List Nat → Prop) (st : SearchState) : Prop :=
  ∃ largest, st.maxFrame = asInt largest ∧ (∃ path, t.node path = some largest) ∧
    ∀ path frame, seen path → t.node path = some frame → frame ≤ largest

structure Scanned (seen visited : List Nat → Prop) (st : SearchState) : Prop where
  max_frame : MaxFrame t seen st
  no_empty : ∀ path frame, visited path → ¬ IsEmptyTable t illegal path frame
  farthest : Farthest t pageIn visited st

def SearchInv (seen visited : List Nat → Prop) (st : SearchState) : Prop :=
  (st.emptyFrame = true → FoundEmpty t illegal st) ∧
    (st.emptyFrame = false → Scanned t illegal pageIn seen visited st)

end Notions

variable {t : FrameTree c} {illegal pageIn : Nat}

/-- Only paths of the tree count as seen or visited. -/
theorem SearchInv.congr {seen seen' visited visited' : List Nat → Prop} {st : SearchState}
    (hst : SearchInv t illegal pageIn seen visited st)
    (hseen : ∀ path, t.node path ≠ none → (seen path ↔ seen' path))
    (hvisited : ∀ path, t.node path ≠ none → (visited path ↔ visited' path)) :
    SearchInv t illegal pageIn seen' visited' st := by
  refine ⟨hst.1, fun hempty => ?_⟩
  obtain ⟨⟨largest, hlargest, hreach, hbound⟩, hnone, hfar⟩ := hst.2 hempty
  refine ⟨⟨largest, hlargest, hreach, ?_⟩, ?_, ?_⟩
  · intro path frame hpath hnode
    exact hbound path frame ((hseen path (by simp [hnode])).mpr hpath) hnode
  · intro path frame hpath htable
    exact hnone path frame ((hvisited path (by simp [htable.1])).mpr hpath) htable
  · rcases hfar with ⟨hzero, hpages⟩ | ⟨path, frame, hpath, hpage, hframe, hnumber, hentry, hdist, hbest⟩
    · refine Or.inl ⟨hzero, fun path frame hpath hpage => ?_⟩
      exact hpages path frame ((hvisited path (by simp [hpage.1])).mpr hpath) hpage
    · refine Or.inr ⟨path, frame, (hvisited path (by simp [hpage.1])).mp hpath, hpage, hframe,
        hnumber, hentry, hdist, fun path' frame' hpath' hpage' => ?_⟩
      exact hbest path' frame' ((hvisited path' (by simp [hpage'.1])).mpr hpath') hpage'

/-! ### The equations of the search -/

theorem searchFrame_stop {levels frame prevAdd currPath : Nat} {st : SearchState}
    (hstop : st.emptyFrame = true) :
    searchFrame c illegal pageIn levels frame prevAdd currPath st = pure st := by
  rw [searchFrame.eq_def, if_pos (Or.inl hstop)]

theorem searchFrame_zero {frame prevAdd currPath : Nat} {st : SearchState}
    (hempty : st.emptyFrame = false) (hframe : frame < c.numFrames) :
    searchFrame c illegal pageIn 0 frame prevAdd currPath st =
      pure (updateDistance c pageIn currPath frame illegal prevAdd st) := by
  have hsame : { st with emptyFrame := false } = st := by rw [← hempty]
  rw [searchFrame.eq_def, if_neg (by simp [hempty, hframe])]
  simp only [hsame]

/-- One round of the loop over the entries of a table. -/
def searchRow (c : MemoryConstants) (illegalAdd pageIn levels frame currPath : Nat) :
    Bool × SearchState → Nat → Vm (Bool × SearchState) :=
  fun (isEmpty, st) i => do
    let rowVal ← pmRead c (frame * c.pageSize + i)
    if rowVal ≠ 0 then
      let st := if st.maxFrame < rowVal then { st with maxFrame := rowVal } else st
      let st ← searchFrame c illegalAdd pageIn levels (asUInt64 rowVal) (frame * c.pageSize + i)
        (extendPath c currPath i) st
      pure (false, st)
    else
      pure (isEmpty, st)

theorem searchFrame_succ {levels frame prevAdd currPath : Nat} {st : SearchState}
    (hempty : st.emptyFrame = false) (hframe : frame < c.numFrames) :
    searchFrame c illegal pageIn (levels + 1) frame prevAdd currPath st = (do
      let (isEmpty, st) ← (List.range c.pageSize).foldlM
        (searchRow c illegal pageIn levels frame currPath) (true, st)
      if isEmpty ∧ frame ≠ illegal then
        pure { st with emptyFrame := true, prevFrameAdd := prevAdd, resultFrame := frame }
      else
        pure st) := by
  rw [searchFrame.eq_def, if_neg (by simp [hempty, hframe])]
  rfl

/-! ### A page -/

section Search

variable {m : Memory} (hc : c.Valid) (ht : PageTable c m t none) (hpageIn : pageIn < c.numPages)
  (hillegal : ∃ path, t.node path = some illegal ∧ path.length < c.tablesDepth)
  (hunmapped : ∀ path frame, IsPage t path frame → pathPage c path ≠ pageIn)
include hc ht hpageIn hunmapped

theorem farthest_updateDistance {visited : List Nat → Prop} {st : SearchState} {path : List Nat}
    {frame prevAdd : Nat} (hfar : Farthest t pageIn visited st) (hpage : IsPage t path frame)
    (hlegal : frame ≠ illegal) (hentry : EntryAt t path prevAdd)
    (hlater : ∀ path' frame', visited path' → IsPage t path' frame' →
      pathPage c path' < pathPage c path) :
    Farthest t pageIn (fun path' => visited path' ∨ path' = path)
      (updateDistance c pageIn (pathPage c path) frame illegal prevAdd st) := by
  have hsmall : ∀ page, pageDistance c pageIn page < 2 ^ 31 := fun page =>
    pageDistance_le.trans_lt hc.numPages_lt
  have hlt := ht.pathPage_lt hc hpage.1
  have hpos := pageDistance_pos hpageIn hlt (hunmapped path frame hpage).symm
  have hdist := cyclicalDistance_eq hc hpageIn hlt
  unfold updateDistance
  rw [if_pos hlegal, hdist]
  rcases hfar with ⟨hzero, hpages⟩ |
    ⟨best, frame', hbest, hbestPage, hframe, hnumber, hprev, hmax, hfirst⟩
  · -- the first page visited is taken: its distance is positive
    have htake : st.maxDist < asInt (pageDistance c pageIn (pathPage c path)) := by
      rw [hzero, ← asInt_zero, asInt_lt_asInt_iff (by decide) (hsmall _)]
      exact hpos
    simp only [htake, if_true]
    refine Or.inr ⟨path, frame, Or.inr rfl, hpage, rfl, rfl, hentry, rfl, ?_⟩
    rintro path' frame'' (hpath' | rfl) hpage'
    · exact absurd hpage' (hpages path' frame'' hpath')
    · exact Or.inr ⟨rfl, le_rfl⟩
  · by_cases htake : pageDistance c pageIn (pathPage c best) < pageDistance c pageIn (pathPage c path)
    · have htake' := (asInt_lt_asInt_iff (hsmall _) (hsmall _)).mpr htake
      rw [← hmax] at htake'
      simp only [htake', if_true]
      refine Or.inr ⟨path, frame, Or.inr rfl, hpage, rfl, rfl, hentry, rfl, ?_⟩
      rintro path' frame'' (hpath' | rfl) hpage'
      · have := hfirst path' frame'' hpath' hpage'
        omega
      · exact Or.inr ⟨rfl, le_rfl⟩
    · have hkeep : ¬ st.maxDist < asInt (pageDistance c pageIn (pathPage c path)) := by
        rw [hmax, asInt_lt_asInt_iff (hsmall _) (hsmall _)]
        exact htake
      simp only [hkeep, if_false]
      refine Or.inr ⟨best, frame', Or.inl hbest, hbestPage, hframe, hnumber, hprev, hmax, ?_⟩
      rintro path' frame'' (hpath' | rfl) hpage'
      · exact hfirst path' frame'' hpath' hpage'
      · have := hlater best frame' hbest hbestPage
        omega

/-! ### A table -/

omit hc ht hpageIn hunmapped in
theorem updateDistance_emptyFrame (currPath frame prevAdd : Nat) (st : SearchState) :
    (updateDistance c pageIn currPath frame illegal prevAdd st).emptyFrame = st.emptyFrame := by
  simp only [updateDistance]
  split_ifs <;> rfl

omit hc ht hpageIn hunmapped in
theorem updateDistance_maxFrame (currPath frame prevAdd : Nat) (st : SearchState) :
    (updateDistance c pageIn currPath frame illegal prevAdd st).maxFrame = st.maxFrame := by
  simp only [updateDistance]
  split_ifs <;> rfl

/-- Paths through one of the first `k` entries of a table. -/
def Below (path : List Nat) (k : Nat) (path' : List Nat) : Prop :=
  ∃ i < k, path ++ [i] <+: path'

omit hc ht hpageIn hunmapped in
theorem below_succ {path path' : List Nat} {i : Nat} :
    Below path (i + 1) path' ↔ Below path i path' ∨ path ++ [i] <+: path' := by
  constructor
  · rintro ⟨j, hj, hpre⟩
    rcases Nat.lt_succ_iff_lt_or_eq.mp hj with hless | rfl
    · exact Or.inl ⟨j, hless, hpre⟩
    · exact Or.inr hpre
  · rintro (⟨j, hj, hpre⟩ | hpre)
    · exact ⟨j, by omega, hpre⟩
    · exact ⟨i, by omega, hpre⟩

omit hc ht hpageIn hunmapped in
/-- A table is not a page, so visiting it changes nothing about the pages. -/
theorem Farthest.of_table {visited : List Nat → Prop} {st : SearchState} {path : List Nat}
    (hfar : Farthest t pageIn visited st) (hshort : path.length < c.tablesDepth) :
    Farthest t pageIn (fun path' => visited path' ∨ path' = path) st := by
  have hvisited : ∀ path' frame', visited path' ∨ path' = path → IsPage t path' frame' →
      visited path' := by
    rintro path' frame' (hpath' | rfl) hpage
    · exact hpath'
    · exact absurd hpage.2 hshort.ne
  rcases hfar with ⟨hzero, hpages⟩ | ⟨best, frame, hbest, hpage, hframe, hnumber, hprev, hmax, hfirst⟩
  · exact Or.inl ⟨hzero, fun path' frame' hpath' hpage' =>
      hpages path' frame' (hvisited path' frame' hpath' hpage') hpage'⟩
  · exact Or.inr ⟨best, frame, Or.inl hbest, hpage, hframe, hnumber, hprev, hmax,
      fun path' frame' hpath' hpage' =>
        hfirst path' frame' (hvisited path' frame' hpath' hpage') hpage'⟩

omit hc hpageIn hunmapped in
theorem subtree_iff {path path' : List Nat} {frame : Nat} (hnode : t.node path' = some frame) :
    path <+: path' ↔ path' = path ∨ Below path c.pageSize path' := by
  constructor
  · rintro ⟨rest, rfl⟩
    cases rest with
    | nil => exact Or.inl (List.append_nil path)
    | cons i rest =>
        refine Or.inr ⟨i, (ht.indexPath hnode).1 i (by simp), ?_⟩
        exact ⟨rest, by simp⟩
  · rintro (rfl | ⟨i, -, hpre⟩)
    · exact List.prefix_refl _
    · exact (List.prefix_append path [i]).trans hpre

omit hpageIn hunmapped in
theorem ensures_searchRow {levels : Nat} {path : List Nat} {frame i : Nat} {isEmpty : Bool}
    {st : SearchState} {seen visited : List Nat → Prop} {s : Machine}
    (hnode : t.node path = some frame) (hlength : path.length < c.tablesDepth)
    (hi : i < c.pageSize) (hs : s.memory = m) (hst : SearchInv t illegal pageIn seen visited st)
    (hrec : ∀ next st s, t.node (path ++ [i]) = some next → s.memory = m →
      SearchInv t illegal pageIn (fun path' => seen path' ∨ path' = path ++ [i]) visited st →
      Ensures (Machine.Legal c) (searchFrame c illegal pageIn levels next (frame * c.pageSize + i)
        (pathPage c (path ++ [i])) st) s fun st' s' => s'.memory = m ∧
          SearchInv t illegal pageIn (fun path' => seen path' ∨ path ++ [i] <+: path')
            (fun path' => visited path' ∨ path ++ [i] <+: path') st') :
    Ensures (Machine.Legal c)
      (searchRow c illegal pageIn levels frame (pathPage c path) (isEmpty, st) i) s
      fun acc s' => s'.memory = m ∧
        SearchInv t illegal pageIn (fun path' => seen path' ∨ path ++ [i] <+: path')
          (fun path' => visited path' ∨ path ++ [i] <+: path') acc.2 ∧
        (acc.1 = true ↔ isEmpty = true ∧ t.node (path ++ [i]) = none) := by
  have haddress := hc.entry_lt_ramSize (ht.frame_lt hnode) hi
  refine (ensures_pmRead s haddress).bind fun rowVal s₁ hread => ?_
  obtain ⟨hrow, hs₁⟩ := hread
  rw [hs, load_entry m frame hi] at hrow
  rw [hs] at hs₁
  rcases ht.row_eq hc hnode hlength hi with ⟨hzero, hnone⟩ | ⟨next, hword, hnext, hsome⟩
  · rw [hrow, hzero, if_neg (by simp)]
    refine ensures_pure ⟨hs₁, hst.congr (fun path' hpath' => ?_) fun path' hpath' => ?_, by simp [hnone]⟩
    all_goals
      refine ⟨Or.inl, fun h => h.resolve_right ?_⟩
      rintro ⟨rest, rfl⟩
      obtain ⟨n, hn⟩ := Option.ne_none_iff_exists'.mp hpath'
      obtain ⟨p, hp⟩ := t.node_of_append hn
      rw [hnone] at hp
      cases hp
  · have hnextLt := (ht.frame_lt hsome).trans hc.numFrames_lt
    have hrowNe : rowVal ≠ 0 := by
      rw [hrow, hword, ne_eq, asInt_eq_zero_iff hnextLt]
      exact hnext
    rw [if_pos hrowNe, hrow, hword, asUInt64_asInt hnextLt, ← pathPage_concat]
    refine (hrec next _ s₁ hsome hs₁ ⟨?_, ?_⟩).bind fun st' s' hpost => ?_
    · -- nothing but the maximum changes
      intro hempty
      split_ifs at hempty ⊢ <;> exact hst.1 hempty
    · intro hempty
      obtain ⟨⟨largest, hlargest, ⟨path₀, hpath₀⟩, hbound⟩, hnone, hfar⟩ :=
        hst.2 (by split_ifs at hempty <;> exact hempty)
      have hlargestLt := (ht.frame_lt hpath₀).trans hc.numFrames_lt
      rw [hlargest]
      by_cases hgrow : largest < next
      · rw [if_pos ((asInt_lt_asInt_iff hlargestLt hnextLt).mpr hgrow)]
        refine ⟨⟨next, rfl, ⟨_, hsome⟩, ?_⟩, hnone, hfar⟩
        rintro path' frame' (hpath' | rfl) hnode'
        · exact (hbound path' frame' hpath' hnode').trans hgrow.le
        · rw [hsome] at hnode'
          cases hnode'
          exact le_rfl
      · rw [if_neg (mt (asInt_lt_asInt_iff hlargestLt hnextLt).mp hgrow)]
        refine ⟨⟨largest, hlargest, ⟨_, hpath₀⟩, ?_⟩, hnone, hfar⟩
        rintro path' frame' (hpath' | rfl) hnode'
        · exact hbound path' frame' hpath' hnode'
        · rw [hsome] at hnode'
          cases hnode'
          omega
    · exact ensures_pure ⟨hpost.1, hpost.2, by simp [hsome]⟩

omit hc hpageIn hunmapped in
/-- The pages through earlier entries of a table come before those through a later one. -/
theorem digits_lt_of_below {levels i : Nat} {path path' : List Nat} {frame' : Nat}
    (hpath : path.length + (levels + 1) = c.tablesDepth) (hpage : IsPage t path' frame')
    (hbelow : Below path i path') :
    digits c path' < digits c (path ++ [i]) * c.pageSize ^ levels := by
  obtain ⟨j, hj, rest, rfl⟩ := hbelow
  have hlength := hpage.2
  simp only [List.length_append, List.length_singleton] at hlength
  have hrest : digits c rest < c.pageSize ^ levels := by
    rw [show levels = rest.length by omega]
    exact digits_lt fun k hk => (ht.indexPath hpage.1).1 k (by simp [hk])
  rw [digits_append, show rest.length = levels by omega, digits_concat, digits_concat]
  calc (digits c path * c.pageSize + j) * c.pageSize ^ levels + digits c rest
      < (digits c path * c.pageSize + j + 1) * c.pageSize ^ levels := by rw [Nat.add_mul _ 1]; omega
    _ ≤ (digits c path * c.pageSize + i) * c.pageSize ^ levels :=
        Nat.mul_le_mul_right _ (by omega)

omit hc ht hpageIn hunmapped in
/-- Once an empty table is found no path counts any more. -/
theorem SearchInv.of_found {seen visited seen' visited' : List Nat → Prop} {st : SearchState}
    (hst : SearchInv t illegal pageIn seen visited st) (hfound : st.emptyFrame = true) :
    SearchInv t illegal pageIn seen' visited' st := by
  refine ⟨hst.1, fun hempty => ?_⟩
  rw [hfound] at hempty
  cases hempty

section Path

variable {seen visited : List Nat → Prop} {path : List Nat} {frame prevAdd : Nat} {st : SearchState}

/-- At a page only the distance is compared. -/
theorem SearchInv.of_page (hst : SearchInv t illegal pageIn seen visited st)
    (hempty : st.emptyFrame = false) (hpage : IsPage t path frame) (hlegal : frame ≠ illegal)
    (hentry : EntryAt t path prevAdd) (hseen : seen path)
    (hlater : ∀ path' frame', visited path' → IsPage t path' frame' →
      digits c path' < digits c path) :
    SearchInv t illegal pageIn (fun path' => seen path' ∨ path <+: path')
      (fun path' => visited path' ∨ path <+: path')
      (updateDistance c pageIn (pathPage c path) frame illegal prevAdd st) := by
  obtain ⟨hmax, hnone, hfar⟩ := hst.2 hempty
  have hdone : SearchInv t illegal pageIn seen (fun path' => visited path' ∨ path' = path)
      (updateDistance c pageIn (pathPage c path) frame illegal prevAdd st) := by
    refine ⟨fun htrue => ?_, fun _ => ⟨?_, ?_, ?_⟩⟩
    · rw [updateDistance_emptyFrame, hempty] at htrue
      cases htrue
    · rw [MaxFrame, updateDistance_maxFrame]
      exact hmax
    · rintro path' frame' (hpath' | rfl) htable
      · exact hnone path' frame' hpath' htable
      · exact absurd hpage.2 htable.2.1.ne
    · refine farthest_updateDistance hc ht hpageIn hunmapped hfar hpage hlegal hentry ?_
      intro path' frame' hpath' hpage'
      rw [ht.pathPage_eq hc hpage'.1, ht.pathPage_eq hc hpage.1]
      exact hlater path' frame' hpath' hpage'
  -- no path of the tree goes on behind a page
  have hsub : ∀ path', t.node path' ≠ none → (path <+: path' ↔ path' = path) := by
    intro path' hpath'
    obtain ⟨frame', hframe'⟩ := Option.ne_none_iff_exists'.mp hpath'
    have hle := (t.length_le hframe').trans hpage.2.ge
    constructor
    · exact fun hpre => (hpre.eq_of_length_le hle).symm
    · rintro rfl
      exact List.prefix_refl _
  refine hdone.congr (fun path' hpath' => ?_) fun path' hpath' => ?_
  · rw [hsub path' hpath']
    exact ⟨Or.inl, fun h => h.elim id fun heq => heq ▸ hseen⟩
  · rw [hsub path' hpath']

section Table

variable (hnode : t.node path = some frame) (hshort : path.length < c.tablesDepth) {isEmpty : Bool}
  (hisEmpty : isEmpty = true ↔ ∀ j < c.pageSize, t.node (path ++ [j]) = none)
include hnode hshort hisEmpty

omit hc hpageIn hunmapped in
/-- A table without entries is taken. -/
theorem foundEmpty_of_table (hentry : EntryAt t path prevAdd) (hfound : isEmpty = true)
    (hlegal : frame ≠ illegal) : FoundEmpty t illegal
      { st with emptyFrame := true, prevFrameAdd := prevAdd, resultFrame := frame } := by
  refine ⟨path, frame, ⟨hnode, hshort, hlegal, fun j => ?_⟩, rfl, hentry⟩
  by_contra hsome
  obtain ⟨n, hn⟩ := Option.ne_none_iff_exists'.mp hsome
  exact hsome (hisEmpty.mp hfound j ((ht.indexPath hn).1 j (by simp)))

omit hc hpageIn hunmapped in
/-- Behind the last entry of a table that is not taken. -/
theorem SearchInv.of_table (hseen : seen path)
    (hst : SearchInv t illegal pageIn (fun path' => seen path' ∨ Below path c.pageSize path')
      (fun path' => visited path' ∨ Below path c.pageSize path') st)
    (hnot : ¬ (isEmpty = true ∧ frame ≠ illegal)) :
    SearchInv t illegal pageIn (fun path' => seen path' ∨ path <+: path')
      (fun path' => visited path' ∨ path <+: path') st := by
  refine ⟨hst.1, fun hnotFound => ?_⟩
  obtain ⟨hmax, hnone, hfar⟩ := hst.2 hnotFound
  have hself : ∀ frame', ¬ IsEmptyTable t illegal path frame' := by
    rintro frame' ⟨hnode', -, hlegal, hleaf⟩
    rw [hnode] at hnode'
    cases hnode'
    exact hnot ⟨hisEmpty.mpr fun j _ => hleaf j, hlegal⟩
  have hdone : SearchInv t illegal pageIn
      (fun path' => seen path' ∨ Below path c.pageSize path')
      (fun path' => (visited path' ∨ Below path c.pageSize path') ∨ path' = path) st := by
    refine ⟨hst.1, fun _ => ⟨hmax, ?_, hfar.of_table hshort⟩⟩
    rintro path' frame' (hpath' | rfl) htable
    · exact hnone path' frame' hpath' htable
    · exact hself frame' htable
  refine (hdone.congr (fun path' hpath' => ?_) fun path' hpath' => ?_).2 hnotFound
  all_goals
    obtain ⟨frame', hframe'⟩ := Option.ne_none_iff_exists'.mp hpath'
    rw [subtree_iff ht hframe']
  · exact ⟨fun h => h.elim Or.inl fun h => Or.inr (Or.inr h), fun h =>
      h.elim Or.inl fun h => h.elim (fun heq => Or.inl (heq ▸ hseen)) Or.inr⟩
  · rw [or_assoc, or_comm (a := Below path c.pageSize path')]

end Table

end Path

omit hpageIn hunmapped in
/-- The loop over the entries of a table, from what the search does below each of them. -/
theorem ensures_searchRows {levels : Nat} {path : List Nat} {frame : Nat} {st : SearchState}
    {seen visited : List Nat → Prop} {s : Machine} (hnode : t.node path = some frame)
    (hshort : path.length < c.tablesDepth) (hs : s.memory = m)
    (hst : SearchInv t illegal pageIn seen visited st)
    (hrec : ∀ i < c.pageSize, ∀ next st s, t.node (path ++ [i]) = some next → s.memory = m →
      SearchInv t illegal pageIn
        (fun path' => (seen path' ∨ Below path i path') ∨ path' = path ++ [i])
        (fun path' => visited path' ∨ Below path i path') st →
      Ensures (Machine.Legal c) (searchFrame c illegal pageIn levels next (frame * c.pageSize + i)
        (pathPage c (path ++ [i])) st) s fun st' s' => s'.memory = m ∧
          SearchInv t illegal pageIn
            (fun path' => (seen path' ∨ Below path i path') ∨ path ++ [i] <+: path')
            (fun path' => (visited path' ∨ Below path i path') ∨ path ++ [i] <+: path') st') :
    Ensures (Machine.Legal c) ((List.range c.pageSize).foldlM
      (searchRow c illegal pageIn levels frame (pathPage c path)) (true, st)) s
      fun acc s' => s'.memory = m ∧
        SearchInv t illegal pageIn (fun path' => seen path' ∨ Below path c.pageSize path')
          (fun path' => visited path' ∨ Below path c.pageSize path') acc.2 ∧
        (acc.1 = true ↔ ∀ j < c.pageSize, t.node (path ++ [j]) = none) := by
  refine ensures_foldlM_range (fun i (acc : Bool × SearchState) (s' : Machine) => s'.memory = m ∧
    SearchInv t illegal pageIn (fun path' => seen path' ∨ Below path i path')
      (fun path' => visited path' ∨ Below path i path') acc.2 ∧
    (acc.1 = true ↔ ∀ j < i, t.node (path ++ [j]) = none)) ?_ ?_
  · rintro i hi ⟨isEmpty, st'⟩ s' ⟨hs', hst', hisEmpty⟩
    refine (ensures_searchRow hc ht hnode hshort hi hs' hst' (hrec i hi)).mono ?_
    rintro acc s₁ ⟨hs₁, hst₁, hacc⟩
    refine ⟨hs₁, hst₁.congr (fun path' _ => ?_) fun path' _ => ?_, ?_⟩
    · rw [below_succ, or_assoc]
    · rw [below_succ, or_assoc]
    · rw [hacc, hisEmpty]
      constructor
      · rintro ⟨hbefore, hlast⟩ j hj
        rcases Nat.lt_succ_iff_lt_or_eq.mp hj with hless | rfl
        · exact hbefore j hless
        · exact hlast
      · exact fun hall => ⟨fun j hj => hall j (by omega), hall i (by omega)⟩
  · refine ⟨hs, hst.congr (fun path' _ => ?_) (fun path' _ => ?_), by simp⟩
    all_goals exact ⟨Or.inl, fun h => h.resolve_right fun ⟨_, hj, _⟩ => by omega⟩

include hillegal

/-- Searching below a path adds the paths below it to those visited. -/
theorem ensures_searchFrame :
    ∀ (levels : Nat) (seen visited : List Nat → Prop) {path : List Nat} {frame prevAdd : Nat}
      {st : SearchState} {s : Machine},
      t.node path = some frame → path.length + levels = c.tablesDepth → EntryAt t path prevAdd →
      s.memory = m → seen path → SearchInv t illegal pageIn seen visited st →
      (∀ path' frame', visited path' → IsPage t path' frame' →
        digits c path' < digits c path * c.pageSize ^ levels) →
      Ensures (Machine.Legal c)
        (searchFrame c illegal pageIn levels frame prevAdd (pathPage c path) st) s
        fun st' s' => s'.memory = m ∧
          SearchInv t illegal pageIn (fun path' => seen path' ∨ path <+: path')
            (fun path' => visited path' ∨ path <+: path') st' := by
  intro levels
  induction levels with
  | zero =>
      intro seen visited path frame prevAdd st s hnode hlength hentry hs hseen hst hlater
      cases hempty : st.emptyFrame with
      | true =>
          rw [searchFrame_stop hempty]
          exact ensures_pure ⟨hs, hst.of_found hempty⟩
      | false =>
          have hlegal : frame ≠ illegal := by
            rintro rfl
            obtain ⟨path', hnode', hshort⟩ := hillegal
            have hsame := congrArg List.length (t.node_injective hnode hnode')
            omega
          rw [searchFrame_zero hempty (ht.frame_lt hnode)]
          rw [pow_zero, Nat.mul_one] at hlater
          exact ensures_pure ⟨hs, hst.of_page hc ht hpageIn hunmapped hempty ⟨hnode, hlength⟩ hlegal
            hentry hseen hlater⟩
  | succ levels ih =>
      intro seen visited path frame prevAdd st s hnode hlength hentry hs hseen hst hlater
      cases hempty : st.emptyFrame with
      | true =>
          rw [searchFrame_stop hempty]
          exact ensures_pure ⟨hs, hst.of_found hempty⟩
      | false =>
          have hshort : path.length < c.tablesDepth := by omega
          rw [searchFrame_succ hempty (ht.frame_lt hnode)]
          refine (ensures_searchRows hc ht hnode hshort hs hst ?_).bind ?_
          · -- below an entry: the induction hypothesis
            intro i hi next st' s' hsome hs' hst'
            refine (ih _ _ hsome (by simp; omega) (Or.inr ⟨path, i, frame, rfl, hnode, rfl⟩) hs'
              (Or.inr rfl) hst' ?_).mono ?_
            · rintro path' frame' (hpath' | hbelow) hpage'
              · have hfirst := hlater path' frame' hpath' hpage'
                rw [pow_succ', ← Nat.mul_assoc] at hfirst
                rw [digits_concat]
                exact hfirst.trans_le (Nat.mul_le_mul_right _ (Nat.le_add_right _ _))
              · exact digits_lt_of_below ht hlength hpage' hbelow
            · rintro st₁ s₁ ⟨hs₁, hst₁⟩
              refine ⟨hs₁, hst₁.congr (fun path' _ => ?_) fun _ _ => Iff.rfl⟩
              constructor
              · rintro ((hseen' | rfl) | hpre)
                · exact Or.inl hseen'
                · exact Or.inr (List.prefix_refl _)
                · exact Or.inr hpre
              · rintro (hseen' | hpre)
                · exact Or.inl (Or.inl hseen')
                · exact Or.inr hpre
          · rintro ⟨isEmpty, st'⟩ s' ⟨hs', hst', hisEmpty⟩
            dsimp only at hst' hisEmpty ⊢
            by_cases hfound : isEmpty = true ∧ frame ≠ illegal
            · have htaken : FoundEmpty t illegal
                  { st' with emptyFrame := true, prevFrameAdd := prevAdd, resultFrame := frame } :=
                foundEmpty_of_table ht hnode hshort hisEmpty hentry hfound.1 hfound.2
              rw [if_pos hfound]
              exact ensures_pure ⟨hs', fun _ => htaken, fun hfalse => by cases hfalse⟩
            · rw [if_neg hfound]
              exact ensures_pure ⟨hs', SearchInv.of_table ht hnode hshort hisEmpty hseen hst' hfound⟩

end Search

end OsExercises.VirtualMemory
