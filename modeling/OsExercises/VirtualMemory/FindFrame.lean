import OsExercises.VirtualMemory.Search

/-!
# The frame for a missing table or page

`find_frame` takes an empty table, else the first frame never used, else the frame of the page
farthest from the one to come in. There is such a page: a tree of tables without one, in which only
the protected table may be empty, is a single path and cannot use up the frames.
-/

namespace OsExercises.VirtualMemory

variable {c : MemoryConstants}

/-- The outcome of `find_frame`: the memory it leaves and the frame it returns. -/
inductive FrameChoice (c : MemoryConstants) (m : Memory) (t : FrameTree c)
    (illegal pageIn : Nat) : Memory → Nat → Prop where
  | empty {path : List Nat} {i parent frame : Nat} :
      t.node path = some parent → IsEmptyTable t illegal (path ++ [i]) frame →
      FrameChoice c m t illegal pageIn (m.store c (parent * c.pageSize + i) 0) frame
  | unused {last : Nat} :
      (∀ path frame, ¬ IsEmptyTable t illegal path frame) →
      (∀ frame, (∃ path, t.node path = some frame) ↔ frame ≤ last) → last + 1 < c.numFrames →
      FrameChoice c m t illegal pageIn m (last + 1)
  | evicted {path : List Nat} {i parent frame : Nat} :
      (∀ path frame, ¬ IsEmptyTable t illegal path frame) →
      (∀ frame < c.numFrames, ∃ path, t.node path = some frame) →
      t.node path = some parent → IsPage t (path ++ [i]) frame →
      (∀ path' frame', IsPage t path' frame' →
        pageDistance c pageIn (pathPage c path') < pageDistance c pageIn (pathPage c (path ++ [i])) ∨
          pageDistance c pageIn (pathPage c path') =
              pageDistance c pageIn (pathPage c (path ++ [i])) ∧
            pathPage c (path ++ [i]) ≤ pathPage c path') →
      FrameChoice c m t illegal pageIn
        ((m.store c (parent * c.pageSize + i) 0).evict frame (pathPage c (path ++ [i]))) frame

variable {m : Memory} {t : FrameTree c} {illegal pageIn : Nat}

/-- A frame can be taken: that of an empty table, one not in use or that of a page. -/
def FrameLeft (t : FrameTree c) (illegal : Nat) : Prop :=
  (∃ path frame, IsEmptyTable t illegal path frame) ∨
    (∃ frame < c.numFrames, ∀ path, t.node path ≠ some frame) ∨ ∃ path frame, IsPage t path frame

/-- When every frame is used and no table but the protected one is empty, some page is mapped. -/
theorem exists_page (hdepth : c.tablesDepth < c.numFrames)
    (hillegal : ∃ path, t.node path = some illegal ∧ path.length < c.tablesDepth)
    (hnone : ∀ path frame, ¬ IsEmptyTable t illegal path frame)
    (hused : ∀ frame < c.numFrames, ∃ path, t.node path = some frame) :
    ∃ path frame, IsPage t path frame := by
  obtain ⟨stop, hstop, hshort⟩ := hillegal
  by_contra hpages
  push Not at hpages
  have hgrow : ∀ path n, t.node path = some n → path.length < c.tablesDepth → path ≠ stop →
      ∃ i m, t.node (path ++ [i]) = some m := by
    intro path n hnode hlength hne
    by_contra hchildless
    push Not at hchildless
    have hleaf := fun i => Option.eq_none_iff_forall_ne_some.mpr (hchildless i)
    refine hnone path n ⟨hnode, hlength, ?_, hleaf⟩
    rintro rfl
    exact hne (t.node_injective hnode hstop)
  have hchain : ∀ frame ∈ Finset.range c.numFrames, ∃ path, t.node path = some frame ∧
      path <+: stop := by
    intro frame hframe
    obtain ⟨path, hnode⟩ := hused frame (Finset.mem_range.mp hframe)
    refine ⟨path, hnode, ?_⟩
    by_contra hbypass
    obtain ⟨full, page, hfull, hlength⟩ := t.exists_full_of_bypass hgrow _ path frame rfl hnode hbypass
    exact hpages full page ⟨hfull, hlength⟩
  have hcard := t.card_le_of_chain (Finset.range c.numFrames) hchain
  rw [Finset.card_range] at hcard
  omega

/-- With more frames than levels there is always one to take. -/
theorem frameLeft_of_depth (hdepth : c.tablesDepth < c.numFrames)
    (hillegal : ∃ path, t.node path = some illegal ∧ path.length < c.tablesDepth) :
    FrameLeft t illegal := by
  by_contra hleft
  obtain ⟨hnone, hused, hpages⟩ := (not_or.trans (and_congr_right fun _ => not_or)).mp hleft
  push Not at hnone hused
  exact hpages (exists_page hdepth hillegal hnone hused)

theorem FrameLeft.exists_page (hleft : FrameLeft t illegal)
    (hnone : ∀ path frame, ¬ IsEmptyTable t illegal path frame)
    (hused : ∀ frame < c.numFrames, ∃ path, t.node path = some frame) :
    ∃ path frame, IsPage t path frame := by
  rcases hleft with ⟨path, frame, htable⟩ | ⟨frame, hframe, hunused⟩ | hpage
  · exact absurd htable (hnone path frame)
  · obtain ⟨path, hnode⟩ := hused frame hframe
    exact absurd hnode (hunused path)
  · exact hpage

section FindFrame

variable (hc : c.Valid) (ht : PageTable c m t none)
include hc ht

omit hc ht in
theorem IsEmptyTable.path_ne_nil {path : List Nat} {frame : Nat}
    (hillegal : ∃ path, t.node path = some illegal ∧ path.length < c.tablesDepth)
    (htable : IsEmptyTable t illegal path frame) : path ≠ [] := by
  rintro rfl
  obtain ⟨hnode, -, hne, hleaf⟩ := htable
  obtain ⟨stop, hstop, -⟩ := hillegal
  have hoff : [] ≠ stop := by
    rintro rfl
    rw [hnode] at hstop
    exact hne (Option.some.inj hstop)
  exact t.ne_of_childless hstop hleaf hoff List.nil_prefix rfl

/-- The out-parameters before the search. -/
abbrev SearchState.start : SearchState :=
  { emptyFrame := false, maxFrame := 0, resultFrame := 0, prevFrameAdd := 0, maxDist := 0,
    resultPath := 0 }

omit hc in
/-- Before the search nothing is visited, and only the root is seen. -/
theorem searchInv_start :
    SearchInv t illegal pageIn (fun path => path = []) (fun _ => False) SearchState.start := by
  refine ⟨fun hfalse => absurd hfalse (by simp), fun _ => ⟨⟨0, asInt_zero.symm, ?_, ?_⟩, ?_, ?_⟩⟩
  · exact ⟨[], ht.represents.root_node⟩
  · rintro path frame rfl hnode
    rw [ht.represents.root_node] at hnode
    cases hnode
    exact le_rfl
  · exact fun _ _ hfalse => hfalse.elim
  · exact Or.inl ⟨rfl, fun _ _ hfalse => hfalse.elim⟩

omit hc in
/-- The frames in use are those up to the largest one. -/
theorem used_iff_le {largest : Nat} (hreach : ∃ path, t.node path = some largest)
    (hbound : ∀ path frame, t.node path = some frame → frame ≤ largest) (frame : Nat) :
    (∃ path, t.node path = some frame) ↔ frame ≤ largest := by
  obtain ⟨last, -, hframes⟩ := ht.frames
  simp only [reduceCtorEq, false_or] at hframes
  constructor
  · rintro ⟨path, hnode⟩
    exact hbound path frame hnode
  · intro hframe
    exact (hframes frame).mpr (hframe.trans ((hframes largest).mp hreach))

section Entry

variable {path : List Nat} {i parent frame : Nat} {s : Machine}

/-- The entry of a frame is cleared. -/
theorem ensures_clearEntry (hs : s.memory = m) (hparent : t.node path = some parent)
    (hchild : t.node (path ++ [i]) = some frame) :
    Ensures (Machine.Legal c) (pmWrite c (parent * c.pageSize + i) 0) s fun _ s' =>
      s'.memory = m.store c (parent * c.pageSize + i) 0 ∧
        s'.calls = (.write (parent * c.pageSize + i) 0, m) :: s.calls := by
  have hi := (ht.indexPath hchild).1 i (by simp)
  have hentry := hc.entry_lt_ramSize (ht.frame_lt hparent) hi
  rw [← hs]
  exact ensures_pmWrite s hentry

/-- The page of a frame is evicted as soon as its entry is cleared. -/
theorem ensures_evictPage (hs : s.memory = m) (hparent : t.node path = some parent)
    (hpage : IsPage t (path ++ [i]) frame) :
    Ensures (Machine.Legal c) (do
      pmWrite c (parent * c.pageSize + i) 0
      pmEvict c frame (pathPage c (path ++ [i]))
      pure frame) s fun frame' s' => frame' = frame ∧
        s'.memory = (m.store c (parent * c.pageSize + i) 0).evict frame
          (pathPage c (path ++ [i])) := by
  refine (ensures_clearEntry hc ht hs hparent hpage.1).bind ?_
  rintro - s₁ ⟨hs₁, hcalls⟩
  refine (ensures_pmEvict s₁ ⟨?_, ?_, ?_, ?_, ?_⟩).bind ?_
  · exact ht.frame_ne_zero hpage.1 (by simp)
  · exact ht.frame_lt hpage.1
  · exact ht.pathPage_lt hc hpage.1
  · rw [hs₁, store_swapFile]
    exact ht.not_swapped hpage.1 hpage.2
  · refine ⟨_, _, _, hcalls, path ++ [i], hpage.2, ?_, rfl⟩
    rw [ht.represents.walk_eq _ hpage.2.le]
    exact hpage.1
  · rintro - s₂ hs₂
    refine ensures_pure ⟨rfl, ?_⟩
    rw [hs₂, hs₁]

end Entry

variable (hpageIn : pageIn < c.numPages)
  (hillegal : ∃ path, t.node path = some illegal ∧ path.length < c.tablesDepth)
  (hunmapped : ∀ path frame, IsPage t path frame → pathPage c path ≠ pageIn) {s : Machine}
  (hs : s.memory = m)
include hpageIn hillegal hunmapped hs

/-- The whole search visits all paths. -/
theorem ensures_search :
    Ensures (Machine.Legal c) (searchFrame c illegal pageIn c.tablesDepth 0 0 0 SearchState.start) s
      fun st s' => s'.memory = m ∧
        SearchInv t illegal pageIn (fun _ => True) (fun _ => True) st := by
  refine (ensures_searchFrame hc ht hpageIn hillegal hunmapped c.tablesDepth
    (fun path => path = []) (fun _ => False) ht.represents.root_node (by simp)
    (Or.inl ⟨rfl, rfl⟩) hs rfl (searchInv_start ht) (fun _ _ hfalse => hfalse.elim)).mono ?_
  rintro st s₁ ⟨hs₁, hst⟩
  refine ⟨hs₁, hst.congr (fun path _ => ?_) fun path _ => ?_⟩
  · exact iff_of_true (Or.inr List.nil_prefix) trivial
  · exact iff_of_true (Or.inr List.nil_prefix) trivial

theorem ensures_findFrame (hleft : FrameLeft t illegal) :
    Ensures (Machine.Legal c) (findFrame c illegal (asInt pageIn)) s fun frame s' =>
      FrameChoice c m t illegal pageIn s'.memory frame := by
  rw [findFrame, asUInt64_asInt (hpageIn.trans hc.numPages_lt)]
  refine (ensures_search hc ht hpageIn hillegal hunmapped hs).bind ?_
  rintro st s₁ ⟨hs₁, hst⟩
  cases hempty : st.emptyFrame with
  | true =>
      obtain ⟨path', frame, htable, hresult, hentry⟩ := hst.1 hempty
      rcases hentry with ⟨hnil, -⟩ | ⟨path, i, parent, rfl, hparent, haddress⟩
      · exact absurd hnil (htable.path_ne_nil hillegal)
      · rw [if_pos rfl, haddress, hresult]
        refine (ensures_clearEntry hc ht hs₁ hparent htable.1).bind ?_
        rintro - s₂ ⟨hs₂, -⟩
        refine ensures_pure ?_
        rw [hs₂]
        exact .empty hparent htable
  | false =>
      obtain ⟨⟨largest, hlargest, hreach, hbound⟩, hnone, hfar⟩ := hst.2 hempty
      have hnone' : ∀ path frame, ¬ IsEmptyTable t illegal path frame := fun path frame =>
        hnone path frame trivial
      have hlast := used_iff_le ht hreach fun path frame => hbound path frame trivial
      have hlargestLt : largest < c.numFrames := by
        obtain ⟨path, hnode⟩ := hreach
        exact ht.frame_lt hnode
      have hsmall := hc.numFrames_lt
      rw [if_neg (by simp), hlargest, toInt_asInt (hlargestLt.trans hsmall)]
      by_cases hunused : (largest : Int) + 1 < c.numFrames
      · have hsucc : asInt largest + 1 = asInt (largest + 1) := (Int32.ofNat_add largest 1).symm
        rw [if_pos hunused]
        refine ensures_pure ?_
        rw [hs₁, hsucc, asUInt64_asInt (by omega)]
        exact .unused hnone' hlast (by omega)
      · have hused : ∀ frame < c.numFrames, ∃ path, t.node path = some frame := fun frame hframe =>
          (hlast frame).mpr (by omega)
        obtain ⟨page, pageFrame, hpage⟩ := hleft.exists_page hnone' hused
        rcases hfar with ⟨-, hpages⟩ |
          ⟨path', frame, -, hfarthest, hresult, hnumber, hentry, -, hbest⟩
        · exact absurd hpage (hpages page pageFrame trivial)
        rcases hentry with ⟨rfl, -⟩ | ⟨path, i, parent, rfl, hparent, haddress⟩
        · exact absurd hfarthest.2 hc.tablesDepth_pos.ne
        · rw [if_neg hunused, hresult, haddress, hnumber]
          refine (ensures_evictPage hc ht hs₁ hparent hfarthest).mono ?_
          rintro frame' s₂ ⟨rfl, hs₂⟩
          rw [hs₂]
          exact .evicted hnone' hused hparent hfarthest fun path' frame' hpage' =>
            hbest path' frame' trivial hpage'

end FindFrame

end OsExercises.VirtualMemory
