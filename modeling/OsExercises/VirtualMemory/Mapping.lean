import OsExercises.VirtualMemory.WorkingSet
import OsExercises.Library.Together

/-!
# The mapping and the data

Tables and pages lie in the same frames, and the search tells them apart by their depth alone. Where
it finds a frame depends on the tree of the tables and on the page to come in, and on nothing else:
at most one table that may be taken is ever empty, so the search has no choice. So two runs that ask
for the same pages have the same mapping throughout and evict equally often, whatever words are read
and written.
-/

namespace OsExercises.VirtualMemory

variable {c : MemoryConstants} {t t₁ t' : FrameTree c}

/-! ### Tables without entries -/

/-- The tables without entries, by their paths. -/
def idle (t : FrameTree c) : Set (List Nat) :=
  {path | (∃ frame, t.node path = some frame) ∧ path.length < c.tablesDepth ∧
    ∀ i, t.node (path ++ [i]) = none}

theorem IsEmptyTable.idle {illegal frame : Nat} {path stop : List Nat}
    (htable : IsEmptyTable t illegal path frame) (hstop : t.node stop = some illegal) :
    path ∈ idle t \ {stop} := by
  obtain ⟨hnode, hshort, hne, hleaf⟩ := htable
  refine ⟨⟨⟨frame, hnode⟩, hshort, hleaf⟩, fun heq => hne ?_⟩
  rw [Set.mem_singleton_iff.mp heq, hstop] at hnode
  exact (Option.some.inj hnode).symm

theorem isEmptyTable_of_idle {illegal : Nat} {path stop : List Nat} (hidle : path ∈ idle t \ {stop})
    (hstop : t.node stop = some illegal) : ∃ frame, IsEmptyTable t illegal path frame := by
  obtain ⟨⟨⟨frame, hnode⟩, hshort, hleaf⟩, hne⟩ := hidle
  refine ⟨frame, hnode, hshort, fun heq => hne ?_, hleaf⟩
  rw [heq] at hnode
  exact t.node_injective hnode hstop

/-- Only the table above a node that is taken can become idle. -/
theorem idle_detach {path leaf : List Nat} {i : Nat} (hleaf : ∀ j, t.node (leaf ++ [i] ++ [j]) = none)
    (hidle : path ∈ idle (t.detach (leaf ++ [i]) hleaf)) :
    path = leaf ∨ path ∈ idle t ∧ path ≠ leaf ++ [i] := by
  obtain ⟨⟨frame, hnode⟩, hshort, hchildless⟩ := hidle
  obtain ⟨hne, hnode⟩ := t.node_of_detach hleaf hnode
  by_cases hpath : path = leaf
  · exact Or.inl hpath
  · refine Or.inr ⟨⟨⟨frame, hnode⟩, hshort, fun j => ?_⟩, hne⟩
    have hkept := hchildless j
    rw [t.detach_node, if_neg] at hkept
    · exact hkept
    · intro heq
      exact hpath (List.append_singleton_inj.mp heq).1

/-! ### The choice of a frame, on the tree alone -/

/-- The outcome of `find_frame` for the tree: the tree it leaves, the frame and the number of
evictions. -/
inductive TreeChoice (t : FrameTree c) (illegal pageIn : Nat) : FrameTree c → Nat → Nat → Prop where
  | empty {path : List Nat} {i frame : Nat} (hleaf : ∀ j, t.node (path ++ [i] ++ [j]) = none) :
      IsEmptyTable t illegal (path ++ [i]) frame →
      TreeChoice t illegal pageIn (t.detach (path ++ [i]) hleaf) frame 0
  | unused {last : Nat} :
      (∀ path frame, ¬ IsEmptyTable t illegal path frame) →
      (∀ frame, (∃ path, t.node path = some frame) ↔ frame ≤ last) → last + 1 < c.numFrames →
      TreeChoice t illegal pageIn t (last + 1) 0
  | evicted {path : List Nat} {i frame : Nat} (hleaf : ∀ j, t.node (path ++ [i] ++ [j]) = none) :
      (∀ path frame, ¬ IsEmptyTable t illegal path frame) →
      (∀ frame < c.numFrames, ∃ path, t.node path = some frame) →
      IsPage t (path ++ [i]) frame →
      (∀ path' frame', IsPage t path' frame' →
        pageDistance c pageIn (pathPage c path') < pageDistance c pageIn (pathPage c (path ++ [i])) ∨
          pageDistance c pageIn (pathPage c path') =
              pageDistance c pageIn (pathPage c (path ++ [i])) ∧
            pathPage c (path ++ [i]) ≤ pathPage c path') →
      TreeChoice t illegal pageIn (t.detach (path ++ [i]) hleaf) frame 1

section Choice

variable {m m₁ m' : Memory} {virtualAddress level frame found : Nat}

/-- What a fault does to the tree. -/
theorem LevelFault.treeChoice (hc : c.Valid) (ht : PageTable c m t none)
    (hfault : LevelFault c virtualAddress level frame m t m₁ t₁ found m' t') :
    ∃ evictions, TreeChoice t frame (virtualAddress / c.pageSize) t₁ found evictions ∧
      m'.evictCounter = m.evictCounter + evictions := by
  have hspare := hfault.spare
  have hcounter := hfault.counter
  generalize hnumber : virtualAddress / c.pageSize = pageIn
  have hchoice := hnumber ▸ hfault.choice
  cases hchoice with
  | @empty path i parent _ hparent htable =>
      obtain ⟨hchild, hshort, hne, hleaf⟩ := htable
      obtain rfl := hspare.represents.unique (ht.unlink hparent hchild hleaf).represents
      exact ⟨0, .empty hleaf ⟨hchild, hshort, hne, hleaf⟩, hcounter⟩
  | @unused last hnone hframes hlast =>
      obtain rfl := hspare.represents.unique ht.represents
      exact ⟨0, .unused hnone hframes hlast, hcounter⟩
  | @evicted path i parent _ hnone hused hparent hpage hbest =>
      have hleaf := fun j => t.node_concat_eq_none hpage.2 j
      have hgone : ∀ path' frame', IsPage (t.detach (path ++ [i]) hleaf) path' frame' →
          pathPage c path' ≠ pathPage c (path ++ [i]) := by
        intro path' frame' hpage' heq
        obtain ⟨hne, hnode'⟩ := t.node_of_detach hleaf hpage'.1
        exact hne (ht.path_eq_of_pathPage_eq hc hnode' hpage.1 (hpage'.2.trans hpage.2.symm) heq)
      have hevicted := (ht.unlink hparent hpage.1 hleaf).evict hgone
      obtain rfl := hspare.represents.unique hevicted.represents
      exact ⟨1, .evicted hleaf hnone hused hpage hbest, hcounter⟩

variable {pageIn : Nat} {stop : List Nat} {t₂ : FrameTree c} {frame₁ frame₂ evictions₁ evictions₂ : Nat}
  {illegal : Nat}

/-- The search has no choice. -/
theorem TreeChoice.unique (hc : c.Valid) (ht : PageTable c m t none) (hstop : t.node stop = some illegal)
    (htidy : (idle t \ {stop}).Subsingleton)
    (h₁ : TreeChoice t illegal pageIn t₁ frame₁ evictions₁)
    (h₂ : TreeChoice t illegal pageIn t₂ frame₂ evictions₂) :
    t₁ = t₂ ∧ frame₁ = frame₂ ∧ evictions₁ = evictions₂ := by
  cases h₁ with
  | empty _ htable₁ =>
      cases h₂ with
      | empty _ htable₂ =>
          have hpath := htidy (htable₁.idle hstop) (htable₂.idle hstop)
          obtain ⟨rfl, rfl⟩ := List.append_singleton_inj.mp hpath
          obtain rfl := Option.some.inj (htable₁.1.symm.trans htable₂.1)
          exact ⟨rfl, rfl, rfl⟩
      | unused hnone _ _ => exact absurd htable₁ (hnone _ _)
      | evicted _ hnone _ _ _ => exact absurd htable₁ (hnone _ _)
  | @unused last₁ hnone hframes₁ hlast₁ =>
      cases h₂ with
      | empty _ htable₂ => exact absurd htable₂ (hnone _ _)
      | @unused last₂ _ hframes₂ _ =>
          have hle := (hframes₂ last₁).mp ((hframes₁ last₁).mpr le_rfl)
          have hge := (hframes₁ last₂).mp ((hframes₂ last₂).mpr le_rfl)
          obtain rfl := Nat.le_antisymm hle hge
          exact ⟨rfl, rfl, rfl⟩
      | evicted _ _ hused _ _ =>
          have hle := (hframes₁ _).mp (hused _ hlast₁)
          omega
  | @evicted path₁ i₁ _ _ hnone hused hpage₁ hbest₁ =>
      cases h₂ with
      | empty _ htable₂ => exact absurd htable₂ (hnone _ _)
      | @unused last₂ _ hframes₂ hlast₂ =>
          have hle := (hframes₂ _).mp (hused _ hlast₂)
          omega
      | @evicted path₂ i₂ _ _ _ _ hpage₂ hbest₂ =>
          have hnumber : pathPage c (path₁ ++ [i₁]) = pathPage c (path₂ ++ [i₂]) := by
            have h₁₂ := hbest₁ _ _ hpage₂
            have h₂₁ := hbest₂ _ _ hpage₁
            omega
          have hpath := ht.path_eq_of_pathPage_eq hc hpage₁.1 hpage₂.1
            (hpage₁.2.trans hpage₂.2.symm) hnumber
          obtain ⟨rfl, rfl⟩ := List.append_singleton_inj.mp hpath
          obtain rfl := Option.some.inj (hpage₁.1.symm.trans hpage₂.1)
          exact ⟨rfl, rfl, rfl⟩

/-- At most one table becomes idle, and only when none was. -/
theorem TreeChoice.tidy (hstop : t.node stop = some illegal) (htidy : (idle t \ {stop}).Subsingleton)
    (h : TreeChoice t illegal pageIn t₁ frame₁ evictions₁) : (idle t₁ \ {stop}).Subsingleton := by
  -- no table is idle in the tree that is left but the one above the node that was taken
  have hdetach : ∀ {leaf : List Nat} {i : Nat} (hleaf : ∀ j, t.node (leaf ++ [i] ++ [j]) = none),
      (∀ path ∈ idle t \ {stop}, path = leaf ++ [i]) →
      (idle (t.detach (leaf ++ [i]) hleaf) \ {stop}).Subsingleton := by
    intro leaf i hleaf honly
    have habove : ∀ path ∈ idle (t.detach (leaf ++ [i]) hleaf) \ {stop}, path = leaf := by
      intro path hpath
      rcases idle_detach hleaf hpath.1 with heq | ⟨hidle, hne⟩
      · exact heq
      · exact absurd (honly path ⟨hidle, hpath.2⟩) hne
    intro path hpath path' hpath'
    rw [habove path hpath, habove path' hpath']
  cases h with
  | empty hleaf htable =>
      exact hdetach hleaf fun path hpath => htidy hpath (htable.idle hstop)
  | unused hnone _ _ => exact htidy
  | evicted hleaf hnone _ _ _ =>
      refine hdetach hleaf fun path hpath => ?_
      obtain ⟨frame, htable⟩ := isEmptyTable_of_idle hpath hstop
      exact absurd htable (hnone path frame)

/-- The table that is filled next takes the place of the one it was linked to. -/
theorem tidy_link {i : Nat}
    (hnode : ∀ path, t'.node path = if path = stop ++ [i] then some found else t₁.node path)
    (htidy : (idle t₁ \ {stop}).Subsingleton) : (idle t' \ {stop ++ [i]}).Subsingleton := by
  refine htidy.anti fun path hpath => ?_
  obtain ⟨⟨⟨frame, hframe⟩, hshort, hleaf⟩, hne⟩ := hpath
  rw [hnode, if_neg (Set.notMem_singleton_iff.mp hne)] at hframe
  refine ⟨⟨⟨frame, hframe⟩, hshort, fun j => ?_⟩, ?_⟩
  · have hchild := hleaf j
    rw [hnode] at hchild
    split at hchild
    · cases hchild
    · exact hchild
  · rintro rfl
    have hchild := hleaf i
    rw [hnode, if_pos rfl] at hchild
    cases hchild

/-- A table that has an entry is not idle. -/
theorem tidy_follow {i next : Nat} (hnext : t.node (stop ++ [i]) = some next)
    (htidy : (idle t \ {stop}).Subsingleton) : (idle t \ {stop ++ [i]}).Subsingleton := by
  refine htidy.anti fun path hpath => ⟨hpath.1, ?_⟩
  rintro rfl
  have hchild := hpath.1.2.2 i
  rw [hnext] at hchild
  cases hchild

end Choice

/-! ### Two runs -/

/-- Two memories with one page table, in which at most one table is idle, that at `stop` apart; since
the counters stood at `count` and `count'` both have evicted equally often. -/
structure SameMapping (c : MemoryConstants) (count count' : Nat) (stop : List Nat) (t : FrameTree c)
    (m m' : Memory) : Prop where
  table : PageTable c m t none
  table' : PageTable c m' t none
  tidy : (idle t \ {stop}).Subsingleton
  counters : m.evictCounter + count' = m'.evictCounter + count

section Together

variable (hc : c.Valid) (hdepth : c.tablesDepth < c.numFrames) {count count' : Nat}
  {virtualAddress virtualAddress' : Nat} (haddress : virtualAddress < c.virtualMemorySize)
  (haddress' : virtualAddress' < c.virtualMemorySize)
  (hpage : virtualAddress / c.pageSize = virtualAddress' / c.pageSize)
include hc haddress haddress' hpage

/-- The way to a page does not depend on the word. -/
theorem addressPath_eq {level : Nat} (hlevel : level ≤ c.tablesDepth) :
    addressPath c virtualAddress level = addressPath c virtualAddress' level := by
  have hindices := indexPath_addressPath hc.offsetWidth_pos hc.offsetWidth_lt_virtual haddress
    c.tablesDepth
  have hindices' := indexPath_addressPath hc.offsetWidth_pos hc.offsetWidth_lt_virtual haddress'
    c.tablesDepth
  have hfull : addressPath c virtualAddress c.tablesDepth =
      addressPath c virtualAddress' c.tablesDepth := by
    refine digits_injective (by simp) hindices.1 hindices'.1 ?_
    calc digits c (addressPath c virtualAddress c.tablesDepth)
        = virtualAddress / c.pageSize :=
          digits_addressPath_tablesDepth hc.offsetWidth_pos hc.offsetWidth_lt_virtual haddress
      _ = digits c (addressPath c virtualAddress' c.tablesDepth) := by
          rw [hpage]
          exact (digits_addressPath_tablesDepth hc.offsetWidth_pos hc.offsetWidth_lt_virtual
            haddress').symm
  have hpre := addressPath_prefix (c := c) virtualAddress hlevel
  have hpre' := addressPath_prefix (c := c) virtualAddress' hlevel
  rw [← hfull] at hpre'
  exact (List.prefix_of_prefix_length_le hpre hpre' (by simp)).eq_of_length (by simp)

include hdepth

/-- A level of two translations for one page. -/
theorem together_translateLevel {level frame : Nat} {s s' : Machine} (hlevel : level < c.tablesDepth)
    (hsame : SameMapping c count count' (addressPath c virtualAddress level) t s.memory s'.memory)
    (hnode : t.node (addressPath c virtualAddress level) = some frame) :
    Together (Machine.Legal c)
      (translateLevel c virtualAddress (asInt (virtualAddress >>> c.offsetWidth)) (asInt frame) level)
      (translateLevel c virtualAddress' (asInt (virtualAddress' >>> c.offsetWidth)) (asInt frame)
        level) s s' fun word s₁ word' s₁' => ∃ (t₁ : FrameTree c) (next : Nat), word = asInt next ∧
      word' = asInt next ∧ t₁.node (addressPath c virtualAddress (level + 1)) = some next ∧
      SameMapping c count count' (addressPath c virtualAddress (level + 1)) t₁ s₁.memory
        s₁'.memory := by
  obtain ⟨ht, ht', htidy, hcounters⟩ := hsame
  have hway := addressPath_eq hc haddress haddress' hpage hlevel.le
  have hway' := addressPath_eq hc haddress haddress' hpage (Nat.succ_le_of_lt hlevel)
  have hnode' := hway ▸ hnode
  cases hnext : t.node (addressPath c virtualAddress (level + 1)) with
  | some next =>
      have hnext' := hway' ▸ hnext
      have hmapped := ensures_translateLevel_mapped hc haddress hlevel ht hnode hnext
      have hmapped' := ensures_translateLevel_mapped hc haddress' hlevel ht' hnode' hnext'
      refine (hmapped.together hmapped').mono ?_
      rintro word s₁ word' s₁' ⟨⟨rfl, hs₁⟩, rfl, hs₁'⟩
      refine ⟨t, next, rfl, rfl, hnext, ?_⟩
      rw [hs₁, hs₁']
      refine ⟨ht, ht', ?_, hcounters⟩
      rw [addressPath_succ] at hnext ⊢
      exact tidy_follow hnext htidy
  | none =>
      have hnext' := hway' ▸ hnext
      have hleft := frameLeft_of_depth hdepth ⟨_, hnode, by rwa [length_addressPath]⟩
      have hfault := ensures_translateLevel_fault hc haddress hlevel ht hleft hnode hnext
      have hfault' := ensures_translateLevel_fault hc haddress' hlevel ht' hleft hnode' hnext'
      refine (hfault.together hfault').mono ?_
      rintro word s₁ word' s₁' ⟨⟨m₁, t₁, found, t₂, rfl, hfault⟩, m₁', t₁', found', t₂', rfl, hfault'⟩
      obtain ⟨n, hchoice, hcounter⟩ := hfault.treeChoice hc ht
      obtain ⟨n', hchoice', hcounter'⟩ := hfault'.treeChoice hc ht'
      rw [← hpage] at hchoice'
      obtain ⟨rfl, rfl, rfl⟩ := hchoice.unique hc ht hnode htidy hchoice'
      have hsame : t₂' = t₂ := by
        refine PathTree.eq_of_node fun path => ?_
        rw [hfault'.node, hfault.node, hway']
      subst hsame
      refine ⟨t₂', found, rfl, rfl, ?_, hfault.table, hfault'.table, ?_, by omega⟩
      · rw [hfault.node, if_pos rfl]
      · have hlinked := hfault.node
        rw [addressPath_succ] at hlinked ⊢
        exact tidy_link hlinked (hchoice.tidy hnode htidy)

/-- The translations of two addresses of one page find it in the same frame. -/
theorem together_translateAddress {s s' : Machine}
    (hsame : SameMapping c count count' [] t s.memory s'.memory) :
    Together (Machine.Legal c) (translateAddress c virtualAddress) (translateAddress c virtualAddress')
      s s' fun frame s₁ frame' s₁' => ∃ t₁ : FrameTree c, frame' = frame ∧
      IsPage t₁ (addressPath c virtualAddress c.tablesDepth) frame ∧
      SameMapping c count count' (addressPath c virtualAddress c.tablesDepth) t₁ s₁.memory
        s₁'.memory := by
  unfold translateAddress
  refine (together_foldlM_range (fun level word (s : Machine) word' (s' : Machine) =>
    ∃ (t₁ : FrameTree c) (frame : Nat), word = asInt frame ∧ word' = asInt frame ∧
      t₁.node (addressPath c virtualAddress level) = some frame ∧
      SameMapping c count count' (addressPath c virtualAddress level) t₁ s.memory s'.memory)
    ?_ ?_).bind ?_
  · rintro level hlevel word s₁ word' s₁' ⟨t₁, frame, rfl, rfl, hnode, hsame₁⟩
    exact together_translateLevel hc hdepth haddress haddress' hpage hlevel hsame₁ hnode
  · exact ⟨t, 0, asInt_zero.symm, asInt_zero.symm, hsame.table.represents.root_node, hsame⟩
  · rintro word s₁ word' s₁' ⟨t₁, frame, rfl, rfl, hnode, hsame₁⟩
    refine together_pure ⟨t₁, rfl, ?_, hsame₁⟩
    rw [asUInt64_asInt ((hsame₁.table.frame_lt hnode).trans hc.numFrames_lt)]
    exact ⟨hnode, length_addressPath _ _⟩

end Together

/-! ### Calls -/

/-- What a call asks of the page table. -/
inductive Request where
  | init
  | page (number : Nat)
  | outOfRange
deriving DecidableEq

def VmCall.request (c : MemoryConstants) (call : VmCall) : Request :=
  match call.address? with
  | none => .init
  | some virtualAddress =>
      if c.virtualMemorySize - 1 < virtualAddress then .outOfRange
      else .page (virtualAddress / c.pageSize)

/-- Two memories between two calls. -/
def Mapped (c : MemoryConstants) (count count' : Nat) (m m' : Memory) : Prop :=
  ∃ t : FrameTree c, PageTable c m t none ∧ PageTable c m' t none ∧ (idle t).Subsingleton ∧
    m.evictCounter + count' = m'.evictCounter + count

/-- A page is not a table. -/
theorem tidy_page {path : List Nat} (hfull : path.length = c.tablesDepth)
    (htidy : (idle t \ {path}).Subsingleton) : (idle t).Subsingleton := by
  refine htidy.anti fun path' hidle => ⟨hidle, ?_⟩
  rintro rfl
  exact absurd hidle.2.1 (Nat.not_lt_of_le hfull.ge)

section Request

variable {call : VmCall}

theorem eq_init_of_request (hrequest : call.request c = .init) : call = .init := by
  unfold VmCall.request at hrequest
  cases call with
  | init => rfl
  | read virtualAddress =>
      simp only [VmCall.address?] at hrequest
      split at hrequest <;> cases hrequest
  | write virtualAddress value =>
      simp only [VmCall.address?] at hrequest
      split at hrequest <;> cases hrequest

theorem perform_of_outOfRange (hrequest : call.request c = .outOfRange) :
    ∃ result, call.perform c = pure result := by
  unfold VmCall.request at hrequest
  cases call with
  | init => cases hrequest
  | read virtualAddress =>
      simp only [VmCall.address?] at hrequest
      split at hrequest
      · rename_i hout
        refine ⟨.word none, ?_⟩
        rw [VmCall.perform, vmRead, if_pos hout]
        rfl
      · cases hrequest
  | write virtualAddress value =>
      simp only [VmCall.address?] at hrequest
      split at hrequest
      · rename_i hout
        refine ⟨.written false, ?_⟩
        rw [VmCall.perform, vmWrite, if_pos hout]
        rfl
      · cases hrequest

/-- What is done behind a translation leaves the mapping as it is. -/
def KeepsMapping (c : MemoryConstants) (virtualAddress : Nat) (rest : Nat → Vm VmResult) : Prop :=
  ∀ (t : FrameTree c) (frame : Nat) (s : Machine), PageTable c s.memory t none →
    IsPage t (addressPath c virtualAddress c.tablesDepth) frame →
    Ensures (Machine.Legal c) (rest frame) s fun _ s' =>
      PageTable c s'.memory t none ∧ s'.memory.evictCounter = s.memory.evictCounter

theorem perform_of_page (hc : c.Valid) {page : Nat} (hrequest : call.request c = .page page) :
    ∃ virtualAddress rest, virtualAddress < c.virtualMemorySize ∧
      virtualAddress / c.pageSize = page ∧
      call.perform c = (translateAddress c virtualAddress >>= rest) ∧
      KeepsMapping c virtualAddress rest := by
  have hsize : 0 < c.virtualMemorySize := Nat.two_pow_pos _
  have hwidth := hc.physicalAddressWidth_le
  have hoffsetWidth := hc.offsetWidth_lt_physical
  unfold VmCall.request at hrequest
  cases call with
  | init => cases hrequest
  | read virtualAddress =>
      simp only [VmCall.address?] at hrequest
      split at hrequest
      · cases hrequest
      · rename_i hin
        cases hrequest
        refine ⟨virtualAddress, fun frame => do
          let value ← pmRead c (frame * c.pageSize + findOffset c virtualAddress)
          pure (.word (some value)), by omega, rfl, ?_, ?_⟩
        · simp only [VmCall.perform, vmRead, if_neg hin, bind_assoc, pure_bind]
        · intro t frame s ht hpage
          rw [findOffset_eq (by omega)]
          refine (ensures_pmRead s (hc.entry_lt_ramSize (ht.frame_lt hpage.1)
            (Nat.mod_lt _ MemoryConstants.pageSize_pos))).bind ?_
          rintro word s₁ ⟨-, hs₁⟩
          refine ensures_pure ?_
          rw [hs₁]
          exact ⟨ht, rfl⟩
  | write virtualAddress value =>
      simp only [VmCall.address?] at hrequest
      split at hrequest
      · cases hrequest
      · rename_i hin
        cases hrequest
        have hoffset : virtualAddress % c.pageSize < c.pageSize :=
          Nat.mod_lt _ MemoryConstants.pageSize_pos
        refine ⟨virtualAddress, fun frame => do
          pmWrite c (frame * c.pageSize + findOffset c virtualAddress) value
          pure (.written true), by omega, rfl, ?_, ?_⟩
        · simp only [VmCall.perform, vmWrite, if_neg hin, bind_assoc, pure_bind]
        · intro t frame s ht hpage
          rw [findOffset_eq (by omega)]
          refine (ensures_pmWrite s (hc.entry_lt_ramSize (ht.frame_lt hpage.1) hoffset)).bind ?_
          rintro - s₁ ⟨hs₁, -⟩
          refine ensures_pure ?_
          rw [hs₁]
          exact ⟨ht.writePage hpage hoffset value, rfl⟩

end Request

/-! ### Runs -/

section Run

variable (hc : c.Valid) (hdepth : c.tablesDepth < c.numFrames) {count count' : Nat}
include hc

theorem together_vmInitialize {s s' : Machine}
    (hcounters : s.memory.evictCounter + count' = s'.memory.evictCounter + count) :
    Together (Machine.Legal c) (VmCall.perform c .init) (VmCall.perform c .init) s s'
      fun _ s₁ _ s₁' => Mapped c count count' s₁.memory s₁'.memory := by
  have hframes : 0 < c.numFrames := by
    rw [hc.numFrames_eq]
    exact Nat.two_pow_pos _
  have hinit := fun s => (ensures_vmInitialize hc s).and (ensures_initializeFrame_counter hc hframes s)
  refine ((hinit s).together (hinit s')).bind ?_
  rintro - s₁ - s₁' ⟨⟨ht, hcounter⟩, ht', hcounter'⟩
  refine together_pure ⟨_, ht, ht', ?_, by omega⟩
  have hroot : ∀ path ∈ idle (PathTree.single 0 : FrameTree c), path = [] := by
    rintro path ⟨⟨frame, hnode⟩, -, -⟩
    by_contra hne
    simp [PathTree.single, hne] at hnode
  intro path hpath path' hpath'
  rw [hroot path hpath, hroot path' hpath']

include hdepth

/-- The step lemma. -/
theorem together_perform {call call' : VmCall} (hsame : call.request c = call'.request c)
    {s s' : Machine} (hmapped : Mapped c count count' s.memory s'.memory) :
    Together (Machine.Legal c) (call.perform c) (call'.perform c) s s'
      fun _ s₁ _ s₁' => Mapped c count count' s₁.memory s₁'.memory := by
  obtain ⟨t, ht, ht', htidy, hcounters⟩ := hmapped
  cases hrequest : call.request c with
  | init =>
      obtain rfl := eq_init_of_request hrequest
      obtain rfl := eq_init_of_request (hsame.symm.trans hrequest)
      exact together_vmInitialize hc hcounters
  | outOfRange =>
      obtain ⟨result, hperform⟩ := perform_of_outOfRange hrequest
      obtain ⟨result', hperform'⟩ := perform_of_outOfRange (hsame.symm.trans hrequest)
      rw [hperform, hperform']
      exact together_pure ⟨t, ht, ht', htidy, hcounters⟩
  | page number =>
      obtain ⟨virtualAddress, rest, haddress, hpage, hperform, hrest⟩ := perform_of_page hc hrequest
      obtain ⟨virtualAddress', rest', haddress', hpage', hperform', hrest'⟩ :=
        perform_of_page hc (hsame.symm.trans hrequest)
      have hnumber := hpage.trans hpage'.symm
      have hway := addressPath_eq hc haddress haddress' hnumber le_rfl
      rw [hperform, hperform']
      refine (together_translateAddress hc hdepth haddress haddress' hnumber
        ⟨ht, ht', htidy.anti Set.sdiff_subset, hcounters⟩).bind ?_
      rintro frame s₁ frame' s₁' ⟨t₁, rfl, hpage₁, ht₁, ht₁', htidy₁, hcounters₁⟩
      refine ((hrest t₁ _ s₁ ht₁ hpage₁).together (hrest' t₁ _ s₁' ht₁' (hway ▸ hpage₁))).mono ?_
      rintro - s₂ - s₂' ⟨⟨ht₂, hcounter⟩, ht₂', hcounter'⟩
      exact ⟨t₁, ht₂, ht₂', tidy_page hpage₁.2 htidy₁, by omega⟩

/-- The run lemma. -/
theorem together_performAll (calls : List VmCall) :
    ∀ {calls' : List VmCall} {s s' : Machine},
      calls.map (VmCall.request c) = calls'.map (VmCall.request c) →
      Mapped c count count' s.memory s'.memory →
      Together (Machine.Legal c) (performAll c calls) (performAll c calls') s s'
        fun _ s₁ _ s₁' => Mapped c count count' s₁.memory s₁'.memory := by
  induction calls with
  | nil =>
      intro calls' s s' hsame hmapped
      obtain rfl := List.map_eq_nil_iff.mp hsame.symm
      exact together_pure hmapped
  | cons call calls ih =>
      intro calls' s s' hsame hmapped
      cases calls' with
      | nil => cases hsame
      | cons call' calls' =>
          obtain ⟨hhead, htail⟩ := List.cons.inj hsame
          refine (together_perform hc hdepth hhead hmapped).bind fun _ s₁ _ s₁' hmapped₁ => ?_
          exact (ih htail hmapped₁).bind fun _ _ _ _ hmapped₂ => together_pure hmapped₂

theorem together_run (m m' : Memory) {calls calls' : List VmCall}
    (hsame : calls.map (VmCall.request c) = calls'.map (VmCall.request c)) :
    ∃ results s results' s', performAll c (.init :: calls) m.machine = some (results, s) ∧
      performAll c (.init :: calls') m'.machine = some (results', s') ∧
      Mapped c m.evictCounter m'.evictCounter s.memory s'.memory := by
  have hrun : Together (Machine.Legal c) (performAll c (.init :: calls))
      (performAll c (.init :: calls')) m.machine m'.machine fun _ s _ s' =>
        Mapped c m.evictCounter m'.evictCounter s.memory s'.memory := by
    refine (together_vmInitialize hc (Nat.add_comm _ _)).bind fun _ s₁ _ s₁' hmapped => ?_
    exact (together_performAll hc hdepth calls hsame hmapped).bind
      fun _ _ _ _ hmapped₂ => together_pure hmapped₂
  obtain ⟨results, s, results', s', hperform, hperform', -, -, hmapped⟩ :=
    hrun (legal_machine m) (legal_machine m')
  exact ⟨results, s, results', s', hperform, hperform', hmapped⟩

end Run

/-- Two runs that ask for the same pages have every table and every page in the same frame and evict
equally often, whatever is in the memories, read or written. -/
theorem mapping_independent (hc : c.Valid) (hdepth : c.tablesDepth < c.numFrames) (m m' : Memory)
    {calls calls' : List VmCall}
    (hsame : calls.map (VmCall.request c) = calls'.map (VmCall.request c)) :
    ∃ results s results' s', performAll c (.init :: calls) m.machine = some (results, s) ∧
      performAll c (.init :: calls') m'.machine = some (results', s') ∧
      (∀ path, path.length ≤ c.tablesDepth →
        walk (entry c s'.memory) 0 path = walk (entry c s.memory) 0 path) ∧
      s.memory.evictCounter + m'.evictCounter = s'.memory.evictCounter + m.evictCounter := by
  obtain ⟨results, s, results', s', hperform, hperform', t, ht, ht', -, hcounters⟩ :=
    together_run hc hdepth m m' hsame
  refine ⟨results, s, results', s', hperform, hperform', fun path hlength => ?_, hcounters⟩
  rw [ht.represents.walk_eq path hlength, ht'.represents.walk_eq path hlength]

/-- A run that writes and one that reads, with a restart and an address out of range in both. -/
theorem mapping_independent_given : ∃ results s results' s',
    performAll .given [.init, .write 5 9, .read 2000000, .init, .read 70000]
      (Memory.machine ⟨fun _ _ => 1, fun _ => none, 0⟩) = some (results, s) ∧
    performAll .given [.init, .read 6, .write 1500000 3, .init, .write 70001 4]
      (Memory.machine ⟨fun _ _ => 7, fun _ => some fun _ => 2, 3⟩) = some (results', s') ∧
    (∀ path, path.length ≤ MemoryConstants.given.tablesDepth →
      walk (entry .given s'.memory) 0 path = walk (entry .given s.memory) 0 path) ∧
    s.memory.evictCounter + 3 = s'.memory.evictCounter + 0 :=
  mapping_independent MemoryConstants.valid_given given_tablesDepth_lt _ _
    (by decide : List.map (VmCall.request .given) [.write 5 9, .read 2000000, .init, .read 70000] =
      List.map (VmCall.request .given) [.read 6, .write 1500000 3, .init, .write 70001 4])

/-- Between two calls at most one table is empty. -/
theorem one_empty_table (hc : c.Valid) (hdepth : c.tablesDepth < c.numFrames) (m : Memory)
    (calls : List VmCall) :
    ∃ results s, performAll c (.init :: calls) m.machine = some (results, s) ∧
      ∀ frame frame', IsTable c s.memory frame → IsTable c s.memory frame' →
        (∀ i < c.pageSize, s.memory.ram frame i = 0) →
        (∀ i < c.pageSize, s.memory.ram frame' i = 0) → frame = frame' := by
  obtain ⟨results, s, results', s', hperform, -, t, ht, -, htidy, -⟩ :=
    together_run hc hdepth m m (rfl : calls.map (VmCall.request c) = _)
  have hidle : ∀ path frame, path.length < c.tablesDepth → t.node path = some frame →
      (∀ i < c.pageSize, s.memory.ram frame i = 0) → path ∈ idle t := by
    intro path frame hshort hnode hempty
    refine ⟨⟨frame, hnode⟩, hshort, fun i => ?_⟩
    rw [ht.represents.child_node i hnode hshort, entry, if_neg]
    exact fun hentry => hentry.2 (hempty i hentry.1)
  refine ⟨results, s, hperform, fun frame frame' htable htable' hempty hempty' => ?_⟩
  obtain ⟨path, hshort, hnode⟩ := (ht.isTable_iff frame).mp htable
  obtain ⟨path', hshort', hnode'⟩ := (ht.isTable_iff frame').mp htable'
  have hpath := htidy (hidle path frame hshort hnode hempty) (hidle path' frame' hshort' hnode' hempty')
  subst hpath
  exact Option.some.inj (hnode.symm.trans hnode')

theorem one_empty_table_given : ∃ results s,
    performAll .given [.init, .write 5 9, .read 70000]
      (Memory.machine ⟨fun _ _ => 1, fun _ => none, 0⟩) = some (results, s) ∧
    ∀ frame frame', IsTable .given s.memory frame → IsTable .given s.memory frame' →
      (∀ i < MemoryConstants.given.pageSize, s.memory.ram frame i = 0) →
      (∀ i < MemoryConstants.given.pageSize, s.memory.ram frame' i = 0) → frame = frame' :=
  one_empty_table MemoryConstants.valid_given given_tablesDepth_lt _ [.write 5 9, .read 70000]

end OsExercises.VirtualMemory
