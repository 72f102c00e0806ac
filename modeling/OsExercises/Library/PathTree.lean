import Mathlib.Data.Finset.Card
import Mathlib.Logic.Function.Basic

/-!
# Trees held in a pointer structure

A pointer structure is a function `child` from a node and an index to the node the pointer at that
index names, if there is one. `PathTree` is the tree such a structure spells out from its root: the
nodes by their paths, no node at two paths, no path longer than the depth. Pointers of the nodes at
full depth are not followed, so those nodes may hold anything.

Detaching a node without children and attaching a fresh node are the two changes; `Represents` ties
a tree to a pointer structure and has one rule for each of them and one for pointers outside the tree.
-/

namespace OsExercises

variable {N I : Type} {depth : Nat}

/-- Follow a path of indices from a node. -/
def walk (child : N → I → Option N) (start : N) : List I → Option N
  | [] => some start
  | i :: path => (child start i).bind fun next => walk child next path

theorem walk_append (child : N → I → Option N) (start : N) (path rest : List I) :
    walk child start (path ++ rest) = (walk child start path).bind fun n => walk child n rest := by
  induction path generalizing start with
  | nil => rfl
  | cons i path ih =>
      rw [List.cons_append, walk, walk]
      cases child start i with
      | none => rfl
      | some next => exact ih next

theorem walk_concat (child : N → I → Option N) (start : N) (path : List I) (i : I) :
    walk child start (path ++ [i]) = (walk child start path).bind fun n => child n i := by
  rw [walk_append]
  congr 1
  funext n
  cases hchild : child n i <;> simp [walk, hchild]

/-- Where every pointer leads to a node placed one index further down, a walk ends in the node placed
at its path. -/
theorem place_of_walk {child : N → I → Option N} {root : N} (reached : N → Prop)
    {place : N → List I} (hroot : reached root) (hempty : place root = [])
    (hchild : ∀ {n i next}, reached n → (place n).length < depth → child n i = some next →
      reached next ∧ place next = place n ++ [i])
    {path : List I} {n : N} (hlength : path.length ≤ depth) (hwalk : walk child root path = some n) :
    reached n ∧ place n = path := by
  induction path using List.reverseRecOn generalizing n with
  | nil =>
      obtain rfl := Option.some.inj hwalk
      exact ⟨hroot, hempty⟩
  | append_singleton path i ih =>
      rw [List.length_append, List.length_singleton] at hlength
      rw [walk_concat] at hwalk
      obtain ⟨parent, hparent, hnext⟩ := Option.bind_eq_some_iff.mp hwalk
      obtain ⟨hreached, rfl⟩ := ih (by omega) hparent
      exact hchild hreached (by omega) hnext

/-- The nodes of a tree by their paths. -/
structure PathTree (N I : Type) (depth : Nat) where
  node : List I → Option N
  parent_of_node : ∀ {path i n}, node (path ++ [i]) = some n → ∃ parent, node path = some parent
  node_injective : ∀ {path path' n}, node path = some n → node path' = some n → path = path'
  length_le : ∀ {path n}, node path = some n → path.length ≤ depth

namespace PathTree

variable (t : PathTree N I depth)

theorem eq_of_node {t t' : PathTree N I depth} (hnode : ∀ path, t.node path = t'.node path) :
    t = t' := by
  have hfun : t.node = t'.node := funext hnode
  cases t
  cases t'
  cases hfun
  rfl

theorem node_eq_none_of_length {path : List I} (hlength : depth < path.length) :
    t.node path = none := by
  by_contra hsome
  obtain ⟨n, hn⟩ := Option.ne_none_iff_exists'.mp hsome
  exact absurd (t.length_le hn) (Nat.not_le_of_lt hlength)

theorem node_of_append {path rest : List I} {n : N} (hnode : t.node (path ++ rest) = some n) :
    ∃ m, t.node path = some m := by
  induction rest using List.reverseRecOn generalizing n with
  | nil => exact ⟨n, by rwa [List.append_nil] at hnode⟩
  | append_singleton rest i ih =>
      rw [← List.append_assoc] at hnode
      obtain ⟨parent, hparent⟩ := t.parent_of_node hnode
      exact ih hparent

/-- A childless path is not passed on the way to another node. -/
theorem ne_of_childless {stop leaf path : List I} {n : N} (hstop : t.node stop = some n)
    (hleaf : ∀ i, t.node (leaf ++ [i]) = none) (hne : leaf ≠ stop) (hpre : path <+: stop) :
    path ≠ leaf := by
  rintro rfl
  obtain ⟨rest, rfl⟩ := hpre
  cases rest with
  | nil => exact hne (List.append_nil path).symm
  | cons i rest =>
      obtain ⟨m, hm⟩ := t.node_of_append
        (show t.node (path ++ [i] ++ rest) = some n by simpa using hstop)
      rw [hleaf i] at hm
      cases hm

theorem node_concat_eq_none {path : List I} (hfull : path.length = depth) (i : I) :
    t.node (path ++ [i]) = none := by
  by_contra hsome
  obtain ⟨n, hn⟩ := Option.ne_none_iff_exists'.mp hsome
  have hlength := t.length_le hn
  rw [List.length_append, List.length_singleton] at hlength
  omega

/-- The tree of a root without children. -/
def single [DecidableEq I] (root : N) : PathTree N I depth where
  node path := if path = [] then some root else none
  parent_of_node {path i n} hnode := by simp at hnode
  node_injective {path path' n} hpath hpath' := by
    by_cases h : path = [] <;> by_cases h' : path' = [] <;> simp_all
  length_le {path n} hnode := by
    by_cases h : path = [] <;> simp_all

section Update

variable [DecidableEq I]

/-- The tree without a node that has no children. -/
def detach (leaf : List I) (hleaf : ∀ i, t.node (leaf ++ [i]) = none) : PathTree N I depth where
  node := Function.update t.node leaf none
  parent_of_node {path i n} hnode := by
    by_cases hpath : path = leaf
    · subst hpath
      rw [Function.update_of_ne (by simp), hleaf i] at hnode
      cases hnode
    · rw [Function.update_of_ne hpath]
      by_cases hconcat : path ++ [i] = leaf
      · simp [hconcat] at hnode
      · rw [Function.update_of_ne hconcat] at hnode
        exact t.parent_of_node hnode
  node_injective {path path' n} hpath hpath' := by
    by_cases h : path = leaf <;> by_cases h' : path' = leaf <;>
      simp_all only [Function.update_self, reduceCtorEq, ne_eq, not_false_eq_true,
        Function.update_of_ne]
    exact t.node_injective hpath hpath'
  length_le {path n} hnode := by
    by_cases h : path = leaf
    · simp [h] at hnode
    · rw [Function.update_of_ne h] at hnode
      exact t.length_le hnode

/-- The tree with a fresh node below an existing one. -/
def attach (path : List I) (i : I) (n : N) (hparent : ∃ parent, t.node path = some parent)
    (hlength : path.length < depth) (hchildless : ∀ j, t.node (path ++ [i] ++ [j]) = none)
    (hfresh : ∀ path', t.node path' ≠ some n) : PathTree N I depth where
  node := Function.update t.node (path ++ [i]) (some n)
  parent_of_node {path' j m} hnode := by
    by_cases heq : path' = path ++ [i]
    · exact ⟨n, by rw [heq, Function.update_self]⟩
    · rw [Function.update_of_ne heq]
      by_cases hconcat : path' ++ [j] = path ++ [i]
      · obtain ⟨rfl, -⟩ := List.append_inj' hconcat rfl
        exact hparent
      · rw [Function.update_of_ne hconcat] at hnode
        exact t.parent_of_node hnode
  node_injective {path₁ path₂ m} h₁ h₂ := by
    by_cases heq₁ : path₁ = path ++ [i] <;> by_cases heq₂ : path₂ = path ++ [i]
    · rw [heq₁, heq₂]
    · rw [heq₁, Function.update_self] at h₁
      rw [Function.update_of_ne heq₂, ← h₁] at h₂
      exact absurd h₂ (hfresh path₂)
    · rw [heq₂, Function.update_self] at h₂
      rw [Function.update_of_ne heq₁, ← h₂] at h₁
      exact absurd h₁ (hfresh path₁)
    · rw [Function.update_of_ne heq₁] at h₁
      rw [Function.update_of_ne heq₂] at h₂
      exact t.node_injective h₁ h₂
  length_le {path' m} hnode := by
    by_cases heq : path' = path ++ [i]
    · rw [heq, List.length_append, List.length_singleton]
      omega
    · rw [Function.update_of_ne heq] at hnode
      exact t.length_le hnode

theorem detach_node (leaf : List I) (hleaf : ∀ i, t.node (leaf ++ [i]) = none) (path : List I) :
    (t.detach leaf hleaf).node path = if path = leaf then none else t.node path :=
  Function.update_apply t.node leaf none path

theorem node_of_detach {leaf path : List I} {n : N} (hleaf : ∀ i, t.node (leaf ++ [i]) = none)
    (hnode : (t.detach leaf hleaf).node path = some n) : path ≠ leaf ∧ t.node path = some n := by
  rw [detach_node] at hnode
  split at hnode
  · cases hnode
  · exact ⟨‹_›, hnode⟩

theorem attach_node {path : List I} {i : I} {n : N}
    (hparent : ∃ parent, t.node path = some parent) (hlength : path.length < depth)
    (hchildless : ∀ j, t.node (path ++ [i] ++ [j]) = none)
    (hfresh : ∀ path', t.node path' ≠ some n) (path' : List I) :
    (t.attach path i n hparent hlength hchildless hfresh).node path' =
      if path' = path ++ [i] then some n else t.node path' :=
  Function.update_apply t.node (path ++ [i]) (some n) path'

end Update

/-! ### Childless nodes and the size of the tree -/

section Count

variable {stop : List I}

/-- If every node except the one at `stop` has a child until the full depth, then below any node
that `stop` does not pass there is a node at full depth. -/
theorem exists_full_of_bypass
    (hgrow : ∀ path n, t.node path = some n → path.length < depth → path ≠ stop →
      ∃ i m, t.node (path ++ [i]) = some m) :
    ∀ (missing : Nat) (path : List I) (n : N), depth - path.length = missing →
      t.node path = some n → ¬ path <+: stop →
      ∃ full m, t.node full = some m ∧ full.length = depth := by
  intro missing
  induction missing with
  | zero =>
      intro path n hmissing hnode _
      exact ⟨path, n, hnode, le_antisymm (t.length_le hnode) (by omega)⟩
  | succ missing ih =>
      intro path n hmissing hnode hpre
      have hne : path ≠ stop := fun heq => hpre (heq ▸ List.prefix_refl _)
      obtain ⟨i, m, hchild⟩ := hgrow path n hnode (by omega) hne
      refine ih (path ++ [i]) m ?_ hchild ?_
      · rw [List.length_append, List.length_singleton]
        omega
      · exact fun hconcat => hpre ((List.prefix_append path [i]).trans hconcat)

/-- Each node of the tree takes one of the nodes above it, and itself. -/
theorem length_lt_card {path : List I} {n : N} (hnode : t.node path = some n) (nodes : Finset N)
    (hnodes : ∀ path n, t.node path = some n → n ∈ nodes) : path.length < nodes.card := by
  have habove : ∀ length ∈ Finset.range (path.length + 1), ∃ m, t.node (path.take length) = some m := by
    intro length _
    rw [← List.take_append_drop length path] at hnode
    exact t.node_of_append hnode
  have : Nonempty N := ⟨n⟩
  choose! above habove using habove
  have hinj : Set.InjOn above (Finset.range (path.length + 1)) := by
    intro length hlength length' hlength' heq
    have hle := Finset.mem_range.mp (Finset.mem_coe.mp hlength)
    have hle' := Finset.mem_range.mp (Finset.mem_coe.mp hlength')
    have hsame := habove length hlength
    rw [heq] at hsame
    have htake := congrArg List.length (t.node_injective hsame (habove length' hlength'))
    rw [List.length_take, List.length_take] at htake
    omega
  have hcard := Finset.card_le_card_of_injOn above
    (fun length hlength => hnodes _ _ (habove length hlength)) hinj
  rw [Finset.card_range] at hcard
  omega

/-- A tree whose paths are all prefixes of one path has at most one node for each of its lengths. -/
theorem card_le_of_chain (nodes : Finset N)
    (hnodes : ∀ n ∈ nodes, ∃ path, t.node path = some n ∧ path <+: stop) :
    nodes.card ≤ stop.length + 1 := by
  classical
  choose! path hnode hpre using hnodes
  have hmaps : ∀ n ∈ nodes, (path n).length ∈ Finset.range (stop.length + 1) := fun n hn => by
    have := (hpre n hn).length_le
    rw [Finset.mem_range]
    omega
  have hinj : Set.InjOn (fun n => (path n).length) nodes := by
    intro n hn m hm hlength
    have hpath : path n = path m :=
      (List.prefix_of_prefix_length_le (hpre n hn) (hpre m hm) hlength.le).eq_of_length hlength
    have hsome := (hnode n hn).symm.trans (hpath ▸ hnode m hm)
    exact Option.some.inj hsome
  simpa using Finset.card_le_card_of_injOn _ hmaps hinj

end Count

/-! ### The tree of a pointer structure -/

/-- The tree spells out what the pointers from `root` reach. -/
structure Represents (child : N → I → Option N) (root : N) (t : PathTree N I depth) : Prop where
  root_node : t.node [] = some root
  child_node : ∀ {path n} (i : I), t.node path = some n → path.length < depth →
    t.node (path ++ [i]) = child n i

namespace Represents

variable {t} {child child' : N → I → Option N} {root : N}

/-- The tree is nothing but the walks from the root. -/
theorem walk_eq (hrep : Represents child root t) (path : List I) (hlength : path.length ≤ depth) :
    walk child root path = t.node path := by
  induction path using List.reverseRecOn with
  | nil => exact hrep.root_node.symm
  | append_singleton path i ih =>
      rw [List.length_append, List.length_singleton] at hlength
      rw [walk_concat, ih (by omega)]
      cases hnode : t.node path with
      | none =>
          cases hconcat : t.node (path ++ [i]) with
          | none => rfl
          | some m =>
              obtain ⟨parent, hparent⟩ := t.parent_of_node hconcat
              rw [hnode] at hparent
              cases hparent
      | some n => exact (hrep.child_node i hnode (by omega)).symm

/-- Pointers spell out one tree. -/
theorem unique {t' : PathTree N I depth} (hrep : Represents child root t)
    (hrep' : Represents child root t') : t = t' := by
  refine eq_of_node fun path => ?_
  rcases Nat.lt_or_ge depth path.length with hlong | hlength
  · rw [t.node_eq_none_of_length hlong, t'.node_eq_none_of_length hlong]
  · rw [← hrep.walk_eq path hlength, hrep'.walk_eq path hlength]

/-- Pointers of nodes outside the tree, or at full depth, do not matter. -/
theorem congr (hrep : Represents child root t)
    (hagree : ∀ path n i, t.node path = some n → path.length < depth → child' n i = child n i) :
    Represents child' root t :=
  ⟨hrep.root_node, fun i hnode hlength => by
    rw [hrep.child_node i hnode hlength, hagree _ _ i hnode hlength]⟩

theorem single [DecidableEq I] (hnone : ∀ i, child root i = none) :
    Represents child root (PathTree.single root : PathTree N I depth) where
  root_node := rfl
  child_node {path n} i hnode _ := by
    by_cases hpath : path = []
    · subst hpath
      cases hnode
      rw [hnone i]
      rfl
    · simp [PathTree.single, hpath] at hnode

section Update

variable [DecidableEq I]

/-- Clearing the pointer to a node without children detaches it. -/
theorem detach (hrep : Represents child root t) {path : List I} {i : I} {n : N}
    (hnode : t.node path = some n) (hleaf : ∀ j, t.node (path ++ [i] ++ [j]) = none)
    (hclear : child' n i = none) (hframe : ∀ m j, (m ≠ n ∨ j ≠ i) → child' m j = child m j) :
    Represents child' root (t.detach (path ++ [i]) hleaf) where
  root_node := by
    rw [detach_node, if_neg (by simp)]
    exact hrep.root_node
  child_node {path' m} j hnode' hlength := by
    rw [detach_node] at hnode'
    split at hnode'
    · cases hnode'
    · rw [detach_node]
      by_cases heq : path' ++ [j] = path ++ [i]
      · obtain ⟨rfl, hsingle⟩ := List.append_inj' heq rfl
        obtain rfl := List.singleton_injective hsingle
        rw [hnode] at hnode'
        cases hnode'
        rw [if_pos rfl, hclear]
      · rw [if_neg heq, hrep.child_node j hnode' hlength, hframe]
        by_contra hsame
        rw [not_or, not_not, not_not] at hsame
        obtain ⟨rfl, rfl⟩ := hsame
        exact heq (by rw [t.node_injective hnode' hnode])

/-- Setting a pointer to a fresh node without pointers attaches it. -/
theorem attach (hrep : Represents child root t) {path : List I} {i : I} {n g : N}
    (hnode : t.node path = some n) (hlength : path.length < depth)
    (hchildless : ∀ j, t.node (path ++ [i] ++ [j]) = none)
    (hfresh : ∀ path', t.node path' ≠ some g) (hset : child' n i = some g)
    (hempty : path.length + 1 < depth → ∀ j, child' g j = none)
    (hframe : ∀ m j, m ≠ g → (m ≠ n ∨ j ≠ i) → child' m j = child m j) :
    Represents child' root (t.attach path i g ⟨n, hnode⟩ hlength hchildless hfresh) where
  root_node := by
    rw [attach_node, if_neg (by simp)]
    exact hrep.root_node
  child_node {path' m} j hnode' hlength' := by
    rw [attach_node] at hnode'
    split at hnode'
    · rename_i heq
      cases hnode'
      subst heq
      rw [List.length_append, List.length_singleton] at hlength'
      rw [attach_node, if_neg (by simp), hchildless, hempty hlength']
    · rename_i hne
      have hmg : m ≠ g := fun heq => hfresh path' (heq ▸ hnode')
      rw [attach_node]
      by_cases heq : path' ++ [j] = path ++ [i]
      · obtain ⟨rfl, hsingle⟩ := List.append_inj' heq rfl
        obtain rfl := List.singleton_injective hsingle
        rw [hnode] at hnode'
        cases hnode'
        rw [if_pos rfl, hset]
      · rw [if_neg heq, hrep.child_node j hnode' hlength', hframe m j hmg]
        by_contra hsame
        rw [not_or, not_not, not_not] at hsame
        obtain ⟨rfl, rfl⟩ := hsame
        exact heq (by rw [t.node_injective hnode' hnode])

end Update

end Represents

end PathTree

end OsExercises
