import OsExercises.Library.Simulation
import Mathlib.Data.List.Nodup

/-!
# Lists of nodes and loops with cursors

A linked list such as `std::list` is a list of nodes with identities. A cursor is a node or the end
of the list, and it may be used only as long as its node is in the list. A loop with a cursor reads
the node, may change the list and goes on to the next node; as long as no node is erased in a round
that goes on, the loop follows one over the values that the list had at its start.
-/

namespace OsExercises

/-- The nodes in order, each with its value. A node never gets the identity of an erased one. -/
structure NodeList (α : Type) where
  cells : List (Nat × α)
  nextNode : Nat
  nodup : (cells.map Prod.fst).Nodup
  lt_nextNode : ∀ node ∈ cells.map Prod.fst, node < nextNode

namespace NodeList

variable {α : Type} (l : NodeList α)

def values : List α := l.cells.map Prod.snd

/-- `none` is `end ()`. -/
def begin : Option Nat := l.cells.head?.map Prod.fst

/-- The value of a node that is in the list. -/
def get? (node : Nat) : Option α := (l.cells.find? fun cell => cell.1 = node).map Prod.snd

/-- The cursor behind a node that is in the list. -/
def next? (node : Nat) : Option (Option Nat) :=
  match l.cells.dropWhile fun cell => cell.1 ≠ node with
  | [] => none
  | _ :: rest => some (rest.head?.map Prod.fst)

def set (node : Nat) (value : α) : NodeList α where
  cells := l.cells.map fun cell => (cell.1, if cell.1 = node then value else cell.2)
  nextNode := l.nextNode
  nodup := by simpa [Function.comp_def] using l.nodup
  lt_nextNode := by simpa [Function.comp_def] using l.lt_nextNode

def erase (node : Nat) : NodeList α where
  cells := l.cells.filter fun cell => cell.1 ≠ node
  nextNode := l.nextNode
  nodup := l.nodup.sublist (List.filter_sublist.map Prod.fst)
  lt_nextNode := fun node' hmem =>
    l.lt_nextNode node' ((List.filter_sublist.map Prod.fst).subset hmem)

def pushBack (value : α) : NodeList α where
  cells := l.cells ++ [(l.nextNode, value)]
  nextNode := l.nextNode + 1
  nodup := by
    rw [List.map_append, List.map_singleton, List.nodup_append]
    refine ⟨l.nodup, List.nodup_singleton _, fun node hnode node' hnew heq => ?_⟩
    have hlt := l.lt_nextNode node hnode
    rw [heq, List.mem_singleton.mp hnew] at hlt
    exact Nat.lt_irrefl _ hlt
  lt_nextNode := by
    intro node hmem
    rw [List.map_append, List.map_singleton] at hmem
    rcases List.mem_append.mp hmem with hold | hnew
    · exact Nat.lt_succ_of_lt (l.lt_nextNode node hold)
    · rw [List.mem_singleton.mp hnew]
      exact Nat.lt_succ_self _

def popFront : NodeList α where
  cells := l.cells.tail
  nextNode := l.nextNode
  nodup := l.nodup.sublist ((List.tail_sublist _).map Prod.fst)
  lt_nextNode := fun node hmem =>
    l.lt_nextNode node (((List.tail_sublist _).map Prod.fst).subset hmem)

def clear : NodeList α where
  cells := []
  nextNode := l.nextNode
  nodup := List.nodup_nil
  lt_nextNode := fun _ hmem => by cases hmem

/-- A list with nodes of its own for given values. -/
def ofValues (values : List α) : NodeList α :=
  values.foldl pushBack ⟨[], 0, List.nodup_nil, fun _ hmem => by cases hmem⟩

@[simp]
theorem values_pushBack (value : α) : (l.pushBack value).values = l.values ++ [value] := by
  simp [values, pushBack]

@[simp]
theorem values_popFront : l.popFront.values = l.values.tail := by
  simp [values, popFront]

theorem values_ofValues (values : List α) : (ofValues values).values = values := by
  have hfold : ∀ (rest : List α) (l : NodeList α),
      (rest.foldl pushBack l).values = l.values ++ rest := by
    intro rest
    induction rest with
    | nil => exact fun l => (List.append_nil _).symm
    | cons value rest ih =>
        intro l
        rw [List.foldl_cons, ih, values_pushBack, List.append_assoc]
        rfl
  rw [ofValues, hfold]
  rfl

/-! ### At a node -/

section At

variable {l} {before after : List (Nat × α)} {node : Nat} {value : α}
  (hcells : l.cells = before ++ (node, value) :: after)
include hcells

theorem ne_of_mem_before {cell : Nat × α} (hmem : cell ∈ before) : cell.1 ≠ node := by
  have hnodup := l.nodup
  rw [hcells, List.map_append, List.nodup_append] at hnodup
  exact hnodup.2.2 cell.1 (List.mem_map_of_mem hmem) node (by simp)

theorem ne_of_mem_after {cell : Nat × α} (hmem : cell ∈ after) : cell.1 ≠ node := by
  have hnodup := l.nodup
  rw [hcells, List.map_append, List.map_cons, List.nodup_append] at hnodup
  have hfresh := (List.nodup_cons.mp hnodup.2.1).1
  intro heq
  exact hfresh (List.mem_map.mpr ⟨cell, hmem, heq⟩)

theorem get?_eq : l.get? node = some value := by
  have hbefore : before.find? (fun cell => decide (cell.1 = node)) = none := by
    rw [List.find?_eq_none]
    intro cell hmem
    simpa using ne_of_mem_before hcells hmem
  rw [get?, hcells, List.find?_append, hbefore, Option.none_or, List.find?_cons_of_pos (by simp)]
  rfl

theorem next?_eq : l.next? node = some (after.head?.map Prod.fst) := by
  have hdrop : l.cells.dropWhile (fun cell => decide (cell.1 ≠ node)) = (node, value) :: after := by
    rw [hcells, List.dropWhile_append_of_pos]
    · rw [List.dropWhile_cons_of_neg (by simp)]
    · intro cell hmem
      simpa using ne_of_mem_before hcells hmem
  rw [next?, hdrop]

theorem cells_erase : (l.erase node).cells = before ++ after := by
  have hbefore : before.filter (fun cell => decide (cell.1 ≠ node)) = before := by
    rw [List.filter_eq_self]
    intro cell hmem
    simpa using ne_of_mem_before hcells hmem
  have hafter : after.filter (fun cell => decide (cell.1 ≠ node)) = after := by
    rw [List.filter_eq_self]
    intro cell hmem
    simpa using ne_of_mem_after hcells hmem
  change l.cells.filter (fun cell => decide (cell.1 ≠ node)) = _
  rw [hcells, List.filter_append, hbefore, List.filter_cons_of_neg (by simp), hafter]

theorem cells_set (value' : α) : (l.set node value').cells = before ++ (node, value') :: after := by
  have hsame : ∀ cells : List (Nat × α), (∀ cell ∈ cells, cell.1 ≠ node) →
      cells.map (fun cell => (cell.1, if cell.1 = node then value' else cell.2)) = cells := by
    intro cells hne
    conv_rhs => rw [← List.map_id cells]
    apply List.map_congr_left
    intro cell hmem
    rw [if_neg (hne cell hmem)]
    rfl
  change l.cells.map (fun cell => (cell.1, if cell.1 = node then value' else cell.2)) = _
  rw [hcells, List.map_append, List.map_cons, if_pos rfl, hsame before fun _ => ne_of_mem_before hcells,
    hsame after fun _ => ne_of_mem_after hcells]

/-- The node that is erased is that of the first such value, if there is only one. -/
theorem values_erase [DecidableEq α] (hvalues : l.values.Nodup) :
    (l.erase node).values = l.values.erase value := by
  have hsplit : l.values = before.map Prod.snd ++ value :: after.map Prod.snd := by
    rw [values, hcells, List.map_append, List.map_cons]
  rw [hsplit, List.nodup_append] at hvalues
  have hfresh : value ∉ before.map Prod.snd := fun hmem =>
    hvalues.2.2 value hmem value List.mem_cons_self rfl
  rw [hsplit, List.erase_append_right _ hfresh, List.erase_cons_head, values, cells_erase hcells,
    List.map_append]

end At

theorem get?_erase (node : Nat) : (l.erase node).get? node = none := by
  rw [get?, erase, List.find?_eq_none.mpr]
  · rfl
  · intro cell hmem
    simpa using (List.mem_filter.mp hmem).2

end NodeList

/-! ### Cursors -/

/-- What can go wrong with a cursor. The rounds of a loop are counted by the nodes at its start, and
a loop that makes more of them is `endless`. -/
inductive CursorFault where
  | erasedNode (node : Nat)
  | endless
deriving DecidableEq

/-- A list that is a part of a state, with the faults of its cursors. -/
structure ListIn (σ ε α : Type) where
  view : σ → NodeList α
  update : NodeList α → σ → σ
  fault : CursorFault → ε

namespace ListIn

variable {σ τ ε α β γ : Type} (list : ListIn σ ε α)

/-- `*it`. -/
def deref (node : Nat) : StateT σ (Except ε) α := fun s =>
  match (list.view s).get? node with
  | some value => .ok (value, s)
  | none => .error (list.fault (.erasedNode node))

/-- `*it = value`. -/
def assign (node : Nat) (value : α) : StateT σ (Except ε) Unit := fun s =>
  match (list.view s).get? node with
  | some _ => .ok ((), list.update ((list.view s).set node value) s)
  | none => .error (list.fault (.erasedNode node))

/-- `++it`. -/
def next (node : Nat) : StateT σ (Except ε) (Option Nat) := fun s =>
  match (list.view s).next? node with
  | some it => .ok (it, s)
  | none => .error (list.fault (.erasedNode node))

def erase (node : Nat) : StateT σ (Except ε) Unit := fun s =>
  match (list.view s).get? node with
  | some _ => .ok ((), list.update ((list.view s).erase node) s)
  | none => .error (list.fault (.erasedNode node))

/-- The rounds from a cursor on. A round that leaves the loop has a result. -/
def rounds (body : Nat → StateT σ (Except ε) (Option β)) :
    Nat → Option Nat → StateT σ (Except ε) (Option β)
  | _, none => pure none
  | 0, some _ => fun _ => .error (list.fault .endless)
  | n + 1, some node => do
      match ← body node with
      | some result => pure (some result)
      | none => do
          let it ← list.next node
          rounds body n it

/-- `for (auto it = list.begin (); it != list.end (); ++it)`. -/
def loop (body : Nat → StateT σ (Except ε) (Option β)) : StateT σ (Except ε) (Option β) := fun s =>
  list.rounds body (list.view s).cells.length (list.view s).begin s

/-- A loop that no round leaves. -/
def forEach (step : Nat → StateT σ (Except ε) Unit) : StateT σ (Except ε) Unit := do
  let _ ← list.loop fun it => do
    step it
    pure (none : Option Unit)

/-- The loop over the values of a list. -/
def overValues (round : α → StateT τ Option (Option γ)) : List α → StateT τ Option (Option γ)
  | [] => pure none
  | value :: values => do
      match ← round value with
      | some result => pure (some result)
      | none => overValues round values

/-- Both sides go on, or both leave. -/
inductive Ends (going : σ → τ → Prop) (left : β → σ → γ → τ → Prop) :
    Option β → σ → Option γ → τ → Prop where
  | goesOn {s : σ} {t : τ} : going s t → Ends going left none s none t
  | leaves {result : β} {s : σ} {image : γ} {t : τ} :
      left result s image t → Ends going left (some result) s (some image) t

variable {list}

section Node

variable {s : σ} {before after : List (Nat × α)} {node : Nat} {value : α}
  (hcells : (list.view s).cells = before ++ (node, value) :: after)
include hcells

theorem run_deref : list.deref node s = .ok (value, s) := by
  rw [deref, NodeList.get?_eq hcells]

theorem run_assign (value' : α) :
    list.assign node value' s = .ok ((), list.update ((list.view s).set node value') s) := by
  rw [assign, NodeList.get?_eq hcells]

theorem run_next : list.next node s = .ok (after.head?.map Prod.fst, s) := by
  rw [next, NodeList.next?_eq hcells]

theorem run_erase :
    list.erase node s = .ok ((), list.update ((list.view s).erase node) s) := by
  rw [erase, NodeList.get?_eq hcells]

end Node

theorem run_deref_erased {s : σ} {node : Nat} (herased : (list.view s).get? node = none) :
    list.deref node s = .error (list.fault (.erasedNode node)) := by
  rw [deref, herased]

/-- Rounds that change nothing lead to the node behind them. -/
theorem rounds_skip {body : Nat → StateT σ (Except ε) (Option β)} {s : σ}
    {after : List (Nat × α)} {n : Nat} (between : List (Nat × α)) :
    ∀ before : List (Nat × α), (list.view s).cells = before ++ (between ++ after) →
      (∀ cell ∈ between, body cell.1 s = .ok (none, s)) →
      list.rounds body (between.length + n) ((between ++ after).head?.map Prod.fst) s =
        list.rounds body n (after.head?.map Prod.fst) s := by
  induction between with
  | nil =>
      intro before _ _
      rw [List.length_nil, Nat.zero_add, List.nil_append]
  | cons cell between ih =>
      intro before hcells hround
      have hnode : (list.view s).cells = before ++ (cell.1, cell.2) :: (between ++ after) := hcells
      have hstep : list.rounds body (between.length + n + 1) (some cell.1) s =
          list.rounds body (between.length + n) ((between ++ after).head?.map Prod.fst) s := by
        rw [rounds, run_bind_ok (hround cell List.mem_cons_self)]
        exact run_bind_ok (run_next hnode)
      rw [List.length_cons, Nat.add_right_comm]
      refine hstep.trans (ih (before ++ [cell]) ?_ fun cell' hmem => ?_)
      · rw [hcells, List.append_assoc]
        rfl
      · exact hround cell' (List.mem_cons_of_mem cell hmem)

section Simulation

variable {allowed : ε → Prop} {body : Nat → StateT σ (Except ε) (Option β)}
  {round : α → StateT τ Option (Option γ)} {going : σ → τ → Prop}
  {left : β → σ → γ → τ → Prop}
  (hround : ∀ before node value after s t,
    (list.view s).cells = before ++ (node, value) :: after → going s t →
    Simulates allowed (body node) s (round value) t
      (Ends (fun s' t' => going s' t' ∧
        ∃ before' value', (list.view s').cells = before' ++ (node, value') :: after) left))
include hround

/-- The rounds follow those over the values that are left. -/
theorem simulates_rounds (after : List (Nat × α)) :
    ∀ (before : List (Nat × α)) {s : σ} {t : τ}, (list.view s).cells = before ++ after → going s t →
      Simulates allowed (list.rounds body after.length (after.head?.map Prod.fst)) s
        (overValues round (after.map Prod.snd)) t (Ends going left) := by
  induction after with
  | nil => exact fun _ _ _ _ hgoing => simulates_pure (.goesOn hgoing)
  | cons cell after ih =>
      intro before s t hcells hgoing
      refine (hround before cell.1 cell.2 after s t hcells hgoing).bind ?_
      intro result s' image t' hends
      cases hends with
      | leaves hleft => exact simulates_pure (.leaves hleft)
      | goesOn hboth =>
          obtain ⟨hgoing', before', value', hcells'⟩ := hboth
          refine Simulates.left (run_next hcells') (ih (before' ++ [(cell.1, value')]) ?_ hgoing')
          rw [hcells', List.append_assoc]
          rfl

theorem simulates_loop {s : σ} {t : τ} (hgoing : going s t) :
    Simulates allowed (list.loop body) s (overValues round (list.view s).values) t
      (Ends going left) :=
  simulates_rounds hround (list.view s).cells [] rfl hgoing

end Simulation

theorem forM_eq_overValues (model : α → StateT τ Option Unit) (values : List α) :
    values.forM model = (do
      let _ ← overValues (fun value => do
        model value
        pure (none : Option Unit)) values) := by
  induction values with
  | nil => rfl
  | cons value values ih =>
      change (model value >>= fun _ => values.forM model) = _
      rw [overValues, ih]
      simp only [bind_assoc, pure_bind]

theorem simulates_forEach {allowed : ε → Prop} {step : Nat → StateT σ (Except ε) Unit}
    {model : α → StateT τ Option Unit} (going : σ → τ → Prop)
    (hstep : ∀ before node value after s t,
      (list.view s).cells = before ++ (node, value) :: after → going s t →
      Simulates allowed (step node) s (model value) t fun _ s' _ t' => going s' t' ∧
        ∃ before' value', (list.view s').cells = before' ++ (node, value') :: after)
    {s : σ} {t : τ} (hgoing : going s t) :
    Simulates allowed (list.forEach step) s ((list.view s).values.forM model) t
      fun _ s' _ t' => going s' t' := by
  have hround : ∀ before node value after s t,
      (list.view s).cells = before ++ (node, value) :: after → going s t →
      Simulates allowed (do
          step node
          pure (none : Option Unit)) s (do
          model value
          pure (none : Option Unit)) t
        (Ends (fun s' t' => going s' t' ∧
          ∃ before' value', (list.view s').cells = before' ++ (node, value') :: after)
          fun _ _ _ _ => False) :=
    fun before node value after s t hcells hgoing =>
      (hstep before node value after s t hcells hgoing).bind fun _ _ _ _ hboth =>
        simulates_pure (.goesOn hboth)
  rw [forM_eq_overValues]
  refine (simulates_loop hround hgoing).bind fun result s' image t' hends => ?_
  cases hends with
  | goesOn hgoing' => exact simulates_pure hgoing'
  | leaves hfalse => exact hfalse.elim

end ListIn

end OsExercises
