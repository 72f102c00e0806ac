import OsExercises.Uthreads.Linked
import OsExercises.Uthreads.Release

/-!
# Iterators of the library

Whatever nodes the lists have, a function with a loop follows its model by the values, so that it
uses no erased node; with one exception. When `uthread_terminate` ends another thread, it erases the
node of its iterator and reads the object to be deleted through the same iterator afterwards.
-/

namespace OsExercises.Uthreads

open ListIn

/-- The fault is not one of an iterator. -/
def Fault.Elsewhere (fault : Fault) : Prop := ∀ f, fault ≠ .cursor f

/-- A run with nodes follows one by values, but for faults of an iterator. -/
abbrev Follows {α β : Type} (program : Cursors α) (s : Linked) (model : LibraryM β)
    (lib : ThreadLibrary) (post : α → Linked → β → ThreadLibrary → Prop) : Prop :=
  Simulates Fault.Elsewhere program s model lib post

theorem elsewhere_object : Fault.object.Elsewhere := fun _ heq => by cases heq

theorem elsewhere_emptyList : Fault.emptyList.Elsewhere := fun _ heq => by cases heq

/-- The same value and the same library are left. -/
def Agrees {α : Type} (value : α) (s : Linked) (image : α) (lib : ThreadLibrary) : Prop :=
  value = image ∧ s.library = lib

/-! ### Parts without a list -/

section Rest

variable {α β : Type} {s : Linked}

/-- The program leaves both lists as they are. -/
def KeepsLists (program : LibraryM α) : Prop :=
  ∀ lib value lib', program lib = some (value, lib') →
    lib'.readyQueue = lib.readyQueue ∧ lib'.allThreads = lib.allThreads

theorem keepsLists_pure (value : α) : KeepsLists (pure value) := by
  intro lib value' lib' hrun
  cases hrun
  exact ⟨rfl, rfl⟩

theorem KeepsLists.bind {program : LibraryM α} {next : α → LibraryM β} (h : KeepsLists program)
    (hnext : ∀ value, KeepsLists (next value)) : KeepsLists (program >>= next) := by
  intro lib result lib' hrun
  obtain ⟨value, middle, hfirst, hrest⟩ := exists_of_run_bind hrun
  obtain ⟨hqueue, hall⟩ := h lib value middle hfirst
  obtain ⟨hqueue', hall'⟩ := hnext value middle result lib' hrest
  exact ⟨hqueue'.trans hqueue, hall'.trans hall⟩

theorem keepsLists_get : KeepsLists (get : LibraryM ThreadLibrary) := by
  intro lib value lib' hrun
  cases hrun
  exact ⟨rfl, rfl⟩

theorem keepsLists_modify {change : ThreadLibrary → ThreadLibrary}
    (hqueue : ∀ lib, (change lib).readyQueue = lib.readyQueue)
    (hall : ∀ lib, (change lib).allThreads = lib.allThreads) :
    KeepsLists (modify change : LibraryM PUnit) := by
  intro lib value lib' hrun
  cases hrun
  exact ⟨hqueue lib, hall lib⟩

theorem keepsLists_deref (p : Address) : KeepsLists (deref p) := by
  intro lib t lib' hrun
  obtain ⟨u, -, heq⟩ := Option.map_eq_some_iff.mp hrun
  cases heq
  exact ⟨rfl, rfl⟩

theorem keepsLists_assign (p : Address) (change : Thread → Thread) :
    KeepsLists (assign p change) := by
  intro lib value lib' hrun
  obtain ⟨u, -, heq⟩ := Option.map_eq_some_iff.mp hrun
  cases heq
  exact ⟨rfl, rfl⟩

theorem keepsLists_delete (p : Address) : KeepsLists (delete p) := by
  intro lib value lib' hrun
  unfold delete at hrun
  split at hrun
  · cases hrun
    exact ⟨rfl, rfl⟩
  · obtain ⟨u, -, heq⟩ := Option.map_eq_some_iff.mp hrun
    cases heq
    exact ⟨rfl, rfl⟩

theorem keepsLists_front : KeepsLists front := by
  intro lib p lib' hrun
  obtain ⟨q, -, heq⟩ := Option.map_eq_some_iff.mp hrun
  cases heq
  exact ⟨rfl, rfl⟩

theorem keepsLists_startQuantum (next : Address) : KeepsLists (startQuantum next) := by
  apply KeepsLists.bind
  · exact keepsLists_modify (fun _ => rfl) fun _ => rfl
  · exact fun _ => keepsLists_assign next _

theorem keepsLists_returnFromSigsetjmp : KeepsLists returnFromSigsetjmp := by
  refine keepsLists_get.bind fun lib => ?_
  split
  · refine (keepsLists_delete _).bind fun _ => KeepsLists.bind ?_ fun _ => keepsLists_pure _
    exact keepsLists_modify (fun _ => rfl) fun _ => rfl
  · exact keepsLists_pure _

theorem keepsLists_siglongjmp (p : Address) : KeepsLists (siglongjmp p) := by
  refine (keepsLists_deref p).bind fun t => ?_
  split
  · exact keepsLists_pure _
  · exact keepsLists_returnFromSigsetjmp
  · exact keepsLists_returnFromSigsetjmp

theorem library_setRest {lib : ThreadLibrary} (hqueue : lib.readyQueue = s.library.readyQueue)
    (hall : lib.allThreads = s.library.allThreads) : (s.setRest lib).library = lib := by
  change { lib with readyQueue := s.library.readyQueue, allThreads := s.library.allThreads } = lib
  rw [← hqueue, ← hall]

theorem run_onRest {program : LibraryM α} {value : α} {lib : ThreadLibrary}
    (hrun : program s.library = some (value, lib)) :
    Linked.onRest program s = .ok (value, s.setRest lib) := by
  rw [Linked.onRest, hrun]

theorem follows_onRest {program : LibraryM α} (hkeeps : KeepsLists program) :
    Follows (Linked.onRest program) s program s.library fun value s' image lib' =>
      Agrees value s' image lib' ∧ s'.allThreads = s.allThreads := by
  cases hmodel : program s.library with
  | some result =>
      obtain ⟨hqueue, hall⟩ := hkeeps _ _ _ hmodel
      exact simulates_of_ok (run_onRest hmodel) hmodel ⟨⟨rfl, library_setRest hqueue hall⟩, rfl⟩
  | none =>
      refine simulates_of_error ?_ hmodel elsewhere_object
      rw [Linked.onRest, hmodel]

end Rest

/-! ### Rounds of the loops -/

/-- A round of a search by the values. -/
def matching (id : Int32) (p : Address) : LibraryM (Option Address) := do
  let t ← deref p
  if t.id = id then
    pure (some p)
  else
    pure none

theorem searchIn_eq (id : Int32) (ps : List Address) : searchIn id ps = (do
    let found ← overValues (matching id) ps
    pure (found.getD null)) := by
  induction ps with
  | nil => rfl
  | cons p ps ih =>
      rw [searchIn, overValues, matching, ih]
      simp only [bind_assoc]
      refine bind_congr fun t => ?_
      split
      · simp
      · simp

section Rounds

variable {s : Linked} {list : ListIn Linked Fault Address} {before after : List (Nat × Address)}
  {node : Nat} {p : Address}

/-- A method call through an iterator finds the object of its node. -/
theorem follows_object (hcells : (list.view s).cells = before ++ (node, p) :: after) :
    Follows (Linked.object list node) s (deref p) s.library fun t s' u lib' =>
      t = u ∧ s' = s ∧ lib' = s.library ∧ s.threads p = some t := by
  refine Simulates.left (ListIn.run_deref hcells) ?_
  cases ht : s.threads p with
  | some t =>
      have hmodel : deref p s.library = some (t, s.library) := by
        rw [deref, show s.library.threads p = some t from ht, Option.map_some]
      exact simulates_of_ok (run_onRest hmodel) hmodel ⟨rfl, rfl, rfl, rfl⟩
  | none =>
      have hmodel : deref p s.library = none := by
        rw [deref, show s.library.threads p = none from ht, Option.map_none]
      refine simulates_of_error ?_ hmodel elsewhere_object
      rw [Linked.onRest, hmodel]

theorem run_object (hcells : (list.view s).cells = before ++ (node, p) :: after) {t : Thread}
    (ht : s.threads p = some t) : Linked.object list node s = .ok (t, s) := by
  have hmodel : deref p s.library = some (t, s.library) := run_deref ht
  exact (run_bind_ok (ListIn.run_deref hcells)).trans (run_onRest hmodel)

theorem follows_assignObject (hcells : (list.view s).cells = before ++ (node, p) :: after)
    (change : Thread → Thread) :
    Follows (Linked.assignObject list node change) s (assign p change) s.library
      fun _ s' _ lib' => s'.library = lib' ∧ s'.allThreads = s.allThreads := by
  refine Simulates.left (ListIn.run_deref hcells) ?_
  exact (follows_onRest (keepsLists_assign p change)).mono fun _ _ _ _ hpost =>
    ⟨hpost.1.2, hpost.2⟩

theorem ne_null_of_alive {t : Thread} (hnull : s.threads null = none) (ht : s.threads p = some t) :
    p ≠ null := by
  rintro rfl
  rw [hnull] at ht
  cases ht

/-- A search that leaves the loop where it finds the id. -/
theorem follows_search {β : Type} {id : Int32} {found : Nat → Cursors (Option β)}
    (left : β → Linked → Address → ThreadLibrary → Prop)
    (hfound : ∀ before node p after t, (list.view s).cells = before ++ (node, p) :: after →
      s.threads p = some t → t.id = id →
      ∃ result s', found node s = .ok (some result, s') ∧ left result s' p s.library) :
    Follows (list.loop fun it => do
        let t ← Linked.object list it
        if t.id = id then
          found it
        else
          pure none) s
      (overValues (matching id) (list.view s).values) s.library
      (Ends (fun s' lib' => s' = s ∧ lib' = s.library) left) := by
  refine simulates_loop ?_ ⟨rfl, rfl⟩
  rintro before node p after s' lib' hcells ⟨rfl, rfl⟩
  refine (follows_object hcells).bind ?_
  rintro t s' u lib' ⟨rfl, rfl, rfl, ht⟩
  by_cases hid : t.id = id
  · obtain ⟨result, s'', hrun, hleft⟩ := hfound before node p after t hcells ht hid
    rw [if_pos hid, if_pos hid]
    exact simulates_of_ok hrun rfl (.leaves hleft)
  · rw [if_neg hid, if_neg hid]
    exact simulates_pure (.goesOn ⟨⟨rfl, rfl⟩, before, p, hcells⟩)

/-- A search comes to the first node with the id. -/
theorem search_error {β : Type} {id : Int32} {found : Nat → Cursors (Option β)} {t : Thread}
    {fault : Fault} (hcells : (list.view s).cells = before ++ (node, p) :: after)
    (hbefore : ∀ cell ∈ before, ∃ u, s.threads cell.2 = some u ∧ u.id ≠ id)
    (ht : s.threads p = some t) (hid : t.id = id) (hfound : found node s = .error fault) :
    list.loop (fun it => do
        let t ← Linked.object list it
        if t.id = id then
          found it
        else
          pure none) s = .error fault := by
  have hpass : ∀ cell ∈ before, (do
      let t ← Linked.object list cell.1
      if t.id = id then
        found cell.1
      else
        pure none) s = .ok (none, s) := by
    intro cell hmem
    obtain ⟨u, hu, hne⟩ := hbefore cell hmem
    obtain ⟨before', between, rfl⟩ := List.append_of_mem hmem
    have hcell : (list.view s).cells =
        before' ++ (cell.1, cell.2) :: (between ++ (node, p) :: after) := by
      rw [hcells, List.append_assoc]
      rfl
    refine (run_bind_ok (run_object hcell hu)).trans ?_
    rw [if_neg hne]
    rfl
  have hlength : (list.view s).cells.length = before.length + (after.length + 1) := by
    rw [hcells, List.length_append, List.length_cons]
  rw [ListIn.loop, NodeList.begin, hlength, hcells, rounds_skip before [] hcells hpass]
  refine run_bind_error ((run_bind_ok (run_object hcells ht)).trans ?_)
  rw [if_pos hid, hfound]

end Rounds

/-! ### The loops -/

section Loops

variable {s : Linked}

theorem follows_searchThread (id : Int32) :
    Follows (Linked.searchThread id) s (searchThread id) s.library Agrees := by
  refine Simulates.right (run_get s.library) ?_
  rw [searchIn_eq]
  refine (follows_search (fun result s' p lib' => result = p ∧ s' = s ∧ lib' = s.library) ?_).bind ?_
  · intro before node p after t hcells _ _
    exact ⟨p, s, run_bind_ok (ListIn.run_deref hcells), rfl, rfl, rfl⟩
  · rintro result s' image lib' hends
    cases hends with
    | goesOn hsame =>
        obtain ⟨rfl, rfl⟩ := hsame
        exact simulates_pure ⟨rfl, rfl⟩
    | leaves hleft =>
        obtain ⟨rfl, rfl, rfl⟩ := hleft
        exact simulates_pure ⟨rfl, rfl⟩

theorem follows_deleteThreadFromReadyQueue (id : Int32) (hnull : s.threads null = none)
    (hnodup : s.readyQueue.values.Nodup) :
    Follows (Linked.deleteThreadFromReadyQueue id) s (deleteThreadFromReadyQueue id) s.library
      Agrees := by
  refine Simulates.right (run_get s.library) ?_
  rw [searchIn_eq, bind_assoc]
  simp only [pure_bind]
  refine (follows_search (fun (result : Int32) s' p lib' => result = 0 ∧ p ≠ null ∧
    lib' = s.library ∧ s'.library = s.library.setQueue (s.library.readyQueue.erase p)) ?_).bind ?_
  · intro before node p after t hcells ht _
    refine ⟨0, _, run_bind_ok (ListIn.run_erase hcells), rfl, ne_null_of_alive hnull ht, rfl, ?_⟩
    exact congrArg s.library.setQueue (NodeList.values_erase hcells hnodup)
  · rintro result s' image lib' hends
    cases hends with
    | goesOn hsame =>
        obtain ⟨rfl, rfl⟩ := hsame
        exact simulates_pure ⟨rfl, rfl⟩
    | leaves hleft =>
        obtain ⟨rfl, hne, rfl, hs'⟩ := hleft
        refine simulates_of_ok rfl ?_ ⟨rfl, hs'⟩
        rw [run_ite, Option.getD_some, if_neg hne]
        rfl

theorem follows_pushBack (p : Address) :
    Follows (Linked.pushBack p) s (pushBack p) s.library
      fun _ s' _ lib' => s'.library = lib' ∧ s'.allThreads = s.allThreads := by
  refine simulates_of_ok rfl (run_pushBack p) ⟨?_, rfl⟩
  exact congrArg s.library.setQueue (NodeList.values_pushBack _ p)

/-- One thread in the loop of `sleep_check`: the list that the loop goes through stays. -/
theorem follows_sleepCheckThread {before after : List (Nat × Address)} {node : Nat} {p : Address}
    (hcells : s.allThreads.cells = before ++ (node, p) :: after) :
    Follows (Linked.sleepCheckThread node) s (sleepCheckThread p) s.library
      fun _ s' _ lib' => s'.library = lib' ∧ s'.allThreads = s.allThreads := by
  have hstay : ∀ {s' : Linked}, s'.allThreads = s.allThreads →
      (Linked.allThreadsIn.view s').cells = before ++ (node, p) :: after := fun heq =>
    (congrArg NodeList.cells heq).trans hcells
  refine (follows_object (hstay rfl)).bind ?_
  rintro t s₁ - lib₁ ⟨rfl, rfl, rfl, -⟩
  split
  · refine (follows_assignObject (hstay rfl) _).bind ?_
    rintro - s₂ - lib₂ ⟨rfl, hall₂⟩
    refine (follows_object (hstay hall₂)).bind ?_
    rintro t s₃ - lib₃ ⟨rfl, rfl, rfl, -⟩
    split
    · refine (follows_assignObject (hstay hall₂) _).bind ?_
      rintro - s₄ - lib₄ ⟨rfl, hall₄⟩
      have hall := hall₄.trans hall₂
      refine (follows_object (hstay hall)).bind ?_
      rintro t s₅ - lib₅ ⟨rfl, rfl, rfl, -⟩
      split
      · refine Simulates.left (ListIn.run_deref (hstay hall)) ((follows_pushBack p).mono ?_)
        exact fun _ s' _ lib' hpost => ⟨hpost.1, hpost.2.trans hall⟩
      · exact simulates_pure ⟨rfl, hall⟩
    · exact simulates_pure ⟨rfl, hall₂⟩
  · exact simulates_pure ⟨rfl, rfl⟩

theorem follows_sleepCheck : Follows Linked.sleepCheck s sleepCheck s.library Agrees := by
  refine Simulates.right (run_get s.library) ?_
  refine (simulates_forEach (fun s' lib' => s'.library = lib') ?_ rfl).mono ?_
  · rintro before node p after s' lib' hcells rfl
    refine (follows_sleepCheckThread hcells).mono fun _ s'' _ lib'' hpost => ⟨hpost.1, before, p, ?_⟩
    exact (congrArg NodeList.cells hpost.2).trans hcells
  · exact fun _ _ _ _ hpost => ⟨rfl, hpost⟩

/-- A deletion is about the objects alone. -/
theorem delete_cases (p : Address) (threads : Address → Option Thread) :
    (∃ threads', ∀ lib : ThreadLibrary, lib.threads = threads →
      delete p lib = some ((), { lib with threads := threads' })) ∨
    ∀ lib : ThreadLibrary, lib.threads = threads → delete p lib = none := by
  by_cases hnull : p = null
  · refine Or.inl ⟨threads, ?_⟩
    rintro lib rfl
    rw [delete, if_pos hnull]
  · cases ht : threads p with
    | some t =>
        refine Or.inl ⟨Function.update threads p none, ?_⟩
        rintro lib rfl
        rw [delete, if_neg hnull, ht, Option.map_some]
    | none =>
        refine Or.inr ?_
        rintro lib rfl
        rw [delete, if_neg hnull, ht, Option.map_none]

/-- The nodes lose their pointers one by one, and are gone at the end. -/
theorem follows_threadCleanup : Follows Linked.threadCleanup s threadCleanup s.library Agrees := by
  refine Simulates.right (run_get s.library) ?_
  refine (simulates_forEach (fun s' lib' =>
    lib' = { s'.library with allThreads := lib'.allThreads }) ?_ rfl).bind ?_
  · intro before node p after s' lib' hcells hlib'
    refine Simulates.left (ListIn.run_deref hcells) ?_
    have hthreads : lib'.threads = s'.threads := by rw [hlib']; rfl
    rcases delete_cases p s'.threads with ⟨threads', hdelete⟩ | hdelete
    · have hrest := run_onRest (hdelete s'.library rfl)
      have hcells' : (Linked.allThreadsIn.view (s'.setRest { s'.library with
          threads := threads' })).cells = before ++ (node, p) :: after := hcells
      refine Simulates.left hrest ?_
      refine simulates_of_ok (ListIn.run_assign hcells' null) (hdelete lib' hthreads)
        ⟨?_, before, null, ?_⟩
      · rw [hlib']
        rfl
      · exact NodeList.cells_set hcells null
    · refine simulates_of_error (run_bind_error ?_) (hdelete lib' hthreads) elsewhere_object
      rw [Linked.onRest, hdelete s'.library rfl]
  · intro _ s' _ lib' hlib'
    refine simulates_of_ok rfl rfl ⟨rfl, ?_⟩
    rw [hlib']
    rfl

theorem follows_popFront :
    Follows Linked.popFront s popFront s.library fun _ s' _ lib' =>
      s' = { s with readyQueue := s.readyQueue.popFront } ∧ lib' = s'.library := by
  cases hcells : s.readyQueue.cells with
  | nil =>
      have hvalues : s.library.readyQueue = [] := congrArg (List.map Prod.snd) hcells
      refine simulates_of_error ?_ ?_ elsewhere_emptyList
      · rw [Linked.popFront, hcells]
      · rw [popFront, hvalues]
  | cons cell cells =>
      have hvalues : s.library.readyQueue = cell.2 :: cells.map Prod.snd :=
        congrArg (List.map Prod.snd) hcells
      have hrest : s.readyQueue.popFront.values = cells.map Prod.snd := by
        rw [NodeList.values_popFront]
        exact congrArg List.tail hvalues
      have hrun : Linked.popFront s = .ok ((), { s with readyQueue := s.readyQueue.popFront }) := by
        rw [Linked.popFront, hcells]
      exact simulates_of_ok hrun (run_popFront hvalues)
        ⟨rfl, congrArg s.library.setQueue hrest.symm⟩

theorem exists_setIdValue (pos : Nat) (value : Bool) (lib : ThreadLibrary) :
    ∃ ids, setIdValue pos value lib = some ((), { lib with availableId := ids }) := by
  rw [setIdValue, run_modify]
  split
  · exact ⟨_, rfl⟩
  · exact ⟨lib.availableId, rfl⟩

theorem follows_terminateHandler (tid : Int32) (hnull : s.threads null = none)
    (hnodup : s.allThreads.values.Nodup) :
    Follows (Linked.terminateHandler tid) s (terminateHandler tid) s.library Agrees := by
  have hend : KeepsLists (do
      let next ← front
      assign next (Thread.setState .running)
      startQuantum next
      siglongjmp next) := by
    refine keepsLists_front.bind fun next => ?_
    refine (keepsLists_assign next _).bind fun _ => ?_
    exact (keepsLists_startQuantum next).bind fun _ => keepsLists_siglongjmp next
  obtain ⟨ids, hids⟩ := exists_setIdValue (asUInt64 tid) false s.library
  refine Simulates.left (run_onRest hids) (Simulates.right hids ?_)
  refine Simulates.left (run_onRest (run_modify _ _)) (Simulates.right (run_modify _ _) ?_)
  refine (follows_popFront (s := { s with
    availableId := ids, threadToDelete := s.runningThread })).bind ?_
  rintro - s₂ - lib₂ ⟨hs₂, rfl⟩
  have hnull₂ : s₂.threads null = none := by rw [hs₂]; exact hnull
  have hnodup₂ : s₂.allThreads.values.Nodup := by rw [hs₂]; exact hnodup
  rw [searchThread, bind_assoc]
  refine Simulates.right (run_get s₂.library) ?_
  rw [searchIn_eq, bind_assoc]
  simp only [pure_bind]
  refine (follows_search (fun (_ : Unit) s' p lib' => p ≠ null ∧ lib' = s₂.library ∧
    s'.library = { s₂.library with allThreads := s₂.library.allThreads.erase p, d := true })
    ?_).bind ?_
  · intro before node p after t hcells ht _
    refine ⟨(), _, run_bind_ok (ListIn.run_erase hcells), ne_null_of_alive hnull₂ ht, rfl, ?_⟩
    exact congrArg (fun all => { s₂.library with allThreads := all, d := true })
      (NodeList.values_erase hcells hnodup₂)
  · rintro result s' image lib' hends
    cases hends with
    | goesOn hsame =>
        obtain ⟨rfl, rfl⟩ := hsame
        rw [Option.getD_none, if_neg (by simp)]
        exact (follows_onRest hend).mono fun _ _ _ _ hpost => hpost.1
    | leaves hleft =>
        obtain ⟨hne, rfl, hs'⟩ := hleft
        rw [Option.getD_some, if_pos hne]
        refine Simulates.right (run_modify _ _) ?_
        rw [← hs']
        exact (follows_onRest hend).mono fun _ _ _ _ hpost => hpost.1

end Loops

/-! ### `uthread_terminate` -/

/-- A loop call ends a thread other than the main thread and the running thread. -/
def TerminatesOther (lib : ThreadLibrary) (op : ListLoop) : Prop :=
  ∃ p t, lib.Member p t ∧ op = .uthreadTerminate t.id ∧ t.id ≠ 0 ∧ p ≠ lib.runningThread

section Terminate

variable {s : Linked} (h : Scheduled s.library)
include h

theorem follows_uthreadTerminate {tid : Int32}
    (hother : ¬ TerminatesOther s.library (.uthreadTerminate tid)) :
    Follows (Linked.uthreadTerminate tid) s (uthreadTerminate tid) s.library Agrees := by
  refine Simulates.right (run_get s.library) ?_
  rcases member_or_none s.library tid with ⟨p, t, hp, rfl⟩ | hnone
  · have hcheck := run_checkIfThreadExist h.core hp
    refine Simulates.left (run_onRest hcheck) (Simulates.right hcheck ?_)
    have hexists : ¬ (0 : Int32) = -1 := by decide
    rw [if_neg hexists, if_neg hexists]
    by_cases hmain : t.id = 0
    · rw [if_pos hmain, if_pos hmain]
      refine follows_threadCleanup.bind ?_
      rintro - s' - lib' ⟨-, hs'⟩
      exact simulates_pure ⟨rfl, hs'⟩
    · have hself : p = s.library.runningThread := by
        by_contra hne
        exact hother ⟨p, t, hp, rfl, hmain, hne⟩
      rw [if_neg hmain, if_neg hmain]
      have hrunning : deref s.library.runningThread s.library = some (t, s.library) :=
        run_deref (hself ▸ hp.2)
      refine Simulates.left (run_onRest (run_bind_eq (run_get _) hrunning))
        (Simulates.right hrunning ?_)
      rw [if_pos rfl, if_pos rfl]
      exact follows_terminateHandler t.id h.core.null_dead h.core.all_nodup
  · have hcheck := run_checkIfThreadExist_none h.core hnone
    refine Simulates.left (run_onRest hcheck) (Simulates.right hcheck ?_)
    rw [if_pos rfl, if_pos rfl]
    exact simulates_pure ⟨rfl, rfl⟩

/-- Whatever nodes a list of the same threads has, the threads before a thread have other ids. -/
theorem ids_before {s' : Linked} {p : Address} {t : Thread} {before after : List (Nat × Address)}
    {node : Nat} (hall : s'.allThreads.values = s.library.allThreads)
    (hthreads : s'.threads = s.threads) (hp : s.library.Member p t)
    (hcells : s'.allThreads.cells = before ++ (node, p) :: after) :
    ∀ cell ∈ before, ∃ u, s'.threads cell.2 = some u ∧ u.id ≠ t.id := by
  intro cell hmem
  have hvalues : s.library.allThreads = before.map Prod.snd ++ p :: after.map Prod.snd := by
    rw [← hall, NodeList.values, hcells, List.map_append, List.map_cons]
  have hbefore : cell.2 ∈ before.map Prod.snd := List.mem_map_of_mem hmem
  obtain ⟨u, hu⟩ := h.core.member_of_mem (hvalues ▸ List.mem_append_left _ hbefore)
  refine ⟨u, hthreads ▸ hu.2, fun heq => ?_⟩
  have hnodup := h.core.all_nodup
  rw [hvalues, List.nodup_append] at hnodup
  exact hnodup.2.2 cell.2 hbefore p List.mem_cons_self (h.core.id_injective hu hp heq)

/-- The thread is found, its node is erased, and the iterator is read once more. -/
theorem uthreadTerminate_erased {p : Address} {t : Thread} (hp : s.library.Member p t)
    (hmain : t.id ≠ 0) (hother : p ≠ s.runningThread) :
    ∃ node, Linked.uthreadTerminate t.id s = .error (.cursor (.erasedNode node)) := by
  obtain ⟨u, hu⟩ := running_member h
  have hcheck := run_checkIfThreadExist h.core hp
  have hexists : ¬ (0 : Int32) = -1 := by decide
  have hrunning : deref s.library.runningThread s.library = some (u, s.library) := run_deref hu.2
  have hne : ¬ u.id = t.id := fun heq => hother (h.core.id_injective hp hu heq.symm)
  obtain ⟨ids, hids⟩ := exists_setIdValue (asUInt64 t.id) false s.library
  -- the queue loses the thread, and nothing else changes
  obtain ⟨value, hdelete⟩ := run_deleteThreadFromReadyQueue h.core
    (show ({ s.library with availableId := ids } : ThreadLibrary).readyQueue = s.library.readyQueue
      from rfl) rfl hp
  obtain ⟨value', s₂, hrun₂, -, hs₂⟩ := (follows_deleteThreadFromReadyQueue t.id
    (s := { s with availableId := ids }) h.core.null_dead h.core.queue_nodup).run_ok hdelete
  have hthreads : s₂.threads = s.threads := congrArg ThreadLibrary.threads hs₂
  have hall : s₂.allThreads.values = s.library.allThreads := congrArg ThreadLibrary.allThreads hs₂
  have hmem : p ∈ s₂.allThreads.values := hall ▸ hp.1
  obtain ⟨⟨node, q⟩, hcell, rfl⟩ := List.mem_map.mp hmem
  obtain ⟨before, after, hcells⟩ := List.append_of_mem hcell
  have hbefore := ids_before h hall hthreads hp hcells
  have halive : s₂.threads q = some t := (congrFun hthreads q).trans hp.2
  have hfound : (do
      Linked.allThreadsIn.erase node
      let p ← Linked.allThreadsIn.deref node
      Linked.onRest (delete p)
      Linked.allThreadsIn.assign node null
      pure (some ())) s₂ = .error (.cursor (.erasedNode node)) :=
    (run_bind_ok (ListIn.run_erase hcells)).trans
      (run_bind_error (run_deref_erased (NodeList.get?_erase _ node)))
  refine ⟨node, ?_⟩
  refine (run_bind_ok (run_onRest hcheck)).trans ?_
  rw [if_neg hexists, if_neg hmain]
  refine (run_bind_ok (run_onRest (run_bind_eq (run_get _) hrunning))).trans ?_
  rw [if_neg hne]
  refine (run_bind_ok (run_onRest hids)).trans ?_
  refine (run_bind_ok hrun₂).trans ?_
  exact run_bind_error (search_error hcells hbefore halive rfl hfound)

/-- Every loop but the one that ends another thread follows its model. -/
theorem follows_perform {op : ListLoop} (hother : ¬ TerminatesOther s.library op) :
    Follows op.perform s op.model s.library fun _ s' _ lib' => s'.library = lib' := by
  have hnull := h.core.null_dead
  have hdone : ∀ {α : Type} {program : Cursors α} {model : LibraryM α},
      Follows program s model s.library Agrees →
      Follows (do
        let _ ← program
        pure ()) s (do
        let _ ← model
        pure ()) s.library fun _ s' _ lib' => s'.library = lib' := by
    intro α program model hfollows
    refine hfollows.bind ?_
    rintro value s' image lib' ⟨-, hs'⟩
    exact simulates_pure hs'
  cases op with
  | searchThread id => exact hdone (follows_searchThread id)
  | deleteThreadFromReadyQueue id =>
      exact hdone (follows_deleteThreadFromReadyQueue id hnull h.core.queue_nodup)
  | sleepCheck => exact follows_sleepCheck.mono fun _ _ _ _ hagrees => hagrees.2
  | terminateHandler tid => exact hdone (follows_terminateHandler tid hnull h.core.all_nodup)
  | uthreadTerminate tid => exact hdone (follows_uthreadTerminate h hother)
  | threadCleanup => exact follows_threadCleanup.mono fun _ _ _ _ hagrees => hagrees.2

end Terminate

/-! ### Reachable states -/

/-- An iterator is used only while its node is in the list, and the termination of another thread
deletes the object of that thread and no other, and takes it out of both lists. -/
structure CursorsValid (s : Linked) (op : ListLoop) : Prop where
  in_list : ∀ fault, op.perform s ≠ .error (.cursor fault)
  terminated : ∀ p t, s.library.Member p t → op = .uthreadTerminate t.id → t.id ≠ 0 →
    p ≠ s.runningThread → ∃ s', op.perform s = .ok ((), s') ∧
      s'.threads = Function.update s.threads p none ∧
      s'.allThreads.values = s.allThreads.values.erase p ∧
      s'.readyQueue.values = s.readyQueue.values.erase p

/-- In every reachable state, with whatever nodes, the loops use their iterators as they should, but
for the one that ends another thread. -/
theorem cursorsValid_iff {s : Linked} (hreach : Reachable s.library) (op : ListLoop) :
    CursorsValid s op ↔ ¬ TerminatesOther s.library op := by
  have h := hreach.scheduled
  constructor
  · rintro hvalid ⟨p, t, hp, rfl, hmain, hother⟩
    obtain ⟨node, herror⟩ := uthreadTerminate_erased h hp hmain hother
    exact hvalid.in_list (.erasedNode node) (run_bind_error herror)
  · intro hother
    constructor
    case in_list =>
      intro fault
      exact (follows_perform h hother).ne_error fun helsewhere => helsewhere fault rfl
    case terminated =>
      intro p t hp hop hmain hne
      exact absurd ⟨p, t, hp, hop, hmain, hne⟩ hother

theorem library_ofLibrary (lib : ThreadLibrary) : (Linked.ofLibrary lib).library = lib := by
  rw [Linked.library, Linked.ofLibrary, NodeList.values_ofValues, NodeList.values_ofValues]

/-- Of two threads the first one runs: it may end itself, and not the other one. -/
theorem cursorsValid_iff_tick : ∃ lib,
    performAll [.spawn 7, .spawn 8, .tick] .initialized = some lib ∧
      CursorsValid (.ofLibrary lib) .sleepCheck ∧
      CursorsValid (.ofLibrary lib) (.uthreadTerminate 1) ∧
      ¬ CursorsValid (.ofLibrary lib) (.uthreadTerminate 2) := by
  have hcomputed : (performAll [.spawn 7, .spawn 8, .tick] .initialized).any (fun lib =>
      lib.allThreads == [1, 2, 3] && lib.runningThread == 2 &&
        (lib.threads 1).map Thread.id == some 0 && (lib.threads 3).map Thread.id == some 2) =
      true := by
    decide +kernel
  obtain ⟨lib, hperform, hlib⟩ := (Option.any_eq_true _ _).mp hcomputed
  simp only [Bool.and_eq_true, beq_iff_eq, Option.map_eq_some_iff] at hlib
  obtain ⟨⟨⟨hall, hrunning⟩, t, ht, hmain⟩, u, hu, hid⟩ := hlib
  have hreach : Reachable (Linked.ofLibrary lib).library := by
    rw [library_ofLibrary]
    exact reachable_performAll hperform
  refine ⟨lib, hperform, ?_, ?_, ?_⟩
  · rw [cursorsValid_iff hreach]
    rintro ⟨p, v, -, hop, -⟩
    cases hop
  · rw [cursorsValid_iff hreach, library_ofLibrary]
    rintro ⟨p, v, ⟨hp, hv⟩, hop, -, hother⟩
    have hself : v.id = 1 := (ListLoop.uthreadTerminate.inj hop).symm
    rw [hall] at hp
    simp only [List.mem_cons, List.not_mem_nil, or_false] at hp
    rcases hp with rfl | rfl | rfl
    · rw [Option.some.inj (ht.symm.trans hv), hself] at hmain
      exact absurd hmain (by decide)
    · exact hother hrunning.symm
    · rw [Option.some.inj (hu.symm.trans hv), hself] at hid
      exact absurd hid (by decide)
  · rw [cursorsValid_iff hreach, library_ofLibrary, not_not]
    refine ⟨3, u, ⟨by rw [hall]; decide, hu⟩, by rw [hid], by rw [hid]; decide, ?_⟩
    rw [hrunning]
    decide

/-- The main thread ends the first thread it has spawned: its node is erased, and read. -/
theorem exists_erased_node : ¬ ∀ (s : Linked) (op : ListLoop), Reachable s.library →
    CursorsValid s op := by
  intro hall
  have hterminate : (performAll [.spawn 7] .initialized).any (fun lib =>
      match (ListLoop.uthreadTerminate 1).perform (.ofLibrary lib) with
      | .ok _ => false
      | .error fault => decide (fault = .cursor (.erasedNode 1))) = true := by
    decide +kernel
  obtain ⟨lib, hspawn, herror⟩ := (Option.any_eq_true _ _).mp hterminate
  have hreach : Reachable (Linked.ofLibrary lib).library := by
    rw [library_ofLibrary]
    exact reachable_performAll hspawn
  cases hrun : (ListLoop.uthreadTerminate 1).perform (.ofLibrary lib) with
  | ok result =>
      rw [hrun] at herror
      cases herror
  | error fault =>
      rw [hrun] at herror
      obtain rfl := of_decide_eq_true herror
      exact (hall _ _ hreach).in_list _ hrun

end OsExercises.Uthreads
