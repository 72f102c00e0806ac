import OsExercises.VirtualMemory.Runs

/-!
# Flat memory

What the virtual memory is for: reads and writes act on it as on an array of `VIRTUAL_MEMORY_SIZE`
words. A page touched for the first time may hold anything, so the array starts with words of which
nothing is promised. They are found from the end of a run: what the last page table holds is known,
and an access fixes at most the word of its own address.
-/

namespace OsExercises.VirtualMemory

variable {c : MemoryConstants}

abbrev FlatMemory (c : MemoryConstants) := Fin c.virtualMemorySize → Word

/-- A read or a write of an address in range. -/
inductive Access (c : MemoryConstants) where
  | read (virtualAddress : Fin c.virtualMemorySize)
  | write (virtualAddress : Fin c.virtualMemorySize) (value : Word)

def Access.call : Access c → VmCall
  | .read virtualAddress => .read virtualAddress
  | .write virtualAddress value => .write virtualAddress value

/-- The results of the accesses on an array. -/
def FlatMemory.results (flat : FlatMemory c) : List (Access c) → List VmResult
  | [] => []
  | .read virtualAddress :: rest => .word (some (flat virtualAddress)) :: flat.results rest
  | .write virtualAddress value :: rest =>
      .written true :: FlatMemory.results (Function.update flat virtualAddress value) rest

/-- The array has the words of the pages. -/
def Agrees (m : Memory) (t : FrameTree c) (flat : FlatMemory c) : Prop :=
  ∀ (virtualAddress : Fin c.virtualMemorySize) (word : Word),
    Holds c m t (virtualAddress / c.pageSize) (virtualAddress % c.pageSize) word →
      flat virtualAddress = word

section Agrees

variable {m m' : Memory} {t t' : FrameTree c} {flat : FlatMemory c}

theorem Agrees.of_keeps (hkeeps : Keeps c m t m' t') (hagrees : Agrees m' t' flat) :
    Agrees m t flat :=
  fun virtualAddress word hword => hagrees virtualAddress word (hkeeps _ _ word hword)

theorem exists_agrees (hc : c.Valid) (ht : PageTable c m t none) :
    ∃ flat : FlatMemory c, Agrees m t flat := by
  classical
  refine ⟨fun virtualAddress =>
    if hword : ∃ word, Holds c m t (virtualAddress / c.pageSize) (virtualAddress % c.pageSize) word
    then hword.choose else 0, fun virtualAddress word hword => ?_⟩
  have hex : ∃ word,
      Holds c m t (virtualAddress / c.pageSize) (virtualAddress % c.pageSize) word := ⟨word, hword⟩
  exact (dif_pos hex).trans (Holds.unique hc ht hex.choose_spec hword)

/-- Before a write the array had some word at the address, the one of the page if there was one. -/
theorem Agrees.before_write (hc : c.Valid) (ht : PageTable c m t none)
    {virtualAddress : Fin c.virtualMemorySize} {value : Word}
    (hself : Holds c m' t' (virtualAddress / c.pageSize) (virtualAddress % c.pageSize) value)
    (hother : ∀ page offset word,
      page ≠ virtualAddress / c.pageSize ∨ offset ≠ virtualAddress % c.pageSize →
        Holds c m t page offset word → Holds c m' t' page offset word)
    (hagrees : Agrees m' t' flat) :
    ∃ flat₀ : FlatMemory c, Agrees m t flat₀ ∧
      Function.update flat₀ virtualAddress value = flat := by
  obtain ⟨before, hbefore⟩ := exists_agrees hc ht
  refine ⟨Function.update flat virtualAddress (before virtualAddress), ?_, ?_⟩
  · intro address word hword
    by_cases heq : address = virtualAddress
    · subst heq
      rw [Function.update_self]
      exact hbefore address word hword
    · rw [Function.update_of_ne heq]
      refine hagrees address word (hother _ _ word ?_ hword)
      by_contra hboth
      rw [not_or, not_not, not_not] at hboth
      refine heq (Fin.ext ?_)
      rw [← Nat.div_add_mod (address : Nat) c.pageSize, hboth.1, hboth.2, Nat.div_add_mod]
  · rw [Function.update_idem, ← hagrees virtualAddress value hself, Function.update_eq_self]

end Agrees

section Run

variable (hc : c.Valid) (hdepth : c.tablesDepth < c.numFrames)
include hc hdepth

/-- Some array that agrees with the page table gives the results of the run. -/
theorem ensures_flat (accesses : List (Access c)) :
    ∀ {t : FrameTree c} {s : Machine}, PageTable c s.memory t none →
      Ensures (Machine.Legal c) (performAll c (accesses.map Access.call)) s fun results _ =>
        ∃ flat : FlatMemory c, Agrees s.memory t flat ∧ results = flat.results accesses := by
  induction accesses with
  | nil =>
      intro t s ht
      obtain ⟨flat, hagrees⟩ := exists_agrees hc ht
      exact ensures_pure ⟨flat, hagrees, rfl⟩
  | cons access accesses ih =>
      intro t s ht
      cases access with
      | read virtualAddress =>
          have hread : Ensures (Machine.Legal c) ((VmCall.read virtualAddress).perform c) s
              fun result s' => ∃ t' word, result = .word (some word) ∧
                PageTable c s'.memory t' none ∧ Keeps c s.memory t s'.memory t' ∧
                Holds c s'.memory t' (virtualAddress / c.pageSize) (virtualAddress % c.pageSize)
                  word := by
            refine (ensures_vmRead hc hdepth ht virtualAddress.isLt).bind ?_
            rintro result s₁ ⟨t₁, word, rfl, hpost⟩
            exact ensures_pure ⟨t₁, word, rfl, hpost⟩
          refine hread.bind ?_
          rintro result s₁ ⟨t₁, word, rfl, ht₁, hkeeps, hword⟩
          refine (ih ht₁).bind ?_
          rintro results s₂ ⟨flat, hagrees, rfl⟩
          refine ensures_pure ⟨flat, hagrees.of_keeps hkeeps, ?_⟩
          rw [FlatMemory.results, hagrees virtualAddress word hword]
      | write virtualAddress value =>
          have hwrite : Ensures (Machine.Legal c) ((VmCall.write virtualAddress value).perform c) s
              fun result s' => ∃ t', result = .written true ∧ PageTable c s'.memory t' none ∧
                Holds c s'.memory t' (virtualAddress / c.pageSize) (virtualAddress % c.pageSize)
                  value ∧
                ∀ page offset word,
                  page ≠ virtualAddress / c.pageSize ∨ offset ≠ virtualAddress % c.pageSize →
                    Holds c s.memory t page offset word → Holds c s'.memory t' page offset word := by
            refine (ensures_vmWrite hc hdepth ht virtualAddress.isLt value).bind ?_
            rintro result s₁ ⟨t₁, rfl, hpost⟩
            exact ensures_pure ⟨t₁, rfl, hpost⟩
          refine hwrite.bind ?_
          rintro result s₁ ⟨t₁, rfl, ht₁, hself, hother⟩
          refine (ih ht₁).bind ?_
          rintro results s₂ ⟨flat, hagrees, rfl⟩
          obtain ⟨flat₀, hagrees₀, rfl⟩ := hagrees.before_write hc ht hself hother
          exact ensures_pure ⟨flat₀, hagrees₀, rfl⟩

theorem performAll_flat (m : Memory) (accesses : List (Access c)) :
    ∃ (flat : FlatMemory c) (s : Machine),
      performAll c (.init :: accesses.map Access.call) m.machine =
        some (.initialized :: flat.results accesses, s) := by
  have hinit : Ensures (Machine.Legal c) (VmCall.init.perform c) m.machine fun result s' =>
      result = .initialized ∧ PageTable c s'.memory (PathTree.single 0) none :=
    (ensures_vmInitialize hc m.machine).bind fun _ _ ht₁ => ensures_pure ⟨rfl, ht₁⟩
  have hrun : Ensures (Machine.Legal c) (performAll c (.init :: accesses.map Access.call)) m.machine
      fun results _ => ∃ flat : FlatMemory c, results = .initialized :: flat.results accesses := by
    refine hinit.bind ?_
    rintro result s₁ ⟨rfl, ht₁⟩
    refine (ensures_flat hc hdepth accesses ht₁).bind ?_
    rintro results s₂ ⟨flat, -, rfl⟩
    exact ensures_pure ⟨flat, rfl⟩
  obtain ⟨results, s, heq, -, flat, rfl⟩ := hrun (legal_machine m)
  exact ⟨flat, s, heq⟩

end Run

/-- With the sizes of `MemoryConstants.h` the virtual memory is a flat memory, from any RAM and any
swap file. -/
theorem vm_refines_flatMemory (m : Memory) (accesses : List (Access .given)) :
    ∃ (flat : FlatMemory .given) (s : Machine),
      performAll .given (.init :: accesses.map Access.call) m.machine =
        some (.initialized :: flat.results accesses, s) :=
  performAll_flat MemoryConstants.valid_given given_tablesDepth_lt m accesses

end OsExercises.VirtualMemory
