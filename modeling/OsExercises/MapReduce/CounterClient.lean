import OsExercises.MapReduce.Correctness
import OsExercises.MapReduce.Termination

/-!
# Counting characters

`CounterClient` of `SampleClient.cpp`. `map` counts the characters of a string in an array of 256
numbers and emits those that are not zero; `reduce` adds up what was emitted for a character. A `char`
is a signed byte and a count is an `int`, so the counts add up to the number of occurrences as long as
the strings have less than `2 ^ 31` characters together.
-/

namespace OsExercises.MapReduce

open Function (update)

namespace CounterClient

/-- The array `counts` behind the loop over the content. -/
def counts (content : List Int8) : Nat → Int32 :=
  content.foldl
    (fun counts c => update counts c.toUInt8.toNat (counts c.toUInt8.toNat + 1)) fun _ => 0

/-- The pairs of a `KChar` and a `VCount` that `map` emits. -/
def map (content : List Int8) : List (Int8 × Int32) :=
  (List.range 256).filterMap fun i =>
    if counts content i = 0 then none else some (Int8.ofNat i, counts content i)

/-- `pairs->at(0)` throws when there are no pairs. -/
def reduce (pairs : IntermediateVec Int8 Int32) : Option (List (Int8 × Int32)) :=
  match pairs with
  | [] => none
  | (c, _) :: _ => some [(c, pairs.foldl (fun count pair => count + pair.2) 0)]

end CounterClient

def counterClient : Client (List Int8) Int8 Int32 (Int8 × Int32) where
  less a b := a < b
  map content emitted := emitted = CounterClient.map content
  reduce vec emitted := CounterClient.reduce vec = some emitted

/-- What is to be printed: every character of the strings with the number of its occurrences. -/
def occurrences (inputVec : List (List Int8)) : List (Int8 × Int32) :=
  inputVec.flatten.dedup.map fun c => (c, asInt (inputVec.flatten.count c))

namespace CounterClient

/-! ### The keys -/

theorem ofNat_toNat (c : Int8) : Int8.ofNat c.toUInt8.toNat = c := by
  apply Int8.toBitVec_inj.mp
  rw [Int8.toBitVec_ofNat', ← Int8.toNat_toBitVec, BitVec.ofNat_toNat, BitVec.setWidth_eq]

theorem toNat_ofNat {i : Nat} (hi : i < 256) : (Int8.ofNat i).toUInt8.toNat = i := by
  rw [Int8.toUInt8_ofNat', UInt8.toNat_ofNat']
  exact Nat.mod_eq_of_lt hi

theorem incomparable_iff {a b : Int8} :
    Incomparable (KeyLT counterClient.less) a b ↔ a = b := by
  simp only [Incomparable, KeyLT, counterClient, decide_eq_true_eq, Int8.lt_iff_toInt_lt]
  rw [← Int8.toInt_inj]
  omega

theorem isStrictWeakOrder : IsStrictWeakOrder Int8 (KeyLT counterClient.less) where
  irrefl a := by simp [KeyLT, counterClient, Int8.lt_iff_toInt_lt]
  trans a b c := by
    simp only [KeyLT, counterClient, decide_eq_true_eq, Int8.lt_iff_toInt_lt]
    omega
  incomp_trans a b c hab hbc := by
    rw [incomparable_iff.mp hab]
    exact hbc

/-! ### `map` -/

theorem counts_eq (content : List Int8) (c : Int8) :
    counts content c.toUInt8.toNat = asInt (content.count c) := by
  induction content using List.reverseRecOn with
  | nil => rfl
  | append_singleton content last ih =>
      have hfold : counts (content ++ [last]) = update (counts content) last.toUInt8.toNat
          (counts content last.toUInt8.toNat + 1) := List.foldl_concat _ _ _ _
      rw [hfold, List.count_append, List.count_singleton]
      by_cases heq : last = c
      · subst heq
        rw [Function.update_self, ih, beq_self_eq_true, if_pos rfl]
        exact (Int32.ofNat_add _ 1).symm
      · have hne : c.toUInt8.toNat ≠ last.toUInt8.toNat := by
          intro hnat
          apply heq
          rw [← ofNat_toNat last, ← hnat, ofNat_toNat]
        rw [Function.update_of_ne hne, ih, beq_eq_false_iff_ne.mpr heq]
        rfl

theorem mem_map_iff {content : List Int8} {c : Int8} {k : Int32} :
    (c, k) ∈ map content ↔ k = asInt (content.count c) ∧ k ≠ 0 := by
  rw [map, List.mem_filterMap]
  constructor
  · rintro ⟨i, hi, hsome⟩
    split at hsome
    · cases hsome
    · rename_i hne
      obtain ⟨rfl, rfl⟩ := Prod.mk.inj (Option.some.inj hsome)
      have hcounts := counts_eq content (Int8.ofNat i)
      rw [toNat_ofNat (List.mem_range.mp hi)] at hcounts
      exact ⟨hcounts, hne⟩
  · rintro ⟨rfl, hne⟩
    refine ⟨c.toUInt8.toNat, List.mem_range.mpr c.toUInt8.toNat_lt, ?_⟩
    rw [counts_eq, if_neg hne, ofNat_toNat]

/-! ### Sums -/

section Sums

local instance addCommMonoidInt32 : AddCommMonoid Int32 where
  add_assoc := Int32.add_assoc
  zero_add := Int32.zero_add
  add_zero := Int32.add_zero
  add_comm := Int32.add_comm
  nsmul := nsmulRec

/-- The counts of a character. -/
def sumOf (c : Int8) (pairs : List (Int8 × Int32)) : Int32 :=
  (pairs.map fun p => if p.1 = c then p.2 else 0).sum

theorem sumOf_append (c : Int8) (pairs pairs' : List (Int8 × Int32)) :
    sumOf c (pairs ++ pairs') = sumOf c pairs + sumOf c pairs' := by
  rw [sumOf, List.map_append, List.sum_append]
  rfl

theorem sumOf_perm {c : Int8} {pairs pairs' : List (Int8 × Int32)} (hperm : pairs.Perm pairs') :
    sumOf c pairs = sumOf c pairs' :=
  (hperm.map _).sum_eq

theorem sumOf_eq_zero {c : Int8} {pairs : List (Int8 × Int32)} (hother : ∀ p ∈ pairs, p.1 ≠ c) :
    sumOf c pairs = 0 := by
  apply List.sum_eq_zero
  intro k hk
  obtain ⟨p, hp, rfl⟩ := List.mem_map.mp hk
  exact if_neg (hother p hp)

/-- What `map` emits for a character. -/
theorem sumOf_map (c : Int8) (content : List Int8) :
    sumOf c (map content) = asInt (content.count c) := by
  have hsum : ∀ indices : List Nat, sumOf c (indices.filterMap fun i =>
      if counts content i = 0 then none else some (Int8.ofNat i, counts content i)) =
      (indices.map fun i => if Int8.ofNat i = c then counts content i else 0).sum := by
    intro indices
    induction indices with
    | nil => rfl
    | cons i indices ih =>
        rw [List.filterMap_cons, List.map_cons, List.sum_cons, ← ih]
        by_cases hzero : counts content i = 0
        · simp [hzero]
        · simp [hzero, sumOf]
  have hindex : ∀ i ∈ Finset.range 256, i ≠ c.toUInt8.toNat →
      (if Int8.ofNat i = c then counts content i else 0) = 0 := by
    intro i hi hne
    apply if_neg
    rintro rfl
    exact hne (toNat_ofNat (Finset.mem_range.mp hi)).symm
  calc sumOf c (map content)
    _ = ((List.range 256).map fun i => if Int8.ofNat i = c then counts content i else 0).sum :=
        hsum _
    _ = ∑ i ∈ Finset.range 256, if Int8.ofNat i = c then counts content i else 0 := rfl
    _ = if Int8.ofNat c.toUInt8.toNat = c then counts content c.toUInt8.toNat else 0 :=
        Finset.sum_eq_single_of_mem _ (Finset.mem_range.mpr c.toUInt8.toNat_lt) hindex
    _ = asInt (content.count c) := by rw [if_pos (ofNat_toNat c), counts_eq]

/-- What `map` emits for a character, over all strings. -/
theorem sumOf_flatMap_map (c : Int8) (inputVec : List (List Int8)) :
    sumOf c (inputVec.flatMap map) = asInt (inputVec.flatten.count c) := by
  induction inputVec with
  | nil => rfl
  | cons content inputVec ih =>
      rw [List.flatMap_cons, sumOf_append, ih, sumOf_map, List.flatten_cons, List.count_append]
      exact (Int32.ofNat_add _ _).symm

/-- What `reduce` emits for a group. -/
theorem reduce_eq {pairs : IntermediateVec Int8 Int32} {c : Int8} (hne : pairs ≠ [])
    (hkey : ∀ p ∈ pairs, p.1 = c) : reduce pairs = some [(c, sumOf c pairs)] := by
  have hsum : pairs.foldl (fun count pair => count + pair.2) 0 = sumOf c pairs := by
    rw [← List.foldl_map (f := Prod.snd) (g := fun count k => count + k), ← List.sum_eq_foldl, sumOf]
    congr 1
    exact List.map_congr_left fun p hp => (if_pos (hkey p hp)).symm
  cases pairs with
  | nil => exact absurd rfl hne
  | cons p pairs =>
      obtain rfl := hkey p List.mem_cons_self
      rw [← hsum]
      rfl

end Sums

/-! ### The job -/

open Job

section

variable {n : Nat} {inputVec : List (List Int8)} {outputVec : List (Int8 × Int32)}
  {s : Job n (List Int8) Int8 Int32 (Int8 × Int32)} {first : Fin n} {count : Nat}

/-- The pairs of the job, in the order of the input. -/
theorem intermediatePairs_perm (h : JobInv counterClient inputVec outputVec first s count)
    (hdone : s.Done) : s.intermediatePairs.Perm (inputVec.flatMap map) := by
  have hcalls : (s.mapCalls.map Call.argument).Perm inputVec :=
    arguments_perm (fun call hcall => (h.books.mapCalls call hcall).1) (h.reducing hdone).mapped
  have hemitted : s.intermediatePairs = (s.mapCalls.map Call.argument).flatMap map := by
    rw [intermediatePairs, List.flatMap_map]
    exact List.flatMap_congr fun call hcall => (h.books.mapCalls call hcall).2
  rw [hemitted]
  exact hcalls.flatMap_right map

/-- The pairs of the calls of `reduce`. -/
theorem arguments_flatMap_perm (h : JobInv counterClient inputVec outputVec first s count)
    (hfirst : first.val = 0) (hdone : s.Done) :
    (s.reduceCalls.flatMap Call.argument).Perm (inputVec.flatMap map) := by
  have hflatten := (h.reduced hdone).flatten.trans (h.pairs_perm hfirst hdone)
  rw [← List.flatMap_def] at hflatten
  exact hflatten.trans (intermediatePairs_perm h hdone)

/-- A call of `reduce` has the pairs of one character, and emits their sum. -/
theorem exists_key (h : JobInv counterClient inputVec outputVec first s count) (hdone : s.Done)
    {call : Call (IntermediateVec Int8 Int32) (Int8 × Int32)} (hcall : call ∈ s.reduceCalls) :
    ∃ c, (∃ k, (c, k) ∈ call.argument) ∧ (∀ p ∈ call.argument, p.1 = c) ∧
      call.emitted = [(c, sumOf c call.argument)] := by
  obtain ⟨hargument, hreduce⟩ := (h.reducing hdone).calls call hcall
  obtain ⟨hne, hsame⟩ := ((h.reducing hdone).grouped isStrictWeakOrder).1 _
    (List.mem_of_getElem? hargument)
  obtain ⟨⟨c, k⟩, hmem⟩ := List.exists_mem_of_ne_nil _ hne
  have hkey : ∀ p ∈ call.argument, p.1 = c :=
    fun p hp => incomparable_iff.mp (hsame p hp (c, k) hmem)
  refine ⟨c, ⟨k, hmem⟩, hkey, ?_⟩
  have hemitted := reduce_eq hne hkey
  rw [show reduce call.argument = some call.emitted from hreduce] at hemitted
  exact Option.some.inj hemitted

/-- The calls with the pairs of other characters do not count. -/
theorem sumOf_call (h : JobInv counterClient inputVec outputVec first s count) (hdone : s.Done)
    {call : Call (IntermediateVec Int8 Int32) (Int8 × Int32)} (hcall : call ∈ s.reduceCalls)
    {p : Int8 × Int32} (hp : p ∈ call.argument) :
    sumOf p.1 call.argument = sumOf p.1 (s.reduceCalls.flatMap Call.argument) := by
  have horder := isStrictWeakOrder
  have hseparated := h.separated hdone
  obtain ⟨before, after, hsplit⟩ := List.append_of_mem hcall
  rw [hsplit] at hseparated ⊢
  obtain ⟨-, hafter, hbefore⟩ := List.pairwise_append.mp hseparated
  have hother : ∀ calls : List (Call (IntermediateVec Int8 Int32) (Int8 × Int32)),
      (∀ call' ∈ calls, ∀ q ∈ call'.argument, q.1 ≠ p.1) →
      sumOf p.1 (calls.flatMap Call.argument) = 0 := by
    intro calls hcalls
    apply sumOf_eq_zero
    intro q hq
    obtain ⟨call', hcall', hq'⟩ := List.mem_flatMap.mp hq
    exact hcalls call' hcall' q hq'
  have hzero_before := hother before fun call' hcall' q hq heq =>
    hbefore call' hcall' call List.mem_cons_self q hq p hp (incomparable_iff.mpr heq)
  have hzero_after := hother after fun call' hcall' q hq heq =>
    (List.pairwise_cons.mp hafter).1 call' hcall' p hp q hq (incomparable_iff.mpr heq.symm)
  rw [List.flatMap_append, List.flatMap_cons, sumOf_append, sumOf_append, hzero_before, hzero_after,
    Int32.zero_add, Int32.add_zero]

/-- The outputs have different characters. -/
theorem outputPairs_pairwise (h : JobInv counterClient inputVec outputVec first s count)
    (hdone : s.Done) : s.outputPairs.Pairwise fun p q => p.1 ≠ q.1 := by
  have horder := isStrictWeakOrder
  rw [outputPairs, List.pairwise_flatMap]
  constructor
  · intro call hcall
    obtain ⟨c, -, -, hemitted⟩ := exists_key h hdone hcall
    rw [hemitted]
    exact List.pairwise_singleton _ _
  · refine (h.separated hdone).imp_of_mem ?_
    intro call call' hcall hcall' hother p hp q hq heq
    obtain ⟨c, ⟨k, hk⟩, -, hemitted⟩ := exists_key h hdone hcall
    obtain ⟨c', ⟨k', hk'⟩, -, hemitted'⟩ := exists_key h hdone hcall'
    rw [hemitted, List.mem_singleton] at hp
    rw [hemitted', List.mem_singleton] at hq
    rw [hp, hq] at heq
    exact hother _ hk _ hk' (incomparable_iff.mpr heq)

/-- Less than `2 ^ 31` characters, so no count of a character in a string is zero as an `int` when the
character is there. -/
theorem exists_mem_flatMap_iff (hfew : inputVec.flatten.length < 2 ^ 31) (c : Int8) :
    (∃ k, (c, k) ∈ inputVec.flatMap map) ↔ c ∈ inputVec.flatten := by
  have hsmall : ∀ content ∈ inputVec, content.count c < 2 ^ 31 := by
    intro content hcontent
    have hle := (List.sublist_flatten_of_mem hcontent).length_le
    have hcount := List.count_le_length (a := c) (l := content)
    omega
  constructor
  · rintro ⟨k, hk⟩
    obtain ⟨content, hcontent, hmem⟩ := List.mem_flatMap.mp hk
    obtain ⟨rfl, hne⟩ := mem_map_iff.mp hmem
    apply List.mem_flatten_of_mem hcontent
    apply List.count_pos_iff.mp
    apply Nat.pos_of_ne_zero
    intro hzero
    rw [hzero] at hne
    exact hne rfl
  · intro hmem
    obtain ⟨content, hcontent, hc⟩ := List.mem_flatten.mp hmem
    refine ⟨_, List.mem_flatMap.mpr ⟨content, hcontent, mem_map_iff.mpr ⟨rfl, ?_⟩⟩⟩
    rw [ne_eq, asInt_eq_zero_iff (hsmall content hcontent)]
    exact (List.count_pos_iff.mpr hc).ne'

/-- What `reduce` emits in the whole job. -/
theorem outputPairs_perm (h : JobInv counterClient inputVec outputVec first s count)
    (hfirst : first.val = 0) (hfew : inputVec.flatten.length < 2 ^ 31) (hdone : s.Done) :
    s.outputPairs.Perm (occurrences inputVec) := by
  have hperm := arguments_flatMap_perm h hfirst hdone
  have hpairwise := outputPairs_pairwise h hdone
  have hnodup : s.outputPairs.Nodup := hpairwise.imp fun hne heq => hne (congrArg Prod.fst heq)
  have hnodup' : (occurrences inputVec).Nodup :=
    inputVec.flatten.nodup_dedup.map fun c c' heq => (Prod.mk.inj heq).1
  have hsum : ∀ {call : Call (IntermediateVec Int8 Int32) (Int8 × Int32)} {c : Int8} {k : Int32},
      call ∈ s.reduceCalls → (c, k) ∈ call.argument →
      sumOf c call.argument = asInt (inputVec.flatten.count c) := by
    intro call c k hcall hk
    rw [sumOf_call h hdone hcall hk, sumOf_perm hperm, sumOf_flatMap_map]
  rw [List.perm_ext_iff_of_nodup hnodup hnodup']
  rintro ⟨c, k⟩
  rw [outputPairs, List.mem_flatMap, occurrences, List.mem_map]
  constructor
  · rintro ⟨call, hcall, hmem⟩
    obtain ⟨c', ⟨k', hk'⟩, -, hemitted⟩ := exists_key h hdone hcall
    rw [hemitted, List.mem_singleton] at hmem
    obtain ⟨rfl, rfl⟩ := Prod.mk.inj hmem
    refine ⟨c, ?_, by rw [hsum hcall hk']⟩
    rw [List.mem_dedup, ← exists_mem_flatMap_iff hfew]
    exact ⟨k', hperm.mem_iff.mp (List.mem_flatMap.mpr ⟨call, hcall, hk'⟩)⟩
  · rintro ⟨c', hc', heq⟩
    obtain ⟨rfl, rfl⟩ := Prod.mk.inj heq
    rw [List.mem_dedup, ← exists_mem_flatMap_iff hfew] at hc'
    obtain ⟨k', hk'⟩ := hc'
    obtain ⟨call, hcall, hmem⟩ := List.mem_flatMap.mp (hperm.mem_iff.mpr hk')
    obtain ⟨c'', -, hkey, hemitted⟩ := exists_key h hdone hcall
    obtain rfl := hkey _ hmem
    exact ⟨call, hcall, by rw [hemitted, ← hsum hcall hmem]; exact List.mem_singleton_self _⟩

end

/-! ### Counting comes to an end -/

theorem length_map_le (content : List Int8) : (map content).length ≤ 256 := by
  have hle := List.length_filterMap_le (fun i =>
    if counts content i = 0 then none else some (Int8.ofNat i, counts content i)) (List.range 256)
  rwa [List.length_range] at hle

theorem answers (inputVec : List (List Int8)) : counterClient.Answers inputVec 256 1 where
  map content _ := ⟨map content, rfl⟩
  reduce vec hne := by
    cases vec with
    | nil => exact absurd rfl hne
    | cons p pairs => exact ⟨_, rfl⟩
  map_le := by
    rintro content _ emitted rfl
    exact length_map_le content
  reduce_le := by
    intro vec emitted hreduce
    cases vec with
    | nil => cases hreduce
    | cons p pairs =>
        obtain rfl := Option.some.inj hreduce
        rw [Nat.one_mul]
        exact Nat.le_add_left 1 pairs.length

/-- **Counting characters.** Whatever the workers do first, the job comes to an end, and then
`outputVec` has grown by every character of the strings with the number of its occurrences. -/
theorem counterClient_counts {n : Nat} (hn : 1 ≤ n) (hworkers : n < 2 ^ 31)
    {inputVec : List (List Int8)} (hsize : inputVec.length < 2 ^ 23)
    (hfew : inputVec.flatten.length < 2 ^ 31) (outputVec : List (Int8 × Int32))
    {events : List (JobEvent n)} {s : Job n (List Int8) Int8 Int32 (Int8 × Int32)}
    (hrun : Run (Meeting (Step counterClient inputVec) NotEarly)
      (create n Int8 Int32 inputVec outputVec) events s) :
    (s.Done → ∃ grown, s.outputVec = outputVec ++ grown ∧ grown.Perm (occurrences inputVec)) ∧
    ∃ rest s', Run (Meeting (Step counterClient inputVec) NotEarly) s rest s' ∧ s'.Done := by
  have horder := isStrictWeakOrder
  have hsize' : inputVec.length < 2 ^ 31 := hsize.trans (by decide)
  have hpairs : inputVec.length * 256 < 2 ^ 31 := by omega
  have hfirst : (⟨0, hn⟩ : Fin n).val = 0 := rfl
  constructor
  · intro hdone
    obtain ⟨⟨⟨count, h⟩, -, -⟩, -⟩ :=
      bound_of_run hfirst (answers inputVec) hworkers hsize' hpairs hrun
    obtain ⟨grown, hgrown, hperm⟩ := h.outputs hdone
    exact ⟨grown, hgrown, hperm.trans (outputPairs_perm h hfirst hfew hdone)⟩
  · exact exists_done_of_run hfirst (answers inputVec) hworkers hsize' hpairs hrun

/-- Two workers count the characters of "ab" and "a". -/
theorem counterClient_counts_aba : ∃ events, ∃ s : Job 2 (List Int8) Int8 Int32 (Int8 × Int32),
    Run (Meeting (Step counterClient [[97, 98], [97]]) NotEarly)
      (create 2 Int8 Int32 [[97, 98], [97]] []) events s ∧
    s.Done ∧ s.outputVec.Perm [(98, 1), (97, 2)] := by
  have hstart : Run (Meeting (Step counterClient [[97, 98], [97]]) NotEarly)
      (create 2 Int8 Int32 [[97, 98], [97]] []) [] (create 2 Int8 Int32 [[97, 98], [97]] []) := .start
  obtain ⟨-, rest, s, hrest, hdone⟩ := counterClient_counts (by decide) (by decide) (by decide)
    (by decide) [] hstart
  obtain ⟨grown, hgrown, hperm⟩ := (counterClient_counts (by decide) (by decide) (by decide)
    (by decide) [] hrest).1 hdone
  rw [List.nil_append] at hgrown
  rw [← hgrown] at hperm
  exact ⟨rest, s, hrest, hdone, hperm⟩

end CounterClient

end OsExercises.MapReduce
