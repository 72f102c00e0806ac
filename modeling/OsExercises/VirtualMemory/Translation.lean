import OsExercises.VirtualMemory.PhysicalMemory

/-!
# Virtual memory

The functions of `VirtualMemory.cpp`. Addresses, frames and page numbers are natural numbers and a
word that is used as one goes through `asUInt64`; the table entries and the local variables of type
`word_t` stay words.
-/

namespace OsExercises.VirtualMemory

variable (c : MemoryConstants)

/-- The index of a virtual address at a level of the tables; the top level can be narrower. -/
def calculateBits (virtualAddress level : Nat) : Nat :=
  let remainder := c.virtualAddressWidth % c.offsetWidth
  let offsetWidth := if level ≠ 0 ∨ remainder = 0 then c.offsetWidth else remainder
  let mask := (1 <<< offsetWidth) - 1
  let shiftAmount := (c.tablesDepth - level) * c.offsetWidth
  (virtualAddress >>> shiftAmount) &&& mask

def findOffset (virtualAddress : Nat) : Nat :=
  let dist := 64 - c.offsetWidth
  ((virtualAddress <<< dist) % 2 ^ 64) >>> dist

def initializeFrame (frame : Nat) : Vm Unit :=
  (List.range c.pageSize).foldlM (fun _ i => pmWrite c (frame * c.pageSize + i) 0) ()

def cyclicalDistance (p1 p2 : Nat) : Word :=
  let subtraction := if p2 < p1 then p1 - p2 else p2 - p1
  -- `NUM_PAGES - subtraction` is computed in `uint64_t`
  let around := (c.numPages + 2 ^ 64 - subtraction) % 2 ^ 64
  if around < subtraction then asInt around else asInt subtraction

/-- The out-parameters of `search_frame`. -/
structure SearchState where
  emptyFrame : Bool
  maxFrame : Word
  resultFrame : Nat
  prevFrameAdd : Nat
  maxDist : Word
  resultPath : Nat
deriving DecidableEq

def updateDistance (pageIn currPath frame illegalAdd prevAdd : Nat) (st : SearchState) :
    SearchState :=
  if frame ≠ illegalAdd then
    let currDist := cyclicalDistance c pageIn currPath
    if st.maxDist < currDist then
      { st with maxDist := currDist, resultFrame := frame, prevFrameAdd := prevAdd,
                resultPath := currPath }
    else st
  else st

/-- The page number of a path grows by one index at each level. -/
def extendPath (currPath i : Nat) : Nat := ((currPath <<< c.offsetWidth) % 2 ^ 64) ||| i

/-- The depth-first search. `levels` is `TABLES_DEPTH - depth`, so a frame without levels below it
is a page; `prevAdd` is the address of the entry that led to the frame. -/
def searchFrame (illegalAdd pageIn levels frame prevAdd currPath : Nat) (st : SearchState) :
    Vm SearchState :=
  if st.emptyFrame ∨ c.numFrames ≤ frame then
    pure st
  else
    match levels with
    | 0 =>
        pure (updateDistance c pageIn currPath frame illegalAdd prevAdd
          { st with emptyFrame := false })
    | levels + 1 => do
        let (isEmpty, st) ← (List.range c.pageSize).foldlM (fun (isEmpty, st) i => do
          let currAdd := frame * c.pageSize + i
          let rowVal ← pmRead c currAdd
          if rowVal ≠ 0 then
            let st := if st.maxFrame < rowVal then { st with maxFrame := rowVal } else st
            let path := extendPath c currPath i
            let st ← searchFrame illegalAdd pageIn levels (asUInt64 rowVal) currAdd path st
            pure (false, st)
          else
            pure (isEmpty, st)) (true, st)
        if isEmpty ∧ frame ≠ illegalAdd then
          pure { st with emptyFrame := true, prevFrameAdd := prevAdd, resultFrame := frame }
        else
          pure st

/-- The frame for a missing table or page: an empty table, a frame never used, or an evicted page's. -/
def findFrame (illegalAdd : Nat) (pageIn : Word) : Vm Nat := do
  let st ← searchFrame c illegalAdd (asUInt64 pageIn) c.tablesDepth 0 0 0
    { emptyFrame := false, maxFrame := 0, resultFrame := 0, prevFrameAdd := 0, maxDist := 0,
      resultPath := 0 }
  if st.emptyFrame then
    pmWrite c st.prevFrameAdd 0
    pure st.resultFrame
  else if st.maxFrame.toInt + 1 < c.numFrames then
    pure (asUInt64 (st.maxFrame + 1))
  else
    pmWrite c st.prevFrameAdd 0
    pmEvict c st.resultFrame st.resultPath
    pure st.resultFrame

/-- One round of the loop of `translate_address`: the table entry is followed, and filled first if
it is empty. -/
def translateLevel (virtualAddress : Nat) (pageIn lastFrame : Word) (level : Nat) : Vm Word := do
  let currBit := calculateBits c virtualAddress level
  let nextFrame := (asUInt64 lastFrame * c.pageSize + currBit) % 2 ^ 64
  let currFrame ← pmRead c nextFrame
  if currFrame = 0 then
    let found ← findFrame c (asUInt64 lastFrame) pageIn
    let currFrame := asInt found
    if level + 1 < c.tablesDepth then
      initializeFrame c (asUInt64 currFrame)
    else
      pmRestore c (asUInt64 currFrame) (asUInt64 pageIn)
    pmWrite c nextFrame currFrame
    pure currFrame
  else
    pure currFrame

def translateAddress (virtualAddress : Nat) : Vm Nat := do
  let pageIn := asInt (virtualAddress >>> c.offsetWidth)
  let currFrame ← (List.range c.tablesDepth).foldlM (translateLevel c virtualAddress pageIn) 0
  pure (asUInt64 currFrame)

def vmInitialize : Vm Unit := initializeFrame c 0

/-- `none` is the return value 0; a word is the return value 1 with the word in `*value`. -/
def vmRead (virtualAddress : Nat) : Vm (Option Word) :=
  if c.virtualMemorySize - 1 < virtualAddress then
    pure none
  else do
    let offsetAddress := findOffset c virtualAddress
    let frame ← translateAddress c virtualAddress
    let value ← pmRead c (frame * c.pageSize + offsetAddress)
    pure (some value)

/-- The return value, 0 or 1, as a `Bool`. -/
def vmWrite (virtualAddress : Nat) (value : Word) : Vm Bool :=
  if c.virtualMemorySize - 1 < virtualAddress then
    pure false
  else do
    let offsetAddress := findOffset c virtualAddress
    let frame ← translateAddress c virtualAddress
    pmWrite c (frame * c.pageSize + offsetAddress) value
    pure true

/-! ### Sequences of calls -/

inductive VmCall where
  | init
  | read (virtualAddress : Nat)
  | write (virtualAddress : Nat) (value : Word)

/-- What a call returns: nothing, the word read, or whether the word was written. -/
inductive VmResult where
  | initialized
  | word (value : Option Word)
  | written (success : Bool)
deriving DecidableEq

def VmCall.perform : VmCall → Vm VmResult
  | .init => do
      vmInitialize c
      pure .initialized
  | .read virtualAddress => do
      let value ← vmRead c virtualAddress
      pure (.word value)
  | .write virtualAddress value => do
      let success ← vmWrite c virtualAddress value
      pure (.written success)

/-- The results of a sequence of calls, in order. -/
def performAll : List VmCall → Vm (List VmResult)
  | [] => pure []
  | call :: rest => do
      let result ← call.perform c
      let results ← performAll rest
      pure (result :: results)

/-- A machine before its first call. -/
def Memory.machine (m : Memory) : Machine := { memory := m, calls := [] }

end OsExercises.VirtualMemory
