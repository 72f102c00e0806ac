import OsExercises.Uthreads.Thread
import OsExercises.Library.Runs

/-!
# The thread library

The functions of `uthreads.cpp`. `SIGVTALRM` is blocked from the first line of a function to the
`unblock_signals (true)` before its return, and the bodies here are what lies between the two; in
`Signals` the signal mask and the places where a signal gets in are added. System calls, whose
arguments are fixed and valid, succeed.

A body that switches to another thread does not come back: its outcome says whether the thread it
switches to starts at its entry point or goes on behind the `sigsetjmp` of the handler it left
through, where the pending thread is deleted.
-/

namespace OsExercises.Uthreads

/-- How a body ends: with a value to return, with a message for `stderr` and the value -1, in another
thread, or before `exit (0)`. -/
inductive Outcome where
  | returned (value : Int32)
  | failed (message : String)
  | entered (entryPoint : Address)
  | resumed
  | cleanedUp
deriving DecidableEq

def threadCleanup : LibraryM Unit := do
  let lib ← get
  lib.allThreads.forM delete
  modify fun lib => { lib with allThreads := [], readyQueue := [] }

def setIdValue (pos : Nat) (value : Bool) : LibraryM Unit :=
  modify fun lib =>
    if pos < lib.availableId.length then { lib with availableId := lib.availableId.set pos value }
    else lib

def checkIfThreadExist (pos : Nat) : LibraryM Int32 := do
  let lib ← get
  match lib.availableId[pos]? with
  | some true => pure 0
  | some false => pure (-1)
  | none => pure (-1)

/-- The first index available for a new thread. -/
def availableIndex : LibraryM Int32 := do
  let lib ← get
  match lib.availableId.findIdx? (fun value => !value) with
  | some index => pure (asInt index)
  | none => pure (-1)

/-- The loop of a search: the first thread of a list with the id. -/
def searchIn (id : Int32) : List Address → LibraryM Address
  | [] => pure null
  | p :: rest => do
      let t ← deref p
      if t.id = id then
        pure p
      else
        searchIn id rest

def searchThread (id : Int32) : LibraryM Address := do
  let lib ← get
  searchIn id lib.allThreads

def deleteThreadFromReadyQueue (id : Int32) : LibraryM Int32 := do
  let lib ← get
  let p ← searchIn id lib.readyQueue
  if p = null then
    pure (-1)
  else
    set { lib with readyQueue := lib.readyQueue.erase p }
    pure 0

def sleepCheckThread (p : Address) : LibraryM Unit := do
  let t ← deref p
  if t.sleep then
    assign p Thread.decreaceTimeToSleep
    let t ← deref p
    if t.timeToSleep = 0 then
      assign p (Thread.setSleep false)
      let t ← deref p
      if t.state = .ready then
        pushBack p

def sleepCheck : LibraryM Unit := do
  let lib ← get
  lib.allThreads.forM sleepCheckThread

/-! ### Switching -/

/-- The branch of the two handlers in which `sigsetjmp` returns for the second time. -/
def returnFromSigsetjmp : LibraryM Outcome := do
  let lib ← get
  if lib.d then
    delete lib.threadToDelete
    modify fun lib => { lib with threadToDelete := null, d := false }
  pure .resumed

def siglongjmp (p : Address) : LibraryM Outcome := do
  let t ← deref p
  match t.env with
  | .entry entryPoint => pure (.entered entryPoint)
  | .blockHandler => returnFromSigsetjmp
  | .timeHandler => returnFromSigsetjmp

/-- The quantum of the thread begins. -/
def startQuantum (next : Address) : LibraryM Unit := do
  modify fun lib => { lib with runningThread := next, totalQuantum := lib.totalQuantum + 1 }
  assign next Thread.increaceQuantumCounter

def blockHandler (needToBlock : Bool) : LibraryM Outcome := do
  let lib ← get
  popFront
  if needToBlock then
    assign lib.runningThread (Thread.setState .blocked)
  let next ← front
  assign next (Thread.setState .running)
  assign lib.runningThread (Thread.saveEnv .blockHandler)
  startQuantum next
  siglongjmp next

def terminateHandler (tid : Int32) : LibraryM Outcome := do
  setIdValue (asUInt64 tid) false
  modify fun lib => { lib with threadToDelete := lib.runningThread }
  popFront
  let p ← searchThread tid
  if p ≠ null then
    modify fun lib => { lib with allThreads := lib.allThreads.erase p, d := true }
  let next ← front
  assign next (Thread.setState .running)
  startQuantum next
  siglongjmp next

def timeHandler : LibraryM Outcome := do
  sleepCheck
  let lib ← get
  popFront
  pushBack lib.runningThread
  assign lib.runningThread (Thread.setState .ready)
  let next ← front
  assign next (Thread.setState .running)
  assign lib.runningThread (Thread.saveEnv .timeHandler)
  startQuantum next
  siglongjmp next

/-! ### The calls -/

def uthreadInit (quantumUsecs : Int32) : LibraryM Outcome := do
  if quantumUsecs ≤ 0 then
    pure (.failed "thread library error: quantum_usecs must be positive integer\n")
  else
    setIdValue 0 true
    let mainThread ← newThread 0 null
    assign mainThread (Thread.setState .running)
    modify fun lib => { lib with allThreads := lib.allThreads ++ [mainThread] }
    pushBack mainThread
    startQuantum mainThread
    pure (.returned 0)

def uthreadSpawn (entryPoint : Address) : LibraryM Outcome := do
  if entryPoint = null then
    pure (.failed "thread library error: entry point cant be nullptr\n")
  else
    let index ← availableIndex
    if index = -1 then
      pure (.failed "thread library error: reached max threads\n")
    else
      let t ← newThread index entryPoint
      pushBack t
      modify fun lib => { lib with allThreads := lib.allThreads ++ [t] }
      setIdValue (asUInt64 index) true
      pure (.returned index)

def uthreadTerminate (tid : Int32) : LibraryM Outcome := do
  let lib ← get
  let exist ← checkIfThreadExist (asUInt64 tid)
  if exist = -1 then
    pure (.failed "thread library error: tid don't exist\n")
  else if tid = 0 then
    threadCleanup
    pure .cleanedUp
  else
    let running ← deref lib.runningThread
    if running.id = tid then
      terminateHandler tid
    else
      setIdValue (asUInt64 tid) false
      let _ ← deleteThreadFromReadyQueue tid
      let p ← searchThread tid
      if p ≠ null then
        -- the node is erased before the object it points to is deleted
        modify fun lib => { lib with allThreads := lib.allThreads.erase p }
        delete p
      pure (.returned 0)

def uthreadBlock (tid : Int32) : LibraryM Outcome := do
  let lib ← get
  let exist ← checkIfThreadExist (asUInt64 tid)
  if tid = 0 ∨ exist = -1 then
    if tid = 0 then
      pure (.failed "thread library error: cant block the main thread (tid = 0)\n")
    else
      pure (.failed "thread library error: tid don't exist\n")
  else
    let threadToBlock ← searchThread tid
    if threadToBlock = lib.runningThread then
      blockHandler true
    else
      let t ← deref threadToBlock
      if t.state = .ready then
        let _ ← deleteThreadFromReadyQueue tid
        assign threadToBlock (Thread.setState .blocked)
      pure (.returned 0)

def uthreadResume (tid : Int32) : LibraryM Outcome := do
  let exist ← checkIfThreadExist (asUInt64 tid)
  if exist = -1 then
    pure (.failed "thread library error: tid don't exist\n")
  else
    let threadToResume ← searchThread tid
    let t ← deref threadToResume
    if t.state = .blocked then
      assign threadToResume (Thread.setState .ready)
      if !t.sleep then
        pushBack threadToResume
    pure (.returned 0)

def uthreadSleep (numQuantums : Int32) : LibraryM Outcome := do
  let lib ← get
  let running ← deref lib.runningThread
  if running.id = 0 then
    pure (.failed "thread library error: can't put the main thread to sleep \n")
  else
    assign lib.runningThread (Thread.setSleep true)
    assign lib.runningThread (Thread.setTimeToSleep numQuantums.toInt)
    assign lib.runningThread (Thread.setState .ready)
    blockHandler false

def uthreadGetTid : LibraryM Outcome := do
  let lib ← get
  let t ← deref lib.runningThread
  pure (.returned t.id)

def uthreadGetTotalQuantums : LibraryM Outcome := do
  let lib ← get
  pure (.returned (asInt lib.totalQuantum))

def uthreadGetQuantums (tid : Int32) : LibraryM Outcome := do
  let exist ← checkIfThreadExist (asUInt64 tid)
  if exist = -1 then
    pure (.failed "thread library error: tid don't exist\n")
  else
    let t ← searchThread tid
    let t ← deref t
    pure (.returned (asInt t.quantumCounter))

/-! ### Runs -/

/-- A call of the running thread, or a timer tick. -/
inductive Op where
  | spawn (entryPoint : Address)
  | terminate (tid : Int32)
  | block (tid : Int32)
  | resume (tid : Int32)
  | sleep (numQuantums : Int32)
  | getTid
  | getTotalQuantums
  | getQuantums (tid : Int32)
  | tick
deriving DecidableEq

def Op.perform : Op → LibraryM Outcome
  | .spawn entryPoint => uthreadSpawn entryPoint
  | .terminate tid => uthreadTerminate tid
  | .block tid => uthreadBlock tid
  | .resume tid => uthreadResume tid
  | .sleep numQuantums => uthreadSleep numQuantums
  | .getTid => uthreadGetTid
  | .getTotalQuantums => uthreadGetTotalQuantums
  | .getQuantums tid => uthreadGetQuantums tid
  | .tick => timeHandler

/-- One operation, whatever it returns. -/
def Performs (lib : ThreadLibrary) (op : Op) (lib' : ThreadLibrary) : Prop :=
  op ≠ .terminate 0 ∧ ∃ outcome, op.perform lib = some (outcome, lib')

/-- The library after a sequence of operations, for the runs that are computed. -/
def performAll : List Op → ThreadLibrary → Option ThreadLibrary
  | [], lib => some lib
  | op :: rest, lib =>
      if op = .terminate 0 then
        none
      else
        (op.perform lib).bind fun result => performAll rest result.2

def Initialized (lib : ThreadLibrary) : Prop :=
  ∃ quantumUsecs, uthreadInit quantumUsecs .start = some (.returned 0, lib)

/-- The states from a successful `uthread_init` on, the termination of the main thread apart. -/
def Reachable (lib : ThreadLibrary) : Prop :=
  ∃ start ops, Initialized start ∧ Run Performs start ops lib

end OsExercises.Uthreads
