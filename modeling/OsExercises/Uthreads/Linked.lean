import OsExercises.Uthreads.Api
import OsExercises.Library.NodeList

/-!
# The lists with their nodes

`Api` has the lists of the library by their values. Here they are linked lists, and the functions of
`uthreads.cpp` that go through one of them do so with an iterator, statement by statement. What does
not touch a list is taken over.
-/

namespace OsExercises.Uthreads

/-- The static variables, with the nodes of the lists. -/
structure Linked where
  readyQueue : NodeList Address
  allThreads : NodeList Address
  availableId : List Bool
  runningThread : Address
  threadToDelete : Address
  d : Bool
  totalQuantum : Nat
  threads : Address → Option Thread
  allocated : Nat

/-- The steps that C++ leaves undefined: the use of an erased node, of an object that is not there or
of the front of an empty list. -/
inductive Fault where
  | cursor (fault : CursorFault)
  | object
  | emptyList
deriving DecidableEq

abbrev Cursors := StateT Linked (Except Fault)

namespace Linked

/-- The library without its nodes. -/
def library (s : Linked) : ThreadLibrary where
  readyQueue := s.readyQueue.values
  allThreads := s.allThreads.values
  availableId := s.availableId
  runningThread := s.runningThread
  threadToDelete := s.threadToDelete
  d := s.d
  totalQuantum := s.totalQuantum
  threads := s.threads
  allocated := s.allocated

/-- All but the lists. -/
def setRest (s : Linked) (lib : ThreadLibrary) : Linked :=
  { s with
    availableId := lib.availableId
    runningThread := lib.runningThread
    threadToDelete := lib.threadToDelete
    d := lib.d
    totalQuantum := lib.totalQuantum
    threads := lib.threads
    allocated := lib.allocated }

/-- Nodes for the lists of a library. -/
def ofLibrary (lib : ThreadLibrary) : Linked where
  readyQueue := .ofValues lib.readyQueue
  allThreads := .ofValues lib.allThreads
  availableId := lib.availableId
  runningThread := lib.runningThread
  threadToDelete := lib.threadToDelete
  d := lib.d
  totalQuantum := lib.totalQuantum
  threads := lib.threads
  allocated := lib.allocated

/-- A part that leaves the lists as they are. -/
def onRest {α : Type} (program : LibraryM α) : Cursors α := fun s =>
  match program s.library with
  | some (value, lib) => .ok (value, s.setRest lib)
  | none => .error .object

def readyQueueIn : ListIn Linked Fault Address where
  view := readyQueue
  update := fun l s => { s with readyQueue := l }
  fault := .cursor

def allThreadsIn : ListIn Linked Fault Address where
  view := allThreads
  update := fun l s => { s with allThreads := l }
  fault := .cursor

def popFront : Cursors Unit := fun s =>
  match s.readyQueue.cells with
  | [] => .error .emptyList
  | _ :: _ => .ok ((), { s with readyQueue := s.readyQueue.popFront })

def pushBack (p : Address) : Cursors Unit := fun s =>
  .ok ((), { s with readyQueue := s.readyQueue.pushBack p })

/-- `*(*it)`, for a method that reads the object. -/
def object (list : ListIn Linked Fault Address) (it : Nat) : Cursors Thread := do
  let p ← list.deref it
  onRest (deref p)

/-- A method of `*it` that changes the object. -/
def assignObject (list : ListIn Linked Fault Address) (it : Nat) (change : Thread → Thread) :
    Cursors Unit := do
  let p ← list.deref it
  onRest (assign p change)

/-! ### The functions with a loop -/

def threadCleanup : Cursors Unit := do
  allThreadsIn.forEach fun it => do
    let p ← allThreadsIn.deref it
    onRest (delete p)
    allThreadsIn.assign it null
  modify fun s => { s with allThreads := s.allThreads.clear, readyQueue := s.readyQueue.clear }

def searchThread (id : Int32) : Cursors Address := do
  let found ← allThreadsIn.loop fun it => do
    let t ← object allThreadsIn it
    if t.id = id then do
      let p ← allThreadsIn.deref it
      pure (some p)
    else
      pure none
  pure (found.getD null)

def deleteThreadFromReadyQueue (id : Int32) : Cursors Int32 := do
  let found ← readyQueueIn.loop fun it => do
    let t ← object readyQueueIn it
    if t.id = id then do
      readyQueueIn.erase it
      pure (some 0)
    else
      pure none
  pure (found.getD (-1))

def sleepCheckThread (it : Nat) : Cursors Unit := do
  let t ← object allThreadsIn it
  if t.sleep then
    assignObject allThreadsIn it Thread.decreaceTimeToSleep
    let t ← object allThreadsIn it
    if t.timeToSleep = 0 then
      assignObject allThreadsIn it (Thread.setSleep false)
      let t ← object allThreadsIn it
      if t.state = .ready then
        let p ← allThreadsIn.deref it
        pushBack p

def sleepCheck : Cursors Unit := allThreadsIn.forEach sleepCheckThread

def terminateHandler (tid : Int32) : Cursors Outcome := do
  onRest (setIdValue (asUInt64 tid) false)
  onRest (modify fun lib => { lib with threadToDelete := lib.runningThread })
  popFront
  let _ ← allThreadsIn.loop fun it => do
    let t ← object allThreadsIn it
    if t.id = tid then do
      allThreadsIn.erase it
      onRest (modify fun lib => { lib with d := true })
      pure (some ())
    else
      pure none
  onRest do
    let next ← front
    assign next (Thread.setState .running)
    startQuantum next
    siglongjmp next

def uthreadTerminate (tid : Int32) : Cursors Outcome := do
  let exist ← onRest (checkIfThreadExist (asUInt64 tid))
  if exist = -1 then
    pure (.failed "thread library error: tid don't exist\n")
  else if tid = 0 then do
    threadCleanup
    pure .cleanedUp
  else do
    let running ← onRest (do
      let lib ← get
      deref lib.runningThread)
    if running.id = tid then
      terminateHandler tid
    else do
      onRest (setIdValue (asUInt64 tid) false)
      let _ ← deleteThreadFromReadyQueue tid
      let _ ← allThreadsIn.loop fun it => do
        let t ← object allThreadsIn it
        if t.id = tid then do
          allThreadsIn.erase it
          -- the iterator is used after its node is erased
          let p ← allThreadsIn.deref it
          onRest (delete p)
          allThreadsIn.assign it null
          pure (some ())
        else
          pure none
      pure (.returned 0)

end Linked

/-- The functions with a loop over a list. -/
inductive ListLoop where
  | searchThread (id : Int32)
  | deleteThreadFromReadyQueue (id : Int32)
  | sleepCheck
  | terminateHandler (tid : Int32)
  | uthreadTerminate (tid : Int32)
  | threadCleanup
deriving DecidableEq

/-- With the nodes of the lists. -/
def ListLoop.perform : ListLoop → Cursors Unit
  | .searchThread id => do
      let _ ← Linked.searchThread id
      pure ()
  | .deleteThreadFromReadyQueue id => do
      let _ ← Linked.deleteThreadFromReadyQueue id
      pure ()
  | .sleepCheck => Linked.sleepCheck
  | .terminateHandler tid => do
      let _ ← Linked.terminateHandler tid
      pure ()
  | .uthreadTerminate tid => do
      let _ ← Linked.uthreadTerminate tid
      pure ()
  | .threadCleanup => Linked.threadCleanup

/-- By the values of the lists. -/
def ListLoop.model : ListLoop → LibraryM Unit
  | .searchThread id => do
      let _ ← Uthreads.searchThread id
      pure ()
  | .deleteThreadFromReadyQueue id => do
      let _ ← Uthreads.deleteThreadFromReadyQueue id
      pure ()
  | .sleepCheck => Uthreads.sleepCheck
  | .terminateHandler tid => do
      let _ ← Uthreads.terminateHandler tid
      pure ()
  | .uthreadTerminate tid => do
      let _ ← Uthreads.uthreadTerminate tid
      pure ()
  | .threadCleanup => Uthreads.threadCleanup

end OsExercises.Uthreads
