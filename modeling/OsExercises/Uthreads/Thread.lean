import OsExercises.Library.Words
import Mathlib.Control.Monad.Basic
import Mathlib.Logic.Function.Basic

/-!
# Threads and the state of the library

The thread objects of `thread.cpp` and the static variables of `uthreads.cpp`. An object is known by
its address, and `threads` has the objects that are created and not yet deleted. A program over this
state is a `StateT ThreadLibrary Option`: `none` is a step that C++ leaves undefined, be it the use
of a deleted object or `front` of an empty list.

A thread is entered or resumed through `_env`. Of it the model keeps where the jump leads: to the
entry point, or to one of the two handlers that save it.
-/

namespace OsExercises.Uthreads

inductive State where
  | ready
  | running
  | blocked
deriving DecidableEq

abbrev Address := Nat

/-- `nullptr`. -/
def null : Address := 0

inductive Env where
  | entry (entryPoint : Address)
  | blockHandler
  | timeHandler
deriving DecidableEq

structure Thread where
  id : Int32
  state : State
  timeToSleep : Int
  sleep : Bool
  quantumCounter : Nat
  env : Env
deriving DecidableEq

namespace Thread

/-- The constructor of `thread`. -/
def new (id : Int32) (entryPoint : Address) : Thread where
  id := id
  state := .ready
  timeToSleep := 0
  sleep := false
  quantumCounter := 0
  env := .entry entryPoint

def setState (changeTo : State) (t : Thread) : Thread := { t with state := changeTo }

def setSleep (state : Bool) (t : Thread) : Thread := { t with sleep := state }

def setTimeToSleep (q : Int) (t : Thread) : Thread := { t with timeToSleep := q }

def decreaceTimeToSleep (t : Thread) : Thread := { t with timeToSleep := t.timeToSleep - 1 }

def increaceQuantumCounter (t : Thread) : Thread :=
  { t with quantumCounter := t.quantumCounter + 1 }

/-- The first return of `sigsetjmp`. -/
def saveEnv (env : Env) (t : Thread) : Thread := { t with env := env }

end Thread

def maxThreadNum : Nat := 100

structure ThreadLibrary where
  readyQueue : List Address
  allThreads : List Address
  availableId : List Bool
  runningThread : Address
  threadToDelete : Address
  d : Bool
  totalQuantum : Nat
  threads : Address → Option Thread
  allocated : Nat

/-- The static variables before `uthread_init`. -/
def ThreadLibrary.start : ThreadLibrary where
  readyQueue := []
  allThreads := []
  availableId := List.replicate maxThreadNum false
  runningThread := null
  threadToDelete := null
  d := false
  totalQuantum := 0
  threads := fun _ => none
  allocated := 0

abbrev LibraryM := StateT ThreadLibrary Option

/-! ### Objects and lists -/

def deref (p : Address) : LibraryM Thread := fun lib =>
  (lib.threads p).map fun t => (t, lib)

/-- A method call that changes an object. -/
def assign (p : Address) (change : Thread → Thread) : LibraryM Unit := fun lib =>
  (lib.threads p).map fun t =>
    ((), { lib with threads := Function.update lib.threads p (some (change t)) })

/-- Addresses are not reused, so that an address names one object of the run. -/
def newThread (id : Int32) (entryPoint : Address) : LibraryM Address := fun lib =>
  some (lib.allocated + 1,
    { lib with
      threads := Function.update lib.threads (lib.allocated + 1) (some (Thread.new id entryPoint))
      allocated := lib.allocated + 1 })

def delete (p : Address) : LibraryM Unit := fun lib =>
  if p = null then
    some ((), lib)
  else
    (lib.threads p).map fun _ => ((), { lib with threads := Function.update lib.threads p none })

def popFront : LibraryM Unit := fun lib =>
  match lib.readyQueue with
  | [] => none
  | _ :: rest => some ((), { lib with readyQueue := rest })

def front : LibraryM Address := fun lib =>
  lib.readyQueue.head?.map fun p => (p, lib)

def pushBack (p : Address) : LibraryM Unit :=
  modify fun lib => { lib with readyQueue := lib.readyQueue ++ [p] }

end OsExercises.Uthreads
