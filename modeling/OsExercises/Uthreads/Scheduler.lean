import OsExercises.Uthreads.Scheduling

/-!
# The scheduler without its objects

What the library is for, over thread ids only: the tasks in the order they were spawned, the queue
with the running one in front, and the number of quanta. There are no objects, no addresses, no id
table and no pending deletion. A task starts at its entry point when its first quantum begins and is
resumed in all others.

`ThreadLibrary.scheduler` forgets the rest of the state of the library. One operation of the library
does to this view what the scheduler does, with the same outcome; so the two have the same traces.
-/

namespace OsExercises.Uthreads

open ThreadLibrary

/-! ### The scheduler -/

/-- A thread as its users know it. -/
structure Task where
  id : Int32
  /-- Where the first quantum starts, until it does. -/
  start : Option Address
  blocked : Bool
  /-- The ticks until it wakes up, if it sleeps. -/
  wakesIn : Option Int
  quantums : Nat
deriving DecidableEq

namespace Task

def new (id : Int32) (entryPoint : Address) : Task where
  id := id
  start := some entryPoint
  blocked := false
  wakesIn := none
  quantums := 0

def setBlocked (blocked : Bool) (task : Task) : Task := { task with blocked := blocked }

def fallAsleep (numQuantums : Int32) (task : Task) : Task :=
  { task with wakesIn := some numQuantums.toInt }

def beginQuantum (task : Task) : Task :=
  { task with start := none, quantums := task.quantums + 1 }

def countdown (task : Task) : Task :=
  { task with wakesIn := task.wakesIn.bind fun n => if n = 1 then none else some (n - 1) }

/-- The next tick puts the task into the queue. -/
def wakesUp (task : Task) : Bool := decide (task.wakesIn = some 1) && !task.blocked

end Task

@[ext]
structure Scheduler where
  tasks : List Task
  queue : List Int32
  total : Nat
deriving DecidableEq

namespace Scheduler

/-- The main task runs. -/
def initial : Scheduler where
  tasks := [(Task.new 0 null).beginQuantum]
  queue := [0]
  total := 1

variable (s : Scheduler)

def running : Option Int32 := s.queue.head?

def find (tid : Int32) : Option Task := s.tasks.find? fun task => task.id = tid

/-- The least id that no task has. -/
def freeId : Option Int32 :=
  ((List.range maxThreadNum).find? fun i => (s.find (asInt i)).isNone).map asInt

def change (tid : Int32) (f : Task → Task) : Scheduler :=
  { s with tasks := s.tasks.map fun task => if task.id = tid then f task else task }

def spawn (id : Int32) (entryPoint : Address) : Scheduler :=
  { s with tasks := s.tasks ++ [.new id entryPoint], queue := s.queue ++ [id] }

def unqueue (tid : Int32) : Scheduler := { s with queue := s.queue.filter fun id => id ≠ tid }

def remove (tid : Int32) : Scheduler :=
  { s.unqueue tid with tasks := s.tasks.filter fun task => task.id ≠ tid }

def resume (task : Task) : Scheduler :=
  { s.change task.id (Task.setBlocked false) with
    queue := if task.wakesIn.isSome then s.queue else s.queue ++ [task.id] }

/-- The quantum of the running task is over: it goes to the back, behind the tasks that wake up. -/
def rotate : Scheduler :=
  { s with
    tasks := s.tasks.map Task.countdown
    queue := s.queue.tail ++ (s.tasks.filter Task.wakesUp).map Task.id ++ s.queue.head?.toList }

/-- The front of the queue begins a quantum. -/
def dispatch : Option (Outcome × Scheduler) := do
  let tid ← s.running
  let task ← s.find tid
  let outcome := match task.start with
    | some entryPoint => .entered entryPoint
    | none => .resumed
  pure (outcome, { s.change tid Task.beginQuantum with total := s.total + 1 })

/-- A task stops running or leaves the queue; when it was the running one, the next one runs. -/
def handOver (tid : Int32) (s' : Scheduler) : Option (Outcome × Scheduler) :=
  if s.running = some tid then s'.dispatch else some (.returned 0, s')

def perform : Op → Option (Outcome × Scheduler)
  | .spawn entryPoint =>
      if entryPoint = null then
        some (.failed "thread library error: entry point cant be nullptr\n", s)
      else
        match s.freeId with
        | none => some (.failed "thread library error: reached max threads\n", s)
        | some id => some (.returned id, s.spawn id entryPoint)
  | .terminate tid =>
      match s.find tid with
      | none => some (.failed "thread library error: tid don't exist\n", s)
      | some _ => s.handOver tid (s.remove tid)
  | .block tid =>
      if tid = 0 then
        some (.failed "thread library error: cant block the main thread (tid = 0)\n", s)
      else
        match s.find tid with
        | none => some (.failed "thread library error: tid don't exist\n", s)
        | some _ => s.handOver tid ((s.change tid (Task.setBlocked true)).unqueue tid)
  | .resume tid =>
      match s.find tid with
      | none => some (.failed "thread library error: tid don't exist\n", s)
      | some task => some (.returned 0, if task.blocked then s.resume task else s)
  | .sleep numQuantums => do
      let tid ← s.running
      if tid = 0 then
        some (.failed "thread library error: can't put the main thread to sleep \n", s)
      else
        s.handOver tid ((s.change tid (Task.fallAsleep numQuantums)).unqueue tid)
  | .getTid => s.running.map fun tid => (.returned tid, s)
  | .getTotalQuantums => some (.returned (asInt s.total), s)
  | .getQuantums tid =>
      match s.find tid with
      | none => some (.failed "thread library error: tid don't exist\n", s)
      | some task => some (.returned (asInt task.quantums), s)
  | .tick => s.rotate.dispatch

/-- One operation with what it answers; the termination of the main task ends the process. -/
def Answers (s : Scheduler) (answer : Op × Outcome) (s' : Scheduler) : Prop :=
  answer.1 ≠ .terminate 0 ∧ s.perform answer.1 = some (answer.2, s')

end Scheduler

/-! ### The view -/

/-- A thread that had a quantum does not start any more, whatever its environment. -/
def Thread.start (t : Thread) : Option Address :=
  match t.env with
  | .entry entryPoint => if t.quantumCounter = 0 then some entryPoint else none
  | _ => none

def Thread.task (t : Thread) : Task where
  id := t.id
  start := t.start
  blocked := t.state == .blocked
  wakesIn := if t.sleep then some t.timeToSleep else none
  quantums := t.quantumCounter

namespace ThreadLibrary

variable (lib : ThreadLibrary)

def taskAt (p : Address) : Option Task := (lib.threads p).map Thread.task

def idAt (p : Address) : Option Int32 := (lib.threads p).map Thread.id

def scheduler : Scheduler where
  tasks := lib.allThreads.filterMap lib.taskAt
  queue := lib.readyQueue.filterMap lib.idAt
  total := lib.totalQuantum

end ThreadLibrary

/-- One operation of the library with what it answers. -/
def Answers (lib : ThreadLibrary) (answer : Op × Outcome) (lib' : ThreadLibrary) : Prop :=
  answer.1 ≠ .terminate 0 ∧ answer.1.perform lib = some (answer.2, lib')

end OsExercises.Uthreads
