import OsExercises.VirtualMemory.MemoryConstants
import OsExercises.Library.PathTree
import Mathlib.Control.Monad.Basic

/-!
# Physical memory

The four operations of `PhysicalMemory.cpp` with their assertions. A program over the physical
memory is a `StateT Machine Option`, and `none` is an assertion that fires. The machine also keeps
the calls made so far, newest first, each with the memory it was made in; no operation reads them.

The RAM is resized to frames of zeros at the first call; here it has that size from the start.
-/

namespace OsExercises.VirtualMemory

/-- `page_t`: the words of a page by their offsets. -/
abbrev Page := Nat → Word

/-- The RAM by frames, the swap file and the eviction counter. -/
structure Memory where
  ram : Nat → Page
  swapFile : Nat → Option Page
  evictCounter : Nat

inductive PmCall where
  | read (physicalAddress : Nat)
  | write (physicalAddress : Nat) (value : Word)
  | evict (frameIndex evictedPageIndex : Nat)
  | restore (frameIndex restoredPageIndex : Nat)

structure Machine where
  memory : Memory
  calls : List (PmCall × Memory)

abbrev Vm := StateT Machine Option

variable (c : MemoryConstants)

/-- A call of the physical memory: it is noted, its assertion is checked and its effect takes place. -/
def pmCall {α : Type} (call : PmCall) (assertion : Memory → Bool) (effect : Memory → α × Memory) :
    Vm α := fun s =>
  if assertion s.memory then
    let result := effect s.memory
    some (result.1, { memory := result.2, calls := (call, s.memory) :: s.calls })
  else
    none

namespace Memory

/-- The word at a physical address. -/
def load (m : Memory) (physicalAddress : Nat) : Word :=
  m.ram (physicalAddress / c.pageSize) (physicalAddress % c.pageSize)

def store (m : Memory) (physicalAddress : Nat) (value : Word) : Memory :=
  { m with ram := fun frame offset =>
      if frame = physicalAddress / c.pageSize ∧ offset = physicalAddress % c.pageSize then value
      else m.ram frame offset }

def evict (m : Memory) (frameIndex evictedPageIndex : Nat) : Memory :=
  { m with
    swapFile := Function.update m.swapFile evictedPageIndex (some (m.ram frameIndex))
    evictCounter := m.evictCounter + 1 }

/-- A page that is not in the swap file is left as the frame has it. -/
def restore (m : Memory) (frameIndex restoredPageIndex : Nat) : Memory :=
  match m.swapFile restoredPageIndex with
  | none => m
  | some page =>
      { m with
        ram := Function.update m.ram frameIndex page
        swapFile := Function.update m.swapFile restoredPageIndex none }

end Memory

def pmRead (physicalAddress : Nat) : Vm Word :=
  pmCall (.read physicalAddress) (fun _ => physicalAddress < c.ramSize)
    fun m => (m.load c physicalAddress, m)

def pmWrite (physicalAddress : Nat) (value : Word) : Vm Unit :=
  pmCall (.write physicalAddress value) (fun _ => physicalAddress < c.ramSize)
    fun m => ((), m.store c physicalAddress value)

def pmEvict (frameIndex evictedPageIndex : Nat) : Vm Unit :=
  pmCall (.evict frameIndex evictedPageIndex)
    (fun m => (m.swapFile evictedPageIndex).isNone && decide (frameIndex < c.numFrames) &&
      decide (evictedPageIndex < c.numPages))
    fun m => ((), m.evict frameIndex evictedPageIndex)

def pmRestore (frameIndex restoredPageIndex : Nat) : Vm Unit :=
  pmCall (.restore frameIndex restoredPageIndex) (fun _ => frameIndex < c.numFrames)
    fun m => ((), m.restore frameIndex restoredPageIndex)

end OsExercises.VirtualMemory
