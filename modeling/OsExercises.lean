import OsExercises.MemoryLatency.Measure
import OsExercises.MemoryLatency.Period
import OsExercises.MemoryLatency.Series
import OsExercises.Uthreads.Shares
import OsExercises.Uthreads.Quanta
import OsExercises.Uthreads.Errors
import OsExercises.Uthreads.Sleep
import OsExercises.Uthreads.Wakeup
import OsExercises.Uthreads.Release
import OsExercises.Uthreads.Cursors
import OsExercises.Uthreads.Signals
import OsExercises.Uthreads.Timer
import OsExercises.MapReduce.Correctness
import OsExercises.MapReduce.Progress
import OsExercises.MapReduce.Snapshot
import OsExercises.MapReduce.Waiting
import OsExercises.MapReduce.CleanUp
import OsExercises.MapReduce.SampleClient
import OsExercises.MapReduce.Count
import OsExercises.MapReduce.Races
import OsExercises.MapReduce.Objects
import OsExercises.VirtualMemory.FlatMemory
import OsExercises.VirtualMemory.Stability
import OsExercises.VirtualMemory.Policy
import OsExercises.VirtualMemory.Shortage
import OsExercises.VirtualMemory.Readings
import OsExercises.VirtualMemory.Restarts
import OsExercises.VirtualMemory.Mapping
