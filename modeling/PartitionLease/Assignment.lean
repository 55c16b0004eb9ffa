import PartitionLease.Metrics.Figures
import PartitionLease.Pool
import PartitionLease.Registry

namespace PartitionLease

/-- The checkout that an alarm is to end. -/
structure Lease where
  key : String
  token : Nat
deriving DecidableEq

/-- Which partitions are known, where each of them is, and how its last consumer left it. -/
structure Assignment where
  registry : Registry := {}
  pool : Pool Lease
  marks : Marks := Marks.clear
  figures : AllocationFigures := {}

namespace Assignment

def withRegistry (a : Assignment) (registry : Registry) : Assignment := { a with registry }

def withPool (a : Assignment) (pool : Pool Lease) : Assignment := { a with pool }

def withFigures (a : Assignment) (figures : AllocationFigures) : Assignment := { a with figures }

/-- Tells the sizes. Every operation that may have changed one ends with this. -/
def publish (a : Assignment) : Assignment :=
  a.withFigures (a.figures.publish a.registry.size a.pool.idle.length a.pool.used.size)

def recordReclaimed (a : Assignment) (reason : ReclaimReason) : Assignment :=
  a.withFigures (a.figures.recordReclaimed reason.label)

/-- Writes the mark of a partition, known or not. -/
def mark (a : Assignment) (p : Partition) (consumed : Bool) : Assignment :=
  { a with marks := a.marks.write p consumed }

/-- Writes the mark of the partition known under a key. -/
def markKey (a : Assignment) (key : String) (consumed : Bool) : Assignment :=
  match a.registry.find? key with
  | some p => a.mark p consumed
  | none => a

@[simp] theorem pool_markKey (a : Assignment) (key : String) (consumed : Bool) :
    (a.markKey key consumed).pool = a.pool := by
  unfold markKey
  split <;> rfl

/-- Ends any checkout of a key and takes the key out of the line. To be queued again it must still be
known, and then goes to the end of the line. Apart from a checkout, a key changes sides only here. -/
def vacate (a : Assignment) (key : String) (requeue : Bool) : Assignment × Bool :=
  let (pool, ended) := a.pool.release key
  let pool := if requeue && a.registry.contains key then (pool.pushIdle key).1 else pool
  (a.withPool pool, ended.isSome)

theorem armed_vacate_sublist (a : Assignment) (key : String) (requeue : Bool) :
    (a.vacate key requeue).1.pool.timers.armed.Sublist a.pool.timers.armed := by
  unfold vacate Pool.release Pool.pushIdle
  dsimp only
  repeat' split
  all_goals exact Timers.armed_cancelAny_sublist _ _

/-- Forgets a key altogether. -/
def forget (a : Assignment) (key : String) : Assignment × Option Partition :=
  let (registry, p) := a.registry.remove key
  (((a.withRegistry registry).vacate key false).1, p)

/-- Checks a key out. With a lease, and where time is kept, the checkout gets an alarm to end it. -/
def checkOut (a : Assignment) (key : String) (now : UInt64) (lease? : Option Duration) : Assignment :=
  let (pool, token) := a.pool.checkOut key now
  let pool := match lease? with
    | none => pool
    | some lease => match pool.arm lease ⟨key, token⟩ with
      | (pool, some timer) => pool.attach key token timer
      | (pool, none) => pool
  a.withPool pool

end Assignment

end PartitionLease
