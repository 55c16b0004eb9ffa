import PartitionLease.Assignment

namespace PartitionLease

namespace Assignment

/-- Hands out the partition that has been in line longest. Keys at the head of the line that are not
known are dropped. -/
def take (a : Assignment) (now : UInt64) (lease? : Option Duration) : Assignment × Option Partition :=
  match a.pool.idle.dropWhile (!a.registry.contains ·) with
  | [] => (a.withPool (a.pool.withIdle []), none)
  | key :: rest =>
    (((a.withPool (a.pool.withIdle rest)).checkOut key now lease?).publish, a.registry.find? key)

/-- Hands out one partition that is known and not checked out. -/
def markUsed (a : Assignment) (key : String) (now : UInt64) (lease? : Option Duration) :
    Assignment × Bool :=
  if a.registry.contains key && !a.pool.isUsed key then ((a.checkOut key now lease?).publish, true)
  else (a, false)

/-- Takes a partition back from its consumer. What is not checked out cannot be given back. -/
def release (a : Assignment) (key : String) (consumed : Bool) : Assignment × Bool :=
  if a.pool.isUsed key then
    (((a.markKey key consumed).vacate key true).1.publish.recordReclaimed .returned, true)
  else (a, false)

/-- Ends any checkout of a key without a word on how far its consumer came. -/
def reclaim (a : Assignment) (key : String) (requeue : Bool) : Assignment × Bool :=
  let (a, ended) := a.vacate key requeue
  (a.publish, ended)

end Assignment

end PartitionLease
