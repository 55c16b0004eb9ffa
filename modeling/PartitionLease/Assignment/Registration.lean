import PartitionLease.Assignment

namespace PartitionLease

/-- Removed partitions, by the broker they were with. -/
abbrev RemovedPartitions := Std.ExtTreeMap Broker (List Partition)

namespace Assignment

/-- Makes a partition known for a consumer and its group, and available. A key that is known keeps its
partition and subscription; it goes to the end of the line, out of a consumer's hands if need be. -/
def add (a : Assignment) (consumer group : String) (p : Partition) : Assignment × Bool :=
  let (registry, added) := a.registry.insert ⟨consumer, group, p⟩
  let a := ((a.withRegistry registry).vacate p.key true).1.publish
  (if added then a.withFigures a.figures.recordAdded else a, added)

/-- Removes one subscription's partition and puts it behind those already removed from its broker. One
that is checked out is marked as finished with, unless the removal is rolled back. -/
def withdrawOne (rollback : Bool) (state : Assignment × RemovedPartitions × Nat) (s : Subscription) :
    Assignment × RemovedPartitions × Nat :=
  let (a, removed, count) := state
  match a.registry.find? s.key with
  | none => ((a.forget s.key).1, removed, count)
  | some p =>
    let marked := if a.pool.isUsed s.key then a.mark p (!rollback) else a
    ((marked.forget s.key).1, removed.insert p.broker (removed[p.broker]?.getD [] ++ [p]), count + 1)

/-- Removes the partitions of some subscriptions and collects them by broker. Where there are none to
remove nothing at all happens. -/
def withdraw (a : Assignment) (subscriptions : List Subscription) (rollback : Bool)
    (removed : RemovedPartitions) : Assignment × RemovedPartitions :=
  if subscriptions.isEmpty then (a, removed)
  else
    let (a, removed, count) := subscriptions.foldl (withdrawOne rollback) (a, removed, 0)
    let a := a.publish
    let mode := if rollback then RemovalMode.rollback else RemovalMode.commit
    (a.withFigures (a.figures.recordRemoved mode.label count), removed)

/-- Removes keys, and tells how many of them were known. -/
def drop (a : Assignment) (keys : List String) : Assignment × Nat :=
  let (a, count) := keys.foldl (fun (a, count) key =>
    match a.forget key with
    | (a, some _) => (a, count + 1)
    | (a, none) => (a, count)) (a, 0)
  let a := a.publish
  (a.withFigures (a.figures.recordRemoved RemovalMode.admin.label count), count)

/-- The partitions offered whose keys are not known, as often as they are offered. -/
def unsubscribed (a : Assignment) (subscriptions : List Subscription) : List Partition :=
  if a.registry.isEmpty then subscriptions.map (·.partition)
  else (subscriptions.filter (!a.registry.contains ·.key)).map (·.partition)

end Assignment

end PartitionLease
