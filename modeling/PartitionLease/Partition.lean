import PartitionLease.Broker

namespace PartitionLease

/-- What stands between the three parts of a partition's key. -/
def keySeparator : String := ":"

/-- The name under which a topic's partition on a broker is known: broker number, topic and partition
number. The topic is written as it is, so it may itself hold separators. -/
def partitionKey (broker : BrokerId) (topic : String) (id : Int32) : String :=
  broker.text ++ keySeparator ++ topic ++ keySeparator ++ id.toInt.repr

/-- One partition of a topic, served by one broker, as it was met once. The same partition met again
is another value with the same key: `serial` numbers the meetings, so equality of partitions is
identity while several partitions may share a key. -/
structure Partition where
  serial : Nat
  broker : Broker
  topic : String
  id : Int32
deriving DecidableEq

def Partition.key (p : Partition) : String := partitionKey p.broker.id p.topic p.id

/-- For every partition, whether its last consumer finished with it. A next consumer may then resume
where that one stopped, and must otherwise go back to a safe point. The marks are shared: whoever
knows the partition sees what was last written. -/
abbrev Marks := Partition → Bool

def Marks.clear : Marks := fun _ => false

def Marks.write (marks : Marks) (p : Partition) (consumed : Bool) : Marks :=
  fun q => if q = p then consumed else marks q

@[simp] theorem Marks.write_self (marks : Marks) (p : Partition) (consumed : Bool) :
    marks.write p consumed p = consumed := if_pos rfl

theorem Marks.write_of_ne (marks : Marks) {p q : Partition} (consumed : Bool) (other : q ≠ p) :
    marks.write p consumed q = marks q := if_neg other

/-- A consumer of a group reads a partition. -/
structure Subscription where
  consumer : String
  group : String
  partition : Partition
deriving DecidableEq

def Subscription.key (s : Subscription) : String := s.partition.key

end PartitionLease
