import Std.Data.ExtTreeSet
import PartitionLease.Partition

namespace PartitionLease

/-- A set of keys. -/
abbrev KeySet := Std.ExtTreeSet String

/-- The known partitions by key, the subscription under which each is read, and two indices: the keys of
each topic and the keys of each broker. An index has an entry only for a topic or broker with keys. -/
structure Registry where
  partitions : Std.ExtTreeMap String Partition := ∅
  subscriptions : Std.ExtTreeMap String Subscription := ∅
  byTopic : Std.ExtTreeMap String KeySet := ∅
  byBroker : Std.ExtTreeMap Broker KeySet := ∅

/-- An entry of an index with one more key. -/
def KeySet.adding (keys : Option KeySet) (key : String) : Option KeySet := some ((keys.getD ∅).insert key)

/-- An entry of an index with one key less, and no entry once the last key is gone. -/
def KeySet.removing (keys : Option KeySet) (key : String) : Option KeySet :=
  keys.bind fun present =>
    let left := present.erase key
    if left.isEmpty then none else some left

namespace Registry

def find? (r : Registry) (key : String) : Option Partition := r.partitions[key]?

def contains (r : Registry) (key : String) : Bool := r.partitions.contains key

def size (r : Registry) : Nat := r.partitions.size

def isEmpty (r : Registry) : Bool := r.partitions.isEmpty

def subscription? (r : Registry) (key : String) : Option Subscription := r.subscriptions[key]?

def allSubscriptions (r : Registry) : List Subscription := r.subscriptions.toList.map (·.2)

/-- Makes a partition known under its key. A key that is known keeps the partition and the
subscription it has. -/
def insert (r : Registry) (s : Subscription) : Registry × Bool :=
  if r.contains s.key then (r, false)
  else ({ partitions := r.partitions.insert s.key s.partition
          subscriptions := r.subscriptions.insert s.key s
          byTopic := r.byTopic.alter s.partition.topic (KeySet.adding · s.key)
          byBroker := r.byBroker.alter s.partition.broker (KeySet.adding · s.key) }, true)

/-- Forgets a key, in the indices too, and hands out the partition it stood for. -/
def remove (r : Registry) (key : String) : Registry × Option Partition :=
  match r.partitions[key]? with
  | none => (r, none)
  | some p =>
    ({ partitions := r.partitions.erase key
       subscriptions := r.subscriptions.erase key
       byTopic := r.byTopic.alter p.topic (KeySet.removing · key)
       byBroker := r.byBroker.alter p.broker (KeySet.removing · key) }, some p)

theorem find?_insert (r : Registry) (s : Subscription) (k : String) :
    (r.insert s).1.find? k = if s.key = k then some ((r.find? s.key).getD s.partition) else r.find? k := by
  unfold insert find? contains
  split <;> rename_i h
  · split <;> rename_i e
    · subst e
      rw [Std.ExtTreeMap.contains_eq_isSome_getElem?] at h
      obtain ⟨p, hp⟩ := Option.isSome_iff_exists.mp h
      simp [hp]
    · rfl
  · simp only [Std.ExtTreeMap.getElem?_insert, Std.LawfulEqCmp.compare_eq_iff_eq]
    split <;> rename_i e
    · subst e
      simp_all
    · rfl

theorem find?_remove (r : Registry) (key k : String) :
    (r.remove key).1.find? k = if key = k then none else r.find? k := by
  unfold remove find?
  split <;> rename_i h
  · grind
  · grind

/-- The known partitions of an index entry. -/
def partitionsOf (r : Registry) (keys : Option KeySet) : List Partition :=
  (keys.getD ∅).toList.filterMap (r.partitions[·]?)

def partitionsForTopic (r : Registry) (topic : String) : List Partition := r.partitionsOf r.byTopic[topic]?

/-- The known partitions of exactly this broker. Another announcement of the same endpoint has none of
them. -/
def partitionsForBroker (r : Registry) (broker : Broker) : List Partition :=
  r.partitionsOf r.byBroker[broker]?

def topics (r : Registry) : List String := r.byTopic.keys

def brokers (r : Registry) : List Broker := r.byBroker.keys

end Registry

end PartitionLease
