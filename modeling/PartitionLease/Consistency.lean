import PartitionLease.Assignment
import PartitionLease.Fault

namespace PartitionLease

/-- The entries of a registry in an order in which they are gone through. -/
structure Registry.Listing where
  partitions : List (String × Partition)
  topics : List (String × List String)
  brokers : List (Broker × List String)

def Registry.listing (r : Registry) : Registry.Listing where
  partitions := r.partitions.toList
  topics := r.byTopic.toList.map fun (topic, keys) => (topic, keys.toList)
  brokers := r.byBroker.toList.map fun (broker, keys) => (broker, keys.toList)

namespace Registry

def partitionFault (r : Registry) (entry : String × Partition) : Option Fault :=
  let (key, p) := entry
  if p.key ≠ key then some (.misfiled p.key key)
  else if !r.subscriptions.contains key then some (.unsubscribed key)
  else if !(r.byTopic[p.topic]?).any (·.contains key) then some (.notInTopicIndex key)
  else if !(r.byBroker[p.broker]?).any (·.contains key) then some (.notInBrokerIndex key)
  else none

def topicFault (r : Registry) (entry : String × List String) : Option Fault :=
  let (topic, keys) := entry
  if keys.isEmpty then some (.emptyTopic topic)
  else keys.findSome? fun key => match r.partitions[key]? with
    | none => some (.orphanInTopicIndex key)
    | some p => if p.topic = topic then none else some (.wrongTopic key topic)

def brokerFault (r : Registry) (entry : Broker × List String) : Option Fault :=
  let (broker, keys) := entry
  if keys.isEmpty then some (.emptyBroker broker)
  else keys.findSome? fun key => match r.partitions[key]? with
    | none => some (.orphanInBrokerIndex key)
    | some p => if p.broker = broker then none else some (.wrongBroker key broker)

/-- The first contradiction between the four maps met on the way through a listing. -/
def faultIn (r : Registry) (l : Listing) : Option Fault :=
  (if r.subscriptions.size ≠ r.partitions.size then
      some (.subscriptionCount r.subscriptions.size r.partitions.size) else none)
    |>.or (l.partitions.findSome? r.partitionFault)
    |>.or (l.topics.findSome? r.topicFault)
    |>.or (l.brokers.findSome? r.brokerFault)

def fault? (r : Registry) : Option Fault := r.faultIn r.listing

end Registry

/-- The first key in line that is also checked out, or again in line further back. -/
def Pool.lineFault {α : Type} (p : Pool α) : List String → Option Fault
  | [] => none
  | key :: rest =>
    if p.isUsed key then some (.idleAndUsed key)
    else if rest.contains key then some (.idleTwice key)
    else p.lineFault rest

def Pool.fault? {α : Type} (p : Pool α) : Option Fault := p.lineFault p.idle

namespace Assignment

/-- The first contradiction found when the registry is gone through in the order of `l` and the
checkouts in that of `used`. -/
def faultIn (a : Assignment) (l : Registry.Listing) (used : List String) : Option Fault :=
  (a.registry.faultIn l)
    |>.or a.pool.fault?
    |>.or (a.pool.idle.findSome? fun key =>
      if a.registry.contains key then none else some (.idleUnregistered key))
    |>.or (used.findSome? fun key =>
      if a.registry.contains key then none else some (.usedUnregistered key))

def fault? (a : Assignment) : Option Fault := a.faultIn a.registry.listing a.pool.used.keys

end Assignment

end PartitionLease
