import PartitionLease.Partition

namespace PartitionLease

/-- A way in which the books on partitions can contradict themselves. -/
inductive Fault
  | subscriptionCount (subscriptions partitions : Nat)
  | misfiled (key stored : String)
  | unsubscribed (key : String)
  | notInTopicIndex (key : String)
  | notInBrokerIndex (key : String)
  | emptyTopic (topic : String)
  | wrongTopic (key topic : String)
  | orphanInTopicIndex (key : String)
  | emptyBroker (broker : Broker)
  | wrongBroker (key : String) (broker : Broker)
  | orphanInBrokerIndex (key : String)
  | idleAndUsed (key : String)
  | idleTwice (key : String)
  | idleUnregistered (key : String)
  | usedUnregistered (key : String)
deriving DecidableEq

def Fault.message : Fault → String
  | subscriptionCount subscriptions partitions =>
    subscriptions.repr ++ " subscribe infos for " ++ partitions.repr ++ " partitions"
  | misfiled key stored => "partition " ++ key ++ " stored under key " ++ stored
  | unsubscribed key => "partition " ++ key ++ " has no subscribe info"
  | notInTopicIndex key => "partition " ++ key ++ " missing from topic index"
  | notInBrokerIndex key => "partition " ++ key ++ " missing from broker index"
  | emptyTopic topic => "empty topic bucket " ++ topic
  | wrongTopic key topic => "key " ++ key ++ " indexed under wrong topic " ++ topic
  | orphanInTopicIndex key => "orphaned key " ++ key ++ " in topic index"
  | emptyBroker broker => "empty broker bucket " ++ broker.text
  | wrongBroker key broker => "key " ++ key ++ " indexed under wrong broker " ++ broker.text
  | orphanInBrokerIndex key => "orphaned key " ++ key ++ " in broker index"
  | idleAndUsed key => "partition " ++ key ++ " is both idle and used"
  | idleTwice key => "partition " ++ key ++ " is idle more than once"
  | idleUnregistered key => "idle partition " ++ key ++ " is not registered"
  | usedUnregistered key => "used partition " ++ key ++ " is not registered"

end PartitionLease
