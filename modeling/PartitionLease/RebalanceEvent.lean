import PartitionLease.Partition

namespace PartitionLease

/-- What a group's coordinator asks of a consumer when it shares the partitions out anew. -/
inductive EventKind
  | connect
  | disconnect
  | report
  | refresh
  | stopRebalance
  | onlyConnect
  | onlyDisconnect
  | unknown
deriving DecidableEq

/-- The number by which the coordinator writes the kind. -/
def EventKind.code : EventKind → Int32
  | connect => 1
  | disconnect => 2
  | report => 3
  | refresh => 4
  | stopRebalance => 5
  | onlyConnect => 10
  | onlyDisconnect => 20
  | unknown => -1

/-- A number that stands for no kind is read as the unknown one. -/
def EventKind.ofCode (code : Int32) : EventKind :=
  if code = 1 then connect
  else if code = 2 then disconnect
  else if code = 3 then report
  else if code = 4 then refresh
  else if code = 5 then stopRebalance
  else if code = 10 then onlyConnect
  else if code = 20 then onlyDisconnect
  else unknown

/-- How far the consumer has come with an event. -/
inductive EventStatus
  | todo
  | processing
  | done
  | failed
deriving DecidableEq

def EventStatus.code : EventStatus → Int32
  | todo => 0
  | processing => 1
  | done => 2
  | failed => -1

instance : Inhabited EventStatus := ⟨.todo⟩

/-- One instruction of the coordinator, waiting for the consumer. -/
structure RebalanceEvent where
  id : Int64
  kind : EventKind
  status : EventStatus := .todo
  subscriptions : List Subscription
deriving DecidableEq

end PartitionLease
