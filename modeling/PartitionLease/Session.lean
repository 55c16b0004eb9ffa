namespace PartitionLease

/-- The number that stands where the coordinator has given none. -/
def invalidId : Int64 := -2

/-- Who the consumer is, and under which flow control it reads. -/
structure Session where
  consumer : String := ""
  group : String := ""
  underGroupControl : Bool := false
  defaultFlowId : Int64 := invalidId
  groupFlowId : Int64 := invalidId
  queryPriorityId : Int32 := invalidId.toInt32
deriving DecidableEq

namespace Session

/-- The consumer and its group, which always change together. -/
def identity (s : Session) : String × String := (s.consumer, s.group)

def setConsumer (s : Session) (consumer group : String) : Session :=
  { s with consumer := consumer, group := group }

/-- Flow control is left to the brokers, so what they announce about it is not kept. -/
def updateDefaultFlow (s : Session) (_id : Int64) (_info : String) : Session := s

def updateGroupFlow (s : Session) (_priority : Int32) (_id : Int64) (_info : String) : Session := s

end Session

end PartitionLease
