import PartitionLease.Metrics.Tally

namespace PartitionLease

/-- Why partitions left the books. -/
inductive RemovalMode
  | commit
  | rollback
  | admin
deriving DecidableEq

def RemovalMode.label : RemovalMode → String
  | commit => "commit"
  | rollback => "rollback"
  | admin => "admin"

/-- What ended a checkout that was reclaimed. -/
inductive ReclaimReason
  | returned
  | expired
  | timer
deriving DecidableEq

def ReclaimReason.label : ReclaimReason → String
  | returned => "returned"
  | expired => "expired"
  | timer => "timer"

/-- How an event came to the queue. -/
inductive OfferPath
  | queued
  | notify
deriving DecidableEq

def OfferPath.label : OfferPath → String
  | queued => "queued"
  | notify => "notify"

/-- What is published about partitions: three sizes as they were last told, and running totals. -/
structure AllocationFigures where
  registered : Nat := 0
  idle : Nat := 0
  used : Nat := 0
  added : Nat := 0
  removed : Tally := ∅
  reclaimed : Tally := ∅
  sweeps : Nat := 0

namespace AllocationFigures

def publish (f : AllocationFigures) (registered idle used : Nat) : AllocationFigures :=
  { f with registered, idle, used }

def recordAdded (f : AllocationFigures) : AllocationFigures := { f with added := f.added + 1 }

/-- A removal that removed nothing leaves no trace, not even its label. -/
def recordRemoved (f : AllocationFigures) (mode : String) (n : Nat) : AllocationFigures :=
  if n = 0 then f else { f with removed := f.removed.add mode n }

def recordReclaimed (f : AllocationFigures) (reason : String) : AllocationFigures :=
  { f with reclaimed := f.reclaimed.add reason 1 }

def recordSweep (f : AllocationFigures) : AllocationFigures := { f with sweeps := f.sweeps + 1 }

end AllocationFigures

/-- What is published about events: how many wait, and how many were offered and delivered so far. -/
structure EventFigures where
  pending : Nat := 0
  offered : Tally := ∅
  delivered : Nat := 0

namespace EventFigures

def publish (f : EventFigures) (pending : Nat) : EventFigures := { f with pending }

def recordOffered (f : EventFigures) (path : String) : EventFigures :=
  { f with offered := f.offered.add path 1 }

def recordDelivered (f : EventFigures) : EventFigures := { f with delivered := f.delivered + 1 }

end EventFigures

end PartitionLease
