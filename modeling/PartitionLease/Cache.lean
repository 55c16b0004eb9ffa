import PartitionLease.Assignment.Expiry
import PartitionLease.Assignment.HandOut
import PartitionLease.Assignment.Registration
import PartitionLease.Clock
import PartitionLease.Config
import PartitionLease.Consistency
import PartitionLease.EventQueue.Action
import PartitionLease.Ledger
import PartitionLease.Metrics.Exposition
import PartitionLease.RebalanceEvent
import PartitionLease.Session

namespace PartitionLease

/-- What a consumer knows of its partitions and of the events that move them. The clock tells when
partitions were checked out; the time in which leases run out is kept beside the checkouts and has
nothing to do with it. -/
structure Cache where
  config : Config
  clock : Clock
  session : Session := {}
  assignment : Assignment
  ledger : Ledger := {}
  events : EventQueue RebalanceEvent := {}

namespace Cache

/-- An empty cache. Leases run out by themselves only where time is kept. -/
def new (config : Config) (clock : Clock) (timeKept : Bool) : Cache :=
  { config, clock, assignment := { pool := { timers := { kept := timeKept } } } }

/-- What can happen to a cache. `setClock` and `advanceClock` move the clock that the cache holds, and
nothing else moves it. `expire` is an alarm that goes off, at whatever time; `pass` is the passing of
time, in which alarms go off as they are due; `mark` is someone writing a mark who knows the partition.
The order in a sweep is the one in which it comes upon the keys. -/
inductive Action
  | setConsumer (consumer group : String)
  | setClock (millis : UInt64)
  | advanceClock (span : Duration)
  | add (p : Partition)
  | withdraw (subscriptions : List Subscription) (rollback : Bool) (removed : RemovedPartitions)
  | drop (keys : List String)
  | take
  | markUsed (key : String)
  | release (key : String) (consumed : Bool)
  | reclaim (key : String) (requeue : Bool)
  | sweep (maxAge : Duration) (order : List String)
  | expire (lease : Lease)
  | pass (millis : Nat)
  | mark (p : Partition) (consumed : Bool)
  | present (key : String)
  | events (action : EventQueue.Action RebalanceEvent)

/-- What is seen of an action. -/
inductive Reply
  | none
  | flag (answer : Bool)
  | count (n : Nat)
  | partition (p : Option Partition)
  | removed (partitions : RemovedPartitions)
  | events (reply : EventQueue.Reply RebalanceEvent)

/-- Lets time pass. Once nobody holds the cache any more its alarms are gone with it. -/
def pass (c : Cache) (millis : Nat) : Cache :=
  if c.events.isGone then c
  else { c with assignment := c.assignment.passTo (c.assignment.pool.timers.now + millis) }

def step (c : Cache) : Action → Cache × Reply
  | .setConsumer consumer group =>
    ({ c with session := c.session.setConsumer consumer group }, .none)
  | .setClock millis => ({ c with clock := c.clock.set millis }, .none)
  | .advanceClock span => ({ c with clock := c.clock.advance span }, .none)
  | .add p =>
    let (consumer, group) := c.session.identity
    let (assignment, added) := c.assignment.add consumer group p
    ({ c with assignment }, .flag added)
  | .withdraw subscriptions rollback removed =>
    let (assignment, removed) := c.assignment.withdraw subscriptions rollback removed
    ({ c with assignment }, .removed removed)
  | .drop keys =>
    let (assignment, n) := c.assignment.drop keys
    ({ c with assignment }, .count n)
  | .take =>
    let (assignment, p) := c.assignment.take c.clock.now c.config.lease?
    ({ c with assignment }, .partition p)
  | .markUsed key =>
    let (assignment, done) := c.assignment.markUsed key c.clock.now c.config.lease?
    ({ c with assignment }, .flag done)
  | .release key consumed =>
    let (assignment, done) := c.assignment.release key consumed
    ({ c with assignment }, .flag done)
  | .reclaim key requeue =>
    let (assignment, ended) := c.assignment.reclaim key requeue
    ({ c with assignment }, .flag ended)
  | .sweep maxAge order =>
    let (assignment, n) := c.assignment.sweep c.clock.now maxAge order
    ({ c with assignment }, .count n)
  | .expire lease => ({ c with assignment := c.assignment.expire lease }, .none)
  | .pass millis => (c.pass millis, .none)
  | .mark p consumed => ({ c with assignment := c.assignment.mark p consumed }, .none)
  | .present key =>
    let (ledger, answer) := c.ledger.present key
    ({ c with ledger }, .flag answer)
  | .events action =>
    let (events, reply) := c.events.step action
    ({ c with events }, .events reply)

/-- Everything happens that can happen without anyone doing anything: leases that are over already end,
and waiting calls go on. Tells which calls ended. -/
def settle (c : Cache) : Cache × List Ended :=
  let c := c.pass 0
  let (events, ended) := c.events.settle
  ({ c with events }, ended)

def checkInvariants (c : Cache) : Except CacheError Unit :=
  match c.assignment.fault? with
  | none => .ok ()
  | some fault => .error (.invariantViolation fault.message)

def metrics (c : Cache) : Metrics :=
  { allocation := c.assignment.figures, events := c.events.figures, firsts := c.ledger.firsts }

end Cache

end PartitionLease
