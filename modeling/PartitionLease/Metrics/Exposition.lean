import PartitionLease.Metrics.Figures
import PartitionLease.Metrics.Histogram
import PartitionLease.Metrics.ShortestDecimal

namespace PartitionLease

/-- Everything that is published: about partitions, about events, how many keys were presented for the
first time, and how long the sweeps took, in seconds. -/
structure Metrics where
  allocation : AllocationFigures := {}
  events : EventFigures := {}
  firsts : Nat := 0
  sweepSeconds : Histogram := .ofBounds [0.00001, 0.0001, 0.0005, 0.001, 0.005, 0.01, 0.05, 0.1]

inductive FamilyKind
  | gauge
  | counter
  | histogram
deriving DecidableEq

def FamilyKind.text : FamilyKind → String
  | gauge => "gauge"
  | counter => "counter"
  | histogram => "histogram"

/-- Figures of one name, each for a value of the label if the family has one. -/
structure Family where
  name : String
  help : String
  kind : FamilyKind
  label : Option String := none
  samples : List (Option String × Int) := []

/-- A total is kept in 64 bits and starts again at zero. -/
def counterReading (n : Nat) : Int := (n % UInt64.size : Nat)

/-- A size is kept in 64 bits of which one is the sign. -/
def gaugeReading (n : Nat) : Int := Int.bmod n UInt64.size

namespace Family

def ofGauge (name help : String) (n : Nat) : Family :=
  { name, help, kind := .gauge, samples := [(none, gaugeReading n)] }

def ofCounter (name help : String) (n : Nat) : Family :=
  { name, help, kind := .counter, samples := [(none, counterReading n)] }

def ofTally (name help label : String) (tally : Tally) : Family :=
  { name, help, kind := .counter, label := some label
    samples := tally.toList.map fun (value, n) => (some value, counterReading n) }

def fullName (f : Family) : String := "leasehold_" ++ f.name

/-- How many sets of label values a family has figures for. A histogram always has its one. -/
def sampleCount (f : Family) : Nat := if f.kind = .histogram then 1 else f.samples.length

end Family

namespace Metrics

/-- The families by name. -/
def families (m : Metrics) : List Family :=
  [.ofCounter "events_delivered_total"
      "Total number of rebalance events sent on the delivery channel" m.events.delivered,
    .ofTally "events_offered_total" "Total number of rebalance events offered" "path" m.events.offered,
    .ofCounter "first_registrations_total"
      "Total number of partition keys seen for the first time by the registration ledger" m.firsts,
    .ofGauge "idle_partitions" "Number of partitions waiting to be handed out" m.allocation.idle,
    .ofTally "partitions_reclaimed_total" "Total number of checked-out partitions reclaimed" "reason"
      m.allocation.reclaimed,
    .ofCounter "partitions_registered_total" "Total number of newly registered partitions"
      m.allocation.added,
    .ofTally "partitions_removed_total" "Total number of partitions removed from the cache" "mode"
      m.allocation.removed,
    .ofGauge "pending_events" "Number of rebalance events waiting in the queue" m.events.pending,
    .ofGauge "registered_partitions" "Number of partitions currently registered in the cache"
      m.allocation.registered,
    { name := "sweep_duration_seconds", help := "Expiry sweep duration in seconds", kind := .histogram },
    .ofGauge "used_partitions" "Number of partitions currently checked out by consumers"
      m.allocation.used]

/-- A family without figures is not shown. -/
def shownFamilies (m : Metrics) : List Family := m.families.filter (0 < ·.sampleCount)

/-- Inside quotes a backslash, a quote and a line end are written with a backslash. -/
def escapeLabel (value : String) : String :=
  String.join <| value.toList.map fun c =>
    if c = '\\' then "\\\\"
    else if c = '"' then "\\\""
    else if c = '\n' then "\\n"
    else c.toString

def sampleLine (f : Family) (sample : Option String × Int) : String :=
  let labels := match f.label, sample.1 with
    | some label, some value => "\x7b" ++ label ++ "=\"" ++ escapeLabel value ++ "\"\x7d"
    | _, _ => ""
  f.fullName ++ labels ++ " " ++ showInBits53 sample.2 ++ "\n"

def familyText (f : Family) : String :=
  "# HELP " ++ f.fullName ++ " " ++ f.help ++ "\n" ++
  "# TYPE " ++ f.fullName ++ " " ++ f.kind.text ++ "\n" ++
  String.join (f.samples.map (sampleLine f))

/-- The text in which the figures are published, without those of the histogram. -/
def exposition (m : Metrics) : String := String.join (m.shownFamilies.map familyText)

end Metrics

end PartitionLease
