import PartitionLease.Cache

namespace PartitionLease

/-- Sweeps a cache again and again, `interval` milliseconds apart. -/
structure Sweeper where
  interval : Nat
  maxAge : Duration
  next : Nat
deriving DecidableEq

namespace Sweeper

/-- Starts at a time, and sweeps first when one interval is over. -/
def start (interval maxAge : Duration) (now : Nat) : Sweeper :=
  let millis := max 1 interval.ceilMillis
  ⟨millis, maxAge, now + millis⟩

def ofConfig (config : Config) (now : Nat) : Sweeper :=
  start config.sweepInterval config.maxCheckoutAge now

/-- The sweeps that are due by `limit`, at most `n` of them, and all other time up to then. -/
def runTo (limit : Nat) : Nat → Sweeper → Cache → Sweeper × Cache
  | 0, s, c => (s, c.pass (limit - c.assignment.pool.timers.now))
  | n + 1, s, c =>
    if s.next ≤ limit then
      let c := c.pass (s.next - c.assignment.pool.timers.now)
      runTo limit n { s with next := s.next + s.interval } (c.step (.sweep s.maxAge [])).1
    else (s, c.pass (limit - c.assignment.pool.timers.now))

/-- Lets time pass for a cache that is swept. -/
def pass (s : Sweeper) (c : Cache) (millis : Nat) : Sweeper × Cache :=
  runTo (c.assignment.pool.timers.now + millis) (millis / s.interval + 1) s c

end Sweeper

end PartitionLease
