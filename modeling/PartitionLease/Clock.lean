import PartitionLease.Duration

namespace PartitionLease

/-- A clock that stands still between the times it is told to move, read in milliseconds. Everyone who
holds the clock reads and moves the same time. -/
structure Clock where
  now : UInt64
deriving DecidableEq

namespace Clock

def set (_ : Clock) (millis : UInt64) : Clock := ⟨millis⟩

/-- Moves the clock on by the whole milliseconds of a span, or to the last time it can show. -/
def advance (c : Clock) (span : Duration) : Clock :=
  ⟨saturate64 (c.now.toNat + span.wholeMillis.toNat)⟩

theorem advance_now (c : Clock) (span : Duration) :
    (c.advance span).now.toNat = min (c.now.toNat + span.wholeMillis.toNat) word64Max :=
  toNat_saturate64 _

end Clock

end PartitionLease
