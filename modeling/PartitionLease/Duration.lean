namespace PartitionLease

/-- The greatest number that 64 bits hold. -/
def word64Max : Nat := UInt64.size - 1

/-- The nearest 64-bit number, so what is too great becomes the greatest. -/
def saturate64 (n : Nat) : UInt64 := UInt64.ofNat (min n word64Max)

theorem toNat_saturate64 (n : Nat) : (saturate64 n).toNat = min n word64Max := by
  have bound : min n word64Max < UInt64.size := by
    have : word64Max < UInt64.size := by decide
    omega
  simpa [saturate64] using Nat.mod_eq_of_lt bound

/-- A span of time: whole seconds and the nanoseconds beyond them, which are less than a second. -/
structure Duration where
  seconds : UInt64
  nanos : Nat
  nanos_lt : nanos < 1000000000 := by decide
deriving DecidableEq

namespace Duration

def zero : Duration := ⟨0, 0, by decide⟩

def ofMillis (millis : UInt64) : Duration :=
  ⟨millis / 1000, (millis % 1000).toNat * 1000000, by
    have : (millis % 1000).toNat < 1000 := UInt64.toNat_mod_lt _ (by decide)
    omega⟩

def totalNanos (d : Duration) : Nat := d.seconds.toNat * 1000000000 + d.nanos

/-- The whole milliseconds of a span. A fraction of one is cut off, and a span of more than 64 bits
of milliseconds counts as the longest that fits. -/
def wholeMillis (d : Duration) : UInt64 := saturate64 (d.totalNanos / 1000000)

/-- The milliseconds after which a span is surely over. -/
def ceilMillis (d : Duration) : Nat := (d.totalNanos + 999999) / 1000000

/-- A decimal fraction of so many places without the zeros at its end, and without its point when
nothing is left. -/
def fractionText (places part : Nat) : String :=
  let digits := Nat.toDigits 10 part
  let padded := List.replicate (places - digits.length) '0' ++ digits
  let kept := (padded.reverse.dropWhile (· = '0')).reverse
  if kept.isEmpty then "" else "." ++ String.ofList kept

/-- The greatest unit of which the span holds a whole one, and everything below it as a fraction. -/
def text (d : Duration) : String :=
  if 0 < d.seconds then d.seconds.toNat.repr ++ fractionText 9 d.nanos ++ "s"
  else if 1000000 ≤ d.nanos then
    (d.nanos / 1000000).repr ++ fractionText 6 (d.nanos % 1000000) ++ "ms"
  else if 1000 ≤ d.nanos then (d.nanos / 1000).repr ++ fractionText 3 (d.nanos % 1000) ++ "µs"
  else d.nanos.repr ++ "ns"

end Duration

end PartitionLease
