namespace PartitionLease

/-- How often a value was observed, and how often in each bucket, which takes the values up to its bound
that no bucket before it takes. -/
structure Histogram where
  count : Nat := 0
  buckets : List (Float × Nat)

namespace Histogram

def ofBounds (bounds : List Float) : Histogram := { buckets := bounds.map (·, 0) }

/-- One more in the first bucket that reaches up to the value. A value that is not a number is in none. -/
def fill (value : Float) : List (Float × Nat) → List (Float × Nat)
  | [] => []
  | (bound, n) :: rest =>
    if value ≤ bound then (bound, n + 1) :: rest else (bound, n) :: fill value rest

def observe (h : Histogram) (value : Float) : Histogram :=
  { count := h.count + 1, buckets := fill value h.buckets }

/-- For every bucket the number of values up to its bound. -/
def cumulative (h : Histogram) : List Nat := go 0 h.buckets
where
  go (below : Nat) : List (Float × Nat) → List Nat
    | [] => []
    | (_, n) :: rest => (below + n) :: go (below + n) rest

end Histogram

end PartitionLease
