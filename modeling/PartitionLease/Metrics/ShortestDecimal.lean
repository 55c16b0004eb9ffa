namespace PartitionLease

/-- The nearest number with at most 53 binary digits before its trailing zeros, and of two equally near
the one whose last of these digits is even. -/
def roundToBits53 (n : Nat) : Nat :=
  let shift := n.log2 + 1 - 53
  let unit := 1 <<< shift
  let low := n / unit
  let excess := n % unit
  if unit < 2 * excess ∨ unit = 2 * excess ∧ low % 2 = 1 then (low + 1) * unit else low * unit

/-- Of the two neighbours of `n` among the multiples of `unit` the nearer one that rounds to `n`. -/
def nearestReadingBack? (n unit : Nat) : Option Nat :=
  let low := n / unit * unit
  let high := low + unit
  let hits := [low, high].filter (roundToBits53 · = n)
  if 2 * (n - low) ≤ unit then hits.head? else hits.getLast?

/-- The shortest decimal that is read as `n`: the one that ends in the most zeros, of at most `zeros`. -/
def shortestReadingBack (n : Nat) : Nat → Nat
  | 0 => n
  | zeros + 1 => (nearestReadingBack? n (10 ^ (zeros + 1))).getD (shortestReadingBack n zeros)

/-- How a whole number below 2 to the 64th is shown once it is kept in 53 bits: in full, with only as
many digits other than zero as it takes to read the same number back. -/
def showInBits53 (value : Int) : String :=
  let shown := (shortestReadingBack (roundToBits53 value.natAbs) 20).repr
  if value < 0 then "-" ++ shown else shown

end PartitionLease
