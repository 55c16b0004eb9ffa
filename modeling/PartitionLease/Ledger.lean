import Std.Data.ExtTreeMap

namespace PartitionLease

/-- Which keys have ever been presented, with the answer given when each was first seen, and how many
first sights there were. A key is booked for ever. -/
structure Ledger where
  booked : Std.ExtTreeMap String Bool := ∅
  firsts : Nat := 0

namespace Ledger

def isBooked (l : Ledger) (key : String) : Bool := l.booked.contains key

def size (l : Ledger) : Nat := l.booked.size

/-- The first half of presenting a key: the answer already given for it. -/
def lookUp (l : Ledger) (key : String) : Option Bool := l.booked[key]?

/-- The second half, for a key that was not found: books it, unless someone else has done so since it
was looked up, whose answer then stands. -/
def book (l : Ledger) (key : String) : Ledger × Bool :=
  match l.booked[key]? with
  | some answer => (l, answer)
  | none => (⟨l.booked.insert key true, l.firsts + 1⟩, true)

/-- Presents a key. Every call for it answers what the first one did. -/
def present (l : Ledger) (key : String) : Ledger × Bool :=
  match l.lookUp key with
  | some answer => (l, answer)
  | none => l.book key

end Ledger

end PartitionLease
