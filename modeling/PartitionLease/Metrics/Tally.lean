import Std.Data.ExtTreeMap

namespace PartitionLease

/-- Counts kept apart by label. A label is known from the first time something is counted under it. -/
abbrev Tally := Std.ExtTreeMap String Nat

namespace Tally

def count (t : Tally) (label : String) : Nat := t[label]?.getD 0

def add (t : Tally) (label : String) (n : Nat) : Tally := t.insert label (t.count label + n)

theorem count_add (t : Tally) (label other : String) (n : Nat) :
    (t.add label n).count other = t.count other + if label = other then n else 0 := by
  simp only [count, add, Std.ExtTreeMap.getElem?_insert, Std.LawfulEqCmp.compare_eq_iff_eq]
  split <;> simp_all

end Tally

end PartitionLease
