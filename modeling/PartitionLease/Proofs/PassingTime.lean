import PartitionLease.Proofs.AssignmentChanges

namespace PartitionLease

/-- What is due by one time is due by every later one. -/
theorem Timers.next?_mono {α : Type} {t : Timers α} {limit later : Nat} (order : limit ≤ later)
    {found : Alarm α × Timers α} (due : t.next? limit = some found) : t.next? later = some found := by
  unfold next? at due ⊢
  split at due
  · cases due
  · split at due
    · rename_i soon
      rwa [if_pos (Nat.le_trans soon order)]
    · cases due

namespace Assignment

variable {a : Assignment}

theorem expireDue_of_none {limit : Nat} (none : a.pool.timers.next? limit = none) (n : Nat) :
    a.expireDue limit n = a := by
  cases n with
  | zero => rfl
  | succ n => rw [expireDue, none]

/-- Ending the next lease takes at least its own alarm off. -/
theorem length_armed_expire_next {limit : Nat} {alarm : Alarm Lease} {later : Timers Lease}
    (found : a.pool.timers.next? limit = some (alarm, later)) :
    ((a.withPool (a.pool.withTimers later)).expire alarm.job).pool.timers.armed.length ≤ later.armed.length ∧
      later.armed.length + 1 = a.pool.timers.armed.length :=
  ⟨(armed_expire_sublist (a.withPool (a.pool.withTimers later)) alarm.job).length_le,
    Timers.length_armed_next? found⟩

/-- How many leases may end is no matter, if it is enough for all. -/
theorem expireDue_eq_of_enough {limit n m : Nat} (enough : a.pool.timers.armed.length ≤ n)
    (also : a.pool.timers.armed.length ≤ m) : a.expireDue limit n = a.expireDue limit m := by
  induction n generalizing a m with
  | zero =>
    have line : a.pool.timers.armed = [] := List.length_eq_zero_iff.mp (Nat.le_zero.mp enough)
    have none : a.pool.timers.next? limit = .none := by simp [Timers.next?, line]
    rw [expireDue_of_none none, expireDue_of_none none]
  | succ n ih =>
    cases found : a.pool.timers.next? limit with
    | none => rw [expireDue_of_none found, expireDue_of_none found]
    | some result =>
      obtain ⟨alarm, later⟩ := result
      obtain ⟨fewer, taken⟩ := length_armed_expire_next found
      obtain ⟨m, rfl⟩ : ∃ k, m = k + 1 := ⟨m - 1, by omega⟩
      simp only [expireDue, found]
      exact ih (by omega) (by omega)

/-- When nothing is due, time passes and that is all. -/
theorem passTo_of_none {limit : Nat} (none : a.pool.timers.next? limit = none) :
    a.passTo limit = a.withPool (a.pool.withTimers (a.pool.timers.reach limit)) := by
  rw [passTo, expireDue_of_none none]

/-- The next lease to end ends first. -/
theorem passTo_of_some {limit : Nat} {alarm : Alarm Lease} {later : Timers Lease}
    (found : a.pool.timers.next? limit = some (alarm, later)) :
    a.passTo limit = ((a.withPool (a.pool.withTimers later)).expire alarm.job).passTo limit := by
  obtain ⟨fewer, taken⟩ := length_armed_expire_next found
  have first : a.expireDue limit a.pool.timers.armed.length =
      ((a.withPool (a.pool.withTimers later)).expire alarm.job).expireDue limit later.armed.length := by
    rw [← taken, expireDue, found]
  simp only [passTo, first]
  rw [expireDue_eq_of_enough (Nat.le_refl _) fewer]

theorem passTo_expireDue {limit later : Nat} (order : limit ≤ later) (n : Nat) :
    (a.expireDue limit n).passTo later = a.passTo later := by
  induction n generalizing a with
  | zero => rfl
  | succ n ih =>
    rw [expireDue]
    split
    · rfl
    · rename_i alarm rest found
      rw [ih, passTo_of_some (Timers.next?_mono order found)]

/-- To have waited up to a time at which nothing is due makes no difference later. -/
theorem passTo_reach {limit later : Nat} (order : limit ≤ later) (none : a.pool.timers.next? limit = none) :
    (a.withPool (a.pool.withTimers (a.pool.timers.reach limit))).passTo later = a.passTo later := by
  cases found : a.pool.timers.next? later with
  | none =>
    have still : (a.pool.timers.reach limit).next? later = .none :=
      (Timers.next?_eq_none_iff _ _).mpr ((Timers.next?_eq_none_iff a.pool.timers later).mp found)
    have time : max (max a.pool.timers.now limit) later = max a.pool.timers.now later := by omega
    have waited := passTo_of_none (a := a.withPool (a.pool.withTimers (a.pool.timers.reach limit))) still
    rw [passTo_of_none found, waited]
    simp only [withPool, Pool.withTimers, Timers.reach, time]
  | some result =>
    obtain ⟨alarm, rest⟩ := result
    obtain ⟨due, line, restEq⟩ := Timers.next?_eq_some found
    have early := (Timers.next?_eq_none_iff _ _).mp none alarm (by rw [line]; rfl)
    -- The alarm is due after the time waited for, so the time at which it goes off is the same.
    have time : max (max a.pool.timers.now limit) alarm.due = max a.pool.timers.now alarm.due := by omega
    have same : (a.pool.timers.reach limit).next? later = some (alarm, rest) := by
      rw [restEq]
      simp only [Timers.next?, Timers.reach, line, if_pos due, time]
    have waited := passTo_of_some (a := a.withPool (a.pool.withTimers (a.pool.timers.reach limit))) same
    rw [passTo_of_some found, waited]
    rfl

/-- Time may pass at once or bit by bit. -/
theorem passTo_passTo {limit later : Nat} (order : limit ≤ later) :
    (a.passTo limit).passTo later = a.passTo later := by
  have none := next?_expireDue limit _ a (Nat.le_refl _)
  exact (passTo_reach order none).trans (passTo_expireDue order _)

end Assignment

end PartitionLease
