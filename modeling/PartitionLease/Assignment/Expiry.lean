import PartitionLease.Assignment

namespace PartitionLease

namespace Assignment

/-- Ends the checkout of that number when its lease is over. When it has ended otherwise, even if the
key is checked out again by now, nothing happens. -/
def expire (a : Assignment) (lease : Lease) : Assignment :=
  if a.pool.token? lease.key = some lease.token then
    ((a.markKey lease.key false).vacate lease.key true).1.publish.recordReclaimed .timer
  else a

/-- Ends the leases that are over by `limit` one after the other, at most `n` of them. -/
def expireDue (limit : Nat) : Nat → Assignment → Assignment
  | 0, a => a
  | n + 1, a => match a.pool.timers.next? limit with
    | none => a
    | some (alarm, timers) =>
      expireDue limit n ((a.withPool (a.pool.withTimers timers)).expire alarm.job)

/-- Lets time pass up to `limit`. Ending a lease sets no alarm, so there is at most one to end for each
alarm there is. -/
def passTo (a : Assignment) (limit : Nat) : Assignment :=
  let a := a.expireDue limit a.pool.timers.armed.length
  a.withPool (a.pool.withTimers (a.pool.timers.reach limit))

/-- Ending a lease sets no alarm. -/
theorem armed_expire_sublist (a : Assignment) (lease : Lease) :
    (a.expire lease).pool.timers.armed.Sublist a.pool.timers.armed := by
  unfold expire
  split
  · have kept := armed_vacate_sublist (a.markKey lease.key false) lease.key true
    rwa [pool_markKey] at kept
  · exact List.Sublist.refl _

/-- Enough ends leave no lease that is over by `limit`. -/
theorem next?_expireDue (limit n : Nat) (a : Assignment) (enough : a.pool.timers.armed.length ≤ n) :
    (a.expireDue limit n).pool.timers.next? limit = none := by
  induction n generalizing a with
  | zero =>
    have none : a.pool.timers.armed = [] := List.length_eq_zero_iff.mp (Nat.le_zero.mp enough)
    simp [expireDue, Timers.next?, none]
  | succ n ih =>
    rw [expireDue]
    split
    · assumption
    · rename_i alarm later found
      have taken := Timers.length_armed_next? found
      have kept := (armed_expire_sublist (a.withPool (a.pool.withTimers later)) alarm.job).length_le
      have same : (a.withPool (a.pool.withTimers later)).pool.timers.armed = later.armed := rfl
      rw [same] at kept
      exact ih _ (by omega)

/-- The keys that are due, first those that `order` names in its order, then the others. -/
def arrange (order due : List String) : List String :=
  order.eraseDups.filter (due.contains ·) ++ due.filter (!order.contains ·)

/-- Ends every checkout older than `maxAge` and marks its partition as not finished with. The order
in which the keys go to the end of the line is open, and `order` settles it. -/
def sweep (a : Assignment) (now : UInt64) (maxAge : Duration) (order : List String) : Assignment × Nat :=
  let due := arrange order (a.pool.expired now maxAge.wholeMillis)
  let marked := due.foldl (fun a key => a.markKey key false) a
  let emptied := due.foldl (fun a key => (a.vacate key true).1.recordReclaimed .expired) marked
  let a := emptied.publish
  (a.withFigures a.figures.recordSweep, due.length)

end Assignment

end PartitionLease
