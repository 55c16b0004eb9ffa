import PartitionLease.Duration

namespace PartitionLease

/-- Something to be done at a time. Alarms are numbered in the order they were set. -/
structure Alarm (α : Type) where
  id : Nat
  due : Nat
  job : α
deriving DecidableEq

/-- Puts an alarm behind every other that is due as soon or sooner, so alarms for one time stay in the
order in which they were set. -/
def Alarm.enqueue {α : Type} (alarm : Alarm α) : List (Alarm α) → List (Alarm α)
  | [] => [alarm]
  | next :: rest => if next.due ≤ alarm.due then next :: alarm.enqueue rest else alarm :: next :: rest

/-- The time in milliseconds since it was first kept, and the alarms still to come in the order in which
they will go off. Where no time is `kept`, no alarm can be set. -/
structure Timers (α : Type) where
  kept : Bool
  now : Nat := 0
  issued : Nat := 0
  armed : List (Alarm α) := []

namespace Timers

variable {α : Type}

/-- Sets an alarm that goes off when the lease is over, and tells its number. -/
def arm (t : Timers α) (lease : Duration) (job : α) : Timers α × Option Nat :=
  if t.kept then
    let alarm : Alarm α := ⟨t.issued, t.now + lease.ceilMillis, job⟩
    ({ t with issued := t.issued + 1, armed := alarm.enqueue t.armed }, some alarm.id)
  else (t, none)

/-- An alarm is armed until it goes off or is cancelled. -/
def isArmed (t : Timers α) (id : Nat) : Bool := t.armed.any (·.id == id)

/-- A cancelled alarm never goes off. One that has gone off is past cancelling. -/
def cancel (t : Timers α) (id : Nat) : Timers α :=
  { t with armed := t.armed.filter (·.id != id) }

/-- What is dropped with its owner takes its alarm along, if it had one. -/
def cancelAny (t : Timers α) : Option Nat → Timers α
  | none => t
  | some id => t.cancel id

def cancelAll (t : Timers α) : Timers α := { t with armed := [] }

/-- Moves on to a later time at which nothing is due. -/
def reach (t : Timers α) (time : Nat) : Timers α := { t with now := max t.now time }

/-- Goes to the next alarm that is due by `limit`, and takes it off. -/
def next? (t : Timers α) (limit : Nat) : Option (Alarm α × Timers α) :=
  match t.armed with
  | [] => none
  | alarm :: rest =>
    if alarm.due ≤ limit then some (alarm, { t with now := max t.now alarm.due, armed := rest })
    else none

/-- Lets time pass up to `limit` for alarms that change nothing here, and tells in order what went off. -/
def pass (t : Timers α) (limit : Nat) : Timers α × List α :=
  ({ t with now := max t.now limit, armed := t.armed.dropWhile (·.due ≤ limit) },
    (t.armed.takeWhile (·.due ≤ limit)).map (·.job))

theorem armed_cancelAny_sublist (t : Timers α) (timer : Option Nat) :
    (t.cancelAny timer).armed.Sublist t.armed := by
  cases timer with
  | none => exact List.Sublist.refl _
  | some id => exact List.filter_sublist

theorem length_armed_next? {t later : Timers α} {limit : Nat} {alarm : Alarm α}
    (found : t.next? limit = some (alarm, later)) : later.armed.length + 1 = t.armed.length := by
  unfold next? at found
  split at found
  · cases found
  · rename_i line
    split at found <;> cases found
    simp [line]

/-- Nothing is due by a time exactly if the first alarm to come, if there is one, is due later. -/
theorem next?_eq_none_iff (t : Timers α) (limit : Nat) :
    t.next? limit = none ↔ ∀ alarm, t.armed.head? = some alarm → limit < alarm.due := by
  unfold next?
  split <;> rename_i line <;> simp [line]

end Timers

end PartitionLease
