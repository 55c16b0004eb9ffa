import PartitionLease.Metrics.Figures

namespace PartitionLease

/-- How many events may lie delivered and not yet received. -/
def deliveryCapacity : Nat := 1

/-- How a call to notify ended. -/
inductive Delivery
  | delivered
  | channelClosed
deriving DecidableEq

/-- A call to notify that has not ended: first with the event it brings, and once it has the delivery
lock with the event it is to deliver, which need not be its own. Calls are numbered as they are made. -/
structure Call (ε : Type) where
  ticket : Nat
  event : ε
deriving DecidableEq

/-- A call to notify that has ended. -/
structure Ended where
  ticket : Nat
  outcome : Delivery
deriving DecidableEq

/-- What the receiver gets when it does not wait. -/
inductive Reception (ε : Type)
  | event (e : ε)
  | nothing
  | closed
  | noReceiver
deriving DecidableEq

/-- Events on their way to one receiver. Events offered wait in `pending`. A call to notify waits in
`waiting` for the delivery lock, and as its `holder` for the `slot`, which has room for one event that
the receiver has not taken yet. Without a receiver the channel is closed; without an owner the queue
lives on only for the calls still waiting in it. -/
structure EventQueue (ε : Type) where
  pending : List ε := []
  waiting : List (Call ε) := []
  holder : Option (Call ε) := none
  slot : Option ε := none
  receiving : Bool := true
  owned : Bool := true
  calls : Nat := 0
  figures : EventFigures := {}

namespace EventQueue

variable {ε : Type}

/-- Tells how many events are pending. Everything that may have changed it ends with this. -/
def publish (q : EventQueue ε) : EventQueue ε :=
  { q with figures := q.figures.publish q.pending.length }

def recordOffered (q : EventQueue ε) (path : OfferPath) : EventQueue ε :=
  { q with figures := q.figures.recordOffered path.label }

def size (q : EventQueue ε) : Nat := q.pending.length

def isEmpty (q : EventQueue ε) : Bool := q.pending.isEmpty

/-- Puts an event behind the others, and tells nobody. -/
def offer (q : EventQueue ε) (e : ε) : EventQueue ε :=
  ({ q with pending := q.pending ++ [e] }.recordOffered .queued).publish

/-- Takes the oldest pending event. -/
def poll (q : EventQueue ε) : EventQueue ε × Option ε :=
  match q.pending with
  | [] => (q.publish, none)
  | e :: rest => ({ q with pending := rest }.publish, some e)

/-- Drops what is pending. What was popped for delivery before stays on its way. -/
def clear (q : EventQueue ε) : EventQueue ε := { q with pending := [] }.publish

/-- Puts an event behind the others and takes the oldest one, which is itself where there was none. -/
def rotate (q : EventQueue ε) (e : ε) : EventQueue ε × ε :=
  match q.pending with
  | [] => (q.publish, e)
  | head :: rest => ({ q with pending := rest ++ [e] }.publish, head)

/-- Begins a call to notify: it gets in line for the delivery lock. -/
def notify (q : EventQueue ε) (e : ε) : EventQueue ε × Nat :=
  let call : Call ε := ⟨q.calls, e⟩
  ({ q with waiting := q.waiting ++ [call], calls := q.calls + 1 }.recordOffered .notify, call.ticket)

/-- The one thing a waiting call can do by itself, if there is any. The holder of the lock sends its
event when the slot is free, and gives up when the channel is closed. While nobody holds the lock the
first call in line takes it: on a closed channel it gives up at once, and otherwise it puts its event
behind the others and goes on with the oldest. To take the lock, to look whether the channel is closed
and to change what is pending is one step: a call does not wait on the way from one to the other, and
nothing that others do is taken to come between, even where they run on threads of their own. -/
def progress? (q : EventQueue ε) : Option (EventQueue ε × Option Ended) :=
  match q.holder with
  | some call =>
    if !q.receiving then some ({ q with holder := none }, some ⟨call.ticket, .channelClosed⟩)
    else match q.slot with
      | some _ => none
      | none =>
        some ({ q with holder := none, slot := some call.event, figures := q.figures.recordDelivered },
          some ⟨call.ticket, .delivered⟩)
  | none => match q.waiting with
    | [] => none
    | call :: rest =>
      if !q.receiving then some ({ q with waiting := rest }, some ⟨call.ticket, .channelClosed⟩)
      else
        let (q, head) := { q with waiting := rest }.rotate call.event
        some ({ q with holder := some ⟨call.ticket, head⟩ }, none)

/-- Lets waiting calls act at most `n` times, and tells which ended. -/
def progressUpTo : Nat → EventQueue ε → EventQueue ε × List Ended
  | 0, q => (q, [])
  | n + 1, q => match q.progress? with
    | none => (q, [])
    | some (next, ended) =>
      let (last, more) := progressUpTo n next
      (last, ended.toList ++ more)

/-- How often waiting calls can still act: twice for each in line, and once for the holder. -/
def movesLeft (q : EventQueue ε) : Nat := 2 * q.waiting.length + q.holder.toList.length

/-- Lets waiting calls act until none can. -/
def settle (q : EventQueue ε) : EventQueue ε × List Ended := q.progressUpTo q.movesLeft

theorem movesLeft_progress {q next : EventQueue ε} {ended : Option Ended}
    (move : q.progress? = some (next, ended)) : next.movesLeft < q.movesLeft := by
  unfold progress? at move
  split at move
  · rename_i call held
    split at move
    · cases move
      simp [movesLeft, held]
    · split at move
      · cases move
      · cases move
        simp [movesLeft, held]
  · rename_i free
    split at move
    · cases move
    · rename_i call rest line
      split at move
      · cases move
        simp [movesLeft, free, line]
      · simp only [Option.some.injEq, Prod.mk.injEq] at move
        obtain ⟨rfl, -⟩ := move
        unfold rotate
        split <;> simp [movesLeft, publish, free, line] <;> omega

theorem progress?_progressUpTo (n : Nat) (q : EventQueue ε) (enough : q.movesLeft ≤ n) :
    (q.progressUpTo n).1.progress? = none := by
  induction n generalizing q with
  | zero =>
    rw [progressUpTo]
    cases move : q.progress? with
    | none => rfl
    | some result => have := movesLeft_progress move; omega
  | succ n ih =>
    rw [progressUpTo]
    split
    · assumption
    · rename_i next ended move
      have := movesLeft_progress move
      exact ih next (by omega)

/-- A queue that has settled stays as it is until someone does something to it. -/
theorem progress?_settle (q : EventQueue ε) : q.settle.1.progress? = none :=
  progress?_progressUpTo _ q (Nat.le_refl _)

/-- Abandons a call that waits. One that already holds the lock takes the event it was to deliver with
it. -/
def cancel (q : EventQueue ε) (ticket : Nat) : EventQueue ε × Bool :=
  if q.holder.any (·.ticket == ticket) then ({ q with holder := none }, true)
  else if q.waiting.any (·.ticket == ticket) then
    ({ q with waiting := q.waiting.filter (·.ticket != ticket) }, true)
  else (q, false)

/-- Nobody is left who could send. -/
def isGone (q : EventQueue ε) : Bool := !q.owned && q.waiting.isEmpty && q.holder.isNone

/-- Takes the delivered event. -/
def receive (q : EventQueue ε) : EventQueue ε × Reception ε :=
  if q.receiving then
    match q.slot with
    | some e => ({ q with slot := none }, .event e)
    | none => (q, if q.isGone then .closed else .nothing)
  else (q, .noReceiver)

/-- Closes the channel, and loses what lies in its slot. -/
def dropReceiver (q : EventQueue ε) : EventQueue ε := { q with receiving := false, slot := none }

/-- Gives the queue up. -/
def dropOwner (q : EventQueue ε) : EventQueue ε := { q with owned := false }

end EventQueue

end PartitionLease
