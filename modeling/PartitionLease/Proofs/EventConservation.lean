import PartitionLease.Proofs.EventRuns

namespace PartitionLease

namespace EventQueue

variable {ε : Type}

/-- The number of a call that ends without having delivered anything. -/
def failure? : Ended → Option Nat
  | ⟨ticket, .channelClosed⟩ => some ticket
  | ⟨_, .delivered⟩ => none

/-- The call that an action ends before it has delivered anything. -/
def failed? (q : EventQueue ε) (action : Action ε) : Option Nat :=
  match action, (q.step action).2 with
  | .cancel ticket, .cancelled true => some ticket
  | _, .progressed ended => ended.bind failure?
  | _, _ => none

def received (q : EventQueue ε) (action : Action ε) : List ε :=
  match (q.step action).2 with
  | .received (.event e) => [e]
  | _ => []

def polled (q : EventQueue ε) (action : Action ε) : List ε :=
  match (q.step action).2 with
  | .polled (some e) => [e]
  | _ => []

def cleared (q : EventQueue ε) : Action ε → List ε
  | .clear => q.pending
  | _ => []

/-- The events of the calls with a given number. -/
def eventsOf (calls : List (Call ε)) : Option Nat → List ε
  | none => []
  | some ticket => (calls.filter (·.ticket == ticket)).map (·.event)

/-- What a call brought that failed while it was in line for the lock. -/
def rejected (q : EventQueue ε) (action : Action ε) : List ε := eventsOf q.waiting (q.failed? action)

/-- What a call was to deliver that failed while it held the lock, and what lies delivered when the
receiver goes. -/
def lost (q : EventQueue ε) (action : Action ε) : List ε :=
  eventsOf q.holder.toList (q.failed? action) ++
    match action with
    | .dropReceiver => q.slot.toList
    | _ => []

/-- Where an event can be. -/
inductive Place
  | carried
  | pending
  | held
  | slot
  | received
  | polled
  | cleared
  | rejected
  | lost
deriving DecidableEq

def Place.all : List Place :=
  [.carried, .pending, .held, .slot, .received, .polled, .cleared, .rejected, .lost]

/-- The events that a queue has. -/
def inside (q : EventQueue ε) : List ε :=
  q.waiting.map (·.event) ++ q.pending ++ q.holder.toList.map (·.event) ++ q.slot.toList

theorem received_progress (q : EventQueue ε) : q.received .progress = [] := by
  cases move : q.progress? <;> simp [received, step, move]

end EventQueue

end PartitionLease
