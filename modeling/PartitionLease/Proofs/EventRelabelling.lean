import PartitionLease.Proofs.EventRuns

namespace PartitionLease

variable {α β : Type} (f : α → β)

def Call.map (call : Call α) : Call β := ⟨call.ticket, f call.event⟩

def Reception.map : Reception α → Reception β
  | .event e => .event (f e)
  | .nothing => .nothing
  | .closed => .closed
  | .noReceiver => .noReceiver

namespace EventQueue

def Action.map : Action α → Action β
  | .offer e => .offer (f e)
  | .poll => .poll
  | .clear => .clear
  | .notify e => .notify (f e)
  | .cancel ticket => .cancel ticket
  | .receive => .receive
  | .dropReceiver => .dropReceiver
  | .dropOwner => .dropOwner
  | .progress => .progress

def Reply.map : Reply α → Reply β
  | .none => .none
  | .polled e => .polled (e.map f)
  | .began ticket => .began ticket
  | .cancelled was => .cancelled was
  | .received reception => .received (reception.map f)
  | .progressed ended => .progressed ended

def map (q : EventQueue α) : EventQueue β where
  pending := q.pending.map f
  waiting := q.waiting.map (Call.map f)
  holder := q.holder.map (Call.map f)
  slot := q.slot.map f
  receiving := q.receiving
  owned := q.owned
  calls := q.calls
  figures := q.figures

section Number

variable {ε : Type}

/-- The same actions with a number of its own, beginning with `n`, for each event handed in. -/
def number (n : Nat) : List (Action ε) → List (Action (Nat × ε))
  | [] => []
  | action :: rest => action.map (n, ·) :: number (n + 1) rest

end Number

end EventQueue

end PartitionLease
