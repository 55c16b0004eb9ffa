import PartitionLease.EventQueue

namespace PartitionLease.EventQueue

variable {ε : Type}

/-- Notifies of all events in turn while a receiver takes one whenever the sender would have to wait.
Tells how the calls ended and what was received. -/
def notifyAll (q : EventQueue ε) : List ε → EventQueue ε × List Delivery × List ε
  | [] => (q, [], [])
  | e :: rest =>
    let (q, ended) := (q.notify e).1.settle
    let (q, received) := if ended.isEmpty then q.receive else (q, .nothing)
    let (q, later) := q.settle
    let (q, outcomes, events) := q.notifyAll rest
    (q, (ended ++ later).map (·.outcome) ++ outcomes,
      match received with
      | .event e => e :: events
      | _ => events)

/-- Takes what lies delivered until `n` events were taken or there is none. -/
def receiveUpTo : Nat → EventQueue ε → EventQueue ε × List ε
  | 0, q => (q, [])
  | n + 1, q => match q.receive with
    | (q, .event e) =>
      let (q, _) := q.settle
      let (q, events) := receiveUpTo n q
      (q, e :: events)
    | (q, _) => (q, [])

/-- A sender notifies of all events in turn and a receiver takes as many as there are, both waiting for
each other as they must. -/
def stream (q : EventQueue ε) (events : List ε) : EventQueue ε × List Delivery × List ε :=
  let (q, outcomes, first) := q.notifyAll events
  let (q, rest) := q.receiveUpTo (events.length - first.length)
  (q, outcomes, first ++ rest)

end PartitionLease.EventQueue
