import PartitionLease.EventQueue

namespace PartitionLease.EventQueue

variable {ε : Type}

/-- What can happen to a queue, one thing at a time: its owner, a caller or the receiver does something, or
a waiting call does the one thing it can do by itself. -/
inductive Action (ε : Type)
  | offer (e : ε)
  | poll
  | clear
  | notify (e : ε)
  | cancel (ticket : Nat)
  | receive
  | dropReceiver
  | dropOwner
  | progress
deriving DecidableEq

/-- What is seen of an action. -/
inductive Reply (ε : Type)
  | none
  | polled (e : Option ε)
  | began (ticket : Nat)
  | cancelled (was : Bool)
  | received (reception : Reception ε)
  | progressed (ended : Option Ended)
deriving DecidableEq

def step (q : EventQueue ε) : Action ε → EventQueue ε × Reply ε
  | .offer e => (q.offer e, .none)
  | .poll => let (q, e) := q.poll; (q, .polled e)
  | .clear => (q.clear, .none)
  | .notify e => let (q, ticket) := q.notify e; (q, .began ticket)
  | .cancel ticket => let (q, was) := q.cancel ticket; (q, .cancelled was)
  | .receive => let (q, reception) := q.receive; (q, .received reception)
  | .dropReceiver => (q.dropReceiver, .none)
  | .dropOwner => (q.dropOwner, .none)
  | .progress => match q.progress? with
    | .none => (q, .progressed .none)
    | some (q, ended) => (q, .progressed ended)

end PartitionLease.EventQueue
