import Std.Data.ExtTreeMap
import PartitionLease.Timers

namespace PartitionLease

/-- A partition is with a consumer: since when by the clock, under which number, and with which alarm
to end it. -/
structure Checkout where
  since : UInt64
  token : Nat
  timer : Option Nat
deriving DecidableEq

/-- The keys waiting for a consumer, first in line first, and those checked out. `issued` counts the
checkouts ever made, and each takes its number from it. The pool keeps the time for the alarms of its
checkouts, which carry jobs of type `α`. -/
structure Pool (α : Type) where
  idle : List String := []
  used : Std.ExtTreeMap String Checkout := ∅
  issued : Nat := 0
  timers : Timers α

namespace Pool

variable {α : Type}

def withIdle (p : Pool α) (idle : List String) : Pool α := { p with idle }

def withTimers (p : Pool α) (timers : Timers α) : Pool α := { p with timers }

def isIdle (p : Pool α) (key : String) : Bool := p.idle.contains key

def isUsed (p : Pool α) (key : String) : Bool := p.used.contains key

def token? (p : Pool α) (key : String) : Option Nat := p.used[key]?.map (·.token)

def since? (p : Pool α) (key : String) : Option UInt64 := p.used[key]?.map (·.since)

/-- Puts a key last in line, unless it is in line already. Whether it is checked out is not asked. -/
def pushIdle (p : Pool α) (key : String) : Pool α × Bool :=
  if p.isIdle key then (p, false) else (p.withIdle (p.idle ++ [key]), true)

def popIdle (p : Pool α) : Pool α × Option String :=
  match p.idle with
  | [] => (p, none)
  | key :: rest => (p.withIdle rest, some key)

/-- Takes a key out of the line, at its first place there. -/
def removeIdle (p : Pool α) (key : String) : Pool α × Bool :=
  (p.withIdle (p.idle.erase key), p.isIdle key)

/-- Checks a key out under a new number and takes it out of the line. An earlier checkout of the key is
replaced, and its alarm with it. -/
def checkOut (p : Pool α) (key : String) (now : UInt64) : Pool α × Nat :=
  let token := p.issued + 1
  ({ idle := p.idle.erase key
     used := p.used.insert key ⟨now, token, none⟩
     issued := token
     timers := p.timers.cancelAny (p.used[key]?.bind (·.timer)) }, token)

/-- Sets an alarm that no checkout owns yet. -/
def arm (p : Pool α) (lease : Duration) (job : α) : Pool α × Option Nat :=
  let (timers, timer) := p.timers.arm lease job
  (p.withTimers timers, timer)

/-- Gives the checkout of that number its alarm, in place of one it may have. An alarm for any other
checkout is cancelled. -/
def attach (p : Pool α) (key : String) (token timer : Nat) : Pool α :=
  match p.used[key]? with
  | some checkout =>
    if checkout.token = token then
      { p with
        used := p.used.insert key { checkout with timer := some timer }
        timers := p.timers.cancelAny checkout.timer }
    else p.withTimers (p.timers.cancel timer)
  | none => p.withTimers (p.timers.cancel timer)

/-- Ends the checkout of a key, and its alarm with it, and takes the key out of the line. -/
def release (p : Pool α) (key : String) : Pool α × Option Checkout :=
  ({ p with
     idle := p.idle.erase key
     used := p.used.erase key
     timers := p.timers.cancelAny (p.used[key]?.bind (·.timer)) }, p.used[key]?)

/-- The keys checked out for more than `limit` milliseconds. By a clock that has gone back behind the
checkout no time has passed. -/
def expired (p : Pool α) (now limit : UInt64) : List String :=
  (p.used.toList.filter fun entry => limit.toNat < now.toNat - entry.2.since.toNat).map (·.1)

/-- Lets time pass for a pool whose alarms change nothing in it. -/
def pass (p : Pool α) (limit : Nat) : Pool α × List α :=
  let (timers, fired) := p.timers.pass limit
  (p.withTimers timers, fired)

end Pool

end PartitionLease
