import PartitionLease.CacheError
import PartitionLease.Duration
import PartitionLease.Environment

namespace PartitionLease

/-- How long a partition may stay checked out, how often overdue ones are looked for, and whether each
checkout also gets a timer of its own. -/
structure Config where
  maxCheckoutAge : Duration
  sweepInterval : Duration
  checkoutTimers : Bool
deriving DecidableEq

/-- What speaks against a configuration. -/
inductive ConfigFault
  | zeroAge
  | zeroInterval
  | intervalAboveAge (interval age : Duration)
deriving DecidableEq

def ConfigFault.message : ConfigFault → String
  | zeroAge => "max_checkout_age must be greater than zero"
  | zeroInterval => "sweep_interval must be greater than zero"
  | intervalAboveAge interval age => "sweep_interval (" ++ interval.text ++
      ") must not exceed max_checkout_age (" ++ age.text ++ ")"

/-- A variable that should hold a number and does not. -/
structure VariableFault where
  name : String
  cause : NumberFault
deriving DecidableEq

def VariableFault.message (fault : VariableFault) : String :=
  "Invalid " ++ fault.name ++ ": " ++ fault.cause.message

/-- The span of so many milliseconds that a variable names, or `preset` where it is absent. -/
def Environment.millis (env : Environment) (name : String) (preset : Duration) :
    Except VariableFault Duration :=
  match env.text? name with
  | none => .ok preset
  | some text => match readNumber text.toList with
    | .ok millis => .ok (.ofMillis (.ofNat millis))
    | .error cause => .error ⟨name, cause⟩

/-- A variable switches on by the word "true" in letters of either case or by "1", and off by any
other text. Only the ASCII letters have those of the word as their lower case, so looking at ASCII is
enough. -/
def Environment.switch (env : Environment) (name : String) (preset : Bool) : Bool :=
  match env.text? name with
  | none => preset
  | some text => text.toLower = "true" || text = "1"

namespace Config

def defaultMaxCheckoutAgeMillis : UInt64 := 60000

def defaultSweepIntervalMillis : UInt64 := 1000

def defaultCheckoutTimers : Bool := true

def default : Config :=
  ⟨.ofMillis defaultMaxCheckoutAgeMillis, .ofMillis defaultSweepIntervalMillis, defaultCheckoutTimers⟩

def maxCheckoutAgeVariable : String := "LEASEHOLD_MAX_CHECKOUT_AGE_MS"

def sweepIntervalVariable : String := "LEASEHOLD_SWEEP_INTERVAL_MS"

def checkoutTimersVariable : String := "LEASEHOLD_CHECKOUT_TIMERS"

/-- Everything that speaks against a configuration. Both spans must last, and overdue checkouts must be
looked for at least once in the time a checkout may last. -/
def faults (c : Config) : List ConfigFault :=
  (if c.maxCheckoutAge.totalNanos = 0 then [.zeroAge] else []) ++
  (if c.sweepInterval.totalNanos = 0 then [.zeroInterval] else []) ++
  (if c.maxCheckoutAge.totalNanos < c.sweepInterval.totalNanos then
    [.intervalAboveAge c.sweepInterval c.maxCheckoutAge] else [])

def validate (c : Config) : Except (List ConfigFault) Unit :=
  if c.faults.isEmpty then .ok () else .error c.faults

/-- A configuration from the environment. Of two variables at fault the one for the age is told. -/
def ofEnvironment (env : Environment) : Except VariableFault Config := do
  let age ← env.millis maxCheckoutAgeVariable default.maxCheckoutAge
  let interval ← env.millis sweepIntervalVariable default.sweepInterval
  return ⟨age, interval, env.switch checkoutTimersVariable default.checkoutTimers⟩

/-- The lease a checkout gets when timers are wanted. -/
def lease? (c : Config) : Option Duration :=
  if c.checkoutTimers then some c.maxCheckoutAge else none

end Config

end PartitionLease
