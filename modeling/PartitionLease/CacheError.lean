namespace PartitionLease

/-- What a cache reports as having gone wrong. -/
inductive CacheError
  | config (reason : String)
  | eventChannelClosed
  | invariantViolation (detail : String)
deriving DecidableEq

namespace CacheError

def message : CacheError → String
  | config reason => "Configuration error: " ++ reason
  | eventChannelClosed => "Event delivery channel closed"
  | invariantViolation detail => "Invariant violation: " ++ detail

/-- Only a broken invariant is beyond repair. -/
def isFatal : CacheError → Bool
  | invariantViolation _ => true
  | _ => false

/-- Several reasons against a configuration make one error. -/
def ofReasons (reasons : List String) : CacheError := config ("; ".intercalate reasons)

end CacheError

end PartitionLease
