/-! What containers report: notices while they are created and while they grow, and the refusal of
a value. -/

namespace OrderedAtomics

/-- Whether a pool may grow: a static one has all its slots from the start. -/
inductive Policy where
  | static | caching
  deriving DecidableEq, Repr

inductive Notice where
  | reserved (additional : Nat)
  | growing (total : Nat)
  | poolCreated (policy : Policy) (capacity : Nat)
  | queueCreated (capacity : Nat)
  | stackCreated (capacity : Nat)
  | ringCreated (capacity : Nat)
  deriving DecidableEq, Repr

def Policy.name : Policy → String
  | static => "static"
  | caching => "caching"

/-- The line of a notice: its level, its message and its one field. -/
def Notice.text : Notice → String
  | reserved n => "TRACE caching freelist reserved additional=" ++ toString n
  | growing n => "TRACE caching freelist growing total=" ++ toString n
  | poolCreated policy n =>
    "DEBUG " ++ policy.name ++ " freelist created capacity=" ++ toString n
  | queueCreated n => "DEBUG queue created capacity=" ++ toString n
  | stackCreated n => "DEBUG stack created capacity=" ++ toString n
  | ringCreated n => "DEBUG ring buffer created capacity=" ++ toString n

/-! ### The refusal of a value -/

namespace Refusal

/-- What a container without room says. -/
def message : String := "container is at capacity"

/-- The text of a refusal, which does not show the value. -/
def text : String := "CapacityError(..)"

end Refusal

end OrderedAtomics
