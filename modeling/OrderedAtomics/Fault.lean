import OrderedAtomics.Order

/-! Faults: everything that stops a call, as a cause. The wording is in `Fault.message` alone. -/

namespace OrderedAtomics

/-- The accesses for which hardware knows only some orders. -/
inductive NativeAccess where
  | load | store | failure
  deriving DecidableEq, Repr

inductive Fault where
  /-- A typed load with an order that releases. -/
  | loadOrder (order : MemoryOrder)
  /-- A typed store with an order that acquires. -/
  | storeOrder (order : MemoryOrder)
  /-- A compare-exchange with a failure order its success order does not admit. -/
  | failureOrder (failure success : MemoryOrder)
  /-- A hardware primitive without the given order. -/
  | noSuchAccess (order : HardwareOrder) (access : NativeAccess)
  /-- A small word that reaches past the end of the word around it, sizes in bytes. -/
  | doesNotFit (size offset base : Nat)
  | addOverflow
  | emptyRing
  /-- A block larger than the address space. -/
  | capacityOverflow
  /-- A value type that refuses to be compared. -/
  | incomparable
  /-- A byte copy between a value and a word of different sizes. -/
  | sizeMismatch
  /-- A lock that is held by somebody else. -/
  | blocked
  /-- A retry loop that used up its attempts. -/
  | unfinished
  deriving DecidableEq, Repr

namespace Fault

/-- The order as an adjective with its article. -/
def adjective : HardwareOrder → String
  | .relaxed => "a relaxed"
  | .acquire => "an acquire"
  | .release => "a release"
  | .acqRel => "an acquire-release"
  | .seqCst => "a sequentially consistent"

def noun : NativeAccess → String
  | .load => "load"
  | .store => "store"
  | .failure => "failure ordering"

def message : Fault → String
  | loadOrder o => "invalid load ordering: " ++ o.name
  | storeOrder o => "invalid store ordering: " ++ o.name
  | failureOrder f s =>
    "failure ordering " ++ f.name ++ " is invalid for success ordering " ++ s.name
  | noSuchAccess o a => "there is no such thing as " ++ adjective o ++ " " ++ noun a
  | doesNotFit size offset base =>
    "a " ++ toString size ++ "-byte word does not fit at offset " ++ toString offset ++
      " of a " ++ toString base ++ "-byte word"
  | addOverflow => "attempt to add with overflow"
  | emptyRing => "ring buffer capacity must be non-zero"
  | capacityOverflow => "capacity overflow"
  | incomparable => "cannot compare"
  | sizeMismatch => "value and word differ in size"
  | blocked => "lock is held"
  | unfinished => "attempts exhausted"

end Fault

end OrderedAtomics
