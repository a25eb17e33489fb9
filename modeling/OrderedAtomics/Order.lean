/-! Memory orders: which of them a load, a store or a failed compare-exchange may carry,
and the five orders that hardware primitives know. -/

namespace OrderedAtomics

/-- The ordering constraint an operation asks for. -/
inductive MemoryOrder where
  | relaxed | consume | acquire | release | acqRel | seqCst
  deriving DecidableEq, Repr

/-- The orders of a hardware primitive: it has no consume. -/
inductive HardwareOrder where
  | relaxed | acquire | release | acqRel | seqCst
  deriving DecidableEq, Repr

namespace MemoryOrder

/-- All orders, weakest first. -/
def all : List MemoryOrder := [relaxed, consume, acquire, release, acqRel, seqCst]

instance : Inhabited MemoryOrder := ⟨seqCst⟩

/-- Later accesses stay after the operation. -/
def acquires : MemoryOrder → Bool
  | consume | acquire | acqRel | seqCst => true
  | relaxed | release => false

/-- Earlier accesses stay before the operation. -/
def releases : MemoryOrder → Bool
  | release | acqRel | seqCst => true
  | relaxed | consume | acquire => false

/-- Whether `a` gives every guarantee that `b` names. -/
def atLeast (a : MemoryOrder) : MemoryOrder → Bool
  | relaxed => true
  | consume | acquire => a.acquires
  | release => a.releases
  | acqRel => a.acquires && a.releases
  | seqCst => a == seqCst

/-- A load has nothing to release. -/
def legalForLoad : MemoryOrder → Bool
  | release | acqRel => false
  | _ => true

/-- A store has nothing to acquire. -/
def legalForStore : MemoryOrder → Bool
  | relaxed | release | seqCst => true
  | _ => false

/-- A failed compare-exchange is a load, and no stronger than the successful one. -/
def legalFailureFor (failure success : MemoryOrder) : Bool :=
  failure.legalForLoad && success.atLeast failure

/-- The failure order that goes with a success order given alone. -/
def strongestFailure : MemoryOrder → MemoryOrder
  | relaxed | release => relaxed
  | consume => consume
  | acquire | acqRel => acquire
  | seqCst => seqCst

theorem strongestFailure_legal (s : MemoryOrder) : s.strongestFailure.legalFailureFor s := by
  cases s <;> rfl

/-- Hardware strengthens consume to acquire. -/
def toHardware : MemoryOrder → HardwareOrder
  | relaxed => .relaxed
  | consume | acquire => .acquire
  | release => .release
  | acqRel => .acqRel
  | seqCst => .seqCst

def name : MemoryOrder → String
  | relaxed => "Relaxed"
  | consume => "Consume"
  | acquire => "Acquire"
  | release => "Release"
  | acqRel => "AcqRel"
  | seqCst => "SeqCst"

/-- The orders a load may carry. -/
def loadOrders : List MemoryOrder := all.filter legalForLoad

/-- The orders a store may carry. -/
def storeOrders : List MemoryOrder := all.filter legalForStore

end MemoryOrder

namespace HardwareOrder

/-- All orders, weakest first. -/
def all : List HardwareOrder := [relaxed, acquire, release, acqRel, seqCst]

def toMemory : HardwareOrder → MemoryOrder
  | relaxed => .relaxed
  | acquire => .acquire
  | release => .release
  | acqRel => .acqRel
  | seqCst => .seqCst

@[simp] theorem toHardware_toMemory (o : HardwareOrder) : o.toMemory.toHardware = o := by
  cases o <;> rfl

def name (o : HardwareOrder) : String := o.toMemory.name

end HardwareOrder

/-- The two orders of a compare-exchange. -/
structure CasOrders where
  success : MemoryOrder
  failure : MemoryOrder
  deriving DecidableEq, Repr

namespace CasOrders

/-- One order stands for itself and the strongest failure order it admits. -/
def ofSuccess (s : MemoryOrder) : CasOrders := ⟨s, s.strongestFailure⟩

def Legal (o : CasOrders) : Prop := o.failure.legalFailureFor o.success

instance (o : CasOrders) : Decidable o.Legal := inferInstanceAs (Decidable (_ = true))

theorem legal_ofSuccess (s : MemoryOrder) : (ofSuccess s).Legal := s.strongestFailure_legal

/-- Every legal pair. -/
def legalPairs : List CasOrders :=
  MemoryOrder.all.flatMap fun s =>
    (MemoryOrder.loadOrders.filter (·.legalFailureFor s)).map fun f => ⟨s, f⟩

def text (o : CasOrders) : String := "(" ++ o.success.name ++ ", " ++ o.failure.name ++ ")"

end CasOrders

end OrderedAtomics
