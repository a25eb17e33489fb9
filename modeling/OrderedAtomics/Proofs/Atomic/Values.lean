import OrderedAtomics.Atomic.Pointer
import OrderedAtomics.Atomic.Selected
import OrderedAtomics.Proofs.Alone
import OrderedAtomics.Proofs.Atomic.Operations
import OrderedAtomics.Proofs.Cell.Backends

/-! Atomics of every type that is kept in a word or in a pair of words. Left alone, an atomic answers
one operation after another as a plain variable of its type does, whatever backend it is on. -/

namespace OrderedAtomics

open Access (Gives)

/-! ### Types -/

/-- The types that are kept in words. Pointers and floating-point numbers stand for their bits, and
the fields of a record for themselves, those of a record in it included. -/
inductive ValueType where
  | integer (k : Kind) (positive : 0 < k.width)
  | truth
  | pointer
  | single
  | double
  | record (l : Layout) (whole : l.Whole)
  | taggedPointer

namespace ValueType

/-- The width of the word that keeps a value. -/
abbrev bits : ValueType → Nat
  | integer k _ => k.width
  | truth => 8
  | pointer => addressWidth
  | single => 32
  | double => 64
  | record l _ => 8 * l.bytes
  | taggedPointer => addressWidth + addressWidth

abbrev Value : ValueType → Type
  | integer k _ => Scalar k
  | truth => Bool
  | pointer => Address
  | single => BitVec 32
  | double => BitVec 64
  | record l _ => l.Values
  | taggedPointer => TaggedPointer

def carrier : (t : ValueType) → Carrier t.Value (BitVec t.bits)
  | integer k _ => .scalar k
  | truth => .bool
  | pointer => .itself Address
  | single => .itself (BitVec 32)
  | double => .itself (BitVec 64)
  | record l _ => l.carrier (8 * l.bytes)
  | taggedPointer => .taggedPointer

theorem faithful_carrier (t : ValueType) : t.carrier.Faithful := by
  cases t with
  | integer k positive => exact Carrier.faithful_scalar positive
  | truth => exact Carrier.faithful_bool
  | pointer => exact Carrier.faithful_itself Address
  | single => exact Carrier.faithful_itself (BitVec 32)
  | double => exact Carrier.faithful_itself (BitVec 64)
  | record l whole => exact Carrier.faithful_record whole
  | taggedPointer => exact Carrier.faithful_taggedPointer

/-- The cells that keep values of a type: full words of any backend, and pairs of words. -/
inductive Keeps : (t : ValueType) → CellKind t.bits → Prop
  | word {t : ValueType} {k : CellKind t.bits} (full : Backend.Integer k) : Keeps t k
  | pair {lockFree : Bool} :
    Keeps taggedPointer (.plain (.exchange (DoubleSwap.machine Native.strict lockFree) none))

end ValueType

/-! ### Operations -/

/-- The operations of a type: those of every atomic, and the arithmetic of the integers. -/
inductive Operation : ValueType → Type
  | basic {t : ValueType} (c : Atomic.Call t.Value) : Operation t
  | arithmetic {k : Kind} {positive : 0 < k.width} (c : AtomicInteger.Call (Scalar k)) :
      Operation (.integer k positive)

namespace Operation

variable {t : ValueType}

def Proper : {t : ValueType} → Operation t → Prop
  | _, basic c => c.Proper
  | _, arithmetic _ => True

instance : {t : ValueType} → (o : Operation t) → Decidable o.Proper
  | _, basic c => inferInstanceAs (Decidable c.Proper)
  | _, arithmetic _ => isTrue trivial

/-- Makes an operation on a cell, if the cell has it. -/
def perform? : {t : ValueType} → (k : CellKind t.bits) → Operation t →
    Option (Access k.State (Atomic.Reply t.Value))
  | t, k, basic c => k.interface.exchangeOps.map fun ops => (Atomic.mk ops t.carrier).perform c
  | .integer kind _, k, arithmetic c => k.interface.arithmeticOps.map fun ops => do
    return .value (← (AtomicInteger.mk ops (.scalar kind)).perform c)

/-- Makes an operation and says how it ended, if the cell has it, and which value is left. -/
def run (k : CellKind t.bits) (s : k.State) (o : Operation t) :
    k.State × Option (Except Fault (Atomic.Reply t.Value)) × t.Value :=
  let (s, ending) := match o.perform? k with
    | none => (s, none)
    | some access =>
      match access s with
      | .ok reply s => (s, some (.ok reply))
      | .error fault s => (s, some (.error fault))
  (s, ending, t.carrier.ofWord (k.value s))

/-- What an operation does to a plain variable, and the value it leaves. -/
def onVariable : {t : ValueType} → t.Value → Operation t → t.Value × Atomic.Reply t.Value × t.Value
  | t, x, basic c =>
    let (reply, y) := c.onVariable true t.carrier.same x
    (y, reply, y)
  | .integer .., x, arithmetic c =>
    let (answer, y) := c.onVariable x
    (y, .value answer, y)

/-- An operation that ended with a reply, and the value that it left. -/
def ended (a : Atomic.Reply t.Value × t.Value) :
    Option (Except Fault (Atomic.Reply t.Value)) × t.Value := (some (.ok a.1), a.2)

theorem onVariable_left (o : Operation t) (x : t.Value) :
    (o.onVariable x).2.2 = (o.onVariable x).1 := by
  cases o <;> rfl

/-- On a cell at rest, the operation acts as on a variable. -/
def Acts (o : Operation t) (k : CellKind t.bits) (rest : k.State → BitVec t.bits → Prop) : Prop :=
  ∃ access, o.perform? k = some access ∧
    ∀ x, Gives (t.carrier.Holds rest) access x (o.onVariable x).2.1 (o.onVariable x).1

theorem acts_basic {k : CellKind t.bits} {rest : k.State → BitVec t.bits → Prop}
    {ops : Exchange k.State (BitVec t.bits)} (level : k.interface.exchangeOps = some ops)
    (plain : ops.Plain rest) {c : Atomic.Call t.Value} (proper : c.Proper) :
    (basic c).Acts k rest := by
  have atomic : (Atomic.mk ops t.carrier).Plain rest := ⟨plain, t.faithful_carrier⟩
  refine ⟨(Atomic.mk ops t.carrier).perform c, ?_, fun x => atomic.perform proper true x⟩
  rw [perform?, level, Option.map_some]

theorem acts_arithmetic {kind : Kind} {positive : 0 < kind.width} {k : CellKind kind.width}
    {rest : k.State → BitVec kind.width → Prop} {ops : FetchAdd k.State (BitVec kind.width)}
    (level : k.interface.arithmeticOps = some ops) (plain : ops.Plain rest)
    (c : AtomicInteger.Call (Scalar kind)) :
    Acts (t := .integer kind positive) (arithmetic c) k rest := by
  refine ⟨do return .value (← (AtomicInteger.mk ops (.scalar kind)).perform c), ?_, fun x => ?_⟩
  · rw [perform?, level, Option.map_some]
  · exact (plain.performScalar positive c x).map Atomic.Reply.value

end Operation

namespace ValueType

variable {t : ValueType} {k : CellKind t.bits}

/-- The value when an atomic goes away, if the cell has what it takes to hold one. -/
def final? (t : ValueType) (k : CellKind t.bits) : Option (Access k.State t.Value) :=
  k.interface.exchangeOps.map fun ops => (Atomic.mk ops t.carrier).final

/-- The cell starts at rest, and every proper operation on it acts as on a variable. -/
structure Serves (t : ValueType) (k : CellKind t.bits) (rest : k.State → BitVec t.bits → Prop) :
    Prop where
  fresh : ∀ v, rest (k.fresh v) v
  value : ∀ {s x}, rest s x → k.value s = x
  acts : ∀ {o : Operation t}, o.Proper → o.Acts k rest
  final : ∃ access, t.final? k = some access ∧
    ∀ x, Gives (t.carrier.Holds rest) access x x x

theorem gives_final {rest : k.State → BitVec t.bits → Prop} {ops : Exchange k.State (BitVec t.bits)}
    (level : k.interface.exchangeOps = some ops) (plain : ops.Plain rest) :
    ∃ access, t.final? k = some access ∧ ∀ x, Gives (t.carrier.Holds rest) access x x x := by
  have atomic : (Atomic.mk ops t.carrier).Plain rest := ⟨plain, t.faithful_carrier⟩
  refine ⟨(Atomic.mk ops t.carrier).final, ?_, fun x => ?_⟩
  · rw [final?, level, Option.map_some]
  · exact atomic.load (o := .relaxed) rfl x

theorem Keeps.serves (keeps : t.Keeps k) : ∃ rest, t.Serves k rest := by
  cases keeps with
  | word full =>
    obtain ⟨rest, cell⟩ := full.plain
    obtain ⟨ops, interface, plain⟩ := cell.integral
    have exchange : k.interface.exchangeOps = some ops.toExchange := by rw [interface]; rfl
    have arithmetic : k.interface.arithmeticOps = some ops := by rw [interface]; rfl
    refine ⟨rest, cell.fresh, cell.value, ?_, gives_final exchange plain.toExchange⟩
    intro o proper
    cases o with
    | basic c => exact Operation.acts_basic exchange plain.toExchange proper
    | arithmetic c => exact Operation.acts_arithmetic arithmetic plain c
  | @pair lockFree =>
    have plain := DoubleSwap.plain_machine
      (Native.plain_strict (w := addressWidth + addressWidth)) lockFree
    refine ⟨Cell.Quiet, fun _ => ⟨rfl, rfl⟩, fun hs => hs.1, ?_, gives_final rfl plain⟩
    intro o proper
    cases o with
    | basic c => exact Operation.acts_basic rfl plain proper

/-- Among them are the cells of the typed atomics and of the tagged pointers. -/
example : t.Keeps (Backend.selected.full Native.strict) ∧ ∀ c : Atomic.Call t.Value,
    (Operation.basic c).perform? (Backend.selected.full Native.strict) =
      some ((Atomic.selected t.carrier).perform c) := ⟨.word (.whole _), fun _ => rfl⟩

example (lockFree : Bool) (c : Atomic.Call TaggedPointer) :
    (Operation.basic (t := taggedPointer) c).perform?
      (.plain (.exchange (DoubleSwap.machine Native.strict lockFree) none)) =
        some ((AtomicTaggedPointer.atomic lockFree).perform c) := rfl

/-- One operation: the answer and the value are those of a variable, and the cell is at rest
again. -/
theorem Serves.run {rest : k.State → BitVec t.bits → Prop} (h : t.Serves k rest)
    {o : Operation t} (proper : o.Proper) {s : k.State} {x : t.Value}
    (hs : t.carrier.Holds rest s x) :
    (o.run k s).2 = Operation.ended (o.onVariable x).2 ∧
      t.carrier.Holds rest (o.run k s).1 (o.onVariable x).1 := by
  obtain ⟨access, performed, gives⟩ := h.acts proper
  obtain ⟨s', ended, hs'⟩ := gives x s hs
  have left : t.carrier.ofWord (k.value s') = (o.onVariable x).1 := by
    rw [h.value hs']
    exact t.faithful_carrier _
  have made : o.run k s = (s', some (.ok (o.onVariable x).2.1), (o.onVariable x).1) := by
    simp only [Operation.run, performed, ended, left]
  rw [made, Operation.ended, Operation.onVariable_left]
  exact ⟨rfl, hs'⟩

/-- Left alone, atomics of all types answer every sequence of their operations as a plain variable of
the type does, each with the value that the variable has after it. In the end they have its value.
`Carrier.same_iff` says which values a variable finds the same, and `Scalar.eq_wrap_iff` how its
arithmetic wraps. -/
theorem atomics_act_as_variables (t : ValueType) {k : CellKind t.bits} (keeps : t.Keeps k)
    (v : t.Value) {operations : List (Operation t)} (proper : ∀ o ∈ operations, o.Proper) :
    let reached := inTurn (Operation.run k) (k.fresh (t.carrier.toWord v)) operations
    let expected := inTurn Operation.onVariable v operations
    reached.2 = expected.2.map Operation.ended ∧
      ∃ access s, t.final? k = some access ∧ access reached.1 = .ok expected.1 s := by
  obtain ⟨rest, serves⟩ := keeps.serves
  have step (o : Operation t) (ho : o ∈ operations) (s : k.State) (x : t.Value)
      (hs : t.carrier.Holds rest s x) := serves.run (proper o ho) hs
  have start : t.carrier.Holds rest (k.fresh (t.carrier.toWord v)) v := serves.fresh _
  obtain ⟨answers, last⟩ := inTurn_alike step start
  obtain ⟨access, final, gives⟩ := serves.final
  obtain ⟨s, ended, -⟩ := gives _ _ last
  exact ⟨answers, access, s, final, ended⟩

/-- A signed byte in a word of the load-linked machine with the heaviest fences, from its greatest
value on. -/
theorem atomics_act_as_variables_signed :
    let t : ValueType := .integer (.twosComplement 8) (by decide)
    let kind : CellKind t.bits := Backend.alpha.embedded 8
    let number (i : Int) : t.Value := .wrap _ i
    let operations : List (Operation t) :=
      [.arithmetic (.increment .updated), .arithmetic (.fetch .sub (number 1) .release),
        .basic (.cas .weak (number 127) (number (-1)) (.ofSuccess .acqRel)),
        .basic (.compareExchange .strong (number 127) (number 5) Atomic.usualOrders),
        .arithmetic (.apply .and (number (-128))), .basic .get]
    t.Keeps kind ∧ (∀ o ∈ operations, o.Proper) ∧
      (inTurn (Operation.run kind) (kind.fresh (t.carrier.toWord (number 127))) operations).2 =
        [(some (.ok (.value (number (-128)))), number (-128)),
          (some (.ok (.value (number (-128)))), number 127),
          (some (.ok (.outcome ⟨true, number 127⟩)), number (-1)),
          (some (.ok (.result (.error (number (-1))))), number (-1)),
          (some (.ok (.value (number (-128)))), number (-128)),
          (some (.ok (.value (number (-128)))), number (-128))] :=
  have keeps := .word (.small .alpha (by decide))
  have proper := by decide
  ⟨keeps, proper, (atomics_act_as_variables _ keeps _ proper).1.trans rfl⟩

end ValueType

end OrderedAtomics
