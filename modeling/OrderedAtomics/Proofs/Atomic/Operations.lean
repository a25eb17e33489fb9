import OrderedAtomics.Atomic.Integer
import OrderedAtomics.Proofs.Atomic.Carrier
import OrderedAtomics.Proofs.Cell.Variable

/-! Operations of typed atomics. If the operations on the words act as on a variable of words, and
every value comes back from its word, then the typed operations act as on a variable of values. -/

namespace OrderedAtomics

open Access (Gives)

/-- Whether two values have the same bits. -/
def Carrier.same {T W : Type} [DecidableEq W] (c : Carrier T W) (x y : T) : Bool :=
  decide (c.toWord x = c.toWord y)

/-- Where every value comes back from its word, the same bits mean the same value. -/
theorem Carrier.same_iff {T W : Type} [DecidableEq W] {c : Carrier T W} (h : c.Faithful) (x y : T) :
    c.same x y = true ↔ x = y := by
  rw [same, decide_eq_true_iff]
  exact Function.Injective.eq_iff (Function.LeftInverse.injective h)

/-- The state is at rest with the word of a value. -/
def Carrier.Holds {σ T W : Type} (c : Carrier T W) (rest : σ → W → Prop) (s : σ) (v : T) : Prop :=
  rest s (c.toWord v)

/-! ### Every type -/

namespace Atomic

variable {σ T W : Type} {rest : σ → W → Prop} {a : Atomic σ T W}

/-- A call about the value, with orders that it may carry. -/
def Call.Proper : Call T → Prop
  | .load o => o.legalForLoad
  | .store _ o => o.legalForStore
  | .cas _ _ _ orders | .compareExchange _ _ _ orders => orders.Legal
  | .exchange .. | .get | .set _ => True
  | .isLockFree | .fetchUpdate .. => False

instance : (c : Call T) → Decidable c.Proper
  | .load o => inferInstanceAs (Decidable (o.legalForLoad = true))
  | .store _ o => inferInstanceAs (Decidable (o.legalForStore = true))
  | .cas _ _ _ orders | .compareExchange _ _ _ orders => inferInstanceAs (Decidable orders.Legal)
  | .exchange .. | .get | .set _ => isTrue trivial
  | .isLockFree | .fetchUpdate .. => isFalse id

section Variable

variable {lockFree : Bool} {same : T → T → Bool} {k : Strength} {orders : CasOrders} {x : T}

theorem Call.onVariable_cas (e d : T) :
    (Call.cas k e d orders).onVariable lockFree same x =
      (.outcome (if same x e then ⟨true, e⟩ else ⟨false, x⟩), if same x e then d else x) := by
  cases equal : same x e <;> simp [Call.onVariable, equal]

theorem Call.onVariable_compareExchange (c n : T) :
    (Call.compareExchange k c n orders).onVariable lockFree same x =
      (.result (if same x c then .ok c else .error x), if same x c then n else x) := by
  cases equal : same x c <;> simp [Call.onVariable, equal]

end Variable

theorem legalForLoad_of_legal {orders : CasOrders} (legal : orders.Legal) :
    orders.failure.legalForLoad := by
  have both : (orders.failure.legalForLoad && orders.success.atLeast orders.failure) = true := legal
  exact (Bool.and_eq_true_iff.mp both).1

/-! An operation with a legal order is what it is on the words, and one with an illegal order is nothing but
its fault. -/

section Checks

variable (a : Atomic σ T W) {o : MemoryOrder} {orders : CasOrders}

theorem load_of_legal (legal : o.legalForLoad) :
    a.load o = do return a.carrier.ofWord (← a.ops.load o) := by
  have checked : (checkLoad o : Access σ Unit) = pure () := if_pos legal
  unfold load
  rw [checked]
  rfl

theorem load_of_illegal (illegal : o.legalForLoad = false) : a.load o = throw (.loadOrder o) := by
  have checked : (checkLoad o : Access σ Unit) = throw (.loadOrder o) :=
    if_neg (Bool.not_eq_true _ ▸ illegal)
  unfold load
  rw [checked]
  rfl

theorem store_of_legal (legal : o.legalForStore) (v : T) :
    a.store v o = a.ops.store (a.carrier.toWord v) o := by
  have checked : (checkStore o : Access σ Unit) = pure () := if_pos legal
  unfold store
  rw [checked]
  rfl

theorem store_of_illegal (illegal : o.legalForStore = false) (v : T) :
    a.store v o = throw (.storeOrder o) := by
  have checked : (checkStore o : Access σ Unit) = throw (.storeOrder o) :=
    if_neg (Bool.not_eq_true _ ▸ illegal)
  unfold store
  rw [checked]
  rfl

theorem cas_of_legal (legal : orders.Legal) (k : Strength) (e d : T) :
    a.cas k e d orders = do
      let outcome ← match k with
        | .weak =>
          a.ops.casWeak (a.carrier.toWord e) (a.carrier.toWord d) orders.success orders.failure
        | .strong =>
          a.ops.casStrong (a.carrier.toWord e) (a.carrier.toWord d) orders.success orders.failure
      return if outcome.stored then ⟨true, e⟩ else ⟨false, a.carrier.ofWord outcome.expected⟩ := by
  have checked : (checkCas orders : Access σ Unit) = pure () := if_pos legal
  unfold cas
  rw [checked]
  rfl

theorem cas_of_illegal (illegal : ¬orders.Legal) (k : Strength) (e d : T) :
    a.cas k e d orders = throw (.failureOrder orders.failure orders.success) := by
  have checked : (checkCas orders : Access σ Unit) =
      throw (.failureOrder orders.failure orders.success) := if_neg illegal
  unfold cas
  rw [checked]
  rfl

end Checks

variable [DecidableEq W]

/-- The operations on the words act as on a variable, and the values come back from them. -/
structure Plain (a : Atomic σ T W) (rest : σ → W → Prop) : Prop where
  ops : a.ops.Plain rest
  faithful : a.carrier.Faithful

namespace Plain

variable (h : a.Plain rest)
include h

theorem load {o : MemoryOrder} (legal : o.legalForLoad) (x : T) :
    Gives (a.carrier.Holds rest) (a.load o) x x x := by
  have word := (h.ops.load legal (a.carrier.toWord x)).map a.carrier.ofWord
  rw [h.faithful x] at word
  rw [a.load_of_legal legal]
  exact word

theorem store {o : MemoryOrder} (legal : o.legalForStore) (v x : T) :
    Gives (a.carrier.Holds rest) (a.store v o) x () v := by
  have word := h.ops.store legal (a.carrier.toWord v) (a.carrier.toWord x)
  rw [a.store_of_legal legal]
  exact word

theorem exchange (v : T) (o : MemoryOrder) (x : T) :
    Gives (a.carrier.Holds rest) (a.exchange v o) x x v := by
  have word := (h.ops.exchange (a.carrier.toWord v) o (a.carrier.toWord x)).map a.carrier.ofWord
  rw [h.faithful x] at word
  exact word

/-- The words are compared, and what was found comes back as the value that is expected from then
on. -/
theorem reported {attempt : Access σ (CasOutcome W)} {e d x : T}
    (gives : Gives rest attempt (a.carrier.toWord x)
      (.of (a.carrier.toWord x) (a.carrier.toWord e))
      (swapped (a.carrier.toWord x) (a.carrier.toWord e) (a.carrier.toWord d))) :
    Gives (a.carrier.Holds rest) (do
        let outcome ← attempt
        return if outcome.stored then (⟨true, e⟩ : CasOutcome T)
          else ⟨false, a.carrier.ofWord outcome.expected⟩) x
      (if a.carrier.same x e then ⟨true, e⟩ else ⟨false, x⟩)
      (if a.carrier.same x e then d else x) := by
  have word := gives.map fun outcome => if outcome.stored then (⟨true, e⟩ : CasOutcome T)
    else ⟨false, a.carrier.ofWord outcome.expected⟩
  by_cases equal : a.carrier.toWord x = a.carrier.toWord e
  · have same : a.carrier.same x e = true := decide_eq_true equal
    rw [if_pos same, if_pos same]
    rw [CasOutcome.of, swapped, if_pos equal, if_pos equal] at word
    exact word
  · have other : a.carrier.same x e = false := decide_eq_false equal
    rw [other]
    rw [CasOutcome.of, swapped, if_neg equal, if_neg equal] at word
    have back : a.carrier.ofWord (a.carrier.toWord x) = x := h.faithful x
    simp only [Bool.false_eq_true, if_false, back] at word ⊢
    exact word

theorem cas {orders : CasOrders} (legal : orders.Legal) (k : Strength) (e d x : T) :
    Gives (a.carrier.Holds rest) (a.cas k e d orders) x
      (if a.carrier.same x e then ⟨true, e⟩ else ⟨false, x⟩)
      (if a.carrier.same x e then d else x) := by
  have failure := legalForLoad_of_legal legal
  rw [a.cas_of_legal legal]
  cases k with
  | weak => exact h.reported (h.ops.casWeak failure _ _ _ _)
  | strong => exact h.reported (h.ops.casStrong failure _ _ _ _)

theorem compareExchange {orders : CasOrders} (legal : orders.Legal) (k : Strength) (c n x : T) :
    Gives (a.carrier.Holds rest) (a.compareExchange k c n orders) x
      (if a.carrier.same x c then .ok c else .error x) (if a.carrier.same x c then n else x) := by
  have result := (h.cas legal k c n x).map fun outcome =>
    if outcome.stored then (.ok c : Except T T) else .error outcome.expected
  cases same : a.carrier.same x c <;> rw [same] at result <;> exact result

/-- Each call does what it does to a variable of the type, compared by its bits. -/
theorem perform {c : Call T} (proper : c.Proper) (lockFree : Bool) (x : T) :
    Gives (a.carrier.Holds rest) (a.perform c) x (c.onVariable lockFree a.carrier.same x).1
      (c.onVariable lockFree a.carrier.same x).2 := by
  cases c with
  | load o => exact (h.load proper x).map Reply.value
  | store v o => exact (h.store proper v x).map fun _ => Reply.done
  | exchange v o => exact (h.exchange v o x).map Reply.value
  | cas k e d orders =>
    rw [Call.onVariable_cas]
    exact (h.cas proper k e d x).map Reply.outcome
  | compareExchange k c n orders =>
    rw [Call.onVariable_compareExchange]
    exact (h.compareExchange proper k c n x).map Reply.result
  | get => exact (h.load (o := .seqCst) rfl x).map Reply.value
  | set v => exact (h.store (o := .seqCst) rfl v x).map fun _ => Reply.done
  | isLockFree => cases proper
  | fetchUpdate s f attempts => cases proper

end Plain

end Atomic

/-! ### Integers -/

section Scalar

variable {k : Kind}

/-- An update of values is the same update of their words. -/
theorem Update.onScalar_eq (u : Update) (x y : Scalar k) :
    u.onScalar x y = .ofBits (u.apply x.bits y.bits) := by
  cases u with
  | add => exact congrArg Scalar.ofBits (BitVec.ofInt_add x.val y.val)
  | sub => exact congrArg Scalar.ofBits (Word.ofInt_sub k.width x.val y.val)
  | and => rfl
  | or => rfl
  | xor => rfl

theorem Scalar.wrap_succ (x : Scalar k) : wrap k (x.val + 1) = ofBits (x.bits + 1) :=
  congrArg ofBits (BitVec.ofInt_add x.val 1)

theorem Scalar.wrap_pred (x : Scalar k) : wrap k (x.val - 1) = ofBits (x.bits - 1) :=
  congrArg ofBits (Word.ofInt_sub k.width x.val 1)

end Scalar

namespace FetchAdd.Plain

variable {σ : Type} {k : Kind} {ops : FetchAdd σ (BitVec k.width)}
  {rest : σ → BitVec k.width → Prop} (h : ops.Plain rest) (positive : 0 < k.width)
include h positive

/-- An update of the word is one of the value that it stands for. -/
theorem modifyScalar (u : Update) (v : BitVec k.width) (y : Yield) (o : MemoryOrder)
    (x : Scalar k) :
    Gives ((Carrier.scalar k).Holds rest) (do return .ofBits (← ops.modify u v y o)) x
      (y.pick x (.ofBits (u.apply x.bits v))) (.ofBits (u.apply x.bits v)) := by
  intro s hs
  obtain ⟨s', ended, hs'⟩ := ((h.acts.modify u v y o x.bits).map (Scalar.ofBits (k := k))) s hs
  refine ⟨s', ?_, ?_⟩
  · rw [ended]
    cases y with
    | previous => exact congrArg (EStateM.Result.ok · s') (Scalar.ofBits_bits positive x)
    | updated => rfl
  · show rest s' (Scalar.ofBits (u.apply x.bits v) : Scalar k).bits
    rw [Scalar.bits_ofBits]
    exact hs'

/-- Each operation does what it does to a variable of an integer type. -/
theorem performScalar (c : AtomicInteger.Call (Scalar k)) (x : Scalar k) :
    Gives ((Carrier.scalar k).Holds rest) ((AtomicInteger.mk ops (.scalar k)).perform c) x
      (c.onVariable x).1 (c.onVariable x).2 := by
  cases c with
  | fetch u v o =>
    simp only [AtomicInteger.Call.onVariable, Update.onScalar_eq]
    exact h.modifyScalar positive u v.bits .previous o x
  | apply u v =>
    simp only [AtomicInteger.Call.onVariable, Update.onScalar_eq]
    exact h.modifyScalar positive u v.bits .updated .seqCst x
  | increment y =>
    simp only [AtomicInteger.Call.onVariable, Scalar.wrap_succ]
    exact h.modifyScalar positive .add 1 y .seqCst x
  | decrement y =>
    simp only [AtomicInteger.Call.onVariable, Scalar.wrap_pred]
    exact h.modifyScalar positive .sub 1 y .seqCst x

end FetchAdd.Plain

end OrderedAtomics
