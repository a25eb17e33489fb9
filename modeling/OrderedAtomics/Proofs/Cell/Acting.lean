import OrderedAtomics.Cell.Call

/-! What the upper levels of a cell's operations do when the lower ones act on its value as functions
do on a variable. The argument is the same in every sense of "act". -/

namespace OrderedAtomics

/-- A sense in which an access with some order acts on a value: `Acts o a f` says that `a` answers, and
leaves, what `f` makes of the value. What is made of the answer afterwards does not matter. -/
structure Sense (σ W : Type) where
  Acts : {β : Type} → MemoryOrder → Access σ β → (W → β × W) → Prop
  map : ∀ {β γ : Type} {o : MemoryOrder} {a : Access σ β} {f : W → β × W}, Acts o a f →
    ∀ g : β → γ, Acts o (do return g (← a)) fun x => (g (f x).1, (f x).2)

variable {σ : Type} {w : Nat} {S : Sense σ (BitVec w)}

/-- The three counting operations act as the additions that they stand for. -/
structure Counting.Acts (counting : Counting σ (BitVec w)) (S : Sense σ (BitVec w)) : Prop where
  fetchAddVar : ∀ v o, S.Acts o (counting.fetchAddVar v o) fun x => (x, x + v)
  fetchInc : ∀ o, S.Acts o (counting.fetchInc o) fun x => (x, x + 1)
  fetchDec : ∀ o, S.Acts o (counting.fetchDec o) fun x => (x, x - 1)

/-- Together they are an addition: adding minus one is counting down. -/
theorem Counting.Acts.withCounting {counting : Counting σ (BitVec w)} (h : counting.Acts S)
    (ops : Exchange σ (BitVec w)) (v : BitVec w) (o : MemoryOrder) :
    S.Acts o ((ops.withCounting counting).fetchAdd v o) fun x => (x, x + v) := by
  show S.Acts o (if v = 1 then counting.fetchInc o else
    if v = -1 then counting.fetchDec o else counting.fetchAddVar v o) fun x => (x, x + v)
  split
  next e =>
    subst e
    exact h.fetchInc o
  next =>
    split
    next e =>
      subst e
      simp only [← BitVec.sub_eq_add_neg]
      exact h.fetchDec o
    next => exact h.fetchAddVar v o

/-- A call that leaves a new value, whatever it finds. -/
def Call.Updates : Call (BitVec w) → Prop
  | .store .. | .exchange .. | .modify .. | .increment .. | .decrement .. => True
  | .load _ | .cas .. | .isLockFree | .fetchAddVar .. | .fetchInc _ | .fetchDec _ => False

/-- The order of a call, which is that of success for a compare-exchange. The question about locks has
none and counts as relaxed. -/
def Call.order : Call (BitVec w) → MemoryOrder
  | .load o | .store _ o | .cas _ _ _ o _ | .exchange _ o | .modify _ _ _ o | .increment _ o
  | .decrement _ o | .fetchAddVar _ o | .fetchInc o | .fetchDec o => o
  | .isLockFree => .relaxed

/-- The read-modify-writes from which all others are made. -/
structure FetchAdd.Acts (ops : FetchAdd σ (BitVec w)) (S : Sense σ (BitVec w)) : Prop where
  update : ∀ f o, S.Acts o (ops.update f o) fun x => ((x, f x), f x)
  exchange : ∀ v o, S.Acts o (ops.exchange v o) fun x => (x, v)
  fetchAdd : ∀ v o, S.Acts o (ops.fetchAdd v o) fun x => (x, x + v)

namespace FetchAdd.Acts

variable {ops : FetchAdd σ (BitVec w)} (h : ops.Acts S)
include h

/-- Subtraction is addition of the negation, and the bitwise updates are retry loops. -/
theorem modify (u : Update) (v : BitVec w) (y : Yield) (o : MemoryOrder) :
    S.Acts o (ops.modify u v y o) fun x => (y.pick x (u.apply x v), u.apply x v) := by
  have bitwise (u : Update) := S.map (h.update (u.apply · v) o) fun r => y.pick r.1 r.2
  cases u with
  | add => exact S.map (h.fetchAdd v o) fun previous => y.pick previous (previous + v)
  | sub =>
    have := S.map (h.fetchAdd (-v) o) fun previous => y.pick previous (previous - v)
    simp only [← BitVec.sub_eq_add_neg] at this
    exact this
  | and => exact bitwise .and
  | or => exact bitwise .or
  | xor => exact bitwise .xor

/-- Each call that updates does what it does to a variable. -/
theorem perform {call : Call (BitVec w)} (updates : call.Updates)
    (store : ∀ v o, call = .store v o → S.Acts o (ops.store v o) fun _ => ((), v))
    (lockFree : Bool) :
    ∃ access, (Interface.integral ops).perform? call = some access ∧
      S.Acts call.order access (call.onVariable lockFree) := by
  cases call with
  | store v o => exact ⟨_, rfl, S.map (store v o rfl) fun _ => Reply.done⟩
  | exchange v o => exact ⟨_, rfl, S.map (h.exchange v o) Reply.value⟩
  | modify u v y o => exact ⟨_, rfl, S.map (h.modify u v y o) Reply.value⟩
  | increment y o => exact ⟨_, rfl, S.map (h.modify .add 1 y o) Reply.value⟩
  | decrement y o => exact ⟨_, rfl, S.map (h.modify .sub 1 y o) Reply.value⟩
  | _ => cases updates

end FetchAdd.Acts

end OrderedAtomics
