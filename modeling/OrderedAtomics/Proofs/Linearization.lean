import Mathlib.Logic.Function.Basic
import Mathlib.Tactic.ByContra
import OrderedAtomics.Protocol

/-! Linearizability. The log of a run has the calls, the answers and the steps at which a call may
take effect, newest first. A run is linearizable to a sequential object if every call takes effect
exactly once between its beginning and its answer, and the calls in the order of their effects are
a run of the object with the same replies.

A call that changes nothing often learns only later that a step of it was the one at which it took
effect. Such a step shows a reply; `settle` keeps the last one that was shown before an answer. -/

namespace OrderedAtomics

/-- What a step may mean for the call that it belongs to. -/
inductive Effect (R : Type) where
  /-- The call takes effect here and will have this reply. -/
  | settles (reply : R)
  /-- The call takes effect here, changing nothing, if it ends with no other effect after this. -/
  | shows (reply : R)
  deriving DecidableEq, Repr

inductive Entry (C R : Type) where
  | called (thread : Nat) (call : C)
  | passed (thread : Nat) (effect : Effect R)
  | answered (thread : Nat) (reply : R)
  deriving DecidableEq, Repr

/-- A thread is between two calls, or its call has not taken effect yet, or it has. A reply that was
shown last can still become the one of a pending call. -/
inductive Phase (C R : Type) where
  | idle
  | pending (call : C) (shown : Option R)
  | settled (reply : R)

variable {C R A : Type}

/-- What can be seen of an entry from outside. -/
def Entry.moment? : Entry C R → Option (Moment C R)
  | called i c => some (.called i c)
  | passed _ _ => none
  | answered i r => some (.answered i r)

def history (log : List (Entry C R)) : List (Moment C R) := log.filterMap Entry.moment?

@[simp] theorem history_nil : history ([] : List (Entry C R)) = [] := rfl

@[simp] theorem history_called (i : Nat) (c : C) (log : List (Entry C R)) :
    history (.called i c :: log) = .called i c :: history log := rfl

@[simp] theorem history_passed (i : Nat) (e : Effect R) (log : List (Entry C R)) :
    history (.passed i e :: log) = history log := rfl

@[simp] theorem history_answered (i : Nat) (r : R) (log : List (Entry C R)) :
    history (.answered i r :: log) = .answered i r :: history log := rfl

/-- Goes back through a log. Of the replies that a call has shown, the last one before the answer
becomes its effect; `waiting` are the threads with an answer whose effect is yet to be met. -/
def settle (waiting : Nat → Bool) : List (Entry C R) → List (Entry C R)
  | [] => []
  | .answered i r :: log => .answered i r :: settle (Function.update waiting i true) log
  | .passed i (.settles r) :: log =>
    .passed i (.settles r) :: settle (Function.update waiting i false) log
  | .passed i (.shows r) :: log =>
    if waiting i then .passed i (.settles r) :: settle (Function.update waiting i false) log
    else settle waiting log
  | .called i c :: log => .called i c :: settle (Function.update waiting i false) log

/-- Every call takes effect once, after it was made and before it is answered, and is answered with
the reply it had then. The operations stand in the order of their effects, newest first. -/
inductive Ordered : List (Entry C R) → List (Nat × C × R) → (Nat → Phase C R) → Prop
  | nil : Ordered [] [] fun _ => .idle
  | called {log ops φ i c} : Ordered log ops φ → φ i = .idle →
    Ordered (.called i c :: log) ops (Function.update φ i (.pending c none))
  | settled {log ops φ i c r} : Ordered log ops φ → φ i = .pending c none →
    Ordered (.passed i (.settles r) :: log) ((i, c, r) :: ops) (Function.update φ i (.settled r))
  | answered {log ops φ i r} : Ordered log ops φ → φ i = .settled r →
    Ordered (.answered i r :: log) ops (Function.update φ i .idle)

/-- Operations, newest first, that the sequential object can do one after the other. -/
inductive Legal (spec : A → C → R → A → Prop) (a₀ : A) : List (Nat × C × R) → A → Prop
  | nil : Legal spec a₀ [] a₀
  | cons {ops a a' i c r} : Legal spec a₀ ops a → spec a c r a' →
    Legal spec a₀ ((i, c, r) :: ops) a'

/-- The log is that of the given operations, each with one effect, and they lead the sequential
object from `a₀` to `a`. -/
def Linearized (spec : A → C → R → A → Prop) (a₀ : A) (log : List (Entry C R))
    (ops : List (Nat × C × R)) (a : A) : Prop :=
  (∃ φ, Ordered (settle (fun _ => false) log) ops φ) ∧ Legal spec a₀ ops a

/-! ### Shown replies

While a run goes on, nobody knows which shown reply will count. It is enough to keep for every
pending call the last one, if the object could have given it then. -/

/-- A call in this phase may end with the reply. -/
def Phase.Answers : Phase C R → R → Prop
  | idle, _ => False
  | pending _ shown, r => shown = some r
  | settled r', r => r' = r

/-- The phase with regard to the settled log. -/
def Phase.resolve : Phase C R → Bool → Phase C R
  | pending _ (some r), true => settled r
  | pending c _, _ => pending c none
  | φ, _ => φ

@[simp] theorem Phase.resolve_idle (b : Bool) : (idle : Phase C R).resolve b = idle := by
  cases b <;> rfl

@[simp] theorem Phase.resolve_settled (r : R) (b : Bool) :
    (settled r : Phase C R).resolve b = settled r := by cases b <;> rfl

@[simp] theorem Phase.resolve_pending_none (c : C) (b : Bool) :
    (pending c none : Phase C R).resolve b = pending c none := by cases b <;> rfl

@[simp] theorem Phase.resolve_pending_false (c : C) (o : Option R) :
    (pending c o).resolve false = pending c none := by cases o <;> rfl

theorem Phase.Answers.resolve {φ : Phase C R} {r : R} (h : φ.Answers r) :
    φ.resolve true = settled r := by
  cases φ with
  | idle => cases h
  | pending c shown => obtain rfl : shown = some r := h; rfl
  | settled r' => obtain rfl : r' = r := h; rfl

/-- A passing step takes a call from one phase to another and the object from one state to
another. -/
inductive Passes (spec : A → C → R → A → Prop) :
    Option (Effect R) → Phase C R → A → Phase C R → A → Prop
  | none {φ a} : Passes spec none φ a φ a
  | settles {c o r a a'} : spec a c r a' →
    Passes spec (some (.settles r)) (.pending c o) a (.settled r) a'
  | shows {c o r a} : spec a c r a →
    Passes spec (some (.shows r)) (.pending c o) a (.pending c (some r)) a
  /-- A shown reply that the object cannot give. -/
  | hides {c o r a} : Passes spec (some (.shows r)) (.pending c o) a (.pending c none) a

/-- The phases of all threads and the state of the object after a log. -/
inductive Admits (spec : A → C → R → A → Prop) (a₀ : A) :
    List (Entry C R) → (Nat → Phase C R) → A → Prop
  | nil : Admits spec a₀ [] (fun _ => .idle) a₀
  | called {log φ a i c} : Admits spec a₀ log φ a → φ i = .idle →
    Admits spec a₀ (.called i c :: log) (Function.update φ i (.pending c none)) a
  | passed {log φ a i e ψ a'} : Admits spec a₀ log φ a → Passes spec (some e) (φ i) a ψ a' →
    Admits spec a₀ (.passed i e :: log) (Function.update φ i ψ) a'
  | answered {log φ a i r} : Admits spec a₀ log φ a → (φ i).Answers r →
    Admits spec a₀ (.answered i r :: log) (Function.update φ i .idle) a

private theorem update_resolve {φ : Nat → Phase C R} {waiting : Nat → Bool} {i : Nat}
    {ψ : Phase C R} (χ : Phase C R) (b : Bool) (h : ψ.resolve (waiting i) = χ) :
    (fun j => (Function.update φ i ψ j).resolve (waiting j)) =
      Function.update (fun j => (φ j).resolve (Function.update waiting i b j)) i χ := by
  funext j
  by_cases hj : j = i
  · subst hj; simp [h]
  · simp [hj]

private theorem resolve_same {φ : Nat → Phase C R} {waiting : Nat → Bool} {i : Nat}
    {ψ : Phase C R} (b : Bool) (h : ψ.resolve (waiting i) = (φ i).resolve b) :
    (fun j => (Function.update φ i ψ j).resolve (waiting j)) =
      fun j => (φ j).resolve (Function.update waiting i b j) := by
  rw [update_resolve _ b h, Function.update_eq_self_iff]
  simp

/-- A thread whose phase has just changed does not wait unless the new phase has an answer. -/
private theorem answers_of_update {φ : Nat → Phase C R} {waiting : Nat → Bool} {i : Nat}
    {ψ : Phase C R} {b : Bool}
    (hw : ∀ j, waiting j → ∃ r, (Function.update φ i ψ j).Answers r)
    (hi : b → ∃ r, (φ i).Answers r) (j : Nat) (hj : Function.update waiting i b j) :
    ∃ r, (φ j).Answers r := by
  by_cases h : j = i
  · subst h; exact hi (by simpa using hj)
  · simpa [h] using hw j (by simpa [h] using hj)

private theorem not_waiting {φ : Nat → Phase C R} {waiting : Nat → Bool} {i : Nat} {ψ : Phase C R}
    (hw : ∀ j, waiting j → ∃ r, (Function.update φ i ψ j).Answers r) (hψ : ∀ r, ¬ ψ.Answers r) :
    waiting i = false := by
  by_contra hb
  obtain ⟨r, hr⟩ := hw i (by simpa using hb)
  exact hψ r (by simpa using hr)

/-- Settling a log entry by entry: what a waiting thread was shown last becomes its effect. -/
theorem Admits.ordered {spec : A → C → R → A → Prop} {a₀ a : A} {log : List (Entry C R)}
    {φ : Nat → Phase C R} (h : Admits spec a₀ log φ a) (waiting : Nat → Bool)
    (hw : ∀ i, waiting i → ∃ r, (φ i).Answers r) :
    ∃ ops, Ordered (settle waiting log) ops (fun i => (φ i).resolve (waiting i)) ∧
      Legal spec a₀ ops a := by
  induction h generalizing waiting with
  | nil => exact ⟨[], by simpa [settle] using Ordered.nil, .nil⟩
  | @called log φ a i c h idle ih =>
    obtain ⟨ops, ho, hl⟩ := ih (Function.update waiting i false) (answers_of_update hw (by simp))
    refine ⟨ops, ?_, hl⟩
    rw [settle, update_resolve (.pending c none) false (by simp)]
    exact ho.called (by simp [idle])
  | @answered log φ a i r h ans ih =>
    obtain ⟨ops, ho, hl⟩ := ih (Function.update waiting i true)
      (answers_of_update hw fun _ => ⟨r, ans⟩)
    refine ⟨ops, ?_, hl⟩
    rw [settle, update_resolve .idle true (by simp)]
    exact ho.answered (by simp [ans.resolve])
  | @passed log φ a i e ψ a' h pass ih =>
    generalize hφ : φ i = χ at pass
    obtain ⟨ops, ho, hl⟩ := ih (Function.update waiting i false) (answers_of_update hw (by simp))
    cases pass with
    | @settles c o r _ a' hs =>
      refine ⟨(i, c, r) :: ops, ?_, hl.cons hs⟩
      rw [settle, update_resolve (.settled r) false (by simp)]
      exact ho.settled (by simp [hφ])
    | @shows c o r _ hs =>
      rw [settle]
      split
      next hi =>
        refine ⟨(i, c, r) :: ops, ?_, hl.cons hs⟩
        rw [update_resolve (.settled r) false (by rw [hi]; rfl)]
        exact ho.settled (by simp [hφ])
      next hi =>
        have hi : waiting i = false := by simpa using hi
        rw [resolve_same false (by simp [hi, hφ])]
        rw [Function.update_eq_self_iff.mpr hi.symm] at ho ⊢
        exact ⟨ops, ho, hl⟩
    | @hides c o r =>
      have hi := not_waiting hw (by simp [Phase.Answers])
      rw [settle, if_neg (by simp [hi]), resolve_same false (by simp [hi, hφ])]
      rw [Function.update_eq_self_iff.mpr hi.symm] at ho ⊢
      exact ⟨ops, ho, hl⟩

theorem Admits.linearized {spec : A → C → R → A → Prop} {a₀ a : A} {log : List (Entry C R)}
    {φ : Nat → Phase C R} (h : Admits spec a₀ log φ a) :
    ∃ ops, Linearized spec a₀ log ops a := by
  obtain ⟨ops, ho, hl⟩ := h.ordered (fun _ => false) (by simp)
  exact ⟨ops, ⟨_, ho⟩, hl⟩

end OrderedAtomics
