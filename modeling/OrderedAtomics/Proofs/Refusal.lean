import OrderedAtomics.Cell
import OrderedAtomics.Proofs.Alone

/-! Calls that may be refused. A refused call that leaves the state alone can be left out: the calls that
are answered then answer the same, and lead to the same state. -/

namespace OrderedAtomics

/-- The state that an access leaves, and how it ended. -/
def Access.outcome {σ β : Type} (a : Access σ β) (s : σ) : σ × Except Fault β :=
  match a s with
  | .ok r s' => (s', .ok r)
  | .error f s' => (s', .error f)

/-- A compare-exchange by a caller who keeps the value that it expects in a variable of its own. -/
def Access.compared {σ T : Type} (a : T → Access σ (CasOutcome T)) : Access (σ × T) Bool :=
  fun (s, expected) =>
    match a expected s with
    | .ok outcome s' => .ok outcome.stored (s', outcome.expected)
    | .error f s' => .error f (s', expected)

section Outcome

variable {σ β T : Type} {a : Access σ β} {s s' : σ}

theorem Access.bind_error {γ : Type} {f : Fault} (h : a s = .error f s') (g : β → Access σ γ) :
    (a >>= g) s = .error f s' := by
  show EStateM.bind a g s = _
  simp only [EStateM.bind, h]

theorem Access.outcome_ok {r : β} (h : a s = .ok r s') : a.outcome s = (s', .ok r) := by
  unfold outcome
  rw [h]

theorem Access.outcome_error {f : Fault} (h : a s = .error f s') : a.outcome s = (s', .error f) := by
  unfold outcome
  rw [h]

theorem Access.ok_of_outcome {r : β} (h : a.outcome s = (s', .ok r)) : a s = .ok r s' := by
  cases ended : a s with
  | ok => cases (outcome_ok ended).symm.trans h; rfl
  | error => cases (outcome_error ended).symm.trans h

theorem Access.error_of_outcome {f : Fault} (h : a.outcome s = (s', .error f)) :
    a s = .error f s' := by
  cases ended : a s with
  | ok => cases (outcome_ok ended).symm.trans h
  | error => cases (outcome_error ended).symm.trans h; rfl

variable {cas : T → Access σ (CasOutcome T)} {expected : T}

theorem Access.compared_ok {outcome : CasOutcome T} (h : cas expected s = .ok outcome s') :
    compared cas (s, expected) = .ok outcome.stored (s', outcome.expected) := by
  simp only [compared, h]

theorem Access.compared_error {f : Fault} (h : cas expected s = .error f s') :
    compared cas (s, expected) = .error f (s', expected) := by
  simp only [compared, h]

end Outcome

section InTurn

variable {S C R ε : Type}

/-- The calls that were answered. -/
def answered (calls : List C) (answers : List (Except ε R)) : List C :=
  ((calls.zip answers).filter fun call => call.2.isOk).map Prod.fst

theorem answered_cons (c : C) (calls : List C) (r : Except ε R) (answers : List (Except ε R)) :
    answered (c :: calls) (r :: answers) =
      if r.isOk then c :: answered calls answers else answered calls answers := by
  unfold answered
  rw [List.zip_cons_cons, List.filter_cons]
  split <;> rfl

theorem mem_of_mem_answered {c : C} {calls : List C} {answers : List (Except ε R)}
    (h : c ∈ answered calls answers) : c ∈ calls := by
  obtain ⟨call, among, rfl⟩ := List.mem_map.mp h
  exact (List.of_mem_zip (List.mem_filter.mp among).1).1

theorem inTurn_answered {f : S → C → S × Except ε R}
    (still : ∀ s c, (f s c).2.isOk = false → (f s c).1 = s) (calls : List C) (s : S) :
    inTurn f s (answered calls (inTurn f s calls).2) =
      ((inTurn f s calls).1, (inTurn f s calls).2.filter Except.isOk) := by
  induction calls generalizing s with
  | nil => rfl
  | cons c calls ih =>
    rw [inTurn_cons, answered_cons, List.filter_cons]
    cases ok : (f s c).2.isOk with
    | true =>
      rw [if_pos rfl, if_pos rfl, inTurn_cons, ih]
    | false =>
      have same := still s c ok
      rw [if_neg Bool.false_ne_true, if_neg Bool.false_ne_true, same]
      exact ih s

/-- If it shows in a call whether it is going to be answered, so it does in a sequence. -/
theorem answered_inTurn {f : S → C → S × Except ε R} {refuses : C → Bool}
    (shows : ∀ s c, (f s c).2.isOk = !refuses c) (calls : List C) (s : S) :
    answered calls (inTurn f s calls).2 = calls.filter fun c => !refuses c := by
  induction calls generalizing s with
  | nil => rfl
  | cons c calls ih => rw [inTurn_cons, answered_cons, List.filter_cons, shows, ih]

end InTurn

end OrderedAtomics
