import OrderedAtomics.Cell.Kind

/-! Calls on a cell of any kind, one at a time or one after another. -/

namespace OrderedAtomics.CellKind

variable {w : Nat}

/-- Makes a call and says how it ended, if the cell has it, and in which state. -/
def call (k : CellKind w) (c : Call (BitVec w)) (s : k.State) :
    Option (Except Fault (Reply (BitVec w))) × k.State :=
  match k.interface.perform? c with
  | none => (none, s)
  | some access =>
    match access s with
    | .ok reply s' => (some (.ok reply), s')
    | .error fault s' => (some (.error fault), s')

theorem call_ok {k : CellKind w} {c : Call (BitVec w)} {access : Access k.State (Reply (BitVec w))}
    {s s' : k.State} {reply : Reply (BitVec w)} (performed : k.interface.perform? c = some access)
    (ended : access s = .ok reply s') : k.call c s = (some (.ok reply), s') := by
  unfold call
  simp only [performed, ended]

/-- A call that was made: the state before, how it ended and the state after. -/
structure Step (k : CellKind w) where
  call : Call (BitVec w)
  before : k.State
  ending : Option (Except Fault (Reply (BitVec w)))
  after : k.State

/-- One call after another, each in the state that the last one left. -/
def steps (k : CellKind w) (s : k.State) : List (Call (BitVec w)) → List k.Step
  | [] => []
  | c :: calls =>
    let (ending, s') := k.call c s
    ⟨c, s, ending, s'⟩ :: steps k s' calls

/-- What holds of each call in a state that calls lead to holds of every call of a sequence. -/
theorem forall_steps_from {k : CellKind w} {I : k.State → Prop} {P : k.Step → Prop}
    {calls : List (Call (BitVec w))}
    (each : ∀ c ∈ calls, ∀ s, I s →
      ∃ ending s', k.call c s = (ending, s') ∧ I s' ∧ P ⟨c, s, ending, s'⟩)
    {s : k.State} (start : I s) : ∀ step ∈ k.steps s calls, P step := by
  induction calls generalizing s with
  | nil =>
    intro step none
    cases none
  | cons c calls ih =>
    intro step member
    obtain ⟨ending, s', called, inv, first⟩ := each c List.mem_cons_self s start
    simp only [steps, called] at member
    rcases List.mem_cons.mp member with rfl | later
    · exact first
    · exact ih (fun c hc => each c (List.mem_cons_of_mem _ hc)) inv step later

/-- What holds of each call in any state holds of every call of a sequence. -/
theorem forall_steps {k : CellKind w} {P : k.Step → Prop} {calls : List (Call (BitVec w))}
    (each : ∀ c ∈ calls, ∀ s, ∃ ending s', k.call c s = (ending, s') ∧ P ⟨c, s, ending, s'⟩)
    (s : k.State) : ∀ step ∈ k.steps s calls, P step := by
  refine forall_steps_from (I := fun _ => True) (fun c hc s _ => ?_) trivial
  obtain ⟨ending, s', called, holds⟩ := each c hc s
  exact ⟨ending, s', called, trivial, holds⟩

end OrderedAtomics.CellKind
