import OrderedAtomics.Proofs.Cell.Atomicity

/-! A small word in a large one keeps to its own bytes: it reads those alone, and when it writes them
the bytes around are what others have made of them by then. -/

namespace OrderedAtomics

/-- A call that every cell has, about its value. -/
def Call.IsMinimal {W : Type} : Call W → Prop
  | .load _ | .store .. | .cas .weak .. => True
  | _ => False

namespace SubWord

variable {b s shift : Nat}

/-- A cell of `s` bytes in a recorded word of `b` bytes, from some bit on. -/
abbrev inside (b s shift : Nat) : CellKind (8 * s) :=
  (Derivation.fromAdd.kind (8 * b)).part (8 * s) shift

/-- The small word `v` is what lies `o` bytes into the word. -/
def Lies (o : Nat) (word : BitVec (8 * b)) (v : BitVec (8 * s)) : Prop :=
  Word.toBytes v = ((Word.toBytes word).drop o).take s

/-- A call whose last access is its only write: among the bytes of `found`, the word that it meets, it
replaces those from the `o`-th on by the bytes of `v`. -/
def Replaced (o : Nat) (before : Cell (BitVec (8 * b))) (found : BitVec (8 * b))
    (v : BitVec (8 * s)) (after : Cell (BitVec (8 * b))) : Prop :=
  before.Wrote found after ∧
    Word.toBytes after.value = splice o (Word.toBytes found) (Word.toBytes v)

/-- What a call on a small word, `o` bytes into the large one, does. -/
def KeepsTo (o : Nat) (step : (inside b s shift).Step) : Prop :=
  let before : Cell (BitVec (8 * b)) := step.before
  let after : Cell (BitVec (8 * b)) := step.after
  match step.call with
  | .load _ => ∃ v, step.ending = some (.ok (.value v)) ∧ before.Looked after ∧ Lies o after.value v
  | .store v _ => ∃ found, step.ending = some (.ok .done) ∧ Replaced o before found v after
  | .cas _ e d _ _ =>
    (∃ found, step.ending = some (.ok (.outcome ⟨true, e⟩)) ∧ Lies o found e ∧
      Replaced o before found d after) ∨
    ∃ v, step.ending = some (.ok (.outcome ⟨false, v⟩)) ∧ before.Looked after ∧ Lies o after.value v
  | _ => False

variable {o : Nat}

theorem lies_extract (fits : o + s ≤ b) (word : BitVec (8 * b)) :
    Lies o word (extract (8 * s) (8 * o) word) := toBytes_extract fits word

/-- One call in any state. -/
theorem keepsTo_call (fits : o + s ≤ b) {c : Call (BitVec (8 * s))} (minimal : c.IsMinimal)
    (cell : Cell (BitVec (8 * b))) :
    ∃ ending cell', (inside b s (8 * o)).call c cell = (ending, cell') ∧
      KeepsTo o (⟨c, cell, ending, cell'⟩ : (inside b s (8 * o)).Step) := by
  have bits : 8 * o + 8 * s ≤ 8 * b := by omega
  have ops := attempts (Recorder.attempts (w := 8 * b)) bits
  cases c with
  | load order =>
    refine ⟨_, _, CellKind.call_ok rfl (Access.bind_ok (ops.load order cell)), ?_⟩
    exact ⟨_, rfl, cell.looked_load order, lies_extract fits cell.value⟩
  | store v order =>
    obtain ⟨found, cell', wrote, ended, value⟩ := (atomic bits).store v order cell
    refine ⟨_, cell', CellKind.call_ok rfl (Access.bind_ok ended), found, rfl, wrote, ?_⟩
    exact (congrArg Word.toBytes value).trans (toBytes_insert fits found v)
  | cas strength e d success failure =>
    cases strength with
    | strong => cases minimal
    | weak =>
      rcases ops.attempt e d success failure cell with
        ⟨found, cell', wrote, rfl, ended, value⟩ | ⟨cell', looked, ended⟩
      · refine ⟨_, cell', CellKind.call_ok rfl (Access.bind_ok ended), .inl ?_⟩
        refine ⟨found, rfl, lies_extract fits found, wrote, ?_⟩
        exact (congrArg Word.toBytes value).trans (toBytes_insert fits found d)
      · refine ⟨_, cell', CellKind.call_ok rfl (Access.bind_ok ended), .inr ?_⟩
        exact ⟨_, rfl, looked, lies_extract fits cell'.value⟩
  | _ => cases minimal

theorem position_ok {shift : Nat} (placed : position s b o = .ok shift) :
    o + s ≤ b ∧ shift = 8 * o := by
  unfold position at placed
  split at placed
  next => cases placed
  next =>
    split at placed
    next => cases placed
    next fits =>
      cases placed
      exact ⟨Nat.le_of_not_lt fits, rfl⟩

theorem position_error :
    (∃ fault, position s b o = .error fault) ↔ b < o + s ∨ Nat.pow 2 addressWidth ≤ o + s := by
  unfold position
  split
  next wraps => exact ⟨fun _ => .inr wraps, fun _ => ⟨_, rfl⟩⟩
  next small =>
    split
    next outside => exact ⟨fun _ => .inl outside, fun _ => ⟨_, rfl⟩⟩
    next fits =>
      constructor
      · rintro ⟨fault, e⟩
        cases e
      · rintro (outside | wraps)
        · exact absurd outside fits
        · exact absurd wraps small

/-- A small word can be had exactly where it fits. Its cell then starts with zeros around it, or with
the given word as it is, and every call of a sequence keeps to the bytes of the small word, whatever
others write. -/
theorem neighbours_undisturbed (b s o : Nat) :
    ((∃ fault, position s b o = .error fault) ↔ b < o + s ∨ Nat.pow 2 addressWidth ≤ o + s) ∧
      ∀ shift, position s b o = .ok shift →
        (∀ v, Word.toBytes ((inside b s shift).holder.cell ((inside b s shift).fresh v)).value =
          splice o (List.replicate b 0) (Word.toBytes v)) ∧
        (∀ word, ((inside b s shift).holder.cell ((inside b s shift).start word)).value = word) ∧
        ∀ cell calls, (∀ c ∈ calls, c.IsMinimal) →
          ∀ step ∈ (inside b s shift).steps cell calls, KeepsTo o step := by
  refine ⟨position_error, fun shift placed => ?_⟩
  obtain ⟨fits, rfl⟩ := position_ok placed
  refine ⟨toBytes_surround fits, fun _ => rfl, fun cell calls minimal => ?_⟩
  exact CellKind.forall_steps (fun c hc => keepsTo_call fits (minimal c hc)) cell

/-- Two bytes in the middle of a word that another thread writes before the store to it. -/
theorem neighbours_undisturbed_between :
    let calls : List (Call (BitVec (8 * 2))) :=
      [.load .acquire, .store 0xBEEF .release, .cas .weak 0xBEEF 0xCAFE .acqRel .relaxed]
    let cell : Cell (BitVec (8 * 4)) := ⟨0x44332211, [.overwrite 0xDDCCBBAA, .spurious, .quiet], []⟩
    position 2 4 1 = .ok 8 ∧ (∀ c ∈ calls, c.IsMinimal) ∧
      ∀ step ∈ (inside 4 2 8).steps cell calls, KeepsTo 1 step := by
  intro calls cell
  have placed : position 2 4 1 = .ok 8 := rfl
  have minimal : ∀ c ∈ calls, c.IsMinimal := by simp [calls, Call.IsMinimal]
  exact ⟨placed, minimal, ((neighbours_undisturbed 4 2 1).2 8 placed).2.2 cell calls minimal⟩

end SubWord

end OrderedAtomics
