import OrderedAtomics.Cell.Backend
import OrderedAtomics.Proofs.Cell.Calls
import OrderedAtomics.Proofs.Cell.Quiet

/-! Every backend builds the same integer: left alone, it answers each call as a plain variable does
and holds the same value after it. -/

namespace OrderedAtomics

/-! ### Calls -/

section Calls

variable {w : Nat}

/-- A call that every integer has, about its value and with orders that it may carry. -/
def Call.Proper {W : Type} : Call W → Prop
  | .load o => o.legalForLoad
  | .store _ o => o.legalForStore
  | .cas _ _ _ _ failure => failure.legalForLoad
  | .exchange .. | .modify .. | .increment .. | .decrement .. => True
  | .isLockFree | .fetchAddVar .. | .fetchInc .. | .fetchDec .. => False

instance {W : Type} : (c : Call W) → Decidable c.Proper
  | .load o => inferInstanceAs (Decidable (o.legalForLoad = true))
  | .store _ o => inferInstanceAs (Decidable (o.legalForStore = true))
  | .cas _ _ _ _ failure => inferInstanceAs (Decidable (failure.legalForLoad = true))
  | .exchange .. | .modify .. | .increment .. | .decrement .. => isTrue trivial
  | .isLockFree | .fetchAddVar .. | .fetchInc .. | .fetchDec .. => isFalse id

theorem FetchAdd.Plain.perform {σ : Type} {rest : σ → BitVec w → Prop} {ops : FetchAdd σ (BitVec w)}
    (h : ops.Plain rest) {c : Call (BitVec w)} (hc : c.Proper) (lockFree : Bool) :
    ∃ access, (Interface.integral ops).perform? c = some access ∧
      (Sense.plain rest).Acts c.order access (c.onVariable lockFree) := by
  have cas (e d x : BitVec w) (k : Strength) (s f : MemoryOrder) :
      (Call.cas k e d s f).onVariable lockFree x =
        (.outcome (.of x e), swapped x e d) := by
    by_cases hx : x = e <;> simp [Call.onVariable, CasOutcome.of, swapped, hx]
  have updating (updates : c.Updates)
      (store : ∀ v o, c = .store v o → (Sense.plain rest).Acts o (ops.store v o) fun _ => ((), v)) :=
    h.acts.perform updates store lockFree
  cases c with
  | load o => exact ⟨_, rfl, fun x => (h.load hc x).map Reply.value⟩
  | cas k e d s f =>
    cases k with
    | weak =>
      simp only [cas]
      exact ⟨_, rfl, fun x => (h.casWeak hc e d s x).map Reply.outcome⟩
    | strong =>
      simp only [cas]
      exact ⟨_, rfl, fun x => (h.casStrong hc e d s x).map Reply.outcome⟩
  | store v o =>
    refine updating trivial ?_
    rintro v o ⟨⟩
    exact h.store hc v
  | exchange v o => exact updating trivial fun v o e => by cases e
  | modify u v y o => exact updating trivial fun v o e => by cases e
  | increment y o => exact updating trivial fun v o e => by cases e
  | decrement y o => exact updating trivial fun v o e => by cases e
  | _ => cases hc

/-- What a plain variable answers to one call after another, each time with the value left. -/
def Call.onVariableAll (lockFree : Bool) (x : BitVec w) :
    List (Call (BitVec w)) → List (Reply (BitVec w) × BitVec w)
  | [] => []
  | c :: calls =>
    let (reply, y) := c.onVariable lockFree x
    (reply, y) :: onVariableAll lockFree y calls

end Calls

/-! ### Kinds of cells -/

namespace CellKind

variable {w : Nat}

/-- How one call after another ends, each with the value left. -/
def answers (k : CellKind w) (s : k.State) (calls : List (Call (BitVec w))) :
    List (Option (Except Fault (Reply (BitVec w))) × BitVec w) :=
  (k.steps s calls).map fun step => (step.ending, k.value step.after)

/-- The minimal operations act as on a variable, which starts with the initial value. -/
structure Plain (k : CellKind w) (rest : k.State → BitVec w → Prop) : Prop where
  fresh : ∀ v, rest (k.fresh v) v
  value : ∀ {s x}, rest s x → k.value s = x
  minimal : k.interface.minimalOps.Plain rest

/-- A full cell, each operation of which acts as on a variable. -/
structure PlainInteger (k : CellKind w) (rest : k.State → BitVec w → Prop) : Prop where
  fresh : ∀ v, rest (k.fresh v) v
  value : ∀ {s x}, rest s x → k.value s = x
  integral : ∃ ops, k.interface = .integral ops ∧ ops.Plain rest

theorem Plain.derived {k : CellKind w} {rest : k.State → BitVec w → Prop} (h : k.Plain rest) :
    k.derived.PlainInteger rest where
  fresh := h.fresh
  value := h.value
  integral := ⟨_, rfl, h.minimal.integral⟩

theorem Plain.part {k : CellKind w} {rest : k.State → BitVec w → Prop} (h : k.Plain rest)
    {m shift : Nat} (fits : shift + m ≤ w) :
    (k.part m shift).Plain (SubWord.Rest rest m shift) where
  fresh v := ⟨_, h.fresh _, SubWord.extract_surround fits v⟩
  value := by
    rintro s x ⟨word, hs, rfl⟩
    exact congrArg (SubWord.extract m shift) (h.value hs)
  minimal := SubWord.plain_machine h.minimal fits

/-- One call: the answer and the value are those of a variable, and the cell is at rest again. -/
theorem PlainInteger.call {k : CellKind w} {rest : k.State → BitVec w → Prop}
    (h : k.PlainInteger rest) {c : Call (BitVec w)} (hc : c.Proper) (lockFree : Bool) {s : k.State}
    {x : BitVec w} (hs : rest s x) :
    ∃ s', k.call c s = (some (.ok (c.onVariable lockFree x).1), s') ∧
      rest s' (c.onVariable lockFree x).2 := by
  obtain ⟨ops, interface, plain⟩ := h.integral
  obtain ⟨access, performed, gives⟩ := plain.perform hc lockFree
  obtain ⟨s', ended, hs'⟩ := gives x s hs
  rw [← interface] at performed
  exact ⟨s', k.call_ok performed ended, hs'⟩

/-- Many calls, by induction on them. -/
theorem PlainInteger.answers {k : CellKind w} {rest : k.State → BitVec w → Prop}
    (h : k.PlainInteger rest) (lockFree : Bool) {calls : List (Call (BitVec w))}
    (proper : ∀ c ∈ calls, c.Proper) {s : k.State} {x : BitVec w} (hs : rest s x) :
    k.answers s calls =
      (Call.onVariableAll lockFree x calls).map fun a => (some (.ok a.1), a.2) := by
  induction calls generalizing s x with
  | nil => rfl
  | cons c calls ih =>
    obtain ⟨s', e, hs'⟩ := h.call (proper c List.mem_cons_self) lockFree hs
    have tail := ih (fun c hc => proper c (List.mem_cons_of_mem _ hc)) hs'
    unfold CellKind.answers at tail ⊢
    simp only [CellKind.steps, e, List.map_cons, h.value hs', tail, Call.onVariableAll]

end CellKind

/-! ### Backends -/

namespace Backend

variable {w : Nat} {n : Native (Cell (BitVec w)) (BitVec w)}

theorem plain_bare (h : n.Plain Cell.Quiet) (b : Backend) : ∃ rest, (b.bare n).Plain rest := by
  have onCell {interface : Interface (Cell (BitVec w)) w}
      (hi : interface.minimalOps.Plain Cell.Quiet) : (CellKind.plain interface).Plain Cell.Quiet :=
    ⟨fun _ => ⟨rfl, rfl⟩, fun hs => hs.1, hi⟩
  cases b with
  | x86 => exact ⟨_, onCell (TotalStore.plain_machine h).toMinimal⟩
  | powerPc => exact ⟨_, onCell (LoadLinked.plain_machine h (FenceTable.plain_barriers _))⟩
  | alpha => exact ⟨_, onCell (LoadLinked.plain_machine h (FenceTable.plain_barriers _))⟩
  | genericCas => exact ⟨_, onCell (FencedSwap.plain_machine h).toMinimal⟩
  | fallback =>
    exact ⟨Guarded.Quiet, fun _ => ⟨⟨rfl, rfl⟩, LockTable.unheld_free⟩, fun hs => hs.1.1,
      (Locked.plain_wordMachine lockedAddress).toMinimal⟩

theorem plain_full (h : n.Plain Cell.Quiet) (b : Backend) :
    ∃ rest, (b.full n).PlainInteger rest := by
  have onCell {ops : FetchAdd (Cell (BitVec w)) (BitVec w)} (ho : ops.Plain Cell.Quiet) :
      (CellKind.plain (.integral ops)).PlainInteger Cell.Quiet :=
    ⟨fun _ => ⟨rfl, rfl⟩, fun hs => hs.1, _, rfl, ho⟩
  have loadLinked (t : FenceTable) : (Cell.loadLinked n t.barriers).Plain Cell.Quiet :=
    (LoadLinked.plain_machine h t.plain_barriers).withExchange.withCounting
      (LoadLinked.plain_counting h t.plain_barriers)
  cases b with
  | x86 => exact ⟨_, onCell (TotalStore.plain_machine h)⟩
  | powerPc => exact ⟨_, onCell (loadLinked .powerPc)⟩
  | alpha => exact ⟨_, onCell (loadLinked .alpha)⟩
  | genericCas => exact ⟨_, onCell (FencedSwap.plain_machine h).withFetchAdd⟩
  | fallback =>
    exact ⟨Guarded.Quiet, fun _ => ⟨⟨rfl, rfl⟩, LockTable.unheld_free⟩, fun hs => hs.1.1, _, rfl,
      Locked.plain_wordMachine lockedAddress⟩

/-- The full cells of the backends: whole words of any width, and small words that have no hardware
word of their own. -/
inductive Integer : {w : Nat} → CellKind w → Prop
  | whole {w : Nat} (b : Backend) : Integer (b.full (Native.strict : Native (Cell (BitVec w)) _))
  | small {w : Nat} (b : Backend) (fits : w ≤ embeddingWidth) : Integer (b.embedded w)

theorem Integer.plain {k : CellKind w} (h : Integer k) : ∃ rest, k.PlainInteger rest := by
  cases h with
  | whole b => exact plain_full Native.plain_strict b
  | small b fits =>
    obtain ⟨rest, hb⟩ := plain_bare Native.plain_strict b
    have inside : 0 + w ≤ embeddingWidth := by omega
    exact ⟨_, (hb.part inside).derived⟩

/-- Left alone, the integers of all backends answer every sequence of calls as a plain variable
does, each call with the value that the variable has after it. -/
theorem integers_act_as_variables {k : CellKind w} (integer : Integer k) (v : BitVec w)
    {calls : List (Call (BitVec w))} (proper : ∀ c ∈ calls, c.Proper) (lockFree : Bool) :
    k.answers (k.fresh v) calls =
        (Call.onVariableAll lockFree v calls).map (fun a => (some (.ok a.1), a.2)) ∧
      ∀ other : CellKind w, Integer other →
        other.answers (other.fresh v) calls = k.answers (k.fresh v) calls := by
  have acts {k : CellKind w} (integer : Integer k) : k.answers (k.fresh v) calls =
      (Call.onVariableAll lockFree v calls).map fun a => (some (.ok a.1), a.2) := by
    obtain ⟨rest, plain⟩ := integer.plain
    exact plain.answers lockFree proper (plain.fresh v)
  exact ⟨acts integer, fun other ho => (acts ho).trans (acts integer).symm⟩

/-- A small word on the load-linked machine with the heaviest fences. -/
theorem integers_act_as_variables_small :
    let calls : List (Call (BitVec 8)) := [.decrement .updated .seqCst, .modify .add 3 .previous .acqRel,
      .cas .weak 2 7 .release .relaxed, .cas .strong 0 1 .seqCst .acquire, .load .consume]
    let kind : CellKind 8 := alpha.embedded 8
    8 ≤ embeddingWidth ∧ (∀ c ∈ calls, c.Proper) ∧
      kind.answers (kind.fresh 0) calls =
        [(some (.ok (.value 255)), 255), (some (.ok (.value 255)), 2),
          (some (.ok (.outcome ⟨true, 2⟩)), 7), (some (.ok (.outcome ⟨false, 7⟩)), 7),
          (some (.ok (.value 7)), 7)] :=
  ⟨by decide, by decide,
    (integers_act_as_variables (.small alpha (by decide)) 0 (by decide) true).1.trans rfl⟩

end Backend

end OrderedAtomics
