import OrderedAtomics.Cell.Backend
import OrderedAtomics.Cell.Derivation
import OrderedAtomics.Proofs.Cell.Calls
import OrderedAtomics.Proofs.Cell.Machines

/-! Stacks: a machine with levels of derived operations and small words on it, in any order. However high
a stack is, its retry loops make one attempt more than are interfered with, and a strong
compare-exchange is decided by what its last attempt met. -/

namespace OrderedAtomics

/-! ### Kinds of cells -/

namespace CellKind

section Kinds

variable {w : Nat}

/-- The cell with other operations. -/
def offering (k : CellKind w) (interface : Interface k.State w) : CellKind w :=
  { k with interface := interface }

/-- The cell with strong compare-exchange and exchange derived from its minimal operations. -/
def withExchange (k : CellKind w) : CellKind w :=
  k.offering (.exchange k.interface.minimalOps.withExchange k.interface.countingOps)

/-- Where a cell of the kind is. -/
def site (k : CellKind w) (Fit : k.State → Prop) (takes : Admission) (single : Prop) :
    Site k.State (BitVec k.whole) :=
  ⟨k.holder.cell, Fit, takes, single⟩

/-- A kind of cell on which others may write, with a state to start in for every word and script. -/
structure Contended (k : CellKind w) (Fit : k.State → Prop) (takes : Admission) (single : Prop)
    (put : BitVec k.whole → BitVec w → BitVec k.whole) : Prop where
  fit : ∀ script word, Fit (k.holder.prepare script (k.start word))
  minimal : k.interface.minimalOps.Contended (k.site Fit takes single) k.extract put
  prompt : k.interface.Prompt (k.site Fit takes single)

/-- Stacks: the machines, and on each of them the derived operations level by level and small words
where they fit. If `single` holds, only machines that load in one primitive are at the bottom. -/
inductive Stack (single : Prop) : {w : Nat} → Admission → CellKind w → Prop
  | recorded {w : Nat} :
    Stack single .every (.plain (.fetchAdd (Recorder.machine : FetchAdd (Cell (BitVec w)) _)))
  | recordedExchange {w : Nat} :
    Stack single .every (.plain (.exchange
      (Recorder.machine : FetchAdd (Cell (BitVec w)) _).toExchange (some Recorder.counting)))
  | recordedMinimal {w : Nat} :
    Stack single .every (.plain (.minimal
      (Recorder.machine : FetchAdd (Cell (BitVec w)) _).toMinimal (some Recorder.counting)))
  | totalStore {w : Nat} {n : Native (Cell (BitVec w)) (BitVec w)} {takes : Admission}
      (allows : n.Allows takes) :
    Stack single takes (.plain (.fetchAdd (TotalStore.machine n)))
  | doubleSwap {w : Nat} {n : Native (Cell (BitVec w)) (BitVec w)} {takes : Admission}
      (allows : n.Allows takes) {lockFree : Bool} :
    Stack single takes (.plain (.exchange (DoubleSwap.machine n lockFree) none))
  | loadLinked {w : Nat} {n : Native (Cell (BitVec w)) (BitVec w)} {takes : Admission}
      (allows : n.Allows takes) {b : Barriers (Cell (BitVec w))} (fences : b.Fences) :
    Stack single .every (LoadLinked.bare n b)
  | fencedSwap {w : Nat} {n : Native (Cell (BitVec w)) (BitVec w)} {takes : Admission}
      (allows : n.Allows takes) (several : ¬single) :
    Stack single .every (.plain (.exchange (FencedSwap.machine n) none))
  | locked {w : Nat} {a : Address} :
    Stack single .every (.locked (.fetchAdd (Locked.wordMachine a : FetchAdd _ (BitVec w))))
  | withExchange {w : Nat} {k : CellKind w} {takes : Admission} (below : Stack single takes k) :
    Stack single takes k.withExchange
  | withFetchAdd {w : Nat} {k : CellKind w} {takes : Admission} {ops : Exchange k.State (BitVec w)}
      {counting : Option (Counting k.State (BitVec w))} (below : Stack single takes k)
      (has : k.interface = .exchange ops counting) :
    Stack single takes (k.offering (.fetchAdd ops.withFetchAdd))
  | withCounting {w : Nat} {k : CellKind w} {takes : Admission} {ops : Exchange k.State (BitVec w)}
      {counting : Counting k.State (BitVec w)} (below : Stack single takes k)
      (has : k.interface = .exchange ops (some counting)) :
    Stack single takes (k.offering (.fetchAdd (ops.withCounting counting)))
  | arithmetic {w : Nat} {k : CellKind w} {takes : Admission} {ops : FetchAdd k.State (BitVec w)}
      (below : Stack single takes k) (has : k.interface = .fetchAdd ops) :
    Stack single takes (k.offering (.arithmetic ops))
  | integral {w : Nat} {k : CellKind w} {takes : Admission} {ops : FetchAdd k.State (BitVec w)}
      (below : Stack single takes k) (has : k.interface = .arithmetic ops) :
    Stack single takes (k.offering (.integral ops))
  | part {w : Nat} {k : CellKind w} {takes : Admission} (below : Stack single takes k) {m shift : Nat}
      (fits : shift + m ≤ w) :
    Stack single takes.looping (k.part m shift)

variable {k : CellKind w} {takes : Admission} {single : Prop} {Fit : k.State → Prop}
  {put : BitVec k.whole → BitVec w → BitVec k.whole}

theorem Contended.of_plain {i : Interface (Cell (BitVec w)) w}
    (minimal : i.minimalOps.Contended (.plain takes single) id fun _ v => v)
    (prompt : i.Prompt (.plain takes single : Site _ (BitVec w))) :
    (plain i).Contended (fun _ => True) takes single fun _ v => v :=
  ⟨fun _ _ => trivial, minimal, prompt⟩

theorem Contended.withExchange (h : k.Contended Fit takes single put) :
    k.withExchange.Contended Fit takes single put where
  fit := h.fit
  minimal := h.minimal
  prompt := ⟨h.minimal.withExchange h.prompt.minimal, fun _ has => h.prompt.counting has⟩

theorem Contended.part (h : k.Contended Fit takes single put) {m shift : Nat}
    (fits : shift + m ≤ w) : (k.part m shift).Contended Fit takes.looping single
      fun x v => put x (SubWord.insert shift (k.extract x) v) where
  fit := h.fit
  minimal := SubWord.contended h.minimal fits
  prompt := ⟨SubWord.prompt h.minimal h.prompt.minimal fits, nofun⟩

/-- Every level keeps what the levels below it have. -/
theorem Stack.contended (stack : k.Stack single takes) :
    ∃ Fit put, k.Contended Fit takes single put := by
  induction stack with
  | recorded => exact ⟨_, _, .of_plain Recorder.contended Recorder.prompt⟩
  | recordedExchange =>
    refine ⟨_, _, .of_plain Recorder.contended ⟨Recorder.prompt.toExchange, ?_⟩⟩
    rintro _ ⟨⟩
    exact Recorder.counting_prompt
  | recordedMinimal =>
    refine ⟨_, _, .of_plain Recorder.contended ⟨Recorder.prompt.toMinimal, ?_⟩⟩
    rintro _ ⟨⟩
    exact Recorder.counting_prompt
  | totalStore allows =>
    exact ⟨_, _, .of_plain (TotalStore.contended allows) (TotalStore.prompt allows)⟩
  | doubleSwap allows =>
    exact ⟨_, _, .of_plain (DoubleSwap.contended allows _) ⟨DoubleSwap.prompt allows _, nofun⟩⟩
  | loadLinked allows fences =>
    refine ⟨_, _, .of_plain (LoadLinked.contended allows fences) ?_⟩
    refine ⟨LoadLinked.prompt allows fences, ?_⟩
    rintro _ ⟨⟩
    exact LoadLinked.counting_prompt allows fences
  | fencedSwap allows several =>
    exact ⟨_, _, .of_plain (FencedSwap.contended allows several) ⟨FencedSwap.prompt allows, nofun⟩⟩
  | locked =>
    exact ⟨fun g => g.locks.Unheld, _, fun _ _ => LockTable.unheld_free, Locked.contended,
      Locked.prompt⟩
  | withExchange _ ih =>
    obtain ⟨Fit, put, h⟩ := ih
    exact ⟨Fit, put, h.withExchange⟩
  | withFetchAdd _ has ih =>
    obtain ⟨Fit, put, fit, minimal, prompt⟩ := ih
    rw [has] at minimal prompt
    exact ⟨Fit, put, fit, minimal, prompt.1.withFetchAdd minimal⟩
  | withCounting _ has ih =>
    obtain ⟨Fit, put, fit, minimal, prompt⟩ := ih
    rw [has] at minimal prompt
    exact ⟨Fit, put, fit, minimal, prompt.1.withCounting minimal (prompt.2 _ rfl)⟩
  | arithmetic _ has ih | integral _ has ih =>
    obtain ⟨Fit, put, fit, minimal, prompt⟩ := ih
    rw [has] at minimal prompt
    exact ⟨Fit, put, fit, minimal, prompt⟩
  | part _ fits ih =>
    obtain ⟨Fit, put, h⟩ := ih
    exact ⟨Fit, _, h.part fits⟩

/-! Among the stacks are all cells that the library builds. -/

/-- A cell with fetch-and-add has all the rest. -/
theorem Stack.completed {ops : FetchAdd k.State (BitVec w)} (stack : k.Stack single takes)
    (has : k.interface = .fetchAdd ops) : (k.offering (.integral ops)).Stack single takes :=
  (stack.arithmetic has).integral rfl

theorem Stack.derived (stack : k.Stack single takes) : k.derived.Stack single takes :=
  (stack.withExchange.withFetchAdd rfl).completed rfl

/-- Every way to complete a cell makes a stack. -/
theorem Stack.derivation (d : Derivation) (fits : ∀ n, d = .fromLarger n → w ≤ n) :
    ∃ takes, (d.kind w).Stack single takes := by
  cases d with
  | fromMinimal => exact ⟨_, recordedMinimal.derived⟩
  | fromExchange => exact ⟨_, (recordedExchange.withFetchAdd rfl).completed rfl⟩
  | fromAdd => exact ⟨_, recorded.completed rfl⟩
  | fromTypical => exact ⟨_, (recordedExchange.withCounting rfl).completed rfl⟩
  | fromTypicalCas => exact ⟨_, (recordedMinimal.withExchange.withCounting rfl).completed rfl⟩
  | exchangeFromCas => exact ⟨_, recordedMinimal.withExchange⟩
  | arithmeticFromAdd => exact ⟨_, recorded.arithmetic rfl⟩
  | fromLarger n =>
    have inside : 0 + w ≤ n := by simpa using fits n rfl
    exact ⟨_, (recorded.part inside).derived⟩

section Backends

variable {n : Native (Cell (BitVec w)) (BitVec w)} (allows : n.Allows takes) (b : Backend)
  (loads : b = .genericCas → ¬single)
include allows loads

/-- The machine of every backend is one at the bottom of stacks. -/
theorem Stack.bare : ∃ takes, (b.bare n).Stack single takes := by
  cases b with
  | x86 => exact ⟨_, totalStore allows⟩
  | powerPc | alpha => exact ⟨_, loadLinked allows (FenceTable.fences_barriers _)⟩
  | genericCas => exact ⟨_, fencedSwap allows (loads rfl)⟩
  | fallback => exact ⟨_, locked⟩

theorem Stack.full : ∃ takes, (b.full n).Stack single takes := by
  cases b with
  | x86 => exact ⟨_, (totalStore allows).completed rfl⟩
  | powerPc | alpha =>
    have machine (t : FenceTable) : (LoadLinked.bare n t.barriers).Stack single .every :=
      loadLinked allows t.fences_barriers
    exact ⟨_, ((machine _).withExchange.withCounting rfl).completed rfl⟩
  | genericCas => exact ⟨_, ((fencedSwap allows (loads rfl)).withFetchAdd rfl).completed rfl⟩
  | fallback => exact ⟨_, locked.completed rfl⟩

end Backends

/-! ### Calls in the way of others -/

/-- Each call leaves the cell in a state to go on from. If the cell has the call, it ends. -/
theorem call_prompt (prompt : k.interface.Prompt (k.site Fit takes single)) {c : Call (BitVec w)}
    (taken : c.Taken takes) {s : k.State} (fit : Fit s) :
    ∃ ending s', k.call c s = (ending, s') ∧ Fit s' ∧
      ((k.interface.perform? c).isSome → ∃ reply events, ending = some (.ok reply) ∧
        (k.holder.cell s).Went events (k.holder.cell s') ∧
        (single → Cell.attempts events ≤ (k.holder.cell s).interfered events + 1)) := by
  cases performed : k.interface.perform? c with
  | none =>
    refine ⟨none, s, ?_, fit, nofun⟩
    simp only [CellKind.call, performed]
  | some access =>
    obtain ⟨reply, s', events, ended, fit', went, bound⟩ := prompt.perform taken performed s fit
    exact ⟨_, s', call_ok performed ended, fit', fun _ => ⟨reply, events, rfl, went, bound⟩⟩

/-- What a strong compare-exchange reports, and leaves, if its last attempt meets the word `held`. The
accesses before that attempt leave everything as it is, and so does the attempt unless it stores. -/
structure Judged (k : CellKind w) (e d : BitVec w) (held : BitVec k.whole)
    (events : List (Event (BitVec k.whole))) (outcome : CasOutcome (BitVec w))
    (after : BitVec k.whole) : Prop where
  decided : Cell.Decided outcome.stored events
  stored_iff : outcome.stored = true ↔ k.extract held = e
  of_stored : outcome.stored = true → outcome.expected = e ∧ k.extract after = d
  of_refused : outcome.stored = false →
    outcome.expected = k.extract held ∧ after = held ∧ ∀ l ∈ events, l.Idle

theorem Contended.judged (h : k.Contended Fit takes single put) {f : MemoryOrder}
    (taken : takes .failure f) (e d : BitVec w) (o : MemoryOrder) {s : k.State} (fit : Fit s) :
    ∃ events outcome s',
      k.withExchange.call (.cas .strong e d o f) s = (some (.ok (.outcome outcome)), s') ∧
      Fit s' ∧ (k.holder.cell s).Went events (k.holder.cell s') ∧
      k.Judged e d ((k.holder.cell s).met events) events outcome (k.holder.cell s').value := by
  obtain ⟨events, stored, s', ended, fit', resolved⟩ := h.minimal.casUntilDecided taken e d o s fit
  refine ⟨events, _, s', call_ok rfl (Access.bind_ok ended), fit', resolved.went, ?_⟩
  have value := resolved.value
  have iff := resolved.stored_iff
  have decided := resolved.decided
  cases stored with
  | true =>
    have stored := (congrArg k.extract value).trans (h.minimal.view_put _ d)
    exact ⟨decided, iff, fun _ => ⟨rfl, stored⟩, nofun⟩
  | false => exact ⟨decided, iff, nofun, fun _ => ⟨rfl, value, decided.idle⟩⟩

/-- A strong compare-exchange that is derived from a weak one, at any place in a sequence of calls, is
judged by what its last attempt meets. No attempt that fails without cause, and none that meets a change
next to the part, is reported. -/
theorem Stack.judged_by_last_attempt (stack : k.Stack single takes) {calls : List (Call (BitVec w))}
    (taken : ∀ c ∈ calls, c.Taken takes) (script : List (Disturbance (BitVec k.whole)))
    (word : BitVec k.whole) :
    ∀ step ∈ k.withExchange.steps (k.holder.prepare script (k.start word)) calls,
      ∀ e d o f, step.call = .cas .strong e d o f →
        let before := k.holder.cell step.before
        let after := k.holder.cell step.after
        ∃ events outcome, step.ending = some (.ok (.outcome outcome)) ∧ before.Went events after ∧
          k.Judged e d (before.met events) events outcome after.value := by
  obtain ⟨Fit, put, h⟩ := stack.contended
  refine forall_steps_from (k := k.withExchange) (I := Fit) (fun c hc s fit => ?_) (h.fit script word)
  by_cases strong : ∃ e d o f, c = .cas .strong e d o f
  · obtain ⟨e, d, o, f, rfl⟩ := strong
    obtain ⟨events, outcome, s', called, fit', went, judged⟩ := h.judged (taken _ hc) e d o fit
    refine ⟨_, s', called, fit', ?_⟩
    rintro e d o f ⟨⟩
    exact ⟨events, outcome, rfl, went, judged⟩
  · obtain ⟨ending, s', called, fit', -⟩ := call_prompt h.withExchange.prompt (taken c hc) fit
    exact ⟨ending, s', called, fit', fun e d o f same => absurd ⟨e, d, o, f, same⟩ strong⟩

/-- A byte in the middle of a word. The first attempt fails without cause, and another thread writes
next to the byte before the second one. -/
theorem Stack.judged_by_last_attempt_between :
    let base : CellKind 32 := Backend.powerPc.bare Native.strict
    let k : CellKind 8 := base.part 8 8
    let call : Call (BitVec 8) := .cas .strong 5 7 .acqRel .acquire
    let script : List (Disturbance (BitVec 32)) := [.spurious, .overwrite 0xAA0005BB]
    k.Stack True Admission.every.looping ∧ call.Taken Admission.every.looping ∧
      ∃ step ∈ k.withExchange.steps (k.holder.prepare script (k.start 0x00000500)) [call],
        step.call = call ∧
          let before := k.holder.cell step.before
          let after := k.holder.cell step.after
          ∃ events outcome, step.ending = some (.ok (.outcome outcome)) ∧ before.Went events after ∧
            k.Judged 5 7 (before.met events) events outcome after.value := by
  intro base k call script
  have stack : k.Stack True Admission.every.looping :=
    .part (.loadLinked Native.strict_allows (FenceTable.fences_barriers _)) (by decide)
  have taken : call.Taken Admission.every.looping := trivial
  have all : ∀ c ∈ [call], c.Taken Admission.every.looping := fun c hc =>
    List.mem_singleton.mp hc ▸ taken
  have judged := stack.judged_by_last_attempt all script 0x00000500
  exact ⟨stack, taken, _, List.mem_cons_self, rfl, judged _ List.mem_cons_self 5 7 _ _ rfl⟩

/-- Cells the loops of which are counted: stacks on machines that load in one primitive, and the fully
fenced machine itself. -/
inductive Steady : {w : Nat} → Admission → CellKind w → Prop
  | stack {w : Nat} {k : CellKind w} {takes : Admission} (h : k.Stack True takes) : Steady takes k
  | fencedSwap {w : Nat} {n : Native (Cell (BitVec w)) (BitVec w)} {takes : Admission}
      (allows : n.Allows takes) :
    Steady .every (Backend.genericCas.bare n)

theorem Steady.prompt (steady : k.Steady takes) :
    ∃ Fit : k.State → Prop, (∀ script word, Fit (k.holder.prepare script (k.start word))) ∧
      k.interface.Prompt (k.site Fit takes True) := by
  cases steady with
  | stack h =>
    obtain ⟨Fit, put, contended⟩ := h.contended
    exact ⟨Fit, contended.fit, contended.prompt⟩
  | fencedSwap allows => exact ⟨fun _ => True, fun _ _ => trivial, FencedSwap.prompt allows, nofun⟩

/-- Every call of a sequence that the cell has ends with an answer, and after at most `n + 1` attempts if
at most `n` of them are interfered with. -/
theorem Steady.one_attempt_more (steady : k.Steady takes) {calls : List (Call (BitVec w))}
    (taken : ∀ c ∈ calls, c.Taken takes)
    (offered : ∀ c ∈ calls, (k.interface.perform? c).isSome)
    (script : List (Disturbance (BitVec k.whole))) (word : BitVec k.whole) :
    ∀ step ∈ k.steps (k.holder.prepare script (k.start word)) calls,
      let before := k.holder.cell step.before
      ∃ reply events, step.ending = some (.ok reply) ∧
        before.Went events (k.holder.cell step.after) ∧
        ∀ n, before.interfered events ≤ n → Cell.attempts events ≤ n + 1 := by
  obtain ⟨Fit, start, prompt⟩ := steady.prompt
  refine forall_steps_from (I := Fit) (fun c hc s fit => ?_) (start script word)
  obtain ⟨ending, s', called, fit', ends⟩ := call_prompt prompt (taken c hc) fit
  obtain ⟨reply, events, rfl, went, bound⟩ := ends (offered c hc)
  refine ⟨_, s', called, fit', reply, events, rfl, went, fun n most => ?_⟩
  exact Nat.le_trans (bound trivial) (Nat.succ_le_succ most)

/-- A byte of a half of a word that is full again: its exclusive or and its store are retry loops, which
others keep from getting through three times. -/
theorem Steady.one_attempt_more_nested :
    let base : CellKind 32 := Backend.x86.bare Native.strict
    let k : CellKind 8 := ((base.part 16 16).derived.part 8 8).derived
    let calls : List (Call (BitVec 8)) := [.modify .xor 0xF0 .updated .acqRel, .store 1 .acquire]
    let script : List (Disturbance (BitVec 32)) :=
      [.overwrite 1, .overwrite 0xFF000000, .quiet, .overwrite 2]
    k.Steady Admission.hardware.looping.looping ∧
      (∀ c ∈ calls, c.Taken Admission.hardware.looping.looping) ∧
      (∀ c ∈ calls, (k.interface.perform? c).isSome) ∧
      ∀ step ∈ k.steps (k.holder.prepare script (k.start 0x01020304)) calls,
        let before := k.holder.cell step.before
        ∃ reply events, step.ending = some (.ok reply) ∧
          before.Went events (k.holder.cell step.after) ∧
          ∀ n, before.interfered events ≤ n → Cell.attempts events ≤ n + 1 := by
  intro base k calls script
  have half : (base.part 16 16).derived.Stack True Admission.hardware.looping :=
    Stack.derived (.part (.totalStore Native.strict_allows) (by decide))
  have steady : k.Steady Admission.hardware.looping.looping :=
    .stack (Stack.derived (.part half (by decide)))
  have taken : ∀ c ∈ calls, c.Taken Admission.hardware.looping.looping := by
    simp [calls, Call.Taken, Admission.looping]
  have offered : ∀ c ∈ calls, (k.interface.perform? c).isSome := by
    intro c hc
    simp only [calls, List.mem_cons, List.not_mem_nil, or_false] at hc
    rcases hc with rfl | rfl <;> rfl
  exact ⟨steady, taken, offered, steady.one_attempt_more taken offered script 0x01020304⟩

end Kinds

end CellKind

end OrderedAtomics
