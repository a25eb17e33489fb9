import Mathlib.Logic.Function.Basic
import OrderedAtomics.Atomic
import OrderedAtomics.Cell.Call
import OrderedAtomics.Proofs.Atomic.Operations
import OrderedAtomics.Proofs.Cell.Quiet
import OrderedAtomics.Proofs.Refusal

/-! Values of any type behind locks, with whatever comparison the type has: one that is not an
equivalence, or that faults. Only a compare-exchange asks for it, and one that faults has done nothing. -/

namespace OrderedAtomics

open Access (Gives)

/-! ### Accesses that may fault -/

section Accesses

variable {σ β γ T W : Type} {rest : σ → W → Prop}

/-- At rest with `x`, the access ends with an answer or a fault and comes to rest with `y`. -/
def Access.Ends (rest : σ → W → Prop) (a : Access σ β) (x : W) (ending : Except Fault β) (y : W) :
    Prop :=
  ∀ s, rest s x → ∃ s', a.outcome s = (s', ending) ∧ rest s' y

/-- A state and what its caller expects of it. -/
def Beside (rest : σ → W → Prop) (s : σ × T) (x : W × T) : Prop := rest s.1 x.1 ∧ s.2 = x.2

namespace Access

theorem Gives.ends {a : Access σ β} {x y : W} {u : β} (h : Gives rest a x u y) :
    Ends rest a x (.ok u) y := by
  intro s hs
  obtain ⟨s', ended, hs'⟩ := h s hs
  exact ⟨s', outcome_ok ended, hs'⟩

theorem outcome_map (a : Access σ β) (g : β → γ) (s : σ) :
    (do return g (← a) : Access σ γ).outcome s = ((a.outcome s).1, (a.outcome s).2.map g) := by
  cases ended : a s with
  | ok r s' =>
    rw [outcome_ok ended]
    exact outcome_ok (bind_ok ended)
  | error f s' =>
    rw [outcome_error ended]
    exact outcome_error (bind_error ended _)

theorem Ends.map {a : Access σ β} {x y : W} {ending : Except Fault β} (h : Ends rest a x ending y)
    (g : β → γ) : Ends rest (do return g (← a)) x (ending.map g) y := by
  intro s hs
  obtain ⟨s', ended, hs'⟩ := h s hs
  refine ⟨s', ?_, hs'⟩
  rw [outcome_map, ended]

/-- An access that has nothing to do with what is expected. -/
def beside (a : Access σ β) : Access (σ × T) β := fun (s, expected) =>
  match a s with
  | .ok r s' => .ok r (s', expected)
  | .error f s' => .error f (s', expected)

theorem Ends.beside {a : Access σ β} {x y : W} {ending : Except Fault β} (h : Ends rest a x ending y)
    (expected : T) : Ends (Beside rest) a.beside (x, expected) ending (y, expected) := by
  rintro ⟨s, expected⟩ ⟨hs, rfl⟩
  obtain ⟨s', ended, hs'⟩ := h s hs
  refine ⟨(s', expected), ?_, hs', rfl⟩
  cases ending with
  | ok r =>
    have ran := ok_of_outcome ended
    exact outcome_ok (by simp only [Access.beside, ran])
  | error fault =>
    have ran := error_of_outcome ended
    exact outcome_error (by simp only [Access.beside, ran])

/-- What is expected after a compare-exchange. A fault reports nothing. -/
def reported (expected : T) : Except Fault (CasOutcome T) → T
  | .ok outcome => outcome.expected
  | .error _ => expected

theorem Ends.compared {cas : T → Access σ (CasOutcome T)} {expected : T} {x y : W}
    {ending : Except Fault (CasOutcome T)} (h : Ends rest (cas expected) x ending y) :
    Ends (Beside rest) (compared cas) (x, expected) (ending.map CasOutcome.stored)
      (y, reported expected ending) := by
  rintro ⟨s, expected⟩ ⟨hs, rfl⟩
  obtain ⟨s', ended, hs'⟩ := h s hs
  cases ending with
  | ok outcome => exact ⟨_, outcome_ok (compared_ok (ok_of_outcome ended)), hs', rfl⟩
  | error fault => exact ⟨_, outcome_error (compared_error (error_of_outcome ended)), hs', rfl⟩

end Access

end Accesses

open Access (Ends)

/-! ### Cells and locks -/

section Locks

variable {α β : Type}

/-- What a compare-exchange reports of the value `x`, and the value that it leaves. -/
def judge (same : α → α → Except Fault Bool) (x expected desired : α) :
    Except Fault (CasOutcome α) × α :=
  match same x expected with
  | .ok true => (.ok ⟨true, expected⟩, desired)
  | .ok false => (.ok ⟨false, x⟩, x)
  | .error fault => (.error fault, x)

theorem Cell.ends_compareExchange (same : α → α → Except Fault Bool) (k : Strength) (e d : α)
    (s f : MemoryOrder) (x : α) :
    Ends Quiet (compareExchange same k e d s f) x (judge same x e d).1 (judge same x e d).2 := by
  rintro ⟨x, _, trace⟩ ⟨rfl, rfl⟩
  let c : Cell α := ⟨x, [], trace⟩
  have seen : (get : Access (Cell α) (Cell α)) c = .ok c c := rfl
  have moved : (set c : Access (Cell α) PUnit) c = .ok ⟨⟩ c := rfl
  have asked : compareExchange same k e d s f c = match same x e with
      | .ok true => .ok ⟨true, e⟩ ⟨d, [], trace ++ [.cas k e d s f true]⟩
      | .ok false => .ok ⟨false, x⟩ ⟨x, [], trace ++ [.cas k e d s f false]⟩
      | .error fault => .error fault c := by
    refine (Access.bind_ok seen).trans ((Access.bind_ok moved).trans ?_)
    simp only [c]
    rcases same x e with fault | _ | _ <;> rfl
  unfold judge
  rcases said : same x e with fault | _ | _ <;> rw [said] at asked
  · exact ⟨_, Access.outcome_error asked, rfl, rfl⟩
  · exact ⟨_, Access.outcome_ok asked, rfl, rfl⟩
  · exact ⟨_, Access.outcome_ok asked, rfl, rfl⟩

namespace LockTable

variable {t : LockTable} {a : Address} {i : Fin lockCount}

theorem slots_leave (here : lockIndex a = i) (o : MemoryOrder) :
    (t.leave a o).slots = t.slots.set i t.slots[i].release := by
  subst here
  unfold leave releaseSlot releaseGlobal
  split <;> rfl

theorem slots_poison (here : lockIndex a = i) (o : MemoryOrder) :
    (t.poison a o).slots = t.slots.set i t.slots[i].poison := by
  subst here
  by_cases ho : o = .seqCst <;> simp only [poison, ho, if_true, if_false]

/-- The locks of an operation that has stopped inside are given back like those of any other. -/
theorem Unheld.leave_poison {o : MemoryOrder} (h : (t.leave a o).Unheld) :
    ((t.poison a o).leave a o).Unheld where
  everywhere := by
    by_cases ho : o = .seqCst
    · subst ho
      rfl
    · have everywhere := h.everywhere
      simp only [leave, poison, releaseSlot, if_neg ho] at everywhere ⊢
      exact everywhere
  slots := by
    intro l hl
    rw [slots_leave rfl, slots_poison rfl, Vector.set_set] at hl
    obtain ⟨j, hj, rfl⟩ := Vector.mem_iff_getElem.mp hl
    rw [Vector.getElem_set]
    split
    next => rfl
    next other =>
      have unheld := h.slots
      rw [slots_leave rfl] at unheld
      have unheld := unheld _ (Vector.getElem_mem hj)
      rwa [Vector.getElem_set, if_neg other] at unheld

end LockTable

theorem Guarded.ends_critical {body : Access (Cell α) β} {x y : α} {ending : Except Fault β}
    (h : Ends Cell.Quiet body x ending y) (a : Address) (o : MemoryOrder) :
    Ends Quiet (critical a o body) x ending y := by
  rintro g ⟨hc, hl⟩
  obtain ⟨c, ended, hc'⟩ := h g.cell hc
  obtain ⟨locks, entered, hl'⟩ := hl.enter caller a o
  cases ending with
  | ok r =>
    have ran := Access.ok_of_outcome ended
    refine ⟨⟨c, locks.leave a o⟩, Access.outcome_ok ?_, hc', hl'⟩
    simp only [critical, entered, ran]
  | error fault =>
    have ran := Access.error_of_outcome ended
    refine ⟨⟨c, (locks.poison a o).leave a o⟩, Access.outcome_error ?_, hc', hl'.leave_poison⟩
    simp only [critical, entered, ran]

end Locks

/-! ### Calls -/

namespace Locked

variable {α : Type}

/-- A call on a value behind locks, by a caller who keeps what it expects in a variable of its own. -/
inductive Call (α : Type) where
  | load (order : MemoryOrder)
  | store (value : α) (order : MemoryOrder)
  | exchange (value : α) (order : MemoryOrder)
  | cas (strength : Strength) (desired : α) (orders : CasOrders)
  /-- The caller sets its variable. -/
  | expect (value : α)

/-- The orders of a call are ones that it may carry. -/
def Call.Legal : Call α → Prop
  | .load o => o.legalForLoad
  | .store _ o => o.legalForStore
  | .cas _ _ orders => orders.Legal
  | .exchange .. | .expect _ => True

/-- What a call does to a plain variable `x` while its caller expects `e`: how it ends, and what the two
are afterwards. The comparison is asked by a compare-exchange alone. -/
def Call.onVariable (same : α → α → Except Fault Bool) (x e : α) :
    Call α → Except Fault (Reply α) × α × α
  | .load _ => (.ok (.value x), x, e)
  | .store v _ => (.ok .done, v, e)
  | .exchange v _ => (.ok (.value x), v, e)
  | .cas _ desired _ =>
    match same x e with
    | .ok true => (.ok (.truth true), desired, e)
    | .ok false => (.ok (.truth false), x, x)
    | .error fault => (.error fault, x, e)
  | .expect v => (.ok .done, x, v)

/-- A fault leaves both as they were. -/
theorem Call.onVariable_of_fault {same : α → α → Except Fault Bool} {x e : α} {call : Call α}
    (refused : (call.onVariable same x e).1.isOk = false) : (call.onVariable same x e).2 = (x, e) := by
  cases call with
  | cas k d orders =>
    simp only [onVariable] at refused ⊢
    rcases said : same x e with fault | _ | _ <;> simp only [said] at refused ⊢
    · cases refused
    · cases refused
  | load | store | exchange | expect => cases refused

/-- The typed atomic on a cell behind locks. -/
def atomic (address : Address) (same : α → α → Except Fault Bool) : Atomic (Guarded α) α α :=
  ⟨machine address same, .itself α⟩

/-- How a value is put behind locks: as a cell of its own, or as a typed atomic on one. -/
inductive Form where
  | bare | typed

/-- The operations of either form. -/
def Form.ops (address : Address) (same : α → α → Except Fault Bool) : Form → Exchange (Guarded α) α
  | bare => machine address same
  | typed =>
    let a := atomic address same
    { load := a.load
      store := a.store
      casWeak := fun e d s f => a.cas .weak e d ⟨s, f⟩
      isLockFree := a.isLockFree
      patience := a.ops.patience
      casStrong := fun e d s f => a.cas .strong e d ⟨s, f⟩
      exchange := a.exchange }

/-- Makes a call. -/
def perform (ops : Exchange (Guarded α) α) : Call α → Access (Guarded α × α) (Reply α)
  | .load o => do return .value (← (ops.load o).beside)
  | .store v o => do (ops.store v o).beside; return .done
  | .exchange v o => do return .value (← (ops.exchange v o).beside)
  | .cas .weak d orders => do
    return .truth (← Access.compared fun e => ops.casWeak e d orders.success orders.failure)
  | .cas .strong d orders => do
    return .truth (← Access.compared fun e => ops.casStrong e d orders.success orders.failure)
  | .expect v => do modify fun (g, _) => (g, v); return .done

section Forms

variable (form : Form) (address : Address) (same : α → α → Except Fault Bool)

theorem Form.gives_load {o : MemoryOrder} (legal : o.legalForLoad) (x : α) :
    Gives Guarded.Quiet ((form.ops address same).load o) x x x := by
  have word := Guarded.gives_critical (Cell.gives_read o x) address o
  cases form with
  | bare => exact word
  | typed =>
    show Gives _ ((atomic address same).load o) _ _ _
    rw [Atomic.load_of_legal _ legal]
    exact word.map id

theorem Form.gives_store {o : MemoryOrder} (legal : o.legalForStore) (v x : α) :
    Gives Guarded.Quiet ((form.ops address same).store v o) x () v := by
  have word := Guarded.gives_critical (Cell.gives_write v o x) address o
  cases form with
  | bare => exact word
  | typed =>
    show Gives _ ((atomic address same).store v o) _ _ _
    rw [Atomic.store_of_legal _ legal]
    exact word

theorem Form.gives_exchange (v : α) (o : MemoryOrder) (x : α) :
    Gives Guarded.Quiet ((form.ops address same).exchange v o) x x v := by
  have word := Guarded.gives_critical (Cell.gives_swap v o x) address o
  cases form with
  | bare => exact word
  | typed => exact word.map id

theorem Form.ends_cas {orders : CasOrders} (legal : orders.Legal) (k : Strength) (e d x : α) :
    Ends Guarded.Quiet (match k with
      | .weak => (form.ops address same).casWeak e d orders.success orders.failure
      | .strong => (form.ops address same).casStrong e d orders.success orders.failure) x
      (judge same x e d).1 (judge same x e d).2 := by
  have word := Guarded.ends_critical
    (Cell.ends_compareExchange same .strong e d orders.success orders.failure x) address orders.success
  cases form with
  | bare => cases k <;> exact word
  | typed =>
    have typed := word.map fun outcome =>
      if outcome.stored then (⟨true, e⟩ : CasOutcome α) else ⟨false, outcome.expected⟩
    have unchanged : ((judge same x e d).1.map fun outcome =>
        if outcome.stored then (⟨true, e⟩ : CasOutcome α) else ⟨false, outcome.expected⟩) =
          (judge same x e d).1 := by
      unfold judge
      rcases same x e with fault | _ | _ <;> rfl
    rw [unchanged] at typed
    have told (k : Strength) : Ends Guarded.Quiet ((atomic address same).cas k e d orders) x
        (judge same x e d).1 (judge same x e d).2 := by
      rw [Atomic.cas_of_legal _ legal]
      cases k <;> exact typed
    cases k with
    | weak => exact told .weak
    | strong => exact told .strong

/-- Each call does what it does to a variable, and its caller is told the same. -/
theorem ends_perform {call : Call α} (legal : call.Legal) (x e : α) :
    Ends (Beside Guarded.Quiet) (perform (form.ops address same) call) (x, e)
      (call.onVariable same x e).1 (call.onVariable same x e).2 := by
  cases call with
  | load o => exact ((form.gives_load address same legal x).ends.beside e).map Reply.value
  | store v o => exact ((form.gives_store address same legal v x).ends.beside e).map fun _ => Reply.done
  | exchange v o => exact ((form.gives_exchange address same v o x).ends.beside e).map Reply.value
  | cas k d orders =>
    have told := form.ends_cas address same legal k e d x
    have seen : Call.onVariable same x e (.cas k d orders) =
        (((judge same x e d).1.map CasOutcome.stored).map Reply.truth, (judge same x e d).2,
          Access.reported e (judge same x e d).1) := by
      unfold Call.onVariable judge
      rcases same x e with fault | _ | _ <;> rfl
    rw [seen]
    cases k <;> exact (Ends.compared told).map Reply.truth
  | expect v => exact fun s hs => ⟨(s.1, v), rfl, hs.1, rfl⟩

end Forms

/-! ### Cells that share the locks -/

/-- Values behind one table of locks, each of a type of its own with its own comparison. -/
structure Family (ι : Type) where
  Value : ι → Type
  form : ι → Form
  address : ι → Address
  same : ∀ i, Value i → Value i → Except Fault Bool

namespace Family

variable {ι : Type}

/-- Every cell with what is expected of it, and the locks. -/
structure State (family : Family ι) where
  cells : ∀ i, Cell (family.Value i) × family.Value i
  locks : LockTable

/-- Every value with what is expected of it. -/
abbrev Variables (family : Family ι) : Type := ∀ i, family.Value i × family.Value i

variable [DecidableEq ι] (family : Family ι)

/-- Makes a call on one of the cells. -/
def perform (c : Σ i, Call (family.Value i)) : Access family.State (Σ i, Reply (family.Value i)) :=
  fun s =>
    let ops := (family.form c.1).ops (family.address c.1) (family.same c.1)
    match Locked.perform ops c.2 (⟨(s.cells c.1).1, s.locks⟩, (s.cells c.1).2) with
    | .ok r (g, e) => .ok ⟨c.1, r⟩ ⟨Function.update s.cells c.1 (g.cell, e), g.locks⟩
    | .error fault (g, e) => .error fault ⟨Function.update s.cells c.1 (g.cell, e), g.locks⟩

/-- What a call does to plain variables, and how it ends. -/
def onVariables (v : family.Variables) (c : Σ i, Call (family.Value i)) :
    family.Variables × Except Fault (Σ i, Reply (family.Value i)) :=
  let told := c.2.onVariable (family.same c.1) (v c.1).1 (v c.1).2
  (Function.update v c.1 told.2, told.1.map (Sigma.mk c.1))

variable {family} {s : family.State} {v : family.Variables}

omit [DecidableEq ι] in
/-- The cells hold the values, nothing is going to happen to them, and their locks can be had. -/
structure Holds (s : family.State) (v : family.Variables) : Prop where
  cells : ∀ i, (s.cells i).1.Quiet (v i).1 ∧ (s.cells i).2 = (v i).2
  locks : s.locks.Unheld

theorem ends_perform {c : Σ i, Call (family.Value i)} (legal : c.2.Legal) (v : family.Variables) :
    Ends Holds (family.perform c) v (family.onVariables v c).2 (family.onVariables v c).1 := by
  obtain ⟨i, call⟩ := c
  rintro s ⟨cells, locks⟩
  have told := Locked.ends_perform (family.form i) (family.address i) (family.same i) legal
    (v i).1 (v i).2
  obtain ⟨⟨g, e⟩, ended, quiet, expected⟩ :=
    told (⟨(s.cells i).1, s.locks⟩, (s.cells i).2) ⟨⟨(cells i).1, locks⟩, (cells i).2⟩
  refine ⟨⟨Function.update s.cells i (g.cell, e), g.locks⟩, ?ended, ?cells, quiet.2⟩
  case ended =>
    simp only [onVariables]
    cases ending : (call.onVariable (family.same i) (v i).1 (v i).2).1 with
    | ok r =>
      have ran := Access.ok_of_outcome (ending ▸ ended)
      exact Access.outcome_ok (by simp only [perform, ran])
    | error fault =>
      have ran := Access.error_of_outcome (ending ▸ ended)
      exact Access.outcome_error (by simp only [perform, ran])
  case cells =>
    intro j
    by_cases here : j = i
    · subst here
      simp only [onVariables, Function.update_self]
      exact ⟨quiet.1, expected⟩
    · simp only [onVariables, Function.update_of_ne here]
      exact cells j

theorem onVariables_of_fault {c : Σ i, Call (family.Value i)}
    (refused : (family.onVariables v c).2.isOk = false) : (family.onVariables v c).1 = v := by
  obtain ⟨i, call⟩ := c
  have fault : (call.onVariable (family.same i) (v i).1 (v i).2).1.isOk = false := by
    rw [← refused, onVariables]
    cases (call.onVariable (family.same i) (v i).1 (v i).2).1 <;> rfl
  show Function.update v i (call.onVariable (family.same i) (v i).1 (v i).2).2 = v
  rw [Call.onVariable_of_fault fault, Function.update_eq_self]

/-- Calls on lock-based cells, in turn, do what they do on plain variables, whatever the comparisons say.
The calls whose comparison faults may as well not have been made: without them, the others end the same
and leave the same. -/
theorem comparison_faults_leave_no_trace (h : Holds s v) {calls : List (Σ i, Call (family.Value i))}
    (legal : ∀ c ∈ calls, c.2.Legal) :
    let run := inTurn (fun s c => (family.perform c).outcome s) s
    let reference := inTurn family.onVariables v
    (run calls).2 = (reference calls).2 ∧ Holds (run calls).1 (reference calls).1 ∧
      let others := answered calls (run calls).2
      (run others).2 = (run calls).2.filter Except.isOk ∧
        Holds (run others).1 (reference calls).1 := by
  have alike {calls : List (Σ i, Call (family.Value i))} (legal : ∀ c ∈ calls, c.2.Legal) :
      (inTurn (fun s c => (family.perform c).outcome s) s calls).2 =
          (inTurn family.onVariables v calls).2 ∧
        Holds (inTurn (fun s c => (family.perform c).outcome s) s calls).1
          (inTurn family.onVariables v calls).1 := by
    -- Both runs are by the same calls, and `Holds` is kept by each of them, faults included.
    have step : ∀ c ∈ calls, ∀ s v, Holds s v →
        ((family.perform c).outcome s).2 = id (family.onVariables v c).2 ∧
          Holds ((family.perform c).outcome s).1 (family.onVariables v c).1 := by
      intro c hc s v holds
      obtain ⟨s', ended, holds'⟩ := ends_perform (legal c hc) v s holds
      rw [ended]
      exact ⟨rfl, holds'⟩
    have alike := inTurn_alike step h
    rwa [List.map_id] at alike
  intro run reference
  obtain ⟨answers, holds⟩ := alike legal
  have without : reference (answered calls (reference calls).2) =
      ((reference calls).1, (reference calls).2.filter Except.isOk) :=
    inTurn_answered (fun v c => onVariables_of_fault) calls v
  have others := alike fun c (hc : c ∈ answered calls (reference calls).2) =>
    legal c (mem_of_mem_answered hc)
  change (run _).2 = (reference _).2 ∧ Holds (run _).1 (reference _).1 at others
  rw [without, ← answers] at others
  exact ⟨answers, holds, others⟩

/-- Two cells on one lock, of numbers that all count as equal, and where nothing compares with zero. -/
theorem comparison_faults_leave_no_trace_shared :
    let family : Family Bool :=
      { Value := fun _ => Nat
        form := fun typed => if typed then .typed else .bare
        address := fun typed => if typed then 0x100 else 0x10
        same := fun _ _ e => if e = 0 then .error .incomparable else .ok true }
    let s : family.State := ⟨fun _ => (⟨17, [], []⟩, 0), .free⟩
    let calls : List (Σ i, Call (family.Value i)) :=
      [⟨false, .cas .strong 30 (.ofSuccess .seqCst)⟩, ⟨true, .expect 12⟩,
        ⟨true, .cas .weak 40 (.ofSuccess .acqRel)⟩, ⟨true, .load .acquire⟩]
    let run := inTurn (fun s c => (family.perform c).outcome s) s calls
    lockIndex (family.address false) = lockIndex (family.address true) ∧
      Holds s (fun _ => (17, 0)) ∧ (∀ c ∈ calls, c.2.Legal) ∧
      run.2 = [.error .incomparable, .ok ⟨true, .done⟩, .ok ⟨true, .truth true⟩,
        .ok ⟨true, .value 40⟩] ∧
      run.1.locks.Unheld := by
  intro family s calls run
  have holds : Holds s (fun _ => (17, 0)) := ⟨fun _ => ⟨⟨rfl, rfl⟩, rfl⟩, LockTable.unheld_free⟩
  have legal : ∀ c ∈ calls, c.2.Legal := by
    intro c hc
    simp only [calls, List.mem_cons, List.not_mem_nil, or_false] at hc
    rcases hc with rfl | rfl | rfl | rfl
    · exact CasOrders.legal_ofSuccess .seqCst
    · trivial
    · exact CasOrders.legal_ofSuccess .acqRel
    · rfl
  obtain ⟨answers, left, -⟩ := comparison_faults_leave_no_trace holds legal
  exact ⟨by decide, holds, legal, answers.trans rfl, left.locks⟩

end Family

end Locked

end OrderedAtomics
