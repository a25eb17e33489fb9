import OrderedAtomics.Cell.Backend
import OrderedAtomics.Proofs.Cell.Calls
import OrderedAtomics.Proofs.Cell.Contention

/-! The machine that has a fully fenced compare-exchange and nothing else. It is a register all the
same: its first look is only a guess, which counts for nothing until a compare-exchange confirms it. -/

namespace OrderedAtomics.FencedSwap

variable {w : Nat}

/-- A fully fenced compare-exchange. -/
abbrev fenced {V : Type} (expected desired : V) (stored : Bool) : Event V :=
  .cas .strong expected desired .seqCst .seqCst stored

/-- The accesses of a loop that turns `held` into `f held`: a guess, attempts that fail, and one that
does not. -/
def Settled {V : Type} (f : V → V) (held : V) (events : List (Event V)) : Prop :=
  ∃ tries, events = .load .relaxed :: (tries ++ [fenced held (f held) true]) ∧
    ∀ e ∈ tries, ∃ x, e = fenced x (f x) false

/-- What settles for the value that is there leaves it as it is. -/
theorem Settled.idle {V : Type} {held : V} {events : List (Event V)} (h : Settled id held events) :
    ∀ e ∈ events, e.Idle := by
  obtain ⟨tries, rfl, failing⟩ := h
  intro e he
  rcases List.mem_cons.mp he with rfl | he
  · trivial
  rcases List.mem_append.mp he with he | he
  · obtain ⟨x, rfl⟩ := failing e he
    exact nofun
  · rw [List.mem_singleton.mp he]
    exact fun _ => rfl

/-! ### Attempts -/

section Machine

variable {n : Native (Cell (BitVec w)) (BitVec w)} {takes : Admission} (allows : n.Allows takes)
include allows

theorem fencedCas_eq (e d : BitVec w) (c : Cell (BitVec w)) :
    fencedCas n e d c = .ok c.found ⟨if c.stores .strong e then d else c.found, c.script.tail,
      c.trace ++ [fenced e d (c.stores .strong e)]⟩ := by
  have ended : n.compareExchange .strong e d .seqCst .seqCst c = _ :=
    allows.compareExchange_eq (f := .seqCst) (allows.legal rfl) .strong e d .seqCst c
  unfold fencedCas
  rw [Access.bind_ok ended]
  by_cases stored : c.stores .strong e
  · rw [if_pos stored, (c.stores_strong e).mp stored]
    rfl
  · rw [if_neg stored]
    rfl

/-- A loop of attempts, each on the value that was found last, ends with the one that finds what it
expects. -/
theorem settle_ends (f : BitVec w → BitVec w) (c : Cell (BitVec w)) :
    ∃ events c', settle n f c = .ok (c.met events) c' ∧ c.Went events c' ∧
      Settled f (c.met events) events ∧ c'.value = f (c.met events) ∧
      Cell.attempts events ≤ c.interfered events + 1 := by
  let first : Cell (BitVec w) := { c with trace := c.trace ++ [.load .relaxed] }
  let attempt (guess : BitVec w) : Access (Cell (BitVec w)) (BitVec w ⊕ BitVec w) := do
    let found ← fencedCas n guess (f guess)
    return if found = guess then .inr found else .inl found
  let Right (r : BitVec w) (c' : Cell (BitVec w)) : Prop := ∃ events, r = c.met events ∧
    c.Went events c' ∧ Settled f (c.met events) events ∧ c'.value = f (c.met events) ∧
    Cell.attempts events ≤ c.interfered events + 1
  have ends : ∃ r c', retry attempt (n.patience first) c.value first = .ok r c' ∧ Right r c' := by
    refine retry_ends (fun guess c₁ => guess = c₁.value ∧ ∃ tries,
        c.Waiting True (.load .relaxed :: tries) c₁ ∧ ∀ e ∈ tries, ∃ x, e = fenced x (f x) false)
      Right (fun c₁ => c₁.script.length) ?step ⟨rfl, [], ?start, nofun⟩ ?enough
    case step =>
      rintro guess c₁ ⟨rfl, tries, waiting, failing⟩
      have ended := fencedCas_eq allows c₁.value (f c₁.value) c₁
      have attempted :=
        c₁.attempted_compareExchange True .strong c₁.value (f c₁.value) .seqCst .seqCst
      have met :=
        c₁.met_cas .strong c₁.value (f c₁.value) .seqCst .seqCst (c₁.stores .strong c₁.value)
      by_cases same : c₁.found = c₁.value
      · have stored := (c₁.stores_strong c₁.value).mpr same
        rw [stored] at ended attempted met
        have held := (Cell.met_append waiting.went waiting.value _).trans (met.trans same)
        refine .inl ⟨c₁.found, _, (Access.bind_ok ended).trans ?_, _, same.trans held.symm,
          waiting.went.trans attempted.went, ⟨tries, ?_, failing⟩, ?_,
          waiting.bound attempted.once trivial⟩
        · rw [if_pos same]
          rfl
        · rw [held]
          rfl
        · rw [held]
          rfl
      · have failed : c₁.stores .strong c₁.value = false :=
          Bool.eq_false_iff.mpr fun stored => same ((c₁.stores_strong c₁.value).mp stored)
        rw [failed] at ended attempted met
        have upset : 0 < c₁.interfered [fenced c₁.value (f c₁.value) false] := by
          refine Nat.pos_of_ne_zero fun undisturbed => same ?_
          rw [← met, Cell.met_of_undisturbed undisturbed]
        obtain ⟨again, less⟩ := waiting.again attempted.idled attempted.once upset
        refine .inr ⟨c₁.found, _, (Access.bind_ok ended).trans ?_, ⟨rfl, _, again, ?_⟩, less⟩
        · rw [if_neg same]
          rfl
        · intro e he
          rcases List.mem_append.mp he with he | he
          · exact failing e he
          · exact ⟨_, List.mem_singleton.mp he⟩
    case start => exact ⟨c.idled_looks (by simp [Event.looks]), fun _ => Nat.zero_le _⟩
    case enough =>
      rw [allows.patience]
      exact Nat.lt_succ_self _
  obtain ⟨r, c', ended, events, rfl, right⟩ := ends
  have loaded : n.load .relaxed c = .ok c.value first :=
    allows.load_eq (o := .relaxed) (allows.legal rfl) c
  refine ⟨events, c', ?_, right⟩
  unfold settle
  rw [Access.bind_ok loaded]
  exact ended

theorem cas_eq (e d : BitVec w) (c : Cell (BitVec w)) :
    cas n e d c = .ok ⟨c.stores .strong e, c.found⟩
      ⟨if c.stores .strong e then d else c.found, c.script.tail,
        c.trace ++ [fenced e d (c.stores .strong e)]⟩ := by
  unfold cas
  rw [Access.bind_ok (fencedCas_eq allows e d c)]
  have same : decide (c.found = e) = c.stores .strong e := by
    rw [Bool.eq_iff_iff, c.stores_strong, decide_eq_true_iff]
  rw [same]
  rfl

end Machine

/-! ### Calls -/

/-- What a call does whose last attempt finds `held`. A load, a store and an exchange settle for one
value, and a compare-exchange is a single attempt. The machine has no other calls on its value. -/
def Serves (n : Native (Cell (BitVec w)) (BitVec w)) (step : (Backend.genericCas.bare n).Step) :
    Prop :=
  let before : Cell (BitVec w) := step.before
  let after : Cell (BitVec w) := step.after
  ∃ events, before.Went events after ∧
    let held := before.met events
    match step.call with
    | .load _ => step.ending = some (.ok (.value held)) ∧ Settled id held events ∧ after.value = held
    | .store v _ =>
      step.ending = some (.ok .done) ∧ Settled (fun _ => v) held events ∧ after.value = v
    | .exchange v _ =>
      step.ending = some (.ok (.value held)) ∧ Settled (fun _ => v) held events ∧ after.value = v
    | .cas _ e d _ _ => ∃ stored, step.ending = some (.ok (.outcome ⟨stored, held⟩)) ∧
      events = [fenced e d stored] ∧ (stored = true ↔ held = e) ∧
        after.value = if stored then d else held
    | .isLockFree =>
      step.ending = some (.ok (.truth true)) ∧ events = [] ∧ after.value = before.value
    | _ => step.ending = none ∧ events = [] ∧ after.value = before.value

theorem serves_call {n : Native (Cell (BitVec w)) (BitVec w)} {takes : Admission}
    (allows : n.Allows takes) (call : Call (BitVec w)) (c : Cell (BitVec w)) :
    ∃ ending c', (Backend.genericCas.bare n).call call c = (ending, c') ∧
      Serves n ⟨call, c, ending, c'⟩ := by
  have still : c.Went [] c := c.idled_nothing.went
  have swap {strength : Strength} {e d : BitVec w} {s f : MemoryOrder}
      (called : (Backend.genericCas.bare n).call (.cas strength e d s f) c =
        (some (.ok (.outcome ⟨c.stores .strong e, c.found⟩)),
          ⟨if c.stores .strong e then d else c.found, c.script.tail,
            c.trace ++ [fenced e d (c.stores .strong e)]⟩)) :
      ∃ ending c', (Backend.genericCas.bare n).call (.cas strength e d s f) c = (ending, c') ∧
        Serves n ⟨.cas strength e d s f, c, ending, c'⟩ := by
    have attempted := c.attempted_compareExchange True .strong e d .seqCst .seqCst
    refine ⟨_, _, called, _, attempted.went, c.stores .strong e, ?_, rfl, ?_, ?_⟩
    · rw [c.met_cas]
    · rw [c.met_cas]
      exact c.stores_strong e
    · rw [c.met_cas]
  cases call with
  | load o =>
    obtain ⟨events, c', ended, went, settled, value, -⟩ := settle_ends allows id c
    exact ⟨_, c', CellKind.call_ok rfl (Access.bind_ok ended), events, went, rfl, settled, value⟩
  | store v o =>
    obtain ⟨events, c', ended, went, settled, value, -⟩ := settle_ends allows (fun _ => v) c
    have stored : (machine n).store v o c = .ok () c' := Access.bind_ok ended
    exact ⟨_, c', CellKind.call_ok rfl (Access.bind_ok stored), events, went, rfl, settled, value⟩
  | exchange v o =>
    obtain ⟨events, c', ended, went, settled, value, -⟩ := settle_ends allows (fun _ => v) c
    exact ⟨_, c', CellKind.call_ok rfl (Access.bind_ok ended), events, went, rfl, settled, value⟩
  | cas strength e d s f =>
    have ended := cas_eq allows e d c
    cases strength <;> exact swap (CellKind.call_ok rfl (Access.bind_ok ended))
  | isLockFree => exact ⟨_, c, CellKind.call_ok rfl rfl, [], still, rfl, rfl, rfl⟩
  | modify | increment | decrement | fetchAddVar | fetchInc | fetchDec =>
    exact ⟨_, c, rfl, [], still, rfl, rfl, rfl⟩

/-- Every call in a sequence, whatever is written before the attempts, does what it does on a register,
and by fully fenced compare-exchanges alone, after at most one relaxed load. -/
theorem serves_as_register {n : Native (Cell (BitVec w)) (BitVec w)} {takes : Admission}
    (allows : n.Allows takes) (c : Cell (BitVec w)) (calls : List (Call (BitVec w))) :
    ∀ step ∈ (Backend.genericCas.bare n).steps c calls, Serves n step :=
  CellKind.forall_steps (k := Backend.genericCas.bare n) (fun call _ => serves_call allows call) c

/-- A load and an exchange before the attempts of which another thread writes, one time the value that
is there already. -/
theorem serves_as_register_overwritten :
    let n : Native (Cell (BitVec 16)) (BitVec 16) := .strict
    let calls : List (Call (BitVec 16)) :=
      [.load .seqCst, .exchange 7 .acquire, .cas .weak 7 1 .relaxed .relaxed]
    let c : Cell (BitVec 16) := ⟨3, [.overwrite 4, .overwrite 4, .overwrite 5, .overwrite 6], []⟩
    n.Allows .hardware ∧ ∀ step ∈ (Backend.genericCas.bare n).steps c calls, Serves n step := by
  intro n calls c
  exact ⟨Native.strict_allows, serves_as_register Native.strict_allows c calls⟩

example :
    let c : Cell (BitVec 16) := ⟨3, [.overwrite 4, .quiet], []⟩
    (Backend.genericCas.bare Native.strict).call (.load .seqCst) c = (some (.ok (.value 4)),
      ⟨4, [], [.load .relaxed, fenced 3 3 false, fenced 4 4 true]⟩) := rfl

end OrderedAtomics.FencedSwap
