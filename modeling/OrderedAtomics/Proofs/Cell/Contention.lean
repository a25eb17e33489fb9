import OrderedAtomics.Proofs.Cell.Interference
import OrderedAtomics.Proofs.Cell.Quiet

/-! Retry loops that others keep from getting through. An attempt fails on the part that it expects only
if it is interfered with, so a loop makes at most one attempt more than are interfered with. What is
asked of the operations below the loop holds of every machine, whatever its state is. -/

namespace OrderedAtomics

/-! ### Attempts that are interfered with -/

section Accesses

variable {α : Type}

/-- Whether what others do upsets an attempt: they write just before it, or let a weak one fail. -/
def Disturbance.upsets : Disturbance α → Event α → Bool
  | .overwrite _, _ => true
  | .spurious, .cas .weak .. => true
  | .spurious, _ | .quiet, _ => false

/-- An access that leaves the value as it is: it writes nothing, or no more than it has found. -/
def Event.Idle : Event α → Prop
  | .cas _ e d _ _ stored => stored = true → d = e
  | .load _ | .lockFreeQuery | .before _ | .after _ | .fence _ => True
  | .store .. | .exchange .. | .fetchAdd .. | .fetchAddVar .. | .fetchInc _ | .fetchDec _ => False

/-- Whether an access is a load or a fence, which neither writes nor attempts to. -/
def Event.looks : Event α → Bool
  | .load _ | .lockFreeQuery | .before _ | .after _ | .fence _ => true
  | .store .. | .exchange .. | .cas .. | .fetchAdd .. | .fetchAddVar .. | .fetchInc _
  | .fetchDec _ => false

theorem Event.idle_of_looks {e : Event α} (h : e.looks = true) : e.Idle := by
  cases e with
  | load | lockFreeQuery | before | after | fence => trivial
  | store | exchange | cas | fetchAdd | fetchAddVar | fetchInc | fetchDec => cases h

theorem Event.isAttempt_of_looks {e : Event α} (h : e.looks = true) : e.isAttempt = false := by
  cases e with
  | cas => cases h
  | _ => rfl

namespace Cell

/-- How many of the attempts among some accesses are interfered with. -/
def interfered (c : Cell α) (events : List (Event α)) : Nat :=
  ((events.filter Event.isAttempt).zip c.script).countP fun (e, d) => d.upsets e

theorem attempts_eq (events : List (Event α)) :
    attempts events = (events.filter Event.isAttempt).length := List.countP_eq_length_filter

theorem attempts_of_looks {events : List (Event α)} (h : ∀ e ∈ events, e.looks = true) :
    attempts events = 0 := by
  refine List.countP_eq_zero.mpr fun e he => ?_
  rw [Event.isAttempt_of_looks (h e he)]
  exact Bool.false_ne_true

theorem interfered_append {c c₁ : Cell α} {events : List (Event α)} (went : c.Went events c₁)
    (later : List (Event α)) :
    c.interfered (events ++ later) = c.interfered events + c₁.interfered later := by
  have split (l l' : List (Event α)) (script : List (Disturbance α)) :
      (l ++ l').zip script = l.zip script ++ l'.zip (script.drop l.length) := by
    induction l generalizing script with
    | nil => rfl
    | cons e l ih => cases script <;> simp [ih]
  unfold interfered
  rw [List.filter_append, split, List.countP_append, went.script, attempts_eq]

theorem interfered_le (c : Cell α) (events : List (Event α)) :
    c.interfered events ≤ min (attempts events) c.script.length := by
  rw [attempts_eq, ← List.length_zip]
  exact List.countP_le_length

/-- If none of the attempts is interfered with, the value is found as it was. -/
theorem met_of_undisturbed {c : Cell α} {events : List (Event α)} (h : c.interfered events = 0) :
    c.met events = c.value := by
  have kept (l : List (Event α)) (script : List (Disturbance α)) (x : α)
      (none : (l.zip script).countP (fun (e, d) => d.upsets e) = 0) :
      (script.take l.length).foldl Disturbance.apply x = x := by
    induction l generalizing script with
    | nil => rfl
    | cons e l ih =>
      obtain _ | ⟨d, script⟩ := script
      · rfl
      · rw [List.zip_cons_cons, List.countP_cons] at none
        cases d with
        | overwrite v => simp [Disturbance.upsets] at none
        | quiet | spurious => exact ih script (by omega)
  unfold met
  rw [attempts_eq]
  exact kept _ _ _ h

/-- From `c` to `c'` by accesses that leave the value to others. -/
structure Idled (c : Cell α) (events : List (Event α)) (c' : Cell α) : Prop where
  went : c.Went events c'
  idle : ∀ e ∈ events, e.Idle
  value : c'.value = c.met events

theorem idled_nothing (c : Cell α) : c.Idled [] c where
  went := ⟨(List.append_nil _).symm, rfl⟩
  idle := nofun
  value := rfl

theorem Idled.trans {c c₁ c₂ : Cell α} {events later : List (Event α)} (h : c.Idled events c₁)
    (h' : c₁.Idled later c₂) : c.Idled (events ++ later) c₂ where
  went := h.went.trans h'.went
  idle e he := (List.mem_append.mp he).elim (h.idle e) (h'.idle e)
  value := by rw [h'.value, met_append h.went h.value]

/-- Loads and fences only make the trace longer. -/
theorem idled_looks (c : Cell α) {events : List (Event α)} (h : ∀ e ∈ events, e.looks = true) :
    c.Idled events { c with trace := c.trace ++ events } where
  went := ⟨rfl, by rw [attempts_of_looks h]; rfl⟩
  idle e he := e.idle_of_looks (h e he)
  value := by
    unfold met
    rw [attempts_of_looks h]
    rfl

/-- Accesses the last attempt of which is all that may change the value. Fences may follow it. -/
def Decided (stored : Bool) (events : List (Event α)) : Prop :=
  ∃ before k e d s f after, events = before ++ .cas k e d s f stored :: after ∧
    (∀ l ∈ before, l.Idle) ∧ ∀ l ∈ after, l.looks = true

theorem Decided.after {stored : Bool} {events looks : List (Event α)} (h : Decided stored events)
    (idle : ∀ l ∈ looks, l.Idle) : Decided stored (looks ++ events) := by
  obtain ⟨before, k, e, d, s, f, after, rfl, before_idle, after_looks⟩ := h
  refine ⟨looks ++ before, k, e, d, s, f, after, (List.append_assoc ..).symm, ?_, after_looks⟩
  exact fun l hl => (List.mem_append.mp hl).elim (idle l) (before_idle l)

theorem Decided.idle {events : List (Event α)} (h : Decided false events) : ∀ e ∈ events, e.Idle := by
  obtain ⟨before, k, e, d, s, f, after, rfl, before_idle, after_looks⟩ := h
  intro l hl
  rcases List.mem_append.mp hl with hl | hl
  · exact before_idle l hl
  · rcases List.mem_cons.mp hl with rfl | hl
    · exact nofun
    · exact l.idle_of_looks (after_looks l hl)

end Cell

end Accesses

/-! ### Loops of attempts -/

section Attempts

variable {V W : Type} {single : Prop}

namespace Cell

/-- A compare-exchange at a part of what the cell holds. It stores on the expected part only, and it
fails on it only if it is interfered with. If cells are loaded by `single` loads, it is one attempt. -/
structure Attempted (single : Prop) (view : V → W) (put : V → W → V) (e d : W) (c : Cell V)
    (events : List (Event V)) (stored : Bool) (c' : Cell V) : Prop where
  went : c.Went events c'
  decided : Decided stored events
  value : c'.value = if stored then put (c.met events) d else c.met events
  expected : stored = true → view (c.met events) = e
  sure : stored = false → view (c.met events) = e → 0 < c.interfered events
  once : single → attempts events = 1

theorem Attempted.idled {view : V → W} {put : V → W → V} {e d : W} {c c' : Cell V}
    {events : List (Event V)} (h : Attempted single view put e d c events false c') :
    c.Idled events c' where
  went := h.went
  idle := h.decided.idle
  value := h.value

/-- A compare-exchange that has stored if and only if its last attempt met the expected part. -/
structure Resolved (single : Prop) (view : V → W) (put : V → W → V) (e d : W) (c : Cell V)
    (events : List (Event V)) (stored : Bool) (c' : Cell V) : Prop where
  went : c.Went events c'
  decided : Decided stored events
  value : c'.value = if stored then put (c.met events) d else c.met events
  stored_iff : stored = true ↔ view (c.met events) = e
  bound : single → attempts events ≤ c.interfered events + 1

/-- Where a loop is that has not got through: each of its attempts was interfered with. -/
structure Waiting (single : Prop) (c : Cell V) (looks : List (Event V)) (c₁ : Cell V) : Prop extends
    c.Idled looks c₁ where
  upset : single → attempts looks ≤ c.interfered looks

theorem waiting_nothing (c : Cell V) : c.Waiting single [] c where
  toIdled := c.idled_nothing
  upset _ := Nat.zero_le _

/-- One attempt more is interfered with, and the script gets shorter. -/
theorem Waiting.again {c c₁ c' : Cell V} {looks events : List (Event V)}
    (h : c.Waiting single looks c₁) (failed : c₁.Idled events c') (once : single → attempts events = 1)
    (upset : 0 < c₁.interfered events) :
    c.Waiting single (looks ++ events) c' ∧ c'.script.length < c₁.script.length := by
  refine ⟨⟨h.toIdled.trans failed, fun s => ?_⟩, ?_⟩
  · have before := h.upset s
    have one := once s
    rw [attempts_append, interfered_append h.went]
    omega
  · have some := c₁.interfered_le events
    rw [failed.went.script, List.length_drop]
    omega

/-- With one attempt more the loop may be done. -/
theorem Waiting.bound {c c₁ : Cell V} {looks events : List (Event V)} (h : c.Waiting single looks c₁)
    (once : single → attempts events = 1) (s : single) :
    attempts (looks ++ events) ≤ c.interfered (looks ++ events) + 1 := by
  have before := h.upset s
  have one := once s
  rw [attempts_append, interfered_append h.went]
  omega

theorem Waiting.resolved {view : V → W} {put : V → W → V} {e d : W} {c c₁ c' : Cell V}
    {looks events : List (Event V)} {stored : Bool} (h : c.Waiting single looks c₁)
    (attempted : c₁.Attempted single view put e d events stored c')
    (same : stored = true ↔ view (c₁.met events) = e) :
    c.Resolved single view put e d (looks ++ events) stored c' where
  went := h.went.trans attempted.went
  decided := attempted.decided.after h.idle
  value := by rw [met_append h.went h.value, attempted.value]
  stored_iff := by rw [met_append h.went h.value, same]
  bound := h.bound attempted.once

end Cell

end Attempts

/-! ### Operations in the way of others -/

/-- Whether an order may be given to an access. -/
abbrev Admission := NativeAccess → MemoryOrder → Prop

/-- The orders that hardware has primitives for. -/
def Admission.hardware : Admission
  | .load, o | .failure, o => o.legalForLoad
  | .store, o => o.legalForStore

/-- Every order. -/
def Admission.every : Admission := fun _ _ => True

/-- Where a cell is: how it is reached in a state, in which states it can be used, and which orders it
takes. `single` says that it is loaded by a load and nothing else. -/
structure Site (σ V : Type) where
  cell : σ → Cell V
  Fit : σ → Prop
  takes : Admission
  single : Prop

section Sites

variable {σ V W β γ : Type} {S : Site σ V}

/-- In every state it can be used in, the access ends with an answer. It makes at most one attempt more
than are interfered with, if the cell is loaded by single loads. -/
def Site.Prompt (S : Site σ V) (a : Access σ β) : Prop :=
  ∀ s, S.Fit s → ∃ r s' events, a s = .ok r s' ∧ S.Fit s' ∧ (S.cell s).Went events (S.cell s') ∧
    (S.single → Cell.attempts events ≤ (S.cell s).interfered events + 1)

theorem Site.Prompt.map {a : Access σ β} (h : S.Prompt a) (g : β → γ) :
    S.Prompt (do return g (← a)) := by
  intro s fit
  obtain ⟨r, s', events, ended, fit', went, bound⟩ := h s fit
  exact ⟨g r, s', events, Access.bind_ok ended, fit', went, bound⟩

/-- Minimal operations on a part of what a cell holds, which others write as well. -/
structure Minimal.Contended (ops : Minimal σ W) (S : Site σ V) (view : V → W) (put : V → W → V) :
    Prop where
  legal : ∀ {a o}, Admission.hardware a o → S.takes a o
  view_put : ∀ x v, view (put x v) = v
  load : ∀ {o}, S.takes .load o → ∀ s, S.Fit s → ∃ events s',
    ops.load o s = .ok (view (S.cell s').value) s' ∧ S.Fit s' ∧
      (S.cell s).Idled events (S.cell s') ∧ (S.single → Cell.attempts events = 0)
  casWeak : ∀ {f}, S.takes .failure f → ∀ e d o s, S.Fit s → ∃ events stored s',
    ops.casWeak e d o f s =
        .ok (if stored then ⟨true, e⟩ else ⟨false, view ((S.cell s).met events)⟩) s' ∧
      S.Fit s' ∧ (S.cell s).Attempted S.single view put e d events stored (S.cell s')
  patience : ∀ s, ops.patience s = (S.cell s).patience

namespace Minimal.Contended

variable {ops : Minimal σ W} {view : V → W} {put : V → W → V} (h : ops.Contended S view put)
include h

/-- A strong compare-exchange tries again only if the attempt failed on the expected part. In the end
it has stored if and only if its last attempt met that part. -/
theorem casUntilDecided [DecidableEq W] {f : MemoryOrder} (taken : S.takes .failure f) (e d : W)
    (o : MemoryOrder) (s : σ) (fit : S.Fit s) :
    ∃ events stored s', ops.casUntilDecided e d o f s =
        .ok (if stored then ⟨true, e⟩ else ⟨false, view ((S.cell s).met events)⟩) s' ∧
      S.Fit s' ∧ (S.cell s).Resolved S.single view put e d events stored (S.cell s') := by
  let attempt (_ : Unit) : Access σ (Unit ⊕ CasOutcome W) := do
    let outcome ← ops.casWeak e d o f
    return if outcome.stored || outcome.expected ≠ e then .inr outcome else .inl ()
  let Right (r : CasOutcome W) (s' : σ) : Prop := ∃ events stored,
    r = (if stored then ⟨true, e⟩ else ⟨false, view ((S.cell s).met events)⟩) ∧
      S.Fit s' ∧ (S.cell s).Resolved S.single view put e d events stored (S.cell s')
  have ends : ∃ r s', retry attempt (ops.patience s) () s = .ok r s' ∧ Right r s' := by
    refine retry_ends
      (fun _ s₁ => S.Fit s₁ ∧ ∃ looks, (S.cell s).Waiting S.single looks (S.cell s₁)) _
      (fun s₁ => (S.cell s₁).script.length) ?step ⟨fit, [], (S.cell s).waiting_nothing⟩ ?enough
    case step =>
      rintro - s₁ ⟨fit₁, looks, waiting⟩
      obtain ⟨events, stored, s', ended, fit', attempted⟩ := h.casWeak taken e d o s₁ fit₁
      have met := Cell.met_append waiting.went waiting.value events
      have decided (same : stored = true ↔ view ((S.cell s₁).met events) = e) :
          Right (if stored then ⟨true, e⟩ else ⟨false, view ((S.cell s₁).met events)⟩) s' := by
        rw [← met]
        exact ⟨_, stored, rfl, fit', waiting.resolved attempted same⟩
      cases stored with
      | true =>
        refine .inl ⟨⟨true, e⟩, s', Access.bind_ok ended, decided ?_⟩
        exact ⟨attempted.expected, fun _ => rfl⟩
      | false =>
        by_cases same : view ((S.cell s₁).met events) = e
        · obtain ⟨waiting', less⟩ :=
            waiting.again attempted.idled attempted.once (attempted.sure rfl same)
          refine .inr ⟨(), s', (Access.bind_ok ended).trans ?_, ⟨fit', _, waiting'⟩, less⟩
          simp [same]
          rfl
        · refine .inl ⟨⟨false, view ((S.cell s₁).met events)⟩, s', (Access.bind_ok ended).trans ?_,
            decided ⟨nofun, fun same' => absurd same' same⟩⟩
          simp [same]
          rfl
    case enough =>
      rw [h.patience]
      exact Nat.lt_succ_self _
  obtain ⟨r, s', ended, events, stored, rfl, right⟩ := ends
  exact ⟨events, stored, s', ended, right⟩

/-- The loop of an update goes on from the part it has met, so that it fails again only if it is
interfered with again. -/
theorem update (f : W → W) (o : MemoryOrder) : S.Prompt (ops.update f o) := by
  intro s fit
  obtain ⟨loads, s₁, loaded, fit₁, idled, none⟩ := h.load (o := .relaxed) (h.legal rfl) s fit
  let attempt (current : W) : Access σ (W ⊕ W × W) := do
    let outcome ← ops.casWeak current (f current) o .relaxed
    return if outcome.stored then .inr (current, f current) else .inl outcome.expected
  let Right (s' : σ) : Prop := S.Fit s' ∧ ∃ events, (S.cell s).Went events (S.cell s') ∧
    (S.single → Cell.attempts events ≤ (S.cell s).interfered events + 1)
  have ends : ∃ r s', retry attempt (ops.patience s₁) (view (S.cell s₁).value) s₁ = .ok r s' ∧
      Right s' := by
    refine retry_ends (fun current s₁ => S.Fit s₁ ∧ current = view (S.cell s₁).value ∧
        ∃ looks, (S.cell s).Waiting S.single looks (S.cell s₁)) (fun _ => Right)
      (fun s₁ => (S.cell s₁).script.length) ?step ⟨fit₁, rfl, loads, idled, ?start⟩ ?enough
    case step =>
      rintro current s₁ ⟨fit₁, rfl, looks, waiting⟩
      obtain ⟨events, stored, s', ended, fit', attempted⟩ :=
        h.casWeak (f := .relaxed) (h.legal rfl) (view (S.cell s₁).value)
          (f (view (S.cell s₁).value)) o s₁ fit₁
      cases stored with
      | true =>
        exact .inl ⟨_, s', Access.bind_ok ended, fit', _,
          waiting.went.trans attempted.went, waiting.bound attempted.once⟩
      | false =>
        have upset : 0 < (S.cell s₁).interfered events := by
          refine Nat.pos_of_ne_zero fun undisturbed => ?_
          have same := congrArg view (Cell.met_of_undisturbed undisturbed)
          exact absurd (attempted.sure rfl same) (Nat.not_lt.mpr (Nat.le_of_eq undisturbed))
        obtain ⟨waiting', less⟩ := waiting.again attempted.idled attempted.once upset
        refine .inr ⟨_, s', Access.bind_ok ended, ⟨fit', ?_, _, waiting'⟩, less⟩
        rw [attempted.idled.value]
        rfl
    case start =>
      intro single
      rw [none single]
      exact Nat.zero_le _
    case enough =>
      rw [h.patience]
      exact Nat.lt_succ_self _
  obtain ⟨r, s', ended, fit', events, went, bound⟩ := ends
  refine ⟨r, s', events, ?_, fit', went, bound⟩
  unfold Minimal.update
  rw [Access.bind_ok loaded]
  exact ended

end Minimal.Contended

end Sites

/-! ### Hardware words -/

section Hardware

variable {w : Nat}

theorem Cell.met_cas {α : Type} (c : Cell α) (k : Strength) (e d : α) (s f : MemoryOrder)
    (stored : Bool) : c.met [.cas k e d s f stored] = c.found :=
  @met_attempt α c [] nofun (.cas k e d s f stored) rfl

/-- A strong compare-exchange stores whenever it finds what it expects. -/
theorem Cell.stores_strong {α : Type} [DecidableEq α] (c : Cell α) (e : α) :
    c.stores .strong e = true ↔ c.found = e := by
  simp [stores]

/-- A weak compare-exchange that is to fail without cause is interfered with. -/
theorem Cell.interfered_spurious {α : Type} {c : Cell α} (h : c.spurious = true) {e d : α}
    {s f : MemoryOrder} {stored : Bool} : c.interfered [.cas .weak e d s f stored] = 1 := by
  obtain ⟨value, _ | ⟨_ | v | _, script⟩, trace⟩ := c <;> first | rfl | cases h

/-- One attempt at a whole word. -/
theorem Cell.attempted_compareExchange (single : Prop) (k : Strength) (e d : BitVec w)
    (s f : MemoryOrder) (c : Cell (BitVec w)) :
    c.Attempted single id (fun _ v => v) e d [.cas k e d s f (c.stores k e)] (c.stores k e)
      ⟨if c.stores k e then d else c.found, c.script.tail,
        c.trace ++ [.cas k e d s f (c.stores k e)]⟩ where
  went := ⟨rfl, List.drop_one.symm⟩
  decided := ⟨[], k, e, d, s, f, [], rfl, nofun, nofun⟩
  value := by rw [met_cas]
  expected stored := by
    rw [met_cas]
    simp only [stores, Bool.and_eq_true, decide_eq_true_eq] at stored
    exact stored.1
  sure failed same := by
    rw [met_cas] at same
    have upset : c.spurious = true ∧ k = .weak := by
      simpa [stores, show c.found = e from same] using failed
    obtain ⟨spurious, rfl⟩ := upset
    rw [interfered_spurious spurious]
    exact Nat.one_pos
  once _ := rfl

/-- A hardware word that does what a recorded one does, for the orders that it takes. -/
structure Native.Allows (n : Native (Cell (BitVec w)) (BitVec w)) (takes : Admission) : Prop where
  legal : ∀ {a o}, Admission.hardware a o → takes a o
  load : ∀ {o}, takes .load o → n.load o.toHardware = lenient.load o.toHardware
  store : ∀ {o}, takes .store o → ∀ v, n.store v o.toHardware = lenient.store v o.toHardware
  swap : n.swap = lenient.swap
  compareExchange : ∀ {f}, takes .failure f → ∀ k e d s,
    n.compareExchange k e d s f.toHardware = lenient.compareExchange k e d s f.toHardware
  fetchAdd : n.fetchAdd = lenient.fetchAdd
  patience : n.patience = Cell.patience

namespace Native.Allows

variable {n : Native (Cell (BitVec w)) (BitVec w)} {takes : Admission} (h : n.Allows takes)
include h

theorem load_eq {o : MemoryOrder} (taken : takes .load o) (c : Cell (BitVec w)) :
    n.load o.toHardware c =
      .ok c.value { c with trace := c.trace ++ [.load o.toHardware.toMemory] } := by
  rw [h.load taken]
  rfl

theorem compareExchange_eq {f : MemoryOrder} (taken : takes .failure f) (k : Strength)
    (e d : BitVec w) (s : HardwareOrder) (c : Cell (BitVec w)) :
    n.compareExchange k e d s f.toHardware c =
      .ok (if c.stores k e then ⟨true, e⟩ else ⟨false, c.found⟩)
        ⟨if c.stores k e then d else c.found, c.script.tail,
          c.trace ++ [.cas k e d s.toMemory f.toHardware.toMemory (c.stores k e)]⟩ := by
  rw [h.compareExchange taken]
  exact Cell.compareExchange_eq k e d _ _ c

end Native.Allows

theorem Native.strict_allows : (strict : Native (Cell (BitVec w)) _).Allows .hardware where
  legal := id
  load {o} legal := by
    show (do checkLoad o.toHardware; lenient.load o.toHardware) = _
    rw [checkLoad_eq legal]
    rfl
  store {o} legal v := by
    show (do checkStore o.toHardware; lenient.store v o.toHardware) = _
    rw [checkStore_eq legal]
    rfl
  swap := rfl
  compareExchange {f} legal k e d s := by
    show (do checkFailure f.toHardware; lenient.compareExchange k e d s f.toHardware) = _
    rw [checkFailure_eq legal]
    rfl
  fetchAdd := rfl
  patience := rfl

end Hardware

end OrderedAtomics
