import OrderedAtomics.Proofs.Atomic.Legality
import OrderedAtomics.Proofs.Interleaving

/-! Truth values that threads contend for. A call wins if it finds false and sets it. Until false is
written again no other call wins, so threads that go in when they have won and write false when they
come out are never inside together. -/

namespace OrderedAtomics

open Access (Gives)
open Observed (arrived)

/-! ### Gates -/

/-- A truth value in a cell, by the calls on it. What a call did shows in its answer. -/
structure Gate (w : Nat) (C R : Type) where
  perform : C → Access (Cell (BitVec w)) R
  /-- The call has no order that it may not carry. -/
  legal : C → Bool
  /-- The call found false and set it. -/
  wins : C → R → Bool
  /-- The call wrote false. -/
  clears : C → R → Bool
  /-- The calls of a thread that wants to go in. -/
  enters : C → Bool
  /-- The calls of a thread that comes out. -/
  leaves : C → Bool

namespace Gate

variable {w : Nat} {C R : Type} (g : Gate w C R)

/-- A call with its ending. -/
abbrev Ended (C R : Type) := C × Except Fault R

def won : Ended C R → Bool
  | (c, .ok r) => g.wins c r
  | (_, .error _) => false

def cleared : Ended C R → Bool
  | (c, .ok r) => g.clears c r
  | (_, .error _) => false

/-- Calls of any threads in the order in which they are made: the cell in the end, and how they
ended. -/
def calls (s : Cell (BitVec w)) (cs : List C) : Cell (BitVec w) × List (Ended C R) :=
  let (s, endings) := inTurn (fun s c => (g.perform c).outcome s) s cs
  (s, cs.zip endings)

/-- The calls that a thread may make where it is. -/
def wants (inside : Bool) (c : C) : Bool := if inside then g.leaves c else g.enters c

/-- Threads that come and go, each call in one step. What a thread has to itself is whether it is
inside: it gets in when it wins, and it is out when the call that it leaves with has been made. -/
def passage : Protocol (Cell (BitVec w)) Bool C C (Except Fault R) where
  enter inside c := if g.wants inside c then some (inside, c) else none
  step _ s inside c :=
    match (g.perform c).outcome s with
    | (s, .ok r) => (s, !inside && g.wins c r, .inr (.ok r))
    | (s, .error fault) => (s, inside, .inr (.error fault))

/-- The cell has the word of a truth value, and nothing is going to happen to it. -/
def Holds (s : Cell (BitVec w)) (x : Bool) : Prop := s.Quiet (if x then 1 else 0)

/-- What a call may do to the value, judging by its answer. -/
structure Admits (c : C) (r : R) (before after : Bool) : Prop where
  won : g.wins c r → before = false ∧ after = true
  kept : g.clears c r = false → before = true → after = true

/-- Every call with legal orders is answered and says what it did. -/
structure Sound : Prop where
  call : ∀ {c s x}, g.legal c → Holds s x →
    ∃ r s' y, g.perform c s = .ok r s' ∧ Holds s' y ∧ g.Admits c r x y
  enters : ∀ {c}, g.enters c → g.legal c ∧ ∀ r, g.clears c r = false
  leaves : ∀ {c}, g.leaves c → g.legal c

variable {g} {s : Cell (BitVec w)} {x : Bool}

theorem Holds.binary (h : Holds s x) : s.value = 0 ∨ s.value = 1 := by
  cases x with
  | false => exact .inl h.1
  | true => exact .inr h.1

/-- How many calls can win before false is written. -/
def room (x : Bool) : Nat := if x then 0 else 1

theorem room_le_one (x : Bool) : room x ≤ 1 := by
  cases x <;> decide

/-- A call that wins takes up the room that there is. -/
theorem Admits.room_le {c : C} {r : R} {y : Bool} (h : g.Admits c r x y)
    (uncleared : g.clears c r = false) : (room y + if g.wins c r then 1 else 0) ≤ room x := by
  by_cases win : g.wins c r
  · obtain ⟨rfl, rfl⟩ := h.won win
    rw [if_pos win]
    exact Nat.le_refl 1
  · rw [if_neg win, Nat.add_zero]
    cases x with
    | false => exact room_le_one y
    | true => exact h.kept uncleared rfl ▸ Nat.le_refl _

theorem calls_cons {c : C} {cs : List C} {r : R} {s' : Cell (BitVec w)}
    (ended : g.perform c s = .ok r s') :
    g.calls s (c :: cs) = ((g.calls s' cs).1, (c, .ok r) :: (g.calls s' cs).2) := by
  simp only [calls, inTurn_cons, Access.outcome_ok ended, List.zip_cons_cons]

namespace Sound

variable (sound : g.Sound)
include sound

theorem after {cs : List C} (legal : ∀ c ∈ cs, g.legal c) (h : Holds s x) :
    (∃ y, Holds (g.calls s cs).1 y) ∧ ∀ e ∈ (g.calls s cs).2, e.2.isOk := by
  induction cs generalizing s x with
  | nil => exact ⟨⟨x, h⟩, nofun⟩
  | cons c cs ih =>
    obtain ⟨r, s', y, ended, h', -⟩ := sound.call (legal c List.mem_cons_self) h
    obtain ⟨last, answered⟩ := ih (fun c hc => legal c (List.mem_cons_of_mem _ hc)) h'
    rw [calls_cons ended]
    exact ⟨last, List.forall_mem_cons.mpr ⟨rfl, answered⟩⟩

/-- From the start on, until false is written, at most one call wins, and none if it is true. -/
theorem countP_prefix {cs : List C} (legal : ∀ c ∈ cs, g.legal c) (h : Holds s x)
    {stretch : List (Ended C R)} (first : stretch <+: (g.calls s cs).2)
    (uncleared : ∀ e ∈ stretch, g.cleared e = false) : stretch.countP g.won ≤ room x := by
  induction cs generalizing s x stretch with
  | nil =>
    rw [List.prefix_nil.mp first]
    exact Nat.zero_le _
  | cons c cs ih =>
    obtain ⟨r, s', y, ended, h', admits⟩ := sound.call (legal c List.mem_cons_self) h
    rw [calls_cons ended] at first
    cases stretch with
    | nil => exact Nat.zero_le _
    | cons e stretch =>
      obtain ⟨rfl, rest⟩ := List.cons_prefix_cons.mp first
      obtain ⟨here, later⟩ := List.forall_mem_cons.mp uncleared
      calc (List.countP g.won ((c, .ok r) :: stretch))
          = stretch.countP g.won + if g.wins c r then 1 else 0 := List.countP_cons
        _ ≤ room y + if g.wins c r then 1 else 0 :=
          Nat.add_le_add_right (ih (fun c hc => legal c (List.mem_cons_of_mem _ hc)) h' rest later) _
        _ ≤ room x := admits.room_le here

/-- Wherever the stretch begins. -/
theorem countP_infix {cs : List C} (legal : ∀ c ∈ cs, g.legal c) (h : Holds s x)
    {stretch : List (Ended C R)} (among : stretch <:+: (g.calls s cs).2)
    (uncleared : ∀ e ∈ stretch, g.cleared e = false) : stretch.countP g.won ≤ 1 := by
  induction cs generalizing s x with
  | nil =>
    rw [List.infix_nil.mp among]
    exact Nat.zero_le _
  | cons c cs ih =>
    obtain ⟨r, s', y, ended, h', -⟩ := sound.call (legal c List.mem_cons_self) h
    have here : stretch <+: (g.calls s (c :: cs)).2 ∨ stretch <:+: (g.calls s' cs).2 := by
      rw [calls_cons ended] at among ⊢
      exact List.infix_cons_iff.mp among
    rcases here with first | later
    · exact Nat.le_trans (sound.countP_prefix legal h first uncleared) (room_le_one x)
    · exact ih (fun c hc => legal c (List.mem_cons_of_mem _ hc)) h' later

end Sound

/-! ### Threads -/

/-- The worlds of threads that come and go. -/
abbrev Crowd (w : Nat) (C R : Type) := World (Cell (BitVec w)) Bool C C (Except Fault R)

/-- The number of threads inside. -/
def inside (crowd : Crowd w C R) : Nat := crowd.threads.countP (·.own)

variable (g) in
/-- The threads inside take up the room that there is, and those in a call want to change sides. -/
structure Orderly (crowd : Crowd w C R) : Prop where
  room : ∃ x, Holds crowd.shared x ∧ inside crowd + room x ≤ 1
  calling : ∀ t ∈ crowd.threads, ∀ c, t.point = some c → g.wants t.own c

variable {crowd : Crowd w C R} {i : Nat} {own own' : Bool}

/-- One thread may have changed sides. -/
theorem inside_set {point : Option C} (here : crowd.threads[i]? = some ⟨own, point⟩)
    (own' : Bool) (point' : Option C) (shared : Cell (BitVec w))
    (history : List (Moment C (Except Fault R))) :
    inside ⟨shared, crowd.threads.set i ⟨own', point'⟩, history⟩ + (if own then 1 else 0) =
      inside crowd + if own' then 1 else 0 := by
  obtain ⟨hi, at_i⟩ := List.getElem?_eq_some_iff.mp here
  have counted : own = true → 0 < crowd.threads.countP (·.own) := fun h =>
    List.countP_pos_iff.mpr ⟨_, List.mem_of_getElem? here, h⟩
  simp only [inside, List.countP_set hi, at_i]
  cases own with
  | false => simp
  | true =>
    have := counted rfl
    simp only [if_true]
    omega

theorem orderly_start (h : Holds s x) (threads : Nat) :
    g.Orderly (World.start s (List.replicate threads false)) := by
  have start : ∀ t ∈ (World.start s (List.replicate threads false) : Crowd w C R).threads,
      t = ⟨false, none⟩ := by
    intro t among
    simp only [World.start, List.map_replicate] at among
    exact List.eq_of_mem_replicate among
  have none : inside (World.start s (List.replicate threads false) : Crowd w C R) = 0 :=
    List.countP_eq_zero.mpr fun t among => by rw [start t among]; exact Bool.false_ne_true
  refine ⟨⟨x, h, ?_⟩, fun t among c calls => ?_⟩
  · rw [none, Nat.zero_add]
    exact room_le_one x
  · rw [start t among] at calls
    cases calls

theorem Orderly.call {c point : C} (h : g.Orderly crowd)
    (here : crowd.threads[i]? = some ⟨own, none⟩)
    (entered : g.passage.enter own c = some (own', point))
    (history : List (Moment C (Except Fault R))) :
    g.Orderly ⟨crowd.shared, crowd.threads.set i ⟨own', some point⟩, history⟩ := by
  obtain ⟨wants, rfl, rfl⟩ : g.wants own c ∧ own = own' ∧ c = point := by
    simpa [passage] using entered
  obtain ⟨x, hx, room⟩ := h.room
  have same := inside_set here own (some c) crowd.shared history
  refine ⟨⟨x, hx, by omega⟩, fun t among c' calls => ?_⟩
  rcases List.mem_or_eq_of_mem_set among with among | rfl
  · exact h.calling t among c' calls
  · cases calls
    exact wants

/-- A thread that leaves is out; one that wants to go in gets in if it wins, and then there was room. -/
theorem Orderly.step (sound : g.Sound) {spurious : Bool} {c : C} {s : Cell (BitVec w)}
    {next : C ⊕ Except Fault R} (h : g.Orderly crowd)
    (here : crowd.threads[i]? = some ⟨own, some c⟩)
    (stepped : g.passage.step spurious crowd.shared own c = (s, own', next))
    (history : List (Moment C (Except Fault R))) :
    g.Orderly ⟨s, crowd.threads.set i ⟨own', arrived next⟩, history⟩ := by
  obtain ⟨x, hx, room⟩ := h.room
  have wants := h.calling _ (List.mem_of_getElem? here) c rfl
  have legal : g.legal c := by
    cases own with
    | true => exact sound.leaves wants
    | false => exact (sound.enters wants).1
  obtain ⟨r, s', y, ended, hy, admits⟩ := sound.call legal hx
  obtain ⟨rfl, rfl, rfl⟩ : s' = s ∧ (!own && g.wins c r) = own' ∧ .inr (.ok r) = next := by
    simpa [passage, Access.outcome_ok ended] using stepped
  have moved := inside_set here (!own && g.wins c r)
    (arrived (Sum.inr (Except.ok r) : C ⊕ Except Fault R)) s' history
  refine ⟨⟨y, hy, ?_⟩, fun t among c' calls => ?_⟩
  · cases own with
    | true =>
      have := room_le_one y
      rw [Bool.not_true, Bool.false_and, if_pos rfl, if_neg Bool.false_ne_true] at moved
      rw [Bool.not_true, Bool.false_and]
      omega
    | false =>
      have fits := admits.room_le ((sound.enters wants).2 r)
      rw [Bool.not_false, Bool.true_and] at moved ⊢
      omega
  · rcases List.mem_or_eq_of_mem_set among with among | rfl
    · exact h.calling t among c' calls
    · cases calls

theorem Orderly.run (sound : g.Sound) (h : g.Orderly crowd) (actions : List (Action C)) :
    g.Orderly (World.run g.passage actions crowd) := by
  induction actions generalizing crowd with
  | nil => exact h
  | cons a actions ih =>
    refine ih ?_
    rcases World.act_cases g.passage a crowd with same | ⟨i, c, own, own', point, -, here, entered, e⟩ |
      ⟨i, spurious, own, c, s, own', next, -, here, stepped, e⟩
    · rwa [same]
    · rw [e]
      exact h.call here entered _
    · rw [e]
      exact h.step sound here stepped _

variable (g) in
/-- What holds of a gate whatever is called on it from a state on, and whoever calls it. -/
structure Exclusive (s : Cell (BitVec w)) : Prop where
  binary : ∀ {cs}, (∀ c ∈ cs, g.legal c) →
    (g.calls s cs).1.value = 0 ∨ (g.calls s cs).1.value = 1
  answered : ∀ {cs}, (∀ c ∈ cs, g.legal c) → ∀ e ∈ (g.calls s cs).2, e.2.isOk
  /-- Among calls of which none writes false. -/
  one_winner : ∀ {cs stretch}, (∀ c ∈ cs, g.legal c) → stretch <:+: (g.calls s cs).2 →
    (∀ e ∈ stretch, g.cleared e = false) → stretch.countP g.won ≤ 1
  one_inside : ∀ threads actions,
    inside (World.run g.passage actions (World.start s (List.replicate threads false))) ≤ 1

theorem Sound.exclusive (sound : g.Sound) (h : Holds s x) : g.Exclusive s where
  binary legal := (sound.after legal h).1.elim fun _ => Holds.binary
  answered legal := (sound.after legal h).2
  one_winner legal := sound.countP_infix legal h
  one_inside threads actions := by
    obtain ⟨y, -, room⟩ := ((orderly_start h threads).run sound actions).room
    exact Nat.le_trans (Nat.le_add_right _ _) room

end Gate

/-! ### Flags -/

namespace AtomicFlag

/-- A flag, which is entered by setting it and left by clearing it. -/
def gate : Gate 32 Call (Atomic.Reply Bool) where
  perform := perform
  legal c := !c.illegal
  wins
    | .testAndSet _, .value wasSet => !wasSet
    | _, _ => false
  clears
    | .clear _, _ => true
    | _, _ => false
  enters
    | .testAndSet _ => true
    | _ => false
  leaves
    | .clear o => o.legalForStore
    | _ => false

theorem plain : atomic.Plain Cell.Quiet :=
  ⟨(TotalStore.plain_machine Native.plain_strict).toExchange, Carrier.faithful_scalar (by decide)⟩

theorem holds_word (s : State) (x : Bool) :
    (Carrier.scalar wordKind).Holds Cell.Quiet s (.wrap _ (if x then 1 else 0)) = Gate.Holds s x := by
  cases x <;> rfl

theorem gives_testAndSet (o : MemoryOrder) (x : Bool) : Gives Gate.Holds (testAndSet o) x x true := by
  intro s hs
  rw [← holds_word] at hs
  obtain ⟨s', ended, hs'⟩ := (plain.exchange (.wrap _ 1) o _).map (fun v => decide (v.val ≠ 0)) s hs
  refine ⟨s', ended.trans ?_, hs'⟩
  cases x <;> rfl

theorem gives_clear {o : MemoryOrder} (legal : o.legalForStore) (x : Bool) :
    Gives Gate.Holds (clear o) x () false := by
  intro s hs
  rw [← holds_word] at hs
  exact plain.store legal (.wrap _ 0) _ s hs

theorem legal_clear (o : MemoryOrder) : gate.legal (.clear o) = o.legalForStore := by
  cases o <;> rfl

theorem sound_gate : gate.Sound where
  call {c s x} legal hs := by
    cases c with
    | testAndSet o =>
      obtain ⟨s', ended, hs'⟩ := (gives_testAndSet o x).map Atomic.Reply.value s hs
      exact ⟨_, s', true, ended, hs', by simp [gate], fun _ _ => rfl⟩
    | clear o =>
      rw [legal_clear] at legal
      obtain ⟨s', ended, hs'⟩ := (gives_clear legal x).map (fun _ => Atomic.Reply.done) s hs
      exact ⟨_, s', false, ended, hs', nofun, nofun⟩
    | isLockFree => exact ⟨_, s, x, rfl, hs, nofun, fun _ => id⟩
  enters {c} enters := by
    cases c with
    | testAndSet o => exact ⟨rfl, fun _ => rfl⟩
    | clear | isLockFree => cases enters
  leaves {c} leaves := by
    cases c with
    | clear o =>
      rw [legal_clear]
      exact leaves
    | testAndSet | isLockFree => cases leaves

end AtomicFlag

/-! ### Truth values -/

namespace AtomicBool

namespace Operation

/-- The operation is about the value and has no order that it may not carry. -/
def legal : Operation → Bool
  | basic c => decide c.Proper
  | special _ => true

/-- The calls that make true out of false and can tell. -/
def seizes : Operation → Bool
  | basic (.exchange true _) => true
  | basic (.cas _ false true _) | basic (.compareExchange _ false true _) => true
  | special (.trySet _) | special (.fetchSet _) => true
  | _ => false

/-- The calls that write false whatever they find. -/
def releases : Operation → Bool
  | basic (.store false _) | basic (.set false) | basic (.exchange false _) => true
  | special (.fetchClear _) => true
  | _ => false

def wins : Operation → Atomic.Reply Bool → Bool
  | basic (.exchange true _), .value found => !found
  | basic (.cas _ false true _), .outcome o => o.stored
  | basic (.compareExchange _ false true _), .result r => r.isOk
  | special (.trySet _), .truth stored => stored
  | special (.fetchSet _), .truth found => !found
  | _, _ => false

def clears : Operation → Atomic.Reply Bool → Bool
  | basic (.cas _ _ false _), .outcome o => o.stored
  | basic (.compareExchange _ _ false _), .result r => r.isOk
  | c, _ => c.releases

end Operation

/-- A truth value, which is entered by a call that makes true out of false and left by one that
writes false. -/
def gate : Gate 8 Operation (Atomic.Reply Bool) where
  perform := Operation.perform
  legal := Operation.legal
  wins := Operation.wins
  clears := Operation.clears
  enters c := c.legal && c.seizes
  leaves c := c.legal && c.releases

theorem plain : (Atomic.selected .bool).Plain Cell.Quiet :=
  ⟨(TotalStore.plain_machine Native.plain_strict).toExchange, Carrier.faithful_bool⟩

theorem same_eq : Carrier.bool.same = (· == ·) := by
  funext x y
  cases x <;> cases y <;> rfl

theorem Operation.gives {c : Operation} (legal : c.legal) (x : Bool) :
    Gives Gate.Holds c.perform x (c.onVariable x).1 (c.onVariable x).2 := by
  cases c with
  | basic c =>
    have := plain.perform (of_decide_eq_true legal) true x
    rw [show (Atomic.selected Carrier.bool).carrier.same = (· == ·) from same_eq] at this
    exact this
  | special c =>
    cases c with
    | trySet o =>
      have := ((plain.cas (CasOrders.legal_ofSuccess o) .strong false true x).map
        CasOutcome.stored).map (Atomic.Reply.truth (T := Bool))
      cases x <;> exact this
    | fetchSet o => exact (plain.exchange true o x).map Atomic.Reply.truth
    | fetchClear o => exact (plain.exchange false o x).map Atomic.Reply.truth

/-- The cases are the calls with the truth values that they carry. -/
theorem Operation.admits {c : Operation} (legal : c.legal) (x : Bool) :
    gate.Admits c (c.onVariable x).1 x (c.onVariable x).2 := by
  rcases c with (_ | ⟨_ | _⟩ | ⟨_ | _⟩ | ⟨_, _ | _, _ | _⟩ | ⟨_, _ | _, _ | _⟩ | _ | ⟨_ | _⟩ | _ | _) |
    (_ | _ | _)
  case basic.isLockFree | basic.fetchUpdate => cases legal
  all_goals cases x <;> constructor <;>
    simp [gate, wins, clears, releases, onVariable, Atomic.Call.onVariable, Except.isOk, Except.toBool]

/-- A call that makes true writes no false. -/
theorem Operation.clears_of_seizes {c : Operation} (h : c.seizes) (r : Atomic.Reply Bool) :
    c.clears r = false := by
  revert h
  fun_cases seizes c <;> intro h
  case case6 => cases h
  all_goals cases r <;> rfl

theorem sound_gate : gate.Sound where
  call {c s x} legal hs := by
    obtain ⟨s', ended, hs'⟩ := Operation.gives legal x s hs
    exact ⟨_, s', _, ended, hs', Operation.admits legal x⟩
  enters {c} enters := by
    obtain ⟨legal, seizes⟩ := Bool.and_eq_true_iff.mp enters
    exact ⟨legal, Operation.clears_of_seizes seizes⟩
  leaves leaves := (Bool.and_eq_true_iff.mp leaves).1

end AtomicBool

/-- Flags and truth values let one in at a time, whatever they are at first. Whoever calls them, and however
often, the word stays zero or one; among calls of which none writes false at most one wins; and of threads
that go in when they have won, and that write false when they come out, no two are ever inside. -/
theorem exclusive_gates : (∀ isSet, AtomicFlag.gate.Exclusive (AtomicFlag.fresh isSet)) ∧
    ∀ b, AtomicBool.gate.Exclusive ⟨Carrier.bool.toWord b, [], []⟩ :=
  ⟨fun isSet => AtomicFlag.sound_gate.exclusive (x := isSet) ⟨rfl, rfl⟩,
    fun b => AtomicBool.sound_gate.exclusive (x := b) ⟨rfl, rfl⟩⟩

/-- Two threads at a truth value: the second one fails while the first one is inside, and gets in when
it is out. -/
theorem exclusive_gates_handed_over :
    let set : AtomicBool.Operation := .special (.trySet .acquire)
    let clear : AtomicBool.Operation := .basic (.store false .release)
    let first := [.call 0 set, .step 0 false, .call 1 set, .step 1 false]
    let second := first ++ [.call 0 clear, .step 0 false, .call 1 set, .step 1 false]
    let start : Gate.Crowd _ _ _ := .start ⟨Carrier.bool.toWord false, [], []⟩ [false, false]
    let run actions := World.run AtomicBool.gate.passage actions start
    (run first).threads.map (·.own) = [true, false] ∧ (run second).threads.map (·.own) = [false, true] ∧
      ∀ actions, Gate.inside (run actions) ≤ 1 := by
  intro set clear first second start run
  exact ⟨rfl, rfl, (exclusive_gates.2 false).one_inside 2⟩

end OrderedAtomics
