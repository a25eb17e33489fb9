import OrderedAtomics.Proofs.Cell.Atomicity

/-! Orders on their way down. Every operation of a completed cell hands the orders of its caller to
the primitives that it comes to. If one of them does it all, that one has the order. If there are
several, each attempt to write has it, and only looks are relaxed. -/

namespace OrderedAtomics

/-! ### Accesses of a call -/

section Traces

variable {V W β γ : Type}

/-- The access ends in any state of the cell, and `P` holds of all that it adds to the trace. -/
def Access.Shows (a : Access (Cell V) β) (P : Cell V → List (Event V) → Prop) : Prop :=
  ∀ c, ∃ r c' events, a c = .ok r c' ∧ c'.trace = c.trace ++ events ∧ P c events

namespace Access.Shows

variable {a : Access (Cell V) β} {P Q : Cell V → List (Event V) → Prop}

theorem map (h : Shows a P) (g : β → γ) : Shows (do return g (← a)) P := by
  intro c
  obtain ⟨r, c', events, ended, trace, right⟩ := h c
  exact ⟨g r, c', events, Access.bind_ok ended, trace, right⟩

theorem imp (h : Shows a P) (weaker : ∀ c events, P c events → Q c events) : Shows a Q := by
  intro c
  obtain ⟨r, c', events, ended, trace, right⟩ := h c
  exact ⟨r, c', events, ended, trace, weaker c events right⟩

end Access.Shows

/-- The attempt of a compare-exchange in the whole `x`. -/
abbrev Event.comparing (put : V → W → V) (k : Strength) (e d : W) (s f : MemoryOrder) (x : V)
    (stored : Bool) : Event V :=
  .cas k (put x e) (put x d) s f stored

/-- The order of a primitive that works on the value in one step, and what it makes of it. -/
def Event.replaces {n : Nat} : Event (BitVec n) → Option (MemoryOrder × (BitVec n → BitVec n))
  | .exchange v o => some (o, fun _ => v)
  | .fetchAdd v o | .fetchAddVar v o => some (o, (· + v))
  | .fetchInc o => some (o, (· + 1))
  | .fetchDec o => some (o, (· - 1))
  | .load _ | .store .. | .cas .. | .lockFreeQuery | .before _ | .after _ | .fence _ => none

namespace Cell

variable {n : Nat}

/-- The accesses of a read-modify-write: one primitive with its order that does the same, or a
loop. -/
def Updated (view : BitVec n → W) (put : BitVec n → W → BitVec n) (o : MemoryOrder) (f : W → W)
    (c : Cell (BitVec n)) (events : List (Event (BitVec n))) : Prop :=
  (∃ e, events = [e] ∧ e.replaces = some (o, fun x => put x (f (view x)))) ∨
    c.Retries (Event.updating view put f o) events

/-- The accesses of a store: one with its order, if the value is all of the word, or a loop. -/
def Stored (view : V → W) (put : V → W → V) (o : MemoryOrder) (v : W) (c : Cell V)
    (events : List (Event V)) : Prop :=
  (∃ word, events = [.store word o] ∧ ∀ x, put x v = word) ∨
    c.Retries (Event.updating view put (fun _ => v) o) events

/-- The accesses of a compare-exchange: attempts, all with its orders and its two values, of which
only the last one may store. A weak compare-exchange makes one attempt, a weak one. -/
def Compared (put : V → W → V) (strength : Strength) (e d : W) (s f : MemoryOrder) (c : Cell V)
    (events : List (Event V)) : Prop :=
  ∃ k looks stored, c.Tried (Event.comparing put k e d s f) looks ∧
    events = looks ++ [Event.comparing put k e d s f (c.met looks) stored] ∧
    (strength = .weak → k = .weak ∧ attempts looks = 0)

end Cell

/-- The accesses of a call, on the part `view` of what a cell holds, which `put` replaces. -/
def Call.HandedDown {n w : Nat} (view : BitVec n → BitVec w) (put : BitVec n → BitVec w → BitVec n)
    (c : Cell (BitVec n)) (events : List (Event (BitVec n))) : Call (BitVec w) → Prop
  | .load o => events = [.load o]
  | .store v o => c.Stored view put o v events
  | .cas strength e d s f => c.Compared put strength e d s f events
  | .isLockFree => events = [.lockFreeQuery]
  | .exchange v o => c.Updated view put o (fun _ => v) events
  | .modify u v _ o => c.Updated view put o (u.apply · v) events
  | .increment _ o | .fetchInc o => c.Updated view put o (· + 1) events
  | .decrement _ o | .fetchDec o => c.Updated view put o (· - 1) events
  | .fetchAddVar v o => c.Updated view put o (· + v) events

end Traces

/-! ### Retry loops -/

namespace Minimal.Attempts

variable {V W : Type} {view : V → W} {put : V → W → V} {ops : Minimal (Cell V) W}
  (h : ops.Attempts view put)
include h

theorem shows_update (f : W → W) (o : MemoryOrder) :
    (ops.update f o).Shows fun c events => c.Retries (Event.updating view put f o) events := by
  intro c
  obtain ⟨events, c', retries, went, ended, -⟩ := h.update_ends f o c
  exact ⟨_, c', events, ended, went.trace, retries⟩

theorem shows_casWeak (e d : W) (s f : MemoryOrder) :
    (ops.casWeak e d s f).Shows (Cell.Compared put .weak e d s f) := by
  intro c
  obtain ⟨looks, stored, c', relaxed, went, ended, -⟩ := h.casWeak e d s f c
  have seen : c.met looks = c.value := @Cell.met_loads _ c [] looks relaxed
  refine ⟨_, c', _, ended, went.trace, .weak, looks, stored, Cell.Tried.nothing.loads relaxed, ?_,
    fun _ => ⟨rfl, Cell.attempts_loads relaxed⟩⟩
  rw [seen]

/-- A strong compare-exchange tries again only if the attempt failed on the expected part, which takes
an entry of the script. -/
theorem shows_casUntilDecided [DecidableEq W] (e d : W) (s f : MemoryOrder) :
    (ops.casUntilDecided e d s f).Shows (Cell.Compared put .strong e d s f) := by
  intro c
  let attempt (_ : Unit) : Access (Cell V) (Unit ⊕ CasOutcome W) := do
    let outcome ← ops.casWeak e d s f
    return if outcome.stored || outcome.expected ≠ e then .inr outcome else .inl ()
  have ends : ∃ r c', retry attempt (ops.patience c) () c = .ok r c' ∧
      ∃ events, c'.trace = c.trace ++ events ∧ c.Compared put .strong e d s f events := by
    refine retry_ends (fun _ c₁ => ∃ looks, c.Trying (Event.comparing put .weak e d s f) looks c₁) _
      (fun c₁ => c₁.script.length) ?step ⟨[], c.trying_nothing _⟩ ?enough
    case step =>
      rintro - c₁ ⟨looks, trying⟩
      have decided {more : List (Event V)} {stored : Bool} {c' : Cell V}
          (tried : c.Tried (Event.comparing put .weak e d s f) more)
          (went : c.Went (more ++ [Event.comparing put .weak e d s f (c.met more) stored]) c') :
          ∃ events, c'.trace = c.trace ++ events ∧ c.Compared put .strong e d s f events :=
        ⟨_, went.trace, .weak, more, stored, tried, rfl, nofun⟩
      obtain ⟨more, -, tried, ⟨c', went, -, ended, -⟩ | ⟨c', again, ended, less⟩⟩ :=
        h.attempt_after trying rfl
      · exact .inl ⟨⟨true, e⟩, c', Access.bind_ok ended, decided tried went⟩
      · by_cases same : view c'.value = e
        · refine .inr ⟨(), c', (Access.bind_ok ended).trans ?_, ⟨_, again⟩, ?_⟩
          · simp [same]
            rfl
          · refine less.resolve_right fun ⟨value, unexpected⟩ => ?_
            exact unexpected (value ▸ same)
        · refine .inl ⟨⟨false, view c'.value⟩, c', (Access.bind_ok ended).trans ?_,
            decided tried again.went⟩
          simp [same]
          rfl
    case enough =>
      rw [h.patience]
      exact Nat.lt_succ_self _
  obtain ⟨r, c', ended, events, trace, compared⟩ := ends
  exact ⟨r, c', events, ended, trace, compared⟩

end Minimal.Attempts

/-! ### Levels -/

section Levels

variable {n w : Nat} {W : Type}

/-- To come down to accesses of a read-modify-write. -/
def Sense.handing (view : BitVec n → W) (put : BitVec n → W → BitVec n) :
    Sense (Cell (BitVec n)) W where
  Acts o a f := a.Shows (Cell.Updated view put o fun x => (f x).2)
  map := Access.Shows.map

/-- Minimal operations that hand orders down. -/
structure Minimal.Hands (ops : Minimal (Cell (BitVec n)) W) (view : BitVec n → W)
    (put : BitVec n → W → BitVec n) : Prop where
  attempts : ops.Attempts view put
  store : ∀ v o, (ops.store v o).Shows (Cell.Stored view put o v)
  isLockFree : ops.isLockFree.Shows fun _ events => events = [.lockFreeQuery]

structure Exchange.Hands (ops : Exchange (Cell (BitVec n)) W) (view : BitVec n → W)
    (put : BitVec n → W → BitVec n) : Prop extends toMinimal : ops.toMinimal.Hands view put where
  casStrong : ∀ e d s f, (ops.casStrong e d s f).Shows (Cell.Compared put .strong e d s f)
  exchange : ∀ v o, (Sense.handing view put).Acts o (ops.exchange v o) fun x => (x, v)

structure FetchAdd.Hands (ops : FetchAdd (Cell (BitVec n)) (BitVec w)) (view : BitVec n → BitVec w)
    (put : BitVec n → BitVec w → BitVec n) : Prop extends
    toExchange : ops.toExchange.Hands view put where
  fetchAdd : ∀ v o, (Sense.handing view put).Acts o (ops.fetchAdd v o) fun x => (x, x + v)

theorem Minimal.Attempts.handing {view : BitVec n → W} {put : BitVec n → W → BitVec n}
    {ops : Minimal (Cell (BitVec n)) W} (h : ops.Attempts view put) (f : W → W) (o : MemoryOrder) :
    (Sense.handing view put).Acts o (ops.update f o) fun x => ((x, f x), f x) :=
  (h.shows_update f o).imp fun _ _ => .inr

theorem Minimal.Hands.withExchange [DecidableEq W] {view : BitVec n → W}
    {put : BitVec n → W → BitVec n} {ops : Minimal (Cell (BitVec n)) W} (h : ops.Hands view put) :
    ops.withExchange.Hands view put where
  toMinimal := h
  casStrong := h.attempts.shows_casUntilDecided
  exchange v o := (h.attempts.handing (fun _ => v) o).map Prod.fst

variable {view : BitVec n → BitVec w} {put : BitVec n → BitVec w → BitVec n}

theorem Exchange.Hands.withFetchAdd {ops : Exchange (Cell (BitVec n)) (BitVec w)}
    (h : ops.Hands view put) : ops.withFetchAdd.Hands view put where
  toExchange := h
  fetchAdd v o := (h.attempts.handing (· + v) o).map Prod.fst

theorem Exchange.Hands.withCounting {ops : Exchange (Cell (BitVec n)) (BitVec w)}
    (h : ops.Hands view put) {counting : Counting (Cell (BitVec n)) (BitVec w)}
    (hc : counting.Acts (.handing view put)) : (ops.withCounting counting).Hands view put where
  toExchange := h
  fetchAdd := hc.withCounting ops

theorem FetchAdd.Hands.acts {ops : FetchAdd (Cell (BitVec n)) (BitVec w)} (h : ops.Hands view put) :
    ops.Acts (.handing view put) where
  update := h.attempts.handing
  exchange := h.exchange
  fetchAdd := h.fetchAdd

/-- Whatever call is made, its orders come down as they are. -/
theorem FetchAdd.Hands.perform {ops : FetchAdd (Cell (BitVec n)) (BitVec w)}
    (h : ops.Hands view put) {call : Call (BitVec w)}
    {access : Access (Cell (BitVec n)) (Reply (BitVec w))}
    (performed : (Interface.integral ops).perform? call = some access) :
    access.Shows fun c events => call.HandedDown view put c events := by
  have updating (updates : call.Updates) (other : ∀ v o, call ≠ .store v o) :
      access.Shows (Cell.Updated view put call.order fun x => (call.onVariable true x).2) := by
    obtain ⟨access', performed', acts⟩ :=
      h.acts.perform updates (fun v o e => absurd e (other v o)) true
    obtain rfl : access' = access := Option.some.inj (performed'.symm.trans performed)
    exact acts
  cases call with
  | load o =>
    obtain rfl := Option.some.inj performed
    exact fun c => ⟨_, _, [.load o], Access.bind_ok (h.attempts.load o c), rfl, rfl⟩
  | store v o =>
    obtain rfl := Option.some.inj performed
    exact (h.store v o).map fun _ => Reply.done
  | cas strength e d s f =>
    cases strength with
    | weak =>
      obtain rfl := Option.some.inj performed
      exact (h.attempts.shows_casWeak e d s f).map Reply.outcome
    | strong =>
      obtain rfl := Option.some.inj performed
      exact (h.casStrong e d s f).map Reply.outcome
  | isLockFree =>
    obtain rfl := Option.some.inj performed
    exact h.isLockFree.map Reply.truth
  | exchange | modify | increment | decrement => exact updating trivial nofun
  | fetchAddVar | fetchInc | fetchDec => cases performed

/-- Without updates, but with the counting operations. -/
theorem Exchange.Hands.perform {ops : Exchange (Cell (BitVec n)) (BitVec w)}
    (h : ops.Hands view put) {counting : Counting (Cell (BitVec n)) (BitVec w)}
    (hc : counting.Acts (.handing view put))
    {call : Call (BitVec w)} {access : Access (Cell (BitVec n)) (Reply (BitVec w))}
    (performed : (Interface.exchange ops (some counting)).perform? call = some access) :
    access.Shows fun c events => call.HandedDown view put c events := by
  cases call with
  | cas strength => cases strength <;> exact (h.withCounting hc).perform performed
  | load | store | isLockFree | exchange => exact (h.withCounting hc).perform performed
  | modify | increment | decrement => cases performed
  | fetchAddVar v o =>
    obtain rfl := Option.some.inj performed
    exact (hc.fetchAddVar v o).map Reply.value
  | fetchInc o =>
    obtain rfl := Option.some.inj performed
    exact (hc.fetchInc o).map Reply.value
  | fetchDec o =>
    obtain rfl := Option.some.inj performed
    exact (hc.fetchDec o).map Reply.value

/-- A cell without bitwise updates has all else that a full one has. -/
theorem Interface.perform?_arithmetic {σ : Type} {ops : FetchAdd σ (BitVec w)}
    {call : Call (BitVec w)} {access : Access σ (Reply (BitVec w))}
    (performed : (arithmetic ops).perform? call = some access) :
    (integral ops).perform? call = some access := by
  cases call with
  | modify u v y o =>
    cases u with
    | add | sub => exact performed
    | and | or | xor => cases performed
  | cas strength => cases strength <;> exact performed
  | _ => exact performed

end Levels

/-! ### Completed cells -/

section Stacks

variable {w : Nat}

theorem Cell.shows_modifyBy (e : Event (BitVec w)) {o : MemoryOrder} {f : BitVec w → BitVec w}
    (replaces : e.replaces = some (o, f)) :
    (modifyBy e f).Shows (Updated id (fun _ v => v) o f) :=
  fun c => ⟨_, _, [e], modifyBy_eq e f c, rfl, .inl ⟨e, rfl, replaces⟩⟩

theorem Recorder.hands : (machine : FetchAdd (Cell (BitVec w)) _).Hands id fun _ v => v where
  attempts := attempts
  store v o c := ⟨_, _, [.store v o], Cell.write_eq v o c, rfl, .inl ⟨v, rfl, fun _ => rfl⟩⟩
  isLockFree _ := ⟨true, _, [.lockFreeQuery], rfl, rfl, rfl⟩
  casStrong e d s f c :=
    ⟨_, _, _, Cell.compareExchange_eq .strong e d s f c, rfl, .strong, [], _, .nothing, rfl, nofun⟩
  exchange v o c := ⟨_, _, [.exchange v o], Cell.swap_eq v o c, rfl, .inl ⟨_, rfl, rfl⟩⟩
  fetchAdd v o := Cell.shows_modifyBy (.fetchAdd v o) (f := (· + v)) rfl

theorem Recorder.counting_hands :
    (counting : Counting (Cell (BitVec w)) _).Acts (.handing id fun _ v => v) where
  fetchAddVar v o := Cell.shows_modifyBy (.fetchAddVar v o) (f := (· + v)) rfl
  fetchInc o := Cell.shows_modifyBy (.fetchInc o) (f := (· + 1)) rfl
  fetchDec o := Cell.shows_modifyBy (.fetchDec o) (f := (· - 1)) rfl

theorem Recorder.hands_withExchange :
    (machine : FetchAdd (Cell (BitVec w)) _).toMinimal.withExchange.Hands id fun _ v => v :=
  hands.toMinimal.withExchange

theorem SubWord.hands {n m shift : Nat} (fits : shift + m ≤ n) :
    (machine (Recorder.machine : FetchAdd (Cell (BitVec n)) _).toMinimal m shift).integral.Hands
      (extract m shift) (insert shift) := by
  have minimal : (machine (Recorder.machine : FetchAdd (Cell (BitVec n)) _).toMinimal m shift).Hands
      (extract m shift) (insert shift) := {
    attempts := attempts Recorder.attempts fits
    store := fun v o =>
      ((Recorder.attempts.shows_update (insert shift · v) o).map fun _ => ()).imp fun _ _ => .inr
    isLockFree := Recorder.hands.isLockFree }
  exact minimal.withExchange.withFetchAdd

/-- Cells completed over a recorder in any way, those without some of the updates among them. -/
inductive CellKind.Derived : {w : Nat} → CellKind w → Prop
  | completed {w : Nat} {k : CellKind w} (h : k.Completed) : Derived k
  | exchange {w : Nat} : Derived (Derivation.exchangeFromCas.kind w)
  | arithmetic {w : Nat} : Derived (Derivation.arithmeticFromAdd.kind w)

namespace CellKind

/-- The word with a value of the cell in it, and around it what was there. -/
def put (k : CellKind w) (word : BitVec k.whole) (v : BitVec w) : BitVec k.whole :=
  (word &&& ~~~k.embed (.allOnes w)) ||| k.embed v

/-- The call is answered, and by accesses that it hands its orders down to. -/
def HandsDown (k : CellKind w) (call : Call (BitVec w)) (s : k.State) : Prop :=
  ∃ reply s' events, k.call call s = (some (.ok reply), s') ∧
    (k.holder.cell s').trace = (k.holder.cell s).trace ++ events ∧
    call.HandedDown k.extract k.put (k.holder.cell s) events

theorem put_plain (interface : Interface (Cell (BitVec w)) w) :
    (plain interface).put = fun _ v => v := by
  funext (word : BitVec w) (v : BitVec w)
  show (word &&& ~~~BitVec.allOnes w) ||| v = v
  simp

theorem plain_handsDown {interface : Interface (Cell (BitVec w)) w} {call : Call (BitVec w)}
    {access : Access (Cell (BitVec w)) (Reply (BitVec w))}
    (performed : interface.perform? call = some access)
    (shows : access.Shows fun c events => call.HandedDown id (fun _ v => v) c events)
    (s : Cell (BitVec w)) : (plain interface).HandsDown call s := by
  obtain ⟨reply, s', events, ended, trace, handed⟩ := shows s
  refine ⟨reply, s', events, call_ok performed ended, trace, ?_⟩
  rw [put_plain]
  exact handed

theorem part_handsDown {n shift : Nat} (fits : shift + w ≤ n) {call : Call (BitVec w)}
    (offered : (((Derivation.fromAdd.kind n).part w shift).derived.interface.perform? call).isSome)
    (s : Cell (BitVec n)) :
    ((Derivation.fromAdd.kind n).part w shift).derived.HandsDown call s := by
  obtain ⟨access, performed⟩ := Option.isSome_iff_exists.mp offered
  obtain ⟨reply, s', events, ended, trace, handed⟩ := (SubWord.hands fits).perform performed s
  exact ⟨reply, s', events, call_ok performed ended, trace, handed⟩

/-- Every call that a completed cell has is answered, whatever others do, and hands its orders down.
A loop goes by the value of the word that was seen last. -/
theorem Derived.orders_handed_down {k : CellKind w} (derived : k.Derived) {call : Call (BitVec w)}
    (offered : (k.interface.perform? call).isSome) (s : k.State) : k.HandsDown call s := by
  have whole {ops : FetchAdd (Cell (BitVec w)) (BitVec w)} (h : ops.Hands id fun _ v => v)
      (offered : ((Interface.integral ops).perform? call).isSome) (s : Cell (BitVec w)) :
      (plain (.integral ops)).HandsDown call s := by
    obtain ⟨access, performed⟩ := Option.isSome_iff_exists.mp offered
    exact plain_handsDown performed (h.perform performed) s
  cases derived with
  | exchange =>
    obtain ⟨access, performed⟩ := Option.isSome_iff_exists.mp offered
    exact plain_handsDown performed
      (Recorder.hands_withExchange.perform Recorder.counting_hands performed) s
  | arithmetic =>
    obtain ⟨access, performed⟩ := Option.isSome_iff_exists.mp offered
    exact plain_handsDown performed
      (Recorder.hands.perform (Interface.perform?_arithmetic performed)) s
  | completed h =>
    cases h with
    | small fits => exact part_handsDown fits offered s
    | whole d complete =>
      cases d with
      | fromMinimal => exact whole Recorder.hands_withExchange.withFetchAdd offered s
      | fromExchange => exact whole Recorder.hands.toExchange.withFetchAdd offered s
      | fromAdd => exact whole Recorder.hands offered s
      | fromTypical =>
        exact whole (Recorder.hands.toExchange.withCounting Recorder.counting_hands) offered s
      | fromTypicalCas =>
        exact whole (Recorder.hands_withExchange.withCounting Recorder.counting_hands) offered s
      | exchangeFromCas | arithmeticFromAdd => cases complete
      | fromLarger n =>
        have fits : 0 + w ≤ n := by rwa [Nat.zero_add]
        exact part_handsDown fits offered s

/-- An exclusive or on the lowest byte of a word, which another thread writes before the first
attempt and the second attempt fails on without cause. -/
theorem Derived.orders_handed_down_lowest_byte :
    let k : CellKind 8 := (Derivation.fromLarger 32).kind 8
    let call : Call (BitVec 8) := .modify .xor 0xF0 .updated .acqRel
    let s : Cell (BitVec 32) := ⟨0x01020304, [.overwrite 0x0A0B0C05, .spurious], []⟩
    k.Derived ∧ (k.interface.perform? call).isSome ∧ k.HandsDown call s := by
  intro k call s
  have derived : k.Derived := .completed (.whole (.fromLarger 32) (by decide : 8 ≤ 32))
  have offered : (k.interface.perform? call).isSome := rfl
  exact ⟨derived, offered, derived.orders_handed_down offered s⟩

example :
    let k : CellKind 8 := (Derivation.fromLarger 32).kind 8
    let s : Cell (BitVec 32) := ⟨0x01020304, [.overwrite 0x0A0B0C05, .spurious], []⟩
    (k.holder.cell (k.call (.modify .xor 0xF0 .updated .acqRel) s).2).trace =
      [.load .relaxed,
        .load .relaxed, .cas .weak 0x01020304 0x010203F4 .acqRel .relaxed false,
        .load .relaxed, .cas .weak 0x0A0B0C05 0x0A0B0CF5 .acqRel .relaxed false,
        .load .relaxed, .cas .weak 0x0A0B0C05 0x0A0B0CF5 .acqRel .relaxed true] := rfl

end CellKind

end Stacks

end OrderedAtomics
