import OrderedAtomics.Proofs.Atomic.Values
import OrderedAtomics.Proofs.Cell.Contention

/-! Fetch-and-update, the closure of which may write the atomic itself. What the closure stores on the way
makes an attempt fail exactly if it changes the value that the closure was shown, so that an update is
stored only on that value. -/

namespace OrderedAtomics

open Access (Gives)

namespace Atomic

variable {σ T W κ : Type}

/-! ### Histories -/

/-- A write to an atomic: a store, or a compare-exchange that stores. -/
inductive Write (T : Type) where
  | store (value : T)
  | swap (expected desired : T)
  deriving DecidableEq, Repr

/-- What the closure does on a visit. Out of attempts it stores nothing and gives none. -/
def visit (attempts : List (Attempt T)) (i : Nat) : Attempt T := attempts.getD i {}

/-- The course of a fetch-and-update: each value shown but the first is what the visit before has stored
in place of the one that was shown then. It ends with the visit on which the closure gives none, or
leaves the value that it was shown as it is. -/
structure Updated (attempts : List (Attempt T)) (first : T) (result : Except T T) (seen : List T)
    (left : T) : Prop where
  shown_first : seen.head? = some first
  shown_later : ∀ {i shown later}, seen[i]? = some shown → seen[i + 1]? = some later →
    later ≠ shown ∧ ∃ next, visit attempts i = ⟨some later, some next⟩
  ok_iff : ∀ p, result = .ok p ↔ seen.getLast? = some p ∧
    let last := visit attempts (seen.length - 1)
    last.store.getD p = p ∧ last.next = some left
  error_iff : ∀ p, result = .error p ↔ seen.getLast? = some p ∧
    let last := visit attempts (seen.length - 1)
    last.next = none ∧ left = last.store.getD p

/-- All writes of a fetch-and-update: what its closure stores, and one compare-exchange at the end if it
gets through. -/
def written (attempts : List (Attempt T)) (result : Except T T) (seen : List T) (left : T) :
    List (Write T) :=
  ((attempts.take seen.length).filterMap Attempt.store).map .store ++
    match result with
    | .ok p => [.swap p left]
    | .error _ => []

section Updated

variable {attempts : List (Attempt T)} {shown left w next : T} {result : Except T T} {seen : List T}

theorem updated_refused (refused : (visit attempts 0).next = none) :
    Updated attempts shown (.error shown) [shown] ((visit attempts 0).store.getD shown) where
  shown_first := rfl
  shown_later _ later := by cases later
  ok_iff p := by simp [refused]
  error_iff p := by
    simp only [Except.error.injEq, List.getLast?_singleton, Option.some.injEq, List.length_singleton,
      Nat.sub_self, refused, true_and]
    exact ⟨fun same => ⟨same, same ▸ rfl⟩, And.left⟩

theorem updated_stored (same : (visit attempts 0).store.getD shown = shown)
    (asked : (visit attempts 0).next = some left) :
    Updated attempts shown (.ok shown) [shown] left where
  shown_first := rfl
  shown_later _ later := by cases later
  ok_iff p := by
    simp only [Except.ok.injEq, List.getLast?_singleton, Option.some.injEq, List.length_singleton,
      Nat.sub_self, asked, and_true]
    exact ⟨fun equal => ⟨equal, equal ▸ same⟩, And.left⟩
  error_iff p := by simp [asked]

/-- A visit that has changed the value is followed by one that is shown the new one. -/
theorem Updated.after_change (changed : w ≠ shown) (h : Updated attempts w result seen left) :
    Updated (⟨some w, some next⟩ :: attempts) shown result (shown :: seen) left := by
  obtain ⟨tail, rfl⟩ : ∃ tail, seen = w :: tail := List.head?_eq_some_iff.mp h.shown_first
  refine ⟨rfl, ?_, fun p => ?_, fun p => ?_⟩
  · rintro (_ | i) shown' later here there
    · obtain rfl := Option.some.inj here
      obtain rfl := Option.some.inj there
      exact ⟨changed, next, rfl⟩
    · exact h.shown_later here there
  · rw [List.getLast?_cons_cons]
    exact h.ok_iff p
  · rw [List.getLast?_cons_cons]
    exact h.error_iff p

end Updated

/-! ### Rounds -/

/-- Left alone, the operations of a fetch-and-update act as on a variable, and the log grows by what
they write. -/
structure Logged (a : Atomic σ T W) (rest : σ → T × List (Write T) → Prop) (orders : CasOrders) : Prop
    where
  load : ∀ {o}, o.legalForLoad → ∀ x log, Gives rest (a.load o) (x, log) x (x, log)
  store : ∀ v x log, Gives rest (a.store v .relaxed) (x, log) () (v, log ++ [.store v])
  swap : ∀ e d log,
    Gives rest (a.cas .weak e d orders) (e, log) ⟨true, e⟩ (d, log ++ [.swap e d])
  refuse : ∀ {e x}, x ≠ e → ∀ d log,
    Gives rest (a.cas .weak e d orders) (x, log) ⟨false, x⟩ (x, log)

namespace Logged

variable {a : Atomic σ T W} {rest : σ → T × List (Write T) → Prop} {orders : CasOrders}
  (h : a.Logged rest orders)
include h

/-- A visit of the closure: it stores, perhaps, and says which value it asks for. -/
theorem follow (attempt : Attempt T) (attempts : List (Attempt T)) (seen : List T) (shown : T)
    (log : List (Write T)) :
    Gives rest (a.follow (attempt :: attempts, seen) shown) (shown, log)
      ((attempts, seen ++ [shown]), attempt.next)
      (attempt.store.getD shown, log ++ attempt.store.toList.map .store) := by
  obtain ⟨_ | v, next⟩ := attempt
  · rw [Option.toList_none, List.map_nil, List.append_nil]
    exact .pure _ _
  · exact (h.store v shown log).bind (.pure _ _)

variable {same : T → T → Bool} (equal : ∀ x y, same x y = true ↔ x = y)
include equal

/-- The rounds end as on a variable. Each of them goes by one attempt of the list. -/
theorem updateRounds (attempts : List (Attempt T)) (shown : T) (log : List (Write T))
    (before : List T) : ∃ unused result seen left,
      followVariable same attempts before shown shown = ((result, before ++ seen), left) ∧
      Gives rest (a.updateRounds orders a.follow (attempts.length + 1) (attempts, before) shown)
        (shown, log) ((unused, before ++ seen), result)
        (left, log ++ written attempts result seen left) ∧
      Updated attempts shown result seen left := by
  induction attempts generalizing shown log before with
  | nil =>
    refine ⟨[], .error shown, [shown], shown, rfl, ?_, updated_refused rfl⟩
    rw [written, List.take_nil, List.filterMap_nil, List.map_nil, List.append_nil, List.append_nil]
    exact .pure _ _
  | cons attempt attempts ih =>
    have visited := h.follow attempt attempts before shown log
    have one (result : Except T T) (left : T) :
        written (attempt :: attempts) result [shown] left =
          attempt.store.toList.map .store ++ written [] result [shown] left := by
      obtain ⟨_ | v, next⟩ := attempt <;> rfl
    obtain ⟨store, asked⟩ := attempt
    cases asked with
    | none =>
      refine ⟨attempts, .error shown, [shown], store.getD shown, rfl, ?_, updated_refused rfl⟩
      rw [one]
      simp only [written, List.take_nil, List.filterMap_nil, List.map_nil, List.append_nil]
      exact visited.bind (.pure _ _)
    | some next =>
      by_cases kept : store.getD shown = shown
      · refine ⟨attempts, .ok shown, [shown], next, ?_, ?_, updated_stored kept rfl⟩
        · exact if_pos ((equal _ _).mpr kept)
        · rw [kept] at visited
          rw [one, ← List.append_assoc]
          exact visited.bind ((h.swap shown next _).bind (.pure _ _))
      · obtain ⟨w, rfl⟩ : ∃ w, store = some w := by
          refine Option.isSome_iff_exists.mp (Option.isSome_iff_ne_none.mpr fun none => kept ?_)
          rw [none]
          rfl
        obtain ⟨unused, result, seen, left, follows, later, updated⟩ :=
          ih w (log ++ [.store w]) (before ++ [shown])
        refine ⟨unused, result, shown :: seen, left, ?_, ?_, updated.after_change kept⟩
        · rw [List.append_cons]
          exact (if_neg (mt (equal _ _).mp kept)).trans follows
        · have more : written (⟨some w, some next⟩ :: attempts) result (shown :: seen) left =
              .store w :: written attempts result seen left := rfl
          rw [more, List.append_cons log, List.append_cons before]
          exact visited.bind ((h.refuse kept next _).bind later)

theorem fetchUpdateWith {setOrder fetchOrder : MemoryOrder} (legal : fetchOrder.legalForLoad)
    (orders_eq : orders = updateOrders setOrder fetchOrder) (attempts : List (Attempt T)) (v : T) :
    ∃ result seen left, followVariable same attempts [] v v = ((result, seen), left) ∧
      Gives rest (a.fetchUpdateWith setOrder fetchOrder attempts) (v, []) (result, seen)
        (left, written attempts result seen left) ∧
      Updated attempts v result seen left := by
  subst orders_eq
  obtain ⟨unused, result, seen, left, follows, rounds, updated⟩ :=
    h.updateRounds equal attempts v [] []
  exact ⟨result, seen, left, follows, ((h.load legal v []).bind rounds).bind (.pure _ _), updated⟩

end Logged

/-- The failure order of a fetch-and-update is always one that its success order admits. -/
theorem updateOrders_legal (setOrder fetchOrder : MemoryOrder) :
    (updateOrders setOrder fetchOrder).Legal := by
  unfold updateOrders
  split
  next legal => exact legal
  next => exact setOrder.strongestFailure_legal

/-! ### Cells -/

theorem Plain.logged [DecidableEq W] {a : Atomic σ T W} {rest : σ → W → Prop} (h : a.Plain rest)
    {orders : CasOrders} (legal : orders.Legal) :
    a.Logged (fun s x => a.carrier.Holds rest s x.1) orders where
  load ok x _ := h.load ok x
  store v x _ := h.store rfl v x
  swap e d _ := by
    have same : a.carrier.same e e = true := decide_eq_true rfl
    have gives := h.cas legal .weak e d e
    rw [if_pos same, if_pos same] at gives
    exact gives
  refuse {e x} other d _ := by
    have different : ¬a.carrier.same x e = true := mt (Carrier.same_iff h.faithful x e).mp other
    have gives := h.cas legal .weak e d x
    rw [if_neg different, if_neg different] at gives
    exact gives

/-- The access that a write comes to on the selected machine. -/
def Write.event (c : Carrier T W) (orders : CasOrders) : Write T → Event W
  | .store v => .store (c.toWord v) .relaxed
  | .swap e d => .cas .strong (c.toWord e) (c.toWord d) orders.success.toHardware.toMemory
    orders.failure.toHardware.toMemory true

/-- The cell is left alone, and the writes among its accesses are those of the log. -/
def Writes {w : Nat} (c : Carrier T (BitVec w)) (orders : CasOrders) (cell : Cell (BitVec w))
    (x : T × List (Write T)) : Prop :=
  cell.Quiet (c.toWord x.1) ∧ cell.trace.filter Event.writes = x.2.map (Write.event c orders)

section Selected

variable {w : Nat} {c : Carrier T (BitVec w)} {orders : CasOrders}

theorem selected_load {o : MemoryOrder} (legal : o.legalForLoad) (cell : Cell (BitVec w)) :
    (selected c).load o cell = .ok (c.ofWord cell.value)
      { cell with trace := cell.trace ++ [.load o.toHardware.toMemory] } := by
  rw [load_of_legal _ legal]
  exact Access.bind_ok (Native.strict_allows.load_eq legal cell)

theorem selected_cas (legal : orders.Legal) (e d : T) (cell : Cell (BitVec w)) :
    (selected c).cas .weak e d orders cell =
      .ok (if cell.stores .strong (c.toWord e) then ⟨true, e⟩ else ⟨false, c.ofWord cell.found⟩)
        ⟨if cell.stores .strong (c.toWord e) then c.toWord d else cell.found, cell.script.tail,
          cell.trace ++ [.cas .strong (c.toWord e) (c.toWord d) orders.success.toHardware.toMemory
            orders.failure.toHardware.toMemory (cell.stores .strong (c.toWord e))]⟩ := by
  have ended := Native.strict_allows.compareExchange_eq (legalForLoad_of_legal legal) .strong
    (c.toWord e) (c.toWord d) orders.success.toHardware cell
  rw [cas_of_legal _ legal]
  refine (Access.bind_ok ended).trans ?_
  cases cell.stores .strong (c.toWord e) <;> rfl

theorem selected_logged (faithful : c.Faithful) (legal : orders.Legal) :
    (selected c).Logged (Writes c orders) orders where
  load {o} ok x log := by
    rintro cell ⟨⟨value, quiet⟩, writes⟩
    have back : c.ofWord cell.value = x := (congrArg c.ofWord value).trans (faithful x)
    have ended := selected_load (c := c) ok cell
    rw [back] at ended
    refine ⟨_, ended, ⟨value, quiet⟩, ?_⟩
    rw [List.filter_append, writes]
    exact List.append_nil _
  store v x log := by
    rintro cell ⟨⟨value, quiet⟩, writes⟩
    refine ⟨{ cell with value := c.toWord v, trace := cell.trace ++ [.store (c.toWord v) .relaxed] },
      rfl, ⟨rfl, quiet⟩, ?_⟩
    rw [List.filter_append, writes, List.map_append]
    rfl
  swap e d log := by
    rintro cell ⟨⟨value, quiet⟩, writes⟩
    have stores : cell.stores .strong (c.toWord e) = true :=
      (cell.stores_strong _).mpr ((Cell.found_nil quiet).trans value)
    have ended := selected_cas (c := c) legal e d cell
    rw [stores] at ended
    refine ⟨_, ended, ⟨rfl, ?_⟩, ?_⟩
    · rw [quiet]
      rfl
    · rw [List.filter_append, writes, List.map_append]
      rfl
  refuse {e x} other d log := by
    rintro cell ⟨⟨value, quiet⟩, writes⟩
    have found : cell.found = c.toWord x := (Cell.found_nil quiet).trans value
    have refuses : cell.stores .strong (c.toWord e) = false := by
      refine Bool.eq_false_iff.mpr fun stores => other ?_
      have words : c.toWord x = c.toWord e := found.symm.trans ((cell.stores_strong _).mp stores)
      exact Function.LeftInverse.injective faithful words
    have back : c.ofWord cell.found = x := (congrArg c.ofWord found).trans (faithful x)
    have ended := selected_cas (c := c) legal e d cell
    rw [refuses, back] at ended
    refine ⟨_, ended, ⟨found, ?_⟩, ?_⟩
    · rw [quiet]
      rfl
    · rw [List.filter_append, writes]
      exact List.append_nil _

end Selected

end Atomic

/-! ### Values -/

namespace ValueType

open Atomic (Updated followVariable updateOrders written)

variable {t : ValueType} {k : CellKind t.bits}

/-- The cells that keep values start at rest, and their operations act as on a variable. -/
theorem Keeps.plain (keeps : t.Keeps k) : ∃ rest ops, k.interface.exchangeOps = some ops ∧
    ops.Plain rest ∧ (∀ v, rest (k.fresh v) v) ∧ ∀ {s x}, rest s x → k.value s = x := by
  cases keeps with
  | word full =>
    obtain ⟨rest, cell⟩ := full.plain
    obtain ⟨ops, interface, plain⟩ := cell.integral
    refine ⟨rest, ops.toExchange, ?_, plain.toExchange, cell.fresh, cell.value⟩
    rw [interface]
    rfl
  | pair =>
    exact ⟨Cell.Quiet, _, rfl, DoubleSwap.plain_machine Native.plain_strict _, fun _ => ⟨rfl, rfl⟩,
      fun hs => hs.1⟩

/-- A fetch-and-update on a cell of values. -/
abbrev update (setOrder fetchOrder : MemoryOrder) (attempts : List (Attempt t.Value)) : Operation t :=
  .basic (.fetchUpdate setOrder fetchOrder attempts)

theorem run_update {ops : Exchange k.State (BitVec t.bits)}
    (level : k.interface.exchangeOps = some ops) {setOrder fetchOrder : MemoryOrder}
    (legal : fetchOrder.legalForLoad)
    {rest : k.State → t.Value × List (Atomic.Write t.Value) → Prop}
    (logged : (Atomic.mk ops t.carrier).Logged rest (updateOrders setOrder fetchOrder))
    (attempts : List (Attempt t.Value)) {v : t.Value} {s : k.State} (start : rest s (v, [])) :
    ∃ result seen left s', followVariable t.carrier.same attempts [] v v = ((result, seen), left) ∧
      (update setOrder fetchOrder attempts).run k s =
        (s', some (.ok (.updated result seen)), t.carrier.ofWord (k.value s')) ∧
      rest s' (left, written attempts result seen left) ∧ Updated attempts v result seen left := by
  obtain ⟨result, seen, left, follows, gives, updated⟩ :=
    logged.fetchUpdateWith (Carrier.same_iff t.faithful_carrier) legal rfl attempts v
  obtain ⟨s', ended, log⟩ := (gives.map fun r => Atomic.Reply.updated r.1 r.2) s start
  refine ⟨result, seen, left, s', follows, ?_, log, updated⟩
  have performed : (update setOrder fetchOrder attempts).perform? k =
      some ((Atomic.mk ops t.carrier).perform (.fetchUpdate setOrder fetchOrder attempts)) := by
    rw [Operation.perform?, level, Option.map_some]
  have ended : (Atomic.mk ops t.carrier).perform (.fetchUpdate setOrder fetchOrder attempts) s =
      .ok (.updated result seen) s' := ended
  simp only [Operation.run, performed, ended]

/-- Fetch-and-update ends on every cell of values, whatever its closure stores on the way, and has then
run the course of an update on a condition. On the selected machine, all that it writes beside what the
closure stores is the new value, once and last, or nothing. -/
theorem fetch_update_stores_on_shown (t : ValueType) (v : t.Value) (setOrder : MemoryOrder)
    {fetchOrder : MemoryOrder} (legal : fetchOrder.legalForLoad) (attempts : List (Attempt t.Value)) :
    ∃ result seen left,
      (∀ k, t.Keeps k → ((update setOrder fetchOrder attempts).run k
        (k.fresh (t.carrier.toWord v))).2 = (some (.ok (.updated result seen)), left)) ∧
      Updated attempts v result seen left ∧
      let selected : CellKind t.bits := Backend.selected.full Native.strict
      let cell : Cell (BitVec t.bits) := ((update setOrder fetchOrder attempts).run selected
        (selected.fresh (t.carrier.toWord v))).1
      cell.trace.filter Event.writes = (written attempts result seen left).map
        (Atomic.Write.event t.carrier (updateOrders setOrder fetchOrder)) := by
  have orders := Atomic.updateOrders_legal setOrder fetchOrder
  let selected : CellKind t.bits := Backend.selected.full Native.strict
  have start : Atomic.Writes t.carrier (updateOrders setOrder fetchOrder)
      (⟨t.carrier.toWord v, [], []⟩ : Cell (BitVec t.bits)) (v, []) := ⟨⟨rfl, rfl⟩, rfl⟩
  have logged := Atomic.selected_logged t.faithful_carrier orders
  obtain ⟨result, seen, left, cell, follows, ran, ⟨-, writes⟩, updated⟩ :=
    run_update (k := selected) rfl legal logged attempts start
  refine ⟨result, seen, left, fun k keeps => ?_, updated, ?_⟩
  · obtain ⟨rest, ops, level, plain, fresh, value⟩ := keeps.plain
    have atomic : (Atomic.mk ops t.carrier).Plain rest := ⟨plain, t.faithful_carrier⟩
    obtain ⟨result', seen', left', s', follows', ran', holds, -⟩ :=
      run_update level legal (atomic.logged orders) attempts (fresh (t.carrier.toWord v))
    obtain ⟨⟨rfl, rfl⟩, rfl⟩ : (result' = result ∧ seen' = seen) ∧ left' = left := by
      rw [follows'] at follows
      simpa using follows
    rw [ran', value holds, t.faithful_carrier]
  · rw [← writes]
    exact congrArg (fun r => List.filter Event.writes (Cell.trace r.1)) ran

/-- A signed byte in a word of the load-linked machine with the heaviest fences. The closure stores
another value on its first visit, and on the second one the value that it is shown. -/
theorem fetch_update_stores_on_shown_twice :
    let t : ValueType := .integer (.twosComplement 8) (by decide)
    let k : CellKind t.bits := Backend.alpha.embedded 8
    let number (i : Int) : t.Value := .wrap _ i
    let attempts : List (Attempt t.Value) :=
      [⟨some (number 5), some (number 6)⟩, ⟨some (number 5), some (number (-9))⟩]
    MemoryOrder.acquire.legalForLoad ∧ t.Keeps k ∧ ∃ result seen left,
      ((update .release .acquire attempts).run k (k.fresh (t.carrier.toWord (number 3)))).2 =
          (some (.ok (.updated result seen)), left) ∧
        Updated attempts (number 3) result seen left := by
  intro t k number attempts
  have keeps : t.Keeps k := .word (.small .alpha (by decide))
  have legal : MemoryOrder.acquire.legalForLoad := rfl
  obtain ⟨result, seen, left, ran, updated, -⟩ :=
    fetch_update_stores_on_shown t (number 3) .release legal attempts
  exact ⟨legal, keeps, result, seen, left, ran k keeps, updated⟩

example :
    let t : ValueType := .integer (.twosComplement 8) (by decide)
    let k : CellKind t.bits := Backend.alpha.embedded 8
    let number (i : Int) : t.Value := .wrap _ i
    let attempts : List (Attempt t.Value) :=
      [⟨some (number 5), some (number 6)⟩, ⟨some (number 5), some (number (-9))⟩]
    ((update .release .acquire attempts).run k (k.fresh (t.carrier.toWord (number 3)))).2 =
      (some (.ok (.updated (.ok (number 5)) [number 3, number 5])), number (-9)) := rfl

end ValueType

end OrderedAtomics
