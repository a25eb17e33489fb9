import OrderedAtomics.Proofs.Alone
import OrderedAtomics.Proofs.Ring.Window

/-! A ring in the hands of one thread, which may use it as a whole or through its two ends. It is
the list of its elements, with room for one less than there are slots. No step of a call leaves the
range of machine words or takes an element from outside the window. -/

namespace OrderedAtomics.Ring

variable {α : Type} {r r₁ : Ring α} {slots : Nat} {vs : List α} {v : α}

/-! ### What there is to do -/

/-- A call in a role that may make it, the question for the capacity, or a reset. -/
inductive Use (α : Type) where
  | call (role : Role) (call : Call α) (may : role.may call = true)
  | capacity
  | reset

inductive Outcome (α : Type) where
  | reply (r : Reply α)
  /-- Elements that are dropped, in this order. -/
  | dropped (vs : List α)
  deriving DecidableEq

def perform (r : Ring α) : Use α → Ring α × Option (Outcome α)
  | .call role c _ =>
    let (r, answer) := r.call role c
    (r, answer.map .reply)
  | .capacity => (r, some (.reply (.count r.capacity)))
  | .reset =>
    let (vs, r) := r.reset
    (r, some (.dropped vs))

/-- What a call does to a list, oldest element first, that is full with one element less than there
are slots. -/
def Call.onList (slots : Nat) (vs : List α) : Call α → List α × Reply α
  | .enqueue v => if vs.length < slots - 1 then (vs ++ [v], .accepted) else (vs, .rejected v)
  | .dequeue =>
    match vs with
    | [] => ([], .nothing)
    | v :: vs => (vs, .item v)
  | .len => (vs, .count vs.length)
  | .isEmpty => (vs, .truth (vs.length = 0))
  | .isFull => (vs, .truth (vs.length = slots - 1))

def Use.onList (slots : Nat) (vs : List α) : Use α → List α × Outcome α
  | .call _ c _ =>
    let (vs, reply) := c.onList slots vs
    (vs, .reply reply)
  | .capacity => (vs, .reply (.count (slots - 1)))
  | .reset => ([], .dropped vs)

/-! ### The steps of a use -/

/-- The steps of a call, each in the state that it is made in. -/
def visits (r : Ring α) (role : Role) (c : Call α) : List (Ring α × Point α) :=
  match protocol.enter role c with
  | none => []
  | some (role, point) => protocol.visits soloSteps r role point

/-- The steps of taking out elements, at most `n` of them. -/
def drainVisits : Nat → Ring α → List (Ring α × Point α)
  | 0, _ => []
  | n + 1, r =>
    r.visits .owner .dequeue ++
      match r.dequeue with
      | (some _, r) => drainVisits n r
      | (none, _) => []

def Use.visits (r : Ring α) : Use α → List (Ring α × Point α)
  | .call role c _ => r.visits role c
  | .capacity => []
  | .reset => drainVisits r.slots.size r

/-! ### Arithmetic in machine words -/

def checkedAdd (a b : Nat) : Option Nat := if a + b < indexLimit then some (a + b) else none

def checkedSub (a b : Nat) : Option Nat := if b ≤ a then some (a - b) else none

/-- The index after an index, if the machine can compute it. -/
def nextIndex? (index slots : Nat) : Option Nat := do
  let next ← checkedAdd index 1
  return if next = slots then 0 else next

/-- The elements between two indices, if the machine can compute them. -/
def distance? (write read slots : Nat) : Option Nat :=
  if read ≤ write then checkedSub write read else do checkedAdd (← checkedSub slots read) write

theorem nextIndex?_eq {index : Nat} (h : index < slots) (machine : slots < indexLimit) :
    nextIndex? index slots = some (nextIndex index slots) := by
  have fits : index + 1 < indexLimit := by omega
  simp only [nextIndex?, checkedAdd, if_pos fits]
  rfl

theorem distance?_eq {write read : Nat} (hr : read < slots) (machine : slots < indexLimit) :
    distance? write read slots = some (distance write read slots) := by
  unfold distance? distance
  split_ifs with h
  · exact if_pos h
  · have fits : slots - read + write < indexLimit := by omega
    simp only [checkedSub, if_pos (Nat.le_of_lt hr), Option.bind_eq_bind, Option.bind_some,
      checkedAdd, if_pos fits]

/-! ### Safe steps -/

/-- The slot is one of those from `read` on up to `write`, which may go round the end. -/
def InWindow (r : Ring α) (i : Nat) : Prop :=
  if r.read ≤ r.write then r.read ≤ i ∧ i < r.write else r.read ≤ i ∨ i < r.write

/-- The machine can compute what the step computes. -/
def Computable (r : Ring α) : Point α → Prop
  | .checkRead _ index | .fullRead index | .empty index =>
    nextIndex? index r.slots.size = some (nextIndex index r.slots.size)
  | .lenRead write =>
    distance? write r.read r.slots.size = some (distance write r.read r.slots.size)
  | _ => True

/-- What is so when a step is made in a buffer with a number of slots. -/
structure Safe (slots : Nat) (r : Ring α) (point : Point α) : Prop where
  size : r.slots.size = slots
  write_lt : r.write < slots
  read_lt : r.read < slots
  computable : r.Computable point
  /-- An element is only taken from a slot in the window, and there is one in it. -/
  taken : ∀ i, point = .empty i → i < slots ∧ r.InWindow i ∧ (r.slot i).isSome

/-! ### Calls without interference -/

section Calls

variable {role : Role}

theorem call_eq {c : Call α} {reply : Reply α} {visited : List (Ring α × Point α)}
    (may : role.may c = true) (course : protocol.Course r role (enter c) visited r₁ role reply)
    (enough : visited.length ≤ soloSteps) :
    r.call role c = (r₁, some reply) ∧ r.visits role c = visited := by
  have entered : protocol.enter role c = some (role, enter c) := if_pos may
  constructor
  · simp only [call, course.alone_eq entered enough, Option.map_some]
  · simp only [visits, entered, course.visits_eq enough]

theorem call_enqueue_of_full (may : role.may (.enqueue v) = true)
    (full : nextIndex r.write r.slots.size = r.read) :
    r.call role (.enqueue v) = (r, some (.rejected v)) ∧
      r.visits role (.enqueue v) = [(r, .loadWrite v), (r, .checkRead v r.write)] := by
  have refused : protocol.step false r role (.checkRead v r.write) =
      (r, role, .inr (.rejected v)) := by
    simp only [protocol, step, if_pos full]
  exact call_eq may (.step rfl rfl <| .reply rfl refused) (by simp [soloSteps])

/-- The element is written behind the window, which then comes to include it. -/
theorem call_enqueue (may : role.may (.enqueue v) = true)
    (room : nextIndex r.write r.slots.size ≠ r.read) :
    let next := nextIndex r.write r.slots.size
    let filled := r.setSlot r.write (some v)
    r.call role (.enqueue v) = (filled.setWrite next, some .accepted) ∧
      r.visits role (.enqueue v) = [(r, .loadWrite v), (r, .checkRead v r.write),
        (r, .fill v r.write next), (filled, .storeWrite next)] := by
  intro next filled
  have checked : protocol.step false r role (.checkRead v r.write) =
      (r, role, .inl (.fill v r.write next)) := by
    simp only [protocol, step, if_neg room, next]
  exact call_eq may (.step rfl rfl <| .step rfl checked <| .step rfl rfl <| .reply rfl rfl)
    (by simp [soloSteps])

theorem call_dequeue_of_empty (may : role.may (.dequeue : Call α) = true)
    (empty : r.read = r.write) :
    r.call role .dequeue = (r, some .nothing) ∧
      r.visits role .dequeue = [(r, .loadRead), (r, .checkWrite r.read)] := by
  have checked : protocol.step false r role (.checkWrite r.read) = (r, role, .inr .nothing) := by
    simp only [protocol, step, if_pos empty]
  exact call_eq may (.step rfl rfl <| .reply rfl checked) (by simp [soloSteps])

/-- The first slot of the window is emptied and then leaves it. -/
theorem call_dequeue (may : role.may (.dequeue : Call α) = true) (nonempty : r.read ≠ r.write)
    (stored : r.slot r.read = some v) :
    let next := nextIndex r.read r.slots.size
    let emptied := r.setSlot r.read none
    r.call role .dequeue = (emptied.setRead next, some (.item v)) ∧
      r.visits role .dequeue = [(r, .loadRead), (r, .checkWrite r.read), (r, .empty r.read),
        (emptied, .storeRead next (some v))] := by
  intro next emptied
  have checked : protocol.step false r role (.checkWrite r.read) =
      (r, role, .inl (.empty r.read)) := by
    simp only [protocol, step, if_neg nonempty]
  have taken : protocol.step false r role (.empty r.read) =
      (emptied, role, .inl (.storeRead next (some v))) := by
    simp only [protocol, step, stored, next, emptied]
  exact call_eq may (.step rfl rfl <| .step rfl checked <| .step rfl taken <| .reply rfl rfl)
    (by simp [soloSteps])

theorem call_len (may : role.may (.len : Call α) = true) :
    r.call role .len = (r, some (.count r.len)) ∧
      r.visits role .len = [(r, .lenWrite), (r, .lenRead r.write)] :=
  call_eq may (.step rfl rfl <| .reply rfl rfl) (by simp [soloSteps])

theorem call_isEmpty (may : role.may (.isEmpty : Call α) = true) :
    r.call role .isEmpty = (r, some (.truth r.isEmpty)) ∧
      r.visits role .isEmpty = [(r, .emptyRead), (r, .emptyWrite r.read)] :=
  call_eq may (.step rfl rfl <| .reply rfl rfl) (by simp [soloSteps])

theorem call_isFull (may : role.may (.isFull : Call α) = true) :
    r.call role .isFull = (r, some (.truth r.isFull)) ∧
      r.visits role .isFull = [(r, .fullWrite), (r, .fullRead r.write)] :=
  call_eq may (.step rfl rfl <| .reply rfl rfl) (by simp [soloSteps])

end Calls

/-! ### Between two uses -/

/-- Between two uses the elements are all in the window. -/
structure Settled (slots : Nat) (r : Ring α) (vs : List α) : Prop where
  holding : r.Holding vs 0
  size : r.slots.size = slots
  machine : slots < indexLimit

/-- A call, or another use, went as on the list: it got the same answer and left the same elements,
and all its steps were safe. -/
structure Went {ρ : Type} (slots : Nat) (visited : List (Ring α × Point α))
    (reached : Ring α × Option ρ) (expected : List α × ρ) : Prop where
  answer : reached.2 = some expected.2
  settled : Settled slots reached.1 expected.1
  safe : ∀ visit ∈ visited, Safe slots visit.1 visit.2

namespace Settled

theorem length_lt (h : Settled slots r vs) : vs.length < slots := by
  rw [← h.size]
  exact h.holding.fits

theorem full_iff (h : Settled slots r vs) :
    nextIndex r.write r.slots.size = r.read ↔ ¬ vs.length < slots - 1 := by
  have fits := h.length_lt
  rw [h.holding.nextIndex_eq_read, h.size]
  omega

theorem len_eq (h : Settled slots r vs) : r.len = vs.length := h.holding.distance_eq

theorem isEmpty_eq (h : Settled slots r vs) : r.isEmpty = decide (vs.length = 0) := by
  rw [isEmpty, Bool.eq_iff_iff, beq_iff_eq, decide_eq_true_iff, h.holding.read_eq_write,
    List.length_eq_zero_iff]

theorem isFull_eq (h : Settled slots r vs) : r.isFull = decide (vs.length = slots - 1) := by
  have fits := h.length_lt
  rw [isFull, Bool.eq_iff_iff, beq_iff_eq, decide_eq_true_iff, h.full_iff]
  omega

theorem capacity_eq (h : Settled slots r vs) : r.capacity = slots - 1 := by rw [capacity, h.size]

theorem write_lt (h : Settled slots r vs) : r.write < slots := by
  rw [← h.size]
  exact h.holding.write_lt

theorem read_lt (h : Settled slots r vs) : r.read < slots := by
  rw [← h.size]
  exact h.holding.read_lt

theorem safe (h : Settled slots r vs) {point : Point α} (computable : r.Computable point)
    (quiet : ∀ i, point ≠ .empty i) : Safe slots r point :=
  ⟨h.size, h.write_lt, h.read_lt, computable, fun i e => absurd e (quiet i)⟩

/-- A slot has been written and an index is about to follow. -/
theorem safe_setSlot (h : Settled slots r vs) (i : Nat) (o : Option α) {point : Point α}
    (computable : (r.setSlot i o).Computable point) (quiet : ∀ i, point ≠ .empty i) :
    Safe slots (r.setSlot i o) point :=
  ⟨(size_setSlot r i o).trans h.size, h.write_lt, h.read_lt, computable,
    fun i e => absurd e (quiet i)⟩

theorem nextIndex?_write (h : Settled slots r vs) :
    nextIndex? r.write r.slots.size = some (nextIndex r.write r.slots.size) :=
  nextIndex?_eq h.holding.write_lt (by rw [h.size]; exact h.machine)

theorem safe_empty (h : Settled slots r (v :: vs)) : Safe slots r (.empty r.read) := by
  refine ⟨h.size, h.write_lt, h.read_lt,
    nextIndex?_eq h.holding.read_lt (by rw [h.size]; exact h.machine), ?_⟩
  rintro i ⟨⟩
  have apart : r.read ≠ r.write := fun e => List.cons_ne_nil _ _ (h.holding.read_eq_write.mp e)
  refine ⟨h.read_lt, ?_, by rw [h.holding.slot_read]; rfl⟩
  unfold InWindow
  split_ifs with le
  · omega
  · exact .inl (Nat.le_refl _)

variable {role : Role}

theorem enqueue (h : Settled slots r vs) (may : role.may (.enqueue v) = true) :
    Went slots (r.visits role (.enqueue v)) (r.call role (.enqueue v))
      ((Call.enqueue v).onList slots vs) := by
  have loads : Safe slots r (.loadWrite v) := h.safe trivial (by simp)
  have checks : Safe slots r (.checkRead v r.write) := h.safe h.nextIndex?_write (by simp)
  by_cases room : vs.length < slots - 1
  · obtain ⟨called, visited⟩ := call_enqueue may fun full => h.full_iff.mp full room
    have filled := h.holding.fill v
    have more : vs.length + 1 < (r.setSlot r.write (some v)).slots.size := by
      rw [size_setSlot, h.size]
      omega
    have stored : (r.setSlot r.write (some v)).slot r.write = some v := by
      rw [slot_setSlot h.holding.write_lt, Function.update_self]
    have published := filled.publish more stored
    rw [size_setSlot] at published
    have fills : Safe slots r (.fill v r.write (nextIndex r.write r.slots.size)) :=
      h.safe trivial (by simp)
    have stores : Safe slots (r.setSlot r.write (some v))
        (.storeWrite (nextIndex r.write r.slots.size)) := h.safe_setSlot _ _ trivial (by simp)
    rw [called, visited, Call.onList, if_pos room]
    refine ⟨rfl, ⟨published, (size_setSlot ..).trans h.size, h.machine⟩, ?_⟩
    exact List.forall_mem_cons.mpr ⟨loads, List.forall_mem_cons.mpr ⟨checks,
      List.forall_mem_cons.mpr ⟨fills, List.forall_mem_singleton.mpr stores⟩⟩⟩
  · obtain ⟨called, visited⟩ := call_enqueue_of_full may (h.full_iff.mpr room)
    rw [called, visited, Call.onList, if_neg room]
    exact ⟨rfl, h, List.forall_mem_cons.mpr ⟨loads, List.forall_mem_singleton.mpr checks⟩⟩

theorem dequeue (h : Settled slots r vs) (may : role.may (.dequeue : Call α) = true) :
    Went slots (r.visits role .dequeue) (r.call role .dequeue) (Call.dequeue.onList slots vs) := by
  have loads : Safe slots r (.loadRead : Point α) := h.safe trivial (by simp)
  have checks : Safe slots r (.checkWrite r.read) := h.safe trivial (by simp)
  cases vs with
  | nil =>
    obtain ⟨called, visited⟩ := call_dequeue_of_empty may (h.holding.read_eq_write.mpr rfl)
    rw [called, visited]
    exact ⟨rfl, h, List.forall_mem_cons.mpr ⟨loads, List.forall_mem_singleton.mpr checks⟩⟩
  | cons v vs =>
    have apart : r.read ≠ r.write := fun e => List.cons_ne_nil _ _ (h.holding.read_eq_write.mp e)
    obtain ⟨called, visited⟩ := call_dequeue may apart h.holding.slot_read
    have released := h.holding.empty.release
    rw [size_setSlot] at released
    have stores : Safe slots (r.setSlot r.read none)
        (.storeRead (nextIndex r.read r.slots.size) (some v)) :=
      h.safe_setSlot _ _ trivial (by simp)
    rw [called, visited]
    refine ⟨rfl, ⟨released, (size_setSlot ..).trans h.size, h.machine⟩, ?_⟩
    exact List.forall_mem_cons.mpr ⟨loads, List.forall_mem_cons.mpr ⟨checks,
      List.forall_mem_cons.mpr ⟨h.safe_empty, List.forall_mem_singleton.mpr stores⟩⟩⟩

/-- A call that only looks makes two steps, and changes nothing. -/
theorem looks {c : Call α} {point₁ point₂ : Point α} {reply : Reply α} (h : Settled slots r vs)
    (asked : r.call role c = (r, some reply) ∧ r.visits role c = [(r, point₁), (r, point₂)])
    (safe₁ : Safe slots r point₁) (safe₂ : Safe slots r point₂) :
    Went slots (r.visits role c) (r.call role c) (vs, reply) := by
  rw [asked.1, asked.2]
  exact ⟨rfl, h, List.forall_mem_cons.mpr ⟨safe₁, List.forall_mem_singleton.mpr safe₂⟩⟩

theorem call (h : Settled slots r vs) (c : Call α) (may : role.may c = true) :
    Went slots (r.visits role c) (r.call role c) (c.onList slots vs) := by
  cases c with
  | enqueue v => exact h.enqueue may
  | dequeue => exact h.dequeue may
  | len =>
    have computable : distance? r.write r.read r.slots.size =
        some (distance r.write r.read r.slots.size) :=
      distance?_eq h.holding.read_lt (by rw [h.size]; exact h.machine)
    have went := h.looks (call_len may) (h.safe trivial (by simp)) (h.safe computable (by simp))
    rwa [h.len_eq] at went
  | isEmpty =>
    have went := h.looks (call_isEmpty may) (h.safe trivial (by simp)) (h.safe trivial (by simp))
    rwa [h.isEmpty_eq] at went
  | isFull =>
    have went := h.looks (call_isFull may) (h.safe trivial (by simp))
      (h.safe h.nextIndex?_write (by simp))
    rwa [h.isFull_eq] at went

end Settled

/-! ### Whole functions -/

theorem enqueue_of_accepted (h : (r.call .owner (.enqueue v)).2 = some .accepted) :
    r.enqueue v = (none, (r.call .owner (.enqueue v)).1) := by
  have called : r.call .owner (.enqueue v) = ((r.call .owner (.enqueue v)).1, some .accepted) :=
    Prod.ext rfl h
  rw [Ring.enqueue, called]

theorem dequeue_of_item (h : (r.call .owner .dequeue).2 = some (.item v)) :
    r.dequeue = (some v, (r.call .owner .dequeue).1) := by
  have called : r.call .owner .dequeue = ((r.call .owner .dequeue).1, some (.item v)) :=
    Prod.ext rfl h
  rw [Ring.dequeue, called]

theorem dequeue_of_nothing (h : (r.call .owner .dequeue).2 = some .nothing) :
    r.dequeue = (none, (r.call .owner .dequeue).1) := by
  have called : r.call .owner .dequeue = ((r.call .owner .dequeue).1, some .nothing) :=
    Prod.ext rfl h
  rw [Ring.dequeue, called]

/-- All elements are taken out in their order, by as many calls as there are elements and one. -/
theorem Settled.drain {n : Nat} (h : Settled slots r vs) (enough : vs.length ≤ n) :
    (takeElements n r).1 = vs ∧ Settled slots (takeElements n r).2 [] ∧
      ∀ visit ∈ drainVisits n r, Safe slots visit.1 visit.2 := by
  induction n generalizing r vs with
  | zero =>
    obtain rfl : vs = [] := List.eq_nil_of_length_eq_zero (Nat.le_zero.mp enough)
    exact ⟨rfl, h, fun _ none => absurd none List.not_mem_nil⟩
  | succ n ih =>
    obtain ⟨answer, settled, safe⟩ := @Settled.dequeue α r slots vs .owner h rfl
    cases vs with
    | nil =>
      have taken := dequeue_of_nothing answer
      rw [takeElements, drainVisits, taken]
      refine ⟨rfl, settled, ?_⟩
      rwa [List.append_nil]
    | cons v vs =>
      have taken := dequeue_of_item answer
      obtain ⟨rest, empty, later⟩ := ih settled (Nat.le_of_succ_le_succ enough)
      rw [takeElements, drainVisits, taken]
      refine ⟨congrArg _ rest, empty, fun visit member => ?_⟩
      exact (List.mem_append.mp member).elim (safe visit) (later visit)

/-- Without elements it does not matter where the window begins. -/
theorem Settled.rewind (h : Settled slots r []) : Settled slots ((r.setWrite 0).setRead 0) [] := by
  have positive : 0 < r.slots.size := Nat.zero_lt_of_lt h.holding.read_lt
  exact ⟨⟨positive, positive, (Nat.zero_mod _).symm, by simp⟩, h.size, h.machine⟩

/-- Every use goes as on the list. -/
theorem Settled.use (h : Settled slots r vs) (u : Use α) :
    Went slots (u.visits r) (r.perform u) (u.onList slots vs) := by
  cases u with
  | call role c may =>
    have went := h.call c may
    exact ⟨congrArg (Option.map Outcome.reply) went.answer, went.settled, went.safe⟩
  | capacity =>
    have answer : some (Outcome.reply (.count r.capacity : Reply α)) = _ :=
      congrArg (fun n => some (Outcome.reply (.count n))) h.capacity_eq
    exact ⟨answer, h, fun _ none => absurd none List.not_mem_nil⟩
  | reset =>
    have enough : vs.length ≤ r.slots.size := Nat.le_of_lt h.holding.fits
    obtain ⟨all, empty, safe⟩ := h.drain enough
    exact ⟨congrArg (fun vs => some (Outcome.dropped vs)) all, empty.rewind, safe⟩

/-! ### Runs -/

/-- A new buffer with a number of slots: one that is made with its slots, or for a number of
elements, which takes one slot more. -/
inductive New : Nat → Ring α → Prop
  | inline {slots : Nat} (least : 2 ≤ slots) (machine : slots < indexLimit) :
      New slots (ofSlots slots)
  | dynamic {capacity : Nat} {value : Footprint} {r : Ring α} {notice : Notice}
      (made : withCapacity capacity value = .ok (r, notice)) : New (capacity + 1) r

theorem New.settled (h : New slots r) : Settled slots r [] := by
  have blank {slots : Nat} (positive : 0 < slots) (machine : slots < indexLimit) :
      Settled slots (ofSlots slots : Ring α) [] :=
    ⟨holding_ofSlots positive, by simp [ofSlots], machine⟩
  cases h with
  | inline least machine => exact blank (by omega) machine
  | @dynamic capacity value _ notice made =>
    unfold withCapacity at made
    split_ifs at made with zero large
    cases made
    rw [Bool.or_eq_true, not_or, decide_eq_true_iff, decide_eq_true_iff, Nat.not_le, Nat.not_le] at large
    exact blank (Nat.succ_pos _) large.2

/-- What the functions on a buffer answer whose elements are those of a list. -/
structure Answering (slots : Nat) (r : Ring α) (vs : List α) : Prop where
  accept : vs.length < slots - 1 → ∀ v, (r.enqueue v).1 = none
  /-- A buffer that refuses an element stays as it was. -/
  refuse : ¬ vs.length < slots - 1 → ∀ v, r.enqueue v = (some v, r)
  dequeue : r.dequeue.1 = vs.head?
  len : r.len = vs.length
  isEmpty : r.isEmpty = true ↔ r.len = 0
  isFull : r.isFull = true ↔ r.len = r.capacity
  capacity : r.capacity = slots - 1
  reset : r.reset.1 = vs

theorem Settled.answering (h : Settled slots r vs) : Answering slots r vs where
  accept room v := by
    obtain ⟨answer, -, -⟩ := @Settled.enqueue α r slots vs v .owner h rfl
    rw [Call.onList, if_pos room] at answer
    rw [enqueue_of_accepted answer]
  refuse full v := by
    obtain ⟨called, -⟩ := @call_enqueue_of_full α r v .owner rfl (h.full_iff.mpr full)
    rw [Ring.enqueue, called]
  dequeue := by
    obtain ⟨answer, -, -⟩ := @Settled.dequeue α r slots vs .owner h rfl
    cases vs with
    | nil => rw [dequeue_of_nothing answer]; rfl
    | cons v vs => rw [dequeue_of_item answer]; rfl
  len := h.len_eq
  isEmpty := by rw [h.isEmpty_eq, h.len_eq, decide_eq_true_iff]
  isFull := by rw [h.isFull_eq, h.len_eq, h.capacity_eq, decide_eq_true_iff]
  capacity := h.capacity_eq
  reset := (h.drain (Nat.le_of_lt h.holding.fits)).1

/-- A new buffer that is used by one thread, or by one at a time, answers as a list does that is
full with one element less than there are slots. Whatever it has been used for, all steps of the
next use are safe. -/
theorem acts_as_bounded_deque (new : New slots r) (uses : List (Use α)) :
    let reached := inTurn perform r uses
    let expected := inTurn (Use.onList slots) [] uses
    reached.2 = expected.2.map some ∧ Answering slots reached.1 expected.1 ∧
      ∀ u : Use α, ∀ visit ∈ u.visits reached.1, Safe slots visit.1 visit.2 := by
  intro reached expected
  have step (u : Use α) (_ : u ∈ uses) (r : Ring α) (vs : List α) (h : Settled slots r vs) :
      (perform r u).2 = some (Use.onList slots vs u).2 ∧
        Settled slots (perform r u).1 (Use.onList slots vs u).1 := by
    have went := h.use u
    exact ⟨went.answer, went.settled⟩
  obtain ⟨answers, settled⟩ := inTurn_alike step new.settled
  exact ⟨answers, settled.answering, fun u => (settled.use u).safe⟩

/-- A buffer for two elements, filled and emptied round the end of its three slots. -/
theorem acts_as_bounded_deque_round_the_end : ∃ r : Ring Nat,
    withCapacity 2 = .ok (r, .ringCreated 2) ∧
    let uses : List (Use Nat) := [.call .producer (.enqueue 10) rfl, .call .owner (.enqueue 20) rfl,
      .call .producer .isFull rfl, .call .producer (.enqueue 30) rfl, .call .consumer .dequeue rfl,
      .call .producer (.enqueue 40) rfl, .call .consumer .len rfl, .reset, .capacity,
      .call .consumer .isEmpty rfl, .call .owner .dequeue rfl]
    (inTurn perform r uses).2 = [.reply .accepted, .reply .accepted, .reply (.truth true),
      .reply (.rejected 30), .reply (.item 10), .reply .accepted, .reply (.count 2),
      .dropped [20, 40], .reply (.count 2), .reply (.truth true), .reply .nothing].map some :=
  ⟨_, rfl, (@acts_as_bounded_deque Nat _ 3 (@New.dynamic Nat 2 .text _ _ rfl) _).1⟩

end OrderedAtomics.Ring
