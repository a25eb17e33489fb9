import OrderedAtomics.Cell.LockTable
import OrderedAtomics.Proofs.Scripts

/-! Operations behind the lock table. Each lock is with the one thread that is at a point where it
has it, so operations on addresses that share a lock do not overlap, nor do sequentially consistent
ones on any addresses. As the global lock is only ever wanted by threads that have no other one, there
is always a thread that can go on. -/

namespace OrderedAtomics.LockTable

open Observed (arrived)
open Workload (Turned canMove isOver play scripted trail)

/-! ### Who has a lock -/

/-- A sequentially consistent operation has the global lock from its first step to its last. -/
def HasGlobal : Option Point → Prop
  | some ⟨op, stage⟩ => op.order = .seqCst ∧ stage ≠ .wantGlobal
  | none => False

def HasSlot (slot : Fin lockCount) : Option Point → Prop
  | some ⟨op, stage⟩ => lockIndex op.address = slot ∧ (stage = .inside ∨ stage = .leaveSlot)
  | none => False

/-- Only a sequentially consistent operation comes near the global lock. -/
def Proper : Option Point → Prop
  | some ⟨op, stage⟩ => stage = .wantGlobal ∨ stage = .leaveGlobal → op.order = .seqCst
  | none => True

/-- A lock is held by the thread that is where it has it. -/
def HeldBy (l : Lock) (has : Option Point → Prop) (threads : List (Thread Nat Point)) : Prop :=
  ∀ i : Nat, l.holder = some i ↔ ∃ u, threads[i]? = some u ∧ has u.point

/-- Every lock is with the thread that has it. -/
structure Guards (t : LockTable) (threads : List (Thread Nat Point)) : Prop where
  numbered : ∀ {i : Nat} {u : Thread Nat Point}, threads[i]? = some u → u.own = i
  proper : ∀ {i : Nat} {u : Thread Nat Point}, threads[i]? = some u → Proper u.point
  everywhere : HeldBy t.everywhere HasGlobal threads
  slots : ∀ slot, HeldBy (t.slots.get slot) (HasSlot slot) threads

section HeldBy

variable {l l' : Lock} {has : Option Point → Prop} {threads : List (Thread Nat Point)} {i : Nat}
  {u u' : Thread Nat Point}

/-- One thread moves, and the lock passes to or from it only. -/
theorem HeldBy.set (h : HeldBy l has threads) (here : threads[i]? = some u)
    (mine : l'.holder = some i ↔ has u'.point)
    (others : ∀ j, j ≠ i → (l'.holder = some j ↔ l.holder = some j)) :
    HeldBy l' has (threads.set i u') := by
  obtain ⟨hi, -⟩ := List.getElem?_eq_some_iff.mp here
  intro j
  by_cases hj : j = i
  · subst hj
    rw [mine, List.getElem?_set_self hi]
    simp
  · rw [others j hj, h j, List.getElem?_set_ne (Ne.symm hj)]

theorem HeldBy.here_iff (h : HeldBy l has threads) (here : threads[i]? = some u) :
    l.holder = some i ↔ has u.point := by
  rw [h i, here]
  simp

/-- The moving thread has the lock afterwards if it had it before. -/
theorem HeldBy.stay (h : HeldBy l has threads) (here : threads[i]? = some u)
    (same : has u.point ↔ has u'.point) : HeldBy l has (threads.set i u') :=
  h.set here ((h.here_iff here).trans same) fun _ _ => Iff.rfl

theorem HeldBy.take (h : HeldBy l has threads) (here : threads[i]? = some u)
    (unheld : l.holder = none) (taken : l'.holder = some i) (gets : has u'.point) :
    HeldBy l' has (threads.set i u') := by
  refine h.set here (iff_of_true taken gets) fun j hj => ?_
  rw [taken, unheld]
  exact iff_of_false (fun e => hj (Option.some.inj e).symm) nofun

theorem HeldBy.give (h : HeldBy l has threads) (here : threads[i]? = some u) (had : has u.point)
    (given : l'.holder = none) (lost : ¬has u'.point) : HeldBy l' has (threads.set i u') := by
  have held := (h.here_iff here).mpr had
  refine h.set here (iff_of_false (given ▸ nofun) lost) fun j hj => ?_
  rw [held, given]
  exact iff_of_false nofun fun e => hj (Option.some.inj e).symm

/-- Two threads that have the lock are one. -/
theorem HeldBy.unique (h : HeldBy l has threads) {j : Nat} (here : threads[i]? = some u)
    (mine : has u.point) (there : threads[j]? = some u') (other : has u'.point) : i = j :=
  Option.some.inj (((h.here_iff here).mpr mine).symm.trans ((h.here_iff there).mpr other))

end HeldBy

/-! ### Steps -/

/-- A thread gets a lock. -/
def grant (l : Lock) (thread : Nat) : Lock := { l with holder := some thread }

theorem acquire_eq_some {l l' : Lock} {thread : Nat} :
    l.acquire thread = some l' ↔ l.holder = none ∧ l' = grant l thread := by
  unfold Lock.acquire grant
  split <;> simp_all [eq_comm]

/-- All that a step of a thread can do: where it goes from, and where to. -/
inductive Passes (thread : Nat) (t : LockTable) : Point → LockTable → Option Point → Prop
  | takesGlobal {op : Operation} (unheld : t.everywhere.holder = none) :
    Passes thread t ⟨op, .wantGlobal⟩ ⟨grant t.everywhere thread, t.slots⟩ (some ⟨op, .wantSlot⟩)
  | takesSlot {op : Operation} (unheld : t.slots[lockIndex op.address].holder = none) :
    Passes thread t ⟨op, .wantSlot⟩
      ⟨t.everywhere, t.slots.set (lockIndex op.address) (grant t.slots[lockIndex op.address] thread)⟩
      (some ⟨op, .inside⟩)
  | works {op : Operation} : Passes thread t ⟨op, .inside⟩ t (some ⟨op, .leaveSlot⟩)
  | givesSlot {op : Operation} (more : op.order = .seqCst) :
    Passes thread t ⟨op, .leaveSlot⟩ (t.releaseSlot (lockIndex op.address)) (some ⟨op, .leaveGlobal⟩)
  | givesLast {op : Operation} (last : op.order ≠ .seqCst) :
    Passes thread t ⟨op, .leaveSlot⟩ (t.releaseSlot (lockIndex op.address)) none
  | givesGlobal {op : Operation} : Passes thread t ⟨op, .leaveGlobal⟩ t.releaseGlobal none

theorem passes {spurious : Bool} {t t' : LockTable} {own own' : Nat} {point : Point}
    {next : Point ⊕ Unit} (ready : protocol.ready t own point)
    (stepped : protocol.step spurious t own point = (t', own', next)) :
    own' = own ∧ Passes own t point t' (arrived next) := by
  obtain ⟨op, stage⟩ := point
  cases stage with
  | wantGlobal =>
    obtain ⟨t₁, taken⟩ := Option.isSome_iff_exists.mp ready
    simp only [protocol, taken, Option.getD_some] at stepped
    cases stepped
    obtain ⟨l, acquired, rfl⟩ := Option.map_eq_some_iff.mp taken
    obtain ⟨unheld, rfl⟩ := acquire_eq_some.mp acquired
    exact ⟨rfl, .takesGlobal unheld⟩
  | wantSlot =>
    obtain ⟨t₁, taken⟩ := Option.isSome_iff_exists.mp ready
    simp only [protocol, taken, Option.getD_some] at stepped
    cases stepped
    obtain ⟨l, acquired, rfl⟩ := Option.map_eq_some_iff.mp taken
    obtain ⟨unheld, rfl⟩ := acquire_eq_some.mp acquired
    exact ⟨rfl, .takesSlot unheld⟩
  | inside =>
    cases stepped
    exact ⟨rfl, .works⟩
  | leaveSlot =>
    by_cases ho : op.order = .seqCst
    · simp only [protocol, ho, if_true] at stepped
      cases stepped
      exact ⟨rfl, .givesSlot ho⟩
    · simp only [protocol, ho, if_false] at stepped
      cases stepped
      exact ⟨rfl, .givesLast ho⟩
  | leaveGlobal =>
    cases stepped
    exact ⟨rfl, .givesGlobal⟩

/-- A step that has to wait waits for one lock, and someone has it. -/
theorem ready_or_held (t : LockTable) (own : Nat) (point : Point) :
    protocol.ready t own point ∨
      (∃ op i, point = ⟨op, .wantGlobal⟩ ∧ t.everywhere.holder = some i) ∨
      ∃ op i, point = ⟨op, .wantSlot⟩ ∧ t.slots[lockIndex op.address].holder = some i := by
  have acquires {l : Lock} (unheld : l.holder = none) : (l.acquire own).isSome :=
    Option.isSome_iff_exists.mpr ⟨_, acquire_eq_some.mpr ⟨unheld, rfl⟩⟩
  obtain ⟨op, stage⟩ := point
  cases stage with
  | wantGlobal =>
    rcases holder : t.everywhere.holder with _ | i
    · exact .inl (Option.isSome_map.trans (acquires holder))
    · exact .inr (.inl ⟨op, i, rfl, rfl⟩)
  | wantSlot =>
    rcases holder : t.slots[lockIndex op.address].holder with _ | i
    · exact .inl (Option.isSome_map.trans (acquires holder))
    · exact .inr (.inr ⟨op, i, rfl, holder⟩)
  | inside | leaveSlot | leaveGlobal => exact .inl rfl

/-- An operation of a thread that is alone takes its locks and gives them back. -/
theorem alone_eq {t t' : LockTable} {i : Nat} {op : Operation}
    (entered : t.enter i op.address op.order = some t') :
    protocol.alone 5 t i op = (t'.leave op.address op.order, some (i, ())) := by
  unfold enter at entered
  by_cases ho : op.order = .seqCst
  · simp only [ho, if_true] at entered
    obtain ⟨t₁, first, second⟩ := Option.bind_eq_some_iff.mp entered
    simp only [Protocol.alone, protocol, Protocol.finish, ho, first, second, leave, if_true,
      Option.isSome_some, Option.getD_some]
  · simp only [ho, if_false] at entered
    have second : t.acquireSlot i (lockIndex op.address) = some t' := entered
    simp only [Protocol.alone, protocol, Protocol.finish, ho, second, leave, if_true, if_false,
      Option.isSome_some, Option.getD_some]

/-! ### Every lock is with the thread that has it -/

theorem get_set_slot (slots : Vector Lock lockCount) (i j : Fin lockCount) (l : Lock) :
    (slots.set i l i.isLt).get j = if i = j then l else slots.get j := by
  show (slots.set i l i.isLt)[j] = if i = j then l else slots[j]
  simp only [Fin.getElem_fin, Vector.getElem_set, Fin.val_inj]

namespace Guards

variable {t t' : LockTable} {threads : List (Thread Nat Point)} {i : Nat} {u : Thread Nat Point}
  {point : Point} {next : Option Point}

/-- One thread moves, and every lock is with the thread that has it then. -/
theorem move (h : Guards t threads) (proper : Proper next)
    (everywhere : HeldBy t'.everywhere HasGlobal (threads.set i ⟨i, next⟩))
    (slots : ∀ slot, HeldBy (t'.slots.get slot) (HasSlot slot) (threads.set i ⟨i, next⟩)) :
    Guards t' (threads.set i ⟨i, next⟩) := by
  have cases_set {j : Nat} {u : Thread Nat Point}
      (there : (threads.set i ⟨i, next⟩)[j]? = some u) :
      j = i ∧ u = ⟨i, next⟩ ∨ threads[j]? = some u := by
    rw [List.getElem?_set] at there
    split at there
    next hj =>
      split at there
      · exact .inl ⟨hj.symm, (Option.some.inj there).symm⟩
      · cases there
    next => exact .inr there
  refine ⟨fun there => ?_, fun there => ?_, everywhere, slots⟩
  · rcases cases_set there with ⟨rfl, rfl⟩ | there
    · rfl
    · exact h.numbered there
  · rcases cases_set there with ⟨-, rfl⟩ | there
    · exact proper
    · exact h.proper there

/-- A thread that begins an operation has no lock yet. -/
theorem call (h : Guards t threads) (idle : threads[i]? = some ⟨i, none⟩) (op : Operation) :
    Guards t (threads.set i ⟨i, some ⟨op, if op.order = .seqCst then .wantGlobal else .wantSlot⟩⟩) := by
  refine h.move ?_ (h.everywhere.stay idle ?_) fun slot => (h.slots slot).stay idle ?_
  all_goals by_cases ho : op.order = .seqCst <;> simp [Proper, HasGlobal, HasSlot, ho]

/-- The locks of the other slots do not matter to an operation. -/
theorem slots_set (h : Guards t threads) (here : threads[i]? = some u) {k : Fin lockCount}
    {l : Lock} (mine : HeldBy l (HasSlot k) (threads.set i ⟨i, next⟩))
    (others : ∀ slot, k ≠ slot → (HasSlot slot u.point ↔ HasSlot slot next))
    (slot : Fin lockCount) :
    HeldBy ((t.slots.set k l k.isLt).get slot) (HasSlot slot) (threads.set i ⟨i, next⟩) := by
  rw [get_set_slot]
  split
  next here => exact here ▸ mine
  next other => exact (h.slots slot).stay here (others slot other)

theorem step (h : Guards t threads) (busy : threads[i]? = some ⟨i, some point⟩)
    (pass : Passes i t point t' next) : Guards t' (threads.set i ⟨i, next⟩) := by
  have proper := h.proper busy
  cases pass with
  | takesGlobal unheld =>
    have sc := proper (.inl rfl)
    refine h.move (by simp [Proper]) ?_ fun slot => ?_
    · exact h.everywhere.take busy unheld rfl (by simp [HasGlobal, sc])
    · exact (h.slots slot).stay busy (by simp [HasSlot])
  | @takesSlot op unheld =>
    refine h.move (by simp [Proper]) (h.everywhere.stay busy (by simp [HasGlobal])) ?_
    refine h.slots_set busy ?_ fun slot other => by simp [HasSlot, other]
    exact (h.slots _).take busy unheld rfl (by simp [HasSlot])
  | works =>
    refine h.move (by simp [Proper]) (h.everywhere.stay busy (by simp [HasGlobal])) fun slot => ?_
    exact (h.slots slot).stay busy (by simp [HasSlot])
  | @givesSlot op more =>
    refine h.move (by simp [Proper, more]) (h.everywhere.stay busy (by simp [HasGlobal])) ?_
    refine h.slots_set busy ?_ fun slot other => by simp [HasSlot, other]
    exact (h.slots _).give busy (by simp [HasSlot]) rfl (by simp [HasSlot])
  | @givesLast op last =>
    refine h.move trivial (h.everywhere.stay busy (by simp [HasGlobal, last])) ?_
    refine h.slots_set busy ?_ fun slot other => by simp [HasSlot, other]
    exact (h.slots _).give busy (by simp [HasSlot]) rfl (by simp [HasSlot])
  | givesGlobal =>
    have sc := proper (.inr rfl)
    refine h.move trivial ?_ fun slot => ?_
    · exact h.everywhere.give busy (by simp [HasGlobal, sc]) rfl (by simp [HasGlobal])
    · exact (h.slots slot).stay busy (by simp [HasSlot])

end Guards

theorem guards_free (threads : Nat) :
    Guards free ((List.range threads).map fun i => ⟨i, none⟩) := by
  have idle {i : Nat} {u : Thread Nat Point}
      (there : ((List.range threads).map fun i => (⟨i, none⟩ : Thread Nat Point))[i]? = some u) :
      u = ⟨i, none⟩ := by
    rw [List.getElem?_map, Option.map_eq_some_iff] at there
    obtain ⟨j, hj, rfl⟩ := there
    obtain ⟨lt, rfl⟩ := List.getElem?_eq_some_iff.mp hj
    rw [List.getElem_range]
  have unheld {l : Lock} (holder : l.holder = none) {has : Option Point → Prop} (nowhere : ¬has none) :
      HeldBy l has ((List.range threads).map fun i => ⟨i, none⟩) := by
    intro i
    rw [holder]
    refine iff_of_false nofun ?_
    rintro ⟨u, there, has⟩
    rw [idle there] at has
    exact nowhere has
  refine ⟨fun there => by rw [idle there], fun there => by rw [idle there]; trivial,
    unheld rfl id, fun slot => unheld ?_ id⟩
  show (free.slots[slot]).holder = none
  simp [free]

/-! ### Somebody can go on -/

/-- The holder of the lock of a slot is not going to wait for anything. -/
theorem Guards.ready_of_slot {t : LockTable} {threads : List (Thread Nat Point)} (h : Guards t threads)
    {slot : Fin lockCount} {i : Nat} (holder : (t.slots.get slot).holder = some i) :
    ∃ (u : Thread Nat Point) (point : Point), threads[i]? = some u ∧ u.point = some point ∧
      protocol.ready t u.own point := by
  obtain ⟨⟨own, point⟩, there, has⟩ := (h.slots slot i).mp holder
  match point, has with
  | some ⟨op, .inside⟩, _ => exact ⟨_, _, there, rfl, rfl⟩
  | some ⟨op, .leaveSlot⟩, _ => exact ⟨_, _, there, rfl, rfl⟩

/-- If a thread is in an operation, some thread can make a step. -/
theorem Guards.exists_ready {t : LockTable} {threads : List (Thread Nat Point)}
    (h : Guards t threads) {i : Nat} {u : Thread Nat Point} {point : Point}
    (here : threads[i]? = some u) (busy : u.point = some point) :
    ∃ (j : Nat) (u : Thread Nat Point) (point : Point),
      threads[j]? = some u ∧ u.point = some point ∧ protocol.ready t u.own point := by
  rcases ready_or_held t u.own point with ready | ⟨op, j, -, holder⟩ | ⟨op, j, -, holder⟩
  · exact ⟨i, u, point, here, busy, ready⟩
  · -- the one that has the global lock waits for a slot at most
    obtain ⟨⟨own, point'⟩, there, has⟩ := (h.everywhere j).mp holder
    obtain _ | point' := point'
    · cases has
    · rcases ready_or_held t own point' with ready | ⟨op', k, rfl, -⟩ | ⟨op', k, -, holder'⟩
      · exact ⟨j, _, point', there, rfl, ready⟩
      · exact absurd rfl has.2
      · exact ⟨k, h.ready_of_slot holder'⟩
  · exact ⟨j, h.ready_of_slot holder⟩

/-! ### One sequentially consistent operation after another -/

/-- The stages of a sequentially consistent operation that come before one of them. -/
def Stage.earlier : Stage → List Stage
  | .wantGlobal => []
  | .wantSlot => [.wantGlobal]
  | .inside => [.wantGlobal, .wantSlot]
  | .leaveSlot => [.wantGlobal, .wantSlot, .inside]
  | .leaveGlobal => [.wantGlobal, .wantSlot, .inside, .leaveSlot]

/-- The steps of an operation of a thread at some stages. -/
def passing (i : Nat) (op : Operation) (stages : List Stage) : List (Nat × Point) :=
  stages.map fun stage => (i, ⟨op, stage⟩)

/-- All steps of a sequentially consistent operation. -/
def passage (x : Nat × Operation) : List (Nat × Point) :=
  passing x.1 x.2 [.wantGlobal, .wantSlot, .inside, .leaveSlot, .leaveGlobal]

/-- The steps are those of one operation after another; the last one need not be through. -/
def OneByOne (steps : List (Nat × Point)) : Prop :=
  ∃ (through : List (Nat × Operation)) (last : Nat × Operation) (part : List (Nat × Point)),
    steps = through.flatMap passage ++ part ∧ part <+: passage last

/-- Whether a step is one of a sequentially consistent operation. -/
def isSeqCst (step : Nat × Point) : Bool := step.2.operation.order = .seqCst

/-- What the holder of the global lock has done in its operation so far. -/
def begun (threads : List (Thread Nat Point)) : Option Nat → List (Nat × Point)
  | none => []
  | some i => match threads[i]?.bind (·.point) with
    | some ⟨op, stage⟩ => passing i op stage.earlier
    | none => []

theorem begun_prefix (threads : List (Thread Nat Point)) (holder : Option Nat) :
    ∃ last, begun threads holder <+: passage last := by
  unfold begun
  split
  next => exact ⟨(0, ⟨0, .relaxed⟩), List.nil_prefix⟩
  next i =>
    split
    next op stage _ =>
      refine ⟨(i, op), List.IsPrefix.map _ ?_⟩
      cases stage <;> decide
    next => exact ⟨(0, ⟨0, .relaxed⟩), List.nil_prefix⟩

/-- Every lock is with the thread that has it, and of the sequentially consistent operations so far all
are through but the one that has the global lock. -/
def Serial (t : LockTable) (threads : List (Thread Nat Point)) (past : List (Nat × Point)) : Prop :=
  Guards t threads ∧
    ∃ through : List (Nat × Operation),
      past.filter isSeqCst = through.flatMap passage ++ begun threads t.everywhere.holder

section Serial

variable {t t' : LockTable} {threads : List (Thread Nat Point)} {past : List (Nat × Point)} {i : Nat}
  {u : Thread Nat Point} {point : Point} {next : Option Point}

theorem begun_set (here : threads[i]? = some u) (op : Operation) (stage : Stage) :
    begun (threads.set i ⟨i, some ⟨op, stage⟩⟩) (some i) = passing i op stage.earlier := by
  obtain ⟨hi, -⟩ := List.getElem?_eq_some_iff.mp here
  simp only [begun, List.getElem?_set_self hi, Option.bind_some]

theorem begun_of_point (here : threads[i]? = some ⟨i, some point⟩) :
    begun threads (some i) = passing i point.operation point.stage.earlier := by
  simp only [begun, here, Option.bind_some]

/-- A thread that does not have the global lock moves without it. -/
theorem begun_set_of_ne {holder : Option Nat} (other : holder ≠ some i) :
    begun (threads.set i u) holder = begun threads holder := by
  cases holder with
  | none => rfl
  | some j =>
    have ne : i ≠ j := fun e => other (e ▸ rfl)
    simp only [begun, List.getElem?_set_ne ne]

theorem Serial.call (h : Serial t threads past) (idle : threads[i]? = some ⟨i, none⟩)
    (op : Operation) :
    Serial t (threads.set i ⟨i, some ⟨op, if op.order = .seqCst then .wantGlobal else .wantSlot⟩⟩)
      past := by
  obtain ⟨guards, through, steps⟩ := h
  refine ⟨guards.call idle op, through, ?_⟩
  rw [begun_set_of_ne (mt (guards.everywhere.here_iff idle).mp id), steps]

/-- A step of an operation that is not sequentially consistent. -/
theorem Serial.step_other (h : Serial t threads past) (busy : threads[i]? = some ⟨i, some point⟩)
    (pass : Passes i t point t' next) (weaker : point.operation.order ≠ .seqCst) :
    Serial t' (threads.set i ⟨i, next⟩) (past ++ [(i, point)]) := by
  obtain ⟨guards, through, steps⟩ := h
  have other : t.everywhere.holder ≠ some i :=
    mt (guards.everywhere.here_iff busy).mp fun has => weaker has.1
  have same : t'.everywhere = t.everywhere := by
    have proper := guards.proper busy
    cases pass with
    | takesGlobal => exact absurd (proper (.inl rfl)) weaker
    | givesGlobal => exact absurd (proper (.inr rfl)) weaker
    | takesSlot | works | givesSlot | givesLast => rfl
  refine ⟨guards.step busy pass, through, ?_⟩
  rw [List.filter_append, same, begun_set_of_ne other, steps,
    List.filter_singleton, isSeqCst, decide_eq_false weaker]
  exact List.append_nil _

theorem Serial.step_seqCst (h : Serial t threads past) (busy : threads[i]? = some ⟨i, some point⟩)
    (pass : Passes i t point t' next) (seqCst : point.operation.order = .seqCst) :
    Serial t' (threads.set i ⟨i, next⟩) (past ++ [(i, point)]) := by
  obtain ⟨guards, through, steps⟩ := h
  have kept : (past ++ [(i, point)]).filter isSeqCst =
      through.flatMap passage ++ (begun threads t.everywhere.holder ++ [(i, point)]) := by
    rw [List.filter_append, steps, List.filter_singleton, isSeqCst, decide_eq_true seqCst,
      List.append_assoc]
    rfl
  have holds (later : point.stage ≠ .wantGlobal) : t.everywhere.holder = some i :=
    (guards.everywhere.here_iff busy).mpr ⟨seqCst, later⟩
  refine ⟨guards.step busy pass, ?_⟩
  rw [kept]
  cases pass with
  | takesGlobal unheld =>
    refine ⟨through, ?_⟩
    show _ = through.flatMap passage ++ begun _ (some i)
    rw [unheld, begun_set busy]
    rfl
  | takesSlot | works | givesSlot =>
    refine ⟨through, ?_⟩
    show _ = through.flatMap passage ++ begun _ t.everywhere.holder
    rw [holds nofun, begun_set busy, begun_of_point busy]
    rfl
  | givesLast last => exact absurd seqCst last
  | @givesGlobal op =>
    refine ⟨through ++ [(i, op)], ?_⟩
    rw [holds nofun, begun_of_point busy, List.flatMap_append, List.flatMap_singleton]
    exact (List.append_nil _).symm

theorem Serial.step (h : Serial t threads past) (busy : threads[i]? = some ⟨i, some point⟩)
    (pass : Passes i t point t' next) :
    Serial t' (threads.set i ⟨i, next⟩) (past ++ [(i, point)]) := by
  by_cases seqCst : point.operation.order = .seqCst
  · exact h.step_seqCst busy pass seqCst
  · exact h.step_other busy pass seqCst

end Serial

/-! ### Runs -/

/-- Threads with lists of operations, before the first turn. -/
abbrev begin (scripts : List (List Operation)) :
    World LockTable Nat Operation Point Unit × List (List Operation) :=
  (World.start free (List.range scripts.length), scripts)

theorem serial_turned {w w' : World LockTable Nat Operation Point Unit} {i : Nat}
    {made : Option Point} {past : List (Nat × Point)} (h : Serial w.shared w.threads past)
    (turned : Turned protocol w i w' made) :
    Serial w'.shared w'.threads (past ++ (made.map (Prod.mk i)).toList) := by
  cases turned with
  | waits shared threads =>
    rw [shared, threads]
    simpa using h
  | @begins own own' op point idle entered shared threads =>
    obtain rfl : own = i := h.1.numbered idle
    cases entered
    rw [shared, threads]
    simpa using h.call idle op
  | @steps own own' point next busy ready stepped threads =>
    obtain rfl : own = i := h.1.numbered busy
    obtain ⟨rfl, pass⟩ := passes ready stepped
    rw [threads]
    exact h.step busy pass

theorem serial_play (scripts : List (List Operation)) (turns : List Nat) :
    let state := play protocol turns (begin scripts)
    Serial state.1.shared state.1.threads (trail protocol turns (begin scripts)) := by
  have start : Serial (begin scripts).1.shared (begin scripts).1.threads [] :=
    ⟨guards_free scripts.length, [], rfl⟩
  exact Workload.holds_play (fun w past => Serial w.shared w.threads past) serial_turned turns start

/-- A thread is at a point of an operation. -/
def At (threads : List (Thread Nat Point)) (i : Nat) (point : Point) : Prop :=
  threads[i]?.bind (·.point) = some point

/-- What never happens at once. -/
structure Exclusive (threads : List (Thread Nat Point)) : Prop where
  /-- Two threads do not both have the lock of a slot, whatever their addresses are. -/
  by_slot : ∀ {i j slot point point'}, At threads i point → At threads j point' →
    HasSlot slot (some point) → HasSlot slot (some point') → i = j
  /-- Two threads have not both begun a sequentially consistent operation. -/
  by_order : ∀ {i j point point'}, At threads i point → At threads j point' →
    HasGlobal (some point) → HasGlobal (some point') → i = j

theorem Guards.exclusive {t : LockTable} {threads : List (Thread Nat Point)} (h : Guards t threads) :
    Exclusive threads := by
  have unique {l : Lock} {has : Option Point → Prop} (held : HeldBy l has threads) {i j : Nat}
      {point point' : Point} (here : At threads i point) (there : At threads j point')
      (mine : has (some point)) (other : has (some point')) : i = j := by
    obtain ⟨u, hu, at_point⟩ := Option.bind_eq_some_iff.mp here
    obtain ⟨u', hu', at_point'⟩ := Option.bind_eq_some_iff.mp there
    exact held.unique hu (at_point ▸ mine) hu' (at_point' ▸ other)
  exact ⟨fun {_ _ slot _ _} => unique (h.slots slot), unique h.everywhere⟩

/-- Threads that run lists of operations on locked cells, in any order of their steps. Until all of
them are through, some thread can go on; operations that share a lock are not inside at once; and all
steps of sequentially consistent operations are those of one after another. -/
theorem locks_exclude_without_deadlock (scripts : List (List Operation)) (turns : List Nat) :
    let state := play protocol turns (begin scripts)
    (isOver scripted state = false → ∃ i, canMove protocol state i) ∧
      Exclusive state.1.threads ∧
      OneByOne ((trail protocol turns (begin scripts)).filter isSeqCst) := by
  intro state
  obtain ⟨guards, through, steps⟩ := serial_play scripts turns
  refine ⟨fun unfinished => ?_, guards.exclusive, ?_⟩
  · obtain ⟨i, ⟨own, point⟩, here, busy | ⟨op, next⟩⟩ := Workload.exists_unfinished unfinished
    · obtain ⟨point, at_point⟩ := Option.isSome_iff_exists.mp busy
      obtain ⟨j, ⟨own', _⟩, point', there, rfl, ready⟩ := guards.exists_ready here at_point
      exact ⟨j, Workload.canMove_of_ready there ready⟩
    · cases point with
      | none => exact ⟨i, Workload.canMove_of_enter here next rfl⟩
      | some point =>
        obtain ⟨j, ⟨own', _⟩, point', there, rfl, ready⟩ := guards.exists_ready here rfl
        exact ⟨j, Workload.canMove_of_ready there ready⟩
  · obtain ⟨last, part⟩ := begun_prefix state.1.threads state.1.shared.everywhere.holder
    exact ⟨through, last, _, steps, part⟩

example :
    let scripts : List (List Operation) := [[⟨0x10, .relaxed⟩], [⟨0x100, .seqCst⟩]]
    let state := play protocol [0, 0, 1, 1] (begin scripts)
    canMove protocol state 0 = true ∧ canMove protocol state 1 = false := by decide

end OrderedAtomics.LockTable
