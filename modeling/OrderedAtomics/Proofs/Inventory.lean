import OrderedAtomics.Proofs.Conservation
import OrderedAtomics.Proofs.Discipline
import OrderedAtomics.Proofs.Interleaving
import OrderedAtomics.Proofs.Pool.Stock

/-! Where the nodes of a container are while calls are going on. A node is free, or a dummy, or it
has an element, or a call has it: one that has got it for a value and has not put it in yet, or one
that has taken it out and has not given it back yet. -/

namespace OrderedAtomics

open Observed (arrived answers)

/-! ### Free slots -/

namespace Pool

variable {ν : Type}

/-- The pool cannot grow and has so many free slots. -/
structure Remaining (p : Pool ν) (k : Nat) : Prop where
  policy : p.policy = .static
  chain : ∃ free, Path p.next p.head.pointer free none ∧ free.length = k

variable [Inhabited ν] {p p' : Pool ν} {k : Nat}

theorem Remaining.take {i : Nat} (h : Remaining p k) (taken : p.take = (some i, p')) :
    ∃ k', k = k' + 1 ∧ Remaining p' k' := by
  obtain ⟨policy, free, path, rfl⟩ := h
  unfold Pool.take at taken
  split at taken
  next j hj =>
    cases taken
    rw [hj] at path
    obtain ⟨rest, rfl, tail⟩ := path.eq_cons
    exact ⟨rest.length, rfl, policy, rest, tail, rfl⟩
  next =>
    rw [policy] at taken
    cases taken

theorem Remaining.eq_zero (h : Remaining p k) (taken : p.take = (none, p')) : k = 0 := by
  obtain ⟨-, free, path, rfl⟩ := h
  rw [(take_eq_none taken).2.2] at path
  rw [path.eq_nil, List.length_nil]

/-- What a call does to a pool once it has what it needs. Only one that removes gives nodes back. -/
inductive Handled (p : Pool ν) (removing : Prop) : Pool ν → Prop
  | same : Handled p removing p
  | writes (i : Nat) (f : ν → ν) : Handled p removing (p.modifyNode i f)
  | reserves (n : Nat) : Handled p removing (p.reserve n)
  | gives (h : removing) (i : Nat) : Handled p removing (p.give i)

theorem Handled.remaining {removing : Prop} (handled : Handled p removing p') (h : Remaining p k)
    (keeps : ¬ removing) : Remaining p' k := by
  cases handled with
  | same => exact h
  | writes i f => exact ⟨h.policy, by rw [next_modifyNode]; exact h.chain⟩
  | reserves n =>
    have same : p.reserve n = p := by simp only [Pool.reserve, h.policy]
    rwa [same]
  | gives removes => exact absurd removes keeps

theorem Handled.sized {removing : Prop} {policy : Policy} {n : Nat}
    (handled : Handled p removing p') (h : Sized p policy n) : Sized p' policy n := by
  cases handled with
  | same => exact h
  | writes i f => exact h.modifyNode i f
  | reserves k => exact h.reserve k
  | gives _ i => exact h.give i

end Pool

/-! ### What is counted -/

/-- What a call is at. -/
inductive Stage where
  /-- It has a value and no node for it yet. -/
  | asking
  /-- It has got a node for its value. -/
  | adding
  | removing
  | looking
  deriving DecidableEq, Repr

/-- What is counted of a container with elements in `α`, in nodes from a pool. -/
structure Inventory (α ν S C P R : Type) where
  pool : S → Pool ν
  /-- The nodes that are in use for no element. -/
  dummies : S → List Nat
  /-- How many of them there are. -/
  spare : Nat
  /-- The nodes with elements in them, in the order of a walk, and the elements. -/
  Chain : S → List Nat → List α → Prop
  stage : P → Stage
  /-- The node that a call has at a point. -/
  kept : P → List Nat
  /-- The value that a call has at a point, be it in its node. -/
  carries : S → P → Option α
  adds : C → Option α
  removes : C → Bool
  accepts : R → Bool
  /-- The value that a reply gives back because there is no room for it. -/
  refused : R → Option α
  /-- The element that a reply hands out. -/
  taken : R → Option α

namespace Inventory

variable {α ν S C P R K : Type} (x : Inventory α ν S C P R)

/-- Where a call begins. -/
def begins (c : C) : Stage :=
  if (x.adds c).isSome then .asking else if x.removes c then .removing else .looking

/-- Values come with calls and leave with replies. -/
def traffic : Traffic C R α where
  brings c := ((x.adds c).toList : Multiset α)
  returns r := ((x.refused r).toList ++ (x.taken r).toList : List α)

/-- The nodes of the calls at a stage. -/
def nodesAt (stage : Stage) (threads : List (Thread Unit P)) : List Nat :=
  threads.flatMap fun t => t.point.elim [] fun point =>
    if x.stage point = stage then x.kept point else []

/-- What a thread has with it. -/
def held (w : World S Unit C P R) (i : Nat) : Multiset α :=
  ((w.threads[i]?.bind (·.point)).bind (x.carries w.shared)).toList

/-- How many threads are in a call at a stage. -/
def busy (stage : Stage) (threads : List (Thread Unit P)) : Nat :=
  threads.countP fun t => t.point.any fun point => x.stage point = stage

/-- How many calls there were to add a value. -/
def asked (history : List (Moment C R)) : Nat :=
  history.countP fun
    | .called _ c => (x.adds c).isSome
    | .answered .. => false

def accepted (history : List (Moment C R)) : Nat :=
  history.countP fun
    | .called .. => false
    | .answered _ r => x.accepts r

def rejected (history : List (Moment C R)) : Nat :=
  history.countP fun
    | .called .. => false
    | .answered _ r => (x.refused r).isSome

/-- The account of a container for `n` elements. -/
structure Accounted (n : Nat) (w : World S Unit C P R) (nodes : List Nat) (vs : List α) :
    Prop where
  chain : x.Chain w.shared nodes vs
  /-- Every node has one place. -/
  once : ((x.pool w.shared).free ++ (x.dummies w.shared ++ (nodes ++
    (x.nodesAt .adding w.threads ++ x.nodesAt .removing w.threads)))).Perm
      (List.range (x.pool w.shared).size)
  /-- Elements, nodes on their way in, nodes on their way out and free nodes are `n` together. -/
  sum : vs.length + (x.nodesAt .adding w.threads).length + (x.nodesAt .removing w.threads).length +
    (x.pool w.shared).free.length = n
  bounded : vs.length ≤ n
  /-- Every value that a call has brought has been handed out or given back, is an element, or is
  with a call. -/
  values : x.traffic.brought w.history = x.traffic.returned w.history + vs +
    ∑ i ∈ Finset.range w.threads.length, x.held w i

/-- An action at which thread `i` gets its value `v` back from a container for `n` elements. -/
structure Refused (p : Protocol S Unit C P R) (n : Nat) (w : World S Unit C P R) (vs : List α)
    (a : Action C) (i : Nat) (v : α) : Prop where
  /-- The value is the one that the thread called with. -/
  called : ∃ c, calling i w.history = some c ∧ x.adds c = some v
  exhausted : (x.pool w.shared).free = []
  /-- Elements and nodes of calls in progress are `n` together. -/
  full : vs.length + (x.nodesAt .adding w.threads).length +
    (x.nodesAt .removing w.threads).length = n
  unchanged : (World.act p a w).shared = w.shared
  /-- All other values are elsewhere. -/
  elsewhere : x.traffic.brought w.history = {v} + (x.traffic.returned w.history + vs +
    ∑ j ∈ (Finset.range w.threads.length).erase i, x.held w j)

/-- A container for `n` elements keeps to its capacity in a run. -/
structure Keeps [DecidableEq K] (p : Protocol S Unit C P R) (o : Watch S P R K) (n : Nat)
    (start : Observed S Unit C P R K) (as : List (Action C)) : Prop where
  accounted : Observed.unwrapped p o as start →
    ∃ nodes vs, x.Accounted n (World.run p as start.world) nodes vs ∧
      ∀ a i r v, (World.act p a (World.run p as start.world)).history =
          .answered i r :: (World.run p as start.world).history → x.refused r = some v →
        x.Refused p n (World.run p as start.world) vs a i v
  /-- If nothing is removed, as many values are accepted as there is room for. -/
  fills : (∀ i c, .call i c ∈ as → x.removes c = false) →
    (∀ t ∈ (World.run p as start.world).threads, t.point = none) →
    x.accepted (World.run p as start.world).history =
      min n (x.asked (World.run p as start.world).history)

/-! ### What the count rests on -/

/-- What a step does to the free nodes. -/
inductive Moves [Inhabited ν] (s s' : S) (point : P) : P ⊕ R → Prop
  | takes {node : Nat} {point' : P} (asking : x.stage point = .asking)
    (taken : (x.pool s).take = (some node, x.pool s')) (adding : x.stage point' = .adding) :
    Moves s s' point (.inl point')
  | refuses {v : α} {r : R} (asking : x.stage point = .asking)
    (taken : (x.pool s).take = (none, x.pool s')) (same : s' = s)
    (carries : x.carries s point = some v) (refused : x.refused r = some v)
    (accepts : x.accepts r = false) : Moves s s' point (.inr r)
  | goes {point' : P} (past : x.stage point ≠ .asking) (stays : x.stage point' = x.stage point)
    (handled : (x.pool s).Handled (x.stage point = .removing) (x.pool s')) :
    Moves s s' point (.inl point')
  | ends {r : R} (past : x.stage point ≠ .asking) (refused : x.refused r = none)
    (accepts : x.accepts r = decide (x.stage point = .adding))
    (handled : (x.pool s).Handled (x.stage point = .removing) (x.pool s')) :
    Moves s s' point (.inr r)

variable {x} in
theorem Moves.sized [Inhabited ν] {s s' : S} {point : P} {next : P ⊕ R} {policy : Policy} {n : Nat}
    (move : x.Moves s s' point next) (h : (x.pool s).Sized policy n) :
    (x.pool s').Sized policy n := by
  cases move with
  | takes _ taken =>
    have sized := h.take
    rwa [taken] at sized
  | refuses _ _ same => rwa [same]
  | goes _ _ handled => exact handled.sized h
  | ends _ _ _ handled => exact handled.sized h

/-- The inventory is one of what threads do that keep to a discipline. -/
structure Fits [Inhabited ν] [DecidableEq K] {p : Protocol S Unit C P R} {o : Watch S P R K}
    (d : Discipline p o (List α)) : Prop where
  keeps : ∀ own point, d.keeps own point = point.elim [] x.kept
  /-- Only a call that is adding or removing has a node. -/
  few : ∀ point, x.stage point = .asking ∨ x.stage point = .looking → x.kept point = []
  spares : ∀ s, (x.dummies s).length = x.spare
  shared : ∀ {s vs kept}, d.Shared s vs kept → ∃ nodes free, x.Chain s nodes vs ∧
    nodes.length = vs.length ∧ (x.pool s).Stocked free (x.dummies s ++ (nodes ++ kept))
  carried : ∀ {s age φ own point}, d.Local s age φ own point →
    x.traffic.carried φ = (x.carries s point).toList
  waits : ∀ {s age φ own point}, x.stage point = .asking → d.Local s age φ own point →
    ∃ c shown, φ = .pending c shown ∧ x.adds c = x.carries s point
  conserves : ∀ vs c r vs', d.spec vs c r vs' →
    (vs : Multiset α) + x.traffic.brings c = x.traffic.returns r + vs'
  enters : ∀ {own c own' point}, p.enter own c = some (own', point) → x.stage point = x.begins c
  moves : ∀ {spurious s own point s' own' next},
    p.step spurious s own point = (s', own', next) → x.Moves s s' point next

/-! ### Counting what happens -/

section Tally

/-- One if a thread at this point is in a call at the stage. -/
def here (stage : Stage) (point : Option P) : Nat :=
  if point.any fun point => x.stage point = stage then 1 else 0

theorem here_none (stage : Stage) : x.here stage none = 0 := rfl

theorem here_some (stage : Stage) (point : P) :
    x.here stage (some point) = if x.stage point = stage then 1 else 0 := by
  simp only [here, Option.any_some, decide_eq_true_eq]

theorem busy_set {threads : List (Thread Unit P)} {i : Nat} {own : Unit} {point : Option P}
    (h : threads[i]? = some ⟨own, point⟩) (stage : Stage) (own' : Unit) (point' : Option P) :
    x.busy stage (threads.set i ⟨own', point'⟩) + x.here stage point =
      x.busy stage threads + x.here stage point' := by
  obtain ⟨hi, ht⟩ := List.getElem?_eq_some_iff.mp h
  have le := List.boole_getElem_le_countP
    (p := fun t : Thread Unit P => t.point.any fun point => x.stage point = stage) hi
  rw [ht] at le
  rw [busy, List.countP_set hi, ht, busy]
  dsimp only [here] at le ⊢
  omega

theorem busy_eq_zero {threads : List (Thread Unit P)} (idle : ∀ t ∈ threads, t.point = none)
    (stage : Stage) : x.busy stage threads = 0 :=
  List.countP_eq_zero.mpr fun t ht => by rw [idle t ht]; exact Bool.false_ne_true

theorem asked_called (i : Nat) (c : C) (history : List (Moment C R)) :
    x.asked (.called i c :: history) =
      x.asked history + if (x.adds c).isSome then 1 else 0 := List.countP_cons

theorem accepted_answered (i : Nat) (r : R) (history : List (Moment C R)) :
    x.accepted (.answered i r :: history) =
      x.accepted history + if x.accepts r then 1 else 0 := List.countP_cons

theorem rejected_answered (i : Nat) (r : R) (history : List (Moment C R)) :
    x.rejected (.answered i r :: history) =
      x.rejected history + if (x.refused r).isSome then 1 else 0 := List.countP_cons

/-- The tally of a run in which nothing is removed, with `k` nodes free. -/
structure Tally (n k : Nat) (w : World S Unit C P R) : Prop where
  remaining : (x.pool w.shared).Remaining k
  room : k + x.accepted w.history + x.busy .adding w.threads = n
  calls : x.asked w.history = x.accepted w.history + x.rejected w.history +
    x.busy .asking w.threads + x.busy .adding w.threads
  exhausted : x.rejected w.history ≠ 0 → k = 0
  removing : x.busy .removing w.threads = 0

namespace Tally

variable {x} {n k : Nat} {w : World S Unit C P R}

/-- When all calls are over, values were accepted until there was no room. -/
theorem accepted_eq (h : x.Tally n k w) (idle : ∀ t ∈ w.threads, t.point = none) :
    x.accepted w.history = min n (x.asked w.history) := by
  have room := h.room
  have calls := h.calls
  have exhausted := h.exhausted
  simp only [x.busy_eq_zero idle] at room calls
  omega

theorem call {i : Nat} {c : C} {own own' : Unit} {point : P} (h : x.Tally n k w)
    (ht : w.threads[i]? = some ⟨own, none⟩) (begun : x.stage point = x.begins c)
    (keeps : x.removes c = false) :
    x.Tally n k ⟨w.shared, w.threads.set i ⟨own', some point⟩, .called i c :: w.history⟩ := by
  have busy (stage : Stage) := x.busy_set ht stage own' (some point)
  have asking := busy .asking
  have adding := busy .adding
  have removing := busy .removing
  have asked := x.asked_called i c w.history
  have accepted : x.accepted (.called i c :: w.history) = x.accepted w.history := rfl
  have rejected : x.rejected (.called i c :: w.history) = x.rejected w.history := rfl
  obtain ⟨remaining, room, calls, exhausted, out⟩ := h
  simp only [here_none, here_some, begun, begins, keeps] at asking adding removing
  cases adds : (x.adds c).isSome
  all_goals
    simp only [adds, Bool.false_eq_true, if_true, if_false, reduceCtorEq]
      at asked asking adding removing
    refine ⟨remaining, ?_, ?_, exhausted, ?_⟩ <;> dsimp only <;> omega

/-- No thread is in a call that removes. -/
theorem past_removing {i : Nat} {own : Unit} {point : P} (h : x.Tally n k w)
    (ht : w.threads[i]? = some ⟨own, some point⟩) : x.stage point ≠ .removing := by
  have none := List.countP_eq_zero.mp h.removing _ (List.mem_of_getElem? ht)
  simpa using none

theorem step [Inhabited ν] {i : Nat} {own own' : Unit} {point : P} {s : S} {next : P ⊕ R}
    (h : x.Tally n k w) (ht : w.threads[i]? = some ⟨own, some point⟩)
    (move : x.Moves w.shared s point next) :
    ∃ k', x.Tally n k' ⟨s, w.threads.set i ⟨own', arrived next⟩, answers i next ++ w.history⟩ := by
  have busy (stage : Stage) := x.busy_set ht stage own' (arrived next)
  have asking := busy .asking
  have adding := busy .adding
  have removing := busy .removing
  have past := h.past_removing ht
  obtain ⟨remaining, room, calls, exhausted, out⟩ := h
  cases move with
  | takes ask taken add =>
    obtain ⟨k', rfl, remaining'⟩ := remaining.take taken
    simp only [arrived, Sum.getLeft?_inl, here_some, ask, add, reduceCtorEq, if_true, if_false]
      at asking adding removing
    refine ⟨k', remaining', ?_, ?_, ?_, ?_⟩ <;>
      simp only [arrived, Sum.getLeft?_inl, answers, List.nil_append] <;> omega
  | @refuses v r ask taken same carries refused accepts =>
    obtain rfl := remaining.eq_zero taken
    subst same
    have accepted := x.accepted_answered i r w.history
    have rejected := x.rejected_answered i r w.history
    have asked : x.asked (.answered i r :: w.history) = x.asked w.history := rfl
    simp only [arrived, Sum.getLeft?_inr, here_some, here_none, ask, accepts, refused, reduceCtorEq,
      if_true, if_false, Option.isSome_some, Bool.false_eq_true]
      at asking adding removing accepted rejected
    refine ⟨0, remaining, ?_, ?_, fun _ => rfl, ?_⟩ <;>
      simp only [arrived, Sum.getLeft?_inr, answers, List.cons_append, List.nil_append] <;> omega
  | goes past' stays handled =>
    simp only [arrived, Sum.getLeft?_inl, here_some, stays] at asking adding removing
    refine ⟨k, handled.remaining remaining past, ?_, ?_, ?_, ?_⟩ <;>
      simp only [arrived, Sum.getLeft?_inl, answers, List.nil_append] <;> omega
  | @ends r past' refused accepts handled =>
    have accepted := x.accepted_answered i r w.history
    have rejected := x.rejected_answered i r w.history
    have asked : x.asked (.answered i r :: w.history) = x.asked w.history := rfl
    simp only [arrived, Sum.getLeft?_inr, here_some, here_none, past, past', accepts, refused,
      if_false, Option.isSome_none, Bool.false_eq_true, decide_eq_true_eq]
      at asking adding removing accepted rejected
    refine ⟨k, handled.remaining remaining past, ?_, ?_, ?_, ?_⟩ <;>
      simp only [arrived, Sum.getLeft?_inr, answers, List.cons_append, List.nil_append] <;> omega

/-- At first all nodes but the dummies are free, and no call has been made. -/
theorem start {s : S} (h : (x.pool s).Remaining n) (threads : List Unit) :
    x.Tally n n (World.start s threads) := by
  have idle : ∀ t ∈ (World.start (C := C) (R := R) (P := P) s threads).threads,
      t.point = none := by
    intro t ht
    obtain ⟨own, -, rfl⟩ := List.mem_map.mp ht
    rfl
  refine ⟨h, ?_, ?_, fun none => absurd rfl none, x.busy_eq_zero idle _⟩
  · rw [x.busy_eq_zero idle]
    rfl
  · rw [x.busy_eq_zero idle, x.busy_eq_zero idle]
    rfl

variable [Inhabited ν] [DecidableEq K] {p : Protocol S Unit C P R} {o : Watch S P R K}
  {d : Discipline p o (List α)}

theorem act (h : x.Tally n k w) (fits : x.Fits d) {a : Action C}
    (keeps : ∀ i c, a = .call i c → x.removes c = false) :
    ∃ k', x.Tally n k' (World.act p a w) := by
  rcases World.act_cases p a w with e | ⟨i, c, own, own', point, rfl, ht, entered, e⟩ |
    ⟨i, spurious, own, point, s, own', next, rfl, ht, stepped, e⟩
  · rw [e]
    exact ⟨k, h⟩
  · rw [e]
    exact ⟨k, h.call ht (fits.enters entered) (keeps i c rfl)⟩
  · rw [e]
    exact h.step ht (fits.moves stepped)

theorem run (h : x.Tally n k w) (fits : x.Fits d) {as : List (Action C)}
    (keeps : ∀ i c, .call i c ∈ as → x.removes c = false) :
    ∃ k', x.Tally n k' (World.run p as w) := by
  induction as generalizing w k with
  | nil => exact ⟨k, h⟩
  | cons a as ih =>
    obtain ⟨k', h'⟩ := h.act fits fun i c e => keeps i c (e ▸ List.mem_cons_self)
    exact ih h' fun i c hc => keeps i c (List.mem_cons_of_mem a hc)

end Tally

end Tally

/-! ### The account of a run -/

namespace Fits

variable {x} [Inhabited ν] [DecidableEq K] {p : Protocol S Unit C P R} {o : Watch S P R K}
  {d : Discipline p o (List α)}

/-- The nodes that threads have to themselves are on their way in or on their way out. -/
theorem nodesAt_perm (fits : x.Fits d) (threads : List (Thread Unit P)) :
    (x.nodesAt .adding threads ++ x.nodesAt .removing threads).Perm (d.kept threads) := by
  refine (List.flatMap_append_perm threads _ _).trans (.of_eq ?_)
  refine List.flatMap_congr fun t _ => ?_
  rcases t with ⟨own, _ | point⟩
  · rw [fits.keeps]
    rfl
  · have few := fits.few point
    rw [fits.keeps]
    cases stage : x.stage point <;> simp_all

theorem held_eq (fits : x.Fits d) {w : Observed S Unit C P R K} {φ : Nat → Phase C R}
    (knows : ∀ i t, w.world.threads[i]? = some t → d.Knows w.world.shared (w.age i) (φ i) t)
    {i : Nat} (hi : i < w.world.threads.length) :
    x.traffic.carried (φ i) = x.held w.world i := by
  obtain ⟨⟨own, point⟩, ht⟩ : ∃ t, w.world.threads[i]? = some t := ⟨_, List.getElem?_eq_getElem hi⟩
  have known := knows i _ ht
  rw [held, ht]
  rcases point with _ | point
  · have idle : φ i = .idle := known
    rw [idle]
    rfl
  · exact fits.carried known

theorem sized_run (fits : x.Fits d) {m : Nat} (as : List (Action C)) {w : World S Unit C P R}
    (h : (x.pool w.shared).Sized .static m) :
    (x.pool (World.run p as w).shared).Sized .static m := by
  induction as generalizing w with
  | nil => exact h
  | cons a as ih =>
    refine ih ?_
    rcases World.act_cases p a w with e | ⟨i, c, own, own', point, -, -, -, e⟩ |
      ⟨i, spurious, own, point, s, own', next, -, -, stepped, e⟩
    · rwa [e]
    · rwa [e]
    · rw [e]
      exact (fits.moves stepped).sized h

/-- Every value is where it was handed, in the container or with a call. -/
theorem values (fits : x.Fits d) {vs : List α} {w : Observed S Unit C P R K}
    (h : d.Holds [] w vs) (seen : history w.log = w.world.history)
    (threads : ∀ e ∈ w.log, e.thread < w.world.threads.length) :
    x.traffic.brought w.world.history = x.traffic.returned w.world.history + vs +
      ∑ i ∈ Finset.range w.world.threads.length, x.held w.world i := by
  obtain ⟨φ, admits, -, knows⟩ := h
  have values := admits.conserved fits.conserves threads
  rwa [seen, Multiset.coe_nil, zero_add,
    Finset.sum_congr rfl fun i hi => fits.held_eq knows (Finset.mem_range.mp hi)] at values

/-- What a discipline says of a container that cannot grow gives its account. -/
theorem account (fits : x.Fits d) {n : Nat} {vs : List α} {w : Observed S Unit C P R K}
    (h : d.Holds [] w vs) (sized : (x.pool w.world.shared).Sized .static (n + x.spare))
    (seen : history w.log = w.world.history)
    (threads : ∀ e ∈ w.log, e.thread < w.world.threads.length) :
    ∃ nodes, x.Accounted n w.world nodes vs ∧
      ∀ a i r v, (World.act p a w.world).history = .answered i r :: w.world.history →
        x.refused r = some v → x.Refused p n w.world vs a i v := by
  have values := fits.values h seen threads
  obtain ⟨φ, admits, shared, knows⟩ := h
  obtain ⟨nodes, free, chain, length, stocked⟩ := fits.shared shared
  replace stocked := stocked.perm (((fits.nodesAt_perm _).symm.append_left nodes).append_left _)
  have sum := stocked.length_add
  simp only [List.length_append, fits.spares, length, sized.size_eq rfl] at sum
  have free_eq := stocked.free_eq
  refine ⟨nodes, ⟨chain, ?_, ?_, by omega, values⟩, fun a i r v answered refused => ?_⟩
  · rw [free_eq]
    exact stocked.once
  · rw [free_eq]
    omega
  · obtain ⟨spurious, own, point, rfl, ht, replied⟩ := World.act_answered answered
    rcases hs : p.step spurious w.world.shared own point with ⟨s, own', next⟩
    rw [hs] at replied
    obtain rfl : next = .inr r := replied
    cases fits.moves hs with
    | @refuses v' _ asking taken same carries refused' accepts =>
      subst same
      obtain rfl : v' = v := Option.some.inj (refused'.symm.trans refused)
      obtain ⟨c, shown, pending, adds⟩ := fits.waits asking (knows i _ ht)
      have called := admits.calling_eq pending
      rw [seen] at called
      have exhausted := stocked.free_eq_nil (Pool.take_eq_none taken).2.2
      have full : free.length = 0 := by rw [exhausted, List.length_nil]
      have held : x.held w.world i = {v'} := by
        rw [Inventory.held, ht, Option.bind_some, Option.bind_some, carries]
        rfl
      have member : i ∈ Finset.range w.world.threads.length :=
        Finset.mem_range.mpr (List.getElem?_eq_some_iff.mp ht).1
      refine ⟨⟨c, called, adds.trans carries⟩, by rw [free_eq, exhausted], by omega, ?_, ?_⟩
      · rw [World.act_step ht (d.ready _ _ _) hs]
      · rw [values, ← Finset.add_sum_erase _ _ member, held]
        abel
    | ends past none => rw [none] at refused; cases refused

/-- Threads that begin with a new container. -/
theorem holds_run (fits : x.Fits d) {s : S} (threads : Nat) (shared : d.Shared s [] [])
    {as : List (Action C)}
    (unwrapped : Observed.unwrapped p o as (Observed.start s (List.replicate threads ()))) :
    let w := Observed.run p o as (Observed.start s (List.replicate threads ()))
    history w.log = w.world.history ∧ (∀ e ∈ w.log, e.thread < w.world.threads.length) ∧
      ∃ vs, d.Holds [] w vs := by
  have start : d.Holds [] (Observed.start s (List.replicate threads ())) [] :=
    Discipline.holds_start (fun own _ => fits.keeps own none) shared
  exact ⟨Observed.history_log _ _ rfl,
    Observed.thread_lt_run fun _ he => absurd he List.not_mem_nil, start.run unwrapped⟩

/-- A container with a new static pool keeps to its capacity in every run. -/
theorem keeps_capacity (fits : x.Fits d) {n : Nat} {s : S} (threads : Nat)
    (shared : d.Shared s [] []) (sized : (x.pool s).Sized .static (n + x.spare))
    (as : List (Action C)) :
    x.Keeps p o n (Observed.start s (List.replicate threads ())) as where
  accounted unwrapped := by
    obtain ⟨seen, log, vs, h⟩ := fits.holds_run threads shared unwrapped
    obtain ⟨nodes, account⟩ := fits.account h
      (by rw [Observed.world_run]; exact fits.sized_run as sized) seen log
    rw [Observed.world_run] at account
    exact ⟨nodes, vs, account⟩
  fills keeps idle := by
    obtain ⟨nodes, free, chain, length, stocked⟩ := fits.shared shared
    have sum := stocked.length_add
    simp only [List.length_append, fits.spares, length, sized.size_eq rfl, List.length_nil] at sum
    have remaining : (x.pool s).Remaining n :=
      ⟨sized.policy_eq, free, stocked.path, by omega⟩
    obtain ⟨k, tally⟩ := (Tally.start remaining (List.replicate threads ())).run fits keeps
    exact tally.accepted_eq idle

/-- When no thread is in a call, no node and no value is with one. -/
theorem holds_of_idle (fits : x.Fits d) {w : Observed S Unit C P R K} {vs : List α}
    (h : d.Holds [] w vs) (idle : ∀ t ∈ w.world.threads, t.point = none) :
    d.Shared w.world.shared vs [] ∧ ∀ i, x.held w.world i = 0 := by
  obtain ⟨φ, -, shared, -⟩ := h
  have kept : d.kept w.world.threads = [] := by
    refine List.flatMap_eq_nil_iff.mpr fun t ht => ?_
    rw [fits.keeps, idle t ht]
    rfl
  refine ⟨kept ▸ shared, fun i => ?_⟩
  rcases ht : w.world.threads[i]? with _ | t
  · rw [held, ht]
    rfl
  · rw [held, ht, Option.bind_some, idle t (List.mem_of_getElem? ht)]
    rfl

end Fits

end Inventory

end OrderedAtomics
