import OrderedAtomics.Proofs.Chain
import OrderedAtomics.Proofs.Discipline
import OrderedAtomics.Proofs.Stack.Chain

/-! A stack is last in, first out, for any number of threads. A push takes effect when it puts its
node at the top, a pop when it puts the next node there, or when it sees that there is no top. -/

namespace OrderedAtomics.Stack

variable {α : Type}

/-! ### Last in, first out -/

/-- A stack as the list of its elements, newest first. -/
inductive Lifo : List α → Call α → Reply α → List α → Prop
  | pushes {v vs} : Lifo vs (.push v) .accepted (v :: vs)
  | refuses {v vs} : Lifo vs (.push v) (.rejected v) vs
  | pops {v vs} : Lifo (v :: vs) .pop (.item v) vs
  | misses : Lifo [] .pop .nothing []
  | looks {vs} : Lifo vs .isEmpty (.truth vs.isEmpty) vs
  | reserves {n vs} : Lifo vs (.reserve n) .done vs

/-- The elements that operations have put in, newest first. -/
def pushed (ops : List (Nat × Call α × Reply α)) : List α :=
  ops.filterMap fun
    | (_, .push v, .accepted) => some v
    | _ => none

/-- The elements that operations have taken out, newest first. -/
def popped (ops : List (Nat × Call α × Reply α)) : List α :=
  ops.filterMap fun
    | (_, .pop, .item v) => some v
    | _ => none

/-- What has been put in has been taken out once or is still there. -/
theorem pushed_perm {ops : List (Nat × Call α × Reply α)} {vs : List α}
    (h : Legal Lifo [] ops vs) : (pushed ops).Perm (popped ops ++ vs) := by
  induction h with
  | nil => exact .refl []
  | cons _ step ih =>
    cases step with
    | pushes => exact (ih.cons _).trans List.perm_middle.symm
    | pops => exact ih.trans List.perm_middle
    | refuses => exact ih
    | misses => exact ih
    | looks => exact ih
    | reserves => exact ih

/-! ### Terms -/

variable (α) in
/-- A pop has its element from the step at which it takes the node away from the top. -/
def watch : Watch (Stack α) (Point α) (Reply α) Unit where
  cell s _ := s.top
  reads
    | .loadTop _ | .swapForPush .. | .takeTop | .swapForPop .. => some ()
    | _ => none
  compares
    | .swapForPush .. | .swapForPop .. => some ()
    | _ => none
  mark s point next :=
    match point, next with
    | .release .., _ => none
    | .swapForPop _ node _, .inl (.read _) => some (.settles (answer (s.data node)))
    | _, next => next.getRight?.map .settles

/-- The node that a thread has to itself. -/
def Point.kept : Point α → List Nat
  | .write node _ | .loadTop node | .storeNext node _ | .swapForPush node _ | .read node
  | .release node _ => [node]
  | _ => []

/-- The node is for the element of a push. -/
def Offers (s : Stack α) (φ : Phase (Call α) (Reply α)) (node : Nat) : Prop :=
  ∃ v shown, φ = .pending (.push v) shown ∧ s.data node = some v

/-- What a thread knows at each point. -/
def Knows (s : Stack α) (age : Unit → Nat) (φ : Phase (Call α) (Reply α)) : Point α → Prop
  | .allocate v | .write _ v => ∃ shown, φ = .pending (.push v) shown
  | .loadTop node | .storeNext node _ => Offers s φ node
  | .swapForPush node top => Offers s φ node ∧ s.next node = top.pointer
  | .takeTop => ∃ shown, φ = .pending .pop shown
  | .takeNext top node => (∃ shown, φ = .pending .pop shown) ∧ Tracks top s.top (age ()) ∧
    top.pointer = some node
  | .swapForPop top node next => (∃ shown, φ = .pending .pop shown) ∧ Tracks top s.top (age ()) ∧
    top.pointer = some node ∧ (age () = 0 → s.next node = next)
  | .read node => ∃ v, φ = .settled (.item v) ∧ s.data node = some v
  | .release _ data => ∃ v, φ = .settled (.item v) ∧ data = some v
  | .lookTop => ∃ shown, φ = .pending .isEmpty shown
  | .reserve n => ∃ shown, φ = .pending (.reserve n) shown

variable (α) in
def terms : Terms (Stack α) Unit (Call α) (Point α) (Reply α) Unit (List α) where
  spec := Lifo
  keeps _ point := point.elim [] Point.kept
  Shared s vs kept := ∃ chain free, Chained s chain free vs kept
  Local s age φ _ point := Knows s age φ point
  Rely rest s s' := Spares (watch α) next rest s s' ∧ ∀ i ∈ rest, s'.data i = s.data i

variable {s s' : Stack α} {age : Unit → Nat} {φ : Phase (Call α) (Reply α)} {vs : List α}
  {rest : List Nat}

theorem Offers.stable {node : Nat} (h : Offers s φ node) (hd : s'.data node = s.data node) :
    Offers s' φ node := by
  obtain ⟨v, shown, hφ, hv⟩ := h
  exact ⟨v, shown, hφ, by rw [hd, hv]⟩

theorem Knows.stable {point : Point α} (h : Knows s age φ point)
    (hs : (terms α).Rely rest s s') (hk : ∀ i ∈ point.kept, i ∈ rest) :
    Knows s' ((watch α).aged s s' age) φ point := by
  obtain ⟨hs, hd⟩ := hs
  cases point with
  | allocate v => exact h
  | write node v => exact h
  | loadTop node => exact Offers.stable h (hd node (hk node (by simp [Point.kept])))
  | storeNext node top => exact Offers.stable h (hd node (hk node (by simp [Point.kept])))
  | swapForPush node top =>
    obtain ⟨ho, hn⟩ := h
    have hr := hk node (by simp [Point.kept])
    exact ⟨ho.stable (hd node hr), by rw [hs.same node hr, hn]⟩
  | takeTop => exact h
  | takeNext top node =>
    obtain ⟨hφ, ht, hi⟩ := h
    exact ⟨hφ, hs.tracks ht, hi⟩
  | swapForPop top node next =>
    obtain ⟨hφ, ht, hi, hn⟩ := h
    exact ⟨hφ, hs.tracks ht, hi, hs.link ht hi hn⟩
  | read node =>
    obtain ⟨v, hφ, hv⟩ := h
    exact ⟨v, hφ, by rw [hd node (hk node (by simp [Point.kept])), hv]⟩
  | release node data => exact h
  | lookTop => exact h
  | reserve n => exact h

/-! ### Steps -/

variable {chain free : List Nat} {node : Nat}

theorem rely_refl (rest : List Nat) (s : Stack α) : (terms α).Rely rest s s :=
  ⟨.refl _ _ rest s, fun _ _ => rfl⟩

/-- A step that only takes, gives or makes free nodes. -/
theorem rely_restock (top : s'.top = s.top) (content : s'.pool.content = s.pool.content) :
    (terms α).Rely rest s s' := by
  refine ⟨⟨fun _ => .inl top, fun i _ => ?_, fun i _ => ?_⟩, fun i _ => ?_⟩
  · rw [next_congr content]
  · rw [next_congr content]
  · rw [data_congr content]

/-- Only the thread that has a node writes its link. -/
theorem rely_setNext (hs : Chained s chain free vs (node :: rest)) (n : Option Nat) :
    (terms α).Rely rest s (s.setNext node n) := by
  have hl := hs.lt_size (i := node) (by simp)
  refine ⟨.relink node rfl (fun j hj => ?_) hs.stocked.alone fun ht => ?_, fun j _ => ?_⟩
  · rw [next_setNext hl, Function.update_of_ne hj]
  · obtain ⟨left, _, _, rfl, -⟩ := hs.pop ht 0
    exact hs.not_mem (i := node) (by simp) (by simp)
  · rw [data_setNext]

/-- Only the thread that has a node writes its element. -/
theorem rely_setData (hs : Chained s chain free vs (node :: rest)) (v : α) :
    (terms α).Rely rest s (s.setData node v) := by
  have hl := hs.lt_size (i := node) (by simp)
  have hn : (s.setData node v).next = s.next := next_setData node v
  refine ⟨⟨fun _ => .inl rfl, fun i _ => by rw [hn], fun i _ => by rw [hn]⟩, fun i hi => ?_⟩
  rw [data_setData hl, Function.update_of_ne]
  rintro rfl
  exact hs.stocked.alone hi

theorem rely_setTop {top : Link} (tag : top.tag = s.top.tag + 1) :
    (terms α).Rely rest s (s.setTop top) :=
  ⟨.move rfl tag, fun _ _ => rfl⟩

theorem outcome_allocate {spurious : Bool} {v : α} {next : Point α ⊕ Reply α}
    (hs : Chained s chain free vs rest) (hk : Knows s age φ (.allocate v))
    (e : step spurious s (.allocate v) = (s', next)) :
    (terms α).Outcome (watch α) rest age φ vs s (.allocate v) s' () next := by
  obtain ⟨shown, hφ⟩ := hk
  rcases ht : s.take with ⟨_ | node, t⟩
  · simp only [step, ht, Prod.mk.injEq] at e
    obtain ⟨rfl, rfl⟩ := e
    obtain rfl := take_eq_none ht
    exact .reply rfl (rely_refl rest t) hφ .refuses ⟨chain, free, hs⟩
  · simp only [step, ht, Prod.mk.injEq] at e
    obtain ⟨rfl, rfl⟩ := e
    obtain ⟨free', hs'⟩ := hs.take ht
    exact .onward rfl (rely_restock (top_take ht) (content_take ht)) ⟨chain, free', hs'⟩
      ⟨shown, hφ⟩

theorem outcome_write {v : α} (hs : Chained s chain free vs (node :: rest))
    (hk : Knows s age φ (.write node v)) :
    (terms α).Outcome (watch α) rest age φ vs s (.write node v) (s.setData node v) ()
      (.inl (.loadTop node)) := by
  obtain ⟨shown, hφ⟩ := hk
  have hn : node ∈ node :: rest := by simp
  refine .onward rfl (rely_setData hs v) ⟨chain, free, hs.setData hn v⟩ ⟨v, shown, hφ, ?_⟩
  rw [data_setData (hs.lt_size hn), Function.update_self]

theorem outcome_storeNext {top : Link} (hs : Chained s chain free vs (node :: rest))
    (hk : Knows s age φ (.storeNext node top)) :
    (terms α).Outcome (watch α) rest age φ vs s (.storeNext node top)
      (s.setNext node top.pointer) () (.inl (.swapForPush node top)) := by
  have hn : node ∈ node :: rest := by simp
  have hl := hs.lt_size hn
  refine .onward rfl (rely_setNext hs top.pointer) ⟨chain, free, hs.setNext hn top.pointer⟩
    ⟨Offers.stable hk (by rw [data_setNext]), ?_⟩
  rw [next_setNext hl, Function.update_self]

/-- A node goes to the top if the top is the one it was linked to. -/
theorem outcome_swapForPush {top : Link} (hs : Chained s chain free vs (node :: rest))
    (hk : Knows s age φ (.swapForPush node top)) (same : s.top = top) :
    (terms α).Outcome (watch α) rest age φ vs s (.swapForPush node top)
      (s.setTop (top.advance (some node))) () (.inr .accepted) := by
  obtain ⟨⟨v, shown, hφ, hv⟩, hn⟩ := hk
  subst same
  exact .reply rfl (rely_setTop rfl) hφ .pushes ⟨_, free, hs.push hn hv (s.top.tag + 1)⟩

/-- A thread that looks at the top in order to pop. If it finds none, there is no element. -/
theorem outcome_popAt {point : Point α} (reads : (watch α).reads point = some ())
    (misses : (watch α).mark s point (.inr .nothing) = some (.settles .nothing))
    (goes : ∀ node, (watch α).mark s point (.inl (.takeNext s.top node)) = none)
    (hs : Chained s chain free vs rest) (hφ : ∃ shown, φ = .pending .pop shown) :
    (terms α).Outcome (watch α) rest age φ vs s point s () (popAt s.top) := by
  rcases ht : s.top.pointer with _ | node
  · obtain rfl := hs.eq_nil ht
    obtain ⟨shown, hφ⟩ := hφ
    simp only [popAt, ht]
    exact .reply misses (rely_refl rest s) hφ .misses ⟨chain, free, hs⟩
  · simp only [popAt, ht]
    exact .look (goes node) (rely_refl rest s) ⟨chain, free, hs⟩
      ⟨hφ, Watch.tracks_renewed reads s age, ht⟩

theorem outcome_takeNext {top : Link} (hs : Chained s chain free vs rest)
    (hk : Knows s age φ (.takeNext top node)) :
    (terms α).Outcome (watch α) rest age φ vs s (.takeNext top node) s ()
      (.inl (.swapForPop top node (s.next node))) := by
  obtain ⟨hφ, ht, hi⟩ := hk
  exact .look rfl (rely_refl rest s) ⟨chain, free, hs⟩ ⟨hφ, ht, hi, fun _ => rfl⟩

/-- A top that has not changed has the newest element and a link that has not changed. -/
theorem outcome_swapForPop {top : Link} {next : Option Nat} (hs : Chained s chain free vs rest)
    (hk : Knows s age φ (.swapForPop top node next)) (fresh : age () < 2 ^ addressWidth)
    (same : s.top = top) :
    (terms α).Outcome (watch α) rest age φ vs s (.swapForPop top node next)
      (s.setTop (top.advance next)) () (.inl (.read node)) := by
  obtain ⟨⟨shown, hφ⟩, ht, hi, hn⟩ := hk
  obtain rfl := hn (ht.age_eq_zero fresh same)
  subst same
  obtain ⟨left, v, vs', rfl, rfl, hv, hs'⟩ := hs.pop hi (s.top.tag + 1)
  have mark : (watch α).mark s (.swapForPop s.top node (s.next node)) (.inl (.read node)) =
      some (.settles (.item v)) := by
    show some (Effect.settles (answer (s.data node))) = _
    rw [hv]; rfl
  exact ⟨rely_setTop rfl, _, _, by rw [mark, hφ]; exact .settles .pops, ⟨left, free, hs'⟩,
    v, rfl, hv⟩

theorem outcome_read (hs : Chained s chain free vs (node :: rest))
    (hk : Knows s age φ (.read node)) :
    (terms α).Outcome (watch α) rest age φ vs s (.read node) s ()
      (.inl (.release node (s.data node))) :=
  .look rfl (rely_refl rest s) ⟨chain, free, hs⟩ hk

theorem outcome_release {data : Option α} (hs : Chained s chain free vs (node :: rest))
    (hk : Knows s age φ (.release node data)) :
    (terms α).Outcome (watch α) rest age φ vs s (.release node data) (s.give node) ()
      (.inr (answer data)) := by
  obtain ⟨v, rfl, rfl⟩ := hk
  exact ⟨rely_restock rfl (Pool.content_give node), _, vs, .none, ⟨chain, _, hs.give⟩, rfl⟩

theorem outcome_step {spurious : Bool} {point : Point α} {next : Point α ⊕ Reply α}
    (hs : Chained s chain free vs (point.kept ++ rest)) (hk : Knows s age φ point)
    (fresh : ∀ k, (watch α).compares point = some k → age k < 2 ^ addressWidth)
    (e : step spurious s point = (s', next)) :
    (terms α).Outcome (watch α) rest age φ vs s point s' () next := by
  cases point with
  | allocate v => exact outcome_allocate hs hk e
  | write node v => cases e; exact outcome_write hs hk
  | loadTop node => cases e; exact .look rfl (rely_refl rest s) ⟨chain, free, hs⟩ hk
  | storeNext node top => cases e; exact outcome_storeNext hs hk
  | swapForPush node top =>
    rcases swap_cases e with ⟨same, e⟩ | e
    · cases e; exact outcome_swapForPush hs hk same
    · cases e; exact .look rfl (rely_refl rest s) ⟨chain, free, hs⟩ hk.1
  | takeTop => cases e; exact outcome_popAt rfl rfl (fun _ => rfl) hs hk
  | takeNext top node => cases e; exact outcome_takeNext hs hk
  | swapForPop top node next =>
    rcases swap_cases e with ⟨same, e⟩ | e
    · cases e; exact outcome_swapForPop hs hk (fresh () rfl) same
    · cases e; exact outcome_popAt rfl rfl (fun _ => rfl) hs hk.1
  | read node => cases e; exact outcome_read hs hk
  | release node data => cases e; exact outcome_release hs hk
  | lookTop =>
    cases e
    obtain ⟨shown, hφ⟩ := hk
    have empty : s.top.pointer.isNone = vs.isEmpty := hs.isEmpty_eq
    rw [empty]
    exact .reply rfl (rely_refl rest s) hφ .looks ⟨chain, free, hs⟩
  | reserve n =>
    cases e
    obtain ⟨shown, hφ⟩ := hk
    obtain ⟨free', hs'⟩ := hs.reserve n
    exact .reply rfl (rely_restock rfl (Pool.content_reserve n)) hφ .reserves ⟨chain, free', hs'⟩

variable (α) in
/-- Threads that share a stack leave each other's nodes alone. -/
def discipline : Discipline protocol (watch α) (List α) where
  toTerms := terms α
  ready _ _ _ := rfl
  perm hp := fun ⟨chain, free, h⟩ => ⟨chain, free, h.perm hp⟩
  enter := by
    rintro own c own' point e
    cases c <;> cases e <;> exact ⟨.refl _, fun _ _ => ⟨none, rfl⟩⟩
  stable rely hk h := Knows.stable h rely hk
  step hs hk fresh e := by
    obtain ⟨chain, free, hs⟩ := hs
    cases e
    exact outcome_step hs hk fresh rfl

/-! ### Runs -/

/-- What a run has come to: the operations that have taken effect, newest first, the elements that
are left, and the nodes they are in. -/
structure Serial (w : Observed (Stack α) Unit (Call α) (Point α) (Reply α) Unit)
    (ops : List (Nat × Call α × Reply α)) (vs : List α) (chain : List Nat) : Prop where
  history : history w.log = w.world.history
  order : Linearized Lifo [] w.log ops vs
  /-- No element is lost or taken twice. -/
  conserved : (pushed ops).Perm (popped ops ++ vs)
  path : Path w.world.shared.next w.world.shared.top.pointer chain none
  data : chain.map w.world.shared.data = vs.map some
  free : Path w.world.shared.pool.next w.world.shared.pool.head.pointer w.world.shared.pool.free
    none
  /-- Every node is free, on the chain, or kept by one thread. -/
  once : (w.world.shared.pool.free ++ (chain ++ w.world.threads.flatMap fun t =>
    t.point.elim [] Point.kept)).Perm (List.range w.world.shared.pool.size)

theorem serial_of_holds {w : Observed (Stack α) Unit (Call α) (Point α) (Reply α) Unit}
    (h : (discipline α).Holds [] w vs) (hw : history w.log = w.world.history) :
    ∃ ops chain, Serial w ops vs chain := by
  obtain ⟨φ, hlog, ⟨chain, free, path, data, stocked⟩, -⟩ := h
  obtain ⟨ops, order⟩ := hlog.linearized
  have hf := stocked.free_eq
  refine ⟨ops, chain, hw, order, pushed_perm order.2, path, data, ?_, ?_⟩
  · rw [hf]; exact stocked.path
  · rw [hf]; exact stocked.once

/-- Calls of any number of threads on a new stack, in any order of their steps, are linearizable. -/
theorem last_in_first_out {policy : Policy} {capacity : Nat} {value : Footprint}
    (made : create policy capacity value = .ok s)
    (threads : Nat) (as : List (Action (Call α)))
    (unwrapped : Observed.unwrapped protocol (watch α) as
      (Observed.start s (List.replicate threads ()))) :
    ∃ ops vs chain, Serial (Observed.run protocol (watch α) as
      (Observed.start s (List.replicate threads ()))) ops vs chain := by
  have start : (discipline α).Holds [] (Observed.start s (List.replicate threads ())) [] :=
    Discipline.holds_start (fun _ _ => rfl) ⟨[], List.range capacity, chained_create made⟩
  obtain ⟨vs, h⟩ := start.run unwrapped
  obtain ⟨ops, chain, serial⟩ := serial_of_holds h (Observed.history_log _ _ rfl)
  exact ⟨ops, vs, chain, serial⟩

/-- One thread has looked at the top and at the node behind it. That node is taken by another thread
while the first node comes back to the top, so the old link must not be used. -/
theorem last_in_first_out_after_return :
    ∃ s : Stack Nat, create .static 2 = .ok s ∧
      let as : List (Action (Call Nat)) :=
        .call 0 (.push 10) :: List.replicate 5 (.step 0 false) ++
        .call 0 (.push 20) :: List.replicate 5 (.step 0 false) ++
        .call 0 .pop :: List.replicate 2 (.step 0 false) ++
        .call 1 .pop :: List.replicate 5 (.step 1 false) ++
        .call 1 .pop :: List.replicate 3 (.step 1 false) ++
        .call 2 (.push 30) :: List.replicate 5 (.step 2 false) ++
        List.replicate 5 (.step 0 false) ++ List.replicate 2 (.step 1 false)
      Observed.unwrapped protocol (watch Nat) as (Observed.start s [(), (), ()]) ∧
        ∃ ops vs chain, Serial (Observed.run protocol (watch Nat) as
          (Observed.start s [(), (), ()])) ops vs chain :=
  ⟨_, rfl, by decide +kernel,
    @last_in_first_out Nat _ .static 2 .text rfl 3 _ (by decide +kernel)⟩

end OrderedAtomics.Stack
