import OrderedAtomics.Cell.Backend
import OrderedAtomics.Proofs.Cell.Acting
import OrderedAtomics.Proofs.Cell.Calls
import OrderedAtomics.Proofs.Cell.Contention

/-! Load-linked/store-conditional machines, by the accesses and barriers that they leave in the trace.
Every access is relaxed and stands between the barriers of its order, in the retry loops of the levels
above as well. -/

namespace OrderedAtomics

/-! ### Blocks -/

section Blocks

variable {V : Type}

/-- Whether an event is a fence, or a visit to the barriers that issue fences. -/
def Event.isFence : Event V → Bool
  | .before _ | .after _ | .fence _ => true
  | .load _ | .store .. | .exchange .. | .cas .. | .fetchAdd .. | .fetchAddVar .. | .fetchInc _
  | .fetchDec _ | .lockFreeQuery => false

theorem Event.not_writes_of_isFence {e : Event V} (h : e.isFence = true) : e.writes = false := by
  cases e with
  | before | after | fence => rfl
  | _ => cases h

/-- Whether all orders of an access are relaxed. -/
def Event.relaxed : Event V → Bool
  | .load o | .store _ o | .exchange _ o | .fetchAdd _ o | .fetchAddVar _ o | .fetchInc o
  | .fetchDec o => o == .relaxed
  | .cas _ _ _ s f _ => s == .relaxed && f == .relaxed
  | .before _ | .after _ | .fence _ | .lockFreeQuery => false

/-- What stands before and after an access of each order. The full fences are those that the machine
issues itself, around its loads and stores. -/
structure Fencing (V : Type) where
  before : MemoryOrder → List (Event V)
  after : MemoryOrder → List (Event V)
  full : MemoryOrder → List (Event V)

/-- The barriers do nothing but add what they stand for to the trace. -/
structure Barriers.Issues (b : Barriers (Cell V)) (f : Fencing V) : Prop where
  before : ∀ o c, b.before o c = .ok () { c with trace := c.trace ++ f.before o }
  after : ∀ o c, b.after o c = .ok () { c with trace := c.trace ++ f.after o }
  full : ∀ o, f.full o = if o = .seqCst then [.fence .seqCst] else []
  fences : ∀ o, ∀ e ∈ f.before o ++ f.after o, e.isFence = true

/-- The fences that a table has around an access, and the machine itself. -/
def FenceTable.fencing (t : FenceTable) : Fencing V where
  before o := ((t.before o).map .fence).toList
  after o := ((t.after o).map .fence).toList
  full o := if o = .seqCst then [.fence .seqCst] else []

/-- The same with each visit to the table. -/
def FenceTable.visits (t : FenceTable) : Fencing V where
  before o := .before o :: t.fencing.before o
  after o := .after o :: t.fencing.after o
  full := t.fencing.full

namespace FenceTable

theorem issue_eq (fence : Option MemoryOrder) (c : Cell V) :
    issue fence c = .ok () { c with trace := c.trace ++ (fence.map Event.fence).toList } := by
  cases fence with
  | none => rw [Option.map_none, Option.toList_none, List.append_nil]; rfl
  | some o => exact Cell.record_eq (.fence o) c

theorem fence_of_mem {fence : Option MemoryOrder} :
    ∀ e ∈ (fence.map (Event.fence : _ → Event V)).toList, e.isFence = true := by
  intro e he
  obtain ⟨o, -, rfl⟩ := Option.map_eq_some_iff.mp (Option.mem_toList.mp he)
  rfl

theorem issues_barriers (t : FenceTable) : (t.barriers : Barriers (Cell V)).Issues t.fencing where
  before o := issue_eq (t.before o)
  after o := issue_eq (t.after o)
  full _ := rfl
  fences _ e he := (List.mem_append.mp he).elim (fence_of_mem e) (fence_of_mem e)

theorem issues_recorded (t : FenceTable) : (t.recorded : Barriers (Cell V)).Issues t.visits where
  before o c := by
    refine (Access.bind_ok (Cell.record_eq (.before o) c)).trans ((t.issues_barriers.before o _).trans ?_)
    rw [List.append_assoc]
    rfl
  after o c := by
    refine (Access.bind_ok (Cell.record_eq (.after o) c)).trans ((t.issues_barriers.after o _).trans ?_)
    rw [List.append_assoc]
    rfl
  full _ := rfl
  fences o e he := by
    have fences := t.issues_barriers.fences (V := V) o
    rcases List.mem_append.mp he with he | he
    · rcases List.mem_cons.mp he with rfl | he
      · rfl
      · exact fences e (List.mem_append_left _ he)
    · rcases List.mem_cons.mp he with rfl | he
      · rfl
      · exact fences e (List.mem_append_right _ he)

end FenceTable

/-- An access with the order that barriers give it: two orders for a compare-exchange, the second of
which is for the case that it fails. -/
inductive Block (V : Type) where
  | load (order : MemoryOrder)
  | store (value : V) (order : MemoryOrder)
  | fetchAdd (value : V) (order : MemoryOrder)
  | cas (expected desired : V) (success failure : MemoryOrder) (stored : Bool)

namespace Block

/-- The access itself, which is relaxed. -/
def access : Block V → Event V
  | load _ => .load .relaxed
  | store v _ => .store v .relaxed
  | fetchAdd v _ => .fetchAdd v .relaxed
  | cas e d _ _ stored => .cas .weak e d .relaxed .relaxed stored

/-- The access between the barriers of its order. -/
def events (fencing : Fencing V) : Block V → List (Event V)
  | load o => fencing.full o ++ .load .relaxed :: fencing.after o
  | store v o => fencing.before o ++ .store v .relaxed :: fencing.full o
  | fetchAdd v o => fencing.before o ++ .fetchAdd v .relaxed :: fencing.after o
  | cas e d s f stored => fencing.before s ++
      .cas .weak e d .relaxed .relaxed stored :: fencing.after (if stored then s else f)

/-- The blocks of a retry loop that puts `g` of the value in its place: a relaxed load, then attempts of
which only the last one stores. -/
def Loop (g : V → V) (o : MemoryOrder) (blocks : List (Block V)) : Prop :=
  ∃ tries x, blocks = load .relaxed :: (tries ++ [cas x (g x) o .relaxed true]) ∧
    ∀ b ∈ tries, ∃ y, b = cas y (g y) o .relaxed false

/-- The last block alone writes, and has the barriers of the order on both sides. -/
def Closed (o : MemoryOrder) (blocks : List (Block V)) : Prop :=
  ∃ tries last, blocks = tries ++ [last] ∧ (∀ b ∈ tries, b.access.writes = false) ∧
    last.access.writes = true ∧ ∀ fencing : Fencing V, last.events fencing =
      fencing.before o ++ last.access :: fencing.after o

theorem closed_fetchAdd (v : V) (o : MemoryOrder) : Closed o [fetchAdd v o] :=
  ⟨[], fetchAdd v o, rfl, nofun, rfl, fun _ => rfl⟩

theorem Loop.closed {g : V → V} {o : MemoryOrder} {blocks : List (Block V)} (h : Loop g o blocks) :
    Closed o blocks := by
  obtain ⟨tries, x, rfl, failing⟩ := h
  refine ⟨load .relaxed :: tries, _, rfl, fun b hb => ?_, rfl, fun _ => rfl⟩
  rcases List.mem_cons.mp hb with rfl | hb
  · rfl
  · obtain ⟨y, rfl⟩ := failing b hb
    rfl

/-- A trace that grows by one block. -/
theorem trace_concat {fencing : Fencing V} {start trace : List (Event V)} {blocks : List (Block V)}
    (h : trace = start ++ blocks.flatMap (events fencing)) (block : Block V) :
    trace ++ block.events fencing = start ++ (blocks ++ [block]).flatMap (events fencing) := by
  rw [h, List.flatMap_append, List.flatMap_singleton, List.append_assoc]

theorem access_relaxed (block : Block V) : block.access.relaxed = true := by cases block <;> rfl

/-- All of a block but the access itself is fences. -/
theorem mem_events {b : Barriers (Cell V)} {fencing : Fencing V} (h : b.Issues fencing)
    {block : Block V} {e : Event V} (he : e ∈ block.events fencing) :
    e = block.access ∨ e.isFence = true := by
  have before (o : MemoryOrder) : ∀ e ∈ fencing.before o, e.isFence = true := fun e he =>
    h.fences o e (List.mem_append_left _ he)
  have after (o : MemoryOrder) : ∀ e ∈ fencing.after o, e.isFence = true := fun e he =>
    h.fences o e (List.mem_append_right _ he)
  have full (o : MemoryOrder) : ∀ e ∈ fencing.full o, e.isFence = true := by
    intro e he
    rw [h.full] at he
    split at he
    · rw [List.mem_singleton.mp he]
      rfl
    · cases he
  have around {l l' : List (Event V)} {a : Event V} (hl : ∀ e ∈ l, e.isFence = true)
      (hl' : ∀ e ∈ l', e.isFence = true) (he : e ∈ l ++ a :: l') : e = a ∨ e.isFence = true := by
    rcases List.mem_append.mp he with he | he
    · exact .inr (hl e he)
    · exact (List.mem_cons.mp he).imp_right (hl' e)
  cases block with
  | load o => exact around (full o) (after o) he
  | store v o => exact around (before o) (full o) he
  | fetchAdd v o => exact around (before o) (after o) he
  | cas e d s f stored => exact around (before s) (after _) he

theorem not_writes {b : Barriers (Cell V)} {fencing : Fencing V} (h : b.Issues fencing)
    {blocks : List (Block V)} (silent : ∀ block ∈ blocks, block.access.writes = false) :
    ∀ e ∈ blocks.flatMap (events fencing), e.writes = false := by
  intro e he
  obtain ⟨block, among, he⟩ := List.mem_flatMap.mp he
  rcases mem_events h he with rfl | fence
  · exact silent block among
  · exact Event.not_writes_of_isFence fence

end Block

/-- The blocks of a call, with what it has answered. -/
def Call.Makes {w : Nat} (reply : Reply (BitVec w)) (blocks : List (Block (BitVec w))) :
    Call (BitVec w) → Prop
  | .load o => blocks = [.load o]
  | .store v o => blocks = [.store v o]
  | .cas .weak e d s f => ∃ outcome, reply = .outcome outcome ∧
      blocks = [.cas e d s f outcome.stored]
  | .cas .strong e d s f => ∃ outcome tries, reply = .outcome outcome ∧
      blocks = List.replicate tries (.cas e d s f false) ++ [.cas e d s f outcome.stored]
  | .exchange v o => Block.Loop (fun _ => v) o blocks
  | .isLockFree => blocks = []
  | .modify .add v _ o => blocks = [.fetchAdd v o]
  | .modify .sub v _ o => blocks = [.fetchAdd (-v) o]
  | .modify bitwise v _ o => Block.Loop (bitwise.apply · v) o blocks
  | .increment _ o => blocks = [.fetchAdd 1 o]
  | .decrement _ o => blocks = [.fetchAdd (-1) o]
  | .fetchAddVar .. | .fetchInc _ | .fetchDec _ => False

/-- A read-modify-write that has got through, by its answer. -/
def Call.Through {w : Nat} (reply : Reply (BitVec w)) : Call (BitVec w) → Prop
  | .exchange .. | .modify .. | .increment .. | .decrement .. => True
  | .cas .. => ∃ expected, reply = .outcome ⟨true, expected⟩
  | .load _ | .store .. | .isLockFree | .fetchAddVar .. | .fetchInc _ | .fetchDec _ => False

/-- The blocks of a read-modify-write that has got through are closed by those of its order. -/
theorem Call.Makes.closed {w : Nat} {reply : Reply (BitVec w)} {blocks : List (Block (BitVec w))}
    {call : Call (BitVec w)} (h : call.Makes reply blocks) (through : call.Through reply) :
    Block.Closed call.order blocks := by
  have one {v : BitVec w} {o : MemoryOrder} (same : blocks = [.fetchAdd v o]) :
      Block.Closed o blocks := same ▸ Block.closed_fetchAdd v o
  cases call with
  | exchange => exact Block.Loop.closed h
  | modify u => cases u with
    | add | sub => exact one h
    | and | or | xor => exact Block.Loop.closed h
  | increment | decrement => exact one h
  | cas strength e d s f =>
    obtain ⟨expected, rfl⟩ := through
    cases strength with
    | weak =>
      obtain ⟨_, ⟨⟩, same⟩ := h
      exact ⟨[], _, same, nofun, rfl, fun _ => rfl⟩
    | strong =>
      obtain ⟨_, tries, ⟨⟩, same⟩ := h
      refine ⟨_, _, same, fun b hb => ?_, rfl, fun _ => rfl⟩
      rw [List.eq_of_mem_replicate hb]
      rfl
  | _ => cases through

end Blocks

/-! ### Accesses -/

section Accesses

variable {V β γ : Type} {fencing : Fencing V}

/-- In any state of the cell the access ends, and it adds blocks to the trace that are right for its
answer. -/
def Access.Adds (fencing : Fencing V) (a : Access (Cell V) β) (P : β → List (Block V) → Prop) : Prop :=
  ∀ c, ∃ r c' blocks, a c = .ok r c' ∧
    c'.trace = c.trace ++ blocks.flatMap (Block.events fencing) ∧ P r blocks

namespace Access.Adds

variable {a : Access (Cell V) β} {P : β → List (Block V) → Prop}

theorem map {Q : γ → List (Block V) → Prop} (h : Adds fencing a P) (g : β → γ)
    (right : ∀ r blocks, P r blocks → Q (g r) blocks) : Adds fencing (do return g (← a)) Q := by
  intro c
  obtain ⟨r, c', blocks, ended, trace, made⟩ := h c
  exact ⟨g r, c', blocks, Access.bind_ok ended, trace, right r blocks made⟩

/-- One block with nothing around it. -/
theorem one {block : Block V} (h : ∀ c, ∃ r c', a c = .ok r c' ∧
    c'.trace = c.trace ++ block.events fencing) : Adds fencing a fun _ blocks => blocks = [block] := by
  intro c
  obtain ⟨r, c', ended, trace⟩ := h c
  exact ⟨r, c', [block], ended, by rw [trace, List.flatMap_singleton], rfl⟩

end Access.Adds

/-- A weak attempt that is refused on the value it finds, or on the one that was there before, has used up
an entry of the script. -/
theorem Cell.tail_length_lt {α : Type} [DecidableEq α] {c : Cell α} {e : α}
    (refused : c.stores .weak e = false) (same : e = c.value ∨ e = c.found) :
    c.script.tail.length < c.script.length := by
  have some : c.script ≠ [] := by
    intro none
    have there : c.found = e := by
      rcases same with rfl | rfl
      · exact found_nil none
      · rfl
    unfold stores at refused
    rw [there, spurious_nil none] at refused
    simp at refused
  rw [List.length_tail]
  exact Nat.sub_one_lt (Nat.ne_of_gt (List.length_pos_iff.mpr some))

end Accesses

/-! ### The machine -/

namespace LoadLinked

variable {w : Nat} {n : Native (Cell (BitVec w)) (BitVec w)} {takes : Admission}
  {b : Barriers (Cell (BitVec w))} {fencing : Fencing (BitVec w)}
  (allows : n.Allows takes) (issues : b.Issues fencing)
include allows issues

theorem load_eq (o : MemoryOrder) (c : Cell (BitVec w)) : load n b o c =
    .ok c.value { c with trace := c.trace ++ (Block.load o).events fencing } := by
  have body (c : Cell (BitVec w)) : (do
      let v ← n.load .relaxed
      b.after o
      return v : Access (Cell (BitVec w)) (BitVec w)) c =
        .ok c.value { c with trace := c.trace ++ .load .relaxed :: fencing.after o } := by
    have loaded : n.load .relaxed c = .ok c.value { c with trace := c.trace ++ [.load .relaxed] } :=
      allows.load_eq (o := .relaxed) (allows.legal rfl) c
    rw [List.append_cons]
    exact (Access.bind_ok loaded).trans (Access.bind_ok (issues.after o _))
  unfold load
  split
  next full =>
    have shown : (Block.load o).events fencing =
        .fence .seqCst :: .load .relaxed :: fencing.after o := by
      rw [Block.events, issues.full, if_pos full]
      rfl
    rw [shown, List.append_cons]
    exact (Access.bind_ok (Cell.record_eq _ c)).trans (body _)
  next plain =>
    have shown : (Block.load o).events fencing = .load .relaxed :: fencing.after o := by
      rw [Block.events, issues.full, if_neg plain]
      rfl
    rw [shown]
    exact body c

theorem store_eq (v : BitVec w) (o : MemoryOrder) (c : Cell (BitVec w)) : store n b v o c =
    .ok () { c with value := v, trace := c.trace ++ (Block.store v o).events fencing } := by
  let c₁ : Cell (BitVec w) := { c with trace := c.trace ++ fencing.before o }
  let c₂ : Cell (BitVec w) := { c₁ with value := v, trace := c₁.trace ++ [.store v .relaxed] }
  have stored : n.store v .relaxed c₁ = .ok () c₂ := by
    have same := allows.store (o := .relaxed) (allows.legal rfl) v
    exact (congrFun same c₁).trans (Cell.write_eq v .relaxed c₁)
  refine (Access.bind_ok (issues.before o c)).trans ((Access.bind_ok stored).trans ?_)
  split
  next full =>
    have shown : c₂.trace ++ [.fence .seqCst] =
        c.trace ++ (Block.store v o).events fencing := by
      rw [Block.events, issues.full, if_pos full]
      simp [c₂, c₁]
    rw [← shown]
    rfl
  next plain =>
    have shown : c₂.trace = c.trace ++ (Block.store v o).events fencing := by
      rw [Block.events, issues.full, if_neg plain]
      simp [c₂, c₁]
    rw [← shown]
    rfl

theorem fetchAdd_eq (v : BitVec w) (o : MemoryOrder) (c : Cell (BitVec w)) : fetchAdd n b v o c =
    .ok c.value
      { c with value := c.value + v, trace := c.trace ++ (Block.fetchAdd v o).events fencing } := by
  let c₁ : Cell (BitVec w) := { c with trace := c.trace ++ fencing.before o }
  have added : n.fetchAdd v .relaxed c₁ = .ok c.value
      { c₁ with value := c.value + v, trace := c₁.trace ++ [.fetchAdd v .relaxed] } := by
    rw [allows.fetchAdd]
    exact Cell.modifyBy_eq _ (· + v) c₁
  refine (Access.bind_ok (issues.before o c)).trans ((Access.bind_ok added).trans
    ((Access.bind_ok (issues.after o _)).trans ?_))
  simp [c₁, Block.events, pure, EStateM.pure]

theorem casWeak_eq (e d : BitVec w) (s f : MemoryOrder) (c : Cell (BitVec w)) :
    casWeak n b e d s f c =
      .ok (if c.stores .weak e then ⟨true, e⟩ else ⟨false, c.found⟩)
        ⟨if c.stores .weak e then d else c.found, c.script.tail,
          c.trace ++ (Block.cas e d s f (c.stores .weak e)).events fencing⟩ := by
  let c₁ : Cell (BitVec w) := { c with trace := c.trace ++ fencing.before s }
  have swapped : n.compareExchange .weak e d .relaxed .relaxed c₁ =
      .ok (if c.stores .weak e then ⟨true, e⟩ else ⟨false, c.found⟩)
        ⟨if c.stores .weak e then d else c.found, c.script.tail,
          c₁.trace ++ [.cas .weak e d .relaxed .relaxed (c.stores .weak e)]⟩ :=
    allows.compareExchange_eq (f := .relaxed) (allows.legal rfl) .weak e d .relaxed c₁
  refine (Access.bind_ok (issues.before s c)).trans ((Access.bind_ok swapped).trans ?_)
  cases c.stores .weak e with
  | true =>
    refine (Access.bind_ok (issues.after s _)).trans ?_
    simp [c₁, Block.events, pure, EStateM.pure]
  | false =>
    refine (Access.bind_ok (issues.after f _)).trans ?_
    simp [c₁, Block.events, pure, EStateM.pure]

theorem adds_casWeak (e d : BitVec w) (s f : MemoryOrder) :
    (casWeak n b e d s f).Adds fencing fun outcome blocks =>
      blocks = [.cas e d s f outcome.stored] := by
  intro c
  refine ⟨_, _, [.cas e d s f (c.stores .weak e)], casWeak_eq allows issues e d s f c, ?_, ?_⟩
  · rw [List.flatMap_singleton]
  · cases c.stores .weak e <;> rfl

/-! Each retry loop goes through the script, and adds a block per attempt. -/

theorem adds_update (g : BitVec w → BitVec w) (o : MemoryOrder) :
    ((machine n b).update g o).Adds fencing fun _ => Block.Loop g o := by
  intro c
  let first : Cell (BitVec w) :=
    { c with trace := c.trace ++ (Block.load .relaxed).events fencing }
  let attempt (current : BitVec w) : Access (Cell (BitVec w)) (BitVec w ⊕ BitVec w × BitVec w) := do
    let outcome ← casWeak n b current (g current) o .relaxed
    return if outcome.stored then .inr (current, g current) else .inl outcome.expected
  have ends : ∃ r c', retry attempt (n.patience first) c.value first = .ok r c' ∧ ∃ blocks,
      c'.trace = c.trace ++ blocks.flatMap (Block.events fencing) ∧ Block.Loop g o blocks := by
    -- Between attempts the trace has the load and the failed attempts, whatever values these were on.
    refine retry_ends (fun current c₁ => current = c₁.value ∧ ∃ tries,
        c₁.trace = c.trace ++ (.load .relaxed :: tries).flatMap (Block.events fencing) ∧
          ∀ b ∈ tries, ∃ y, b = .cas y (g y) o .relaxed false)
      _ (fun c₁ => c₁.script.length) ?step ⟨rfl, [], ?start, nofun⟩ ?enough
    case step =>
      rintro current c₁ ⟨rfl, tries, trace, failing⟩
      have ended := casWeak_eq allows issues c₁.value (g c₁.value) o .relaxed c₁
      cases stored : c₁.stores .weak c₁.value with
      | true =>
        rw [stored] at ended
        exact .inl ⟨_, _, Access.bind_ok ended, _, Block.trace_concat trace _, tries, c₁.value, rfl,
          failing⟩
      | false =>
        rw [stored] at ended
        refine .inr ⟨_, _, Access.bind_ok ended, ⟨rfl, _, Block.trace_concat trace _, fun b hb => ?_⟩,
          c₁.tail_length_lt stored (.inl rfl)⟩
        rcases List.mem_append.mp hb with hb | hb
        · exact failing b hb
        · exact ⟨_, List.mem_singleton.mp hb⟩
    case start => rw [List.flatMap_singleton]
    case enough =>
      rw [allows.patience]
      exact Nat.lt_succ_self _
  obtain ⟨r, c', ended, right⟩ := ends
  exact ⟨r, c', _, (Access.bind_ok (load_eq allows issues .relaxed c)).trans ended, right.choose_spec⟩

theorem adds_casUntilDecided (e d : BitVec w) (s f : MemoryOrder) :
    ((machine n b).casUntilDecided e d s f).Adds fencing fun outcome blocks => ∃ tries,
      blocks = List.replicate tries (.cas e d s f false) ++ [.cas e d s f outcome.stored] := by
  intro c
  let tried (tries : Nat) : List (Block (BitVec w)) := List.replicate tries (.cas e d s f false)
  let attempt (_ : Unit) : Access (Cell (BitVec w)) (Unit ⊕ CasOutcome (BitVec w)) := do
    let outcome ← casWeak n b e d s f
    return if outcome.stored || outcome.expected ≠ e then .inr outcome else .inl ()
  have ends : ∃ r c', retry attempt (n.patience c) () c = .ok r c' ∧ ∃ tries, c'.trace =
      c.trace ++ (tried tries ++ [Block.cas e d s f r.stored]).flatMap (Block.events fencing) := by
    refine retry_ends
      (fun _ c₁ => ∃ tries, c₁.trace = c.trace ++ (tried tries).flatMap (Block.events fencing))
      _ (fun c₁ => c₁.script.length) ?step ⟨0, (List.append_nil _).symm⟩ ?enough
    case step =>
      rintro - c₁ ⟨tries, trace⟩
      have ended := casWeak_eq allows issues e d s f c₁
      cases stored : c₁.stores .weak e with
      | true =>
        rw [stored] at ended
        exact .inl ⟨⟨true, e⟩, _, Access.bind_ok ended, tries, Block.trace_concat trace _⟩
      | false =>
        let refused : Cell (BitVec w) := ⟨c₁.found, c₁.script.tail,
          c₁.trace ++ (Block.cas e d s f false).events fencing⟩
        have ended : casWeak n b e d s f c₁ = .ok ⟨false, c₁.found⟩ refused := by
          rw [ended, stored]
          rfl
        -- An attempt that fails on the expected value is made again, any other failure is the answer.
        by_cases same : c₁.found = e
        · have again : c₁.trace ++ (Block.cas e d s f false).events fencing =
              c.trace ++ (tried (tries + 1)).flatMap (Block.events fencing) := by
            show _ = c.trace ++ (List.replicate (tries + 1) _).flatMap _
            rw [List.replicate_succ']
            exact Block.trace_concat trace _
          refine .inr ⟨(), refused, (Access.bind_ok ended).trans ?_, ⟨tries + 1, again⟩,
            c₁.tail_length_lt stored (.inr same.symm)⟩
          simp [same]
          rfl
        · refine .inl ⟨⟨false, c₁.found⟩, refused, (Access.bind_ok ended).trans ?_, tries,
            Block.trace_concat trace _⟩
          simp [same]
          rfl
    case enough =>
      rw [allows.patience]
      exact Nat.lt_succ_self _
  obtain ⟨r, c', ended, tries, trace⟩ := ends
  exact ⟨r, c', _, ended, trace, tries, rfl⟩

theorem adds_fetchAdd (v : BitVec w) (o : MemoryOrder) :
    ((Cell.loadLinked n b).fetchAdd v o).Adds fencing fun _ blocks => blocks = [.fetchAdd v o] := by
  have one (v : BitVec w) : (fetchAdd n b v o).Adds fencing fun _ blocks =>
      blocks = [.fetchAdd v o] :=
    .one fun c => ⟨_, _, fetchAdd_eq allows issues v o c, rfl⟩
  show Access.Adds fencing (if v = 1 then fetchAdd n b 1 o else
    if v = -1 then fetchAdd n b (-1) o else fetchAdd n b v o) _
  split
  next up =>
    subst up
    exact one 1
  next =>
    split
    next down =>
      subst down
      exact one (-1)
    next => exact one v

/-! ### Calls -/

/-- Additions are the machine's own, and the bitwise updates are retry loops. -/
theorem adds_modify (u : Update) (v : BitVec w) (y : Yield) (o : MemoryOrder)
    (reply : Reply (BitVec w)) :
    ((Cell.loadLinked n b).modify u v y o).Adds fencing fun _ blocks =>
      (Call.modify u v y o).Makes reply blocks := by
  have bitwise (u : Update) := (adds_update allows issues (u.apply · v) o).map
    (Q := fun _ => Block.Loop (u.apply · v) o) (fun r => y.pick r.1 r.2) fun _ _ => id
  have add (v : BitVec w) := adds_fetchAdd allows issues v o
  cases u with
  | add => exact (add v).map (fun previous => y.pick previous (previous + v)) fun _ _ => id
  | sub => exact (add (-v)).map (fun previous => y.pick previous (previous - v)) fun _ _ => id
  | and => exact bitwise .and
  | or => exact bitwise .or
  | xor => exact bitwise .xor

/-- Whatever call is made, what it adds to the trace are its blocks. -/
theorem adds_perform {call : Call (BitVec w)} {access : Access (Cell (BitVec w)) (Reply (BitVec w))}
    (performed : (full n b).interface.perform? call = some access) :
    access.Adds fencing fun reply blocks => call.Makes reply blocks := by
  have answered (u : Update) (v : BitVec w) (y : Yield) (o : MemoryOrder) :
      (Interface.answer ((Cell.loadLinked n b).modify u v y o)).Adds fencing fun reply blocks =>
        (Call.modify u v y o).Makes reply blocks :=
    (adds_modify allows issues u v y o .done).map Reply.value fun _ _ made => by
      cases u <;> exact made
  cases call with
  | load o =>
    obtain rfl := Option.some.inj performed
    have one := Access.Adds.one fun c => ⟨_, _, load_eq allows issues o c, rfl⟩
    exact one.map Reply.value fun _ _ => id
  | store v o =>
    obtain rfl := Option.some.inj performed
    have one := Access.Adds.one fun c => ⟨_, _, store_eq allows issues v o c, rfl⟩
    exact one.map (fun _ => Reply.done) fun _ _ => id
  | cas strength e d s f =>
    cases strength with
    | weak =>
      obtain rfl := Option.some.inj performed
      refine (adds_casWeak allows issues e d s f).map Reply.outcome ?_
      exact fun outcome _ same => ⟨outcome, rfl, same⟩
    | strong =>
      obtain rfl := Option.some.inj performed
      refine (adds_casUntilDecided allows issues e d s f).map Reply.outcome ?_
      exact fun outcome _ ⟨tries, same⟩ => ⟨outcome, tries, rfl, same⟩
  | exchange v o =>
    obtain rfl := Option.some.inj performed
    have loop := (adds_update allows issues (fun _ => v) o).map
      (Q := fun _ => Block.Loop (fun _ => v) o) Prod.fst fun _ _ => id
    exact loop.map Reply.value fun _ _ => id
  | isLockFree =>
    obtain rfl := Option.some.inj performed
    exact fun c => ⟨.truth true, c, [], rfl, (List.append_nil _).symm, rfl⟩
  | modify u v y o =>
    obtain rfl := Option.some.inj performed
    exact answered u v y o
  | increment y o =>
    obtain rfl := Option.some.inj performed
    exact answered .add 1 y o
  | decrement y o =>
    obtain rfl := Option.some.inj performed
    exact answered .sub 1 y o
  | fetchAddVar | fetchInc | fetchDec => cases performed

/-- The call is answered and adds its blocks to the trace, in which all accesses are relaxed. If it is a
read-modify-write that gets through, the access that writes has the barriers of the call's order right
before and after it. -/
def Bracketed (fencing : Fencing (BitVec w)) (step : (full n b).Step) : Prop :=
  let before : Cell (BitVec w) := step.before
  let after : Cell (BitVec w) := step.after
  ∃ reply blocks, step.ending = some (.ok reply) ∧ step.call.Makes reply blocks ∧
    let events := blocks.flatMap (Block.events fencing)
    after.trace = before.trace ++ events ∧
      (∀ e ∈ events, e.relaxed = true ∨ e.isFence = true) ∧
      (step.call.Through reply → ∃ earlier write, write.writes = true ∧
        (∀ e ∈ earlier, e.writes = false) ∧ events = earlier ++
          (fencing.before step.call.order ++ write :: fencing.after step.call.order))

/-- Every call of a sequence, whatever others do in its way and whatever the barriers are, is bracketed
by them. -/
theorem bracketed_by_barriers (c : Cell (BitVec w)) {calls : List (Call (BitVec w))}
    (offered : ∀ call ∈ calls, ((full n b).interface.perform? call).isSome) :
    ∀ step ∈ (full n b).steps c calls, Bracketed fencing step := by
  refine CellKind.forall_steps (k := full n b) (fun call hc (c : Cell (BitVec w)) => ?_) c
  obtain ⟨access, performed⟩ := Option.isSome_iff_exists.mp (offered call hc)
  obtain ⟨reply, c', blocks, ended, trace, made⟩ := adds_perform allows issues performed c
  refine ⟨_, c', CellKind.call_ok performed ended, reply, blocks, rfl, made, trace, ?_, ?_⟩
  · intro e he
    obtain ⟨block, -, he⟩ := List.mem_flatMap.mp he
    rcases Block.mem_events issues he with rfl | fence
    · exact .inl block.access_relaxed
    · exact .inr fence
  · intro through
    obtain ⟨tries, last, rfl, silent, writes, shape⟩ := made.closed through
    refine ⟨_, last.access, writes, Block.not_writes issues silent, ?_⟩
    rw [List.flatMap_append, List.flatMap_singleton, shape]

omit allows issues in
/-- A machine the fences of which are all full ones. The exclusive or fails once on what another thread
writes and once without cause, and the strong compare-exchange finds something else. -/
theorem bracketed_by_barriers_alpha :
    let n : Native (Cell (BitVec 16)) (BitVec 16) := .strict
    let b : Barriers (Cell (BitVec 16)) := FenceTable.alpha.recorded
    let calls : List (Call (BitVec 16)) := [.modify .xor 0xF0 .updated .acqRel,
      .cas .strong 1 2 .seqCst .acquire, .load .seqCst]
    let c : Cell (BitVec 16) := ⟨3, [.overwrite 5, .spurious], []⟩
    n.Allows .hardware ∧ b.Issues FenceTable.alpha.visits ∧
      (∀ call ∈ calls, ((full n b).interface.perform? call).isSome) ∧
      ∀ step ∈ (full n b).steps c calls, Bracketed FenceTable.alpha.visits step := by
  intro n b calls c
  have offered : ∀ call ∈ calls, ((full n b).interface.perform? call).isSome := by
    simp [calls, full, CellKind.plain, Interface.perform?, Interface.exchangeOps,
      Interface.updateOps]
  have issues := FenceTable.issues_recorded (V := BitVec 16) .alpha
  exact ⟨Native.strict_allows, issues, offered,
    bracketed_by_barriers Native.strict_allows issues c offered⟩

example :
    let c : Cell (BitVec 16) := ⟨3, [.overwrite 5], []⟩
    let k := full Native.strict FenceTable.empty.recorded
    ((k.call (.exchange 7 .acqRel) c).2 : Cell (BitVec 16)).trace = [.load .relaxed, .after .relaxed,
      .before .acqRel, .cas .weak 3 7 .relaxed .relaxed false, .after .relaxed,
      .before .acqRel, .cas .weak 5 7 .relaxed .relaxed true, .after .acqRel] := rfl

end LoadLinked

end OrderedAtomics
