import OrderedAtomics.Pool.Protocol
import OrderedAtomics.Proofs.Chain
import OrderedAtomics.Proofs.Discipline
import OrderedAtomics.Proofs.Pool.Stock

/-! Who has the slots of a pool. Between any two steps every slot is free, held by a thread, or on
its way into the pool with one. A thread that takes a slot may have followed the link of one that is
no longer free; the tag of the head tells it before the old link does harm. -/

namespace OrderedAtomics.Pool

variable {ν : Type}

/-! ### Terms -/

variable (ν) in
/-- A reply is given at the step at which the call takes effect. -/
def watch : Watch (Pool ν) Point Reply Unit where
  cell p _ := p.head
  reads
    | .loadForPop | .swapForPop .. | .loadForPush _ | .swapForPush .. => some ()
    | _ => none
  compares
    | .swapForPop .. | .swapForPush .. => some ()
    | _ => none
  mark _ _ next := next.getRight?.map .settles

/-- The slots of a chain but for the last one. -/
def Chain.before (c : Chain) : List Nat := List.range' c.first (c.last - c.first)

def Chain.slots (c : Chain) : List Nat := c.before ++ [c.last]

/-- The chain that a thread is about to push. -/
def Point.chain? : Point → Option Chain
  | .loadForPush c | .storeNext c _ | .swapForPush c _ => some c
  | _ => none

def Point.carried (point : Point) : List Nat := point.chain?.elim [] Chain.slots

def keeps (held : List Nat) : Option Point → List Nat
  | none => held
  | some point => point.carried ++ held

/-- A pool as a list of free slots. -/
inductive Serves (policy : Policy) : List Nat → Call → Reply → List Nat → Prop
  | takes {i free} : Serves policy (i :: free) .allocate (.slot i) free
  | grows {i free} : policy = .caching → Serves policy free .allocate (.slot i) free
  | exhausted : policy = .static → Serves policy [] .allocate .exhausted []
  | gives {i free} : Serves policy free (.deallocate i) .done (i :: free)
  | reserves {n fresh free} : fresh.length = n →
    Serves policy free (.reserve n) .done (fresh ++ free)
  | refuses {n free} : policy = .static → Serves policy free (.reserve n) .done free

/-- The slots of a chain are linked, and pushing them is what the call is for. -/
structure Carries (policy : Policy) (p : Pool ν) (φ : Phase Call Reply) (c : Chain) : Prop where
  linked : Path p.next (some c.first) c.before (some c.last)
  call : ∃ call shown, φ = .pending call shown ∧
    ∀ free, Serves policy free call .done (c.slots ++ free)

/-- The call of a thread that wants a slot. -/
def Allocates (φ : Phase Call Reply) : Prop := ∃ shown, φ = .pending .allocate shown

/-- What a thread knows at each point. -/
def Knows (policy : Policy) (p : Pool ν) (age : Unit → Nat) (φ : Phase Call Reply) : Point → Prop
  | .loadForPop => Allocates φ
  | .loadNext head i => Allocates φ ∧ Tracks head p.head (age ()) ∧ head.pointer = some i
  | .swapForPop head i next => Allocates φ ∧ Tracks head p.head (age ()) ∧
    head.pointer = some i ∧ (age () = 0 → p.next i = next)
  | .grow => Allocates φ ∧ policy = .caching
  | .makeChain n => ∃ shown, φ = .pending (.reserve n) shown
  | .loadForPush c | .storeNext c _ => Carries policy p φ c
  | .swapForPush c head => Carries policy p φ c ∧ p.next c.last = head.pointer

variable (ν) in
def terms (policy : Policy) : Terms (Pool ν) (List Nat) Call Point Reply Unit (List Nat) where
  spec := Serves policy
  keeps := keeps
  Shared p free kept := p.Stocked free kept ∧ p.policy = policy
  Local p age φ _ point := Knows policy p age φ point
  Rely := Spares (watch ν) next

/-! ### Stability -/

variable {policy : Policy} {p p' : Pool ν} {age : Unit → Nat} {φ : Phase Call Reply}
  {free held rest : List Nat}

theorem Carries.stable {c : Chain} (h : Carries policy p φ c)
    (hs : Spares (watch ν) next rest p p') (hc : ∀ i ∈ c.slots, i ∈ rest) :
    Carries policy p' φ c :=
  ⟨hs.path (fun i hi => hc i (by simp [Chain.slots, hi])) h.linked, h.call⟩

theorem Knows.stable {point : Point} (h : Knows policy p age φ point)
    (hs : Spares (watch ν) next rest p p') (hc : ∀ i ∈ point.carried, i ∈ rest) :
    Knows policy p' ((watch ν).aged p p' age) φ point := by
  cases point with
  | loadForPop => exact h
  | loadNext head i =>
    obtain ⟨hφ, ht, hi⟩ := h
    exact ⟨hφ, hs.tracks ht, hi⟩
  | swapForPop head i next =>
    obtain ⟨hφ, ht, hi, hn⟩ := h
    exact ⟨hφ, hs.tracks ht, hi, hs.link ht hi hn⟩
  | grow => exact h
  | makeChain n => exact h
  | loadForPush c => exact Carries.stable h hs hc
  | storeNext c head => exact Carries.stable h hs hc
  | swapForPush c head =>
    obtain ⟨hk, hn⟩ := h
    refine ⟨hk.stable hs hc, ?_⟩
    rw [hs.same c.last (hc c.last (by simp [Point.carried, Point.chain?, Chain.slots])), hn]

/-! ### Steps -/

theorem spares_note (h : Spares (watch ν) next rest p p') (n : Option Notice) :
    Spares (watch ν) next rest p (noteAll p' n) := by
  cases n with
  | none => exact h
  | some n => exact ⟨h.advances, h.same, h.first⟩

/-- Only the thread that has a slot changes its link. -/
theorem spares_setNext {i : Nat} {kept : List Nat} (hs : p.Stocked free (kept ++ rest))
    (hi : i ∈ kept) (n : Option Nat) : Spares (watch ν) next rest p (p.setNext i n) := by
  have hk : i ∈ kept ++ rest := List.mem_append_left rest hi
  refine .relink i rfl (fun j hj => ?_) (fun hr => ?_) fun hh => ?_
  · rw [next_setNext (hs.lt_of_mem hk), Function.update_of_ne hj]
  · exact hs.apart hr hi
  · obtain ⟨rest, rfl, -⟩ := hs.pop hh 0
    exact hs.not_mem_free hk (by simp)

theorem spares_extend [Inhabited ν] {kept : List Nat} (hs : p.Stocked free (kept ++ rest))
    (n : Nat) : Spares (watch ν) next rest p (p.extend n) := by
  refine ⟨fun _ => .inl rfl, fun i hi => next_extend_of_lt ?_, fun i hi => next_extend_of_lt ?_⟩
  · exact hs.lt_of_mem (List.mem_append_right kept hi)
  · obtain ⟨rest, rfl, -⟩ := hs.pop hi 0
    exact hs.lt_size (by simp)

/-- A thread that looks at the head in order to take a slot. If it finds none, there is none. -/
theorem outcome_popAt {point : Point} (reads : (watch ν).reads point = some ())
    (hs : p.Stocked free (held ++ rest)) (hp : p.policy = policy) (hφ : Allocates φ) :
    (terms ν policy).Outcome (watch ν) rest age φ free p point p held
      (popAt p.policy p.head) := by
  rcases hh : p.head.pointer with _ | i
  · obtain rfl := hs.free_eq_nil hh
    obtain ⟨shown, hφ⟩ := hφ
    cases policy with
    | static =>
      simp only [popAt, hh, hp]
      exact .reply rfl (.refl _ _ rest p) hφ (.exhausted rfl) ⟨hs, hp⟩
    | caching =>
      simp only [popAt, hh, hp]
      exact .look rfl (.refl _ _ rest p) ⟨hs, hp⟩ ⟨⟨shown, hφ⟩, rfl⟩
  · simp only [popAt, hh]
    exact .look rfl (.refl _ _ rest p) ⟨hs, hp⟩ ⟨hφ, Watch.tracks_renewed reads p age, hh⟩

theorem outcome_loadNext {head : Link} {i : Nat} (hs : p.Stocked free (held ++ rest))
    (hp : p.policy = policy) (hk : Knows policy p age φ (.loadNext head i)) :
    (terms ν policy).Outcome (watch ν) rest age φ free p (.loadNext head i) p held
      (.inl (.swapForPop head i (p.next i))) := by
  obtain ⟨hφ, ht, hi⟩ := hk
  exact .look rfl (.refl _ _ rest p) ⟨hs, hp⟩ ⟨hφ, ht, hi, fun _ => rfl⟩

/-- A head that has not changed stands before a link that has not changed. -/
theorem outcome_swapForPop {head : Link} {i : Nat} {next : Option Nat}
    (hs : p.Stocked free (held ++ rest)) (hp : p.policy = policy)
    (hk : Knows policy p age φ (.swapForPop head i next)) (fresh : age () < 2 ^ addressWidth)
    (same : p.head = head) :
    (terms ν policy).Outcome (watch ν) rest age φ free p (.swapForPop head i next)
      (p.setHead (head.advance next)) (i :: held) (.inr (.slot i)) := by
  obtain ⟨⟨shown, hφ⟩, ht, hi, hn⟩ := hk
  obtain rfl := hn (ht.age_eq_zero fresh same)
  subst same
  obtain ⟨left, rfl, hs'⟩ := hs.pop hi (p.head.tag + 1)
  exact .reply rfl (.move rfl rfl) hφ .takes ⟨hs', hp⟩

theorem outcome_grow [Inhabited ν] (hs : p.Stocked free (held ++ rest)) (hp : p.policy = policy)
    (hk : Knows policy p age φ .grow) :
    (terms ν policy).Outcome (watch ν) rest age φ free p .grow
      ((p.note (.growing (p.size + 1))).extend 1) (p.size :: held) (.inr (.slot p.size)) := by
  obtain ⟨⟨shown, hφ⟩, hc⟩ := hk
  have swap : (p.note (.growing (p.size + 1))).extend 1 =
      noteAll (p.extend 1) (some (.growing (p.size + 1))) := rfl
  rw [swap]
  exact .reply rfl (spares_note (spares_extend hs 1) _) hφ (.grows hc) ⟨(hs.extend 1).note _, hp⟩

/-- New slots are on their way into the pool, linked in order. -/
theorem outcome_makeChain [Inhabited ν] {n : Nat} (hs : p.Stocked free (held ++ rest))
    (hp : p.policy = policy) (hk : Knows policy p age φ (.makeChain (n + 1))) :
    (terms ν policy).Outcome (watch ν) rest age φ free p (.makeChain (n + 1)) (p.extend (n + 1))
      held (.inl (.loadForPush ⟨p.size, p.size + n, some (.reserved (n + 1))⟩)) := by
  obtain ⟨shown, hφ⟩ := hk
  have hb : Chain.before ⟨p.size, p.size + n, some (.reserved (n + 1))⟩ = List.range' p.size n := by
    rw [Chain.before, Nat.add_sub_cancel_left]
  have hc : Chain.slots ⟨p.size, p.size + n, some (.reserved (n + 1))⟩ =
      List.range' p.size (n + 1) := by
    rw [Chain.slots, hb, List.range'_concat, Nat.one_mul]
  refine .onward rfl (spares_extend hs (n + 1)) ⟨?_, hp⟩ ⟨?_, _, _, hφ, fun free => ?_⟩
  · have := hs.extend (n + 1)
    rwa [← hc, ← List.append_assoc] at this
  · rw [hb]
    exact path_extend p n
  · rw [hc]
    exact .reserves (by simp)

theorem outcome_loadForPush {point : Point} {c : Chain}
    (hs : p.Stocked free (c.slots ++ held ++ rest)) (hp : p.policy = policy)
    (hk : Carries policy p φ c) :
    (terms ν policy).Outcome (watch ν) rest age φ free p point p held
      (.inl (.storeNext c p.head)) :=
  .look rfl (.refl _ _ rest p) ⟨hs, hp⟩ hk

theorem outcome_storeNext {c : Chain} {head : Link}
    (hs : p.Stocked free (c.slots ++ held ++ rest)) (hp : p.policy = policy)
    (hk : Knows policy p age φ (.storeNext c head)) :
    (terms ν policy).Outcome (watch ν) rest age φ free p (.storeNext c head)
      (p.setNext c.last head.pointer) held (.inl (.swapForPush c head)) := by
  obtain ⟨linked, hφ⟩ := hk
  have hl : c.last ∈ c.slots ++ held := by simp [Chain.slots]
  have spares := spares_setNext hs hl head.pointer
  have hn : (p.setNext c.last head.pointer).next = Function.update p.next c.last head.pointer :=
    next_setNext (hs.lt_of_mem (List.mem_append_left rest hl)) _
  have apart : c.last ∉ c.before := by
    rw [Chain.slots, List.append_assoc, List.append_assoc] at hs
    exact hs.apart (by simp)
  refine .onward rfl spares ⟨hs.setNext (List.mem_append_left rest hl) _, hp⟩
    ⟨⟨linked.congr fun i hi => ?_, hφ⟩, ?_⟩
  · rw [hn, Function.update_of_ne]
    rintro rfl
    exact apart hi
  · rw [hn, Function.update_self]

/-- The chain comes before the free slots if the head is still the one that it was linked to. -/
theorem outcome_swapForPush {c : Chain} {head : Link}
    (hs : p.Stocked free (c.slots ++ held ++ rest)) (hp : p.policy = policy)
    (hk : Knows policy p age φ (.swapForPush c head)) (same : p.head = head) :
    (terms ν policy).Outcome (watch ν) rest age φ free p (.swapForPush c head)
      (noteAll (p.setHead (head.advance (some c.first))) c.notice) held (.inr .done) := by
  obtain ⟨⟨linked, call, shown, hφ, serves⟩, hl⟩ := hk
  subst same
  have path : Path p.next (some c.first) c.slots p.head.pointer :=
    Path.append.mpr ⟨_, linked, rfl, hl⟩
  rw [List.append_assoc] at hs
  have pushed := hs.push path (p.head.tag + 1)
  have spares : Spares (watch ν) next rest p (p.setHead (p.head.advance (some c.first))) :=
    .move rfl rfl
  refine .reply rfl (spares_note spares c.notice) hφ (serves free) ?_
  rcases c.notice with _ | n
  · exact ⟨pushed, hp⟩
  · exact ⟨pushed.note n, hp⟩

theorem outcome_step [Inhabited ν] {spurious : Bool} {point : Point} {p' : Pool ν}
    {held' : List Nat} {next : Point ⊕ Reply}
    (hs : p.Stocked free (point.carried ++ held ++ rest)) (hp : p.policy = policy)
    (hk : Knows policy p age φ point)
    (fresh : ∀ k, (watch ν).compares point = some k → age k < 2 ^ addressWidth)
    (e : step spurious p held point = (p', held', next)) :
    (terms ν policy).Outcome (watch ν) rest age φ free p point p' held' next := by
  cases point with
  | loadForPop => cases e; exact outcome_popAt rfl hs hp hk
  | loadNext head i => cases e; exact outcome_loadNext hs hp hk
  | swapForPop head i next =>
    rcases swap_cases e with ⟨same, e⟩ | e
    · cases e; exact outcome_swapForPop hs hp hk (fresh () rfl) same
    · cases e; exact outcome_popAt rfl hs hp hk.1
  | grow => cases e; exact outcome_grow hs hp hk
  | makeChain n =>
    obtain ⟨shown, hφ⟩ := id hk
    have done (h : Serves policy free (.reserve n) .done free) :
        (terms ν policy).Outcome (watch ν) rest age φ free p (.makeChain n) p held
          (.inr .done) :=
      .reply rfl (.refl _ _ rest p) hφ h ⟨hs, hp⟩
    cases policy with
    | static =>
      simp only [step, hp] at e
      cases e
      exact done (.refuses rfl)
    | caching =>
      cases n with
      | zero =>
        simp only [step, hp] at e
        cases e
        exact done (@Serves.reserves _ 0 [] free rfl)
      | succ n =>
        simp only [step, hp] at e
        cases e
        exact outcome_makeChain hs hp hk
  | loadForPush c => cases e; exact outcome_loadForPush hs hp hk
  | storeNext c head => cases e; exact outcome_storeNext hs hp hk
  | swapForPush c head =>
    rcases swap_cases e with ⟨same, e⟩ | e
    · cases e; exact outcome_swapForPush hs hp hk same
    · cases e; exact outcome_loadForPush hs hp hk.1

variable (ν policy) in
/-- Threads that share a pool leave each other's slots alone. -/
def discipline [Inhabited ν] : Discipline protocol (watch ν) (List Nat) where
  toTerms := terms ν policy
  ready _ _ _ := rfl
  perm hp h := ⟨h.1.perm hp, h.2⟩
  enter := by
    intro held c held' point e
    cases c with
    | allocate => cases e; exact ⟨.refl _, fun _ _ => ⟨none, rfl⟩⟩
    | deallocate i =>
      simp only [protocol, enter, Option.ite_none_right_eq_some] at e
      obtain ⟨hi, e⟩ := e
      cases e
      have hc : Chain.slots ⟨i, i, none⟩ = [i] := by simp [Chain.slots, Chain.before]
      refine ⟨?_, fun _ _ => ⟨by simp [Chain.before, Path], _, _, rfl, fun free => ?_⟩⟩
      · simpa [terms, keeps, Point.carried, Point.chain?, hc] using List.perm_cons_erase hi
      · rw [hc]; exact .gives
    | reserve n => cases e; exact ⟨.refl _, fun _ _ => ⟨none, rfl⟩⟩
  stable rely hc h := Knows.stable h rely fun i hi => hc i (List.mem_append_left _ hi)
  step hs hk fresh e := outcome_step hs.1 hs.2 hk fresh e

/-! ### Places -/

theorem size_step [Inhabited ν] (spurious : Bool) (p : Pool ν) (held : List Nat) (point : Point) :
    p.size ≤ (step spurious p held point).1.size := by
  cases point with
  | swapForPop head i next => rw [step]; split <;> simp
  | grow => simp [step]
  | makeChain n =>
    rcases hp : p.policy with _ | _ <;> rcases n with _ | n <;> simp [step, hp]
  | swapForPush c head =>
    rw [step]
    split
    · cases c.notice <;> simp [noteAll]
    · exact Nat.le_refl p.size
  | _ => simp [step]

/-- A static pool has no slot for a thread only if the thread has just seen that none is free. -/
theorem step_exhausted [Inhabited ν] {spurious : Bool} {held : List Nat} {point : Point}
    (h : (step spurious p held point).2.2 = .inr .exhausted) :
    p.policy = .static ∧ p.head.pointer = none := by
  have seen (h : popAt p.policy p.head = .inr .exhausted) :
      p.policy = .static ∧ p.head.pointer = none := by
    unfold popAt at h
    split at h <;> simp_all
  cases point with
  | loadForPop => exact seen h
  | swapForPop head i next =>
    rw [step] at h
    split at h
    · cases h
    · exact seen h
  | makeChain n =>
    rcases hp : p.policy with _ | _ <;> rcases n with _ | n <;> simp [step, hp] at h
  | swapForPush c head =>
    rw [step] at h
    split at h <;> cases h
  | _ => cases h

/-- Every slot has one place: it is free, held by one thread, or in a chain that one thread is about
to push. -/
structure Placed [Inhabited ν] (w : World (Pool ν) (List Nat) Call Point Reply) : Prop where
  chain : Path w.shared.next w.shared.head.pointer w.shared.free none
  acyclic : w.shared.free.Nodup
  once : (w.shared.free ++ w.threads.flatMap fun t => keeps t.own t.point).Perm
    (List.range w.shared.size)
  linked : ∀ t ∈ w.threads, ∀ c, t.point.bind Point.chain? = some c →
    Path w.shared.next (some c.first) c.before (some c.last)
  /-- No slot goes away. -/
  stays : ∀ a, w.shared.size ≤ (World.act protocol a w).shared.size
  /-- The step at which a call finds no slot is a look at the head of an empty chain. -/
  exhausted : ∀ a i, (World.act protocol a w).history = .answered i .exhausted :: w.history →
    w.shared.policy = .static ∧ w.shared.free = []

theorem placed_of_holds [Inhabited ν] {a₀ : List Nat}
    {w : Observed (Pool ν) (List Nat) Call Point Reply Unit}
    (h : (discipline ν policy).Holds a₀ w free) : Placed w.world := by
  obtain ⟨φ, -, ⟨hs, -⟩, hk⟩ := h
  have hf := hs.free_eq
  refine ⟨?_, ?_, ?_, ?_, ?_, ?_⟩
  · rw [hf]; exact hs.path
  · rw [hf]; exact hs.path.nodup
  · rw [hf]; exact hs.once
  · intro t ht c hc
    obtain ⟨i, hi⟩ := List.getElem?_of_mem ht
    obtain ⟨own, _ | point⟩ := t
    · cases hc
    · have := hk i _ hi
      cases point <;> cases hc
      · exact Carries.linked this
      · exact Carries.linked this
      · exact this.1.linked
  · intro a
    rw [← Observed.world_act (o := watch ν)]
    rcases Observed.act_cases protocol (watch ν) a w with e | ⟨i, c, _, _, _, rfl, ht, he⟩ |
      ⟨i, spurious, own, point, rfl, ht, hr⟩
    · exact Nat.le_of_eq (by rw [e])
    · exact Nat.le_of_eq (by rw [Observed.act_call ht he])
    · rw [Observed.act_step ht hr rfl]
      exact size_step spurious w.world.shared own point
  · intro a i he
    obtain ⟨spurious, own, point, rfl, ht, hr⟩ := Observed.act_answered (watch ν) he
    obtain ⟨static, hh⟩ := step_exhausted hr
    exact ⟨static, by rw [hf, hs.free_eq_nil hh]⟩

/-- Threads that begin with a new pool and hold no slots may take and give them, and make room for
more, in any order of their steps. -/
theorem every_slot_has_one_place [Inhabited ν] {slotBytes capacity : Nat}
    (made : create policy slotBytes capacity = .ok p) (threads : Nat) (as : List (Action Call))
    (unwrapped : Observed.unwrapped protocol (watch ν) as
      (Observed.start p (List.replicate threads []))) :
    Placed (World.run protocol as (World.start p (List.replicate threads []))) := by
  obtain ⟨hs, hp, -⟩ := stocked_create made
  have start : (discipline ν policy).Holds (List.range capacity)
      (Observed.start p (List.replicate threads [])) (List.range capacity) :=
    Discipline.holds_start (fun _ hl => (List.mem_replicate.mp hl).2) ⟨hs, hp⟩
  obtain ⟨free, h⟩ := start.run unwrapped
  have := placed_of_holds h
  rwa [Observed.world_run] at this

/-- A thread loses a slot to another one between its look at the head and its swap. The slot comes
back to the head, but under another tag. -/
theorem every_slot_has_one_place_after_return :
    ∃ p : Pool Nat, create .static 8 2 = .ok p ∧
      let as : List (Action Call) :=
        [.call 0 .allocate, .step 0 false, .step 0 false,
          .call 1 .allocate, .step 1 false, .step 1 false, .step 1 false,
          .call 1 .allocate, .step 1 false, .step 1 false, .step 1 false,
          .call 1 (.deallocate 0), .step 1 false, .step 1 false, .step 1 false,
          .step 0 false, .step 0 false, .step 0 false,
          .call 1 .allocate, .step 1 false]
      Observed.unwrapped protocol (watch Nat) as (Observed.start p [[], []]) ∧
        Placed (World.run protocol as (World.start p [[], []])) :=
  ⟨_, rfl, by decide +kernel,
    @every_slot_has_one_place Nat .static _ _ 8 2 rfl 2 _ (by decide +kernel)⟩

end OrderedAtomics.Pool
