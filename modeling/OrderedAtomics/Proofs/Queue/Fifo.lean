import OrderedAtomics.Proofs.Queue.Terms

/-! A queue is first in, first out, for any number of threads. An enqueue takes effect when it links
its node behind the last one, a dequeue when it moves the head, or when it reads that there is
nothing behind the dummy and the head turns out not to have moved. -/

namespace OrderedAtomics.Queue

variable {α : Type} {q q' : Queue α} {age : Cell → Nat} {φ : Phase (Call α) (Reply α)}
  {vs : List α} {chain free rest : List Nat} {node : Nat}

/-! ### What steps leave alone -/

theorem spares_restock (ends : q'.head = q.head ∧ q'.tail = q.tail)
    (content : q'.pool.content = q.pool.content) : Spares rest q q' := by
  have hn := next_congr content
  have hd := data_congr content
  refine ⟨fun k => .inl ?_, fun i _ => by rw [hn], fun i _ => by rw [hd], fun i _ _ => by rw [hn],
    fun n _ => by rw [hd], fun _ => ends.2, fun h => by rw [ends.2]; exact h⟩
  cases k with
  | head => exact congrArg Tagged.toLink ends.1
  | tail => exact congrArg Tagged.toLink ends.2
  | next i => exact congrFun hn i

/-- A link of a node that is not on the chain, or of a last one, gets the next tag. -/
theorem spares_setNext {n : Link} (hl : node < q.pool.size) (hr : node ∉ rest)
    (tag : n.tag = (q.next node).tag + 1)
    (ends : node = q.head.pointer ∨ node = q.tail.pointer → q.link node = none) :
    Spares rest q (q.setNext node n) := by
  have hn := next_setNext hl n
  have hd : (q.setNext node n).data = q.data := data_setNext node n
  refine ⟨fun k => ?_, fun i hi => ?_, fun i _ => by rw [hd], fun i he hi => ?_,
    fun n _ => by rw [hd], fun _ => rfl, fun h => h⟩
  · cases k with
    | head => exact .inl rfl
    | tail => exact .inl rfl
    | next i =>
      simp only [watch, hn]
      by_cases hi : i = node
      · subst hi
        rw [Function.update_self]
        exact .inr tag
      · rw [Function.update_of_ne hi]
        exact .inl rfl
  · rw [hn, Function.update_of_ne]
    rintro rfl
    exact hr hi
  · rw [hn, Function.update_of_ne]
    rintro rfl
    exact hi (ends he)

/-- Only the thread that has a node writes its element. -/
theorem spares_setData (hs : Chained q chain free vs (node :: rest)) (v : α) :
    Spares rest q (q.setData node v) := by
  have hl := hs.lt_size (i := node) (by simp)
  have hn : (q.setData node v).next = q.next := next_setData node v
  have hd := data_setData hl v
  refine ⟨fun k => .inl ?_, fun i _ => by rw [hn], fun i hi => ?_, fun i _ _ => by rw [hn],
    fun n links => ?_, fun _ => rfl, fun h => h⟩
  · cases k with
    | next i => exact congrFun hn i
    | _ => rfl
  · rw [hd, Function.update_of_ne]
    rintro rfl
    exact hs.stocked.alone hi
  · rw [hd, Function.update_of_ne]
    rintro rfl
    exact hs.not_mem (i := n) (by simp) (hs.link_ne_head hs.head_mem links).1

/-- Only a tail with a node behind it moves, and not to the head. -/
theorem spares_swingTail {n : Nat} {expected : Tagged Nat} {kept : List Nat}
    (hs : Chained q chain free vs kept)
    (hn : q.tail = expected → q.link expected.pointer = some n) :
    Spares rest q (q.swingTail expected n) := by
  by_cases he : q.tail = expected
  · have links : q.link q.tail.pointer = some n := by rw [he]; exact hn he
    have moved : q.swingTail expected n = ⟨q.head, q.tail.advance n, q.pool⟩ := by
      simp [swingTail, he]
    rw [moved]
    refine ⟨fun k => ?_, fun _ _ => rfl, fun _ _ => rfl, fun _ _ _ => rfl, fun _ _ => rfl,
      fun null => ?_, fun _ => (hs.link_ne_head hs.tail_mem links).2⟩
    · cases k with
      | tail => exact .inr rfl
      | _ => exact .inl rfl
    · rw [links] at null
      cases null
  · have stays : q.swingTail expected n = q := by simp [swingTail, he]
    rw [stays]
    exact .refl rest q

theorem spares_setHead {head : Tagged Nat} (tag : head.tag = q.head.tag + 1) :
    Spares rest q (q.setHead head) := by
  refine ⟨fun k => ?_, fun _ _ => rfl, fun _ _ => rfl, fun _ _ _ => rfl, fun _ _ => rfl,
    fun _ => rfl, fun h => h⟩
  cases k with
  | head => exact .inr tag
  | _ => exact .inl rfl

/-! ### Enqueue -/

theorem outcome_allocate {spurious : Bool} {v : α} {next : Point α ⊕ Reply α}
    (hs : Chained q chain free vs rest) (hk : Knows q age φ (.allocate v))
    (e : step spurious q (.allocate v) = (q', next)) :
    (terms α).Outcome (watch α) rest age φ vs q (.allocate v) q' () next := by
  obtain ⟨shown, hφ⟩ := hk
  rcases ht : q.take with ⟨_ | node, t⟩
  · simp only [step, ht, Prod.mk.injEq] at e
    obtain ⟨rfl, rfl⟩ := e
    obtain rfl := take_eq_none ht
    exact .reply rfl (.refl rest t) hφ .refuses ⟨chain, free, hs⟩
  · simp only [step, ht, Prod.mk.injEq] at e
    obtain ⟨rfl, rfl⟩ := e
    obtain ⟨free', hs'⟩ := hs.take ht
    exact .onward rfl (spares_restock (ends_take ht) (content_take ht)) ⟨chain, free', hs'⟩
      ⟨shown, hφ⟩

theorem outcome_write {v : α} (hs : Chained q chain free vs (node :: rest))
    (hk : Knows q age φ (.write node v)) :
    (terms α).Outcome (watch α) rest age φ vs q (.write node v) (q.setData node v) ()
      (.inl (.loadOwn node)) := by
  obtain ⟨shown, hφ⟩ := hk
  refine .onward rfl (spares_setData hs v) ⟨chain, free, hs.setData (by simp) v⟩ ⟨v, shown, hφ, ?_⟩
  rw [data_setData (hs.lt_size (by simp)), Function.update_self]

theorem outcome_clearOwn {link : Link} (hs : Chained q chain free vs (node :: rest))
    (hk : Knows q age φ (.clearOwn node link)) :
    (terms α).Outcome (watch α) rest age φ vs q (.clearOwn node link)
      (q.setNext node (link.advance none)) () (.inl (.readTail node)) := by
  obtain ⟨⟨v, shown, hφ, hv⟩, rfl⟩ := hk
  have hn : node ∈ node :: rest := by simp
  have hl := hs.lt_size (i := node) (by simp)
  have spares : Spares rest q (q.setNext node ((q.next node).advance none)) := by
    refine spares_setNext hl hs.stocked.alone rfl ?_
    rintro (rfl | rfl)
    · exact absurd hs.head_mem (hs.not_mem hn)
    · exact absurd hs.tail_mem (hs.not_mem hn)
  refine .onward rfl spares ⟨chain, free, hs.setNext hn _⟩ ⟨⟨v, shown, hφ, ?_⟩, ?_⟩
  · rw [data_setNext, hv]
  · rw [Queue.link, next_setNext hl, Function.update_self]
    rfl

theorem outcome_readTail (hs : Chained q chain free vs (node :: rest))
    (hk : Knows q age φ (.readTail node)) :
    (terms α).Outcome (watch α) rest age φ vs q (.readTail node) q ()
      (.inl (.readNext node q.tail)) :=
  .look rfl (.refl rest q) ⟨chain, free, hs⟩
    ⟨hk.1, hk.2, Watch.tracks_renewed (o := watch α) (k := .tail) rfl q age⟩

theorem outcome_readNext {tail : Tagged Nat} (hs : Chained q chain free vs (node :: rest))
    (hk : Knows q age φ (.readNext node tail)) :
    (terms α).Outcome (watch α) rest age φ vs q (.readNext node tail) q ()
      (.inl (.recheckTail node tail (q.next tail.pointer))) := by
  obtain ⟨ho, hn, ht⟩ := hk
  refine .look rfl (.refl rest q) ⟨chain, free, hs⟩ ⟨ho, hn, ⟨?_, fun _ n e => e⟩,
    Watch.tracks_renewed (o := watch α) (k := .next tail.pointer) rfl q age⟩
  rw [Watch.renewed_of_ne (by simp [watch])]
  exact ht

/-- The tail that was read has been the tail since, so its link was read while it was. -/
theorem outcome_recheckTail {tail : Tagged Nat} {next : Link} {spurious : Bool}
    {next' : Point α ⊕ Reply α} (hs : Chained q chain free vs (node :: rest))
    (hk : Knows q age φ (.recheckTail node tail next)) (fresh : age .tail < 2 ^ addressWidth)
    (e : step spurious q (.recheckTail node tail next) = (q', next')) :
    (terms α).Outcome (watch α) rest age φ vs q (.recheckTail node tail next) q' () next' := by
  obtain ⟨ho, hn, hw, hc⟩ := hk
  simp only [step] at e
  split at e
  next same =>
    have ha : age .tail = 0 := hw.tracks.age_eq_zero fresh (congrArg Tagged.toLink same)
    rcases hp : next.pointer with _ | n
    · simp only [hp] at e
      cases e
      exact .look rfl (.refl rest q) ⟨chain, free, hs⟩ ⟨ho, hn, hp, hw.tracks, hc, fun _ => ha⟩
    · simp only [hp] at e
      cases e
      exact .look rfl (.refl rest q) ⟨chain, free, hs⟩
        ⟨ho, hn, hw.tracks, fun ha => hw.holds ha n hp⟩
  next => cases e; exact .look rfl (.refl rest q) ⟨chain, free, hs⟩ ⟨ho, hn⟩

/-- The link is still null, so the node it is in is still the tail, and the last one. -/
theorem outcome_link {tail : Tagged Nat} {next : Link}
    (hs : Chained q chain free vs (node :: rest)) (hk : Knows q age φ (.link node tail next))
    (fresh : age (.next tail.pointer) < 2 ^ addressWidth) (same : q.next tail.pointer = next) :
    (terms α).Outcome (watch α) rest age φ vs q (.link node tail next)
      (q.setNext tail.pointer (next.advance (some node))) () (.inl (.swing node tail)) := by
  obtain ⟨⟨v, shown, hφ, hv⟩, hn, null, ht, hc, hw⟩ := hk
  subst same
  have ha := hw (hc.age_eq_zero fresh rfl)
  obtain rfl : q.tail = tail := Tagged.toLink_inj.mp (ht.same ha)
  have hl := hs.lt_size (List.mem_append_left _ hs.tail_mem)
  have hr : q.tail.pointer ∉ rest := fun hr =>
    hs.not_mem (List.mem_cons_of_mem node hr) hs.tail_mem
  have spares : Spares rest q
      (q.setNext q.tail.pointer ((q.next q.tail.pointer).advance (some node))) :=
    spares_setNext hl hr rfl fun _ => null
  have hs' := hs.append null hn hv ((q.next q.tail.pointer).tag + 1)
  refine ⟨spares, .settled .accepted, vs ++ [v], by rw [hφ]; exact .settles .enqueues,
    ⟨_, free, hs'⟩, rfl, Tracks.aged (o := watch α) (k := .tail) ht spares.advances, fun _ => ?_⟩
  rw [Queue.link, next_setNext hl, Function.update_self]
  rfl

/-- A tail that was read is moved on if it is still the tail. -/
theorem swing_fresh {tail : Tagged Nat} {n : Nat} {kept : List Nat}
    (hs : Chained q chain free vs kept)
    (hw : While tail q.tail (age .tail) (q.link tail.pointer = some n))
    (fresh : age .tail < 2 ^ addressWidth) :
    Spares rest q (q.swingTail tail n) ∧ Chained (q.swingTail tail n) chain free vs kept := by
  have hn : q.tail = tail → q.link tail.pointer = some n := fun same =>
    hw.holds (hw.tracks.age_eq_zero fresh (congrArg Tagged.toLink same))
  exact ⟨spares_swingTail hs hn, hs.swingTail hn⟩

theorem outcome_swing {tail : Tagged Nat} (hs : Chained q chain free vs rest)
    (hk : Knows q age φ (.swing node tail)) (fresh : age .tail < 2 ^ addressWidth) :
    (terms α).Outcome (watch α) rest age φ vs q (.swing node tail) (q.swingTail tail node) ()
      (.inr .accepted) := by
  obtain ⟨rfl, hw⟩ := hk
  obtain ⟨spares, hs'⟩ := swing_fresh hs hw fresh
  exact ⟨spares, _, vs, .none, ⟨chain, free, hs'⟩, rfl⟩

theorem outcome_help {tail : Tagged Nat} {n : Nat} (hs : Chained q chain free vs (node :: rest))
    (hk : Knows q age φ (.help node tail n)) (fresh : age .tail < 2 ^ addressWidth) :
    (terms α).Outcome (watch α) rest age φ vs q (.help node tail n) (q.swingTail tail n) ()
      (.inl (.readTail node)) := by
  obtain ⟨ho, hn, hw⟩ := hk
  obtain ⟨spares, hs'⟩ := swing_fresh hs hw fresh
  exact .onward rfl spares ⟨chain, free, hs'⟩ ⟨ho, hn⟩

/-! ### Dequeue -/

theorem outcome_takeHead (hs : Chained q chain free vs rest) (hk : Knows q age φ .takeHead) :
    (terms α).Outcome (watch α) rest age φ vs q .takeHead q () (.inl (.takeTail q.head)) :=
  .look rfl (.refl rest q) ⟨chain, free, hs⟩
    ⟨hk, Watch.tracks_renewed (o := watch α) (k := .head) rfl q age⟩

theorem outcome_takeTail {head : Tagged Nat} (hs : Chained q chain free vs rest)
    (hk : Knows q age φ (.takeTail head)) :
    (terms α).Outcome (watch α) rest age φ vs q (.takeTail head) q ()
      (.inl (.takeNext head q.tail)) := by
  refine .look rfl (.refl rest q) ⟨chain, free, hs⟩
    ⟨hk.1, Watch.tracks_renewed (o := watch α) (k := .tail) rfl q age, ?_, fun _ apart => apart⟩
  rw [Watch.renewed_of_ne (by simp [watch])]
  exact hk.2

/-- Nothing behind the dummy means that there is no element, but only at the head. -/
theorem outcome_takeNext {head tail : Tagged Nat} (hs : Chained q chain free vs rest)
    (hk : Knows q age φ (.takeNext head tail)) :
    (terms α).Outcome (watch α) rest age φ vs q (.takeNext head tail) q ()
      (.inl (.recheckHead head tail (q.next head.pointer))) := by
  obtain ⟨⟨shown, hφ⟩, ht, hw⟩ := hk
  rcases hn : q.link head.pointer with _ | n
  · have mark : (watch α).mark q (.takeNext head tail)
        (.inl (.recheckHead head tail (q.next head.pointer))) = some (.shows .nothing) := by
      simp only [watch, hn]
    by_cases ha : age .head = 0
    · obtain rfl : q.head = head := Tagged.toLink_inj.mp (hw.tracks.same ha)
      obtain rfl := hs.eq_nil hn
      refine ⟨.refl rest q, .pending .dequeue (some .nothing), [],
        by rw [mark, hφ]; exact .shows .misses, ⟨chain, free, hs⟩, ?_⟩
      rw [Watch.aged_self]
      exact ⟨⟨_, rfl⟩, ht, hw.tracks, fun ha => ⟨hw.holds ha, fun n e => e, fun _ => rfl⟩⟩
    · refine ⟨.refl rest q, .pending .dequeue none, vs,
        by rw [mark, hφ]; exact .hides, ⟨chain, free, hs⟩, ?_⟩
      rw [Watch.aged_self]
      exact ⟨⟨_, rfl⟩, ht, hw.tracks, fun h => absurd h ha⟩
  · have mark : (watch α).mark q (.takeNext head tail)
        (.inl (.recheckHead head tail (q.next head.pointer))) = none := by
      simp only [watch, hn]
    refine .look mark (.refl rest q) ⟨chain, free, hs⟩ ⟨⟨shown, hφ⟩, ht, hw.tracks, fun ha =>
      ⟨hw.holds ha, fun n e => e, fun null => ?_⟩⟩
    exact absurd (hn.symm.trans null) (by simp)

/-- The head that was read has been the head since. -/
theorem outcome_recheckHead {head tail : Tagged Nat} {next : Link} {spurious : Bool}
    {next' : Point α ⊕ Reply α} (hs : Chained q chain free vs rest)
    (hk : Knows q age φ (.recheckHead head tail next)) (fresh : age .head < 2 ^ addressWidth)
    (e : step spurious q (.recheckHead head tail next) = (q', next')) :
    (terms α).Outcome (watch α) rest age φ vs q (.recheckHead head tail next) q' () next' := by
  obtain ⟨hd, ht, hw⟩ := hk
  have again : (terms α).Outcome (watch α) rest age φ vs q (.recheckHead head tail next) q ()
      (.inl .takeHead) := .look rfl (.refl rest q) ⟨chain, free, hs⟩ hd
  simp only [step] at e
  split at e
  next same =>
    have ha : age .head = 0 := hw.tracks.age_eq_zero fresh (congrArg Tagged.toLink same)
    obtain ⟨apart, links, misses⟩ := hw.holds ha
    split at e
    next close =>
      rcases hp : next.pointer with _ | n
      · simp only [hp] at e
        cases e
        exact ⟨.refl rest q, φ, vs, .none, ⟨chain, free, hs⟩, by rw [misses hp]; rfl⟩
      · simp only [hp] at e
        cases e
        exact .look rfl (.refl rest q) ⟨chain, free, hs⟩
          ⟨hd, ht, fun _ => by rw [← close]; exact links n hp⟩
    next far =>
      rcases hp : next.pointer with _ | n
      · simp only [hp] at e
        cases e
        exact again
      · simp only [hp] at e
        cases e
        exact .look rfl (.refl rest q) ⟨chain, free, hs⟩
          ⟨hd, hw.tracks, fun _ => ⟨apart (Ne.symm far), links n hp⟩⟩
  next => cases e; exact again

theorem outcome_helpTail {tail : Tagged Nat} {n : Nat} (hs : Chained q chain free vs rest)
    (hk : Knows q age φ (.helpTail tail n)) (fresh : age .tail < 2 ^ addressWidth) :
    (terms α).Outcome (watch α) rest age φ vs q (.helpTail tail n) (q.swingTail tail n) ()
      (.inl .takeHead) := by
  obtain ⟨spares, hs'⟩ := swing_fresh hs hk.2 fresh
  exact .onward rfl spares ⟨chain, free, hs'⟩ hk.1

theorem outcome_copy {head : Tagged Nat} {n : Nat} (hs : Chained q chain free vs rest)
    (hk : Knows q age φ (.copy head n)) :
    (terms α).Outcome (watch α) rest age φ vs q (.copy head n) q ()
      (.inl (.swapHead head n (q.data n))) :=
  .look rfl (.refl rest q) ⟨chain, free, hs⟩
    ⟨hk.1, hk.2.tracks, fun ha => ⟨(hk.2.holds ha).1, (hk.2.holds ha).2, rfl⟩⟩

/-- The head has not changed, so the element that was copied is still the oldest. -/
theorem outcome_swapHead {head : Tagged Nat} {n : Nat} {data : Option α}
    (hs : Chained q chain free vs rest) (hk : Knows q age φ (.swapHead head n data))
    (fresh : age .head < 2 ^ addressWidth) (same : q.head = head) :
    (terms α).Outcome (watch α) rest age φ vs q (.swapHead head n data)
      (q.setHead (head.advance n)) () (.inl (.release head.pointer data)) := by
  obtain ⟨⟨shown, hφ⟩, hw⟩ := hk
  obtain ⟨apart, links, rfl⟩ :=
    hw.holds (hw.tracks.age_eq_zero fresh (congrArg Tagged.toLink same))
  subst same
  obtain ⟨left, v, vs', rfl, hv, hs'⟩ := hs.advance links apart (q.head.tag + 1)
  have mark : (watch α).mark q (.swapHead q.head n (q.data n))
      (.inl (.release q.head.pointer (q.data n))) = some (.settles (.item v)) := by
    show some (Effect.settles (answer (q.data n))) = _
    rw [hv]; rfl
  exact ⟨spares_setHead rfl, _, vs', by rw [mark, hφ]; exact .settles .dequeues,
    ⟨_, free, hs'⟩, v, rfl, hv⟩

theorem outcome_release {data : Option α} (hs : Chained q chain free vs (node :: rest))
    (hk : Knows q age φ (.release node data)) :
    (terms α).Outcome (watch α) rest age φ vs q (.release node data) (q.give node) ()
      (.inr (answer data)) := by
  obtain ⟨v, rfl, rfl⟩ := hk
  exact ⟨spares_restock ⟨rfl, rfl⟩ (Pool.content_give node), _, vs, .none,
    ⟨chain, _, hs.give⟩, rfl⟩

/-! ### Any step -/

theorem outcome_step {spurious : Bool} {point : Point α} {next : Point α ⊕ Reply α}
    (hs : Chained q chain free vs (point.kept ++ rest)) (hk : Knows q age φ point)
    (fresh : ∀ k, (watch α).compares point = some k → age k < 2 ^ addressWidth)
    (e : step spurious q point = (q', next)) :
    (terms α).Outcome (watch α) rest age φ vs q point q' () next := by
  cases point with
  | allocate v => exact outcome_allocate hs hk e
  | write node v => cases e; exact outcome_write hs hk
  | loadOwn node => cases e; exact .look rfl (.refl rest q) ⟨chain, free, hs⟩ ⟨hk, rfl⟩
  | clearOwn node link => cases e; exact outcome_clearOwn hs hk
  | readTail node => cases e; exact outcome_readTail hs hk
  | readNext node tail => cases e; exact outcome_readNext hs hk
  | recheckTail node tail next => exact outcome_recheckTail hs hk (fresh .tail rfl) e
  | link node tail next =>
    rcases swap_cases e with ⟨same, e⟩ | e
    · cases e; exact outcome_link hs hk (fresh _ rfl) same
    · cases e; exact .look rfl (.refl rest q) ⟨chain, free, hs⟩ ⟨hk.1, hk.2.1⟩
  | swing node tail => cases e; exact outcome_swing hs hk (fresh .tail rfl)
  | help node tail next => cases e; exact outcome_help hs hk (fresh .tail rfl)
  | takeHead => cases e; exact outcome_takeHead hs hk
  | takeTail head => cases e; exact outcome_takeTail hs hk
  | takeNext head tail => cases e; exact outcome_takeNext hs hk
  | recheckHead head tail next => exact outcome_recheckHead hs hk (fresh .head rfl) e
  | helpTail tail next => cases e; exact outcome_helpTail hs hk (fresh .tail rfl)
  | copy head next => cases e; exact outcome_copy hs hk
  | swapHead head next data =>
    rcases swap_cases e with ⟨same, e⟩ | e
    · cases e; exact outcome_swapHead hs hk (fresh .head rfl) same
    · cases e; exact .look rfl (.refl rest q) ⟨chain, free, hs⟩ hk.1
  | release node data => cases e; exact outcome_release hs hk
  | lookHead => cases e; exact .look rfl (.refl rest q) ⟨chain, free, hs⟩ hk
  | lookNext head =>
    cases e
    obtain ⟨shown, hφ⟩ := hk
    exact .reply rfl (.refl rest q) hφ .looks ⟨chain, free, hs⟩

variable (α) in
/-- Threads that share a queue leave each other's nodes alone, and the ends as long as somebody may
think that they have not changed. -/
def discipline : Discipline protocol (watch α) (List α) where
  toTerms := terms α
  ready _ _ _ := rfl
  perm hp := fun ⟨chain, free, h⟩ => ⟨chain, free, h.perm hp⟩
  enter := by
    rintro own c own' point e
    cases c <;> cases e <;> exact ⟨.refl _, fun _ _ => ⟨none, rfl⟩⟩
  stable rely hk h := Knows.stable h rely hk
  step hs hk fresh e := by
    obtain ⟨chain, free, hs⟩ := hs
    cases e
    exact outcome_step hs hk fresh rfl

/-! ### Runs -/

/-- What a run has come to: the operations that have taken effect, newest first, the elements that
are left, and the nodes they are in. -/
structure Serial (w : Observed (Queue α) Unit (Call α) (Point α) (Reply α) Cell)
    (ops : List (Nat × Call α × Reply α)) (vs : List α) (chain : List Nat) : Prop where
  history : history w.log = w.world.history
  order : Linearized Fifo [] w.log ops vs
  /-- No element is lost, taken twice, or taken before an older one. -/
  conserved : (enqueued ops).reverse = (dequeued ops).reverse ++ vs
  path : Path w.world.shared.link (some w.world.shared.head.pointer) chain none
  distinct : chain.Nodup
  /-- There is at most one node behind the tail. -/
  tail : ∃ before, chain = before ++ [w.world.shared.tail.pointer] ∨
    ∃ last, chain = before ++ [w.world.shared.tail.pointer, last]
  /-- The elements are in the nodes behind the dummy. -/
  data : chain.tail.map w.world.shared.data = vs.map some
  free : Path w.world.shared.pool.next w.world.shared.pool.head.pointer w.world.shared.pool.free
    none
  /-- Every node is on the chain, free, or kept by one thread. -/
  once : (w.world.shared.pool.free ++ (chain ++ w.world.threads.flatMap fun t =>
    t.point.elim [] Point.kept)).Perm (List.range w.world.shared.pool.size)

theorem serial_of_holds {w : Observed (Queue α) Unit (Call α) (Point α) (Reply α) Cell}
    (h : (discipline α).Holds [] w vs) (hw : history w.log = w.world.history) :
    ∃ ops chain, Serial w ops vs chain := by
  obtain ⟨φ, hlog, ⟨chain, free, hs⟩, -⟩ := h
  obtain ⟨ops, order⟩ := hlog.linearized
  have hf := hs.stocked.free_eq
  refine ⟨ops, chain, hw, order, enqueued_eq order.2, hs.path, hs.path.nodup, hs.tail, hs.data,
    ?_, ?_⟩
  · rw [hf]; exact hs.stocked.path
  · rw [hf]; exact hs.stocked.once

theorem holds_run {policy : Policy} {capacity : Nat} {value : Footprint}
    (made : create policy capacity value = .ok q)
    (threads : Nat) (as : List (Action (Call α)))
    (unwrapped : Observed.unwrapped protocol (watch α) as
      (Observed.start q (List.replicate threads ()))) :
    ∃ vs, (discipline α).Holds [] (Observed.run protocol (watch α) as
      (Observed.start q (List.replicate threads ()))) vs := by
  obtain ⟨dummy, free, new⟩ := chained_create made
  have start : (discipline α).Holds [] (Observed.start q (List.replicate threads ())) [] :=
    Discipline.holds_start (fun _ _ => rfl) ⟨[dummy], free, new⟩
  exact start.run unwrapped

/-- Calls of any number of threads on a new queue, in any order of their steps, are linearizable. -/
theorem first_in_first_out {policy : Policy} {capacity : Nat} {value : Footprint}
    (made : create policy capacity value = .ok q) (threads : Nat) (as : List (Action (Call α)))
    (unwrapped : Observed.unwrapped protocol (watch α) as
      (Observed.start q (List.replicate threads ()))) :
    ∃ ops vs chain, Serial (Observed.run protocol (watch α) as
      (Observed.start q (List.replicate threads ()))) ops vs chain := by
  obtain ⟨vs, h⟩ := holds_run made threads as unwrapped
  obtain ⟨ops, chain, serial⟩ := serial_of_holds h (Observed.history_log _ _ rfl)
  exact ⟨ops, vs, chain, serial⟩

/-- One thread has copied the element behind the dummy. Meanwhile that element is taken by another
thread, and the dummy comes back as the node of a new element and becomes the dummy once more. -/
theorem first_in_first_out_after_return :
    ∃ q : Queue Nat, create .static 1 = .ok q ∧
      let as : List (Action (Call Nat)) :=
        .call 0 (.enqueue 10) :: List.replicate 9 (.step 0 false) ++
        .call 1 .dequeue :: List.replicate 5 (.step 1 false) ++
        .call 2 .dequeue :: List.replicate 7 (.step 2 false) ++
        .call 0 (.enqueue 20) :: List.replicate 8 (.step 0 false) ++
        .call 2 .dequeue :: List.replicate 12 (.step 2 false) ++
        List.replicate 5 (.step 1 false) ++ [.step 0 false]
      Observed.unwrapped protocol (watch Nat) as (Observed.start q [(), (), ()]) ∧
        ∃ ops vs chain, Serial (Observed.run protocol (watch Nat) as
          (Observed.start q [(), (), ()])) ops vs chain :=
  ⟨_, rfl, by decide +kernel,
    @first_in_first_out Nat _ .static 1 .text rfl 3 _ (by decide +kernel)⟩

end OrderedAtomics.Queue
