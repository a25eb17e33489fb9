import OrderedAtomics.Proofs.Discipline
import OrderedAtomics.Proofs.Queue.Chain

/-! What threads that share a queue know and rely on. Nodes come back, so whatever a thread has read
of the head, of the tail or of a link says something about the queue only while the cell has not
changed since. Each fact that is known of a cell is therefore known on the condition that its age is
zero, and the comparison of a step turns the condition into a fact. -/

namespace OrderedAtomics.Queue

variable {α : Type}

/-! ### First in, first out -/

/-- A queue as the list of its elements, oldest first. What `isEmpty` answers is left open. -/
inductive Fifo : List α → Call α → Reply α → List α → Prop
  | enqueues {v vs} : Fifo vs (.enqueue v) .accepted (vs ++ [v])
  | refuses {v vs} : Fifo vs (.enqueue v) (.rejected v) vs
  | dequeues {v vs} : Fifo (v :: vs) .dequeue (.item v) vs
  | misses : Fifo [] .dequeue .nothing []
  | looks {b vs} : Fifo vs .isEmpty (.truth b) vs

/-- The elements that operations have put in, newest first. -/
def enqueued (ops : List (Nat × Call α × Reply α)) : List α :=
  ops.filterMap fun
    | (_, .enqueue v, .accepted) => some v
    | _ => none

/-- The elements that operations have taken out, newest first. -/
def dequeued (ops : List (Nat × Call α × Reply α)) : List α :=
  ops.filterMap fun
    | (_, .dequeue, .item v) => some v
    | _ => none

/-- What has been put in was taken out in the same order, up to what is still there. -/
theorem enqueued_eq {ops : List (Nat × Call α × Reply α)} {vs : List α}
    (h : Legal Fifo [] ops vs) : (enqueued ops).reverse = (dequeued ops).reverse ++ vs := by
  induction h with
  | nil => rfl
  | @cons ops a a' i c r _ step ih =>
    cases step with
    | @enqueues v _ =>
      show (v :: enqueued ops).reverse = (dequeued ops).reverse ++ (a ++ [v])
      rw [List.reverse_cons, ih, List.append_assoc]
    | @dequeues v _ =>
      show (enqueued ops).reverse = (v :: dequeued ops).reverse ++ a'
      rw [List.reverse_cons, ih, List.append_assoc]
      rfl
    | refuses => exact ih
    | misses => exact ih
    | looks => exact ih

/-! ### Notes -/

/-- The tagged cells of a queue. -/
inductive Cell where
  | head
  | tail
  | next (node : Nat)
  deriving DecidableEq, Repr

variable (α) in
/-- An enqueue takes effect where it links its node, and a dequeue where it moves the head. The link
after the head shows whether a dequeue may find nothing. -/
def watch : Watch (Queue α) (Point α) (Reply α) Cell where
  cell q
    | .head => q.head.toLink
    | .tail => q.tail.toLink
    | .next i => q.next i
  reads
    | .readTail _ | .takeTail _ => some .tail
    | .readNext _ tail => some (.next tail.pointer)
    | .takeHead => some .head
    | _ => none
  compares
    | .recheckTail .. | .swing .. | .help .. | .helpTail .. => some .tail
    | .link _ tail _ => some (.next tail.pointer)
    | .recheckHead .. | .swapHead .. => some .head
    | _ => none
  mark q point next :=
    match point, next with
    | .allocate _, .inr r => some (.settles r)
    | .link .., .inl (.swing ..) => some (.settles .accepted)
    | .takeNext head _, _ =>
      match q.link head.pointer with
      | none => some (.shows .nothing)
      | some _ => none
    | .swapHead _ _ data, .inl (.release ..) => some (.settles (answer data))
    | .lookNext _, .inr r => some (.settles r)
    | _, _ => none

/-! ### Terms -/

/-- The node that a thread has to itself: a new one that it has not linked yet, or an old dummy. -/
def Point.kept : Point α → List Nat
  | .write node _ | .loadOwn node | .clearOwn node _ | .readTail node | .readNext node _
  | .recheckTail node _ _ | .link node _ _ | .help node _ _ | .release node _ => [node]
  | _ => []

/-- The node is for the element of an enqueue. -/
def Offers (q : Queue α) (φ : Phase (Call α) (Reply α)) (node : Nat) : Prop :=
  ∃ v shown, φ = .pending (.enqueue v) shown ∧ q.data node = some v

def Dequeues (φ : Phase (Call α) (Reply α)) : Prop := ∃ shown, φ = .pending .dequeue shown

/-- What was seen of an end of the queue, and what is so as long as the end has not changed. -/
structure While (seen now : Tagged Nat) (age : Nat) (fact : Prop) : Prop where
  tracks : Tracks seen.toLink now.toLink age
  holds : age = 0 → fact

/-- What a thread knows at each point. -/
def Knows (q : Queue α) (age : Cell → Nat) (φ : Phase (Call α) (Reply α)) : Point α → Prop
  | .allocate v | .write _ v => ∃ shown, φ = .pending (.enqueue v) shown
  | .loadOwn node => Offers q φ node
  | .clearOwn node link => Offers q φ node ∧ q.next node = link
  | .readTail node => Offers q φ node ∧ q.link node = none
  | .readNext node tail => Offers q φ node ∧ q.link node = none ∧
    Tracks tail.toLink q.tail.toLink (age .tail)
  | .recheckTail node tail next => Offers q φ node ∧ q.link node = none ∧
    While tail q.tail (age .tail) (∀ n, next.pointer = some n → q.link tail.pointer = some n) ∧
    Tracks next (q.next tail.pointer) (age (.next tail.pointer))
  | .link node tail next => Offers q φ node ∧ q.link node = none ∧ next.pointer = none ∧
    Tracks tail.toLink q.tail.toLink (age .tail) ∧
    Tracks next (q.next tail.pointer) (age (.next tail.pointer)) ∧
    (age (.next tail.pointer) = 0 → age .tail = 0)
  | .swing node tail => φ = .settled .accepted ∧
    While tail q.tail (age .tail) (q.link tail.pointer = some node)
  | .help node tail next => Offers q φ node ∧ q.link node = none ∧
    While tail q.tail (age .tail) (q.link tail.pointer = some next)
  | .takeHead => Dequeues φ
  | .takeTail head => Dequeues φ ∧ Tracks head.toLink q.head.toLink (age .head)
  | .takeNext head tail => Dequeues φ ∧ Tracks tail.toLink q.tail.toLink (age .tail) ∧
    While head q.head (age .head) (tail.pointer ≠ head.pointer → q.tail.pointer ≠ head.pointer)
  | .recheckHead head tail next => Dequeues φ ∧ Tracks tail.toLink q.tail.toLink (age .tail) ∧
    While head q.head (age .head)
      ((tail.pointer ≠ head.pointer → q.tail.pointer ≠ head.pointer) ∧
        (∀ n, next.pointer = some n → q.link head.pointer = some n) ∧
        (next.pointer = none → φ = .pending .dequeue (some .nothing)))
  | .helpTail tail next => Dequeues φ ∧
    While tail q.tail (age .tail) (q.link tail.pointer = some next)
  | .copy head next => Dequeues φ ∧
    While head q.head (age .head) (q.tail.pointer ≠ head.pointer ∧ q.link head.pointer = some next)
  | .swapHead head next data => Dequeues φ ∧
    While head q.head (age .head) (q.tail.pointer ≠ head.pointer ∧
      q.link head.pointer = some next ∧ q.data next = data)
  | .release _ data => ∃ v, φ = .settled (.item v) ∧ data = some v
  | .lookHead | .lookNext _ => ∃ shown, φ = .pending .isEmpty shown

/-- What a step leaves alone: the nodes of others, the links of the head and the tail that are set,
the element behind the head, a tail with nothing behind it, and a tail that is not at the head. -/
structure Spares (others : List Nat) (q q' : Queue α) : Prop where
  advances : (watch α).Advances q q'
  next : ∀ i ∈ others, q'.next i = q.next i
  data : ∀ i ∈ others, q'.data i = q.data i
  linked : ∀ i, i = q.head.pointer ∨ i = q.tail.pointer → q.link i ≠ none → q'.next i = q.next i
  oldest : ∀ n, q.link q.head.pointer = some n → q'.data n = q.data n
  stays : q.link q.tail.pointer = none → q'.tail = q.tail
  apart : q.tail.pointer ≠ q.head.pointer → q'.tail.pointer ≠ q.head.pointer

variable (α) in
def terms : Terms (Queue α) Unit (Call α) (Point α) (Reply α) Cell (List α) where
  spec := Fifo
  keeps _ point := point.elim [] Point.kept
  Shared q vs kept := ∃ chain free, Chained q chain free vs kept
  Local q age φ _ point := Knows q age φ point
  Rely := Spares

/-! ### Stability -/

variable {q q' : Queue α} {age : Cell → Nat} {φ : Phase (Call α) (Reply α)} {rest : List Nat}

namespace Spares

theorem refl (others : List Nat) (q : Queue α) : Spares others q q :=
  ⟨fun _ => .inl rfl, fun _ _ => rfl, fun _ _ => rfl, fun _ _ _ => rfl, fun _ _ => rfl,
    fun _ => rfl, fun h => h⟩

/-- As long as the head has not changed, a fact that the step leaves alone is still one. -/
theorem head {seen : Tagged Nat} {fact fact' : Prop} (h : Spares rest q q')
    (hw : While seen q.head (age .head) fact) (keep : q.head = seen → fact → fact') :
    While seen q'.head ((watch α).aged q q' age .head) fact' := by
  refine ⟨hw.tracks.aged (o := watch α) (k := .head) h.advances, fun ha => ?_⟩
  obtain ⟨ha, -⟩ := Watch.aged_eq_zero.mp ha
  exact keep (Tagged.toLink_inj.mp (hw.tracks.same ha)) (hw.holds ha)

theorem tail {seen : Tagged Nat} {fact fact' : Prop} (h : Spares rest q q')
    (hw : While seen q.tail (age .tail) fact) (keep : q.tail = seen → fact → fact') :
    While seen q'.tail ((watch α).aged q q' age .tail) fact' := by
  refine ⟨hw.tracks.aged (o := watch α) (k := .tail) h.advances, fun ha => ?_⟩
  obtain ⟨ha, -⟩ := Watch.aged_eq_zero.mp ha
  exact keep (Tagged.toLink_inj.mp (hw.tracks.same ha)) (hw.holds ha)

/-- A link at an end, once set, stays. -/
theorem link {i n : Nat} (h : Spares rest q q') (hi : i = q.head.pointer ∨ i = q.tail.pointer)
    (hn : q.link i = some n) : q'.link i = some n := by
  rw [Queue.link, h.linked i hi (by simp [hn])]
  exact hn

theorem offers {node : Nat} (h : Spares rest q q') (hr : node ∈ rest) (ho : Offers q φ node) :
    Offers q' φ node := by
  obtain ⟨v, shown, hφ, hv⟩ := ho
  exact ⟨v, shown, hφ, by rw [h.data node hr, hv]⟩

theorem unlinked {node : Nat} (h : Spares rest q q') (hr : node ∈ rest)
    (hn : q.link node = none) : q'.link node = none := by
  rw [Queue.link, h.next node hr]
  exact hn

end Spares

/-- A link that was read as null at the tail holds the tail in place. -/
theorem link_stable {tail : Tagged Nat} {next : Link} (hs : Spares rest q q')
    (null : next.pointer = none) (ht : Tracks tail.toLink q.tail.toLink (age .tail))
    (hn : Tracks next (q.next tail.pointer) (age (.next tail.pointer)))
    (hw : age (.next tail.pointer) = 0 → age .tail = 0)
    (ha : (watch α).aged q q' age (.next tail.pointer) = 0) :
    (watch α).aged q q' age .tail = 0 := by
  obtain ⟨ha, -⟩ := Watch.aged_eq_zero.mp ha
  have ht₀ := hw ha
  have tail_eq : q.tail = tail := Tagged.toLink_inj.mp (ht.same ht₀)
  have unlinked : q.link q.tail.pointer = none := by rw [tail_eq, link, hn.same ha, null]
  exact Watch.aged_eq_zero.mpr ⟨ht₀, congrArg Tagged.toLink (hs.stays unlinked)⟩

theorem Knows.stable {point : Point α} (h : Knows q age φ point) (hs : Spares rest q q')
    (hk : ∀ i ∈ point.kept, i ∈ rest) : Knows q' ((watch α).aged q q' age) φ point := by
  have aged {k : Cell} {seen : Link} (ht : Tracks seen ((watch α).cell q k) (age k)) :
      Tracks seen ((watch α).cell q' k) ((watch α).aged q q' age k) := ht.aged hs.advances
  cases point with
  | allocate v => exact h
  | write node v => exact h
  | loadOwn node => exact hs.offers (hk node (by simp [Point.kept])) h
  | clearOwn node link =>
    have hr := hk node (by simp [Point.kept])
    exact ⟨hs.offers hr h.1, by rw [hs.next node hr, h.2]⟩
  | readTail node =>
    have hr := hk node (by simp [Point.kept])
    exact ⟨hs.offers hr h.1, hs.unlinked hr h.2⟩
  | readNext node tail =>
    obtain ⟨ho, hn, ht⟩ := h
    have hr := hk node (by simp [Point.kept])
    exact ⟨hs.offers hr ho, hs.unlinked hr hn, aged (k := .tail) ht⟩
  | recheckTail node tail next =>
    obtain ⟨ho, hn, hw, hc⟩ := h
    have hr := hk node (by simp [Point.kept])
    refine ⟨hs.offers hr ho, hs.unlinked hr hn, hs.tail hw ?_, aged (k := .next _) hc⟩
    rintro rfl links n e
    exact hs.link (.inr rfl) (links n e)
  | link node tail next =>
    obtain ⟨ho, hn, null, ht, hc, hw⟩ := h
    have hr := hk node (by simp [Point.kept])
    exact ⟨hs.offers hr ho, hs.unlinked hr hn, null, aged (k := .tail) ht, aged (k := .next _) hc,
      link_stable hs null ht hc hw⟩
  | swing node tail =>
    refine ⟨h.1, hs.tail h.2 ?_⟩
    rintro rfl links
    exact hs.link (.inr rfl) links
  | help node tail next =>
    obtain ⟨ho, hn, hw⟩ := h
    have hr := hk node (by simp [Point.kept])
    refine ⟨hs.offers hr ho, hs.unlinked hr hn, hs.tail hw ?_⟩
    rintro rfl links
    exact hs.link (.inr rfl) links
  | takeHead => exact h
  | takeTail head => exact ⟨h.1, aged (k := .head) h.2⟩
  | takeNext head tail =>
    obtain ⟨hd, ht, hw⟩ := h
    refine ⟨hd, aged (k := .tail) ht, hs.head hw ?_⟩
    rintro rfl apart e
    exact hs.apart (apart e)
  | recheckHead head tail next =>
    obtain ⟨hd, ht, hw⟩ := h
    refine ⟨hd, aged (k := .tail) ht, hs.head hw ?_⟩
    rintro rfl ⟨apart, links, misses⟩
    exact ⟨fun e => hs.apart (apart e), fun n e => hs.link (.inl rfl) (links n e), misses⟩
  | helpTail tail next =>
    refine ⟨h.1, hs.tail h.2 ?_⟩
    rintro rfl links
    exact hs.link (.inr rfl) links
  | copy head next =>
    refine ⟨h.1, hs.head h.2 ?_⟩
    rintro rfl ⟨apart, links⟩
    exact ⟨hs.apart apart, hs.link (.inl rfl) links⟩
  | swapHead head next data =>
    refine ⟨h.1, hs.head h.2 ?_⟩
    rintro rfl ⟨apart, links, hv⟩
    exact ⟨hs.apart apart, hs.link (.inl rfl) links, by rw [hs.oldest next links, hv]⟩
  | release node data => exact h
  | lookHead => exact h
  | lookNext head => exact h

end OrderedAtomics.Queue
