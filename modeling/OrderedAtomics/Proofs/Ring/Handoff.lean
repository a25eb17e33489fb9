import OrderedAtomics.Proofs.Interleaving
import OrderedAtomics.Proofs.Ring.Window

/-! A ring between two threads. Whatever the order of the steps of the producer and the consumer,
values come out in the order in which they went in, and the two threads never work on the same
slot. Each of them acts on a copy of the other's index that may be old. That is harmless since the
window of unread values only grows by the one and only shrinks by the other. -/

namespace OrderedAtomics.Ring

open Observed (arrived answers)

variable {α : Type}

/-- A world around a buffer whose ends belong to different threads. -/
abbrev Split (α : Type) := World (Ring α) Role (Call α) (Point α) (Reply α)

/-- The first thread gets the end for writing, the second one the end for reading. -/
def split (r : Ring α) : Split α := World.start r [.producer, .consumer]

/-! ### What has gone in and what has come out -/

/-- The value that a call brings. -/
def Call.value? : Call α → Option α
  | .enqueue v => some v
  | _ => none

/-- What an answer to an enqueue of a value publishes. -/
def Reply.accepts (offer : Option α) : Reply α → List α
  | .accepted => offer.toList
  | _ => []

/-- What an answer hands out. -/
def Reply.gives : Reply α → List α
  | .item v => [v]
  | _ => []

/-- The value of the latest enqueue in a history, which has the newest moment first. Only one thread
makes enqueues. -/
def offered : List (Moment (Call α) (Reply α)) → Option α
  | [] => none
  | .called _ call :: earlier => call.value?.or (offered earlier)
  | .answered _ _ :: earlier => offered earlier

/-- The values that have been published, oldest first. An enqueue is accepted by its store of
`write`. -/
def published : List (Moment (Call α) (Reply α)) → List α
  | [] => []
  | .called _ _ :: earlier => published earlier
  | .answered _ reply :: earlier => published earlier ++ reply.accepts (offered earlier)

/-- The values that dequeues have returned, oldest first. -/
def returned : List (Moment (Call α) (Reply α)) → List α
  | [] => []
  | .called _ _ :: earlier => returned earlier
  | .answered _ reply :: earlier => returned earlier ++ reply.gives

/-- The published values that no dequeue has returned, oldest first, when the buffer had some values
in it before. -/
def unread (before : List α) (history : List (Moment (Call α) (Reply α))) : List α :=
  (before ++ published history).drop (returned history).length

/-! ### What the threads know -/

variable {r r' : Ring α} {vs vs' : List α} {offer : Option α} {p c : Option (Point α)}
  {point : Point α} {next : Point α ⊕ Reply α}

/-- What the producer knows. -/
def Offers (r : Ring α) (vs : List α) (offer : Option α) : Point α → Prop
  | .loadWrite v => offer = some v
  | .checkRead v write => offer = some v ∧ write = r.write
  | .fill v write next => offer = some v ∧ write = r.write ∧
    next = nextIndex r.write r.slots.size ∧ vs.length + 1 < r.slots.size
  | .storeWrite next => offer.isSome ∧ r.slot r.write = offer ∧
    next = nextIndex r.write r.slots.size ∧ vs.length + 1 < r.slots.size
  | .fullWrite | .fullRead _ => True
  | _ => False

/-- What the consumer knows. -/
def Takes (r : Ring α) (vs : List α) : Point α → Prop
  | .checkWrite read => read = r.read
  | .empty read => read = r.read ∧ vs ≠ []
  | .storeRead next data => next = nextIndex r.read r.slots.size ∧ data.isSome ∧ vs.head? = data
  | .lenRead write => write < r.slots.size
  | .loadRead | .lenWrite | .emptyRead | .emptyWrite _ => True
  | _ => False

/-- The values that the consumer has taken out of their slots and not returned. -/
def inHand : Option (Point α) → Nat
  | some (.storeRead _ _) => 1
  | _ => 0

/-- The unread values are `vs`, and the two threads know where they are. -/
structure Shared (r : Ring α) (vs : List α) (offer : Option α) (p c : Option (Point α)) :
    Prop where
  holding : r.Holding vs (inHand c)
  producer : ∀ point, p = some point → Offers r vs offer point
  consumer : ∀ point, c = some point → Takes r vs point

/-- The steps of the consumer leave the slot at `write` alone and make room. -/
theorem Offers.stable (h : Offers r vs offer point) (write : r'.write = r.write)
    (size : r'.slots.size = r.slots.size) (slot : r'.slot r.write = r.slot r.write)
    (room : vs'.length ≤ vs.length) : Offers r' vs' offer point := by
  cases point with
  | loadWrite v => exact h
  | checkRead v i => exact ⟨h.1, by rw [h.2, write]⟩
  | fill v i next =>
    obtain ⟨ho, hi, hn, hr⟩ := h
    exact ⟨ho, by rw [hi, write], by rw [hn, write, size], by omega⟩
  | storeWrite next =>
    obtain ⟨ho, hs, hn, hr⟩ := h
    exact ⟨ho, by rw [write, slot, hs], by rw [hn, write, size], by omega⟩
  | fullWrite => trivial
  | fullRead i => trivial
  | _ => cases h

/-- The steps of the producer leave `read` alone and may publish another value. -/
theorem Takes.stable (h : Takes r vs point) (read : r'.read = r.read)
    (size : r'.slots.size = r.slots.size) (more : vs <+: vs') : Takes r' vs' point := by
  obtain ⟨us, rfl⟩ := more
  cases point with
  | checkWrite i => exact h.trans read.symm
  | empty i => exact ⟨h.1.trans read.symm, by simp [h.2]⟩
  | storeRead next data =>
    obtain ⟨hn, hd, hv⟩ := h
    refine ⟨by rw [hn, read, size], hd, ?_⟩
    obtain ⟨v, rfl⟩ := Option.isSome_iff_exists.mp hd
    rw [List.head?_append, hv]
    rfl
  | lenRead write => exact lt_of_lt_of_eq h size.symm
  | loadRead => trivial
  | lenWrite => trivial
  | emptyRead => trivial
  | emptyWrite i => trivial
  | _ => cases h

/-! ### Steps -/

/-- What a step publishes. -/
def added (offer : Option α) (next : Point α ⊕ Reply α) : List α :=
  next.elim (fun _ => []) (Reply.accepts offer)

/-- What a step hands out. -/
def removed (next : Point α ⊕ Reply α) : List α := next.elim (fun _ => []) Reply.gives

/-- A step of the producer hands out nothing, and what it publishes comes last. -/
structure Produces (r : Ring α) (vs : List α) (offer : Option α) (c : Option (Point α))
    (r' : Ring α) (next : Point α ⊕ Reply α) : Prop where
  read : r'.read = r.read
  size : r'.slots.size = r.slots.size
  removed : removed next = []
  shared : Shared r' (vs ++ added offer next) offer (arrived next) c

/-- A step of the consumer publishes nothing, and what it hands out was first. -/
structure Consumes (r : Ring α) (vs : List α) (offer : Option α) (p : Option (Point α))
    (r' : Ring α) (next : Point α ⊕ Reply α) : Prop where
  size : r'.slots.size = r.slots.size
  added : added offer next = []
  shared : ∃ vs', vs = removed next ++ vs' ∧ Shared r' vs' offer p (arrived next)

namespace Shared

/-- A step of the producer that changes nothing. -/
theorem looks (h : Shared r vs offer (some point) c) (added : added offer next = [])
    (removed : removed next = []) (knows : ∀ point', arrived next = some point' →
      Offers r vs offer point') : Produces r vs offer c r next where
  read := rfl
  size := rfl
  removed := removed
  shared := by
    rw [added, List.append_nil]
    exact ⟨h.holding, knows, h.consumer⟩

theorem produces_fill {v : α} {i n : Nat} (h : Shared r vs offer (some (.fill v i n)) c) :
    Produces r vs offer c (r.setSlot i (some v)) (.inl (.storeWrite n)) := by
  obtain ⟨ho, rfl, rfl, room⟩ := h.producer _ rfl
  have slot : (r.setSlot r.write (some v)).slot r.write = some v := by
    rw [slot_setSlot h.holding.write_lt, Function.update_self]
  refine ⟨rfl, size_setSlot _ _ _, rfl, ?_, ?_, ?_⟩
  · simpa [added] using h.holding.fill v
  · rintro _ ⟨⟩
    refine ⟨by simp [ho], by rw [ho]; exact slot, ?_, ?_⟩
    · rw [size_setSlot]; rfl
    · simpa [added] using room
  · intro point hc
    exact (h.consumer point hc).stable rfl (size_setSlot _ _ _) (by simp [added])

theorem produces_storeWrite {n : Nat} (h : Shared r vs offer (some (.storeWrite n)) c) :
    Produces r vs offer c (r.setWrite n) (.inr .accepted) := by
  obtain ⟨ho, hs, rfl, room⟩ := h.producer _ rfl
  obtain ⟨v, rfl⟩ := Option.isSome_iff_exists.mp ho
  refine ⟨rfl, rfl, rfl, h.holding.publish room hs, ?_, ?_⟩
  · rintro _ ⟨⟩
  · intro point hc
    exact (h.consumer point hc).stable rfl rfl (List.prefix_append _ _)

theorem produce (h : Shared r vs offer (some point) c) (e : step r point = (r', next)) :
    Produces r vs offer c r' next := by
  have hk := h.producer point rfl
  cases point with
  | loadWrite v =>
    cases e
    exact h.looks rfl rfl fun _ hp => by cases hp; exact ⟨hk, rfl⟩
  | checkRead v write =>
    obtain ⟨ho, rfl⟩ := hk
    by_cases hn : nextIndex r.write r.slots.size = r.read
    · simp only [step, hn, if_true] at e
      cases e
      exact h.looks rfl rfl fun _ hp => by cases hp
    · simp only [step, hn, if_false] at e
      cases e
      have room : vs.length + 1 < r.slots.size := by
        have hf := h.holding.fits
        have := mt h.holding.nextIndex_eq_read.mpr hn
        omega
      exact h.looks rfl rfl fun _ hp => by cases hp; exact ⟨ho, rfl, rfl, room⟩
  | fill v i n => cases e; exact h.produces_fill
  | storeWrite n => cases e; exact h.produces_storeWrite
  | fullWrite => cases e; exact h.looks rfl rfl fun _ hp => by cases hp; trivial
  | fullRead write => cases e; exact h.looks rfl rfl fun _ hp => by cases hp
  | _ => cases hk

/-- A step of the consumer that changes nothing. -/
theorem sees (h : Shared r vs offer p (some point)) (added : added offer next = [])
    (removed : removed next = []) (hand : inHand (arrived next) = inHand (some point))
    (knows : ∀ point', arrived next = some point' → Takes r vs point') :
    Consumes r vs offer p r next where
  size := rfl
  added := added
  shared := ⟨vs, by rw [removed]; rfl, by rw [hand]; exact h.holding, h.producer, knows⟩

theorem consumes_empty {i : Nat} (h : Shared r vs offer p (some (.empty i))) :
    Consumes r vs offer p (r.setSlot i none)
      (.inl (.storeRead (nextIndex i r.slots.size) (r.slot i))) := by
  obtain ⟨rfl, ne⟩ := h.consumer _ rfl
  have hh : r.Holding vs 0 := h.holding
  obtain ⟨v, vs, rfl⟩ := List.exists_cons_of_ne_nil ne
  refine ⟨size_setSlot _ _ _, rfl, v :: vs, rfl, hh.empty, ?_, ?_⟩
  · intro point hp
    refine (h.producer point hp).stable rfl (size_setSlot _ _ _) ?_ (Nat.le_refl _)
    have hne : r.write ≠ r.read := fun e => ne (hh.read_eq_write.mp e.symm)
    rw [slot_setSlot hh.read_lt, Function.update_of_ne hne]
  · rintro _ ⟨⟩
    refine ⟨?_, by rw [hh.slot_read]; rfl, by rw [hh.slot_read]; rfl⟩
    rw [size_setSlot]
    rfl

theorem consumes_storeRead {n : Nat} {data : Option α}
    (h : Shared r vs offer p (some (.storeRead n data))) :
    Consumes r vs offer p (r.setRead n) (.inr (answer data)) := by
  obtain ⟨rfl, hd, hv⟩ := h.consumer _ rfl
  obtain ⟨v, rfl⟩ := Option.isSome_iff_exists.mp hd
  obtain ⟨vs, rfl⟩ := List.head?_eq_some_iff.mp hv
  have hh : r.Holding (v :: vs) 1 := h.holding
  refine ⟨rfl, rfl, vs, rfl, hh.release, ?_, ?_⟩
  · intro point hp
    exact (h.producer point hp).stable rfl rfl rfl (by simp)
  · rintro _ ⟨⟩

theorem consume (h : Shared r vs offer p (some point)) (e : step r point = (r', next)) :
    Consumes r vs offer p r' next := by
  have hk := h.consumer point rfl
  cases point with
  | loadRead => cases e; exact h.sees rfl rfl rfl fun _ hp => by cases hp; rfl
  | checkWrite read =>
    obtain rfl : read = r.read := hk
    by_cases hn : r.read = r.write
    · simp only [step, hn, if_true] at e
      cases e
      exact h.sees rfl rfl rfl fun _ hp => by cases hp
    · simp only [step, hn, if_false] at e
      cases e
      have ne : vs ≠ [] := mt h.holding.read_eq_write.mpr hn
      exact h.sees rfl rfl rfl fun _ hp => by cases hp; exact ⟨rfl, ne⟩
  | empty i => cases e; exact h.consumes_empty
  | storeRead n data => cases e; exact h.consumes_storeRead
  | lenWrite => cases e; exact h.sees rfl rfl rfl fun _ hp => by cases hp; exact h.holding.write_lt
  | lenRead write => cases e; exact h.sees rfl rfl rfl fun _ hp => by cases hp
  | emptyRead => cases e; exact h.sees rfl rfl rfl fun _ hp => by cases hp; trivial
  | emptyWrite read => cases e; exact h.sees rfl rfl rfl fun _ hp => by cases hp
  | _ => cases hk

end Shared

/-! ### Runs -/

variable {slots : Nat} {before : List α} {w : Split α}

/-- What is the same in all moments of a run. -/
structure Going (slots : Nat) (before : List α) (w : Split α) (p c : Option (Point α))
    (vs : List α) : Prop where
  threads : w.threads = [⟨.producer, p⟩, ⟨.consumer, c⟩]
  size : w.shared.slots.size = slots
  balance : before ++ published w.history = returned w.history ++ vs
  shared : Shared w.shared vs (offered w.history) p c

namespace Going

theorem published_answers (i : Nat) (next : Point α ⊕ Reply α)
    (history : List (Moment (Call α) (Reply α))) :
    published (answers i next ++ history) = published history ++ added (offered history) next := by
  cases next <;> simp [answers, published, added]

theorem returned_answers (i : Nat) (next : Point α ⊕ Reply α)
    (history : List (Moment (Call α) (Reply α))) :
    returned (answers i next ++ history) = returned history ++ removed next := by
  cases next <;> simp [answers, returned, removed]

theorem offered_answers (i : Nat) (next : Point α ⊕ Reply α)
    (history : List (Moment (Call α) (Reply α))) :
    offered (answers i next ++ history) = offered history := by
  cases next <;> rfl

/-- A thread is the one end or the other. -/
theorem thread_cases (h : Going slots before w p c vs) {i : Nat} {own : Role}
    {point : Option (Point α)} (ht : w.threads[i]? = some ⟨own, point⟩) :
    (i = 0 ∧ own = .producer ∧ point = p) ∨ (i = 1 ∧ own = .consumer ∧ point = c) := by
  rw [h.threads] at ht
  rcases i with _ | _ | i
  · left; simpa [eq_comm] using ht
  · right; simpa [eq_comm] using ht
  · simp at ht

/-- The producer begins a call. -/
theorem produce_call (h : Going slots before w none c vs) {call : Call α}
    (may : Role.producer.may call) :
    Going slots before ⟨w.shared, w.threads.set 0 ⟨.producer, some (enter call)⟩,
      .called 0 call :: w.history⟩ (some (enter call)) c vs where
  threads := by rw [h.threads]; rfl
  size := h.size
  balance := h.balance
  shared := by
    refine ⟨h.shared.holding, ?_, h.shared.consumer⟩
    rintro _ ⟨⟩
    cases call with
    | enqueue v => rfl
    | isFull => trivial
    | _ => cases may

/-- The consumer begins a call. -/
theorem consume_call (h : Going slots before w p none vs) {call : Call α}
    (may : Role.consumer.may call) :
    Going slots before ⟨w.shared, w.threads.set 1 ⟨.consumer, some (enter call)⟩,
      .called 1 call :: w.history⟩ p (some (enter call)) vs := by
  obtain ⟨threads, size, balance, holding, producer, -⟩ := h
  refine ⟨by rw [threads]; rfl, size, balance, ?_⟩
  cases call with
  | dequeue => exact ⟨holding, producer, by rintro _ ⟨⟩; trivial⟩
  | len => exact ⟨holding, producer, by rintro _ ⟨⟩; trivial⟩
  | isEmpty => exact ⟨holding, producer, by rintro _ ⟨⟩; trivial⟩
  | _ => cases may

theorem produce_step (h : Going slots before w (some point) c vs)
    (e : step w.shared point = (r', next)) :
    Going slots before ⟨r', w.threads.set 0 ⟨.producer, arrived next⟩,
      answers 0 next ++ w.history⟩ (arrived next) c (vs ++ added (offered w.history) next) := by
  have out := h.shared.produce e
  refine ⟨by rw [h.threads]; rfl, out.size.trans h.size, ?_, ?_⟩
  · rw [published_answers, returned_answers, out.removed, ← List.append_assoc, h.balance]
    simp
  · rw [offered_answers]
    exact out.shared

theorem consume_step (h : Going slots before w p (some point) vs)
    (e : step w.shared point = (r', next)) :
    ∃ vs', Going slots before ⟨r', w.threads.set 1 ⟨.consumer, arrived next⟩,
      answers 1 next ++ w.history⟩ p (arrived next) vs' := by
  have out := h.shared.consume e
  obtain ⟨vs', hvs, shared⟩ := out.shared
  refine ⟨vs', by rw [h.threads]; rfl, out.size.trans h.size, ?_, ?_⟩
  · rw [published_answers, returned_answers, out.added, List.append_nil, h.balance, hvs]
    simp
  · rw [offered_answers]
    exact shared

/-- Every action keeps the threads in agreement, and only the consumer moves `read`. -/
theorem act (h : Going slots before w p c vs) (a : Action (Call α)) :
    (∃ p' c' vs', Going slots before (World.act protocol a w) p' c' vs') ∧
      ((∀ spurious, a ≠ .step 1 spurious) →
        (World.act protocol a w).shared.read = w.shared.read) := by
  rcases World.act_cases protocol a w with e | ⟨i, call, own, own', point, -, ht, he, e⟩ |
    ⟨i, spurious, own, point, r', own', next, ha, ht, hs, e⟩
  · rw [e]
    exact ⟨⟨p, c, vs, h⟩, fun _ => rfl⟩
  · rw [e]
    simp only [protocol, Option.ite_none_right_eq_some, Option.some.injEq, Prod.mk.injEq] at he
    obtain ⟨may, rfl, rfl⟩ := he
    rcases h.thread_cases ht with ⟨rfl, rfl, rfl⟩ | ⟨rfl, rfl, rfl⟩
    · exact ⟨⟨_, _, _, h.produce_call may⟩, fun _ => rfl⟩
    · exact ⟨⟨_, _, _, h.consume_call may⟩, fun _ => rfl⟩
  · rw [e]
    obtain ⟨e', rfl⟩ : step w.shared point = (r', next) ∧ own = own' := by
      simp only [protocol, Prod.mk.injEq] at hs
      exact ⟨Prod.ext hs.1 hs.2.2, hs.2.1⟩
    rcases h.thread_cases ht with ⟨rfl, rfl, rfl⟩ | ⟨rfl, rfl, rfl⟩
    · exact ⟨⟨_, _, _, h.produce_step e'⟩, fun _ => (h.shared.produce e').read⟩
    · obtain ⟨vs', h'⟩ := h.consume_step e'
      exact ⟨⟨_, _, _, h'⟩, fun quiet => absurd ha (quiet spurious)⟩

theorem run (h : Going slots before w p c vs) (as : List (Action (Call α))) :
    ∃ p' c' vs', Going slots before (World.run protocol as w) p' c' vs' := by
  induction as generalizing w p c vs with
  | nil => exact ⟨p, c, vs, h⟩
  | cons a as ih =>
    obtain ⟨⟨_, _, _, h'⟩, -⟩ := h.act a
    exact ih h'

theorem run_read (h : Going slots before w p c vs) {as : List (Action (Call α))}
    (quiet : ∀ spurious, .step 1 spurious ∉ as) :
    (World.run protocol as w).shared.read = w.shared.read := by
  induction as generalizing w p c vs with
  | nil => rfl
  | cons a as ih =>
    obtain ⟨⟨_, _, _, h'⟩, still⟩ := h.act a
    have later := ih h' fun s hs => quiet s (List.mem_cons_of_mem a hs)
    exact later.trans (still fun s e => quiet s (by simp [e]))

theorem unread_eq (h : Going slots before w p c vs) : unread before w.history = vs := by
  rw [unread, h.balance, List.drop_left]

theorem start {r : Ring α} (h : r.Holding before 0) :
    Going r.slots.size before (split r) none none before where
  threads := rfl
  size := rfl
  balance := by simp [split, World.start, published, returned]
  shared := ⟨h, by rintro _ ⟨⟩, by rintro _ ⟨⟩⟩

theorem history_lenRead {write : Nat} {spurious : Bool}
    (ht : w.threads[1]? = some ⟨.consumer, some (.lenRead write)⟩) :
    (World.act protocol (.step 1 spurious) w).history =
      .answered 1 (.count (distance write w.shared.read w.shared.slots.size)) :: w.history := by
  rw [World.act_step ht rfl rfl]
  rfl

/-- The number of elements is what it was when `write` was read, whatever the producer has done
since. -/
theorem len (h : Going slots before w p (some .lenWrite) vs) (spurious last : Bool)
    {as : List (Action (Call α))} (quiet : ∀ s, .step 1 s ∉ as) :
    (World.run protocol (.step 1 spurious :: as ++ [.step 1 last]) w).history =
      .answered 1 (.count vs.length) ::
        (World.run protocol (.step 1 spurious :: as) w).history := by
  have ht : w.threads[1]? = some ⟨.consumer, some .lenWrite⟩ := by rw [h.threads]; rfl
  have e : World.act protocol (.step 1 spurious) w = _ := World.act_step ht rfl rfl
  obtain ⟨⟨_, _, _, h₁⟩, -⟩ := h.act (.step 1 spurious)
  obtain ⟨_, _, _, h₂⟩ := h₁.run as
  have ht₁ : (World.act protocol (.step 1 spurious) w).threads[1]? =
      some ⟨.consumer, some (.lenRead w.shared.write)⟩ := by
    rw [e]
    exact List.getElem?_set_self (List.getElem?_eq_some_iff.mp ht).1
  have read : (World.run protocol as (World.act protocol (.step 1 spurious) w)).shared.read =
      w.shared.read := by rw [h₁.run_read quiet, e]
  have count : distance w.shared.write w.shared.read slots = vs.length := by
    rw [← h.size]
    exact h.shared.holding.distance_eq
  rw [List.cons_append, World.run, World.run_append, World.run, World.run, World.run,
    history_lenRead (World.run_quiet quiet ht₁), read, h₂.size, count]

end Going

/-! ### What can be seen of a step -/

theorem step_rejected {v : α} (h : (step r point).2 = .inr (.rejected v)) :
    ∃ write, point = .checkRead v write ∧ nextIndex write r.slots.size = r.read := by
  cases point with
  | checkRead u write =>
    simp only [step] at h
    split_ifs at h with hn
    cases h
    exact ⟨write, rfl, hn⟩
  | checkWrite read => simp only [step] at h; split_ifs at h; cases h
  | storeRead n data => cases data <;> cases h
  | _ => cases h

theorem step_nothing (h : (step r point).2 = .inr .nothing) :
    point = .checkWrite r.write := by
  cases point with
  | checkRead u write => simp only [step] at h; split_ifs at h; cases h
  | checkWrite read =>
    simp only [step] at h
    split_ifs at h with hn
    rw [hn]
  | storeRead n data => cases data <;> cases h
  | _ => cases h

theorem step_count {n : Nat} (h : (step r point).2 = .inr (.count n)) :
    ∃ write, point = .lenRead write ∧ n = distance write r.read r.slots.size := by
  cases point with
  | checkRead u write => simp only [step] at h; split_ifs at h; cases h
  | checkWrite read => simp only [step] at h; split_ifs at h; cases h
  | storeRead n data => cases data <;> cases h
  | lenRead write => cases h; exact ⟨write, rfl, rfl⟩
  | _ => cases h

/-! ### The handoff -/

/-- What is true at every moment. The buffer had the values `before` when it was split. -/
structure Orderly (slots : Nat) (before : List α) (w : Split α) : Prop where
  size : w.shared.slots.size = slots
  /-- Values come out in the order in which they went in. -/
  order : returned w.history <+: before ++ published w.history
  few : (unread before w.history).length ≤ slots - 1
  /-- Every unread value is in its slot, but the oldest one may be in the hand of the consumer. -/
  stored : ∀ k v, (unread before w.history)[k]? = some v →
    w.shared.slot (w.shared.place k) = some v ∨
      k = 0 ∧ ∃ next, w.threads[1]? = some ⟨.consumer, some (.storeRead next (some v))⟩
  /-- The producer is about to write a slot in which there is no unread value. -/
  fills : ∀ (t : Nat) own v i next, w.threads[t]? = some ⟨own, some (.fill v i next)⟩ →
    i < slots ∧ ∀ k < (unread before w.history).length, w.shared.place k ≠ i
  /-- The consumer is about to read the slot of the oldest unread value. -/
  empties : ∀ (t : Nat) own i, w.threads[t]? = some ⟨own, some (.empty i)⟩ →
    i < slots ∧ ∃ v, (unread before w.history).head? = some v ∧ w.shared.slot i = some v
  /-- A value is given back at a look at `read` that finds the buffer full. -/
  rejected : ∀ a t v,
    (World.act protocol a w).history = .answered t (.rejected v) :: w.history →
    (∃ own write, w.threads[t]? = some ⟨own, some (.checkRead v write)⟩) ∧
      (unread before w.history).length = slots - 1
  /-- Nothing is returned at a look at `write` that finds the buffer empty. -/
  nothing : ∀ a t, (World.act protocol a w).history = .answered t .nothing :: w.history →
    (∃ own read, w.threads[t]? = some ⟨own, some (.checkWrite read)⟩) ∧
      unread before w.history = []
  counted : ∀ a t n, (World.act protocol a w).history = .answered t (.count n) :: w.history →
    n ≤ slots - 1
  /-- A call that is about to look at `write` will count the values that are unread now. -/
  counts : ∀ (t : Nat) own, w.threads[t]? = some ⟨own, some .lenWrite⟩ → ∀ first last as,
    (∀ s, .step t s ∉ as) →
    (World.run protocol (.step t first :: as ++ [.step t last]) w).history =
      .answered t (.count (unread before w.history).length) ::
        (World.run protocol (.step t first :: as) w).history

theorem Going.stored (h : Going slots before w p c vs) {k : Nat} {v : α} (hv : vs[k]? = some v) :
    w.shared.slot (w.shared.place k) = some v ∨
      k = 0 ∧ ∃ next, w.threads[1]? = some ⟨.consumer, some (.storeRead next (some v))⟩ := by
  by_cases hk : inHand c ≤ k
  · exact .inl (h.shared.holding.stored k v hk hv)
  · right
    rcases c with _ | point
    · exact absurd (Nat.zero_le k) hk
    · cases point with
      | storeRead next data =>
        obtain ⟨-, -, hd⟩ := h.shared.consumer _ rfl
        have hz : k = 0 := by
          have : inHand (some (Point.storeRead next data)) = 1 := rfl
          omega
        subst hz
        rw [List.head?_eq_getElem?, hv] at hd
        exact ⟨rfl, next, by rw [h.threads, ← hd]; rfl⟩
      | _ => exact absurd (Nat.zero_le k) hk

theorem Going.fills (h : Going slots before w p c vs) {t i next : Nat} {own : Role} {v : α}
    (ht : w.threads[t]? = some ⟨own, some (.fill v i next)⟩) :
    i < slots ∧ ∀ k < vs.length, w.shared.place k ≠ i := by
  rcases h.thread_cases ht with ⟨-, -, rfl⟩ | ⟨-, -, rfl⟩
  · obtain ⟨-, rfl, -, -⟩ := h.shared.producer _ rfl
    refine ⟨?_, fun k hk => h.shared.holding.place_ne_write hk⟩
    rw [← h.size]
    exact h.shared.holding.write_lt
  · cases h.shared.consumer _ rfl

theorem Going.empties (h : Going slots before w p c vs) {t i : Nat} {own : Role}
    (ht : w.threads[t]? = some ⟨own, some (.empty i)⟩) :
    i < slots ∧ ∃ v, vs.head? = some v ∧ w.shared.slot i = some v := by
  rcases h.thread_cases ht with ⟨-, -, rfl⟩ | ⟨-, -, rfl⟩
  · cases h.shared.producer _ rfl
  · obtain ⟨rfl, ne⟩ := h.shared.consumer _ rfl
    obtain ⟨v, vs, rfl⟩ := List.exists_cons_of_ne_nil ne
    have hh : w.shared.Holding (v :: vs) 0 := h.shared.holding
    refine ⟨?_, v, rfl, hh.slot_read⟩
    rw [← h.size]
    exact hh.read_lt

theorem Going.rejected (h : Going slots before w p c vs) {a : Action (Call α)} {t : Nat} {v : α}
    (ha : (World.act protocol a w).history = .answered t (.rejected v) :: w.history) :
    (∃ own write, w.threads[t]? = some ⟨own, some (.checkRead v write)⟩) ∧
      vs.length = slots - 1 := by
  obtain ⟨_, own, point, -, ht, hr⟩ := World.act_answered ha
  obtain ⟨write, rfl, hn⟩ := step_rejected hr
  refine ⟨⟨own, write, ht⟩, ?_⟩
  rcases h.thread_cases ht with ⟨-, -, rfl⟩ | ⟨-, -, rfl⟩
  · obtain ⟨-, rfl⟩ := h.shared.producer _ rfl
    have := h.shared.holding.nextIndex_eq_read.mp hn
    have := h.size
    omega
  · cases h.shared.consumer _ rfl

theorem Going.nothing (h : Going slots before w p c vs) {a : Action (Call α)} {t : Nat}
    (ha : (World.act protocol a w).history = .answered t .nothing :: w.history) :
    (∃ own read, w.threads[t]? = some ⟨own, some (.checkWrite read)⟩) ∧ vs = [] := by
  obtain ⟨_, own, point, -, ht, hr⟩ := World.act_answered ha
  obtain rfl := step_nothing hr
  refine ⟨⟨own, _, ht⟩, ?_⟩
  rcases h.thread_cases ht with ⟨-, -, rfl⟩ | ⟨-, -, rfl⟩
  · cases h.shared.producer _ rfl
  · have he : w.shared.write = w.shared.read := h.shared.consumer _ rfl
    exact h.shared.holding.read_eq_write.mp he.symm

theorem Going.counted (h : Going slots before w p c vs) {a : Action (Call α)} {t n : Nat}
    (ha : (World.act protocol a w).history = .answered t (.count n) :: w.history) :
    n ≤ slots - 1 := by
  obtain ⟨_, own, point, -, ht, hr⟩ := World.act_answered ha
  obtain ⟨write, rfl, rfl⟩ := step_count hr
  rcases h.thread_cases ht with ⟨-, -, rfl⟩ | ⟨-, -, rfl⟩
  · cases h.shared.producer _ rfl
  · have hw : write < w.shared.slots.size := h.shared.consumer _ rfl
    have := distance_lt hw h.shared.holding.read_lt
    have := h.size
    omega

theorem Going.counts (h : Going slots before w p c vs) {t : Nat} {own : Role}
    (ht : w.threads[t]? = some ⟨own, some .lenWrite⟩) (first last : Bool)
    {as : List (Action (Call α))} (quiet : ∀ s, .step t s ∉ as) :
    (World.run protocol (.step t first :: as ++ [.step t last]) w).history =
      .answered t (.count vs.length) :: (World.run protocol (.step t first :: as) w).history := by
  rcases h.thread_cases ht with ⟨-, -, rfl⟩ | ⟨rfl, -, rfl⟩
  · cases h.shared.producer _ rfl
  · exact h.len first last quiet

theorem Going.orderly (h : Going slots before w p c vs) : Orderly slots before w := by
  obtain rfl : unread before w.history = vs := h.unread_eq
  have few : (unread before w.history).length ≤ slots - 1 := by
    have := h.shared.holding.fits
    have := h.size
    omega
  exact {
    size := h.size
    order := ⟨_, h.balance.symm⟩
    few := few
    stored := fun _ _ => h.stored
    fills := fun _ _ _ _ _ => h.fills
    empties := fun _ _ _ => h.empties
    rejected := fun _ _ _ => h.rejected
    nothing := fun _ _ => h.nothing
    counted := fun _ _ _ => h.counted
    counts := fun _ _ ht first last _ => h.counts ht first last }

/-- Calls of a producer and a consumer, in any order of their steps, hand values over in order,
wherever in the array the buffer has its window. -/
theorem handed_over_in_order {r : Ring α} (start : r.Holding before 0)
    (as : List (Action (Call α))) :
    Orderly r.slots.size before (World.run protocol as (split r)) := by
  obtain ⟨_, _, _, h⟩ := (Going.start start).run as
  exact h.orderly

/-- The producer finds the buffer full and comes back to the first slot, from which the consumer has
just taken a value. Meanwhile the consumer counts what there is by an old `write`. -/
theorem handed_over_in_order_round_the_end :
    (ofSlots 3 : Ring Nat).Holding [] 0 ∧
      let as : List (Action (Call Nat)) :=
        .call 0 (.enqueue 10) :: List.replicate 4 (.step 0 false) ++
        .call 0 (.enqueue 20) :: List.replicate 4 (.step 0 false) ++
        .call 1 .dequeue :: List.replicate 3 (.step 1 false) ++
        .call 0 (.enqueue 30) :: List.replicate 2 (.step 0 false) ++
        .step 1 false :: .call 1 .len :: .step 1 false ::
        .call 0 (.enqueue 30) :: List.replicate 4 (.step 0 false) ++
        .step 1 false :: .call 1 .dequeue :: List.replicate 4 (.step 1 false)
      let w := World.run protocol as (split (ofSlots 3))
      published w.history = [10, 20, 30] ∧ returned w.history = [10, 20] ∧
        .answered 0 (.rejected 30) ∈ w.history ∧ .answered 1 (.count 1) ∈ w.history ∧
        Orderly 3 [] w :=
  ⟨holding_ofSlots (by decide), by decide +kernel, by decide +kernel, by decide +kernel,
    by decide +kernel, handed_over_in_order (holding_ofSlots (n := 3) (by decide)) _⟩

end OrderedAtomics.Ring
