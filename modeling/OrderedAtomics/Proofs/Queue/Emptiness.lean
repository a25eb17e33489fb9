import OrderedAtomics.Proofs.Queue.Fifo

/-! What the answer to the question whether a queue is empty is worth. The link behind the head is
read without another look at the head. If the node has left the chain in between, its link still
says that there was an element, unless somebody has taken the node for a new element and cleared
it. -/

namespace OrderedAtomics.Queue

variable {α : Type}

/-! ### Steps that set and clear links -/

/-- A link is set where an enqueue takes effect, and cleared where one prepares its node. -/
theorem step_link (spurious : Bool) (q : Queue α) (point : Point α) (i : Nat)
    (h : (step spurious q point).1.link i ≠ q.link i) :
    (∃ node tail next, point = .link node tail next ∧
      (step spurious q point).2 = .inl (.swing node tail) ∧
      (step spurious q point).1.link i = some node) ∨
    (∃ link, point = .clearOwn i link) ∧ (step spurious q point).1.link i = none := by
  have unmoved (q' : Queue α) (e : (step spurious q point).1 = q') (hn : q'.next = q.next) :
      False := h (by rw [e, link, hn]; rfl)
  cases point with
  | allocate v =>
    rcases ht : q.take with ⟨_ | node, t⟩
    · exact (unmoved t (by simp [step, ht]) (next_congr (content_take ht))).elim
    · exact (unmoved t (by simp [step, ht]) (next_congr (content_take ht))).elim
  | write node v => exact (unmoved _ rfl (next_setData node v)).elim
  | clearOwn node link =>
    have hl := link_setNext q node (link.advance none) i
    simp only [step] at h ⊢
    rw [hl] at h ⊢
    split at h
    next hi => rw [if_pos hi]; exact .inr ⟨⟨link, by rw [hi.1]⟩, rfl⟩
    next => exact absurd rfl h
  | recheckTail node tail next =>
    refine (unmoved q ?_ rfl).elim
    simp only [step]
    split
    · split <;> rfl
    · rfl
  | link node tail next =>
    simp only [step] at h ⊢
    split at h
    next same =>
      have hl := link_setNext q tail.pointer (next.advance (some node)) i
      rw [if_pos same]
      rw [hl] at h
      split at h
      next hi => exact .inl ⟨node, tail, next, rfl, rfl, by rw [hl, if_pos hi]; rfl⟩
      next => exact absurd rfl h
    next => exact absurd rfl h
  | recheckHead head tail next =>
    refine (unmoved q ?_ rfl).elim
    simp only [step]
    split
    · split <;> split <;> rfl
    · rfl
  | swapHead head next data =>
    simp only [step] at h
    split at h <;> exact absurd rfl h
  | release node data => exact (unmoved _ rfl (next_congr (Pool.content_give node))).elim
  | _ => exact (unmoved _ rfl rfl).elim

/-- Notes on threads that share a queue. -/
abbrev Notes (α : Type) : Type := Observed (Queue α) Unit (Call α) (Point α) (Reply α) Cell

theorem act_link {a : Action (Call α)} {w : Notes α} {i : Nat}
    (h : (Observed.act protocol (watch α) a w).world.shared.link i ≠ w.world.shared.link i) :
    (∃ t, (Observed.act protocol (watch α) a w).log = .passed t (.settles .accepted) :: w.log ∧
      (Observed.act protocol (watch α) a w).world.shared.link i ≠ none) ∨
    (∃ t spurious link, a = .step t spurious ∧
      w.world.threads[t]? = some ⟨(), some (.clearOwn i link)⟩ ∧
      (Observed.act protocol (watch α) a w).world.shared.link i = none) := by
  rcases Observed.act_cases protocol (watch α) a w with e | ⟨t, c, own, own', point, rfl, ht, he⟩ |
    ⟨t, spurious, own, point, rfl, ht, hr⟩
  · rw [e] at h
    exact absurd rfl h
  · rw [Observed.act_call ht he] at h
    exact absurd rfl h
  · rcases hs : step spurious w.world.shared point with ⟨q', next⟩
    have hp : protocol.step spurious w.world.shared own point = (q', (), next) := by
      simp only [protocol, hs]
    rw [Observed.act_step ht hr hp] at h ⊢
    have moved := step_link spurious w.world.shared point i
    rw [hs] at moved
    rcases moved h with ⟨node, tail, nx, rfl, rfl, hl⟩ | ⟨⟨link, rfl⟩, hl⟩
    · exact .inl ⟨t, rfl, by simp [hl]⟩
    · exact .inr ⟨t, spurious, link, rfl, ht, hl⟩

/-- There is an element right after a link has been set, for it was set for a new element. -/
theorem ne_nil_of_set {a : Action (Call α)} {w : Notes α} {i : Nat} {vs : List α}
    (h : (discipline α).Holds [] (Observed.act protocol (watch α) a w) vs)
    (null : w.world.shared.link i = none)
    (set : (Observed.act protocol (watch α) a w).world.shared.link i ≠ none) : vs ≠ [] := by
  rcases act_link (by rw [null]; exact set) with ⟨t, hlog, -⟩ | ⟨_, _, _, -, -, cleared⟩
  · obtain ⟨φ, admits, -⟩ := h
    rw [hlog] at admits
    cases admits with
    | @passed _ φ' _ _ _ _ _ _ pass =>
      generalize φ' t = χ at pass
      cases pass with
      | settles spec =>
        cases spec with
        | enqueues => simp
  · exact absurd cleared set

/-! ### Moments -/

/-- Threads that share a queue, after some actions. -/
def after (q : Queue α) (threads : Nat) (as : List (Action (Call α))) : Notes α :=
  Observed.run protocol (watch α) as (Observed.start q (List.replicate threads ()))

/-- The elements that a queue has after some actions: those that are left of a serial run. -/
def Held (q : Queue α) (threads : Nat) (as : List (Action (Call α))) (vs : List α) : Prop :=
  ∃ ops chain, Serial (after q threads as) ops vs chain

variable {q : Queue α} {threads : Nat}

theorem after_append (as bs : List (Action (Call α))) :
    after q threads (as ++ bs) = Observed.run protocol (watch α) bs (after q threads as) :=
  Observed.run_append as bs _

theorem held_of_holds {as : List (Action (Call α))} {vs : List α}
    (h : (discipline α).Holds [] (after q threads as) vs) : Held q threads as vs :=
  serial_of_holds h (Observed.history_log _ _ rfl)

/-- The chain has a node behind the head if there is an element, and only then. -/
theorem link_head_eq_none {w : Notes α} {vs : List α} (h : (discipline α).Holds [] w vs) :
    w.world.shared.link w.world.shared.head.pointer = none ↔ vs = [] := by
  obtain ⟨φ, -, ⟨chain, free, hs⟩, -⟩ := h
  have := hs.isNone_link_head
  rw [← Option.isNone_iff_eq_none, this, List.isEmpty_iff]

/-- A call of `isEmpty` by the thread `t`: the actions before it, those until it reads the head, and
those until it reads the link. Before that, all threads began with a new queue. -/
structure Asking (α : Type) where
  queue : Queue α
  threads : Nat
  thread : Nat
  before : List (Action (Call α))
  first : List (Action (Call α))
  second : List (Action (Call α))
  /-- The reading of the head does not heed it. -/
  spurious : Bool

namespace Asking

variable (x : Asking α) {m : List (Action (Call α))}

def begun : List (Action (Call α)) := x.before ++ [.call x.thread .isEmpty]

/-- All actions until the thread reads the head. -/
def seeing : List (Action (Call α)) := x.begun ++ x.first

/-- All actions until the thread reads the link. -/
def asking : List (Action (Call α)) := x.seeing ++ .step x.thread x.spurious :: x.second

/-- The node whose link will be read. -/
def node : Nat := (after x.queue x.threads x.seeing).world.shared.head.pointer

/-- The actions up to a moment between the beginning and the end of the call. -/
def During (m : List (Action (Call α))) : Prop := x.begun <+: m ∧ m <+: x.asking

/-- After the head has been read, an enqueue that has got the node clears its link. -/
def Reused : Prop :=
  ∃ first t s second link, x.second = first ++ .step t s :: second ∧
    (after x.queue x.threads (x.seeing ++ [.step x.thread x.spurious] ++
      first)).world.threads[t]? = some ⟨(), some (.clearOwn x.node link)⟩

/-- The call can be made, and in the meantime the thread makes no other steps. -/
structure Proper : Prop where
  made : ∃ policy capacity value, create policy capacity value = .ok x.queue
  idle : (after x.queue x.threads x.before).world.threads[x.thread]?.map (·.point) = some none
  quiet : ∀ s, .step x.thread s ∉ x.first ++ x.second
  unwrapped : Observed.unwrapped protocol (watch α) x.asking
    (Observed.start x.queue (List.replicate x.threads ()))

variable {x}

namespace Proper

theorem holds (h : x.Proper) (hm : m <+: x.asking) :
    ∃ vs, (discipline α).Holds [] (after x.queue x.threads m) vs := by
  obtain ⟨policy, capacity, value, made⟩ := h.made
  obtain ⟨rest, e⟩ := hm
  have unwrapped := h.unwrapped
  rw [← e, Observed.unwrapped_append, Bool.and_eq_true] at unwrapped
  exact holds_run made x.threads m unwrapped.1

/-- The thread comes to read the head. -/
theorem lookHead (h : x.Proper) :
    (after x.queue x.threads x.seeing).world.threads[x.thread]? = some ⟨(), some .lookHead⟩ := by
  have idle : (after x.queue x.threads x.before).world.threads[x.thread]? = some ⟨(), none⟩ := by
    obtain ⟨⟨own, point⟩, ht, rfl⟩ := Option.map_eq_some_iff.mp h.idle
    exact ht
  rw [seeing, after_append]
  refine Observed.run_quiet x.first _ (fun s hs => h.quiet s (List.mem_append_left _ hs)) ?_
  rw [begun, after_append, Observed.run, Observed.run, Observed.act_call idle rfl]
  exact List.getElem?_set_self (List.getElem?_eq_some_iff.mp idle).1

/-- Reading the head changes nothing but where the thread is. -/
theorem seen (h : x.Proper) :
    (after x.queue x.threads (x.seeing ++ [.step x.thread x.spurious])).world.shared =
      (after x.queue x.threads x.seeing).world.shared ∧
    (after x.queue x.threads (x.seeing ++ [.step x.thread x.spurious])).world.threads[x.thread]? =
      some ⟨(), some (.lookNext (after x.queue x.threads x.seeing).world.shared.head)⟩ := by
  have ht := (List.getElem?_eq_some_iff.mp h.lookHead).1
  rw [after_append, Observed.run, Observed.run, Observed.act_step h.lookHead rfl rfl]
  exact ⟨rfl, List.getElem?_set_self ht⟩

theorem asking_eq (x : Asking α) :
    x.asking = x.seeing ++ [.step x.thread x.spurious] ++ x.second := by
  rw [asking, List.append_assoc]
  rfl

/-- The answer is what the link of the node says in the end. -/
theorem answered (h : x.Proper) (s : Bool) :
    (after x.queue x.threads (x.asking ++ [.step x.thread s])).world.history =
      .answered x.thread (.truth ((after x.queue x.threads x.asking).world.shared.link
        x.node).isNone) :: (after x.queue x.threads x.asking).world.history := by
  have ht : (after x.queue x.threads x.asking).world.threads[x.thread]? =
      some ⟨(), some (.lookNext (after x.queue x.threads x.seeing).world.shared.head)⟩ := by
    rw [asking_eq, after_append]
    refine Observed.run_quiet x.second _ (fun s hs => ?_) h.seen.2
    exact h.quiet s (List.mem_append_right _ hs)
  rw [after_append, Observed.run, Observed.run, Observed.act_step ht rfl rfl]
  rfl

/-- A moment after the head has been read. -/
theorem during (m rest : List (Action (Call α))) (e : x.second = m ++ rest) :
    x.During (x.seeing ++ [.step x.thread x.spurious] ++ m) := by
  refine ⟨⟨x.first ++ ([.step x.thread x.spurious] ++ m), ?_⟩, ⟨rest, ?_⟩⟩
  · simp [seeing]
  · rw [asking_eq, e]
    simp

theorem holds_during (h : x.Proper) {m : List (Action (Call α))} (hm : x.During m) :
    ∃ vs, (discipline α).Holds [] (after x.queue x.threads m) vs := h.holds hm.2

theorem held_cons {q : Queue α} {threads : Nat} {m : List (Action (Call α))} {vs : List α}
    (hv : (discipline α).Holds [] (after q threads m) vs) (ne : vs ≠ []) :
    ∃ v vs, Held q threads m (v :: vs) := by
  obtain ⟨v, vs, rfl⟩ := List.exists_cons_of_ne_nil ne
  exact ⟨v, vs, held_of_holds hv⟩

/-- Where the head is linked at every moment, there is an element at every moment. -/
theorem held_of_linked (h : x.Proper)
    (linked : ∀ k ≤ x.asking.length, x.begun.length ≤ k →
      (after x.queue x.threads (x.asking.take k)).world.shared.isEmpty = false)
    (hm : x.During m) : ∃ v vs, Held x.queue x.threads m (v :: vs) := by
  obtain ⟨vs, hv⟩ := h.holds_during hm
  refine held_cons hv fun nil => ?_
  have null := (link_head_eq_none hv).mpr nil
  have set := linked m.length hm.2.length_le hm.1.length_le
  rw [← List.prefix_iff_eq_take.mp hm.2, isEmpty, ← link, null] at set
  cases set

/-- If the link is set, it was set when the head was read or has been set since. -/
theorem held_of_set (h : x.Proper)
    (set : (after x.queue x.threads x.asking).world.shared.link x.node ≠ none) :
    ∃ m, x.During m ∧ ∃ v vs, Held x.queue x.threads m (v :: vs) := by
  by_cases null : (after x.queue x.threads
      (x.seeing ++ [.step x.thread x.spurious])).world.shared.link x.node = none
  · rw [asking_eq, after_append] at set
    obtain ⟨e₁, a, e₂, hx, hn, ha⟩ := Observed.run_turn
      (φ := fun w : Notes α => w.world.shared.link x.node = none) x.second _ null set
    have hd : x.During (x.seeing ++ [.step x.thread x.spurious] ++ (e₁ ++ [a])) :=
      during _ e₂ (by rw [hx]; simp)
    obtain ⟨vs, hv⟩ := h.holds_during hd
    refine ⟨_, hd, held_cons hv ?_⟩
    rw [after_append, Observed.run_append] at hv
    exact ne_nil_of_set hv hn ha
  · have hd : x.During (x.seeing ++ [.step x.thread x.spurious]) := by
      simpa using during (x := x) [] x.second rfl
    obtain ⟨vs, hv⟩ := h.holds_during hd
    refine ⟨_, hd, held_cons hv ?_⟩
    have hn := link_head_eq_none hv
    rw [h.seen.1] at hn null
    exact fun e => null (hn.mpr e)

/-- If the link is null, it was null when the head was read or has been cleared since. -/
theorem held_of_null (h : x.Proper)
    (null : (after x.queue x.threads x.asking).world.shared.link x.node = none) :
    (∃ m, x.During m ∧ Held x.queue x.threads m []) ∨ x.Reused := by
  by_cases set : (after x.queue x.threads
      (x.seeing ++ [.step x.thread x.spurious])).world.shared.link x.node ≠ none
  · right
    rw [asking_eq, after_append] at null
    obtain ⟨e₁, a, e₂, hx, hn, ha⟩ := Observed.run_turn
      (φ := fun w : Notes α => w.world.shared.link x.node ≠ none) x.second _ set
      (not_not.mpr null)
    rcases act_link (fun e => ha (by rw [e]; exact hn)) with
      ⟨_, -, still⟩ | ⟨t, s, link, rfl, ht, -⟩
    · exact absurd still ha
    · exact ⟨e₁, t, s, e₂, link, hx, by rw [after_append]; exact ht⟩
  · left
    have hd : x.During (x.seeing ++ [.step x.thread x.spurious]) := by
      simpa using during (x := x) [] x.second rfl
    obtain ⟨vs, hv⟩ := h.holds_during hd
    have hn := link_head_eq_none hv
    rw [h.seen.1] at hn set
    obtain rfl := hn.mp (not_not.mp set)
    exact ⟨_, hd, held_of_holds hv⟩

end Proper

/-- What is true of the answer. If it is that there is an element, there was one during the call. If
it is that there is none, there was none at some moment of the call, or the node that had been seen
at the head has been used again. -/
structure Answered (x : Asking α) (s b : Bool) : Prop where
  history : (after x.queue x.threads (x.asking ++ [.step x.thread s])).world.history =
    .answered x.thread (.truth b) :: (after x.queue x.threads x.asking).world.history
  held : b = false → ∃ m, x.During m ∧ ∃ v vs, Held x.queue x.threads m (v :: vs)
  empty : b = true → (∃ m, x.During m ∧ Held x.queue x.threads m []) ∨ x.Reused

end Asking

theorem isEmpty_answered {x : Asking α} (h : x.Proper) (s : Bool) : ∃ b, x.Answered s b := by
  refine ⟨_, h.answered s, fun hb => ?_, fun hb => ?_⟩
  · exact h.held_of_set fun null => by simp [null] at hb
  · exact h.held_of_null (Option.isNone_iff_eq_none.mp hb)

/-- A queue with two elements. One thread asks whether it is empty and reads the head; another one
takes an element, and a third one takes the node that was the head for a new element. -/
def reuse (q : Queue Nat) : Asking Nat where
  queue := q
  threads := 3
  thread := 1
  before := .call 0 (.enqueue 10) :: List.replicate 9 (.step 0 false) ++
    .call 0 (.enqueue 20) :: List.replicate 9 (.step 0 false)
  first := []
  second := .call 2 .dequeue :: List.replicate 7 (.step 2 false) ++
    .call 0 (.enqueue 30) :: List.replicate 4 (.step 0 false)
  spurious := false

theorem isEmpty_answered_after_reuse :
    ∃ q : Queue Nat, create .static 2 = .ok q ∧ (reuse q).Proper ∧
      ∃ b, (reuse q).Answered false b :=
  ⟨_, rfl, ⟨⟨.static, 2, .text, rfl⟩, by decide +kernel, by decide, by decide +kernel⟩,
    isEmpty_answered ⟨⟨.static, 2, .text, rfl⟩, by decide +kernel, by decide, by decide +kernel⟩ false⟩

/-- The answer may be that there is no element though there was one all the time. -/
theorem isEmpty_true_though_held :
    ∃ q : Queue Nat, create .static 2 = .ok q ∧ (reuse q).Proper ∧
      (after q 3 ((reuse q).asking ++ [.step 1 false])).world.history =
        .answered 1 (.truth true) :: (after q 3 (reuse q).asking).world.history ∧
      ∀ m, (reuse q).During m → ∃ v vs, Held q 3 m (v :: vs) := by
  have proper : ∃ q : Queue Nat, create .static 2 = .ok q ∧ (reuse q).Proper :=
    ⟨_, rfl, ⟨⟨.static, 2, .text, rfl⟩, by decide +kernel, by decide, by decide +kernel⟩⟩
  obtain ⟨q, made, h⟩ := proper
  refine ⟨q, made, h, ?_, fun m hm => h.held_of_linked ?_ hm⟩
  · cases made
    decide +kernel
  · cases made
    decide +kernel

end OrderedAtomics.Queue
