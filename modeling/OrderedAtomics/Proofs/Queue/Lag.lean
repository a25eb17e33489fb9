import OrderedAtomics.Proofs.Queue.Emptiness

/-! The tail is behind the last node only while the enqueue that has linked it is about to move the
tail on. Once no thread is in a call, the tail is at the last node. -/

namespace OrderedAtomics.Queue

variable {α : Type} {q q' : Queue α} {age : Cell → Nat} {φ : Phase (Call α) (Reply α)}
  {vs : List α} {chain free kept : List Nat}

/-- The node behind the tail is the last one. -/
theorem Chained.link_behind {n : Nat} (h : Chained q chain free vs kept)
    (hn : q.link q.tail.pointer = some n) : q.link n = none := by
  have path := h.path
  obtain ⟨before, rfl | ⟨last, rfl⟩⟩ := h.tail
  · obtain ⟨mid, -, -, stop⟩ := Path.append.mp path
    rw [hn] at stop
    cases stop
  · obtain ⟨mid, -, -, first, stop⟩ := Path.append.mp path
    obtain rfl := Option.some.inj (hn.symm.trans first)
    exact stop

/-- The tail is behind after a step only if it was before, and the step is not the one that should
have moved it on, or if the step has linked a new node. -/
def Lags (q : Queue α) (point : Point α) (q' : Queue α) (next : Point α ⊕ Reply α) : Prop :=
  (∃ node, next = .inl (.swing node q'.tail)) ∨
    q'.tail = q.tail ∧ q.link q.tail.pointer ≠ none ∧ ∀ node, point ≠ .swing node q.tail

/-- A tail that is moved on is no longer behind. -/
theorem lags_swingTail {tail : Tagged Nat} {n : Nat} {point : Point α} {next : Point α ⊕ Reply α}
    (hs : Chained q chain free vs kept)
    (hw : While tail q.tail (age .tail) (q.link tail.pointer = some n))
    (fresh : age .tail < 2 ^ addressWidth) (moves : ∀ node expected,
      point = .swing node expected → expected = tail)
    (lag : (q.swingTail tail n).link (q.swingTail tail n).tail.pointer ≠ none) :
    Lags q point (q.swingTail tail n) next := by
  by_cases same : q.tail = tail
  · have linked : q.link q.tail.pointer = some n := by
      rw [same]
      exact hw.holds (hw.tracks.age_eq_zero fresh (congrArg Tagged.toLink same))
    have moved : q.swingTail tail n = ⟨q.head, q.tail.advance n, q.pool⟩ := by
      simp [swingTail, same]
    rw [moved] at lag
    exact absurd (hs.link_behind linked) lag
  · have stays : q.swingTail tail n = q := by simp [swingTail, same]
    rw [stays] at lag ⊢
    exact .inr ⟨rfl, lag, fun node e => same (moves node q.tail e)⟩

theorem lags {spurious : Bool} {point : Point α} {next : Point α ⊕ Reply α}
    (hs : Chained q chain free vs kept) (hk : Knows q age φ point)
    (fresh : ∀ k, (watch α).compares point = some k → age k < 2 ^ addressWidth)
    (e : step spurious q point = (q', next)) (lag : q'.link q'.tail.pointer ≠ none) :
    Lags q point q' next := by
  -- a step that does not touch the tail has not set its link
  have stays (tail : q'.tail = q.tail) (linking : ∀ node tail next, point ≠ .link node tail next)
      (swinging : ∀ node, point ≠ .swing node q.tail) : Lags q point q' next := by
    refine .inr ⟨tail, fun null => ?_, swinging⟩
    rw [tail] at lag
    have set := step_link spurious q point q.tail.pointer
    rw [e] at set
    rcases set (by rw [null]; exact lag) with ⟨_, _, _, rfl, -⟩ | ⟨-, cleared⟩
    · exact linking _ _ _ rfl
    · exact lag cleared
  cases point with
  | allocate v =>
    refine stays ?_ (by rintro _ _ _ ⟨⟩) (by rintro _ ⟨⟩)
    rcases ht : q.take with ⟨_ | node, t⟩
    · simp only [step, ht] at e
      cases e
      exact (ends_take ht).2
    · simp only [step, ht] at e
      cases e
      exact (ends_take ht).2
  | link node tail next =>
    rcases swap_cases e with ⟨same, e⟩ | e
    · obtain ⟨-, -, -, ht, hc, hw⟩ := hk
      subst same
      have ha := hw (hc.age_eq_zero (fresh _ rfl) rfl)
      obtain rfl : q.tail = tail := Tagged.toLink_inj.mp (ht.same ha)
      cases e
      exact .inl ⟨node, rfl⟩
    · cases e
      exact .inr ⟨rfl, lag, by rintro _ ⟨⟩⟩
  | swing node tail =>
    cases e
    exact lags_swingTail hs hk.2 (fresh .tail rfl) (fun _ _ e => by cases e; rfl) lag
  | help node tail n =>
    cases e
    exact lags_swingTail hs hk.2.2 (fresh .tail rfl) (by rintro _ _ ⟨⟩) lag
  | helpTail tail n =>
    cases e
    exact lags_swingTail hs hk.2 (fresh .tail rfl) (by rintro _ _ ⟨⟩) lag
  | recheckTail node tail next =>
    refine stays ?_ (by rintro _ _ _ ⟨⟩) (by rintro _ ⟨⟩)
    simp only [step] at e
    split at e
    · split at e <;> cases e <;> rfl
    · cases e
      rfl
  | recheckHead head tail next =>
    refine stays ?_ (by rintro _ _ _ ⟨⟩) (by rintro _ ⟨⟩)
    simp only [step] at e
    split at e
    · split at e <;> split at e <;> cases e <;> rfl
    · cases e
      rfl
  | swapHead head next data =>
    refine stays ?_ (by rintro _ _ _ ⟨⟩) (by rintro _ ⟨⟩)
    rcases swap_cases e with ⟨-, e⟩ | e <;> cases e <;> rfl
  | _ =>
    cases e
    exact stays rfl (by rintro _ _ _ ⟨⟩) (by rintro _ ⟨⟩)

/-! ### Runs -/

/-- If the tail is behind, a thread is about to move it on. -/
def Attended (w : Notes α) : Prop :=
  w.world.shared.link w.world.shared.tail.pointer ≠ none →
    ∃ i node : Nat, w.world.threads[i]? = some ⟨(), some (.swing node w.world.shared.tail)⟩

theorem attended_act {w : Notes α} {a : Action (Call α)} (h : (discipline α).Holds [] w vs)
    (attended : Attended w) (fresh : Observed.fresh (watch α) w a) :
    Attended (Observed.act protocol (watch α) a w) := by
  rcases Observed.act_cases protocol (watch α) a w with e | ⟨i, c, own, own', point, rfl, ht, he⟩ |
    ⟨i, spurious, own, point, rfl, ht, hr⟩
  · rwa [e]
  · rw [Observed.act_call ht he]
    intro lag
    obtain ⟨j, node, hj⟩ := attended lag
    refine ⟨j, node, ?_⟩
    rw [List.getElem?_set_ne, hj]
    rintro rfl
    rw [ht] at hj
    cases hj
  · rcases hs : step spurious w.world.shared point with ⟨q', next⟩
    have hp : protocol.step spurious w.world.shared own point = (q', (), next) := by
      simp only [protocol, hs]
    rw [Observed.act_step ht hr hp]
    intro lag
    obtain ⟨φ, -, ⟨chain, free, chained⟩, knows⟩ := h
    have met : ∀ k, (watch α).compares point = some k → w.age i k < 2 ^ addressWidth := by
      intro k hk
      simpa [Observed.fresh, ht, hk] using fresh
    rcases lags chained (knows i _ ht) met hs lag with ⟨node, rfl⟩ | ⟨tail, before, apart⟩
    · exact ⟨i, node, List.getElem?_set_self (List.getElem?_eq_some_iff.mp ht).1⟩
    · obtain ⟨j, node, hj⟩ := attended before
      refine ⟨j, node, ?_⟩
      show (w.world.threads.set i _)[j]? = some ⟨(), some (.swing node q'.tail)⟩
      rw [List.getElem?_set_ne, hj, tail]
      rintro rfl
      rw [ht] at hj
      cases hj
      exact apart node rfl

theorem attended_run {w : Notes α} {as : List (Action (Call α))}
    (h : (discipline α).Holds [] w vs) (attended : Attended w)
    (unwrapped : Observed.unwrapped protocol (watch α) as w) :
    Attended (Observed.run protocol (watch α) as w) := by
  induction as generalizing w vs with
  | nil => exact attended
  | cons a as ih =>
    rw [Observed.unwrapped, Bool.and_eq_true] at unwrapped
    obtain ⟨vs', h'⟩ := h.act unwrapped.1
    exact ih h' (attended_act h attended unwrapped.1) unwrapped.2

/-- When no thread is in a call, the tail is at the last node. -/
theorem Attended.link_tail {w : Notes α} (h : Attended w)
    (idle : ∀ t ∈ w.world.threads, t.point = none) :
    w.world.shared.link w.world.shared.tail.pointer = none := by
  by_contra lag
  obtain ⟨i, node, hi⟩ := h lag
  cases idle _ (List.mem_of_getElem? hi)

end OrderedAtomics.Queue
