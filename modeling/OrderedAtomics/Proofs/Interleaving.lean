import OrderedAtomics.Proofs.Observation

/-! What one action of the scheduler does to a world when nothing needs to be noted beside it, and
what a stretch of actions leaves alone. -/

namespace OrderedAtomics

variable {S L C P R : Type} {p : Protocol S L C P R}

/-- No cells and no effects. -/
def Watch.nothing : Watch S P R Empty :=
  ⟨fun _ => Empty.elim, fun _ => none, fun _ => none, fun _ _ _ => none⟩

namespace World

open Observed (arrived answers)

/-- A world with nothing noted. -/
def plain (w : World S L C P R) : Observed S L C P R Empty := ⟨w, fun _ => Empty.elim, []⟩

theorem act_plain (a : Action C) (w : World S L C P R) :
    act p a w = (Observed.act p .nothing a w.plain).world := by
  rw [Observed.world_act]
  rfl

theorem act_step {i : Nat} {spurious : Bool} {own own' : L} {point : P} {s : S} {next : P ⊕ R}
    {w : World S L C P R} (ht : w.threads[i]? = some ⟨own, some point⟩)
    (hr : p.ready w.shared own point) (hs : p.step spurious w.shared own point = (s, own', next)) :
    act p (.step i spurious) w =
      ⟨s, w.threads.set i ⟨own', arrived next⟩, answers i next ++ w.history⟩ := by
  rw [act_plain, Observed.act_step ht hr hs]
  rfl

/-- An action does nothing, or it begins a call, or it makes a step. -/
theorem act_cases (p : Protocol S L C P R) (a : Action C) (w : World S L C P R) :
    act p a w = w ∨
    (∃ i c own own' point, a = .call i c ∧ w.threads[i]? = some ⟨own, none⟩ ∧
      p.enter own c = some (own', point) ∧
      act p a w = ⟨w.shared, w.threads.set i ⟨own', some point⟩, .called i c :: w.history⟩) ∨
    ∃ i spurious own point s own' next, a = .step i spurious ∧
      w.threads[i]? = some ⟨own, some point⟩ ∧
      p.step spurious w.shared own point = (s, own', next) ∧
      act p a w = ⟨s, w.threads.set i ⟨own', arrived next⟩, answers i next ++ w.history⟩ := by
  rcases Observed.act_cases p .nothing a w.plain with h | ⟨i, c, own, own', point, rfl, ht, he⟩ |
    ⟨i, spurious, own, point, rfl, ht, hr⟩
  · left
    rw [act_plain, h]
    rfl
  · refine .inr (.inl ⟨i, c, own, own', point, rfl, ht, he, ?_⟩)
    rw [act_plain, Observed.act_call ht he]
    rfl
  · rcases hs : p.step spurious w.shared own point with ⟨s, own', next⟩
    exact .inr (.inr ⟨i, spurious, own, point, s, own', next, rfl, ht, hs, act_step ht hr hs⟩)

/-- An answer comes from a step of the thread that it is for. -/
theorem act_answered {a : Action C} {w : World S L C P R} {i : Nat} {r : R}
    (h : (act p a w).history = .answered i r :: w.history) :
    ∃ spurious own point, a = .step i spurious ∧ w.threads[i]? = some ⟨own, some point⟩ ∧
      (p.step spurious w.shared own point).2.2 = .inr r :=
  Observed.act_answered .nothing (w := w.plain) h

/-- A thread in a call stays where it is as long as it does not make a step. -/
theorem run_quiet {t : Nat} {own : L} {point : P} {as : List (Action C)} {w : World S L C P R}
    (quiet : ∀ spurious, .step t spurious ∉ as) (h : w.threads[t]? = some ⟨own, some point⟩) :
    (run p as w).threads[t]? = some ⟨own, some point⟩ := by
  have := Observed.run_quiet (p := p) (o := .nothing) as w.plain quiet h
  rwa [Observed.world_run] at this

end World

end OrderedAtomics
