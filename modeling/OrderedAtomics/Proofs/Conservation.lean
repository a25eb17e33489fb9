import Mathlib.Algebra.BigOperators.Group.Finset.Piecewise
import Mathlib.Algebra.Order.Group.Multiset
import Mathlib.Tactic.Abel
import OrderedAtomics.Proofs.Observation

/-! Where values are while a run goes on. Each value that a call has brought is with the call, in
the object, or has been handed out by a reply, and in one of these places only. -/

namespace OrderedAtomics

variable {S L C P R K A α : Type}

/-! ### What a history shows -/

/-- The call that a thread is in. -/
def calling (i : Nat) : List (Moment C R) → Option C
  | [] => none
  | .called j c :: earlier => if j = i then some c else calling i earlier
  | .answered j _ :: earlier => if j = i then none else calling i earlier

/-- The values that calls bring and that replies hand out. -/
structure Traffic (C R α : Type) where
  brings : C → Multiset α
  returns : R → Multiset α

namespace Traffic

variable (t : Traffic C R α)

/-- All values that have been brought. -/
def brought : List (Moment C R) → Multiset α
  | [] => 0
  | .called _ c :: earlier => t.brings c + brought earlier
  | .answered _ _ :: earlier => brought earlier

/-- All values that have been handed out. -/
def returned : List (Moment C R) → Multiset α
  | [] => 0
  | .called _ _ :: earlier => returned earlier
  | .answered _ r :: earlier => t.returns r + returned earlier

/-- The values that are with a call in some phase. -/
def carried : Phase C R → Multiset α
  | .idle => 0
  | .pending c _ => t.brings c
  | .settled r => t.returns r

theorem carried_idle : t.carried (.idle : Phase C R) = 0 := rfl

theorem carried_pending (c : C) (shown : Option R) :
    t.carried (.pending c shown) = t.brings c := rfl

theorem carried_settled (r : R) : t.carried (.settled r : Phase C R) = t.returns r := rfl

end Traffic

/-! ### Threads of a log -/

def Entry.thread : Entry C R → Nat
  | called i _ | passed i _ | answered i _ => i

namespace Observed

variable [DecidableEq K] {p : Protocol S L C P R} {o : Watch S P R K}

theorem length_act (a : Action C) (w : Observed S L C P R K) :
    (act p o a w).world.threads.length = w.world.threads.length := by
  rcases act_cases p o a w with e | ⟨i, c, own, own', point, rfl, ht, he⟩ |
    ⟨i, spurious, own, point, rfl, ht, hr⟩
  · rw [e]
  · rw [act_call ht he, List.length_set]
  · rw [act_step ht hr rfl, List.length_set]

/-- Only threads that there are leave entries. -/
theorem thread_lt_act {a : Action C} {w : Observed S L C P R K}
    (h : ∀ e ∈ w.log, e.thread < w.world.threads.length) :
    ∀ e ∈ (act p o a w).log, e.thread < (act p o a w).world.threads.length := by
  intro e he
  rw [length_act]
  rcases act_cases p o a w with same | ⟨i, c, own, own', point, rfl, ht, entered⟩ |
    ⟨i, spurious, own, point, rfl, ht, hr⟩
  · rw [same] at he
    exact h e he
  · rw [act_call ht entered] at he
    rcases List.mem_cons.mp he with rfl | he
    · exact (List.getElem?_eq_some_iff.mp ht).1
    · exact h e he
  · rcases hs : p.step spurious w.world.shared own point with ⟨s, own', next⟩
    rw [act_step ht hr hs] at he
    rcases List.mem_append.mp he with he | he
    · have own : e.thread = i := by
        rcases hm : o.mark w.world.shared point next with _ | effect <;> cases next <;>
          simp [entries, hm] at he
        · rw [he]; rfl
        · rw [he]; rfl
        · rcases he with rfl | rfl <;> rfl
      rw [own]
      exact (List.getElem?_eq_some_iff.mp ht).1
    · exact h e he

theorem thread_lt_run {as : List (Action C)} {w : Observed S L C P R K}
    (h : ∀ e ∈ w.log, e.thread < w.world.threads.length) :
    ∀ e ∈ (run p o as w).log, e.thread < (run p o as w).world.threads.length := by
  induction as generalizing w with
  | nil => exact h
  | cons a as ih => exact ih (thread_lt_act h)

end Observed

/-! ### Conservation -/

namespace Admits

variable {spec : A → C → R → A → Prop} {a₀ a : A} {log : List (Entry C R)} {φ : Nat → Phase C R}

/-- The history has the call of a thread that is waiting for its effect. -/
theorem calling_eq (h : Admits spec a₀ log φ a) {i : Nat} {c : C} {shown : Option R}
    (pending : φ i = .pending c shown) : calling i (history log) = some c := by
  induction h generalizing shown with
  | nil => cases pending
  | @called log φ a j c' h idle ih =>
    rw [history_called, calling]
    by_cases hj : j = i
    · subst hj
      rw [Function.update_self] at pending
      cases pending
      exact if_pos rfl
    · rw [if_neg hj]
      rw [Function.update_of_ne (Ne.symm hj)] at pending
      exact ih pending
  | @passed log φ a j e ψ a' h pass ih =>
    rw [history_passed]
    by_cases hj : j = i
    · subst hj
      rw [Function.update_self] at pending
      subst pending
      generalize hφ : φ j = χ at pass
      cases pass with
      | shows => exact ih hφ
      | hides => exact ih hφ
    · rw [Function.update_of_ne (Ne.symm hj)] at pending
      exact ih pending
  | @answered log φ a j r h answers ih =>
    rw [history_answered, calling]
    by_cases hj : j = i
    · subst hj
      rw [Function.update_self] at pending
      cases pending
    · rw [if_neg hj]
      rw [Function.update_of_ne (Ne.symm hj)] at pending
      exact ih pending

variable {t : Traffic C R α} {elements : A → Multiset α}

/-- A reply that a call has shown, and so leaves the object as it is, hands out what the call has
brought. -/
theorem brings_eq (law : ∀ a c r a', spec a c r a' →
      elements a + t.brings c = t.returns r + elements a')
    (h : Admits spec a₀ log φ a) {i : Nat} {c : C} {r : R} (pending : φ i = .pending c (some r)) :
    t.brings c = t.returns r := by
  induction h with
  | nil => cases pending
  | @called log φ a j c' h idle ih =>
    by_cases hj : i = j
    · subst hj
      rw [Function.update_self] at pending
      cases pending
    · rw [Function.update_of_ne hj] at pending
      exact ih pending
  | @passed log φ a j e ψ a' h pass ih =>
    by_cases hj : i = j
    · subst hj
      rw [Function.update_self] at pending
      subst pending
      generalize φ i = χ at pass
      cases pass with
      | shows operation =>
        have same := law _ _ _ _ operation
        rw [add_comm (t.returns r)] at same
        exact add_left_cancel same
    · rw [Function.update_of_ne hj] at pending
      exact ih pending
  | @answered log φ a j r' h answers ih =>
    by_cases hj : i = j
    · subst hj
      rw [Function.update_self] at pending
      cases pending
    · rw [Function.update_of_ne hj] at pending
      exact ih pending

/-- What all threads carry after one of them has come to another phase. -/
theorem sum_carried_update (t : Traffic C R α) (φ : Nat → Phase C R) {i k : Nat} (hi : i < k)
    (ψ : Phase C R) :
    ∑ j ∈ Finset.range k, t.carried (Function.update φ i ψ j) + t.carried (φ i) =
      ∑ j ∈ Finset.range k, t.carried (φ j) + t.carried ψ := by
  have member : i ∈ Finset.range k := Finset.mem_range.mpr hi
  have updated : ∀ j, t.carried (Function.update φ i ψ j) =
      Function.update (fun j => t.carried (φ j)) i (t.carried ψ) j :=
    Function.apply_update (fun _ => t.carried) φ i ψ
  simp only [updated, Finset.sum_update_of_mem member]
  rw [← Finset.add_sum_erase _ (fun j => t.carried (φ j)) member, Finset.sdiff_singleton_eq_erase]
  abel

/-- If no operation makes values or loses them, no run does. -/
theorem conserved (law : ∀ a c r a', spec a c r a' →
      elements a + t.brings c = t.returns r + elements a')
    (h : Admits spec a₀ log φ a) {k : Nat} (threads : ∀ e ∈ log, e.thread < k) :
    elements a₀ + t.brought (history log) =
      t.returned (history log) + elements a + ∑ i ∈ Finset.range k, t.carried (φ i) := by
  induction h with
  | nil => simp [Traffic.brought, Traffic.returned, Traffic.carried]
  | @called log φ a i c h idle ih =>
    have sum := ih fun e he => threads e (List.mem_cons_of_mem _ he)
    have update := sum_carried_update t φ (show i < k from threads _ List.mem_cons_self)
      (.pending c none)
    rw [idle, Traffic.carried_idle, add_zero, Traffic.carried_pending] at update
    rw [update, history_called, Traffic.brought, Traffic.returned, add_left_comm, sum]
    abel
  | @passed log φ a i e ψ a' h pass ih =>
    have sum := ih fun e he => threads e (List.mem_cons_of_mem _ he)
    have update := sum_carried_update t φ (show i < k from threads _ List.mem_cons_self) ψ
    generalize φ i = χ at pass update
    rw [history_passed]
    cases pass with
    | @settles c o r _ _ operation =>
      have moved := law _ _ _ _ operation
      rw [Traffic.carried_pending, Traffic.carried_settled] at update
      refine add_right_cancel (b := t.brings c) ?_
      calc elements a₀ + t.brought (history log) + t.brings c
        _ = t.returned (history log) + (elements a + t.brings c) +
            ∑ j ∈ Finset.range k, t.carried (φ j) := by
          rw [sum]
          abel
        _ = t.returned (history log) + elements a' +
            (∑ j ∈ Finset.range k, t.carried (φ j) + t.returns r) := by
          rw [moved]
          abel
        _ = t.returned (history log) + elements a' +
            ∑ j ∈ Finset.range k, t.carried (Function.update φ i (.settled r) j) + t.brings c := by
          rw [← update]
          abel
    | shows => rw [sum, add_right_cancel update]
    | hides => rw [sum, add_right_cancel update]
  | @answered log φ a i r h answers ih =>
    have sum := ih fun e he => threads e (List.mem_cons_of_mem _ he)
    have update := sum_carried_update t φ (show i < k from threads _ List.mem_cons_self) .idle
    have given : t.carried (φ i) = t.returns r := by
      rcases hφ : φ i with _ | ⟨c, o⟩ | r'
      · rw [hφ] at answers
        cases answers
      · rw [hφ] at answers
        obtain rfl : o = some r := answers
        exact brings_eq law h hφ
      · rw [hφ] at answers
        obtain rfl : r' = r := answers
        rfl
    rw [given, Traffic.carried_idle, add_zero] at update
    rw [history_answered, Traffic.brought, Traffic.returned, sum, ← update]
    abel

end Admits

end OrderedAtomics
