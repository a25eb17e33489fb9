import OrderedAtomics.Proofs.Interleaving
import OrderedAtomics.Workload

/-! Threads that make the calls of a list each and take their turns in any order. A run is the list of
the threads in the order of their turns; a turn of a thread that has to wait or has come to the end of
its list changes nothing. -/

namespace OrderedAtomics.Workload

open Observed (arrived)

variable {S L C P R : Type}

/-- Every thread makes the calls of its own list. The notes are what is left of the lists. -/
def scripted : Program (List (List C)) C R where
  next i left := left[i]?.bind List.head?
  called i left := left.modify i List.tail
  heard _ _ left := left

section Runs

variable (p : Protocol S L C P R)

/-- The state after some turns. -/
def play : List Nat → World S L C P R × List (List C) → World S L C P R × List (List C)
  | [], state => state
  | i :: turns, state => play turns (turn p scripted state i)

/-- The point from which a thread makes a step in its turn, if it does. -/
def made (w : World S L C P R) (i : Nat) : Option P := (w.moves p i false).map (·.1)

/-- The steps that are made in some turns, in order: the thread, and where it is before the step. -/
def trail : List Nat → World S L C P R × List (List C) → List (Nat × P)
  | [], _ => []
  | i :: turns, state =>
    ((made p state.1 i).map (Prod.mk i)).toList ++ trail turns (turn p scripted state i)

/-- Whether a thread has a step to make or a call to begin, and does not have to wait. -/
def canMove (state : World S L C P R × List (List C)) (i : Nat) : Bool :=
  (state.1.moves p i false).isSome ||
    ((scripted (R := R)).next i state.2).any fun c => (state.1.begins p i c).isSome

end Runs

variable {p : Protocol S L C P R} {state : World S L C P R × List (List C)} {i : Nat}

/-- What becomes of the shared state and the threads in a turn of thread `i`. -/
inductive Turned (p : Protocol S L C P R) (w : World S L C P R) (i : Nat) (w' : World S L C P R) :
    Option P → Prop
  | waits (shared : w'.shared = w.shared) (threads : w'.threads = w.threads) : Turned p w i w' none
  | begins {own own' : L} {c : C} {point : P} (idle : w.threads[i]? = some ⟨own, none⟩)
      (entered : p.enter own c = some (own', point)) (shared : w'.shared = w.shared)
      (threads : w'.threads = w.threads.set i ⟨own', some point⟩) : Turned p w i w' none
  | steps {own own' : L} {point : P} {next : P ⊕ R} (busy : w.threads[i]? = some ⟨own, some point⟩)
      (ready : p.ready w.shared own point)
      (stepped : p.step false w.shared own point = (w'.shared, own', next))
      (threads : w'.threads = w.threads.set i ⟨own', arrived next⟩) : Turned p w i w' (some point)

theorem turned (p : Protocol S L C P R) (state : World S L C P R × List (List C)) (i : Nat) :
    Turned p state.1 i (turn p scripted state i).1 (made p state.1 i) := by
  obtain ⟨⟨shared, threads, history⟩, left⟩ := state
  rcases ht : threads[i]? with _ | ⟨own, _ | point⟩
  · have made : made p ⟨shared, threads, history⟩ i = none := by
      simp only [Workload.made, World.moves, ht, Option.map_none]
    rw [made]
    simp only [turn, ht]
    exact .waits rfl rfl
  · have made : made p ⟨shared, threads, history⟩ i = none := by
      simp only [Workload.made, World.moves, ht, Option.map_none]
    rw [made]
    rcases next : (scripted (R := R)).next i left with _ | c
    · simp only [turn, ht, next]
      exact .waits rfl rfl
    · simp only [turn, ht, next]
      rcases entered : p.enter own c with _ | ⟨own', point⟩
      · simp only [World.act, ht, entered]
        exact .waits rfl rfl
      · simp only [World.act, ht, entered]
        exact .begins ht entered rfl rfl
  · by_cases ready : p.ready shared own point
    · have made : made p ⟨shared, threads, history⟩ i = some point := by
        simp only [Workload.made, World.moves, ht, ready, if_true, Option.map_some]
      rw [made]
      rcases stepped : p.step false shared own point with ⟨s, own', next | r⟩
      · simp only [turn, World.act, ht, ready, if_true, stepped]
        exact .steps ht ready stepped rfl
      · simp only [turn, World.act, ht, ready, if_true, stepped]
        exact .steps ht ready stepped rfl
    · have made : made p ⟨shared, threads, history⟩ i = none := by
        simp only [Workload.made, World.moves, ht, ready, Bool.false_eq_true, if_false, Option.map_none]
      rw [made]
      simp only [turn, World.act, ht, ready, Bool.false_eq_true, if_false]
      exact .waits rfl rfl

/-- What holds of the state and the steps so far, and is kept by every turn, holds after all turns. -/
theorem holds_play (holds : World S L C P R → List (Nat × P) → Prop)
    (kept : ∀ {w w' : World S L C P R} {i made past}, holds w past → Turned p w i w' made →
      holds w' (past ++ (made.map (Prod.mk i)).toList)) (turns : List Nat) {past : List (Nat × P)}
    (h : holds state.1 past) : holds (play p turns state).1 (past ++ trail p turns state) := by
  induction turns generalizing state past with
  | nil => rwa [trail, List.append_nil]
  | cons i turns ih =>
    rw [play, trail, ← List.append_assoc]
    exact ih (kept h (turned p state i))

/-- While it is not all over, a thread is in a call or has one to begin. -/
theorem exists_unfinished (h : isOver scripted state = false) : ∃ i t, state.1.threads[i]? = some t ∧
    (t.point.isSome ∨ ∃ c, (scripted (R := R)).next i state.2 = some c) := by
  rw [isOver, List.all_eq_false] at h
  obtain ⟨⟨t, i⟩, member, unfinished⟩ := h
  have member := List.mem_zipIdx_iff_getElem?.mp member
  refine ⟨i, t, member, ?_⟩
  rw [Bool.and_eq_true, not_and_or, Option.isNone_iff_eq_none, Option.isNone_iff_eq_none] at unfinished
  rcases unfinished with busy | more
  · exact .inl (Option.isSome_iff_ne_none.mpr busy)
  · exact .inr (Option.ne_none_iff_exists'.mp more)

theorem canMove_of_ready {own : L} {point : P} (busy : state.1.threads[i]? = some ⟨own, some point⟩)
    (ready : p.ready state.1.shared own point) : canMove p state i := by
  simp only [canMove, World.moves, busy, ready, if_true, Option.isSome_some, Bool.true_or]

theorem canMove_of_enter {own own' : L} {point : P} {c : C}
    (idle : state.1.threads[i]? = some ⟨own, none⟩)
    (next : (scripted (R := R)).next i state.2 = some c)
    (entered : p.enter own c = some (own', point)) : canMove p state i := by
  simp only [canMove, next, World.begins, idle, entered, Option.any_some, Option.isSome_some,
    Bool.or_true]

end OrderedAtomics.Workload
