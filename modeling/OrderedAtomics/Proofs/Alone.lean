import OrderedAtomics.Protocol
import OrderedAtomics.TaggedPointer

/-! A thread that nobody disturbs. Its calls run from their first step to their reply, and a list of
them comes to what it comes to on a reference object that answers every call in the same way. -/

namespace OrderedAtomics

/-! ### One call -/

namespace Protocol

variable {S L C P R : Type} {p : Protocol S L C P R}

/-- The states and the points in which a thread makes its steps, at most `n` of them. -/
def visits (p : Protocol S L C P R) : Nat → S → L → P → List (S × P)
  | 0, _, _, _ => []
  | n + 1, s, own, point =>
    if p.ready s own point then
      (s, point) :: match p.step false s own point with
        | (s, own, .inl next) => visits p n s own next
        | (_, _, .inr _) => []
    else []

/-- The course of a call from a point on: the steps it makes, the state it leads to, what the thread
has to itself in the end, and the reply. -/
inductive Course (p : Protocol S L C P R) : S → L → P → List (S × P) → S → L → R → Prop
  | reply {s s' : S} {own own' : L} {point : P} {r : R} (ready : p.ready s own point)
      (step : p.step false s own point = (s', own', .inr r)) :
      Course p s own point [(s, point)] s' own' r
  | step {s s₁ s' : S} {own own₁ own' : L} {point next : P} {visited : List (S × P)} {r : R}
      (ready : p.ready s own point) (step : p.step false s own point = (s₁, own₁, .inl next))
      (rest : Course p s₁ own₁ next visited s' own' r) :
      Course p s own point ((s, point) :: visited) s' own' r

namespace Course

variable {s s' : S} {own own' : L} {point : P} {visited : List (S × P)} {r : R} {n : Nat}

theorem finish_eq (h : p.Course s own point visited s' own' r) (enough : visited.length ≤ n) :
    p.finish n s own point = (s', some (own', r)) := by
  induction h generalizing n with
  | reply ready step =>
    obtain ⟨n, rfl⟩ := Nat.exists_eq_add_of_le' enough
    rw [List.length_singleton, finish, if_pos ready, step]
  | step ready step rest ih =>
    obtain ⟨n, rfl⟩ := Nat.exists_eq_add_of_le' enough
    rw [List.length_cons, ← Nat.add_assoc, finish, if_pos ready, step]
    exact ih (Nat.le_add_left ..)

theorem alone_eq {own₀ : L} {c : C} (h : p.Course s own point visited s' own' r)
    (entered : p.enter own₀ c = some (own, point)) (enough : visited.length ≤ n) :
    p.alone n s own₀ c = (s', some (own', r)) := by
  simp only [alone, entered, h.finish_eq enough]

theorem visits_eq (h : p.Course s own point visited s' own' r) (enough : visited.length ≤ n) :
    p.visits n s own point = visited := by
  induction h generalizing n with
  | reply ready step =>
    obtain ⟨n, rfl⟩ := Nat.exists_eq_add_of_le' enough
    rw [List.length_singleton, visits, if_pos ready, step]
  | step ready step rest ih =>
    obtain ⟨n, rfl⟩ := Nat.exists_eq_add_of_le' enough
    rw [List.length_cons, ← Nat.add_assoc, visits, if_pos ready, step]
    exact congrArg _ (ih (Nat.le_add_left ..))

end Course

end Protocol

/-! ### One call after another -/

section InTurn

variable {S T C R R' : Type}

/-- Calls in turn, each in the state that the last one left: the state in the end, and the
answers. -/
def inTurn (f : S → C → S × R) : S → List C → S × List R
  | s, [] => (s, [])
  | s, c :: calls =>
    let (s, r) := f s c
    let (s, rs) := inTurn f s calls
    (s, r :: rs)

theorem inTurn_cons (f : S → C → S × R) (s : S) (c : C) (calls : List C) :
    inTurn f s (c :: calls) =
      ((inTurn f (f s c).1 calls).1, (f s c).2 :: (inTurn f (f s c).1 calls).2) := rfl

/-- Two objects that stay alike under each of some calls answer the list of them alike. -/
theorem inTurn_alike {f : S → C → S × R} {g : T → C → T × R'} {alike : S → T → Prop}
    {answer : R' → R} {calls : List C}
    (step : ∀ c ∈ calls, ∀ s t, alike s t →
      (f s c).2 = answer (g t c).2 ∧ alike (f s c).1 (g t c).1) {s : S} {t : T} (h : alike s t) :
    (inTurn f s calls).2 = (inTurn g t calls).2.map answer ∧
      alike (inTurn f s calls).1 (inTurn g t calls).1 := by
  induction calls generalizing s t with
  | nil => exact ⟨rfl, h⟩
  | cons c calls ih =>
    obtain ⟨head, next⟩ := step c List.mem_cons_self s t h
    obtain ⟨tail, last⟩ := ih (fun c hc => step c (List.mem_cons_of_mem _ hc)) next
    refine ⟨?_, last⟩
    rw [inTurn_cons, inTurn_cons, List.map_cons, head, tail]

end InTurn

/-! ### The reference of a container -/

/-- The elements of a container, and how many have been added and taken out so far. -/
structure Ledger (α : Type) where
  elements : List α
  added : Nat
  removed : Nat

/-- Nothing has happened yet. -/
def Ledger.blank {α : Type} : Ledger α := ⟨[], 0, 0⟩

/-- A tag that counts the updates of a pointer goes on counting. -/
theorem Tagged.counts_advance {β : Type} {t : Tagged β} {n : Nat}
    (h : t.tag = BitVec.ofNat addressWidth n) (p : β) :
    (t.advance p).tag = BitVec.ofNat addressWidth (n + 1) := by
  rw [tag_advance, h, BitVec.ofNat_add]
  rfl

end OrderedAtomics
