/-! Threads over shared memory. A protocol says what a call does, one indivisible step at a time;
a world runs the calls of any number of threads in any interleaving of their steps. -/

namespace OrderedAtomics

/-- Shared state `S`, what a thread keeps to itself `L`, calls `C`, program points `P` and
replies `R`. -/
structure Protocol (S L C P R : Type) where
  /-- The first program point of a call, if the thread may make it. -/
  enter : L → C → Option (L × P)
  /-- Whether a thread can make its step now, or has to wait for another one. -/
  ready : S → L → P → Bool := fun _ _ _ => true
  /-- One step, to the next point or to the reply. The flag lets a weak compare-exchange fail
  without cause. -/
  step : Bool → S → L → P → S × L × (P ⊕ R)

/-- A thread between calls has no program point. -/
structure Thread (L P : Type) where
  own : L
  point : Option P

/-- What can be seen of a run from outside. -/
inductive Moment (C R : Type) where
  | called (thread : Nat) (call : C)
  | answered (thread : Nat) (reply : R)
  deriving DecidableEq, Repr

/-- A choice of the scheduler: a thread begins a call, or makes a step of the one it is in. -/
inductive Action (C : Type) where
  | call (thread : Nat) (call : C)
  | step (thread : Nat) (spurious : Bool)
  deriving DecidableEq, Repr

/-- The history has the newest moment first. -/
structure World (S L C P R : Type) where
  shared : S
  threads : List (Thread L P)
  history : List (Moment C R)

namespace World

variable {S L C P R : Type}

/-- Threads with the given private states, none of them in a call. -/
def start (shared : S) (own : List L) : World S L C P R :=
  ⟨shared, own.map fun l => ⟨l, none⟩, []⟩

/-- An action that the thread cannot take changes nothing. -/
def act (p : Protocol S L C P R) : Action C → World S L C P R → World S L C P R
  | .call i c, ⟨shared, threads, history⟩ =>
    match threads[i]? with
    | some ⟨own, none⟩ =>
      match p.enter own c with
      | none => ⟨shared, threads, history⟩
      | some (own, point) => ⟨shared, threads.set i ⟨own, some point⟩, .called i c :: history⟩
    | _ => ⟨shared, threads, history⟩
  | .step i spurious, ⟨shared, threads, history⟩ =>
    match threads[i]? with
    | some ⟨own, some point⟩ =>
      if p.ready shared own point then
        match p.step spurious shared own point with
        | (shared, own, .inl point) => ⟨shared, threads.set i ⟨own, some point⟩, history⟩
        | (shared, own, .inr reply) =>
          ⟨shared, threads.set i ⟨own, none⟩, .answered i reply :: history⟩
      else ⟨shared, threads, history⟩
    | _ => ⟨shared, threads, history⟩

/-- The world after a list of actions. -/
def run (p : Protocol S L C P R) : List (Action C) → World S L C P R → World S L C P R
  | [], w => w
  | a :: rest, w => run p rest (act p a w)

theorem run_append (p : Protocol S L C P R) (as bs : List (Action C)) (w : World S L C P R) :
    run p (as ++ bs) w = run p bs (run p as w) := by
  induction as generalizing w with
  | nil => rfl
  | cons a as ih => exact ih (act p a w)

end World

namespace Protocol

variable {S L C P R : Type}

/-- At most `n` steps of one thread, nobody else running and no spurious failure: the state they
lead to, and the reply if they suffice for it. -/
def finish (p : Protocol S L C P R) : Nat → S → L → P → S × Option (L × R)
  | 0, shared, _, _ => (shared, none)
  | n + 1, shared, own, point =>
    if p.ready shared own point then
      match p.step false shared own point with
      | (shared, own, .inl point) => finish p n shared own point
      | (shared, own, .inr reply) => (shared, some (own, reply))
    else (shared, none)

/-- A call of one thread, nobody else running, within a number of steps. A call that it may not make
has no reply. -/
def alone (p : Protocol S L C P R) (steps : Nat) (shared : S) (own : L) (call : C) :
    S × Option (L × R) :=
  match p.enter own call with
  | none => (shared, none)
  | some (own, point) => p.finish steps shared own point

end Protocol

end OrderedAtomics
