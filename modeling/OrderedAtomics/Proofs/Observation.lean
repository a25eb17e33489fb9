import Mathlib.Algebra.Group.Nat.Defs
import Mathlib.Data.List.Perm.Basic
import OrderedAtomics.Proofs.Linearization
import OrderedAtomics.TaggedPointer

/-! Runs with notes beside them. For every thread and every tagged cell the notes say how often the
cell has changed since the thread last read it, and a log has the calls, the answers and the steps
at which calls may take effect. No step depends on the notes.

A compare-exchange finds an old pointer under an old tag only if the tag went all the way round in
between. In an unwrapped run none ever does. -/

namespace OrderedAtomics

variable {S L C P R K α : Type}

/-! ### Tags -/

def Tagged.toLink (t : Tagged Nat) : Link := ⟨some t.pointer, t.tag⟩

@[simp] theorem Tagged.toLink_inj {a b : Tagged Nat} : a.toLink = b.toLink ↔ a = b := by
  cases a; cases b; simp [toLink]

/-- What was seen of a cell, that many changes ago. -/
structure Tracks (seen now : Link) (age : Nat) : Prop where
  tag : now.tag = seen.tag + BitVec.ofNat addressWidth age
  same : age = 0 → now = seen

namespace Tracks

variable {seen now : Link} {age : Nat}

theorem refl (now : Link) : Tracks now now 0 := ⟨by simp, fun _ => rfl⟩

/-- With fewer changes than there are tags, a cell that looks as it did has not changed. -/
theorem age_eq_zero (h : Tracks seen now age) (lt : age < 2 ^ addressWidth) (e : now = seen) :
    age = 0 := by
  have ht : seen.tag = seen.tag + BitVec.ofNat addressWidth age := by
    have := h.tag
    rwa [e] at this
  have hn := congrArg BitVec.toNat ht
  have ha := seen.tag.isLt
  rw [BitVec.toNat_add, BitVec.toNat_ofNat] at hn
  generalize seen.tag.toNat = n at hn ha
  simp only [addressWidth] at hn ha lt
  omega

theorem changed (h : Tracks seen now age) {next : Link} (e : next.tag = now.tag + 1) :
    Tracks seen next (age + 1) := by
  refine ⟨?_, by simp⟩
  rw [e, h.tag, BitVec.add_assoc, BitVec.ofNat_add]
  rfl

end Tracks

/-! ### Notes -/

/-- What is noted of a protocol: its tagged cells `K`, the cell that a step reads for later, the cell
that a step compares with what its thread has read, and the steps at which calls may take effect. -/
structure Watch (S P R K : Type) where
  cell : S → K → Link
  reads : P → Option K
  compares : P → Option K
  mark : S → P → P ⊕ R → Option (Effect R)

/-- The ages of a thread's cells after a step has changed the shared state. -/
def Watch.aged [DecidableEq K] (o : Watch S P R K) (before after : S) (age : K → Nat) (k : K) :
    Nat :=
  age k + if o.cell after k = o.cell before k then 0 else 1

theorem Watch.aged_eq_zero [DecidableEq K] {o : Watch S P R K} {s s' : S} {age : K → Nat} {k : K} :
    o.aged s s' age k = 0 ↔ age k = 0 ∧ o.cell s' k = o.cell s k := by
  unfold aged
  split <;> simp_all

@[simp] theorem Watch.aged_self [DecidableEq K] (o : Watch S P R K) (s : S) (age : K → Nat) :
    o.aged s s age = age := by
  funext k; simp [aged]

/-- The ages of the thread that makes a step, but for the changes of the step itself. -/
def Watch.renewed [DecidableEq K] (o : Watch S P R K) (point : P) (age : K → Nat) (k : K) : Nat :=
  if o.reads point = some k then 0 else age k

theorem Watch.renewed_of_ne [DecidableEq K] {o : Watch S P R K} {point : P} {k : K}
    (h : o.reads point ≠ some k) (age : K → Nat) : o.renewed point age k = age k := if_neg h

/-- A cell that a step reads is tracked from then on. -/
theorem Watch.tracks_renewed [DecidableEq K] {o : Watch S P R K} {point : P} {k : K}
    (h : o.reads point = some k) (s : S) (age : K → Nat) :
    Tracks (o.cell s k) (o.cell s k) (o.renewed point age k) := by
  rw [renewed, if_pos h]
  exact .refl (o.cell s k)

/-- Every cell is as it was or has the next tag. -/
def Watch.Advances (o : Watch S P R K) (before after : S) : Prop :=
  ∀ k, o.cell after k = o.cell before k ∨ (o.cell after k).tag = (o.cell before k).tag + 1

theorem Tracks.aged [DecidableEq K] {o : Watch S P R K} {s s' : S} {age : K → Nat} {k : K}
    {seen : Link} (h : Tracks seen (o.cell s k) (age k)) (adv : o.Advances s s') :
    Tracks seen (o.cell s' k) (o.aged s s' age k) := by
  unfold Watch.aged
  split
  next e => rwa [e]
  next e => exact h.changed ((adv k).resolve_left e)

namespace World

/-- The call that a thread would begin: what it has to itself then and where it starts. -/
def begins (p : Protocol S L C P R) (w : World S L C P R) (i : Nat) (c : C) : Option (L × P) :=
  match w.threads[i]? with
  | some ⟨own, none⟩ => p.enter own c
  | _ => none

/-- The step that a thread can make: from where, and what comes of it. -/
def moves (p : Protocol S L C P R) (w : World S L C P R) (i : Nat) (spurious : Bool) :
    Option (P × S × L × (P ⊕ R)) :=
  match w.threads[i]? with
  | some ⟨own, some point⟩ =>
    if p.ready w.shared own point then some (point, p.step spurious w.shared own point) else none
  | _ => none

end World

/-- A world and the notes on it. The log has the newest entry first. -/
structure Observed (S L C P R K : Type) where
  world : World S L C P R
  age : Nat → K → Nat
  log : List (Entry C R)

namespace Observed

variable [DecidableEq K]

def start (shared : S) (own : List L) : Observed S L C P R K :=
  ⟨World.start shared own, fun _ _ => 0, []⟩

/-- The entries of a step, newest first. -/
def entries (o : Watch S P R K) (i : Nat) (s : S) (point : P) (next : P ⊕ R) : List (Entry C R) :=
  (match next with
    | .inl _ => []
    | .inr reply => [.answered i reply]) ++ ((o.mark s point next).map (.passed i)).toList

def act (p : Protocol S L C P R) (o : Watch S P R K) (a : Action C) (w : Observed S L C P R K) :
    Observed S L C P R K :=
  match a with
  | .call i c =>
    ⟨World.act p a w.world, w.age,
      match w.world.begins p i c with
      | some _ => .called i c :: w.log
      | none => w.log⟩
  | .step i spurious =>
    match w.world.moves p i spurious with
    | some (point, s, _, next) =>
      ⟨World.act p a w.world,
        fun j => o.aged w.world.shared s (if j = i then o.renewed point (w.age j) else w.age j),
        entries o i w.world.shared point next ++ w.log⟩
    | none => ⟨World.act p a w.world, w.age, w.log⟩

def run (p : Protocol S L C P R) (o : Watch S P R K) :
    List (Action C) → Observed S L C P R K → Observed S L C P R K
  | [], w => w
  | a :: rest, w => run p o rest (act p o a w)

/-- The cell that the next step of a thread compares has had fewer changes than there are tags since
the thread read it. -/
def fresh (o : Watch S P R K) (w : Observed S L C P R K) : Action C → Bool
  | .call _ _ => true
  | .step i _ =>
    match (w.world.threads[i]?.bind (·.point)).bind o.compares with
    | some k => w.age i k < 2 ^ addressWidth
    | none => true

/-- No tag goes all the way round between the reading of a cell and a comparison with it. -/
def unwrapped (p : Protocol S L C P R) (o : Watch S P R K) :
    List (Action C) → Observed S L C P R K → Bool
  | [], _ => true
  | a :: rest, w => fresh o w a && unwrapped p o rest (act p o a w)

/-! ### The notes say what happens -/

section Facts

variable {p : Protocol S L C P R} {o : Watch S P R K}

@[simp] theorem world_act (a : Action C) (w : Observed S L C P R K) :
    (act p o a w).world = World.act p a w.world := by
  unfold act
  split
  · rfl
  · split <;> rfl

theorem world_run (as : List (Action C)) (w : Observed S L C P R K) :
    (run p o as w).world = World.run p as w.world := by
  induction as generalizing w with
  | nil => rfl
  | cons a as ih => simp [run, World.run, ih]

theorem run_append (as bs : List (Action C)) (w : Observed S L C P R K) :
    run p o (as ++ bs) w = run p o bs (run p o as w) := by
  induction as generalizing w with
  | nil => rfl
  | cons a as ih => exact ih (act p o a w)

theorem unwrapped_append (as bs : List (Action C)) (w : Observed S L C P R K) :
    unwrapped p o (as ++ bs) w = (unwrapped p o as w && unwrapped p o bs (run p o as w)) := by
  induction as generalizing w with
  | nil => rfl
  | cons a as ih => simp [unwrapped, run, ih, Bool.and_assoc]

theorem act_call {w : Observed S L C P R K} {i : Nat} {c : C} {own own' : L} {point : P}
    (ht : w.world.threads[i]? = some ⟨own, none⟩) (he : p.enter own c = some (own', point)) :
    act p o (.call i c) w =
      ⟨⟨w.world.shared, w.world.threads.set i ⟨own', some point⟩, .called i c :: w.world.history⟩,
        w.age, .called i c :: w.log⟩ := by
  simp [act, World.act, World.begins, ht, he]

/-- Where a thread stands that has come to a point or to a reply. -/
def arrived (next : P ⊕ R) : Option P := next.getLeft?

def answers (i : Nat) : P ⊕ R → List (Moment C R)
  | .inl _ => []
  | .inr reply => [.answered i reply]

theorem act_step {w : Observed S L C P R K} {i : Nat} {spurious : Bool} {own own' : L} {point : P}
    {s : S} {next : P ⊕ R} (ht : w.world.threads[i]? = some ⟨own, some point⟩)
    (hr : p.ready w.world.shared own point)
    (hs : p.step spurious w.world.shared own point = (s, own', next)) :
    act p o (.step i spurious) w =
      ⟨⟨s, w.world.threads.set i ⟨own', arrived next⟩, answers i next ++ w.world.history⟩,
        fun j => o.aged w.world.shared s (if j = i then o.renewed point (w.age j) else w.age j),
        entries o i w.world.shared point next ++ w.log⟩ := by
  cases next <;> simp [act, World.act, World.moves, ht, hr, hs, arrived, answers]

/-- An action does nothing, or it begins a call, or it makes a step. -/
theorem act_cases (p : Protocol S L C P R) (o : Watch S P R K) (a : Action C)
    (w : Observed S L C P R K) :
    act p o a w = w ∨
    (∃ i c own own' point, a = .call i c ∧ w.world.threads[i]? = some ⟨own, none⟩ ∧
      p.enter own c = some (own', point)) ∨
    ∃ i spurious own point, a = .step i spurious ∧
      w.world.threads[i]? = some ⟨own, some point⟩ ∧ p.ready w.world.shared own point := by
  cases a with
  | call i c =>
    rcases ht : w.world.threads[i]? with _ | ⟨own, _ | point⟩
    · left; simp [act, World.act, World.begins, ht]
    · rcases he : p.enter own c with _ | ⟨own', point⟩
      · left; simp [act, World.act, World.begins, ht, he]
      · exact .inr (.inl ⟨i, c, own, own', point, rfl, ht, he⟩)
    · left; simp [act, World.act, World.begins, ht]
  | step i spurious =>
    rcases ht : w.world.threads[i]? with _ | ⟨own, _ | point⟩
    · left; simp [act, World.act, World.moves, ht]
    · left; simp [act, World.act, World.moves, ht]
    · by_cases hr : p.ready w.world.shared own point
      · exact .inr (.inr ⟨i, spurious, own, point, rfl, ht, hr⟩)
      · left; simp [act, World.act, World.moves, ht, hr]

/-- An answer comes from a step of the thread that it is for. -/
theorem act_answered (o : Watch S P R K) {a : Action C} {w : Observed S L C P R K} {i : Nat} {r : R}
    (h : (World.act p a w.world).history = .answered i r :: w.world.history) :
    ∃ spurious own point, a = .step i spurious ∧ w.world.threads[i]? = some ⟨own, some point⟩ ∧
      (p.step spurious w.world.shared own point).2.2 = .inr r := by
  have stay : w.world.history ≠ .answered i r :: w.world.history := (List.cons_ne_self _ _).symm
  rw [← world_act (o := o)] at h
  rcases act_cases p o a w with e | ⟨j, c, own, own', point, rfl, ht, he⟩ |
    ⟨j, spurious, own, point, rfl, ht, hr⟩
  · rw [e] at h
    exact absurd h stay
  · rw [act_call ht he] at h
    simp at h
  · rcases hs : p.step spurious w.world.shared own point with ⟨s, own', next⟩
    rw [act_step ht hr hs] at h
    cases next with
    | inl point' => exact absurd h stay
    | inr reply =>
      simp only [answers, List.cons_append, List.cons.injEq, Moment.answered.injEq] at h
      obtain ⟨⟨rfl, rfl⟩, -⟩ := h
      exact ⟨spurious, own, point, rfl, ht, by rw [hs]⟩

/-- A thread stays where it is as long as it does not make a step. -/
theorem run_quiet {t : Nat} {own : L} {point : P} (as : List (Action C))
    (w : Observed S L C P R K) (quiet : ∀ spurious, .step t spurious ∉ as)
    (h : w.world.threads[t]? = some ⟨own, some point⟩) :
    (run p o as w).world.threads[t]? = some ⟨own, some point⟩ := by
  induction as generalizing w with
  | nil => exact h
  | cons a as ih =>
    refine ih _ (fun s hs => quiet s (List.mem_cons_of_mem a hs)) ?_
    rcases act_cases p o a w with e | ⟨i, c, _, _, _, rfl, ht, he⟩ |
      ⟨i, spurious, own', point', rfl, ht, hr⟩
    · rw [e]; exact h
    · have ne : i ≠ t := by
        rintro rfl
        rw [h] at ht
        cases ht
      rw [act_call ht he]
      simpa [ne] using h
    · have ne : i ≠ t := by
        rintro rfl
        exact quiet spurious (by simp)
      rw [act_step ht hr rfl]
      simpa [ne] using h

/-- What holds before a run and not after it stops holding at one of the actions. -/
theorem run_turn {φ : Observed S L C P R K → Prop} (as : List (Action C))
    (w : Observed S L C P R K) (h : φ w) (h' : ¬ φ (run p o as w)) :
    ∃ before a after, as = before ++ a :: after ∧ φ (run p o before w) ∧
      ¬ φ (act p o a (run p o before w)) := by
  induction as generalizing w with
  | nil => exact absurd h h'
  | cons a as ih =>
    by_cases ha : φ (act p o a w)
    · obtain ⟨before, b, after, rfl, hb, hb'⟩ := ih _ ha h'
      exact ⟨a :: before, b, after, rfl, hb, hb'⟩
    · exact ⟨[], a, as, rfl, h, ha⟩

omit [DecidableEq K] in
theorem history_entries (i : Nat) (s : S) (point : P) (next : P ⊕ R) (log : List (Entry C R)) :
    OrderedAtomics.history (entries o i s point next ++ log) =
      answers i next ++ OrderedAtomics.history log := by
  rcases hm : o.mark s point next with _ | e <;> cases next <;> simp [entries, answers, hm]

/-- The log shows what can be seen of the run. -/
theorem history_log (as : List (Action C)) (w : Observed S L C P R K)
    (h : history w.log = w.world.history) :
    history (run p o as w).log = (run p o as w).world.history := by
  induction as generalizing w with
  | nil => exact h
  | cons a as ih =>
    refine ih _ ?_
    rcases act_cases p o a w with e | ⟨i, c, own, own', point, rfl, ht, he⟩ |
      ⟨i, spurious, own, point, rfl, ht, hr⟩
    · rw [e]; exact h
    · rw [act_call ht he]; simp [h]
    · rcases hs : p.step spurious w.world.shared own point with ⟨s, own', next⟩
      rw [act_step ht hr hs, history_entries, h]

end Facts

end Observed

end OrderedAtomics
