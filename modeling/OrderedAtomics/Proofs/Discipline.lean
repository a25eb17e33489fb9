import OrderedAtomics.Proofs.Observation

/-! Threads that rely on one another. Every thread in a call knows something about the shared state
and has some nodes to itself; the steps of the others leave both alone. What one step keeps is
then enough for every run: all that is known stays true, and the log of the run is one of a
sequential object. -/

namespace OrderedAtomics

open Observed (arrived)

variable {S L C P R K A : Type} [DecidableEq K]

/-- The terms on which the threads of a protocol get along, and the sequential object that they make
together. -/
structure Terms (S L C P R K A : Type) where
  spec : A → C → R → A → Prop
  /-- The nodes that a thread has to itself. -/
  keeps : L → Option P → List Nat
  /-- What holds of the shared state, given the nodes that threads have to themselves. -/
  Shared : S → A → List Nat → Prop
  /-- What a thread in a call knows. -/
  Local : S → (K → Nat) → Phase C R → L → P → Prop
  /-- What the threads that have these nodes rely on when another one makes a step. -/
  Rely : List Nat → S → S → Prop

/-- A step from `point` to `next` keeps to the terms, while the others have the nodes `rest`. -/
def Terms.Outcome (d : Terms S L C P R K A) (o : Watch S P R K) (rest : List Nat) (age : K → Nat)
    (φ : Phase C R) (a : A) (s : S) (point : P) (s' : S) (own' : L) (next : P ⊕ R) : Prop :=
  d.Rely rest s s' ∧ ∃ ψ a', Passes d.spec (o.mark s point next) φ a ψ a' ∧
    d.Shared s' a' (d.keeps own' (arrived next) ++ rest) ∧
    match next with
    | .inl point' => d.Local s' (o.aged s s' (o.renewed point age)) ψ own' point'
    | .inr reply => ψ.Answers reply

namespace Terms.Outcome

variable {d : Terms S L C P R K A} {o : Watch S P R K} {rest : List Nat} {age : K → Nat}
  {φ : Phase C R} {a a' : A} {s s' : S} {point point' : P} {own' : L}

/-- A step on the way. -/
theorem onward (mark : o.mark s point (.inl point') = none) (rely : d.Rely rest s s')
    (shared : d.Shared s' a (d.keeps own' (some point') ++ rest))
    (knows : d.Local s' (o.aged s s' (o.renewed point age)) φ own' point') :
    d.Outcome o rest age φ a s point s' own' (.inl point') :=
  ⟨rely, φ, a, mark ▸ .none, shared, knows⟩

/-- A step on the way that changes nothing. -/
theorem look (mark : o.mark s point (.inl point') = none) (rely : d.Rely rest s s)
    (shared : d.Shared s a (d.keeps own' (some point') ++ rest))
    (knows : d.Local s (o.renewed point age) φ own' point') :
    d.Outcome o rest age φ a s point s own' (.inl point') :=
  onward mark rely shared (by rwa [Watch.aged_self])

/-- The last step of a call, at which it takes effect. -/
theorem reply {c : C} {shown : Option R} {r : R}
    (mark : o.mark s point (.inr r) = some (.settles r)) (rely : d.Rely rest s s')
    (phase : φ = .pending c shown) (spec : d.spec a c r a')
    (shared : d.Shared s' a' (d.keeps own' none ++ rest)) :
    d.Outcome o rest age φ a s point s' own' (.inr r) :=
  ⟨rely, .settled r, a', by rw [mark, phase]; exact .settles spec, shared, rfl⟩

end Terms.Outcome

/-- Terms that all steps of a protocol keep to. -/
structure Discipline (p : Protocol S L C P R) (o : Watch S P R K) (A : Type) extends
    Terms S L C P R K A where
  ready : ∀ s own point, p.ready s own point = true
  perm : ∀ {s a kept kept'}, kept.Perm kept' → Shared s a kept → Shared s a kept'
  enter : ∀ {own c own' point}, p.enter own c = some (own', point) →
    (keeps own none).Perm (keeps own' (some point)) ∧
      ∀ s age, Local s age (.pending c none) own' point
  stable : ∀ {s s' age φ own point rest}, Rely rest s s' →
    (∀ x ∈ keeps own (some point), x ∈ rest) → Local s age φ own point →
    Local s' (o.aged s s' age) φ own point
  step : ∀ {spurious s a rest age φ own point s' own' next},
    Shared s a (keeps own (some point) ++ rest) → Local s age φ own point →
    (∀ k, o.compares point = some k → age k < 2 ^ addressWidth) →
    p.step spurious s own point = (s', own', next) →
    toTerms.Outcome o rest age φ a s point s' own' next

/-- A compare-exchange finds what it expects, or it does not swap. -/
theorem swap_cases {β : Type} {found : Prop} [Decidable found] {spurious : Bool} {x y z : β}
    (e : (if found && !spurious then x else y) = z) : found ∧ x = z ∨ y = z := by
  split at e
  next h =>
    rw [Bool.and_eq_true, decide_eq_true_eq] at h
    exact .inl ⟨h.1, e⟩
  next => exact .inr e

/-! ### Threads in a list -/

theorem perm_flatMap_set {α β : Type} {l : List α} {i : Nat} {t : α} (u : α) (f : α → List β)
    (h : l[i]? = some t) : ((l.set i u).flatMap f).Perm (f u ++ (l.eraseIdx i).flatMap f) := by
  obtain ⟨hi, -⟩ := List.getElem?_eq_some_iff.mp h
  have hp := List.getElem_cons_eraseIdx_perm (l := l.set i u) (n := i) (by simpa using hi)
  rw [List.getElem_set_self, List.eraseIdx_set_eq] at hp
  exact (hp.symm.flatMap_right f).trans (by simp)

theorem perm_flatMap {α β : Type} {l : List α} {i : Nat} {t : α} (f : α → List β)
    (h : l[i]? = some t) : (l.flatMap f).Perm (f t ++ (l.eraseIdx i).flatMap f) := by
  have hs : l.set i t = l := by
    obtain ⟨hi, rfl⟩ := List.getElem?_eq_some_iff.mp h
    exact List.set_getElem_self hi
  simpa [hs] using perm_flatMap_set t f h

theorem mem_flatMap_eraseIdx {α β : Type} {l : List α} {i j : Nat} {u : α} {f : α → List β} {x : β}
    (h : l[j]? = some u) (hj : j ≠ i) (hx : x ∈ f u) : x ∈ (l.eraseIdx i).flatMap f :=
  List.mem_flatMap.mpr ⟨u, List.mem_eraseIdx_iff_getElem?.mpr ⟨j, hj, h⟩, hx⟩

/-! ### The entries of a step -/

/-- The phase of a thread after a step. -/
def landed : P ⊕ R → Phase C R → Phase C R
  | .inl _, ψ => ψ
  | .inr _, _ => .idle

omit [DecidableEq K] in
theorem Admits.entries {spec : A → C → R → A → Prop} {o : Watch S P R K} {a₀ a a' : A}
    {log : List (Entry C R)} {φ : Nat → Phase C R} {i : Nat} {ψ : Phase C R} {s : S} {point : P}
    {next : P ⊕ R} (h : Admits spec a₀ log φ a)
    (pass : Passes spec (o.mark s point next) (φ i) a ψ a')
    (ans : ∀ r, next = .inr r → ψ.Answers r) :
    Admits spec a₀ (Observed.entries o i s point next ++ log)
      (Function.update φ i (landed next ψ)) a' := by
  have passed : Admits spec a₀ (((o.mark s point next).map (.passed i)).toList ++ log)
      (Function.update φ i ψ) a' := by
    rcases hm : o.mark s point next with _ | e
    · rw [hm] at pass
      generalize hφ : φ i = χ at pass
      cases pass
      rw [Function.update_eq_self_iff.mpr hφ.symm]
      exact h
    · rw [hm] at pass
      exact h.passed pass
  cases next with
  | inl point' => exact passed
  | inr r =>
    have := passed.answered (i := i) (r := r) (by simpa using ans r rfl)
    rw [Function.update_idem] at this
    exact this

namespace Discipline

variable {p : Protocol S L C P R} {o : Watch S P R K} (d : Discipline p o A)

/-- What a thread that is not in a call knows is that it is not. -/
def Knows (s : S) (age : K → Nat) (φ : Phase C R) (t : Thread L P) : Prop :=
  match t.point with
  | none => φ = .idle
  | some point => d.Local s age φ t.own point

/-- All nodes that threads have to themselves. -/
def kept (threads : List (Thread L P)) : List Nat := threads.flatMap fun t => d.keeps t.own t.point

/-- The log leads the object from `a₀` to `a`, and the shared state and all threads are in order. -/
def Holds (a₀ : A) (w : Observed S L C P R K) (a : A) : Prop :=
  ∃ φ, Admits d.spec a₀ w.log φ a ∧ d.Shared w.world.shared a (d.kept w.world.threads) ∧
    ∀ i t, w.world.threads[i]? = some t → d.Knows w.world.shared (w.age i) (φ i) t

variable {d} {a₀ a : A} {w : Observed S L C P R K}

/-- At first no thread has a node. -/
theorem holds_start {s : S} {own : List L} (empty : ∀ l ∈ own, d.keeps l none = [])
    (h : d.Shared s a₀ []) : d.Holds a₀ (Observed.start s own) a₀ := by
  refine ⟨fun _ => .idle, .nil, ?_, ?_⟩
  · have none : d.kept (own.map fun l => (⟨l, none⟩ : Thread L P)) = [] := by
      rw [kept, List.flatMap_map]
      exact List.flatMap_eq_nil_iff.mpr empty
    exact none ▸ h
  · intro i t ht
    simp only [Observed.start, World.start, List.getElem?_map, Option.map_eq_some_iff] at ht
    obtain ⟨l, -, rfl⟩ := ht
    rfl

theorem Holds.call {i : Nat} {c : C} {own own' : L} {point : P} (h : d.Holds a₀ w a)
    (ht : w.world.threads[i]? = some ⟨own, none⟩) (he : p.enter own c = some (own', point)) :
    d.Holds a₀ (Observed.act p o (.call i c) w) a := by
  obtain ⟨φ, hlog, hshared, hknows⟩ := h
  obtain ⟨hkeeps, hlocal⟩ := d.enter he
  rw [Observed.act_call ht he]
  refine ⟨Function.update φ i (.pending c none), hlog.called (hknows i _ ht), ?_, ?_⟩
  · refine d.perm (List.Perm.trans ?_ (perm_flatMap_set _ _ ht).symm) hshared
    exact (perm_flatMap _ ht).trans (hkeeps.append_right _)
  · intro j t hj
    by_cases hji : j = i
    · subst hji
      rw [List.getElem?_set_self (List.getElem?_eq_some_iff.mp ht).1] at hj
      obtain rfl := Option.some.inj hj
      simpa [Knows] using hlocal w.world.shared (w.age j)
    · rw [List.getElem?_set_ne (Ne.symm hji)] at hj
      simpa [hji] using hknows j t hj

theorem Holds.step {i : Nat} {spurious : Bool} {own own' : L} {point : P} {s : S} {next : P ⊕ R}
    (h : d.Holds a₀ w a) (ht : w.world.threads[i]? = some ⟨own, some point⟩)
    (hs : p.step spurious w.world.shared own point = (s, own', next))
    (fresh : ∀ k, o.compares point = some k → w.age i k < 2 ^ addressWidth) :
    ∃ a', d.Holds a₀ (Observed.act p o (.step i spurious) w) a' := by
  obtain ⟨φ, hlog, hshared, hknows⟩ := h
  obtain ⟨hrely, ψ, a', pass, hshared', hnext⟩ :=
    d.step (d.perm (perm_flatMap (fun t => d.keeps t.own t.point) ht) hshared) (hknows i _ ht)
      fresh hs
  rw [Observed.act_step ht (d.ready _ _ _) hs]
  refine ⟨a', Function.update φ i (landed next ψ), hlog.entries pass ?_, ?_, ?_⟩
  · rintro r rfl; exact hnext
  · exact d.perm (perm_flatMap_set _ _ ht).symm hshared'
  · intro j t hj
    by_cases hji : j = i
    · subst hji
      rw [List.getElem?_set_self (List.getElem?_eq_some_iff.mp ht).1] at hj
      obtain rfl := Option.some.inj hj
      cases next with
      | inl point' => simpa [Knows, landed, arrived] using hnext
      | inr r => simp [Knows, landed, arrived]
    · rw [List.getElem?_set_ne (Ne.symm hji)] at hj
      have hk := hknows j t hj
      rcases t with ⟨own₂, _ | point₂⟩
      · simpa [Knows, hji] using hk
      · simpa [Knows, hji] using
          d.stable hrely (fun x hx => mem_flatMap_eraseIdx hj hji hx) hk

theorem Holds.act {x : Action C} (h : d.Holds a₀ w a) (fresh : Observed.fresh o w x) :
    ∃ a', d.Holds a₀ (Observed.act p o x w) a' := by
  rcases Observed.act_cases p o x w with e | ⟨i, c, own, own', point, rfl, ht, he⟩ |
    ⟨i, spurious, own, point, rfl, ht, -⟩
  · rw [e]; exact ⟨a, h⟩
  · exact ⟨a, h.call ht he⟩
  · refine h.step ht rfl fun k hk => ?_
    simpa [Observed.fresh, ht, hk] using fresh

/-- What the discipline says holds after every unwrapped run. -/
theorem Holds.run {as : List (Action C)} (h : d.Holds a₀ w a)
    (unwrapped : Observed.unwrapped p o as w) : ∃ a', d.Holds a₀ (Observed.run p o as w) a' := by
  induction as generalizing w a with
  | nil => exact ⟨a, h⟩
  | cons x as ih =>
    rw [Observed.unwrapped, Bool.and_eq_true] at unwrapped
    obtain ⟨a', h'⟩ := h.act unwrapped.1
    exact ih h' unwrapped.2

end Discipline

end OrderedAtomics
