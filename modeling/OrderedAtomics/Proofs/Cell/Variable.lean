import OrderedAtomics.Proofs.Cell.Acting
import OrderedAtomics.Proofs.Cell.Layout
import OrderedAtomics.Proofs.Cell.Primitive

/-! Operations that act as on a plain variable. `rest s x` says that the state is at rest, nobody
about to interfere, and holds `x`. Each level of operations that is derived from one that acts as on
a variable does so as well. -/

namespace OrderedAtomics

variable {σ α β W : Type} {rest : σ → W → Prop}

/-- At rest with `x`, the access ends with the answer and comes to rest with `y`. -/
def Access.Gives (rest : σ → W → Prop) (a : Access σ α) (x : W) (answer : α) (y : W) : Prop :=
  ∀ s, rest s x → ∃ s', a s = .ok answer s' ∧ rest s' y

namespace Access.Gives

variable {a : Access σ α} {f : α → Access σ β} {x y z : W} {u : α} {v : β}

theorem pure (x : W) (u : α) : Gives rest (pure u : Access σ α) x u x := fun s hs => ⟨s, rfl, hs⟩

theorem bind (ha : Gives rest a x u y) (hf : Gives rest (f u) y v z) :
    Gives rest (a >>= f) x v z := by
  intro s hs
  obtain ⟨s₁, e₁, h₁⟩ := ha s hs
  obtain ⟨s₂, e₂, h₂⟩ := hf s₁ h₁
  exact ⟨s₂, (Access.bind_ok e₁).trans e₂, h₂⟩

theorem map (ha : Gives rest a x u y) (g : α → β) :
    Gives rest (do return g (← a)) x (g u) y := ha.bind (pure y (g u))

/-- An access that looks at the state first. -/
theorem get_bind {f : σ → Access σ β} (h : ∀ s, rest s x → Gives rest (f s) x v z) :
    Gives rest (do f (← get)) x v z := by
  intro s hs
  exact h s hs s hs

end Access.Gives

open Access (Gives)

/-- A retry whose first attempt answers. -/
theorem gives_retry {attempt : α → Access σ (α ⊕ β)} {n : Nat} {u : α} {v : β} {x y : W}
    (hn : 0 < n) (h : Gives rest (attempt u) x (.inr v) y) :
    Gives rest (retry attempt n u) x v y := by
  obtain ⟨n, rfl⟩ := Nat.exists_eq_succ_of_ne_zero (Nat.ne_of_gt hn)
  exact h.bind (.pure y v)

/-! ### Levels -/

section Word

variable [DecidableEq W]

/-- What a compare-exchange reports of a variable with value `x`. -/
def CasOutcome.of (x expected : W) : CasOutcome W :=
  if x = expected then ⟨true, expected⟩ else ⟨false, x⟩

/-- The value that a compare-exchange leaves. -/
def swapped (x expected desired : W) : W := if x = expected then desired else x

/-- The minimal operations act as on a variable. -/
structure Minimal.Plain (ops : Minimal σ W) (rest : σ → W → Prop) : Prop where
  load : ∀ {o}, o.legalForLoad → ∀ x, Gives rest (ops.load o) x x x
  store : ∀ {o}, o.legalForStore → ∀ v x, Gives rest (ops.store v o) x () v
  casWeak : ∀ {f}, f.legalForLoad → ∀ e d s x,
    Gives rest (ops.casWeak e d s f) x (.of x e) (swapped x e d)
  patience : ∀ {s x}, rest s x → 0 < ops.patience s

structure Exchange.Plain (ops : Exchange σ W) (rest : σ → W → Prop) : Prop extends
    toMinimal : ops.toMinimal.Plain rest where
  casStrong : ∀ {f}, f.legalForLoad → ∀ e d s x,
    Gives rest (ops.casStrong e d s f) x (.of x e) (swapped x e d)
  exchange : ∀ v o x, Gives rest (ops.exchange v o) x x v

namespace Minimal.Plain

variable {ops : Minimal σ W} (h : ops.Plain rest)
include h

/-- The first attempt of a read-modify-write is on the value that was just read. -/
theorem update (f : W → W) (o : MemoryOrder) (x : W) :
    Gives rest (ops.update f o) x (x, f x) (f x) := by
  have attempt : Gives rest (do
      let outcome ← ops.casWeak x (f x) o .relaxed
      return if outcome.stored then Sum.inr (x, f x) else Sum.inl outcome.expected : Access σ
        (W ⊕ W × W)) x (.inr (x, f x)) (f x) := by
    have := (h.casWeak (f := .relaxed) rfl x (f x) o x).map
      fun outcome => if outcome.stored then Sum.inr (x, f x) else Sum.inl outcome.expected
    simpa [CasOutcome.of, swapped] using this
  refine (h.load rfl x).bind (.get_bind fun s hs => ?_)
  exact gives_retry (h.patience hs) attempt

theorem casUntilDecided {failure : MemoryOrder} (legal : failure.legalForLoad) (e d : W)
    (success : MemoryOrder) (x : W) :
    Gives rest (ops.casUntilDecided e d success failure) x (.of x e) (swapped x e d) := by
  refine .get_bind fun s hs => gives_retry (h.patience hs) ?_
  have := (h.casWeak legal e d success x).map
    fun outcome => if outcome.stored || outcome.expected ≠ e then Sum.inr outcome else Sum.inl ()
  have decided : ((CasOutcome.of x e).stored || (CasOutcome.of x e).expected ≠ e) = true := by
    by_cases hx : x = e <;> simp [CasOutcome.of, hx]
  rwa [if_pos decided] at this

theorem withExchange : ops.withExchange.Plain rest where
  toMinimal := h
  casStrong legal e d s x := h.casUntilDecided legal e d s x
  exchange v o x := (h.update (fun _ => v) o x).map Prod.fst

end Minimal.Plain

end Word

variable {w : Nat} {rest : σ → BitVec w → Prop}

structure FetchAdd.Plain (ops : FetchAdd σ (BitVec w)) (rest : σ → BitVec w → Prop) : Prop extends
    toExchange : ops.toExchange.Plain rest where
  fetchAdd : ∀ v o x, Gives rest (ops.fetchAdd v o) x x (x + v)

/-- To act on a variable: at rest with some value, to give what the function makes of it. -/
def Sense.plain (rest : σ → W → Prop) : Sense σ W where
  Acts _ a f := ∀ x, Gives rest a x (f x).1 (f x).2
  map h g x := (h x).map g

theorem Exchange.Plain.withFetchAdd {ops : Exchange σ (BitVec w)} (h : ops.Plain rest) :
    ops.withFetchAdd.Plain rest where
  toExchange := h
  fetchAdd v o x := (h.update (· + v) o x).map Prod.fst

theorem Exchange.Plain.withCounting {ops : Exchange σ (BitVec w)}
    {counting : Counting σ (BitVec w)} (h : ops.Plain rest) (hc : counting.Acts (.plain rest)) :
    (ops.withCounting counting).Plain rest where
  toExchange := h
  fetchAdd := hc.withCounting ops

theorem Minimal.Plain.integral {ops : Minimal σ (BitVec w)} (h : ops.Plain rest) :
    ops.integral.Plain rest := h.withExchange.withFetchAdd

theorem FetchAdd.Plain.acts {ops : FetchAdd σ (BitVec w)} (h : ops.Plain rest) :
    ops.Acts (.plain rest) where
  update := h.update
  exchange := h.exchange
  fetchAdd := h.fetchAdd

/-! ### Small words -/

namespace SubWord

/-- A state at rest with a word that has the small word `x` in it. -/
def Rest {n : Nat} (rest : σ → BitVec n → Prop) (m shift : Nat) (s : σ) (x : BitVec m) :
    Prop :=
  ∃ word, rest s word ∧ extract m shift word = x

variable {n m shift : Nat} {rest : σ → BitVec n → Prop} {ops : Minimal σ (BitVec n)}

/-- A compare-exchange of the whole word succeeds if the small word in it is the expected one. -/
theorem gives_casWeak (h : ops.Plain rest) (fits : shift + m ≤ n) {f : MemoryOrder}
    (legal : f.legalForLoad) (e d : BitVec m) (o : MemoryOrder) (word : BitVec n) :
    Gives rest (casWeak ops shift e d o f) word (.of (extract m shift word) e)
      (if extract m shift word = e then insert shift word d else word) := by
  have found : word = insert shift word e ↔ extract m shift word = e := eq_insert_iff fits
  let report (outcome : CasOutcome (BitVec n)) : CasOutcome (BitVec m) :=
    if outcome.stored then ⟨true, e⟩ else ⟨false, extract m shift outcome.expected⟩
  have attempt : Gives rest (casWeak ops shift e d o f) word
      (report (.of word (insert shift word e)))
      (swapped word (insert shift word e) (insert shift word d)) :=
    (h.load rfl word).bind ((h.casWeak legal (insert shift word e) (insert shift word d) o
      word).map report)
  by_cases hx : extract m shift word = e
  · rw [if_pos hx]
    rw [CasOutcome.of, swapped, if_pos (found.mpr hx), if_pos (found.mpr hx)] at attempt
    rw [CasOutcome.of, if_pos hx]
    exact attempt
  · rw [if_neg hx]
    rw [CasOutcome.of, swapped, if_neg (mt found.mp hx), if_neg (mt found.mp hx)] at attempt
    rw [CasOutcome.of, if_neg hx]
    exact attempt

theorem plain_machine (h : ops.Plain rest) (fits : shift + m ≤ n) :
    (machine ops m shift).Plain (Rest rest m shift) where
  load := by
    rintro o legal x s ⟨word, hs, rfl⟩
    obtain ⟨s', e, h'⟩ := (h.load legal word).map (extract m shift) s hs
    exact ⟨s', e, word, h', rfl⟩
  store := by
    rintro o - v x s ⟨word, hs, rfl⟩
    obtain ⟨s', e, h'⟩ := (h.update (insert shift · v) o word).map (fun _ => ()) s hs
    exact ⟨s', e, _, h', extract_insert fits word v⟩
  casWeak := by
    rintro f legal e d o x s ⟨word, hs, rfl⟩
    obtain ⟨s', ended, h'⟩ := gives_casWeak h fits legal e d o word s hs
    refine ⟨s', ended, _, h', ?_⟩
    rw [swapped]
    split
    · exact extract_insert fits word d
    · rfl
  patience := by
    rintro s x ⟨word, hs, -⟩
    exact h.patience hs

end SubWord

end OrderedAtomics
