import OrderedAtomics.Cell.Recorder
import OrderedAtomics.Proofs.Cell.Layout
import OrderedAtomics.Proofs.Cell.Primitive

/-! Operations on a cell that others write between a look at it and the compare-exchange after it.
A read-modify-write that is derived as a retry loop acts at one instant all the same: its last access
is its only write, and works on what the cell holds just then. -/

namespace OrderedAtomics

/-! ### Accesses -/

section Accesses

variable {α : Type}

/-- Whether an access writes the cell. -/
def Event.writes : Event α → Bool
  | .store .. | .exchange .. | .fetchAdd .. | .fetchAddVar .. | .fetchInc _ | .fetchDec _ => true
  | .cas _ _ _ _ _ stored => stored
  | .load _ | .lockFreeQuery | .before _ | .after _ | .fence _ => false

/-- Whether an access is a compare-exchange, before which others may interfere. -/
def Event.isAttempt : Event α → Bool
  | .cas .. => true
  | _ => false

/-- What others make of a value. -/
def Disturbance.apply (x : α) : Disturbance α → α
  | .overwrite v => v
  | .quiet | .spurious => x

namespace Cell

def attempts (events : List (Event α)) : Nat := events.countP Event.isAttempt

theorem attempts_append (events later : List (Event α)) :
    attempts (events ++ later) = attempts events + attempts later := List.countP_append

theorem attempts_loads {looks : List (Event α)} (loads : ∀ e ∈ looks, e = .load .relaxed) :
    attempts looks = 0 := by
  apply List.countP_eq_zero.mpr
  intro e he
  rw [loads e he]
  exact Bool.false_ne_true

/-- What the last of some accesses meets in the cell, when none before it writes: the value as others
have left it, who act once before each attempt. -/
def met (c : Cell α) (events : List (Event α)) : α :=
  (c.script.take (attempts events)).foldl Disturbance.apply c.value

/-- From `c` to `c'` by some accesses, with one entry of the script used up by each attempt. -/
structure Went (c : Cell α) (events : List (Event α)) (c' : Cell α) : Prop where
  trace : c'.trace = c.trace ++ events
  script : c'.script = c.script.drop (attempts events)

theorem Went.trans {c c₁ c₂ : Cell α} {events later : List (Event α)} (h : c.Went events c₁)
    (h' : c₁.Went later c₂) : c.Went (events ++ later) c₂ where
  trace := by rw [h'.trace, h.trace, List.append_assoc]
  script := by rw [h'.script, h.script, List.drop_drop, attempts_append]

/-- From `c` to `c'` by accesses that do not write: the value is what others have made of it. -/
def Looked (c c' : Cell α) : Prop :=
  ∃ looks, c.Went looks c' ∧ (∀ e ∈ looks, e.writes = false) ∧ c'.value = c.met looks

/-- From `c` to `c'` by accesses of which the last one writes and the others do not. It meets `found`
in the cell. -/
def Wrote (c : Cell α) (found : α) (c' : Cell α) : Prop :=
  ∃ looks write, c.Went (looks ++ [write]) c' ∧ (∀ e ∈ looks, e.writes = false) ∧
    write.writes = true ∧ c.met (looks ++ [write]) = found

/-- What is met later is met from where the looks have led. -/
theorem met_append {c c₁ : Cell α} {looks : List (Event α)} (went : c.Went looks c₁)
    (value : c₁.value = c.met looks) (later : List (Event α)) :
    c.met (looks ++ later) = c₁.met later := by
  unfold met
  rw [attempts_append, List.take_add, List.foldl_append, went.script, value]
  rfl

theorem Looked.look {c c₁ c₂ : Cell α} (h : c.Looked c₁) (h' : c₁.Looked c₂) : c.Looked c₂ := by
  obtain ⟨looks, went, silent, value⟩ := h
  obtain ⟨later, went', silent', value'⟩ := h'
  refine ⟨looks ++ later, went.trans went', ?_, ?_⟩
  · intro e he
    exact (List.mem_append.mp he).elim (silent e) (silent' e)
  · rw [value', met_append went value]

theorem Looked.write {c c₁ c₂ : Cell α} {found : α} (h : c.Looked c₁) (h' : c₁.Wrote found c₂) :
    c.Wrote found c₂ := by
  obtain ⟨looks, went, silent, value⟩ := h
  obtain ⟨later, write, went', silent', writes, met⟩ := h'
  refine ⟨looks ++ later, write, ?_, ?_, writes, ?_⟩
  · rw [List.append_assoc]
    exact went.trans went'
  · intro e he
    exact (List.mem_append.mp he).elim (silent e) (silent' e)
  · rw [List.append_assoc, met_append went value, met]

/-- One attempt after some loads meets what the script has for it. -/
theorem met_attempt (c : Cell α) {looks : List (Event α)} (loads : ∀ e ∈ looks, e = .load .relaxed)
    {cas : Event α} (attempt : cas.isAttempt = true) : c.met (looks ++ [cas]) = c.found := by
  have one : attempts (looks ++ [cas]) = 1 := by
    rw [attempts_append, attempts_loads loads]
    simp [attempts, attempt]
  unfold met found
  rw [one]
  obtain ⟨value, _ | ⟨_ | v | _, script⟩, trace⟩ := c <;> rfl

/-- Loads use nothing of the script up, so that they change nothing of what is met. -/
theorem met_loads (c : Cell α) {looks loads : List (Event α)}
    (h : ∀ e ∈ loads, e = .load .relaxed) : c.met (looks ++ loads) = c.met looks := by
  unfold met
  rw [attempts_append, attempts_loads h, Nat.add_zero]

theorem went_load (c : Cell α) (o : MemoryOrder) :
    c.Went [.load o] { c with trace := c.trace ++ [.load o] } := ⟨rfl, rfl⟩

theorem looked_load (c : Cell α) (o : MemoryOrder) :
    c.Looked { c with trace := c.trace ++ [.load o] } :=
  ⟨[.load o], c.went_load o, by simp [Event.writes], rfl⟩

/-- The accesses of a loop that is not done yet: relaxed loads, and attempts that fail. Each attempt is
the one that `attempt` makes of the value seen last, which is what the access before it met. -/
inductive Tried (c : Cell α) (attempt : α → Bool → Event α) : List (Event α) → Prop
  | nothing : Tried c attempt []
  | load {looks : List (Event α)} (before : Tried c attempt looks) :
    Tried c attempt (looks ++ [.load .relaxed])
  | failed {looks : List (Event α)} (before : Tried c attempt looks) :
    Tried c attempt (looks ++ [attempt (c.met looks) false])

/-- The accesses of a loop that is done: a relaxed load first, and last the only attempt that does not
fail. -/
def Retries (c : Cell α) (attempt : α → Bool → Event α) (events : List (Event α)) : Prop :=
  ∃ looks, [.load .relaxed] <+: looks ∧ c.Tried attempt looks ∧
    events = looks ++ [attempt (c.met looks) true]

/-- From `c` to `c'` by the accesses of a loop that is not done yet. -/
structure Trying (c : Cell α) (attempt : α → Bool → Event α) (looks : List (Event α))
    (c' : Cell α) : Prop where
  tried : c.Tried attempt looks
  went : c.Went looks c'
  value : c'.value = c.met looks

section Tried

variable {c c' : Cell α} {attempt : α → Bool → Event α} {looks : List (Event α)}

theorem Tried.loads (h : c.Tried attempt looks) {loads : List (Event α)}
    (relaxed : ∀ e ∈ loads, e = .load .relaxed) : c.Tried attempt (looks ++ loads) := by
  induction loads generalizing looks with
  | nil => rwa [List.append_nil]
  | cons e loads ih =>
    obtain rfl := relaxed e List.mem_cons_self
    rw [List.append_cons]
    exact ih h.load fun e he => relaxed e (List.mem_cons_of_mem _ he)

/-- If a failed attempt writes nothing, none of the accesses does. -/
theorem Tried.silent (h : c.Tried attempt looks) (fails : ∀ x, (attempt x false).writes = false) :
    ∀ e ∈ looks, e.writes = false := by
  induction h with
  | nothing => simp
  | load _ ih => simpa [or_imp, forall_and, Event.writes] using ih
  | failed _ ih => simpa [or_imp, forall_and, fails] using ih

theorem Retries.wrote {events : List (Event α)} (h : c.Retries attempt events)
    (fails : ∀ x, (attempt x false).writes = false) (ends : ∀ x, (attempt x true).writes = true)
    (went : c.Went events c') : c.Wrote (c.met events) c' := by
  obtain ⟨looks, -, tried, rfl⟩ := h
  exact ⟨looks, _, went, tried.silent fails, ends _, rfl⟩

theorem trying_nothing (c : Cell α) (attempt : α → Bool → Event α) : c.Trying attempt [] c :=
  ⟨.nothing, ⟨(List.append_nil _).symm, rfl⟩, rfl⟩

theorem trying_load (c : Cell α) (attempt : α → Bool → Event α) :
    c.Trying attempt [.load .relaxed] { c with trace := c.trace ++ [.load .relaxed] } :=
  ⟨Tried.nothing.load, c.went_load .relaxed, rfl⟩

end Tried

end Cell

end Accesses

/-! ### Retry loops -/

/-- A retry ends with an answer that is right when each attempt either gives such an answer or goes
on in an invariant state of smaller measure. -/
theorem retry_ends {σ α β : Type} {attempt : α → Access σ (α ⊕ β)} (Inv : α → σ → Prop)
    (Right : β → σ → Prop) (size : σ → Nat)
    (step : ∀ a s, Inv a s →
      (∃ b s', attempt a s = .ok (.inr b) s' ∧ Right b s') ∨
        ∃ a' s', attempt a s = .ok (.inl a') s' ∧ Inv a' s' ∧ size s' < size s)
    {n : Nat} {a : α} {s : σ} (start : Inv a s) (enough : size s < n) :
    ∃ b s', retry attempt n a s = .ok b s' ∧ Right b s' := by
  induction n generalizing a s with
  | zero => omega
  | succ n ih =>
    rcases step a s start with ⟨b, s', ended, right⟩ | ⟨a', s', ended, inv, less⟩
    · refine ⟨b, s', ?_, right⟩
      rw [retry, Access.bind_ok ended]
      rfl
    · obtain ⟨b, s'', ended', right⟩ := ih inv (by omega)
      refine ⟨b, s'', ?_, right⟩
      rw [retry, Access.bind_ok ended]
      exact ended'

/-! ### Updates -/

section Updates

variable {V W β γ : Type} {view : V → W} {put : V → W → V}

/-- The access reads the part `view` of what the cell holds, replaces it by `put` and answers, all
at its last access and as `f` says. Nothing of what others have written is lost. -/
def Access.Atomically (view : V → W) (put : V → W → V) (a : Access (Cell V) β) (f : W → β × W) :
    Prop :=
  ∀ c, ∃ found c', c.Wrote found c' ∧ a c = .ok (f (view found)).1 c' ∧
    c'.value = put found (f (view found)).2

open Access (Atomically)

theorem Access.Atomically.map {a : Access (Cell V) β} {f : W → β × W} (h : Atomically view put a f)
    (g : β → γ) : Atomically view put (do return g (← a)) fun x => (g (f x).1, (f x).2) := by
  intro c
  obtain ⟨found, c', wrote, ended, value⟩ := h c
  refine ⟨found, c', wrote, ?_, value⟩
  rw [Access.bind_ok ended]
  rfl

/-- Minimal operations on a part of what a cell holds. A weak compare-exchange makes one attempt at
the whole, perhaps after loads, with the part replaced by the expected and the desired one. -/
structure Minimal.Attempts (ops : Minimal (Cell V) W) (view : V → W) (put : V → W → V) : Prop where
  /-- The part is in the whole already. -/
  put_view : ∀ x, put x (view x) = x
  load : ∀ o c, ops.load o c = .ok (view c.value) { c with trace := c.trace ++ [.load o] }
  /-- An attempt stores only on the expected part, and does so unless it is interfered with. -/
  casWeak : ∀ e d s f c, ∃ looks stored c',
    (∀ l ∈ looks, l = .load .relaxed) ∧
    c.Went (looks ++ [.cas .weak (put c.value e) (put c.value d) s f stored]) c' ∧
    ops.casWeak e d s f c = .ok (if stored then ⟨true, e⟩ else ⟨false, view c.found⟩) c' ∧
    c'.value = (if stored then put c.found d else c.found) ∧
    (stored = true → view c.found = e) ∧
    (c.spurious = false → c.found = c.value → view c.value = e → stored = true)
  patience : ∀ c, ops.patience c = c.patience

/-- The attempt of an update that has last seen the whole `x`: it replaces the part by `f` of it. -/
abbrev Event.updating (view : V → W) (put : V → W → V) (f : W → W) (o : MemoryOrder) (x : V)
    (stored : Bool) : Event V :=
  .cas .weak x (put x (f (view x))) o .relaxed stored

namespace Minimal.Attempts

variable {ops : Minimal (Cell V) W} (h : ops.Attempts view put)
include h

/-- An attempt of a loop that has gone from `c` to `c₁` either writes, or fails and the loop goes on from
the part that it met. It fails by an entry of the script, or on a part that is not the expected one. -/
theorem attempt_after {c c₁ : Cell V} {attempt : V → Bool → Event V} {looks : List (Event V)}
    (trying : c.Trying attempt looks c₁) {e d : W} {s f : MemoryOrder}
    (made : attempt c₁.value = .cas .weak (put c₁.value e) (put c₁.value d) s f) :
    ∃ more, looks <+: more ∧ c.Tried attempt more ∧
      ((∃ c', c.Went (more ++ [attempt (c.met more) true]) c' ∧
          view (c.met (more ++ [attempt (c.met more) true])) = e ∧
          ops.casWeak e d s f c₁ = .ok ⟨true, e⟩ c' ∧
          c'.value = put (c.met (more ++ [attempt (c.met more) true])) d) ∨
        ∃ c', c.Trying attempt (more ++ [attempt (c.met more) false]) c' ∧
          ops.casWeak e d s f c₁ = .ok ⟨false, view c'.value⟩ c' ∧
          (c'.script.length < c₁.script.length ∨ c'.value = c₁.value ∧ view c₁.value ≠ e)) := by
  obtain ⟨loads, stored, c', relaxed, went, ended, value, expected, sure⟩ := h.casWeak e d s f c₁
  have last : attempt (c.met (looks ++ loads)) = .cas .weak (put c₁.value e) (put c₁.value d) s f := by
    rw [c.met_loads relaxed, ← trying.value, made]
  have tried := trying.tried.loads relaxed
  have whole := trying.went.trans went
  have met : c.met (looks ++ (loads ++ [.cas .weak (put c₁.value e) (put c₁.value d) s f stored])) =
      c₁.found :=
    (Cell.met_append trying.went trying.value _).trans (c₁.met_attempt relaxed rfl)
  rw [← List.append_assoc, ← last] at whole met
  refine ⟨looks ++ loads, List.prefix_append looks loads, tried, ?_⟩
  cases stored with
  | true =>
    refine .inl ⟨c', whole, ?_, ended, ?_⟩
    · rw [met]
      exact expected rfl
    · rw [met]
      exact value
  | false =>
    have value : c'.value = c₁.found := value
    refine .inr ⟨c', ⟨tried.failed, whole, value.trans met.symm⟩, ?_, ?_⟩
    · rw [value]
      exact ended
    · by_cases none : c₁.script = []
      · have same := Cell.found_nil none
        exact .inr ⟨value.trans same, fun he =>
          absurd (sure (Cell.spurious_nil none) same he) Bool.false_ne_true⟩
      · have one : Cell.attempts (loads ++ [Event.cas .weak (put c₁.value e) (put c₁.value d) s f
            false]) = 1 := by
          rw [Cell.attempts_append, Cell.attempts_loads relaxed]
          rfl
        have some := List.length_pos_iff.mpr none
        rw [went.script, one, List.length_drop]
        omega

/-- One attempt writes, or only looks and leaves the part it met to go on with. -/
theorem attempt (e d : W) (s f : MemoryOrder) (c : Cell V) :
    (∃ found c', c.Wrote found c' ∧ view found = e ∧ ops.casWeak e d s f c = .ok ⟨true, e⟩ c' ∧
      c'.value = put found d) ∨
    ∃ c', c.Looked c' ∧ ops.casWeak e d s f c = .ok ⟨false, view c'.value⟩ c' := by
  let attempt (x : V) (stored : Bool) : Event V := .cas .weak (put x e) (put x d) s f stored
  obtain ⟨looks, -, tried, ⟨c', went, same, ended, value⟩ | ⟨c', trying, ended, -⟩⟩ :=
    h.attempt_after (c.trying_nothing attempt) rfl
  · exact .inl ⟨_, c', ⟨looks, _, went, tried.silent fun _ => rfl, rfl, rfl⟩, same, ended, value⟩
  · exact .inr ⟨c', ⟨_, trying.went, trying.tried.silent fun _ => rfl, trying.value⟩, ended⟩

/-- The loop of an update ends with the attempt that writes: each one that fails does so by an entry of
the script. Every attempt is made on the value seen last, the first one on the loaded value. -/
theorem update_ends (f : W → W) (o : MemoryOrder) (c : Cell V) :
    ∃ events c', c.Retries (Event.updating view put f o) events ∧ c.Went events c' ∧
      ops.update f o c = .ok (view (c.met events), f (view (c.met events))) c' ∧
      c'.value = put (c.met events) (f (view (c.met events))) := by
  let first : Cell V := { c with trace := c.trace ++ [.load .relaxed] }
  let attempt (current : W) : Access (Cell V) (W ⊕ W × W) := do
    let outcome ← ops.casWeak current (f current) o .relaxed
    return if outcome.stored then .inr (current, f current) else .inl outcome.expected
  let Inv (current : W) (c₁ : Cell V) : Prop := current = view c₁.value ∧
    ∃ looks, [.load .relaxed] <+: looks ∧ c.Trying (Event.updating view put f o) looks c₁
  have ends : ∃ r c', retry attempt (ops.patience first) (view c.value) first = .ok r c' ∧
      ∃ events, c.Retries (Event.updating view put f o) events ∧ c.Went events c' ∧
        r = (view (c.met events), f (view (c.met events))) ∧
        c'.value = put (c.met events) (f (view (c.met events))) := by
    refine retry_ends Inv _ (fun c₁ => c₁.script.length) ?step
      ⟨rfl, _, List.prefix_rfl, c.trying_load _⟩ ?enough
    case step =>
      rintro current c₁ ⟨rfl, looks, starts, trying⟩
      have made : Event.updating view put f o c₁.value =
          .cas .weak (put c₁.value (view c₁.value)) (put c₁.value (f (view c₁.value))) o .relaxed := by
        funext stored
        rw [Event.updating, h.put_view]
      obtain ⟨more, longer, tried, ⟨c', went, same, ended, value⟩ | ⟨c', again, ended, less⟩⟩ :=
        h.attempt_after trying made
      · rw [← same] at value
        refine .inl ⟨_, c', Access.bind_ok ended, _, ⟨more, starts.trans longer, tried, rfl⟩, went,
          ?_, value⟩
        rw [← same]
      · refine .inr ⟨view c'.value, c', Access.bind_ok ended, ⟨rfl, _, ?_, again⟩,
          less.resolve_right fun unexpected => unexpected.2 rfl⟩
        exact (starts.trans longer).trans (List.prefix_append _ _)
    case enough =>
      rw [h.patience]
      exact Nat.lt_succ_self _
  obtain ⟨r, c', ended, events, retries, went, rfl, value⟩ := ends
  refine ⟨events, c', retries, went, ?_, value⟩
  unfold Minimal.update
  rw [Access.bind_ok (h.load .relaxed c)]
  exact ended

theorem update (f : W → W) (o : MemoryOrder) :
    Atomically view put (ops.update f o) fun x => ((x, f x), f x) := by
  intro c
  obtain ⟨events, c', retries, went, ended, value⟩ := h.update_ends f o c
  exact ⟨_, c', retries.wrote (fun _ => rfl) (fun _ => rfl) went, ended, value⟩

end Minimal.Attempts

end Updates

/-! ### Machines -/

theorem Recorder.attempts {w : Nat} :
    (machine : FetchAdd (Cell (BitVec w)) _).toMinimal.Attempts id fun _ v => v where
  put_view _ := rfl
  load := Cell.read_eq
  casWeak e d s f c := by
    refine ⟨[], c.stores .weak e, _, by simp, ?_, Cell.compareExchange_eq .weak e d s f c, rfl, ?_, ?_⟩
    · exact ⟨rfl, List.drop_one.symm⟩
    · intro stored
      simp only [Cell.stores, Bool.and_eq_true, decide_eq_true_eq] at stored
      exact stored.1
    · intro notSpurious same he
      simp only [id] at he
      simp [Cell.stores, notSpurious, same, he]
  patience _ := rfl

/-- An attempt at a small word is one at the whole word, with the bits around it as they were just
loaded. It stores only if they still are. -/
theorem SubWord.attempts {n m shift : Nat} {base : Minimal (Cell (BitVec n)) (BitVec n)}
    (h : base.Attempts id fun _ v => v) (fits : shift + m ≤ n) :
    (machine base m shift).Attempts (extract m shift) (insert shift) where
  put_view := insert_extract
  load o c := by
    show (base.load o >>= fun word => pure (extract m shift word)) c = _
    rw [Access.bind_ok (h.load o c)]
    rfl
  casWeak e d s f c := by
    let c₁ : Cell (BitVec n) := { c with trace := c.trace ++ [.load .relaxed] }
    obtain ⟨looks, stored, c', loads, went, ended, value, expected, sure⟩ :=
      h.casWeak (insert shift c.value e) (insert shift c.value d) s f c₁
    refine ⟨.load .relaxed :: looks, stored, c', ?_, ?_, ?_, ?_, ?_, ?_⟩
    · intro l hl
      rcases List.mem_cons.mp hl with rfl | hl
      · rfl
      · exact loads l hl
    · exact (c.went_load .relaxed).trans went
    · show SubWord.casWeak base shift e d s f c = _
      unfold SubWord.casWeak
      rw [Access.bind_ok (h.load .relaxed c)]
      refine (Access.bind_ok ended).trans ?_
      cases stored <;> rfl
    · rw [value]
      cases stored with
      | false => rfl
      | true =>
        have found : c.found = insert shift c.value e := expected rfl
        simp only [if_true]
        rw [found, insert_insert]
    · intro hs
      have found : c.found = insert shift c.value e := expected hs
      rw [found, extract_insert fits]
    · intro notSpurious same he
      exact sure notSpurious same ((eq_insert_iff fits).mpr he)
  patience := h.patience

end OrderedAtomics
