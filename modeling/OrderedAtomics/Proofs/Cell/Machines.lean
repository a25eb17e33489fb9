import OrderedAtomics.Cell.Locked
import OrderedAtomics.Proofs.Cell.Fenced
import OrderedAtomics.Proofs.Cell.Prompt

/-! Machines in the way of others. What a machine does in one primitive takes at most one attempt, and
its weak compare-exchange is one attempt at the whole word, or at a part of it. The retry loops of the
levels above ask for no more than that. -/

namespace OrderedAtomics

/-! ### Attempts between looks -/

namespace Cell

variable {V : Type}

/-- Fences change nothing of what is met. -/
theorem met_fences (c : Cell V) (events : List (Event V)) {fences : List (Event V)}
    (h : ∀ e ∈ fences, e.looks = true) : c.met (events ++ fences) = c.met events := by
  unfold met
  rw [attempts_append, attempts_of_looks h, Nat.add_zero]

section Attempted

variable {W : Type} {single : Prop} {view : V → W} {put : V → W → V} {e d : W} {c c₁ c' : Cell V}
  {looks events : List (Event V)} {stored : Bool}

/-- What goes before an attempt does not count as part of it if it makes none itself. -/
theorem Attempted.after_idled (h : c₁.Attempted single view put e d events stored c')
    (idled : c.Idled looks c₁) (none : single → attempts looks = 0) :
    c.Attempted single view put e d (looks ++ events) stored c' where
  went := idled.went.trans h.went
  decided := h.decided.after idled.idle
  value := by rw [met_append idled.went idled.value, h.value]
  expected := by
    rw [met_append idled.went idled.value]
    exact h.expected
  sure failed same := by
    rw [met_append idled.went idled.value] at same
    have upset := h.sure failed same
    rw [interfered_append idled.went]
    omega
  once s := by rw [attempts_append, none s, h.once s]

theorem Attempted.before_fences (h : c.Attempted single view put e d events stored c')
    (fences : ∀ l ∈ looks, l.looks = true) :
    c.Attempted single view put e d (events ++ looks) stored
      { c' with trace := c'.trace ++ looks } := by
  have same := c.met_fences events fences
  refine ⟨h.went.trans (c'.idled_looks fences).went, ?decided, ?value, ?expected, ?sure, ?once⟩
  case decided =>
    obtain ⟨before, k, e, d, s, f, after, rfl, idle, after_looks⟩ := h.decided
    refine ⟨before, k, e, d, s, f, after ++ looks, List.append_assoc .., idle, ?_⟩
    exact fun l hl => (List.mem_append.mp hl).elim (after_looks l) (fences l)
  case value =>
    rw [same]
    exact h.value
  case expected =>
    rw [same]
    exact h.expected
  case sure =>
    rw [same, interfered_append h.went]
    exact fun failed met => Nat.lt_of_lt_of_le (h.sure failed met) (Nat.le_add_right _ _)
  case once =>
    rw [attempts_append, attempts_of_looks fences]
    exact h.once

end Attempted

end Cell

/-! ### Machines -/

section Machines

variable {σ : Type} {w : Nat}

/-- Operations that are primitives of a whole word. -/
theorem Minimal.contended_of_primitives {ops : Minimal σ (BitVec w)} {S : Site σ (BitVec w)}
    (legal : ∀ {a o}, Admission.hardware a o → S.takes a o)
    (load : ∀ {o}, S.takes .load o → ∃ o', S.Runs (ops.load o) (Cell.read o'))
    (casWeak : ∀ {f}, S.takes .failure f → ∀ e d s, ∃ k s' f',
      S.Runs (ops.casWeak e d s f) (Cell.compareExchange identical k e d s' f'))
    (patience : ∀ s, ops.patience s = (S.cell s).patience) :
    ops.Contended S id fun _ v => v where
  legal := legal
  view_put _ _ := rfl
  patience := patience
  load {o} taken s fit := by
    obtain ⟨o', runs⟩ := load taken
    obtain ⟨s', ended, fit', cell⟩ := runs s fit (Cell.read_eq o' (S.cell s))
    have looks : ∀ e ∈ [(.load o' : Event (BitVec w))], e.looks = true := by simp [Event.looks]
    refine ⟨[.load o'], s', ?_, fit', ?_, fun _ => Cell.attempts_of_looks looks⟩
    · rw [ended, cell]
      rfl
    · rw [cell]
      exact (S.cell s).idled_looks looks
  casWeak {f} taken e d o s fit := by
    obtain ⟨k, o', f', runs⟩ := casWeak taken e d o
    obtain ⟨s', ended, fit', cell⟩ := runs s fit (Cell.compareExchange_eq k e d o' f' (S.cell s))
    refine ⟨[.cas k e d o' f' ((S.cell s).stores k e)], (S.cell s).stores k e, s', ?_, fit', ?_⟩
    · rw [ended, Cell.met_cas]
      rfl
    · rw [cell]
      exact (S.cell s).attempted_compareExchange S.single k e d o' f'

namespace Recorder

variable {single : Prop}

theorem contended : (machine : FetchAdd (Cell (BitVec w)) _).toMinimal.Contended
    (.plain .every single) id fun _ v => v :=
  Minimal.contended_of_primitives (fun _ => trivial) (fun {o} _ => ⟨o, Site.plain_runs _⟩)
    (fun {f} _ _ _ s => ⟨.weak, s, f, Site.plain_runs _⟩) fun _ => rfl

theorem prompt : (machine : FetchAdd (Cell (BitVec w)) _).Prompt
    (.plain .every single : Site _ (BitVec w)) where
  load _ := (Cell.single_read _).prompt
  store _ v := (Cell.single_write v _).prompt
  casWeak _ e d s := (Cell.single_compareExchange .weak e d s _).prompt
  isLockFree := ((Cell.fences_record rfl).bind fun _ => Cell.fences_pure true).single.prompt
  casStrong _ e d s := (Cell.single_compareExchange .strong e d s _).prompt
  exchange v o := (Cell.single_swap v o).prompt
  update := contended.update
  fetchAdd v _ := (Cell.single_modifyBy rfl (· + v)).prompt

theorem counting_prompt : (counting : Counting (Cell (BitVec w)) _).Acts
    (.prompt _ (.plain .every single : Site _ (BitVec w))) where
  fetchAddVar v _ := (Cell.single_modifyBy rfl (· + v)).prompt
  fetchInc _ := (Cell.single_modifyBy rfl (· + 1)).prompt
  fetchDec _ := (Cell.single_modifyBy rfl (· - 1)).prompt

end Recorder

/-! ### Machines over a hardware word -/

namespace Native.Allows

variable {n : Native (Cell (BitVec w)) (BitVec w)} {takes : Admission} (h : n.Allows takes)
include h

theorem single_load {o : MemoryOrder} (taken : takes .load o) :
    Cell.Single (n.load o.toHardware) := by
  rw [h.load taken]
  exact Cell.single_read _

theorem single_store {o : MemoryOrder} (taken : takes .store o) (v : BitVec w) :
    Cell.Single (n.store v o.toHardware) := by
  rw [h.store taken]
  exact Cell.single_write v _

theorem single_swap (v : BitVec w) (o : HardwareOrder) : Cell.Single (n.swap v o) := by
  rw [h.swap]
  exact Cell.single_swap v _

theorem single_compareExchange {f : MemoryOrder} (taken : takes .failure f) (k : Strength)
    (e d : BitVec w) (s : HardwareOrder) :
    Cell.Single (n.compareExchange k e d s f.toHardware) := by
  rw [h.compareExchange taken]
  exact Cell.single_compareExchange k e d _ _

theorem single_fetchAdd (v : BitVec w) (o : HardwareOrder) : Cell.Single (n.fetchAdd v o) := by
  rw [h.fetchAdd]
  exact Cell.single_modifyBy rfl (· + v)

end Native.Allows

section Hardware

variable {n : Native (Cell (BitVec w)) (BitVec w)} {takes : Admission} {single : Prop}

theorem Native.Allows.contended (h : n.Allows takes) {ops : Minimal (Cell (BitVec w)) (BitVec w)}
    {k : Strength} (load : ∀ o, ops.load o = n.load o.toHardware)
    (casWeak : ∀ e d s f, ops.casWeak e d s f = n.compareExchange k e d s.toHardware f.toHardware)
    (patience : ops.patience = n.patience) :
    ops.Contended (.plain takes single) id fun _ v => v := by
  refine Minimal.contended_of_primitives h.legal (fun {o} taken => ⟨o.toHardware.toMemory, ?_⟩)
    (fun {f} taken e d s => ⟨k, s.toHardware.toMemory, f.toHardware.toMemory, ?_⟩) fun c => ?_
  · rw [load, h.load taken]
    exact Site.plain_runs _
  · rw [casWeak, h.compareExchange taken]
    exact Site.plain_runs _
  · rw [patience, h.patience]
    rfl

theorem TotalStore.contended (h : n.Allows takes) :
    (machine n).toMinimal.Contended (.plain takes single) id fun _ v => v :=
  h.contended (fun _ => rfl) (fun _ _ _ _ => rfl) rfl

theorem DoubleSwap.contended (h : n.Allows takes) (lockFree : Bool) :
    (machine n lockFree).toMinimal.Contended (.plain takes single) id fun _ v => v :=
  h.contended (fun _ => rfl) (fun _ _ _ _ => rfl) rfl

theorem TotalStore.prompt (h : n.Allows takes) :
    (machine n).Prompt (.plain takes single : Site _ (BitVec w)) where
  load taken := (h.single_load taken).prompt
  store {o} taken v := by
    have single : Cell.Single (store n v o) := by
      by_cases ho : o = .seqCst
      · subst ho
        exact (h.single_swap v .seqCst).after fun _ => Cell.fences_pure ()
      · rw [store_eq n v ho]
        exact h.single_store taken v
    exact single.prompt
  casWeak taken e d _ := (h.single_compareExchange taken .strong e d _).prompt
  isLockFree := Site.prompt_pure true
  casStrong taken e d _ := (h.single_compareExchange taken .strong e d _).prompt
  exchange v _ := (h.single_swap v _).prompt
  update := (contended h).update
  fetchAdd v _ := (h.single_fetchAdd v _).prompt

theorem DoubleSwap.prompt (h : n.Allows takes) (lockFree : Bool) :
    (machine n lockFree).Prompt (.plain takes single : Site _ (BitVec w)) where
  load taken := (h.single_load taken).prompt
  store taken v := (h.single_store taken v).prompt
  casWeak taken e d _ := (h.single_compareExchange taken .weak e d _).prompt
  isLockFree := Site.prompt_pure lockFree
  casStrong taken e d _ := (h.single_compareExchange taken .strong e d _).prompt
  exchange v _ := (h.single_swap v _).prompt

/-! A load of the fully fenced machine makes attempts itself. -/

namespace FencedSwap

variable (h : n.Allows takes)
include h

theorem prompt_settle (f : BitVec w → BitVec w) :
    (Site.plain .every single : Site _ (BitVec w)).Prompt (settle n f) := by
  intro c _
  obtain ⟨events, c', ended, went, -, -, bound⟩ := settle_ends h f c
  exact ⟨_, c', events, ended, trivial, went, fun _ => bound⟩

theorem prompt : (machine n).Prompt (.plain .every single : Site _ (BitVec w)) := by
  have swap (e d : BitVec w) : Cell.Single (cas n e d) := fun c =>
    ⟨_, _, _, cas_eq h e d c, (c.attempted_compareExchange True .strong e d .seqCst .seqCst).went,
      Nat.le_refl 1⟩
  exact {
    load := fun _ => prompt_settle h id
    store := fun _ v => (prompt_settle h fun _ => v).map fun _ => ()
    casWeak := fun _ e d _ => (swap e d).prompt
    isLockFree := Site.prompt_pure true
    casStrong := fun _ e d _ => (swap e d).prompt
    exchange := fun v _ => prompt_settle h fun _ => v }

theorem contended (several : ¬single) :
    (machine n).toMinimal.Contended (.plain .every single) id fun _ v => v where
  legal _ := trivial
  view_put _ _ := rfl
  load _ c _ := by
    obtain ⟨events, c', ended, went, settled, value, -⟩ := settle_ends h id c
    refine ⟨events, c', ended.trans ?_, trivial, ⟨went, settled.idle, value⟩,
      fun only => absurd only several⟩
    exact congrArg (EStateM.Result.ok · c') value.symm
  casWeak _ e d _ c _ := by
    refine ⟨[fenced e d (c.stores .strong e)], c.stores .strong e, _, (cas_eq h e d c).trans ?_,
      trivial, c.attempted_compareExchange single .strong e d .seqCst .seqCst⟩
    have met := c.met_cas .strong e d .seqCst .seqCst (c.stores .strong e)
    by_cases stored : c.stores .strong e
    · rw [if_pos stored, (c.stores_strong e).mp stored, stored]
      rfl
    · rw [if_neg stored, ← met, Bool.eq_false_iff.mpr stored]
      rfl
  patience c := congrFun h.patience c

end FencedSwap

/-! ### Load-linked and store-conditional -/

/-- Barriers that do nothing but issue fences. -/
structure Barriers.Fences {V : Type} (b : Barriers (Cell V)) : Prop where
  before : ∀ o, Cell.Fences (b.before o)
  after : ∀ o, Cell.Fences (b.after o)

namespace FenceTable

variable {V : Type}

theorem fences_issue (fence : Option MemoryOrder) :
    Cell.Fences (issue fence : Access (Cell V) Unit) := by
  cases fence with
  | none => exact Cell.fences_pure ()
  | some o => exact Cell.fences_record rfl

theorem fences_barriers (t : FenceTable) : (t.barriers : Barriers (Cell V)).Fences where
  before o := fences_issue (t.before o)
  after o := fences_issue (t.after o)

end FenceTable

namespace LoadLinked

variable {b : Barriers (Cell (BitVec w))} (hn : n.Allows takes) (hb : b.Fences)
include hn hb

theorem single_fetchAdd (v : BitVec w) (o : MemoryOrder) : Cell.Single (fetchAdd n b v o) :=
  (hb.before o).before fun _ => (hn.single_fetchAdd v .relaxed).after fun previous =>
    (hb.after o).bind fun _ => Cell.fences_pure previous

theorem counting_prompt :
    (counting n b).Acts (.prompt _ (.plain .every single : Site _ (BitVec w))) where
  fetchAddVar v o := (single_fetchAdd hn hb v o).prompt
  fetchInc o := (single_fetchAdd hn hb 1 o).prompt
  fetchDec o := (single_fetchAdd hn hb (-1) o).prompt

omit hn hb in
/-- The full fence of a sequentially consistent access. -/
theorem fences_full (o : MemoryOrder) :
    Cell.Fences (if o = .seqCst then Cell.record (.fence .seqCst) else pure () :
      Access (Cell (BitVec w)) Unit) := by
  split
  · exact Cell.fences_record rfl
  · exact Cell.fences_pure ()

/-- A load looks at the value between fences. -/
theorem load_looks (o : MemoryOrder) (c : Cell (BitVec w)) : ∃ looks,
    load n b o c = .ok c.value { c with trace := c.trace ++ looks } ∧
      ∀ e ∈ looks, e.looks = true := by
  have body (c : Cell (BitVec w)) : ∃ looks, (do
      let v ← n.load .relaxed
      b.after o
      return v : Access (Cell (BitVec w)) (BitVec w)) c =
        .ok c.value { c with trace := c.trace ++ (.load .relaxed :: looks) } ∧
      ∀ e ∈ looks, e.looks = true := by
    have loaded : n.load .relaxed c = .ok c.value { c with trace := c.trace ++ [.load .relaxed] } :=
      hn.load_eq (o := .relaxed) (hn.legal rfl) c
    obtain ⟨⟨⟩, looks, after, fences⟩ := hb.after o { c with trace := c.trace ++ [.load .relaxed] }
    refine ⟨looks, ?_, fences⟩
    rw [List.append_cons]
    exact (Access.bind_ok loaded).trans (Access.bind_ok after)
  unfold load
  split
  · obtain ⟨looks, ended, fences⟩ := body { c with trace := c.trace ++ [.fence .seqCst] }
    refine ⟨.fence .seqCst :: .load .relaxed :: looks, ?_, by simpa [Event.looks] using fences⟩
    rw [List.append_cons]
    exact (Access.bind_ok (Cell.record_eq _ c)).trans ended
  · obtain ⟨looks, ended, fences⟩ := body c
    exact ⟨.load .relaxed :: looks, ended, by simpa [Event.looks] using fences⟩

theorem contended : (machine n b).Contended (.plain .every single) id fun _ v => v where
  legal _ := trivial
  view_put _ _ := rfl
  load {o} _ c _ := by
    obtain ⟨looks, ended, fences⟩ := load_looks hn hb o c
    exact ⟨looks, { c with trace := c.trace ++ looks }, ended, trivial, c.idled_looks fences,
      fun _ => Cell.attempts_of_looks fences⟩
  casWeak {f} _ e d s c _ := by
    obtain ⟨⟨⟩, looks, before, fences⟩ := hb.before s c
    let c₁ : Cell (BitVec w) := { c with trace := c.trace ++ looks }
    let stored := c₁.stores .weak e
    let c₂ : Cell (BitVec w) := ⟨if stored then d else c₁.found, c₁.script.tail,
      c₁.trace ++ [.cas .weak e d .relaxed .relaxed stored]⟩
    have swapped : n.compareExchange .weak e d .relaxed .relaxed c₁ =
        .ok (if stored then ⟨true, e⟩ else ⟨false, c₁.found⟩) c₂ :=
      hn.compareExchange_eq (f := .relaxed) (hn.legal rfl) .weak e d .relaxed c₁
    obtain ⟨⟨⟩, later, after, fences'⟩ := hb.after (if stored then s else f) c₂
    have idled : c.Idled looks c₁ := c.idled_looks fences
    have attempted : c₁.Attempted single id (fun _ v => v) e d
        [.cas .weak e d .relaxed .relaxed stored] stored c₂ :=
      c₁.attempted_compareExchange single .weak e d .relaxed .relaxed
    have met : c.met (looks ++ ([.cas .weak e d .relaxed .relaxed stored] ++ later)) = c₁.found := by
      rw [Cell.met_append idled.went idled.value, c₁.met_fences _ fences', Cell.met_cas]
    have ended : casWeak n b e d s f c = .ok (if stored then ⟨true, e⟩ else ⟨false, c₁.found⟩)
        { c₂ with trace := c₂.trace ++ later } := by
      refine (Access.bind_ok before).trans ((Access.bind_ok swapped).trans ?_)
      cases hs : stored <;> rw [hs] at after <;> exact Access.bind_ok after
    rw [← met] at ended
    exact ⟨_, stored, _, ended, trivial, (attempted.before_fences fences').after_idled idled fun _ =>
      Cell.attempts_of_looks fences⟩
  patience c := congrFun hn.patience c

theorem prompt : (machine n b).Prompt (.plain .every single : Site _ (BitVec w)) where
  load _ := (contended hn hb).prompt_load trivial
  store {o} _ v := (Cell.Fences.before (hb.before o) fun _ =>
    (hn.single_store (o := .relaxed) (hn.legal rfl) v).after fun _ => fences_full o).prompt
  casWeak _ := (contended hn hb).prompt_casWeak trivial
  isLockFree := Site.prompt_pure true

end LoadLinked

end Hardware

end Machines

/-! ### Locks -/

namespace Guarded

variable {α β : Type}

/-- The cell behind locks that can be had. -/
def site (single : Prop) : Site (Guarded α) α := ⟨cell, fun g => g.locks.Unheld, .every, single⟩

theorem runs_critical {single : Prop} (a : Address) (o : MemoryOrder) (body : Access (Cell α) β) :
    (site single).Runs (critical a o body) body := by
  intro g unheld r c ended
  obtain ⟨locks, entered, unheld'⟩ := unheld.enter caller a o
  have ended : body g.cell = .ok r c := ended
  refine ⟨⟨c, locks.leave a o⟩, ?_, unheld', rfl⟩
  simp only [critical, entered, ended]

end Guarded

namespace Locked

variable {w : Nat} {single : Prop} {a : Address}

theorem contended : (wordMachine a : FetchAdd (Guarded (BitVec w)) _).toMinimal.Contended
    (Guarded.site single) id fun _ v => v :=
  Minimal.contended_of_primitives (fun _ => trivial) (fun {o} _ => ⟨o, Guarded.runs_critical a o _⟩)
    (fun {f} _ _ _ s => ⟨.strong, s, f, Guarded.runs_critical a s _⟩) fun _ => rfl

theorem prompt : (wordMachine a : FetchAdd (Guarded (BitVec w)) _).Prompt
    (Guarded.site single : Site _ (BitVec w)) where
  load {o} _ := (Guarded.runs_critical a o _).prompt (Cell.single_read o)
  store {o} _ v := (Guarded.runs_critical a o _).prompt (Cell.single_write v o)
  casWeak _ e d s :=
    (Guarded.runs_critical a s _).prompt (Cell.single_compareExchange .strong e d s _)
  isLockFree := Site.prompt_pure false
  casStrong _ e d s :=
    (Guarded.runs_critical a s _).prompt (Cell.single_compareExchange .strong e d s _)
  exchange v o := (Guarded.runs_critical a o _).prompt (Cell.single_swap v o)
  update := contended.update
  fetchAdd v o := (Guarded.runs_critical a o _).prompt (Cell.single_modifyBy rfl (· + v))

end Locked

/-! ### Small words -/

/-- Where a retry loop is what stores, a store takes every order. -/
def Admission.looping (takes : Admission) : Admission
  | .store, _ => True
  | a, o => takes a o

/-- The same place, with retry loops for stores. -/
def Site.looping {σ V : Type} (S : Site σ V) : Site σ V := { S with takes := S.takes.looping }

namespace SubWord

variable {σ V : Type} {n m shift : Nat} {S : Site σ V} {view : V → BitVec n} {put : V → BitVec n → V}
  {base : Minimal σ (BitVec n)}

/-- The attempt at a small word is one at the whole word around it, which the bits next to it can keep
from storing only if others write between the load and the attempt. -/
theorem attempted (fits : shift + m ≤ n) {c c₁ c' : Cell V} {looks events : List (Event V)}
    {stored : Bool} {e d : BitVec m} (idled : c.Idled looks c₁)
    (none : S.single → Cell.attempts looks = 0)
    (whole : c₁.Attempted S.single view put (insert shift (view c₁.value) e)
      (insert shift (view c₁.value) d) events stored c') :
    c.Attempted S.single (fun x => extract m shift (view x))
      (fun x v => put x (insert shift (view x) v)) e d (looks ++ events) stored c' := by
  refine Cell.Attempted.after_idled ⟨whole.went, whole.decided, ?value, ?expected, ?sure, whole.once⟩
    idled none
  case value =>
    rw [whole.value]
    cases stored with
    | false => rfl
    | true =>
      simp only [if_true]
      rw [whole.expected rfl, insert_insert]
  case expected =>
    intro hs
    rw [whole.expected hs, extract_insert fits]
  case sure =>
    intro failed same
    by_cases around : view (c₁.met events) = insert shift (view c₁.value) e
    · exact whole.sure failed around
    · refine Nat.pos_of_ne_zero fun undisturbed => around ?_
      rw [Cell.met_of_undisturbed undisturbed] at same ⊢
      rwa [eq_insert_iff fits]

variable (h : base.Contended S view put)
include h

theorem contended (fits : shift + m ≤ n) : (machine base m shift).Contended S.looping
    (fun x => extract m shift (view x)) fun x v => put x (insert shift (view x) v) where
  legal {a o} legal := by
    cases a with
    | store => trivial
    | load => exact h.legal (a := .load) legal
    | failure => exact h.legal (a := .failure) legal
  view_put x v := by rw [h.view_put, extract_insert fits]
  load {o} taken s fit := by
    obtain ⟨events, s', ended, fit', idled, none⟩ := h.load (o := o) taken s fit
    exact ⟨events, s', Access.bind_ok ended, fit', idled, none⟩
  casWeak {f} taken e d o s fit := by
    obtain ⟨looks, s₁, loaded, fit₁, idled, none⟩ := h.load (o := .relaxed) (h.legal rfl) s fit
    obtain ⟨events, stored, s', ended, fit', whole⟩ := h.casWeak (f := f) taken
      (insert shift (view (S.cell s₁).value) e) (insert shift (view (S.cell s₁).value) d) o s₁ fit₁
    refine ⟨looks ++ events, stored, s', ?_, fit', attempted fits idled none whole⟩
    refine (Access.bind_ok loaded).trans ((Access.bind_ok ended).trans ?_)
    rw [← Cell.met_append idled.went idled.value]
    cases stored <;> rfl
  patience := h.patience

theorem prompt (prompt : base.Prompt S) (fits : shift + m ≤ n) :
    (machine base m shift).Prompt S.looping where
  load taken := (contended h fits).prompt_load taken
  store {o} _ v := (h.update (insert shift · v) o).map fun _ => ()
  casWeak taken := (contended h fits).prompt_casWeak taken
  isLockFree := prompt.isLockFree

end SubWord

end OrderedAtomics
