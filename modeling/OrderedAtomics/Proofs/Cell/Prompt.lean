import OrderedAtomics.Cell.Call
import OrderedAtomics.Proofs.Cell.Acting
import OrderedAtomics.Proofs.Cell.Contention

/-! Calls that end in the way of others. What is one primitive makes one attempt at most, what is a retry
loop makes one attempt more than are interfered with, and no level of operations adds to that. -/

namespace OrderedAtomics

/-! ### Accesses -/

section Accesses

variable {σ V β γ : Type} {S : Site σ V}

/-- In any state of the cell the access ends, and makes at most one attempt. -/
def Cell.Single (a : Access (Cell V) β) : Prop :=
  ∀ c, ∃ r c' events, a c = .ok r c' ∧ c.Went events c' ∧ Cell.attempts events ≤ 1

/-- In any state of the cell the access ends and does nothing but look and issue fences. -/
def Cell.Fences (a : Access (Cell V) β) : Prop :=
  ∀ c, ∃ r looks, a c = .ok r { c with trace := c.trace ++ looks } ∧ ∀ e ∈ looks, e.looks = true

/-- Where it can be used, the access does to the cell what `body` does. -/
def Site.Runs (S : Site σ V) (a : Access σ β) (body : Access (Cell V) β) : Prop :=
  ∀ s, S.Fit s → ∀ {r c}, body (S.cell s) = .ok r c →
    ∃ s', a s = .ok r s' ∧ S.Fit s' ∧ S.cell s' = c

theorem Site.Runs.prompt {a : Access σ β} {body : Access (Cell V) β} (h : S.Runs a body)
    (single : Cell.Single body) : S.Prompt a := by
  intro s fit
  obtain ⟨r, c, events, ended, went, one⟩ := single (S.cell s)
  obtain ⟨s', ended', fit', rfl⟩ := h s fit ended
  exact ⟨r, s', events, ended', fit', went, fun _ => Nat.le_trans one (Nat.le_add_left 1 _)⟩

theorem Site.prompt_pure (r : β) : S.Prompt (pure r) := fun s fit =>
  ⟨r, s, [], rfl, fit, (S.cell s).idled_nothing.went, fun _ => Nat.zero_le _⟩

/-- The cell itself. -/
def Site.plain (takes : Admission) (single : Prop) : Site (Cell V) V :=
  ⟨id, fun _ => True, takes, single⟩

theorem Site.plain_runs {takes : Admission} {single : Prop} (a : Access (Cell V) β) :
    (plain takes single).Runs a a := fun _ _ _ _ ended => ⟨_, ended, trivial, rfl⟩

namespace Cell

theorem Single.prompt {takes : Admission} {single : Prop} {a : Access (Cell V) β} (h : Single a) :
    (Site.plain takes single).Prompt a := (Site.plain_runs a).prompt h

theorem fences_pure (r : β) : Fences (pure r : Access (Cell V) β) := by
  refine fun c => ⟨r, [], ?_, nofun⟩
  rw [List.append_nil]
  rfl

theorem fences_record {e : Event V} (looks : e.looks = true) : Fences (record e) :=
  fun c => ⟨(), [e], record_eq e c, fun _ hl => (List.mem_singleton.mp hl) ▸ looks⟩

theorem Fences.bind {a : Access (Cell V) β} {f : β → Access (Cell V) γ} (ha : Fences a)
    (hf : ∀ r, Fences (f r)) : Fences (a >>= f) := by
  intro c
  obtain ⟨r, looks, ended, fences⟩ := ha c
  obtain ⟨r', later, ended', fences'⟩ := hf r { c with trace := c.trace ++ looks }
  refine ⟨r', looks ++ later, (Access.bind_ok ended).trans ?_, ?_⟩
  · rw [← List.append_assoc]
    exact ended'
  · exact fun e he => (List.mem_append.mp he).elim (fences e) (fences' e)

theorem Fences.before {a : Access (Cell V) β} {f : β → Access (Cell V) γ} (ha : Fences a)
    (hf : ∀ r, Single (f r)) : Single (a >>= f) := by
  intro c
  obtain ⟨r, looks, ended, fences⟩ := ha c
  obtain ⟨r', c', events, ended', went, one⟩ := hf r { c with trace := c.trace ++ looks }
  refine ⟨r', c', looks ++ events, (Access.bind_ok ended).trans ended',
    (c.idled_looks fences).went.trans went, ?_⟩
  rwa [attempts_append, attempts_of_looks fences, Nat.zero_add]

theorem Single.after {a : Access (Cell V) β} {f : β → Access (Cell V) γ} (ha : Single a)
    (hf : ∀ r, Fences (f r)) : Single (a >>= f) := by
  intro c
  obtain ⟨r, c', events, ended, went, one⟩ := ha c
  obtain ⟨r', looks, ended', fences⟩ := hf r c'
  refine ⟨r', _, events ++ looks, (Access.bind_ok ended).trans ended',
    went.trans (c'.idled_looks fences).went, ?_⟩
  rwa [attempts_append, attempts_of_looks fences, Nat.add_zero]

theorem Fences.single {a : Access (Cell V) β} (h : Fences a) : Single a := by
  intro c
  obtain ⟨r, looks, ended, fences⟩ := h c
  refine ⟨r, _, looks, ended, (c.idled_looks fences).went, ?_⟩
  rw [attempts_of_looks fences]
  exact Nat.zero_le 1

theorem single_read (o : MemoryOrder) : Single (read o : Access (Cell V) V) :=
  fun c => ⟨_, _, [.load o], read_eq o c, c.went_load o, Nat.zero_le 1⟩

theorem single_write (v : V) (o : MemoryOrder) : Single (write v o) :=
  fun c => ⟨_, _, [.store v o], write_eq v o c, ⟨rfl, rfl⟩, Nat.zero_le 1⟩

theorem single_swap (v : V) (o : MemoryOrder) : Single (swap v o) :=
  fun c => ⟨_, _, [.exchange v o], swap_eq v o c, ⟨rfl, rfl⟩, Nat.zero_le 1⟩

theorem single_modifyBy {e : Event V} (other : e.isAttempt = false) (f : V → V) :
    Single (modifyBy e f) := by
  have none : attempts [e] = 0 := by simp [attempts, other]
  refine fun c => ⟨_, _, [e], modifyBy_eq e f c, ⟨rfl, ?_⟩, ?_⟩
  · rw [none]
    rfl
  · rw [none]
    exact Nat.zero_le 1

theorem single_compareExchange [DecidableEq V] (k : Strength) (e d : V) (s f : MemoryOrder) :
    Single (compareExchange identical k e d s f) :=
  fun c => ⟨_, _, _, compareExchange_eq k e d s f c, ⟨rfl, List.drop_one.symm⟩, Nat.le_refl 1⟩

end Cell

end Accesses

/-! ### Levels -/

section Levels

variable {σ V W : Type} {w : Nat} {S : Site σ V}

/-- To end, in the way of others, after at most one attempt more than they interfere with. -/
def Sense.prompt (W : Type) (S : Site σ V) : Sense σ W where
  Acts _ a _ := S.Prompt a
  map := Site.Prompt.map

/-- Minimal operations that end, with the orders that the cell takes. -/
structure Minimal.Prompt (ops : Minimal σ W) (S : Site σ V) : Prop where
  load : ∀ {o}, S.takes .load o → S.Prompt (ops.load o)
  store : ∀ {o}, S.takes .store o → ∀ v, S.Prompt (ops.store v o)
  casWeak : ∀ {f}, S.takes .failure f → ∀ e d s, S.Prompt (ops.casWeak e d s f)
  isLockFree : S.Prompt ops.isLockFree

structure Exchange.Prompt (ops : Exchange σ W) (S : Site σ V) : Prop extends
    toMinimal : ops.toMinimal.Prompt S where
  casStrong : ∀ {f}, S.takes .failure f → ∀ e d s, S.Prompt (ops.casStrong e d s f)
  exchange : ∀ v o, S.Prompt (ops.exchange v o)

structure FetchAdd.Prompt (ops : FetchAdd σ (BitVec w)) (S : Site σ V) : Prop extends
    toExchange : ops.toExchange.Prompt S where
  update : ∀ f o, S.Prompt (ops.update f o)
  fetchAdd : ∀ v o, S.Prompt (ops.fetchAdd v o)

namespace Minimal.Contended

variable {ops : Minimal σ W} {view : V → W} {put : V → W → V} (h : ops.Contended S view put)
include h

theorem prompt_load {o : MemoryOrder} (taken : S.takes .load o) : S.Prompt (ops.load o) := by
  intro s fit
  obtain ⟨events, s', ended, fit', idled, none⟩ := h.load taken s fit
  refine ⟨_, s', events, ended, fit', idled.went, fun single => ?_⟩
  rw [none single]
  exact Nat.zero_le _

theorem prompt_casWeak {f : MemoryOrder} (taken : S.takes .failure f) (e d : W) (o : MemoryOrder) :
    S.Prompt (ops.casWeak e d o f) := by
  intro s fit
  obtain ⟨events, stored, s', ended, fit', attempted⟩ := h.casWeak taken e d o s fit
  refine ⟨_, s', events, ended, fit', attempted.went, fun single => ?_⟩
  rw [attempted.once single]
  exact Nat.le_add_left 1 _

theorem prompt_casUntilDecided [DecidableEq W] {f : MemoryOrder} (taken : S.takes .failure f)
    (e d : W) (o : MemoryOrder) : S.Prompt (ops.casUntilDecided e d o f) := by
  intro s fit
  obtain ⟨events, stored, s', ended, fit', resolved⟩ := h.casUntilDecided taken e d o s fit
  exact ⟨_, s', events, ended, fit', resolved.went, resolved.bound⟩

theorem withExchange [DecidableEq W] (prompt : ops.Prompt S) : ops.withExchange.Prompt S where
  toMinimal := prompt
  casStrong := h.prompt_casUntilDecided
  exchange v o := (h.update (fun _ => v) o).map Prod.fst

end Minimal.Contended

variable {view : V → BitVec w} {put : V → BitVec w → V}

theorem FetchAdd.Prompt.acts {ops : FetchAdd σ (BitVec w)} (h : ops.Prompt S) :
    ops.Acts (.prompt _ S) where
  update := h.update
  exchange := h.exchange
  fetchAdd := h.fetchAdd

theorem Exchange.Prompt.withFetchAdd {ops : Exchange σ (BitVec w)} (h : ops.Prompt S)
    (contended : ops.toMinimal.Contended S view put) : ops.withFetchAdd.Prompt S where
  toExchange := h
  update := contended.update
  fetchAdd v o := (contended.update (· + v) o).map Prod.fst

theorem Exchange.Prompt.withCounting {ops : Exchange σ (BitVec w)} (h : ops.Prompt S)
    (contended : ops.toMinimal.Contended S view put) {counting : Counting σ (BitVec w)}
    (hc : counting.Acts (.prompt _ S)) : (ops.withCounting counting).Prompt S where
  toExchange := h
  update := contended.update
  fetchAdd := hc.withCounting ops

end Levels

/-! ### Interfaces -/

section Interfaces

variable {σ V : Type} {w : Nat} {S : Site σ V}

/-- The orders of a call are ones that the cell takes. -/
def Call.Taken {W : Type} (takes : Admission) : Call W → Prop
  | .load o => takes .load o
  | .store _ o => takes .store o
  | .cas _ _ _ _ failure => takes .failure failure
  | .exchange .. | .isLockFree | .modify .. | .increment .. | .decrement .. | .fetchAddVar ..
  | .fetchInc _ | .fetchDec _ => True

/-- Every operation ends, in the way of others, after at most one attempt more than they interfere
with. -/
def Interface.Prompt (S : Site σ V) : Interface σ w → Prop
  | .minimal ops counting => ops.Prompt S ∧ ∀ c ∈ counting, c.Acts (.prompt _ S)
  | .exchange ops counting => ops.Prompt S ∧ ∀ c ∈ counting, c.Acts (.prompt _ S)
  | .fetchAdd ops | .arithmetic ops | .integral ops => ops.Prompt S

namespace Interface.Prompt

variable {i : Interface σ w} (h : i.Prompt S)
include h

theorem minimal : i.minimalOps.Prompt S := by
  cases i with
  | minimal => exact h.1
  | exchange => exact h.1.toMinimal
  | fetchAdd | arithmetic | integral => exact FetchAdd.Prompt.toExchange h |>.toMinimal

theorem exchange {ops : Exchange σ (BitVec w)} (has : i.exchangeOps = some ops) : ops.Prompt S := by
  cases i with
  | minimal => cases has
  | exchange =>
    cases has
    exact h.1
  | fetchAdd | arithmetic | integral =>
    cases has
    exact FetchAdd.Prompt.toExchange h

theorem counting {ops : Counting σ (BitVec w)} (has : i.countingOps = some ops) :
    ops.Acts (.prompt _ S) := by
  cases i with
  | minimal | exchange => exact h.2 ops has
  | fetchAdd | arithmetic | integral => cases has

theorem arithmetic {ops : FetchAdd σ (BitVec w)} (has : i.arithmeticOps = some ops) :
    ops.Prompt S := by
  cases i with
  | minimal | exchange | fetchAdd => cases has
  | arithmetic | integral =>
    cases has
    exact h

theorem updates {u : Update} {y : Yield} {ops : FetchAdd σ (BitVec w)}
    (has : i.updateOps u y = some ops) : ops.Prompt S := by
  cases i with
  | minimal | exchange => cases has
  | fetchAdd | arithmetic =>
    simp only [updateOps, Option.ite_none_right_eq_some, Option.some.injEq] at has
    obtain ⟨-, rfl⟩ := has
    exact h
  | integral =>
    cases has
    exact h

/-- Whatever call is made, it ends. -/
theorem perform {call : Call (BitVec w)} (taken : call.Taken S.takes)
    {access : Access σ (Reply (BitVec w))} (performed : i.perform? call = some access) :
    S.Prompt access := by
  cases call with
  | load o =>
    obtain rfl := Option.some.inj performed
    exact (h.minimal.load taken).map Reply.value
  | store v o =>
    obtain rfl := Option.some.inj performed
    exact (h.minimal.store taken v).map fun _ => Reply.done
  | cas strength e d s f =>
    cases strength with
    | weak =>
      obtain rfl := Option.some.inj performed
      exact (h.minimal.casWeak taken e d s).map Reply.outcome
    | strong =>
      obtain ⟨ops, has, rfl⟩ := Option.map_eq_some_iff.mp performed
      exact ((h.exchange has).casStrong taken e d s).map Reply.outcome
  | exchange v o =>
    obtain ⟨ops, has, rfl⟩ := Option.map_eq_some_iff.mp performed
    exact ((h.exchange has).exchange v o).map Reply.value
  | isLockFree =>
    obtain rfl := Option.some.inj performed
    exact h.minimal.isLockFree.map Reply.truth
  | modify u v y o =>
    obtain ⟨ops, has, rfl⟩ := Option.map_eq_some_iff.mp performed
    exact Site.Prompt.map ((h.updates has).acts.modify u v y o) Reply.value
  | increment y o =>
    obtain ⟨ops, has, rfl⟩ := Option.map_eq_some_iff.mp performed
    exact Site.Prompt.map ((h.arithmetic has).acts.modify .add 1 y o) Reply.value
  | decrement y o =>
    obtain ⟨ops, has, rfl⟩ := Option.map_eq_some_iff.mp performed
    exact Site.Prompt.map ((h.arithmetic has).acts.modify .sub 1 y o) Reply.value
  | fetchAddVar v o =>
    obtain ⟨ops, has, rfl⟩ := Option.map_eq_some_iff.mp performed
    exact Site.Prompt.map ((h.counting has).fetchAddVar v o) Reply.value
  | fetchInc o =>
    obtain ⟨ops, has, rfl⟩ := Option.map_eq_some_iff.mp performed
    exact Site.Prompt.map ((h.counting has).fetchInc o) Reply.value
  | fetchDec o =>
    obtain ⟨ops, has, rfl⟩ := Option.map_eq_some_iff.mp performed
    exact Site.Prompt.map ((h.counting has).fetchDec o) Reply.value

end Interface.Prompt

end Interfaces

end OrderedAtomics
