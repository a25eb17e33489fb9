import OrderedAtomics.Cell.Locked
import OrderedAtomics.Cell.Native
import OrderedAtomics.Proofs.Cell.Primitive
import OrderedAtomics.Proofs.Cell.Variable

/-! Cells that nobody else touches. Their primitives act as on a plain variable, with the orders
that hardware knows, and so do the machines that are built on them. -/

namespace OrderedAtomics

open Access (Gives)

/-! ### Primitives -/

namespace Cell

variable {α : Type}

/-- The cell has the value, and nothing is going to happen to it. -/
def Quiet (c : Cell α) (x : α) : Prop := c.value = x ∧ c.script = []

theorem gives_record (e : Event α) (x : α) : Gives Quiet (record e) x () x :=
  fun c h => ⟨_, record_eq e c, h⟩

theorem gives_read (o : MemoryOrder) (x : α) : Gives Quiet (read o) x x x := by
  rintro c ⟨rfl, h⟩
  exact ⟨_, read_eq o c, rfl, h⟩

theorem gives_write (v : α) (o : MemoryOrder) (x : α) : Gives Quiet (write v o) x () v :=
  fun c h => ⟨_, write_eq v o c, rfl, h.2⟩

theorem gives_swap (v : α) (o : MemoryOrder) (x : α) : Gives Quiet (swap v o) x x v := by
  rintro c ⟨rfl, h⟩
  exact ⟨_, swap_eq v o c, rfl, h⟩

theorem gives_modifyBy (e : Event α) (f : α → α) (x : α) :
    Gives Quiet (modifyBy e f) x x (f x) := by
  rintro c ⟨rfl, h⟩
  exact ⟨_, modifyBy_eq e f c, rfl, h⟩

theorem gives_compareExchange [DecidableEq α] (k : Strength) (e d : α) (s f : MemoryOrder)
    (x : α) :
    Gives Quiet (compareExchange identical k e d s f) x (.of x e) (swapped x e d) := by
  rintro c ⟨rfl, h⟩
  have hs : c.stores k e = decide (c.value = e) := by
    simp [stores, found_nil h, spurious_nil h]
  have e₁ := compareExchange_eq k e d s f c
  rw [hs, found_nil h, h] at e₁
  by_cases hx : c.value = e
  · rw [CasOutcome.of, swapped, if_pos hx, if_pos hx]
    rw [decide_eq_true hx] at e₁
    exact ⟨_, e₁, rfl, rfl⟩
  · rw [CasOutcome.of, swapped, if_neg hx, if_neg hx]
    rw [decide_eq_false hx] at e₁
    exact ⟨_, e₁, rfl, rfl⟩

end Cell

/-! ### Hardware words -/

/-- The primitives of a hardware word act as on a variable, with the orders that hardware knows. -/
structure Native.Plain {σ : Type} {w : Nat} (n : Native σ (BitVec w)) (rest : σ → BitVec w → Prop) :
    Prop where
  load : ∀ {o : MemoryOrder}, o.legalForLoad → ∀ x, Gives rest (n.load o.toHardware) x x x
  store : ∀ {o : MemoryOrder}, o.legalForStore → ∀ v x, Gives rest (n.store v o.toHardware) x () v
  swap : ∀ v o x, Gives rest (n.swap v o) x x v
  compareExchange : ∀ {f : MemoryOrder}, f.legalForLoad → ∀ k e d s x,
    Gives rest (n.compareExchange k e d s f.toHardware) x (.of x e) (swapped x e d)
  fetchAdd : ∀ v o x, Gives rest (n.fetchAdd v o) x x (x + v)
  patience : ∀ {s x}, rest s x → 0 < n.patience s

namespace Native

variable {w : Nat}

theorem plain_lenient : (lenient : Native (Cell (BitVec w)) (BitVec w)).Plain Cell.Quiet where
  load _ x := Cell.gives_read _ x
  store _ v x := Cell.gives_write v _ x
  swap v _ x := Cell.gives_swap v _ x
  compareExchange _ k e d _ x := Cell.gives_compareExchange k e d _ _ x
  fetchAdd v o x := Cell.gives_modifyBy (.fetchAdd v o.toMemory) (· + v) x
  patience _ := Nat.succ_pos _

/-! A legal order passes the check of the hardware. -/

variable {σ : Type} {o : MemoryOrder}

theorem checkLoad_eq (legal : o.legalForLoad) : (checkLoad o.toHardware : Access σ Unit) = pure () := by
  cases o <;> first | rfl | cases legal

theorem checkStore_eq (legal : o.legalForStore) :
    (checkStore o.toHardware : Access σ Unit) = pure () := by
  cases o <;> first | rfl | cases legal

theorem checkFailure_eq (legal : o.legalForLoad) :
    (checkFailure o.toHardware : Access σ Unit) = pure () := by
  cases o <;> first | rfl | cases legal

theorem plain_strict : (strict : Native (Cell (BitVec w)) (BitVec w)).Plain Cell.Quiet where
  load {o} legal x := by
    show Gives _ (checkLoad o.toHardware >>= fun _ => lenient.load o.toHardware) _ _ _
    rw [checkLoad_eq legal]
    exact plain_lenient.load legal x
  store {o} legal v x := by
    show Gives _ (checkStore o.toHardware >>= fun _ => lenient.store v o.toHardware) _ _ _
    rw [checkStore_eq legal]
    exact plain_lenient.store legal v x
  swap := plain_lenient.swap
  compareExchange {f} legal k e d s x := by
    show Gives _ (checkFailure f.toHardware >>= fun _ =>
      lenient.compareExchange k e d s f.toHardware) _ _ _
    rw [checkFailure_eq legal]
    exact plain_lenient.compareExchange legal k e d s x
  fetchAdd := plain_lenient.fetchAdd
  patience := plain_lenient.patience

end Native

/-! ### Machines -/

section Machines

variable {σ : Type} {w : Nat} {rest : σ → BitVec w → Prop} {n : Native σ (BitVec w)}

/-- All stores but sequentially consistent ones are those of the hardware. -/
theorem TotalStore.store_eq (n : Native σ (BitVec w)) (v : BitVec w) {o : MemoryOrder}
    (other : o ≠ .seqCst) : store n v o = n.store v o.toHardware := by
  cases o <;> first | rfl | exact absurd rfl other

theorem TotalStore.plain_machine (h : n.Plain rest) : (TotalStore.machine n).Plain rest where
  load := h.load
  store {o} legal v x := by
    by_cases ho : o = .seqCst
    · subst ho
      exact (h.swap v .seqCst x).bind (.pure v ())
    · show Gives rest (TotalStore.store n v o) x () v
      rw [store_eq n v ho]
      exact h.store legal v x
  casWeak legal e d s x := h.compareExchange legal .strong e d s.toHardware x
  patience := h.patience
  casStrong legal e d s x := h.compareExchange legal .strong e d s.toHardware x
  exchange v o x := h.swap v o.toHardware x
  fetchAdd v o x := h.fetchAdd v o.toHardware x

theorem DoubleSwap.plain_machine (h : n.Plain rest) (lockFree : Bool) :
    (DoubleSwap.machine n lockFree).Plain rest where
  load := h.load
  store legal v x := h.store legal v x
  casWeak legal e d s x := h.compareExchange legal .weak e d s.toHardware x
  patience := h.patience
  casStrong legal e d s x := h.compareExchange legal .strong e d s.toHardware x
  exchange v o x := h.swap v o.toHardware x

namespace FencedSwap

theorem gives_fencedCas (h : n.Plain rest) (e d x : BitVec w) :
    Gives rest (fencedCas n e d) x x (swapped x e d) := by
  have := (h.compareExchange (f := .seqCst) rfl .strong e d .seqCst x).map CasOutcome.expected
  have found : (CasOutcome.of x e).expected = x := by
    by_cases hx : x = e <;> simp [CasOutcome.of, hx]
  rwa [found] at this

theorem gives_settle (h : n.Plain rest) (f : BitVec w → BitVec w) (x : BitVec w) :
    Gives rest (settle n f) x x (f x) := by
  have attempt := (gives_fencedCas h x (f x) x).map
    fun found => if found = x then (.inr found : BitVec w ⊕ BitVec w) else .inl found
  rw [swapped, if_pos rfl, if_pos rfl] at attempt
  refine (h.load (o := .relaxed) rfl x).bind (.get_bind fun s hs => ?_)
  exact gives_retry (h.patience hs) attempt

theorem gives_cas (h : n.Plain rest) (e d x : BitVec w) :
    Gives rest (cas n e d) x (.of x e) (swapped x e d) := by
  have := (gives_fencedCas h e d x).map fun found => (⟨decide (found = e), found⟩ : CasOutcome _)
  have report : (⟨decide (x = e), x⟩ : CasOutcome (BitVec w)) = .of x e := by
    by_cases hx : x = e <;> simp [CasOutcome.of, hx]
  rwa [report] at this

theorem plain_machine (h : n.Plain rest) : (FencedSwap.machine n).Plain rest where
  load _ x := gives_settle h id x
  store _ v x := (gives_settle h (fun _ => v) x).bind (.pure v ())
  casWeak _ e d _ x := gives_cas h e d x
  patience := h.patience
  casStrong _ e d _ x := gives_cas h e d x
  exchange v _ x := gives_settle h (fun _ => v) x

end FencedSwap

end Machines

/-! ### Load-linked and store-conditional -/

section Fences

variable {α : Type}

/-- Barriers that leave the value alone. -/
structure Barriers.Plain (b : Barriers (Cell α)) : Prop where
  before : ∀ o x, Gives Cell.Quiet (b.before o) x () x
  after : ∀ o x, Gives Cell.Quiet (b.after o) x () x

theorem FenceTable.gives_issue (fence : Option MemoryOrder) (x : α) :
    Gives Cell.Quiet (issue fence) x () x := by
  cases fence with
  | none => exact .pure x ()
  | some o => exact Cell.gives_record _ x

theorem FenceTable.plain_barriers (t : FenceTable) : (t.barriers : Barriers (Cell α)).Plain where
  before o x := gives_issue (t.before o) x
  after o x := gives_issue (t.after o) x

end Fences

namespace LoadLinked

variable {w : Nat} {n : Native (Cell (BitVec w)) (BitVec w)} {b : Barriers (Cell (BitVec w))}
  (hn : n.Plain Cell.Quiet) (hb : b.Plain)
include hn hb

theorem gives_fetchAdd (v : BitVec w) (o : MemoryOrder) (x : BitVec w) :
    Gives Cell.Quiet (fetchAdd n b v o) x x (x + v) :=
  (hb.before o x).bind ((hn.fetchAdd v .relaxed x).bind ((hb.after o (x + v)).map fun _ => x))

theorem plain_machine : (machine n b).Plain Cell.Quiet where
  load {o} _ x := by
    have body : Gives Cell.Quiet (do
        let v ← n.load .relaxed
        b.after o
        return v : Access (Cell (BitVec w)) (BitVec w)) x x x :=
      (hn.load (o := .relaxed) rfl x).bind ((hb.after o x).map fun _ => x)
    show Gives _ (load n b o) _ _ _
    unfold load
    split
    · exact (Cell.gives_record _ x).bind body
    · exact body
  store {o} _ v x := by
    show Gives _ (store n b v o) _ _ _
    unfold store
    refine (hb.before o x).bind ((hn.store (o := .relaxed) rfl v x).bind ?_)
    split
    · exact Cell.gives_record _ v
    · exact .pure v ()
  casWeak {f} _ e d s x :=
    (hb.before s x).bind ((hn.compareExchange (f := .relaxed) rfl .weak e d .relaxed x).bind
      ((hb.after _ _).map fun _ => CasOutcome.of x e))
  patience := hn.patience

theorem plain_counting : (counting n b).Acts (.plain Cell.Quiet) where
  fetchAddVar := gives_fetchAdd hn hb
  fetchInc := gives_fetchAdd hn hb 1
  fetchDec o x := by
    show Gives Cell.Quiet (fetchAdd n b (-1) o) x x (x - 1)
    rw [BitVec.sub_eq_add_neg]
    exact gives_fetchAdd hn hb (-1) o x

end LoadLinked

/-! ### Locks -/

/-- Nobody holds a lock. -/
structure LockTable.Unheld (t : LockTable) : Prop where
  everywhere : t.everywhere.holder = none
  slots : ∀ l ∈ t.slots, l.holder = none

namespace LockTable

theorem unheld_free : free.Unheld where
  everywhere := rfl
  slots l hl := by
    rw [Vector.eq_of_mem_replicate hl]

theorem acquire_unheld {l : Lock} (h : l.holder = none) (thread : Nat) :
    l.acquire thread = some { l with holder := some thread } := by
  unfold Lock.acquire
  rw [h]

/-- An operation that takes its locks and gives them back leaves none of them held. -/
theorem Unheld.enter {t : LockTable} (h : t.Unheld) (thread : Nat) (a : Address)
    (o : MemoryOrder) : ∃ t', t.enter thread a o = some t' ∧ (t'.leave a o).Unheld := by
  let i := lockIndex a
  let taken : Lock := { t.slots[i] with holder := some thread }
  have slot : t.slots[i].acquire thread = some taken :=
    acquire_unheld (h.slots _ (Vector.getElem_mem i.isLt)) thread
  have released : ∀ l ∈ (t.slots.set i taken).set i (t.slots.set i taken)[i].release,
      l.holder = none := by
    intro l hl
    rw [Vector.set_set] at hl
    rcases Vector.mem_or_eq_of_mem_set hl with hl | rfl
    · exact h.slots l hl
    · rfl
  by_cases ho : o = .seqCst
  · subst ho
    have global := acquire_unheld h.everywhere thread
    refine ⟨⟨{ t.everywhere with holder := some thread }, t.slots.set i taken⟩, ?_, rfl, released⟩
    simp only [LockTable.enter, if_true, acquireGlobal, global, Option.map_some, acquireSlot,
      Option.bind_eq_bind, Option.bind_some]
    exact congrArg (Option.map _) slot
  · refine ⟨⟨t.everywhere, t.slots.set i taken⟩, ?_, ?_⟩
    · simp only [LockTable.enter, if_neg ho, acquireSlot, Option.bind_eq_bind, Option.bind_some]
      exact congrArg (Option.map _) slot
    · simp only [leave, releaseSlot, if_neg ho]
      exact ⟨h.everywhere, released⟩

end LockTable

namespace Guarded

variable {α β : Type}

/-- The cell has the value, nothing is going to happen to it, and its locks can be had. -/
def Quiet (g : Guarded α) (x : α) : Prop := g.cell.Quiet x ∧ g.locks.Unheld

theorem gives_critical {body : Access (Cell α) β} {x y : α} {u : β}
    (h : Gives Cell.Quiet body x u y) (a : Address) (o : MemoryOrder) :
    Gives Quiet (critical a o body) x u y := by
  rintro g ⟨hc, hl⟩
  obtain ⟨cell, e, hc'⟩ := h g.cell hc
  obtain ⟨locks, entered, hl'⟩ := hl.enter caller a o
  refine ⟨⟨cell, locks.leave a o⟩, ?_, hc', hl'⟩
  simp only [critical, entered, e]

end Guarded

theorem Locked.plain_wordMachine {w : Nat} (a : Address) :
    (wordMachine a : FetchAdd (Guarded (BitVec w)) (BitVec w)).Plain Guarded.Quiet where
  load _ x := Guarded.gives_critical (Cell.gives_read _ x) a _
  store _ v x := Guarded.gives_critical (Cell.gives_write v _ x) a _
  casWeak _ e d s x := Guarded.gives_critical (Cell.gives_compareExchange .strong e d s _ x) a s
  patience _ := Nat.succ_pos _
  casStrong _ e d s x := Guarded.gives_critical (Cell.gives_compareExchange .strong e d s _ x) a s
  exchange v o x := Guarded.gives_critical (Cell.gives_swap v o x) a o
  fetchAdd v o x := Guarded.gives_critical (Cell.gives_modifyBy (.fetchAdd v o) (· + v) x) a o

end OrderedAtomics
