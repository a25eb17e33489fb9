import OrderedAtomics.Proofs.Atomic.Comparison
import OrderedAtomics.Proofs.Atomic.FetchUpdate
import OrderedAtomics.Record

/-! Fetch-and-update on a value behind locks that nobody else writes, with a closure that never
declines. Each round asks the comparison of the type whether the value is equal to itself. If it says
yes the first round stores, if it says no every round is like the one before, and if it faults that is
the end. -/

namespace OrderedAtomics

open Access (Ends Gives)

/-! ### Accesses -/

section Accesses

variable {σ α β W : Type} {rest : σ → W → Prop} {a : Access σ α} {f : α → Access σ β} {x y z : W}

theorem Access.Ends.bind {u : α} {ending : Except Fault β} (ha : Ends rest a x (.ok u) y)
    (hf : Ends rest (f u) y ending z) : Ends rest (a >>= f) x ending z := by
  intro s hs
  obtain ⟨s₁, e₁, h₁⟩ := ha s hs
  obtain ⟨s₂, e₂, h₂⟩ := hf s₁ h₁
  refine ⟨s₂, ?_, h₂⟩
  rw [← e₂]
  simp only [Access.outcome, Access.bind_ok (Access.ok_of_outcome e₁)]

/-- What would come after a fault does not. -/
theorem Access.Ends.bind_fault {fault : Fault} (ha : Ends rest a x (.error fault) y)
    (f : α → Access σ β) : Ends rest (a >>= f) x (.error fault) y := by
  intro s hs
  obtain ⟨s', ended, hs'⟩ := ha s hs
  exact ⟨s', Access.outcome_error (Access.bind_error (Access.error_of_outcome ended) f), hs'⟩

end Accesses

/-! ### Numbers that are not equal to themselves -/

theorem FloatFormat.equal_self (f : FloatFormat) (x : Nat) :
    f.equal x x = decide (f.decode x ≠ .nan) := by
  unfold equal
  rcases f.decode x with ⟨_, _ | _, _⟩ | _ | _ <;> simp

/-! ### Rounds -/

namespace Atomic

variable {σ T W κ : Type}

/-- The closure, remembering the values that it is shown. -/
def remembering (closure : κ → T → Access σ (κ × Option T)) (k : κ × List T) (shown : T) :
    Access σ ((κ × List T) × Option T) := do
  let (state, next) ← closure k.1 shown
  return ((state, k.2 ++ [shown]), next)

end Atomic

namespace Locked

open Atomic (remembering updateOrders)

variable {T κ : Type}

/-- On every visit the closure leaves the cell alone and gives the image of the value it is shown. -/
def Maps (closure : κ → T → Access (Guarded T) (κ × Option T)) (g : T → T) : Prop :=
  ∀ k shown x, ∃ k', Gives Guarded.Quiet (closure k shown) x (k', some (g shown)) x

namespace Sample

/-- Only a sample whose value is a number is equal to itself. -/
theorem same_self (x : Sample) :
    same x x = .ok (decide (FloatFormat.single.decode x.2.toNat ≠ .nan)) := by
  rw [same, BEq.rfl, Bool.true_and, FloatFormat.equal_self]

/-- The closure that counts its visits and gives the next sample with the same value. -/
def following (visits : Nat) (shown : Sample) : Access (Guarded Sample) (Nat × Option Sample) :=
  return (visits + 1, some (shown.1 + 1, shown.2))

theorem maps_following : Maps following fun x => (x.1 + 1, x.2) :=
  fun visits shown x => ⟨visits + 1, .pure x (visits + 1, some (shown.1 + 1, shown.2))⟩

end Sample

section Rounds

variable (address : Address) (same : T → T → Except Fault Bool)
  {closure : κ → T → Access (Guarded T) (κ × Option T)} {g : T → T} {orders : CasOrders} {v : T}

theorem Maps.remembering (maps : Maps closure g) (k : κ) (shown x : T) (seen : List T) :
    ∃ k', Gives Guarded.Quiet (remembering closure (k, seen) shown) x
      ((k', seen ++ [shown]), some (g shown)) x := by
  obtain ⟨k', gives⟩ := maps k shown x
  exact ⟨k', gives.bind (.pure _ _)⟩

/-- The compare-exchange of a round, on the value that the round was shown. -/
theorem ends_cas_self (legal : orders.Legal) (next : T) :
    Ends Guarded.Quiet ((atomic address same).cas .weak v next orders) v
      (judge same v v next).1 (judge same v v next).2 :=
  Form.typed.ends_cas address same legal .weak v next v

theorem ends_rounds_of_equal (maps : Maps closure g) (legal : orders.Legal)
    (equal : same v v = .ok true) (k : κ) (seen : List T) :
    ∃ k', ∀ rounds, Ends Guarded.Quiet
      ((atomic address same).updateRounds orders (remembering closure) (rounds + 1) (k, seen) v) v
      (.ok ((k', seen ++ [v]), .ok v)) (g v) := by
  obtain ⟨k', visited⟩ := maps.remembering k v v seen
  have tried := ends_cas_self address same (v := v) legal (g v)
  simp only [judge, equal] at tried
  exact ⟨k', fun rounds => visited.ends.bind (tried.bind (Gives.pure _ _).ends)⟩

/-- No number of rounds is enough for a value that is not equal to itself. -/
theorem ends_rounds_of_unequal (maps : Maps closure g) (legal : orders.Legal)
    (unequal : same v v = .ok false) (rounds : Nat) (k : κ) (seen : List T) :
    Ends Guarded.Quiet
      ((atomic address same).updateRounds orders (remembering closure) rounds (k, seen) v) v
      (.error .unfinished) v := by
  induction rounds generalizing k seen with
  | zero => exact fun s hs => ⟨s, rfl, hs⟩
  | succ rounds ih =>
    obtain ⟨k', visited⟩ := maps.remembering k v v seen
    have tried := ends_cas_self address same (v := v) legal (g v)
    simp only [judge, unequal] at tried
    exact visited.ends.bind (tried.bind (ih k' (seen ++ [v])))

theorem ends_rounds_of_fault (maps : Maps closure g) (legal : orders.Legal) {fault : Fault}
    (refused : same v v = .error fault) (rounds : Nat) (k : κ) (seen : List T) :
    Ends Guarded.Quiet
      ((atomic address same).updateRounds orders (remembering closure) (rounds + 1) (k, seen) v) v
      (.error fault) v := by
  obtain ⟨k', visited⟩ := maps.remembering k v v seen
  have tried := ends_cas_self address same (v := v) legal (g v)
  simp only [judge, refused] at tried
  exact visited.ends.bind (tried.bind_fault _)

theorem ends_fetchUpdate {ending : Except Fault ((κ × List T) × Except T T)} {y : T} {rounds : Nat}
    {k : κ} {setOrder fetchOrder : MemoryOrder} (legal : fetchOrder.legalForLoad)
    (h : Ends Guarded.Quiet ((atomic address same).updateRounds (updateOrders setOrder fetchOrder)
      (remembering closure) rounds (k, []) v) v ending y) :
    Ends Guarded.Quiet ((atomic address same).fetchUpdate setOrder fetchOrder (remembering closure)
      rounds (k, [])) v ending y :=
  (Form.typed.gives_load address same legal v).ends.bind h

end Rounds

/-- On a value behind locks that nobody else writes, a fetch-and-update whose closure never declines
ends as the comparison of that value with itself says. If the value is equal to itself, the closure
is shown it once and its image is stored. If not, no number of rounds is enough, and if the comparison
faults so does the update; the cell is then as it was. -/
theorem fetch_update_completes_on_equal (address : Address) (same : T → T → Except Fault Bool)
    {closure : κ → T → Access (Guarded T) (κ × Option T)} {g : T → T} (maps : Maps closure g)
    (setOrder : MemoryOrder) {fetchOrder : MemoryOrder} (legal : fetchOrder.legalForLoad) (k : κ)
    (v : T) :
    let update (rounds : Nat) := (atomic address same).fetchUpdate setOrder fetchOrder
      (remembering closure) rounds (k, [])
    match same v v with
    | .ok true => ∃ k', ∀ rounds,
        Ends Guarded.Quiet (update (rounds + 1)) v (.ok ((k', [v]), .ok v)) (g v)
    | .ok false => ∀ rounds, Ends Guarded.Quiet (update rounds) v (.error .unfinished) v
    | .error fault => ∀ rounds, Ends Guarded.Quiet (update (rounds + 1)) v (.error fault) v := by
  have orders := Atomic.updateOrders_legal setOrder fetchOrder
  rcases said : same v v with fault | _ | _
  · exact fun rounds => ends_fetchUpdate address same legal
      (ends_rounds_of_fault address same maps orders said rounds k [])
  · exact fun rounds => ends_fetchUpdate address same legal
      (ends_rounds_of_unequal address same maps orders said rounds k [])
  · obtain ⟨k', rounds⟩ := ends_rounds_of_equal address same maps orders said k []
    exact ⟨k', fun n => ends_fetchUpdate address same legal (rounds n)⟩

/-- The sample 7 of the value one and a half. -/
theorem fetch_update_completes_on_equal_number :
    let v : Sample := (7, 0x3fc00000)
    let update (rounds : Nat) := (atomic 0x1000 Sample.same).fetchUpdate .release .acquire
      (remembering Sample.following) rounds (0, [])
    Maps Sample.following (fun x => (x.1 + 1, x.2)) ∧ MemoryOrder.acquire.legalForLoad ∧
      Sample.same v v = .ok true ∧
      ∃ visits, ∀ rounds, ∃ g, (update (rounds + 1)).outcome (.fresh v) =
        (g, .ok ((visits, [v]), .ok v)) ∧ g.Quiet (8, 0x3fc00000) := by
  intro v update
  have number : FloatFormat.single.decode v.2.toNat ≠ .nan := by decide
  have equal : Sample.same v v = .ok true := by rw [Sample.same_self, decide_eq_true number]
  have legal : MemoryOrder.acquire.legalForLoad := rfl
  have completes :=
    fetch_update_completes_on_equal 0x1000 Sample.same Sample.maps_following .release legal 0 v
  rw [equal] at completes
  obtain ⟨visits, ends⟩ := completes
  exact ⟨Sample.maps_following, legal, equal, visits, fun rounds =>
    ends rounds _ ⟨⟨rfl, rfl⟩, LockTable.unheld_free⟩⟩

/-- The sample 7, of a value that is not a number, is shown to the closure again and again, and a record
that refuses to be compared stops the update. Neither is ever replaced. -/
theorem fetch_update_stuck_on_unequal :
    let v : Sample := (7, 0x7fc00000)
    let update (rounds : Nat) := (atomic 0x1000 Sample.same).fetchUpdate .seqCst .seqCst
      (remembering Sample.following) rounds (0, [])
    let layout : Layout := [("x", .integer (.unsigned 32))]
    let number (i : Int) : layout.Values := (.wrap _ i, ())
    let record := atomic 0x1000 (layout.refusing 666)
    (∀ rounds, ∃ g, (update rounds).outcome (.fresh v) = (g, .error .unfinished) ∧ g.Quiet v) ∧
      ∃ g, (record.perform (.fetchUpdate .seqCst .seqCst [⟨none, some (number 1)⟩])).outcome
        (.fresh (number 666)) = (g, .error .incomparable) ∧ g.cell.value = number 666 := by
  intro v update layout number record
  have legal : MemoryOrder.seqCst.legalForLoad := rfl
  have orders := Atomic.updateOrders_legal .seqCst .seqCst
  have nan : FloatFormat.single.decode v.2.toNat = .nan := by decide
  have unequal : Sample.same v v = .ok false := by
    rw [Sample.same_self, decide_eq_false (not_not_intro nan)]
  refine ⟨fun rounds => ?_, _, rfl, rfl⟩
  exact ends_fetchUpdate 0x1000 Sample.same legal
    (ends_rounds_of_unequal 0x1000 Sample.same Sample.maps_following orders unequal rounds 0 [])
    _ ⟨⟨rfl, rfl⟩, LockTable.unheld_free⟩

end Locked

end OrderedAtomics
