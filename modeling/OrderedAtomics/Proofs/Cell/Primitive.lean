import OrderedAtomics.Cell

/-! What each primitive does to a cell, in one equation. A compare-exchange is the only one before
which anything can happen. -/

namespace OrderedAtomics

theorem Access.bind_ok {σ α β : Type} {a : Access σ α} {f : α → Access σ β} {s s' : σ} {u : α}
    (h : a s = .ok u s') : (a >>= f) s = f u s' := by
  show EStateM.bind a f s = _
  simp only [EStateM.bind, h]

namespace Cell

variable {α : Type}

theorem record_eq (e : Event α) (c : Cell α) :
    record e c = .ok () { c with trace := c.trace ++ [e] } := rfl

theorem read_eq (o : MemoryOrder) (c : Cell α) :
    read o c = .ok c.value { c with trace := c.trace ++ [.load o] } := rfl

theorem write_eq (v : α) (o : MemoryOrder) (c : Cell α) :
    write v o c = .ok () { c with value := v, trace := c.trace ++ [.store v o] } := rfl

theorem swap_eq (v : α) (o : MemoryOrder) (c : Cell α) :
    swap v o c = .ok c.value { c with value := v, trace := c.trace ++ [.exchange v o] } := rfl

theorem modifyBy_eq (e : Event α) (f : α → α) (c : Cell α) :
    modifyBy e f c = .ok c.value { c with value := f c.value, trace := c.trace ++ [e] } := rfl

/-- The value that the coming attempt will find. -/
def found (c : Cell α) : α :=
  match c.script with
  | .overwrite v :: _ => v
  | _ => c.value

/-- Whether the coming attempt fails without cause if it is a weak one. -/
def spurious (c : Cell α) : Bool :=
  match c.script with
  | .spurious :: _ => true
  | _ => false

theorem disturb_eq (c : Cell α) : c.disturb = (c.spurious, ⟨c.found, c.script.tail, c.trace⟩) := by
  obtain ⟨value, _ | ⟨_ | v | _, script⟩, trace⟩ := c <;> rfl

theorem found_nil {c : Cell α} (h : c.script = []) : c.found = c.value := by
  unfold found
  rw [h]

theorem spurious_nil {c : Cell α} (h : c.script = []) : c.spurious = false := by
  unfold spurious
  rw [h]

/-- Whether the coming attempt stores. -/
def stores [DecidableEq α] (c : Cell α) (k : Strength) (expected : α) : Bool :=
  decide (c.found = expected) && !(c.spurious && k == .weak)

/-- An attempt uses up the first entry of the script. -/
theorem compareExchange_eq [DecidableEq α] (k : Strength) (e d : α) (s f : MemoryOrder)
    (c : Cell α) :
    compareExchange identical k e d s f c =
      .ok (if c.stores k e then ⟨true, e⟩ else ⟨false, c.found⟩)
        ⟨if c.stores k e then d else c.found, c.script.tail,
          c.trace ++ [.cas k e d s f (c.stores k e)]⟩ := by
  have hs : (decide (c.found = e) && !(c.spurious && k == .weak)) = c.stores k e := rfl
  have seen : (get : Access (Cell α) (Cell α)) c = .ok c c := rfl
  have moved (c' : Cell α) : (set c' : Access (Cell α) PUnit) c = .ok ⟨⟩ c' := rfl
  unfold compareExchange
  rw [Access.bind_ok seen, disturb_eq]
  simp only [Access.bind_ok (moved _), identical, hs, Access.bind_ok (record_eq _ _)]
  cases c.stores k e <;> rfl

end Cell

end OrderedAtomics
