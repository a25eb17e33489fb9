import Mathlib.Data.List.Basic
import OrderedAtomics.Ring

/-! Where the elements of a ring lie. They fill a window of slots from `read` to `write`, which goes
round the end of the array; at least one slot is outside. The window grows at `write` and shrinks at
`read`, so that the two ends never work on the same slot. -/

namespace OrderedAtomics.Ring

variable {α : Type} {r : Ring α} {v : α} {vs : List α} {taken i : Nat}

/-! ### Going round -/

section Round

variable {read slots k : Nat}

theorem nextIndex_eq {index : Nat} (h : index < slots) :
    nextIndex index slots = (index + 1) % slots := by
  unfold nextIndex
  by_cases he : index + 1 = slots
  · simp [he]
  · have hl : index + 1 < slots := by omega
    simp [he, Nat.mod_eq_of_lt hl]

/-- A walk over all slots comes back to the first slot at most once. -/
theorem round_eq (hr : read < slots) (hk : k ≤ slots) :
    (read + k) % slots = if read + k < slots then read + k else read + k - slots := by
  split_ifs with h
  · exact Nat.mod_eq_of_lt h
  · rw [Nat.mod_eq_sub_mod (by omega), Nat.mod_eq_of_lt (by omega)]

theorem distance_round (hr : read < slots) (hk : k < slots) :
    distance ((read + k) % slots) read slots = k := by
  rw [round_eq hr (by omega)]
  unfold distance
  split_ifs <;> omega

theorem distance_lt {write : Nat} (hw : write < slots) (hr : read < slots) :
    distance write read slots < slots := by
  unfold distance
  split_ifs <;> omega

end Round

/-- The slot that is `k` slots behind the first one of the window. -/
def place (r : Ring α) (k : Nat) : Nat := (r.read + k) % r.slots.size

theorem place_zero (h : r.read < r.slots.size) : r.place 0 = r.read := Nat.mod_eq_of_lt h

theorem place_lt (h : r.read < r.slots.size) (k : Nat) : r.place k < r.slots.size :=
  Nat.mod_lt _ (by omega)

theorem place_inj (h : r.read < r.slots.size) {k l : Nat} (hk : k < r.slots.size)
    (hl : l < r.slots.size) (e : r.place k = r.place l) : k = l := by
  unfold place at e
  rw [round_eq h (by omega), round_eq h (by omega)] at e
  split_ifs at e <;> omega

theorem nextIndex_place (h : r.read < r.slots.size) (k : Nat) :
    nextIndex (r.place k) r.slots.size = r.place (k + 1) := by
  rw [nextIndex_eq (place_lt h k), place, place, Nat.mod_add_mod, Nat.add_assoc]

/-! ### Fields -/

@[simp] theorem size_setSlot (r : Ring α) (i : Nat) (o : Option α) :
    (r.setSlot i o).slots.size = r.slots.size := by simp [setSlot]

@[simp] theorem place_setSlot (r : Ring α) (i : Nat) (o : Option α) :
    (r.setSlot i o).place = r.place := by
  funext k
  simp only [place, size_setSlot]
  rfl

theorem slot_setSlot (h : i < r.slots.size) (o : Option α) :
    (r.setSlot i o).slot = Function.update r.slot i o := by
  funext j
  unfold slot setSlot
  by_cases hj : j = i
  · subst hj; simp [h]
  · simp [hj, Array.getElem?_setIfInBounds_ne (Ne.symm hj)]

/-! ### The window -/

/-- The elements of a buffer, oldest first. Of the oldest ones, `taken` have left their slots. -/
structure Holding (r : Ring α) (vs : List α) (taken : Nat) : Prop where
  read_lt : r.read < r.slots.size
  fits : vs.length < r.slots.size
  write : r.write = r.place vs.length
  stored : ∀ k v, taken ≤ k → vs[k]? = some v → r.slot (r.place k) = some v

/-- A buffer with slots has no elements at first. -/
theorem holding_ofSlots {n : Nat} (h : 0 < n) : (ofSlots n : Ring α).Holding [] 0 where
  read_lt := by simpa [ofSlots] using h
  fits := by simpa [ofSlots] using h
  write := by simp [ofSlots, place]
  stored := by simp

namespace Holding

theorem write_lt (h : r.Holding vs taken) : r.write < r.slots.size := by
  rw [h.write]
  exact place_lt h.read_lt _

theorem nextIndex_write (h : r.Holding vs taken) :
    nextIndex r.write r.slots.size = r.place (vs.length + 1) := by
  rw [h.write, nextIndex_place h.read_lt]

theorem nextIndex_read (h : r.Holding vs taken) :
    nextIndex r.read r.slots.size = r.place 1 := by
  rw [← nextIndex_place h.read_lt, place_zero h.read_lt]

/-- The slot at `write` is outside the window. -/
theorem place_ne_write (h : r.Holding vs taken) {k : Nat} (hk : k < vs.length) :
    r.place k ≠ r.write := by
  have hf := h.fits
  intro e
  rw [h.write] at e
  have := place_inj h.read_lt (by omega) hf e
  omega

theorem read_eq_write (h : r.Holding vs taken) : r.read = r.write ↔ vs = [] := by
  rw [← place_zero h.read_lt, h.write, ← List.length_eq_zero_iff]
  refine ⟨fun e => ?_, fun e => by rw [e]⟩
  exact (place_inj h.read_lt (by have := h.fits; omega) h.fits e).symm

/-- The index after `write` is `read` when only one slot is outside the window. -/
theorem nextIndex_eq_read (h : r.Holding vs taken) :
    nextIndex r.write r.slots.size = r.read ↔ vs.length + 1 = r.slots.size := by
  have hf := h.fits
  have hr := h.read_lt
  rw [h.nextIndex_write, place, round_eq hr hf]
  split_ifs <;> omega

theorem distance_eq (h : r.Holding vs taken) :
    distance r.write r.read r.slots.size = vs.length := by
  rw [h.write]
  exact distance_round h.read_lt h.fits

/-- The producer writes outside the window. -/
theorem fill (h : r.Holding vs taken) (v : α) :
    (r.setSlot r.write (some v)).Holding vs taken where
  read_lt := by rw [size_setSlot]; exact h.read_lt
  fits := by rw [size_setSlot]; exact h.fits
  write := by rw [place_setSlot]; exact h.write
  stored := by
    intro k u hk hu
    have hl := (List.getElem?_eq_some_iff.mp hu).1
    rw [place_setSlot, slot_setSlot h.write_lt, Function.update_of_ne (h.place_ne_write hl)]
    exact h.stored k u hk hu

/-- A written slot comes into the window. -/
theorem publish (h : r.Holding vs taken) (room : vs.length + 1 < r.slots.size)
    (hv : r.slot r.write = some v) :
    (r.setWrite (nextIndex r.write r.slots.size)).Holding (vs ++ [v]) taken where
  read_lt := h.read_lt
  fits := by
    show (vs ++ [v]).length < r.slots.size
    simpa using room
  write := by rw [List.length_append]; exact h.nextIndex_write
  stored := by
    intro k u hk hu
    by_cases hl : k < vs.length
    · exact h.stored k u hk (by rwa [List.getElem?_append_left hl] at hu)
    · rw [List.getElem?_append_right (by omega), List.getElem?_singleton] at hu
      split_ifs at hu with hz
      obtain rfl : k = vs.length := by omega
      rw [← hu, ← hv, h.write]
      rfl

/-- The oldest element is in the slot at `read`. -/
theorem slot_read (h : r.Holding (v :: vs) 0) : r.slot r.read = some v := by
  rw [← place_zero h.read_lt]
  exact h.stored 0 v (by omega) rfl

/-- The consumer empties the first slot of the window. -/
theorem empty (h : r.Holding vs 0) : (r.setSlot r.read none).Holding vs 1 where
  read_lt := by rw [size_setSlot]; exact h.read_lt
  fits := by rw [size_setSlot]; exact h.fits
  write := by rw [place_setSlot]; exact h.write
  stored := by
    intro k u hk hu
    have hl := (List.getElem?_eq_some_iff.mp hu).1
    have hf := h.fits
    have hne : r.place k ≠ r.read := by
      intro e
      rw [← place_zero h.read_lt] at e
      have := place_inj h.read_lt (by omega) (by omega) e
      omega
    rw [place_setSlot, slot_setSlot h.read_lt, Function.update_of_ne hne]
    exact h.stored k u (by omega) hu

/-- An emptied slot leaves the window. -/
theorem release (h : r.Holding (v :: vs) 1) :
    (r.setRead (nextIndex r.read r.slots.size)).Holding vs 0 := by
  have hplace : ∀ k, (r.setRead (nextIndex r.read r.slots.size)).place k = r.place (k + 1) := by
    intro k
    show (nextIndex r.read r.slots.size + k) % r.slots.size = _
    rw [h.nextIndex_read, place, place, Nat.mod_add_mod, Nat.add_assoc, Nat.add_comm 1 k]
  have hf : vs.length + 1 < r.slots.size := by simpa using h.fits
  refine ⟨?_, ?_, ?_, ?_⟩
  · show nextIndex r.read r.slots.size < r.slots.size
    rw [h.nextIndex_read]
    exact place_lt h.read_lt 1
  · show vs.length < r.slots.size
    omega
  · rw [hplace]
    exact h.write
  · intro k u _ hu
    rw [hplace]
    exact h.stored (k + 1) u (by omega) hu

end Holding

end OrderedAtomics.Ring
