import OrderedAtomics.Cell.SubWord

/-! Where a small word lies in a large one, bit by bit and byte by byte. Putting in a small word
changes its own bits and no others. -/

namespace OrderedAtomics.SubWord

variable {n m shift : Nat}

/-! ### Bits -/

theorem getLsbD_mask (i : Nat) :
    (mask n m shift).getLsbD i = decide (shift ≤ i ∧ i < shift + m ∧ i < n) := by
  simp only [mask, BitVec.getLsbD_shiftLeft, BitVec.getLsbD_setWidth, BitVec.getLsbD_allOnes]
  rw [Bool.eq_iff_iff]
  simp
  omega

theorem getLsbD_extract (word : BitVec n) (i : Nat) :
    (extract m shift word).getLsbD i = (decide (i < m) && word.getLsbD (shift + i)) := by
  simp [extract]

theorem getLsbD_surround (v : BitVec m) {i : Nat} (hi : i < n) :
    (surround n shift v).getLsbD i = (decide (shift ≤ i) && v.getLsbD (i - shift)) := by
  have hn : i - shift < n := by omega
  simp only [surround, BitVec.getLsbD_shiftLeft, BitVec.getLsbD_setWidth]
  by_cases hs : shift ≤ i
  · simp [hs, hi, hn]
  · simp [hs, hi]

theorem getLsbD_insert (word : BitVec n) (v : BitVec m) {i : Nat} (hi : i < n) :
    (insert shift word v).getLsbD i =
      if shift ≤ i ∧ i < shift + m then v.getLsbD (i - shift) else word.getLsbD i := by
  have hs : (v.setWidth n <<< shift).getLsbD i = (surround n shift v).getLsbD i := rfl
  simp only [insert, BitVec.getLsbD_or, BitVec.getLsbD_and, BitVec.getLsbD_not, getLsbD_mask, hs,
    getLsbD_surround v hi]
  by_cases hl : shift ≤ i
  · by_cases hu : i < shift + m
    · simp [hl, hu, hi]
    · have hv : v.getLsbD (i - shift) = false := BitVec.getLsbD_of_ge v _ (by omega)
      simp [hl, hu, hi, hv]
  · simp [hl, hi]

/-- What is put in is what comes out. -/
theorem extract_insert (fits : shift + m ≤ n) (word : BitVec n) (v : BitVec m) :
    extract m shift (insert shift word v) = v := by
  apply BitVec.eq_of_getLsbD_eq
  intro i hi
  rw [getLsbD_extract, getLsbD_insert word v (by omega)]
  simp [hi]

theorem extract_surround (fits : shift + m ≤ n) (v : BitVec m) :
    extract m shift (surround n shift v) = v := by
  apply BitVec.eq_of_getLsbD_eq
  intro i hi
  rw [getLsbD_extract, getLsbD_surround v (by omega)]
  simp [hi]

/-- Putting in what is there already changes nothing. -/
theorem insert_extract (word : BitVec n) :
    insert shift word (extract m shift word) = word := by
  apply BitVec.eq_of_getLsbD_eq
  intro i hi
  rw [getLsbD_insert word _ hi, getLsbD_extract]
  split
  next h =>
    have hm : i - shift < m := by omega
    simp [hm, Nat.add_sub_cancel' h.1]
  next => rfl

theorem eq_insert_iff (fits : shift + m ≤ n) {word : BitVec n} {v : BitVec m} :
    word = insert shift word v ↔ extract m shift word = v := by
  constructor
  · intro e
    rw [e, extract_insert fits]
  · rintro rfl
    exact (insert_extract word).symm

/-- The bits around a small word are those of the word it is put in. -/
theorem insert_around (word : BitVec n) (v : BitVec m) :
    insert shift word v &&& ~~~mask n m shift = word &&& ~~~mask n m shift := by
  apply BitVec.eq_of_getLsbD_eq
  intro i hi
  simp only [BitVec.getLsbD_and, BitVec.getLsbD_not, getLsbD_insert word v hi, getLsbD_mask]
  by_cases h : shift ≤ i ∧ i < shift + m
  · simp [h, hi]
  · simp [h]

/-- The last small word that is put in counts. -/
theorem insert_insert (word : BitVec n) (u v : BitVec m) :
    insert shift (insert shift word u) v = insert shift word v := by
  apply BitVec.eq_of_getLsbD_eq
  intro i hi
  rw [getLsbD_insert _ v hi, getLsbD_insert word v hi, getLsbD_insert word u hi]
  split <;> rfl

/-! ### Bytes -/

section Bytes

variable {b s o : Nat}

theorem getElem_toBytes {w : Nat} (v : BitVec w) {i : Nat} (hi : i < (Word.toBytes v).length) :
    (Word.toBytes v)[i] = extract 8 (8 * i) v := by
  simp only [Word.toBytes, List.getElem_map, List.getElem_range, extract]

theorem length_toBytes_eight (v : BitVec (8 * b)) : (Word.toBytes v).length = b := by
  rw [Word.length_toBytes, Word.bytes, Nat.mul_div_cancel_left b (by decide)]

/-- Bytes of which those from the `o`-th on are replaced by some others. -/
def splice (o : Nat) (bytes inner : List (BitVec 8)) : List (BitVec 8) :=
  bytes.take o ++ inner ++ bytes.drop (o + inner.length)

theorem toBytes_insert (fits : o + s ≤ b) (word : BitVec (8 * b)) (v : BitVec (8 * s)) :
    Word.toBytes (insert (8 * o) word v) = splice o (Word.toBytes word) (Word.toBytes v) := by
  have hw := length_toBytes_eight word
  have hv := length_toBytes_eight v
  apply List.ext_getElem
  · simp only [splice, List.length_append, List.length_take, List.length_drop,
      length_toBytes_eight]
    omega
  intro i hi hi'
  have hib : i < b := by rwa [length_toBytes_eight] at hi
  rw [getElem_toBytes]
  apply BitVec.eq_of_getLsbD_eq
  intro j hj
  rw [getLsbD_extract, getLsbD_insert word v (by omega)]
  simp only [splice, List.getElem_append, List.length_append, List.length_take, hw, hv,
    Nat.min_eq_left (show o ≤ b by omega), List.getElem_take, List.getElem_drop, getElem_toBytes]
  by_cases before : i < o
  · rw [dif_pos (show i < o + s by omega), dif_pos before, getLsbD_extract, if_neg (by omega)]
  · by_cases inside : i < o + s
    · have place : 8 * i + j - 8 * o = 8 * (i - o) + j := by omega
      rw [dif_pos inside, dif_neg before, getLsbD_extract, if_pos (by omega), place]
    · have place : o + s + (i - (o + s)) = i := by omega
      rw [dif_neg inside, getLsbD_extract, if_neg (by omega), place]

theorem toBytes_extract (fits : o + s ≤ b) (word : BitVec (8 * b)) :
    Word.toBytes (extract (8 * s) (8 * o) word) = ((Word.toBytes word).drop o).take s := by
  apply List.ext_getElem
  · rw [List.length_take, List.length_drop, length_toBytes_eight, length_toBytes_eight]
    omega
  intro i hi hi'
  have his : i < s := by rwa [length_toBytes_eight] at hi
  rw [getElem_toBytes, List.getElem_take, List.getElem_drop, getElem_toBytes]
  apply BitVec.eq_of_getLsbD_eq
  intro j hj
  have place : 8 * o + (8 * i + j) = 8 * (o + i) + j := by omega
  have inside : 8 * i + j < 8 * s := by omega
  simp only [getLsbD_extract, place, inside, decide_true, Bool.true_and]

theorem toBytes_zero : Word.toBytes (0 : BitVec (8 * b)) = List.replicate b 0 := by
  apply List.ext_getElem
  · rw [length_toBytes_eight, List.length_replicate]
  intro i hi hi'
  rw [getElem_toBytes, List.getElem_replicate]
  simp [extract]

/-- Around a small word that is alone in its word there are zeros. -/
theorem toBytes_surround (fits : o + s ≤ b) (v : BitVec (8 * s)) :
    Word.toBytes (surround (8 * b) (8 * o) v) =
      splice o (List.replicate b 0) (Word.toBytes v) := by
  have alone : surround (8 * b) (8 * o) v = insert (8 * o) 0 v := by simp [insert, surround]
  rw [alone, toBytes_insert fits, toBytes_zero]

end Bytes

end OrderedAtomics.SubWord
