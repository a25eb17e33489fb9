import OrderedAtomics.Proofs.Atomic.Values

/-! Values and their words determine each other. Every value comes back from its word, and unless
there is a truth value in it, every word comes back from its value as well. The bytes of a record are
copied into a word, or into another record, as they are, if there is room for just as many. -/

namespace OrderedAtomics

/-! ### Words and their parts -/

theorem DoubleWord.pack_low_high (d : DoubleWord) : pack d.low d.high = d := by
  apply BitVec.eq_of_getLsbD_eq
  intro i hi
  simp only [pack, BitVec.getLsbD_append, low, high, BitVec.getLsbD_setWidth,
    BitVec.getLsbD_ushiftRight]
  by_cases inLow : i < addressWidth
  · simp only [inLow, if_true, decide_true, Bool.true_and]
  · have inHigh : i - addressWidth < addressWidth := by omega
    have place : addressWidth + (i - addressWidth) = i := by omega
    simp only [inLow, if_false, inHigh, decide_true, Bool.true_and, place]

namespace Word

variable {b size : Nat} {bs : List (BitVec 8)}

theorem bytes_eight (b : Nat) : bytes (8 * b) = b := Nat.mul_div_cancel_left b (by decide)

theorem ofBytes?_of_length (h : bs.length = b) :
    ofBytes? (8 * b) bs = .ok (ofBytes (8 * b) bs) := by
  rw [ofBytes?, bytes_eight, if_pos h]

theorem ofBytes?_of_length_ne (h : bs.length ≠ b) :
    ofBytes? (8 * b) bs = .error .sizeMismatch := by
  rw [ofBytes?, bytes_eight, if_neg h]

theorem toBytes?_of_size (v : BitVec (8 * b)) : toBytes? b v = .ok (toBytes v) := by
  rw [toBytes?, bytes_eight, if_pos rfl]

theorem toBytes?_of_size_ne (h : size ≠ b) (v : BitVec (8 * b)) :
    toBytes? size v = .error .sizeMismatch := by
  rw [toBytes?, bytes_eight, if_neg h]

end Word

/-! ### Records without truth values -/

namespace Field

instance : (f : Field) → Decidable f.Whole
  | integer k => inferInstanceAs (Decidable (0 < k.width ∧ 8 ∣ k.width))
  | truth => isTrue trivial

/-- Bytes that fill an integer come back from it. -/
theorem toBytes_ofBytes {f : Field} (whole : f.Whole) (dense : f ≠ .truth) {bs : List (BitVec 8)}
    (length : bs.length = f.bytes) : f.toBytes (f.ofBytes bs) = bs := by
  cases f with
  | truth => exact absurd rfl dense
  | integer k =>
    obtain ⟨signed, width⟩ := k
    obtain ⟨-, b, rfl⟩ := whole
    show Word.toBytes (Scalar.ofBits (Word.ofBytes (8 * b) bs) : Scalar ⟨signed, 8 * b⟩).bits = bs
    rw [Scalar.bits_ofBits]
    exact Word.toBytes_ofBytes (length.trans (Word.bytes_eight b))

end Field

namespace Layout

/-- There is no truth value in the record: all bytes make a value. -/
def Dense (l : Layout) : Prop := ∀ f ∈ l, f.2 ≠ .truth

instance (l : Layout) : Decidable l.Whole := inferInstanceAs (Decidable (∀ f ∈ l, f.2.Whole))

instance (l : Layout) : Decidable l.Dense := inferInstanceAs (Decidable (∀ f ∈ l, f.2 ≠ .truth))

theorem toBytes_ofBytes {l : Layout} (whole : l.Whole) (dense : l.Dense) {bs : List (BitVec 8)}
    (length : bs.length = l.bytes) : l.toBytes (l.ofBytes bs) = bs := by
  induction l generalizing bs with
  | nil => exact (List.eq_nil_of_length_eq_zero length).symm
  | cons f rest ih =>
    have total : bs.length = f.2.bytes + bytes rest := length
    have first : (bs.take f.2.bytes).length = f.2.bytes := by
      rw [List.length_take, total]
      omega
    have others : (bs.drop f.2.bytes).length = bytes rest := by
      rw [List.length_drop, total]
      omega
    show f.2.toBytes (f.2.ofBytes (bs.take f.2.bytes)) ++
      toBytes rest (ofBytes rest (bs.drop f.2.bytes)) = bs
    rw [Field.toBytes_ofBytes (whole f List.mem_cons_self) (dense f List.mem_cons_self) first,
      ih (fun f hf => whole f (List.mem_cons_of_mem _ hf))
        (fun f hf => dense f (List.mem_cons_of_mem _ hf)) others,
      List.take_append_drop]

/-- Into a word it is the byte copy of the record. -/
theorem recast?_word (l : Layout) (b : Nat) (v : l.Values) :
    l.recast? [("word", .integer (.unsigned (8 * b)))] v =
      (Word.ofBytes? (8 * b) (l.toBytes v)).map fun word => (.ofBits word, ()) := by
  have size : bytes [("word", .integer (.unsigned (8 * b)))] = b := Word.bytes_eight b
  by_cases fits : l.bytes = b
  · have length : (l.toBytes v).length = b := (l.length_toBytes v).trans fits
    have all : (l.toBytes v).take (Word.bytes (8 * b)) = l.toBytes v :=
      List.take_of_length_le (Nat.le_of_eq (length.trans (Word.bytes_eight b).symm))
    rw [recast?, if_pos (fits.trans size.symm), Word.ofBytes?_of_length length]
    exact congrArg (fun bs => Except.ok
      ((Scalar.ofBits (Word.ofBytes (8 * b) bs) : Scalar (.unsigned (8 * b))), ())) all
  · have length : (l.toBytes v).length ≠ b := by rwa [l.length_toBytes]
    rw [recast?, if_neg (by rwa [size]), Word.ofBytes?_of_length_ne length]
    rfl

/-- The bytes stay as they are, and the record they came from comes back. -/
theorem recast?_of_bytes {l m : Layout} (same : l.bytes = m.bytes) (wholeLeft : l.Whole)
    (wholeRight : m.Whole) (dense : m.Dense) (v : l.Values) :
    ∃ u, l.recast? m v = .ok u ∧ m.toBytes u = l.toBytes v ∧ m.recast? l u = .ok v := by
  have bytes : m.toBytes (m.ofBytes (l.toBytes v)) = l.toBytes v :=
    toBytes_ofBytes wholeRight dense ((l.length_toBytes v).trans same)
  refine ⟨m.ofBytes (l.toBytes v), if_pos same, bytes, ?_⟩
  rw [recast?, if_pos same.symm, bytes, ofBytes_toBytes wholeLeft]

end Layout

/-! ### Carriers -/

namespace Carrier

variable {T W : Type} {c : Carrier T W}

/-- Every word comes back from the value that it stands for. -/
def Full (c : Carrier T W) : Prop := Function.RightInverse c.ofWord c.toWord

theorem full_itself (W : Type) : (itself W).Full := fun _ => rfl

theorem full_scalar (k : Kind) : (scalar k).Full := Scalar.bits_ofBits

theorem full_taggedPointer : taggedPointer.Full := DoubleWord.pack_low_high

theorem full_record {l : Layout} (whole : l.Whole) (dense : l.Dense) :
    (l.carrier (8 * l.bytes)).Full := fun word => by
  have length : (Word.toBytes word).length = l.bytes := SubWord.length_toBytes_eight word
  show Word.ofBytes (8 * l.bytes) (l.toBytes (l.ofBytes (Word.toBytes word))) = word
  rw [l.toBytes_ofBytes whole dense length, Word.ofBytes_toBytes (Nat.dvd_mul_right 8 l.bytes)]

/-- Values are the same if and only if their words are. -/
theorem Faithful.toWord_inj (h : c.Faithful) {x y : T} : c.toWord x = c.toWord y ↔ x = y :=
  (Function.LeftInverse.injective h).eq_iff

theorem Faithful.bijective (h : c.Faithful) (full : c.Full) : Function.Bijective c.toWord :=
  ⟨Function.LeftInverse.injective h, Function.RightInverse.surjective full⟩

end Carrier

namespace ValueType

/-- There is no truth value in a value of the type. -/
def Dense : ValueType → Prop
  | truth => False
  | record l _ => l.Dense
  | integer .. | pointer | single | double | taggedPointer => True

theorem full_carrier {t : ValueType} (dense : t.Dense) : t.carrier.Full := by
  cases t with
  | integer k positive => exact Carrier.full_scalar k
  | truth => cases dense
  | pointer => exact Carrier.full_itself Address
  | single => exact Carrier.full_itself (BitVec 32)
  | double => exact Carrier.full_itself (BitVec 64)
  | record l whole => exact Carrier.full_record whole dense
  | taggedPointer => exact Carrier.full_taggedPointer

/-- A value and its word. -/
structure Lossless (t : ValueType) : Prop where
  /-- Every value comes back from its word. -/
  back : ∀ v, t.carrier.ofWord (t.carrier.toWord v) = v
  /-- To compare words is to compare values. -/
  same : ∀ v v', t.carrier.toWord v = t.carrier.toWord v' ↔ v = v'
  /-- Every word but one for a truth value is the word of what it stands for. -/
  forth : t.Dense → ∀ word, t.carrier.toWord (t.carrier.ofWord word) = word
  bijective : t.Dense → Function.Bijective t.carrier.toWord

theorem lossless (t : ValueType) : t.Lossless where
  back := t.faithful_carrier
  same _ _ := t.faithful_carrier.toWord_inj
  forth := full_carrier
  bijective dense := t.faithful_carrier.bijective (full_carrier dense)

end ValueType

/-- Bytes and the words and records that they are copied into, lowest byte first. -/
structure BytesKept : Prop where
  /-- Bytes for a whole word are those of the word, and nothing else makes the same word. -/
  toWord : ∀ (b : Nat) (bs : List (BitVec 8)), bs.length = b →
    ∃ word, Word.ofBytes? (8 * b) bs = .ok word ∧ Word.toBytes? b word = .ok bs ∧
      ∀ i (h : i < bs.length), (word >>> (8 * i)).setWidth 8 = bs[i]
  ofWord : ∀ (b : Nat) (word : BitVec (8 * b)),
    ∃ bs, Word.toBytes? b word = .ok bs ∧ bs.length = b ∧ Word.ofBytes? (8 * b) bs = .ok word
  toWord_error : ∀ (b : Nat) (bs : List (BitVec 8)), bs.length ≠ b →
    Word.ofBytes? (8 * b) bs = .error .sizeMismatch
  ofWord_error : ∀ (b size : Nat) (word : BitVec (8 * b)), size ≠ b →
    Word.toBytes? size word = .error .sizeMismatch
  /-- The same from one record to another, of which a word is one. -/
  recast_word : ∀ (l : Layout) (b : Nat) (v : l.Values),
    l.recast? [("word", .integer (.unsigned (8 * b)))] v =
      (Word.ofBytes? (8 * b) (l.toBytes v)).map fun word => (.ofBits word, ())
  recast : ∀ l m : Layout, l.bytes = m.bytes → l.Whole → m.Whole → m.Dense → ∀ v,
    ∃ u, l.recast? m v = .ok u ∧ m.toBytes u = l.toBytes v ∧ m.recast? l u = .ok v
  recast_error : ∀ l m : Layout, l.bytes ≠ m.bytes → ∀ v, l.recast? m v = .error .sizeMismatch

theorem bytesKept : BytesKept where
  toWord b bs length := by
    have back := Word.toBytes_ofBytes length
    refine ⟨_, Word.ofBytes?_of_length length, (Word.toBytes?_of_size _).trans ?_, fun i h => ?_⟩
    · rw [back]
    · have byte := SubWord.getElem_toBytes (Word.ofBytes (8 * b) bs) (i := i) (by rwa [back])
      simp only [back] at byte
      exact byte.symm
  ofWord b word := by
    have length := SubWord.length_toBytes_eight word
    refine ⟨_, Word.toBytes?_of_size word, length, (Word.ofBytes?_of_length length).trans ?_⟩
    rw [Word.ofBytes_toBytes (Nat.dvd_mul_right 8 b)]
  toWord_error _ _ := Word.ofBytes?_of_length_ne
  ofWord_error _ _ word h := Word.toBytes?_of_size_ne h word
  recast_word := Layout.recast?_word
  recast _ _ := Layout.recast?_of_bytes
  recast_error _ _ differ _ := if_neg differ

/-- Nothing is lost between values and words, between two words and the pair of them, and between
records and the words or records of the same size that their bytes are copied into. -/
theorem representations_lose_nothing :
    (∀ t : ValueType, t.Lossless) ∧
      (∀ l h : BitVec addressWidth, (DoubleWord.pack l h).low = l ∧ (DoubleWord.pack l h).high = h) ∧
      (∀ d : DoubleWord, .pack d.low d.high = d) ∧ BytesKept :=
  ⟨ValueType.lossless, fun l h => ⟨DoubleWord.low_pack l h, DoubleWord.high_pack l h⟩,
    DoubleWord.pack_low_high, bytesKept⟩

/-- Negative numbers and an odd one in a record of eight bytes, which is copied into a word. -/
theorem representations_lose_nothing_mixed :
    let mixed : Layout :=
      [("k", .integer (.twosComplement 32)), ("s", .integer (.unsigned 16)),
        ("p", .integer (.unsigned 8)), ("q", .integer (.twosComplement 8))]
    let word : Layout := [("word", .integer (.unsigned 64))]
    let v : mixed.Values := (.wrap _ (-2), .wrap _ 513, .wrap _ 255, .wrap _ (-128), ())
    let u : word.Values := (.wrap _ 0x80ff0201fffffffe, ())
    mixed.bytes = word.bytes ∧ mixed.Whole ∧ word.Whole ∧ word.Dense ∧
      mixed.recast? word v = .ok u ∧ word.recast? mixed u = .ok v := by
  intro mixed word v u
  have same : mixed.bytes = word.bytes := by decide
  have wholeLeft : mixed.Whole := by decide
  have wholeRight : word.Whole := by decide
  have dense : word.Dense := by decide
  have made : mixed.recast? word v = .ok u := rfl
  obtain ⟨u', copied, -, back⟩ :=
    representations_lose_nothing.2.2.2.recast mixed word same wholeLeft wholeRight dense v
  obtain rfl : u' = u := Except.ok.inj (copied.symm.trans made)
  exact ⟨same, wholeLeft, wholeRight, dense, made, back⟩

end OrderedAtomics
