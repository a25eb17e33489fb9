import Mathlib.Data.List.Forall2
import OrderedAtomics.Proofs.Json.Number

/-! What is printed into a data file is read from it: strings with their escapes, numbers, and objects with
one field a line. The reader has as many steps as the text has characters, and never needs more. -/

namespace OrderedAtomics.Json

variable {rest : List Char}

/-! ### Strings -/

/-- The four digits of a control character. -/
theorem codeUnit?_toDigits : ∀ n < 32, ∃ a b c d,
    List.replicate (4 - (Nat.toDigits 16 n).length) '0' ++ Nat.toDigits 16 n = [a, b, c, d] ∧
      codeUnit? a b c d = some n := by
  have digits : ∀ n < 32, List.replicate (4 - (Nat.toDigits 16 n).length) '0' ++ Nat.toDigits 16 n =
      ['0', '0', Nat.digitChar (n / 16), Nat.digitChar (n % 16)] := by decide
  have value : ∀ n < 32, codeUnit? '0' '0' (Nat.digitChar (n / 16)) (Nat.digitChar (n % 16)) = some n := by
    decide
  exact fun n small => ⟨_, _, _, _, digits n small, value n small⟩

theorem readChar_unit {a b c d : Char} {n : ℕ} (value : codeUnit? a b c d = some n) (low : n < 0xd800) :
    readChar ('\\' :: 'u' :: a :: b :: c :: d :: rest) = some (Char.ofNat n, rest) := by
  rw [readChar, value]
  simp [low]

theorem readChar_plain {c : Char} (quote : c ≠ '"') (backslash : c ≠ '\\') (graphic : ¬ c.toNat < 0x20) :
    readChar (c :: rest) = some (c, rest) := by
  unfold readChar
  split
  next e => exact absurd (List.cons.inj e).1 backslash
  next e => exact absurd (List.cons.inj e).1 backslash
  next e =>
    obtain ⟨rfl, rfl⟩ := List.cons.inj e
    rw [if_neg (by simp [quote, backslash, graphic])]
  next e => cases e

/-- A character is read from its form in a string. -/
theorem readChar_escapeChar (c : Char) (rest : List Char) :
    readChar (escapeChar c ++ rest) = some (c, rest) := by
  unfold escapeChar
  split_ifs with escaped backspace formFeed newline carriage tab control
  · simp only [Bool.or_eq_true, decide_eq_true_eq] at escaped
    rcases escaped with rfl | rfl <;> rfl
  · exact backspace ▸ rfl
  · exact formFeed ▸ rfl
  · exact newline ▸ rfl
  · exact carriage ▸ rfl
  · exact tab ▸ rfl
  · obtain ⟨a, b, d, e, digits, value⟩ := codeUnit?_toDigits c.toNat control
    dsimp only
    rw [List.append_assoc ['\\', 'u'], digits]
    refine (readChar_unit value (control.trans (by decide))).trans ?_
    rw [Char.ofNat_toNat]
    rfl
  · simp only [Bool.or_eq_true, decide_eq_true_eq, not_or] at escaped
    exact readChar_plain escaped.1 escaped.2 control

/-- The form of a character is no quote. -/
theorem exists_escapeChar (c : Char) : ∃ d others, escapeChar c = d :: others ∧ d ≠ '"' := by
  unfold escapeChar
  split_ifs with escaped
  all_goals try exact ⟨'\\', _, rfl, by decide⟩
  simp only [Bool.or_eq_true, decide_eq_true_eq, not_or] at escaped
  exact ⟨c, [], rfl, escaped.1⟩

theorem readChars_escape (cs : List Char) (n : ℕ) (enough : cs.length < n) :
    readChars n (cs.flatMap escapeChar ++ '"' :: rest) = some (cs, rest) := by
  induction cs generalizing n with
  | nil =>
    obtain ⟨n, rfl⟩ := Nat.exists_eq_add_of_le' enough
    rfl
  | cons c cs ih =>
    obtain ⟨n, rfl⟩ := Nat.exists_eq_add_of_le' (Nat.zero_lt_of_lt enough)
    obtain ⟨d, others, form, noQuote⟩ := exists_escapeChar c
    have step := readChar_escapeChar c (cs.flatMap escapeChar ++ '"' :: rest)
    rw [List.flatMap_cons, List.append_assoc]
    rw [form] at step ⊢
    unfold readChars
    split
    next e => exact absurd (List.cons.inj e).1 noQuote
    next =>
      rw [step, Option.bind_eq_bind, Option.bind_some]
      dsimp only
      rw [ih n (Nat.lt_of_succ_lt_succ enough)]
      rfl

theorem toList_string (s : String) : (string s).toList = '"' :: (s.toList.flatMap escapeChar ++ ['"']) := by
  rw [string, String.toList_ofList, List.cons_append]

/-- A string is read from its text. -/
theorem readString_string (s : String) (rest : List Char) :
    readString (s.toList.flatMap escapeChar ++ '"' :: rest) = some (s, rest) := by
  have length (cs : List Char) : cs.length ≤ (cs.flatMap escapeChar).length := by
    induction cs with
    | nil => exact le_rfl
    | cons c cs ih =>
      obtain ⟨d, others, form, -⟩ := exists_escapeChar c
      rw [List.flatMap_cons, form]
      simp only [List.cons_append, List.length_cons, List.length_append]
      omega
  unfold readString
  rw [readChars_escape _ _ (by have := length s.toList; rw [List.length_append, List.length_cons]; omega)]
  simp

/-! ### Values -/

/-- A text is read as a value of so many levels of nesting, by a reader that has the steps and the depth for
it. What comes after the text must not go on with a number. -/
def Reads (text : String) (v : Value) (levels : ℕ) : Prop :=
  ∀ ⦃n depth rest⦄, text.toList.length ≤ n → levels ≤ depth → Number.Ends rest →
    readValue n depth (text.toList ++ rest) = some (v, rest)

variable {text : String} {v : Value} {levels n depth : ℕ}

/-- A text that is all of the file. -/
theorem Reads.read? (reads : Reads text v levels) (flat : levels ≤ depthLimit) :
    Json.read? text = some v := by
  have whole := reads (Nat.le_succ _) flat (show Number.Ends [] from nofun)
  rw [List.append_nil] at whole
  unfold Json.read?
  dsimp only
  rw [whole]
  rfl

theorem reads_null : Reads "null" .null 0 := fun n _ _ enough _ _ => by
  obtain ⟨n, rfl⟩ := Nat.exists_eq_add_of_le' (show 1 ≤ n from le_trans (by decide) enough)
  rfl

theorem reads_string (s : String) : Reads (string s) (.string s) 0 := fun n _ rest enough _ _ => by
  rw [toList_string, List.length_cons] at enough
  obtain ⟨n, rfl⟩ := Nat.exists_eq_add_of_le' (Nat.zero_lt_of_lt enough)
  have step := readString_string s rest
  rw [toList_string, List.cons_append, List.append_assoc]
  show (readString _).map _ = _
  exact (congrArg (Option.map _) step).trans rfl

/-- What begins like a number is read as one. -/
theorem readValue_number {c : Char} (first : c = '-' ∨ c.isDigit) (n depth : ℕ) (s : List Char) :
    readValue (n + 1) depth (c :: s) = (Number.read (c :: s)).map fun r => (.number r.1, r.2) := by
  have graphic : ¬ isBlank c := fun blank => by
    simp only [isBlank, Bool.or_eq_true, beq_iff_eq] at blank
    rcases blank with ((rfl | rfl) | rfl) | rfl <;> exact absurd first (by decide)
  have skip : skipBlanks (c :: s) = c :: s := List.dropWhile_cons_of_neg graphic
  unfold readValue
  rw [skip]
  split
  case h_7 => rfl
  all_goals
    next e =>
      obtain ⟨rfl, -⟩ := List.cons.inj e
      exact absurd first (by decide)

/-- A finite double has a decimal number to which it is the nearest double as its value. Another one has no
value. -/
def Value.Stands (v : Value) (d : Double) : Prop :=
  match d.value with
  | .finite .. => ∃ x, v = .number (.float x) ∧ Number.StandsFor x d
  | _ => v = .null

theorem exists_reads_double (d : Double) : ∃ v, Reads (double d) v 0 ∧ v.Stands d := by
  unfold double Value.Stands
  cases value : d.value with
  | finite negative m q =>
    obtain ⟨x, stands, ⟨c, others, text, first⟩, read⟩ := Number.read_dataText value
    refine ⟨_, fun n depth rest enough _ ends => ?_, x, rfl, stands⟩
    have read := read rest ends
    dsimp only at enough ⊢
    rw [text] at enough read ⊢
    obtain ⟨n, rfl⟩ := Nat.exists_eq_add_of_le' (Nat.le_of_add_left_le enough)
    exact (readValue_number first n depth _).trans (congrArg (Option.map _) read)
  | infinite negative => exact ⟨.null, reads_null, rfl⟩
  | nan => exact ⟨.null, reads_null, rfl⟩

/-- The value that is found where a double is printed. -/
def shown (d : Double) : Value := (Json.read? (double d)).getD .null

theorem shown_eq {d : Double} (reads : Reads (double d) v 0) : shown d = v := by
  rw [shown, reads.read? (Nat.zero_le _), Option.getD_some]

theorem reads_double (d : Double) : Reads (double d) (shown d) 0 := by
  obtain ⟨v, reads, -⟩ := exists_reads_double d
  rwa [shown_eq reads]

theorem stands_shown (d : Double) : (shown d).Stands d := by
  obtain ⟨v, reads, stands⟩ := exists_reads_double d
  rwa [shown_eq reads]

/-! ### Objects -/

/-- A new line at a level of nesting. -/
def lineChars (level : ℕ) : List Char := '\n' :: List.replicate (2 * level) ' '

/-- A field after its first quote, and the text after it. -/
def quotedChars (f : String × String) (s : List Char) : List Char :=
  f.1.toList.flatMap escapeChar ++ '"' :: ':' :: ' ' :: (f.2.toList ++ s)

/-- A field on a line of its own, and the text after it. -/
def fieldChars (level : ℕ) (f : String × String) (s : List Char) : List Char :=
  lineChars level ++ '"' :: quotedChars f s

/-- Fields that are not the first ones, and the text after them. -/
def moreChars (level : ℕ) (fs : List (String × String)) (s : List Char) : List Char :=
  fs.foldr (fun f s => ',' :: fieldChars level f s) s

variable {f : String × String} {fs : List (String × String)} {es : List (String × Value)} {s : List Char}

theorem intercalate_fields (level : ℕ) (f : String × String) (fs : List (String × String)) (s : List Char) :
    [','].intercalate ((f :: fs).map fun f => fieldChars level f []) ++ s =
      fieldChars level f (moreChars level fs s) := by
  have append (f : String × String) (s : List Char) : fieldChars level f [] ++ s = fieldChars level f s := by
    simp [fieldChars, quotedChars]
  induction fs generalizing f with
  | nil => simp [append, moreChars]
  | cons g fs ih =>
    have more := ih g
    rw [List.map_cons] at more
    rw [List.map_cons, List.map_cons, List.intercalate_cons_cons, List.append_assoc, more, List.append_assoc,
      append]
    rfl

theorem toList_object (level : ℕ) (f : String × String) (fs : List (String × String)) (s : List Char) :
    (object level (f :: fs)).toList ++ s = '\x7b' :: fieldChars (level + 1) f
      (moreChars (level + 1) fs (lineChars level ++ '\x7d' :: s)) := by
  have field (f : String × String) : ("\n" ++ String.ofList (List.replicate (2 * (level + 1)) ' ') ++
      string f.1 ++ ": " ++ f.2).toList = fieldChars (level + 1) f [] := by
    simp [fieldChars, quotedChars, lineChars, toList_string]
  rw [← intercalate_fields]
  simp only [← field]
  unfold object
  simp only [String.toList_append, String.toList_intercalate, String.toList_ofList, List.map_map,
    Function.comp_def, List.append_assoc, lineChars]
  rfl

theorem skipBlanks_line {c : Char} (graphic : ¬ isBlank c) (level : ℕ) (s : List Char) :
    skipBlanks (lineChars level ++ c :: s) = c :: s := by
  have blank : ∀ d ∈ lineChars level, isBlank d := by
    intro d among
    rcases List.mem_cons.mp among with rfl | among
    · rfl
    · exact List.eq_of_mem_replicate among ▸ rfl
  exact (List.dropWhile_append_of_pos blank).trans (List.dropWhile_cons_of_neg graphic)

theorem nextItem_first (level : ℕ) (f : String × String) (s : List Char) :
    nextItem '\x7d' true (fieldChars level f s) = some (.inl ('"' :: quotedChars f s)) := by
  unfold nextItem fieldChars
  rw [skipBlanks_line (by decide)]
  rfl

theorem nextItem_more (level : ℕ) (f : String × String) (s : List Char) :
    nextItem '\x7d' false (',' :: fieldChars level f s) = some (.inl ('"' :: quotedChars f s)) := by
  have skip : skipBlanks (',' :: fieldChars level f s) = ',' :: fieldChars level f s :=
    List.dropWhile_cons_of_neg (by decide)
  unfold nextItem
  rw [skip]
  dsimp only
  rw [if_neg (by decide), if_neg Bool.false_ne_true, if_pos rfl, fieldChars, skipBlanks_line (by decide)]
  rfl

theorem nextItem_close (first : Bool) (level : ℕ) (s : List Char) :
    nextItem '\x7d' first (lineChars level ++ '\x7d' :: s) = some (.inr s) := by
  unfold nextItem
  rw [skipBlanks_line (by decide)]
  rfl

/-- A field is read, and then the rest of the object. -/
theorem readFields_field {item : List Char} {first : Bool}
    (next : nextItem '\x7d' first item = some (.inl ('"' :: quotedChars f s))) (reads : Reads f.2 v levels)
    (enough : f.2.toList.length ≤ n) (flat : levels ≤ depth) (ends : Number.Ends s) :
    readFields (n + 1) depth first item =
      (readFields n depth false s).map fun r => ((f.1, v) :: r.1, r.2) := by
  have colon : skipBlanks (':' :: ' ' :: (f.2.toList ++ s)) = ':' :: ' ' :: (f.2.toList ++ s) := rfl
  have blank : readValue n depth (' ' :: (f.2.toList ++ s)) = readValue n depth (f.2.toList ++ s) := by
    cases n <;> rfl
  have name : readString (quotedChars f s) = some (f.1, ':' :: ' ' :: (f.2.toList ++ s)) :=
    readString_string f.1 _
  simp only [readFields, next, name, colon, blank, reads enough flat ends]

/-- Fields and what they are read as. -/
abbrev FieldsRead (levels : ℕ) : List (String × String) → List (String × Value) → Prop :=
  List.Forall₂ fun f e => f.1 = e.1 ∧ Reads f.2 e.2 levels

theorem ends_moreChars (level level' : ℕ) (fs : List (String × String)) (rest : List Char) :
    Number.Ends (moreChars level fs (lineChars level' ++ '\x7d' :: rest)) := by
  intro c first
  cases fs <;>
    · obtain rfl := Option.some.inj first
      decide

theorem length_fieldChars (level : ℕ) (f : String × String) (s : List Char) :
    (fieldChars level f s).length = (fieldChars level f []).length + s.length ∧
      f.2.toList.length < (fieldChars level f []).length := by
  simp only [fieldChars, quotedChars, List.length_append, List.length_cons, List.length_nil]
  omega

theorem length_moreChars (level : ℕ) (fs : List (String × String)) (s : List Char) :
    (moreChars level fs s).length = (moreChars level fs []).length + s.length := by
  induction fs with
  | nil => simp [moreChars]
  | cons f fs ih =>
    obtain ⟨field, -⟩ := length_fieldChars level f (moreChars level fs s)
    obtain ⟨field', -⟩ := length_fieldChars level f (moreChars level fs [])
    show (fieldChars level f (moreChars level fs s)).length + 1 =
      (fieldChars level f (moreChars level fs [])).length + 1 + s.length
    omega

/-- The fields after the first one are read to the end of the object. -/
theorem readFields_more (reads : FieldsRead levels fs es) (flat : levels ≤ depth) (level level' : ℕ)
    (enough : (moreChars level fs []).length < n) :
    readFields n depth false (moreChars level fs (lineChars level' ++ '\x7d' :: rest)) = some (es, rest) := by
  obtain ⟨n, rfl⟩ := Nat.exists_eq_add_of_le' (Nat.zero_lt_of_lt enough)
  induction reads generalizing n with
  | nil =>
    show readFields (n + 1) depth false (lineChars level' ++ '\x7d' :: rest) = _
    rw [readFields, nextItem_close]
  | @cons f e fs es field reads ih =>
    obtain ⟨name, v⟩ := e
    obtain ⟨rfl, value⟩ : f.1 = name ∧ Reads f.2 v levels := field
    have split (s : List Char) :
        moreChars level (f :: fs) s = ',' :: fieldChars level f (moreChars level fs s) := rfl
    obtain ⟨field, short⟩ := length_fieldChars level f (moreChars level fs [])
    rw [split, List.length_cons] at enough
    obtain ⟨n, rfl⟩ := Nat.exists_eq_add_of_le' (show 1 ≤ n by omega)
    rw [split, readFields_field (nextItem_more level f _) value (by omega) flat (ends_moreChars _ _ _ _),
      ih n (by omega)]
    rfl

/-- An object is read from its text. -/
theorem reads_object (reads : FieldsRead levels fs es) (level : ℕ) :
    Reads (object level fs) (.object es) (levels + 1) := fun n depth rest enough deep _ => by
  obtain ⟨depth, rfl⟩ := Nat.exists_eq_add_of_le' (show 1 ≤ depth by omega)
  have flat := Nat.le_of_succ_le_succ deep
  have brace (n : ℕ) (s : List Char) : readValue (n + 1) (depth + 1) ('\x7b' :: s) =
      (readFields n depth true s).map fun r => (.object r.1, r.2) := rfl
  cases reads with
  | nil =>
    have text : (object level []).toList = ['\x7b', '\x7d'] := by simp [object]
    rw [text] at enough ⊢
    obtain ⟨n, rfl⟩ := Nat.exists_eq_add_of_le' enough
    rfl
  | @cons f e fs es field reads =>
    obtain ⟨name, v⟩ := e
    obtain ⟨rfl, value⟩ : f.1 = name ∧ Reads f.2 v levels := field
    have text := toList_object level f fs []
    rw [List.append_nil] at text
    obtain ⟨field, short⟩ :=
      length_fieldChars (level + 1) f (moreChars (level + 1) fs (lineChars level ++ ['\x7d']))
    have more := length_moreChars (level + 1) fs (lineChars level ++ ['\x7d'])
    rw [text, List.length_cons, field, more, List.length_append, List.length_singleton] at enough
    obtain ⟨n, rfl⟩ := Nat.exists_eq_add_of_le' (show 2 ≤ n by omega)
    rw [toList_object, brace,
      readFields_field (nextItem_first _ f _) value (by omega) flat (ends_moreChars _ _ _ _),
      readFields_more reads flat _ _ (by omega)]
    rfl

/-- The fields of a table whose entries are all printed in one way. -/
theorem fieldsRead_map {α : Type} {print : α → String} {value : α → Value}
    (reads : ∀ a, Reads (print a) (value a) levels) (t : List (String × α)) :
    FieldsRead levels (t.map fun e => (e.1, print e.2)) (t.map fun e => (e.1, value e.2)) := by
  rw [FieldsRead, List.forall₂_map_left_iff, List.forall₂_map_right_iff, List.forall₂_same]
  exact fun e _ => ⟨rfl, reads e.2⟩

end OrderedAtomics.Json
