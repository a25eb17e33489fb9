import OrderedAtomics.Json.Value

/-! Reading data files: values nested at most so deep, strict strings and numbers, and nothing
after the value. -/

namespace OrderedAtomics.Json

def isBlank (c : Char) : Bool := c == ' ' || c == '\n' || c == '\t' || c == '\r'

def skipBlanks (s : List Char) : List Char := s.dropWhile isBlank

def hexDigit? (c : Char) : Option Nat :=
  if c.isDigit then some (c.toNat - '0'.toNat)
  else if 'a' ≤ c && c ≤ 'f' then some (c.toNat - 'a'.toNat + 10)
  else if 'A' ≤ c && c ≤ 'F' then some (c.toNat - 'A'.toNat + 10)
  else none

/-- A code unit from its four digits. -/
def codeUnit? (a b c d : Char) : Option Nat := do
  let a ← hexDigit? a
  let b ← hexDigit? b
  let c ← hexDigit? c
  let d ← hexDigit? d
  return ((a * 16 + b) * 16 + c) * 16 + d

/-- The character of an escape letter. -/
def simpleEscape? : Char → Option Char
  | '"' => some '"'
  | '\\' => some '\\'
  | '/' => some '/'
  | 'b' => some '\x08'
  | 'f' => some '\x0c'
  | 'n' => some '\n'
  | 'r' => some '\r'
  | 't' => some '\t'
  | _ => none

/-- The character of a pair of code units, high one first. -/
def pairedChar? (high low : Nat) : Option Char :=
  if 0xdc00 ≤ low && low < 0xe000 then
    some (Char.ofNat (0x10000 + (high - 0xd800) * 0x400 + (low - 0xdc00)))
  else none

/-- One character of a string, written plainly or as an escape. A code unit that stands for half a
character needs its other half. -/
def readChar : List Char → Option (Char × List Char)
  | '\\' :: 'u' :: a :: b :: c :: d :: rest => do
    let unit ← codeUnit? a b c d
    if unit < 0xd800 || 0xe000 ≤ unit then return (Char.ofNat unit, rest)
    else if 0xdc00 ≤ unit then none
    else match rest with
      | '\\' :: 'u' :: a :: b :: c :: d :: rest => do
        let low ← codeUnit? a b c d
        let ch ← pairedChar? unit low
        return (ch, rest)
      | _ => none
  | '\\' :: c :: rest => (simpleEscape? c).map fun ch => (ch, rest)
  | c :: rest => if c = '"' || c = '\\' || c.toNat < 0x20 then none else some (c, rest)
  | [] => none

/-- The characters of a string after its opening quote, at most `n` of them. -/
def readChars : Nat → List Char → Option (List Char × List Char)
  | 0, _ => none
  | n + 1, s =>
    match s with
    | '"' :: rest => some ([], rest)
    | _ => do
      let (c, rest) ← readChar s
      let (cs, rest) ← readChars n rest
      return (c :: cs, rest)

/-- A string after its opening quote. -/
def readString (s : List Char) : Option (String × List Char) :=
  (readChars s.length s).map fun r => (String.ofList r.1, r.2)

/-- Values inside values inside values, this deep and no deeper. -/
abbrev depthLimit : Nat := 127

/-- The text after a word, if it begins with it. -/
def afterWord : List Char → List Char → Option (List Char)
  | [], s => some s
  | w :: word, c :: s => if w = c then afterWord word s else none
  | _ :: _, [] => none

/-- The text from the next item of a list on, or the text after the list. An item that is not the
first comes after a comma, and no comma comes before the end. -/
def nextItem (close : Char) (first : Bool) (s : List Char) : Option (List Char ⊕ List Char) :=
  match skipBlanks s with
  | [] => none
  | c :: rest =>
    if c = close then some (.inr rest)
    else if first then some (.inl (c :: rest))
    else if c = ',' then
      match skipBlanks rest with
      | [] => none
      | d :: rest => if d = close then none else some (.inl (d :: rest))
    else none

mutual

/-- A value, reading at most `n` characters deep into the text. -/
def readValue : Nat → Nat → List Char → Option (Value × List Char)
  | 0, _, _ => none
  | n + 1, depth, s =>
    match skipBlanks s with
    | 'n' :: rest => (afterWord ['u', 'l', 'l'] rest).map fun s => (.null, s)
    | 't' :: rest => (afterWord ['r', 'u', 'e'] rest).map fun s => (.bool true, s)
    | 'f' :: rest => (afterWord ['a', 'l', 's', 'e'] rest).map fun s => (.bool false, s)
    | '"' :: rest => (readString rest).map fun r => (.string r.1, r.2)
    | '[' :: rest =>
      match depth with
      | 0 => none
      | depth + 1 => (readElements n depth true rest).map fun r => (.array r.1, r.2)
    | '\x7b' :: rest =>
      match depth with
      | 0 => none
      | depth + 1 => (readFields n depth true rest).map fun r => (.object r.1, r.2)
    | s => (Number.read s).map fun r => (.number r.1, r.2)

/-- The elements of an array after its bracket. -/
def readElements : Nat → Nat → Bool → List Char → Option (List Value × List Char)
  | 0, _, _, _ => none
  | n + 1, depth, first, s =>
    match nextItem ']' first s with
    | none => none
    | some (.inr rest) => some ([], rest)
    | some (.inl s) =>
      match readValue n depth s with
      | none => none
      | some (v, rest) => (readElements n depth false rest).map fun r => (v :: r.1, r.2)

/-- The fields of an object after its brace. -/
def readFields : Nat → Nat → Bool → List Char → Option (List (String × Value) × List Char)
  | 0, _, _, _ => none
  | n + 1, depth, first, s =>
    match nextItem '\x7d' first s with
    | none => none
    | some (.inr rest) => some ([], rest)
    | some (.inl ('"' :: s)) =>
      match readString s with
      | none => none
      | some (name, rest) =>
        match skipBlanks rest with
        | ':' :: rest =>
          match readValue n depth rest with
          | none => none
          | some (v, rest) => (readFields n depth false rest).map fun r => ((name, v) :: r.1, r.2)
        | _ => none
    | some (.inl _) => none

end

/-- The value that a whole text stands for. -/
def read? (text : String) : Option Value :=
  let s := text.toList
  match readValue (s.length + 1) depthLimit s with
  | some (v, rest) => if (skipBlanks rest).isEmpty then some v else none
  | none => none

end OrderedAtomics.Json
