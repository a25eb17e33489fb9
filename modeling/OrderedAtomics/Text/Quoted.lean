import OrderedAtomics.Text.Visible

/-! Texts in quotes, with the quote, the backslash and every character without a visible form
written as an escape; and the text of a structure from the texts of its fields. -/

namespace OrderedAtomics.Text

/-- A code point in hexadecimal, as short as it can be. -/
def escapeNumber (c : Char) : List Char :=
  ['\\', 'u', '\x7b'] ++ Nat.toDigits 16 c.toNat ++ ['\x7d']

/-- The form of one character inside quotes. -/
def escapeChar (c : Char) : List Char :=
  if c = '\x00' then ['\\', '0']
  else if c = '\t' then ['\\', 't']
  else if c = '\r' then ['\\', 'r']
  else if c = '\n' then ['\\', 'n']
  else if c = '\\' || c = '"' then ['\\', c]
  else if isShown c then [c]
  else escapeNumber c

def quoted (s : String) : String :=
  String.ofList ('"' :: s.toList.flatMap escapeChar ++ ['"'])

/-- Items in brackets. -/
def listed (items : List String) : String := "[" ++ String.intercalate ", " items ++ "]"

/-- A structure and its named fields in braces. -/
def structured (name : String) (fields : List (String × String)) : String :=
  name ++ " \x7b " ++ String.intercalate ", " (fields.map fun f => f.1 ++ ": " ++ f.2) ++ " \x7d"

/-- A structure that shows only some of its fields. -/
def abridged (name : String) (fields : List (String × String)) : String :=
  name ++ " \x7b " ++ String.join (fields.map fun f => f.1 ++ ": " ++ f.2 ++ ", ") ++ ".. \x7d"

/-- A structure with one field and no name for it. -/
def wrapped (name inner : String) : String := name ++ "(" ++ inner ++ ")"

def truth (b : Bool) : String := if b then "true" else "false"

/-- An address in hexadecimal. -/
def address (a : Nat) : String := "0x" ++ String.ofList (Nat.toDigits 16 a)

end OrderedAtomics.Text
