import OrderedAtomics.Floating.Text
import OrderedAtomics.Json.Value

/-! Writing data files: strings with their escapes, objects with one field a line, and values
without any blanks. -/

namespace OrderedAtomics.Json

/-- The form of a character in a string. Only quotes, backslashes and control characters need an
escape. -/
def escapeChar (c : Char) : List Char :=
  if c = '"' || c = '\\' then ['\\', c]
  else if c = '\x08' then ['\\', 'b']
  else if c = '\x0c' then ['\\', 'f']
  else if c = '\n' then ['\\', 'n']
  else if c = '\r' then ['\\', 'r']
  else if c = '\t' then ['\\', 't']
  else if c.toNat < 0x20 then
    let digits := Nat.toDigits 16 c.toNat
    ['\\', 'u'] ++ List.replicate (4 - digits.length) '0' ++ digits
  else [c]

def string (s : String) : String :=
  String.ofList ('"' :: s.toList.flatMap escapeChar ++ ['"'])

/-- A floating-point number. What is not a number has no value. -/
def double (d : Double) : String :=
  match d.value with
  | .finite .. => d.dataText
  | _ => "null"

/-- An object at some depth of nesting, two spaces a level; one without fields stays on its line. -/
def object (depth : Nat) (fields : List (String × String)) : String :=
  match fields with
  | [] => "\x7b\x7d"
  | _ =>
    let line (level : Nat) := "\n" ++ String.ofList (List.replicate (2 * level) ' ')
    "\x7b" ++
      String.intercalate "," (fields.map fun f => line (depth + 1) ++ string f.1 ++ ": " ++ f.2) ++
      line depth ++ "\x7d"

def Number.compact : Number → String
  | natural n => toString n
  | negative i => toString i
  | float d => double d

mutual

/-- A value on one line. -/
def Value.compact : Value → String
  | .null => "null"
  | .bool b => if b then "true" else "false"
  | .number n => n.compact
  | .string s => string s
  | .array vs => "[" ++ String.intercalate "," (compactElements vs) ++ "]"
  | .object fs => "\x7b" ++ String.intercalate "," (compactFields fs) ++ "\x7d"

def compactElements : List Value → List String
  | [] => []
  | v :: rest => v.compact :: compactElements rest

def compactFields : List (String × Value) → List String
  | [] => []
  | (name, v) :: rest => (string name ++ ":" ++ v.compact) :: compactFields rest

end

end OrderedAtomics.Json
