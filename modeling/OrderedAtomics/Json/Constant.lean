import OrderedAtomics.Floating.Text
import OrderedAtomics.Json.Reader
import OrderedAtomics.Text.Quoted

/-! Named constants in data files: a string with the name, or an object with the name as its only
field and nothing as its value. -/

namespace OrderedAtomics.Json

/-- What was found where something else was wanted. -/
inductive Found where
  | null
  | bool (b : Bool)
  | number (n : Number)
  | string (s : String)
  | sequence
  | map
  deriving DecidableEq, Repr

inductive ConstantError where
  | malformed
  | unknown (name : String) (known : List String)
  | unexpected (found : Found) (wanted : String)
  deriving DecidableEq, Repr

def Number.text : Number → String
  | natural n => "integer `" ++ toString n ++ "`"
  | negative i => "integer `" ++ toString i ++ "`"
  | float d => "floating point `" ++ d.dataText ++ "`"

def Found.text : Found → String
  | null => "null"
  | bool b => "boolean `" ++ Text.truth b ++ "`"
  | number n => n.text
  | string s => "string " ++ Text.quoted s
  | sequence => "sequence"
  | map => "map"

def ConstantError.message : ConstantError → String
  | malformed => "malformed text"
  | unknown name known =>
    "unknown variant `" ++ name ++ "`, expected one of " ++
      String.intercalate ", " (known.map fun k => "`" ++ k ++ "`")
  | unexpected found wanted => "invalid type: " ++ found.text ++ ", expected " ++ wanted

/-- Looks at a value just far enough to say what it is. -/
def found? (s : List Char) : Option Found :=
  match s with
  | 'n' :: rest => (afterWord ['u', 'l', 'l'] rest).map fun _ => .null
  | 't' :: rest => (afterWord ['r', 'u', 'e'] rest).map fun _ => .bool true
  | 'f' :: rest => (afterWord ['a', 'l', 's', 'e'] rest).map fun _ => .bool false
  | '"' :: rest => (readString rest).map fun r => .string r.1
  | '[' :: _ => some .sequence
  | '\x7b' :: _ => some .map
  | s => (Number.read s).map fun r => .number r.1

/-- The error for a value that is not what was wanted. -/
def unexpectedAt {α : Type} (wanted : String) (s : List Char) : Except ConstantError α :=
  match found? s with
  | some found => .error (.unexpected found wanted)
  | none => .error .malformed

/-- The constant named by the string whose opening quote has been read. -/
def readName {α : Type} (constants : List (String × α)) (s : List Char) :
    Except ConstantError (α × List Char) :=
  match readString s with
  | none => .error .malformed
  | some (name, rest) =>
    match constants.find? fun c => c.1 == name with
    | some c => .ok (c.2, rest)
    | none => .error (.unknown name (constants.map (·.1)))

/-- The rest of an object after the name of its field: nothing as a value, and the end. -/
def readEmptyField (s : List Char) : Except ConstantError (List Char) :=
  match skipBlanks s with
  | ':' :: rest =>
    match skipBlanks rest with
    | 'n' :: rest =>
      match afterWord ['u', 'l', 'l'] rest with
      | some rest =>
        match skipBlanks rest with
        | '\x7d' :: rest => .ok rest
        | _ => .error .malformed
      | none => .error .malformed
    | s => unexpectedAt "unit" s
  | _ => .error .malformed

/-- A constant at the front of a text. -/
def readFront {α : Type} (constants : List (String × α)) (s : List Char) :
    Except ConstantError (α × List Char) :=
  match skipBlanks s with
  | '"' :: rest => readName constants rest
  | '\x7b' :: rest =>
    match skipBlanks rest with
    | '"' :: rest => do
      let (value, rest) ← readName constants rest
      let rest ← readEmptyField rest
      return (value, rest)
    | _ => .error .malformed
  | _ => .error .malformed

/-- The constant that a whole text names. -/
def readConstant {α : Type} (constants : List (String × α)) (text : String) :
    Except ConstantError α := do
  let (value, rest) ← readFront constants text.toList
  if (skipBlanks rest).isEmpty then return value else .error .malformed

end OrderedAtomics.Json
