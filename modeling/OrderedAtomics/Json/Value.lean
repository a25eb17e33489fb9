import OrderedAtomics.Json.Number

/-! The values of a data file. -/

namespace OrderedAtomics.Json

inductive Value where
  | null
  | bool (b : Bool)
  | number (n : Number)
  | string (s : String)
  | array (elements : List Value)
  /-- The fields as written, a name possibly more than once. -/
  | object (fields : List (String × Value))

namespace Value

/-- The value of a field; of several with the same name the last one counts. -/
def get? (v : Value) (name : String) : Option Value :=
  match v with
  | .object fields => (fields.reverse.find? fun f => f.1 == name).map (·.2)
  | _ => none

def toDouble? : Value → Option Double
  | .number n => some n.toDouble
  | _ => none

def text? : Value → Option String
  | .string s => some s
  | _ => none

def bool? : Value → Option Bool
  | .bool b => some b
  | _ => none

/-- The elements of an array; nothing else has any. -/
def elements : Value → List Value
  | .array vs => vs
  | _ => []

end Value

end OrderedAtomics.Json
