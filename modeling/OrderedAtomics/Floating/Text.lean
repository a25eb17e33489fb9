import OrderedAtomics.Floating.Shortest

/-! Texts of floating-point values: the shortest digits, positional or with an exponent, and a fixed
number of places. -/

namespace OrderedAtomics

/-- The choices of a format for shortest digits. -/
structure FloatStyle where
  /-- Values whose point stands this many places left of the first digit take an exponent. -/
  exponentFrom : Int
  /-- Of two shortest texts at the same distance the upper one is taken, else the even one. -/
  tieUp : Bool
  /-- A positive exponent has its sign written. -/
  plus : Bool

namespace FloatStyle

/-- The text of a value in a listing of a structure: an exponent below `0.0001`, as in `1e16`. -/
def listing : FloatStyle := ⟨-4, true, false⟩

/-- The text of a number in a data file: an exponent below `0.00001`, as in `1e+16`. -/
def data : FloatStyle := ⟨-5, false, true⟩

/-- Digits before the point up to which no exponent is used. -/
abbrev mostWhole : Int := 16

/-- The digits of a value whose point comes after `point` of them. -/
def layout (s : FloatStyle) (digits : List Char) (point : Int) : String :=
  if s.exponentFrom < point && point ≤ mostWhole then
    if point ≤ 0 then
      String.ofList (['0', '.'] ++ List.replicate (-point).toNat '0' ++ digits)
    else if digits.length ≤ point then
      String.ofList (digits ++ List.replicate (point - digits.length).toNat '0' ++ ['.', '0'])
    else String.ofList (digits.take point.toNat ++ ['.'] ++ digits.drop point.toNat)
  else
    let fraction := match digits.drop 1 with
      | [] => []
      | rest => '.' :: rest
    let exponent := point - 1
    String.ofList (digits.take 1 ++ fraction ++ ['e']) ++
      (if s.plus && 0 ≤ exponent then "+" else "") ++ toString exponent

end FloatStyle

def signText (negative : Bool) : String := if negative then "-" else ""

/-- The shortest text that reads back, with a point or an exponent in it. -/
def Floating.text (f : FloatFormat) (s : FloatStyle) : Floating → String
  | .nan => "NaN"
  | .infinite negative => signText negative ++ "inf"
  | .finite negative 0 _ => signText negative ++ "0.0"
  | .finite negative m q =>
    let (digits, k) := Shortest.digits f s.tieUp m q
    signText negative ++ s.layout digits (digits.length + k)

/-- A quotient with a number of places after the point, a half going to the even neighbour. -/
def fixedText (places num den : Nat) : String :=
  let n := roundDiv (num * Nat.pow 10 places) den
  let whole := toString (n / Nat.pow 10 places)
  if places = 0 then whole
  else
    let rest := Nat.toDigits 10 (n % Nat.pow 10 places)
    whole ++ "." ++ String.ofList (List.replicate (places - rest.length) '0' ++ rest)

/-- A value with a number of places after the point; the sign stays on a value rounded to zero. -/
def Floating.fixed (places : Nat) : Floating → String
  | .nan => "NaN"
  | .infinite negative => signText negative ++ "inf"
  | .finite negative m q =>
    signText negative ++ fixedText places (m * Nat.pow 2 q.toNat) (Nat.pow 2 (-q).toNat)

/-- The value of a double in a listing. -/
def Double.text (d : Double) : String := d.value.text .double .listing

/-- The value of a double in a data file. -/
def Double.dataText (d : Double) : String := d.value.text .double .data

def Double.fixed (places : Nat) (d : Double) : String := d.value.fixed places

end OrderedAtomics
