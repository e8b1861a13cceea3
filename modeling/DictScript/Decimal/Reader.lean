import DictScript.Decimal.Shortest

/-!
Reading numerals: an optional sign, then digits with a point anywhere and an exponent, or the name
of infinity or of no number. The result is the nearest double.
-/
namespace DictScript.Decimal

/-- The nearest double. Far outside the range the answer is known without the power of ten. -/
def toFloat (d : Decimal) : Float :=
  let top := d.exp + digitCount d.digits
  if d.digits = 0 ∨ top < -330 then 0
  else if 310 < top then 1 / 0
  else Binary64.nearest (d.digits * tenPow d.exp.toNat) (tenPow (-d.exp).toNat)

def digitValue (c : Char) : Nat := c.toNat - '0'.toNat

def ofDigits (cs : List Char) : Nat :=
  cs.foldl (fun n c => 10 * n + digitValue c) 0

def readNat? (cs : List Char) : Option Nat :=
  if cs ≠ [] ∧ cs.all Char.isDigit then some (ofDigits cs) else none

def readExponent? : List Char → Option Int
  | [] => some 0
  | c :: cs =>
    if c = 'e' ∨ c = 'E' then
      match cs with
      | '-' :: ds => (readNat? ds).map fun n => -(n : Int)
      | '+' :: ds => (readNat? ds).map Int.ofNat
      | ds => (readNat? ds).map Int.ofNat
    else none

def readDecimal? (cs : List Char) : Option Decimal :=
  let whole := cs.takeWhile Char.isDigit
  let rest := cs.dropWhile Char.isDigit
  let (frac, rest) := match rest with
    | '.' :: ds => (ds.takeWhile Char.isDigit, ds.dropWhile Char.isDigit)
    | ds => ([], ds)
  if whole = [] ∧ frac = [] then none
  else (readExponent? rest).map fun e => ⟨ofDigits (whole ++ frac), e - frac.length⟩

def readSize? (cs : List Char) : Option Float :=
  let name := cs.map Char.toLower
  if name = "inf".toList ∨ name = "infinity".toList then some (1 / 0)
  else if name = "nan".toList then some (0 / 0)
  else (readDecimal? cs).map toFloat

end DictScript.Decimal

namespace DictScript

def readFloat? (s : String) : Option Float :=
  match s.toList with
  | '-' :: cs => (Decimal.readSize? cs).map (-·)
  | '+' :: cs => Decimal.readSize? cs
  | cs => Decimal.readSize? cs

/-- A whole number, a plus sign allowed. -/
def readIndex? (s : String) : Option Nat :=
  match s.toList with
  | '+' :: cs => Decimal.readNat? cs
  | cs => Decimal.readNat? cs

end DictScript
