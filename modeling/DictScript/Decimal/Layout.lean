import DictScript.Decimal.Shortest

/-!
How numbers are written: printed without an exponent, frozen with one when it is large or small.
-/
namespace DictScript.Decimal

def digitText (n : Nat) : List Char := Nat.toDigits 10 n

def positional (d : Decimal) : List Char :=
  let ds := digitText d.digits
  if 0 ≤ d.exp then ds ++ List.replicate d.exp.toNat '0'
  else
    let places := (-d.exp).toNat
    if places < ds.length then ds.take (ds.length - places) ++ '.' :: ds.drop (ds.length - places)
    else '0' :: '.' :: List.replicate (places - ds.length) '0' ++ ds

def scientific (d : Decimal) : List Char :=
  let ds := digitText d.digits
  let e := d.exp + ds.length - 1
  let fraction := if ds.length = 1 then [] else '.' :: ds.drop 1
  let mark := if 0 ≤ e then ['e', '+'] else ['e', '-']
  ds.take 1 ++ fraction ++ mark ++ digitText e.natAbs

/-- Frozen layout: positional for exponents -5 to 15, and then a whole number keeps `.0`. -/
def frozen (d : Decimal) : List Char :=
  let e := d.exp + (digitText d.digits).length - 1
  if -5 ≤ e ∧ e ≤ 15 then
    if 0 ≤ d.exp then positional d ++ ['.', '0'] else positional d
  else scientific d

end DictScript.Decimal

namespace DictScript

def writeFloat (tie : Decimal.Tie) (layout : Decimal → List Char) (zero : List Char) (x : Float) :
    String :=
  if x.isNaN then "NaN" else
  let sign := if Binary64.isNegative x then ['-'] else []
  let size :=
    if x.isInf then ['i', 'n', 'f']
    else if x == 0 then zero
    else layout (Decimal.shortest tie (Binary64.ofFloat x))
  String.ofList (sign ++ size)

/-- Printed numbers: `1e21` is written with all its zeros. -/
def printFloat : Float → String := writeFloat .up Decimal.positional ['0']

def freezeFloat : Float → String := writeFloat .even Decimal.frozen ['0', '.', '0']

end DictScript
