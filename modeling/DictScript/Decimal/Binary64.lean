/-!
Finite doubles as whole numbers times powers of two, and the nearest double to a fraction.
-/
namespace DictScript

/-- The size of a finite double, `mant * 2 ^ exp`. -/
structure Binary64 where
  mant : Nat
  exp : Int
deriving DecidableEq, Repr

namespace Binary64

/-- The exponent of the smallest positive double; subnormals all have it. -/
def minExp : Int := -1074

/-- Significands of normal doubles start here. -/
def hidden : Nat := 1 <<< 52

def ofFloat (x : Float) : Binary64 :=
  let bits := x.toBits.toNat
  let field : Nat := bits / hidden % 2048
  let frac := bits % hidden
  if field = 0 then ⟨frac, minExp⟩ else ⟨hidden + frac, field + minExp - 1⟩

/-- The sign bit, which -0.0 has and 0.0 has not. -/
def isNegative (x : Float) : Bool :=
  x.toBits.toNat >>> 63 = 1

def whole? (b : Binary64) : Option Nat :=
  let n := b.mant <<< b.exp.toNat
  let d := 1 <<< (-b.exp).toNat
  if n % d = 0 then some (n / d) else none

/-- The double of this size, infinity beyond the largest exponent. A significand that reached the
next power of two carries into the exponent field by itself. -/
def toFloat (b : Binary64) : Float :=
  let bits := (b.exp - minExp).toNat * hidden + b.mant
  Float.ofBits (UInt64.ofNat (min bits (2047 * hidden)))

/-- Quotient rounded to the nearest whole number, a tie to the even one. -/
def divEven (num den : Nat) : Nat :=
  let q := num / den
  let twice := 2 * (num % den)
  if den < twice ∨ den = twice ∧ q % 2 = 1 then q + 1 else q

def inUnits (num den : Nat) (e : Int) : Nat × Nat :=
  (num <<< (-e).toNat, den <<< e.toNat)

/-- The double nearest to `num / den`, a tie to the even significand. -/
def nearest (num den : Nat) : Float :=
  if num = 0 then 0 else
  -- in these units the quotient lies between 2 ^ 52 and 2 ^ 54, or it is subnormal
  let low := max minExp ((num.log2 : Int) - den.log2 - 53)
  let (n, d) := inUnits num den low
  let e := if 2 * hidden ≤ n / d then low + 1 else low
  let (n, d) := inUnits num den e
  toFloat ⟨divEven n d, e⟩

end Binary64
end DictScript
