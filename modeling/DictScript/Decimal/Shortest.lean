import DictScript.Decimal.Binary64

/-!
The decimal with the fewest digits that reads back as a given double, and of those the nearest.
-/
namespace DictScript

/-- The number `digits * 10 ^ exp`. -/
structure Decimal where
  digits : Nat
  exp : Int
deriving DecidableEq, Repr

namespace Decimal

def tenPow (n : Nat) : Nat := Nat.pow 10 n

inductive Tie where
  | up | even

/-- Decimals on the grid `10 ^ k` against the reals that round to one double. With `unit` for one
grid step, `value`, `low` and `high` are the double and the ends of its interval, all in one
common scale. -/
structure Grid where
  unit : Nat
  value : Nat
  low : Nat
  high : Nat
  closed : Bool

/-- The interval reaches half way to the neighbours; below a power of two the lower neighbour is
twice as near. Its ends belong to it when the significand is even. -/
def Grid.of (b : Binary64) (k : Int) : Grid :=
  let below := if b.mant = Binary64.hidden ∧ Binary64.minExp < b.exp then 1 else 2
  -- a quarter of the last place
  let e := b.exp - 2
  let step := tenPow (-k).toNat <<< e.toNat
  { unit := tenPow k.toNat <<< (-e).toNat
    value := 4 * b.mant * step
    low := (4 * b.mant - below) * step
    high := (4 * b.mant + 2) * step
    closed := b.mant % 2 = 0 }

def Grid.holds (g : Grid) (c : Nat) : Bool :=
  if g.closed then g.low ≤ c * g.unit ∧ c * g.unit ≤ g.high
  else g.low < c * g.unit ∧ c * g.unit < g.high

def Grid.hit (g : Grid) (tie : Tie) : Option Nat :=
  let c := g.value / g.unit
  match g.holds c, g.holds (c + 1) with
  | false, false => none
  | true, false => some c
  | false, true => some (c + 1)
  | true, true =>
    let middle := (2 * c + 1) * g.unit
    if 2 * g.value < middle then some c
    else if middle < 2 * g.value then some (c + 1)
    else match tie with
      | .up => some (c + 1)
      | .even => some (if c % 2 = 0 then c else c + 1)

def digitCount (n : Nat) : Nat :=
  if n < 10 then 1 else digitCount (n / 10) + 1

/-- Number of digits in front of the point, negative for leading zeros behind it. -/
def pointPlace (b : Binary64) : Int :=
  -- every positive double times 10 ^ 324 is at least one
  digitCount ((b.mant * tenPow 324) <<< b.exp.toNat >>> (-b.exp).toNat) - 324

/-- Grids get finer from one digit to seventeen; the first that hits the interval wins. -/
def shortest (tie : Tie) (b : Binary64) : Decimal :=
  let place := pointPlace b
  let found := (List.range 17).findSome? fun (i : Nat) =>
    let k := place - 1 - i
    ((Grid.of b k).hit tie).map fun c => Decimal.mk c k
  match found with
  | none => ⟨0, 0⟩
  | some d => if d.digits % 10 = 0 then ⟨d.digits / 10, d.exp + 1⟩ else d

end Decimal
end DictScript
