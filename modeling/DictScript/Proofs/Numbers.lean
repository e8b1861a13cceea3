import Mathlib

/-!
Equality of doubles. Two of them are equal when they have the same rank, and the only double
without a rank is the one that is no number.
-/
namespace DictScript.Number
open Float.Model (UnpackedFloat)

/-- What the order of doubles compares: the sign of an infinity, nothing of a zero, and sign,
exponent and significand of the others. -/
inductive Rank where
  | infinity (positive : Bool)
  | zero
  | finite (positive : Bool) (mant : Nat) (exp : Int)
deriving DecidableEq

def isPositive : UnpackedFloat.Sign → Bool
  | .positive => true
  | .negative => false

def unpackedRank : UnpackedFloat → Option Rank
  | .infinity s => some (.infinity (isPositive s))
  | .notANumber => none
  | .zero _ => some .zero
  | .finite s m e _ => some (.finite (isPositive s) m e)

def rank (x : Float) : Option Rank := unpackedRank x.toModel.unpack

theorem lex_eq_iff (e k : Int) (m n : Nat) :
    (compare e k).then (compare m n) = .eq ↔ e = k ∧ m = n := by
  rw [Ordering.then_eq_eq, compare_eq_iff_eq, Nat.compare_eq_eq]

theorem compare_eq_iff (a b : UnpackedFloat) :
    a.compare b = some .eq ↔ ∃ r, unpackedRank a = some r ∧ unpackedRank b = some r := by
  cases a with
  | notANumber => simp [UnpackedFloat.compare, unpackedRank]
  | infinity s =>
    cases b with
    | infinity t => cases s <;> cases t <;> decide
    | _ => cases s <;> simp [UnpackedFloat.compare, unpackedRank]
  | zero s =>
    cases b with
    | infinity t | finite t => cases t <;> simp [UnpackedFloat.compare, unpackedRank]
    | _ => simp [UnpackedFloat.compare, unpackedRank]
  | finite s m e hm =>
    cases b with
    | finite t n k hn =>
      have h := lex_eq_iff e k m n
      cases s <;> cases t <;>
        simp [UnpackedFloat.compare, unpackedRank, isPositive, h, Ordering.swap_eq_eq, and_comm]
      all_goals rw [eq_comm (a := e), eq_comm (a := m)]
    | infinity t => cases s <;> cases t <;> simp [UnpackedFloat.compare, unpackedRank]
    | _ => cases s <;> simp [UnpackedFloat.compare, unpackedRank]

theorem beq_iff (x y : Float) : (x == y) = true ↔ ∃ r, rank x = some r ∧ rank y = some r := by
  rw [rank, rank, ← compare_eq_iff]
  change (x.toModel.unpack.compare y.toModel.unpack == some .eq) = true ↔ _
  exact beq_iff_eq

theorem beq_comm (x y : Float) : (x == y) = (y == x) := by
  rw [Bool.eq_iff_iff, beq_iff, beq_iff]
  simp only [and_comm]

theorem beq_trans {x y z : Float} (hxy : (x == y) = true) (hyz : (y == z) = true) :
    (x == z) = true := by
  obtain ⟨r, hx, hy⟩ := (beq_iff x y).mp hxy
  obtain ⟨s, hy', hz⟩ := (beq_iff y z).mp hyz
  have hrs : r = s := by simpa [hy] using hy'
  exact (beq_iff x z).mpr ⟨r, hx, hrs ▸ hz⟩

theorem rank_eq_none_iff (x : Float) : rank x = none ↔ x.isNaN = true := by
  change unpackedRank x.toModel.unpack = none ↔ x.toModel.unpack.isNaN = true
  cases x.toModel.unpack <;> simp [unpackedRank, UnpackedFloat.isNaN]

theorem beq_self {x : Float} (h : x.isNaN = false) : (x == x) = true := by
  rw [beq_iff]
  cases hr : rank x with
  | none =>
    rw [(rank_eq_none_iff x).mp hr] at h
    cases h
  | some r => exact ⟨r, rfl, rfl⟩

end DictScript.Number
