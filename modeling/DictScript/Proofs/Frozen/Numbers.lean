import DictScript.Proofs.Numbers
import DictScript.Frozen.Freeze

/-!
Numbers that are frozen are read back. A whole number of at most 53 bits is written without its
exponent, and the double nearest to it has just the bits it came from.
-/
namespace DictScript.Number
open Float.Model UnpackedFloat

/-! The bit fields of a double. -/

theorem toNat_unpackMantissa (b : BitVec 64) :
    (@unpackMantissa Format.binary64 b).toNat = b.toNat % 2 ^ 52 := by
  simp [unpackMantissa, BitVec.extractLsb_toNat]

theorem toNat_unpackExponent (b : BitVec 64) :
    (@unpackExponent Format.binary64 b).toNat = b.toNat / 2 ^ 52 % 2048 := by
  simp [unpackExponent, BitVec.extractLsb_toNat, Nat.shiftRight_eq_div_pow]

theorem toNat_unpackSign (b : BitVec 64) :
    (@unpackSign Format.binary64 b).toNat = b.toNat / 2 ^ 63 := by
  have := b.isLt
  simp [unpackSign, BitVec.extractLsb_toNat, Nat.shiftRight_eq_div_pow]
  omega

theorem toNat_append_one (m : BitVec 52) : (1#1 ++ m).toNat = 2 ^ 52 + m.toNat := by
  rw [BitVec.toNat_append, ← Nat.shiftLeft_add_eq_or_of_lt m.isLt]
  simp [Nat.shiftLeft_eq]

def sign (b : BitVec 64) : Sign := if b.toNat / 2 ^ 63 = 0 then .positive else .negative

theorem ofBitVec_unpackSign (b : BitVec 64) :
    Sign.ofBitVec (@unpackSign Format.binary64 b) = sign b := by
  rw [Sign.ofBitVec, sign, ← toNat_unpackSign]
  simp [← BitVec.toNat_inj]

/-- Doubles are unpacked by their bit fields. -/
theorem unpack_eq (b : BitVec 64) : unpack Format.binary64 b =
    if b.toNat / 2 ^ 52 % 2048 = 2047 then
      if b.toNat % 2 ^ 52 = 0 then .infinity (sign b) else .notANumber
    else if b.toNat / 2 ^ 52 % 2048 = 0 then
      if hm : b.toNat % 2 ^ 52 = 0 then .zero (sign b)
      else .finite (sign b) (b.toNat % 2 ^ 52) (-1074) (Nat.pos_of_ne_zero hm)
    else .finite (sign b) (2 ^ 52 + b.toNat % 2 ^ 52) ((b.toNat / 2 ^ 52 % 2048 : Nat) - 1075)
      (by omega) := by
  have hexp := toNat_unpackExponent b
  have hmant := toNat_unpackMantissa b
  have hexp₁ : @unpackExponent Format.binary64 b = -1#_ ↔
      b.toNat / 2 ^ 52 % 2048 = 2047 := by
    rw [← BitVec.toNat_inj, hexp]
    rfl
  have hexp₀ : @unpackExponent Format.binary64 b = 0#_ ↔
      b.toNat / 2 ^ 52 % 2048 = 0 := by
    rw [← BitVec.toNat_inj, hexp]
    rfl
  have hmant₀ : @unpackMantissa Format.binary64 b = 0#_ ↔ b.toNat % 2 ^ 52 = 0 := by
    rw [← BitVec.toNat_inj, hmant]
    rfl
  have hbias : (Format.binary64.exponentBias : Int) = 1023 := by decide
  rw [UnpackedFloat.unpack]
  simp only [ofBitVec_unpackSign, hexp₁, hexp₀, hmant₀, hexp, hmant, toNat_append_one, hbias]
  split
  · rfl
  · split
    · rename_i hzero
      simp only [hzero]
      rfl
    · rfl

/-- What is unpacked from a finite double: the significand has 53 bits, or the exponent is the
smallest. -/
def Canonical : UnpackedFloat → Prop
  | .zero _ => True
  | .finite _ m e _ => m < 2 ^ 53 ∧ -1074 ≤ e ∧ e ≤ 971 ∧ (2 ^ 52 ≤ m ∨ e = -1074)
  | _ => False

theorem canonical_unpack {b : BitVec 64}
    (hb : (UnpackedFloat.unpack Format.binary64 b).isFinite = true) :
    Canonical (UnpackedFloat.unpack Format.binary64 b) := by
  rw [unpack_eq] at hb ⊢
  split at hb
  · split at hb <;> cases hb
  · rename_i hinf
    rw [if_neg hinf]
    split
    · split
      · trivial
      · refine ⟨?_, ?_, ?_, .inr rfl⟩ <;> omega
    · refine ⟨?_, ?_, ?_, .inl ?_⟩ <;> omega

def signBit : Sign → Nat
  | .positive => 0
  | .negative => 1

theorem toNat_packComponents (s : Sign) (e : BitVec 11) (m : BitVec 52) :
    (packComponents Format.binary64 s e m).toNat =
      signBit s * 2 ^ 63 + (e.toNat * 2 ^ 52 + m.toNat) := by
  have hs : (s.toBitVec).toNat = signBit s := by cases s <;> rfl
  rw [packComponents, BitVec.toNat_append, BitVec.toNat_append, hs,
    ← Nat.shiftLeft_add_eq_or_of_lt m.isLt, ← Nat.shiftLeft_add_eq_or_of_lt e.isLt,
    Nat.shiftLeft_eq, Nat.shiftLeft_eq]
  ring

/-- The bits of a double count up with its size. -/
theorem toNat_pack {s : Sign} {m : Nat} {e : Int} {hm : 0 < m} (hc : Canonical (.finite s m e hm)) :
    (UnpackedFloat.pack Format.binary64 (.finite s m e hm)).toNat =
      signBit s * 2 ^ 63 + ((e + 1074).toNat * 2 ^ 52 + m) := by
  obtain ⟨hm53, hlow, hhigh, hnormal⟩ := hc
  have hbias : (Format.binary64.exponentBias : Int) = 1023 := by decide
  have hlog : m.log2 + 1 = Format.binary64.mantissaBits ↔ 2 ^ 52 ≤ m := by
    rw [show Format.binary64.mantissaBits = 53 from rfl]
    have hlt := (Nat.log2_lt hm.ne').mpr hm53
    rw [← Nat.le_log2 hm.ne']
    omega
  rw [UnpackedFloat.pack]
  simp only [hbias, hlog]
  rw [if_neg (by omega)]
  split
  · rw [toNat_packComponents, BitVec.toNat_ofNat, BitVec.toNat_ofNat]
    omega
  · rw [toNat_packComponents, BitVec.toNat_ofNat, BitVec.toNat_ofNat]
    omega

theorem unpack_of_toNat {b : BitVec 64} {s : Sign} {m : Nat} {e : Int} {hm : 0 < m}
    (hc : Canonical (.finite s m e hm))
    (hb : b.toNat = signBit s * 2 ^ 63 + ((e + 1074).toNat * 2 ^ 52 + m)) :
    UnpackedFloat.unpack Format.binary64 b = .finite s m e hm := by
  obtain ⟨hm53, hlow, hhigh, hnormal⟩ := hc
  have hsign : sign b = s := by
    rw [sign, hb]
    cases s with
    | positive => exact if_pos (by rw [signBit]; omega)
    | negative => exact if_neg (by rw [signBit]; omega)
  have hbit : signBit s ≤ 1 := by cases s <;> decide
  rw [unpack_eq, hsign, if_neg (by omega)]
  obtain hnormal | rfl := hnormal
  · rw [if_neg (by omega)]
    congr 1 <;> omega
  · by_cases hm52 : 2 ^ 52 ≤ m
    · rw [if_neg (by omega)]
      congr 1 <;> omega
    · rw [if_pos (by omega), dif_neg (by omega)]
      congr 1
      omega

theorem unpack_pack {u : UnpackedFloat} (hu : Canonical u) :
    UnpackedFloat.unpack Format.binary64 (UnpackedFloat.pack Format.binary64 u) = u := by
  cases u with
  | zero s => cases s <;> rfl
  | finite s m e hm => exact unpack_of_toNat hu (toNat_pack hu)
  | _ => exact hu.elim

/-! Doubles by sign and size. -/

theorem unpack_ofFloat {x : Float} (hx : x.isFinite = true) :
    x.toModel.unpack = if hm : (Binary64.ofFloat x).mant = 0 then .zero (sign x.toBits.toBitVec)
      else .finite (sign x.toBits.toBitVec) (Binary64.ofFloat x).mant (Binary64.ofFloat x).exp
        (Nat.pos_of_ne_zero hm) := by
  have hx : (UnpackedFloat.unpack Format.binary64 x.toBits.toBitVec).isFinite = true := hx
  show UnpackedFloat.unpack Format.binary64 x.toBits.toBitVec = _
  have hbits : x.toBits.toNat = x.toBits.toBitVec.toNat := rfl
  generalize x.toBits.toBitVec = b at hx hbits
  rw [unpack_eq] at hx ⊢
  simp only [Binary64.ofFloat, Binary64.hidden, hbits, Nat.one_shiftLeft, Binary64.minExp]
  split at hx
  · split at hx <;> cases hx
  · rename_i hinf
    rw [if_neg hinf]
    by_cases hfield : b.toNat / 2 ^ 52 % 2048 = 0
    · simp only [hfield, if_true]
    · simp only [hfield, if_false]
      rw [dif_neg (by omega)]
      congr 1
      omega

theorem canonical_ofFloat {x : Float} (hx : x.isFinite = true)
    (hm : 0 < (Binary64.ofFloat x).mant) :
    Canonical (.finite (sign x.toBits.toBitVec) _ (Binary64.ofFloat x).exp hm) := by
  have hcanonical : Canonical x.toModel.unpack := canonical_unpack hx
  rwa [unpack_ofFloat hx, dif_neg hm.ne'] at hcanonical

theorem unpack_toFloat {m : Nat} {e : Int} {hm : 0 < m}
    (hc : Canonical (.finite .positive m e hm)) :
    (Binary64.toFloat ⟨m, e⟩).toModel.unpack = .finite .positive m e hm := by
  let bits := min ((e - Binary64.minExp).toNat * Binary64.hidden + m) (2047 * Binary64.hidden)
  have hbits : (UInt64.ofNat bits).toBitVec.toNat =
      signBit .positive * 2 ^ 63 + ((e + 1074).toNat * 2 ^ 52 + m) := by
    obtain ⟨hm53, hlow, hhigh, hnormal⟩ := hc
    show (UInt64.ofNat bits).toNat = _
    rw [UInt64.toNat_ofNat']
    simp only [bits, Binary64.minExp, Binary64.hidden, Nat.one_shiftLeft, signBit]
    omega
  show UnpackedFloat.unpack Format.binary64 (UnpackedFloat.pack Format.binary64
    (UnpackedFloat.unpack Format.binary64 (UInt64.ofNat bits).toBitVec)) = _
  rw [unpack_of_toNat hc hbits]
  exact unpack_pack hc

theorem unpack_neg {x : Float} (hx : Canonical x.toModel.unpack) :
    (-x).toModel.unpack = x.toModel.unpack.neg := by
  refine unpack_pack ?_
  generalize x.toModel.unpack = u at hx ⊢
  cases u with
  | _ => exact hx

/-! Whole numbers. -/

theorem log2_mul_two_pow {n : Nat} (hn : n ≠ 0) (k : Nat) : (n * 2 ^ k).log2 = n.log2 + k := by
  induction k with
  | zero => simp
  | succ k ih =>
    have hne : n * 2 ^ k ≠ 0 := Nat.mul_ne_zero hn (Nat.two_pow_pos k).ne'
    rw [Nat.pow_succ, ← Nat.mul_assoc, Nat.mul_comm _ 2, Nat.log2_two_mul hne, ih]
    omega

theorem log2_of_scaled {m n : Nat} {e : Int} (hm : m ≠ 0) (hn : n ≠ 0)
    (heq : m * 2 ^ e.toNat = n * 2 ^ (-e).toNat) : (n.log2 : Int) = m.log2 + e := by
  have hlog := congrArg Nat.log2 heq
  rw [log2_mul_two_pow hm, log2_mul_two_pow hn] at hlog
  omega

theorem divEven_mul {m d : Nat} (hd : 0 < d) : Binary64.divEven (m * d) d = m := by
  simp [Binary64.divEven, Nat.mul_div_cancel m hd, hd.ne']

/-- The double nearest to a whole number that is one is that double. -/
theorem nearest_whole {m n : Nat} {e : Int} (hm : 2 ^ 52 ≤ m) (hm' : m < 2 ^ 53)
    (hn : m * 2 ^ e.toNat = n * 2 ^ (-e).toNat) :
    Binary64.nearest n 1 = Binary64.toFloat ⟨m, e⟩ := by
  have hn0 : n ≠ 0 := by
    rintro rfl
    have : 0 < m * 2 ^ e.toNat := Nat.mul_pos (by omega) (Nat.two_pow_pos _)
    omega
  have hlog : m.log2 = 52 := (Nat.log2_eq_iff (by omega)).mpr ⟨hm, hm'⟩
  have hlogn : (n.log2 : Int) = 52 + e := by
    rw [log2_of_scaled (by omega) hn0 hn, hlog]
    rfl
  have hlow : max Binary64.minExp ((n.log2 : Int) - (Nat.log2 1 : Nat) - 53) = e - 1 := by
    rw [hlogn, Binary64.minExp, show Nat.log2 1 = 0 from rfl]
    omega
  have hunits : Binary64.inUnits n 1 e = (m * 2 ^ e.toNat, 2 ^ e.toNat) := by
    rw [Binary64.inUnits, Nat.shiftLeft_eq, Nat.one_shiftLeft, hn]
  have hhalves : n * 2 ^ (-(e - 1)).toNat = 2 * m * 2 ^ (e - 1).toNat := by
    by_cases hpos : 1 ≤ e
    · have hsucc : e.toNat = (e - 1).toNat + 1 := by omega
      rw [show (-(e - 1)).toNat = (-e).toNat by omega, ← hn, hsucc, Nat.pow_succ]
      ring
    · have hsucc : (-(e - 1)).toNat = (-e).toNat + 1 := by omega
      rw [show (e - 1).toNat = e.toNat by omega, hsucc, Nat.pow_succ, ← Nat.mul_assoc, ← hn]
      ring
  have hquotient : (Binary64.inUnits n 1 (e - 1)).1 / (Binary64.inUnits n 1 (e - 1)).2 = 2 * m := by
    rw [Binary64.inUnits, Nat.shiftLeft_eq, Nat.one_shiftLeft, hhalves]
    exact Nat.mul_div_cancel _ (Nat.two_pow_pos _)
  have hcarry : 2 * Binary64.hidden ≤ 2 * m := by
    rw [Binary64.hidden, Nat.one_shiftLeft]
    omega
  rw [Binary64.nearest, if_neg hn0]
  simp only [hlow, hquotient, if_pos hcarry, Int.sub_add_cancel, hunits,
    divEven_mul (Nat.two_pow_pos _)]

theorem whole?_eq_some {b : Binary64} {n : Nat} (hn : b.whole? = some n) :
    b.mant * 2 ^ b.exp.toNat = n * 2 ^ (-b.exp).toNat := by
  simp only [Binary64.whole?, Nat.shiftLeft_eq, Nat.one_mul] at hn
  split at hn
  · rename_i hmod
    cases hn
    exact (Nat.div_mul_cancel (Nat.dvd_of_mod_eq_zero hmod)).symm
  · cases hn

/-- A finite double that is whole is the nearest to its size, but for its sign. -/
theorem unpack_nearest {x : Float} {n : Nat} (hx : x.isFinite = true)
    (hn : (Binary64.ofFloat x).whole? = some n) (hpos : n ≠ 0) :
    ∃ m e hm, x.toModel.unpack = .finite (sign x.toBits.toBitVec) m e hm ∧
      (Binary64.nearest n 1).toModel.unpack = .finite .positive m e hm := by
  have hwhole := whole?_eq_some hn
  have hm : 0 < (Binary64.ofFloat x).mant := by
    refine Nat.pos_of_ne_zero fun hzero => ?_
    have : 0 < n * 2 ^ (-(Binary64.ofFloat x).exp).toNat :=
      Nat.mul_pos (Nat.pos_of_ne_zero hpos) (Nat.two_pow_pos _)
    rw [hzero] at hwhole
    omega
  have hc := canonical_ofFloat hx hm
  obtain ⟨hm53, hlow, hhigh, hnormal⟩ := id hc
  -- the smallest doubles are not whole
  have hm52 : 2 ^ 52 ≤ (Binary64.ofFloat x).mant := by
    refine hnormal.elim id fun hexp => ?_
    have hlog := log2_of_scaled hm.ne' hpos hwhole
    have hlt := (Nat.log2_lt hm.ne').mpr hm53
    omega
  refine ⟨_, (Binary64.ofFloat x).exp, hm, ?_, ?_⟩
  · rw [unpack_ofFloat hx, dif_neg hm.ne']
  · rw [nearest_whole hm52 hm53 hwhole]
    exact unpack_toFloat hc

theorem isNegative_iff (x : Float) :
    Binary64.isNegative x = true ↔ sign x.toBits.toBitVec = .negative := by
  have hlt := x.toBits.toBitVec.isLt
  have hbits : x.toBits.toNat = x.toBits.toBitVec.toNat := rfl
  rw [Binary64.isNegative, sign, hbits, Nat.shiftRight_eq_div_pow, decide_eq_true_iff]
  split
  · rename_i hzero
    rw [hzero]
    exact ⟨by simp, by simp⟩
  · simp only [iff_true]
    omega

theorem beq_self_of_isFinite {x : Float} (hx : x.isFinite = true) : (x == x) = true := by
  refine beq_self ?_
  have hx : x.toModel.unpack.isFinite = true := hx
  show x.toModel.unpack.isNaN = false
  generalize x.toModel.unpack = u at hx
  cases u with
  | notANumber => cases hx
  | _ => rfl

theorem beq_of_whole_zero {x : Float} (hx : x.isFinite = true)
    (hwhole : (Binary64.ofFloat x).whole? = some 0) : (x == (JsonNumber.nat 0).toFloat) = true := by
  have hmant : (Binary64.ofFloat x).mant = 0 := by
    have hzero := whole?_eq_some hwhole
    rw [Nat.zero_mul] at hzero
    exact (Nat.mul_eq_zero.mp hzero).resolve_right (Nat.two_pow_pos _).ne'
  refine (beq_iff _ _).mpr ⟨.zero, ?_, by decide +kernel⟩
  rw [rank, unpack_ofFloat hx, dif_pos hmant]
  rfl

theorem beq_of_whole_negative {x : Float} {k : Nat} (hx : x.isFinite = true)
    (hwhole : (Binary64.ofFloat x).whole? = some k) (hk : k ≠ 0)
    (hsign : Binary64.isNegative x = true) : (x == (JsonNumber.neg k).toFloat) = true := by
  obtain ⟨m, e, hm, hunpack, hnearest⟩ := unpack_nearest hx hwhole hk
  refine (beq_iff _ _).mpr ⟨.finite false m e, ?_, ?_⟩
  · rw [rank, hunpack, (isNegative_iff x).mp hsign]
    rfl
  · have hcanonical : Canonical x.toModel.unpack := canonical_unpack hx
    rw [hunpack] at hcanonical
    have hcanonical : Canonical (Binary64.nearest k 1).toModel.unpack := hnearest ▸ hcanonical
    rw [rank, JsonNumber.toFloat, unpack_neg hcanonical, hnearest]
    rfl

theorem beq_of_whole_positive {x : Float} {k : Nat} (hx : x.isFinite = true)
    (hwhole : (Binary64.ofFloat x).whole? = some k) (hk : k ≠ 0)
    (hsign : ¬ Binary64.isNegative x = true) : (x == (JsonNumber.nat k).toFloat) = true := by
  obtain ⟨m, e, hm, hunpack, hnearest⟩ := unpack_nearest hx hwhole hk
  refine (beq_iff _ _).mpr ⟨.finite true m e, ?_, ?_⟩
  · have hpositive : sign x.toBits.toBitVec = .positive := by
      cases hs : sign x.toBits.toBitVec with
      | positive => rfl
      | negative => exact (hsign ((isNegative_iff x).mpr hs)).elim
    rw [rank, hunpack, hpositive]
    rfl
  · rw [rank, JsonNumber.toFloat, hnearest]
    rfl

/-- A number is read back from what it freezes to, minus zero as zero. -/
theorem beq_of_freezeNumber {x : Float} {n : JsonNumber} (hn : freezeNumber x = .ok n) :
    (x == n.toFloat) = true := by
  rw [freezeNumber] at hn
  split at hn
  · rename_i hx
    split at hn
    · rename_i k hwhole
      by_cases hk : k = 0
      · subst hk
        obtain rfl : JsonNumber.nat 0 = n := by simpa using hn
        exact beq_of_whole_zero hx hwhole
      · split at hn
        · cases hn
          exact beq_self_of_isFinite hx
        · split at hn
          · rename_i hsign
            cases hn
            exact beq_of_whole_negative hx hwhole hk hsign.1
          · rename_i hsign
            cases hn
            exact beq_of_whole_positive hx hwhole hk
              fun hneg => hsign ⟨hneg, Nat.pos_of_ne_zero hk⟩
    · cases hn
      exact beq_self_of_isFinite hx
  · cases hn

/-! Numbers that are equal freeze to the same. -/

theorem unpack_inj {x y : Float} (hxy : x.toModel.unpack = y.toModel.unpack) : x = y := by
  have hbits : x.toBits.toBitVec = y.toBits.toBitVec :=
    (unpack_inj_of_valid x.toModel.valid y.toModel.valid).mp hxy
  exact Float.toBits_inj.mp (UInt64.toBitVec_inj.mp hbits)

theorem unpackedRank_inj {a b : UnpackedFloat} {r : Rank} (ha : unpackedRank a = some r)
    (hb : unpackedRank b = some r) (hr : r ≠ .zero) : a = b := by
  cases a with
  | notANumber => cases ha
  | zero s =>
    cases ha
    exact (hr rfl).elim
  | infinity s =>
    cases ha
    cases b with
    | infinity t => cases s <;> cases t <;> first | rfl | cases hb
    | _ => cases hb
  | finite s m e =>
    cases ha
    cases b with
    | finite t n k =>
      simp only [unpackedRank, Option.some.injEq, Rank.finite.injEq] at hb
      obtain ⟨hsign, rfl, rfl⟩ := hb
      cases s <;> cases t <;> first | rfl | cases hsign
    | _ => cases hb

/-- Both zeros freeze as zero. -/
theorem freezeNumber_of_rank_zero {x : Float} (hx : rank x = some .zero) :
    freezeNumber x = .ok (.nat 0) := by
  have hfinite : x.isFinite = true := by
    unfold rank at hx
    show x.toModel.unpack.isFinite = true
    generalize x.toModel.unpack = u at hx ⊢
    cases u with
    | zero s => rfl
    | _ => cases hx
  have hmant : (Binary64.ofFloat x).mant = 0 := by
    by_contra hne
    rw [rank, unpack_ofFloat hfinite, dif_neg hne] at hx
    cases hx
  have hwhole : (Binary64.ofFloat x).whole? = some 0 := by
    simp [Binary64.whole?, hmant]
  simp [freezeNumber, hfinite, hwhole]

theorem freezeNumber_congr {x y : Float} (hxy : (x == y) = true) :
    freezeNumber x = freezeNumber y := by
  obtain ⟨r, hx, hy⟩ := (beq_iff x y).mp hxy
  by_cases hr : r = .zero
  · subst hr
    rw [freezeNumber_of_rank_zero hx, freezeNumber_of_rank_zero hy]
  · rw [unpack_inj (unpackedRank_inj hx hy hr)]

theorem beq_of_freezeNumber_eq {x y : Float} {n : JsonNumber} (hx : freezeNumber x = .ok n)
    (hy : freezeNumber y = .ok n) : (x == y) = true :=
  beq_trans (beq_of_freezeNumber hx) (beq_comm y _ ▸ beq_of_freezeNumber hy)

end DictScript.Number
