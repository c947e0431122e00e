import LocalStack.Lib.Bytes
import Mathlib.Algebra.Order.Field.Rat
import Mathlib.Data.Int.Log
import Mathlib.Data.Rat.Floor
import Mathlib.Tactic.FieldSimp
import Mathlib.Tactic.Linarith
import Mathlib.Tactic.NormNum

/-! IEEE 754 binary formats: the number of a format that a rational number is rounded
to, and the big-endian bytes of a number, written and read. -/

namespace LocalStack.BinaryFloat
open LocalStack.Bytes

/-! ## Formats -/

/-- The bits of a significand, with the one that is not stored, the bits of an exponent
and the exponent of the last bit of the smallest numbers. -/
structure Format where
  precision : Nat
  exponentBits : Nat
  minExponent : Int
  deriving DecidableEq, Repr

def half : Format := ⟨11, 5, -24⟩

def single : Format := ⟨24, 8, -149⟩

def double : Format := ⟨53, 11, -1074⟩

inductive Special
  | inf
  | negInf
  | nan
  deriving DecidableEq, Repr

inductive Number
  | finite (q : ℚ)
  | special (x : Special)
  deriving DecidableEq, Repr

/-- Round half to even. -/
def roundHalfEven (q : ℚ) : Int :=
  let low := q.floor
  if q - low < 1 / 2 then low
  else if 1 / 2 < q - low then low + 1
  else if low % 2 = 0 then low
  else low + 1

namespace Format

variable (F : Format)

/-- The units of the fraction field. -/
def unit : Nat := 2 ^ (F.precision - 1)

/-- The first of the magnitudes that no number has. -/
def limit : Nat := (2 ^ F.exponentBits - 1) * F.unit

def signBit : Nat := 2 ^ F.exponentBits * F.unit

def width : Nat := (F.exponentBits + F.precision) / 8

/-- The exponent of the last bit that the format has for `q`. -/
def exponent (q : ℚ) : Int :=
  if q = 0 then F.minExponent else max F.minExponent (Int.log 2 |q| - (F.precision - 1 : Nat))

def significand (q : ℚ) : Nat := (roundHalfEven (|q| / 2 ^ F.exponent q)).toNat

/-- Exponent and fraction field as one number. Where the significand is rounded up to
the next power of two, the carry goes to the exponent. -/
def magnitude (q : ℚ) : Nat :=
  (F.exponent q - F.minExponent).toNat * F.unit + F.significand q

def sign (q : ℚ) : ℚ := if q < 0 then -1 else 1

/-- The number that `q` is rounded to; `none` is an overflow. -/
def round (q : ℚ) : Option ℚ :=
  if F.magnitude q < F.limit then some (sign q * F.significand q * 2 ^ F.exponent q) else none

def pack (q : ℚ) : Option (List UInt8) :=
  if F.magnitude q < F.limit then
    some (toBytes F.width ((if q < 0 then F.signBit else 0) + F.magnitude q))
  else none

/-- The magnitude of a number from its fields. -/
def value (exponent fraction : Nat) : ℚ :=
  if exponent = 0 then fraction * 2 ^ F.minExponent
  else (F.unit + fraction : Nat) * 2 ^ (F.minExponent + (exponent - 1 : Nat))

def unpack (bs : List UInt8) : Number :=
  let negative := F.signBit ≤ fromBytes bs
  let magnitude := fromBytes bs % F.signBit
  if F.limit ≤ magnitude then
    .special (if F.limit < magnitude then .nan else if negative then .negInf else .inf)
  else
    .finite ((if negative then -1 else 1) * F.value (magnitude / F.unit) (magnitude % F.unit))

end Format

example : single.pack 1 = some [0x3F, 0x80, 0, 0] := by decide +kernel

example : half.unpack [0x7C, 0] = .special .inf := by decide +kernel

/-! ## Rounding -/

@[simp] theorem roundHalfEven_intCast (n : Int) : roundHalfEven n = n := by
  simp [roundHalfEven, Rat.floor_intCast]

theorem le_roundHalfEven {n : Int} {q : ℚ} (h : n ≤ q) : n ≤ roundHalfEven q := by
  have hlow : n ≤ q.floor := Rat.le_floor_iff.mpr h
  simp only [roundHalfEven]
  split_ifs <;> omega

theorem roundHalfEven_le {n : Int} {q : ℚ} (h : q ≤ n) : roundHalfEven q ≤ n := by
  have hlow : q.floor ≤ n := by
    have hle : (q.floor : ℚ) ≤ n := (Rat.floor_le q).trans h
    exact_mod_cast hle
  rcases hlow.lt_or_eq with hlt | heq
  · simp only [roundHalfEven]
    split_ifs <;> omega
  · have hq : q = n := le_antisymm h (heq ▸ Rat.floor_le q)
    rw [hq, roundHalfEven_intCast]

namespace Format

/-- What is asked of the numbers of bits. -/
structure Valid (F : Format) : Prop where
  precision : 0 < F.precision
  exponentBits : 2 ≤ F.exponentBits
  width : 8 * F.width = F.exponentBits + F.precision

theorem valid_single : single.Valid := ⟨by decide, by decide, by decide⟩

theorem valid_double : double.Valid := ⟨by decide, by decide, by decide⟩

variable {F : Format}

theorem unit_pos : 0 < F.unit := Nat.two_pow_pos _

theorem two_mul_unit (hF : F.Valid) : ((2 * F.unit : Nat) : ℚ) = 2 ^ (F.precision : Int) := by
  obtain ⟨p, hp⟩ := Nat.exists_eq_succ_of_ne_zero (Nat.ne_of_gt hF.precision)
  rw [unit, hp, Nat.succ_sub_one, zpow_natCast, pow_succ']
  push_cast
  rfl

theorem minExponent_le (q : ℚ) : F.minExponent ≤ F.exponent q := by
  rw [exponent]
  split
  · exact le_rfl
  · exact le_max_left _ _

theorem two_zpow_pos (e : Int) : (0 : ℚ) < 2 ^ e := zpow_pos (by norm_num) e

theorem lt_of_exponent (hF : F.Valid) (q : ℚ) :
    |q| / 2 ^ F.exponent q < (2 * F.unit : Nat) := by
  rw [two_mul_unit hF, div_lt_iff₀ (two_zpow_pos _), ← zpow_add₀ (by norm_num)]
  by_cases hq : q = 0
  · rw [hq, abs_zero]
    exact two_zpow_pos _
  · refine (Int.lt_zpow_succ_log_self (b := 2) (by decide) |q|).trans_le ?_
    refine zpow_le_zpow_right₀ (by norm_num) ?_
    have hle := le_max_right F.minExponent (Int.log 2 |q| - (F.precision - 1 : Nat))
    have hp := hF.precision
    rw [exponent, if_neg hq]
    omega

/-- Only the smallest numbers have a significand that does not fill its bits. -/
theorem le_of_exponent {q : ℚ} (h : F.exponent q ≠ F.minExponent) :
    (F.unit : ℚ) ≤ |q| / 2 ^ F.exponent q := by
  have hq : q ≠ 0 := by
    rintro rfl
    exact h (if_pos rfl)
  have he : F.exponent q = Int.log 2 |q| - (F.precision - 1 : Nat) := by
    rw [exponent, if_neg hq] at h ⊢
    exact (max_choice _ _).resolve_left h
  rw [le_div_iff₀ (two_zpow_pos _), he, unit, Nat.cast_pow, Nat.cast_ofNat, ← zpow_natCast,
    ← zpow_add₀ (by norm_num), add_sub_cancel]
  exact Int.zpow_log_le_self (b := 2) (by decide) (abs_pos.mpr hq)

theorem significand_le (hF : F.Valid) (q : ℚ) : F.significand q ≤ 2 * F.unit := by
  have h := @roundHalfEven_le ((2 * F.unit : Nat) : Int) _
    (by exact_mod_cast (lt_of_exponent hF q).le)
  rw [significand]
  omega

theorem le_significand {q : ℚ} (h : F.exponent q ≠ F.minExponent) : F.unit ≤ F.significand q := by
  have hle := @le_roundHalfEven (F.unit : Int) _ (by exact_mod_cast le_of_exponent h)
  rw [significand]
  omega

/-! ## Bytes -/

/-- The fields of a magnitude give its significand and exponent back. -/
theorem value_magnitude (hF : F.Valid) (q : ℚ) :
    F.value (F.magnitude q / F.unit) (F.magnitude q % F.unit) =
      F.significand q * 2 ^ F.exponent q := by
  have hle := significand_le hF q
  have hmin := @minExponent_le F q
  have hu : 0 < F.unit := unit_pos
  obtain ⟨k, hk⟩ : ∃ k, k = (F.exponent q - F.minExponent).toNat := ⟨_, rfl⟩
  rw [magnitude, ← hk]
  rcases Nat.lt_or_ge (F.significand q) F.unit with hlt | hge
  · have he : F.exponent q = F.minExponent := by
      by_contra hne
      exact absurd (le_significand hne) (by omega)
    rw [hk, he, sub_self, Int.toNat_zero, Nat.zero_mul, Nat.zero_add, Nat.div_eq_of_lt hlt,
      Nat.mod_eq_of_lt hlt, value, if_pos rfl]
  have he : F.exponent q = F.minExponent + k := by omega
  rcases Nat.lt_or_ge (F.significand q) (2 * F.unit) with hlt | htop
  · obtain ⟨r, hr⟩ := Nat.exists_eq_add_of_le hge
    have hfields : k * F.unit + F.significand q = r + F.unit * (k + 1) := by
      rw [hr]
      ring
    rw [hfields, Nat.add_mul_div_left _ _ hu, Nat.add_mul_mod_self_left,
      Nat.div_eq_of_lt (by omega), Nat.mod_eq_of_lt (by omega), value, if_neg (by omega), he, hr]
    congr 2
    omega
  · have htwo : F.significand q = 2 * F.unit := by omega
    have hfields : k * F.unit + 2 * F.unit = F.unit * (k + 2) := by ring
    rw [htwo, hfields, Nat.mul_div_cancel_left _ hu, Nat.mul_mod_right, value, if_neg (by omega), he,
      show ((k + 2 - 1 : Nat) : Int) = k + 1 by omega, ← add_assoc, zpow_add_one₀ (by norm_num)]
    push_cast
    ring

theorem signBit_eq (hF : F.Valid) : 256 ^ F.width = 2 * F.signBit := by
  obtain ⟨p, hp⟩ := Nat.exists_eq_succ_of_ne_zero (Nat.ne_of_gt hF.precision)
  have hwidth : 256 ^ F.width = 2 ^ (F.exponentBits + F.precision) := by
    rw [← hF.width, pow_mul]
    rfl
  rw [hwidth, signBit, unit, hp, Nat.succ_sub_one, pow_add, pow_succ]
  ring

theorem limit_lt_signBit : F.limit < F.signBit := by
  rw [limit, signBit]
  have hpow : 0 < 2 ^ F.exponentBits := Nat.two_pow_pos _
  exact Nat.mul_lt_mul_of_pos_right (by omega) unit_pos

/-- What is packed is read as the number that it was rounded to. -/
theorem unpack_pack (hF : F.Valid) {q r : ℚ} (h : F.round q = some r) :
    ∃ bs, F.pack q = some bs ∧ bs.length = F.width ∧ F.unpack bs = .finite r := by
  rw [round] at h
  split at h
  · next hlt =>
    have hsign := @limit_lt_signBit F
    have hvalue := value_magnitude hF q
    refine ⟨_, if_pos hlt, length_toBytes _ _, ?_⟩
    rw [unpack, fromBytes_toBytes]
    · by_cases hq : q < 0
      · have hr := Option.some.inj h
        rw [sign, if_pos hq] at hr
        simp only [if_pos hq, Nat.le_add_right, Nat.add_mod_left, Nat.mod_eq_of_lt (hlt.trans hsign),
          if_neg (Nat.not_le.mpr hlt), hvalue, if_true]
        rw [← hr, mul_assoc]
      · have hr := Option.some.inj h
        rw [sign, if_neg hq] at hr
        simp only [if_neg hq, Nat.zero_add, Nat.mod_eq_of_lt (hlt.trans hsign),
          if_neg (Nat.not_le.mpr hlt), if_neg (Nat.not_le.mpr (hlt.trans hsign)), hvalue]
        rw [← hr, mul_assoc]
    · rw [signBit_eq hF]
      split <;> omega
  · cases h

theorem pack_eq_none {q : ℚ} (h : F.round q = none) : F.pack q = none := by
  rw [round] at h
  split at h
  · cases h
  · next hle => exact if_neg hle

/-! ## Numbers of a format -/

/-- A number with few enough bits is not rounded. -/
theorem round_of_exact (hF : F.Valid) (m : Int) {e : Int} (hm : m.natAbs < 2 ^ F.precision)
    (hmin : F.minExponent ≤ e) (hmax : e + 3 ≤ F.minExponent + (2 ^ F.exponentBits : Nat)) :
    F.round (m * 2 ^ e) = some ((m : ℚ) * 2 ^ e) := by
  obtain ⟨q, hq⟩ : ∃ q : ℚ, q = m * 2 ^ e := ⟨_, rfl⟩
  have habs : |q| = m.natAbs * 2 ^ e := by
    rw [hq, abs_mul, abs_of_pos (two_zpow_pos e), ← Int.cast_abs, Int.abs_eq_natAbs, Int.cast_natCast]
  have hle : F.exponent q ≤ e := by
    rw [exponent]
    split
    · exact hmin
    · next hne =>
      refine max_le hmin ?_
      have hlog : Int.log 2 |q| < F.precision + e := by
        rw [← Int.lt_zpow_iff_log_lt (by decide) (abs_pos.mpr hne), habs, Nat.cast_ofNat,
          zpow_add₀ (by norm_num), zpow_natCast]
        exact mul_lt_mul_of_pos_right (by exact_mod_cast hm) (two_zpow_pos e)
      have hp := hF.precision
      omega
  obtain ⟨d, hd⟩ : ∃ d : Nat, e = F.exponent q + d := ⟨(e - F.exponent q).toNat, by omega⟩
  -- the quotient is a whole number, so there is nothing to round
  have hquot : |q| / 2 ^ F.exponent q = ((m.natAbs * 2 ^ d : Nat) : Int) := by
    rw [habs, div_eq_iff (two_zpow_pos _).ne', Int.cast_natCast, Nat.cast_mul, Nat.cast_pow,
      Nat.cast_ofNat, mul_assoc, ← zpow_natCast 2 d, ← zpow_add₀ (by norm_num), add_comm, ← hd]
  have hsig : F.significand q = m.natAbs * 2 ^ d := by
    rw [significand, hquot, roundHalfEven_intCast, Int.toNat_natCast]
  have hlt := lt_of_exponent hF q
  rw [hquot, Int.cast_natCast, Nat.cast_lt, ← hsig] at hlt
  have hmag : F.magnitude q < F.limit := by
    have hpow : 3 < 2 ^ F.exponentBits :=
      (by decide : 3 < 2 ^ 2).trans_le (Nat.pow_le_pow_right (by decide) hF.exponentBits)
    have hk : (F.exponent q - F.minExponent).toNat + 3 ≤ 2 ^ F.exponentBits := by
      have hmin' := @minExponent_le F q
      omega
    have hmul := Nat.mul_le_mul_right F.unit hk
    rw [magnitude, limit, Nat.sub_mul]
    rw [Nat.add_mul] at hmul
    omega
  rw [← hq, round, if_pos hmag, mul_assoc, hsig]
  have hval : ((m.natAbs * 2 ^ d : Nat) : ℚ) * 2 ^ F.exponent q = |q| := by
    rw [div_eq_iff (two_zpow_pos _).ne'] at hquot
    exact_mod_cast hquot.symm
  rw [hval, sign]
  split
  · next hneg => rw [abs_of_neg hneg, neg_one_mul, neg_neg]
  · next hpos => rw [abs_of_nonneg (not_lt.mp hpos), one_mul]

theorem round_intCast (hF : F.Valid) {m : Int} (hm : m.natAbs < 2 ^ F.precision)
    (hmin : F.minExponent ≤ 0) (hmax : 3 ≤ F.minExponent + (2 ^ F.exponentBits : Nat)) :
    F.round m = some (m : ℚ) := by
  have h := round_of_exact hF m hm hmin (by omega)
  rwa [zpow_zero, mul_one] at h

end Format

end LocalStack.BinaryFloat
