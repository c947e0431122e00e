import LocalStack.Lib.Text

/-! Base64 as `base64.b64encode` writes it and as `base64.b64decode` reads it,
which skips characters outside the alphabet and stops at the padding. -/

namespace LocalStack.Base64
open LocalStack.Text

def alphabet : Str :=
  "ABCDEFGHIJKLMNOPQRSTUVWXYZabcdefghijklmnopqrstuvwxyz0123456789+/".toList

def encodeDigit (n : Nat) : Char := alphabet.getD (n % 64) 'A'

/-- The index of a character in the alphabet. -/
def decodeDigit (c : Char) : Option Nat :=
  if 'A' ≤ c ∧ c ≤ 'Z' then some (c.toNat - 65)
  else if 'a' ≤ c ∧ c ≤ 'z' then some (c.toNat - 71)
  else if '0' ≤ c ∧ c ≤ '9' then some (c.toNat + 4)
  else if c = '+' then some 62
  else if c = '/' then some 63
  else none

def b64encode : List UInt8 → Str
  | a :: b :: c :: bs =>
    encodeDigit (a.toNat / 4) :: encodeDigit (a.toNat % 4 * 16 + b.toNat / 16) ::
      encodeDigit (b.toNat % 16 * 4 + c.toNat / 64) :: encodeDigit (c.toNat % 64) :: b64encode bs
  | [a, b] =>
    [encodeDigit (a.toNat / 4), encodeDigit (a.toNat % 4 * 16 + b.toNat / 16),
      encodeDigit (b.toNat % 16 * 4), '=']
  | [a] => [encodeDigit (a.toNat / 4), encodeDigit (a.toNat % 4 * 16), '=', '=']
  | [] => []

/-- The state of the decoder: how many digits of the current group of four have
been read, the bits left over of the last one, and the pads since then. -/
structure State where
  quad_pos : Nat
  leftchar : Nat
  pads : Nat

/-- `binascii.a2b_base64`; `none` is a binascii.Error. -/
def decodeFrom : State → Str → Option (List UInt8)
  | st, [] => if st.quad_pos = 0 then some [] else none
  | st, c :: s =>
    if c = '=' then
      if 2 ≤ st.quad_pos then
        if 4 ≤ st.quad_pos + (st.pads + 1) then some []
        else decodeFrom { st with pads := st.pads + 1 } s
      else decodeFrom st s
    else
      match decodeDigit c with
      | none => decodeFrom st s
      | some d =>
        match st.quad_pos with
        | 0 => decodeFrom ⟨1, d, 0⟩ s
        | 1 => (decodeFrom ⟨2, d % 16, 0⟩ s).map (UInt8.ofNat (st.leftchar * 4 + d / 16) :: ·)
        | 2 => (decodeFrom ⟨3, d % 4, 0⟩ s).map (UInt8.ofNat (st.leftchar * 16 + d / 4) :: ·)
        | _ => (decodeFrom ⟨0, 0, 0⟩ s).map (UInt8.ofNat (st.leftchar * 64 + d) :: ·)

/-- `base64.b64decode(s)`; `none` is a ValueError, also for text that is not ASCII. -/
def b64decode (s : Str) : Option (List UInt8) :=
  if s.all (·.toNat < 128) then decodeFrom ⟨0, 0, 0⟩ s else none

theorem encodeDigit_spec {n : Nat} (h : n < 64) :
    decodeDigit (encodeDigit n) = some n ∧ encodeDigit n ≠ '=' ∧ (encodeDigit n).toNat < 128 := by
  have hall : ∀ n : Fin 64, decodeDigit (encodeDigit n) = some n.val ∧ encodeDigit n ≠ '=' ∧
      (encodeDigit n).toNat < 128 := by decide +kernel
  exact hall ⟨n, h⟩

/-- A digit moves the decoder on by its value. -/
theorem decodeFrom_encodeDigit {n : Nat} (h : n < 64) (st : State) (s : Str) :
    decodeFrom st (encodeDigit n :: s) =
      match st.quad_pos with
      | 0 => decodeFrom ⟨1, n, 0⟩ s
      | 1 => (decodeFrom ⟨2, n % 16, 0⟩ s).map (UInt8.ofNat (st.leftchar * 4 + n / 16) :: ·)
      | 2 => (decodeFrom ⟨3, n % 4, 0⟩ s).map (UInt8.ofNat (st.leftchar * 16 + n / 4) :: ·)
      | _ => (decodeFrom ⟨0, 0, 0⟩ s).map (UInt8.ofNat (st.leftchar * 64 + n) :: ·) := by
  obtain ⟨hd, hne, _⟩ := encodeDigit_spec h
  rw [decodeFrom, if_neg hne, hd]

theorem ofNat_eq_of_toNat {b : UInt8} {n : Nat} (h : n = b.toNat) : UInt8.ofNat n = b := by
  rw [h, UInt8.ofNat_toNat]

theorem ascii_b64encode (bs : List UInt8) : (b64encode bs).all (·.toNat < 128) = true := by
  have hd : ∀ n : Nat, (encodeDigit n).toNat < 128 := fun n => by
    have h := (encodeDigit_spec (Nat.mod_lt n (by decide : 0 < 64))).2.2
    rwa [encodeDigit, Nat.mod_mod] at h
  induction bs using b64encode.induct with
  | case1 a b c bs ih => simp [b64encode, hd, ih]
  | case2 a b => simp [b64encode, hd]
  | case3 a => simp [b64encode, hd]
  | case4 => rfl

theorem decodeFrom_b64encode (bs : List UInt8) : decodeFrom ⟨0, 0, 0⟩ (b64encode bs) = some bs := by
  induction bs using b64encode.induct with
  | case1 a b c bs ih =>
    have ha := a.toNat_lt
    have hb := b.toNat_lt
    have hc := c.toNat_lt
    rw [b64encode]
    simp only [decodeFrom_encodeDigit (show a.toNat / 4 < 64 by omega),
      decodeFrom_encodeDigit (show a.toNat % 4 * 16 + b.toNat / 16 < 64 by omega),
      decodeFrom_encodeDigit (show b.toNat % 16 * 4 + c.toNat / 64 < 64 by omega),
      decodeFrom_encodeDigit (show c.toNat % 64 < 64 by omega), ih, Option.map_some]
    rw [ofNat_eq_of_toNat (show _ = a.toNat by omega), ofNat_eq_of_toNat (show _ = b.toNat by omega),
      ofNat_eq_of_toNat (show _ = c.toNat by omega)]
  | case2 a b =>
    have ha := a.toNat_lt
    have hb := b.toNat_lt
    rw [b64encode]
    simp only [decodeFrom_encodeDigit (show a.toNat / 4 < 64 by omega),
      decodeFrom_encodeDigit (show a.toNat % 4 * 16 + b.toNat / 16 < 64 by omega),
      decodeFrom_encodeDigit (show b.toNat % 16 * 4 < 64 by omega)]
    simp only [decodeFrom, if_true, show 2 ≤ 3 by omega, show 4 ≤ 3 + (0 + 1) by omega,
      Option.map_some]
    rw [ofNat_eq_of_toNat (show _ = a.toNat by omega), ofNat_eq_of_toNat (show _ = b.toNat by omega)]
  | case3 a =>
    have ha := a.toNat_lt
    rw [b64encode]
    simp only [decodeFrom_encodeDigit (show a.toNat / 4 < 64 by omega),
      decodeFrom_encodeDigit (show a.toNat % 4 * 16 < 64 by omega)]
    simp only [decodeFrom, if_true, Nat.le_refl, show ¬ 4 ≤ 2 + (0 + 1) by omega, if_false,
      show 4 ≤ 2 + (0 + 1 + 1) by omega, Option.map_some]
    rw [ofNat_eq_of_toNat (show _ = a.toNat by omega)]
  | case4 => rfl

/-- Encoded bytes decode to themselves. -/
theorem b64decode_b64encode (bs : List UInt8) : b64decode (b64encode bs) = some bs := by
  rw [b64decode, if_pos (ascii_b64encode bs), decodeFrom_b64encode]

end LocalStack.Base64
