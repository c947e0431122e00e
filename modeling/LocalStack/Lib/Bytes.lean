import LocalStack.Lib.Text
import Mathlib.Algebra.Order.Group.Nat
import Mathlib.Tactic.Ring

/-! Byte strings: big-endian integers of a fixed width, and UTF-8. -/

namespace LocalStack.Bytes
open LocalStack.Text

/-! ## Big-endian integers -/

/-- `n.to_bytes(k, "big")`; a number that does not fit loses its high bytes. -/
def toBytes : Nat → Nat → List UInt8
  | 0, _ => []
  | k + 1, n => toBytes k (n / 256) ++ [UInt8.ofNat n]

/-- `int.from_bytes(bs, "big")`. -/
def fromBytes (bs : List UInt8) : Nat := bs.foldl (fun n b => n * 256 + b.toNat) 0

@[simp] theorem length_toBytes (k n : Nat) : (toBytes k n).length = k := by
  induction k generalizing n with
  | zero => rfl
  | succ k ih => simp [toBytes, ih]

theorem fromBytes_append_singleton (bs : List UInt8) (b : UInt8) :
    fromBytes (bs ++ [b]) = fromBytes bs * 256 + b.toNat := by
  simp [fromBytes]

theorem fromBytes_toBytes {k n : Nat} (h : n < 256 ^ k) : fromBytes (toBytes k n) = n := by
  induction k generalizing n with
  | zero =>
    have : n = 0 := by simpa using h
    simp [this, toBytes, fromBytes]
  | succ k ih =>
    have hdiv : n / 256 < 256 ^ k := Nat.div_lt_of_lt_mul (by rwa [pow_succ'] at h)
    rw [toBytes, fromBytes_append_singleton, ih hdiv, UInt8.toNat_ofNat']
    omega

theorem fromBytes_lt (bs : List UInt8) : fromBytes bs < 256 ^ bs.length := by
  induction bs using List.reverseRecOn with
  | nil => simp [fromBytes]
  | append_singleton bs b ih =>
    have hb : b.toNat < 256 := b.toNat_lt
    rw [fromBytes_append_singleton, List.length_append, List.length_singleton, pow_succ]
    omega

/-! ## UTF-8 -/

/-- `s.encode("utf-8")`. -/
def encodeUtf8 (s : Str) : List UInt8 := s.flatMap String.utf8EncodeChar

/-- `bs.decode("utf-8")`; `none` is a UnicodeDecodeError. -/
def decodeUtf8 (bs : List UInt8) : Option Str := (bs.toByteArray.utf8Decode?).map Array.toList

theorem decodeUtf8_encodeUtf8 (s : Str) : decodeUtf8 (encodeUtf8 s) = some s := by
  have h : (encodeUtf8 s).toByteArray = s.utf8Encode := rfl
  rw [decodeUtf8, h, List.utf8Decode?_utf8Encode]
  rfl

end LocalStack.Bytes
