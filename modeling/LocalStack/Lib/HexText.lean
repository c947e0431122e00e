import LocalStack.Lib.Text

/-! Hexadecimal numbers. -/

namespace LocalStack.HexText
open LocalStack.Text

/-- The value of hexadecimal digits after digits of value `n`. -/
def hexFrom (n : Nat) : Str → Option Nat
  | [] => some n
  | c :: s => (hexVal c).bind fun v => hexFrom (16 * n + v) s

/-- The value of hexadecimal digits, which may be upper or lower case. -/
def hexNumber (s : Str) : Option Nat := if s = [] then none else hexFrom 0 s

/-- `hex(n)[2:]`. -/
def hex (n : Nat) : Str := Nat.toDigits 16 n

example : hexNumber "00fF".toList = some 255 ∧ hex 255 = "ff".toList := by decide

theorem hexFrom_append (n : Nat) (s t : Str) :
    hexFrom n (s ++ t) = (hexFrom n s).bind fun m => hexFrom m t := by
  induction s generalizing n with
  | nil => rfl
  | cons c s ih =>
    rw [List.cons_append, hexFrom, hexFrom, Option.bind_assoc]
    simp only [ih]

theorem hexVal_digitChar {v : Nat} (h : v < 16) : hexVal v.digitChar = some v := by
  have hall : ∀ v < 16, hexVal (Nat.digitChar v) = some v := by decide
  exact hall v h

theorem hexFrom_hex (n : Nat) : hexFrom 0 (hex n) = some n := by
  induction n using Nat.strongRecOn with
  | ind n ih =>
    rw [hex]
    by_cases h : n < 16
    · rw [Nat.toDigits_of_lt_base h, hexFrom, hexVal_digitChar h, Option.bind_some, hexFrom]
      simp
    · have hle : 16 ≤ n := Nat.le_of_not_lt h
      have hquot : hexFrom 0 (Nat.toDigits 16 (n / 16)) = some (n / 16) := ih _ (by omega)
      rw [Nat.toDigits_of_base_le (by decide) hle, hexFrom_append, hquot, Option.bind_some, hexFrom,
        hexVal_digitChar (Nat.mod_lt _ (by decide)), Option.bind_some, hexFrom, Nat.div_add_mod]

theorem hex_ne_nil (n : Nat) : hex n ≠ [] := Nat.toDigits_ne_nil

theorem hexNumber_hex (n : Nat) : hexNumber (hex n) = some n := by
  rw [hexNumber, if_neg (hex_ne_nil n), hexFrom_hex]

/-- A digit, of either case. -/
theorem hexVal_bounds {c : Char} {v : Nat} (h : hexVal c = some v) :
    ('0' ≤ c ∧ c ≤ '9') ∨ ('a' ≤ c ∧ c ≤ 'f') ∨ ('A' ≤ c ∧ c ≤ 'F') := by
  rw [hexVal] at h
  split at h
  · next hc => exact .inl hc
  · split at h
    · next hc => exact .inr (.inl hc)
    · split at h
      · next hc => exact .inr (.inr hc)
      · cases h

theorem hexVal_of_mem {s : Str} {n m : Nat} (h : hexFrom n s = some m) {c : Char} (hc : c ∈ s) :
    ∃ v, hexVal c = some v := by
  induction s generalizing n with
  | nil => exact absurd hc List.not_mem_nil
  | cons d s ih =>
    obtain ⟨v, hv, h⟩ := Option.bind_eq_some_iff.mp h
    rcases List.mem_cons.mp hc with rfl | hc
    · exact ⟨v, hv⟩
    · exact ih h hc

theorem toNat_of_hexVal {c : Char} {v : Nat} (h : hexVal c = some v) : c.toNat < 103 := by
  have hle : ∀ {a b : Char}, a ≤ b → a.toNat ≤ b.toNat := fun h => h
  rcases hexVal_bounds h with hc | hc | hc
  · exact Nat.lt_of_le_of_lt (hle hc.2) (by decide)
  · exact Nat.lt_of_le_of_lt (hle hc.2) (by decide)
  · exact Nat.lt_of_le_of_lt (hle hc.2) (by decide)

/-- What holds of all digits is checked on ASCII. -/
theorem forall_hexVal {P : Char → Prop} [DecidablePred P]
    (h : ∀ n < 103, (hexVal (Char.ofNat n)).isSome = true → P (Char.ofNat n)) {c : Char} {v : Nat}
    (hc : hexVal c = some v) : P c := by
  have hn := h c.toNat (toNat_of_hexVal hc)
  rw [Char.ofNat_toNat] at hn
  exact hn (by rw [hc]; rfl)

theorem hexVal_toLower {c : Char} {v : Nat} (h : hexVal c = some v) :
    hexVal c.toLower = hexVal c := by
  refine @forall_hexVal (fun c => hexVal c.toLower = hexVal c) _ ?_ c v h
  decide

theorem hexFrom_toLower {s : Str} {n m : Nat} (h : hexFrom n s = some m) :
    hexFrom n (s.map Char.toLower) = some m := by
  induction s generalizing n with
  | nil => exact h
  | cons c s ih =>
    obtain ⟨v, hv, h⟩ := Option.bind_eq_some_iff.mp h
    rw [List.map_cons, hexFrom, hexVal_toLower hv, hv, Option.bind_some]
    exact ih h

theorem not_whitespace_of_hexVal {c : Char} {v : Nat} (h : hexVal c = some v) :
    whitespace c = false := by
  refine @forall_hexVal (fun c => whitespace c = false) _ ?_ c v h
  decide

end LocalStack.HexText
