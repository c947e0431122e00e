import LocalStack.Lib.Bytes

/-! Base32 (RFC 4648) as `base64.b32decode` reads it: eight digits for each five
bytes, the last group padded. -/

namespace LocalStack.Base32
open LocalStack.Text LocalStack.Bytes

def alphabet : Str := "ABCDEFGHIJKLMNOPQRSTUVWXYZ234567".toList

def encodeDigit (n : Nat) : Char := alphabet.getD (n % 32) 'A'

/-- The index of a character in the alphabet. -/
def decodeDigit (c : Char) : Option Nat := alphabet.idxOf? c

/-- `n` in `k` digits; higher digits are lost. -/
def digits : Nat → Nat → Str
  | 0, _ => []
  | k + 1, n => digits k (n / 32) ++ [encodeDigit n]

/-- The eight characters of the five bytes with big-endian value `n`. -/
def encodeQuantum (n : Nat) : Str := digits 8 n

/-- The number that the digits of a group make; `none` for a character that is not
in the alphabet. -/
def readDigits : Nat → Str → Option Nat
  | acc, [] => some acc
  | acc, c :: s => (decodeDigit c).bind fun d => readDigits (acc * 32 + d) s

/-- What `b32decode` raises: a plain ValueError for text that is not ASCII, a
binascii.Error otherwise. -/
inductive DecodeError
  | valueError
  | binasciiError
  deriving DecidableEq, Repr

/-- The bytes of all groups, the last one counted as five bytes, and its number;
`n` bounds the number of groups. -/
def decodeQuanta : Nat → Str → Option (List UInt8 × Nat)
  | 0, _ | _, [] => some ([], 0)
  | n + 1, s =>
    (readDigits 0 (s.take 8)).bind fun acc =>
      if s.length ≤ 8 then some (toBytes 5 acc, acc)
      else (decodeQuanta n (s.drop 8)).map fun r => (toBytes 5 acc ++ r.1, r.2)

/-- `base64.b32decode(s)`. -/
def b32decode (s : Str) : Except DecodeError (List UInt8) :=
  if s.all (·.toNat < 128) then
    if s.length % 8 ≠ 0 then .error .binasciiError
    else
      let t := rstrip '=' s
      let padchars := s.length - t.length
      match decodeQuanta t.length t with
      | none => .error .binasciiError
      | some (decoded, acc) =>
        if padchars ∈ [0, 1, 3, 4, 6] then
          if padchars ≠ 0 ∧ decoded ≠ [] then
            .ok (decoded.take (decoded.length - 5) ++
              (toBytes 5 (acc * 32 ^ padchars)).take ((43 - 5 * padchars) / 8))
          else .ok decoded
        else .error .binasciiError
  else .error .valueError

theorem encodeDigit_spec {n : Nat} (h : n < 32) :
    decodeDigit (encodeDigit n) = some n ∧ encodeDigit n ≠ '=' ∧ (encodeDigit n).toNat < 128 := by
  have hall : ∀ n : Fin 32, decodeDigit (encodeDigit n) = some n.val ∧ encodeDigit n ≠ '=' ∧
      (encodeDigit n).toNat < 128 := by decide +kernel
  exact hall ⟨n, h⟩

theorem encodeDigit_mod (n : Nat) : encodeDigit (n % 32) = encodeDigit n := by
  simp [encodeDigit]

theorem decodeDigit_lt {c : Char} {d : Nat} (h : decodeDigit c = some d) : d < 32 :=
  (List.findIdx?_eq_some_iff_getElem.mp h).1

theorem decodeDigit_spec {c : Char} (h : c ∈ alphabet) :
    c.toNat < 128 ∧ c ≠ '=' ∧ ∃ d, decodeDigit c = some d := by
  have hall : alphabet.all fun c =>
      decide (c.toNat < 128 ∧ c ≠ '=' ∧ (decodeDigit c).isSome) := by decide +kernel
  obtain ⟨hascii, hpad, hd⟩ := of_decide_eq_true (List.all_eq_true.mp hall c h)
  exact ⟨hascii, hpad, Option.isSome_iff_exists.mp hd⟩

@[simp] theorem length_digits (k n : Nat) : (digits k n).length = k := by
  induction k generalizing n with
  | zero => rfl
  | succ k ih => simp [digits, ih]

@[simp] theorem length_encodeQuantum (n : Nat) : (encodeQuantum n).length = 8 :=
  length_digits 8 n

theorem mem_digits {k n : Nat} {c : Char} (h : c ∈ digits k n) : c ≠ '=' ∧ c.toNat < 128 := by
  induction k generalizing n with
  | zero => simp [digits] at h
  | succ k ih =>
    rcases List.mem_append.mp h with h | h
    · exact ih h
    · rw [List.mem_singleton.mp h, ← encodeDigit_mod]
      exact (encodeDigit_spec (Nat.mod_lt n (by decide))).2

theorem readDigits_append (acc : Nat) (s t : Str) :
    readDigits acc (s ++ t) = (readDigits acc s).bind fun a => readDigits a t := by
  induction s generalizing acc with
  | nil => rfl
  | cons c s ih =>
    rw [List.cons_append, readDigits, readDigits]
    cases decodeDigit c with
    | none => rfl
    | some d => exact ih _

theorem readDigits_digits {k n : Nat} (h : n < 32 ^ k) : readDigits 0 (digits k n) = some n := by
  induction k generalizing n with
  | zero =>
    have : n = 0 := by simpa using h
    simp [this, digits, readDigits]
  | succ k ih =>
    have hdiv : n / 32 < 32 ^ k := Nat.div_lt_of_lt_mul (by rwa [pow_succ'] at h)
    have hd := (encodeDigit_spec (Nat.mod_lt n (by decide : 0 < 32))).1
    rw [encodeDigit_mod] at hd
    rw [digits, readDigits_append, ih hdiv, Option.bind_some, readDigits, hd, Option.bind_some,
      readDigits]
    congr 1
    omega

theorem readDigits_lt {s : Str} {acc v : Nat} (h : readDigits acc s = some v) :
    v < (acc + 1) * 32 ^ s.length := by
  induction s generalizing acc with
  | nil =>
    simp only [readDigits, Option.some.injEq] at h
    simp [h]
  | cons c s ih =>
    obtain ⟨d, hd, hr⟩ := Option.bind_eq_some_iff.mp h
    have hlt := decodeDigit_lt hd
    calc v < (acc * 32 + d + 1) * 32 ^ s.length := ih hr
      _ ≤ ((acc + 1) * 32) * 32 ^ s.length := Nat.mul_le_mul_right _ (by omega)
      _ = (acc + 1) * 32 ^ (c :: s).length := by rw [List.length_cons, pow_succ']; ring

theorem rstrip_of_not_mem {s : Str} (h : ∀ c ∈ s, c ≠ '=') : rstrip '=' s = s := by
  rw [rstrip, List.rdropWhile_eq_self_iff]
  exact fun hs => by simpa using h _ (List.getLast_mem hs)

theorem encodeDigit_decodeDigit {c : Char} {d : Nat} (h : decodeDigit c = some d) :
    encodeDigit d = c := by
  obtain ⟨hlt, hd, -⟩ := List.findIdx?_eq_some_iff_getElem.mp h
  have hlen : d < 32 := hlt
  rw [encodeDigit, Nat.mod_eq_of_lt hlen, List.getD_eq_getElem?_getD, List.getElem?_eq_getElem hlt]
  exact beq_iff_eq.mp hd

/-- Digits are determined by the number they make. -/
theorem digits_readDigits {s : Str} {acc v : Nat} (h : readDigits acc s = some v) :
    digits s.length v = s := by
  induction s using List.reverseRecOn generalizing v with
  | nil => rfl
  | append_singleton s c ih =>
    rw [readDigits_append] at h
    obtain ⟨a, ha, hc⟩ := Option.bind_eq_some_iff.mp h
    obtain ⟨d, hd, hv⟩ := Option.bind_eq_some_iff.mp hc
    rw [readDigits, Option.some.injEq] at hv
    have hlt := decodeDigit_lt hd
    have hdiv : v / 32 = a := by omega
    have hmod : v % 32 = d := by omega
    rw [List.length_append, List.length_singleton, digits, hdiv, ih ha, ← encodeDigit_mod, hmod,
      encodeDigit_decodeDigit hd]

/-- Only text that is not ASCII makes the decoder raise a plain ValueError. -/
theorem b32decode_eq_valueError {s : Str} :
    b32decode s = .error .valueError ↔ ¬ ∀ c ∈ s, c.toNat < 128 := by
  unfold b32decode
  split
  · rename_i h
    refine iff_of_false ?_ (not_not.mpr (by simpa using h))
    split
    · simp
    · dsimp only
      split
      · simp
      · split
        · split <;> simp
        · simp
  · rename_i h
    exact iff_of_true rfl (by simpa using h)

/-- At most one group. -/
theorem decodeQuanta_group {t : Str} (h : t.length ≤ 8) (hne : t ≠ []) :
    decodeQuanta t.length t = (readDigits 0 t).map fun v => (toBytes 5 v, v) := by
  cases t with
  | nil => exact absurd rfl hne
  | cons c t =>
    have htake : (c :: t).take 8 = c :: t := List.take_of_length_le h
    rw [List.length_cons] at h
    rw [List.length_cons, decodeQuanta, htake, Option.map_eq_bind]
    · simp only [List.length_cons, h, ↓reduceIte]
      rfl
    · simp

/-- A group of eight digits. -/
theorem b32decode_quantum {s : Str} {v : Nat} (hlen : s.length = 8)
    (hs : ∀ c ∈ s, c ≠ '=' ∧ c.toNat < 128) (hread : readDigits 0 s = some v) :
    b32decode s = .ok (toBytes 5 v) := by
  have hascii : (s.all fun c => c.toNat < 128) = true := by
    simpa using fun c hc => (hs c hc).2
  have hstrip : rstrip '=' s = s := rstrip_of_not_mem fun c hc => (hs c hc).1
  have hquanta : decodeQuanta 8 s = some (toBytes 5 v, v) := by
    have := decodeQuanta_group hlen.le (by rintro rfl; simp at hlen)
    rwa [hlen, hread] at this
  simp [b32decode, hascii, hlen, hstrip, hquanta]

theorem b32decode_encodeQuantum {n : Nat} (h : n < 2 ^ 40) :
    b32decode (encodeQuantum n) = .ok (toBytes 5 n) :=
  b32decode_quantum (length_encodeQuantum n) (fun _ hc => mem_digits hc) (readDigits_digits (by omega))

/-- Eight characters decode as a full group, or as a padded one to less than five
bytes. -/
theorem b32decode_eight {s : Str} {bs : List UInt8} (hlen : s.length = 8)
    (h : b32decode s = .ok bs) :
    (∃ v, v < 2 ^ 40 ∧ s = encodeQuantum v ∧ bs = toBytes 5 v) ∨ bs.length ≤ 4 := by
  have hprefix : rstrip '=' s <+: s := List.rdropWhile_prefix _ _
  have hle := hprefix.length_le
  simp only [b32decode, hlen] at h
  split at h
  · rw [if_neg (by decide)] at h
    by_cases ht : rstrip '=' s = []
    · simp [ht, decodeQuanta] at h
    · rw [decodeQuanta_group (by omega) ht] at h
      cases hv : readDigits 0 (rstrip '=' s) with
      | none => simp [hv] at h
      | some v =>
        simp only [hv, Option.map_some] at h
        split at h
        · split at h
          · rename_i hpad
            cases h
            refine Or.inr ?_
            have hpos : 0 < 8 - (rstrip '=' s).length := Nat.pos_of_ne_zero hpad.1
            simp only [length_toBytes, Nat.sub_self, List.take_zero, List.nil_append,
              List.length_take]
            omega
          · rename_i hpad
            cases h
            have hfull : (rstrip '=' s).length = s.length := by
              by_contra hne
              refine hpad ⟨by omega, ?_⟩
              simp [toBytes]
            have hs : rstrip '=' s = s := hprefix.eq_of_length hfull
            rw [hs] at hv
            have hlt := readDigits_lt hv
            rw [hlen] at hlt
            refine Or.inl ⟨v, by omega, ?_, rfl⟩
            rw [encodeQuantum, ← hlen, digits_readDigits hv]
        · cases h
  · cases h

end LocalStack.Base32
