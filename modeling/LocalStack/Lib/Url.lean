import LocalStack.Lib.OrderedDict
import LocalStack.Lib.Text

/-! `unquote` and `parse_qs` of `urllib.parse`. -/

namespace LocalStack.Url
open LocalStack.Text LocalStack.OrderedDict

/-! ## Decoding with replacement -/

def replacementChar : Char := '\uFFFD'

/-- An unfinished UTF-8 sequence: the bits read so far, the number of bytes
missing and the range the next byte must be in. -/
structure Pending where
  bits : Nat
  missing : Nat
  lo : Nat
  hi : Nat

/-- What a byte does at the start of a sequence. The second byte of some leads
is restricted, which rules out overlong forms and surrogates. -/
def lead (b : Nat) : Sum Char Pending :=
  if b < 0x80 then .inl (Char.ofNat b)
  else if 0xC2 ≤ b ∧ b ≤ 0xDF then .inr ⟨b - 0xC0, 1, 0x80, 0xBF⟩
  else if b = 0xE0 then .inr ⟨0, 2, 0xA0, 0xBF⟩
  else if b = 0xED then .inr ⟨0xD, 2, 0x80, 0x9F⟩
  else if 0xE1 ≤ b ∧ b ≤ 0xEF then .inr ⟨b - 0xE0, 2, 0x80, 0xBF⟩
  else if b = 0xF0 then .inr ⟨0, 3, 0x90, 0xBF⟩
  else if 0xF1 ≤ b ∧ b ≤ 0xF3 then .inr ⟨b - 0xF0, 3, 0x80, 0xBF⟩
  else if b = 0xF4 then .inr ⟨4, 3, 0x80, 0x8F⟩
  else .inl replacementChar

/-- `bytes.decode("utf-8", "replace")`: every maximal broken part of a sequence
becomes one replacement character. -/
def decodeReplace : Option Pending → List Nat → Str
  | none, [] => []
  | some _, [] => [replacementChar]
  | none, b :: bs =>
    match lead b with
    | .inl c => c :: decodeReplace none bs
    | .inr p => decodeReplace (some p) bs
  | some p, b :: bs =>
    if p.lo ≤ b ∧ b ≤ p.hi then
      let bits := p.bits * 64 + (b - 0x80)
      if p.missing = 1 then Char.ofNat bits :: decodeReplace none bs
      else decodeReplace (some ⟨bits, p.missing - 1, 0x80, 0xBF⟩) bs
    else
      -- the byte that broke the sequence starts the next one
      match lead b with
      | .inl c => replacementChar :: c :: decodeReplace none bs
      | .inr p => replacementChar :: decodeReplace (some p) bs

/-- `unquote_to_bytes` of a string of ASCII characters. -/
def unquote_to_bytes : Str → List Nat
  | '%' :: h :: l :: s =>
    match hexVal h, hexVal l with
    | some x, some y => (x * 16 + y) :: unquote_to_bytes s
    | _, _ => '%'.toNat :: unquote_to_bytes (h :: l :: s)
  | c :: s => c.toNat :: unquote_to_bytes s
  | [] => []

/-- `unquote`: the ASCII runs are decoded on their own; `run` is the one being
collected. -/
def unquoteRuns : Str → Str → Str
  | run, [] => decodeReplace none (unquote_to_bytes run)
  | run, c :: s =>
    if c.toNat < 0x80 then unquoteRuns (run ++ [c]) s
    else decodeReplace none (unquote_to_bytes run) ++ c :: unquoteRuns [] s

def unquote (s : Str) : Str := unquoteRuns [] s

@[simp] theorem unquote_nil : unquote [] = [] := rfl

example : unquote "a%20b%C3%A9%FF%zz".toList = "a bé\uFFFD%zz".toList := by decide

/-! ## Decoding piecewise -/

theorem lead_of_lt {b : Nat} (h : b < 0x80) : lead b = .inl (Char.ofNat b) := by
  rw [lead, if_pos h]

/-- The second byte of a sequence is never an ASCII byte. -/
theorem lead_lo {b : Nat} {p : Pending} (h : lead b = .inr p) : 0x80 ≤ p.lo := by
  unfold lead at h
  split_ifs at h <;> simp only [Sum.inr.injEq] at h <;> subst h <;> simp

/-- An ASCII byte ends the sequence before it, finished or not. -/
theorem decodeReplace_append_cons {b : Nat} (hb : b < 0x80) (ys : List Nat) :
    ∀ (xs : List Nat) (st : Option Pending), (∀ p, st = some p → 0x80 ≤ p.lo) →
      decodeReplace st (xs ++ b :: ys) =
        decodeReplace st xs ++ Char.ofNat b :: decodeReplace none ys
  | [], none, _ => by simp [decodeReplace, lead_of_lt hb]
  | [], some p, h => by
    have hlo := h p rfl
    have hout : ¬(p.lo ≤ b ∧ b ≤ p.hi) := by omega
    simp [decodeReplace, hout, lead_of_lt hb]
  | x :: xs, none, _ => by
    rw [List.cons_append, decodeReplace, decodeReplace]
    cases hx : lead x with
    | inl c => simp [decodeReplace_append_cons hb ys xs none (by simp)]
    | inr p =>
      exact decodeReplace_append_cons hb ys xs (some p) (by rintro _ ⟨⟩; exact lead_lo hx)
  | x :: xs, some p, h => by
    rw [List.cons_append, decodeReplace, decodeReplace]
    by_cases hin : p.lo ≤ x ∧ x ≤ p.hi
    · rw [if_pos hin, if_pos hin]
      by_cases hm : p.missing = 1
      · simp [hm, decodeReplace_append_cons hb ys xs none (by simp)]
      · simp only [hm, if_false]
        exact decodeReplace_append_cons hb ys xs (some _) (by simp)
    · rw [if_neg hin, if_neg hin]
      cases hx : lead x with
      | inl c => simp [decodeReplace_append_cons hb ys xs none (by simp)]
      | inr p =>
        simp [decodeReplace_append_cons hb ys xs (some p) (by rintro _ ⟨⟩; exact lead_lo hx)]

/-- A character that is no part of an escape separates what is decoded. -/
structure Separator (c : Char) : Prop where
  ascii : c.toNat < 0x80
  ne_percent : c ≠ '%'
  not_hex : hexVal c = none

theorem unquote_to_bytes_cons {c : Char} (hc : c ≠ '%') (s : Str) :
    unquote_to_bytes (c :: s) = c.toNat :: unquote_to_bytes s := by
  rw [unquote_to_bytes]
  rintro h l s rfl
  exact absurd rfl hc

/-- Two characters of which one is no digit are no escape. -/
theorem unquote_to_bytes_percent {h l : Char} (hl : hexVal h = none ∨ hexVal l = none) (s : Str) :
    unquote_to_bytes ('%' :: h :: l :: s) = '%'.toNat :: unquote_to_bytes (h :: l :: s) := by
  rw [unquote_to_bytes]
  rcases hl with hl | hl
  · simp [hl]
  · cases hexVal h <;> simp [hl]

theorem unquote_to_bytes_append_cons {c : Char} (hc : Separator c) (q : Str) (p : Str) :
    unquote_to_bytes (p ++ c :: q) = unquote_to_bytes p ++ c.toNat :: unquote_to_bytes q := by
  have hcq := unquote_to_bytes_cons hc.ne_percent q
  fun_induction unquote_to_bytes p with
  | case1 h l s x y hx hy ih => simp [unquote_to_bytes, hx, hy, ih]
  | case2 h l s hno ih =>
    have hl : hexVal h = none ∨ hexVal l = none := by
      cases hx : hexVal h with
      | none => exact .inl rfl
      | some x =>
        cases hy : hexVal l with
        | none => exact .inr rfl
        | some y => exact absurd hy (hno x y hx)
    rw [List.cons_append, List.cons_append, List.cons_append, unquote_to_bytes_percent hl]
    exact congrArg ('%'.toNat :: ·) ih
  | case3 d s hno ih =>
    by_cases hd : d = '%'
    · subst hd
      -- the separator stands where the escape would need a digit
      match s with
      | [] =>
        cases q with
        | nil => simp [unquote_to_bytes]
        | cons x q =>
          have hpercent := @unquote_to_bytes_percent c x (.inl hc.not_hex) q
          simpa [hcq, unquote_to_bytes] using hpercent
      | [l] => simpa [unquote_to_bytes_percent (.inr hc.not_hex) q] using ih
      | h :: l :: s => exact absurd rfl (hno h l s rfl)
    · rw [List.cons_append, unquote_to_bytes_cons hd, ih, List.cons_append]
  | case4 => exact hcq

theorem decode_append_cons {c : Char} (hc : Separator c) (p q : Str) :
    decodeReplace none (unquote_to_bytes (p ++ c :: q)) =
      decodeReplace none (unquote_to_bytes p) ++ c :: decodeReplace none (unquote_to_bytes q) := by
  rw [unquote_to_bytes_append_cons hc, decodeReplace_append_cons hc.ascii _ _ _ (by simp),
    Char.ofNat_toNat]

theorem unquoteRuns_append_run {c : Char} (hc : Separator c) (s : Str) :
    ∀ run run' : Str, unquoteRuns (run ++ c :: run') s =
      decodeReplace none (unquote_to_bytes run) ++ c :: unquoteRuns run' s := by
  induction s with
  | nil => intro run run'; simp [unquoteRuns, decode_append_cons hc]
  | cons d s ih =>
    intro run run'
    rw [unquoteRuns, unquoteRuns]
    by_cases hd : d.toNat < 0x80
    · rw [if_pos hd, if_pos hd, List.append_assoc, List.cons_append, ih]
    · simp [hd, decode_append_cons hc]

/-- The two sides of a separator are decoded on their own. -/
theorem unquote_append_cons {c : Char} (hc : Separator c) (p q : Str) :
    unquote (p ++ c :: q) = unquote p ++ c :: unquote q := by
  have hruns : ∀ run : Str,
      unquoteRuns run (p ++ c :: q) = unquoteRuns run p ++ c :: unquoteRuns [] q := by
    induction p with
    | nil =>
      intro run
      have hrun : unquoteRuns run (c :: q) = unquoteRuns (run ++ [c]) q := by
        rw [unquoteRuns, if_pos hc.ascii]
      rw [List.nil_append, hrun, unquoteRuns_append_run hc, unquoteRuns]
    | cons d p ih =>
      intro run
      rw [List.cons_append, unquoteRuns, unquoteRuns]
      by_cases hd : d.toNat < 0x80
      · rw [if_pos hd, if_pos hd, ih]
      · simp [hd, ih]
  exact hruns []

theorem decodeReplace_some_ne_nil (p : Pending) (bs : List Nat) : decodeReplace (some p) bs ≠ [] := by
  induction bs generalizing p with
  | nil => simp [decodeReplace]
  | cons b bs ih =>
    rw [decodeReplace]
    split_ifs
    · simp
    · exact ih _
    · cases lead b <;> simp

theorem decodeReplace_ne_nil {bs : List Nat} (h : bs ≠ []) : decodeReplace none bs ≠ [] := by
  cases bs with
  | nil => exact absurd rfl h
  | cons b bs =>
    rw [decodeReplace]
    cases lead b with
    | inl c => simp
    | inr p => exact decodeReplace_some_ne_nil p bs

theorem unquote_to_bytes_ne_nil {s : Str} (h : s ≠ []) : unquote_to_bytes s ≠ [] := by
  fun_cases unquote_to_bytes s <;> simp_all

/-- Something is decoded to something. -/
theorem unquote_ne_nil {s : Str} (h : s ≠ []) : unquote s ≠ [] := by
  have hruns : ∀ run : Str, run ≠ [] ∨ s ≠ [] → unquoteRuns run s ≠ [] := by
    clear h
    induction s with
    | nil =>
      intro run hrun
      exact decodeReplace_ne_nil (unquote_to_bytes_ne_nil (by simpa using hrun))
    | cons c s ih =>
      intro run _
      rw [unquoteRuns]
      split_ifs
      · exact ih _ (.inl (by simp))
      · simp
  exact hruns [] (.inr h)

/-! ## Query strings -/

def plusToSpace (s : Str) : Str := s.map fun c => if c = '+' then ' ' else c

/-- `parse_qsl(qs, keep_blank_values=True)`. -/
def parse_qsl (qs : Str) : List (Str × Str) :=
  ((qs.splitOn '&').filter (· ≠ [])).map fun name_value =>
    let (name, _, value) := partition '=' name_value
    (unquote (plusToSpace name), unquote (plusToSpace value))

/-- `parse_qs(qs, keep_blank_values=True)`. -/
def parse_qs (qs : Str) : Dict Str (List Str) :=
  (parse_qsl qs).foldl
    (fun d p => Dict.set d p.1 ((Dict.get d p.1).getD [] ++ [p.2])) []

end LocalStack.Url
