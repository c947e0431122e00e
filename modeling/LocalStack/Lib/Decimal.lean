import LocalStack.Lib.Text

/-! Decimal integers: `str(n)` and `int(s)`. -/

namespace LocalStack.Decimal
open LocalStack.Text

def natToStr (n : Nat) : Str := Nat.toDigits 10 n

/-- `str(n)`. -/
def intToStr (i : Int) : Str :=
  if i < 0 then '-' :: natToStr i.natAbs else natToStr i.natAbs

def isSpace (c : Char) : Bool :=
  c = ' ' || c = '\t' || c = '\n' || c = '\r' || c.toNat = 0x0B || c.toNat = 0x0C

/-- Digits with single underscores between them; the flag says that the last
character read was a digit. -/
def scanDigits : Bool → Nat → Str → Option Nat
  | afterDigit, n, [] => if afterDigit then some n else none
  | afterDigit, n, c :: s =>
    if c.isDigit then scanDigits true (10 * n + (c.toNat - '0'.toNat)) s
    else if c = '_' ∧ afterDigit then scanDigits false n s
    else none

def parseDigits (s : Str) : Option Nat := scanDigits false 0 s

/-- `int(s)` for ASCII text: `none` is a ValueError. -/
def parseInt (s : Str) : Option Int :=
  match (s.dropWhile isSpace).rdropWhile isSpace with
  | '-' :: s => (parseDigits s).map fun n : Nat => -(n : Int)
  | '+' :: s => (parseDigits s).map fun n : Nat => (n : Int)
  | s => (parseDigits s).map fun n : Nat => (n : Int)

example : parseInt " -1_000 ".toList = some (-1000) ∧ parseInt "1__0".toList = none := by decide

theorem natToStr_ne_nil (n : Nat) : natToStr n ≠ [] := Nat.toDigits_ne_nil

theorem intToStr_ne_nil (i : Int) : intToStr i ≠ [] := by
  unfold intToStr
  split_ifs
  · exact List.cons_ne_nil _ _
  · exact natToStr_ne_nil _

theorem isDigit_of_mem_natToStr {n : Nat} {c : Char} (h : c ∈ natToStr n) : c.isDigit = true :=
  Nat.isDigit_of_mem_toDigits (by decide) (by decide) h

theorem natToStr_injective {m n : Nat} (h : natToStr m = natToStr n) : m = n := by
  have hm := Nat.ofDigitChars_toDigits (b := 10) (n := m) (by decide) (by decide)
  rw [← natToStr, h, natToStr, Nat.ofDigitChars_toDigits (by decide) (by decide)] at hm
  exact hm.symm

theorem scanDigits_digits {s : Str} (hs : ∀ c ∈ s, c.isDigit = true) (n : Nat) :
    scanDigits true n s = some (Nat.ofDigitChars 10 s n) := by
  induction s generalizing n with
  | nil => simp [scanDigits]
  | cons c s ih =>
    rw [List.forall_mem_cons] at hs
    rw [scanDigits, if_pos hs.1, ih hs.2, Nat.ofDigitChars_cons]

theorem parseDigits_natToStr (n : Nat) : parseDigits (natToStr n) = some n := by
  have hall : ∀ c ∈ natToStr n, c.isDigit = true := fun _ h => isDigit_of_mem_natToStr h
  have hval := Nat.ofDigitChars_toDigits (b := 10) (n := n) (by decide) (by decide)
  rw [← natToStr] at hval
  cases hs : natToStr n with
  | nil => exact absurd hs (natToStr_ne_nil n)
  | cons c s =>
    rw [hs] at hall hval
    rw [List.forall_mem_cons] at hall
    rw [parseDigits, scanDigits, if_pos hall.1, scanDigits_digits hall.2,
      ← Nat.ofDigitChars_cons, hval]

/-- Only digits and the sign occur in a printed integer. -/
theorem mem_intToStr {i : Int} {c : Char} (h : c ∈ intToStr i) : c.isDigit = true ∨ c = '-' := by
  unfold intToStr at h
  split at h
  · rcases List.mem_cons.mp h with rfl | h
    · exact Or.inr rfl
    · exact Or.inl (isDigit_of_mem_natToStr h)
  · exact Or.inl (isDigit_of_mem_natToStr h)

theorem toNat_lt_of_isSpace {c : Char} (h : isSpace c = true) : c.toNat < 33 := by
  simp only [isSpace, Bool.or_eq_true, decide_eq_true_eq] at h
  rcases h with ((((rfl | rfl) | rfl) | rfl) | h) | h
  all_goals first | decide | omega

theorem toNat_of_isDigit {c : Char} (h : c.isDigit = true) : 48 ≤ c.toNat := by
  simp only [Char.isDigit, Bool.and_eq_true, decide_eq_true_eq, ge_iff_le,
    UInt32.le_iff_toNat_le] at h
  exact h.1

theorem not_isSpace_of_mem_intToStr {i : Int} {c : Char} (h : c ∈ intToStr i) :
    isSpace c = false := by
  have hval : 33 ≤ c.toNat := by
    rcases mem_intToStr h with hd | rfl
    · exact Nat.le_trans (by decide) (toNat_of_isDigit hd)
    · decide
  rw [← Bool.not_eq_true]
  intro hs
  exact absurd (toNat_lt_of_isSpace hs) (by omega)

theorem strip_intToStr (i : Int) :
    ((intToStr i).dropWhile isSpace).rdropWhile isSpace = intToStr i := by
  have hd : (intToStr i).dropWhile isSpace = intToStr i := by
    rw [List.dropWhile_eq_self_iff]
    intro hpos
    simp [not_isSpace_of_mem_intToStr (List.getElem_mem hpos)]
  rw [hd, List.rdropWhile_eq_self_iff]
  intro hne
  simp [not_isSpace_of_mem_intToStr (List.getLast_mem hne)]

/-- Printed integers read back. -/
theorem parseInt_intToStr (i : Int) : parseInt (intToStr i) = some i := by
  rw [parseInt, strip_intToStr]
  by_cases hneg : i < 0
  · rw [show intToStr i = '-' :: natToStr i.natAbs from if_pos hneg]
    simp only [parseDigits_natToStr, Option.map_some, Option.some.injEq]
    omega
  · rw [show intToStr i = natToStr i.natAbs from if_neg hneg]
    have hsign : ∀ c s, natToStr i.natAbs = c :: s → c ≠ '-' ∧ c ≠ '+' := by
      intro c s hs
      have hc := isDigit_of_mem_natToStr (n := i.natAbs) (c := c) (by simp [hs])
      refine ⟨?_, ?_⟩ <;> rintro rfl <;> exact absurd hc (by decide)
    split
    · next s hs => exact absurd rfl (hsign _ _ hs).1
    · next s hs => exact absurd rfl (hsign _ _ hs).2
    · simp only [parseDigits_natToStr, Option.map_some, Option.some.injEq]
      omega

end LocalStack.Decimal
