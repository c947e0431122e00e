import LocalStack.Lib.Decimal
import LocalStack.Lib.Regex

/-! `int(s)` and `s.strip()` for text of all scripts. -/

namespace LocalStack.IntText
open LocalStack.Text LocalStack.Decimal LocalStack.Regex

/-- The value of a decimal digit of any script. -/
def digitValue (c : Char) : Option Nat :=
  (decimalZeros.find? fun z => z ≤ c.toNat ∧ c.toNat < z + 10).map fun z => c.toNat - z

/-- Spaces and digits are replaced by their ASCII forms before a number is read;
`?` stands for whatever no number can contain. -/
def toAscii (c : Char) : Char :=
  if c.toNat < 127 then c
  else if whitespace c then ' '
  else match digitValue c with
    | some d => Char.ofNat (48 + d)
    | none => '?'

/-- `sys.int_info.default_max_str_digits`. -/
def maxStrDigits : Nat := 4300

/-- `int(s)`: `none` is a ValueError. -/
def int (s : Str) : Option Int :=
  if maxStrDigits < (s.map toAscii).countP Char.isDigit then none else parseInt (s.map toAscii)

example : int "٤٥٦٦".toList = some 4566 ∧ int "४५६६ ".toList = some 4566 := by decide +kernel

/-- `s.strip()`. -/
def stripSpace (s : Str) : Str := (s.dropWhile whitespace).rdropWhile whitespace

/-- White space around a text that neither begins nor ends with any. -/
theorem stripSpace_append {lead core trail : Str} (hlead : ∀ c ∈ lead, whitespace c = true)
    (htrail : ∀ c ∈ trail, whitespace c = true) (hhead : ∀ c ∈ core.head?, whitespace c = false)
    (hlast : ∀ c ∈ core.getLast?, whitespace c = false) (hne : core ≠ []) :
    stripSpace (lead ++ core ++ trail) = core := by
  have hfront : (lead ++ core ++ trail).dropWhile whitespace = core ++ trail := by
    rw [List.append_assoc, List.dropWhile_append_of_pos hlead]
    cases core with
    | nil => exact absurd rfl hne
    | cons c core => rw [List.cons_append, List.dropWhile_cons_of_neg (by simpa using hhead c rfl)]
  have hback : core.reverse.dropWhile whitespace = core.reverse := by
    cases hr : core.reverse with
    | nil => rfl
    | cons c r =>
      have hc : core.getLast? = some c := by rw [← List.head?_reverse, hr, List.head?_cons]
      rw [List.dropWhile_cons_of_neg (by simpa using hlast c hc)]
  rw [stripSpace, hfront, List.rdropWhile, List.reverse_append,
    List.dropWhile_append_of_pos fun c hc => htrail c (List.mem_reverse.mp hc), hback,
    List.reverse_reverse]

theorem toAscii_of_lt {c : Char} (h : c.toNat < 127) : toAscii c = c := if_pos h

theorem toNat_lt_of_isDigit {c : Char} (h : c.isDigit = true) : c.toNat < 58 := by
  simp only [Char.isDigit, Bool.and_eq_true, decide_eq_true_eq, ge_iff_le,
    UInt32.le_iff_toNat_le] at h
  exact Nat.lt_succ_of_le h.2

theorem map_toAscii_intToStr (i : Int) : (intToStr i).map toAscii = intToStr i := by
  refine (List.map_congr_left fun c hc => ?_).trans (List.map_id _)
  apply toAscii_of_lt
  rcases mem_intToStr hc with hd | rfl
  · have := toNat_lt_of_isDigit hd
    omega
  · decide

/-- Printed integers read back, up to the limit on their length. -/
theorem int_intToStr {i : Int} (h : (intToStr i).length ≤ maxStrDigits) :
    int (intToStr i) = some i := by
  have hcount := List.countP_le_length (p := Char.isDigit) (l := intToStr i)
  rw [int, map_toAscii_intToStr, if_neg (by omega), parseInt_intToStr]

end LocalStack.IntText
