import LocalStack.Lib.BinaryFloat
import LocalStack.Lib.IntText

/-! `float(s)` for text of all scripts. -/

namespace LocalStack.FloatText
open LocalStack.Text LocalStack.Decimal LocalStack.IntText LocalStack.BinaryFloat

def dropSign : Str → Str
  | '+' :: s => s
  | '-' :: s => s
  | s => s

def isNegative (s : Str) : Bool := s.head? = some '-'

/-- The digits on one side of a point; there may be none. -/
def optionalDigits (s : Str) : Option Nat := if s = [] then some 0 else parseDigits s

/-- Digits with a point before, between or after them. -/
def mantissa (s : Str) : Option ℚ :=
  match partition '.' s with
  | (whole, [], _) => (parseDigits whole).map fun n : Nat => (n : ℚ)
  | (whole, _ :: _, fraction) =>
    if whole = [] ∧ fraction = [] then none
    else do
      let n ← optionalDigits whole
      let m ← optionalDigits fraction
      return n + m / 10 ^ fraction.countP Char.isDigit

def decimal (s : Str) : Option ℚ :=
  match s.span fun c => c ≠ 'e' && c ≠ 'E' with
  | (s, []) => mantissa s
  | (s, _ :: exponent) => do
    let q ← mantissa s
    let n ← parseDigits (dropSign exponent)
    return q * 10 ^ (if isNegative exponent then -(n : Int) else n)

/-- The double next to `q`; there is always one here, if only an infinity. -/
def toDouble (q : ℚ) : Number :=
  match double.round q with
  | some r => .finite r
  | none => .special (if q < 0 then .negInf else .inf)

/-- A special value or a decimal number, with an optional sign. -/
def unspacedFloat (s : Str) : Option Number :=
  let name := (dropSign s).map Char.toLower
  if name ∈ ["inf".toList, "infinity".toList] then
    some (.special (if isNegative s then .negInf else .inf))
  else if name = "nan".toList then some (.special .nan)
  else (decimal (dropSign s)).map fun q => toDouble (if isNegative s then -q else q)

/-- `float(s)` for ASCII text: `none` is a ValueError. -/
def asciiFloat (s : Str) : Option Number :=
  unspacedFloat ((s.dropWhile isSpace).rdropWhile isSpace)

/-- `float(s)`. -/
def float (s : Str) : Option Number := asciiFloat (s.map toAscii)

example : float " -1_0.5e+1\n".toList = some (.finite (-105)) ∧
    float "٤.٥".toList = some (.finite (9 / 2)) := by decide +kernel

/-- `float(s)` raises no ValueError. -/
def isFloat (s : Str) : Bool := (float s).isSome

example : isFloat ".5".toList = true ∧ isFloat "+Infinity".toList = true ∧
    isFloat ".".toList = false ∧ isFloat "1e".toList = false ∧ isFloat "1_.5".toList = false := by
  decide +kernel

/-! ## White space at the front -/

section
variable {c : Char} (hlt : c.toNat < 127) (hspace : isSpace c = true)
include hlt hspace

theorem dropWhile_map_toAscii_cons (s : Str) :
    ((c :: s).map toAscii).dropWhile isSpace = (s.map toAscii).dropWhile isSpace := by
  rw [List.map_cons, toAscii_of_lt hlt, List.dropWhile_cons_of_pos hspace]

theorem float_cons (s : Str) : float (c :: s) = float s := by
  rw [float, asciiFloat, dropWhile_map_toAscii_cons hlt hspace, ← asciiFloat, ← float]

theorem int_cons (s : Str) : IntText.int (c :: s) = IntText.int s := by
  have hdigit : ¬c.isDigit = true := by
    intro hd
    have hge := toNat_of_isDigit hd
    have hle := toNat_lt_of_isSpace hspace
    omega
  rw [IntText.int, parseInt, dropWhile_map_toAscii_cons hlt hspace, List.map_cons,
    toAscii_of_lt hlt, List.countP_cons_of_neg hdigit, ← parseInt, ← IntText.int]

end

end LocalStack.FloatText
