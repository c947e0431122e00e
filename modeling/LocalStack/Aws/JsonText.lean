import LocalStack.Aws.Value
import LocalStack.Lib.Decimal

/-! `json.dumps` of a value. The text of a float is a parameter. -/

namespace LocalStack.Aws.JsonText
open LocalStack.Text LocalStack.Decimal

/-- `item_separator` and `key_separator`. -/
structure Separators where
  item : Str := ", ".toList
  key : Str := ": ".toList

def compact : Separators := ⟨[','], [':']⟩

/-- Four hexadecimal digits. -/
def hex4 (n : Nat) : Str :=
  [Nat.digitChar (n / 4096), Nat.digitChar (n / 256 % 16), Nat.digitChar (n / 16 % 16),
    Nat.digitChar (n % 16)]

/-- With `ensure_ascii`: a character outside the basic plane becomes a surrogate pair. -/
def escapeChar (c : Char) : Str :=
  if c = '"' then ['\\', '"']
  else if c = '\\' then ['\\', '\\']
  else if c = '\n' then ['\\', 'n']
  else if c = '\r' then ['\\', 'r']
  else if c = '\t' then ['\\', 't']
  else if c.toNat = 12 then ['\\', 'f']
  else if c.toNat = 8 then ['\\', 'b']
  else if 32 ≤ c.toNat ∧ c.toNat ≤ 126 then [c]
  else if c.toNat < 0x10000 then '\\' :: 'u' :: hex4 c.toNat
  else '\\' :: 'u' :: hex4 (0xD800 + (c.toNat - 0x10000) / 1024) ++
    '\\' :: 'u' :: hex4 (0xDC00 + (c.toNat - 0x10000) % 1024)

def encodeString (s : Str) : Str := '"' :: s.flatMap escapeChar ++ ['"']

example : encodeString "a\"é😀".toList = "\"a\\\"\\u00e9\\ud83d\\ude00\"".toList := by decide

section
variable (separators : Separators) (reprFloat : ℚ → Str)

mutual

def dumps : Value → Except Error Str
  | .none => .ok "null".toList
  | .bool b => .ok (if b then "true".toList else "false".toList)
  | .int i => .ok (intToStr i)
  | .float q => .ok (reprFloat q)
  | .special .inf => .ok "Infinity".toList
  | .special .negInf => .ok "-Infinity".toList
  | .special .nan => .ok "NaN".toList
  | .str s => .ok (encodeString s)
  | .list vs => do return '[' :: separators.item.intercalate (← dumpsItems vs) ++ [']']
  | .dict d => do return '\x7b' :: separators.item.intercalate (← dumpsEntries d) ++ ['\x7d']
  | .bytes _ | .datetime _ => .error .typeError

def dumpsItems : List Value → Except Error (List Str)
  | [] => .ok []
  | v :: vs => do return (← dumps v) :: (← dumpsItems vs)

def dumpsEntries : List (Str × Value) → Except Error (List Str)
  | [] => .ok []
  | (k, v) :: d => do
    return (encodeString k ++ separators.key ++ (← dumps v)) :: (← dumpsEntries d)

end

end

end LocalStack.Aws.JsonText
