import LocalStack.Aws.JsonText
import LocalStack.Lib.HexText
import LocalStack.Lib.IntText

/-! `json.loads`, and that it reads back what `json.dumps` writes. The value of a number
with a fraction or an exponent is a parameter. Strings with half of a surrogate pair and
the constants of numbers that are not finite are not modelled. -/

namespace LocalStack.Aws.JsonLoads
open LocalStack.Text LocalStack.Decimal LocalStack.OrderedDict LocalStack.Aws.JsonText
open LocalStack.IntText (maxStrDigits)

/-! ## Decoder -/

def isSpace (c : Char) : Bool := c = ' ' || c = '\t' || c = '\n' || c = '\r'

def skipSpace (s : Str) : Str := s.dropWhile isSpace

/-- Four hexadecimal digits. -/
def readHex4 : Str → Option (Nat × Str)
  | a :: b :: c :: d :: rest => do
    return (4096 * (← hexVal a) + 256 * (← hexVal b) + 16 * (← hexVal c) + (← hexVal d), rest)
  | _ => none

def backslash (c : Char) : Option Char :=
  match c with
  | '"' => some '"'
  | '\\' => some '\\'
  | '/' => some '/'
  | 'b' => some (Char.ofNat 8)
  | 'f' => some (Char.ofNat 12)
  | 'n' => some '\n'
  | 'r' => some '\r'
  | 't' => some '\t'
  | _ => none

/-- What follows `\u`; two halves of a surrogate pair are one character. -/
def readUnicode (s : Str) : Option (Char × Str) := do
  let (uni, rest) ← readHex4 s
  if 0xD800 ≤ uni ∧ uni < 0xDC00 then
    match rest with
    | '\\' :: 'u' :: rest =>
      let (uni2, rest) ← readHex4 rest
      if 0xDC00 ≤ uni2 ∧ uni2 < 0xE000 then
        return (Char.ofNat (0x10000 + ((uni - 0xD800) * 1024 + (uni2 - 0xDC00))), rest)
      else none
    | _ => none
  else if 0xDC00 ≤ uni ∧ uni < 0xE000 then none
  else return (Char.ofNat uni, rest)

/-- The first character of the rest of a string. -/
def readChar : Str → Option (Char × Str)
  | [] => none
  | c :: rest =>
    if c = '\\' then
      match rest with
      | [] => none
      | 'u' :: rest => readUnicode rest
      | c :: rest => (backslash c).map fun c => (c, rest)
    else if 32 ≤ c.toNat then some (c, rest)
    else none

/-- `scanstring`, behind the quote. Every character is at least one step. -/
def scanstring : Nat → Str → Option (Str × Str)
  | 0, _ => none
  | fuel + 1, s =>
    if s.head? = some '"' then some ([], s.tail)
    else do
      let (c, rest) ← readChar s
      let (cs, rest) ← scanstring fuel rest
      return (c :: cs, rest)

/-- A fraction or an exponent: a mark, a sign and digits. -/
def numberPart (marks signs : Str) (s : Str) : Str :=
  match s with
  | c :: rest =>
    if c ∈ marks then
      let sign := rest.take (if rest.head?.any (· ∈ signs) then 1 else 0)
      let digits := (rest.drop sign.length).takeWhile Char.isDigit
      if digits = [] then [] else c :: sign ++ digits
    else []
  | [] => []

/-- The digits of a number: a zero, or digits that begin with another one. -/
def wholeDigits (s : Str) : Str :=
  if s.head? = some '0' then ['0'] else s.takeWhile Char.isDigit

section
variable (parse_float : Str → Option Value)

def number (s : Str) : Option (Value × Str) :=
  let sign := if s.head? = some '-' then ['-'] else []
  let s := s.drop sign.length
  let whole := wholeDigits s
  let rest := s.drop whole.length
  let frac := numberPart ['.'] [] rest
  let exp := numberPart ['e', 'E'] ['+', '-'] (rest.drop frac.length)
  if whole = [] then none
  else if frac = [] ∧ exp = [] then
    if whole.length ≤ maxStrDigits then
      let n : Nat := Nat.ofDigitChars 10 whole 0
      some (.int (if sign = [] then n else -n), rest)
    else none
  else (parse_float (sign ++ whole ++ frac ++ exp)).map fun v =>
    (v, rest.drop (frac.length + exp.length))

def literal (name : String) (v : Value) (s : Str) : Option (Value × Str) :=
  if name.toList <+: s then some (v, s.drop name.toList.length) else none

mutual

/-- `scan_once`, with nesting bounded by `fuel`. -/
def scan_once : Nat → Str → Option (Value × Str)
  | 0, _ => none
  | fuel + 1, s =>
    match s with
    | [] => none
    | c :: rest =>
      if c = '"' then (scanstring (rest.length + 1) rest).map fun r => (.str r.1, r.2)
      else if c = '\x7b' then
        let rest := skipSpace rest
        if rest.head? = some '\x7d' then some (.dict [], rest.tail)
        else (scanMembers fuel rest).map fun r => (.dict (Dict.ofPairs r.1), r.2)
      else if c = '[' then
        let rest := skipSpace rest
        if rest.head? = some ']' then some (.list [], rest.tail)
        else (scanItems fuel rest).map fun r => (.list r.1, r.2)
      else
        (literal "null" .none s).or <| (literal "true" (.bool true) s).or <|
          (literal "false" (.bool false) s).or <| number parse_float s

/-- `JSONArray`, from an item on. -/
def scanItems : Nat → Str → Option (List Value × Str)
  | 0, _ => none
  | fuel + 1, s => do
    let (v, rest) ← scan_once fuel s
    match skipSpace rest with
    | ']' :: rest => return ([v], rest)
    | ',' :: rest => do
      let (vs, rest) ← scanItems fuel (skipSpace rest)
      return (v :: vs, rest)
    | _ => none

/-- `JSONObject`, from a key on. -/
def scanMembers : Nat → Str → Option (List (Str × Value) × Str)
  | 0, _ => none
  | fuel + 1, s =>
    match s with
    | '"' :: rest => do
      let (k, rest) ← scanstring (rest.length + 1) rest
      match skipSpace rest with
      | ':' :: rest => do
        let (v, rest) ← scan_once fuel (skipSpace rest)
        match skipSpace rest with
        | '\x7d' :: rest => return ([(k, v)], rest)
        | ',' :: rest => do
          let (d, rest) ← scanMembers fuel (skipSpace rest)
          return ((k, v) :: d, rest)
        | _ => none
      | _ => none
    | _ => none

end

/-- `json.loads`; `none` stands for its errors. -/
def loads (s : Str) : Option Value :=
  match scan_once parse_float (2 * s.length + 1) (skipSpace s) with
  | some (v, rest) => if skipSpace rest = [] then some v else none
  | none => none

end

/-! ## Strings -/

theorem readHex4_hex4 {n : Nat} (h : n < 65536) (rest : Str) :
    readHex4 (hex4 n ++ rest) = some (n, rest) := by
  have hdigit : ∀ v, v < 16 → hexVal v.digitChar = some v := fun v hv => HexText.hexVal_digitChar hv
  simp only [hex4, List.cons_append, List.nil_append, readHex4, hdigit (n / 4096) (by omega),
    hdigit (n / 256 % 16) (by omega), hdigit (n / 16 % 16) (by omega), hdigit (n % 16) (by omega),
    bind, Option.bind, pure]
  congr 2
  omega

theorem readUnicode_basic {c : Char} (h : c.toNat < 0x10000) (rest : Str) :
    readUnicode (hex4 c.toNat ++ rest) = some (c, rest) := by
  have hvalid : c.toNat < 0xD800 ∨ 0xDFFF < c.toNat := c.valid.imp id And.left
  rw [readUnicode, readHex4_hex4 h]
  simp only [bind, Option.bind, pure]
  rw [if_neg (by omega), if_neg (by omega), Char.ofNat_toNat]

theorem readUnicode_pair {hi lo : Nat} (hhi : 0xD800 ≤ hi ∧ hi < 0xDC00)
    (hlo : 0xDC00 ≤ lo ∧ lo < 0xE000) (rest : Str) :
    readUnicode (hex4 hi ++ ('\\' :: 'u' :: (hex4 lo ++ rest))) =
      some (Char.ofNat (0x10000 + ((hi - 0xD800) * 1024 + (lo - 0xDC00))), rest) := by
  rw [readUnicode, readHex4_hex4 (by omega)]
  simp only [bind, Option.bind, pure, if_pos hhi, readHex4_hex4 (show lo < 65536 by omega),
    if_pos hlo]

/-- The halves of the pair of a character beyond the basic plane. -/
theorem surrogates {c : Char} (h : 0x10000 ≤ c.toNat) :
    (c.toNat - 0x10000) / 1024 < 1024 ∧ (c.toNat - 0x10000) % 1024 < 1024 ∧
      0x10000 + ((c.toNat - 0x10000) / 1024 * 1024 + (c.toNat - 0x10000) % 1024) = c.toNat := by
  have hlt : c.toNat < 0x110000 := by
    have hv := c.valid
    simp only [UInt32.isValidChar, Nat.isValidChar] at hv
    rw [Char.toNat]
    omega
  omega

theorem readChar_plain {c : Char} (h : c ≠ '\\') (hc : 32 ≤ c.toNat) (rest : Str) :
    readChar (c :: rest) = some (c, rest) := by
  rw [readChar.eq_def]
  simp only [h, if_false, hc, if_true]

theorem readChar_unicode (rest : Str) :
    readChar ('\\' :: 'u' :: rest) = readUnicode rest := rfl

/-- An escaped character is read back. -/
theorem readChar_escapeChar (c : Char) (rest : Str) :
    readChar (escapeChar c ++ rest) = some (c, rest) := by
  rw [escapeChar]
  by_cases hquote : c = '"'
  · rw [if_pos hquote, hquote]; rfl
  rw [if_neg hquote]
  by_cases hslash : c = '\\'
  · rw [if_pos hslash, hslash]; rfl
  rw [if_neg hslash]
  by_cases hline : c = '\n'
  · rw [if_pos hline, hline]; rfl
  rw [if_neg hline]
  by_cases hreturn : c = '\r'
  · rw [if_pos hreturn, hreturn]; rfl
  rw [if_neg hreturn]
  by_cases htab : c = '\t'
  · rw [if_pos htab, htab]; rfl
  rw [if_neg htab]
  by_cases hfeed : c.toNat = 12
  · have hc : c = Char.ofNat 12 := by rw [← hfeed, Char.ofNat_toNat]
    rw [if_pos hfeed, hc]; rfl
  rw [if_neg hfeed]
  by_cases hback : c.toNat = 8
  · have hc : c = Char.ofNat 8 := by rw [← hback, Char.ofNat_toNat]
    rw [if_pos hback, hc]; rfl
  rw [if_neg hback]
  by_cases hplain : 32 ≤ c.toNat ∧ c.toNat ≤ 126
  · rw [if_pos hplain]
    exact readChar_plain hslash hplain.1 rest
  rw [if_neg hplain]
  by_cases hbasic : c.toNat < 0x10000
  · rw [if_pos hbasic]
    exact readUnicode_basic hbasic rest
  · rw [if_neg hbasic]
    obtain ⟨hhi, hlo, hsum⟩ := surrogates (Nat.le_of_not_lt hbasic)
    have hpair := @readUnicode_pair (0xD800 + (c.toNat - 0x10000) / 1024)
      (0xDC00 + (c.toNat - 0x10000) % 1024) (by omega) (by omega) rest
    rw [Nat.add_sub_cancel_left, Nat.add_sub_cancel_left, hsum, Char.ofNat_toNat] at hpair
    exact (readChar_unicode _).trans hpair

theorem escapeChar_eq_cons (c : Char) : ∃ d t, escapeChar c = d :: t ∧ d ≠ '"' := by
  rw [escapeChar]
  by_cases hquote : c = '"'
  · rw [if_pos hquote]
    exact ⟨_, _, rfl, by decide⟩
  rw [if_neg hquote]
  repeat' apply iteInduction (motive := fun s => ∃ d t, s = d :: t ∧ d ≠ '"') <;> intro _
  all_goals first | exact ⟨_, _, rfl, hquote⟩ | exact ⟨_, _, rfl, by decide⟩

theorem head_escapeChar (c : Char) (rest : Str) : (escapeChar c ++ rest).head? ≠ some '"' := by
  obtain ⟨d, t, ht, hd⟩ := escapeChar_eq_cons c
  simpa [ht] using hd

theorem escapeChar_ne_nil (c : Char) : escapeChar c ≠ [] := by
  obtain ⟨d, t, ht, -⟩ := escapeChar_eq_cons c
  rw [ht]
  exact List.cons_ne_nil d t

theorem scanstring_encoded (s rest : Str) {fuel : Nat} (h : s.length < fuel) :
    scanstring fuel (s.flatMap escapeChar ++ '"' :: rest) = some (s, rest) := by
  induction s generalizing fuel with
  | nil =>
    obtain ⟨fuel, rfl⟩ := Nat.exists_eq_succ_of_ne_zero (Nat.ne_zero_of_lt h)
    rfl
  | cons c s ih =>
    obtain ⟨fuel, rfl⟩ := Nat.exists_eq_succ_of_ne_zero (Nat.ne_zero_of_lt h)
    rw [List.flatMap_cons, List.append_assoc, scanstring, if_neg (head_escapeChar c _),
      readChar_escapeChar]
    simp only [bind, Option.bind, ih (Nat.lt_of_succ_lt_succ h)]
    rfl

theorem length_le_flatMap (s : Str) : s.length ≤ (s.flatMap escapeChar).length := by
  induction s with
  | nil => exact Nat.le_refl 0
  | cons c s ih =>
    have hpos := List.length_pos_iff.mpr (escapeChar_ne_nil c)
    rw [List.flatMap_cons, List.length_append, List.length_cons]
    omega

theorem scanstring_encodeString (s rest : Str) :
    scanstring ((s.flatMap escapeChar ++ '"' :: rest).length + 1)
      (s.flatMap escapeChar ++ '"' :: rest) = some (s, rest) := by
  refine scanstring_encoded s rest ?_
  have hle := length_le_flatMap s
  rw [List.length_append]
  omega

/-! ## Numbers -/

/-- What may stand behind a number. -/
def Ends (rest : Str) : Prop :=
  ∀ c ∈ rest.head?, c.isDigit = false ∧ c ≠ '.' ∧ c ≠ 'e' ∧ c ≠ 'E'

theorem takeWhile_digits {s rest : Str} (hs : ∀ c ∈ s, c.isDigit = true) (hr : Ends rest) :
    (s ++ rest).takeWhile Char.isDigit = s := by
  induction s with
  | nil =>
    cases rest with
    | nil => rfl
    | cons c rest => simp [(hr c rfl).1]
  | cons c s ih =>
    rw [List.forall_mem_cons] at hs
    rw [List.cons_append, List.takeWhile_cons_of_pos hs.1, ih hs.2]

theorem head_natToStr {n : Nat} (h : 0 < n) : (natToStr n).head? ≠ some '0' := by
  induction n using Nat.strongRecOn with
  | ind n ih =>
    rw [natToStr, Nat.toDigits_eq_if (by decide)]
    split
    · next hlt =>
      have hall : ∀ m < 10, 0 < m → [Nat.digitChar m].head? ≠ some '0' := by decide
      exact hall n hlt h
    · next hge =>
      rw [List.head?_append_of_ne_nil _ Nat.toDigits_ne_nil]
      exact ih (n / 10) (by omega) (by omega)

theorem wholeDigits_natToStr (n : Nat) {rest : Str} (hr : Ends rest) :
    wholeDigits (natToStr n ++ rest) = natToStr n := by
  cases Nat.eq_zero_or_pos n with
  | inl h =>
    subst h
    rfl
  | inr h =>
    rw [wholeDigits, List.head?_append_of_ne_nil _ (natToStr_ne_nil n), if_neg (head_natToStr h)]
    exact takeWhile_digits (fun c hc => isDigit_of_mem_natToStr hc) hr

theorem numberPart_nil {marks signs rest : Str} (h : ∀ c ∈ rest.head?, c ∉ marks) :
    numberPart marks signs rest = [] := by
  cases rest with
  | nil => rfl
  | cons c rest => rw [numberPart, if_neg (h c rfl)]

section
variable {parse_float : Str → Option Value}

/-- The number behind the sign. -/
theorem number_natToStr (sign : Str) (hsign : sign = [] ∨ sign = ['-']) (n : Nat) {rest : Str}
    (hlen : (natToStr n).length ≤ maxStrDigits) (hr : Ends rest) :
    number parse_float (sign ++ (natToStr n ++ rest)) =
      some (.int (if sign = [] then (n : Int) else -(n : Int)), rest) := by
  have hhead : (if (sign ++ (natToStr n ++ rest)).head? = some '-' then ['-'] else []) = sign := by
    rcases hsign with rfl | rfl
    · rw [List.nil_append, List.head?_append_of_ne_nil _ (natToStr_ne_nil n), if_neg]
      intro h
      exact absurd (isDigit_of_mem_natToStr (List.mem_of_head? h)) (by decide)
    · rfl
  have hdrop : (sign ++ (natToStr n ++ rest)).drop sign.length = natToStr n ++ rest :=
    List.drop_left
  have hfrac : numberPart ['.'] [] rest = [] :=
    numberPart_nil fun c hc => by simpa using (hr c hc).2.1
  have hexp : numberPart ['e', 'E'] ['+', '-'] rest = [] :=
    numberPart_nil fun c hc => by simpa using (hr c hc).2.2
  have hval : Nat.ofDigitChars 10 (natToStr n) 0 = n :=
    Nat.ofDigitChars_toDigits (by decide) (by decide)
  rw [number]
  simp only [hhead, hdrop, wholeDigits_natToStr n hr, List.drop_left, hfrac, List.length_nil,
    List.drop_zero, hexp, and_self, if_true, if_neg (natToStr_ne_nil n), if_pos hlen, hval]

/-! ## Values -/

/-- The values whose text says all of them. -/
inductive Writable : Value → Prop
  | none : Writable .none
  | bool (b : Bool) : Writable (.bool b)
  | int {i : Int} (h : (natToStr i.natAbs).length ≤ maxStrDigits) : Writable (.int i)
  | str (s : Str) : Writable (.str s)
  | list {vs : List Value} (h : ∀ v ∈ vs, Writable v) : Writable (.list vs)
  | dict {d : Dict Str Value} (hd : d.WF) (h : ∀ p ∈ d, Writable p.2) : Writable (.dict d)

/-- The separators are a comma and a colon, with spaces behind them. -/
structure Spaced (separators : Separators) (w w' : Str) : Prop where
  item : separators.item = ',' :: w
  key : separators.key = ':' :: w'
  item_space : ∀ c ∈ w, isSpace c = true
  key_space : ∀ c ∈ w', isSpace c = true

theorem compact_spaced : Spaced compact [] [] := ⟨rfl, rfl, by simp, by simp⟩

/-- The text begins without a space and not as an empty container ends. -/
def Begins (t : Str) : Prop :=
  ∃ c s, t = c :: s ∧ isSpace c = false ∧ c ≠ ']' ∧ c ≠ '\x7d'

/-- The text is read as the value, whatever follows. -/
structure Reads (parse_float : Str → Option Value) (v : Value) (t : Str) : Prop where
  begins : Begins t
  scan : ∀ rest fuel, Ends rest → 2 * t.length < fuel →
    scan_once parse_float fuel (t ++ rest) = some (v, rest)

theorem Begins.append {t : Str} (h : Begins t) (s : Str) : Begins (t ++ s) := by
  obtain ⟨c, s', rfl, hc⟩ := h
  exact ⟨c, s' ++ s, rfl, hc⟩

theorem skipSpace_begins {w t : Str} (hw : ∀ c ∈ w, isSpace c = true) (h : Begins t) :
    skipSpace (w ++ t) = t := by
  obtain ⟨c, s, rfl, hc, -⟩ := h
  rw [skipSpace, List.dropWhile_append_of_pos hw, List.dropWhile_cons_of_neg (by simp [hc])]

theorem ends_cons {c : Char} (h : c = ',' ∨ c = ']' ∨ c = '\x7d') (s : Str) : Ends (c :: s) := by
  rintro c' ⟨⟩
  rcases h with rfl | rfl | rfl <;> decide

theorem skipSpace_cons {c : Char} (h : isSpace c = false) (s : Str) :
    skipSpace (c :: s) = c :: s := List.dropWhile_cons_of_neg (by simp [h])

theorem reads_literal (name : String) {v : Value} (hb : Begins name.toList)
    (h : ∀ fuel rest, scan_once parse_float (fuel + 1) (name.toList ++ rest) = some (v, rest)) :
    Reads parse_float v name.toList := by
  refine ⟨hb, fun rest fuel _ hf => ?_⟩
  obtain ⟨fuel, rfl⟩ := Nat.exists_eq_succ_of_ne_zero (Nat.ne_zero_of_lt hf)
  exact h fuel rest

theorem reads_string (s : Str) : Reads parse_float (.str s) (encodeString s) := by
  refine ⟨⟨'"', _, rfl, by decide⟩, fun rest fuel _ hf => ?_⟩
  obtain ⟨fuel, rfl⟩ := Nat.exists_eq_succ_of_ne_zero (Nat.ne_zero_of_lt hf)
  have htext : encodeString s ++ rest = '"' :: (s.flatMap escapeChar ++ '"' :: rest) := by
    simp [encodeString]
  rw [htext, scan_once]
  simp only [if_true, scanstring_encodeString, Option.map_some]

/-- A text that begins with a sign or a digit is that of a number. -/
theorem scan_once_number {c : Char} (hc : c = '-' ∨ c.isDigit = true) (s : Str) (fuel : Nat) :
    scan_once parse_float (fuel + 1) (c :: s) = number parse_float (c :: s) := by
  have hne : ∀ d : Char, d.isDigit = false → d ≠ '-' → c ≠ d := by
    rintro d hd hd' rfl
    rcases hc with h | h
    · exact hd' h
    · exact absurd (h.symm.trans hd) (by simp)
  have hliteral : ∀ (name : String) (v : Value) (d : Char) (n : Str), name.toList = d :: n →
      c ≠ d → literal name v (c :: s) = none := by
    intro name v d n hname hcd
    rw [literal, if_neg]
    rw [hname, List.cons_prefix_cons]
    exact fun h => hcd h.1.symm
  rw [scan_once, if_neg (hne _ (by decide) (by decide)), if_neg (hne _ (by decide) (by decide)),
    if_neg (hne _ (by decide) (by decide)),
    hliteral _ _ 'n' _ rfl (hne _ (by decide) (by decide)),
    hliteral _ _ 't' _ rfl (hne _ (by decide) (by decide)),
    hliteral _ _ 'f' _ rfl (hne _ (by decide) (by decide))]
  rfl

theorem reads_int {i : Int} (h : (natToStr i.natAbs).length ≤ maxStrDigits) :
    Reads parse_float (.int i) (intToStr i) := by
  have hbegin : ∀ {c : Char}, c = '-' ∨ c.isDigit = true →
      isSpace c = false ∧ c ≠ ']' ∧ c ≠ '\x7d' := by
    rintro c (rfl | hc)
    · decide
    · refine ⟨?_, ?_, ?_⟩
      · have hn := toNat_of_isDigit hc
        by_contra hs
        simp only [isSpace, Bool.not_eq_false, Bool.or_eq_true, decide_eq_true_eq] at hs
        rcases hs with ((rfl | rfl) | rfl) | rfl <;> exact absurd hn (by decide)
      · rintro rfl
        exact absurd hc (by decide)
      · rintro rfl
        exact absurd hc (by decide)
  obtain ⟨c, s, hs⟩ := List.exists_cons_of_ne_nil (intToStr_ne_nil i)
  have hmem : c ∈ intToStr i := by
    rw [hs]
    exact List.mem_cons_self
  have hc : c = '-' ∨ c.isDigit = true := (mem_intToStr hmem).symm
  refine ⟨⟨c, s, hs, hbegin hc⟩, fun rest fuel hr hf => ?_⟩
  obtain ⟨fuel, rfl⟩ := Nat.exists_eq_succ_of_ne_zero (Nat.ne_zero_of_lt hf)
  have hnumber : number parse_float (intToStr i ++ rest) = some (.int i, rest) := by
    rw [intToStr]
    split
    · next hneg =>
      have h := @number_natToStr parse_float ['-'] (.inr rfl) i.natAbs rest h hr
      rw [if_neg (List.cons_ne_nil _ _)] at h
      rw [List.cons_append]
      refine h.trans ?_
      congr 3
      omega
    · next hpos =>
      have h := @number_natToStr parse_float [] (.inl rfl) i.natAbs rest h hr
      rw [if_pos rfl] at h
      refine h.trans ?_
      congr 3
      omega
  rw [hs, List.cons_append] at hnumber ⊢
  rw [scan_once_number hc, hnumber]

/-! ## Containers -/

variable {separators : Separators} {w w' : Str}

theorem intercalate_begins {t : Str} (ht : Begins t) (sep : Str) (ts : List Str) :
    Begins (sep.intercalate (t :: ts)) := by
  cases ts with
  | nil =>
    rw [List.intercalate_singleton]
    exact ht
  | cons t' ts =>
    rw [List.intercalate_cons_cons, List.append_assoc]
    exact ht.append _

/-- The items of a list, up to the bracket. -/
theorem scanItems_intercalate (hsep : Spaced separators w w') {vs : List Value} {ts : List Str}
    (h : List.Forall₂ (Reads parse_float) vs ts) (hne : vs ≠ []) (rest : Str) {fuel : Nat}
    (hf : 2 * (separators.item.intercalate ts).length + 1 < fuel) :
    scanItems parse_float fuel (separators.item.intercalate ts ++ ']' :: rest) =
      some (vs, rest) := by
  induction h generalizing fuel with
  | nil => exact absurd rfl hne
  | @cons v t vs ts hv hvs ih =>
    obtain ⟨fuel, rfl⟩ := Nat.exists_eq_succ_of_ne_zero (Nat.ne_zero_of_lt hf)
    rw [scanItems]
    cases hvs with
    | nil =>
      rw [List.intercalate_singleton] at hf ⊢
      rw [hv.scan (']' :: rest) fuel (ends_cons (by simp) _) (by omega)]
      simp only [bind, Option.bind, skipSpace_cons (c := ']') (by decide)]
      rfl
    | @cons v' t' vs' ts' hv' hvs' =>
      rw [List.intercalate_cons_cons, List.length_append, List.length_append, hsep.item,
        List.length_cons, ← hsep.item] at hf
      have htail := @ih (by simp) fuel (by omega)
      have htext : separators.item.intercalate (t :: t' :: ts') ++ ']' :: rest =
          t ++ ',' :: (w ++ (separators.item.intercalate (t' :: ts') ++ ']' :: rest)) := by
        rw [List.intercalate_cons_cons, hsep.item]
        simp
      have hbegin := (intercalate_begins hv'.begins separators.item ts').append (']' :: rest)
      rw [htext, hv.scan _ fuel (ends_cons (by simp) _) (by omega)]
      simp only [bind, Option.bind, skipSpace_cons (c := ',') (by decide),
        skipSpace_begins hsep.item_space hbegin]
      rw [htail]
      rfl

/-- A member of an object. -/
def memberText (separators : Separators) (k t : Str) : Str :=
  encodeString k ++ separators.key ++ t

theorem memberText_begins (k t : Str) : Begins (memberText separators k t) :=
  ⟨'"', _, rfl, by decide⟩

theorem memberText_eq (hsep : Spaced separators w w') (k t rest : Str) :
    memberText separators k t ++ rest =
      '"' :: (k.flatMap escapeChar ++ '"' :: ':' :: (w' ++ (t ++ rest))) := by
  simp [memberText, encodeString, hsep.key]

/-- The members of an object, up to the brace. -/
theorem scanMembers_intercalate (hsep : Spaced separators w w') {d : List (Str × Value)}
    {ts : List Str} (h : List.Forall₂ (fun p t => ∃ t', t = memberText separators p.1 t' ∧
      Reads parse_float p.2 t') d ts) (hne : d ≠ []) (rest : Str) {fuel : Nat}
    (hf : 2 * (separators.item.intercalate ts).length + 1 < fuel) :
    scanMembers parse_float fuel (separators.item.intercalate ts ++ '\x7d' :: rest) =
      some (d, rest) := by
  induction h generalizing fuel with
  | nil => exact absurd rfl hne
  | @cons p m d ms hp hd ih =>
    obtain ⟨t, rfl, hv⟩ := hp
    obtain ⟨fuel, rfl⟩ := Nat.exists_eq_succ_of_ne_zero (Nat.ne_zero_of_lt hf)
    -- the member itself, before what follows it
    have hmember : ∀ tail, Ends tail → 2 * t.length < fuel →
        scanMembers parse_float (fuel + 1) (memberText separators p.1 t ++ tail) =
          match skipSpace tail with
          | '\x7d' :: rest => some ([p], rest)
          | ',' :: rest => (scanMembers parse_float fuel (skipSpace rest)).map fun r =>
            (p :: r.1, r.2)
          | _ => none := by
      intro tail htail hfuel
      rw [memberText_eq hsep, scanMembers]
      simp only [bind, Option.bind, scanstring_encodeString, skipSpace_cons (c := ':') (by decide),
        skipSpace_begins hsep.key_space (hv.begins.append tail), hv.scan tail fuel htail hfuel]
      split
      · rfl
      · cases scanMembers parse_float fuel _ <;> rfl
      · rfl
    have hlen : t.length ≤ (memberText separators p.1 t).length := by
      rw [memberText, List.length_append]
      omega
    cases hd with
    | nil =>
      rw [List.intercalate_singleton] at hf ⊢
      rw [hmember _ (ends_cons (by simp) _) (by omega)]
      simp only [skipSpace_cons (c := '\x7d') (by decide)]
    | @cons p' m' d' ms' hp' hd' =>
      rw [List.intercalate_cons_cons, List.length_append, List.length_append, hsep.item,
        List.length_cons, ← hsep.item] at hf
      have htail := @ih (by simp) fuel (by omega)
      have htext : separators.item.intercalate (memberText separators p.1 t :: m' :: ms') ++
          '\x7d' :: rest = memberText separators p.1 t ++
            ',' :: (w ++ (separators.item.intercalate (m' :: ms') ++ '\x7d' :: rest)) := by
        rw [List.intercalate_cons_cons, hsep.item]
        simp
      have hm' : Begins m' := by
        obtain ⟨t', rfl, -⟩ := hp'
        exact memberText_begins _ _
      have hbegin := (intercalate_begins hm' separators.item ms').append ('\x7d' :: rest)
      rw [htext, hmember _ (ends_cons (by simp) _) (by omega)]
      simp only [skipSpace_cons (c := ',') (by decide), skipSpace_begins hsep.item_space hbegin]
      rw [htail]
      rfl

theorem forall₂_items {reprFloat : ℚ → Str} {vs : List Value} {ts : List Str}
    (hvs : ∀ v ∈ vs, ∀ t, dumps separators reprFloat v = .ok t → Reads parse_float v t)
    (h : dumpsItems separators reprFloat vs = .ok ts) :
    List.Forall₂ (Reads parse_float) vs ts := by
  induction vs generalizing ts with
  | nil =>
    cases h
    exact .nil
  | cons v vs ih =>
    rw [List.forall_mem_cons] at hvs
    rw [dumpsItems] at h
    cases hv : dumps separators reprFloat v with
    | error e => simp [hv, bind, Except.bind] at h
    | ok t =>
      cases hts : dumpsItems separators reprFloat vs with
      | error e => simp [hv, hts, bind, Except.bind] at h
      | ok ts' =>
        simp only [hv, hts, bind, Except.bind, pure, Except.pure, Except.ok.injEq] at h
        subst h
        exact .cons (hvs.1 t hv) (ih hvs.2 hts)

theorem forall₂_members {reprFloat : ℚ → Str} {d : List (Str × Value)} {ts : List Str}
    (hd : ∀ p ∈ d, ∀ t, dumps separators reprFloat p.2 = .ok t → Reads parse_float p.2 t)
    (h : dumpsEntries separators reprFloat d = .ok ts) :
    List.Forall₂ (fun p t => ∃ t', t = memberText separators p.1 t' ∧
      Reads parse_float p.2 t') d ts := by
  induction d generalizing ts with
  | nil =>
    cases h
    exact .nil
  | cons p d ih =>
    obtain ⟨k, v⟩ := p
    rw [List.forall_mem_cons] at hd
    rw [dumpsEntries] at h
    cases hv : dumps separators reprFloat v with
    | error e => simp [hv, bind, Except.bind] at h
    | ok t =>
      cases hts : dumpsEntries separators reprFloat d with
      | error e => simp [hv, hts, bind, Except.bind] at h
      | ok ts' =>
        simp only [hv, hts, bind, Except.bind, pure, Except.pure, Except.ok.injEq] at h
        subst h
        exact .cons ⟨t, rfl, hd.1 t hv⟩ (ih hd.2 hts)

theorem reads_list (hsep : Spaced separators w w') {vs : List Value} {ts : List Str}
    (h : List.Forall₂ (Reads parse_float) vs ts) :
    Reads parse_float (.list vs) ('[' :: separators.item.intercalate ts ++ [']']) := by
  refine ⟨⟨'[', _, rfl, by decide⟩, fun rest fuel _ hf => ?_⟩
  obtain ⟨fuel, rfl⟩ := Nat.exists_eq_succ_of_ne_zero (Nat.ne_zero_of_lt hf)
  rw [List.append_assoc, List.cons_append, List.singleton_append, scan_once]
  cases h with
  | nil => rfl
  | @cons v t vs ts hv hvs =>
    have hb := intercalate_begins hv.begins separators.item ts
    have hskip : skipSpace (separators.item.intercalate (t :: ts) ++ ']' :: rest) =
        separators.item.intercalate (t :: ts) ++ ']' :: rest :=
      skipSpace_begins (w := []) (by simp) (hb.append _)
    have hhead : (separators.item.intercalate (t :: ts) ++ ']' :: rest).head? ≠ some ']' := by
      obtain ⟨c, s, hc, -, hne, -⟩ := hb
      rw [hc]
      simpa using hne
    have hlen : ('[' :: separators.item.intercalate (t :: ts) ++ [']']).length =
        (separators.item.intercalate (t :: ts)).length + 2 := by simp
    rw [hlen] at hf
    have hscan := scanItems_intercalate hsep (.cons hv hvs) (by simp) rest
      (show 2 * (separators.item.intercalate (t :: ts)).length + 1 < fuel by omega)
    simp only [hskip, if_neg hhead, hscan, Option.map_some]
    rfl

theorem reads_dict (hsep : Spaced separators w w') {d : Dict Str Value} {ts : List Str}
    (hd : d.WF) (h : List.Forall₂ (fun p t => ∃ t', t = memberText separators p.1 t' ∧
      Reads parse_float p.2 t') d ts) :
    Reads parse_float (.dict d)
      ('\x7b' :: separators.item.intercalate ts ++ ['\x7d']) := by
  refine ⟨⟨'\x7b', _, rfl, by decide⟩, fun rest fuel _ hf => ?_⟩
  obtain ⟨fuel, rfl⟩ := Nat.exists_eq_succ_of_ne_zero (Nat.ne_zero_of_lt hf)
  rw [List.append_assoc, List.cons_append, List.singleton_append, scan_once]
  cases h with
  | nil => rfl
  | @cons p t d ts hp hps =>
    have ht : Begins t := by
      obtain ⟨t', rfl, -⟩ := hp
      exact memberText_begins _ _
    have hb := intercalate_begins ht separators.item ts
    have hskip : skipSpace (separators.item.intercalate (t :: ts) ++ '\x7d' :: rest) =
        separators.item.intercalate (t :: ts) ++ '\x7d' :: rest :=
      skipSpace_begins (w := []) (by simp) (hb.append _)
    have hhead : (separators.item.intercalate (t :: ts) ++ '\x7d' :: rest).head? ≠
        some '\x7d' := by
      obtain ⟨c, s, hc, -, -, hne⟩ := hb
      rw [hc]
      simpa using hne
    have hlen : ('\x7b' :: separators.item.intercalate (t :: ts) ++ ['\x7d']).length =
        (separators.item.intercalate (t :: ts)).length + 2 := by simp
    rw [hlen] at hf
    have hscan := scanMembers_intercalate hsep (.cons hp hps) (by simp) rest
      (show 2 * (separators.item.intercalate (t :: ts)).length + 1 < fuel by omega)
    simp only [hskip, if_neg hhead, hscan, Option.map_some, Dict.ofPairs_of_wf hd]
    rfl

/-- Every text that is written of a writable value is read as the value. -/
theorem reads_dumps (hsep : Spaced separators w w') (reprFloat : ℚ → Str) {v : Value}
    (hv : Writable v) : ∀ t, dumps separators reprFloat v = .ok t → Reads parse_float v t := by
  induction hv with
  | none =>
    rintro t ⟨⟩
    exact reads_literal "null" ⟨'n', _, rfl, by decide⟩ fun fuel rest => rfl
  | bool b =>
    rintro t ⟨⟩
    cases b with
    | true => exact reads_literal "true" ⟨'t', _, rfl, by decide⟩ fun fuel rest => rfl
    | false => exact reads_literal "false" ⟨'f', _, rfl, by decide⟩ fun fuel rest => rfl
  | int h =>
    rintro t ⟨⟩
    exact reads_int h
  | str s =>
    rintro t ⟨⟩
    exact reads_string s
  | @list vs _ ih =>
    intro t ht
    rw [dumps] at ht
    cases hts : dumpsItems separators reprFloat vs with
    | error e => simp [hts, bind, Except.bind] at ht
    | ok ts =>
      simp only [hts, bind, Except.bind, pure, Except.pure, Except.ok.injEq] at ht
      subst ht
      exact reads_list hsep (forall₂_items ih hts)
  | @dict d hd _ ih =>
    intro t ht
    rw [dumps] at ht
    cases hts : dumpsEntries separators reprFloat d with
    | error e => simp [hts, bind, Except.bind] at ht
    | ok ts =>
      simp only [hts, bind, Except.bind, pure, Except.pure, Except.ok.injEq] at ht
      subst ht
      exact reads_dict hsep hd (forall₂_members ih hts)

/-- `json.loads` undoes `json.dumps`. -/
theorem loads_dumps (hsep : Spaced separators w w') (reprFloat : ℚ → Str) {v : Value} {t : Str}
    (hv : Writable v) (ht : dumps separators reprFloat v = .ok t) : loads parse_float t = some v := by
  have hr : Reads parse_float v t := reads_dumps hsep reprFloat hv t ht
  have hskip : skipSpace t = t := by
    simpa using skipSpace_begins (w := []) (by simp) hr.begins
  have hscan := hr.scan [] (2 * t.length + 1) (by simp [Ends]) (by omega)
  rw [List.append_nil] at hscan
  rw [loads, hskip, hscan]
  rfl

end

/-! ## Texts that can stand in a header -/

def Printable (t : Str) : Prop := ∀ c ∈ t, 32 ≤ c.toNat ∧ c.toNat ≤ 126

theorem Printable.append {s t : Str} (hs : Printable s) (ht : Printable t) : Printable (s ++ t) :=
  List.forall_mem_append.mpr ⟨hs, ht⟩

theorem Printable.cons {c : Char} {t : Str} (hc : 32 ≤ c.toNat ∧ c.toNat ≤ 126)
    (ht : Printable t) : Printable (c :: t) :=
  List.forall_mem_cons.mpr ⟨hc, ht⟩

theorem printable_digitChar {v : Nat} (h : v < 16) :
    32 ≤ v.digitChar.toNat ∧ v.digitChar.toNat ≤ 126 := by
  have hall : ∀ v < 16, 32 ≤ (Nat.digitChar v).toNat ∧ (Nat.digitChar v).toNat ≤ 126 := by decide
  exact hall v h

theorem printable_hex4 {n : Nat} (h : n < 65536) : Printable (hex4 n) := by
  intro c hc
  simp only [hex4, List.mem_cons, List.not_mem_nil, or_false] at hc
  rcases hc with rfl | rfl | rfl | rfl <;> exact printable_digitChar (by omega)

theorem printable_escapeChar (c : Char) : Printable (escapeChar c) := by
  rw [escapeChar]
  -- the characters that have a short escape
  iterate 7
    apply iteInduction (motive := Printable) <;> intro _
    · unfold Printable; decide
  apply iteInduction (motive := Printable) <;> intro h
  · exact .cons h (by simp [Printable])
  apply iteInduction (motive := Printable) <;> intro h
  · exact .cons (by decide) (.cons (by decide) (printable_hex4 h))
  · obtain ⟨hhi, hlo, -⟩ := surrogates (Nat.le_of_not_lt h)
    exact .append (.cons (by decide) (.cons (by decide) (printable_hex4 (by omega))))
      (.cons (by decide) (.cons (by decide) (printable_hex4 (by omega))))

theorem printable_encodeString (s : Str) : Printable (encodeString s) := by
  refine .append (.cons (by decide) ?_) (by unfold Printable; decide)
  intro c hc
  obtain ⟨a, -, hc⟩ := List.mem_flatMap.mp hc
  exact printable_escapeChar a c hc

theorem printable_intercalate {sep : Str} (hsep : Printable sep) {ts : List Str}
    (h : ∀ t ∈ ts, Printable t) : Printable (sep.intercalate ts) := by
  induction ts with
  | nil => simp [Printable]
  | cons t ts ih =>
    rw [List.forall_mem_cons] at h
    cases ts with
    | nil =>
      rw [List.intercalate_singleton]
      exact h.1
    | cons t' ts =>
      rw [List.intercalate_cons_cons]
      exact (h.1.append hsep).append (ih h.2)

section
variable {separators : Separators} {reprFloat : ℚ → Str}

theorem exists_items {vs : List Value}
    (h : ∀ v ∈ vs, ∃ t, dumps separators reprFloat v = .ok t ∧ Printable t) :
    ∃ ts, dumpsItems separators reprFloat vs = .ok ts ∧ ∀ t ∈ ts, Printable t := by
  induction vs with
  | nil => exact ⟨[], rfl, by simp⟩
  | cons v vs ih =>
    rw [List.forall_mem_cons] at h
    obtain ⟨⟨t, ht, hp⟩, hvs⟩ := h
    obtain ⟨ts, hts, hps⟩ := ih hvs
    exact ⟨t :: ts, by rw [dumpsItems, ht, hts]; rfl, List.forall_mem_cons.mpr ⟨hp, hps⟩⟩

theorem exists_entries (hkey : Printable separators.key) {d : List (Str × Value)}
    (h : ∀ p ∈ d, ∃ t, dumps separators reprFloat p.2 = .ok t ∧ Printable t) :
    ∃ ts, dumpsEntries separators reprFloat d = .ok ts ∧ ∀ t ∈ ts, Printable t := by
  induction d with
  | nil => exact ⟨[], rfl, by simp⟩
  | cons p d ih =>
    rw [List.forall_mem_cons] at h
    obtain ⟨⟨t, ht, hp⟩, hd⟩ := h
    obtain ⟨ts, hts, hps⟩ := ih hd
    refine ⟨(encodeString p.1 ++ separators.key ++ t) :: ts, by rw [dumpsEntries, ht, hts]; rfl,
      List.forall_mem_cons.mpr ⟨?_, hps⟩⟩
    exact ((printable_encodeString p.1).append hkey).append hp

/-- A writable value has a text, and all its characters are printable and of ASCII. -/
theorem exists_dumps (hitem : Printable separators.item) (hkey : Printable separators.key)
    {v : Value} (hv : Writable v) : ∃ t, dumps separators reprFloat v = .ok t ∧ Printable t := by
  induction hv with
  | none => exact ⟨_, rfl, by unfold Printable; decide⟩
  | bool b =>
    refine ⟨_, rfl, ?_⟩
    cases b <;> (unfold Printable; decide)
  | int h =>
    refine ⟨_, rfl, fun c hc => ?_⟩
    rcases mem_intToStr hc with hd | rfl
    · have hlow := toNat_of_isDigit hd
      have hhigh := IntText.toNat_lt_of_isDigit hd
      omega
    · decide
  | str s => exact ⟨_, rfl, printable_encodeString s⟩
  | list _ ih =>
    obtain ⟨ts, hts, hps⟩ := exists_items ih
    refine ⟨_, by rw [dumps, hts]; rfl, ?_⟩
    exact .append (.cons (by decide) (printable_intercalate hitem hps)) (by unfold Printable; decide)
  | dict _ _ ih =>
    obtain ⟨ts, hts, hps⟩ := exists_entries hkey ih
    refine ⟨_, by rw [dumps, hts]; rfl, ?_⟩
    exact .append (.cons (by decide) (printable_intercalate hitem hps)) (by unfold Printable; decide)

end

end LocalStack.Aws.JsonLoads
