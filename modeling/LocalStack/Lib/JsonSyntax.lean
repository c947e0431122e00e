import LocalStack.Lib.Decimal
import LocalStack.Lib.Fields
import Mathlib.Data.List.Chain

/-! The texts of JSON values: tokens with the white space in front of them, and the
sequences of tokens that the grammar allows. -/

namespace LocalStack.JsonSyntax
open LocalStack.Fields LocalStack.Text

/-! ## Tokens -/

def isSpace (c : Char) : Bool := c = ' ' || c = '\t' || c = '\n' || c = '\r'

def Space (w : Str) : Prop := ∀ c ∈ w, isSpace c = true

instance (w : Str) : Decidable (Space w) := decidableForallMem _ w

def isHex (c : Char) : Bool := c.isDigit || ('a' ≤ c && c ≤ 'f') || ('A' ≤ c && c ≤ 'F')

/-- What may stand between the quotes of a string. -/
inductive Body : Str → Prop
  | nil : Body []
  | plain {c : Char} {s : Str} (hquote : c ≠ '"') (hslash : c ≠ '\\') (hcontrol : 32 ≤ c.toNat)
    (rest : Body s) : Body (c :: s)
  | escape {c : Char} {s : Str} (hc : c ∈ "\"\\/bfnrt".toList) (rest : Body s) :
    Body ('\\' :: c :: s)
  | unicode {hex s : Str} (hlen : hex.length = 4) (hhex : ∀ c ∈ hex, isHex c = true)
    (rest : Body s) : Body ('\\' :: 'u' :: (hex ++ s))

theorem Body.of_plain {s : Str} (h : ∀ c ∈ s, c ≠ '"' ∧ c ≠ '\\' ∧ 32 ≤ c.toNat) : Body s := by
  induction s with
  | nil => exact .nil
  | cons c s ih =>
    rw [List.forall_mem_cons] at h
    exact .plain h.1.1 h.1.2.1 h.1.2.2 (ih h.2)

/-- Digits without a leading zero. -/
def Whole (s : Str) : Prop := s = ['0'] ∨ s ≠ [] ∧ s.head? ≠ some '0' ∧ ∀ c ∈ s, c.isDigit = true

def Digits (s : Str) : Prop := s ≠ [] ∧ ∀ c ∈ s, c.isDigit = true

/-- A number: a sign, digits, a fraction and an exponent. -/
structure IsNumber (s : Str) : Prop where
  parts : ∃ sign whole fraction exponent, s = sign ++ whole ++ fraction ++ exponent ∧
    (sign = [] ∨ sign = ['-']) ∧ Whole whole ∧
    (fraction = [] ∨ ∃ digits, fraction = '.' :: digits ∧ Digits digits) ∧
    (exponent = [] ∨ ∃ e sign digits, exponent = e :: (sign ++ digits) ∧ (e = 'e' ∨ e = 'E') ∧
      (sign = [] ∨ sign = ['+'] ∨ sign = ['-']) ∧ Digits digits)

def Literal (s : Str) : Prop :=
  s = "true".toList ∨ s = "false".toList ∨ s = "null".toList ∨ IsNumber s

inductive Symbol
  | key (body : Str)
  | string (body : Str)
  | literal (text : Str)
  | openArray
  | closeArray
  | openObject
  | closeObject
  | colon
  | comma
  deriving DecidableEq, Repr

def quoted (body : Str) : Str := '"' :: body ++ ['"']

def Symbol.text : Symbol → Str
  | .key body => quoted body
  | .string body => quoted body
  | .literal text => text
  | .openArray => ['[']
  | .closeArray => [']']
  | .openObject => ['\x7b']
  | .closeObject => ['\x7d']
  | .colon => [':']
  | .comma => [',']

/-- A token with the white space in front of it. -/
structure Token where
  lead : Str
  symbol : Symbol
  deriving DecidableEq, Repr

def Token.text (t : Token) : Str := t.lead ++ t.symbol.text

/-! ## The grammar -/

inductive Kind
  | element
  | items
  | members

/-- The tokens of a value, of the items of an array and of the members of an object. -/
inductive Rendering : Kind → List Token → Prop
  | string {w b} (hw : Space w) (hb : Body b) : Rendering .element [⟨w, .string b⟩]
  | literal {w s} (hw : Space w) (hs : Literal s) :
    Rendering .element [⟨w, .literal s⟩]
  | emptyArray {w w'} (hw : Space w) (hw' : Space w') :
    Rendering .element [⟨w, .openArray⟩, ⟨w', .closeArray⟩]
  | array {w w' ts} (hw : Space w) (hw' : Space w')
    (items : Rendering .items ts) :
    Rendering .element (⟨w, .openArray⟩ :: (ts ++ [⟨w', .closeArray⟩]))
  | emptyObject {w w'} (hw : Space w) (hw' : Space w') :
    Rendering .element [⟨w, .openObject⟩, ⟨w', .closeObject⟩]
  | object {w w' ts} (hw : Space w) (hw' : Space w')
    (members : Rendering .members ts) :
    Rendering .element (⟨w, .openObject⟩ :: (ts ++ [⟨w', .closeObject⟩]))
  | item {ts} (element : Rendering .element ts) : Rendering .items ts
  | items {ts w ts'} (element : Rendering .element ts) (hw : Space w)
    (rest : Rendering .items ts') : Rendering .items (ts ++ ⟨w, .comma⟩ :: ts')
  | member {w b w' ts} (hw : Space w) (hb : Body b) (hw' : Space w')
    (element : Rendering .element ts) : Rendering .members (⟨w, .key b⟩ :: ⟨w', .colon⟩ :: ts)
  | members {w b w' ts w'' ts'} (hw : Space w) (hb : Body b)
    (hw' : Space w') (element : Rendering .element ts)
    (hw'' : Space w'') (rest : Rendering .members ts') :
    Rendering .members (⟨w, .key b⟩ :: ⟨w', .colon⟩ :: (ts ++ ⟨w'', .comma⟩ :: ts'))

/-- The text of a value, with white space behind it. -/
structure Document where
  tokens : List Token
  rendering : Rendering .element tokens
  trail : Str
  trail_space : Space trail

def text (tokens : List Token) (trail : Str) : Str := tokens.flatMap Token.text ++ trail

def Document.text (d : Document) : Str := JsonSyntax.text d.tokens d.trail

/-! ## Neighbours -/

/-- A value begins with the symbol. -/
def Symbol.opens : Symbol → Bool
  | .string _ | .literal _ | .openArray | .openObject => true
  | _ => false

/-- A value ends with the symbol. -/
def Symbol.ends : Symbol → Bool
  | .string _ | .literal _ | .closeArray | .closeObject => true
  | _ => false

def Symbol.isKey : Symbol → Bool
  | .key _ => true
  | _ => false

/-- The symbols that may stand behind one another. -/
def Symbol.follows : Symbol → Symbol → Prop
  | .key _, s => s = .colon
  | .colon, s => s.opens = true
  | .openArray, s => s.opens = true ∨ s = .closeArray
  | .openObject, s => s.isKey = true ∨ s = .closeObject
  | .comma, s => s.opens = true ∨ s.isKey = true
  | _, s => s = .comma ∨ s = .closeArray ∨ s = .closeObject

def Symbol.Valid : Symbol → Prop
  | .key body => Body body
  | .string body => Body body
  | .literal text => Literal text
  | _ => True

/-- How the tokens of a kind begin. -/
def Kind.starts : Kind → Symbol → Bool
  | .members, s => s.isKey
  | _, s => s.opens

/-- Tokens that fit together, with a beginning and an end. -/
structure Fits (starts : Symbol → Bool) (ts : List Token) : Prop where
  chain : ts.IsChain fun t t' => t.symbol.follows t'.symbol
  valid : ∀ t ∈ ts, Space t.lead ∧ t.symbol.Valid
  first : ∃ t rest, ts = t :: rest ∧ starts t.symbol = true
  last : ∃ front t, ts = front ++ [t] ∧ t.symbol.ends = true

theorem Symbol.follows_of_ends {s s' : Symbol} (h : s.ends = true)
    (h' : s' = .comma ∨ s' = .closeArray ∨ s' = .closeObject) : s.follows s' := by
  cases s <;> first | exact h' | cases h

theorem Fits.single {t : Token} (hw : Space t.lead) (hv : t.symbol.Valid)
    (ho : t.symbol.opens = true) (he : t.symbol.ends = true) : Fits Symbol.opens [t] where
  chain := List.isChain_singleton t
  valid := List.forall_mem_singleton.mpr ⟨hw, hv⟩
  first := ⟨t, [], rfl, ho⟩
  last := ⟨[], t, rfl, he⟩

/-- A symbol in front. -/
theorem Fits.cons {starts starts' : Symbol → Bool} {t : Token} {ts : List Token}
    (h : Fits starts ts) (hw : Space t.lead) (hv : t.symbol.Valid)
    (hs : starts' t.symbol = true) (hf : ∀ s, starts s = true → t.symbol.follows s) :
    Fits starts' (t :: ts) := by
  obtain ⟨u, rest, rfl, hu⟩ := h.first
  obtain ⟨front, z, hz, he⟩ := h.last
  refine ⟨?_, ?_, ⟨t, _, rfl, hs⟩, ⟨t :: front, z, by rw [hz]; rfl, he⟩⟩
  · exact List.isChain_cons_cons.mpr ⟨hf _ hu, h.chain⟩
  · exact List.forall_mem_cons.mpr ⟨⟨hw, hv⟩, h.valid⟩

/-- Two sequences of which the first ends a value. -/
theorem Fits.append {starts starts' : Symbol → Bool} {ts ts' : List Token} (h : Fits starts ts)
    (h' : Fits starts' ts')
    (hs : ∀ s, starts' s = true → s = .comma ∨ s = .closeArray ∨ s = .closeObject) :
    Fits starts (ts ++ ts') := by
  obtain ⟨front, z, rfl, he⟩ := h.last
  obtain ⟨u, rest, rfl, hu⟩ := h'.first
  obtain ⟨t, rest', ht, hst⟩ := h.first
  obtain ⟨front', z', hz', he'⟩ := h'.last
  refine ⟨?_, ?_, ⟨t, rest' ++ u :: rest, by rw [ht]; rfl, hst⟩,
    ⟨front ++ [z] ++ front', z', by rw [hz', List.append_assoc _ front'], he'⟩⟩
  · rw [List.isChain_append]
    refine ⟨h.chain, h'.chain, ?_⟩
    simp only [List.getLast?_concat, List.head?_cons, Option.mem_some_iff]
    rintro _ rfl _ rfl
    exact Symbol.follows_of_ends he (hs _ hu)
  · exact List.forall_mem_append.mpr ⟨h.valid, h'.valid⟩

/-- A value in brackets. -/
theorem Fits.bracketed {starts : Symbol → Bool} {o c : Token} {ts : List Token}
    (h : Fits starts ts) (ho : Space o.lead) (hc : Space c.lead)
    (hov : o.symbol = .openArray ∨ o.symbol = .openObject)
    (hcv : c.symbol = .closeArray ∨ c.symbol = .closeObject)
    (hf : ∀ s, starts s = true → o.symbol.follows s) :
    Fits Symbol.opens (o :: (ts ++ [c])) := by
  have hend : Fits (fun s => s = .closeArray ∨ s = .closeObject) [c] :=
    ⟨List.isChain_singleton c,
      List.forall_mem_singleton.mpr ⟨hc, by rcases hcv with e | e <;> rw [e] <;> trivial⟩,
      ⟨c, [], rfl, by simpa using hcv⟩,
      ⟨[], c, rfl, by rcases hcv with e | e <;> rw [e] <;> rfl⟩⟩
  refine (h.append hend fun s hs => .inr (by simpa using hs)).cons ho ?_ ?_ hf
  · rcases hov with e | e <;> rw [e] <;> trivial
  · rcases hov with e | e <;> rw [e] <;> rfl

theorem fits_empty {o c : Token} (ho : Space o.lead) (hc : Space c.lead)
    (h : o.symbol = .openArray ∧ c.symbol = .closeArray ∨
      o.symbol = .openObject ∧ c.symbol = .closeObject) : Fits Symbol.opens [o, c] := by
  obtain ⟨w, so⟩ := o
  obtain ⟨w', sc⟩ := c
  rcases h with ⟨rfl, rfl⟩ | ⟨rfl, rfl⟩
  all_goals
    refine ⟨List.isChain_pair.mpr (.inr rfl), ?_, ⟨_, _, rfl, rfl⟩, ⟨[_], _, rfl, rfl⟩⟩
    simpa [Symbol.Valid] using ⟨ho, hc⟩

/-- A comma and more behind a value. -/
theorem Fits.comma {starts starts' : Symbol → Bool} {w : Str} {ts ts' : List Token}
    (h : Fits starts ts) (hw : Space w) (h' : Fits starts' ts')
    (hf : ∀ s, starts' s = true → Symbol.comma.follows s) :
    Fits starts (ts ++ ⟨w, .comma⟩ :: ts') := by
  have hrest : Fits (fun s => s = .comma) (⟨w, .comma⟩ :: ts') := h'.cons hw trivial rfl hf
  exact h.append hrest fun _ hs => .inl (of_decide_eq_true hs)

/-- A key, a colon and a value. -/
theorem Fits.member {w b w' : Str} {ts : List Token} (h : Fits Symbol.opens ts) (hw : Space w)
    (hb : Body b) (hw' : Space w') :
    Fits Symbol.isKey (⟨w, .key b⟩ :: ⟨w', .colon⟩ :: ts) := by
  have hcolon : Fits (fun s => s = .colon) (⟨w', .colon⟩ :: ts) :=
    h.cons hw' trivial rfl fun _ hs => hs
  refine hcolon.cons hw hb rfl fun s hs => ?_
  rw [of_decide_eq_true hs]
  rfl

/-- The tokens of a rendering fit together. -/
theorem Rendering.fits {kind : Kind} {ts : List Token} (h : Rendering kind ts) :
    Fits kind.starts ts := by
  induction h with
  | string hw hb => exact Fits.single hw hb rfl rfl
  | literal hw hs => exact Fits.single hw hs rfl rfl
  | emptyArray hw hw' => exact fits_empty hw hw' (.inl ⟨rfl, rfl⟩)
  | emptyObject hw hw' => exact fits_empty hw hw' (.inr ⟨rfl, rfl⟩)
  | array hw hw' items ih =>
    exact ih.bracketed hw hw' (.inl rfl) (.inl rfl) fun s hs => .inl hs
  | object hw hw' members ih =>
    exact ih.bracketed hw hw' (.inr rfl) (.inr rfl) fun s hs => .inl hs
  | item element ih => exact ih
  | items element hw rest ih ih' => exact ih.comma hw ih' fun s hs => .inl hs
  | member hw hb hw' element ih => exact ih.member hw hb hw'
  | members hw hb hw' element hw'' rest ih ih' =>
    have := (ih.member hw hb hw').comma hw'' ih' fun s hs => .inr hs
    exact this

/-! ## The text between the quotes -/

/-- Only the last fragment does not end in a backslash. -/
def Slashed (s : Str) : Prop := ∀ f ∈ (s.splitOn '"').dropLast, ∃ g, f = g ++ ['\\']

theorem Slashed.cons {c : Char} {s : Str} (hc : c ≠ '"') (h : Slashed s) : Slashed (c :: s) := by
  rw [Slashed] at h
  rw [Slashed, splitOn_cons hc]
  cases hs : s.splitOn '"' with
  | nil => exact absurd hs (splitOn_ne_nil s)
  | cons p ps =>
    rw [hs] at h
    cases ps with
    | nil => simp
    | cons p' ps =>
      rw [List.modifyHead_cons, List.dropLast_cons_cons]
      rw [List.dropLast_cons_cons, List.forall_mem_cons] at h
      obtain ⟨⟨g, rfl⟩, hrest⟩ := h
      exact List.forall_mem_cons.mpr ⟨⟨c :: g, rfl⟩, hrest⟩

theorem Slashed.append {t s : Str} (ht : '"' ∉ t) (h : Slashed s) : Slashed (t ++ s) := by
  induction t with
  | nil => exact h
  | cons c t ih =>
    rw [List.mem_cons, not_or] at ht
    exact (ih ht.2).cons (Ne.symm ht.1)

theorem Slashed.quote {s : Str} (h : Slashed s) : Slashed ('\\' :: '"' :: s) := by
  rw [Slashed, splitOn_cons (by decide), splitOn_sep_cons, List.modifyHead_cons,
    List.dropLast_cons_of_ne_nil (splitOn_ne_nil s)]
  exact List.forall_mem_cons.mpr ⟨⟨[], rfl⟩, h⟩

theorem Body.slashed {b : Str} (h : Body b) : Slashed b := by
  induction h with
  | nil => intro f hf; cases hf
  | plain hquote hslash hcontrol rest ih => exact ih.cons hquote
  | @escape c s hc rest ih =>
    by_cases hq : c = '"'
    · subst hq
      exact ih.quote
    · exact (ih.cons hq).cons (by decide)
  | @unicode hex s hlen hhex rest ih =>
    refine ((ih.append fun hq => ?_).cons (by decide)).cons (by decide)
    exact absurd (hhex '"' hq) (by decide)

theorem Digits.chars {s : Str} (h : Digits s) : ∀ c ∈ s, 43 ≤ c.toNat := fun c hc =>
  le_trans (by decide) (Decimal.toNat_of_isDigit (h.2 c hc))

/-- A literal has no white space and no quotes. -/
theorem Literal.chars {s : Str} (h : Literal s) : s ≠ [] ∧ ∀ c ∈ s, 43 ≤ c.toNat := by
  rcases h with rfl | rfl | rfl | ⟨sign, whole, fraction, exponent, rfl, hs, hw, hf, he⟩
  · decide
  · decide
  · decide
  · have hwhole : whole ≠ [] ∧ ∀ c ∈ whole, 43 ≤ c.toNat := by
      rcases hw with rfl | ⟨hne, -, hd⟩
      · decide
      · exact ⟨hne, Digits.chars ⟨hne, hd⟩⟩
    have hsign : ∀ c ∈ sign, 43 ≤ c.toNat := by
      rcases hs with rfl | rfl <;> decide
    have hfraction : ∀ c ∈ fraction, 43 ≤ c.toNat := by
      rcases hf with rfl | ⟨digits, rfl, hd⟩
      · decide
      · exact List.forall_mem_cons.mpr ⟨by decide, hd.chars⟩
    have hexponent : ∀ c ∈ exponent, 43 ≤ c.toNat := by
      rcases he with rfl | ⟨e, sign, digits, rfl, he, hs, hd⟩
      · decide
      · refine List.forall_mem_cons.mpr ⟨by rcases he with rfl | rfl <;> decide, ?_⟩
        refine List.forall_mem_append.mpr ⟨?_, hd.chars⟩
        rcases hs with rfl | rfl | rfl <;> decide
    refine ⟨by simp [hwhole.1], ?_⟩
    simp only [List.forall_mem_append]
    exact ⟨⟨⟨hsign, hwhole.2⟩, hfraction⟩, hexponent⟩

/-! ## Strings and what is behind them -/

/-- The fragments of a string, and the text up to the next string. -/
structure Entry where
  isKey : Bool
  parts : List Str
  plain : Str
  deriving DecidableEq, Repr

/-- The text in front of the first string, and the strings. -/
def entries (trail : Str) : List Token → Str × List Entry
  | [] => (trail, [])
  | t :: ts =>
    let (plain, es) := entries trail ts
    match t.symbol with
    | .key body => (t.lead, ⟨true, body.splitOn '"', plain⟩ :: es)
    | .string body => (t.lead, ⟨false, body.splitOn '"', plain⟩ :: es)
    | s => (t.lead ++ (s.text ++ plain), es)

def fragments (plain : Str) (es : List Entry) : List Str :=
  plain :: es.flatMap fun e => e.parts ++ [e.plain]

theorem fragments_ne_nil (plain : Str) (es : List Entry) : fragments plain es ≠ [] :=
  List.cons_ne_nil _ _

theorem text_cons (t : Token) (ts : List Token) (trail : Str) :
    text (t :: ts) trail = t.lead ++ (t.symbol.text ++ text ts trail) := by
  rw [text, text, List.flatMap_cons, Token.text, List.append_assoc, List.append_assoc]

theorem join_fragments_string (lead body : Str) (isKey : Bool) (plain : Str) (es : List Entry) :
    join '"' (fragments lead (⟨isKey, body.splitOn '"', plain⟩ :: es)) =
      lead ++ (quoted body ++ join '"' (fragments plain es)) := by
  have hcut : fragments lead (⟨isKey, body.splitOn '"', plain⟩ :: es) =
      lead :: (body.splitOn '"' ++ fragments plain es) := by
    simp [fragments]
  rw [hcut, join_cons _ (by simp [fragments]),
    join_append (splitOn_ne_nil body) (fragments_ne_nil _ _), join_splitOn]
  simp [quoted]

theorem join_fragments_append (lead s plain : Str) (es : List Entry) :
    join '"' (fragments (lead ++ (s ++ plain)) es) =
      lead ++ (s ++ join '"' (fragments plain es)) := by
  rw [fragments, join_cons_append, join_cons_append, fragments]

/-- The fragments make up the text. -/
theorem join_fragments (trail : Str) (ts : List Token) :
    join '"' (fragments (entries trail ts).1 (entries trail ts).2) = text ts trail := by
  induction ts with
  | nil => simp [entries, fragments, join, text]
  | cons t ts ih =>
    obtain ⟨lead, symbol⟩ := t
    rw [text_cons, ← ih]
    cases symbol with
    | key body => exact join_fragments_string lead body true _ _
    | string body => exact join_fragments_string lead body false _ _
    | _ => exact join_fragments_append ..

theorem Space.not_mem {w : Str} (h : Space w) {c : Char} (hc : isSpace c = false) : c ∉ w :=
  fun hm => absurd (h c hm) (by rw [hc]; exact Bool.false_ne_true)

theorem Symbol.Valid.unquoted {s : Symbol} (h : s.Valid) (hk : ∀ b, s ≠ .key b)
    (hs : ∀ b, s ≠ .string b) : '"' ∉ s.text := by
  cases s with
  | key b => exact absurd rfl (hk b)
  | string b => exact absurd rfl (hs b)
  | literal text => exact fun hm => absurd (h.chars.2 '"' hm) (by decide)
  | _ => decide

section Entries
variable {trail : Str} (htrail : Space trail) {ts : List Token}
  (valid : ∀ t ∈ ts, Space t.lead ∧ t.symbol.Valid)
include htrail valid

/-- No fragment contains a quote. -/
theorem fragments_unquoted :
    ∀ f ∈ fragments (entries trail ts).1 (entries trail ts).2, '"' ∉ f := by
  induction ts with
  | nil =>
    intro f hf
    rw [List.mem_singleton.mp hf]
    exact htrail.not_mem rfl
  | cons t ts ih =>
    obtain ⟨lead, symbol⟩ := t
    rw [List.forall_mem_cons] at valid
    obtain ⟨⟨hlead, hvalid⟩, valid⟩ := valid
    have ih := List.forall_mem_cons.mp (ih valid)
    have hlead := hlead.not_mem (c := '"') rfl
    have hstring : ∀ (body : Str) (isKey : Bool), ∀ f ∈ fragments lead (⟨isKey, body.splitOn '"',
        (entries trail ts).1⟩ :: (entries trail ts).2), '"' ∉ f := by
      intro body isKey f hf
      simp only [fragments, List.flatMap_cons, List.mem_cons, List.mem_append,
        List.not_mem_nil, or_false] at hf
      rcases hf with rfl | (hf | rfl) | hf
      · exact hlead
      · exact Lists.not_mem_of_mem_splitOn hf
      · exact ih.1
      · exact ih.2 f hf
    have hplain : (∀ b, symbol ≠ .key b) → (∀ b, symbol ≠ .string b) → ∀ f ∈ fragments
        (lead ++ (symbol.text ++ (entries trail ts).1)) (entries trail ts).2, '"' ∉ f := by
      intro hk hs
      refine List.forall_mem_cons.mpr ⟨?_, ih.2⟩
      simp only [List.mem_append, not_or]
      exact ⟨hlead, hvalid.unquoted hk hs, ih.1⟩
    cases symbol with
    | key body => exact hstring body true
    | string body => exact hstring body false
    | _ => exact hplain (by simp) (by simp)

end Entries

/-- Nothing but a colon and white space. -/
def Separator (plain : Str) : Prop := ∃ w, plain = ':' :: w ∧ ∀ c ∈ w, c.toNat < 33

/-- A punctuation mark that may stand behind a string. -/
def isMark (c : Char) : Bool := c = ':' || c = ',' || c = ']' || c = '\x7d'

/-- Only keys have a colon directly behind them. -/
structure Entry.Fits (e : Entry) : Prop where
  slashed : ∀ f ∈ e.parts.dropLast, ∃ g, f = g ++ ['\\']
  parts_ne : e.parts ≠ []
  isKey : Separator e.plain → e.isKey = true

/-- A value is behind a colon, and there are marks between strings. -/
structure Entry.Next (e e' : Entry) : Prop where
  marked : ∃ c ∈ e.plain, isMark c = true
  value : Separator e.plain → e'.isKey = false

theorem not_separator_append {w s : Str} (hw : Space w) (hs : s.head? ≠ some ':') :
    ¬Separator (w ++ s) := by
  rintro ⟨w', h, -⟩
  cases w with
  | nil => exact hs (by rw [show s = ':' :: w' from h, List.head?_cons])
  | cons c w =>
    rw [List.cons_append, List.cons.injEq] at h
    exact absurd (hw c List.mem_cons_self) (by rw [h.1]; decide)

section Neighbours
variable {trail : Str} (htrail : Space trail)
include htrail

/-- Behind a value there is no colon. -/
theorem plain_behind_value {body : Str} {lead : Str} {ts : List Token}
    (chain : (⟨lead, .string body⟩ :: ts).IsChain fun t t' => t.symbol.follows t'.symbol)
    (valid : ∀ t ∈ ts, Space t.lead ∧ t.symbol.Valid) :
    ¬Separator (entries trail ts).1 ∧
      (ts ≠ [] → ∃ c ∈ (entries trail ts).1, isMark c = true) := by
  cases ts with
  | nil =>
    refine ⟨?_, fun h => absurd rfl h⟩
    have := @not_separator_append trail [] htrail (by simp)
    rwa [List.append_nil] at this
  | cons t ts =>
    obtain ⟨w, symbol⟩ := t
    have hw := (valid _ List.mem_cons_self).1
    rcases (List.isChain_cons_cons.mp chain).1 with rfl | rfl | rfl
    · exact ⟨not_separator_append hw (by simp [Symbol.text]), fun _ =>
        ⟨',', by simp [entries, Symbol.text], rfl⟩⟩
    · exact ⟨not_separator_append hw (by simp [Symbol.text]), fun _ =>
        ⟨']', by simp [entries, Symbol.text], rfl⟩⟩
    · exact ⟨not_separator_append hw (by simp [Symbol.text]), fun _ =>
        ⟨'\x7d', by simp [entries, Symbol.text], rfl⟩⟩

/-- Behind a key there is a colon, and directly behind the colon there can be a value. -/
theorem plain_behind_key {body : Str} {lead : Str} {ts : List Token}
    (chain : (⟨lead, .key body⟩ :: ts).IsChain fun t t' => t.symbol.follows t'.symbol)
    (valid : ∀ t ∈ ts, Space t.lead ∧ t.symbol.Valid) :
    (ts ≠ [] → ∃ c ∈ (entries trail ts).1, isMark c = true) ∧
      (Separator (entries trail ts).1 → ∀ e ∈ (entries trail ts).2.head?,
        ∃ w value after, ts = ⟨[], .colon⟩ :: ⟨w, .string value⟩ :: after ∧
          (entries trail ts).1 = ':' :: w ∧
          (entries trail ts).2 = ⟨false, value.splitOn '"', (entries trail after).1⟩ ::
            (entries trail after).2) := by
  cases ts with
  | nil =>
    refine ⟨fun h => absurd rfl h, fun h => absurd h ?_⟩
    have := @not_separator_append trail [] htrail (by simp)
    rwa [List.append_nil] at this
  | cons t ts =>
    obtain ⟨w, symbol⟩ := t
    rw [List.isChain_cons_cons] at chain
    obtain ⟨hcolon, chain⟩ := chain
    obtain rfl : symbol = .colon := hcolon
    refine ⟨fun _ => ⟨':', by simp [entries, Symbol.text], rfl⟩, fun hsep e he => ?_⟩
    rw [List.forall_mem_cons] at valid
    obtain ⟨w', heq, hw'⟩ := hsep
    have hnil : w = [] := by
      cases w with
      | nil => rfl
      | cons c w =>
        have hc : c = ':' := (List.cons.inj heq).1
        exact absurd (valid.1.1 c List.mem_cons_self) (by rw [hc]; decide)
    subst hnil
    have hrest : (entries trail ts).1 = w' := (List.cons.inj heq).2
    cases ts with
    | nil => cases he
    | cons t ts =>
      obtain ⟨u, next⟩ := t
      have hopens : next.opens = true := (List.isChain_cons_cons.mp chain).1
      -- a value that is no string begins with something else than white space
      have hlow : ∀ c ∈ next.text, next.text ++ (entries trail ts).1 <:+ w' → c.toNat < 33 :=
        fun c hc hsuff => hw' c (hsuff.subset (List.mem_append_left _ hc))
      cases next with
      | string value => exact ⟨u, value, ts, rfl, rfl, rfl⟩
      | literal text =>
        have hs := (valid.2 _ List.mem_cons_self).2
        obtain ⟨c, rest, hcons⟩ := List.exists_cons_of_ne_nil (Literal.chars hs).1
        have hc : c ∈ text := by rw [hcons]; exact List.mem_cons_self
        have hlt := hlow c hc ⟨u, hrest⟩
        have hge := (Literal.chars hs).2 c hc
        omega
      | openArray => exact absurd (hlow '[' List.mem_cons_self ⟨u, hrest⟩) (by decide)
      | openObject => exact absurd (hlow '\x7b' List.mem_cons_self ⟨u, hrest⟩) (by decide)
      | _ => cases hopens

/-- The strings of a rendering fit together. -/
theorem entries_fit {ts : List Token}
    (chain : ts.IsChain fun t t' => t.symbol.follows t'.symbol)
    (valid : ∀ t ∈ ts, Space t.lead ∧ t.symbol.Valid) :
    (∀ e ∈ (entries trail ts).2, e.Fits) ∧ (entries trail ts).2.IsChain Entry.Next := by
  induction ts with
  | nil => exact ⟨fun e he => absurd he List.not_mem_nil, List.isChain_nil⟩
  | cons t ts ih =>
    have hrest := (List.isChain_cons.mp chain).2
    rw [List.forall_mem_cons] at valid
    obtain ⟨hfits, hnext⟩ := ih hrest valid.2
    have hne : ∀ e ∈ (entries trail ts).2.head?, ts ≠ [] := by
      rintro e he rfl
      cases he
    obtain ⟨lead, symbol⟩ := t
    cases symbol with
    | key body =>
      obtain ⟨hmark, hvalue⟩ := plain_behind_key htrail chain valid.2
      refine ⟨List.forall_mem_cons.mpr ⟨⟨Body.slashed valid.1.2, splitOn_ne_nil _, fun _ => rfl⟩,
        hfits⟩, List.isChain_cons.mpr ⟨fun e he => ⟨hmark (hne e he), fun hsep => ?_⟩, hnext⟩⟩
      obtain ⟨w, value, after, -, -, heq⟩ := hvalue hsep e he
      rw [heq, List.head?_cons, Option.mem_some_iff] at he
      rw [← he]
    | string body =>
      obtain ⟨hsep, hmark⟩ := plain_behind_value htrail chain valid.2
      exact ⟨List.forall_mem_cons.mpr ⟨⟨Body.slashed valid.1.2, splitOn_ne_nil _,
        fun h => absurd h hsep⟩, hfits⟩, List.isChain_cons.mpr
          ⟨fun e he => ⟨hmark (hne e he), fun h => absurd h hsep⟩, hnext⟩⟩
    | _ => exact ⟨hfits, hnext⟩

omit htrail in
/-- What is in front of a string does not depend on what follows. -/
theorem entries_append (before : List Token) (lead : Str) : ∃ plain es, ∀ ts,
    (entries trail ts).1 = lead → entries trail (before ++ ts) =
      (plain, es ++ (entries trail ts).2) := by
  induction before with
  | nil => exact ⟨lead, [], fun ts h => Prod.ext h rfl⟩
  | cons t before ih =>
    obtain ⟨plain, es, h⟩ := ih
    obtain ⟨w, symbol⟩ := t
    cases hsymbol : symbol with
    | key body =>
      refine ⟨w, ⟨true, body.splitOn '"', plain⟩ :: es, fun ts hts => ?_⟩
      rw [List.cons_append, entries, h ts hts]
      rfl
    | string body =>
      refine ⟨w, ⟨false, body.splitOn '"', plain⟩ :: es, fun ts hts => ?_⟩
      rw [List.cons_append, entries, h ts hts]
      rfl
    | _ =>
      refine ⟨w ++ (symbol.text ++ plain), es, fun ts hts => ?_⟩
      rw [List.cons_append, entries, h ts hts, hsymbol]

/-- A string with nothing but a colon behind it is the key of a member with a string. -/
theorem exists_member {ts : List Token}
    (chain : ts.IsChain fun t t' => t.symbol.follows t'.symbol)
    (valid : ∀ t ∈ ts, Space t.lead ∧ t.symbol.Valid) {before after : List Entry} {e e' : Entry}
    (hsplit : (entries trail ts).2 = before ++ e :: e' :: after) (hsep : Separator e.plain) :
    ∃ tsBefore lead body w value tsAfter,
      ts = tsBefore ++ ⟨lead, .key body⟩ :: ⟨[], .colon⟩ :: ⟨w, .string value⟩ :: tsAfter ∧
      e.parts = body.splitOn '"' ∧ e.plain = ':' :: w ∧ e'.parts = value.splitOn '"' := by
  induction ts generalizing before with
  | nil => simp [entries] at hsplit
  | cons t ts ih =>
    have hrest := (List.isChain_cons.mp chain).2
    rw [List.forall_mem_cons] at valid
    have hlater : ∀ before, (entries trail ts).2 = before ++ e :: e' :: after →
        ∃ tsBefore lead body w value tsAfter,
        t :: ts = tsBefore ++ ⟨lead, .key body⟩ :: ⟨[], .colon⟩ :: ⟨w, .string value⟩ :: tsAfter ∧
        e.parts = body.splitOn '"' ∧ e.plain = ':' :: w ∧ e'.parts = value.splitOn '"' := by
      intro before h
      obtain ⟨tsBefore, lead, body, w, value, tsAfter, hts, hparts⟩ := ih hrest valid.2 h
      exact ⟨t :: tsBefore, lead, body, w, value, tsAfter, by rw [hts]; rfl, hparts⟩
    obtain ⟨lead, symbol⟩ := t
    cases symbol with
    | key body =>
      cases before with
      | cons x before => exact hlater before (List.cons.inj hsplit).2
      | nil =>
        obtain ⟨rfl, hes⟩ := List.cons.inj hsplit
        obtain ⟨w, value, tsAfter, hts, hplain, heq⟩ :=
          (plain_behind_key htrail chain valid.2).2 hsep e' (by rw [hes]; rfl)
        rw [heq] at hes
        refine ⟨[], lead, body, w, value, tsAfter, by rw [hts]; rfl, rfl, hplain, ?_⟩
        rw [← (List.cons.inj hes).1]
    | string body =>
      cases before with
      | cons x before => exact hlater before (List.cons.inj hsplit).2
      | nil =>
        obtain ⟨rfl, -⟩ := List.cons.inj hsplit
        exact absurd hsep (plain_behind_value htrail chain valid.2).1
    | _ => exact hlater before hsplit

end Neighbours

end LocalStack.JsonSyntax
