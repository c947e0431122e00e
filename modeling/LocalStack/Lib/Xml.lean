import LocalStack.Lib.Lists
import LocalStack.Lib.Text

/-! XML documents as sequences of tags and character data: how `ElementTree`
writes them and what a standard parser reads. -/

namespace LocalStack.Xml
open LocalStack.Text

/-! ## Characters -/

/-- The `Char` production of XML 1.0. -/
def Legal (c : Char) : Prop :=
  c = '\t' ∨ c = '\n' ∨ c = '\r' ∨ (0x20 ≤ c.toNat ∧ c.toNat ≤ 0xD7FF) ∨
    (0xE000 ≤ c.toNat ∧ c.toNat ≤ 0xFFFD) ∨ 0x10000 ≤ c.toNat

instance (c : Char) : Decidable (Legal c) := inferInstanceAs (Decidable (_ ∨ _))

/-- `_escape_cdata`, for one character. -/
def escapeChar (c : Char) : Str :=
  if c = '&' then "&amp;".toList
  else if c = '<' then "&lt;".toList
  else if c = '>' then "&gt;".toList
  else [c]

def escape (text : Str) : Str := text.flatMap escapeChar

/-- The digits of a character reference in a base. -/
def charRef (base : Nat) (digits : Str) : Option Char :=
  if digits = [] then none
  else
    (digits.foldl (fun n d => do
      let x ← hexVal d
      if x < base then some ((← n) * base + x) else none) (some 0)).bind fun n =>
        if n.isValidChar ∧ Legal (Char.ofNat n) then some (Char.ofNat n) else none

/-- The character that a reference stands for, without `&` and the semicolon. -/
def reference (name : Str) : Option Char :=
  if name = "amp".toList then some '&'
  else if name = "lt".toList then some '<'
  else if name = "gt".toList then some '>'
  else if name = "quot".toList then some '"'
  else if name = "apos".toList then some (Char.ofNat 39)
  else
    match name with
    | '#' :: 'x' :: digits => charRef 16 digits
    | '#' :: digits => charRef 10 digits
    | _ => none

/-- Character data is decoded once; the first argument is the name of the
reference that is being read. -/
def decodeFrom : Option Str → Str → Option Str
  | none, [] => some []
  | some _, [] => none
  | none, c :: s =>
    if c = '&' then decodeFrom (some []) s
    else if Legal c then (decodeFrom none s).map (c :: ·)
    else none
  | some name, c :: s =>
    if c = ';' then (reference name).bind fun d => (decodeFrom none s).map (d :: ·)
    else decodeFrom (some (name ++ [c])) s

def decode (data : Str) : Option Str := decodeFrom none data

example : decode "a&#xD;&quot;&#38;".toList = some "a\r\"&".toList ∧ decode "&x;".toList = none := by
  decide

theorem decodeFrom_name (name s : Str) {t : Str} (h : ';' ∉ t) :
    decodeFrom (some name) (t ++ ';' :: s) =
      (reference (name ++ t)).bind fun d => (decodeFrom none s).map (d :: ·) := by
  induction t generalizing name with
  | nil => simp [decodeFrom]
  | cons c t ih =>
    rw [List.mem_cons, not_or] at h
    obtain ⟨hc, ht⟩ := h
    rw [List.cons_append, decodeFrom, if_neg (Ne.symm hc), ih _ ht, List.append_assoc]
    rfl

theorem decode_reference {name : Str} {d : Char} (h : ';' ∉ name) (hd : reference name = some d)
    (s : Str) : decode ('&' :: name ++ ';' :: s) = (decode s).map (d :: ·) := by
  rw [decode, List.cons_append, decodeFrom, if_pos rfl, decodeFrom_name [] s h, List.nil_append, hd]
  rfl

theorem decode_cons {c : Char} (hc : c ≠ '&') (hl : Legal c) (s : Str) :
    decode (c :: s) = (decode s).map (c :: ·) := by
  rw [decode, decodeFrom, if_neg hc, if_pos hl, decode]

/-- An escaped character is decoded to itself. -/
theorem decode_escapeChar {c : Char} (hl : Legal c) (s : Str) :
    decode (escapeChar c ++ s) = (decode s).map (c :: ·) := by
  unfold escapeChar
  split_ifs with h₁ h₂ h₃
  · rw [h₁]
    exact @decode_reference "amp".toList '&' (by decide) (by decide) s
  · rw [h₂]
    exact @decode_reference "lt".toList '<' (by decide) (by decide) s
  · rw [h₃]
    exact @decode_reference "gt".toList '>' (by decide) (by decide) s
  · exact decode_cons h₁ hl s

theorem decode_escape {s : Str} (hl : ∀ c ∈ s, Legal c) : decode (escape s) = some s := by
  induction s with
  | nil => rfl
  | cons c s ih =>
    obtain ⟨hc, hs⟩ := List.forall_mem_cons.mp hl
    rw [escape, List.flatMap_cons, decode_escapeChar hc, ← escape, ih hs]
    rfl

theorem escapeChar_ne_nil (c : Char) : escapeChar c ≠ [] := by
  unfold escapeChar
  split_ifs <;> simp

theorem escape_eq_nil {s : Str} : escape s = [] ↔ s = [] := by
  cases s with
  | nil => simp [escape]
  | cons c s => simp [escape, escapeChar_ne_nil]

theorem lt_not_mem_escape (s : Str) : '<' ∉ escape s := by
  rw [escape, List.mem_flatMap]
  rintro ⟨c, -, hc⟩
  unfold escapeChar at hc
  split_ifs at hc with h₁ h₂ h₃
  · revert hc; decide
  · revert hc; decide
  · revert hc; decide
  · exact h₂ (List.mem_singleton.mp hc).symm

/-! ## Documents -/

/-- What is between the brackets of a tag, or the character data between two
tags. -/
inductive Piece
  | tag (markup : Str)
  | data (s : Str)
  deriving DecidableEq, Repr

def Piece.write : Piece → Str
  | .tag markup => '<' :: markup ++ ['>']
  | .data s => s

/-- Character data is escaped, tags are written as they are. -/
def Piece.escaped : Piece → Piece
  | .tag markup => .tag markup
  | .data text => .data (escape text)

def write (doc : List Piece) : Str := doc.flatMap Piece.write

/-- Line ends are normalised before anything else is read. -/
def normalizeLineEnds : Str → Str
  | '\r' :: '\n' :: s => '\n' :: normalizeLineEnds s
  | c :: s => (if c = '\r' then '\n' else c) :: normalizeLineEnds s
  | [] => []

/-- The character data read so far, decoded. -/
def flush (data : Str) (rest : List Piece) : Option (List Piece) :=
  if data = [] then some rest else (decode data).map fun text => .data text :: rest

/-- The scan of a document; the first argument says whether a tag is open and
what was read since the last bracket. -/
def readFrom : Bool → Str → Str → Option (List Piece)
  | false, data, [] => flush data []
  | true, _, [] => none
  | false, data, c :: s =>
    if c = '<' then (readFrom true [] s).bind (flush data)
    else readFrom false (data ++ [c]) s
  | true, markup, c :: s =>
    if c = '>' then (readFrom false [] s).map (.tag markup :: ·)
    else readFrom true (markup ++ [c]) s

/-- The tags and the decoded character data of a document. -/
def read (document : Str) : Option (List Piece) := readFrom false [] (normalizeLineEnds document)

/-- Pieces that are told apart when they are read: no bracket is in the way, and
character data stands between tags. -/
inductive Separated : List Piece → Prop
  | nil : Separated []
  | tag {markup doc} : '>' ∉ markup → Separated doc → Separated (.tag markup :: doc)
  | data {s} : s ≠ [] → '<' ∉ s → Separated [.data s]
  | data_tag {s markup doc} : s ≠ [] → '<' ∉ s → Separated (.tag markup :: doc) →
    Separated (.data s :: .tag markup :: doc)

def Piece.read : Piece → Option Piece
  | .tag markup => some (.tag markup)
  | .data s => (decode s).map .data

theorem normalizeLineEnds_eq {s : Str} (h : '\r' ∉ s) : normalizeLineEnds s = s := by
  induction s with
  | nil => rfl
  | cons c s ih =>
    rw [List.mem_cons, not_or] at h
    obtain ⟨hc, hs⟩ := h
    rw [normalizeLineEnds, if_neg (Ne.symm hc), ih hs]
    exact fun _ h => absurd h (Ne.symm hc)

theorem readFrom_tag (markup s : Str) {m : Str} (h : '>' ∉ m) :
    readFrom true markup (m ++ '>' :: s) =
      (readFrom false [] s).map (.tag (markup ++ m) :: ·) := by
  induction m generalizing markup with
  | nil => simp [readFrom]
  | cons c m ih =>
    rw [List.mem_cons, not_or] at h
    obtain ⟨hc, hm⟩ := h
    rw [List.cons_append, readFrom, if_neg (Ne.symm hc), ih _ hm, List.append_assoc]
    rfl

theorem readFrom_data (data s : Str) {d : Str} (h : '<' ∉ d) :
    readFrom false data (d ++ s) = readFrom false (data ++ d) s := by
  induction d generalizing data with
  | nil => simp
  | cons c d ih =>
    rw [List.mem_cons, not_or] at h
    obtain ⟨hc, hd⟩ := h
    rw [List.cons_append, readFrom, if_neg (Ne.symm hc), ih _ hd, List.append_assoc]
    rfl

theorem readFrom_write_tag (data : Str) {markup : Str} (h : '>' ∉ markup) (doc : List Piece) :
    readFrom false data (write (.tag markup :: doc)) =
      ((readFrom false [] (write doc)).map (.tag markup :: ·)).bind (flush data) := by
  have hwrite : write (.tag markup :: doc) = '<' :: (markup ++ '>' :: write doc) := by
    simp [write, Piece.write]
  rw [hwrite, readFrom, if_pos rfl, readFrom_tag [] _ h, List.nil_append]

/-- A written document is read piece by piece. -/
theorem readFrom_write {doc : List Piece} (h : Separated doc) :
    readFrom false [] (write doc) = doc.mapM Piece.read := by
  induction h with
  | nil => rfl
  | @tag markup doc hm _ ih =>
    rw [readFrom_write_tag [] hm, ih, List.mapM_cons]
    cases doc.mapM Piece.read <;> rfl
  | @data s hne hlt =>
    have hread := readFrom_data [] [] hlt
    rw [List.append_nil, List.nil_append] at hread
    have hwrite : write [.data s] = s := by simp [write, Piece.write]
    rw [hwrite, hread, readFrom, flush, if_neg hne, List.mapM_cons, Piece.read]
    cases decode s <;> rfl
  | @data_tag s markup doc hne hlt hdoc ih =>
    have hm : '>' ∉ markup := by
      cases hdoc with
      | tag hm => exact hm
    have hwrite : write (.data s :: .tag markup :: doc) = s ++ write (.tag markup :: doc) := rfl
    rw [readFrom_write_tag [] hm] at ih
    rw [hwrite, readFrom_data [] _ hlt, List.nil_append, readFrom_write_tag s hm, List.mapM_cons,
      ← ih, Piece.read]
    cases readFrom false [] (write doc) with
    | none => cases decode s <;> rfl
    | some rest =>
      simp only [Option.map_some, Option.bind_some, flush, if_neg hne, if_true]
      cases decode s <;> rfl

theorem Separated.append_tag {doc doc' : List Piece} {markup : Str} (h : Separated doc)
    (h' : Separated (.tag markup :: doc')) : Separated (doc ++ .tag markup :: doc') := by
  induction h with
  | nil => exact h'
  | tag hm _ ih => exact .tag hm ih
  | data hne hlt => exact .data_tag hne hlt h'
  | data_tag hne hlt _ ih => exact .data_tag hne hlt ih

/-- A text edit made on every piece. -/
def Piece.map (f : Str → Str) : Piece → Piece
  | .tag markup => .tag (f markup)
  | .data s => .data (f s)

theorem Separated.map {f : Str → Str} (hne : ∀ s, s ≠ [] → f s ≠ [])
    (hlt : ∀ s, '<' ∉ s → '<' ∉ f s) (hgt : ∀ s, '>' ∉ s → '>' ∉ f s) {doc : List Piece}
    (h : Separated doc) : Separated (doc.map (Piece.map f)) := by
  induction h with
  | nil => exact .nil
  | tag hm _ ih => exact .tag (hgt _ hm) ih
  | data hs hl => exact .data (hne _ hs) (hlt _ hl)
  | data_tag hs hl _ ih => exact .data_tag (hne _ hs) (hlt _ hl) ih

/-- What has no bracket is replaced piece by piece. -/
theorem replace_write {old : Str} (hne : old ≠ []) (hlt : '<' ∉ old) (hgt : '>' ∉ old) (new : Str)
    {doc : List Piece} (h : Separated doc) :
    replace old new (write doc) = write (doc.map (Piece.map (replace old new))) := by
  have htag (s markup : Str) (doc : List Piece) :
      replace old new (s ++ write (.tag markup :: doc)) =
        replace old new s ++ '<' :: (replace old new markup ++ '>' :: replace old new (write doc)) := by
    have hwrite : write (.tag markup :: doc) = '<' :: (markup ++ '>' :: write doc) := by
      simp [write, Piece.write]
    rw [hwrite, replace_append_cons hlt hne, replace_append_cons hgt hne]
  induction h with
  | nil => rfl
  | @tag markup doc _ _ ih =>
    have h := htag [] markup doc
    rw [List.nil_append] at h
    rw [h, ih]
    simp [write, Piece.write, Piece.map, replace, replaceFrom]
  | @data s => simp [write, Piece.write, Piece.map]
  | @data_tag s markup doc _ _ _ ih =>
    have h := htag [] markup doc
    rw [List.nil_append, ih] at h
    have hwrite : write (.data s :: .tag markup :: doc) = s ++ write (.tag markup :: doc) := rfl
    rw [hwrite, htag]
    simp only [write, List.map_cons, List.flatMap_cons, Piece.map, Piece.write] at h ⊢
    rw [h]
    simp [replace, replaceFrom]

theorem write_append (doc doc' : List Piece) : write (doc ++ doc') = write doc ++ write doc' :=
  List.flatMap_append

/-- A document without carriage returns is read piece by piece. -/
theorem read_write {doc : List Piece} (h : Separated doc) (hcr : '\r' ∉ write doc) :
    read (write doc) = doc.mapM Piece.read := by
  rw [read, normalizeLineEnds_eq hcr, readFrom_write h]

end LocalStack.Xml
