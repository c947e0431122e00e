import LocalStack.Lib.Xml
import Mathlib.Data.List.Infix

/-! Texts in `SqsQueryResponseSerializer`: quotes and carriage returns are marked
before the XML is written and the markers are replaced in the whole document. -/

namespace LocalStack.Aws.Protocol.SqsQuery
open LocalStack.Text LocalStack.Xml

/-! ## Serializer -/

def quoteMarker : Str := "__marker__\"__marker__".toList

def returnMarker : Str := "__marker__-r__marker__".toList

/-- The text that `_default_serialize` gives a node. -/
def default_serialize_text (params : Str) : Str :=
  replace ['\r'] returnMarker (replace ['"'] quoteMarker params)

/-- An element without children as `ElementTree` writes it. -/
def textElement (name text : Str) : List Piece :=
  if text = [] then [.tag (name ++ [' ', '/'])]
  else [.tag name, .data text, .tag ('/' :: name)]

/-- The markers are replaced by references. -/
def replaceMarkers (generated_string : Str) : Str :=
  replace returnMarker "&#xD;".toList (replace quoteMarker "&quot;".toList generated_string)

/-- `_node_to_string` for XML, on the pieces of the written tree. -/
def node_to_string (root : List Piece) : Str := replaceMarkers (write (root.map Piece.escaped))

/-! ## What happens to a text -/

def markedChar (c : Char) : Str :=
  if c = '"' then quoteMarker else if c = '\r' then returnMarker else escapeChar c

/-- A character after the quote markers are replaced. -/
def quotedChar (c : Char) : Str :=
  if c = '"' then "&quot;".toList else if c = '\r' then returnMarker else escapeChar c

theorem escape_default_serialize_text (params : Str) :
    escape (default_serialize_text params) = params.flatMap markedChar := by
  rw [default_serialize_text, replace_singleton, replace_singleton, escape, List.flatMap_assoc,
    List.flatMap_assoc]
  congr 1
  funext c
  by_cases hq : c = '"'
  · rw [if_pos hq, markedChar, if_pos hq]
    decide
  · rw [if_neg hq, markedChar, if_neg hq]
    by_cases hr : c = '\r'
    · subst hr
      decide
    · simp [hr]

theorem markedChar_of_ne {c : Char} (h : c ≠ '"') : markedChar c = quotedChar c := by
  rw [markedChar, quotedChar, if_neg h, if_neg h]

theorem quote_not_mem_escapeChar {c : Char} (h : c ≠ '"') : '"' ∉ escapeChar c := by
  unfold escapeChar
  split_ifs
  · decide
  · decide
  · decide
  · simpa using Ne.symm h

theorem quote_not_mem_quotedChar (c : Char) : '"' ∉ quotedChar c := by
  unfold quotedChar
  split_ifs with hq
  · decide
  · decide
  · exact quote_not_mem_escapeChar hq

/-- The quote of a marker is the first one, and the marker begins before it. -/
theorem quote_not_mem_take (params : Str) : '"' ∉ (params.flatMap markedChar).take 10 := by
  induction params with
  | nil => simp
  | cons c params ih =>
    rw [List.flatMap_cons, List.take_append, List.mem_append]
    rintro (h | h)
    · by_cases hq : c = '"'
      · subst hq
        revert h
        decide
      · rw [markedChar_of_ne hq] at h
        exact quote_not_mem_quotedChar c (List.mem_of_mem_take h)
    · exact ih ((List.take_sublist_take_left (by omega)).mem h)

/-- No quote marker begins in front of a marked text. -/
theorem replace_quoteMarker_append {a : Str} (h : '"' ∉ a) (params new : Str) :
    replace quoteMarker new (a ++ params.flatMap markedChar) =
      a ++ replace quoteMarker new (params.flatMap markedChar) := by
  induction a with
  | nil => rfl
  | cons c a ih =>
    rw [List.mem_cons, not_or] at h
    have hnot : ¬quoteMarker <+: c :: a ++ params.flatMap markedChar := by
      intro hp
      have hmem : '"' ∈ (c :: a ++ params.flatMap markedChar).take 11 :=
        (hp.take 11).subset (by decide)
      rw [List.take_append, List.mem_append, List.length_cons] at hmem
      rcases hmem with hmem | hmem
      · rcases List.mem_cons.mp (List.mem_of_mem_take hmem) with hc | ha
        · exact h.1 hc
        · exact h.2 ha
      · exact quote_not_mem_take params ((List.take_sublist_take_left (by omega)).mem hmem)
    rw [List.cons_append] at hnot ⊢
    rw [replace_cons_unmatched new hnot, ih h.2, List.cons_append]

theorem replace_quoteMarker (params : Str) :
    replace quoteMarker "&quot;".toList (params.flatMap markedChar) = params.flatMap quotedChar := by
  induction params with
  | nil => rfl
  | cons c params ih =>
    rw [List.flatMap_cons, List.flatMap_cons]
    by_cases hq : c = '"'
    · have hmarked : markedChar c = quoteMarker := if_pos hq
      have hquoted : quotedChar c = "&quot;".toList := if_pos hq
      rw [hmarked, hquoted, replace_append_self (by decide), ih]
    · rw [markedChar_of_ne hq, replace_quoteMarker_append (quote_not_mem_quotedChar c), ih]

/-! ## Collisions -/

/-- The texts that begin a return marker which is not one of those that were put
in: the marker itself, and what becomes one together with the beginning of the
marker of a carriage return. -/
def collisions : List Str :=
  [returnMarker, returnMarker.take 12 ++ ['\r'], returnMarker.take 20 ++ ['\r'],
    returnMarker.take 21 ++ ['\r']]

example : collisions = ["__marker__-r__marker__".toList, "__marker__-r\r".toList,
    "__marker__-r__marker\r".toList, "__marker__-r__marker_\r".toList] := by decide

/-- A character that is written as it is. -/
def Ordinary (c : Char) : Prop := c ∉ ['"', '\r', '&', '<', '>']

instance (c : Char) : Decidable (Ordinary c) := inferInstanceAs (Decidable (c ∉ _))

theorem quotedChar_of_ordinary {c : Char} (h : Ordinary c) : quotedChar c = [c] := by
  simp only [Ordinary, List.mem_cons, List.not_mem_nil, or_false, not_or] at h
  obtain ⟨hq, hr, ha, hl, hg⟩ := h
  simp [quotedChar, escapeChar, hq, hr, ha, hl, hg]

theorem quotedChar_of_special {c : Char} (h : ¬Ordinary c) (hr : c ≠ '\r') :
    ∃ s, quotedChar c = '&' :: s ∧ '_' ∉ s := by
  have hc : c = '"' ∨ c = '&' ∨ c = '<' ∨ c = '>' := by
    by_contra hc
    simp only [not_or] at hc
    exact h (by simp [Ordinary, hr, hc])
  rcases hc with rfl | rfl | rfl | rfl
  · exact ⟨"quot;".toList, by decide, by decide⟩
  · exact ⟨"amp;".toList, by decide, by decide⟩
  · exact ⟨"lt;".toList, by decide, by decide⟩
  · exact ⟨"gt;".toList, by decide, by decide⟩

/-- The text begins with `s`, or with its first characters and a carriage return
whose marker goes on as `s` does. -/
def Begins (s params : Str) : Prop :=
  s <+: params ∨ ∃ p q, s = p ++ q ∧ q ≠ [] ∧ p ++ ['\r'] <+: params ∧ q <+: returnMarker

theorem begins_return {x : Char} (hx : x ≠ '\r') (s params : Str) :
    Begins (x :: s) ('\r' :: params) ↔ x :: s <+: returnMarker := by
  constructor
  · rintro (h | ⟨p, q, hs, hq, hp, hmarker⟩)
    · exact absurd (List.cons_prefix_cons.mp h).1 hx
    · cases p with
      | nil => rwa [hs]
      | cons y p =>
        obtain ⟨rfl, rfl⟩ := List.cons.inj hs
        exact absurd (List.cons_prefix_cons.mp hp).1 hx
  · exact fun h => .inr ⟨[], x :: s, rfl, by simp, by simp, h⟩

theorem begins_cons {x c : Char} (hc : c ≠ '\r') (s params : Str) :
    Begins (x :: s) (c :: params) ↔ x = c ∧ Begins s params := by
  constructor
  · rintro (h | ⟨p, q, hs, hq, hp, hmarker⟩)
    · obtain ⟨rfl, hs⟩ := List.cons_prefix_cons.mp h
      exact ⟨rfl, .inl hs⟩
    · cases p with
      | nil => exact absurd (List.cons_prefix_cons.mp hp).1.symm hc
      | cons y p =>
        obtain ⟨rfl, rfl⟩ := List.cons.inj hs
        obtain ⟨rfl, hp'⟩ := List.cons_prefix_cons.mp hp
        exact ⟨rfl, .inr ⟨p, q, rfl, hq, hp', hmarker⟩⟩
  · rintro ⟨rfl, h | ⟨p, q, rfl, hq, hp, hmarker⟩⟩
    · exact .inl (List.cons_prefix_cons.mpr ⟨rfl, h⟩)
    · exact .inr ⟨x :: p, q, rfl, hq, List.cons_prefix_cons.mpr ⟨rfl, hp⟩, hmarker⟩

/-- What a written text begins with. -/
theorem prefix_flatMap_quotedChar {s : Str} (hs : ∀ c ∈ s, Ordinary c)
    (hlen : s.length ≤ returnMarker.length) (params : Str) :
    s <+: params.flatMap quotedChar ↔ Begins s params := by
  induction s generalizing params with
  | nil => simp [Begins]
  | cons x s ih =>
    obtain ⟨hx, hs⟩ := List.forall_mem_cons.mp hs
    have hxr : x ≠ '\r' := by
      rintro rfl
      exact absurd hx (by decide)
    cases params with
    | nil => simp [Begins]
    | cons c params =>
      rw [List.flatMap_cons]
      by_cases hr : c = '\r'
      · subst hr
        have hmarker : quotedChar '\r' = returnMarker := by decide
        rw [hmarker, begins_return hxr]
        exact ⟨fun h => List.prefix_of_prefix_length_le h (List.prefix_append ..) hlen,
          fun h => h.trans (List.prefix_append ..)⟩
      · rw [begins_cons hr]
        rw [List.length_cons] at hlen
        by_cases hc : Ordinary c
        · rw [quotedChar_of_ordinary hc, List.singleton_append, List.cons_prefix_cons,
            ih hs (by omega)]
        · obtain ⟨t, ht, -⟩ := quotedChar_of_special hc hr
          rw [ht, List.cons_append, List.cons_prefix_cons]
          have hamp : x ≠ '&' := by
            rintro rfl
            exact absurd hx (by decide)
          have hne : x ≠ c := by
            rintro rfl
            exact hc hx
          simp [hamp, hne]

/-- A return marker begins where the text begins with a collision. -/
theorem returnMarker_prefix_iff {params : Str} (h : params.head? ≠ some '\r') :
    returnMarker <+: params.flatMap quotedChar ↔ ∃ b ∈ collisions, b <+: params := by
  rw [prefix_flatMap_quotedChar (by decide) (Nat.le_refl _), Begins]
  constructor
  · rintro (h | ⟨p, q, hs, hq, hp, hmarker⟩)
    · exact ⟨returnMarker, by simp [collisions], h⟩
    · have hborder : ∀ n < 22, returnMarker.drop n <+: returnMarker →
          n = 0 ∨ returnMarker.take n ++ ['\r'] ∈ collisions := by decide
      have hlen : p.length < 22 := by
        have h22 : returnMarker.length = 22 := by decide
        have hpos := List.length_pos_iff.mpr hq
        rw [hs, List.length_append] at h22
        omega
      have htake : returnMarker.take p.length = p := by rw [hs, List.take_left]
      have hdrop : returnMarker.drop p.length = q := by rw [hs, List.drop_left]
      rcases hborder p.length hlen (by rwa [hdrop]) with h0 | hmem
      · -- the marker that was put in itself
        obtain rfl := List.eq_nil_of_length_eq_zero h0
        obtain ⟨t, rfl⟩ := hp
        exact absurd rfl h
      · exact ⟨_, hmem, by rwa [htake]⟩
  · rintro ⟨b, hb, hpre⟩
    have hsplit : b = returnMarker ∨ ∃ n, b = returnMarker.take n ++ ['\r'] ∧ n < 22 ∧
        returnMarker.drop n <+: returnMarker := by
      simp only [collisions, List.mem_cons, List.not_mem_nil, or_false] at hb
      rcases hb with rfl | rfl | rfl | rfl
      · exact .inl rfl
      · exact .inr ⟨12, rfl, by decide, by decide⟩
      · exact .inr ⟨20, rfl, by decide, by decide⟩
      · exact .inr ⟨21, rfl, by decide, by decide⟩
    rcases hsplit with rfl | ⟨n, rfl, hn, hborder⟩
    · exact .inl hpre
    · refine .inr ⟨_, _, (List.take_append_drop n returnMarker).symm, fun hnil => ?_, hpre, hborder⟩
      have h22 : returnMarker.length = 22 := by decide
      rw [List.drop_eq_nil_iff, h22] at hnil
      omega

/-! ## Texts that survive -/

/-- A written text with its markers replaced. -/
def written (params : Str) : Str :=
  replace returnMarker "&#xD;".toList (params.flatMap quotedChar)

theorem replaceMarkers_text (params : Str) :
    replaceMarkers (escape (default_serialize_text params)) = written params := by
  rw [replaceMarkers, escape_default_serialize_text, replace_quoteMarker, written]

def Collides (params : Str) : Prop := ∃ b ∈ collisions, b <+: params

theorem written_return (params : Str) : written ('\r' :: params) = "&#xD;".toList ++ written params := by
  have hmarker : quotedChar '\r' = returnMarker := by decide
  rw [written, List.flatMap_cons, hmarker, replace_append_self (by decide), written]

/-- Without a collision a character is written on its own. -/
theorem written_cons {c : Char} (hr : c ≠ '\r') {params : Str} (h : ¬Collides (c :: params)) :
    written (c :: params) = quotedChar c ++ written params := by
  have hnot : ¬returnMarker <+: (c :: params).flatMap quotedChar := by
    rwa [returnMarker_prefix_iff (by simpa using hr)]
  rw [List.flatMap_cons] at hnot
  rw [written, List.flatMap_cons]
  by_cases hc : Ordinary c
  · rw [quotedChar_of_ordinary hc, List.singleton_append] at hnot ⊢
    rw [replace_cons_unmatched _ hnot, List.singleton_append, written]
  · obtain ⟨s, hs, hmem⟩ := quotedChar_of_special hc hr
    have hnone : '_' ∉ quotedChar c := by simp [hs, hmem]
    have hmarker : returnMarker = '_' :: "_marker__-r__marker__".toList := by decide
    rw [hmarker, replace_append_of_not_mem hnone, ← hmarker, written]

theorem collides_head {params : Str} (h : Collides params) : ∃ s, params = '_' :: s := by
  have hhead : ∀ b ∈ collisions, ['_'] <+: b := by decide
  obtain ⟨b, hb, hpre⟩ := h
  obtain ⟨s, rfl⟩ := (hhead b hb).trans hpre
  exact ⟨s, rfl⟩

/-- With a collision another carriage return is written. -/
theorem written_of_collides {params : Str} (h : Collides params) :
    ∃ s, written params = "&#xD;".toList ++ s := by
  obtain ⟨s, rfl⟩ := collides_head h
  obtain ⟨t, ht⟩ := (returnMarker_prefix_iff (by simp)).mpr h
  exact ⟨_, by rw [written, ← ht, replace_append_self (by decide)]⟩

theorem decode_return (s : Str) : decode ("&#xD;".toList ++ s) = (decode s).map ('\r' :: ·) :=
  @decode_reference "#xD".toList '\r' (by decide) (by decide) s

theorem decode_written_cons {c : Char} (hl : Legal c) {params : Str} (h : ¬Collides (c :: params)) :
    decode (written (c :: params)) = (decode (written params)).map (c :: ·) := by
  by_cases hr : c = '\r'
  · rw [hr, written_return, decode_return]
  · rw [written_cons hr h, quotedChar, if_neg hr]
    split_ifs with hq
    · rw [hq]
      exact @decode_reference "quot".toList '"' (by decide) (by decide) _
    · exact decode_escapeChar hl _

/-- A text survives exactly when it has no collision. -/
theorem decode_written_iff {params : Str} (hl : ∀ c ∈ params, Legal c) :
    decode (written params) = some params ↔ ∀ b ∈ collisions, contains b params = false := by
  induction params with
  | nil => exact iff_of_true (by decide) (by decide)
  | cons c params ih =>
    obtain ⟨hc, hl⟩ := List.forall_mem_cons.mp hl
    have hcontains (b : Str) : contains b (c :: params) = false ↔
        ¬b <+: c :: params ∧ contains b params = false := by
      rw [contains, Bool.or_eq_false_iff, ← Bool.not_eq_true, List.isPrefixOf_iff_prefix]
    simp only [hcontains]
    by_cases h : Collides (c :: params)
    · refine iff_of_false (fun hd => ?_) fun hall => ?_
      · obtain ⟨s, hs⟩ := written_of_collides h
        rw [hs, decode_return] at hd
        obtain ⟨t, -, ht⟩ := Option.map_eq_some_iff.mp hd
        obtain ⟨u, hu⟩ := collides_head h
        rw [hu] at ht
        exact absurd (List.cons.inj ht).1 (by decide)
      · obtain ⟨b, hb, hpre⟩ := h
        exact (hall b hb).1 hpre
    · rw [decode_written_cons hc h]
      have hinj : (decode (written params)).map (c :: ·) = some (c :: params) ↔
          decode (written params) = some params := by
        rw [Option.map_eq_some_iff]
        simp
      rw [hinj, ih hl]
      exact ⟨fun hall b hb => ⟨fun hp => h ⟨b, hb, hp⟩, hall b hb⟩, fun hall b hb => (hall b hb).2⟩

/-! ## Documents -/

/-- The document around a text: it can be read back, and it has no carriage
return and no marker of its own. -/
structure Context (doc : List Piece) : Prop where
  separated : Separated (doc.map Piece.escaped)
  legal : ∀ text, Piece.data text ∈ doc → ∀ c ∈ text, Legal c
  noReturn : '\r' ∉ write (doc.map Piece.escaped)
  untouched : ∀ p ∈ doc, p.escaped.map replaceMarkers = p.escaped

/-- A name that is written in a tag as it is. -/
structure PlainName (name : Str) : Prop where
  noBracket : '>' ∉ name
  noReturn : '\r' ∉ name
  untouched : replaceMarkers name = name

theorem Context.read {doc : List Piece} (h : Context doc) :
    (doc.map Piece.escaped).mapM Piece.read = some doc := by
  have hp : ∀ p ∈ doc, p.escaped.read = some p := by
    intro p hp
    cases p with
    | tag markup => rfl
    | data text => rw [Piece.escaped, Piece.read, decode_escape (h.legal text hp)]; rfl
  clear h
  induction doc with
  | nil => rfl
  | cons p doc ih =>
    obtain ⟨hp, hdoc⟩ := List.forall_mem_cons.mp hp
    rw [List.map_cons, List.mapM_cons, hp, ih hdoc]
    rfl

/-- The markers are replaced piece by piece. -/
theorem replaceMarkers_write {doc : List Piece} (h : Separated doc) :
    replaceMarkers (write doc) = write (doc.map (Piece.map replaceMarkers)) := by
  have hquoted : Separated (doc.map (Piece.map (replace quoteMarker "&quot;".toList))) := by
    refine h.map (fun s hs => replace_ne_nil _ (by decide) hs) (fun s hs hmem => ?_)
      fun s hs hmem => ?_
    · exact (mem_replace hmem).elim (by decide) hs
    · exact (mem_replace hmem).elim (by decide) hs
  rw [replaceMarkers, replace_write (by decide) (by decide) (by decide) _ h,
    replace_write (by decide) (by decide) (by decide) _ hquoted, List.map_map]
  congr 2
  funext p
  cases p <;> rfl

theorem PlainName.close {name : Str} (h : PlainName name) : replaceMarkers ('/' :: name) = '/' :: name := by
  have hslash (old new s : Str) (hold : '/' ∉ old) (hne : old ≠ []) :
      replace old new ('/' :: s) = '/' :: replace old new s :=
    replace_append_cons hold hne new [] s
  have hname := h.untouched
  rw [replaceMarkers] at hname ⊢
  rw [hslash _ _ _ (by decide) (by decide), hslash _ _ _ (by decide) (by decide), hname]

theorem PlainName.empty {name : Str} (h : PlainName name) :
    replaceMarkers (name ++ [' ', '/']) = name ++ [' ', '/'] := by
  have hend (old new s : Str) (hold : ' ' ∉ old) (hne : old ≠ [])
      (hlast : replace old new ['/'] = ['/']) :
      replace old new (s ++ [' ', '/']) = replace old new s ++ [' ', '/'] := by
    rw [replace_append_cons hold hne new s ['/'], hlast]
  have hname := h.untouched
  rw [replaceMarkers] at hname ⊢
  rw [hend _ _ _ (by decide) (by decide) (by decide),
    hend _ _ _ (by decide) (by decide) (by decide), hname]

theorem written_ne_nil {params : Str} (h : params ≠ []) : written params ≠ [] := by
  refine replace_ne_nil _ (by decide) ?_
  cases params with
  | nil => exact absurd rfl h
  | cons c params =>
    rw [List.flatMap_cons]
    refine List.append_ne_nil_of_left_ne_nil ?_ _
    unfold quotedChar
    split_ifs
    · decide
    · decide
    · exact escapeChar_ne_nil c

theorem not_mem_written {c : Char} (hq : ∀ x, c ∉ quotedChar x) (hr : c ∉ "&#xD;".toList)
    (params : Str) : c ∉ written params := by
  intro h
  rcases mem_replace h with h | h
  · exact hr h
  · obtain ⟨x, -, hx⟩ := List.mem_flatMap.mp h
    exact hq x hx

theorem lt_not_mem_quotedChar (x : Char) : '<' ∉ quotedChar x := by
  unfold quotedChar
  split_ifs
  · decide
  · decide
  · have h := lt_not_mem_escape [x]
    simpa [escape] using h

theorem return_not_mem_quotedChar (x : Char) : '\r' ∉ quotedChar x := by
  unfold quotedChar
  split_ifs with hq hr
  · decide
  · decide
  · unfold escapeChar
    split_ifs
    · decide
    · decide
    · decide
    · simpa using Ne.symm hr

/-- The element of a text as it is in the document. -/
def writtenElement (name params : Str) : List Piece :=
  if params = [] then [.tag (name ++ [' ', '/'])]
  else [.tag name, .data (written params), .tag ('/' :: name)]

theorem writtenElement_eq {name : Str} (h : PlainName name) (params : Str) :
    ((textElement name (default_serialize_text params)).map Piece.escaped).map
      (Piece.map replaceMarkers) = writtenElement name params := by
  by_cases hp : params = []
  · subst hp
    have hempty : default_serialize_text [] = [] := by decide
    simp [textElement, writtenElement, hempty, Piece.escaped, Piece.map, h.empty]
  · have hne : default_serialize_text params ≠ [] :=
      replace_ne_nil _ (by decide) (replace_ne_nil _ (by decide) hp)
    simp [textElement, writtenElement, hp, hne, Piece.escaped, Piece.map, h.untouched, h.close,
      replaceMarkers_text]

/-- An element with a text stands between its tags. -/
theorem separated_element {before after : List Piece} (hbefore : Separated before)
    (hafter : Separated after) {name s : Str} (hname : '>' ∉ name) (hs : s ≠ []) (hlt : '<' ∉ s) :
    Separated (before ++ [.tag name, .data s, .tag ('/' :: name)] ++ after) := by
  have hclose : '>' ∉ '/' :: name := by simpa using hname
  rw [List.append_assoc]
  exact hbefore.append_tag (.tag hname (.data_tag hs hlt (.tag hclose hafter)))

theorem separated_empty {before after : List Piece} (hbefore : Separated before)
    (hafter : Separated after) {name : Str} (hname : '>' ∉ name) :
    Separated (before ++ [.tag (name ++ [' ', '/'])] ++ after) := by
  have hempty : '>' ∉ name ++ [' ', '/'] := by simpa using hname
  rw [List.append_assoc]
  exact hbefore.append_tag (.tag hempty hafter)

section

variable {before after : List Piece} {name : Str}

theorem separated_written (hbefore : Context before) (hafter : Context after)
    (hname : PlainName name) (params : Str) :
    Separated (before.map Piece.escaped ++ writtenElement name params ++
      after.map Piece.escaped) := by
  rw [writtenElement]
  split_ifs with hp
  · exact separated_empty hbefore.separated hafter.separated hname.noBracket
  · exact separated_element hbefore.separated hafter.separated hname.noBracket
      (written_ne_nil hp) (not_mem_written lt_not_mem_quotedChar (by decide) params)

theorem node_to_string_eq (hbefore : Context before) (hafter : Context after)
    (hname : PlainName name) (params : Str) :
    node_to_string (before ++ textElement name (default_serialize_text params) ++ after) =
      write (before.map Piece.escaped ++ writtenElement name params ++
        after.map Piece.escaped) := by
  have hsep : Separated ((before ++ textElement name (default_serialize_text params) ++
      after).map Piece.escaped) := by
    rw [List.map_append, List.map_append, textElement]
    split_ifs with ht
    · exact separated_empty hbefore.separated hafter.separated hname.noBracket
    · exact separated_element hbefore.separated hafter.separated hname.noBracket
        (mt escape_eq_nil.mp ht) (lt_not_mem_escape _)
  have huntouched {doc : List Piece} (h : Context doc) :
      (doc.map Piece.escaped).map (Piece.map replaceMarkers) = doc.map Piece.escaped := by
    rw [List.map_map]
    exact List.map_congr_left h.untouched
  rw [node_to_string, replaceMarkers_write hsep]
  simp only [List.map_append]
  rw [huntouched hbefore, huntouched hafter, writtenElement_eq hname]

theorem noReturn_written (hbefore : Context before) (hafter : Context after)
    (hname : PlainName name) (params : Str) :
    '\r' ∉ write (before.map Piece.escaped ++ writtenElement name params ++
      after.map Piece.escaped) := by
  have hn := hname.noReturn
  have hw : '\r' ∉ written params :=
    not_mem_written return_not_mem_quotedChar (by decide) params
  rw [write_append, write_append, List.mem_append, List.mem_append]
  rintro ((h | h) | h)
  · exact hbefore.noReturn h
  · rw [writtenElement] at h
    split_ifs at h
    · simp [write, Piece.write, hn] at h
    · simp [write, Piece.write, hn, hw] at h
  · exact hafter.noReturn h

theorem read_writtenElement (name params : Str) :
    (writtenElement name params).mapM Piece.read =
      if params = [] then some (textElement name [])
      else (decode (written params)).map fun text =>
        [.tag name, .data text, .tag ('/' :: name)] := by
  rw [writtenElement]
  split_ifs with hp
  · rfl
  · simp only [List.mapM_cons, List.mapM_nil, Piece.read]
    cases decode (written params) <;> rfl

/-- **Texts survive marker escaping exactly when they have no collision.** -/
theorem text_survives_iff (before after : List Piece) (name params : Str)
    (hbefore : Context before) (hafter : Context after) (hname : PlainName name)
    (hlegal : ∀ c ∈ params, Legal c) :
    read (node_to_string (before ++ textElement name (default_serialize_text params) ++ after)) =
      some (before ++ textElement name params ++ after) ↔
    ∀ b ∈ collisions, contains b params = false := by
  rw [node_to_string_eq hbefore hafter hname,
    read_write (separated_written hbefore hafter hname params)
      (noReturn_written hbefore hafter hname params), ← decode_written_iff hlegal,
    List.mapM_append, List.mapM_append, hbefore.read, hafter.read, read_writtenElement]
  by_cases hp : params = []
  · subst hp
    simp only [if_true]
    exact iff_of_true rfl (by decide)
  · rw [if_neg hp, textElement, if_neg hp]
    cases decode (written params) with
    | none => exact iff_of_false (by simp) (by simp)
    | some text => simp

end

/-! ## Sample texts -/

/-- The declaration that `ElementTree` writes and the response around a text. -/
def responseStart : List Piece :=
  [.tag "?xml version='1.0' encoding='utf-8'?".toList, .data "\n".toList, .tag "Response".toList]

def responseEnd : List Piece := [.tag "/Response".toList]

theorem context_responseStart : Context responseStart where
  separated := .tag (by decide) (.data_tag (by decide) (by decide) (.tag (by decide) .nil))
  legal := by
    intro text h
    obtain rfl : text = "\n".toList := by simpa [responseStart] using h
    decide
  noReturn := by decide
  untouched := by decide

theorem context_responseEnd : Context responseEnd where
  separated := .tag (by decide) .nil
  legal := by
    intro text h
    simp [responseEnd] at h
  noReturn := by decide
  untouched := by decide

theorem plainName_body : PlainName "Body".toList := ⟨by decide, by decide, by decide⟩

theorem text_survives_sample :
    read (node_to_string (responseStart ++
      textElement "Body".toList (default_serialize_text "a\"\r&__marker__-r".toList) ++
      responseEnd)) =
      some (responseStart ++ textElement "Body".toList "a\"\r&__marker__-r".toList ++
        responseEnd) :=
  (text_survives_iff responseStart responseEnd "Body".toList "a\"\r&__marker__-r".toList
    context_responseStart context_responseEnd plainName_body (by decide)).mpr (by decide)

/-- A text that is a marker comes back as a carriage return. -/
theorem marker_text_lost :
    Context responseStart ∧ Context responseEnd ∧ PlainName "Body".toList ∧
      (∀ c ∈ "__marker__-r__marker__".toList, Legal c) ∧
      read (node_to_string (responseStart ++
        textElement "Body".toList (default_serialize_text "__marker__-r__marker__".toList) ++
        responseEnd)) =
        some (responseStart ++ textElement "Body".toList "\r".toList ++ responseEnd) :=
  ⟨context_responseStart, context_responseEnd, plainName_body, by decide, by decide +kernel⟩

end LocalStack.Aws.Protocol.SqsQuery
