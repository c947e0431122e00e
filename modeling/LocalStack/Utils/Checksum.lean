import LocalStack.Lib.StrippedLines

/-! The parsers for checksum files of `utils/checksum.py`. -/

namespace LocalStack.Utils.Checksum
open LocalStack.IntText LocalStack.OrderedDict LocalStack.Regex LocalStack.Regex.Pattern
open LocalStack.StrippedLines LocalStack.Text

/-! ## The parsers -/

/-- `[a-fA-F0-9]`. -/
def hexDigit (c : Char) : Bool := ('a' ≤ c ∧ c ≤ 'f') ∨ ('A' ≤ c ∧ c ≤ 'F') ∨ asciiDigit c

/-- `s.lower()` of what is looked at as hexadecimal digits. -/
def lower (s : Str) : Str := s.map Char.toLower

/-- `content.strip().split("\n")`. -/
def lines (content : Str) : List Str := (stripSpace content).splitOn '\n'

/-- A subclass of `ChecksumFormat`. -/
structure ChecksumFormat where
  can_parse : Str → Bool
  parse : Str → Dict Str Str

namespace StandardFormat

/-- `^[a-fA-F0-9]{32,128}\s+\S+`. -/
def looksLike : Pattern :=
  seq (chars hexDigit 32 (some 128)) (seq (chars whitespace 1 none)
    (chars (fun c => !whitespace c) 1 none))

/-- `^([a-fA-F0-9]{32,128})\s+(\*?)(.+)$`. -/
def line : Pattern :=
  seq (group 1 (chars hexDigit 32 (some 128))) (seq (chars whitespace 1 none)
    (seq (group 2 (optional (lit ['*']))) (seq (group 3 (chars dot 1 none)) endOfText)))

def can_parse (content : Str) : Bool :=
  ((lines content).take 5).any fun l => (looksLike.match_ (stripSpace l)).isSome

/-- What a stripped line adds. -/
def entry (l : Str) : Option (Str × Str) :=
  if l = [] ∨ l.head? = some '#' then none
  else (line.match_ l).map fun m =>
    (stripSpace ((m.groups.get 3).getD []), lower ((m.groups.get 1).getD []))

def parse (content : Str) : Dict Str Str :=
  Dict.ofPairs ((lines content).filterMap fun l => entry (stripSpace l))

end StandardFormat

namespace BSDFormat

/-- `MD5|SHA1|SHA256|SHA512`. -/
def algorithms : List Str := ["MD5".toList, "SHA1".toList, "SHA256".toList, "SHA512".toList]

/-- `^(MD5|SHA1|SHA256|SHA512)\s*\(.+\)\s*=\s*[a-fA-F0-9]+` for one of the algorithms. -/
def looksLike (algorithm : Str) : Pattern :=
  seq (group 1 (lit algorithm)) (seq (chars whitespace 0 none) (seq (lit ['(']) (seq
    (chars dot 1 none) (seq (lit [')']) (seq (chars whitespace 0 none) (seq (lit ['='])
      (seq (chars whitespace 0 none) (chars hexDigit 1 none))))))))

/-- `^(MD5|SHA1|SHA256|SHA512)\s*\((.+)\)\s*=\s*([a-fA-F0-9]+)$` for one of the algorithms. -/
def line (algorithm : Str) : Pattern :=
  seq (group 1 (lit algorithm)) (seq (chars whitespace 0 none) (seq (lit ['(']) (seq
    (group 2 (chars dot 1 none)) (seq (lit [')']) (seq (chars whitespace 0 none) (seq (lit ['='])
      (seq (chars whitespace 0 none) (seq (group 3 (chars hexDigit 1 none)) endOfText))))))))

def can_parse (content : Str) : Bool :=
  ((lines content).take 5).any fun l => algorithms.any fun a => ((looksLike a).match_ l).isSome

/-- What a stripped line adds; the first algorithm that the line matches is taken. -/
def entry (l : Str) : Option (Str × Str) :=
  if l = [] then none
  else (algorithms.findSome? fun a => (line a).match_ l).map fun m =>
    (stripSpace ((m.groups.get 2).getD []), lower ((m.groups.get 3).getD []))

def parse (content : Str) : Dict Str Str :=
  Dict.ofPairs ((lines content).filterMap fun l => entry (stripSpace l))

end BSDFormat

namespace ApacheBSDFormat

/-- `":" in lines[0]` with some of `[a-fA-F0-9\s]` behind the colon. -/
def can_parse (content : Str) : Bool :=
  let first := (lines content).headD []
  ':' ∈ first && (partition ':' first).2.2.any fun c => hexDigit c || whitespace c

/-- The variables of the loop; no file is like the empty name. -/
structure State where
  checksums : Dict Str Str
  current_file : Str
  checksum_parts : List Str

/-- `"".join(checksum_parts).replace(" ", "").lower()`. -/
def full_checksum (checksum_parts : List Str) : Str :=
  lower (replace [' '] [] checksum_parts.flatten)

/-- `^[a-fA-F0-9]+$`. -/
def isHex (s : Str) : Bool := ((seq (chars hexDigit 1 none) endOfText).match_ s).isSome

/-- The checksum of the current file is saved if it has one. -/
def State.saved (s : State) : Dict Str Str :=
  if s.current_file ≠ [] ∧ s.checksum_parts ≠ [] ∧
      isHex (full_checksum s.checksum_parts) = true then
    s.checksums.set s.current_file (full_checksum s.checksum_parts)
  else s.checksums

/-- A line that begins a new file. -/
def isHeader (l : Str) : Bool := ':' ∈ l ∧ l.head? ≠ some ' '

def State.next (s : State) (l : Str) : State :=
  if isHeader l = true then
    let parts := partition ':' l
    ⟨s.saved, stripSpace parts.1, [stripSpace parts.2.2]⟩
  else if stripSpace l ≠ [] ∧ s.current_file ≠ [] then
    { s with checksum_parts := s.checksum_parts ++ [stripSpace l] }
  else s

def parse (content : Str) : Dict Str Str := ((lines content).foldl State.next ⟨[], [], []⟩).saved

end ApacheBSDFormat

namespace ChecksumParser

def formats : List ChecksumFormat :=
  [⟨StandardFormat.can_parse, StandardFormat.parse⟩, ⟨BSDFormat.can_parse, BSDFormat.parse⟩,
    ⟨ApacheBSDFormat.can_parse, ApacheBSDFormat.parse⟩]

def parse (content : Str) : Dict Str Str :=
  (formats.findSome? fun format =>
    if format.can_parse content = true ∧ format.parse content ≠ [] then
      some (format.parse content)
    else none).getD []

end ChecksumParser

/-! ## The lines of the standard format -/

theorem toNat_of_hexDigit {c : Char} (h : hexDigit c = true) : 48 ≤ c.toNat ∧ c.toNat ≤ 102 := by
  simp only [hexDigit, asciiDigit, decide_eq_true_eq] at h
  rcases h with ⟨hlo, hhi⟩ | ⟨hlo, hhi⟩ | ⟨hlo, hhi⟩
  · exact ⟨le_trans (by decide) (show 'a'.toNat ≤ c.toNat from hlo), hhi⟩
  · exact ⟨le_trans (by decide) (show 'A'.toNat ≤ c.toNat from hlo), le_trans hhi (by decide)⟩
  · exact ⟨hlo, le_trans hhi (by decide)⟩

theorem whitespace_of_hexDigit {c : Char} (h : hexDigit c = true) : whitespace c = false := by
  have hc := toNat_of_hexDigit h
  simp only [whitespace, decide_eq_false_iff_not, not_or, List.mem_cons, List.not_mem_nil, or_false]
  omega

namespace StandardFormat

/-- A run of digits in front of white space and something else. -/
theorem looksLike_iff {s : Str} : (looksLike.match_ s).isSome ↔
    ∃ t w c rest, s = t ++ (w ++ c :: rest) ∧ (32 ≤ t.length ∧ t.length ≤ 128) ∧
      (∀ x ∈ t, hexDigit x = true) ∧ w ≠ [] ∧ (∀ x ∈ w, whitespace x = true) ∧
      whitespace c = false := by
  rw [match_isSome]
  constructor
  · rintro ⟨m, hm⟩
    obtain ⟨m1, hm1, hm⟩ := mem_run_seq.mp hm
    obtain ⟨m2, hm2, hm3⟩ := mem_run_seq.mp hm
    obtain ⟨t, rfl, -, hlo, hhi, ht⟩ := mem_run_chars.mp hm1
    obtain ⟨w, hw, -, hwlen, -, hwall⟩ := mem_run_chars.mp hm2
    obtain ⟨u, hu, -, hulen, -, huall⟩ := mem_run_chars.mp hm3
    obtain ⟨c, u, rfl⟩ := List.exists_cons_of_length_pos hulen
    refine ⟨t, w, c, u ++ m.rest, by rw [hw, hu]; rfl, ⟨hlo, hhi 128 rfl⟩, ht,
      List.ne_nil_of_length_pos hwlen, hwall, ?_⟩
    simpa using huall c (List.mem_cons_self ..)
  · rintro ⟨t, w, c, rest, rfl, hlen, ht, hw, hwall, hc⟩
    refine ⟨⟨rest, []⟩, mem_run_seq.mpr ⟨⟨w ++ c :: rest, []⟩, mem_run_chars.mpr
      ⟨t, rfl, rfl, hlen.1, fun n hn => by cases hn; exact hlen.2, ht⟩, mem_run_seq.mpr
      ⟨⟨c :: rest, []⟩, mem_run_chars.mpr
        ⟨w, rfl, rfl, List.length_pos_iff.mpr hw, by simp, hwall⟩, mem_run_chars.mpr
        ⟨[c], rfl, rfl, le_rfl, by simp, by simpa using hc⟩⟩⟩⟩

theorem not_looksLike {s : Str} (h : ∀ c ∈ s.head?, hexDigit c = false) :
    (looksLike.match_ s).isSome = false := by
  rw [← Bool.not_eq_true]
  intro hmatch
  obtain ⟨t, w, c, rest, rfl, hlen, ht, -⟩ := looksLike_iff.mp hmatch
  cases t with
  | nil => simp at hlen
  | cons d t =>
    have hd := ht d (List.mem_cons_self ..)
    simp [h d rfl] at hd

/-- The digits that a line is read as. -/
theorem of_line {s : Str} {m : Match} (h : line.match_ s = some m) :
    ∃ t w rest, s = t ++ (w ++ rest) ∧ m.groups.get 1 = some t ∧ 32 ≤ t.length ∧
      (∀ x ∈ t, hexDigit x = true) ∧ w ≠ [] ∧ (∀ x ∈ w, whitespace x = true) ∧ rest ≠ [] := by
  obtain ⟨m1, hm1, hrest1⟩ := mem_run_seq.mp (mem_of_match h)
  obtain ⟨m2, hm2, hrest2⟩ := mem_run_seq.mp hrest1
  obtain ⟨m3, hm3, hrest3⟩ := mem_run_seq.mp hrest2
  obtain ⟨m4, hm4, hend⟩ := mem_run_seq.mp hrest3
  obtain ⟨t, rfl, hg1, hlo, -, ht⟩ := mem_run_group_chars.mp hm1
  obtain ⟨w, hw, hg2, hwlen, -, hwall⟩ := mem_run_chars.mp hm2
  obtain ⟨m', hm', star, hstar, h3⟩ := mem_run_group.mp hm3
  obtain ⟨f, hf, hg4, hflen, -, -⟩ := mem_run_group_chars.mp hm4
  obtain ⟨-, rfl⟩ := mem_run_endOfText.mp hend
  have hg' : m'.groups = m2.groups := by
    rcases mem_run_optional.mp hm' with hlit | rfl
    · exact (mem_run_lit.mp hlit).2
    · rfl
  rw [h3] at hf hg4
  rw [hg', hg2, hg1] at hg4
  refine ⟨t, w, m2.rest, by rw [hw], ?_, hlo, ht, List.ne_nil_of_length_pos hwlen, hwall, ?_⟩
  · rw [hg4]
    rfl
  · have hrest : m'.rest = f ++ m4.rest := hf
    have hfne : f ≠ [] := List.ne_nil_of_length_pos hflen
    simp [hstar, hrest, hfne]

/-- What looks like the format is an entry. -/
theorem entry_isSome {s : Str} (h : (looksLike.match_ s).isSome) (hline : '\n' ∉ s) :
    (entry s).isSome := by
  obtain ⟨t, w, c, rest, rfl, hlen, ht, hw, hwall, hc⟩ := looksLike_iff.mp h
  have hdot : ∀ x ∈ c :: rest, dot x = true := by
    intro x hx
    rw [dot, decide_eq_true_eq]
    rintro rfl
    exact hline (List.mem_append_right _ (List.mem_append_right _ hx))
  have hmatch : (line.match_ (t ++ (w ++ c :: rest))).isSome := by
    refine match_isSome.mpr ⟨_, mem_run_seq.mpr ⟨⟨w ++ c :: rest, Dict.set [] 1 t⟩,
      mem_run_group_chars.mpr ⟨t, rfl, rfl, hlen.1, fun n hn => by cases hn; exact hlen.2, ht⟩,
      mem_run_seq.mpr ⟨⟨c :: rest, _⟩, mem_run_chars.mpr
        ⟨w, rfl, rfl, List.length_pos_iff.mpr hw, by simp, hwall⟩, mem_run_seq.mpr
          ⟨⟨c :: rest, _⟩, mem_run_group.mpr ⟨⟨c :: rest, _⟩, mem_run_optional.mpr (.inr rfl), [],
            rfl, rfl⟩, mem_run_seq.mpr ⟨⟨[], _⟩, mem_run_group_chars.mpr
              ⟨c :: rest, (List.append_nil _).symm, rfl, by simp, by simp, hdot⟩,
              mem_run_endOfText.mpr ⟨.inl rfl, rfl⟩⟩⟩⟩⟩⟩
  rw [entry, if_neg, Option.isSome_map]
  · exact hmatch
  · cases t with
    | nil => simp at hlen
    | cons d t =>
      have hd := ht d (List.mem_cons_self ..)
      simp only [List.cons_append, reduceCtorEq, List.head?_cons, Option.some.injEq, false_or]
      rintro rfl
      exact absurd hd (by decide)

theorem entry_nil : entry [] = none := rfl

theorem entry_comment (text : Str) : entry ('#' :: text) = none := rfl

/-- What the pattern for the lines goes on with behind the digits. -/
theorem match_rest {name : Str} (star : Bool) (hne : name ≠ [])
    (hname : ∀ c ∈ name, whitespace c = false ∧ c ≠ '*') (g : Dict Nat Str) :
    ∃ mark, ((seq (chars whitespace 1 none) (seq (group 2 (optional (lit ['*'])))
      (seq (group 3 (chars dot 1 none)) endOfText))).run
        (' ' :: (if star then '*' else ' ') :: name) g).head? =
      some ⟨[], (g.set 2 mark).set 3 name⟩ := by
  have hdot : ∀ c ∈ name, dot c = true := by
    intro c hc
    have hspace := (hname c hc).1
    rw [dot, decide_eq_true_eq]
    rintro rfl
    exact absurd hspace (by decide)
  have hfile : ∀ g : Dict Nat Str, ((group 3 (chars dot 1 none)).run name g).head? =
      some ⟨[], g.set 3 name⟩ := by
    intro g
    have hchars := @head?_chars dot 1 none [] name g hdot (List.length_pos_iff.mpr hne) (by simp)
      (by simp)
    have hgroup := head?_group (i := 3) hchars
    rwa [List.append_nil] at hgroup
  have hhead : ∀ c ∈ name.head?, whitespace c = false := fun c hc =>
    (hname c (List.mem_of_mem_head? hc)).1
  cases star with
  | false =>
    have hspace := @head?_chars whitespace 1 none name [' ', ' '] g (by decide) (by decide)
      (by simp) hhead
    have hnostar : (lit ['*']).run name g = [] := by
      refine run_lit_eq_nil fun hpre => ?_
      obtain ⟨rest, rfl⟩ := hpre
      exact (hname '*' (by simp)).2 rfl
    have hmark := @head?_group _ name [] g 2 (head?_optional_none hnostar)
    exact ⟨[], head?_seq hspace (head?_seq hmark (head?_seq (hfile _) rfl))⟩
  | true =>
    have hspace := @head?_chars whitespace 1 none ('*' :: name) [' '] g (by decide) (by decide)
      (by simp) (by simp [whitespace])
    have hmark := @head?_group _ name ['*'] g 2 (head?_optional (@head?_lit ['*'] g name))
    exact ⟨['*'], head?_seq hspace (head?_seq hmark (head?_seq (hfile _) rfl))⟩

/-- A line of the format, with two spaces or a space and a star. -/
theorem entry_line {digest name : Str} (star : Bool)
    (hdigest : ∀ c ∈ digest, hexDigit c = true)
    (hlen : 32 ≤ digest.length ∧ digest.length ≤ 128) (hne : name ≠ [])
    (hname : ∀ c ∈ name, whitespace c = false ∧ c ≠ '*') :
    entry (digest ++ (' ' :: (if star then '*' else ' ') :: name)) =
      some (name, lower digest) := by
  have hdigits := @head?_group _ (' ' :: (if star then '*' else ' ') :: name) digest [] 1
    (@head?_chars hexDigit 32 (some 128) _ digest [] hdigest hlen.1
      (fun n hn => by cases hn; exact hlen.2) (by simp [hexDigit, asciiDigit]))
  obtain ⟨mark, hrest⟩ := match_rest star hne hname (Dict.set [] 1 digest)
  have hmatch := head?_seq hdigits hrest
  have hstrip : stripSpace name = name := stripSpace_of_ends
    (fun c hc => (hname c (List.mem_of_mem_head? hc)).1)
    (fun c hc => (hname c (List.mem_of_mem_getLast? hc)).1)
  rw [entry, if_neg]
  · rw [match_, line, hmatch, Option.map_some]
    simp only [Dict.get_set_self, Option.getD_some, hstrip]
    rfl
  · cases digest with
    | nil => simp at hlen
    | cons c digest =>
      have hc := hdigest c (List.mem_cons_self ..)
      simp only [List.cons_append, reduceCtorEq, List.head?_cons, Option.some.injEq, false_or]
      rintro rfl
      exact absurd hc (by decide)

end StandardFormat

/-! ## The lines of the BSD format -/

namespace BSDFormat

/-- A line that looks like the format begins with the algorithm and has a parenthesis. -/
theorem of_looksLike {a s : Str} (h : ((looksLike a).match_ s).isSome) : a <+: s ∧ '(' ∈ s := by
  obtain ⟨m, hm⟩ := match_isSome.mp h
  obtain ⟨m1, hm1, hrest1⟩ := mem_run_seq.mp hm
  obtain ⟨m2, hm2, hrest2⟩ := mem_run_seq.mp hrest1
  obtain ⟨m3, hm3, hrest3⟩ := mem_run_seq.mp hrest2
  obtain ⟨m', hm', t, hs, rfl⟩ := mem_run_group.mp hm1
  obtain ⟨w, hw, -⟩ := mem_run_chars.mp hm2
  obtain ⟨hparen, -⟩ := mem_run_lit.mp hm3
  obtain ⟨hlit, -⟩ := mem_run_lit.mp hm'
  refine ⟨⟨m'.rest, hlit.symm⟩, ?_⟩
  have hrest : m'.rest = w ++ ('(' :: m3.rest) := by
    rw [← List.singleton_append, ← hparen]
    exact hw
  rw [hlit, hrest]
  simp

/-- `ALG (name) = digest`. -/
def lineText (a name digest : Str) : Str :=
  a ++ ([' ', '('] ++ (name ++ ([')', ' ', '=', ' '] ++ digest)))

variable {a name digest : Str}

theorem dot_of_not_mem (h : '\n' ∉ name) : ∀ c ∈ name, dot c = true := by
  intro c hc
  rw [dot, decide_eq_true_eq]
  rintro rfl
  exact h hc

theorem looksLike_lineText (hne : name ≠ []) (hname : '\n' ∉ name) (hdne : digest ≠ [])
    (hdigest : ∀ c ∈ digest, hexDigit c = true) :
    ((looksLike a).match_ (lineText a name digest)).isSome := by
  have hspace : ∀ c ∈ [' '], whitespace c = true := by decide
  refine match_isSome.mpr ⟨⟨[], [(1, a)]⟩, mem_run_seq.mpr
    ⟨⟨[' ', '('] ++ (name ++ ([')', ' ', '=', ' '] ++ digest)), [(1, a)]⟩, mem_run_group.mpr
      ⟨⟨_, []⟩, mem_run_lit.mpr ⟨rfl, rfl⟩, a, rfl, rfl⟩, ?_⟩⟩
  refine mem_run_seq.mpr ⟨⟨['('] ++ (name ++ ([')', ' ', '=', ' '] ++ digest)), _⟩,
    mem_run_chars.mpr ⟨[' '], rfl, rfl, Nat.zero_le _, by simp, hspace⟩, ?_⟩
  refine mem_run_seq.mpr ⟨⟨name ++ ([')', ' ', '=', ' '] ++ digest), _⟩,
    mem_run_lit.mpr ⟨rfl, rfl⟩, ?_⟩
  refine mem_run_seq.mpr ⟨⟨[')', ' ', '=', ' '] ++ digest, _⟩, mem_run_chars.mpr
    ⟨name, rfl, rfl, List.length_pos_iff.mpr hne, by simp, dot_of_not_mem hname⟩, ?_⟩
  refine mem_run_seq.mpr ⟨⟨[' ', '=', ' '] ++ digest, _⟩, mem_run_lit.mpr ⟨rfl, rfl⟩, ?_⟩
  refine mem_run_seq.mpr ⟨⟨['=', ' '] ++ digest, _⟩,
    mem_run_chars.mpr ⟨[' '], rfl, rfl, Nat.zero_le _, by simp, hspace⟩, ?_⟩
  refine mem_run_seq.mpr ⟨⟨[' '] ++ digest, _⟩, mem_run_lit.mpr ⟨rfl, rfl⟩, ?_⟩
  refine mem_run_seq.mpr ⟨⟨digest, _⟩,
    mem_run_chars.mpr ⟨[' '], rfl, rfl, Nat.zero_le _, by simp, hspace⟩, ?_⟩
  exact mem_run_chars.mpr ⟨digest, (List.append_nil _).symm, rfl, List.length_pos_iff.mpr hdne,
    by simp, hdigest⟩

/-- The text of an algorithm begins with no other one. -/
theorem line_other {a' : Str} (ha : a ∈ algorithms) (ha' : a' ∈ algorithms) (hne : a' ≠ a)
    (t : Str) : (line a').match_ (a ++ ' ' :: t) = none := by
  have hapart : ∀ x ∈ algorithms, ∀ y ∈ algorithms, x ≠ y → ' ' ∉ x ∧ ¬ x <+: y := by decide
  obtain ⟨hspace, hpre⟩ := hapart a' ha' a ha hne
  cases hm : (line a').match_ (a ++ ' ' :: t) with
  | none => rfl
  | some m =>
    obtain ⟨m1, hm1, -⟩ := mem_run_seq.mp (mem_of_match hm)
    obtain ⟨m', hm', -⟩ := mem_run_group.mp hm1
    obtain ⟨hlit, -⟩ := mem_run_lit.mp hm'
    exact absurd ((prefix_append_cons_iff hspace a t).mp ⟨m'.rest, hlit.symm⟩) hpre

/-- What the pattern for the lines goes on with behind the name. -/
theorem match_rest (hdne : digest ≠ []) (hdigest : ∀ c ∈ digest, hexDigit c = true)
    (g : Dict Nat Str) : ((seq (lit [')']) (seq (chars whitespace 0 none) (seq (lit ['='])
      (seq (chars whitespace 0 none) (seq (group 3 (chars hexDigit 1 none)) endOfText))))).run
        ([')', ' ', '=', ' '] ++ digest) g).head? = some ⟨[], g.set 3 digest⟩ := by
  have hhead : ∀ c ∈ digest.head?, whitespace c = false := fun c hc =>
    whitespace_of_hexDigit (hdigest c (List.mem_of_mem_head? hc))
  have hsum := @head?_group _ [] digest g 3
    (@head?_chars hexDigit 1 none [] digest g hdigest (List.length_pos_iff.mpr hdne) (by simp)
      (by simp))
  rw [List.append_nil] at hsum
  have hspace := @head?_chars whitespace 0 none ('=' :: ' ' :: digest) [' '] g (by decide)
    (Nat.zero_le _) (by simp) (by simp [whitespace])
  have hspace' := @head?_chars whitespace 0 none digest [' '] g (by decide) (Nat.zero_le _)
    (by simp) hhead
  exact head?_seq (@head?_lit [')'] g _) (head?_seq hspace (head?_seq (@head?_lit ['='] g _)
    (head?_seq hspace' (head?_seq hsum rfl))))

theorem findSome?_unique {σ β : Type*} {f : σ → Option β} {l : List σ} {x : σ} {v : β}
    (hx : x ∈ l) (hf : f x = some v) (hother : ∀ y ∈ l, y ≠ x → f y = none) :
    l.findSome? f = some v := by
  cases h : l.findSome? f with
  | none => simp [List.findSome?_eq_none_iff.mp h x hx] at hf
  | some u =>
    obtain ⟨y, hy, hyu⟩ := List.exists_of_findSome?_eq_some h
    by_cases hyx : y = x
    · rw [← hyu, hyx, hf]
    · rw [hother y hy hyx] at hyu
      cases hyu

theorem match_lineText (hne : name ≠ []) (hname : '\n' ∉ name) (hparen : ')' ∉ name)
    (hdne : digest ≠ []) (hdigest : ∀ c ∈ digest, hexDigit c = true) :
    (line a).match_ (lineText a name digest) =
      some ⟨[], ((Dict.set [] 1 a).set 2 name).set 3 digest⟩ := by
  have halg := @head?_group _ ([' ', '('] ++ (name ++ ([')', ' ', '=', ' '] ++ digest))) a [] 1
    (@head?_lit a [] _)
  have hspace := @head?_chars whitespace 0 none
    (['('] ++ (name ++ ([')', ' ', '=', ' '] ++ digest))) [' '] (Dict.set [] 1 a) (by decide)
    (Nat.zero_le _) (by simp) (by simp [whitespace])
  have hfile := head?_seq_chars (i := 2) (dot_of_not_mem hname) (List.length_pos_iff.mpr hne)
    ?_ (match_rest hdne hdigest ((Dict.set [] 1 a).set 2 name))
  · exact head?_seq halg (head?_seq hspace (head?_seq (@head?_lit ['('] _ _) hfile))
  · -- a longer name would take the only closing parenthesis
    intro t u heq hlonger g
    have htail : ')' ∉ [' ', '=', ' '] ++ digest := by
      have hd : ')' ∉ digest := fun h => absurd (hdigest _ h) (by decide)
      simp [hd]
    have hu : ')' ∉ u := by
      rcases List.append_eq_append_iff.mp heq with ⟨x, rfl, hx⟩ | ⟨x, rfl, -⟩
      · cases x with
        | nil => simp at hlonger
        | cons c x =>
          have hcut : [' ', '=', ' '] ++ digest = x ++ u := (List.cons.inj hx).2
          rw [hcut] at htail
          exact fun h => htail (List.mem_append_right _ h)
      · simp only [List.length_append] at hlonger
        omega
    have hlit : (lit [')']).run u g = [] := by
      refine run_lit_eq_nil fun hpre => hu ?_
      exact hpre.subset (List.mem_singleton_self _)
    rw [run_seq, hlit, List.flatMap_nil]

/-- A line of the format. -/
theorem entry_lineText (ha : a ∈ algorithms) (hne : name ≠ [])
    (hname : ∀ c ∈ name, whitespace c = false ∧ c ≠ ')') (hdne : digest ≠ [])
    (hdigest : ∀ c ∈ digest, hexDigit c = true) :
    entry (lineText a name digest) = some (name, lower digest) := by
  have hline : '\n' ∉ name := fun h => absurd (hname _ h).1 (by decide)
  have hmatch := match_lineText (a := a) hne hline (fun h => (hname _ h).2 rfl) hdne hdigest
  have hfind : (algorithms.findSome? fun x => (line x).match_ (lineText a name digest)) =
      some ⟨[], ((Dict.set [] 1 a).set 2 name).set 3 digest⟩ := by
    refine findSome?_unique ha hmatch fun x hx hxa => ?_
    exact line_other ha hx hxa _
  have hstrip : stripSpace name = name := stripSpace_of_ends
    (fun c hc => (hname c (List.mem_of_mem_head? hc)).1)
    (fun c hc => (hname c (List.mem_of_mem_getLast? hc)).1)
  rw [entry, hfind, if_neg (by simp [lineText]), Option.map_some]
  exact congrArg (fun n => some (n, lower digest)) hstrip

end BSDFormat

/-! ## The loop of the split format -/

theorem hexDigit_toLower {c : Char} (h : hexDigit c = true) : hexDigit c.toLower = true := by
  have hall : ∀ n < 103, hexDigit (Char.ofNat n) = true →
      hexDigit (Char.ofNat n).toLower = true := by decide +kernel
  have hc := hall c.toNat (by have := (toNat_of_hexDigit h).2; omega)
  rw [Char.ofNat_toNat] at hc
  exact hc h

namespace ApacheBSDFormat

theorem isHex_of_hexDigit {s : Str} (hne : s ≠ []) (h : ∀ c ∈ s, hexDigit c = true) :
    isHex s = true := by
  refine match_isSome.mpr ⟨⟨[], []⟩, mem_run_seq.mpr ⟨⟨[], []⟩, mem_run_chars.mpr
    ⟨s, (List.append_nil s).symm, rfl, List.length_pos_iff.mpr hne, by simp, h⟩, ?_⟩⟩
  exact mem_run_endOfText.mpr ⟨.inl rfl, rfl⟩

theorem not_isHex {s : Str} {c : Char} (hc : c ∈ s) (h : hexDigit c = false) (hline : c ≠ '\n') :
    isHex s = false := by
  rw [← Bool.not_eq_true]
  intro hs
  obtain ⟨m, hm⟩ := match_isSome.mp hs
  obtain ⟨m', hm', hend⟩ := mem_run_seq.mp hm
  obtain ⟨t, rfl, -, -, -, ht⟩ := mem_run_chars.mp hm'
  obtain ⟨hrest, -⟩ := mem_run_endOfText.mp hend
  rcases List.mem_append.mp hc with hc | hc
  · simp [ht c hc] at h
  · rcases hrest with hrest | hrest <;> simp [hrest, hline] at hc

theorem full_checksum_eq (parts : List Str) :
    full_checksum parts = lower (parts.flatten.filter (· ≠ ' ')) := by
  rw [full_checksum, replace_nil]

/-- The loop is at the end of an entry whose digest is complete. -/
theorem saved_of_digest {s : State} {digest : Str} (hfile : s.current_file ≠ [])
    (hparts : s.checksum_parts.flatten.filter (· ≠ ' ') = digest) (hne : digest ≠ [])
    (hhex : ∀ c ∈ digest, hexDigit c = true) :
    s.saved = s.checksums.set s.current_file (lower digest) := by
  have hfull : full_checksum s.checksum_parts = lower digest := by rw [full_checksum_eq, hparts]
  have hpartsne : s.checksum_parts ≠ [] := by
    intro h
    rw [h] at hparts
    exact hne hparts.symm
  have hhex' : isHex (lower digest) = true := by
    refine isHex_of_hexDigit (by simpa [lower] using hne) fun c hc => ?_
    obtain ⟨d, hd, rfl⟩ := List.mem_map.mp hc
    exact hexDigit_toLower (hhex d hd)
  rw [State.saved, hfull, if_pos ⟨hfile, hpartsne, hhex'⟩]

theorem next_header {s : State} {name rest : Str} (hne : name ≠ [])
    (hname : ∀ c ∈ name, whitespace c = false ∧ c ≠ ':') :
    s.next (name ++ ':' :: rest) = ⟨s.saved, name, [stripSpace rest]⟩ := by
  have hheader : isHeader (name ++ ':' :: rest) = true := by
    obtain ⟨c, name, rfl⟩ := List.exists_cons_of_ne_nil hne
    have hc : c ≠ ' ' := by
      rintro rfl
      exact absurd (hname ' ' (List.mem_cons_self ..)).1 (by decide)
    simp [isHeader, hc]
  have hstrip : stripSpace name = name := stripSpace_of_ends
    (fun c hc => (hname c (List.mem_of_mem_head? hc)).1)
    (fun c hc => (hname c (List.mem_of_mem_getLast? hc)).1)
  rw [State.next, if_pos hheader, partition_append fun h => (hname _ h).2 rfl]
  simp only [hstrip]

theorem next_continuation {s : State} {l : Str} (hl : ':' ∉ l) (hne : stripSpace l ≠ [])
    (hfile : s.current_file ≠ []) :
    s.next l = { s with checksum_parts := s.checksum_parts ++ [stripSpace l] } := by
  rw [State.next, if_neg (by simp [isHeader, hl]), if_pos ⟨hne, hfile⟩]

/-- The continuation lines of an entry. -/
theorem foldl_continuation {s : State} (ls : List Str) (hfile : s.current_file ≠ [])
    (hls : ∀ l ∈ ls, ':' ∉ l ∧ stripSpace l ≠ []) :
    ls.foldl State.next s =
      { s with checksum_parts := s.checksum_parts ++ ls.map stripSpace } := by
  induction ls generalizing s with
  | nil => simp
  | cons l ls ih =>
    obtain ⟨hl, hls⟩ := List.forall_mem_cons.mp hls
    rw [List.foldl_cons, next_continuation hl.1 hl.2 hfile]
    refine Eq.trans (ih hfile hls) ?_
    simp

/-! ## What the loop makes of comments -/

/-- The files that are named begin with a number sign. -/
def Commented (s : State) : Prop :=
  (∀ k ∈ Dict.keys s.checksums, k.head? = some '#') ∧
    (s.current_file = [] ∨ s.current_file.head? = some '#')

theorem Commented.saved {s : State} (h : Commented s) :
    ∀ k ∈ Dict.keys s.saved, k.head? = some '#' := by
  intro k hk
  rw [State.saved] at hk
  split at hk
  · rename_i hs
    rcases (Dict.mem_keys_set _ _ _ _).mp hk with rfl | hk
    · exact h.2.resolve_left hs.1
    · exact h.1 k hk
  · exact h.1 k hk

theorem Commented.next {s : State} (h : Commented s) {l : Str}
    (hl : isHeader l = true → (stripSpace (partition ':' l).1).head? = some '#') :
    Commented (s.next l) := by
  rw [State.next]
  split
  · rename_i hheader
    exact ⟨h.saved, .inr (hl hheader)⟩
  · split
    · exact h
    · exact h

theorem Commented.foldl {s : State} (h : Commented s) {ls : List Str}
    (hls : ∀ l ∈ ls, isHeader l = true → (stripSpace (partition ':' l).1).head? = some '#') :
    Commented (ls.foldl State.next s) := by
  induction ls generalizing s with
  | nil => exact h
  | cons l ls ih =>
    obtain ⟨hl, hls⟩ := List.forall_mem_cons.mp hls
    exact ih (h.next hl) hls

/-- The next line that is not blank begins a new file. -/
def settled (ls : List Str) : Bool := (ls.find? fun l => stripSpace l ≠ []).all isHeader

/-- Some line reads as a file with its whole checksum behind the colon. -/
def misread : List Str → Bool
  | [] => false
  | l :: ls =>
    (isHeader l && isHex (full_checksum [stripSpace (partition ':' l).2.2]) && settled ls) ||
      misread ls

theorem saved_ne_nil {s : State} : s.saved ≠ [] ↔ s.checksums ≠ [] ∨ s.current_file ≠ [] ∧
    s.checksum_parts ≠ [] ∧ isHex (full_checksum s.checksum_parts) = true := by
  rw [State.saved]
  split
  · rename_i h
    refine iff_of_true (fun hnil => ?_) (.inr h)
    have hkey := (Dict.mem_keys_set s.checksums s.current_file s.current_file
      (full_checksum s.checksum_parts)).mpr (.inl rfl)
    rw [hnil] at hkey
    cases hkey
  · rename_i h
    simp [h]

theorem not_isHex_of_mem {parts : List Str} (h : '#' ∈ parts.flatten) :
    isHex (full_checksum parts) = false := by
  rw [full_checksum_eq]
  refine not_isHex (c := '#') ?_ (by decide) (by decide)
  exact List.mem_map.mpr ⟨'#', List.mem_filter.mpr ⟨h, by decide⟩, by decide⟩

theorem settled_cons_blank {l : Str} (hl : stripSpace l = []) (ls : List Str) :
    settled (l :: ls) = settled ls := by
  rw [settled, List.find?_cons_of_neg (by simp [hl]), settled]

theorem settled_cons {l : Str} (hl : stripSpace l ≠ []) (ls : List Str) :
    settled (l :: ls) = isHeader l := by
  rw [settled, List.find?_cons_of_pos (by simpa using hl)]
  rfl

theorem not_blank_of_header {l : Str} (h : isHeader l = true) : stripSpace l ≠ [] := by
  rw [isHeader, decide_eq_true_eq] at h
  exact List.ne_nil_of_mem ((mem_stripSpace (by decide) l).mpr h.1)

/-- Lines that are blank or comments give a checksum only if one of them is misread. -/
theorem foldl_comments {ls : List Str} (hls : ∀ l ∈ ls, stripSpace l = [] ∨ '#' ∈ stripSpace l)
    (hnames : ∀ l ∈ ls, isHeader l = true → stripSpace (partition ':' l).1 ≠ []) (s : State) :
    (ls.foldl State.next s).saved ≠ [] ↔ s.checksums ≠ [] ∨ (s.current_file ≠ [] ∧
      s.checksum_parts ≠ [] ∧ isHex (full_checksum s.checksum_parts) = true ∧
        settled ls = true) ∨ misread ls = true := by
  induction ls generalizing s with
  | nil =>
    rw [List.foldl_nil, saved_ne_nil]
    simp [settled, misread]
  | cons l ls ih =>
    obtain ⟨hl, hls⟩ := List.forall_mem_cons.mp hls
    obtain ⟨hname, hnames⟩ := List.forall_mem_cons.mp hnames
    rw [List.foldl_cons, ih hls hnames]
    by_cases hheader : isHeader l = true
    · have hsettled := (settled_cons (not_blank_of_header hheader) ls).trans hheader
      rw [State.next, if_pos hheader]
      simp only [saved_ne_nil, hsettled, misread, hheader, hname hheader, Bool.or_eq_true,
        Bool.and_eq_true, ne_eq, List.cons_ne_nil, not_false_eq_true, true_and, and_true, or_assoc]
    · have hmisread : misread (l :: ls) = misread ls := by simp [misread, hheader]
      rw [State.next, if_neg hheader, hmisread]
      rcases hl with hblank | hcomment
      · rw [if_neg (by simp [hblank]), settled_cons_blank hblank]
      · have hne : stripSpace l ≠ [] := List.ne_nil_of_mem hcomment
        rw [settled_cons hne, Bool.eq_false_iff.mpr hheader]
        by_cases hfile : s.current_file = []
        · rw [if_neg (by simp [hfile])]
          simp [hfile]
        · have hbad : isHex (full_checksum (s.checksum_parts ++ [stripSpace l])) = false :=
            not_isHex_of_mem (by simp [hcomment])
          rw [if_pos ⟨hne, hfile⟩]
          simp [hbad]

end ApacheBSDFormat

end LocalStack.Utils.Checksum
