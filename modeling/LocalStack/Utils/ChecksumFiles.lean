import LocalStack.Utils.Checksum

/-! Checksum files written in the three formats of `utils/checksum.py`, and when they are read
back. -/

namespace LocalStack.Utils.ChecksumFiles
open LocalStack.Fields LocalStack.IntText LocalStack.OrderedDict LocalStack.Regex
open LocalStack.StrippedLines LocalStack.Text LocalStack.Utils.Checksum

/-! ## The files -/

structure FileName where
  text : Str
  ne_nil : text ≠ []
  plain : ∀ c ∈ text, whitespace c = false ∧ c ∉ [':', '(', ')', '*', '#']

/-- An MD5, SHA1, SHA256 or SHA512 digest. -/
structure Digest where
  text : Str
  hex : ∀ c ∈ text, hexDigit c = true
  length : text.length ∈ [32, 40, 64, 128]

/-- White space on one line. -/
def White (s : Str) : Prop := ∀ c ∈ s, whitespace c = true ∧ c ≠ '\n'

inductive StandardLine
  | entry (digest : Digest) (star : Bool) (name : FileName)
  | comment (indent text : Str) (hindent : White indent) (htext : '\n' ∉ text)
  | blank (white : Str) (hwhite : White white)

namespace StandardLine

/-- `digest  name` or `digest *name`, or nothing to read. -/
def text : StandardLine → Str
  | entry digest star name => digest.text ++ (' ' :: (if star then '*' else ' ') :: name.text)
  | comment indent text _ _ => indent ++ '#' :: text
  | blank white _ => white

def file : StandardLine → Option (FileName × Digest)
  | entry digest _ name => some (name, digest)
  | _ => none

def isBlank : StandardLine → Bool
  | blank _ _ => true
  | _ => false

end StandardLine

structure BSDLine where
  algorithm : Str
  mem : algorithm ∈ BSDFormat.algorithms
  name : FileName
  digest : Digest

/-- `ALG (name) = digest`. -/
def BSDLine.text (l : BSDLine) : Str := BSDFormat.lineText l.algorithm l.name.text l.digest.text

/-- Groups of digits with spaces between them. -/
structure Groups where
  text : Str
  chars : ∀ c ∈ text, hexDigit c = true ∨ c = ' '
  head : ∀ c ∈ text.head?, hexDigit c = true
  last : ∀ c ∈ text.getLast?, hexDigit c = true

structure Continuation where
  indent : Str
  white : White indent
  indent_ne_nil : indent ≠ []
  groups : Groups
  groups_ne_nil : groups.text ≠ []

/-- A line of the split format: `name: GROUPS` or indented groups. -/
inductive ApacheLine
  | header (name : FileName) (first : Groups)
  | continuation (l : Continuation)

def ApacheLine.text : ApacheLine → Str
  | header name first => name.text ++ ':' :: ' ' :: first.text
  | continuation l => l.indent ++ l.groups.text

/-- A digest that is broken into groups over several lines. -/
structure ApacheEntry where
  name : FileName
  first : Groups
  rest : List Continuation
  digest : Digest
  digest_eq : (first.text ++ rest.flatMap fun l => l.groups.text).filter (· ≠ ' ') = digest.text

def ApacheEntry.lines (e : ApacheEntry) : List ApacheLine :=
  .header e.name e.first :: e.rest.map .continuation

/-- A file in one of the formats, with some line breaks at its end. -/
inductive Rendering
  | standard (lines : List StandardLine)
  | bsd (lines : List BSDLine) (newlines : Nat)
  | apache (entries : List ApacheEntry) (newlines : Nat)

namespace Rendering

def text : Rendering → Str
  | standard lines => join '\n' (lines.map StandardLine.text)
  | bsd lines newlines => join '\n' (lines.map BSDLine.text) ++ List.replicate newlines '\n'
  | apache entries newlines =>
    join '\n' ((entries.flatMap ApacheEntry.lines).map ApacheLine.text) ++
      List.replicate newlines '\n'

def files : Rendering → List (FileName × Digest)
  | standard lines => lines.filterMap StandardLine.file
  | bsd lines _ => lines.map fun l => (l.name, l.digest)
  | apache entries _ => entries.map fun e => (e.name, e.digest)

/-- The map that is written, with digests in lower case. -/
def checksums (r : Rendering) : Dict Str Str := r.files.map fun p => (p.1.text, lower p.2.text)

/-- The parser returns the map. -/
def ReadBack (r : Rendering) : Prop :=
  ∀ name, (ChecksumParser.parse r.text).get name = r.checksums.get name

end Rendering

/-- A first group of 32 digits or more has another group behind it on the line. -/
def Groups.Captured (g : Groups) : Prop :=
  32 ≤ (g.text.takeWhile hexDigit).length ∧ ' ' ∈ g.text

/-- Some of the first five lines tells the format, and no line tells another one. -/
def Rendering.Recognised : Rendering → Prop
  | standard lines =>
    (∃ l ∈ (lines.dropWhile StandardLine.isBlank).take 5, l.file.isSome) ∨
      ((∀ l ∈ lines, l.file = none) ∧
        ¬ (ApacheBSDFormat.can_parse (standard lines).text = true ∧
          ApacheBSDFormat.misread (Checksum.lines (standard lines).text) = true))
  | bsd _ _ => True
  | apache entries _ =>
    ∀ l, .continuation l ∈ (entries.flatMap ApacheEntry.lines).take 5 → ¬ l.groups.Captured

/-! ## The choice of the parser -/

section
variable {content : Str}

theorem parse_standard (hcan : StandardFormat.can_parse content = true)
    (hne : StandardFormat.parse content ≠ []) :
    ChecksumParser.parse content = StandardFormat.parse content := by
  simp [ChecksumParser.parse, ChecksumParser.formats, hcan, hne]

theorem parse_bsd (hstandard : StandardFormat.can_parse content = false)
    (hcan : BSDFormat.can_parse content = true) (hne : BSDFormat.parse content ≠ []) :
    ChecksumParser.parse content = BSDFormat.parse content := by
  simp [ChecksumParser.parse, ChecksumParser.formats, hstandard, hcan, hne]

theorem parse_apache (hstandard : StandardFormat.can_parse content = false)
    (hbsd : BSDFormat.can_parse content = false) : ChecksumParser.parse content =
      if ApacheBSDFormat.can_parse content = true then ApacheBSDFormat.parse content else [] := by
  by_cases hcan : ApacheBSDFormat.can_parse content = true
  · by_cases hne : ApacheBSDFormat.parse content = []
    · simp [ChecksumParser.parse, ChecksumParser.formats, hstandard, hbsd, hcan, hne]
    · simp [ChecksumParser.parse, ChecksumParser.formats, hstandard, hbsd, hcan, hne]
  · simp [ChecksumParser.parse, ChecksumParser.formats, hstandard, hbsd, hcan]

theorem bsd_can_parse_eq_false
    (h : ∀ l ∈ (lines content).take 5, ∀ a ∈ BSDFormat.algorithms, ¬ (a <+: l ∧ '(' ∈ l)) :
    BSDFormat.can_parse content = false := by
  rw [BSDFormat.can_parse, List.any_eq_false]
  intro l hl hany
  obtain ⟨a, ha, hmatch⟩ := List.any_eq_true.mp hany
  exact h l hl a ha (BSDFormat.of_looksLike hmatch)

end

/-! ## Names and digests -/

theorem FileName.not_whitespace (n : FileName) {c : Char} (hc : c ∈ n.text) :
    whitespace c = false := (n.plain c hc).1

theorem Digest.ne_nil (d : Digest) : d.text ≠ [] := by
  intro h
  have := d.length
  simp [h] at this

theorem Digest.bounds (d : Digest) : 32 ≤ d.text.length ∧ d.text.length ≤ 128 := by
  have := d.length
  simp only [List.mem_cons, List.not_mem_nil, or_false] at this
  omega

/-- What the formats take for a name. -/
theorem FileName.for_standard (n : FileName) :
    ∀ c ∈ n.text, whitespace c = false ∧ c ≠ '*' := fun c hc =>
  ⟨(n.plain c hc).1, fun h => (n.plain c hc).2 (by simp [h])⟩

theorem FileName.not_mem (n : FileName) {c : Char} (hc : c ∈ [':', '(', ')', '*', '#']) :
    c ∉ n.text := fun h => (n.plain c h).2 hc

theorem FileName.not_mem_newline (n : FileName) : '\n' ∉ n.text := fun h =>
  absurd (n.not_whitespace h) (by decide)

theorem Digest.not_mem (d : Digest) {c : Char} (hc : hexDigit c = false) : c ∉ d.text := fun h => by
  simp [d.hex c h] at hc

/-- The algorithms begin with letters that are no digits. -/
theorem algorithm_head {a : Str} (ha : a ∈ BSDFormat.algorithms) :
    ∃ c t, a = c :: t ∧ whitespace c = false ∧ hexDigit c = false ∧ c ≠ '#' ∧ '\n' ∉ a := by
  have hall : ∀ a ∈ BSDFormat.algorithms,
      (a.head? = some 'M' ∨ a.head? = some 'S') ∧ '\n' ∉ a := by decide
  obtain ⟨h | h, hline⟩ := hall a ha <;> obtain ⟨t, rfl⟩ := List.head?_eq_some_iff.mp h
  · exact ⟨'M', t, rfl, by decide, by decide, by decide, hline⟩
  · exact ⟨'S', t, rfl, by decide, by decide, by decide, hline⟩

/-! ## Standard lines -/

namespace StandardLine

theorem text_one_line (l : StandardLine) : '\n' ∉ l.text := by
  cases l with
  | entry digest star name =>
    have hdigest := digest.not_mem (c := '\n') (by decide)
    cases star <;> simp [text, hdigest, name.not_mem_newline]
  | comment indent t hindent ht =>
    have hi : '\n' ∉ indent := fun h => (hindent _ h).2 rfl
    simp [text, hi, ht]
  | blank white hwhite => exact fun h => (hwhite _ h).2 rfl

/-- A stripped line begins with a digit or a number sign, or is empty. -/
theorem stripped (l : StandardLine) : (∃ digest star name, l = entry digest star name ∧
      stripSpace l.text = l.text) ∨
    (l.file = none ∧ l.isBlank = false ∧ ∃ t, stripSpace l.text = '#' :: t) ∨
      (l.file = none ∧ l.isBlank = true ∧ stripSpace l.text = []) := by
  cases l with
  | entry digest star name =>
    refine .inl ⟨digest, star, name, rfl, stripSpace_of_ends ?_ ?_⟩
    · intro c hc
      rw [text, List.head?_append_of_ne_nil _ digest.ne_nil] at hc
      exact whitespace_of_hexDigit (digest.hex c (List.mem_of_mem_head? hc))
    · intro c hc
      rw [text, List.getLast?_append_of_ne_nil _ (by simp), List.getLast?_cons_cons,
        List.getLast?_cons_of_ne_nil name.ne_nil] at hc
      exact name.not_whitespace (List.mem_of_mem_getLast? hc)
  | comment indent t hindent ht =>
    refine .inr (.inl ⟨rfl, rfl, ?_⟩)
    rw [text, stripSpace_append_left fun c hc => (hindent c hc).1]
    exact stripSpace_cons (by decide) t
  | blank white hwhite =>
    exact .inr (.inr ⟨rfl, rfl, stripSpace_of_space fun c hc => (hwhite c hc).1⟩)

theorem looksLike_text (l : StandardLine) :
    (StandardFormat.looksLike.match_ (stripSpace l.text)).isSome = l.file.isSome := by
  rcases l.stripped with ⟨digest, star, name, rfl, hstrip⟩ | ⟨hfile, -, t, ht⟩ | ⟨hfile, -, ht⟩
  · rw [hstrip]
    refine StandardFormat.looksLike_iff.mpr ?_
    cases star with
    | false =>
      obtain ⟨c, rest, hname⟩ := List.exists_cons_of_ne_nil name.ne_nil
      refine ⟨digest.text, [' ', ' '], c, rest, by simp [text, hname], digest.bounds, digest.hex,
        by simp, by decide, name.not_whitespace (by simp [hname])⟩
    | true =>
      exact ⟨digest.text, [' '], '*', name.text, by simp [text], digest.bounds, digest.hex,
        by simp, by decide, by decide⟩
  · rw [hfile, ht]
    exact StandardFormat.not_looksLike (by simp [hexDigit, asciiDigit])
  · rw [hfile, ht]
    exact StandardFormat.not_looksLike (by simp)

theorem entry_text (l : StandardLine) : StandardFormat.entry (stripSpace l.text) =
    l.file.map fun p => (p.1.text, lower p.2.text) := by
  rcases l.stripped with ⟨digest, star, name, rfl, hstrip⟩ | ⟨hfile, -, t, ht⟩ | ⟨hfile, -, ht⟩
  · rw [hstrip, text, StandardFormat.entry_line star digest.hex digest.bounds name.ne_nil
      name.for_standard]
    rfl
  · rw [hfile, ht, StandardFormat.entry_comment]
    rfl
  · rw [hfile, ht, StandardFormat.entry_nil]
    rfl

/-- Only comments have colons. -/
theorem comment_of_colon {l : StandardLine} (h : ':' ∈ stripSpace l.text) :
    ∃ t, stripSpace l.text = '#' :: t := by
  rcases l.stripped with ⟨digest, star, name, rfl, hstrip⟩ | ⟨-, -, ht⟩ | ⟨-, -, ht⟩
  · rw [hstrip] at h
    have hdigest := digest.not_mem (c := ':') (by decide)
    have hname := name.not_mem (c := ':') (by simp)
    cases star <;> simp [text, hdigest, hname] at h
  · exact ht
  · simp [ht] at h

end StandardLine

/-! ## Files of standard lines -/

section
variable {ls : List StandardLine}

theorem splitOn_standard (hne : ls ≠ []) :
    (Rendering.standard ls).text.splitOn '\n' = ls.map StandardLine.text := by
  refine splitOn_join (by simpa using hne) fun f hf => ?_
  obtain ⟨l, -, rfl⟩ := List.mem_map.mp hf
  exact l.text_one_line

/-- The entries are found wherever they are. -/
theorem standard_parse (hne : ls ≠ []) : StandardFormat.parse (Rendering.standard ls).text =
    Dict.ofPairs (Rendering.standard ls).checksums := by
  rw [StandardFormat.parse, Checksum.lines, filterMap_stripped StandardFormat.entry_nil,
    splitOn_standard hne, List.filterMap_map, Rendering.checksums, Rendering.files,
    List.map_filterMap]
  refine congrArg Dict.ofPairs (List.filterMap_congr fun l _ => ?_)
  exact l.entry_text

/-- They are looked for in the first five lines behind the blank ones. -/
theorem standard_can_parse (hne : ls ≠ []) :
    StandardFormat.can_parse (Rendering.standard ls).text = true ↔
      ∃ l ∈ (ls.dropWhile StandardLine.isBlank).take 5, l.file.isSome := by
  have hblank : ((fun l => decide (stripSpace l = [])) ∘ StandardLine.text) =
      StandardLine.isBlank := by
    funext l
    rcases l.stripped with ⟨digest, star, name, rfl, hstrip⟩ | ⟨-, hb, t, ht⟩ | ⟨-, hb, ht⟩
    · rw [Function.comp_apply, hstrip]
      simp [StandardLine.text, StandardLine.isBlank]
    · simp [ht, hb]
    · simp [ht, hb]
  have htake := @any_take_stripped (fun l => (StandardFormat.looksLike.match_ l).isSome)
    (StandardFormat.not_looksLike (by simp)) 5 (Rendering.standard ls).text
  rw [StandardFormat.can_parse, Checksum.lines, htake, splitOn_standard hne, List.dropWhile_map,
    hblank, ← List.map_take, List.any_map, List.any_eq_true]
  refine exists_congr fun l => and_congr_right fun _ => ?_
  rw [Function.comp_apply, l.looksLike_text]

/-- The lines that the parsers see are blank, comments or entries. -/
theorem standard_lines (hne : ls ≠ []) {s : Str}
    (hs : s ∈ Checksum.lines (Rendering.standard ls).text) :
    ∃ l ∈ ls, stripSpace s = stripSpace l.text := by
  obtain ⟨s', hs', heq⟩ := exists_line hs
  rw [splitOn_standard hne] at hs'
  obtain ⟨l, hl, rfl⟩ := List.mem_map.mp hs'
  exact ⟨l, hl, heq.symm⟩

/-- The file of a line with a colon would begin with a number sign. -/
theorem standard_header (hne : ls ≠ []) {s : Str}
    (hs : s ∈ Checksum.lines (Rendering.standard ls).text)
    (hheader : ApacheBSDFormat.isHeader s = true) :
    (stripSpace (partition ':' s).1).head? = some '#' := by
  obtain ⟨l, -, hl⟩ := standard_lines hne hs
  have hcolon : ':' ∈ s := by
    rw [ApacheBSDFormat.isHeader, decide_eq_true_eq] at hheader
    exact hheader.1
  obtain ⟨t, ht⟩ : ∃ t, stripSpace s = '#' :: t := by
    rw [hl]
    refine StandardLine.comment_of_colon ?_
    rw [← hl]
    exact (mem_stripSpace (by decide) s).mpr hcolon
  obtain ⟨t', ht'⟩ := stripSpace_partition (by decide) (by decide) ht hcolon
  rw [ht']
  rfl

theorem standard_bsd (hne : ls ≠ [])
    (hcan : ¬ StandardFormat.can_parse (Rendering.standard ls).text = true) :
    BSDFormat.can_parse (Rendering.standard ls).text = false := by
  refine bsd_can_parse_eq_false fun s hs a ha h => ?_
  obtain ⟨hpre, -⟩ := h
  obtain ⟨c, a, rfl, hspace, -, hc, -⟩ := algorithm_head ha
  obtain ⟨rest, rfl⟩ := hpre
  obtain ⟨t, ht⟩ := stripSpace_cons hspace (a ++ rest)
  obtain ⟨l, -, hl⟩ := standard_lines hne (List.mem_of_mem_take hs)
  rw [List.cons_append, ht] at hl
  rcases l.stripped with ⟨digest, star, name, rfl, -⟩ | ⟨-, -, t', ht'⟩ | ⟨-, -, ht'⟩
  · -- an entry would have been found
    refine hcan (List.any_eq_true.mpr ⟨_, hs, ?_⟩)
    rw [List.cons_append, ht, hl, StandardLine.looksLike_text]
    rfl
  · rw [ht'] at hl
    exact hc (List.cons.inj hl).1
  · rw [ht'] at hl
    cases hl

theorem standard_apache (hne : ls ≠ []) :
    ∀ k ∈ Dict.keys (ApacheBSDFormat.parse (Rendering.standard ls).text), k.head? = some '#' := by
  have hstart : ApacheBSDFormat.Commented ⟨[], [], []⟩ := ⟨by simp, .inl rfl⟩
  exact (hstart.foldl fun s hs => standard_header hne hs).saved

/-- Without entries, the parser of the split format goes by the misread comments. -/
theorem standard_misread (hne : ls ≠ []) (hfiles : ∀ l ∈ ls, l.file = none) :
    ApacheBSDFormat.parse (Rendering.standard ls).text ≠ [] ↔
      ApacheBSDFormat.misread (Checksum.lines (Rendering.standard ls).text) = true := by
  have hcomments : ∀ s ∈ Checksum.lines (Rendering.standard ls).text,
      stripSpace s = [] ∨ '#' ∈ stripSpace s := by
    intro s hs
    obtain ⟨l, hl, heq⟩ := standard_lines hne hs
    rw [heq]
    rcases l.stripped with ⟨digest, star, name, rfl, -⟩ | ⟨-, -, t, ht⟩ | ⟨-, -, ht⟩
    · cases hfiles _ hl
    · exact .inr (by simp [ht])
    · exact .inl ht
  have hnames : ∀ s ∈ Checksum.lines (Rendering.standard ls).text,
      ApacheBSDFormat.isHeader s = true → stripSpace (partition ':' s).1 ≠ [] := by
    intro s hs hheader hnil
    have hhead := standard_header hne hs hheader
    rw [hnil] at hhead
    cases hhead
  rw [ApacheBSDFormat.parse, ApacheBSDFormat.foldl_comments hcomments hnames]
  simp

theorem get_eq_none_iff_nil {d : Dict Str Str} : (∀ name, d.get name = none) ↔ d = [] := by
  constructor
  · intro h
    cases d with
    | nil => rfl
    | cons p d =>
      have hp := h p.1
      rw [Dict.get_cons_self] at hp
      cases hp
  · rintro rfl name
    rfl

theorem standard_checksums_eq_nil :
    (Rendering.standard ls).checksums = [] ↔ ∀ l ∈ ls, l.file = none := by
  rw [Rendering.checksums, List.map_eq_nil_iff]
  exact List.filterMap_eq_nil_iff

/-- An entry among the first lines tells the format. -/
theorem standard_readBack (hne : ls ≠ []) (hwf : Dict.WF (Rendering.standard ls).checksums)
    (hfound : ∃ l ∈ (ls.dropWhile StandardLine.isBlank).take 5, l.file.isSome) :
    (Rendering.standard ls).ReadBack := by
  have hparse := standard_parse hne
  rw [Dict.ofPairs_of_wf hwf] at hparse
  have hsums : (Rendering.standard ls).checksums ≠ [] := by
    intro hnil
    obtain ⟨l, hl, hfile⟩ := hfound
    have hmem := (List.dropWhile_sublist _).mem (List.mem_of_mem_take hl)
    simp [standard_checksums_eq_nil.mp hnil l hmem] at hfile
  intro name
  rw [parse_standard ((standard_can_parse hne).mpr hfound) (by rw [hparse]; exact hsums), hparse]

/-- The other parsers read no name that is written. -/
theorem standard_not_readBack (hne : ls ≠ []) (hwf : Dict.WF (Rendering.standard ls).checksums)
    (hcan : ¬ StandardFormat.can_parse (Rendering.standard ls).text = true)
    {l : StandardLine} (hl : l ∈ ls) (hfile : l.file ≠ none) :
    ¬ (Rendering.standard ls).ReadBack := by
  intro hback
  obtain ⟨⟨name, digest⟩, hp⟩ := Option.ne_none_iff_exists'.mp hfile
  have hmem : (name.text, lower digest.text) ∈ (Rendering.standard ls).checksums :=
    List.mem_map.mpr ⟨(name, digest), List.mem_filterMap.mpr ⟨l, hl, hp⟩, rfl⟩
  have hget := (hback name.text).trans (Dict.get_of_mem hwf hmem)
  rw [parse_apache (Bool.eq_false_iff.mpr hcan) (standard_bsd hne hcan)] at hget
  split at hget
  · have hhash := standard_apache hne _ (Dict.mem_keys_of_mem (Dict.mem_of_get hget))
    exact name.not_mem (c := '#') (by simp) (List.mem_of_mem_head? hhash)
  · cases hget

/-- Comments alone are read as nothing if and only if none is misread. -/
theorem comments_readBack_iff (hne : ls ≠ []) (hfiles : ∀ l ∈ ls, l.file = none)
    (hcan : ¬ StandardFormat.can_parse (Rendering.standard ls).text = true) :
    (Rendering.standard ls).ReadBack ↔
      ¬ (ApacheBSDFormat.can_parse (Rendering.standard ls).text = true ∧
        ApacheBSDFormat.misread (Checksum.lines (Rendering.standard ls).text) = true) := by
  have hnil : (Rendering.standard ls).ReadBack ↔
      ChecksumParser.parse (Rendering.standard ls).text = [] := by
    rw [← get_eq_none_iff_nil, Rendering.ReadBack, standard_checksums_eq_nil.mpr hfiles]
    rfl
  rw [hnil, parse_apache (Bool.eq_false_iff.mpr hcan) (standard_bsd hne hcan),
    ← standard_misread hne hfiles]
  split
  · rename_i happ
    simp [happ]
  · rename_i happ
    simp [happ]

/-- Standard lines are read back if and only if an entry is among the first lines, or there is
none and no comment is misread. -/
theorem standard_iff (hne : ls ≠ []) (hwf : Dict.WF (Rendering.standard ls).checksums) :
    (Rendering.standard ls).ReadBack ↔ (Rendering.standard ls).Recognised := by
  by_cases hfound : ∃ l ∈ (ls.dropWhile StandardLine.isBlank).take 5, l.file.isSome
  · exact iff_of_true (standard_readBack hne hwf hfound) (.inl hfound)
  · have hcan := fun h => hfound ((standard_can_parse hne).mp h)
    rw [Rendering.Recognised, or_iff_right hfound]
    by_cases hfiles : ∀ l ∈ ls, l.file = none
    · rw [comments_readBack_iff hne hfiles hcan, and_iff_right hfiles]
    · refine iff_of_false ?_ fun h => hfiles h.1
      simp only [not_forall] at hfiles
      obtain ⟨l, hl, hfile⟩ := hfiles
      exact standard_not_readBack hne hwf hcan hl hfile

end

/-! ## Files of BSD lines -/

namespace BSDLine

theorem head?_text (l : BSDLine) :
    ∃ c, l.text.head? = some c ∧ whitespace c = false ∧ hexDigit c = false := by
  obtain ⟨c, t, ht, hspace, hhex, -⟩ := algorithm_head l.mem
  exact ⟨c, by rw [text, BSDFormat.lineText, ht]; rfl, hspace, hhex⟩

theorem getLast?_text (l : BSDLine) : ∃ c, l.text.getLast? = some c ∧ whitespace c = false := by
  have hne := l.digest.ne_nil
  refine ⟨l.digest.text.getLast hne, ?_, ?_⟩
  · rw [← List.getLast?_eq_some_getLast hne, text, BSDFormat.lineText,
      List.getLast?_append_of_ne_nil _ (by simp), List.getLast?_append_of_ne_nil _ (by simp),
      List.getLast?_append_of_ne_nil _ (by simp), List.getLast?_append_of_ne_nil _ hne]
  · exact whitespace_of_hexDigit (l.digest.hex _ (List.getLast_mem hne))

theorem text_one_line (l : BSDLine) : '\n' ∉ l.text := by
  obtain ⟨-, -, -, -, -, -, hline⟩ := algorithm_head l.mem
  have hdigest := l.digest.not_mem (c := '\n') (by decide)
  simp [text, BSDFormat.lineText, hline, hdigest, l.name.not_mem_newline]

theorem stripSpace_text (l : BSDLine) : stripSpace l.text = l.text := by
  obtain ⟨c, hc, hspace, -⟩ := l.head?_text
  obtain ⟨d, hd, hdspace⟩ := l.getLast?_text
  exact stripSpace_of_ends (by simpa [hc] using hspace) (by simpa [hd] using hdspace)

theorem entry_text (l : BSDLine) :
    BSDFormat.entry (stripSpace l.text) = some (l.name.text, lower l.digest.text) := by
  rw [l.stripSpace_text]
  refine BSDFormat.entry_lineText l.mem l.name.ne_nil (fun c hc => ?_) l.digest.ne_nil l.digest.hex
  exact ⟨l.name.not_whitespace hc, fun h => (l.name.plain c hc).2 (by simp [h])⟩

end BSDLine

theorem lines_newlines (n : Nat) : Checksum.lines (List.replicate n '\n') = [[]] := by
  rw [Checksum.lines, stripSpace_of_space (by simp [whitespace])]
  rfl

/-- A file without lines gives nothing. -/
theorem parse_newlines (n : Nat) : ChecksumParser.parse (List.replicate n '\n') = [] := by
  have hstandard : StandardFormat.can_parse (List.replicate n '\n') = false := by
    rw [StandardFormat.can_parse, lines_newlines]
    decide +kernel
  have hbsd : BSDFormat.can_parse (List.replicate n '\n') = false := by
    rw [BSDFormat.can_parse, lines_newlines]
    decide +kernel
  rw [parse_apache hstandard hbsd, ApacheBSDFormat.can_parse, lines_newlines]
  rfl

section
variable {ls : List BSDLine} {n : Nat}

theorem bsd_lines (hne : ls ≠ []) :
    Checksum.lines (Rendering.bsd ls n).text = ls.map BSDLine.text := by
  obtain ⟨first, rest, rfl⟩ := List.exists_cons_of_ne_nil hne
  obtain ⟨init, last, hlast⟩ := (List.eq_nil_or_concat (first :: rest)).resolve_left hne
  rw [List.concat_eq_append] at hlast
  refine @stripped_join _ (init.map BSDLine.text) first.text last.text n rfl ?_ ?_ ?_
    last.getLast?_text
  · rw [hlast, List.map_append]
    rfl
  · intro t ht
    obtain ⟨l, -, rfl⟩ := List.mem_map.mp ht
    exact l.text_one_line
  · obtain ⟨c, hc, hspace, -⟩ := first.head?_text
    exact ⟨c, hc, hspace⟩

theorem bsd_parse (hne : ls ≠ []) : BSDFormat.parse (Rendering.bsd ls n).text =
    Dict.ofPairs (Rendering.bsd ls n).checksums := by
  rw [BSDFormat.parse, bsd_lines hne, List.filterMap_map, Rendering.checksums, Rendering.files,
    List.map_map, ← List.filterMap_eq_map]
  exact congrArg Dict.ofPairs (List.filterMap_congr fun l _ => l.entry_text)

/-- BSD lines are always read back. -/
theorem bsd_readBack (hwf : Dict.WF (Rendering.bsd ls n).checksums) :
    (Rendering.bsd ls n).ReadBack := by
  by_cases hne : ls = []
  · subst hne
    intro name
    exact congrArg (Dict.get · name) (parse_newlines n)
  have hparse := @bsd_parse ls n hne
  rw [Dict.ofPairs_of_wf hwf] at hparse
  have hsums : (Rendering.bsd ls n).checksums ≠ [] := by
    simpa [Rendering.checksums, Rendering.files] using hne
  have hstandard : StandardFormat.can_parse (Rendering.bsd ls n).text = false := by
    rw [StandardFormat.can_parse, bsd_lines hne, List.any_eq_false]
    intro t ht
    obtain ⟨l, -, rfl⟩ := List.mem_map.mp (List.mem_of_mem_take ht)
    obtain ⟨c, hc, -, hhex⟩ := l.head?_text
    rw [l.stripSpace_text, StandardFormat.not_looksLike (by simpa [hc] using hhex)]
    decide
  have hcan : BSDFormat.can_parse (Rendering.bsd ls n).text = true := by
    obtain ⟨l, rest, rfl⟩ := List.exists_cons_of_ne_nil hne
    rw [BSDFormat.can_parse, bsd_lines hne]
    refine List.any_eq_true.mpr ⟨l.text, by simp, List.any_eq_true.mpr ⟨l.algorithm, l.mem, ?_⟩⟩
    exact BSDFormat.looksLike_lineText l.name.ne_nil l.name.not_mem_newline l.digest.ne_nil
      l.digest.hex
  intro name
  rw [parse_bsd hstandard hcan (by rw [hparse]; exact hsums), hparse]

end

/-! ## Lines of the split format -/

theorem Groups.one_line (g : Groups) : '\n' ∉ g.text := fun h => by
  rcases g.chars _ h with h | h
  · exact absurd h (by decide)
  · exact absurd h (by decide)

theorem Groups.not_mem (g : Groups) {c : Char} (hc : hexDigit c = false) (hspace : c ≠ ' ') :
    c ∉ g.text := fun h => by
  rcases g.chars c h with h | h
  · simp [hc] at h
  · exact hspace h

theorem Groups.stripSpace_text (g : Groups) : stripSpace g.text = g.text :=
  stripSpace_of_ends (fun c hc => whitespace_of_hexDigit (g.head c hc))
    fun c hc => whitespace_of_hexDigit (g.last c hc)

namespace ApacheLine

theorem text_not_mem (l : ApacheLine) {c : Char} (hhex : hexDigit c = false) (hspace : c ≠ ' ')
    (hname : ∀ n : FileName, c ∉ n.text) (hcolon : c ≠ ':') (hwhite : ∀ s, White s → c ∉ s) :
    c ∉ l.text := by
  cases l with
  | header name first => simp [text, hname, hcolon, hspace, first.not_mem hhex hspace]
  | continuation l => simp [text, hwhite _ l.white, l.groups.not_mem hhex hspace]

theorem text_one_line (l : ApacheLine) : '\n' ∉ l.text :=
  l.text_not_mem (by decide) (by decide) (fun n => n.not_mem_newline) (by decide)
    fun _ hs h => (hs _ h).2 rfl

theorem text_no_parenthesis (l : ApacheLine) : '(' ∉ l.text :=
  l.text_not_mem (by decide) (by decide) (fun n => n.not_mem (by simp)) (by decide)
    fun _ hs h => absurd (hs _ h).1 (by decide)

theorem stripSpace_continuation (l : Continuation) :
    stripSpace (continuation l).text = l.groups.text := by
  rw [text, stripSpace_append_left fun c hc => (l.white c hc).1, l.groups.stripSpace_text]

theorem stripSpace_header (name : FileName) (first : Groups) :
    ∃ r, stripSpace (header name first).text = name.text ++ ':' :: r := by
  have hhead : ∀ r, ∀ c ∈ (name.text ++ ':' :: r).head?, whitespace c = false := by
    intro r c hc
    rw [List.head?_append_of_ne_nil _ name.ne_nil] at hc
    exact name.not_whitespace (List.mem_of_mem_head? hc)
  by_cases hfirst : first.text = []
  · have htext : (header name first).text = (name.text ++ [':']) ++ [' '] := by
      simp [text, hfirst]
    refine ⟨[], ?_⟩
    rw [htext, stripSpace_append_right _ (by decide)]
    exact stripSpace_of_ends (hhead []) (by simp [whitespace])
  · refine ⟨' ' :: first.text, stripSpace_of_ends (hhead _) fun c hc => ?_⟩
    rw [text, List.getLast?_append_of_ne_nil _ (by simp), List.getLast?_cons_cons,
      List.getLast?_cons_of_ne_nil hfirst] at hc
    exact whitespace_of_hexDigit (first.last c hc)

/-- Digits in front of white space do not begin a header. -/
theorem header_not_spaced {name : FileName} {first : Groups} {t w u : Str}
    (h : stripSpace (header name first).text = t ++ (w ++ u)) (ht : ∀ c ∈ t, hexDigit c = true)
    (hne : w ≠ []) (hw : ∀ c ∈ w, whitespace c = true) : False := by
  obtain ⟨r, hr⟩ := stripSpace_header name first
  obtain ⟨x, w, rfl⟩ := List.exists_cons_of_ne_nil hne
  have hx := hw x (List.mem_cons_self ..)
  rw [h] at hr
  rcases List.append_eq_append_iff.mp hr with ⟨y, hy, hyr⟩ | ⟨y, rfl, hyr⟩
  · cases y with
    | nil =>
      rw [List.cons_append, List.nil_append, List.cons.injEq] at hyr
      simp [hyr.1, whitespace] at hx
    | cons z y =>
      rw [List.cons_append, List.cons_append, List.cons.injEq] at hyr
      have hz := name.not_whitespace (c := z) (by simp [hy])
      simp [← hyr.1, hx] at hz
  · cases y with
    | nil =>
      rw [List.cons_append, List.nil_append, List.cons.injEq] at hyr
      simp [← hyr.1, whitespace] at hx
    | cons z y =>
      rw [List.cons_append, List.cons.injEq] at hyr
      exact absurd (ht z (by simp)) (by rw [← hyr.1]; decide)

end ApacheLine

namespace Groups
variable {g : Groups}

/-- White space in groups is a space. -/
theorem eq_space {c : Char} (hc : c ∈ g.text) (hspace : hexDigit c = false) : c = ' ' :=
  (g.chars c hc).resolve_left (by simp [hspace])

/-- The digits in front of white space are the first group. -/
theorem captured_of_spaced {t w u : Str} (h : g.text = t ++ (w ++ u)) (hlen : 32 ≤ t.length)
    (ht : ∀ c ∈ t, hexDigit c = true) (hne : w ≠ []) (hw : ∀ c ∈ w, whitespace c = true) :
    g.Captured := by
  obtain ⟨x, w, rfl⟩ := List.exists_cons_of_ne_nil hne
  have hx : hexDigit x = false := by
    rw [← Bool.not_eq_true]
    intro hhex
    simpa [whitespace_of_hexDigit hhex] using hw x (List.mem_cons_self ..)
  have hmem : x ∈ g.text := by simp [h]
  refine ⟨?_, eq_space hmem hx ▸ hmem⟩
  rw [h, List.takeWhile_append_of_pos ht]
  simp [hx, hlen]

/-- There are digits behind the first group, too. -/
theorem length_lt_of_spaced {t w u : Str} (h : g.text = t ++ (w ++ u))
    (ht : ∀ c ∈ t, hexDigit c = true) (hne : u ≠ []) :
    t.length < (g.text.filter (· ≠ ' ')).length := by
  have hspace : ∀ c ∈ t, decide (c ≠ ' ') = true := by
    intro c hc
    rw [decide_eq_true_eq]
    rintro rfl
    exact absurd (ht _ hc) (by decide)
  have hlast : u.getLast hne ∈ g.text.getLast? := by
    rw [h, List.getLast?_append_of_ne_nil _ (by simp [hne]), List.getLast?_append_of_ne_nil _ hne,
      List.getLast?_eq_some_getLast hne]
    rfl
  have hdigit : u.getLast hne ≠ ' ' := by
    intro heq
    have := g.last _ hlast
    rw [heq] at this
    exact absurd this (by decide)
  have hrest : 0 < ((w ++ u).filter (· ≠ ' ')).length :=
    List.length_pos_of_mem (List.mem_filter.mpr
      ⟨List.mem_append_right _ (List.getLast_mem hne), by simpa using hdigit⟩)
  rw [h, List.filter_append, List.filter_eq_self.mpr hspace, List.length_append]
  omega

/-- Captured groups look like a line of the standard format. -/
theorem looksLike_of_captured (h : g.Captured) (hlen : (g.text.filter (· ≠ ' ')).length ≤ 128) :
    (StandardFormat.looksLike.match_ g.text).isSome := by
  have ht : ∀ c ∈ g.text.takeWhile hexDigit, hexDigit c = true := fun c hc =>
    List.mem_takeWhile_imp hc
  obtain ⟨d, behind, hbehind⟩ : ∃ d behind, g.text.dropWhile hexDigit = d :: behind := by
    refine List.exists_cons_of_ne_nil fun hnil => ?_
    exact absurd (List.dropWhile_eq_nil_iff.mp hnil _ h.2) (by decide)
  have htext : g.text = g.text.takeWhile hexDigit ++ (d :: behind) := by
    rw [← hbehind, List.takeWhile_append_dropWhile]
  have hd : d = ' ' := by
    have hnot := List.head?_dropWhile_not hexDigit g.text
    rw [hbehind] at hnot
    exact eq_space (by rw [htext]; simp) hnot
  have hspaces : ∀ c ∈ behind.takeWhile whitespace, whitespace c = true := fun c hc =>
    List.mem_takeWhile_imp hc
  obtain ⟨c, rest, hrest⟩ : ∃ c rest, behind.dropWhile whitespace = c :: rest := by
    refine List.exists_cons_of_ne_nil fun hnil => ?_
    have hlast := List.getLast?_eq_some_getLast (List.cons_ne_nil d behind)
    have hhex := g.last ((d :: behind).getLast (List.cons_ne_nil d behind))
      (by rw [htext, List.getLast?_append_of_ne_nil _ (List.cons_ne_nil d behind), hlast]; rfl)
    have hall : ∀ x ∈ d :: behind, whitespace x = true := by
      rw [hd, List.forall_mem_cons]
      exact ⟨by decide, List.dropWhile_eq_nil_iff.mp hnil⟩
    have hspace := hall _ (List.getLast_mem (List.cons_ne_nil d behind))
    simp [whitespace_of_hexDigit hhex] at hspace
  have hc : whitespace c = false := by
    have hnot := List.head?_dropWhile_not whitespace behind
    rwa [hrest] at hnot
  have hsplit : g.text = g.text.takeWhile hexDigit ++
      ((' ' :: behind.takeWhile whitespace) ++ c :: rest) := by
    conv_lhs => rw [htext, hd, ← List.takeWhile_append_dropWhile (p := whitespace) (l := behind),
      hrest]
    rfl
  have hbound := length_lt_of_spaced hsplit ht (List.cons_ne_nil c rest)
  refine StandardFormat.looksLike_iff.mpr ⟨_, _, c, rest, hsplit, ⟨h.1, by omega⟩, ht, by simp, ?_,
    hc⟩
  rw [List.forall_mem_cons]
  exact ⟨by decide, hspaces⟩

end Groups

/-! ## Files in the split format -/

namespace ApacheEntry
variable (e : ApacheEntry)

theorem digest_length : e.digest.text.length =
    (e.first.text.filter (· ≠ ' ')).length +
      ((e.rest.flatMap fun l => l.groups.text).filter (· ≠ ' ')).length := by
  rw [← e.digest_eq, List.filter_append, List.length_append]

/-- The groups of a line are not longer than the digest. -/
theorem groups_le {l : Continuation} (hl : l ∈ e.rest) :
    (l.groups.text.filter (· ≠ ' ')).length ≤ e.digest.text.length := by
  rw [e.digest_length]
  have hsub : l.groups.text.Sublist (e.rest.flatMap fun l => l.groups.text) := by
    rw [List.flatMap_def]
    exact List.sublist_flatten_of_mem (List.mem_map_of_mem hl)
  have hle := (hsub.filter (· ≠ ' ')).length_le
  omega

/-- The last line of an entry ends with a digit. -/
theorem lines_last : ∃ init last, e.lines = init ++ [last] ∧
    ∃ c, last.text.getLast? = some c ∧ whitespace c = false := by
  rcases List.eq_nil_or_concat e.rest with hrest | ⟨init, l, hrest⟩
  · refine ⟨[], .header e.name e.first, by rw [lines, hrest]; rfl, ?_⟩
    have hne : e.first.text ≠ [] := by
      intro hnil
      have hdigest := e.digest_eq
      rw [hnil, hrest] at hdigest
      exact e.digest.ne_nil hdigest.symm
    refine ⟨e.first.text.getLast hne, ?_, whitespace_of_hexDigit (e.first.last _
      (List.getLast?_eq_some_getLast hne))⟩
    rw [ApacheLine.text, List.getLast?_append_of_ne_nil _ (by simp), List.getLast?_cons_cons,
      List.getLast?_cons_of_ne_nil hne, List.getLast?_eq_some_getLast hne]
  · rw [List.concat_eq_append] at hrest
    refine ⟨.header e.name e.first :: init.map .continuation, .continuation l, ?_, ?_⟩
    · rw [lines, hrest, List.map_append]
      rfl
    · refine ⟨l.groups.text.getLast l.groups_ne_nil, ?_, whitespace_of_hexDigit (l.groups.last _
        (List.getLast?_eq_some_getLast l.groups_ne_nil))⟩
      rw [ApacheLine.text, List.getLast?_append_of_ne_nil _ l.groups_ne_nil,
        List.getLast?_eq_some_getLast l.groups_ne_nil]

/-- The loop over the lines of an entry saves what there was and has the whole digest then. -/
theorem foldl_lines (s : ApacheBSDFormat.State) :
    ((e.lines.map ApacheLine.text).foldl ApacheBSDFormat.State.next s).saved =
      s.saved.set e.name.text (lower e.digest.text) := by
  have hrest : ∀ t ∈ (e.rest.map ApacheLine.continuation).map ApacheLine.text,
      ':' ∉ t ∧ stripSpace t ≠ [] := by
    intro t ht
    rw [List.map_map] at ht
    obtain ⟨l, -, rfl⟩ := List.mem_map.mp ht
    rw [Function.comp_apply, ApacheLine.stripSpace_continuation]
    refine ⟨?_, l.groups_ne_nil⟩
    have hindent : ':' ∉ l.indent := fun h => absurd (l.white _ h).1 (by decide)
    simp [ApacheLine.text, hindent, l.groups.not_mem (c := ':') (by decide) (by decide)]
  have hstrip : ((e.rest.map ApacheLine.continuation).map ApacheLine.text).map stripSpace =
      e.rest.map fun l => l.groups.text := by
    rw [List.map_map, List.map_map]
    exact List.map_congr_left fun l _ => ApacheLine.stripSpace_continuation l
  have hfirst : stripSpace (' ' :: e.first.text) = e.first.text :=
    (stripSpace_append_left (w := [' ']) (by decide) e.first.text).trans e.first.stripSpace_text
  rw [lines, List.map_cons, List.foldl_cons, ApacheLine.text,
    ApacheBSDFormat.next_header e.name.ne_nil fun c hc =>
      ⟨e.name.not_whitespace hc, fun h => (e.name.plain c hc).2 (by simp [h])⟩,
    ApacheBSDFormat.foldl_continuation _ e.name.ne_nil hrest, hstrip, hfirst]
  refine ApacheBSDFormat.saved_of_digest e.name.ne_nil ?_ e.digest.ne_nil e.digest.hex
  rw [← e.digest_eq, List.flatMap_def]
  rfl

/-- A line that is read as one of the standard format gives less than the digest. -/
theorem length_lt_of_entry {l : ApacheLine} (hl : l ∈ e.lines) {p : Str × Str}
    (h : StandardFormat.entry (stripSpace l.text) = some p) :
    p.2.length < e.digest.text.length := by
  have hmatch : ∃ m, StandardFormat.line.match_ (stripSpace l.text) = some m ∧
      p.2 = lower ((m.groups.get 1).getD []) := by
    rw [StandardFormat.entry] at h
    split at h
    · cases h
    · obtain ⟨m, hm, rfl⟩ := Option.map_eq_some_iff.mp h
      exact ⟨m, hm, rfl⟩
  obtain ⟨m, hm, hp⟩ := hmatch
  obtain ⟨t, w, rest, htext, hget, -, ht, hw, hwall, hrest⟩ := StandardFormat.of_line hm
  rw [hp, hget, Option.getD_some, lower, List.length_map]
  rcases List.mem_cons.mp hl with rfl | hl
  · exact (ApacheLine.header_not_spaced htext ht hw hwall).elim
  · obtain ⟨l, hmem, rfl⟩ := List.mem_map.mp hl
    rw [ApacheLine.stripSpace_continuation] at htext
    exact (Groups.length_lt_of_spaced htext ht hrest).trans_le (e.groups_le hmem)

end ApacheEntry

section
variable {es : List ApacheEntry} {n : Nat}

theorem apache_lines (hne : es ≠ []) : Checksum.lines (Rendering.apache es n).text =
    (es.flatMap ApacheEntry.lines).map ApacheLine.text := by
  obtain ⟨first, rest, hfirst⟩ := List.exists_cons_of_ne_nil hne
  obtain ⟨before, last, hlast⟩ := (List.eq_nil_or_concat es).resolve_left hne
  rw [List.concat_eq_append] at hlast
  obtain ⟨init, l, hlines, hend⟩ := last.lines_last
  refine @stripped_join _ ((before.flatMap ApacheEntry.lines ++ init).map ApacheLine.text)
    (ApacheLine.header first.name first.first).text l.text n ?_ ?_ ?_ ?_ hend
  · rw [hfirst]
    rfl
  · rw [hlast, List.flatMap_append, List.flatMap_singleton, hlines, ← List.append_assoc,
      List.map_append]
    rfl
  · intro t ht
    obtain ⟨l, -, rfl⟩ := List.mem_map.mp ht
    exact l.text_one_line
  · obtain ⟨c, name, hname⟩ := List.exists_cons_of_ne_nil first.name.ne_nil
    exact ⟨c, by rw [ApacheLine.text, hname]; rfl, first.name.not_whitespace (by simp [hname])⟩

theorem apache_bsd (hne : es ≠ []) : BSDFormat.can_parse (Rendering.apache es n).text = false := by
  refine bsd_can_parse_eq_false fun t ht a ha h => ?_
  rw [apache_lines hne] at ht
  obtain ⟨l, -, rfl⟩ := List.mem_map.mp (List.mem_of_mem_take ht)
  exact l.text_no_parenthesis h.2

theorem apache_can_parse (hne : es ≠ []) :
    ApacheBSDFormat.can_parse (Rendering.apache es n).text = true := by
  obtain ⟨e, rest, rfl⟩ := List.exists_cons_of_ne_nil hne
  have hpart := @partition_append ':' e.name.text (e.name.not_mem (by simp)) (' ' :: e.first.text)
  rw [ApacheBSDFormat.can_parse, apache_lines hne]
  simp only [List.flatMap_cons, ApacheEntry.lines, List.cons_append, List.map_cons,
    List.headD_cons, ApacheLine.text, hpart]
  simp [whitespace]

theorem apache_parse (hne : es ≠ []) : ApacheBSDFormat.parse (Rendering.apache es n).text =
    Dict.ofPairs (Rendering.apache es n).checksums := by
  have hloop : ∀ (es : List ApacheEntry) (s : ApacheBSDFormat.State),
      (((es.flatMap ApacheEntry.lines).map ApacheLine.text).foldl
        ApacheBSDFormat.State.next s).saved =
          (es.map fun e => (e.name.text, lower e.digest.text)).foldl
            (fun d p => Dict.set d p.1 p.2) s.saved := by
    intro es
    induction es with
    | nil => exact fun _ => rfl
    | cons e es ih =>
      intro s
      rw [List.flatMap_cons, List.map_append, List.foldl_append, ih, e.foldl_lines, List.map_cons,
        List.foldl_cons]
  rw [ApacheBSDFormat.parse, apache_lines hne, hloop, Rendering.checksums, Rendering.files,
    List.map_map]
  rfl

theorem mem_rest {l : Continuation} (hl : .continuation l ∈ es.flatMap ApacheEntry.lines) :
    ∃ e ∈ es, l ∈ e.rest := by
  obtain ⟨e, he, hl⟩ := List.mem_flatMap.mp hl
  refine ⟨e, he, ?_⟩
  rcases List.mem_cons.mp hl with h | h
  · cases h
  · obtain ⟨l', hl', heq⟩ := List.mem_map.mp h
    cases heq
    exact hl'

theorem looksLike_continuation {l : Continuation}
    (hl : .continuation l ∈ es.flatMap ApacheEntry.lines) (h : l.groups.Captured) :
    (StandardFormat.looksLike.match_ (stripSpace (ApacheLine.continuation l).text)).isSome := by
  obtain ⟨e, -, hrest⟩ := mem_rest hl
  rw [ApacheLine.stripSpace_continuation]
  exact Groups.looksLike_of_captured h ((e.groups_le hrest).trans e.digest.bounds.2)

/-- The parser for the standard format takes the file if a line among the first is captured. -/
theorem apache_standard (hne : es ≠ []) :
    StandardFormat.can_parse (Rendering.apache es n).text = true ↔
      ∃ l, .continuation l ∈ (es.flatMap ApacheEntry.lines).take 5 ∧ l.groups.Captured := by
  rw [StandardFormat.can_parse, apache_lines hne, ← List.map_take, List.any_map, List.any_eq_true]
  constructor
  · rintro ⟨l, hl, hmatch⟩
    rw [Function.comp_apply] at hmatch
    obtain ⟨t, w, c, rest, htext, hlen, ht, hw, hwall, -⟩ := StandardFormat.looksLike_iff.mp hmatch
    cases l with
    | header name first => exact (ApacheLine.header_not_spaced htext ht hw hwall).elim
    | continuation l =>
      rw [ApacheLine.stripSpace_continuation] at htext
      exact ⟨l, hl, Groups.captured_of_spaced htext hlen.1 ht hw hwall⟩
  · rintro ⟨l, hl, hcaptured⟩
    refine ⟨_, hl, ?_⟩
    rw [Function.comp_apply]
    exact looksLike_continuation (List.mem_of_mem_take hl) hcaptured

theorem apache_standard_parse (hne : es ≠ []) :
    StandardFormat.parse (Rendering.apache es n).text =
      Dict.ofPairs ((es.flatMap ApacheEntry.lines).filterMap fun l =>
        StandardFormat.entry (stripSpace l.text)) := by
  rw [StandardFormat.parse, apache_lines hne, List.filterMap_map]
  rfl

/-- An entry that the parser for the standard format gives comes from a longer digest. -/
theorem exists_longer (hwf : Dict.WF (Rendering.apache es n).checksums)
    (hread : ∀ name, Dict.get (StandardFormat.parse (Rendering.apache es n).text) name =
      (Rendering.apache es n).checksums.get name) {e : ApacheEntry} (he : e ∈ es) :
    ∃ e' ∈ es, e.digest.text.length < e'.digest.text.length := by
  have hsum : (e.name.text, lower e.digest.text) ∈ (Rendering.apache es n).checksums :=
    List.mem_map.mpr ⟨(e.name, e.digest), List.mem_map.mpr ⟨e, he, rfl⟩, rfl⟩
  have hget := (hread e.name.text).trans (Dict.get_of_mem hwf hsum)
  rw [apache_standard_parse (List.ne_nil_of_mem he)] at hget
  obtain ⟨x, hx, hentry⟩ := List.mem_filterMap.mp (Dict.mem_of_mem_ofPairs (Dict.mem_of_get hget))
  obtain ⟨e', he', hxe⟩ := List.mem_flatMap.mp hx
  have hlt := e'.length_lt_of_entry hxe hentry
  rw [lower, List.length_map] at hlt
  exact ⟨e', he', hlt⟩

/-- Digests do not get longer and longer. -/
theorem not_longer (h : ∀ e ∈ es, ∃ e' ∈ es, e.digest.text.length < e'.digest.text.length)
    (k : Nat) : ∀ e ∈ es, e.digest.text.length + k < 128 := by
  induction k with
  | zero =>
    intro e he
    obtain ⟨e', -, hlt⟩ := h e he
    have := e'.digest.bounds.2
    omega
  | succ k ih =>
    intro e he
    obtain ⟨e', he', hlt⟩ := h e he
    have := ih e' he'
    omega

/-- What the parser for the standard format makes of a captured line is not the file. -/
theorem apache_not_readBack (hwf : Dict.WF (Rendering.apache es n).checksums) {l : Continuation}
    (hl : .continuation l ∈ (es.flatMap ApacheEntry.lines).take 5) (hcaptured : l.groups.Captured) :
    ¬ (Rendering.apache es n).ReadBack := by
  intro hback
  have hmem := List.mem_of_mem_take hl
  obtain ⟨e, he, -⟩ := mem_rest hmem
  have hne : es ≠ [] := List.ne_nil_of_mem he
  have hentry := StandardFormat.entry_isSome (looksLike_continuation hmem hcaptured) (by
    rw [ApacheLine.stripSpace_continuation]
    exact l.groups.one_line)
  have hparse : StandardFormat.parse (Rendering.apache es n).text ≠ [] := by
    rw [apache_standard_parse hne]
    intro hnil
    have hall := List.filterMap_eq_nil_iff.mp (Dict.ofPairs_eq_nil.mp hnil) _ hmem
    simp [hall] at hentry
  have hchosen := parse_standard ((apache_standard hne).mpr ⟨l, hl, hcaptured⟩) hparse
  have hread : ∀ name, Dict.get (StandardFormat.parse (Rendering.apache es n).text) name =
      (Rendering.apache es n).checksums.get name := fun name => hchosen ▸ hback name
  have := not_longer (fun e he => exists_longer hwf hread he) 128 e he
  omega

/-- A file in the split format is read back if and only if no line among the first ones is
captured. -/
theorem apache_iff (hwf : Dict.WF (Rendering.apache es n).checksums) :
    (Rendering.apache es n).ReadBack ↔ (Rendering.apache es n).Recognised := by
  by_cases hne : es = []
  · subst hne
    refine iff_of_true (fun name => congrArg (Dict.get · name) (parse_newlines n)) fun l hl => ?_
    cases hl
  by_cases hcaptured : ∃ l, .continuation l ∈ (es.flatMap ApacheEntry.lines).take 5 ∧
      l.groups.Captured
  · obtain ⟨l, hl, hg⟩ := hcaptured
    exact iff_of_false (apache_not_readBack hwf hl hg) fun h => h l hl hg
  · refine iff_of_true ?_ fun l hl hg => hcaptured ⟨l, hl, hg⟩
    have hstandard := Bool.eq_false_iff.mpr fun h => hcaptured ((@apache_standard es n hne).mp h)
    intro name
    rw [parse_apache hstandard (apache_bsd hne), if_pos (apache_can_parse hne), apache_parse hne,
      Dict.ofPairs_of_wf hwf]

end

/-- A checksum file is read back if and only if its format is recognised. -/
theorem readBack_iff (r : Rendering) (hdistinct : Dict.WF r.checksums) :
    r.ReadBack ↔ r.Recognised := by
  cases r with
  | standard ls =>
    by_cases hne : ls = []
    · subst hne
      refine iff_of_true (fun name => congrArg (Dict.get · name) (parse_newlines 0)) (.inr ?_)
      refine ⟨by simp, fun h => absurd h.2 ?_⟩
      rw [show (Rendering.standard []).text = List.replicate 0 '\n' from rfl, lines_newlines]
      decide
    · exact standard_iff hne hdistinct
  | bsd ls n => exact iff_of_true (bsd_readBack hdistinct) trivial
  | apache es n => exact apache_iff hdistinct

/-! ## Files that are not read back -/

def archive : FileName := ⟨"a.tgz".toList, by decide, by decide⟩

def md5 : Digest := ⟨"d41d8cd98f00b204e9800998ecf8427e".toList, by decide, by decide⟩

def sha1 : Digest := ⟨"da39a3ee5e6b4b0d3255bfef95601890afd80709".toList, by decide, by decide⟩

def image : FileName := ⟨"b.iso".toList, by decide, by decide⟩

/-- Two entries, behind an empty line and a comment. -/
def listed : Rendering :=
  .standard [.blank [] (by simp [White]), .comment [] " sums".toList (by simp [White]) (by decide),
    .entry md5 true archive, .entry sha1 false image]

/-- Two entries, of which the first one is broken into groups on two lines. -/
def broken : Rendering :=
  .apache [{ name := archive
             first := ⟨"da39a3ee 5e6b4b0d".toList, by decide, by decide, by decide⟩
             rest := [⟨[' ', ' '], by simp [White, whitespace], by simp,
               ⟨"3255bfef  95601890 afd80709".toList, by decide, by decide, by decide⟩,
               by decide⟩]
             digest := sha1
             digest_eq := by decide },
           { name := image
             first := ⟨md5.text, by decide, by decide, by decide⟩
             rest := []
             digest := md5
             digest_eq := by decide }] 2

theorem readBack_iff_archive : listed.ReadBack ∧ broken.ReadBack := by
  constructor
  · refine (readBack_iff listed (by decide)).mpr (.inl ⟨.entry md5 true archive, ?_, rfl⟩)
    exact List.mem_cons_of_mem _ List.mem_cons_self
  · refine (readBack_iff broken (by decide)).mpr ?_
    rintro l hl ⟨hlength, -⟩
    simp only [ApacheEntry.lines, List.map_cons, List.map_nil, List.flatMap_cons, List.flatMap_nil,
      List.cons_append, List.nil_append, List.take_succ_cons, List.take_nil, List.mem_cons,
      ApacheLine.continuation.injEq, reduceCtorEq, List.not_mem_nil, false_or, or_false] at hl
    subst hl
    revert hlength
    decide

/-- Five comments in front of the only entry. -/
def commented : Rendering :=
  let comment : StandardLine := .comment [] " ".toList (by simp [White]) (by decide)
  .standard [comment, comment, comment, comment, comment, .entry md5 false archive]

/-- A line with a group of 32 digits and one of eight. -/
def grouped : Rendering :=
  .apache [{ name := archive
             first := ⟨[], by simp, by simp, by simp⟩
             rest := [⟨[' '], by simp [White, whitespace], by simp,
               ⟨"da39a3ee5e6b4b0d3255bfef95601890 afd80709".toList, by decide, by decide,
                 by decide⟩, by decide⟩]
             digest := sha1
             digest_eq := by decide }] 1

/-- Nothing is read of the one file, and another name of the other. -/
theorem not_readBack : ¬ commented.ReadBack ∧ ¬ grouped.ReadBack := by
  have hcommented : (ChecksumParser.parse commented.text).get archive.text ≠
      commented.checksums.get archive.text := by decide +kernel
  have hgrouped : (ChecksumParser.parse grouped.text).get archive.text ≠
      grouped.checksums.get archive.text := by decide +kernel
  exact ⟨fun h => hcommented (h _), fun h => hgrouped (h _)⟩

end LocalStack.Utils.ChecksumFiles
