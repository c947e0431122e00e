import LocalStack.Logging.Format

/-! What the filter does to JSON: the passes of the patterns as changes of the strings of
a rendering, and when a secret does not show in the result. -/

namespace LocalStack.Logging
open LocalStack.Fields LocalStack.JsonSyntax LocalStack.Text

/-! ## Keys -/

def identifierChar (c : Char) : Bool := c.isAlphanum || c = '_'

structure Identifier where
  text : Str
  text_ne : text ≠ []
  plain : ∀ c ∈ text, identifierChar c = true

/-- Something that is no identifier. -/
def Odd (f : Str) : Prop := ∃ c ∈ f, identifierChar c = false

theorem Odd.ne {f : Str} (h : Odd f) (key : Identifier) : f ≠ key.text := by
  rintro rfl
  obtain ⟨c, hc, hodd⟩ := h
  rw [key.plain c hc] at hodd
  cases hodd

theorem Identifier.unquoted (key : Identifier) : '"' ∉ key.text := fun h =>
  absurd (key.plain '"' h) (by decide)

/-! ## One pass over the strings -/

/-- The string `e'` is replaced. -/
def Hit (key : Str) (e e' : Entry) : Prop :=
  e.parts.getLast? = some key ∧ colonish e.plain = true ∧ e'.parts.headD [] ≠ []

instance (key : Str) (e e' : Entry) : Decidable (Hit key e e') := instDecidableAnd

def masked (e e' : Entry) : List Entry :=
  [⟨e.isKey, e.parts, ": ".toList⟩, ⟨e'.isKey, stars :: e'.parts.tail, e'.plain⟩]

def maskEntries (key : Str) : List Entry → List Entry
  | e :: e' :: es =>
    if Hit key e e' then masked e e' ++ maskEntries key es else e :: maskEntries key (e' :: es)
  | es => es

theorem maskEntries_single (key : Str) (e : Entry) : maskEntries key [e] = [e] := by
  rw [maskEntries]
  simp

def flat (es : List Entry) : List Str := es.flatMap fun e => e.parts ++ [e.plain]

theorem flat_cons (e : Entry) (es : List Entry) :
    flat (e :: es) = e.parts ++ e.plain :: flat es := by
  simp [flat]

/-- Behind any fragment the pass makes `r` of `l`. -/
def Passes (key : Str) (l r : List Str) : Prop := ∀ z, maskFragments key (z :: l) = z :: r

section Pass
variable {key : Str}

theorem passes_nil : Passes key [] [] := fun z => maskFragments_of_length (by simp) key

/-- A fragment that no match begins with. -/
theorem Passes.step {b : Str} {l r : List Str} (h : Passes key l r)
    (hmiss : ∀ c d l', l = c :: d :: l' → b = key → colonish c = true → d = []) :
    Passes key (b :: l) (b :: r) := by
  intro z
  have hb := h b
  match l with
  | [] | [_] | [_, _] =>
    rw [maskFragments_of_length (by simp)] at hb ⊢
    rw [hb]
  | c :: d :: e :: l' =>
    have hno : ¬(b = key ∧ colonish c = true ∧ d ≠ []) := fun hh =>
      hh.2.2 (hmiss c d (e :: l') rfl hh.1 hh.2.1)
    rw [maskFragments, if_neg hno, hb]

theorem Passes.hit {c d e : Str} {l r : List Str} (h : Passes key l r) (hc : colonish c = true)
    (hd : d ≠ []) :
    Passes key (key :: c :: d :: e :: l) (key :: ": ".toList :: stars :: e :: r) := by
  intro z
  rw [maskFragments, if_pos ⟨rfl, hc, hd⟩, h e]

/-- The fragments of a string whose key is not hit. -/
theorem Passes.parts {ps : List Str} {c : Str} {l r : List Str} (h : Passes key l r)
    (hodd : ∀ f ∈ ps.dropLast, f ≠ key) (hc : l ≠ [] → c ≠ key)
    (hmiss : ∀ d l', l = d :: l' → ps.getLast? = some key → colonish c = true → d = []) :
    Passes key (ps ++ c :: l) (ps ++ c :: r) := by
  induction ps with
  | nil =>
    refine h.step fun c' d l' hl hk => ?_
    exact absurd hk (hc (by rw [hl]; exact List.cons_ne_nil _ _))
  | cons b ps ih =>
    cases ps with
    | nil =>
      refine (ih (by simp) (by simp)).step fun c' d l' hl hk hcolon => ?_
      obtain ⟨rfl, hl'⟩ := List.cons.inj hl
      exact hmiss d l' hl' (by rw [hk]; rfl) hcolon
    | cons b' ps =>
      rw [List.dropLast_cons_cons, List.forall_mem_cons] at hodd
      rw [List.getLast?_cons_cons] at hmiss
      refine (ih hodd.2 hmiss).step fun c' d l' hl hk => ?_
      exact absurd hk hodd.1

theorem Passes.append {front l r : List Str} (h : Passes key l r) (hne : ∀ f ∈ front, f ≠ key) :
    Passes key (front ++ l) (front ++ r) := by
  induction front with
  | nil => exact h
  | cons b front ih =>
    rw [List.forall_mem_cons] at hne
    exact (ih hne.2).step fun c d l' hl hk => absurd hk hne.1

/-- A key with its value, of which the first fragment is replaced. -/
theorem Passes.member {front tail : List Str} {c d c' : Str} {l r : List Str}
    (h : Passes key l r) (hfront : ∀ f ∈ front, f ≠ key) (hc : colonish c = true) (hd : d ≠ [])
    (htail : ∀ f ∈ tail.dropLast, f ≠ key) (hc' : colonish c' = false)
    (hl : l ≠ [] → c' ≠ key) :
    Passes key (front ++ key :: c :: d :: (tail ++ c' :: l))
      (front ++ key :: ": ".toList :: stars :: (tail ++ c' :: r)) := by
  refine Passes.append ?_ hfront
  cases tail with
  | nil => exact h.hit hc hd
  | cons e tail =>
    refine (@Passes.parts _ tail _ _ _ h (fun f hf => ?_) hl fun d l' _ hk hcolon => ?_).hit hc hd
    · cases tail with
      | nil => cases hf
      | cons b tail => exact htail f (List.mem_cons_of_mem e hf)
    · rw [hc'] at hcolon
      cases hcolon

end Pass

/-! ## Strings that passes can deal with -/

/-- Only the last fragment can be a key, and only keys have a colon directly behind them. -/
structure Sound (e : Entry) : Prop where
  parts_ne : e.parts ≠ []
  odd : ∀ f ∈ e.parts.dropLast, Odd f
  isKey : colonish e.plain = true → e.isKey = true
  unquoted : (∀ f ∈ e.parts, '"' ∉ f) ∧ '"' ∉ e.plain

structure Step (e e' : Entry) : Prop where
  odd : Odd e.plain
  value : colonish e.plain = true → e'.isKey = false

def Regular : List Entry → Prop
  | [] => True
  | e :: es => Sound e ∧ (∀ e' ∈ es.head?, Step e e') ∧ Regular es

theorem stars_odd : Odd stars := ⟨'*', by decide, by decide⟩

theorem Sound.masked_left {e : Entry} (h : Sound e) (hc : colonish e.plain = true) :
    Sound ⟨e.isKey, e.parts, ": ".toList⟩ :=
  ⟨h.parts_ne, h.odd, fun _ => h.isKey hc, h.unquoted.1, show '"' ∉ ": ".toList by decide⟩

theorem Sound.masked_right {e : Entry} (h : Sound e) :
    Sound ⟨e.isKey, stars :: e.parts.tail, e.plain⟩ := by
  refine ⟨List.cons_ne_nil _ _, fun f hf => ?_, h.isKey, fun f hf => ?_, h.unquoted.2⟩
  · cases hp : e.parts with
    | nil =>
      rw [hp] at hf
      cases hf
    | cons d ps =>
      have hodd := h.odd
      rw [hp] at hf hodd
      cases ps with
      | nil => cases hf
      | cons d' ps =>
        rw [List.tail_cons, List.dropLast_cons_cons] at hf
        rcases List.mem_cons.mp hf with rfl | hf
        · exact stars_odd
        · exact hodd f (by rw [List.dropLast_cons_cons]; exact List.mem_cons_of_mem _ hf)
  · rcases List.mem_cons.mp hf with rfl | hf
    · decide
    · exact h.unquoted.1 f (List.mem_of_mem_tail hf)

/-- The first string keeps its place. -/
theorem head?_maskEntries (key : Str) (es : List Entry) :
    (maskEntries key es).head?.map Entry.isKey = es.head?.map Entry.isKey := by
  match es with
  | [] | [_] => rfl
  | e :: e' :: es =>
    rw [maskEntries]
    split <;> rfl

theorem forall_head?_maskEntries {key : Str} {es : List Entry} {P : Bool → Prop}
    (h : ∀ e ∈ es.head?, P e.isKey) : ∀ e ∈ (maskEntries key es).head?, P e.isKey := by
  intro e he
  have hmap := head?_maskEntries key es
  rw [Option.mem_def.mp he, Option.map_some] at hmap
  obtain ⟨e₀, he₀, hk⟩ := Option.map_eq_some_iff.mp hmap.symm
  rw [← hk]
  exact h e₀ he₀

theorem Regular.mask {es : List Entry} (h : Regular es) (key : Str) :
    Regular (maskEntries key es) := by
  induction es using maskEntries.induct key with
  | case1 e e' es hhit ih =>
    obtain ⟨hs, hstep, hs', hstep', hrest⟩ := h
    obtain ⟨-, hvalue⟩ := hstep e' rfl
    rw [maskEntries, if_pos hhit]
    refine ⟨hs.masked_left hhit.2.1, ?_, hs'.masked_right, fun x hx => ?_, ih hrest⟩
    · rintro x ⟨⟩
      exact ⟨⟨':', List.mem_cons_self, by decide⟩, fun _ => hvalue hhit.2.1⟩
    · have hne : es ≠ [] := by
        rintro rfl
        cases hx
      obtain ⟨y, ys, rfl⟩ := List.exists_cons_of_ne_nil hne
      refine ⟨(hstep' y rfl).odd, fun hc => ?_⟩
      exact forall_head?_maskEntries (P := fun b => b = false)
        (fun z hz => by cases hz; exact (hstep' y rfl).value hc) x hx
  | case2 e e' es hmiss ih =>
    obtain ⟨hs, hstep, hrest⟩ := h
    rw [maskEntries, if_neg hmiss]
    refine ⟨hs, fun x hx => ⟨(hstep e' rfl).odd, fun hc => ?_⟩, ih hrest⟩
    exact forall_head?_maskEntries (P := fun b => b = false)
      (fun z hz => by cases hz; exact (hstep e' rfl).value hc) x hx
  | case3 es hshort =>
    rwa [maskEntries]
    exact hshort

theorem Sound.getLast?_ne {e : Entry} (h : Sound e) (key : Identifier) :
    ∀ f ∈ e.parts.dropLast, f ≠ key.text := fun f hf => (h.odd f hf).ne key

/-- The first fragment of a string is also the first one of what begins with it. -/
theorem headD_of_flat {e : Entry} {es : List Entry} {d : Str} {l : List Str}
    (h : flat (e :: es) = d :: l) (hne : e.parts ≠ []) : e.parts.headD [] = d := by
  rw [flat_cons] at h
  cases hp : e.parts with
  | nil => exact absurd hp hne
  | cons b ps =>
    rw [hp] at h
    exact (List.cons.inj h).1

/-- The pass over the fragments is the pass over the strings. -/
theorem passes_flat {key : Identifier} {es : List Entry} (h : Regular es) :
    Passes key.text (flat es) (flat (maskEntries key.text es)) := by
  induction es using maskEntries.induct key.text with
  | case1 e e' es hhit ih =>
    obtain ⟨hs, hstep, hs', hstep', hrest⟩ := h
    obtain ⟨hlast, hcolon, hhead⟩ := hhit
    have hvalue : colonish e'.plain = false := by
      rw [← Bool.not_eq_true]
      intro hc
      have hkey := (hstep e' rfl).value hcolon
      rw [hs'.isKey hc] at hkey
      cases hkey
    cases hd : e'.parts with
    | nil => exact absurd hd hs'.parts_ne
    | cons d tail =>
      rw [hd] at hhead
      have htail : ∀ f ∈ tail.dropLast, f ≠ key.text := fun f hf => by
        refine hs'.getLast?_ne key f ?_
        rw [hd]
        cases tail with
        | nil => cases hf
        | cons b tail => exact List.mem_cons_of_mem d hf
      obtain ⟨front, hparts⟩ := List.getLast?_eq_some_iff.mp hlast
      have hfront : ∀ f ∈ front, f ≠ key.text := fun f hf => by
        refine hs.getLast?_ne key f ?_
        rw [hparts, List.dropLast_concat]
        exact hf
      have hpass := (ih hrest).member hfront hcolon hhead htail hvalue fun hne => by
        have hes : es ≠ [] := by
          rintro rfl
          exact hne rfl
        obtain ⟨y, ys, rfl⟩ := List.exists_cons_of_ne_nil hes
        exact (hstep' y rfl).odd.ne key
      have hbefore : flat (e :: e' :: es) =
          front ++ key.text :: e.plain :: d :: (tail ++ e'.plain :: flat es) := by
        rw [flat_cons, flat_cons, hd, hparts]
        simp
      have hafter : flat (masked e e' ++ maskEntries key.text es) = front ++ key.text ::
          ": ".toList :: stars :: (tail ++ e'.plain :: flat (maskEntries key.text es)) := by
        rw [masked, List.cons_append, List.singleton_append, flat_cons, flat_cons, hd, hparts]
        simp
      rw [maskEntries, if_pos ⟨hlast, hcolon, by rw [hd]; exact hhead⟩, hbefore, hafter]
      exact hpass
  | case2 e e' es hmiss ih =>
    obtain ⟨hs, hstep, hrest⟩ := h
    rw [maskEntries, if_neg hmiss, flat_cons e (e' :: es), flat_cons e (maskEntries _ _)]
    refine (ih hrest).parts (hs.getLast?_ne key) (fun _ => (hstep e' rfl).odd.ne key) ?_
    intro d l' hl hlast hcolon
    by_contra hd
    exact hmiss ⟨hlast, hcolon, by rw [headD_of_flat hl hrest.1.parts_ne]; exact hd⟩
  | case3 es hshort =>
    match es, hshort with
    | [], _ => exact passes_nil
    | [e], _ =>
      rw [maskEntries_single, flat_cons]
      refine passes_nil.parts (h.1.getLast?_ne key) (fun hne => absurd rfl hne) ?_
      intro d l' hl
      cases hl
    | e :: e' :: es, hshort => exact absurd rfl (hshort e e' es)

/-! ## All passes -/

def maskAll (keys : List Identifier) (es : List Entry) : List Entry :=
  keys.foldl (fun es key => maskEntries key.text es) es

theorem unquoted_flat {es : List Entry} (h : Regular es) : ∀ f ∈ flat es, '"' ∉ f := by
  induction es with
  | nil => intro f hf; cases hf
  | cons e es ih =>
    intro f hf
    rw [flat_cons, List.mem_append, List.mem_cons] at hf
    rcases hf with hf | rfl | hf
    · exact h.1.unquoted.1 f hf
    · exact h.1.unquoted.2
    · exact ih h.2.2 f hf

theorem Regular.maskAll {es : List Entry} (h : Regular es) (keys : List Identifier) :
    Regular (maskAll keys es) := by
  induction keys generalizing es with
  | nil => exact h
  | cons key keys ih => exact ih (h.mask key.text)

/-- The filter on a text that is given by its strings. -/
theorem mask_join (keys : List Identifier) {plain : Str} (hplain : '"' ∉ plain) {es : List Entry}
    (h : Regular es) : mask_sensitive_msg (patterns (keys.map Identifier.text))
      (join '"' (plain :: flat es)) = join '"' (plain :: flat (maskAll keys es)) := by
  induction keys generalizing es with
  | nil => rfl
  | cons key keys ih =>
    have hpass := sub_join key.unquoted (List.cons_ne_nil plain (flat es))
      (List.forall_mem_cons.mpr ⟨hplain, unquoted_flat h⟩)
    rw [passes_flat h plain] at hpass
    have hrest := ih (h.mask key.text)
    rw [← hpass] at hrest
    exact hrest

/-- No match goes over a string that has no colon directly behind it. -/
theorem maskEntries_append (key : Str) {es : List Entry} (es' : List Entry)
    (h : ∀ e ∈ es.getLast?, colonish e.plain = false) :
    maskEntries key (es ++ es') = maskEntries key es ++ maskEntries key es' := by
  induction es using maskEntries.induct key with
  | case1 e e' es hhit ih =>
    rw [List.cons_append, List.cons_append, maskEntries, if_pos hhit, maskEntries, if_pos hhit,
      List.append_assoc]
    cases es with
    | nil => rfl
    | cons x es => rw [ih (by simpa using h)]
  | case2 e e' es hmiss ih =>
    rw [List.cons_append, List.cons_append, maskEntries, if_neg hmiss, maskEntries, if_neg hmiss,
      List.cons_append, ← ih (by simpa using h)]
    rfl
  | case3 es hshort =>
    match es, hshort with
    | [], _ => rfl
    | [e], _ =>
      rw [maskEntries_single]
      cases es' with
      | nil => exact maskEntries_single key e
      | cons e' es' =>
        have hmiss : ¬Hit key e e' := by
          intro hhit
          have hcolon := hhit.2.1
          rw [h e rfl] at hcolon
          cases hcolon
        rw [List.singleton_append, maskEntries, if_neg hmiss, List.singleton_append]
    | e :: e' :: es, hshort => exact absurd rfl (hshort e e' es)

theorem getLast?_cons_of_map {e : Entry} {es es' : List Entry} (hne : es' ≠ [])
    (h : es.getLast?.map Entry.plain = es'.getLast?.map Entry.plain) :
    (e :: es).getLast?.map Entry.plain = es'.getLast?.map Entry.plain := by
  rw [← h, List.getLast?_cons]
  cases hes : es.getLast? with
  | none =>
    rw [hes, List.getLast?_eq_some_getLast hne] at h
    cases h
  | some y => rfl

/-- What is behind the last string stays. -/
theorem getLast?_maskEntries (key : Str) (es : List Entry) :
    (maskEntries key es).getLast?.map Entry.plain = es.getLast?.map Entry.plain := by
  induction es using maskEntries.induct key with
  | case1 e e' es hhit ih =>
    rw [maskEntries, if_pos hhit]
    cases es with
    | nil => rfl
    | cons x es =>
      rw [List.getLast?_cons_cons, List.getLast?_cons_cons]
      have hne := List.cons_ne_nil x es
      exact getLast?_cons_of_map hne (getLast?_cons_of_map hne ih)
  | case2 e e' es hmiss ih =>
    rw [maskEntries, if_neg hmiss, List.getLast?_cons_cons]
    exact getLast?_cons_of_map (List.cons_ne_nil e' es) ih
  | case3 es hshort =>
    match es, hshort with
    | [], _ => rfl
    | [e], _ => rw [maskEntries_single]
    | e :: e' :: es, hshort => exact absurd rfl (hshort e e' es)

/-- Neighbours with no colon directly between them are masked on their own. -/
theorem maskAll_append (keys : List Identifier) {es : List Entry} (es' : List Entry)
    (h : ∀ e ∈ es.getLast?, colonish e.plain = false) :
    maskAll keys (es ++ es') = maskAll keys es ++ maskAll keys es' := by
  induction keys generalizing es es' with
  | nil => rfl
  | cons key keys ih =>
    have hlast : ∀ e ∈ (maskEntries key.text es).getLast?, colonish e.plain = false := by
      intro e he
      have hmap := getLast?_maskEntries key.text es
      rw [Option.mem_def.mp he, Option.map_some] at hmap
      obtain ⟨e₀, he₀, hp⟩ := Option.map_eq_some_iff.mp hmap.symm
      rw [← hp]
      exact h e₀ he₀
    have := ih (maskEntries key.text es') hlast
    rw [← maskEntries_append key.text es' h] at this
    exact this

/-! ## One member -/

theorem maskEntries_pair (key : Str) (e e' : Entry) :
    maskEntries key [e, e'] = if Hit key e e' then masked e e' else [e, e'] := by
  rw [maskEntries]
  split
  · exact List.append_nil _
  · rw [maskEntries_single]

theorem maskAll_of_not_hit {keys : List Identifier} {e e' : Entry}
    (h : ∀ key ∈ keys, ¬Hit key.text e e') : maskAll keys [e, e'] = [e, e'] := by
  induction keys with
  | nil => rfl
  | cons key keys ih =>
    rw [List.forall_mem_cons] at h
    have hone := maskEntries_pair key.text e e'
    rw [if_neg h.1] at hone
    rw [maskAll, List.foldl_cons, hone]
    exact ih h.2

theorem maskAll_masked (keys : List Identifier) (e e' : Entry) :
    maskAll keys (masked e e') = masked e e' := by
  induction keys with
  | nil => rfl
  | cons key keys ih =>
    have hone : maskEntries key.text (masked e e') = masked e e' := by
      rw [masked, maskEntries_pair]
      split <;> rfl
    rw [maskAll, List.foldl_cons, hone]
    exact ih

/-- A member with a sensitive key is masked whichever pattern comes first. -/
theorem maskAll_of_hit {keys : List Identifier} {key : Identifier} {e e' : Entry}
    (hk : key ∈ keys) (h : Hit key.text e e') : maskAll keys [e, e'] = masked e e' := by
  induction keys with
  | nil => cases hk
  | cons key' keys ih =>
    rw [maskAll, List.foldl_cons, maskEntries_pair]
    split
    · exact maskAll_masked keys e e'
    · next hmiss =>
      rcases List.mem_cons.mp hk with rfl | hk
      · exact absurd h hmiss
      · exact ih hk

/-! ## The strings of a document -/

theorem separator_of_colonish {plain : Str} (h : colonish plain = true) : Separator plain := by
  obtain ⟨w, rfl, hw⟩ := exists_of_colonish h
  exact ⟨w, rfl, fun c hc => Decimal.toNat_lt_of_isSpace (hw c hc)⟩

theorem odd_of_mark {plain : Str} (h : ∃ c ∈ plain, isMark c = true) : Odd plain := by
  obtain ⟨c, hc, hm⟩ := h
  refine ⟨c, hc, ?_⟩
  simp only [isMark, Bool.or_eq_true, decide_eq_true_eq] at hm
  rcases hm with ((rfl | rfl) | rfl) | rfl <;> decide

theorem regular_of_fit {es : List Entry} (hfits : ∀ e ∈ es, e.Fits) (hnext : es.IsChain Entry.Next)
    (hq : ∀ f ∈ flat es, '"' ∉ f) : Regular es := by
  induction es with
  | nil => trivial
  | cons e es ih =>
    rw [List.forall_mem_cons] at hfits
    rw [List.isChain_cons] at hnext
    rw [flat_cons] at hq
    obtain ⟨hparts, hq⟩ := List.forall_mem_append.mp hq
    rw [List.forall_mem_cons] at hq
    refine ⟨⟨hfits.1.parts_ne, fun f hf => ?_, fun hc => hfits.1.isKey (separator_of_colonish hc),
      hparts, hq.1⟩, fun e' he => ?_, ih hfits.2 hnext.2 hq.2⟩
    · obtain ⟨g, rfl⟩ := hfits.1.slashed f hf
      exact ⟨'\\', by simp, by decide⟩
    · have hn := hnext.1 e' he
      exact ⟨odd_of_mark hn.marked, fun hc => hn.value (separator_of_colonish hc)⟩

section Documents
variable (d : Document)

theorem Document.regular : Regular (entries d.trail d.tokens).2 := by
  have hfits := d.rendering.fits
  have hunquoted := fragments_unquoted d.trail_space hfits.valid
  obtain ⟨hentries, hnext⟩ := entries_fit d.trail_space hfits.chain hfits.valid
  exact regular_of_fit hentries hnext (List.forall_mem_cons.mp hunquoted).2

theorem Document.unquoted : '"' ∉ (entries d.trail d.tokens).1 :=
  fragments_unquoted d.trail_space d.rendering.fits.valid _ List.mem_cons_self

/-- The fragments of the text. -/
theorem Document.splitOn_text : d.text.splitOn '"' =
    (entries d.trail d.tokens).1 :: flat (entries d.trail d.tokens).2 := by
  rw [Document.text, ← join_fragments]
  exact splitOn_join (List.cons_ne_nil _ _)
    (fragments_unquoted d.trail_space d.rendering.fits.valid)

/-- The fragments of the masked text. -/
theorem Document.splitOn_mask (keys : List Identifier) :
    (mask_sensitive_msg (patterns (keys.map Identifier.text)) d.text).splitOn '"' =
      (entries d.trail d.tokens).1 :: flat (maskAll keys (entries d.trail d.tokens).2) := by
  have hmask := mask_join keys (Document.unquoted d) (Document.regular d)
  rw [← Document.splitOn_text, join_splitOn] at hmask
  rw [hmask]
  exact splitOn_join (List.cons_ne_nil _ _) (List.forall_mem_cons.mpr
    ⟨Document.unquoted d, unquoted_flat ((Document.regular d).maskAll keys)⟩)

end Documents

theorem flat_append (es es' : List Entry) : flat (es ++ es') = flat es ++ flat es' := by
  simp [flat]

theorem Regular.of_append {es es' : List Entry} (h : Regular (es ++ es')) :
    Regular es' := by
  induction es with
  | nil => exact h
  | cons e es ih => exact ih h.2.2

/-- In front of a key no colon is left over. -/
theorem Regular.last_plain {es es' : List Entry} {e : Entry} (h : Regular (es ++ e :: es'))
    (hkey : e.isKey = true) : ∀ x ∈ es.getLast?, colonish x.plain = false := by
  induction es with
  | nil => simp
  | cons y es ih =>
    cases es with
    | nil =>
      rintro x ⟨⟩
      rw [← Bool.not_eq_true]
      intro hc
      rw [(h.2.1 e rfl).value hc] at hkey
      cases hkey
    | cons z es =>
      rw [List.getLast?_cons_cons]
      exact ih h.2.2

/-- A member with a string is masked on its own. -/
theorem maskAll_member (keys : List Identifier) {es es' : List Entry} {e e' : Entry}
    (h : Regular (es ++ e :: e' :: es')) (hkey : e.isKey = true) (hvalue : e'.isKey = false) :
    maskAll keys (es ++ e :: e' :: es') =
      maskAll keys es ++ (maskAll keys [e, e'] ++ maskAll keys es') := by
  rw [maskAll_append keys _ (h.last_plain hkey)]
  congr 1
  refine @maskAll_append keys [e, e'] es' fun x hx => ?_
  obtain rfl : e' = x := Option.mem_some_iff.mp hx
  rw [← Bool.not_eq_true]
  intro hc
  rw [h.of_append.2.2.1.isKey hc] at hvalue
  cases hvalue



/-! ## What the log shows -/

/-- The tokens around the string of a member. -/
def memberTokens (before : List Token) (lead key beforeColon afterColon value : Str)
    (after : List Token) : List Token :=
  before ++ ⟨lead, .key key⟩ :: ⟨beforeColon, .colon⟩ :: ⟨afterColon, .string value⟩ :: after

/-- Two renderings that differ only in the string of one member with a sensitive key. -/
structure Variation (keys : List Identifier) where
  before : List Token
  lead : Str
  key : Identifier
  sensitive : key ∈ keys
  beforeColon : Str
  afterColon : Str
  value : Str
  value' : Str
  after : List Token
  trail : Str
  rendering : Rendering .element
    (memberTokens before lead key.text beforeColon afterColon value after)
  rendering' : Rendering .element
    (memberTokens before lead key.text beforeColon afterColon value' after)
  trail_space : Space trail

namespace Variation
variable {keys : List Identifier} (v : Variation keys)

def document : Document := ⟨_, v.rendering, v.trail, v.trail_space⟩

def document' : Document := ⟨_, v.rendering', v.trail, v.trail_space⟩

/-- The values are both masked, and the same is left of them behind their first quotes. -/
def Hidden : Prop :=
  v.value = v.value' ∨ v.beforeColon = [] ∧ v.value ≠ [] ∧ v.value' ≠ [] ∧
    (v.value.splitOn '"').tail = (v.value'.splitOn '"').tail

end Variation

/-- An object key that ends in a quote and a sensitive key, right before a colon and a string. -/
structure Lookalike (keys : List Identifier) (tokens : List Token) (afterColon value : Str) :
    Prop where
  member : ∃ before lead body after, ∃ key ∈ keys,
    tokens = memberTokens before lead body [] afterColon value after ∧
      '"' :: key.text <:+ body
  value_ne : value ≠ []

def NoneSensitive (keys : List Identifier) (d : Document) : Prop :=
  ∀ t ∈ d.tokens, ∀ key ∈ keys, t.symbol ≠ .key key.text

/-- Members that look sensitive already have the masked form. -/
def LookalikesMasked (keys : List Identifier) (d : Document) : Prop :=
  ∀ afterColon value, Lookalike keys d.tokens afterColon value → afterColon = [' '] ∧ value = stars

theorem entries_member (trail lead key w w' value : Str) (after : List Token) :
    entries trail (⟨lead, .key key⟩ :: ⟨w, .colon⟩ :: ⟨w', .string value⟩ :: after) =
      (lead, ⟨true, key.splitOn '"', w ++ ':' :: w'⟩ ::
        ⟨false, value.splitOn '"', (entries trail after).1⟩ :: (entries trail after).2) := rfl

theorem colonish_cons {w : Str} (h : Space w) : colonish (':' :: w) = true := by
  simp only [colonish, List.all_eq_true]
  intro c hc
  have := h c hc
  simp only [isSpace, Bool.or_eq_true, decide_eq_true_eq] at this
  rcases this with ((rfl | rfl) | rfl) | rfl <;> decide

/-- White space in front of the colon keeps the patterns from matching. -/
theorem colonish_member {w w' : Str} (h : Space w) (h' : Space w') :
    colonish (w ++ ':' :: w') = true ↔ w = [] := by
  constructor
  · intro hc
    cases w with
    | nil => rfl
    | cons c w =>
      obtain ⟨u, heq, -⟩ := exists_of_colonish hc
      obtain ⟨rfl, -⟩ := List.cons.inj heq
      exact absurd (h ':' List.mem_cons_self) (by decide)
  · rintro rfl
    exact colonish_cons h'

/-- A body whose first fragment does not end in a backslash has no other. -/
theorem eq_of_headD_splitOn {value f : Str} (h : Body value)
    (hf : (value.splitOn '"').headD [] = f) (hend : f.getLast? ≠ some '\\') : value = f := by
  have hj := @join_splitOn '"' value
  have hslash := h.slashed
  rw [Slashed] at hslash
  cases hs : value.splitOn '"' with
  | nil => exact absurd hs (splitOn_ne_nil value)
  | cons f' fs =>
    rw [hs] at hf hj hslash
    obtain rfl : f' = f := hf
    cases fs with
    | nil => rw [← hj, join_singleton]
    | cons f'' fs =>
      obtain ⟨g, hg⟩ := hslash f' (by rw [List.dropLast_cons_cons]; exact List.mem_cons_self)
      exact absurd (by rw [hg, List.getLast?_concat]) hend

theorem headD_splitOn {value : Str} (h : Body value) :
    (value.splitOn '"').headD [] = [] ↔ value = [] := by
  refine ⟨fun hh => eq_of_headD_splitOn h hh (by decide), ?_⟩
  rintro rfl
  rfl

/-- What is known of the tokens of a member. -/
theorem valid_member {before after : List Token} {lead key w w' value : Str}
    (h : Rendering .element (memberTokens before lead key w w' value after)) :
    Space w ∧ Space w' ∧ Body value := by
  have hvalid := h.fits.valid
  rw [memberTokens, List.forall_mem_append] at hvalid
  simp only [List.forall_mem_cons] at hvalid
  exact ⟨hvalid.2.2.1.1, hvalid.2.2.2.1.1, hvalid.2.2.2.1.2⟩

/-- The key and the value of a member, with what is behind them. -/
def pair (key w w' value plain : Str) : List Entry :=
  [⟨true, key.splitOn '"', w ++ ':' :: w'⟩, ⟨false, value.splitOn '"', plain⟩]

/-- The masked text around a member does not depend on its value. -/
theorem splitOn_member (keys : List Identifier) (before after : List Token) (lead key w w' : Str)
    (trail : Str) : ∃ plain behind es es', ∀ value
    (h : Rendering .element (memberTokens before lead key w w' value after)) (ht : Space trail),
      (⟨_, h, trail, ht⟩ : Document).text.splitOn '"' =
        plain :: (flat es ++ (flat (pair key w w' value behind) ++ flat es')) ∧
      (mask_sensitive_msg (patterns (keys.map Identifier.text))
        (⟨_, h, trail, ht⟩ : Document).text).splitOn '"' =
          plain :: (flat (maskAll keys es) ++ (flat (maskAll keys (pair key w w' value behind)) ++
            flat (maskAll keys es'))) := by
  obtain ⟨plain, es, hes⟩ := @entries_append trail before lead
  refine ⟨plain, (entries trail after).1, es, (entries trail after).2, fun value h ht => ?_⟩
  have hentries := hes _ (congrArg Prod.fst (entries_member trail lead key w w' value after))
  rw [entries_member] at hentries
  have hregular := Document.regular ⟨_, h, trail, ht⟩
  have htext := Document.splitOn_text ⟨_, h, trail, ht⟩
  have hmask := Document.splitOn_mask ⟨_, h, trail, ht⟩ keys
  dsimp only [memberTokens] at hregular htext hmask
  rw [hentries] at hregular htext hmask
  rw [maskAll_member keys hregular rfl rfl, flat_append, flat_append] at hmask
  refine ⟨?_, hmask⟩
  rw [← flat_append, ← flat_append]
  exact htext

section Pair
variable {keys : List Identifier} {key w w' value plain : Str}

theorem hit_pair (hw : Space w) (hw' : Space w') (hb : Body value) (k : Str) :
    Hit k ⟨true, key.splitOn '"', w ++ ':' :: w'⟩ ⟨false, value.splitOn '"', plain⟩ ↔
      (key.splitOn '"').getLast? = some k ∧ w = [] ∧ value ≠ [] := by
  rw [Hit, colonish_member hw hw', ne_eq, headD_splitOn hb]

/-- Nothing is replaced. -/
theorem flat_pair_kept (hw : Space w) (hw' : Space w') (hb : Body value)
    (h : w ≠ [] ∨ value = []) : flat (maskAll keys (pair key w w' value plain)) =
      key.splitOn '"' ++ (w ++ ':' :: w') :: (value.splitOn '"' ++ [plain]) := by
  have hmiss : ∀ k ∈ keys, ¬Hit k.text ⟨true, key.splitOn '"', w ++ ':' :: w'⟩
      ⟨false, value.splitOn '"', plain⟩ := by
    intro k _ hhit
    obtain ⟨-, hnil, hne⟩ := (hit_pair hw hw' hb k.text).mp hhit
    rcases h with h | h
    · exact h hnil
    · exact hne h
  rw [pair, maskAll_of_not_hit hmiss, flat_cons, flat_cons]
  rfl

/-- The value is replaced up to its first quote. -/
theorem flat_pair_masked {k : Identifier} (hk : k ∈ keys)
    (hkey : (key.splitOn '"').getLast? = some k.text) (hw' : Space w') (hb : Body value)
    (hne : value ≠ []) : flat (maskAll keys (pair key [] w' value plain)) =
      key.splitOn '"' ++ ": ".toList :: (stars :: ((value.splitOn '"').tail ++ [plain])) := by
  have hhit := (@hit_pair key [] w' value plain (fun _ h => absurd h List.not_mem_nil) hw' hb
    k.text).mpr ⟨hkey, rfl, hne⟩
  rw [pair, maskAll_of_hit hk hhit, masked, flat_cons, flat_cons]
  rfl

/-- An empty value can be told from one that is replaced. -/
theorem empty_ne_masked {l tail : List Str} :
    l ++ ([] ++ ':' :: w) :: (([] : Str).splitOn '"' ++ [plain]) ≠
      l ++ ": ".toList :: (stars :: tail) := by
  intro h
  have hvalue := (List.cons.inj (List.append_cancel_left h)).2
  exact absurd (List.cons.inj hvalue).1 (by decide)

end Pair

/-- Two values cannot be told apart in the log exactly when they are hidden. -/
theorem Variation.mask_eq_iff {keys : List Identifier} (v : Variation keys) :
    mask_sensitive_msg (patterns (keys.map Identifier.text)) v.document.text =
      mask_sensitive_msg (patterns (keys.map Identifier.text)) v.document'.text ↔ v.Hidden := by
  obtain ⟨plain, behind, es, es', h⟩ := splitOn_member keys v.before v.after v.lead v.key.text
    v.beforeColon v.afterColon v.trail
  obtain ⟨hw, hw', hb⟩ := valid_member v.rendering
  obtain ⟨-, -, hb'⟩ := valid_member v.rendering'
  have hmask := (h v.value v.rendering v.trail_space).2
  have hmask' := (h v.value' v.rendering' v.trail_space).2
  have hkey : (v.key.text.splitOn '"').getLast? = some v.key.text := by
    rw [splitOn_of_not_mem v.key.unquoted]
    rfl
  rw [← splitOn_inj, document, document', hmask, hmask', List.cons.injEq,
    List.append_cancel_left_eq, List.append_cancel_right_eq, and_iff_right rfl, Hidden]
  by_cases hcolon : v.beforeColon = []
  · rw [hcolon]
    by_cases hv : v.value = []
    · rw [flat_pair_kept (by simp [Space]) hw' hb (.inr hv), hv]
      by_cases hv' : v.value' = []
      · rw [flat_pair_kept (by simp [Space]) hw' hb' (.inr hv'), hv']
        simp
      · rw [flat_pair_masked v.sensitive hkey hw' hb' hv']
        refine iff_of_false empty_ne_masked ?_
        rintro (hvalue | ⟨-, hvalue, -⟩)
        · exact hv' hvalue.symm
        · exact hvalue rfl
    · rw [flat_pair_masked v.sensitive hkey hw' hb hv]
      by_cases hv' : v.value' = []
      · rw [flat_pair_kept (by simp [Space]) hw' hb' (.inr hv'), hv']
        refine iff_of_false (Ne.symm empty_ne_masked) ?_
        rintro (hvalue | ⟨-, -, hvalue, -⟩)
        · exact hv hvalue
        · exact hvalue rfl
      · rw [flat_pair_masked v.sensitive hkey hw' hb' hv']
        simp only [List.append_cancel_left_eq, List.cons.injEq, true_and,
          List.append_cancel_right_eq, hv, hv', ne_eq, not_false_eq_true]
        refine ⟨.inr, fun h => h.elim (fun heq => by rw [heq]) id⟩
  · rw [flat_pair_kept hw hw' hb (.inl hcolon), flat_pair_kept hw hw' hb' (.inl hcolon)]
    simp only [hcolon, false_and, or_false, List.append_cancel_left_eq, List.cons.injEq,
      true_and, List.append_cancel_right_eq]
    exact splitOn_inj

/-! ## Messages without sensitive keys -/

theorem length_flat_maskEntries (key : Str) (es : List Entry) :
    (flat (maskEntries key es)).length = (flat es).length := by
  induction es using maskEntries.induct key with
  | case1 e e' es hhit ih =>
    rw [maskEntries, if_pos hhit, flat_append, List.length_append, ih]
    cases hd : e'.parts with
    | nil =>
      obtain ⟨-, -, hhead⟩ := hhit
      rw [hd] at hhead
      exact absurd rfl hhead
    | cons d tail =>
      rw [masked, flat_cons, flat_cons, flat_cons, flat_cons, hd]
      simp only [List.length_append, List.length_cons, List.tail_cons, flat, List.flatMap_nil,
        List.length_nil]
      omega
  | case2 e e' es hmiss ih =>
    rw [maskEntries, if_neg hmiss, flat_cons, flat_cons e (e' :: es), List.length_append,
      List.length_cons, ih, List.length_append, List.length_cons]
  | case3 es hshort =>
    rw [maskEntries]
    exact hshort

theorem length_flat_maskAll (keys : List Identifier) (es : List Entry) :
    (flat (maskAll keys es)).length = (flat es).length := by
  induction keys generalizing es with
  | nil => rfl
  | cons key keys ih => exact (ih _).trans (length_flat_maskEntries key.text es)

/-- Strings that have the masked form are kept. -/
theorem maskEntries_of_masked {key : Str} {es : List Entry}
    (h : ∀ before e e' after, es = before ++ e :: e' :: after → Hit key e e' →
      e.plain = ": ".toList ∧ e'.parts.headD [] = stars) : maskEntries key es = es := by
  induction es using maskEntries.induct key with
  | case1 e e' es hhit ih =>
    obtain ⟨hplain, hstars⟩ := h [] e e' es rfl hhit
    have hrest := ih fun before x x' after heq =>
      h (e :: e' :: before) x x' after (by rw [heq]; rfl)
    rw [maskEntries, if_pos hhit, hrest, masked, ← hplain, ← hstars]
    cases hd : e'.parts with
    | nil =>
      rw [hd] at hstars
      cases hstars
    | cons d tail =>
      rw [List.headD_cons, List.tail_cons, ← hd]
      rfl
  | case2 e e' es hmiss ih =>
    have hrest := ih fun before x x' after heq => h (e :: before) x x' after (by rw [heq]; rfl)
    rw [maskEntries, if_neg hmiss, hrest]
  | case3 es hshort =>
    rw [maskEntries]
    exact hshort

theorem maskAll_of_masked {keys : List Identifier} {es : List Entry}
    (h : ∀ key ∈ keys, maskEntries key.text es = es) : maskAll keys es = es := by
  induction keys with
  | nil => rfl
  | cons key keys ih =>
    rw [List.forall_mem_cons] at h
    rw [maskAll, List.foldl_cons, h.1]
    exact ih h.2

/-- The last fragment of a text. -/
theorem getLast?_splitOn {key s : Str} (h : '"' ∉ key) :
    (s.splitOn '"').getLast? = some key ↔ s = key ∨ '"' :: key <:+ s := by
  constructor
  · intro hl
    obtain ⟨front, hf⟩ := List.getLast?_eq_some_iff.mp hl
    rw [← join_splitOn s, hf]
    by_cases hnil : front = []
    · subst hnil
      exact .inl (join_singleton key)
    · right
      rw [join_append hnil (List.cons_ne_nil _ _), join_singleton]
      exact List.suffix_append _ _
  · rintro (rfl | ⟨t, rfl⟩)
    · rw [splitOn_of_not_mem h]
      rfl
    · have hjoin : t ++ '"' :: key = join '"' (t.splitOn '"' ++ [key]) := by
        rw [join_append (splitOn_ne_nil t) (List.cons_ne_nil _ _), join_splitOn, join_singleton]
      rw [hjoin, splitOn_join (by simp), List.getLast?_concat]
      intro f hf
      rcases List.mem_append.mp hf with hf | hf
      · exact Lists.not_mem_of_mem_splitOn hf
      · rw [List.mem_singleton.mp hf]
        exact h

/-- Without sensitive keys the message is kept exactly when what looks like one is masked. -/
theorem mask_eq_self_iff {keys : List Identifier} {d : Document} (hnone : NoneSensitive keys d) :
    mask_sensitive_msg (patterns (keys.map Identifier.text)) d.text = d.text ↔
      LookalikesMasked keys d := by
  constructor
  · rintro heq w value ⟨⟨before, lead, body, after, key, hkey, htokens, hsuffix⟩, hne⟩
    obtain ⟨tokens, rendering, trail, htrail⟩ := d
    obtain rfl : tokens = memberTokens before lead body [] w value after := htokens
    obtain ⟨plain, behind, es, es', h⟩ := splitOn_member keys before after lead body [] w trail
    obtain ⟨-, hw, hb⟩ := valid_member rendering
    obtain ⟨htext, hmask⟩ := h value rendering htrail
    rw [← splitOn_inj, htext, hmask] at heq
    have heq := (List.cons.inj heq).2
    obtain ⟨-, heq⟩ := List.append_inj heq (length_flat_maskAll keys es)
    obtain ⟨heq, -⟩ := List.append_inj heq (length_flat_maskAll keys _)
    rw [flat_pair_masked hkey ((getLast?_splitOn key.unquoted).mpr (.inr hsuffix)) hw hb hne, pair,
      flat_cons, flat_cons, List.append_cancel_left_eq, List.cons.injEq] at heq
    obtain ⟨hcolon, heq⟩ := heq
    refine ⟨(List.cons.inj hcolon).2.symm, eq_of_headD_splitOn hb ?_ (by decide)⟩
    cases hs : value.splitOn '"' with
    | nil => exact absurd hs (splitOn_ne_nil value)
    | cons f fs =>
      rw [hs] at heq
      exact (List.cons.inj heq).1.symm
  · intro hmasked
    have hfits := d.rendering.fits
    have hkept : maskAll keys (entries d.trail d.tokens).2 = (entries d.trail d.tokens).2 := by
      refine maskAll_of_masked fun key hkey => maskEntries_of_masked ?_
      rintro before e e' after hsplit ⟨hlast, hcolon, hhead⟩
      obtain ⟨tsBefore, lead, body, w, value, tsAfter, htokens, hparts, hplain, hparts'⟩ :=
        exists_member d.trail_space hfits.chain hfits.valid hsplit (separator_of_colonish hcolon)
      have hsuffix : '"' :: key.text <:+ body := by
        rw [hparts, getLast?_splitOn key.unquoted] at hlast
        refine hlast.resolve_left ?_
        rintro rfl
        exact hnone ⟨lead, .key key.text⟩ (by rw [htokens]; simp) key hkey rfl
      have hne : value ≠ [] := by
        rintro rfl
        rw [hparts'] at hhead
        exact hhead rfl
      obtain ⟨rfl, rfl⟩ := hmasked w value
        ⟨⟨tsBefore, lead, body, tsAfter, key, hkey, htokens, hsuffix⟩, hne⟩
      exact ⟨hplain, by rw [hparts']; rfl⟩
    rw [← splitOn_inj, Document.splitOn_mask, hkept, Document.splitOn_text]

/-- Values of sensitive keys do not show exactly when they are hidden, and without sensitive
keys the message is kept exactly when what looks like one is masked already. -/
theorem mask_iff (keys : List Identifier) :
    (∀ v : Variation keys,
      mask_sensitive_msg (patterns (keys.map Identifier.text)) v.document.text =
        mask_sensitive_msg (patterns (keys.map Identifier.text)) v.document'.text ↔ v.Hidden) ∧
    ∀ d : Document, NoneSensitive keys d →
      (mask_sensitive_msg (patterns (keys.map Identifier.text)) d.text = d.text ↔
        LookalikesMasked keys d) :=
  ⟨Variation.mask_eq_iff, fun _ h => mask_eq_self_iff h⟩

def my_key : Identifier := ⟨"my_key".toList, by decide, by decide⟩

/-- An object with one member. -/
theorem rendering_sample {key value : Str} (hkey : Body key) (h : Body value) :
    Rendering .element
      (memberTokens [⟨[], .openObject⟩] [] key [] [' '] value [⟨[], .closeObject⟩]) :=
  .object (by decide) (by decide)
    (.member (by decide) hkey (by decide) (.string (by decide) h))

theorem my_key_body : Body my_key.text := .of_plain (by decide)

def sample {value value' : Str} (h : Body value) (h' : Body value') : Variation [my_key] :=
  ⟨_, _, my_key, List.mem_cons_self, [], [' '], value, value', _, [],
    rendering_sample my_key_body h, rendering_sample my_key_body h', by decide⟩

def alphaBeta : Variation [my_key] :=
  @sample "alpha".toList "beta".toList (.of_plain (by decide)) (.of_plain (by decide))

/-- The key is `x"my_key`, and its value is six stars. -/
def lookalike : Document :=
  ⟨_, @rendering_sample ('x' :: '\\' :: '"' :: my_key.text) stars
    (.plain (by decide) (by decide) (by decide) (.escape (by decide) my_key_body))
    (.of_plain (by decide)), [], by decide⟩

theorem lookalike_masked : LookalikesMasked [my_key] lookalike := by
  rintro w value ⟨⟨before, lead, body, after, key, -, htokens, -⟩, -⟩
  simp only [lookalike, memberTokens, List.cons_append, List.nil_append] at htokens
  -- The member that looks sensitive is the only one.
  rcases before with _ | ⟨t, _ | ⟨t', before⟩⟩
  · cases htokens
  · simp only [List.cons_append, List.nil_append, List.cons.injEq, Token.mk.injEq,
      Symbol.string.injEq] at htokens
    exact ⟨htokens.2.2.2.1.1.symm, htokens.2.2.2.1.2.symm⟩
  · have hlength := congrArg List.length htokens
    simp only [List.length_cons, List.length_append, List.length_nil] at hlength
    obtain rfl : before = [] := List.length_eq_zero_iff.mp (by omega)
    simp at htokens

theorem plain_values_masked :
    mask_sensitive_msg (patterns [my_key.text]) alphaBeta.document.text =
      mask_sensitive_msg (patterns [my_key.text]) alphaBeta.document'.text ∧
    mask_sensitive_msg (patterns [my_key.text]) lookalike.text = lookalike.text := by
  constructor
  · exact ((mask_iff [my_key]).1 alphaBeta).mpr (.inr ⟨rfl, by decide, by decide, by decide⟩)
  · refine ((mask_iff [my_key]).2 lookalike ?_).mpr lookalike_masked
    intro t ht key hkey hsymbol
    obtain rfl := List.mem_singleton.mp hkey
    revert t
    decide

/-- What is behind an escaped quote in a secret is logged. -/
theorem escaped_quote_shows : ¬∀ v : Variation [my_key],
    mask_sensitive_msg (patterns ["my_key".toList]) v.document.text =
      mask_sensitive_msg (patterns ["my_key".toList]) v.document'.text := by
  intro h
  have hbody : ∀ c ∈ ['b', 'c'], Body ['a', '\\', '"', c] := by
    intro c hc
    refine .plain (by decide) (by decide) (by decide) (.escape (by decide) (.of_plain ?_))
    rw [List.forall_mem_singleton]
    revert c
    decide
  have hshown := h (sample (hbody 'b' (by decide)) (hbody 'c' (by decide)))
  have hb : (sample (hbody 'b' (by decide)) (hbody 'c' (by decide))).document.text =
      "\x7b\"my_key\": \"a\\\"b\"\x7d".toList := rfl
  have hc : (sample (hbody 'b' (by decide)) (hbody 'c' (by decide))).document'.text =
      "\x7b\"my_key\": \"a\\\"c\"\x7d".toList := rfl
  rw [hb, hc] at hshown
  revert hshown
  decide +kernel

end LocalStack.Logging
