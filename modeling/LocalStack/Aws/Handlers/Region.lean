import LocalStack.Lib.Fields
import LocalStack.Lib.HttpHeaders
import LocalStack.Lib.RegexScan

/-! The region of a request: `RegionContextEnricher` and `DefaultRegionRewriterStrategy` of
`aws/handlers/region.py`, with the functions of `utils/aws/request_context.py` that read the
`Authorization` header and `get_partition` of `utils/aws/arns.py`. -/

namespace LocalStack.Aws.Handlers.Region
open LocalStack.Fields LocalStack.HttpHeaders LocalStack.OrderedDict LocalStack.Regex
open LocalStack.Text

/-! ## Partitions -/

def AWS_REGION_US_EAST_1 : Str := "us-east-1".toList

def DEFAULT_PARTITION : Str := "aws".toList

def REGION_PREFIX_TO_PARTITION : Dict Str Str :=
  [("cn-".toList, "aws-cn".toList), ("us-gov-".toList, "aws-us-gov".toList),
    ("us-iso-".toList, "aws-iso".toList), ("us-isob-".toList, "aws-iso-b".toList),
    ("eusc-".toList, "aws-eusc".toList)]

def PARTITION_NAMES : List Str := REGION_PREFIX_TO_PARTITION.map Prod.snd ++ [DEFAULT_PARTITION]

def get_partition (region : Option Str) : Str :=
  match region with
  | none => DEFAULT_PARTITION
  | some region =>
    if region = [] then DEFAULT_PARTITION
    else if region ∈ PARTITION_NAMES then region
    else match REGION_PREFIX_TO_PARTITION.find? fun e => e.1.isPrefixOf region with
      | some e => e.2
      | none => DEFAULT_PARTITION

/-! ## The patterns -/

def notSlash (c : Char) : Bool := c ≠ '/'

/-- `[^/]+`. -/
def field : Pattern := .chars notSlash 1 none

/-- `.*`. -/
def anyText : Pattern := .chars dot 0 none

def mark : Str := "Credential=".toList

/-- `Credential=` and three fields, each with a slash behind it. -/
def credentialPattern (key date region : Pattern) : Pattern :=
  .seq (.lit mark) <| .seq key <| .seq (.lit ['/']) <| .seq date <| .seq (.lit ['/']) <|
    .seq region (.lit ['/'])

/-- `.*Credential=[^/]+/[^/]+/([^/]+)/.*`. -/
def regionRegex : Pattern :=
  .seq anyText (.seq (credentialPattern field field (.group 1 field)) anyText)

/-- `.*Credential=([^/]+)/[^/]+/[^/]+/.*`. -/
def keyRegex : Pattern :=
  .seq anyText (.seq (credentialPattern (.group 1 field) field field) anyText)

/-- `Credential=([^/]+)/([^/]+)/([^/]+)/`. -/
def rewriteRegex : Pattern :=
  credentialPattern (.group 1 field) (.group 2 field) (.group 3 field)

/-! ## The functions -/

def AUTHORIZATION : Str := "Authorization".toList

/-- `headers.get("Authorization") or ""`. -/
def authOf (headers : Headers) : Str := (headers.get AUTHORIZATION).getD []

/-- The text of a group. -/
def groupText (i : Nat) (groups : Dict Nat Str) : Str := (Dict.get groups i).getD []

def extract_region_from_auth_header (headers : Headers) : Option Str :=
  let auth := authOf headers
  let region := regionRegex.sub (groupText 1) auth
  if region = auth then none else some region

def extract_region_from_headers (headers : Headers) : Str :=
  match extract_region_from_auth_header headers with
  | some region => if region = [] then AWS_REGION_US_EAST_1 else region
  | none => AWS_REGION_US_EAST_1

def SIGV4 : Str := "AWS4-".toList
def SIGV2 : Str := "AWS ".toList

def extract_access_key_id_from_auth_header (headers : Headers) : Option Str :=
  let auth := authOf headers
  if SIGV4.isPrefixOf auth = true then (keyRegex.findall auth).head?.map (groupText 1)
  else if SIGV2.isPrefixOf auth = true then ((auth.drop SIGV2.length).splitOn ':').head?
  else none

/-- What the handlers read and write of a `RequestContext`. -/
structure Context where
  headers : Headers
  region : Str
  partition : Str

/-- `RegionContextEnricher.__call__`. -/
def enrich (headers : Headers) : Context :=
  let region := extract_region_from_headers headers
  ⟨headers, region, get_partition (some region)⟩

def default_region : Str := "us-east-1".toList

/-- `Credential=\1/\2/{region}/`. -/
def replacement (region : Str) (groups : Dict Nat Str) : Str :=
  mark ++ groupText 1 groups ++ '/' :: groupText 2 groups ++ '/' :: region ++ ['/']

def rewrite_auth_header (context : Context) (region : Str) : Context :=
  match context.headers.get AUTHORIZATION with
  | none => context
  | some auth =>
    if auth = [] then context
    else { context with
      headers := context.headers.set AUTHORIZATION (rewriteRegex.sub (replacement region) auth) }

/-- `DefaultRegionRewriterStrategy.apply`. -/
def apply (available_regions : List Str) (context : Context) : Context :=
  if context.region = [] then context
  else if context.region ∉ available_regions then
    rewrite_auth_header ⟨context.headers, default_region, DEFAULT_PARTITION⟩ default_region
  else context

/-! ## Patterns on fields -/

/-- The text behind `Credential=`, when there is some. -/
def keyAt (s : Str) : Option Str :=
  if mark.isPrefixOf s = true ∧ s.drop mark.length ≠ [] then some (s.drop mark.length) else none

theorem keyAt_eq_some {s k : Str} : keyAt s = some k ↔ s = mark ++ k ∧ k ≠ [] := by
  rw [keyAt]
  constructor
  · intro h
    split at h
    · next hs =>
      obtain ⟨t, rfl⟩ := List.isPrefixOf_iff_prefix.mp hs.1
      rw [List.drop_left, Option.some.injEq] at h
      rw [List.drop_left] at hs
      exact ⟨by rw [h], by rw [← h]; exact hs.2⟩
    · cases h
  · rintro ⟨rfl, hk⟩
    rw [List.drop_left, if_pos ⟨List.isPrefixOf_iff_prefix.mpr (List.prefix_append _ _), hk⟩]

/-- Two fields that are not empty, and what is behind the slash that follows them. -/
def behind : List Str → Option (Str × Str × List Str)
  | t :: u :: v :: rest => if t ≠ [] ∧ u ≠ [] then some (t, u, v :: rest) else none
  | _ => none

theorem behind_eq_some {fs : List Str} {t u : Str} {rest : List Str} :
    behind fs = some (t, u, rest) ↔ fs = t :: u :: rest ∧ t ≠ [] ∧ u ≠ [] ∧ rest ≠ [] := by
  unfold behind
  constructor
  · intro h
    split at h
    · split at h
      · next hne =>
        cases h
        exact ⟨rfl, hne.1, hne.2, List.cons_ne_nil _ _⟩
      · cases h
    · cases h
  · rintro ⟨rfl, ht, hu, hrest⟩
    obtain ⟨v, rest, rfl⟩ := List.exists_cons_of_ne_nil hrest
    exact if_pos ⟨ht, hu⟩

/-- A match takes one field, whose text it may keep. -/
structure TakesField (f : Pattern) (store : Str → Dict Nat Str → Dict Nat Str) : Prop where
  found : ∀ {x s g}, x ≠ [] → '/' ∉ x →
    (f.run (x ++ '/' :: s) g).head? = some ⟨'/' :: s, store x g⟩
  taken : ∀ {s g m}, m ∈ f.run s g → ∃ x, s = x ++ m.rest ∧ x ≠ [] ∧ '/' ∉ x

theorem notSlash_of_not_mem {x : Str} (h : '/' ∉ x) : ∀ c ∈ x, notSlash c = true := by
  intro c hc
  rw [notSlash, decide_eq_true_eq]
  rintro rfl
  exact h hc

theorem head?_field {x s : Str} {g : Dict Nat Str} (hne : x ≠ []) (h : '/' ∉ x) :
    (field.run (x ++ '/' :: s) g).head? = some ⟨'/' :: s, g⟩ := by
  refine Pattern.head?_chars (notSlash_of_not_mem h) (List.length_pos_of_ne_nil hne) (by simp) ?_
  rintro c ⟨⟩
  decide

theorem taken_field {s : Str} {g : Dict Nat Str} {m : Match} (h : m ∈ field.run s g) :
    ∃ x, s = x ++ m.rest ∧ x ≠ [] ∧ '/' ∉ x := by
  obtain ⟨x, hs, -, hlen, -, hx⟩ := Pattern.mem_run_chars.mp h
  refine ⟨x, hs, ?_, fun hm => ?_⟩
  · rintro rfl
    exact absurd hlen (by decide)
  · exact absurd (hx '/' hm) (by decide)

theorem takesField_field : TakesField field fun _ g => g :=
  ⟨head?_field, taken_field⟩

theorem takesField_group (i : Nat) : TakesField (.group i field) fun x g => g.set i x := by
  refine ⟨fun hne h => Pattern.head?_group (head?_field hne h), fun h => ?_⟩
  obtain ⟨m', hm', x, -, rfl⟩ := Pattern.mem_run_group.mp h
  obtain ⟨y, hy, hslash⟩ := taken_field hm'
  exact ⟨y, hy, hslash⟩

section Credential
variable {a b c : Pattern} {sa sb sc : Str → Dict Nat Str → Dict Nat Str}
  (ha : TakesField a sa) (hb : TakesField b sb) (hc : TakesField c sc)
include ha hb hc

theorem credential_found {k t u rest : Str} {g : Dict Nat Str} (hk : k ≠ [] ∧ '/' ∉ k)
    (ht : t ≠ [] ∧ '/' ∉ t) (hu : u ≠ [] ∧ '/' ∉ u) :
    ((credentialPattern a b c).run
      (mark ++ (k ++ '/' :: (t ++ '/' :: (u ++ '/' :: rest)))) g).head? =
        some ⟨rest, sc u (sb t (sa k g))⟩ :=
  Pattern.head?_seq (Pattern.head?_lit _) <| Pattern.head?_seq (ha.found hk.1 hk.2) <|
    Pattern.head?_seq (@Pattern.head?_lit ['/'] _ _) <|
    Pattern.head?_seq (hb.found ht.1 ht.2) <| Pattern.head?_seq (@Pattern.head?_lit ['/'] _ _) <|
    Pattern.head?_seq (hc.found hu.1 hu.2) (@Pattern.head?_lit ['/'] _ _)

theorem credential_taken {s : Str} {g : Dict Nat Str} {m : Match}
    (h : m ∈ (credentialPattern a b c).run s g) : ∃ k t u,
      s = mark ++ (k ++ '/' :: (t ++ '/' :: (u ++ '/' :: m.rest))) ∧
      (k ≠ [] ∧ '/' ∉ k) ∧ (t ≠ [] ∧ '/' ∉ t) ∧ (u ≠ [] ∧ '/' ∉ u) := by
  obtain ⟨m₁, h₁, hrun₁⟩ := Pattern.mem_run_seq.mp h
  obtain ⟨m₂, h₂, hrun₂⟩ := Pattern.mem_run_seq.mp hrun₁
  obtain ⟨m₃, h₃, hrun₃⟩ := Pattern.mem_run_seq.mp hrun₂
  obtain ⟨m₄, h₄, hrun₄⟩ := Pattern.mem_run_seq.mp hrun₃
  obtain ⟨m₅, h₅, hrun₅⟩ := Pattern.mem_run_seq.mp hrun₄
  obtain ⟨m₆, h₆, h₇⟩ := Pattern.mem_run_seq.mp hrun₅
  obtain ⟨k, hk, hk'⟩ := ha.taken h₂
  obtain ⟨t, ht, ht'⟩ := hb.taken h₄
  obtain ⟨u, hu, hu'⟩ := hc.taken h₆
  refine ⟨k, t, u, ?_, hk', ht', hu'⟩
  rw [(Pattern.mem_run_lit.mp h₁).1, hk, (Pattern.mem_run_lit.mp h₃).1, ht,
    (Pattern.mem_run_lit.mp h₅).1, hu, (Pattern.mem_run_lit.mp h₇).1]
  rfl

/-- Where a key is, the pattern needs two more fields and the slash behind them. -/
theorem credential_join {s : Str} {fs : List Str} (hs : '/' ∉ s) (hfs : ∀ f ∈ fs, '/' ∉ f)
    (g : Dict Nat Str) :
    ((credentialPattern a b c).run (join '/' (s :: fs)) g).head? =
      (keyAt s).bind fun k => (behind fs).map fun p =>
        ⟨join '/' p.2.2, sc p.2.1 (sb p.1 (sa k g))⟩ := by
  have hsome : ∀ m, m ∈ (credentialPattern a b c).run (join '/' (s :: fs)) g →
      (keyAt s).isSome = true ∧ (behind fs).isSome = true := by
    intro m hm
    obtain ⟨k, t, u, heq, hk, ht, hu⟩ := credential_taken ha hb hc hm
    have hmark : '/' ∉ mark ++ k := by
      rw [List.mem_append, not_or]
      exact ⟨by decide, hk.2⟩
    have hcut := congrArg (List.splitOn '/') heq
    have hfields : mark ++ (k ++ '/' :: (t ++ '/' :: (u ++ '/' :: m.rest))) =
        join '/' ((mark ++ k) :: t :: u :: m.rest.splitOn '/') := by
      rw [join_cons _ (by simp), join_cons t (by simp), join_cons u (splitOn_ne_nil _),
        join_splitOn, List.append_assoc]
    rw [hfields, splitOn_join (by simp) (List.forall_mem_cons.mpr ⟨hs, hfs⟩),
      splitOn_join (by simp)] at hcut
    · obtain ⟨hsk, hrest⟩ := List.cons.inj hcut
      rw [hsk, hrest, keyAt_eq_some.mpr ⟨rfl, hk.1⟩,
        behind_eq_some.mpr ⟨rfl, ht.1, hu.1, splitOn_ne_nil _⟩]
      exact ⟨rfl, rfl⟩
    · simp only [List.forall_mem_cons]
      exact ⟨hmark, ht.2, hu.2, fun f hf => Lists.not_mem_of_mem_splitOn hf⟩
  have hnone : ((keyAt s).isSome = true → (behind fs).isSome = true → False) →
      ((credentialPattern a b c).run (join '/' (s :: fs)) g).head? = none := by
    intro hno
    rw [List.head?_eq_none_iff, List.eq_nil_iff_forall_not_mem]
    intro m hm
    exact hno (hsome m hm).1 (hsome m hm).2
  cases hk : keyAt s with
  | none => exact hnone fun h => by rw [hk] at h; cases h
  | some k =>
    cases hb' : behind fs with
    | none => exact hnone fun _ h => by rw [hb'] at h; cases h
    | some p =>
      obtain ⟨t, u, rest⟩ := p
      obtain ⟨rfl, ht, hu, hrest⟩ := behind_eq_some.mp hb'
      obtain ⟨rfl, hkne⟩ := keyAt_eq_some.mp hk
      rw [List.mem_append, not_or] at hs
      simp only [List.forall_mem_cons] at hfs
      rw [join_cons _ (by simp), join_cons t (by simp), join_cons u hrest, List.append_assoc]
      exact credential_found ha hb hc ⟨hkne, hs.2⟩ ⟨ht, hfs.1⟩ ⟨hu, hfs.2.1⟩

end Credential

/-! ## The fields of a header -/

/-- The key that is last in a field. -/
def credential : Str → Option Str
  | [] => none
  | c :: s => (credential s).or (keyAt (c :: s))

/-- The key and the region of a credential that begins in the field `s`. -/
def credentialAt (s : Str) (fs : List Str) : Option (Str × Str) :=
  (credential s).bind fun k => (behind fs).map fun p => (k, p.2.1)

/-- The key and the region of the last credential. -/
def lastCredential : List Str → Option (Str × Str)
  | [] => none
  | s :: fs => (lastCredential fs).or (credentialAt s fs)

section Search
variable {a c : Pattern} {store : Str → Str → Dict Nat Str}
  {sa sc : Str → Dict Nat Str → Dict Nat Str} (ha : TakesField a sa) (hc : TakesField c sc)
  (hstore : ∀ k u, sc u (sa k []) = store k u)

/-- A credential and what is behind it. -/
def credentialToEnd (a c : Pattern) : Pattern := .seq (credentialPattern a field c) anyText

def search (a c : Pattern) (s : Str) : Option Match :=
  ((Pattern.seq anyText (credentialToEnd a c)).run s []).head?

theorem dot_of_not_mem {s : Str} (h : '\n' ∉ s) : ∀ c ∈ s, dot c = true := by
  intro c hc
  rw [dot, decide_eq_true_eq]
  rintro rfl
  exact h hc

theorem head?_anyText {s : Str} (h : '\n' ∉ s) (g : Dict Nat Str) :
    (anyText.run s g).head? = some ⟨[], g⟩ := by
  have := @Pattern.head?_chars dot 0 none [] s g (dot_of_not_mem h) (Nat.zero_le _) (by simp)
    (by simp)
  rwa [List.append_nil] at this

include ha hc hstore in
/-- Where a key is. -/
theorem credentialToEnd_join {s : Str} {fs : List Str} (hs : '/' ∉ s) (hfs : ∀ f ∈ fs, '/' ∉ f)
    (hline : ∀ f ∈ fs, '\n' ∉ f) : ((credentialToEnd a c).run (join '/' (s :: fs)) []).head? =
      (keyAt s).bind fun k => (behind fs).map fun p => ⟨[], store k p.2.1⟩ := by
  have hhead := credential_join ha takesField_field hc hs hfs []
  have hnone : ((credentialPattern a field c).run (join '/' (s :: fs)) []).head? = none →
      ((credentialToEnd a c).run (join '/' (s :: fs)) []).head? = none := by
    intro h
    rw [List.head?_eq_none_iff] at h
    rw [credentialToEnd, Pattern.run_seq, h]
    rfl
  cases hk : keyAt s with
  | none =>
    rw [hk] at hhead
    exact hnone hhead
  | some k =>
    cases hb : behind fs with
    | none =>
      rw [hk, hb] at hhead
      exact hnone hhead
    | some p =>
      obtain ⟨t, u, rest⟩ := p
      obtain ⟨rfl, -, -, hrest⟩ := behind_eq_some.mp hb
      simp only [List.forall_mem_cons] at hline
      have hend : '\n' ∉ join '/' rest := not_mem_join (by decide) hline.2.2
      rw [hk, hb, Option.bind_some, Option.map_some, hstore] at hhead
      exact Pattern.head?_seq hhead (head?_anyText hend _)

include ha hc hstore in
/-- The search in the text that begins with a field. -/
theorem search_field {s : Str} {fs : List Str} (hs : '/' ∉ s ∧ '\n' ∉ s)
    (hfs : ∀ f ∈ fs, '/' ∉ f) (hline : ∀ f ∈ fs, '\n' ∉ f) :
    search a c (join '/' (s :: fs)) = (if fs = [] then none else search a c (join '/' fs)).or
      ((credentialAt s fs).map fun p => ⟨[], store p.1 p.2⟩) := by
  induction s with
  | nil =>
    have hnil := credentialToEnd_join ha hc hstore (s := []) (by simp) hfs hline
    rw [show keyAt [] = none from rfl, Option.bind_none] at hnil
    rw [show credentialAt [] fs = none from rfl, Option.map_none, Option.or_none, search]
    by_cases hne : fs = []
    · subst hne
      rw [if_pos rfl, join_singleton, anyText, Pattern.run_seq_chars_nil]
      exact hnil
    · rw [if_neg hne, join_cons [] hne, List.nil_append, anyText,
        Pattern.run_seq_chars_cons (by decide), List.head?_append, ← anyText]
      rw [join_cons [] hne, List.nil_append] at hnil
      rw [hnil, Option.or_none, search]
  | cons x s ih =>
    rw [List.mem_cons, not_or, List.mem_cons, not_or] at hs
    have hat := credentialToEnd_join ha hc hstore (s := x :: s)
      (by rw [List.mem_cons, not_or]; exact hs.1) hfs hline
    have hdot : dot x = true := by simpa [dot] using Ne.symm hs.2.1
    rw [join_cons_cons] at hat
    rw [join_cons_cons, search, anyText, Pattern.run_seq_chars_cons hdot, List.head?_append, ← anyText, hat]
    have ih := ih ⟨hs.1.2, hs.2.2⟩
    rw [search] at ih
    rw [ih, Option.or_assoc]
    congr 1
    rw [credentialAt, credentialAt, credential]
    cases credential s <;> cases keyAt (x :: s) <;> cases behind fs <;> rfl

include ha hc hstore in
/-- The search finds the last credential. -/
theorem search_join {fs : List Str} (hne : fs ≠ []) (hfs : ∀ f ∈ fs, '/' ∉ f)
    (hline : ∀ f ∈ fs, '\n' ∉ f) :
    search a c (join '/' fs) = (lastCredential fs).map fun p => ⟨[], store p.1 p.2⟩ := by
  induction fs with
  | nil => exact absurd rfl hne
  | cons s fs ih =>
    rw [List.forall_mem_cons] at hfs hline
    rw [search_field ha hc hstore ⟨hfs.1, hline.1⟩ hfs.2 hline.2, lastCredential, Option.map_or]
    congr 1
    by_cases hnil : fs = []
    · rw [if_pos hnil, hnil]
      rfl
    · rw [if_neg hnil, ih hnil hfs.2 hline.2]

/-- A text where the search fails has no match in it. -/
theorem scan_of_none {s : Str} (hs : '\n' ∉ s) (h : search a c s = none) :
    (Pattern.seq anyText (credentialToEnd a c)).scan s = s.map .char := by
  induction s with
  | nil => rfl
  | cons x s ih =>
    rw [List.mem_cons, not_or] at hs
    have hdot : dot x = true := by simpa [dot] using Ne.symm hs.1
    have hmatch : (Pattern.seq anyText (credentialToEnd a c)).match_ (x :: s) = none := h
    rw [search, anyText, Pattern.run_seq_chars_cons hdot, List.head?_append, ← anyText,
      Option.or_eq_none_iff] at h
    rw [Pattern.scan_cons_none hmatch, ih hs.2 h.1, List.map_cons]

include ha hc hstore in
/-- There is one match, of the whole text, or none. -/
theorem scan_toEnd {auth : Str} (hline : '\n' ∉ auth) :
    (Pattern.seq anyText (credentialToEnd a c)).scan auth =
      match lastCredential (auth.splitOn '/') with
      | some p => [.found auth (store p.1 p.2)]
      | none => auth.map .char := by
  have hsearch := search_join ha hc hstore (splitOn_ne_nil auth)
    (fun f hf => Lists.not_mem_of_mem_splitOn hf) (not_mem_splitOn hline)
  rw [join_splitOn] at hsearch
  cases hlast : lastCredential (auth.splitOn '/') with
  | none =>
    rw [hlast] at hsearch
    exact scan_of_none hline hsearch
  | some p =>
    rw [hlast] at hsearch
    have hne : auth ≠ [] := by
      rintro rfl
      cases hlast
    have hfound := @Pattern.scan_found (Pattern.seq anyText (credentialToEnd a c)) [] auth
      (store p.1 p.2) hne (by rw [List.append_nil]; exact hsearch)
    rwa [List.append_nil] at hfound

end Search

theorem mem_of_lastCredential {fs : List Str} {p : Str × Str} (h : lastCredential fs = some p) :
    p.2 ∈ fs ∧ p.2 ≠ [] ∧ 4 ≤ fs.length := by
  induction fs with
  | nil => cases h
  | cons s fs ih =>
    rw [lastCredential, Option.or_eq_some_iff] at h
    rcases h with h | ⟨-, h⟩
    · obtain ⟨hmem, hne, hlen⟩ := ih h
      exact ⟨List.mem_cons_of_mem s hmem, hne, Nat.le_succ_of_le hlen⟩
    · obtain ⟨k, -, hmap⟩ := Option.bind_eq_some_iff.mp h
      obtain ⟨⟨t, u, rest⟩, hbehind, rfl⟩ := Option.map_eq_some_iff.mp hmap
      obtain ⟨rfl, -, hu, hrest⟩ := behind_eq_some.mp hbehind
      have hlen := List.length_pos_of_ne_nil hrest
      refine ⟨by simp, hu, ?_⟩
      simp only [List.length_cons]
      omega

/-! ## What is read -/

section Read
variable {headers : Headers} (hline : '\n' ∉ authOf headers)
include hline

theorem sub_region : regionRegex.sub (groupText 1) (authOf headers) =
    match lastCredential ((authOf headers).splitOn '/') with
    | some p => p.2
    | none => authOf headers := by
  have hscan := @scan_toEnd _ _ (fun _ u => Dict.set [] 1 u) _ _ takesField_field
    (takesField_group 1) (fun _ _ => rfl) _ hline
  rw [Pattern.sub, show regionRegex = Pattern.seq anyText (credentialToEnd field (.group 1 field))
    from rfl, hscan]
  cases lastCredential ((authOf headers).splitOn '/') with
  | none => simp [List.flatMap_map]
  | some p => simp [groupText]

/-- The region is the one of the last credential. -/
theorem extract_region_eq : extract_region_from_auth_header headers =
    (lastCredential ((authOf headers).splitOn '/')).map Prod.snd := by
  simp only [extract_region_from_auth_header, sub_region hline]
  cases hlast : lastCredential ((authOf headers).splitOn '/') with
  | none => exact if_pos rfl
  | some p =>
    obtain ⟨hmem, -, hlen⟩ := mem_of_lastCredential hlast
    refine if_neg ?_
    intro hp
    -- a field is no text with two fields
    have hone := splitOn_of_not_mem (Lists.not_mem_of_mem_splitOn hmem)
    rw [show p.2 = authOf headers from hp] at hone
    rw [hone, List.length_singleton] at hlen
    omega

theorem extract_region_from_headers_eq : extract_region_from_headers headers =
    match lastCredential ((authOf headers).splitOn '/') with
    | some p => p.2
    | none => AWS_REGION_US_EAST_1 := by
  rw [extract_region_from_headers, extract_region_eq hline]
  cases hlast : lastCredential ((authOf headers).splitOn '/') with
  | none => rfl
  | some p => exact if_neg (mem_of_lastCredential hlast).2.1

/-- The key of a version 4 signature is the one of the last credential; the key of a version 2
signature ends at the first colon. -/
theorem extract_access_key_id_eq : extract_access_key_id_from_auth_header headers =
    if SIGV4 <+: authOf headers then
      (lastCredential ((authOf headers).splitOn '/')).map Prod.fst
    else if SIGV2 <+: authOf headers then
      some (((authOf headers).drop SIGV2.length).takeWhile fun c => c ≠ ':')
    else none := by
  have hscan := @scan_toEnd _ _ (fun k _ => Dict.set [] 1 k) _ _ (takesField_group 1)
    takesField_field (fun _ _ => rfl) _ hline
  rw [extract_access_key_id_from_auth_header]
  simp only [List.isPrefixOf_iff_prefix, head?_splitOn]
  congr 1
  rw [Pattern.findall, show keyRegex = Pattern.seq anyText (credentialToEnd (.group 1 field) field)
    from rfl, hscan]
  cases lastCredential ((authOf headers).splitOn '/') with
  | none => simp [List.filterMap_map]
  | some p => rfl

end Read

end LocalStack.Aws.Handlers.Region
