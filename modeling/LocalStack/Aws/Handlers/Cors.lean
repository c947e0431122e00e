import LocalStack.Lib.Decimal
import LocalStack.Lib.Regex

/-! The origin check of `CorsEnforcer`: the allow list, and the two patterns for
static websites and distributions that LocalStack itself serves. -/

namespace LocalStack.Aws.Handlers.Cors
open LocalStack.OrderedDict LocalStack.Text LocalStack.Regex

/-! ## The check -/

/-- The module's constants that the configuration determines. -/
structure Settings where
  ALLOWED_CORS_ORIGINS : List Str
  _ALLOWED_INTERNAL_DOMAINS : List Str
  _ALLOWED_INTERNAL_PORTS : List Nat

/-- `(.[^:]*)`. -/
def domainGroup : Pattern :=
  .group 2 (.seq (.chars dot 1 (some 1)) (.chars (fun c => c ≠ ':') 0 none))

/-- `(:[0-9]{2,5})?`. -/
def portGroup : Pattern :=
  .optional (.group 3 (.seq (.lit [':']) (.chars asciiDigit 2 (some 5))))

/-- `(.*)<separator>(.[^:]*)(:[0-9]{2,5})?`. -/
def dynamicOrigin (separator : Str) : Pattern :=
  .seq (.group 1 (.chars dot 0 none)) (.seq (.lit separator) (.seq domainGroup portGroup))

def separators : List Str := [".s3-website.".toList, ".cloudfront.".toList]

def DYNAMIC_INTERNAL_ORIGINS : List Pattern := separators.map dynamicOrigin

/-- `int(s)` of a text of ASCII digits. -/
def portNumber (s : Str) : Nat := Nat.ofDigitChars 10 s 0

/-- The conditions on groups 2 and 3 of a match. -/
def allowedGroups (settings : Settings) (m : Match) : Bool :=
  ((m.groups.get 2).any fun domain => domain ∈ settings._ALLOWED_INTERNAL_DOMAINS) &&
    (m.groups.get 3).all fun port =>
      port.isEmpty || decide (portNumber (port.drop 1) ∈ settings._ALLOWED_INTERNAL_PORTS)

def _is_in_allowed_origins (settings : Settings) (allowed_origins : List Str) (origin : Str) :
    Bool :=
  (allowed_origins.any fun allowed_origin =>
      allowed_origin == "*".toList || origin == allowed_origin) ||
    DYNAMIC_INTERNAL_ORIGINS.any fun dynamic_origin =>
      (dynamic_origin.match_ origin).any (allowedGroups settings)

/-- The two headers that are read; `none` where the request has no such header. -/
structure Headers where
  origin : Option Str
  referer : Option Str

/-- A header that is there and not empty. -/
def nonEmpty (header : Option Str) : Option Str := header.filter (fun s => s ≠ [])

/-- `{uri.scheme}://{uri.netloc}` of a parsed URL. -/
def refererUri (uri : Str × Str) : Str := uri.1 ++ "://".toList ++ uri.2

/-- `urlparse` gives the scheme and the network location of a URL. -/
def is_cors_origin_allowed (settings : Settings) (urlparse : Str → Str × Str)
    (headers : Headers) : Bool :=
  match nonEmpty headers.origin with
  | some origin => _is_in_allowed_origins settings settings.ALLOWED_CORS_ORIGINS origin
  | none =>
    match nonEmpty headers.referer with
    | some referer =>
      _is_in_allowed_origins settings settings.ALLOWED_CORS_ORIGINS (refererUri (urlparse referer))
    | none => true

/-! ## Allowed origins -/

/-- The origin that is checked, if there is one. -/
def checkedOrigin (urlparse : Str → Str × Str) (headers : Headers) : Option Str :=
  (nonEmpty headers.origin).or
    ((nonEmpty headers.referer).map fun referer => refererUri (urlparse referer))

/-- The allow list contains `*` or exactly this origin. -/
def Listed (settings : Settings) (origin : Str) : Prop :=
  "*".toList ∈ settings.ALLOWED_CORS_ORIGINS ∨ origin ∈ settings.ALLOWED_CORS_ORIGINS

/-- Nothing, or `:<port>` with an allowed port. -/
def IsPort (settings : Settings) (port : Str) : Prop :=
  port = [] ∨ ∃ digits, port = ':' :: digits ∧ digits ≠ [] ∧ (∀ c ∈ digits, asciiDigit c = true) ∧
    portNumber digits ∈ settings._ALLOWED_INTERNAL_PORTS

/-- The whole origin is `<front>.s3-website.<domain>` or `<front>.cloudfront.<domain>`,
with an internal domain, and an allowed port or none. -/
def HasForm (settings : Settings) (origin : Str) : Prop :=
  ∃ front, ∃ separator ∈ separators, ∃ domain ∈ settings._ALLOWED_INTERNAL_DOMAINS, ∃ port,
    IsPort settings port ∧ origin = front ++ separator ++ domain ++ port

/-- A dynamic pattern matches a beginning of the origin with allowed groups and
leaves `rest`. -/
def MatchedUpTo (settings : Settings) (origin rest : Str) : Prop :=
  ∃ pattern ∈ DYNAMIC_INTERNAL_ORIGINS, ∃ m, pattern.match_ origin = some m ∧
    allowedGroups settings m = true ∧ m.rest = rest

theorem is_in_allowed_origins_iff (settings : Settings) (origin : Str) :
    _is_in_allowed_origins settings settings.ALLOWED_CORS_ORIGINS origin = true ↔
      Listed settings origin ∨ ∃ rest, MatchedUpTo settings origin rest := by
  rw [_is_in_allowed_origins, Bool.or_eq_true]
  refine or_congr ?_ ?_
  · simp only [List.any_eq_true, Bool.or_eq_true, beq_iff_eq, Listed]
    constructor
    · rintro ⟨a, ha, rfl | rfl⟩
      · exact Or.inl ha
      · exact Or.inr ha
    · rintro (h | h)
      · exact ⟨_, h, Or.inl rfl⟩
      · exact ⟨_, h, Or.inr rfl⟩
  · simp only [List.any_eq_true, Option.any_eq_true, MatchedUpTo]
    constructor
    · rintro ⟨pattern, hp, m, hm, hallowed⟩
      exact ⟨m.rest, pattern, hp, m, hm, hallowed, rfl⟩
    · rintro ⟨rest, pattern, hp, m, hm, hallowed, -⟩
      exact ⟨pattern, hp, m, hm, hallowed⟩

/-- What the groups of a match hold. -/
theorem match_dynamicOrigin {separator origin : Str} {m : Match}
    (h : (dynamicOrigin separator).match_ origin = some m) :
    ∃ front domain, m.groups.get 2 = some domain ∧
      ((m.groups.get 3 = none ∧ origin = front ++ separator ++ domain ++ m.rest) ∨
        ∃ digits, m.groups.get 3 = some (':' :: digits) ∧ 2 ≤ digits.length ∧
          (∀ c ∈ digits, asciiDigit c = true) ∧
          origin = front ++ separator ++ domain ++ ':' :: digits ++ m.rest) := by
  obtain ⟨m₁, h₁, hmem⟩ := Pattern.mem_run_seq.mp (Pattern.mem_of_match h)
  obtain ⟨n₁, hn₁, front, rfl, rfl⟩ := Pattern.mem_run_group.mp h₁
  have hg₁ := Pattern.groups_of_groupFree hn₁ trivial
  obtain ⟨m₂, h₂, hmem⟩ := Pattern.mem_run_seq.mp hmem
  obtain ⟨hs₂, hg₂⟩ := Pattern.mem_run_lit.mp h₂
  obtain ⟨m₃, h₃, hmem⟩ := Pattern.mem_run_seq.mp hmem
  obtain ⟨n₃, hn₃, domain, hs₃, rfl⟩ := Pattern.mem_run_group.mp h₃
  have hg₃ := Pattern.groups_of_groupFree hn₃ ⟨trivial, trivial⟩
  have hdomain : (n₃.groups.set 2 domain).get 2 = some domain := by simp
  rcases Pattern.mem_run_optional.mp hmem with h₄ | rfl
  · obtain ⟨n₄, hn₄, port, hs₄, rfl⟩ := Pattern.mem_run_group.mp h₄
    have hg₄ := Pattern.groups_of_groupFree hn₄ ⟨trivial, trivial⟩
    obtain ⟨m₅, h₅, h₆⟩ := Pattern.mem_run_seq.mp hn₄
    obtain ⟨hs₅, -⟩ := Pattern.mem_run_lit.mp h₅
    obtain ⟨digits, hs₆, -, hlen, -, hdigits⟩ := Pattern.mem_run_chars.mp h₆
    have hport : port = ':' :: digits := by
      dsimp only at hs₄ hs₅
      rw [hs₄, hs₆, ← List.append_assoc] at hs₅
      exact List.append_cancel_right hs₅
    subst hport
    refine ⟨front, domain, ?_, Or.inr ⟨digits, Dict.get_set_self _ _ _, hlen, hdigits, ?_⟩⟩
    · rw [Dict.get_set_ne _ _ (by decide), hg₄]
      exact hdomain
    · dsimp only at hs₂ hs₄ ⊢
      rw [hs₂, hs₃, hs₄]
      simp
  · refine ⟨front, domain, hdomain, Or.inl ⟨?_, ?_⟩⟩
    · simp [Dict.get_set, hg₃, hg₂, hg₁]
    · dsimp only at hs₂ ⊢
      rw [hs₂, hs₃]
      simp

/-- An allowed match that leaves nothing shows the form of the whole origin. -/
theorem hasForm_of_matched {settings : Settings} {origin : Str}
    (h : MatchedUpTo settings origin []) : HasForm settings origin := by
  obtain ⟨pattern, hp, m, hm, hallowed, hrest⟩ := h
  obtain ⟨separator, hs, rfl⟩ := List.mem_map.mp hp
  obtain ⟨front, domain, hdomain, hport⟩ := match_dynamicOrigin hm
  rw [allowedGroups, hdomain, Option.any_some, Bool.and_eq_true, decide_eq_true_eq] at hallowed
  rcases hport with ⟨hnone, horigin⟩ | ⟨digits, hsome, hlen, hdigits, horigin⟩
  · exact ⟨front, separator, hs, domain, hallowed.1, [], Or.inl rfl, by rw [horigin, hrest]⟩
  · have hnumber : portNumber digits ∈ settings._ALLOWED_INTERNAL_PORTS := by
      have hport := hallowed.2
      rw [hsome, Option.all_some] at hport
      exact of_decide_eq_true hport
    refine ⟨front, separator, hs, domain, hallowed.1, ':' :: digits, Or.inr ⟨digits, rfl, ?_,
      hdigits, hnumber⟩, by rw [horigin, hrest, List.append_nil]⟩
    rintro rfl
    simp at hlen

/-- A split that the patterns take: no line break in front, the separator does not
occur again further behind, the domain has no colon, and the port two to five digits. -/
structure Regular (front separator domain port : Str) : Prop where
  front : '\n' ∉ front
  last : ∀ k, 0 < k → ¬ separator <+: (separator ++ domain ++ port).drop k
  domain : ∃ c rest, domain = c :: rest ∧ c ≠ '\n' ∧ ':' ∉ rest
  port : port = [] ∨ 3 ≤ port.length ∧ port.length ≤ 6

/-- The preferred match of the optional port. -/
theorem head?_port {settings : Settings} {port : Str} (hp : IsPort settings port)
    (hlen : port = [] ∨ 3 ≤ port.length ∧ port.length ≤ 6) (g : Dict Nat Str) :
    (portGroup.run port g).head? = some ⟨[], if port = [] then g else g.set 3 port⟩ := by
  rcases hp with rfl | ⟨digits, rfl, -, hdigits, -⟩
  · exact Pattern.head?_optional_none rfl
  · rw [if_neg (by simp)]
    have hlen' : 2 ≤ digits.length ∧ digits.length ≤ 5 := by
      simp only [List.length_cons, reduceCtorEq, false_or] at hlen
      omega
    have hchars : ((Pattern.chars asciiDigit 2 (some 5)).run (digits ++ []) g).head? =
        some ⟨[], g⟩ :=
      Pattern.head?_chars hdigits hlen'.1 (fun n hn => by cases hn; exact hlen'.2) (by simp)
    have hseq : ((Pattern.seq (.lit [':']) (.chars asciiDigit 2 (some 5))).run
        ([':'] ++ (digits ++ [])) g).head? = some ⟨[], g⟩ :=
      Pattern.head?_seq (Pattern.head?_lit (digits ++ [])) hchars
    have hgroup := @Pattern.head?_group _ [] (':' :: digits) g 3 hseq
    rw [List.append_nil] at hgroup
    exact Pattern.head?_optional hgroup

/-- The preferred match of a domain goes up to the colon of the port. -/
theorem head?_domain {settings : Settings} {c : Char} {rest port : Str} (hc : c ≠ '\n')
    (hrest : ':' ∉ rest) (hp : IsPort settings port) (g : Dict Nat Str) :
    (domainGroup.run (c :: rest ++ port) g).head? = some ⟨port, g.set 2 (c :: rest)⟩ := by
  apply Pattern.head?_group
  have hfirst : ((Pattern.chars dot 1 (some 1)).run (c :: (rest ++ port)) g).head? =
      some ⟨rest ++ port, g⟩ := by
    have hdot : dot c = true := by simpa [dot] using hc
    simp [Pattern.run_chars, Pattern.reach, hdot, List.range_succ]
  refine Pattern.head?_seq hfirst (Pattern.head?_chars ?_ (Nat.zero_le _) (by simp) ?_)
  · intro x hx
    have hne : x ≠ ':' := fun he => hrest (he ▸ hx)
    simpa using hne
  · rcases hp with rfl | ⟨digits, rfl, -⟩ <;> simp

/-- A pattern matches the whole of a regular split. -/
theorem matched_of_regular {settings : Settings} {front separator domain port : Str}
    (hs : separator ∈ separators) (hd : domain ∈ settings._ALLOWED_INTERNAL_DOMAINS)
    (hp : IsPort settings port) (h : Regular front separator domain port) :
    MatchedUpTo settings (front ++ separator ++ domain ++ port) [] := by
  obtain ⟨c, rest, rfl, hc, hrest⟩ := h.domain
  obtain ⟨g, hg⟩ : ∃ g : Dict Nat Str, g = Dict.set (Dict.set [] 1 front) 2 (c :: rest) := ⟨_, rfl⟩
  have htail : ((Pattern.seq (.lit separator) (.seq domainGroup portGroup)).run
      (separator ++ (c :: rest ++ port)) (Dict.set [] 1 front)).head? =
        some ⟨[], if port = [] then g else g.set 3 port⟩ := by
    refine Pattern.head?_seq (Pattern.head?_lit _)
      (Pattern.head?_seq (head?_domain hc hrest hp _) ?_)
    rw [← hg]
    exact head?_port hp h.port g
  have hmatch : (dynamicOrigin separator).match_ (front ++ separator ++ (c :: rest) ++ port) =
      some ⟨[], if port = [] then g else g.set 3 port⟩ := by
    rw [List.append_assoc, List.append_assoc]
    refine Pattern.head?_seq_chars ?_ (Nat.zero_le _) ?_ htail
    · intro x hx
      have hne : x ≠ '\n' := fun he => h.front (he ▸ hx)
      simpa [dot] using hne
    · -- a longer front leaves a rest without the separator
      intro t' u' he hlt g
      have hrest : u' = (separator ++ (c :: rest) ++ port).drop (t'.length - front.length) := by
        have := congrArg (List.drop t'.length) he
        rw [List.drop_left, List.drop_append, List.drop_eq_nil_of_le hlt.le, List.nil_append] at this
        rw [List.append_assoc, this]
      have hnone := h.last _ (Nat.sub_pos_of_lt hlt)
      rw [← hrest] at hnone
      rw [Pattern.run_seq, Pattern.run_lit_eq_nil hnone, List.flatMap_nil]
  refine ⟨_, List.mem_map_of_mem hs, _, hmatch, ?_, rfl⟩
  have hdomain : g.get 2 = some (c :: rest) := by rw [hg, Dict.get_set_self]
  have hnoport : g.get 3 = none := by simp [hg, Dict.get_set]
  rcases hp with rfl | ⟨digits, rfl, -, -, hport⟩
  · simp [allowedGroups, hdomain, hnoport, hd]
  · simp [allowedGroups, Dict.get_set, hdomain, hd, hport]

/-! ## Soundness -/

/-- An origin is only allowed if it is listed or has the required form. -/
def Sound (settings : Settings) (urlparse : Str → Str × Str) (headers : Headers) : Prop :=
  ∀ origin, checkedOrigin urlparse headers = some origin →
    is_cors_origin_allowed settings urlparse headers = true →
    Listed settings origin ∨ HasForm settings origin

/-- If a pattern matches with allowed groups, then one does that leaves nothing of the
origin. -/
def NothingLeft (settings : Settings) (origin : Str) : Prop :=
  (∃ rest, MatchedUpTo settings origin rest) → MatchedUpTo settings origin []

theorem allowed_of_checked {settings : Settings} {urlparse : Str → Str × Str}
    {headers : Headers} {origin : Str} (h : checkedOrigin urlparse headers = some origin) :
    is_cors_origin_allowed settings urlparse headers =
      _is_in_allowed_origins settings settings.ALLOWED_CORS_ORIGINS origin := by
  unfold checkedOrigin at h
  unfold is_cors_origin_allowed
  cases ho : nonEmpty headers.origin with
  | some o =>
    rw [ho, Option.some_or] at h
    cases h
    rfl
  | none =>
    rw [ho, Option.none_or] at h
    obtain ⟨referer, hr, rfl⟩ := Option.map_eq_some_iff.mp h
    rw [hr]

/-- The form of the whole origin by a split that the patterns do not take. -/
def HasIrregularForm (settings : Settings) (origin : Str) : Prop :=
  ∃ front, ∃ separator ∈ separators, ∃ domain ∈ settings._ALLOWED_INTERNAL_DOMAINS, ∃ port,
    IsPort settings port ∧ origin = front ++ separator ++ domain ++ port ∧
      ¬ Regular front separator domain port

/-- The patterns find every regular form. -/
theorem hasForm_cases {settings : Settings} {origin : Str} (h : HasForm settings origin) :
    MatchedUpTo settings origin [] ∨ HasIrregularForm settings origin := by
  obtain ⟨front, separator, hs, domain, hd, port, hp, rfl⟩ := h
  by_cases hr : Regular front separator domain port
  · exact Or.inl (matched_of_regular hs hd hp hr)
  · exact Or.inr ⟨front, separator, hs, domain, hd, port, hp, rfl, hr⟩

/-- **The allow list is sound exactly where nothing is left behind a match.** The
patterns have no end anchor: an origin that is not listed, and has no irregular form,
is unsoundly allowed if and only if every accepting match leaves a rest of it. -/
theorem sound_iff_nothingLeft (settings : Settings) (urlparse : Str → Str × Str)
    (headers : Headers) : Sound settings urlparse headers ↔
      ∀ origin, checkedOrigin urlparse headers = some origin →
        Listed settings origin ∨ HasIrregularForm settings origin ∨
          NothingLeft settings origin := by
  refine forall_congr' fun origin => forall_congr' fun h => ?_
  rw [allowed_of_checked h, is_in_allowed_origins_iff]
  constructor
  · intro hsound
    by_cases hm : ∃ rest, MatchedUpTo settings origin rest
    · rcases hsound (Or.inr hm) with hl | hform
      · exact Or.inl hl
      · rcases hasForm_cases hform with hmatch | hirregular
        · exact Or.inr (Or.inr fun _ => hmatch)
        · exact Or.inr (Or.inl hirregular)
    · exact Or.inr (Or.inr fun h => absurd h hm)
  · rintro (hl | ⟨front, separator, hs, domain, hd, port, hp, he, -⟩ | hleft) hallowed
    · exact Or.inl hl
    · exact Or.inr ⟨front, separator, hs, domain, hd, port, hp, he⟩
    · exact hallowed.imp id fun hm => hasForm_of_matched (hleft hm)

def localSettings : Settings where
  ALLOWED_CORS_ORIGINS := ["https://app.localstack.cloud".toList]
  _ALLOWED_INTERNAL_DOMAINS := ["localhost".toList, "localhost.localstack.cloud".toList]
  _ALLOWED_INTERNAL_PORTS := [4566, 443]

/-- The text behind the port is not looked at. -/
theorem stray_origin_allowed :
    let origin := "http://x.s3-website.localhost:4566.evil.com".toList
    is_cors_origin_allowed localSettings (fun _ => ([], [])) ⟨some origin, none⟩ = true ∧
      ¬ Listed localSettings origin ∧ ¬ HasForm localSettings origin := by
  refine ⟨by decide +kernel, by simp [Listed, localSettings], ?_⟩
  rintro ⟨front, separator, hs, domain, hd, port, hp, he⟩
  -- the origin ends in `m`, neither a domain nor a port does
  rcases hp with rfl | ⟨digits, rfl, hne, hdigits, -⟩
  · have hsuffix : domain <:+ "http://x.s3-website.localhost:4566.evil.com".toList :=
      ⟨front ++ separator, by rw [he, List.append_nil]⟩
    have hend : ∀ d ∈ localSettings._ALLOWED_INTERNAL_DOMAINS,
        ¬ d <:+ "http://x.s3-website.localhost:4566.evil.com".toList := by decide
    exact hend domain hd hsuffix
  · obtain ⟨init, d, rfl⟩ := (List.eq_nil_or_concat digits).resolve_left hne
    rw [List.concat_eq_append] at he hdigits
    have hd : (front ++ separator ++ domain ++ ':' :: (init ++ [d])).getLast? = some d := by
      rw [← List.cons_append, ← List.append_assoc, List.getLast?_concat]
    rw [← he] at hd
    have hm : "http://x.s3-website.localhost:4566.evil.com".toList.getLast? = some 'm' := by decide
    rw [hm, Option.some.injEq] at hd
    have hdigit := hdigits d (by simp)
    rw [← hd] at hdigit
    exact absurd hdigit (by decide)

end LocalStack.Aws.Handlers.Cors
