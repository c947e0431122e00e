import LocalStack.Lib.IntText
import LocalStack.Lib.RegexScan
import LocalStack.Utils.Bootstrap

/-! `get_enabled_apis` of `utils/bootstrap.py`: the `SERVICES` variable is split into
names, and what is not an available service is dropped before the names are resolved. -/

namespace LocalStack.Utils.Bootstrap
open LocalStack.IntText LocalStack.OrderedDict LocalStack.Regex LocalStack.Text
open LocalStack.Worklist

/-! ## The functions -/

/-- `is_env_not_false` of the variable's value. -/
def is_env_not_false (value : Str) : Bool :=
  stripSpace (value.map Char.toLower) ∉ ["0".toList, "false".toList, "False".toList]

/-- `\s*,\s*`. -/
def commaPattern : Pattern :=
  .seq (.chars whitespace 0 none) (.seq (.lit [',']) (.chars whitespace 0 none))

/-- `[:=]`. -/
def suffixMark (c : Char) : Bool := c = ':' || c = '='

/-- The name without the port. -/
def service_name (service_port : Str) : Str :=
  ((Pattern.chars suffixMark 1 (some 1)).split service_port).headD []

def service_names (services_env : Str) : List Str :=
  (commaPattern.split services_env).map service_name

/-- The services that `get_enabled_apis` resolves. -/
def enabled_services (SERVICES STRICT_SERVICE_LOADING : Str) (list_available : List Str) :
    List Str :=
  let services_env := stripSpace SERVICES
  if services_env ≠ [] ∧ is_env_not_false STRICT_SERVICE_LOADING = true then
    (service_names services_env).filter fun service => service ∈ list_available
  else list_available

def get_enabled_apis (tables : Tables Str) (turns : Nat) (SERVICES STRICT_SERVICE_LOADING : Str)
    (list_available : List Str) : Option (Finset Str) :=
  resolve_apis tables turns (enabled_services SERVICES STRICT_SERVICE_LOADING list_available)

/-- The services that `get_preloaded_services` resolves; here nothing is dropped. -/
def preloaded_services (SERVICES : Str) (list_available : List Str) : List Str :=
  let services_env := stripSpace SERVICES
  let services := if services_env ≠ [] then service_names services_env else []
  if services = [] then list_available else services

def get_preloaded_services (tables : Tables Str) (turns : Nat) (SERVICES : Str)
    (list_available : List Str) : Option (Finset Str) :=
  resolve_apis tables turns (preloaded_services SERVICES list_available)

/-! ## The value of the variable -/

/-- A name with an optional port behind `:` or `=`. -/
structure Entry where
  name : Str
  port : Option (Char × Str)

def Entry.text (e : Entry) : Str :=
  match e.port with
  | none => e.name
  | some (mark, port) => e.name ++ mark :: port

/-- A character of a name or a port. -/
def plain (c : Char) : Bool := c ≠ ',' && !whitespace c

structure Entry.Plain (e : Entry) : Prop where
  name_ne : e.name ≠ []
  name : ∀ c ∈ e.name, plain c = true ∧ suffixMark c = false
  port : ∀ mark port, e.port = some (mark, port) →
    suffixMark mark = true ∧ ∀ c ∈ port, plain c = true

/-- A list of entries with white space around the commas. -/
def entriesText (first : Entry) (rest : List ((Str × Str) × Entry)) : Str :=
  first.text ++ rest.flatMap fun r => r.1.1 ++ ',' :: r.1.2 ++ r.2.text

/-- Such a list, with white space around it. -/
structure Listing where
  lead : Str
  first : Entry
  rest : List ((Str × Str) × Entry)
  trail : Str
  first_plain : first.Plain
  rest_plain : ∀ r ∈ rest, r.2.Plain
  lead_space : ∀ c ∈ lead, whitespace c = true
  rest_space : ∀ r ∈ rest, ∀ c ∈ r.1.1 ++ r.1.2, whitespace c = true
  trail_space : ∀ c ∈ trail, whitespace c = true

namespace Listing

def value (l : Listing) : Str := l.lead ++ entriesText l.first l.rest ++ l.trail

/-- The listed names. -/
def names (l : Listing) : List Str := (l.first :: l.rest.map Prod.snd).map Entry.name

end Listing

/-! ## Reading the value -/

theorem suffixMark_plain {c : Char} (h : suffixMark c = true) : plain c = true := by
  simp only [suffixMark, Bool.or_eq_true, decide_eq_true_eq] at h
  rcases h with rfl | rfl
  · decide
  · decide

variable {e : Entry} {s t : Str} {c : Char}

theorem Entry.Plain.text (h : e.Plain) : ∀ c ∈ e.text, plain c = true := by
  intro c hc
  unfold Entry.text at hc
  split at hc
  · exact (h.name c hc).1
  · rename_i mark port hport
    obtain ⟨hmark, hall⟩ := h.port mark port hport
    rcases List.mem_append.mp hc with hc | hc
    · exact (h.name c hc).1
    · rcases List.mem_cons.mp hc with rfl | hc
      · exact suffixMark_plain hmark
      · exact hall c hc

theorem Entry.Plain.text_ne (h : e.Plain) : e.text ≠ [] := by
  unfold Entry.text
  split
  · exact h.name_ne
  · simp

theorem service_name_text (h : e.Plain) : service_name e.text = e.name := by
  have hname : ∀ c ∈ e.name, suffixMark c = false := fun c hc => (h.name c hc).2
  rw [service_name, Pattern.split_single]
  unfold Entry.text
  split
  · rw [List.splitOnP_eq_singleton hname]
    rfl
  · rename_i mark port hport
    rw [List.splitOnP_append_cons_of_forall_mem hname mark (h.port mark port hport).1]
    rfl

theorem plain_iff : plain c = true ↔ c ≠ ',' ∧ whitespace c = false := by
  simp [plain]

/-- No separator begins at a character of an entry. -/
theorem match_comma_none (h : plain c = true) : commaPattern.match_ (c :: s) = none := by
  obtain ⟨hc, hw⟩ := plain_iff.mp h
  cases hm : commaPattern.match_ (c :: s) with
  | none => rfl
  | some m =>
    obtain ⟨m', hm', hrest⟩ := Pattern.mem_run_seq.mp (Pattern.mem_of_match hm)
    obtain ⟨w, hs, -, -, -, hall⟩ := Pattern.mem_run_chars.mp hm'
    obtain ⟨m'', hm'', -⟩ := Pattern.mem_run_seq.mp hrest
    obtain ⟨hlit, -⟩ := Pattern.mem_run_lit.mp hm''
    cases w with
    | nil =>
      rw [List.nil_append] at hs
      rw [← hs] at hlit
      exact absurd (List.cons.inj hlit).1 hc
    | cons x w =>
      obtain ⟨rfl, -⟩ := List.cons.inj hs
      exact absurd (hall c (by simp)) (by simp [hw])

/-- A comma with all the white space around it is one separator. -/
theorem match_comma {w w' : Str} (hw : ∀ c ∈ w, whitespace c = true)
    (hw' : ∀ c ∈ w', whitespace c = true) (hs : ∀ c ∈ s.head?, plain c = true) :
    commaPattern.match_ (w ++ ',' :: w' ++ s) = some ⟨s, []⟩ := by
  have hfirst : ((Pattern.chars whitespace 0 none).run (w ++ (',' :: (w' ++ s))) []).head? =
      some ⟨',' :: (w' ++ s), []⟩ :=
    Pattern.head?_chars hw (Nat.zero_le _) (by simp) (by simp [whitespace])
  have hlast : ((Pattern.chars whitespace 0 none).run (w' ++ s) []).head? = some ⟨s, []⟩ :=
    Pattern.head?_chars hw' (Nat.zero_le _) (by simp) fun c hc => (plain_iff.mp (hs c hc)).2
  rw [List.append_assoc, List.cons_append]
  exact Pattern.head?_seq hfirst (Pattern.head?_seq (Pattern.head?_lit (t := [',']) _) hlast)

/-- An entry is the beginning of the first part. -/
theorem split_text (h : e.Plain) (s : Str) : commaPattern.split (e.text ++ s) =
    (e.text ++ (commaPattern.split s).headD []) :: (commaPattern.split s).tail := by
  refine Pattern.split_append_of_none fun a b hab hb => ?_
  cases b with
  | nil => exact absurd rfl hb
  | cons c b => exact match_comma_none (h.text c (by rw [hab]; simp))

theorem head?_entriesText (h : e.Plain) (rest : List ((Str × Str) × Entry)) :
    ∀ c ∈ (entriesText e rest).head?, plain c = true := by
  intro c hc
  unfold entriesText at hc
  cases ht : e.text with
  | nil => exact absurd ht h.text_ne
  | cons d t =>
    rw [ht] at hc
    obtain rfl : d = c := by simpa using hc
    exact h.text d (by simp [ht])

theorem split_entriesText {first : Entry} {rest : List ((Str × Str) × Entry)}
    (hfirst : first.Plain) (hrest : ∀ r ∈ rest, r.2.Plain)
    (hspace : ∀ r ∈ rest, ∀ c ∈ r.1.1 ++ r.1.2, whitespace c = true) :
    commaPattern.split (entriesText first rest) = first.text :: rest.map fun r => r.2.text := by
  induction rest generalizing first with
  | nil =>
    rw [entriesText, split_text hfirst]
    simp [Pattern.split, Pattern.between]
  | cons r rest ih =>
    have hr := hrest r (by simp)
    have htail := ih hr (fun q hq => hrest q (by simp [hq])) fun q hq => hspace q (by simp [hq])
    have hsep : commaPattern.split (r.1.1 ++ ',' :: r.1.2 ++ entriesText r.2 rest) =
        [] :: commaPattern.split (entriesText r.2 rest) :=
      Pattern.split_found (by simp) (match_comma
        (fun c hc => hspace r (by simp) c (List.mem_append_left _ hc))
        (fun c hc => hspace r (by simp) c (List.mem_append_right _ hc))
        (head?_entriesText hr rest))
    have htext : entriesText first (r :: rest) =
        first.text ++ (r.1.1 ++ ',' :: r.1.2 ++ entriesText r.2 rest) := by
      simp [entriesText]
    rw [htext, split_text hfirst, hsep, htail]
    simp

theorem getLast?_entriesText {first : Entry} {rest : List ((Str × Str) × Entry)}
    (hfirst : first.Plain) (hrest : ∀ r ∈ rest, r.2.Plain) :
    ∀ c ∈ (entriesText first rest).getLast?, plain c = true := by
  obtain ⟨pre, e, he, htext⟩ : ∃ pre e, Entry.Plain e ∧ entriesText first rest = pre ++ e.text := by
    rcases List.eq_nil_or_concat rest with rfl | ⟨init, r, rfl⟩
    · exact ⟨[], first, hfirst, by simp [entriesText]⟩
    · refine ⟨first.text ++ (init.flatMap fun r => r.1.1 ++ ',' :: r.1.2 ++ r.2.text) ++
        (r.1.1 ++ ',' :: r.1.2), r.2, hrest r (by simp), ?_⟩
      simp [entriesText]
  intro c hc
  rw [htext, List.getLast?_append_of_ne_nil _ he.text_ne] at hc
  exact he.text c (List.mem_of_getLast? hc)

theorem entriesText_ne {first : Entry} (hfirst : first.Plain)
    (rest : List ((Str × Str) × Entry)) : entriesText first rest ≠ [] := by
  rw [entriesText]
  exact List.append_ne_nil_of_left_ne_nil hfirst.text_ne _

namespace Listing

variable (l : Listing)

theorem stripSpace_value : stripSpace l.value = entriesText l.first l.rest :=
  stripSpace_append l.lead_space l.trail_space
    (fun c hc => (plain_iff.mp (head?_entriesText l.first_plain l.rest c hc)).2)
    (fun c hc => (plain_iff.mp (getLast?_entriesText l.first_plain l.rest_plain c hc)).2)
    (entriesText_ne l.first_plain l.rest)

theorem service_names_value : service_names (stripSpace l.value) = l.names := by
  rw [stripSpace_value, service_names,
    split_entriesText l.first_plain l.rest_plain l.rest_space, names, List.map_cons, List.map_cons,
    service_name_text l.first_plain, List.map_map, List.map_map]
  congr 1
  exact List.map_congr_left fun r hr => service_name_text (l.rest_plain r hr)

/-- With strict loading, the listed names that are available services are resolved. -/
theorem enabled_services_value {strict : Str} (hstrict : is_env_not_false strict = true)
    (available : List Str) : enabled_services l.value strict available =
      l.names.filter fun name => name ∈ available := by
  have hne : stripSpace l.value ≠ [] := by
    rw [stripSpace_value]
    exact entriesText_ne l.first_plain l.rest
  simp only [enabled_services]
  rw [if_pos ⟨hne, hstrict⟩, service_names_value]

/-- The sibling resolves all listed names. -/
theorem preloaded_services_value (available : List Str) :
    preloaded_services l.value available = l.names := by
  have hne : stripSpace l.value ≠ [] := by
    rw [stripSpace_value]
    exact entriesText_ne l.first_plain l.rest
  have hnames : l.names ≠ [] := by simp [names]
  simp only [preloaded_services]
  rw [if_pos hne, service_names_value, if_neg hnames]

end Listing

/-! ## What is selected -/

/-- The listed names that are available services or composites. -/
def known (tables : Tables Str) (available names : List Str) : List Str :=
  names.filter fun name => name ∈ available ∨ (tables.composites.get name).isSome

/-- `get_enabled_apis` returns the closure of the listed names that are available services
or meta-services. -/
def Selects (tables : Tables Str) (available : List Str) (strict : Str) (l : Listing) : Prop :=
  ∃ turns result, get_enabled_apis tables turns l.value strict available = some result ∧
    IsLeast {S | Closed tables (known tables available l.names) S} (result : Set Str)

theorem needed_mono {tables : Tables Str} {names names' : List Str}
    (h : ∀ name ∈ names, needed tables [name] ⊆ needed tables names') :
    needed tables names ⊆ needed tables names' := by
  rintro x ⟨hx, i, hi, hpath⟩
  exact h i hi ⟨hx, i, List.mem_singleton_self i, hpath⟩

theorem needed_subset {tables : Tables Str} {names names' : List Str}
    (h : ∀ name ∈ names, name ∈ names') : needed tables names ⊆ needed tables names' := by
  rintro x ⟨hx, i, hi, hpath⟩
  exact ⟨hx, i, h i hi, hpath⟩

/-- A composite adds nothing to its members. -/
theorem needed_composite {tables : Tables Str} {c : Str} {members names : List Str}
    (hc : tables.composites.get c = some members) (h : ∀ m ∈ members, m ∈ names) :
    needed tables [c] ⊆ needed tables names := by
  rintro x ⟨hx, i, hi, hpath⟩
  obtain rfl := List.mem_singleton.mp hi
  rcases hpath.cases_head with rfl | ⟨m, hm, hrest⟩
  · rw [hc] at hx
    cases hx
  · rw [pushed, hc] at hm
    exact ⟨hx, m, h m hm, hrest⟩

/-- **SERVICES selects what it names exactly when no listed meta-service adds anything.**
A meta-service that is not itself an available service is dropped before it is resolved;
this makes no difference where the other listed services already need all of it. -/
theorem selects_iff {tables : Tables Str} (hacyclic : Acyclic tables) (available : List Str)
    {strict : Str} (hstrict : is_env_not_false strict = true) (l : Listing) :
    Selects tables available strict l ↔
      ∀ name ∈ l.names, (tables.composites.get name).isSome → name ∉ available →
        needed tables [name] ⊆ needed tables (l.names.filter fun name => name ∈ available) := by
  have hknown : ∀ {name}, name ∈ l.names → (tables.composites.get name).isSome →
      name ∈ known tables available l.names := by
    intro name hname hcomposite
    simp [known, hname, hcomposite]
  constructor
  · rintro ⟨turns, result, hresult, hleast⟩ name hname hcomposite -
    rw [get_enabled_apis, l.enabled_services_value hstrict] at hresult
    rw [← resolve_apis_eq hresult,
      hleast.unique (isLeast_needed tables (known tables available l.names))]
    exact needed_subset fun n hn => by
      rw [List.mem_singleton.mp hn]
      exact hknown hname hcomposite
  · intro h
    obtain ⟨turns, result, hresult⟩ := exists_resolve_apis hacyclic
      (l.names.filter fun name => name ∈ available)
    refine ⟨turns, result, by rw [get_enabled_apis, l.enabled_services_value hstrict, hresult], ?_⟩
    have heq : needed tables (l.names.filter fun name => name ∈ available) =
        needed tables (known tables available l.names) := by
      refine Set.Subset.antisymm (needed_subset fun n hn => ?_) (needed_mono fun n hn => ?_)
      · obtain ⟨hname, havailable⟩ := List.mem_filter.mp hn
        exact List.mem_filter.mpr ⟨hname, by simpa using .inl (of_decide_eq_true havailable)⟩
      · obtain ⟨hname, hor⟩ := List.mem_filter.mp hn
        by_cases havailable : n ∈ available
        · exact needed_subset fun m hm => by
            rw [List.mem_singleton.mp hm]
            exact List.mem_filter.mpr ⟨hname, by simpa using havailable⟩
        · have hcomposite : (tables.composites.get n).isSome := by
            rcases of_decide_eq_true hor with ha | hc
            · exact absurd ha havailable
            · exact hc
          exact h n hname hcomposite havailable
    rw [resolve_apis_eq hresult, heq]
    exact isLeast_needed tables (known tables available l.names)

/-- `s3 , dynamodb:4566,cognito-idp,cognito,cognito-identity`. -/
def storageServices : Listing where
  lead := []
  first := ⟨"s3".toList, none⟩
  rest := [((" ".toList, " ".toList), ⟨"dynamodb".toList, some (':', "4566".toList)⟩),
    (([], []), ⟨"cognito-idp".toList, none⟩), (([], []), ⟨"cognito".toList, none⟩),
    (([], []), ⟨"cognito-identity".toList, none⟩)]
  trail := []
  first_plain := ⟨by decide, by decide, by simp⟩
  rest_plain := by
    rw [List.forall_mem_cons]
    constructor
    · refine ⟨by decide, by decide, fun mark port h => ?_⟩
      obtain ⟨rfl, rfl⟩ := Prod.mk.inj (Option.some.inj h)
      decide
    · simp only [List.forall_mem_cons]
      exact ⟨⟨by decide, by decide, by simp⟩, ⟨by decide, by decide, by simp⟩,
        ⟨by decide, by decide, by simp⟩, by simp⟩
  lead_space := by simp
  rest_space := by decide
  trail_space := by simp

/-- The listed meta-service is no available service, but its members are listed as well. -/
theorem storageServices_selected : Selects apiTables ["s3".toList, "dynamodb".toList,
    "cognito-idp".toList, "cognito-identity".toList] [] storageServices := by
  refine (selects_iff apiTables_acyclic _ (by decide) _).mpr fun name hname hcomposite _ => ?_
  have honly : ∀ name ∈ storageServices.names, (apiTables.composites.get name).isSome = true →
      name = "cognito".toList := by decide
  rw [honly name hname hcomposite]
  have hmembers : apiTables.composites.get "cognito".toList =
      some ["cognito-idp".toList, "cognito-identity".toList] := rfl
  exact needed_composite hmembers (by decide)

def serverless : Listing where
  lead := []
  first := ⟨"serverless".toList, none⟩
  rest := []
  trail := []
  first_plain := ⟨by decide, by decide, by simp⟩
  rest_plain := by simp
  lead_space := by simp
  rest_space := by simp
  trail_space := by simp

/-- The meta-service is dropped, and nothing is enabled. -/
theorem serverless_not_selected :
    ¬ Selects apiTables ["s3".toList, "lambda".toList] [] serverless := by
  rintro ⟨turns, result, hresult, hleast⟩
  rw [get_enabled_apis, serverless.enabled_services_value (by decide)] at hresult
  have hnothing : (serverless.names.filter fun name =>
      decide (name ∈ ["s3".toList, "lambda".toList])) = [] := by decide
  rw [hnothing, resolve_apis, List.reverse_nil, resolve_loop_eq, search_nil] at hresult
  obtain rfl := Option.some.inj hresult
  have hmember : Member apiTables "serverless".toList "s3".toList :=
    ⟨_, rfl, by decide⟩
  have hs3 := hleast.1.requested "serverless".toList (by decide) "s3".toList
    ⟨.single hmember, by decide⟩
  simp at hs3

end LocalStack.Utils.Bootstrap
