import LocalStack.Lib.Text
import LocalStack.Services.Plugins
import Mathlib.Data.List.Induction

/-! `ServicePluginErrorCollector` of `services/plugins.py`, and the state that
`ServicePluginManager` reports for a service that is not loaded. -/

namespace LocalStack.Services.PluginErrors
open LocalStack.OrderedDict LocalStack.Services.Plugins LocalStack.Text

variable {ε : Type}

/-! ## The collector -/

/-- A tuple of one or two texts. -/
abbrev Key := List Str

def get_key (plugin_name : Str) : Key :=
  match partition ':' plugin_name with
  | (name, [], _) => [name]
  | (api, _, provider) => [api, provider]

abbrev ServicePluginErrorCollector (ε : Type) := Dict Key ε

/-- The unpacking of a key that is not a pair. -/
inductive ValueError
  | not_enough_values_to_unpack
  deriving DecidableEq, Repr

namespace ServicePluginErrorCollector

def on_resolve_exception (errors : ServicePluginErrorCollector ε) (name : Str) (exception : ε) :
    ServicePluginErrorCollector ε := errors.set (get_key name) exception

def on_init_exception (errors : ServicePluginErrorCollector ε) (name : Str) (exception : ε) :
    ServicePluginErrorCollector ε := errors.set (get_key name) exception

def on_load_exception (errors : ServicePluginErrorCollector ε) (name : Str) (exception : ε) :
    ServicePluginErrorCollector ε := errors.set (get_key name) exception

/-- The loop over the keys. -/
def findKey (api : Str) (provider : Option Str) : List Key → Except ValueError Bool
  | [] => .ok false
  | [e_api, e_provider] :: keys =>
    if api = e_api then
      match provider with
      | none | some [] => .ok true
      | some provider => .ok (e_provider = provider)
    else findKey api provider keys
  | _ :: _ => .error .not_enough_values_to_unpack

def has_errors (errors : ServicePluginErrorCollector ε) (api : Str) (provider : Option Str) :
    Except ValueError Bool := findKey api provider errors.keys

end ServicePluginErrorCollector

/-! ## The manager -/

/-- The `_services` of the parent class, the plugins that exist, and the configuration. -/
structure ServicePluginManager (ε : Type) where
  _services : ServiceManager ε
  api_provider_specs : Dict Str (List Str)
  provider_config : Dict Str Str
  default_value : Str
  plugin_errors : ServicePluginErrorCollector ε

namespace ServicePluginManager

variable (m : ServicePluginManager ε)

def get_active_provider (service : Str) : Str :=
  (m.provider_config.get service).getD m.default_value

def list_available : List Str :=
  (m.api_provider_specs.filter fun spec => m.get_active_provider spec.1 ∈ spec.2).map Prod.fst

def exists_ (name : Str) : Bool := name ∈ m.list_available

def get_state (is_api_enabled : Str → Bool) (name : Str) :
    Except ValueError (Option ServiceState) :=
  if String.ofList name ∈ m._services.keys then .ok (m._services.get_state (String.ofList name))
  else if m.exists_ name = false then .ok none
  else (m.plugin_errors.has_errors name (some (m.get_active_provider name))).map fun failed =>
    if failed = true then some .error
    else some (if is_api_enabled name = true then .available else .disabled)

end ServicePluginManager

/-! ## Histories -/

/-- A plugin that is named `<api>:<provider>`. -/
structure PluginName where
  api : Str
  provider : Str
  colon_not_mem : ':' ∉ api

def PluginName.text (p : PluginName) : Str := p.api ++ ':' :: p.provider

inductive Event (ε : Type)
  | resolve (plugin : PluginName) (exception : ε)
  | init (plugin : PluginName) (exception : ε)
  | load (plugin : PluginName) (exception : ε)

def Event.plugin : Event ε → PluginName
  | resolve plugin _ | init plugin _ | load plugin _ => plugin

def Event.exception : Event ε → ε
  | resolve _ exception | init _ exception | load _ exception => exception

open ServicePluginErrorCollector in
def record (errors : ServicePluginErrorCollector ε) : Event ε → ServicePluginErrorCollector ε
  | .resolve plugin exception => on_resolve_exception errors plugin.text exception
  | .init plugin exception => on_init_exception errors plugin.text exception
  | .load plugin exception => on_load_exception errors plugin.text exception

def errors (events : List (Event ε)) : ServicePluginErrorCollector ε := events.foldl record []

/-- An exception was recorded for a provider. -/
def Failed (events : List (Event ε)) (api provider : Str) : Prop :=
  ∃ e ∈ events, e.plugin.api = api ∧ e.plugin.provider = provider

/-- The provider of an api that failed first. -/
def firstFailed (events : List (Event ε)) (api : Str) : Option Str :=
  (events.find? fun e => e.plugin.api = api).map fun e => e.plugin.provider

/-- Recorded errors are found, and the state of the service says so. -/
structure Found (events : List (Event ε)) (api provider : Str) : Prop where
  has_provider : (errors events).has_errors api (some provider) = .ok true ↔
    Failed events api provider
  has_api : (errors events).has_errors api none = .ok true ↔ ∃ p, Failed events api p
  state : ∀ (m : ServicePluginManager ε) is_api_enabled, m.plugin_errors = errors events →
    String.ofList api ∉ m._services.keys → m.exists_ api = true →
    m.get_active_provider api = provider →
      (m.get_state is_api_enabled api = .ok (some .error) ↔ Failed events api provider)

/-- A provider that failed is the one that failed first; for the provider without a name, one of
them failed that has no name. -/
def FailedFirst (events : List (Event ε)) (api provider : Str) : Prop :=
  if provider = [] then firstFailed events api ≠ none → Failed events api []
  else Failed events api provider → firstFailed events api = some provider

/-! ## The keys -/

theorem get_key_text (p : PluginName) : get_key p.text = [p.api, p.provider] := by
  rw [get_key, PluginName.text, partition_append p.colon_not_mem]

theorem record_eq (errors : ServicePluginErrorCollector ε) (e : Event ε) :
    record errors e = errors.set [e.plugin.api, e.plugin.provider] e.exception := by
  cases e with
  | resolve plugin exception => rw [← get_key_text]; rfl
  | init plugin exception => rw [← get_key_text]; rfl
  | load plugin exception => rw [← get_key_text]; rfl

theorem keys_set {κ ν : Type} [DecidableEq κ] (d : Dict κ ν) (k : κ) (v : ν) :
    (d.set k v).keys = if k ∈ d.keys then d.keys else d.keys ++ [k] := by
  induction d with
  | nil => rfl
  | cons p d ih =>
    rw [Dict.set]
    by_cases hp : p.1 = k
    · rw [if_pos hp, if_pos (by simp [hp]), Dict.keys_cons, Dict.keys_cons, hp]
    · rw [if_neg hp, Dict.keys_cons, ih, Dict.keys_cons]
      by_cases hk : k ∈ Dict.keys d
      · rw [if_pos hk, if_pos (List.mem_cons_of_mem _ hk)]
      · rw [if_neg hk, if_neg (by simp [hk, Ne.symm hp]), List.cons_append]

theorem errors_concat (events : List (Event ε)) (e : Event ε) : errors (events ++ [e]) =
    (errors events).set [e.plugin.api, e.plugin.provider] e.exception := by
  rw [errors, List.foldl_append, List.foldl_cons, List.foldl_nil, record_eq, ← errors]

theorem exists_of_mem_keys {events : List (Event ε)} {k : Key} (h : k ∈ (errors events).keys) :
    ∃ api provider, k = [api, provider] := by
  induction events using List.reverseRecOn with
  | nil => exact absurd h List.not_mem_nil
  | append_singleton events e ih =>
    rw [errors_concat, Dict.mem_keys_set] at h
    rcases h with h | h
    · exact ⟨_, _, h⟩
    · exact ih h

/-- The first key of an api is that of its first failure. -/
theorem find?_keys (events : List (Event ε)) (api : Str) :
    (errors events).keys.find? (fun k => k.head? = some api) =
      (firstFailed events api).map fun provider => [api, provider] := by
  induction events using List.reverseRecOn with
  | nil => rfl
  | append_singleton events e ih =>
    have hfirst : firstFailed (events ++ [e]) api = (firstFailed events api).or
        (if e.plugin.api = api then some e.plugin.provider else none) := by
      rw [firstFailed, firstFailed, List.find?_append]
      cases events.find? fun e => e.plugin.api = api with
      | some d => rfl
      | none =>
        by_cases hapi : e.plugin.api = api <;> simp [hapi]
    rw [errors_concat, keys_set, hfirst]
    split
    · next hmem =>
      rw [ih]
      cases hold : firstFailed events api with
      | some provider => rfl
      | none =>
        rw [hold, Option.map_none, List.find?_eq_none] at ih
        have hapi : e.plugin.api ≠ api := fun hapi => ih _ hmem (by simp [hapi])
        simp [hapi]
    · rw [List.find?_append, ih]
      cases firstFailed events api with
      | some provider => rfl
      | none => by_cases hapi : e.plugin.api = api <;> simp [hapi]

/-! ## The loop -/

section
open ServicePluginErrorCollector
variable {keys : List Key} (hkeys : ∀ k ∈ keys, ∃ api provider, k = [api, provider]) (api : Str)
include hkeys

omit hkeys in
theorem findKey_cons (provider : Option Str) (e_api e_provider : Str) (keys : List Key) :
    findKey api provider ([e_api, e_provider] :: keys) =
      if api = e_api then
        match provider with
        | none | some [] => .ok true
        | some provider => .ok (e_provider = provider)
      else findKey api provider keys := rfl

/-- Without a provider, the loop looks for the api. -/
theorem findKey_none : ∀ provider, provider = none ∨ provider = some [] →
    findKey api provider keys = .ok (keys.find? (fun k => k.head? = some api)).isSome := by
  intro provider hprovider
  induction keys with
  | nil => rfl
  | cons k keys ih =>
    rw [List.forall_mem_cons] at hkeys
    obtain ⟨⟨e_api, e_provider, rfl⟩, hkeys⟩ := hkeys
    rw [findKey_cons]
    by_cases hapi : api = e_api
    · rw [if_pos hapi, List.find?_cons_of_pos (by simp [hapi])]
      rcases hprovider with rfl | rfl <;> rfl
    · rw [if_neg hapi, List.find?_cons_of_neg (by simp [Ne.symm hapi]), ih hkeys]

/-- With one, the first key of the api decides. -/
theorem findKey_some {provider : Str} (hprovider : provider ≠ []) :
    findKey api (some provider) keys =
      .ok (decide (keys.find? (fun k => k.head? = some api) = some [api, provider])) := by
  induction keys with
  | nil => rfl
  | cons k keys ih =>
    rw [List.forall_mem_cons] at hkeys
    obtain ⟨⟨e_api, e_provider, rfl⟩, hkeys⟩ := hkeys
    rw [findKey_cons]
    by_cases hapi : api = e_api
    · rw [if_pos hapi, List.find?_cons_of_pos (by simp [hapi])]
      cases provider with
      | nil => exact absurd rfl hprovider
      | cons c provider => simp [hapi]
    · rw [if_neg hapi, List.find?_cons_of_neg (by simp [Ne.symm hapi]), ih hkeys]

end

theorem firstFailed_eq_none_iff {events : List (Event ε)} {api : Str} :
    firstFailed events api = none ↔ ∀ provider, ¬Failed events api provider := by
  rw [firstFailed, Option.map_eq_none_iff, List.find?_eq_none]
  constructor
  · rintro h provider ⟨e, he, hapi, -⟩
    exact h e he (by simpa using hapi)
  · intro h e he hapi
    exact h e.plugin.provider ⟨e, he, by simpa using hapi, rfl⟩

theorem failed_of_firstFailed {events : List (Event ε)} {api provider : Str}
    (h : firstFailed events api = some provider) : Failed events api provider := by
  obtain ⟨e, he, rfl⟩ := Option.map_eq_some_iff.mp h
  exact ⟨e, List.mem_of_find?_eq_some he, by simpa using List.find?_some he, rfl⟩

/-- What `has_errors` returns. -/
theorem has_errors_iff (events : List (Event ε)) (api : Str) (provider : Str) :
    (errors events).has_errors api (some provider) = .ok true ↔
      if provider = [] then firstFailed events api ≠ none
      else firstFailed events api = some provider := by
  have hkeys : ∀ k ∈ (errors events).keys, ∃ api provider, k = [api, provider] :=
    fun k hk => exists_of_mem_keys hk
  rw [ServicePluginErrorCollector.has_errors]
  split
  · next hprovider =>
    rw [findKey_none hkeys api _ (.inr (by rw [hprovider])), find?_keys]
    simp [Option.isSome_iff_ne_none]
  · next hprovider =>
    rw [findKey_some hkeys api hprovider, find?_keys]
    simp

theorem has_errors_none (events : List (Event ε)) (api : Str) :
    (errors events).has_errors api none = .ok true ↔ ∃ provider, Failed events api provider := by
  have hkeys : ∀ k ∈ (errors events).keys, ∃ api provider, k = [api, provider] :=
    fun k hk => exists_of_mem_keys hk
  rw [ServicePluginErrorCollector.has_errors, findKey_none hkeys api none (.inl rfl), find?_keys]
  have hfirst := not_congr (@firstFailed_eq_none_iff _ events api)
  simpa [Option.isSome_iff_ne_none] using hfirst

theorem get_state_iff {events : List (Event ε)} {m : ServicePluginManager ε} {api : Str}
    (herrors : m.plugin_errors = errors events) (hloaded : String.ofList api ∉ m._services.keys)
    (hexists : m.exists_ api = true) (is_api_enabled : Str → Bool) :
    m.get_state is_api_enabled api = .ok (some .error) ↔
      (errors events).has_errors api (some (m.get_active_provider api)) = .ok true := by
  rw [ServicePluginManager.get_state, if_neg hloaded, if_neg (by simp [hexists]), herrors]
  cases (errors events).has_errors api (some (m.get_active_provider api)) with
  | error e => simp [Except.map]
  | ok failed =>
    cases failed with
    | false => by_cases henabled : is_api_enabled api = true <;> simp [Except.map, henabled]
    | true => simp [Except.map]

/-- Errors are found just when the provider failed first. -/
theorem found_iff (events : List (Event ε)) (api provider : Str) :
    Found events api provider ↔ FailedFirst events api provider := by
  have hiff : ((errors events).has_errors api (some provider) = .ok true ↔
      Failed events api provider) ↔ FailedFirst events api provider := by
    rw [has_errors_iff, FailedFirst]
    split
    · next hprovider =>
      rw [hprovider]
      refine ⟨fun h => h.mp, fun h => ⟨h, fun hfailed hnone => ?_⟩⟩
      exact firstFailed_eq_none_iff.mp hnone [] hfailed
    · exact ⟨fun h => h.mpr, fun h => ⟨failed_of_firstFailed, h⟩⟩
  constructor
  · exact fun h => hiff.mp h.has_provider
  · intro h
    refine ⟨hiff.mpr h, has_errors_none events api, ?_⟩
    rintro m is_api_enabled herrors hloaded hexists rfl
    rw [get_state_iff herrors hloaded hexists]
    exact hiff.mpr h

/-- The second provider of an api that failed. -/
theorem second_not_found : ¬Found [Event.load ⟨"sqs".toList, "a".toList, by decide⟩ 1,
    Event.load ⟨"sqs".toList, "b".toList, by decide⟩ 2] "sqs".toList "b".toList := by
  intro h
  have hfailed := h.has_provider.mpr ⟨Event.load ⟨"sqs".toList, "b".toList, by decide⟩ 2,
    by simp, rfl, rfl⟩
  exact absurd hfailed (by decide)

end LocalStack.Services.PluginErrors
