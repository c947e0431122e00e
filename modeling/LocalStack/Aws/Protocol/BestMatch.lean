import LocalStack.Aws.Protocol.RouterMemory
import LocalStack.Lib.Lists
import Mathlib.Data.Finset.Card

/-! What a fresh REST router selects: among several operations of one path and
method the best match, and a single operation without looking at its arguments. -/

namespace LocalStack.Aws.Protocol.OpRouter
open LocalStack.Text LocalStack.Url LocalStack.OrderedDict LocalStack.Lists

/-! ## Requirements of an operation -/

/-- The arguments that the request URI of an operation has itself. -/
def uriArgs (op : OperationModel) : List (Str × Str) :=
  match (operationUri op).splitOn '?' with
  | _ :: query :: _ => parse_qsl query
  | _ => []

def Location.headerName : Location → Option Str
  | .header name => some name
  | _ => none

def Location.queryName : Location → Option Str
  | .querystring name => some name
  | _ => none

/-- The names that required members are bound to at one kind of location. -/
def boundNames (op : OperationModel) (bound : Location → Option Str) : List Str :=
  match op.input_shape with
  | some shape => shape.required_members.filterMap fun r => (shape.members.get r).bind bound
  | none => []

def requiredQueryNames (op : OperationModel) : Finset Str :=
  ((uriArgs op).map Prod.fst ++ boundNames op Location.queryName).toFinset

def requiredHeaders (op : OperationModel) : List Str := boundNames op Location.headerName

/-- The request has the required query arguments, with the constant values that
the request URI gives, and the required headers. -/
structure Satisfied (op : OperationModel) (req : Request) : Prop where
  args : ∀ key ∈ requiredQueryNames op, req.hasArg key = true
  values : ∀ p ∈ uriArgs op, p.2 ≠ [] → p.2 ∈ req.getlist p.1
  headers : ∀ name ∈ requiredHeaders op, req.hasHeader name = true

/-- Twice the number of required arguments, one less for a deprecated operation. -/
def score (op : OperationModel) : Int :=
  2 * ((requiredQueryNames op).card + (requiredHeaders op).length : Nat) -
    if op.deprecated then 1 else 0

/-- The operations of a path and a method in the order of the specification. -/
def operationsOf (service : ServiceModel) (path method : Str) : List OperationModel :=
  service.operations.filter fun op => ((from_operation op).path, op.method) = (path, method)

/-- The first of the operations with the best score whose requirements are met. -/
abbrev BestMatch (req : Request) (group : List OperationModel) (op : OperationModel) : Prop :=
  FirstBest (Satisfied · req) score group op

/-! ## Requirements of a rule -/

theorem mem_remaining_requiredQueryArgs {query : Str} {p : Str × RequiredValues}
    (h : p ∈ requiredQueryArgs query) (v : Str) :
    v ∈ p.2.remaining ↔ (p.1, v) ∈ parse_qsl query ∧ v ≠ [] := by
  obtain ⟨⟨key, values⟩, hmem, rfl⟩ := List.mem_map.mp h
  have hvalues : values = ((parse_qsl query).filter (·.1 = key)).map Prod.snd :=
    Dict.eq_of_mem_foldl_append Prod.fst Prod.snd hmem
  simp [RequiredValues.remaining, hvalues]

theorem keys_requiredQueryArgs (query : Str) :
    (requiredQueryArgs query).keys = (parse_qs query).keys := by
  simp [requiredQueryArgs, Dict.keys]

theorem mem_keys_requiredQueryArgs (query key : Str) :
    key ∈ (requiredQueryArgs query).keys ↔ key ∈ (parse_qsl query).map Prod.fst := by
  have hmem := Dict.mem_keys_foldl_append Prod.fst Prod.snd (parse_qsl query) [] key
  rw [keys_requiredQueryArgs, parse_qs, hmem]
  simp

theorem wf_requiredQueryArgs (query : Str) : (requiredQueryArgs query).WF := by
  rw [Dict.WF, keys_requiredQueryArgs]
  exact Dict.wf_foldl_append Prod.fst Prod.snd (parse_qsl query) Dict.wf_nil

/-- What the loop over the required members adds. -/
structure Added (shape : InputShape) (rs : List Str) (args args' : Dict Str RequiredValues × List Str) :
    Prop where
  wf : args'.1.WF
  headers : args'.2 = args.2 ++ rs.filterMap fun r => (shape.members.get r).bind Location.headerName
  keys : ∀ key, key ∈ args'.1.keys ↔
    key ∈ args.1.keys ∨ key ∈ rs.filterMap fun r => (shape.members.get r).bind Location.queryName
  entries : ∀ P : Str × RequiredValues → Prop, (∀ key, P (key, .present)) →
    ((∀ p ∈ args'.1, P p) ↔ ∀ p ∈ args.1, P p)

theorem added_one (shape : InputShape) (r : Str) (args : Dict Str RequiredValues × List Str)
    (hd : args.1.WF) : Added shape [r] args (addRequiredMember shape args r) := by
  rw [addRequiredMember]
  cases hr : shape.members.get r with
  | none => exact ⟨hd, by simp [hr], by simp [hr], fun _ _ => Iff.rfl⟩
  | some location =>
    cases location with
    | other =>
      exact ⟨hd, by simp [hr, Location.headerName], by simp [hr, Location.queryName],
        fun _ _ => Iff.rfl⟩
    | header name =>
      exact ⟨hd, by simp [hr, Location.headerName], by simp [hr, Location.queryName],
        fun _ _ => Iff.rfl⟩
    | querystring name =>
      by_cases hname : name ∈ args.1.keys
      · simp only [hname, if_true]
        refine ⟨hd, by simp [hr, Location.headerName], fun key => ?_, fun _ _ => Iff.rfl⟩
        constructor
        · exact Or.inl
        · rintro (hkey | hkey)
          · exact hkey
          · obtain rfl : key = name := by simpa [hr, Location.queryName] using hkey
            exact hname
      · simp only [hname, if_false]
        refine ⟨Dict.wf_set hd name .present, by simp [hr, Location.headerName], fun key => ?_, ?_⟩
        · rw [Dict.mem_keys_set]
          simp [hr, Location.queryName, or_comm]
        · intro P hP
          rw [Dict.set_of_not_mem _ _ hname, List.forall_mem_append]
          simp [hP name]

theorem added_foldl (shape : InputShape) (rs : List Str)
    (args : Dict Str RequiredValues × List Str) (hd : args.1.WF) :
    Added shape rs args (rs.foldl (addRequiredMember shape) args) := by
  induction rs generalizing args with
  | nil => exact ⟨hd, by simp, by simp, fun _ _ => Iff.rfl⟩
  | cons r rs ih =>
    have hone := added_one shape r args hd
    have hrest := ih (addRequiredMember shape args r) hone.wf
    refine ⟨hrest.wf, ?_, fun key => ?_, fun P hP => ?_⟩
    · rw [List.foldl_cons, hrest.headers, hone.headers, List.append_assoc, ← List.filterMap_append,
        List.singleton_append]
    · rw [List.foldl_cons, hrest.keys, hone.keys, or_assoc, ← List.mem_append,
        ← List.filterMap_append, List.singleton_append]
    · rw [List.foldl_cons, hrest.entries P hP, hone.entries P hP]

/-! ## The rule of an operation -/

/-- The arguments that the rule of an operation requires, as the loops of
`from_operation` collect them. -/
structure Requires (op : OperationModel) (args : Dict Str RequiredValues × List Str) : Prop where
  wf : args.1.WF
  keys : ∀ key, key ∈ args.1.keys ↔ key ∈ requiredQueryNames op
  headers : args.2 = requiredHeaders op
  values : ∀ req : Request, (∀ p ∈ args.1, ∀ v ∈ p.2.remaining, v ∈ req.getlist p.1) ↔
    ∀ p ∈ uriArgs op, p.2 ≠ [] → p.2 ∈ req.getlist p.1

theorem values_requiredQueryArgs (query : Str) (req : Request) :
    (∀ p ∈ requiredQueryArgs query, ∀ v ∈ p.2.remaining, v ∈ req.getlist p.1) ↔
      ∀ p ∈ parse_qsl query, p.2 ≠ [] → p.2 ∈ req.getlist p.1 := by
  constructor
  · rintro h ⟨key, v⟩ hp hv
    have hkey := (mem_keys_requiredQueryArgs query key).mpr (List.mem_map_of_mem hp)
    obtain ⟨q, hq, rfl⟩ := List.mem_map.mp hkey
    exact h q hq v ((mem_remaining_requiredQueryArgs hq v).mpr ⟨hp, hv⟩)
  · intro h p hp v hv
    obtain ⟨hmem, hne⟩ := (mem_remaining_requiredQueryArgs hp v).mp hv
    exact h (p.1, v) hmem hne

/-- The query arguments before the loop over the required members. -/
def uriQueryArgs (op : OperationModel) : Dict Str RequiredValues :=
  match (operationUri op).splitOn '?' with
  | _ :: query :: _ => requiredQueryArgs query
  | _ => []

theorem uriQueryArgs_spec (op : OperationModel) :
    (uriQueryArgs op).WF ∧
    (∀ key, key ∈ (uriQueryArgs op).keys ↔ key ∈ (uriArgs op).map Prod.fst) ∧
    ∀ req : Request, (∀ p ∈ uriQueryArgs op, ∀ v ∈ p.2.remaining, v ∈ req.getlist p.1) ↔
      ∀ p ∈ uriArgs op, p.2 ≠ [] → p.2 ∈ req.getlist p.1 := by
  rw [uriQueryArgs, uriArgs]
  rcases (operationUri op).splitOn '?' with _ | ⟨path, _ | ⟨query, rest⟩⟩
  · exact ⟨Dict.wf_nil, by simp, by simp⟩
  · exact ⟨Dict.wf_nil, by simp, by simp⟩
  · exact ⟨wf_requiredQueryArgs query, mem_keys_requiredQueryArgs query,
      values_requiredQueryArgs query⟩

theorem from_operation_requires (op : OperationModel) :
    Requires op ((from_operation op).query_args, (from_operation op).header_args) := by
  obtain ⟨hwf, hkeys, hvalues⟩ := uriQueryArgs_spec op
  have hargs : ((from_operation op).query_args, (from_operation op).header_args) =
      match op.input_shape with
      | some shape => shape.required_members.foldl (addRequiredMember shape) (uriQueryArgs op, [])
      | none => (uriQueryArgs op, []) := rfl
  rw [hargs]
  cases hshape : op.input_shape with
  | none =>
    exact ⟨hwf, by simp [hkeys, requiredQueryNames, boundNames, hshape],
      by simp [requiredHeaders, boundNames, hshape], hvalues⟩
  | some shape =>
    have hadded := added_foldl shape shape.required_members (uriQueryArgs op, []) hwf
    refine ⟨hadded.wf, fun key => ?_, ?_, fun req => ?_⟩
    · rw [hadded.keys, hkeys, requiredQueryNames, List.mem_toFinset, List.mem_append, boundNames,
        hshape]
    · simpa [requiredHeaders, boundNames, hshape] using hadded.headers
    · rw [← hvalues]
      exact hadded.entries (fun p => ∀ v ∈ p.2.remaining, v ∈ req.getlist p.1)
        (by simp [RequiredValues.remaining])

theorem satisfied_iff (op : OperationModel) (req : Request) :
    ((RequiredArgsRule.new (from_operation op)).present req &&
      (RequiredArgsRule.new (from_operation op)).valuesMet req) = true ↔ Satisfied op req := by
  have h := from_operation_requires op
  have hargs : (∀ p ∈ (from_operation op).query_args, req.hasArg p.1 = true) ↔
      ∀ key ∈ requiredQueryNames op, req.hasArg key = true := by
    simp only [← h.keys, Dict.keys, List.forall_mem_map]
  have hheaders : (∀ name ∈ (from_operation op).header_args, req.hasHeader name = true) ↔
      ∀ name ∈ requiredHeaders op, req.hasHeader name = true := by
    rw [← h.headers]
  simp only [RequiredArgsRule.present, RequiredArgsRule.valuesMet, RequiredArgsRule.new,
    Bool.and_eq_true, List.all_eq_true, decide_eq_true_eq]
  rw [hargs, hheaders, h.values req]
  constructor
  · rintro ⟨⟨ha, hh⟩, hv⟩
    exact ⟨ha, hv, hh⟩
  · rintro ⟨ha, hv, hh⟩
    exact ⟨⟨ha, hh⟩, hv⟩

theorem match_score_eq (op : OperationModel) :
    (RequiredArgsRule.new (from_operation op)).match_score = 10 + 5 * score op := by
  have h := from_operation_requires op
  have hcard : (from_operation op).query_args.length = (requiredQueryNames op).card := by
    have hset : (from_operation op).query_args.keys.toFinset = requiredQueryNames op := by
      ext key
      rw [List.mem_toFinset, h.keys]
    rw [← hset, List.toFinset_card_of_nodup h.wf, Dict.keys, List.length_map]
  have hlen : (from_operation op).header_args.length = (requiredHeaders op).length :=
    congrArg List.length h.headers
  have hdep : (from_operation op).deprecated = op.deprecated := rfl
  simp only [RequiredArgsRule.new, score, hcard, hlen, hdep]
  split_ifs <;> omega

/-- The first match in score order is the best one. -/
theorem match_request_best (req : Request) (group : List OperationModel) :
    let found := (match_request req (sortRules (group.map fun op => .new (from_operation op)))).1
    (∀ op, found = some op → BestMatch req group op) ∧
      (found = none ↔ ∀ op ∈ group, ¬Satisfied op req) := by
  rw [match_request_fst]
  refine ⟨fun op hop => ?_, ?_⟩
  · obtain ⟨rule, hrule, rfl⟩ := Option.map_eq_some_iff.mp hop
    obtain ⟨op, rfl, hbest⟩ := (firstBest_of_find?_insertionSort hrule).of_map
    obtain ⟨before, after, hsplit, hbefore, hafter⟩ := hbest.split
    simp only [satisfied_iff, match_score_eq] at hbefore hafter
    refine ⟨(satisfied_iff op req).mp hbest.holds, before, after, hsplit, fun y hy hs => ?_,
      fun y hy hs => ?_⟩
    · have hlt := hbefore y hy hs
      show score y < score op
      omega
    · have hle := hafter y hy hs
      show score y ≤ score op
      omega
  · simp only [Option.map_eq_none_iff, List.find?_eq_none, sortRules, List.mem_insertionSort,
      List.forall_mem_map, satisfied_iff]

/-! ## Selection -/

/-- The path match of a request leads to the rule of a path and a method. -/
def RoutesTo (matcher : PathMatcher) (service : ServiceModel) (req : Request) (path method : Str)
    (args : Dict Str Str) : Prop :=
  ∃ index, routePath matcher (create_service_map service) req = .rule index args ∧
    (pathIndex service.operations).keys[index]? = some (path, method)

/-- The rule of a path and a method is made from their operations. -/
theorem rule_of_key {service : ServiceModel} {path method : Str} {index : Nat}
    (h : (pathIndex service.operations).keys[index]? = some (path, method)) :
    (create_service_map service)[index]? =
      some (ruleOf ((path, method), (operationsOf service path method).map from_operation)) := by
  rw [Dict.keys, List.getElem?_map, Option.map_eq_some_iff] at h
  obtain ⟨⟨key, ops⟩, hget, rfl⟩ := h
  have hops := group_of_mem_pathIndex (List.mem_of_getElem? hget)
  rw [create_service_map, List.getElem?_map, hget]
  simp only at hops
  rw [Option.map_some, hops]
  rfl

theorem ruleOf_several {key : Str × Str} {group : List OperationModel} (h : 2 ≤ group.length) :
    (ruleOf (key, group.map from_operation)).endpoint =
      .rules (sortRules (group.map fun op => .new (from_operation op))) := by
  match group, h with
  | op :: op' :: group, _ => simp [ruleOf, Function.comp_def]

/-- **Best match.** A fresh router returns the best match among several
operations of a path and a method, and the only operation in any case. -/
theorem match_best (matcher : PathMatcher) (service : ServiceModel) (req : Request)
    (path method : Str) (args : Dict Str Str) (h : RoutesTo matcher service req path method args) :
    let found := ((create_service_map service).match_ matcher req).1
    let group := operationsOf service path method
    (∀ op, group = [op] → found = some (op, postProcess args)) ∧
    (2 ≤ group.length →
      (found = none ↔ ∀ op ∈ group, ¬Satisfied op req) ∧
      ∀ op params, found = some (op, params) → BestMatch req group op ∧ params = postProcess args) := by
  obtain ⟨index, hroute, hkey⟩ := h
  have hrule := rule_of_key hkey
  refine ⟨fun op hgroup => ?_, fun hlen => ?_⟩
  · rw [hgroup] at hrule
    simp only [Router.match_, hroute, hrule, ruleOf, List.map_cons, List.map_nil]
    rfl
  · obtain ⟨hbest, hnone⟩ := match_request_best req (operationsOf service path method)
    have hendpoint := @ruleOf_several (path, method) _ hlen
    rcases hr : ruleOf ((path, method), (operationsOf service path method).map from_operation) with
      ⟨string, rule_method, endpoint⟩
    rw [hr] at hrule hendpoint
    obtain rfl : endpoint = _ := hendpoint
    simp only [Router.match_, hroute, hrule]
    refine ⟨by rw [Option.map_eq_none_iff, hnone], fun op params hfound => ?_⟩
    obtain ⟨op', hop', heq⟩ := Option.map_eq_some_iff.mp hfound
    cases heq
    exact ⟨hbest op hop', rfl⟩

def importApiKeys : OperationModel :=
  ⟨"ImportApiKeys".toList, "POST".toList, "/apikeys?mode=import".toList, none, false, none⟩

def firstRule : PathMatcher := fun _ _ _ => .rule 0 []

theorem match_best_apiKeys :
    BestMatch ⟨"POST".toList, "/apikeys".toList, [("mode".toList, "import".toList)], []⟩
      (operationsOf apiKeys "/apikeys".toList "POST".toList) importApiKeys :=
  ((match_best firstRule apiKeys _ _ _ [] ⟨0, rfl, by decide⟩).2 (by decide)).2 _ [] (by decide) |>.1

def importService : ServiceModel := ⟨[importApiKeys], by decide⟩

/-- The only operation of its path and method is selected without its required
argument. -/
theorem single_operation_unchecked :
    let req : Request := ⟨"POST".toList, "/apikeys".toList, [], []⟩
    RoutesTo firstRule importService req "/apikeys".toList "POST".toList [] ∧
      ((create_service_map importService).match_ firstRule req).1 = some (importApiKeys, []) ∧
      ¬Satisfied importApiKeys req := by
  refine ⟨⟨0, rfl, by decide⟩, by decide, fun h => ?_⟩
  exact absurd ((satisfied_iff _ _).mpr h) (by decide)

end LocalStack.Aws.Protocol.OpRouter
