import LocalStack.Aws.JsonLoads
import LocalStack.Lib.HttpHeaders

/-! The data that goes with the calls of an internal client: `aws/connect.py` takes it
off the parameters of the call and writes it to a header, from which
`InternalRequestParamsEnricher` of `aws/handlers/internal_requests.py` reads it. -/

namespace LocalStack.Aws.Connect
open LocalStack.Text LocalStack.OrderedDict LocalStack.HttpHeaders
open LocalStack.Aws.JsonText LocalStack.Aws.JsonLoads

/-! ## Client -/

abbrev InternalRequestParameters := Dict Str Value

/-- `InternalRequestParameters.__annotations__`. -/
def annotations : List Str := ["source_arn".toList, "service_principal".toList]

/-- `part.title()`, for a word of letters. -/
def title : Str → Str
  | [] => []
  | c :: s => c.toUpper :: s.map Char.toLower

/-- The name of the parameter of a member. -/
def parameterName (member : Str) : Str := '_' :: (member.splitOn '_').flatMap title

example : annotations.map parameterName =
    ["_SourceArn".toList, "_ServicePrincipal".toList] := by decide

/-- One round of `_handler_create_request_parameters`: a parameter becomes a member. -/
def takeMember (r : Dict Str Value × InternalRequestParameters) (member : Str) :
    Dict Str Value × InternalRequestParameters :=
  match r.1.get (parameterName member) with
  | some v => (r.1.erase (parameterName member), r.2.set member v)
  | none => r

/-- `_handler_create_request_parameters`: what becomes of the parameters of the call,
and the data. -/
def create_request_parameters (params : Dict Str Value) :
    Dict Str Value × InternalRequestParameters :=
  annotations.foldl takeMember (params, [])

/-- `dump_dto`. -/
def dump_dto (reprFloat : ℚ → Str) (data : InternalRequestParameters) : Except Error Str :=
  dumps compact reprFloat (.dict data)

def INTERNAL_REQUEST_PARAMS_HEADER : Str := "x-localstack-data".toList

/-- `_handler_inject_dto_header`, for a context that has the data. -/
def inject_dto_header (reprFloat : ℚ → Str) (headers : Headers)
    (dto : InternalRequestParameters) : Except Error Headers :=
  (dump_dto reprFloat dto).map fun text => headers.set INTERNAL_REQUEST_PARAMS_HEADER text

/-- `request_metadata(..)`: the parameters that the methods of the client are given.
An argument that is not true is not kept. -/
def request_metadata (source_arn service_principal : Option Str) : Dict Str Value :=
  (match source_arn with
    | some (c :: arn) => [("_SourceArn".toList, .str (c :: arn))]
    | _ => []) ++
  match service_principal with
  | some (c :: principal) => [("_ServicePrincipal".toList, .str (c :: principal))]
  | _ => []

/-- `partial(target, **params)`, called with other arguments. -/
def withArguments (params kwargs : Dict Str Value) : Dict Str Value :=
  kwargs.foldl (fun d p => d.set p.1 p.2) params

/-- The parameters of the operation and the headers of the request. -/
def send (reprFloat : ℚ → Str) (params : Dict Str Value) (headers : Headers) :
    Except Error (Dict Str Value × Headers) :=
  let (params, dto) := create_request_parameters params
  (inject_dto_header reprFloat headers dto).map fun headers => (params, headers)

/-! ## Server -/

/-- `InternalRequestParamsEnricher`: the `internal_request_params` of the context. Only a
mapping is wrapped, and a header that cannot be loaded is ignored. -/
def enrich (parse_float : Str → Option Value) (headers : Headers)
    (internal_request_params : Option InternalRequestParameters) :
    Option InternalRequestParameters :=
  match headers.get INTERNAL_REQUEST_PARAMS_HEADER with
  | none | some [] => internal_request_params
  | some header =>
    match loads parse_float header with
    | some (.dict dto) => some dto
    | _ => internal_request_params

/-! ## From the client to the server -/

section
variable {r : Dict Str Value × InternalRequestParameters} {member name : Str}

theorem params_takeMember (k : Str) :
    (takeMember r member).1.get k = if k = parameterName member then none else r.1.get k := by
  unfold takeMember
  split
  · exact Dict.get_erase _ _ _
  · rename_i hnone
    split
    · rename_i hk
      rw [hk]
      exact hnone
    · rfl

theorem dto_takeMember : (takeMember r member).2.get name =
    if name = member then (r.1.get (parameterName member)).or (r.2.get name) else r.2.get name := by
  unfold takeMember
  split
  · rename_i v hv
    rw [Dict.get_set, hv]
    by_cases hname : name = member
    · simp [hname]
    · simp [hname, Ne.symm hname]
  · rename_i hnone
    simp [hnone]

/-- The members whose parameters are there are taken off the parameters. -/
theorem foldl_takeMember {members : List Str} (hm : (members.map parameterName).Nodup) :
    (∀ k, (members.foldl takeMember r).1.get k =
      if k ∈ members.map parameterName then none else r.1.get k) ∧
    ∀ name, (members.foldl takeMember r).2.get name =
      if name ∈ members then (r.1.get (parameterName name)).or (r.2.get name)
      else r.2.get name := by
  induction members generalizing r with
  | nil => simp
  | cons m members ih =>
    rw [List.map_cons, List.nodup_cons] at hm
    obtain ⟨hparams, hdto⟩ := @ih (takeMember r m) hm.2
    refine ⟨fun k => ?_, fun name => ?_⟩
    · rw [List.foldl_cons, hparams, params_takeMember]
      simp only [List.map_cons, List.mem_cons]
      by_cases hk : k = parameterName m
      · simp [hk]
      · simp [hk]
    · rw [List.foldl_cons, hdto, params_takeMember, dto_takeMember]
      simp only [List.mem_cons]
      by_cases hname : name = m
      · subst hname
        have hout : name ∉ members := fun h => hm.1 (List.mem_map_of_mem h)
        simp [hout]
      · by_cases hmem : name ∈ members
        · have hne : parameterName name ≠ parameterName m := fun h =>
            hm.1 (h ▸ List.mem_map_of_mem hmem)
          simp [hname, hmem, hne]
        · simp [hname, hmem]

theorem wf_foldl_takeMember {members : List Str} (hr : r.2.WF) :
    (members.foldl takeMember r).2.WF := by
  induction members generalizing r with
  | nil => exact hr
  | cons m members ih =>
    refine ih ?_
    unfold takeMember
    split
    · exact Dict.wf_set hr _ _
    · exact hr

end

theorem get_params (params : Dict Str Value) (k : Str) :
    (create_request_parameters params).1.get k =
      if k ∈ annotations.map parameterName then none else params.get k :=
  (@foldl_takeMember (params, []) annotations (by decide)).1 k

theorem get_dto (params : Dict Str Value) (name : Str) :
    (create_request_parameters params).2.get name =
      if name ∈ annotations then params.get (parameterName name) else none := by
  have h := (@foldl_takeMember (params, []) annotations (by decide)).2 name
  simpa [create_request_parameters] using h

/-- The data can be written if its parameters can. -/
theorem writable_dto {params : Dict Str Value}
    (hv : ∀ name ∈ annotations, ∀ v, params.get (parameterName name) = some v → Writable v) :
    Writable (.dict (create_request_parameters params).2) := by
  have hwf : (create_request_parameters params).2.WF := wf_foldl_takeMember Dict.wf_nil
  refine .dict hwf fun p hp => ?_
  have hget := Dict.get_of_mem hwf hp
  rw [get_dto] at hget
  split at hget
  · rename_i hname
    exact hv p.1 hname p.2 hget
  · cases hget

/-- **The data of an internal call.** Whatever the members are set to, the call is internal
to the server, which finds each of them under its name. The operation gets the other
parameters, and the text in the header is printable. -/
theorem internal_call_seen (parse_float : Str → Option Value) (reprFloat : ℚ → Str)
    (params : Dict Str Value) (headers : Headers) (before : Option InternalRequestParameters)
    (hv : ∀ name ∈ annotations, ∀ v, params.get (parameterName name) = some v → Writable v) :
    ∃ params' headers' dto text, send reprFloat params headers = .ok (params', headers') ∧
      headers'.get INTERNAL_REQUEST_PARAMS_HEADER = some text ∧ Printable text ∧
      enrich parse_float headers' before = some dto ∧
      (∀ name, dto.get name =
        if name ∈ annotations then params.get (parameterName name) else none) ∧
      ∀ k, params'.get k = if k ∈ annotations.map parameterName then none else params.get k := by
  have hprintable : Printable compact.item ∧ Printable compact.key := by
    unfold Printable
    decide
  have hw := writable_dto hv
  obtain ⟨text, htext, hp⟩ := @exists_dumps compact reprFloat hprintable.1 hprintable.2 _ hw
  have hload : loads parse_float text = some (.dict (create_request_parameters params).2) :=
    loads_dumps compact_spaced reprFloat hw htext
  have hget : (headers.set INTERNAL_REQUEST_PARAMS_HEADER text).get INTERNAL_REQUEST_PARAMS_HEADER =
      some text := Headers.get_set_self _ _ _
  refine ⟨(create_request_parameters params).1, headers.set INTERNAL_REQUEST_PARAMS_HEADER text,
    (create_request_parameters params).2, text, ?_, hget, hp, ?_, get_dto params, get_params params⟩
  · simp [send, inject_dto_header, dump_dto, htext, Except.map]
  · rw [enrich, hget]
    cases text with
    | nil => cases hload
    | cons c text => simp only [hload]

theorem get_withArguments {params kwargs : Dict Str Value} {k : Str} (hk : k ∉ kwargs.keys) :
    (withArguments params kwargs).get k = params.get k := by
  rw [withArguments]
  induction kwargs generalizing params with
  | nil => rfl
  | cons p kwargs ih =>
    rw [Dict.keys_cons, List.mem_cons, not_or] at hk
    rw [List.foldl_cons, ih hk.2, Dict.get_set_ne _ _ (Ne.symm hk.1)]

/-- A client with metadata sets the members, unless the call itself does. -/
theorem metadata_parameters (source_arn service_principal : Option Str) {kwargs : Dict Str Value}
    (hk : ∀ name ∈ annotations, parameterName name ∉ kwargs.keys) :
    let params := withArguments (request_metadata source_arn service_principal) kwargs
    params.get (parameterName "source_arn".toList) = (source_arn.filter (· ≠ [])).map .str ∧
      params.get (parameterName "service_principal".toList) =
        (service_principal.filter (· ≠ [])).map .str := by
  intro params
  rw [get_withArguments (hk _ (by decide)), get_withArguments (hk _ (by decide))]
  rcases source_arn with _ | _ | ⟨c, arn⟩ <;> rcases service_principal with _ | _ | ⟨c', p⟩ <;>
    exact ⟨rfl, rfl⟩

/-- A queue calls on behalf of a topic. -/
theorem topic_call_seen : ∃ params' headers' dto text,
    send (fun _ => []) (withArguments (request_metadata (some "arn:aws:sns:é\r\n".toList) none)
      [("QueueUrl".toList, .str "q".toList)]) [] = .ok (params', headers') ∧
    Printable text ∧ headers'.get INTERNAL_REQUEST_PARAMS_HEADER = some text ∧
    enrich (fun _ => none) headers' none = some dto ∧
    dto.get "source_arn".toList = some (.str "arn:aws:sns:é\r\n".toList) ∧
    params'.get "QueueUrl".toList = some (.str "q".toList) := by
  obtain ⟨params', headers', dto, text, hsend, hget, hp, hdto, hmember, hparams⟩ :=
    internal_call_seen (fun _ => none) (fun _ => []) (withArguments
      (request_metadata (some "arn:aws:sns:é\r\n".toList) none)
      [("QueueUrl".toList, .str "q".toList)]) [] none (by
    intro name hname v hv
    rcases List.mem_pair.mp hname with rfl | rfl
    · cases hv
      exact .str _
    · cases hv)
  exact ⟨params', headers', dto, text, hsend, hp, hget, hdto, hmember _, hparams _⟩

end LocalStack.Aws.Connect
