import LocalStack.Aws.Protocol.ServiceRouter
import LocalStack.Lib.Fields

/-! The catalog of the services that have a spec: `aws/spec.py`. The specs are what
`botocore`'s loader finds, by their directories. -/

namespace LocalStack.Aws.Spec
open LocalStack.OrderedDict LocalStack.Sets LocalStack.Text
open LocalStack.Aws.Protocol.ServiceRouter

/-! ## Specs -/

structure Description where
  protocol : Str
  protocols : Option (List Str) := none
  api_version : Str := []
  endpoint_prefix : Str
  signingName : Option Str := none
  targetPrefix : Option Str := none
  operation_names : List Str
  nodup : operation_names.Nodup := by decide
deriving DecidableEq

namespace Description

/-- The protocols that `load_service` accepts. -/
def service_protocols (d : Description) : List Str := d.protocol :: d.protocols.getD []

def signing_name (d : Description) : Str := d.signingName.getD d.endpoint_prefix

end Description

/-- A spec with the name of its service. -/
structure Service where
  service_name : Str
  description : Description
deriving DecidableEq

namespace Service

def model (s : Service) : ServiceModel where
  service_name := s.service_name
  protocol := s.description.protocol
  api_version := s.description.api_version
  operation_names := s.description.operation_names
  targetPrefix := s.description.targetPrefix

end Service

abbrev Directories := Dict Str Description

/-- The name of a service without the protocol of its spec. -/
def serviceName (service : Str) : Str :=
  if service = "sqs-query".toList then "sqs".toList else service

/-- The name of the spec of another protocol. -/
def protocolName (service protocol : Str) : Str := service ++ '-' :: protocol

/-- `load_service`. An unknown protocol is an unknown service, too. -/
def load_service (dirs : Directories) (service : Str) (protocol : Option Str) :
    Except Protocol.ServiceRouter.Error Service :=
  match dirs.get service with
  | none => .error (.UnknownServiceError service)
  | some d =>
    match protocol with
    | none => .ok ⟨serviceName service, d⟩
    | some p =>
      if p ∈ d.service_protocols then .ok ⟨serviceName service, d⟩
      else if ('-' :: p).isSuffixOf service then
        .error (.UnknownServiceProtocolError service p)
      else
        match load_service dirs (protocolName service p) (some p) with
        | .ok s => .ok s
        | .error _ => .error (.UnknownServiceProtocolError service p)
termination_by
  match protocol with
  | some p => if ('-' :: p).isSuffixOf service then 0 else 1
  | none => 0
decreasing_by
  simp [protocolName, *]

def list_services (dirs : Directories) : Except Protocol.ServiceRouter.Error (List Service) :=
  dirs.keys.mapM fun service => load_service dirs service none

/-- `get_service_model_identifier`. -/
def get_service_model_identifier (s : Service) : ServiceModelIdentifier where
  name := s.service_name
  protocol := some s.description.protocol
  protocols := s.description.protocols.filter fun protocols => protocols ≠ []

/-! ## Index -/

/-- The services under their names: `_services`. -/
def services (listed : List Service) : Dict Str (List Service) :=
  Dict.collect id (fun s => [s.service_name]) listed

/-- The two loops that an index is built by. -/
def index (keys : Description → List Str) (listed : List Service) :
    Dict Str (List ServiceModelIdentifier) :=
  Dict.collect get_service_model_identifier (fun s => keys s.description)
    ((services listed).map Prod.snd).flatten

/-- A `ServiceCatalog` with a `LazyServiceCatalogIndex`. -/
def catalog (dirs : Directories) (listed : List Service) : ServiceCatalog where
  get name protocol := (load_service dirs name protocol).map Service.model
  target_prefix_index := index (fun d => (truthy d.targetPrefix).toList) listed
  signing_name_index := index (fun d => [d.signing_name]) listed
  operations_index := index Description.operation_names listed
  endpoint_prefix_index := index (fun d => [d.endpoint_prefix]) listed

/-! ## Lookups -/

section Lookups
variable {dirs : Directories} {listed : List Service} {s : Service} {k : Str}

theorem services_perm (listed : List Service) :
    (((services listed).map Prod.snd).flatten).Perm listed := by
  rw [services, Dict.collect]
  refine (Dict.perm_foldl_append _ _ _ _).trans ?_
  have hitems : (listed.flatMap fun s => [s.service_name].map fun k => (k, s)) =
      listed.map fun s => (s.service_name, s) := List.flatMap_pure_eq_map _ _
  rw [hitems, List.map_map]
  exact .of_eq (List.map_id listed)

/-- An index finds the services that have a key. -/
theorem get_index {keys : Description → List Str} (hkeys : ∀ d, (keys d).Nodup)
    (listed : List Service) (k : Str) :
    (((index keys listed).get k).getD []).Perm
      ((listed.filter fun s => k ∈ keys s.description).map get_service_model_identifier) := by
  rw [index, Dict.get_collect _ _ _ fun s _ => hkeys s.description]
  refine (((services_perm listed).filter _).map _).trans (.of_eq ?_)
  exact congrArg (List.map _) (List.filter_congr fun s _ => decide_eq_decide.mpr Iff.rfl)

/-- Where there are two specs of `sqs`, the second one is found by its protocol. -/
def SqsApart (dirs : Directories) : Prop :=
  ∀ d, dirs.get "sqs-query".toList = some d → d.protocol = "query".toList ∧
    ∃ d', dirs.get "sqs".toList = some d' ∧ "query".toList ∉ d'.service_protocols

theorem list_services_eq (hdirs : dirs.WF) :
    list_services dirs = .ok (dirs.map fun e => ⟨serviceName e.1, e.2⟩) := by
  have hall : ∀ l : Directories, (∀ e ∈ l, dirs.get e.1 = some e.2) →
      l.keys.mapM (fun service => load_service dirs service none) =
        .ok (l.map fun e => ⟨serviceName e.1, e.2⟩) := by
    intro l hl
    induction l with
    | nil => rfl
    | cons e l ih =>
      rw [List.forall_mem_cons] at hl
      have hload : load_service dirs e.1 none = .ok ⟨serviceName e.1, e.2⟩ := by
        rw [load_service, hl.1]
      rw [Dict.keys_cons, List.mapM_cons, hload, ih hl.2]
      rfl
  exact hall dirs fun e he => Dict.get_of_mem hdirs he

/-- What is listed is loaded by its name and its protocol. -/
structure Resolves (dirs : Directories) (listed : List Service) : Prop where
  nodup : listed.Nodup
  loaded : ∀ s ∈ listed,
    load_service dirs s.service_name (some s.description.protocol) = .ok s

theorem load_service_protocol {name : Str} {d : Description} {p : Str}
    (hget : dirs.get name = some d) (hp : p ∈ d.service_protocols) :
    load_service dirs name (some p) = .ok ⟨serviceName name, d⟩ := by
  rw [load_service, hget]
  exact if_pos hp

theorem resolves (hdirs : dirs.WF) (hsqs : SqsApart dirs)
    (hlisted : list_services dirs = .ok listed) : Resolves dirs listed := by
  rw [list_services_eq hdirs, Except.ok.injEq] at hlisted
  subst hlisted
  constructor
  · refine List.Nodup.map_on ?_ (List.Nodup.of_map _ hdirs)
    rintro ⟨name, d⟩ he ⟨name', d'⟩ he' heq
    obtain ⟨hname, rfl⟩ := Service.mk.inj heq
    have hsame : ∀ {name name' : Str}, (name, d) ∈ dirs → (name', d) ∈ dirs →
        name = "sqs-query".toList → serviceName name = serviceName name' →
          name' = "sqs-query".toList := by
      rintro name name' he he' rfl heq
      by_contra hne
      obtain ⟨hquery, d', hget', hnot⟩ := hsqs d (Dict.get_of_mem hdirs he)
      rw [serviceName, if_pos rfl, serviceName, if_neg hne] at heq
      rw [heq, Dict.get_of_mem hdirs he', Option.some.injEq] at hget'
      rw [← hget', ← hquery] at hnot
      exact hnot List.mem_cons_self
    by_cases h : name = "sqs-query".toList
    · rw [h, hsame he he' h hname]
    · have h' : name' ≠ "sqs-query".toList := fun h' => h (hsame he' he h' hname.symm)
      rw [serviceName, if_neg h, serviceName, if_neg h'] at hname
      exact congrArg (·, d) hname
  · intro s hs
    obtain ⟨⟨name, d⟩, he, rfl⟩ := List.mem_map.mp hs
    have hget := Dict.get_of_mem hdirs he
    have hp : d.protocol ∈ d.service_protocols := List.mem_cons_self
    by_cases hname : name = "sqs-query".toList
    · subst hname
      obtain ⟨hquery, d', hget', hnot⟩ := hsqs d hget
      have hload := load_service_protocol hget hp
      rw [hquery] at hload ⊢
      rw [show serviceName "sqs-query".toList = "sqs".toList from rfl, load_service, hget']
      simp only [if_neg hnot]
      rw [if_neg (by decide), show protocolName "sqs".toList "query".toList =
        "sqs-query".toList from rfl, hload]
      rfl
    · simp only [serviceName, if_neg hname]
      rw [load_service_protocol hget hp, serviceName, if_neg hname]

theorem lookup_identifier (hres : Resolves dirs listed) (hs : s ∈ listed) :
    (catalog dirs listed).get (get_service_model_identifier s).name
      (get_service_model_identifier s).protocol = .ok s.model := by
  rw [catalog, get_service_model_identifier]
  simp only [hres.loaded s hs]
  rfl

/-- The identifiers of the services that have a property. -/
def Among (listed : List Service) (P : Service → Bool) (x : ServiceModelIdentifier) : Prop :=
  ∃ s ∈ listed, P s = true ∧ x = get_service_model_identifier s

theorem identifier_inj (hres : Resolves dirs listed) {s' : Service} (hs : s ∈ listed)
    (hs' : s' ∈ listed) (heq : get_service_model_identifier s = get_service_model_identifier s') :
    s = s' := by
  have hload := hres.loaded s hs
  obtain ⟨hname, hprotocol, -⟩ := ServiceModelIdentifier.mk.inj heq
  rw [hname, hprotocol, hres.loaded s' hs'] at hload
  exact (Except.ok.inj hload).symm

theorem among_iff (hres : Resolves dirs listed) {P : Service → Bool} (hs : s ∈ listed) :
    Among listed P (get_service_model_identifier s) ↔ P s = true := by
  constructor
  · rintro ⟨s', hs', hP, heq⟩
    rwa [identifier_inj hres hs hs' heq]
  · exact fun hP => ⟨s, hs, hP, rfl⟩

theorem mem_iff_among {P : Service → Bool} {l : List ServiceModelIdentifier}
    (hl : l.Perm ((listed.filter P).map get_service_model_identifier))
    (x : ServiceModelIdentifier) : x ∈ l ↔ Among listed P x := by
  rw [hl.mem_iff, List.mem_map]
  constructor
  · rintro ⟨s, hs, rfl⟩
    exact ⟨s, (List.mem_filter.mp hs).1, (List.mem_filter.mp hs).2, rfl⟩
  · rintro ⟨s, hs, hP, rfl⟩
    exact ⟨s, List.mem_filter.mpr ⟨hs, hP⟩, rfl⟩

/-- A service that is found is the result where it is the only one. -/
theorem single_cases (hres : Resolves dirs listed) {P : Service → Bool} (hs : s ∈ listed)
    (hP : P s = true) {l : List ServiceModelIdentifier}
    (hl : l.Perm ((listed.filter P).map get_service_model_identifier)) :
    single (catalog dirs listed) l = .error (.ok (some s.model)) ∨
      single (catalog dirs listed) l = .ok () ∧ listed.filter P ≠ [s] := by
  have hmem : get_service_model_identifier s ∈ l := (mem_iff_among hl _).mpr ⟨s, hs, hP, rfl⟩
  match l, hl, hmem with
  | [candidate], _, hmem =>
    obtain rfl := List.mem_singleton.mp hmem
    refine .inl ?_
    rw [single, lookup, lookup_identifier hres hs]
    rfl
  | [], _, hmem => cases hmem
  | _ :: _ :: _, hl, _ =>
    refine .inr ⟨rfl, fun honly => ?_⟩
    have := hl.length_eq
    rw [honly] at this
    simp at this

end Lookups

/-! ## Requests -/

section Requests
variable {parse_dict_header : Str → Dict Str (Option Str)} {dirs : Directories}
  {listed : List Service} {s : Service} {request : Request} {n t op : Str}

/-- An authorization header of version 4 in which a service is named. -/
def Signed (parse_dict_header : Str → Dict Str (Option Str)) (request : Request) (n : Str) :
    Prop :=
  ∃ info credential key date region,
    request.authorization = some ("AWS4-HMAC-SHA256 Credential=".toList ++ info) ∧
      Dict.get (parse_dict_header ("Credential=".toList ++ info)) "Credential".toList =
        some (some credential) ∧
      credential.splitOn '/' = [key, date, region, n, "aws4_request".toList]

/-- An operation is named in the header of the JSON protocol or in the path of the CBOR
protocol. -/
inductive Targets (request : Request) (t op : Str) : Prop
  | json (hsmithy : contains "rpc-v2-cbor".toList (request.smithy_protocol.getD []) = false)
      (hdot : '.' ∉ t) (h : request.x_amz_target = some (t ++ '.' :: op))
  | cbor (hsmithy : contains "rpc-v2-cbor".toList (request.smithy_protocol.getD []) = true)
      (hslash : '/' ∉ t ∧ '/' ∉ op) (hhash : '#' ∉ t)
      (h : request.path = "/service/".toList ++ t ++ "/operation/".toList ++ op)

theorem target_of_targets (h : Targets request t op) : target request = (some t, some op) := by
  cases h with
  | json hsmithy hdot h =>
    have htruthy : truthy request.x_amz_target = some (t ++ '.' :: op) := by
      rw [h]
      simp [truthy]
    rw [target, if_neg (by rw [hsmithy]; exact Bool.false_ne_true), htruthy]
    simp [partition_append hdot]
  | cbor hsmithy hslash hhash h =>
    have hparts : (request.path.dropWhile (· = '/')).splitOn '/' =
        ["service".toList, t, "operation".toList, op] := by
      have hjoin : request.path.dropWhile (· = '/') =
          Fields.join '/' ["service".toList, t, "operation".toList, op] := by
        rw [h]
        simp [Fields.join, List.intercalate]
      rw [hjoin, Fields.splitOn_join (by simp)]
      simp [hslash.1, hslash.2]
    rw [target, if_pos hsmithy, hparts]
    simp [rpcTarget, Fields.splitOn_of_not_mem hhash]

/-- The indicators of a request that is signed with a name. -/
def signedIndicators (request : Request) (n : Str) : _ServiceIndicators :=
  ⟨some n, (target request).1, (target request).2, request.host, request.path⟩

theorem extract_of_signed (h : Signed parse_dict_header request n) :
    _extract_service_indicators parse_dict_header request = .ok (signedIndicators request n) := by
  obtain ⟨info, credential, key, date, region, hauth, hget, hparts⟩ := h
  have hname : signingName parse_dict_header ("AWS4-HMAC-SHA256 Credential=".toList ++ info) =
      .ok (some n) := by
    have hsplit : splitWord ("AWS4-HMAC-SHA256 Credential=".toList ++ info) =
        some ("AWS4-HMAC-SHA256".toList, "Credential=".toList ++ info) := rfl
    rw [signingName, hsplit]
    simp only [hget, hparts]
    rw [if_pos (by decide)]
  have htruthy : truthy request.authorization =
      some ("AWS4-HMAC-SHA256 Credential=".toList ++ info) := by
    rw [hauth]
    rfl
  rw [_extract_service_indicators, htruthy]
  simp only [hname]
  rfl

/-- A service of a protocol that sends actions. -/
def isQuery (s : Service) : Bool :=
  is_protocol_in_service_model_identifier "ec2".toList (get_service_model_identifier s) ||
    is_protocol_in_service_model_identifier "query".toList (get_service_model_identifier s)

/-- A request whose path and host mean no service. -/
structure Plain (listed : List Service) (request : Request) : Prop where
  path : request.path = "/".toList
  host : ∀ s ∈ listed, ((s.description.endpoint_prefix ++ ".".toList).isPrefixOf request.host &&
    !contains ".s3.".toList request.host) = false
  custom : custom_host_addressing_rules request.host = none
  shallow : request.shallow = false

/-- The service is the only one that the request can mean: for its signing name; for its
target prefix; for the operation of the target; for having no target prefix, like the
request; or for the action and its version. -/
inductive Identified (listed : List Service) (request : Request) (s : Service) : Prop
  | signed (h : listed.filter (fun s' =>
      s'.description.signing_name = s.description.signing_name) = [s])
  | target (hcustom : custom_signing_name_rules s.description.signing_name request.path = none)
      (t op : Str) (ht : s.description.targetPrefix = some t) (hne : t ≠ [] ∧ op ≠ [])
      (htarget : Targets request t op) (hop : op ∈ s.description.operation_names)
      (h : listed.filter (fun s' => s'.description.targetPrefix = some t) = [s] ∨
        ∀ s' ∈ listed, s'.description.signing_name = s.description.signing_name ∨
          s'.description.targetPrefix = some t → op ∈ s'.description.operation_names → s' = s)
  | untargeted
      (hcustom : custom_signing_name_rules s.description.signing_name request.path = none)
      (ht : s.description.targetPrefix = none) (htarget : target request = (none, none))
      (h : ∀ s' ∈ listed, s'.description.signing_name = s.description.signing_name →
        s'.description.targetPrefix = none → s' = s)
  | action (hcustom : custom_signing_name_rules s.description.signing_name request.path = none)
      (ht : s.description.targetPrefix = none) (htarget : target request = (none, none))
      (hplain : Plain listed request) (values : Dict Str Str) (op : Str)
      (hvalues : request.values = some values)
      (haction : values.get "Action".toList = some op)
      (hversion : values.get "Version".toList = some s.description.api_version)
      (hquery : isQuery s = true) (hop : op ∈ s.description.operation_names)
      (h : listed.filter (fun s' => op ∈ s'.description.operation_names ∧ isQuery s' = true ∧
        s'.description.api_version = s.description.api_version) = [s])

section Stages
variable {indicators : _ServiceIndicators} {candidates : PySet ServiceModelIdentifier}
  {o : Order ServiceModelIdentifier}

theorem bothTargets_some (ht : indicators.target_prefix = some t)
    (hop : indicators.operation = some op) (hne : t ≠ [] ∧ op ≠ []) :
    bothTargets indicators = some (t, op) := by
  simp [bothTargets, truthy, ht, hop, Option.filter, hne.1, hne.2]

theorem bothTargets_none (ht : indicators.target_prefix = none) :
    bothTargets indicators = none := by
  rw [bothTargets, ht]
  rfl

theorem by_signing_name_perm (dirs : Directories) (listed : List Service) (n : Str) :
    (by_signing_name (catalog dirs listed) n).Perm
      ((listed.filter fun s => s.description.signing_name = n).map
        get_service_model_identifier) := by
  have hl : (by_signing_name (catalog dirs listed) n).Perm _ :=
    get_index (fun d => List.nodup_singleton d.signing_name) listed n
  simpa only [List.mem_singleton, eq_comm] using hl

theorem by_target_prefix_perm (dirs : Directories) (listed : List Service) (ht : t ≠ []) :
    by_target_prefix (catalog dirs listed) t |>.Perm
      ((listed.filter fun s => s.description.targetPrefix = some t).map
        get_service_model_identifier) := by
  have hnodup : ∀ d : Description, (truthy d.targetPrefix).toList.Nodup := fun d => by
    cases truthy d.targetPrefix <;> simp
  have hl : by_target_prefix (catalog dirs listed) t |>.Perm _ := get_index hnodup listed t
  have hmem : ∀ d : Description, t ∈ (truthy d.targetPrefix).toList ↔ d.targetPrefix = some t := by
    intro d
    rw [Option.mem_toList, truthy, Option.filter_eq_some_iff]
    simp [ht]
  simpa only [hmem] using hl

theorem by_operation_perm (listed : List Service) (op : Str) :
    (by_operation (catalog dirs listed) op).Perm
      ((listed.filter fun s => op ∈ s.description.operation_names).map
        get_service_model_identifier) :=
  get_index Description.nodup listed op

/-- After the signing names: the service, or all that are signed with its name. -/
theorem checkSigningName_cases (hres : Resolves dirs listed) (hs : s ∈ listed)
    (hn : s.description.signing_name ≠ [])
    (hname : indicators.signing_name = some s.description.signing_name) :
    checkSigningName (catalog dirs listed) indicators = .error (.ok (some s.model)) ∨
      listed.filter (fun s' => s'.description.signing_name = s.description.signing_name) ≠ [s] ∧
        (custom_signing_name_rules s.description.signing_name indicators.path = none →
          ∃ candidates, checkSigningName (catalog dirs listed) indicators = .ok candidates ∧
            ∀ x, x ∈ candidates ↔
              Among listed (fun s' => s'.description.signing_name = s.description.signing_name)
                x) := by
  have htruthy : truthy indicators.signing_name = some s.description.signing_name := by
    rw [hname]
    simp [truthy, hn]
  have hl := by_signing_name_perm dirs listed s.description.signing_name
  rw [checkSigningName, htruthy]
  rcases single_cases hres hs (decide_eq_true rfl) hl with h | ⟨h, honly⟩
  · refine .inl ?_
    simp only [h]
    rfl
  · refine .inr ⟨honly, fun hcustom => ⟨PySet.empty.update
      (by_signing_name (catalog dirs listed) s.description.signing_name), ?_, fun x => ?_⟩⟩
    · simp only [h, hcustom, settle]
      rfl
    · rw [PySet.mem_update, mem_iff_among hl]
      exact or_iff_right List.not_mem_nil

/-- After the targets: the service, or the candidates and all that have the target prefix. -/
theorem checkTargetPrefix_cases (hres : Resolves dirs listed) (hs : s ∈ listed) {t op : Str}
    (ht : s.description.targetPrefix = some t) (hne : t ≠ [])
    (hboth : bothTargets indicators = some (t, op)) :
    checkTargetPrefix (catalog dirs listed) indicators candidates = .error (.ok (some s.model)) ∨
      listed.filter (fun s' => s'.description.targetPrefix = some t) ≠ [s] ∧
        ∃ candidates', checkTargetPrefix (catalog dirs listed) indicators candidates =
          .ok candidates' ∧ ∀ x, x ∈ candidates' ↔ x ∈ candidates ∨
            Among listed (fun s' => s'.description.targetPrefix = some t) x := by
  have hl := by_target_prefix_perm dirs listed hne
  rw [checkTargetPrefix, hboth]
  rcases single_cases hres hs (decide_eq_true ht) hl with h | ⟨h, honly⟩
  · refine .inl ?_
    simp only [h]
    rfl
  · let targets := by_target_prefix (catalog dirs listed) t
    refine .inr ⟨honly, candidates.update targets, ?_, fun x => ?_⟩
    · simp only [h]
      rfl
    · rw [PySet.mem_update, mem_iff_among hl]

theorem excluded_identifier (hres : Resolves dirs listed) (hs : s ∈ listed) :
    excluded (catalog dirs listed) indicators (get_service_model_identifier s) =
      .ok (match bothTargets indicators with
        | some targets => decide (targets.2 ∉ s.description.operation_names)
        | none => s.description.targetPrefix.isSome) := by
  rw [excluded, lookup_identifier hres hs]
  simp only [bind, Except.bind]
  cases bothTargets indicators <;> rfl

/-- What stage 2 leaves of candidates that are all listed. -/
theorem exclude_among (hres : Resolves dirs listed)
    (hall : ∀ x ∈ candidates, ∃ s ∈ listed, x = get_service_model_identifier s) :
    ∃ remaining, exclude o (excluded (catalog dirs listed) indicators) candidates =
      .ok remaining ∧ ∀ x, x ∈ remaining ↔
        x ∈ candidates ∧ excluded (catalog dirs listed) indicators x = .ok false := by
  let b : ServiceModelIdentifier → Bool := fun x =>
    (excluded (catalog dirs listed) indicators x).toOption.getD false
  have hb : ∀ x ∈ candidates, excluded (catalog dirs listed) indicators x = .ok (b x) := by
    intro x hx
    obtain ⟨s, hs, rfl⟩ := hall x hx
    simp only [b, excluded_identifier hres hs]
    rfl
  refine ⟨candidates.filter fun x => !b x, exclude_ok hb, fun x => ?_⟩
  refine List.mem_filter.trans (and_congr_right fun hx => ?_)
  rw [hb x hx, Except.ok.injEq, Bool.not_eq_true']

theorem afterExclusion_of_card (hres : Resolves dirs listed) (hs : s ∈ listed)
    (hcard : candidates.card = 1) (hmem : get_service_model_identifier s ∈ candidates) :
    afterExclusion (catalog dirs listed) request indicators o candidates =
      .ok (some s.model) := by
  obtain ⟨x, hx⟩ := List.length_eq_one_iff.mp hcard
  obtain rfl : get_service_model_identifier s = x := by
    have : get_service_model_identifier s ∈ candidates.elements := hmem
    rw [hx] at this
    exact List.mem_singleton.mp this
  have hpop : pop o candidates = some (get_service_model_identifier s) := by
    have hperm := o.perm candidates
    rw [hx, List.perm_singleton] at hperm
    rw [pop, hperm]
    rfl
  rw [afterExclusion, if_pos hcard, hpop]
  simp only [lookup, lookup_identifier hres hs]
  rfl

theorem card_eq_one {a : ServiceModelIdentifier} (hmem : a ∈ candidates)
    (hall : ∀ x ∈ candidates, x = a) : candidates.card = 1 := by
  have hnodup := candidates.nodup
  rw [List.eq_replicate_of_mem hall, List.nodup_replicate] at hnodup
  exact Nat.le_antisymm hnodup (List.length_pos_of_mem hmem)

theorem mem_keys_index {keys : Description → List Str}
    (h : k ∈ (index keys listed).keys) : ∃ s ∈ listed, k ∈ keys s.description := by
  rw [index, Dict.collect, Dict.mem_keys_foldl_append] at h
  obtain ⟨e, he, rfl⟩ := List.mem_map.mp (h.resolve_left List.not_mem_nil)
  obtain ⟨s, hs, he⟩ := List.mem_flatMap.mp he
  obtain ⟨k, hk, rfl⟩ := List.mem_map.mp he
  exact ⟨s, (services_perm listed).mem_iff.mp hs, hk⟩

theorem checkHost_of_plain (hplain : Plain listed request)
    (hhost : indicators.host = request.host) :
    checkHost (catalog dirs listed) indicators candidates = .ok candidates := by
  have hprefixes : ∀ l : Dict Str (List ServiceModelIdentifier),
      (∀ p ∈ l, p ∈ (catalog dirs listed).endpoint_prefix_index) →
        l.foldlM (checkPrefix (catalog dirs listed) request.host) candidates = .ok candidates := by
    intro l hl
    induction l with
    | nil => rfl
    | cons p l ih =>
      rw [List.forall_mem_cons] at hl
      have hp : p.1 ∈ (index (fun d => [d.endpoint_prefix]) listed).keys :=
        Dict.mem_keys_of_mem hl.1
      obtain ⟨s, hs, hk⟩ := mem_keys_index hp
      rw [List.mem_singleton] at hk
      have hp : checkPrefix (catalog dirs listed) request.host candidates p = .ok candidates := by
        rw [checkPrefix, hk, if_neg (by rw [hplain.host s hs]; exact Bool.false_ne_true)]
        rfl
      rw [List.foldlM_cons, hp]
      exact ih hl.2
  rw [checkHost, hhost]
  split
  · rw [hprefixes _ fun _ hp => hp]
    simp only [hplain.custom, bind, Except.bind]
    rfl
  · rfl

/-- A loop that removes what is of another version. -/
theorem removeOtherVersion_foldlM {services : ServiceCatalog} {version : Str}
    {same : ServiceModelIdentifier → Bool} (xs : List ServiceModelIdentifier)
    (hsame : ∀ x ∈ xs, ∃ m, services.get x.name x.protocol = .ok m ∧
      same x = decide (version = m.api_version))
    {l : List ServiceModelIdentifier} (hl : l.Nodup) :
    xs.foldlM (removeOtherVersion services version) l =
      .ok (l.filter fun x => decide (x ∉ xs) || same x) := by
  induction xs generalizing l with
  | nil => simp [pure, Except.pure]
  | cons x xs ih =>
    rw [List.forall_mem_cons] at hsame
    obtain ⟨m, hget, hx⟩ := hsame.1
    have hstep : removeOtherVersion services version l x =
        .ok (l.filter fun y => decide (y ≠ x) || same x) := by
      rw [removeOtherVersion, hget, hx]
      by_cases hversion : version = m.api_version
      · simp [hversion, pure, Except.pure]
      · simp [hversion, hl.erase_eq_filter, pure, Except.pure, bne, BEq.beq]
    rw [List.foldlM_cons, hstep]
    refine (ih hsame.2 (hl.filter _)).trans ?_
    rw [List.filter_filter]
    refine congrArg Except.ok (List.filter_congr fun y _ => ?_)
    by_cases hy : y = x
    · subst hy
      cases same y <;> simp
    · simp [hy]

theorem nodup_identifiers (hres : Resolves dirs listed) (P : Service → Bool) :
    ((listed.filter P).map get_service_model_identifier).Nodup :=
  List.Nodup.map_on (fun _ hs _ hs' => identifier_inj hres (List.mem_filter.mp hs).1
    (List.mem_filter.mp hs').1) (hres.nodup.filter P)

theorem queries_perm (dirs : Directories) (listed : List Service) (op : Str) :
    ((by_operation (catalog dirs listed) op).filter fun service =>
      is_protocol_in_service_model_identifier "ec2".toList service ||
        is_protocol_in_service_model_identifier "query".toList service).Perm
      ((listed.filter fun s => op ∈ s.description.operation_names ∧ isQuery s = true).map
        get_service_model_identifier) := by
  refine ((by_operation_perm listed op).filter _).trans (.of_eq ?_)
  rw [List.filter_map, List.filter_filter]
  refine congrArg (List.map _) (List.filter_congr fun s _ => ?_)
  rw [Bool.decide_and, Bool.and_comm, Bool.decide_eq_true]
  rfl

/-- Whether a service is of a version. -/
def ofVersion (services : ServiceCatalog) (version : Str) (x : ServiceModelIdentifier) : Bool :=
  match services.get x.name x.protocol with
  | .ok m => version = m.api_version
  | .error _ => false

theorem ofVersion_identifier (hres : Resolves dirs listed) (hs : s ∈ listed) (version : Str) :
    ofVersion (catalog dirs listed) version (get_service_model_identifier s) =
      decide (version = s.description.api_version) := by
  rw [ofVersion, lookup_identifier hres hs]
  rfl

/-- The services of another version are removed. -/
theorem removeOtherVersion_perm (hres : Resolves dirs listed) {P : Service → Bool}
    {l : List ServiceModelIdentifier}
    (hl : l.Perm ((listed.filter P).map get_service_model_identifier)) (version : Str) :
    ∃ l', l.foldlM (removeOtherVersion (catalog dirs listed) version) l = .ok l' ∧
      l'.Perm ((listed.filter fun s => P s = true ∧ version = s.description.api_version).map
        get_service_model_identifier) := by
  have hget : ∀ x ∈ l, ∃ m, (catalog dirs listed).get x.name x.protocol = .ok m ∧
      ofVersion (catalog dirs listed) version x = decide (version = m.api_version) := by
    intro x hx
    obtain ⟨s, hs, -, rfl⟩ := (mem_iff_among hl x).mp hx
    exact ⟨s.model, lookup_identifier hres hs, ofVersion_identifier hres hs version⟩
  refine ⟨_, removeOtherVersion_foldlM l hget (hl.nodup_iff.mpr (nodup_identifiers hres P)), ?_⟩
  have hfilter : l.filter (fun x => decide (x ∉ l) ||
      ofVersion (catalog dirs listed) version x) =
        l.filter (ofVersion (catalog dirs listed) version) :=
    List.filter_congr fun x hx => by simp [hx]
  rw [hfilter]
  refine (hl.filter _).trans (.of_eq ?_)
  rw [List.filter_map, List.filter_filter]
  refine congrArg (List.map _) (List.filter_congr fun s hs => ?_)
  rw [Function.comp_apply, ofVersion_identifier hres hs, Bool.decide_and, Bool.decide_eq_true,
    Bool.and_comm]

/-- A form with an action finds the only service that has it in its version. -/
theorem checkValues_of_action (hres : Resolves dirs listed) (hs : s ∈ listed) {op : Str}
    {values : Dict Str Str} (hvalues : request.values = some values)
    (haction : values.get "Action".toList = some op)
    (hversion : values.get "Version".toList = some s.description.api_version)
    (hquery : isQuery s = true) (hop : op ∈ s.description.operation_names)
    (h : listed.filter (fun s' => op ∈ s'.description.operation_names ∧ isQuery s' = true ∧
      s'.description.api_version = s.description.api_version) = [s]) :
    checkValues (catalog dirs listed) request candidates = .error (.ok (some s.model)) := by
  have hl := queries_perm dirs listed op
  have hP := decide_eq_true (And.intro hop hquery)
  rw [checkValues, hvalues]
  simp only [haction]
  rcases single_cases hres hs hP hl with hone | ⟨hone, -⟩
  · simp only [hone]
    rfl
  obtain ⟨l', hfold, hl'⟩ := removeOtherVersion_perm hres hl s.description.api_version
  rcases single_cases hres hs (decide_eq_true ⟨hP, rfl⟩) hl' with htwo | ⟨-, honly⟩
  · simp only [hone, hversion, hfold, htwo, bind, Except.bind]
  · refine absurd ((List.filter_congr fun s' _ => decide_eq_decide.mpr ?_).trans h) honly
    rw [decide_eq_true_iff, and_assoc, eq_comm (a := s'.description.api_version)]

theorem laterStages_of_plain (hplain : Plain listed request)
    (hpath : indicators.path = request.path) (hhost : indicators.host = request.host)
    {outcome : Outcome}
    (hvalues : ∀ candidates, checkValues (catalog dirs listed) request candidates =
      .error outcome) :
    laterStages (catalog dirs listed) request indicators candidates = .error outcome := by
  have hpath' : checkPath (catalog dirs listed) indicators = .ok () := by
    rw [checkPath, hpath, hplain.path]
    rfl
  rw [laterStages, hpath', checkHost_of_plain hplain hhost]
  simp only [bind, Except.bind, hplain.shallow, Bool.false_eq_true, ↓reduceIte, hvalues]

/-- What comes after the targets finds a service that stage 2 keeps, if it keeps no other
or the last stages find it. -/
theorem afterExamination_eq (hres : Resolves dirs listed) (hs : s ∈ listed)
    (hall : ∀ x ∈ candidates, ∃ s ∈ listed, x = get_service_model_identifier s)
    (hmem : get_service_model_identifier s ∈ candidates)
    (hkept : excluded (catalog dirs listed) indicators (get_service_model_identifier s) =
      .ok false)
    (h : (∀ s' ∈ listed, get_service_model_identifier s' ∈ candidates →
        excluded (catalog dirs listed) indicators (get_service_model_identifier s') = .ok false →
          s' = s) ∨
      ∀ remaining, laterStages (catalog dirs listed) request indicators remaining =
        .error (.ok (some s.model))) :
    afterExamination (catalog dirs listed) request indicators o candidates =
      .ok (some s.model) := by
  obtain ⟨remaining, hremaining, hiff⟩ := exclude_among (o := o) hres hall
  have hmem' : get_service_model_identifier s ∈ remaining := (hiff _).mpr ⟨hmem, hkept⟩
  rw [afterExamination, hremaining]
  simp only
  by_cases hcard : remaining.card = 1
  · exact afterExclusion_of_card hres hs hcard hmem'
  · rcases h with honly | hlater
    · refine absurd (card_eq_one hmem' fun x hx => ?_) hcard
      obtain ⟨hx, hexcluded⟩ := (hiff x).mp hx
      obtain ⟨s', hs', rfl⟩ := hall x hx
      rw [honly s' hs' hx hexcluded]
    · rw [afterExclusion, if_neg hcard, hlater]

end Stages

section Order
variable {o : Order ServiceModelIdentifier} {services : ServiceCatalog}
  {indicators : _ServiceIndicators} {candidates candidates' : PySet ServiceModelIdentifier}
  {outcome : Outcome}

theorem determine_of_signing_name
    (hex : _extract_service_indicators parse_dict_header request = .ok indicators)
    (h : checkSigningName services indicators = .error outcome) :
    determine_aws_service_model parse_dict_header o services request = outcome := by
  rw [determine_aws_service_model, examined, hex]
  simp only [h]
  rfl

theorem determine_of_target_prefix
    (hex : _extract_service_indicators parse_dict_header request = .ok indicators)
    (hc : checkSigningName services indicators = .ok candidates)
    (h : checkTargetPrefix services indicators candidates = .error outcome) :
    determine_aws_service_model parse_dict_header o services request = outcome := by
  rw [determine_aws_service_model, examined, hex]
  simp only [hc, h, bind, Except.bind]

theorem determine_of_candidates
    (hex : _extract_service_indicators parse_dict_header request = .ok indicators)
    (hc : checkSigningName services indicators = .ok candidates)
    (hc' : checkTargetPrefix services indicators candidates = .ok candidates') :
    determine_aws_service_model parse_dict_header o services request =
      afterExamination services request indicators o candidates' := by
  rw [determine_aws_service_model, examined, hex]
  simp only [hc, hc', bind, Except.bind]
  rfl

end Order

section Signed
variable {o : Order ServiceModelIdentifier} {candidates : PySet ServiceModelIdentifier}
  (hsigned : Signed parse_dict_header request s.description.signing_name)
  (hres : Resolves dirs listed) (hs : s ∈ listed)
  (hc : checkSigningName (catalog dirs listed)
    (signedIndicators request s.description.signing_name) = .ok candidates)
  (hmem : ∀ x, x ∈ candidates ↔
    Among listed (fun s' => s'.description.signing_name = s.description.signing_name) x)
include hsigned hres hs hc hmem

/-- A request with a target, among several services that are signed alike. -/
theorem determine_of_target (ht : s.description.targetPrefix = some t) (hne : t ≠ [] ∧ op ≠ [])
    (htarget : Targets request t op) (hop : op ∈ s.description.operation_names)
    (h : listed.filter (fun s' => s'.description.targetPrefix = some t) = [s] ∨
      ∀ s' ∈ listed, s'.description.signing_name = s.description.signing_name ∨
        s'.description.targetPrefix = some t → op ∈ s'.description.operation_names → s' = s) :
    determine_aws_service_model parse_dict_header o (catalog dirs listed) request =
      .ok (some s.model) := by
  have hex := extract_of_signed hsigned
  have htargets := target_of_targets htarget
  have hboth : bothTargets (signedIndicators request s.description.signing_name) = some (t, op) :=
    bothTargets_some (congrArg Prod.fst htargets) (congrArg Prod.snd htargets) hne
  rcases checkTargetPrefix_cases hres hs ht hne.1 hboth with hsingle | ⟨honly, c', hc', hmem'⟩
  · exact determine_of_target_prefix hex hc hsingle
  have hiff : ∀ s' ∈ listed, get_service_model_identifier s' ∈ c' ↔
      s'.description.signing_name = s.description.signing_name ∨
        s'.description.targetPrefix = some t := by
    intro s' hs'
    rw [hmem', hmem, among_iff hres hs', among_iff hres hs', decide_eq_true_iff,
      decide_eq_true_iff]
  rw [determine_of_candidates hex hc hc']
  refine afterExamination_eq hres hs (fun x hx => ?_) ((hiff s hs).mpr (.inl rfl)) ?_
    (.inl fun s' hs' hx hkept => h.resolve_left honly s' hs' ((hiff s' hs').mp hx) ?_)
  · rcases (hmem' x).mp hx with hx | ⟨s', hs', -, rfl⟩
    · obtain ⟨s', hs', -, rfl⟩ := (hmem x).mp hx
      exact ⟨s', hs', rfl⟩
    · exact ⟨s', hs', rfl⟩
  · rw [excluded_identifier hres hs, hboth]
    simp [hop]
  · rw [excluded_identifier hres hs', hboth] at hkept
    simpa using hkept

/-- A request without a target, for a service without a target prefix. -/
theorem determine_of_untargeted (ht : s.description.targetPrefix = none)
    (htarget : target request = (none, none))
    (h : (∀ s' ∈ listed, s'.description.signing_name = s.description.signing_name →
        s'.description.targetPrefix = none → s' = s) ∨
      ∀ remaining, laterStages (catalog dirs listed) request
        (signedIndicators request s.description.signing_name) remaining =
          .error (.ok (some s.model))) :
    determine_aws_service_model parse_dict_header o (catalog dirs listed) request =
      .ok (some s.model) := by
  have hboth : bothTargets (signedIndicators request s.description.signing_name) = none :=
    bothTargets_none (congrArg Prod.fst htarget)
  have hc' : checkTargetPrefix (catalog dirs listed)
      (signedIndicators request s.description.signing_name) candidates = .ok candidates := by
    rw [checkTargetPrefix, hboth]
    rfl
  rw [determine_of_candidates (extract_of_signed hsigned) hc hc']
  refine afterExamination_eq hres hs (fun x hx => ?_)
    ((hmem _).mpr ((among_iff hres hs).mpr (decide_eq_true rfl))) ?_
    (h.imp_left fun h s' hs' hx hkept => h s' hs' ?_ ?_)
  · obtain ⟨s', hs', -, rfl⟩ := (hmem x).mp hx
    exact ⟨s', hs', rfl⟩
  · rw [excluded_identifier hres hs, hboth, ht]
    rfl
  · exact decide_eq_true_iff.mp ((among_iff hres hs').mp ((hmem _).mp hx))
  · rw [excluded_identifier hres hs', hboth] at hkept
    simpa using hkept

end Signed

/-- **Every signed call reaches its service.** With the catalog of all specs, a request that
is signed for a service, and that can mean no other one, is routed to that service, in
whatever order the sets of candidates are looped through. -/
theorem determine_of_identified (o : Order ServiceModelIdentifier) (hdirs : dirs.WF)
    (hsqs : SqsApart dirs) (hlisted : list_services dirs = .ok listed) (hs : s ∈ listed)
    (hn : s.description.signing_name ≠ [])
    (hsigned : Signed parse_dict_header request s.description.signing_name)
    (hid : Identified listed request s) :
    determine_aws_service_model parse_dict_header o (catalog dirs listed) request =
      .ok (some s.model) := by
  have hres := resolves hdirs hsqs hlisted
  have hname : (signedIndicators request s.description.signing_name).signing_name =
      some s.description.signing_name := rfl
  rcases checkSigningName_cases hres hs hn hname with hsingle | ⟨hseveral, hcandidates⟩
  · exact determine_of_signing_name (extract_of_signed hsigned) hsingle
  cases hid with
  | signed h => exact absurd h hseveral
  | target hcustom t op ht hne htarget hop h =>
    obtain ⟨candidates, hc, hmem⟩ := hcandidates hcustom
    exact determine_of_target hsigned hres hs hc hmem ht hne htarget hop h
  | untargeted hcustom ht htarget h =>
    obtain ⟨candidates, hc, hmem⟩ := hcandidates hcustom
    exact determine_of_untargeted hsigned hres hs hc hmem ht htarget (.inl h)
  | action hcustom ht htarget hplain values op hvalues haction hversion hquery hop h =>
    obtain ⟨candidates, hc, hmem⟩ := hcandidates hcustom
    refine determine_of_untargeted hsigned hres hs hc hmem ht htarget (.inr fun remaining => ?_)
    exact laterStages_of_plain hplain rfl rfl fun _ =>
      checkValues_of_action hres hs hvalues haction hversion hquery hop h

end Requests

/-! ## Services that are signed alike -/

def dynamodb : Description where
  protocol := "json".toList
  endpoint_prefix := "dynamodb".toList
  targetPrefix := some "DynamoDB_20120810".toList
  operation_names := ["DescribeTable".toList, "ListTables".toList]

def dynamodbstreams : Description where
  protocol := "json".toList
  endpoint_prefix := "streams.dynamodb".toList
  signingName := some "dynamodb".toList
  targetPrefix := some "DynamoDBStreams_20120810".toList
  operation_names := ["DescribeStream".toList]

def sqs : Description where
  protocol := "json".toList
  endpoint_prefix := "sqs".toList
  targetPrefix := some "AmazonSQS".toList
  operation_names := ["SendMessage".toList]

def sqsQuery : Description where
  protocol := "query".toList
  endpoint_prefix := "sqs".toList
  operation_names := ["SendMessage".toList]

def specs : Directories :=
  [("dynamodb".toList, dynamodb), ("dynamodbstreams".toList, dynamodbstreams),
    ("sqs".toList, sqs), ("sqs-query".toList, sqsQuery)]

theorem specs_apart : SqsApart specs := by
  intro d hd
  obtain rfl := Option.some.inj (show some sqsQuery = some d from hd)
  exact ⟨rfl, sqs, rfl, by decide⟩

def specServices : List Service := specs.map fun e => ⟨serviceName e.1, e.2⟩

/-- A header without quoted values. -/
def plainDict (s : Str) : Dict Str (Option Str) :=
  (s.splitOn ',').map fun field => ((partition '=' field).1, some (partition '=' field).2.2)

def signedRequest (n : String) (x_amz_target : Option Str) : Request where
  authorization := some ("AWS4-HMAC-SHA256 Credential=AKID/20240101/us-east-1/".toList ++
    n.toList ++ "/aws4_request,Signature=0".toList)
  x_amz_target := x_amz_target
  smithy_protocol := none
  mimetype := "application/x-amz-json-1.0".toList
  args := []
  host := "localhost:4566".toList
  path := "/".toList
  shallow := false
  values := none

/-- A table is described by its target; the other protocol of `sqs` has none. -/
theorem signed_alike_determined :
    determine_aws_service_model plainDict .insertion (catalog specs specServices)
        (signedRequest "dynamodb" (some "DynamoDB_20120810.DescribeTable".toList)) =
      .ok (some (Service.model ⟨"dynamodb".toList, dynamodb⟩)) ∧
    determine_aws_service_model plainDict .insertion (catalog specs specServices)
        (signedRequest "sqs" none) = .ok (some (Service.model ⟨"sqs".toList, sqsQuery⟩)) := by
  constructor
  · refine determine_of_identified .insertion (by decide) specs_apart (list_services_eq (by decide))
      (by decide) (by decide) ?_ ?_
    · refine ⟨"AKID/20240101/us-east-1/dynamodb/aws4_request,Signature=0".toList,
        "AKID/20240101/us-east-1/dynamodb/aws4_request".toList, "AKID".toList, "20240101".toList,
        "us-east-1".toList, ?_, ?_, ?_⟩ <;> decide +kernel
    · exact .target rfl "DynamoDB_20120810".toList "DescribeTable".toList rfl (by decide)
        (.json (by decide) (by decide) rfl) (by decide) (.inl (by decide))
  · refine determine_of_identified .insertion (by decide) specs_apart (list_services_eq (by decide))
      (by decide) (by decide) ?_ ?_
    · refine ⟨"AKID/20240101/us-east-1/sqs/aws4_request,Signature=0".toList,
        "AKID/20240101/us-east-1/sqs/aws4_request".toList, "AKID".toList, "20240101".toList,
        "us-east-1".toList, ?_, ?_, ?_⟩ <;> decide +kernel
    · exact .untargeted rfl rfl (by decide) (by decide)

end LocalStack.Aws.Spec
