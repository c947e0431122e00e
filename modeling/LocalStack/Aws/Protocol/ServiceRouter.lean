import LocalStack.Lib.OrderedDict
import LocalStack.Lib.Sets
import LocalStack.Lib.Text

/-! The choice of a service for a request: `aws/protocol/service_router.py`. The services
still in question are kept in a set, whose order is a parameter. -/

namespace LocalStack.Aws.Protocol.ServiceRouter
open LocalStack.OrderedDict LocalStack.Sets LocalStack.Text

/-! ## Services -/

inductive Error
  | UnknownServiceError (service_name : Str)
  | UnknownServiceProtocolError (service_name protocol : Str)
  | attributeError
  deriving DecidableEq, Repr

structure ServiceModelIdentifier where
  name : Str
  protocol : Option Str
  protocols : Option (List Str)
  deriving DecidableEq, Repr

/-- `ServiceModelIdentifier(name)`. -/
def named (name : String) : ServiceModelIdentifier := ⟨name.toList, none, none⟩

structure ServiceModel where
  service_name : Str
  protocol : Str
  api_version : Str
  operation_names : List Str
  targetPrefix : Option Str
  deriving DecidableEq, Repr

structure ServiceCatalog where
  get : Str → Option Str → Except Error ServiceModel
  target_prefix_index : Dict Str (List ServiceModelIdentifier)
  signing_name_index : Dict Str (List ServiceModelIdentifier)
  operations_index : Dict Str (List ServiceModelIdentifier)
  endpoint_prefix_index : Dict Str (List ServiceModelIdentifier)

/-- `is_protocol_in_service_model_identifier`. -/
def is_protocol_in_service_model_identifier (protocol : Str)
    (service_model_identifier : ServiceModelIdentifier) : Bool :=
  protocol ∈ service_model_identifier.protocols.getD [] ∨
    some protocol = service_model_identifier.protocol

/-- What a function that looks for a service returns or raises. -/
abbrev Outcome := Except Error (Option ServiceModel)

section Catalog

variable (services : ServiceCatalog)

def by_target_prefix (target : Str) : List ServiceModelIdentifier :=
  (Dict.get services.target_prefix_index target).getD []

def by_signing_name (signing_name : Str) : List ServiceModelIdentifier :=
  (Dict.get services.signing_name_index signing_name).getD []

def by_operation (operation_name : Str) : List ServiceModelIdentifier :=
  (Dict.get services.operations_index operation_name).getD []

/-- `services.get(candidate.name, candidate.protocol)`. -/
def lookup (candidate : ServiceModelIdentifier) : Outcome :=
  (services.get candidate.name candidate.protocol).map some

end Catalog

/-! ## Requests -/

/-- `values` is `none` where the form is too large or cannot be decoded. The mimetype is
in lower case. -/
structure Request where
  authorization : Option Str
  x_amz_target : Option Str
  smithy_protocol : Option Str
  mimetype : Str
  args : Dict Str Str
  host : Str
  path : Str
  shallow : Bool
  values : Option (Dict Str Str)

structure _ServiceIndicators where
  signing_name : Option Str
  target_prefix : Option Str
  operation : Option Str
  host : Str
  path : Str
  deriving DecidableEq, Repr

/-- A text that is neither `None` nor empty. -/
def truthy (s : Option Str) : Option Str := s.filter (fun t => t ≠ [])

/-- The signing name of an authorization header; it is `None` after a `ValueError` or a
`KeyError`. `parse_dict_header` is werkzeug's. -/
def signingName (parse_dict_header : Str → Dict Str (Option Str)) (authorization : Str) :
    Except Error (Option Str) :=
  match splitWord authorization with
  | none => .ok none
  | some (auth_type, auth_info) =>
    if auth_type.map Char.toLower = "aws4-hmac-sha256".toList then
      match Dict.get (parse_dict_header auth_info) "Credential".toList with
      | none => .ok none
      | some none => .error .attributeError
      | some (some credential) =>
        match credential.splitOn '/' with
        | [_, _, _, signing_name, _] => .ok (some signing_name)
        | _ => .ok none
    else .ok none

/-- `*_, service_shape_name, __, operation = parts`, for at least four parts. -/
def rpcTarget (parts : List Str) : Option Str × Option Str :=
  match parts.reverse with
  | operation :: _ :: service_shape_name :: _ :: _ =>
    ((service_shape_name.splitOn '#').getLast?, some operation)
  | _ => (none, none)

/-- Target prefix and operation. -/
def target (request : Request) : Option Str × Option Str :=
  if contains "rpc-v2-cbor".toList (request.smithy_protocol.getD []) then
    rpcTarget ((request.path.dropWhile (· = '/')).splitOn '/')
  else
    match truthy request.x_amz_target with
    | none => (none, none)
    | some x_amz_target =>
      if '.' ∈ x_amz_target then
        let parts := partition '.' x_amz_target
        (some parts.1, some parts.2.2)
      else (none, some x_amz_target)

def _extract_service_indicators (parse_dict_header : Str → Dict Str (Option Str))
    (request : Request) : Except Error _ServiceIndicators := do
  let signing_name ←
    match truthy request.authorization with
    | none => pure none
    | some authorization => signingName parse_dict_header authorization
  let targets := target request
  return ⟨signing_name, targets.1, targets.2, request.host, request.path⟩

/-! ## Protocols -/

def _PROTOCOL_DETECTION_PRIORITY : List Str :=
  ["smithy-rpc-v2-cbor".toList, "json".toList, "query".toList, "ec2".toList,
    "rest-json".toList, "rest-xml".toList]

def _matches_protocol (request : Request) (protocol : Str) : Bool :=
  if protocol = "smithy-rpc-v2-cbor".toList then
    request.smithy_protocol = some "rpc-v2-cbor".toList
  else if protocol = "json".toList then
    "application/x-amz-json".toList.isPrefixOf request.mimetype
  else if protocol = "query".toList ∨ protocol = "ec2".toList then
    "application/x-www-form-urlencoded".toList.isPrefixOf request.mimetype ||
      (Dict.get request.args "Action".toList).isSome
  else protocol = "rest-xml".toList ∨ protocol = "rest-json".toList

def match_available_protocols (request : Request) (available_protocols : List Str) :
    Option Str :=
  _PROTOCOL_DETECTION_PRIORITY.find? fun protocol =>
    decide (protocol ∈ available_protocols) && _matches_protocol request protocol

/-! ## Custom rules -/

def signing_name_path_prefix_rules : Dict Str (Dict Str ServiceModelIdentifier) :=
  [("apigateway".toList, [("/v2".toList, named "apigatewayv2")]),
    ("appconfig".toList, [("/configuration".toList, named "appconfigdata")]),
    ("bedrock".toList,
      [("/guardrail/".toList, named "bedrock-runtime"),
        ("/model/".toList, named "bedrock-runtime"),
        ("/async-invoke".toList, named "bedrock-runtime")]),
    ("execute-api".toList,
      [("/@connections".toList, named "apigatewaymanagementapi"),
        ("/participant".toList, named "connectparticipant"),
        ("*".toList, named "iot")]),
    ("ses".toList, [("/v2".toList, named "sesv2"), ("/v1".toList, named "pinpoint-email")]),
    ("greengrass".toList, [("/greengrass/v2/".toList, named "greengrassv2")]),
    ("cloudsearch".toList, [("/2013-01-01".toList, named "cloudsearchdomain")]),
    ("s3".toList, [("/v20180820".toList, named "s3control")]),
    ("iot1click".toList,
      [("/projects".toList, named "iot1click-projects"),
        ("/devices".toList, named "iot1click-devices")]),
    ("es".toList, [("/2015-01-01".toList, named "es"), ("/2021-01-01".toList, named "opensearch")]),
    ("sagemaker".toList,
      [("/endpoints".toList, named "sagemaker-runtime"),
        ("/human-loops".toList, named "sagemaker-a2i-runtime")])]

def custom_signing_name_rules (signing_name path : Str) : Option ServiceModelIdentifier :=
  match Dict.get signing_name_path_prefix_rules signing_name with
  | none =>
    if signing_name = "servicecatalog".toList then
      if path = "/".toList then some (named "servicecatalog")
      else some (named "servicecatalog-appregistry")
    else none
  | some rules =>
    match rules.find? fun rule => rule.1.isPrefixOf path with
    | some rule => some rule.2
    | none => some ((Dict.get rules "*".toList).getD ⟨signing_name, none, none⟩)

def custom_host_addressing_rules (host : Str) : Option ServiceModelIdentifier :=
  if contains ".lambda-url.".toList host then some (named "lambda")
  else if contains ".s3-website.".toList host then some (named "s3")
  else none

def custom_path_addressing_rules (path : Str) : Option ServiceModelIdentifier :=
  if "/2015-03-31/functions".toList.isPrefixOf path then some (named "lambda") else none

/-- No service implementations are registered by default. -/
def legacy_s3_rules (_request : Request) : Option ServiceModelIdentifier := none

/-- `xs == ys` for the sets of their elements. -/
def sameElements (xs ys : List Str) : Bool := (xs.all (· ∈ ys)) && ys.all (· ∈ xs)

def resolve_conflicts (candidates : PySet ServiceModelIdentifier) (request : Request) :
    Option ServiceModelIdentifier :=
  let service_name_candidates := candidates.elements.map ServiceModelIdentifier.name
  if sameElements service_name_candidates ["timestream-query".toList, "timestream-write".toList] then
    some (named "timestream-query")
  else if sameElements service_name_candidates ["docdb".toList, "neptune".toList, "rds".toList] then
    some (named "rds")
  else if sameElements service_name_candidates ["sqs".toList] then
    let protocol := match_available_protocols request ["json".toList, "query".toList]
    if protocol = some "json".toList then some (named "sqs")
    else some ⟨"sqs".toList, some "query".toList, none⟩
  else none

/-! ## Stages

A stage ends the function with an outcome, which it throws, or yields the candidates. -/

abbrev Stage := Except Outcome (PySet ServiceModelIdentifier)

section Stages

variable (services : ServiceCatalog) (request : Request) (indicators : _ServiceIndicators)

/-- The end of the function with the outcome of a rule, if the rule has one. -/
def settle (rule : Option ServiceModelIdentifier) : Except Outcome Unit :=
  match rule with
  | some candidate => throw (lookup services candidate)
  | none => return ()

/-- Several services are candidates, a single one is the result. -/
def single : List ServiceModelIdentifier → Except Outcome Unit
  | [candidate] => throw (lookup services candidate)
  | _ => return ()

/-- 1. check the signing names. -/
def checkSigningName : Stage :=
  match truthy indicators.signing_name with
  | none => return .empty
  | some signing_name => do
    let signing_name_candidates := by_signing_name services signing_name
    single services signing_name_candidates
    settle services (custom_signing_name_rules signing_name indicators.path)
    return PySet.empty.update signing_name_candidates

/-- Target prefix and operation, if the request has both. -/
def bothTargets : Option (Str × Str) := do
  return (← truthy indicators.target_prefix, ← truthy indicators.operation)

/-- 2. check the target prefix. -/
def checkTargetPrefix (candidates : PySet ServiceModelIdentifier) : Stage :=
  match bothTargets indicators with
  | none => return candidates
  | some targets => do
    let target_candidates := by_target_prefix services targets.1
    single services target_candidates
    return candidates.update target_candidates

/-- Whether a candidate is to be excluded: it has no such operation, or it has a target
prefix that the request does not have. -/
def excluded (service_identifier : ServiceModelIdentifier) : Except Error Bool := do
  let service ← services.get service_identifier.name service_identifier.protocol
  match bothTargets indicators with
  | some targets => return targets.2 ∉ service.operation_names
  | none => return service.targetPrefix.isSome

/-- 3. check the path if it is set and not a trivial root path. -/
def checkPath : Except Outcome Unit :=
  if indicators.path ≠ [] ∧ indicators.path ≠ "/".toList then
    settle services (custom_path_addressing_rules indicators.path)
  else return ()

/-- One endpoint prefix. -/
def checkPrefix (host : Str) (candidates : PySet ServiceModelIdentifier)
    (p : Str × List ServiceModelIdentifier) : Stage :=
  if (p.1 ++ ".".toList).isPrefixOf host && !contains ".s3.".toList host then do
    single services p.2
    return candidates.update p.2
  else return candidates

/-- 4. check the host. A custom rule yields a tuple, of which the name is taken for the
candidate. -/
def checkHost (candidates : PySet ServiceModelIdentifier) : Stage :=
  if indicators.host ≠ [] then do
    let candidates ← services.endpoint_prefix_index.foldlM
      (checkPrefix services indicators.host) candidates
    match custom_host_addressing_rules indicators.host with
    | some _ => throw (.error .attributeError)
    | none => return candidates
  else return candidates

/-- `query_candidates.remove(service_identifier)` for services of another version. -/
def removeOtherVersion (version : Str) (query_candidates : List ServiceModelIdentifier)
    (service_identifier : ServiceModelIdentifier) :
    Except Outcome (List ServiceModelIdentifier) :=
  match services.get service_identifier.name service_identifier.protocol with
  | .error e => throw (.error e)
  | .ok service_model =>
    if version ≠ service_model.api_version then return query_candidates.erase service_identifier
    else return query_candidates

/-- 5. check the query / form-data. -/
def checkValues (candidates : PySet ServiceModelIdentifier) : Stage :=
  match request.values with
  | none => return candidates
  | some values =>
    match Dict.get values "Action".toList with
    | none => return candidates
    | some action => do
      let query_candidates := (by_operation services action).filter fun service =>
        is_protocol_in_service_model_identifier "ec2".toList service ||
          is_protocol_in_service_model_identifier "query".toList service
      single services query_candidates
      let query_candidates ←
        match Dict.get values "Version".toList with
        | none => pure query_candidates
        | some version =>
          query_candidates.foldlM (removeOtherVersion services version) query_candidates
      single services query_candidates
      return candidates.update query_candidates

/-- The stages between the exclusion of candidates and the last lines. -/
def laterStages (candidates : PySet ServiceModelIdentifier) : Stage := do
  checkPath services indicators
  let candidates ← checkHost services indicators candidates
  if request.shallow then throw (.ok none)
  else
    let candidates ← checkValues services request candidates
    settle services (resolve_conflicts candidates request)
    settle services (legacy_s3_rules request)
    return candidates

/-- The last lines. -/
def fallback (order : Order ServiceModelIdentifier)
    (candidates : PySet ServiceModelIdentifier) : Outcome :=
  match truthy indicators.signing_name with
  | some signing_name => (services.get signing_name none).map some
  | none =>
    match pop order candidates with
    | some candidate => lookup services candidate
    | none => .ok none

/-- What follows the exclusion of candidates. -/
def afterExclusion (order : Order ServiceModelIdentifier)
    (candidates : PySet ServiceModelIdentifier) : Outcome :=
  if candidates.card = 1 then
    match pop order candidates with
    | some service_identifier => lookup services service_identifier
    | none => .ok none
  else
    match laterStages services request indicators candidates with
    | .error outcome => outcome
    | .ok candidates => fallback services indicators order candidates

/-- What follows the choice of the candidates among which stage 2 excludes some. -/
def afterExamination (order : Order ServiceModelIdentifier)
    (candidates : PySet ServiceModelIdentifier) : Outcome :=
  match exclude order (excluded services indicators) candidates with
  | .error e => .error e
  | .ok candidates => afterExclusion services request indicators order candidates

end Stages

/-- The indicators of a request, and the candidates among which stage 2 excludes some. -/
def examined (parse_dict_header : Str → Dict Str (Option Str)) (services : ServiceCatalog)
    (request : Request) :
    Except Outcome (_ServiceIndicators × PySet ServiceModelIdentifier) :=
  match _extract_service_indicators parse_dict_header request with
  | .error e => .error (.error e)
  | .ok indicators => do
    let candidates ← checkSigningName services indicators
    let candidates ← checkTargetPrefix services indicators candidates
    return (indicators, candidates)

def determine_aws_service_model (parse_dict_header : Str → Dict Str (Option Str))
    (order : Order ServiceModelIdentifier) (services : ServiceCatalog) (request : Request) :
    Outcome :=
  match examined parse_dict_header services request with
  | .error outcome => outcome
  | .ok (indicators, candidates) =>
    afterExamination services request indicators order candidates

end LocalStack.Aws.Protocol.ServiceRouter
