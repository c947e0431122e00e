import LocalStack.Lib.Url
import Mathlib.Data.List.Sort

/-! Operation routing of REST services (`aws/protocol/op_router.py` and
`routing.py`). The rules of a service are built once and keep the required query
values as lazy iterators, so matching a request is a function of the rules that
also returns what is left of them. Werkzeug's path matching is a parameter. -/

namespace LocalStack.Aws.Protocol.OpRouter
open LocalStack.Text LocalStack.Url LocalStack.OrderedDict

/-! ## Service models -/

/-- Where a member of an input shape is bound to, with its serialized name. -/
inductive Location
  | header (name : Str)
  | querystring (name : Str)
  | other
  deriving DecidableEq, Repr

/-- A structure shape; every required member is a member. -/
structure InputShape where
  members : Dict Str Location
  required_members : List Str
  required_mem : ∀ r ∈ required_members, r ∈ members.keys
  deriving DecidableEq, Repr

structure OperationModel where
  name : Str
  method : Str
  requestUri : Str
  authPath : Option Str
  deprecated : Bool
  /-- `none` when there is no input shape or it is not a structure -/
  input_shape : Option InputShape
  deriving DecidableEq, Repr

structure ServiceModel where
  operations : List OperationModel
  names_nodup : (operations.map (·.name)).Nodup

/-! ## Operations -/

/-- The values of a required query argument: the `filter` object made from the
request URI, as the values it has yet to yield, or the empty list of an argument
that only has to be present. -/
inductive RequiredValues
  | iterator (remaining : List Str)
  | present
  deriving DecidableEq, Repr

structure HttpOperation where
  operation : OperationModel
  path : Str
  method : Str
  query_args : Dict Str RequiredValues
  header_args : List Str
  deprecated : Bool

/-- The request URI that the operation is matched with. -/
def operationUri (op : OperationModel) : Str :=
  match op.authPath with
  | some (c :: auth_path) =>
    let (_, sep, query) := partition '?' op.requestUri
    rstrip '/' (c :: auth_path) ++ sep ++ query
  | _ => op.requestUri

def requiredQueryArgs (query : Str) : Dict Str RequiredValues :=
  (parse_qs query).map fun p => (p.1, .iterator (p.2.filter (· ≠ [])))

/-- One round of the loop over the required members. -/
def addRequiredMember (shape : InputShape) (args : Dict Str RequiredValues × List Str)
    (required_member : Str) : Dict Str RequiredValues × List Str :=
  match shape.members.get required_member with
  | some (.header name) => (args.1, args.2 ++ [name])
  | some (.querystring name) =>
    if name ∈ args.1.keys then args else (args.1.set name .present, args.2)
  | some .other | none => args

def from_operation (op : OperationModel) : HttpOperation :=
  let path_query := (operationUri op).splitOn '?'
  let query_args :=
    match path_query with
    | _ :: query :: _ => requiredQueryArgs query
    | _ => []
  let args :=
    match op.input_shape with
    | some shape => shape.required_members.foldl (addRequiredMember shape) (query_args, [])
    | none => (query_args, [])
  ⟨op, path_query.headD [], op.method, args.1, args.2, op.deprecated⟩

/-! ## Requests and rules -/

/-- What the router reads of a request: its query arguments in order, and the
names of its headers. -/
structure Request where
  method : Str
  raw_path : Str
  args : List (Str × Str)
  headers : List Str
  deriving DecidableEq, Repr

namespace Request

def getlist (req : Request) (key : Str) : List Str :=
  (req.args.filter (·.1 = key)).map Prod.snd

def hasArg (req : Request) (key : Str) : Bool := req.args.any (·.1 = key)

/-- Header names are compared without regard to case. -/
def hasHeader (req : Request) (key : Str) : Bool :=
  req.headers.any (·.map Char.toLower = key.map Char.toLower)

end Request

structure RequiredArgsRule where
  endpoint : OperationModel
  required_query_args : Dict Str RequiredValues
  required_header_args : List Str
  match_score : Int

namespace RequiredArgsRule

def new (operation : HttpOperation) : RequiredArgsRule where
  endpoint := operation.operation
  required_query_args := operation.query_args
  required_header_args := operation.header_args
  match_score :=
    10 + 10 * operation.query_args.length + 10 * operation.header_args.length -
      (if operation.deprecated then 5 else 0)

/-- `for value in values`: a value that is not in the request ends the loop, and
has been taken from the iterator by then. -/
def drawValues (query_arg_values : List Str) : List Str → Bool × List Str
  | [] => (true, [])
  | value :: rest =>
    if value ∈ query_arg_values then drawValues query_arg_values rest else (false, rest)

/-- A `filter` object is true even when it is exhausted. -/
def matchValues (req : Request) (key : Str) : RequiredValues → Bool × RequiredValues
  | .iterator remaining =>
    let (ok, rest) := drawValues (req.getlist key) remaining
    (ok, .iterator rest)
  | .present => (true, .present)

def matchQueryArgs (req : Request) : Dict Str RequiredValues → Bool × Dict Str RequiredValues
  | [] => (true, [])
  | (key, values) :: args =>
    if req.hasArg key then
      match matchValues req key values with
      | (true, values') =>
        let (ok, args') := matchQueryArgs req args
        (ok, (key, values') :: args')
      | (false, values') => (false, (key, values') :: args)
    else (false, (key, values) :: args)

/-- `matches`, and the rule as it is afterwards. -/
def matches_ (rule : RequiredArgsRule) (req : Request) : Bool × RequiredArgsRule :=
  match matchQueryArgs req rule.required_query_args with
  | (false, args) => (false, { rule with required_query_args := args })
  | (true, args) =>
    (rule.required_header_args.all req.hasHeader, { rule with required_query_args := args })

end RequiredArgsRule

/-- `_RequestMatchingRule.match_request`; `none` is NotFound. -/
def match_request (req : Request) :
    List RequiredArgsRule → Option OperationModel × List RequiredArgsRule
  | [] => (none, [])
  | rule :: rules =>
    match rule.matches_ req with
    | (true, rule') => (some rule'.endpoint, rule' :: rules)
    | (false, rule') =>
      let (found, rules') := match_request req rules
      (found, rule' :: rules')

/-! ## Rule strings -/

/-- `transform_path_params_to_rule_vars`, on the text between the braces. -/
def transform_path_params_to_rule_vars (request_uri_variable : Str) : Str :=
  let translate := replace "-".toList "_0_".toList
  if request_uri_variable.getLast? = some '+' then
    "<path:".toList ++ translate (strip '+' request_uri_variable) ++ ['>']
  else '<' :: translate request_uri_variable ++ ['>']

/-- The shortest match of `.+?}`: the text before the brace and its length. -/
def pathParam : Str → Option Str
  | [] => none
  | c :: s =>
    if c = '\n' then none
    else
      match s.span (fun d => d ≠ '}' ∧ d ≠ '\n') with
      | (param, '}' :: _) => some (c :: param)
      | _ => none

/-- `path_param_regex.sub(transform_path_params_to_rule_vars, path)`; the first
argument is the number of characters of a match still to be skipped. -/
def ruleStringFrom : Nat → Str → Str
  | _, [] => []
  | k + 1, _ :: s => ruleStringFrom k s
  | 0, c :: s =>
    match c, pathParam s with
    | '{', some param =>
      transform_path_params_to_rule_vars param ++ ruleStringFrom (param.length + 1) s
    | c, _ => c :: ruleStringFrom 0 s

def ruleString (path : Str) : Str := ruleStringFrom 0 path

example : ruleString "/a/{Bucket}/{Key-x+}".toList = "/a/<Bucket>/<path:Key_0_x>".toList := by
  decide

/-- `post_process_arg_name`. -/
def post_process_arg_name (arg_key : Str) : Str := replace "_0_".toList "-".toList arg_key

/-! ## The router -/

/-- A rule of the Werkzeug map: a plain `StrictMethodRule`, or a
`_RequestMatchingRule` with its fine-grained rules. -/
inductive Endpoint
  | operation (op : OperationModel)
  | rules (rules : List RequiredArgsRule)

structure Rule where
  string : Str
  method : Str
  endpoint : Endpoint

/-- What Werkzeug's `MapAdapter.match` returns or raises: the index of the rule
and the path arguments. -/
inductive PathMatch
  | rule (index : Nat) (args : Dict Str Str)
  | notFound
  | methodNotAllowed
  deriving DecidableEq, Repr

/-- Path matching by rule strings with their methods, for a path and a method. -/
abbrev PathMatcher := List (Str × Str) → Str → Str → PathMatch

def pathIndex (ops : List OperationModel) : Dict (Str × Str) (List HttpOperation) :=
  ops.foldl (fun d op =>
    let http_op := from_operation op
    let key := (http_op.path, http_op.method)
    d.set key ((d.get key).getD [] ++ [http_op])) []

/-- A group holds the operations of its path and method, in their order. -/
theorem group_of_mem_pathIndex {ops : List OperationModel} {p : (Str × Str) × List HttpOperation}
    (hp : p ∈ pathIndex ops) :
    p.2 = (ops.filter fun op =>
      ((from_operation op).path, (from_operation op).method) = p.1).map from_operation :=
  Dict.eq_of_mem_foldl_append
    (fun op => ((from_operation op).path, (from_operation op).method)) from_operation hp

/-- `sorted(rules, key=match_score, reverse=True)` keeps equal scores in order. -/
def sortRules (rules : List RequiredArgsRule) : List RequiredArgsRule :=
  rules.insertionSort fun a b => b.match_score ≤ a.match_score

def ruleOf (p : (Str × Str) × List HttpOperation) : Rule where
  string := ruleString p.1.1
  method := p.1.2
  endpoint :=
    match p.2 with
    | [op] => .operation op.operation
    | ops => .rules (sortRules (ops.map .new))

/-- The `Map` of a `RestServiceOperationRouter`. -/
abbrev Router := List Rule

def create_service_map (service : ServiceModel) : Router :=
  (pathIndex service.operations).map ruleOf

/-- The matched operation and its path parameters; `none` is NotFound. -/
abbrev Outcome := Option (OperationModel × Dict Str Str)

def matchMethod (method : Str) : Str :=
  if method = "OPTIONS".toList then "GET".toList else method

/-- The path match of a request: it reads the strings and methods of the rules. -/
def routePath (matcher : PathMatcher) (router : Router) (req : Request) : PathMatch :=
  matcher (router.map fun r => (r.string, r.method.map Char.toUpper)) (rstrip '/' req.raw_path)
    (matchMethod req.method)

def postProcess (args : Dict Str Str) : Dict Str Str :=
  Dict.ofPairs (args.map fun p => (post_process_arg_name p.1, unquote p.2))

/-- `RestServiceOperationRouter.match`, and the router as it is afterwards. -/
def Router.match_ (matcher : PathMatcher) (router : Router) (req : Request) : Outcome × Router :=
  match routePath matcher router req with
  | .notFound | .methodNotAllowed => (none, router)
  | .rule index args =>
    match router[index]? with
    | none => (none, router)
    | some ⟨_, _, .operation op⟩ => (some (op, postProcess args), router)
    | some ⟨string, method, .rules rules⟩ =>
      let (found, rules') := match_request req rules
      (found.map fun op => (op, postProcess args),
        router.set index ⟨string, method, .rules rules'⟩)

/-- The path parameters of a match are those of the path match. -/
theorem Router.match_path_params {matcher : PathMatcher} {router : Router} {req : Request}
    {op : OperationModel} {params : Dict Str Str}
    (h : (router.match_ matcher req).1 = some (op, params)) :
    ∃ index args, routePath matcher router req = .rule index args ∧ params = postProcess args := by
  rw [Router.match_] at h
  cases hpath : routePath matcher router req with
  | notFound | methodNotAllowed => simp [hpath] at h
  | rule index args =>
    refine ⟨index, args, rfl, ?_⟩
    rw [hpath] at h
    cases hrule : router[index]? with
    | none => simp [hrule] at h
    | some rule =>
      obtain ⟨string, method, endpoint⟩ := rule
      cases endpoint with
      | operation op' =>
        simp only [hrule, Option.some.injEq, Prod.mk.injEq] at h
        exact h.2.symm
      | rules rules =>
        simp only [hrule, Option.map_eq_some_iff, Prod.mk.injEq] at h
        obtain ⟨_, -, -, hargs⟩ := h
        exact hargs.symm

/-- The router after a sequence of requests. -/
def Router.after (matcher : PathMatcher) (router : Router) (history : List Request) : Router :=
  history.foldl (fun router req => (router.match_ matcher req).2) router

end LocalStack.Aws.Protocol.OpRouter
