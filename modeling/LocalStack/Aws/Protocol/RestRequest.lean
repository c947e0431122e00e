import LocalStack.Aws.Protocol.JsonRoundTrip
import LocalStack.Aws.Protocol.RestHeaders
import LocalStack.Aws.Protocol.RestXml
import LocalStack.Lib.HttpHeaders

/-! Requests of the REST protocols: `BaseRestRequestParser` with input members that are
bound to the headers, the query string or the path of a request, and the members in its
body as the parsers of the two protocols read them. The functions of `dateutil`, `email`
and of the body formats are parameters. -/

namespace LocalStack.Aws.Protocol.RestRequest
open LocalStack.Text LocalStack.Decimal LocalStack.Bytes LocalStack.Base64 LocalStack.Calendar
open LocalStack.OrderedDict LocalStack.HttpHeaders LocalStack.DateText
open LocalStack.Aws.Datetime LocalStack.Aws.Protocol.Parser
open LocalStack.Aws.Protocol.RestHeaders (headerPayload Plain headerPayload_intercalate)
open LocalStack.Aws.Protocol.Timestamps (Format)

/-! ## Shapes and requests -/

/-- A scalar shape that is bound to a place. -/
structure Scalar where
  type : ScalarType
  timestampFormat : Option Format := none

inductive Bound
  | scalar (s : Scalar)
  | list (member : Scalar)

/-- A member with its `location` and its name there. What is bound to `headers` is a map of
strings that has a start of names. -/
inductive Member
  | body (shape : Shape)
  | header (name : Str) (bound : Bound)
  | headers (start : Str)
  | querystring (name : Str) (bound : Bound)
  | uri (name : Str) (s : Scalar)

/-- A structure shape. `payload` names a member; whether that is an event stream is a trait
of its shape. -/
structure InputShape where
  payload : Option Str := none
  eventstream : Bool := false
  members : Dict Str Member
  required_members : List Str := []

structure Request where
  method : Str
  headers : Headers
  args : List (Str × Str)
  data : List UInt8
  content_length : Option Nat

inductive Raised
  | error (e : Error)
  | unboundLocalError
  | notImplementedError
  | operationNotFoundParserError
deriving DecidableEq

inductive RequestParserError
  | protocolParserError
  | operationNotFoundParserError
  | unknownParserError
deriving DecidableEq

/-- `_handle_exceptions`. -/
def handle_exceptions : Raised → RequestParserError
  | .error .protocolParserError => .protocolParserError
  | .operationNotFoundParserError => .operationNotFoundParserError
  | _ => .unknownParserError

def lift {α : Type} : Except Error α → Except Raised α
  | .ok a => .ok a
  | .error e => .error (.error e)

/-- `except (TypeError, ValueError, AttributeError)` of `_parse_shape`. -/
def wrapError : Raised → Raised
  | .error .typeError | .error .valueError | .error .attributeError => .error .protocolParserError
  | e => e

/-- `headers.getlist(name)`. -/
def getHeaders (headers : Headers) (name : Str) : List Str :=
  (headers.filter fun e => ikey e.1 = ikey name).map Prod.snd

/-- `args.get(name)`. -/
def getArg (args : List (Str × Str)) (name : Str) : Option Str :=
  (args.find? fun e => e.1 = name).map Prod.snd

/-- `args.getlist(name)`. -/
def getArgs (args : List (Str × Str)) (name : Str) : List Str :=
  (args.filter fun e => e.1 = name).map Prod.snd

/-! ## Parsers -/

structure Libraries where
  isoparse : IsoParse
  parsedate_to_datetime : Str → Except Error Int

/-- What the parsers of the two protocols do with a body, of which `β` is the first parse,
and where they differ. -/
structure BodyProtocol (β : Type) where
  TIMESTAMP_FORMAT : Format
  parse_boolean : Value → Except Error Value
  initial_body_parse : Request → Except Error β
  /-- `{}` in place of a body -/
  empty : β
  isNull : β → Bool
  /-- `_parse_shape` of a payload -/
  parse_shape : Shape → β → Except Error Value
  /-- the node of a member is looked up whether it is needed or not -/
  lookup : β → Except Error Unit
  parse_body_member : β → List Str → Str → Shape → Except Error (Option Value)
  /-- a located member that is missing is set to `None` -/
  setsNone : Bool
  ignore_get_body_errors : Bool

section
variable {β : Type} (lib : Libraries) (P : BodyProtocol β)

/-- `_convert_str_to_timestamp`. -/
def convert_str_to_timestamp (node : Value) : Format → Except Error Value
  | .iso8601 => Parser.convert_str_to_timestamp lib.isoparse node .iso8601
  | .unixtimestamp => Parser.convert_str_to_timestamp lib.isoparse node .unixtimestamp
  | .rfc822 =>
    match node with
    | .str s => (lib.parsedate_to_datetime s).map .datetime
    | _ => .error .typeError

/-- `_parse_shape` of a scalar, given the format of a timestamp without one. -/
def parse_scalar (default : Format) (s : Scalar) (node : Value) : Except Error Value :=
  wrapErrors <|
    match s.type with
    | .string => .ok node
    | .integer | .long => parse_integer node
    | .float | .double => parse_float node
    | .boolean => P.parse_boolean node
    | .blob => parse_blob node
    | .timestamp => convert_str_to_timestamp lib node (s.timestampFormat.getD default)

/-- `_parse_shape` of what was read at a place; the members of a list have no location. -/
def parse_bound (default : Format) : Bound → Value → Except Error Value
  | _, .none => .ok .none
  | .scalar s, node => parse_scalar lib P default s node
  | .list s, node =>
    wrapErrors do
      match node.iter with
      | none => throw .typeError
      | some items => return .list (← items.mapM (parse_scalar lib P P.TIMESTAMP_FORMAT s))

/-- `_parse_header_map`. -/
def parse_header_map (start : Str) (headers : Headers) : Dict Str Value :=
  Dict.ofPairs <| (headers.filter fun e => (ikey start).isPrefixOf (ikey e.1)).map fun e =>
    (e.1.drop start.length, .str e.2)

/-- A value, or `None`. -/
def orNone : Option Str → Value
  | some s => .str s
  | none => .none

/-- `_parse_shape` of a member that has a location. -/
def parse_located (req : Request) (uri_params : Dict Str Str) : Member → Except Raised Value
  | .header name (.list s) =>
    lift (parse_bound lib P .rfc822 (.list s) (headerPayload (getHeaders req.headers name)))
  | .header name (.scalar s) =>
    lift (parse_bound lib P .rfc822 (.scalar s) (orNone (req.headers.get name)))
  | .headers start => .ok (.dict (parse_header_map start req.headers))
  | .querystring name (.list s) =>
    lift (parse_bound lib P .iso8601 (.list s) (.list ((getArgs req.args name).map .str)))
  | .querystring name (.scalar s) =>
    lift (parse_bound lib P .iso8601 (.scalar s) (orNone (getArg req.args name)))
  | .uri name s =>
    match uri_params.get name with
    | some text => lift (parse_bound lib P P.TIMESTAMP_FORMAT (.scalar s) (.str text))
    | none => .error .unboundLocalError
  | .body _ => .ok .none

/-- One turn of the loop of `_parse_structure`. -/
def parse_member (req : Request) (uri_params : Dict Str Str) (required_members : List Str)
    (node : β) (member_name : Str) : Member → Except Raised (Option Value)
  | .body shape => lift (P.parse_body_member node required_members member_name shape)
  | m => do
    lift (P.lookup node)
    let parsed ← parse_located lib P req uri_params m
    if P.setsNone ∨ parsed.isNone = false ∨ member_name ∈ required_members then
      return some parsed
    return none

/-- `_parse_structure` of the input shape. -/
def parse_structure (req : Request) (uri_params : Dict Str Str) (shape : InputShape) (node : β) :
    Except Raised (Dict Str Value) :=
  (Dict.filterMapM (parse_member lib P req uri_params shape.required_members node)
    shape.members).mapError wrapError

/-- The payload, where it is given. -/
def parse_payload_member (req : Request) (shape : InputShape) (name : Str) :
    Except Raised (Option Value) :=
  if shape.eventstream then .error .notImplementedError
  else
    match shape.members.get name with
    | some (.body (.scalar _ .string)) =>
      if req.data = [] then .ok none
      else
        match decodeUtf8 req.data with
        | some body => .ok (some (.str body))
        | none => .error (.error .valueError)
    | some (.body (.scalar _ .blob)) =>
      .ok (if req.content_length = some 0 then none else some (.bytes req.data))
    | some (.body body_shape) => lift do
      let original_parsed ← P.initial_body_parse req
      return some (← P.parse_shape body_shape original_parsed)
    | _ => .error (.error .keyError)

/-- The first parse of a body that is no payload. -/
def parse_whole_body (req : Request) : Except Raised β :=
  match P.initial_body_parse req with
  | .ok node => .ok node
  | .error .protocolParserError =>
    if (req.method = "GET".toList ∨ req.method = "HEAD".toList) ∧ P.ignore_get_body_errors then
      .ok P.empty
    else .error (.error .protocolParserError)
  | .error e => .error (.error e)

/-- `_parse_payload`. A body that is null has no entries to update from. -/
def parse_payload (req : Request) (uri_params : Dict Str Str) (shape : InputShape) :
    Except Raised (Dict Str Value) :=
  match shape.payload with
  | some payload_member_name => do
    let payload ← parse_payload_member P req shape payload_member_name
    let final_parsed ← parse_structure lib P req uri_params shape P.empty
    match payload with
    | some value => return final_parsed.set payload_member_name value
    | none => return final_parsed
  | none => do
    let node ← parse_whole_body P req
    if P.isNull node then throw (.error .typeError)
    parse_structure lib P req uri_params shape node

/-- `parse`, with the operation router and the input shape of an operation. -/
def parse {ω : Type} (route : Request → Option (ω × Dict Str Str))
    (input_shape : ω → Option InputShape) (req : Request) :
    Except RequestParserError (ω × Dict Str Value) :=
  Except.mapError handle_exceptions <|
    match route req with
    | none => .error .operationNotFoundParserError
    | some (operation, uri_params) =>
      match input_shape operation with
      | none => .ok (operation, [])
      | some shape => (parse_payload lib P req uri_params shape).map fun d => (operation, d)

end

/-- `RestJSONRequestParser` for bodies that are JSON; a boolean is what it is. -/
def restJson (isoparse : IsoParse) (loads : List UInt8 → Except Error Value) :
    BodyProtocol Value where
  TIMESTAMP_FORMAT := .unixtimestamp
  parse_boolean := .ok
  initial_body_parse req := if req.data = [] then .ok (.dict []) else loads req.data
  empty := .dict []
  isNull := Value.isNone
  parse_shape := Json.parse_shape isoparse
  lookup
    | .dict _ => .ok ()
    | _ => .error .attributeError
  parse_body_member value required_members member_name shape :=
    match value with
    | .dict d =>
      (Json.parse_shape isoparse shape
        ((Dict.get d (shape.getSerializedName member_name)).getD .none)).map fun parsed =>
          if parsed.isNone = false ∨ member_name ∈ required_members then some parsed else none
    | _ => .error .attributeError
  setsNone := false
  ignore_get_body_errors := false

/-- `RestXMLRequestParser`; a body is its root and the children by their names. -/
def restXml (isoparse : IsoParse) (dom : List UInt8 → Except Error RestXml.Element) :
    BodyProtocol (RestXml.Node × Dict Str RestXml.Node) where
  TIMESTAMP_FORMAT := .iso8601
  parse_boolean := Parser.parse_boolean
  initial_body_parse req :=
    (if req.data = [] then .ok (.mk [] [] .none []) else dom req.data).map fun root =>
      (.element root, RestXml.build_name_to_xml_node root)
  empty := (.list [], [])
  isNull _ := false
  parse_shape shape node := RestXml.parse_shape isoparse shape node.1
  lookup _ := .ok ()
  parse_body_member node required_members member_name shape :=
    match node.2.get (RestXml.member_key_name shape member_name) with
    | some member_node => (RestXml.parse_shape isoparse shape member_node).map some
    | none => RestXml.missingMember (member_name ∈ required_members) shape.serialization node.1
  setsNone := true
  ignore_get_body_errors := true

/-! ## What a client sends -/

def boolText (b : Bool) : Str := if b then "true".toList else "false".toList

/-- `Written default s v text`: the value `v` of a scalar is sent as `text`. A float has any
text that `float` reads as it. -/
inductive Written (default : Format) (s : Scalar) : Value → Str → Prop
  | string (h : s.type = .string) (text : Str) : Written default s (.str text) text
  | integer (h : s.type = .integer ∨ s.type = .long) (i : Int) :
      Written default s (.int i) (intToStr i)
  | float (h : s.type = .float ∨ s.type = .double) {x : BinaryFloat.Number} {text : Str}
      (hread : FloatText.float text = some x) : Written default s (.ofNumber x) text
  | boolean (h : s.type = .boolean) (b : Bool) : Written default s (.bool b) (boolText b)
  | blob (h : s.type = .blob) (bs : List UInt8) : Written default s (.bytes bs) (b64encode bs)
  | iso8601 (h : s.type = .timestamp) (hformat : s.timestampFormat.getD default = .iso8601)
      (t : Int) (hyear : 1000 ≤ (dateOf t).year ∧ (dateOf t).year ≤ 9999) :
      Written default s (.datetime t) (iso8601 t)
  | unixtimestamp (h : s.type = .timestamp)
      (hformat : s.timestampFormat.getD default = .unixtimestamp) (t : Int) (hrange : InRange t)
      (hwhole : t % 1000000 = 0) : Written default s (.datetime t) (intToStr (t / 1000000))
  | rfc822 (h : s.type = .timestamp) (hformat : s.timestampFormat.getD default = .rfc822)
      (t : Int) (hrange : InRange t) (hwhole : t % 1000000 = 0) :
      Written default s (.datetime t) (formatRfc822 t)

/-- What is sent for a member. -/
structure Lines where
  headers : List (Str × Str) := []
  args : List (Str × Str) := []
  uri : List (Str × Str) := []

/-- The place of a member. Header names may be sent in any case. -/
inductive Places (TIMESTAMP_FORMAT : Format) : Member → Value → Lines → Prop
  | header {name name' : Str} {s : Scalar} {v : Value} {text : Str} (hn : ikey name' = ikey name)
      (hw : Written .rfc822 s v text) :
      Places TIMESTAMP_FORMAT (.header name (.scalar s)) v { headers := [(name', text)] }
  | headerList {name name' : Str} {s : Scalar} {vs : List Value} {texts : List Str}
      (hn : ikey name' = ikey name) (hne : texts ≠ []) (hplain : ∀ text ∈ texts, Plain text)
      (hw : List.Forall₂ (Written TIMESTAMP_FORMAT s) vs texts) :
      Places TIMESTAMP_FORMAT (.header name (.list s)) (.list vs)
        { headers := [(name', [','].intercalate texts)] }
  | headers {start start' : Str} {d : Dict Str Str} (hn : ikey start' = ikey start)
      (hd : d.WF) :
      Places TIMESTAMP_FORMAT (.headers start) (.dict (d.map fun e => (e.1, .str e.2)))
        { headers := d.map fun e => (start' ++ e.1, e.2) }
  | querystring {name : Str} {s : Scalar} {v : Value} {text : Str}
      (hw : Written .iso8601 s v text) :
      Places TIMESTAMP_FORMAT (.querystring name (.scalar s)) v { args := [(name, text)] }
  | querystringList {name : Str} {s : Scalar} {vs : List Value} {texts : List Str}
      (hw : List.Forall₂ (Written TIMESTAMP_FORMAT s) vs texts) :
      Places TIMESTAMP_FORMAT (.querystring name (.list s)) (.list vs)
        { args := texts.map fun text => (name, text) }
  | uri {name : Str} {s : Scalar} {v : Value} {text : Str}
      (hw : Written TIMESTAMP_FORMAT s v text) :
      Places TIMESTAMP_FORMAT (.uri name s) v { uri := [(name, text)] }

namespace Member

def isBody : Member → Bool
  | .body _ => true
  | _ => false

def isUri : Member → Bool
  | .uri _ _ => true
  | _ => false

/-- A header that the member is read from. -/
def ofHeader : Member → Str × Str → Bool
  | .header name _, e => ikey e.1 = ikey name
  | .headers start, e => (ikey start).isPrefixOf (ikey e.1)
  | _, _ => false

/-- An argument that the member is read from. -/
def ofArg : Member → Str × Str → Bool
  | .querystring name _, e => e.1 = name
  | _, _ => false

/-- Two members have places of their own. -/
def Apart : Member → Member → Prop
  | .header name _, .header name' _ => ikey name ≠ ikey name'
  | .header name _, .headers start => ¬ikey start <+: ikey name
  | .headers start, .header name _ => ¬ikey start <+: ikey name
  | .headers start, .headers start' => ¬ikey start <+: ikey start' ∧ ¬ikey start' <+: ikey start
  | .querystring name _, .querystring name' _ => name ≠ name'
  | _, _ => True

/-- What is read of a member that is not sent. -/
def absent : Member → Value
  | .headers _ => .dict []
  | .querystring _ (.list _) => .list []
  | _ => .none

end Member

/-- A value that is set. -/
def given (d : Dict Str Value) (name : Str) : Option Value :=
  (d.get name).filter fun v => !v.isNone

/-- The lines of a request are those of the members, each in its order, and others that
concern no member. -/
def Interleaved (concerns : Member → Str × Str → Bool) (members : Dict Str Member)
    (own : Str → List (Str × Str)) (all : List (Str × Str)) : Prop :=
  ∃ es : List (Option Str × Str × Str), all = es.map Prod.snd ∧
    (∀ name, (es.filter fun e => e.1 = some name).map Prod.snd = own name) ∧
    ∀ e ∈ es, (e.1 = none → ∀ p ∈ members, concerns p.2 e.2 = false) ∧
      ∀ name, e.1 = some name → name ∈ members.keys

/-- The request carries the values of `d`, whatever else it carries. -/
structure Sent (TIMESTAMP_FORMAT : Format) (shape : InputShape) (d : Dict Str Value)
    (lines : Str → Lines) (req : Request) (uri_params : Dict Str Str) : Prop where
  set : ∀ name m v, shape.members.get name = some m → m.isBody = false → given d name = some v →
    Places TIMESTAMP_FORMAT m v (lines name)
  missing : ∀ name m, shape.members.get name = some m → m.isBody = false →
    given d name = none → lines name = {} ∧ m.isUri = false
  body : ∀ name m, shape.members.get name = some m → m.isBody = true → lines name = {}
  headers : Interleaved Member.ofHeader shape.members (fun name => (lines name).headers) req.headers
  args : Interleaved Member.ofArg shape.members (fun name => (lines name).args) req.args
  uri : ∀ name, ∀ e ∈ (lines name).uri, uri_params.get e.1 = some e.2

/-- The members have places of their own. -/
structure Separate (shape : InputShape) : Prop where
  wf : shape.members.WF
  apart : ∀ name name' m m', shape.members.get name = some m → shape.members.get name' = some m' →
    name ≠ name' → m.Apart m'

/-- What the libraries are documented to do. -/
structure Libraries.Documented (lib : Libraries) : Prop where
  isoparse : Json.ParsesIso8601 lib.isoparse
  parsedate_to_datetime : ∀ t, InRange t →
    lib.parsedate_to_datetime (formatRfc822 t) = .ok (t / 1000000 * 1000000)

/-- `back` is what a protocol reads of the text of a boolean. -/
structure BodyProtocol.Lawful {β : Type} (P : BodyProtocol β) (back : Bool → Value) : Prop where
  boolean : ∀ b, P.parse_boolean (.str (boolText b)) = .ok (back b)
  empty : P.lookup P.empty = .ok ()
  noBody : ∀ req, req.data = [] → ∃ node,
    P.initial_body_parse req = .ok node ∧ P.isNull node = false ∧ P.lookup node = .ok ()

def readBack (back : Bool → Value) : Value → Value
  | .bool b => back b
  | v => v

/-- What comes back for a value that is sent. -/
def readValue (back : Bool → Value) : Value → Value
  | .list vs => .list (vs.map (readBack back))
  | v => readBack back v

/-! ## Reading it -/

section
variable {β : Type} {lib : Libraries} {P : BodyProtocol β} {back : Bool → Value} {default : Format}
  {s : Scalar} {v : Value} {text : Str}

theorem parse_scalar_written (hlib : lib.Documented) (hP : P.Lawful back)
    (hw : Written default s v text) :
    parse_scalar lib P default s (.str text) = .ok (readBack back v) := by
  cases hw with
  | string h => simp [parse_scalar, h, readBack]
  | integer h i =>
    rcases h with h | h <;>
      simp [parse_scalar, h, parse_integer, Except.map, readBack]
  | @float h x text hread =>
    have hback : readBack back (.ofNumber x) = .ofNumber x := by cases x <;> rfl
    rw [hback]
    rcases h with h | h <;>
      simp [parse_scalar, h, parse_float, pyFloat, hread, orValueError, Except.map]
  | boolean h b => simp [parse_scalar, h, hP.boolean, readBack]
  | blob h bs =>
    simp [parse_scalar, h, parse_blob, b64decode_b64encode, orValueError, Except.map, readBack]
  | iso8601 h hformat t hyear =>
    simp [parse_scalar, h, hformat, convert_str_to_timestamp, Parser.convert_str_to_timestamp,
      hlib.isoparse t hyear.1 hyear.2, Except.map, readBack]
  | unixtimestamp h hformat t hrange hwhole =>
    have htime : fromtimestamp ((t / 1000000 : Int) : ℚ) = .ok t := by
      have ht : ((t / 1000000 : Int) : ℚ) = timestamp t := by
        rw [timestamp]
        have hdiv : ((t / 1000000 : Int) : ℚ) * 1000000 = t := by
          exact_mod_cast Int.ediv_mul_cancel (Int.dvd_of_emod_eq_zero hwhole)
        linarith
      rw [ht, fromtimestamp_timestamp hrange]
    simp [parse_scalar, h, hformat, convert_str_to_timestamp, Parser.convert_str_to_timestamp,
      bind, Except.bind, htime, pure, Except.pure, readBack]
  | rfc822 h hformat t hrange hwhole =>
    have htime : t / 1000000 * 1000000 = t := Int.ediv_mul_cancel (Int.dvd_of_emod_eq_zero hwhole)
    simp [parse_scalar, h, hformat, convert_str_to_timestamp,
      hlib.parsedate_to_datetime t hrange, Except.map, htime, readBack]

theorem parse_scalars_written (hlib : lib.Documented) (hP : P.Lawful back) {vs : List Value}
    {texts : List Str} (hw : List.Forall₂ (Written default s) vs texts) :
    (texts.map Value.str).mapM (parse_scalar lib P default s) = .ok (vs.map (readBack back)) := by
  induction hw with
  | nil => rfl
  | cons hv _ ih => exact Lists.mapM_cons_ok (parse_scalar_written hlib hP hv) ih

theorem parse_list_written (hlib : lib.Documented) (hP : P.Lawful back) {vs : List Value}
    {texts : List Str} (hw : List.Forall₂ (Written P.TIMESTAMP_FORMAT s) vs texts) :
    parse_bound lib P default (.list s) (.list (texts.map .str)) =
      .ok (.list (vs.map (readBack back))) := by
  simp only [parse_bound, Value.iter, parse_scalars_written hlib hP hw]
  rfl

theorem Written.readValue_eq (hw : Written default s v text) :
    readValue back v = readBack back v := by
  cases hw with
  | @float _ x => cases x <;> rfl
  | _ => rfl

theorem parse_bound_written (hlib : lib.Documented) (hP : P.Lawful back)
    (hw : Written default s v text) :
    parse_bound lib P default (.scalar s) (.str text) = .ok (readValue back v) := by
  rw [hw.readValue_eq]
  exact parse_scalar_written hlib hP hw

theorem headers_get_filter (h : Headers) (name : Str) :
    h.get name = ((h.filter fun e => ikey e.1 = ikey name).head?).map Prod.snd := by
  rw [Headers.get, List.head?_filter]

theorem getArg_filter (args : List (Str × Str)) (name : Str) :
    getArg args name = ((args.filter fun e => e.1 = name).head?).map Prod.snd := by
  rw [getArg, List.head?_filter]

/-- A member that is sent is read from its own lines. -/
theorem parse_located_places (hlib : lib.Documented) (hP : P.Lawful back) {req : Request}
    {uri_params : Dict Str Str} {m : Member} {lines : Lines}
    (hm : Places P.TIMESTAMP_FORMAT m v lines)
    (hheaders : req.headers.filter m.ofHeader = lines.headers)
    (hargs : req.args.filter m.ofArg = lines.args)
    (huri : ∀ e ∈ lines.uri, uri_params.get e.1 = some e.2) :
    parse_located lib P req uri_params m = .ok (readValue back v) := by
  cases hm with
  | @header name name' s v text hn hw =>
    have hget : req.headers.get name = some text := by
      rw [headers_get_filter, show (req.headers.filter fun e => ikey e.1 = ikey name) = _
        from hheaders]
      rfl
    simp only [parse_located, hget, orNone, parse_bound_written hlib hP hw, lift]
  | @headerList name name' s vs texts hn hne hplain hw =>
    have hget : getHeaders req.headers name = [[','].intercalate texts] := by
      rw [getHeaders, show (req.headers.filter fun e => ikey e.1 = ikey name) = _ from hheaders]
      rfl
    simp only [parse_located, hget, headerPayload_intercalate hne hplain,
      parse_list_written hlib hP hw, lift, readValue]
  | @headers start start' d hn hd =>
    have hlen : start'.length = start.length := by
      rw [← List.length_map Char.toLower, show start'.map Char.toLower = _ from hn]
      exact List.length_map _
    have hentries : (d.map fun e => (start' ++ e.1, e.2)).map (fun e : Str × Str =>
        (e.1.drop start.length, Value.str e.2)) = d.map fun e => (e.1, .str e.2) := by
      rw [List.map_map]
      refine List.map_congr_left fun e _ => ?_
      simp [← hlen]
    have hwf : Dict.WF (d.map fun e => (e.1, Value.str e.2)) := by
      rw [Dict.WF, Dict.keys, List.map_map]
      exact hd
    have hvalues : readValue back (.dict (d.map fun e => (e.1, .str e.2))) =
        .dict (d.map fun e => (e.1, .str e.2)) := rfl
    rw [parse_located, parse_header_map,
      show (req.headers.filter fun e => (ikey start).isPrefixOf (ikey e.1)) = _ from hheaders,
      hentries, Dict.ofPairs_of_wf hwf, hvalues]
  | @querystring name s v text hw =>
    have hget : getArg req.args name = some text := by
      rw [getArg_filter, show (req.args.filter fun e => e.1 = name) = _ from hargs]
      rfl
    simp only [parse_located, hget, orNone, parse_bound_written hlib hP hw, lift]
  | @querystringList name s vs texts hw =>
    have hget : getArgs req.args name = texts := by
      rw [getArgs, show (req.args.filter fun e => e.1 = name) = _ from hargs, List.map_map]
      exact List.map_id texts
    simp only [parse_located, hget, parse_list_written hlib hP hw, lift, readValue]
  | @uri name s v text hw =>
    have hget : uri_params.get name = some text := huri (name, text) (by simp)
    simp only [parse_located, hget, parse_bound_written hlib hP hw, lift]

/-- A member that is not sent. -/
theorem parse_located_absent {req : Request} {uri_params : Dict Str Str} {m : Member}
    (hbody : m.isBody = false) (huri : m.isUri = false)
    (hheaders : req.headers.filter m.ofHeader = []) (hargs : req.args.filter m.ofArg = []) :
    parse_located lib P req uri_params m = .ok m.absent := by
  cases m with
  | body shape => cases hbody
  | uri name s => cases huri
  | header name bound =>
    have hnone : (req.headers.filter fun e => ikey e.1 = ikey name) = [] := hheaders
    cases bound with
    | scalar s =>
      simp only [parse_located, headers_get_filter, hnone, List.head?_nil, Option.map_none, orNone]
      rfl
    | list s =>
      simp only [parse_located, getHeaders, hnone, List.map_nil]
      rfl
  | headers start =>
    have hnone : (req.headers.filter fun e => (ikey start).isPrefixOf (ikey e.1)) = [] := hheaders
    rw [parse_located, parse_header_map, hnone]
    rfl
  | querystring name bound =>
    have hnone : (req.args.filter fun e => e.1 = name) = [] := hargs
    cases bound with
    | scalar s =>
      simp only [parse_located, getArg_filter, hnone, List.head?_nil, Option.map_none, orNone]
      rfl
    | list s =>
      simp only [parse_located, getArgs, hnone, List.map_nil]
      rfl

/-! ## Whose a line is -/

theorem Places.ofHeader {f : Format} {m : Member} {lines : Lines} (hm : Places f m v lines) :
    ∀ e ∈ lines.headers, m.ofHeader e = true := by
  cases hm with
  | header hn hw => simpa [Member.ofHeader] using hn
  | headerList hn hne hplain hw => simpa [Member.ofHeader] using hn
  | @headers start start' d hn hd =>
    intro e he
    obtain ⟨x, -, rfl⟩ := List.mem_map.mp he
    have hkey : ikey (start' ++ x.1) = ikey start ++ ikey x.1 := by
      rw [ikey, List.map_append]
      exact congrArg (· ++ ikey x.1) hn
    rw [Member.ofHeader, List.isPrefixOf_iff_prefix, hkey]
    exact List.prefix_append _ _
  | _ => simp

theorem Places.ofArg {f : Format} {m : Member} {lines : Lines} (hm : Places f m v lines) :
    ∀ e ∈ lines.args, m.ofArg e = true := by
  cases hm with
  | querystring hw => simp [Member.ofArg]
  | querystringList hw =>
    intro e he
    obtain ⟨x, -, rfl⟩ := List.mem_map.mp he
    simp [Member.ofArg]
  | _ => simp

/-- A header is read for one member only. -/
theorem Member.Apart.ofHeader {m m' : Member} (ha : m.Apart m') {e : Str × Str}
    (hm : m.ofHeader e = true) : m'.ofHeader e = false := by
  cases m with
  | header name bound =>
    have hname : ikey e.1 = ikey name := by simpa [Member.ofHeader] using hm
    cases m' with
    | header name' bound' =>
      have hne : ikey name ≠ ikey name' := ha
      simpa [Member.ofHeader, hname] using hne
    | headers start =>
      refine Bool.eq_false_iff.mpr fun hs => ha ?_
      rw [← hname]
      exact List.isPrefixOf_iff_prefix.mp hs
    | _ => rfl
  | headers start =>
    have hstart : ikey start <+: ikey e.1 := List.isPrefixOf_iff_prefix.mp hm
    cases m' with
    | header name bound =>
      have hne : ikey e.1 ≠ ikey name := fun he => ha (he ▸ hstart)
      simpa [Member.ofHeader] using hne
    | headers start' =>
      refine Bool.eq_false_iff.mpr fun hs => ?_
      rcases List.prefix_or_prefix_of_prefix hstart (List.isPrefixOf_iff_prefix.mp hs) with h | h
      · exact ha.1 h
      · exact ha.2 h
    | _ => rfl
  | _ => cases hm

theorem Member.Apart.ofArg {m m' : Member} (ha : m.Apart m') {e : Str × Str}
    (hm : m.ofArg e = true) : m'.ofArg e = false := by
  cases m with
  | querystring name bound =>
    have hname : e.1 = name := by simpa [Member.ofArg] using hm
    cases m' with
    | querystring name' bound' =>
      have hne : name ≠ name' := ha
      simpa [Member.ofArg, hname] using hne
    | _ => rfl
  | _ => cases hm

/-- Among interleaved lines a member finds its own. -/
theorem Interleaved.filter_eq {concerns : Member → Str × Str → Bool} {members : Dict Str Member}
    {own : Str → List (Str × Str)} {all : List (Str × Str)}
    (hi : Interleaved concerns members own all) {name : Str} {m : Member}
    (hm : members.get name = some m)
    (hown : ∀ e ∈ own name, concerns m e = true)
    (hother : ∀ name' ≠ name, name' ∈ members.keys → ∀ e ∈ own name', concerns m e = false) :
    all.filter (concerns m) = own name := by
  obtain ⟨es, rfl, hlabels, hforeign⟩ := hi
  rw [← hlabels name, List.filter_map]
  refine congrArg (List.map Prod.snd) (List.filter_congr fun e he => ?_)
  have hline : ∀ name', e.1 = some name' → e.2 ∈ own name' := fun name' hl => by
    rw [← hlabels name']
    exact List.mem_map_of_mem (List.mem_filter.mpr ⟨he, by simpa using hl⟩)
  rcases hl : e.1 with _ | name'
  · simpa using (hforeign e he).1 hl (name, m) (Dict.mem_of_get hm)
  · by_cases hne : name' = name
    · subst hne
      simpa using hown e.2 (hline _ hl)
    · simpa [hne] using hother name' hne ((hforeign e he).2 _ hl) e.2 (hline _ hl)

/-! ## Whole requests -/

section Parts
variable {ε κ ν μ : Type} [DecidableEq κ] {f : κ → ν → Except ε (Option μ)} {g : κ → ν → Option μ}
  {keep : ν → Bool} {ms : Dict κ ν}

omit [DecidableEq κ] in
/-- Entries that never fail make no difference to a failure. -/
theorem filterMapM_filter_error
    (hf : ∀ k v, (k, v) ∈ ms → keep v = false → f k v = .ok (g k v)) (e : ε) :
    Dict.filterMapM f ms = .error e ↔
      Dict.filterMapM f (ms.filter fun p => keep p.2) = .error e := by
  induction ms with
  | nil => rfl
  | cons p ms ih =>
    obtain ⟨k, v⟩ := p
    have ih := ih fun k v hp => hf k v (List.mem_cons_of_mem _ hp)
    have hstep : ∀ l : Dict κ ν, Dict.filterMapM f ((k, v) :: l) =
        match f k v with
        | .error e => .error e
        | .ok none => Dict.filterMapM f l
        | .ok (some w) => (Dict.filterMapM f l).map fun r => (k, w) :: r := by
      intro l
      rw [Dict.filterMapM]
      rcases f k v with e' | _ | w
      · rfl
      · rfl
      · cases Dict.filterMapM f l <;> rfl
    have hmap : ∀ (r : Except ε (Dict κ μ)) (w : μ),
        r.map (fun r => (k, w) :: r) = .error e ↔ r = .error e := by
      intro r w
      cases r <;> simp [Except.map]
    cases hk : keep v with
    | false =>
      rw [List.filter_cons_of_neg (by simp [hk]), hstep, hf k v List.mem_cons_self hk,
        ← ih]
      cases g k v with
      | none => rfl
      | some w => exact hmap _ w
    | true =>
      rw [List.filter_cons_of_pos (by simpa using hk), hstep, hstep]
      cases f k v with
      | error e' => rfl
      | ok o =>
        cases o with
        | none => exact ih
        | some w => exact (hmap _ w).trans (ih.trans (hmap _ w).symm)

theorem get_filter_value (hms : ms.WF) {k : κ} {v : ν} (hv : ms.get k = some v)
    (hk : keep v = true) : Dict.get (ms.filter fun p => keep p.2) k = some v :=
  Dict.get_of_mem (Dict.wf_sublist hms List.filter_sublist)
    (List.mem_filter.mpr ⟨Dict.mem_of_get hv, hk⟩)

/-- What the other entries give is found beside them. -/
theorem filterMapM_filter (hms : ms.WF)
    (hf : ∀ k v, (k, v) ∈ ms → keep v = false → f k v = .ok (g k v)) {r : Dict κ μ}
    (hr : Dict.filterMapM f ms = .ok r) :
    ∃ r', Dict.filterMapM f (ms.filter fun p => keep p.2) = .ok r' ∧
      ∀ k v, ms.get k = some v → r.get k = if keep v then r'.get k else g k v := by
  let G : κ → ν → Option μ := fun k v => (f k v).toOption.join
  have hG : ∀ p ∈ ms, f p.1 p.2 = .ok (G p.1 p.2) := fun p hp => by
    obtain ⟨o, ho⟩ := Dict.exists_ok_of_filterMapM hr p hp
    cases o <;> simp [G, ho, Except.toOption]
  have hwf := Dict.wf_sublist hms (List.filter_sublist (p := fun p => keep p.2))
  refine ⟨_, Dict.filterMapM_ok fun p hp => hG p (List.mem_filter.mp hp).1, fun k v hv => ?_⟩
  rw [Dict.filterMapM_ok hG, Except.ok.injEq] at hr
  rw [← hr, Dict.get_filterMap hms, hv, Dict.get_filterMap hwf]
  cases hk : keep v with
  | true => simp [get_filter_value hms hv hk]
  | false =>
    have hg := hG _ (Dict.mem_of_get hv)
    rw [hf k v (Dict.mem_of_get hv) hk, Except.ok.injEq] at hg
    simpa using hg.symm

end Parts

section Sent
variable {shape : InputShape} {d : Dict Str Value} {lines : Str → Lines} {req : Request}
  {uri_params : Dict Str Str}

/-- The lines of a member concern it. -/
theorem Sent.lines_concern (hs : Sent P.TIMESTAMP_FORMAT shape d lines req uri_params)
    {name : Str} {m : Member} (hm : shape.members.get name = some m) :
    (∀ e ∈ (lines name).headers, m.ofHeader e = true) ∧
      ∀ e ∈ (lines name).args, m.ofArg e = true := by
  cases hb : m.isBody with
  | true => simp [hs.body name m hm hb]
  | false =>
    cases hg : given d name with
    | none => simp [(hs.missing name m hm hb hg).1]
    | some v => exact ⟨(hs.set name m v hm hb hg).ofHeader, (hs.set name m v hm hb hg).ofArg⟩

/-- What the parser reads for a member whatever the others are. -/
def Member.read (back : Bool → Value) (m : Member) : Option Value → Value
  | some v => readValue back v
  | none => m.absent

/-- A located member is read from its own lines alone. -/
theorem parse_located_sent (hlib : lib.Documented) (hP : P.Lawful back) (hshape : Separate shape)
    (hs : Sent P.TIMESTAMP_FORMAT shape d lines req uri_params) {name : Str} {m : Member}
    (hm : shape.members.get name = some m) (hb : m.isBody = false) :
    parse_located lib P req uri_params m = .ok (m.read back (given d name)) := by
  have hother : ∀ name' ≠ name, name' ∈ shape.members.keys →
      (∀ e ∈ (lines name').headers, m.ofHeader e = false) ∧
        ∀ e ∈ (lines name').args, m.ofArg e = false := by
    intro name' hne hk
    obtain ⟨m', hm'⟩ := Dict.exists_get hk
    have hapart := hshape.apart name' name m' m hm' hm hne
    obtain ⟨hh, ha⟩ := hs.lines_concern hm'
    exact ⟨fun e he => hapart.ofHeader (hh e he), fun e he => hapart.ofArg (ha e he)⟩
  have hheaders : req.headers.filter m.ofHeader = (lines name).headers :=
    hs.headers.filter_eq hm (hs.lines_concern hm).1 fun name' hne hk => (hother name' hne hk).1
  have hargs : req.args.filter m.ofArg = (lines name).args :=
    hs.args.filter_eq hm (hs.lines_concern hm).2 fun name' hne hk => (hother name' hne hk).2
  cases hg : given d name with
  | some v =>
    exact parse_located_places hlib hP (hs.set name m v hm hb hg) hheaders hargs (hs.uri name)
  | none =>
    obtain ⟨hlines, huri⟩ := hs.missing name m hm hb hg
    rw [hlines] at hheaders hargs
    exact parse_located_absent hb huri hheaders hargs

/-- A member that is left out where nothing was read. -/
def kept (P : BodyProtocol β) (required_members : List Str) (name : Str) (v : Value) :
    Option Value :=
  if P.setsNone ∨ v.isNone = false ∨ name ∈ required_members then some v else none

theorem parse_member_sent (hlib : lib.Documented) (hP : P.Lawful back) (hshape : Separate shape)
    (hs : Sent P.TIMESTAMP_FORMAT shape d lines req uri_params) {node : β}
    (hnode : P.lookup node = .ok ()) {name : Str} {m : Member}
    (hm : shape.members.get name = some m) (hb : m.isBody = false) :
    parse_member lib P req uri_params shape.required_members node name m =
      .ok (kept P shape.required_members name (m.read back (given d name))) := by
  have hread := parse_located_sent hlib hP hshape hs hm hb
  cases m with
  | body _ => cases hb
  | _ =>
    simp only [parse_member, hnode, hread, lift, bind, Except.bind, kept]
    split <;> rfl

/-- The shape with the members in the body only. -/
def InputShape.inBody (shape : InputShape) : InputShape :=
  { shape with members := shape.members.filter fun p => p.2.isBody }

/-- What is found of a member: of one in the body what the body gives, of another one what
was sent. -/
def found (P : BodyProtocol β) (back : Bool → Value) (shape : InputShape) (d body : Dict Str Value)
    (name : Str) (m : Member) : Option Value :=
  if m.isBody then body.get name
  else kept P shape.required_members name (m.read back (given d name))

/-- Two parses fail alike, or they are related. -/
def Extends {ε α : Type} (r r' : Except ε α) (rel : α → α → Prop) : Prop :=
  (∃ e, r = .error e ∧ r' = .error e) ∨ ∃ a a', r = .ok a ∧ r' = .ok a' ∧ rel a a'

theorem parse_structure_sent (hlib : lib.Documented) (hP : P.Lawful back)
    (hshape : Separate shape) (hs : Sent P.TIMESTAMP_FORMAT shape d lines req uri_params)
    {node : β} (hnode : P.lookup node = .ok ()) :
    Extends (parse_structure lib P req uri_params shape node)
      (parse_structure lib P req uri_params shape.inBody node) fun result body =>
        ∀ name m, shape.members.get name = some m →
          result.get name = found P back shape d body name m := by
  have hlocated : ∀ name m, (name, m) ∈ shape.members → m.isBody = false →
      parse_member lib P req uri_params shape.required_members node name m =
        .ok (kept P shape.required_members name (m.read back (given d name))) :=
    fun name m hp hb => parse_member_sent hlib hP hshape hs hnode (Dict.get_of_mem hshape.wf hp) hb
  cases hr : Dict.filterMapM (parse_member lib P req uri_params shape.required_members node)
      shape.members with
  | error e =>
    have he := (filterMapM_filter_error hlocated e).mp hr
    refine .inl ⟨wrapError e, ?_, ?_⟩
    · rw [parse_structure, hr]
      rfl
    · rw [parse_structure, InputShape.inBody, he]
      rfl
  | ok r =>
    obtain ⟨r', hr', hget⟩ := filterMapM_filter hshape.wf hlocated hr
    refine .inr ⟨r, r', ?_, ?_, hget⟩
    · rw [parse_structure, hr]
      rfl
    · rw [parse_structure, InputShape.inBody, hr']
      rfl

theorem parse_payload_member_inBody (hwf : shape.members.WF) (name : Str) :
    parse_payload_member P req shape.inBody name = parse_payload_member P req shape name := by
  cases hm : shape.members.get name with
  | none =>
    have hnone : shape.inBody.members.get name = none := by
      rw [Dict.get_eq_none_iff] at hm ⊢
      exact fun hk => hm (Dict.mem_keys_of_sublist List.filter_sublist hk)
    simp only [parse_payload_member, hm, hnone]
    rfl
  | some m =>
    cases hb : m.isBody with
    | true =>
      have hm' : shape.inBody.members.get name = some m := get_filter_value hwf hm hb
      simp only [parse_payload_member, hm, hm']
      rfl
    | false =>
      have hnone : shape.inBody.members.get name = none := by
        rw [Dict.get_eq_none_iff]
        intro hk
        obtain ⟨m', hm'⟩ := Dict.exists_get hk
        obtain ⟨hmem, hb'⟩ := List.mem_filter.mp (Dict.mem_of_get hm')
        rw [Dict.get_of_mem hwf hmem] at hm
        cases hm
        rw [hb] at hb'
        cases hb'
      simp only [parse_payload_member, hm, hnone]
      cases m with
      | body _ => cases hb
      | _ => rfl

/-- What a parse of the body gives is an object, so that the members can be looked up. -/
def BodyIsObject (P : BodyProtocol β) (req : Request) : Prop :=
  ∀ node, parse_whole_body P req = .ok node → P.lookup node = .ok ()

theorem found_set_body {result body : Dict Str Value} {name payload : Str} {m : Member}
    {value : Value} (hpayload : ∀ m', shape.members.get payload = some m' → m'.isBody = true)
    (hm : shape.members.get name = some m)
    (hget : result.get name = found P back shape d body name m) :
    (result.set payload value).get name =
      found P back shape d (body.set payload value) name m := by
  by_cases hn : name = payload
  · subst hn
    rw [found, if_pos (hpayload m hm), Dict.get_set_self, Dict.get_set_self]
  · rw [Dict.get_set_ne _ _ (Ne.symm hn), hget, found, found, Dict.get_set_ne _ _ (Ne.symm hn)]

theorem isBody_of_payload {name : Str} {value : Option Value}
    (h : parse_payload_member P req shape name = .ok value) :
    ∀ m, shape.members.get name = some m → m.isBody = true := by
  intro m hm
  cases m with
  | body _ => rfl
  | _ =>
    simp only [parse_payload_member, hm] at h
    split at h <;> cases h

theorem parse_payload_sent (hlib : lib.Documented) (hP : P.Lawful back)
    (hshape : Separate shape) (hs : Sent P.TIMESTAMP_FORMAT shape d lines req uri_params)
    (hbody : BodyIsObject P req) :
    Extends (parse_payload lib P req uri_params shape)
      (parse_payload lib P req uri_params shape.inBody) fun result body =>
        ∀ name m, shape.members.get name = some m →
          result.get name = found P back shape d body name m := by
  unfold parse_payload
  rw [show shape.inBody.payload = shape.payload from rfl]
  cases shape.payload with
  | none =>
    simp only
    cases hnode : parse_whole_body P req with
    | error e => exact .inl ⟨e, rfl, rfl⟩
    | ok node =>
      simp only [bind, Except.bind]
      cases P.isNull node with
      | true => exact .inl ⟨_, rfl, rfl⟩
      | false => exact parse_structure_sent hlib hP hshape hs (hbody node hnode)
  | some payload =>
    simp only [parse_payload_member_inBody hshape.wf]
    cases hvalue : parse_payload_member P req shape payload with
    | error e => exact .inl ⟨e, rfl, rfl⟩
    | ok value =>
      rcases parse_structure_sent hlib hP hshape hs hP.empty with
        ⟨e, he, he'⟩ | ⟨result, body, hr, hr', hget⟩
      · refine .inl ⟨e, ?_, ?_⟩
        · simp only [bind, Except.bind, he]
        · simp only [bind, Except.bind, he']
      · simp only [bind, Except.bind, hr, hr']
        cases value with
        | none => exact .inr ⟨result, body, rfl, rfl, hget⟩
        | some value =>
          exact .inr ⟨_, _, rfl, rfl, fun name m hm =>
            found_set_body (isBody_of_payload hvalue) hm (hget name m hm)⟩

/-- A body that is not there is read like an empty one. -/
theorem parse_payload_noBody (hP : P.Lawful back) (hdata : req.data = [])
    (hpayload : shape.payload = none) (hmembers : ∀ p ∈ shape.members, p.2.isBody = false) :
    parse_payload lib P req uri_params shape.inBody = .ok [] := by
  obtain ⟨node, hnode, hnull, -⟩ := hP.noBody req hdata
  have hnone : shape.members.filter (fun p => p.2.isBody) = [] :=
    List.filter_eq_nil_iff.mpr fun p hp => by simp [hmembers p hp]
  simp only [parse_payload, InputShape.inBody, hpayload, parse_whole_body, hnode, hnull, bind,
    Except.bind, parse_structure, hnone]
  rfl

theorem bodyIsObject_of_noBody (hP : P.Lawful back) (hdata : req.data = []) :
    BodyIsObject P req := by
  obtain ⟨node, hnode, -, hlookup⟩ := hP.noBody req hdata
  intro node' h
  simp only [parse_whole_body, hnode, Except.ok.injEq] at h
  rw [← h, hlookup]

end Sent

end

/-! ## The two protocols -/

section Protocols
variable {lib : Libraries} {req : Request} {uri_params : Dict Str Str} (isoparse : IsoParse)

/-- A boolean that is bound to a place comes back as its text. -/
theorem restJson_lawful (loads : List UInt8 → Except Error Value) :
    (restJson isoparse loads).Lawful fun b => .str (boolText b) :=
  ⟨fun _ => rfl, rfl, fun _ hdata => ⟨.dict [], if_pos hdata, rfl, rfl⟩⟩

theorem restXml_lawful (dom : List UInt8 → Except Error RestXml.Element) :
    (restXml isoparse dom).Lawful .bool := by
  let root : RestXml.Element := .mk [] [] .none []
  refine ⟨fun b => ?_, rfl, fun req hdata =>
    ⟨(.element root, RestXml.build_name_to_xml_node root), ?_, rfl, rfl⟩⟩
  · cases b <;> rfl
  · simp only [restXml, if_pos hdata, Except.map, root]

/-- The members in the body are parsed as those of a structure in it. -/
theorem restJson_inBody (loads : List UInt8 → Except Error Value) (required_members : List Str)
    (members : Dict Str Shape) (d : Dict Str Value) :
    Dict.filterMapM (parse_member lib (restJson isoparse loads) req uri_params required_members
      (.dict d)) (members.map fun p => (p.1, .body p.2)) =
        lift (Json.parseMembers isoparse required_members members d) := by
  induction members with
  | nil => rfl
  | cons p members ih =>
    obtain ⟨member_name, shape⟩ := p
    simp only [List.map_cons, Dict.filterMapM, parse_member, restJson, Json.parseMembers]
    rw [← restJson, ih]
    cases Json.parse_shape isoparse shape
        ((Dict.get d (shape.getSerializedName member_name)).getD .none) with
    | error e => rfl
    | ok parsed =>
      simp only [Except.map, lift, bind, Except.bind]
      by_cases hkept : parsed.isNone = false ∨ member_name ∈ required_members
      · simp only [if_pos hkept]
        cases Json.parseMembers isoparse required_members members d <;> rfl
      · simp only [if_neg hkept]
        cases Json.parseMembers isoparse required_members members d <;> rfl

theorem restXml_inBody (dom : List UInt8 → Except Error RestXml.Element)
    (required_members : List Str) (members : Dict Str Shape)
    (node : RestXml.Node × Dict Str RestXml.Node) :
    Dict.filterMapM (parse_member lib (restXml isoparse dom) req uri_params required_members
      node) (members.map fun p => (p.1, .body p.2)) =
        lift (RestXml.parseMembers isoparse required_members members node.1 node.2) := by
  induction members with
  | nil => rfl
  | cons p members ih =>
    obtain ⟨member_name, shape⟩ := p
    simp only [List.map_cons, Dict.filterMapM, parse_member, RestXml.parseMembers, ih]
    simp only [restXml]
    cases node.2.get (RestXml.member_key_name shape member_name) with
    | some member_node =>
      simp only
      rcases RestXml.parse_shape isoparse shape member_node with e | value
      · rfl
      · cases RestXml.parseMembers isoparse required_members members node.1 node.2 <;> rfl
    | none =>
      simp only
      rcases RestXml.missingMember (decide (member_name ∈ required_members)) shape.serialization
        node.1 with e | _ | value
      · rfl
      · cases RestXml.parseMembers isoparse required_members members node.1 node.2 <;> rfl
      · cases RestXml.parseMembers isoparse required_members members node.1 node.2 <;> rfl

end Protocols

/-! ## Two requests -/

/-- The readers of the two formats that are written. -/
def calendar : Libraries where
  isoparse s := .ok (readIso8601 s)
  parsedate_to_datetime s := orValueError (readWhole readRfc822 s)

theorem calendar_documented : calendar.Documented := by
  refine ⟨fun t hlo hhi => ?_, fun t ht => ?_⟩
  · simp only [calendar, readIso8601_iso8601 hlo hhi]
  · simp only [calendar, readRfc822_formatRfc822 ht.1 ht.2]
    rfl

/-- The lines of a request, with the members that they are sent for. -/
structure Labelled where
  headers : List (Option Str × Str × Str)
  args : List (Option Str × Str × Str)
  uri : List (Str × Str × Str)

namespace Labelled

def lines (l : Labelled) (name : Str) : Lines where
  headers := (l.headers.filter fun e => e.1 = some name).map Prod.snd
  args := (l.args.filter fun e => e.1 = some name).map Prod.snd
  uri := (l.uri.filter fun e => e.1 = name).map Prod.snd

def request (l : Labelled) (method : Str) (data : List UInt8) : Request where
  method := method
  headers := l.headers.map Prod.snd
  args := l.args.map Prod.snd
  data := data
  content_length := some data.length

/-- Lines without a label concern no member. -/
def Foreign (concerns : Member → Str × Str → Bool) (members : Dict Str Member)
    (es : List (Option Str × Str × Str)) : Prop :=
  ∀ e ∈ es, (e.1 = none → ∀ p ∈ members, concerns p.2 e.2 = false) ∧
    ∀ name, e.1 = some name → name ∈ members.keys

/-- What is asked of a member: it has its place, or no lines. -/
def Carries (f : Format) (l : Labelled) (d : Dict Str Value) (name : Str) (m : Member) : Prop :=
  if m.isBody then l.lines name = {}
  else
    match given d name with
    | some v => Places f m v (l.lines name)
    | none => l.lines name = {} ∧ m.isUri = false

theorem sent {f : Format} {shape : InputShape} {d : Dict Str Value} {l : Labelled}
    {method : Str} {data : List UInt8} {uri_params : Dict Str Str}
    (hcarries : ∀ p ∈ shape.members, l.Carries f d p.1 p.2)
    (hheaders : Foreign Member.ofHeader shape.members l.headers)
    (hargs : Foreign Member.ofArg shape.members l.args)
    (huri : ∀ e ∈ l.uri, uri_params.get e.2.1 = some e.2.2) :
    Sent f shape d l.lines (l.request method data) uri_params := by
  have hmember : ∀ {name m}, shape.members.get name = some m → l.Carries f d name m :=
    fun hm => hcarries _ (Dict.mem_of_get hm)
  refine ⟨fun name m v hm hb hv => ?_, fun name m hm hb hv => ?_, fun name m hm hb => ?_,
    ⟨l.headers, rfl, fun _ => rfl, hheaders⟩, ⟨l.args, rfl, fun _ => rfl, hargs⟩,
    fun name e he => ?_⟩
  · have h := hmember hm
    rwa [Carries, if_neg (by simp [hb]), hv] at h
  · have h := hmember hm
    rwa [Carries, if_neg (by simp [hb]), hv] at h
  · have h := hmember hm
    rwa [Carries, if_pos hb] at h
  · obtain ⟨e', he', rfl⟩ := List.mem_map.mp he
    exact huri e' (List.mem_filter.mp he').1

end Labelled

theorem separate_of_forall {shape : InputShape} (hwf : shape.members.WF)
    (h : ∀ p ∈ shape.members, ∀ q ∈ shape.members, p.1 ≠ q.1 → p.2.Apart q.2) : Separate shape :=
  ⟨hwf, fun _ _ _ _ hm hm' => h _ (Dict.mem_of_get hm) _ (Dict.mem_of_get hm')⟩

/-- A blob with the members of its upload around it. -/
def upload : InputShape where
  payload := some "Body".toList
  members := [
    ("Body".toList, .body (.scalar {} .blob)),
    ("Key".toList, .uri "Key".toList { type := .string }),
    ("ContentLength".toList, .header "Content-Length".toList (.scalar { type := .long })),
    ("Metadata".toList, .headers "x-amz-meta-".toList),
    ("Parts".toList, .querystring "part".toList (.list { type := .integer }))]

def uploadLines : Labelled where
  headers := [
    (none, "Host".toList, "s3.localhost".toList),
    (some "Metadata".toList, "X-Amz-Meta-color".toList, "blue".toList),
    (some "ContentLength".toList, "content-length".toList, "2".toList),
    (some "Metadata".toList, "X-Amz-Meta-size".toList, "2".toList)]
  args := [
    (some "Parts".toList, "part".toList, "3".toList),
    (none, "x-id".toList, "PutObject".toList),
    (some "Parts".toList, "part".toList, "-4".toList)]
  uri := [("Key".toList, "Key".toList, "a/b".toList)]

def uploadValues : Dict Str Value := [
  ("Key".toList, .str "a/b".toList),
  ("ContentLength".toList, .int 2),
  ("Metadata".toList, .dict [("color".toList, .str "blue".toList), ("size".toList, .str ['2'])]),
  ("Parts".toList, .list [.int 3, .int (-4)])]

theorem upload_separate : Separate upload := by
  refine separate_of_forall (by decide) ?_
  simp [upload, Member.Apart]
  decide

def uploadRequest : Request := uploadLines.request "PUT".toList [104, 105]

def uploadParams : Dict Str Str := [("Key".toList, "a/b".toList)]

theorem upload_sent :
    Sent .iso8601 upload uploadValues uploadLines.lines uploadRequest uploadParams := by
  refine Labelled.sent ?_ (by unfold Labelled.Foreign; decide) (by unfold Labelled.Foreign; decide)
    (by decide)
  simp only [upload, List.forall_mem_cons]
  refine ⟨rfl, ?_, ?_, ?_, ?_, nofun⟩
  · exact Places.uri (.string rfl _)
  · exact Places.header (by decide) (.integer (.inr rfl) 2)
  · exact @Places.headers _ _ "X-Amz-Meta-".toList
      [("color".toList, "blue".toList), ("size".toList, ['2'])] (by decide) (by decide)
  · exact @Places.querystringList _ _ _ _ ["3".toList, "-4".toList]
      (.cons (.integer (.inl rfl) 3) (.cons (.integer (.inl rfl) (-4)) .nil))

/-- A JSON body with one member, and members that are no text outside of it. -/
def deployment : InputShape where
  members := [
    ("stageName".toList, .body (.scalar {} .string)),
    ("restApiId".toList, .uri "restapi_id".toList { type := .string }),
    ("share".toList, .header "X-Share".toList (.scalar { type := .double })),
    ("dryRun".toList, .querystring "dry".toList (.scalar { type := .boolean })),
    ("limit".toList, .querystring "limit".toList (.scalar { type := .integer }))]

def deploymentLines : Labelled where
  headers := [(some "share".toList, "x-share".toList, " 2.5e-1".toList),
    (none, "Host".toList, "api.localhost".toList)]
  args := [(some "dryRun".toList, "dry".toList, "true".toList)]
  uri := [("restApiId".toList, "restapi_id".toList, "x7".toList)]

def deploymentValues : Dict Str Value := [
  ("restApiId".toList, .str "x7".toList),
  ("share".toList, .float (1 / 4)),
  ("dryRun".toList, .bool true)]

theorem deployment_separate : Separate deployment := by
  refine separate_of_forall (by decide) ?_
  simp [deployment, Member.Apart]

def deploymentRequest : Request :=
  deploymentLines.request "POST".toList (encodeUtf8 "\x7b\"stageName\":\"beta\"\x7d".toList)

def deploymentParams : Dict Str Str := [("restapi_id".toList, "x7".toList)]

theorem deployment_sent : Sent .unixtimestamp deployment deploymentValues deploymentLines.lines
    deploymentRequest deploymentParams := by
  refine Labelled.sent ?_ (by unfold Labelled.Foreign; decide) (by unfold Labelled.Foreign; decide)
    (by decide)
  simp only [deployment, List.forall_mem_cons]
  refine ⟨rfl, ?_, ?_, ?_, ⟨rfl, rfl⟩, nofun⟩
  · exact Places.uri (.string rfl _)
  · exact Places.header (by decide)
      (@Written.float _ _ (.inr rfl) (.finite (1 / 4)) _ (by decide +kernel))
  · exact Places.querystring (.boolean rfl true)

/-- A route that knows one operation. -/
def routeTo (uri_params : Dict Str Str) : Request → Option (Unit × Dict Str Str) := fun _ =>
  some ((), uri_params)

end LocalStack.Aws.Protocol.RestRequest
