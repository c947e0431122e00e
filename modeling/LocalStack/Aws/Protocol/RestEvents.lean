import LocalStack.Aws.Protocol.EventStream
import LocalStack.Aws.Protocol.RestBody
import LocalStack.Lib.Generator

/-! Event streams of the REST protocols: all events of a stream are serialized through
one response, whose data becomes the content of the next frame. Headers of that
response are never sent and not part of the model. -/

namespace LocalStack.Aws.Protocol.RestEvents
open LocalStack.Text LocalStack.Bytes LocalStack.OrderedDict LocalStack.Generator
open LocalStack.Aws.EventStream (Event)
open LocalStack.Aws.Protocol.RestBody (Bytes Libraries restXmlBody s3Body restJsonBody
  encodeUtf8_eq_nil restXmlBody_ne_nil s3Body_ne_nil restJsonBody_ne_nil)

/-! ## Shapes and operations -/

structure Member where
  shape : Shape
  shape_name : Str
  eventpayload : Bool := false

/-- A structure that is serialized as a response or as an event. -/
structure OutputShape where
  shape_name : Str
  ser : Serialization := {}
  traits : StructureTraits := {}
  members : Dict Str Member
  payload : Option Str := none
  event : Bool := false
  wf : members.WF := by decide

def OutputShape.body (shape : OutputShape) : Shape :=
  .struct shape.ser shape.traits (shape.members.map fun p => (p.1, p.2.shape))

/-- An operation with an event stream as its output. The trait `payload` binds a member
to the body of an HTTP response, so no event has it. -/
structure Operation where
  http_method : Str
  responseCode : Nat := 200
  event_stream_members : Dict Str OutputShape
  no_payload : ∀ p ∈ event_stream_members, p.2.payload = none

/-- The serializer with the mime type of the response: JSON for an XML protocol and CBOR
for a JSON protocol. -/
inductive RestProtocol
  | restXml (json : Bool)
  | s3
  | restJson (cbor : Bool)

/-! ## Serializer -/

structure Response where
  status_code : Nat
  data : Bytes
  deriving DecidableEq

/-- The payload members of an event, in the order of the shape. Of the values that are
no dictionary only `None` is modelled. -/
def partition_members (parameters : Value) (shape : OutputShape) :
    Except Error (Dict Str Value) :=
  match parameters with
  | .dict d => .ok (Dict.filterMap (fun name _ => Dict.get d name) shape.members)
  | _ => if shape.members.isEmpty then .ok [] else .error .typeError

def isBlobOrString : Shape → Bool
  | .scalar _ .blob | .scalar _ .string => true
  | _ => false

/-- `_encode_payload` and `set_response`. A payload that is an iterable of chunks is not
modelled. -/
def encode_payload : Value → Except Error Bytes
  | .str s => .ok (encodeUtf8 s)
  | .bytes bs => .ok bs
  | .none => .ok []
  | _ => .error .typeError

/-- The first `eventpayload` with a truthy value. -/
def find_eventpayload (shape : OutputShape) (parameters : Dict Str Value) :
    Option (Str × Member) :=
  shape.members.find? fun p => p.2.eventpayload && ((parameters.get p.1).getD .none).truthy

def select_payload_member (shape : OutputShape) (parameters : Dict Str Value) : Option Str :=
  if shape.payload.getD [] = [] ∧ shape.event then
    match find_eventpayload shape parameters with
    | some p => some p.1
    | none => shape.payload
  else shape.payload

section
variable (lib : Libraries) (protocol : RestProtocol)

def serialize_body_params (params : Value) (shape : Shape) (shape_name : Str) :
    Except Error Bytes :=
  match protocol with
  | .restXml json => restXmlBody lib json params shape shape_name
  | .s3 => s3Body lib params shape shape_name
  | .restJson cbor => restJsonBody lib cbor params shape

/-- `_serialize_payload`. A payload that is a structure is left as it was in the response
where its value is missing. -/
def serialize_payload (parameters : Dict Str Value) (response : Response)
    (shape : OutputShape) : Except Error Response :=
  match select_payload_member shape parameters with
  | some name =>
    match shape.members.get name with
    | none => .error .keyError
    | some member =>
      if isBlobOrString member.shape then do
        return { response with data := ← encode_payload ((parameters.get name).getD (.bytes [])) }
      else
        match (parameters.get name).getD .none with
        | .none => .ok response
        | body_params => do
          return { response with
            data := ← serialize_body_params lib protocol body_params member.shape
              member.shape_name }
  | none => do
    return { response with
      data := ← serialize_body_params lib protocol (.dict parameters) shape.body
        shape.shape_name }

/-- The condition under which `_serialize_response` comes to the payload. -/
def writesBody (http_method : Str) (status_code : Nat) (payload : Option Str) : Bool :=
  match protocol with
  | .s3 =>
    http_method ≠ "HEAD".toList ∧ ¬ (300 ≤ status_code ∧ status_code < 400) ∧
      ¬ (http_method = "PUT".toList ∧ payload.getD [] = [])
  | _ => http_method ≠ "HEAD".toList

def serialize_response (op : Operation) (parameters : Value) (response : Response)
    (shape : OutputShape) : Except Error Response := do
  let payload_params ← partition_members parameters shape
  if writesBody protocol op.http_method response.status_code shape.payload then
    serialize_payload lib protocol payload_params response shape
  else return response

inductive StreamError
  | unknownSerializerError
  | raised (e : Error)
  deriving DecidableEq

/-- The member of the event stream that the event is given for. -/
def event_member (op : Operation) (event : Dict Str Value) : Option (Str × OutputShape) :=
  op.event_stream_members.find? fun p => p.2.event && decide (p.1 ∈ event.keys)

/-- One turn of the loop: the response, and what `_encode_event_payload` is called with. -/
def serialize_event (op : Operation) (response : Response) (event : Dict Str Value) :
    Except StreamError (Response × Event) :=
  match event_member op event with
  | none => .error .unknownSerializerError
  | some (name, shape) =>
    match serialize_response lib protocol op ((event.get name).getD .none) response shape with
    | .error e => .error (.raised e)
    | .ok response => .ok (response, { event_type := name, content := .bytes response.data })

def create_default_response (op : Operation) : Response := ⟨op.responseCode, []⟩

def initialResponse : Event := { event_type := "initial-response".toList }

/-- The frames of `event_stream_serializer`. -/
def event_stream_serializer (op : Operation) (events : List (Dict Str Value)) :
    Yields StreamError Event :=
  (loop (serialize_event lib protocol op) (create_default_response op) events).cons initialResponse

end

/-! ## What a frame depends on -/

section
variable {lib : Libraries} {protocol : RestProtocol} {op : Operation}

/-- The body of an event, when one is written. -/
def eventBody (lib : Libraries) (protocol : RestProtocol) (parameters : Dict Str Value)
    (shape : OutputShape) : Except Error Bytes :=
  match find_eventpayload shape parameters with
  | some (name, member) =>
    let value := (parameters.get name).getD .none
    if isBlobOrString member.shape then encode_payload value
    else serialize_body_params lib protocol value member.shape member.shape_name
  | none => serialize_body_params lib protocol (.dict parameters) shape.body shape.shape_name

/-- The data of the response is replaced by it. -/
theorem serialize_payload_eq {shape : OutputShape} (hpayload : shape.payload = none)
    (hevent : shape.event = true) (parameters : Dict Str Value) (response : Response) :
    serialize_payload lib protocol parameters response shape =
      (eventBody lib protocol parameters shape).map fun data => { response with data } := by
  rw [serialize_payload, select_payload_member, hpayload, hevent, eventBody]
  simp only [Option.getD_none, and_self, if_true]
  cases hfind : find_eventpayload shape parameters with
  | none => rfl
  | some p =>
    obtain ⟨name, member⟩ := p
    have hmem := List.mem_of_find?_eq_some hfind
    have htruthy := List.find?_some hfind
    rw [Bool.and_eq_true] at htruthy
    simp only [Dict.get_of_mem shape.wf hmem]
    cases hblob : isBlobOrString member.shape with
    | true =>
      cases hvalue : Dict.get parameters name with
      | none =>
        rw [hvalue] at htruthy
        cases htruthy.2
      | some value => rfl
    | false =>
      generalize (Dict.get parameters name).getD .none = value at htruthy ⊢
      cases value with
      | none => cases htruthy.2
      | _ => rfl

/-- Whether a response of the operation has a body. -/
def Operation.writesBody (protocol : RestProtocol) (op : Operation) : Bool :=
  RestEvents.writesBody protocol op.http_method op.responseCode none

/-- The data after an event of the shape. -/
def eventData (lib : Libraries) (protocol : RestProtocol) (op : Operation) (parameters : Value)
    (shape : OutputShape) : Except Error Bytes := do
  let payload_params ← partition_members parameters shape
  if op.writesBody protocol then eventBody lib protocol payload_params shape else return []

/-- What is sent for an event in any stream. -/
def frameOf (lib : Libraries) (protocol : RestProtocol) (op : Operation)
    (event : Dict Str Value) : Except StreamError Event :=
  match event_member op event with
  | none => .error .unknownSerializerError
  | some (name, shape) =>
    match eventData lib protocol op ((event.get name).getD .none) shape with
    | .error e => .error (.raised e)
    | .ok data => .ok { event_type := name, content := .bytes data }

/-- What the response may be between two events. -/
structure Reusable (protocol : RestProtocol) (op : Operation) (response : Response) : Prop where
  status_code : response.status_code = op.responseCode
  data : op.writesBody protocol = false → response.data = []

theorem reusable_default : Reusable protocol op (create_default_response op) := ⟨rfl, fun _ => rfl⟩

theorem serialize_response_eq {response : Response} {shape : OutputShape}
    (hr : Reusable protocol op response) (hpayload : shape.payload = none)
    (hevent : shape.event = true) (parameters : Value) :
    serialize_response lib protocol op parameters response shape =
      (eventData lib protocol op parameters shape).map fun data => ⟨op.responseCode, data⟩ := by
  obtain ⟨status_code, data⟩ := response
  obtain ⟨rfl, hdata⟩ := hr
  rw [serialize_response, eventData, hpayload, ← Operation.writesBody]
  cases partition_members parameters shape with
  | error e => rfl
  | ok payload_params =>
    cases hwrites : op.writesBody protocol with
    | true => exact serialize_payload_eq hpayload hevent payload_params _
    | false =>
      obtain rfl := hdata hwrites
      rfl

/-- A response that is reused makes no difference. -/
theorem serialize_event_eq {response : Response} (hr : Reusable protocol op response)
    (event : Dict Str Value) :
    serialize_event lib protocol op response event =
      (frameOf lib protocol op event).map fun e => (⟨op.responseCode, e.payload⟩, e) := by
  rw [serialize_event, frameOf]
  cases hmember : event_member op event with
  | none => rfl
  | some p =>
    obtain ⟨name, shape⟩ := p
    have hsome := List.find?_some hmember
    rw [Bool.and_eq_true] at hsome
    have hpayload := op.no_payload _ (List.mem_of_find?_eq_some hmember)
    simp only [serialize_response_eq hr hpayload hsome.1]
    cases eventData lib protocol op ((event.get name).getD .none) shape <;> rfl

/-- Without a body every frame is empty. -/
theorem payload_frameOf {event : Dict Str Value} {e : Event}
    (h : frameOf lib protocol op event = .ok e) (hwrites : op.writesBody protocol = false) :
    e.payload = [] := by
  rw [frameOf] at h
  cases hmember : event_member op event with
  | none =>
    rw [hmember] at h
    cases h
  | some p =>
    simp only [hmember, eventData, hwrites] at h
    cases hparams : partition_members ((event.get p.1).getD .none) p.2 with
    | error e => simp [hparams, bind, Except.bind] at h
    | ok payload_params =>
      simp only [hparams] at h
      cases h
      rfl

/-- The frames of a stream, each made of its own event. -/
theorem event_stream_serializer_eq (events : List (Dict Str Value)) :
    event_stream_serializer lib protocol op events =
      (each (frameOf lib protocol op) events).cons initialResponse := by
  rw [event_stream_serializer]
  congr 1
  refine loop_eq_each (I := Reusable protocol op) (fun response event hr => ?_)
    (fun response event response' e hr h => ?_) reusable_default events
  · rw [serialize_event_eq hr]
    cases frameOf lib protocol op event <;> rfl
  · rw [serialize_event_eq hr] at h
    cases hframe : frameOf lib protocol op event with
    | error e => rw [hframe] at h; cases h
    | ok e =>
      rw [hframe] at h
      cases h
      exact ⟨rfl, payload_frameOf hframe⟩

/-! ## Exact payloads -/

/-- A text or bytes, as they are sent. -/
def givenBytes : Value → Option Bytes
  | .str s => some (encodeUtf8 s)
  | .bytes bs => some bs
  | _ => none

/-- The event gives `v` for the blob or string that is the payload of its shape. -/
inductive GivesPayload (op : Operation) (event : Dict Str Value) (v : Bytes) : Prop
  | intro {name shape} {params : Dict Str Value} {member_name member value}
      (shape_of : event_member op event = some (name, shape))
      (given : event.get name = some (.dict params))
      (only : shape.members.filter (fun p => p.2.eventpayload) = [(member_name, member)])
      (blob : isBlobOrString member.shape = true)
      (value_of : params.get member_name = some value) (bytes : givenBytes value = some v)

/-- Every frame of every stream is made of its own event, and the payload of each of
these events is sent as it was given. -/
def PayloadsExact (lib : Libraries) (protocol : RestProtocol) (op : Operation)
    (events : List (Dict Str Value)) : Prop :=
  ∃ frame : Dict Str Value → Except StreamError Event,
    (∀ stream, event_stream_serializer lib protocol op stream =
      (each frame stream).cons initialResponse) ∧
    ∀ event ∈ events, ∀ v, GivesPayload op event v →
      ∃ e, frame event = .ok e ∧ e.payload = v

theorem truthy_iff_of_givenBytes {value : Value} {v : Bytes} (h : givenBytes value = some v) :
    value.truthy = true ↔ v ≠ [] := by
  cases value with
  | str s =>
    obtain rfl := Option.some.inj h
    rw [ne_eq, encodeUtf8_eq_nil]
    exact decide_eq_true_iff
  | bytes bs =>
    obtain rfl := Option.some.inj h
    exact decide_eq_true_iff
  | _ => cases h

theorem encode_payload_of_givenBytes {value : Value} {v : Bytes} (h : givenBytes value = some v) :
    encode_payload value = .ok v := by
  cases value <;> cases h <;> rfl

/-- Only an eventpayload that is not empty is found. -/
theorem find_eventpayload_of_only {shape : OutputShape} {parameters : Dict Str Value}
    {member_name : Str} {member : Member} {value : Value}
    (only : shape.members.filter (fun p => p.2.eventpayload) = [(member_name, member)])
    (hvalue : parameters.get member_name = some value) :
    find_eventpayload shape parameters =
      if value.truthy then some (member_name, member) else none := by
  have hfind := @List.find?_filter _ shape.members (fun p => p.2.eventpayload)
    (fun p => ((parameters.get p.1).getD .none).truthy)
  rw [only] at hfind
  simp only [Bool.decide_and, Bool.decide_eq_true] at hfind
  rw [find_eventpayload, ← hfind]
  cases htruthy : value.truthy <;> simp [hvalue, htruthy]

theorem serialize_body_params_ne_nil (hlib : lib.Documented) {params : Value} {shape : Shape}
    {shape_name : Str} {bs : Bytes}
    (h : serialize_body_params lib protocol params shape shape_name = .ok bs) : bs ≠ [] := by
  cases protocol with
  | restXml json => exact restXmlBody_ne_nil hlib h
  | s3 => exact s3Body_ne_nil hlib h
  | restJson cbor => exact restJsonBody_ne_nil hlib h

/-- The data of an event is the payload that it gives unless the payload is empty: then
the whole event is written. -/
theorem eventData_eq_iff (hlib : lib.Documented) {shape : OutputShape} {params : Dict Str Value}
    {member_name : Str} {member : Member} {value : Value} {v : Bytes}
    (only : shape.members.filter (fun p => p.2.eventpayload) = [(member_name, member)])
    (hblob : isBlobOrString member.shape = true) (hvalue : params.get member_name = some value)
    (hv : givenBytes value = some v) :
    eventData lib protocol op (.dict params) shape = .ok v ↔
      (v ≠ [] ↔ op.writesBody protocol = true) := by
  have hmember : (member_name, member) ∈ shape.members := by
    have hmem : (member_name, member) ∈ shape.members.filter fun p => p.2.eventpayload := by
      rw [only]
      exact List.mem_singleton_self _
    exact List.mem_of_mem_filter hmem
  obtain ⟨payload_params, hparams⟩ :
      ∃ d, d = Dict.filterMap (fun name _ => Dict.get params name) shape.members := ⟨_, rfl⟩
  have hget : payload_params.get member_name = some value := by
    rw [hparams, Dict.get_filterMap shape.wf, Dict.get_of_mem shape.wf hmember]
    exact hvalue
  have hdata : eventData lib protocol op (.dict params) shape =
      if op.writesBody protocol then eventBody lib protocol payload_params shape else .ok [] := by
    rw [hparams]
    rfl
  have hfind := find_eventpayload_of_only only hget
  have htruthy := truthy_iff_of_givenBytes hv
  rw [hdata]
  cases hwrites : op.writesBody protocol with
  | false => simp [eq_comm]
  | true =>
    simp only [if_true, iff_true, eventBody, hfind]
    by_cases hne : v = []
    · have hfalse : value.truthy = false := by
        rw [← Bool.not_eq_true, htruthy, not_not]
        exact hne
      simp only [hfalse, Bool.false_eq_true, if_false]
      refine iff_of_false (fun h => ?_) (not_not_intro hne)
      exact serialize_body_params_ne_nil hlib h hne
    · simp only [htruthy.mpr hne, if_true, hblob, hget, Option.getD_some]
      exact iff_of_true (encode_payload_of_givenBytes hv) hne

/-- The frame of an event has the payload that it gives. -/
theorem frameOf_exact_iff (hlib : lib.Documented) {event : Dict Str Value} {v : Bytes}
    (h : GivesPayload op event v) :
    (∃ e, frameOf lib protocol op event = .ok e ∧ e.payload = v) ↔
      (v ≠ [] ↔ op.writesBody protocol = true) := by
  obtain ⟨hshape, hgiven, only, hblob, hvalue, hbytes⟩ := h
  rw [← eventData_eq_iff hlib only hblob hvalue hbytes, frameOf, hshape]
  simp only [hgiven, Option.getD_some]
  cases eventData lib protocol op (.dict _) _ with
  | error e => simp
  | ok data => simp [EventStream.Event.payload]

/-- The streams determine the frames. -/
theorem payloadsExact_iff_frameOf {events : List (Dict Str Value)} :
    PayloadsExact lib protocol op events ↔
      ∀ event ∈ events, ∀ v, GivesPayload op event v →
        ∃ e, frameOf lib protocol op event = .ok e ∧ e.payload = v := by
  constructor
  · rintro ⟨frame, hstream, hexact⟩
    have hframe : frame = frameOf lib protocol op := by
      refine each_injective (funext fun stream => ?_)
      have heq := (hstream stream).symm.trans (event_stream_serializer_eq stream)
      exact (Yields.cons_injective heq).2
    rwa [hframe] at hexact
  · exact fun h => ⟨frameOf lib protocol op, event_stream_serializer_eq, h⟩

/-- Frames never depend on earlier events (`event_stream_serializer_eq`), and their
payloads are exact if and only if each of them is empty just when the operation writes no
bodies. -/
theorem payloads_exact_iff (lib : Libraries) (hlib : lib.Documented) (protocol : RestProtocol)
    (op : Operation) (events : List (Dict Str Value)) :
    PayloadsExact lib protocol op events ↔
      ∀ event ∈ events, ∀ v, GivesPayload op event v →
        (v ≠ [] ↔ op.writesBody protocol = true) := by
  rw [payloadsExact_iff_frameOf]
  exact forall₄_congr fun event _ v hv => frameOf_exact_iff hlib hv

end

/-! ## Two streams of an S3 selection -/

/-- The events of `SelectObjectContent`, without `Stats` and `Progress`. -/
def selectObjectContent : Operation where
  http_method := "POST".toList
  event_stream_members :=
    [("Records".toList,
      { shape_name := "RecordsEvent".toList, event := true
        members := [("Payload".toList, ⟨.scalar {} .blob, "Body".toList, true⟩)] }),
    ("Cont".toList, { shape_name := "ContinuationEvent".toList, event := true, members := [] }),
    ("End".toList, { shape_name := "EndEvent".toList, event := true, members := [] })]
  no_payload := by decide

def recordsEvent (chunk : Bytes) : Dict Str Value :=
  [("Records".toList, .dict [("Payload".toList, .bytes chunk)])]

def endEvent : Dict Str Value := [("End".toList, .dict [])]

/-- None of these is called for S3. -/
def noLibraries : Libraries :=
  ⟨fun _ => .error .valueError, fun _ => .error .valueError, fun _ => "nan".toList⟩

theorem noLibraries_documented : noLibraries.Documented :=
  ⟨fun _ => List.cons_ne_nil _ _, fun _ _ h => by cases h⟩

theorem givesPayload_recordsEvent (chunk : Bytes) :
    GivesPayload selectObjectContent (recordsEvent chunk) chunk :=
  .intro rfl rfl rfl rfl rfl rfl

/-- An empty chunk is not sent as such. -/
theorem empty_chunk_lost :
    ¬ PayloadsExact noLibraries .s3 selectObjectContent [recordsEvent [97], recordsEvent []] := by
  intro h
  have hmem : recordsEvent [] ∈ [recordsEvent [97], recordsEvent []] := by simp
  have hframe := payloadsExact_iff_frameOf.mp h _ hmem [] (givesPayload_recordsEvent [])
  have hiff := (frameOf_exact_iff noLibraries_documented (givesPayload_recordsEvent [])).mp hframe
  exact absurd rfl (hiff.mpr rfl)

/-- A chunk and the end of the stream. -/
theorem payloads_exact_selectObjectContent :
    PayloadsExact noLibraries .s3 selectObjectContent [recordsEvent [97], endEvent] := by
  refine (payloads_exact_iff noLibraries noLibraries_documented .s3 _ _).mpr fun event hmem v hv => ?_
  refine iff_of_true ?_ rfl
  obtain ⟨hshape, hgiven, only, -, hvalue, hbytes⟩ := hv
  rcases List.mem_pair.mp hmem with rfl | rfl
  · cases hshape
    cases hgiven
    cases only
    cases hvalue
    cases hbytes
    decide
  · cases hshape
    cases only

end LocalStack.Aws.Protocol.RestEvents
