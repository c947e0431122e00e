import LocalStack.Aws.Protocol.Parser
import LocalStack.Aws.Protocol.Serializer
import LocalStack.Lib.Lists

/-! The JSON protocol: the tree that `JSONResponseSerializer` makes of a value
and the value that `BaseJSONRequestParser` makes of a tree, both for JSON mime
types. A body is a dictionary that is filled key by key. -/

namespace LocalStack.Aws.Protocol.Json
open LocalStack.Text LocalStack.OrderedDict
open LocalStack.Aws.Protocol.Serializer LocalStack.Aws.Protocol.Parser

/-! ## Serializer -/

/-- What a scalar becomes. Numbers and strings given for a timestamp are not
modelled. -/
def serializeScalar (ser : Serialization) (v : Value) : ScalarType → Except Error Value
  | .blob => get_base64 v
  | .timestamp =>
    match v with
    | .datetime t => .ok (convert_timestamp_to_str t (ser.timestampFormat.getD .unixtimestamp))
    | _ => .error .valueError
  | _ => .ok v

/-- The key that a list item is stored under in its wrapper. -/
def currentKey : Str := "__current__".toList

mutual

/-- `_serialize` with a key: the body with the value added. A list is only
serialized from a list, and a map or structure from a dictionary. The flag says that
`_serialize_type_map` has no guard for `None`, as that of REST-JSON. -/
def serializeWith (keepsNone : Bool) :
    Value → Shape → Str → Dict Str Value → Except Error (Dict Str Value)
  | v, .scalar ser t, key, body =>
    wrapSerializerErrors ((serializeScalar ser v t).map (body.set key))
  | .none, _, _, body => .ok body
  | .list vs, .list _ member, key, body =>
    wrapSerializerErrors
      ((itemsWith keepsNone member vs).map fun items => body.set key (.list items))
  | .dict d, .map _ _ value, key, body =>
    wrapSerializerErrors
      ((entriesWith keepsNone value d []).map fun obj => body.set key (.dict obj))
  | v, .struct _ traits members, key, body =>
    if traits.is_document_type then .ok (body.set key v)
    else
      match v with
      | .dict d =>
        wrapSerializerErrors
          ((membersWith keepsNone members d []).map fun obj => body.set key (.dict obj))
      | _ => .error .protocolSerializerError
  | _, _, _, _ => .error .protocolSerializerError
termination_by structural v => v

def itemsWith (keepsNone : Bool) (member : Shape) : List Value → Except Error (List Value)
  | [] => .ok []
  | item :: items =>
    if item.isNone then itemsWith keepsNone member items
    else do
      let wrapper ← serializeWith keepsNone item member currentKey []
      match wrapper.get currentKey with
      | none => throw .keyError
      | some current => return current :: (← itemsWith keepsNone member items)
termination_by structural items => items

def entriesWith (keepsNone : Bool) (value : Shape) :
    List (Str × Value) → Dict Str Value → Except Error (Dict Str Value)
  | [], map_obj => .ok map_obj
  | (sub_key, sub_value) :: d, map_obj =>
    if sub_value.isNone && !keepsNone then entriesWith keepsNone value d map_obj
    else do
      entriesWith keepsNone value d (← serializeWith keepsNone sub_value value sub_key map_obj)
termination_by structural d => d

/-- Members whose value is `None` and members that the shape does not have are
left out. -/
def membersWith (keepsNone : Bool) (members : Dict Str Shape) :
    List (Str × Value) → Dict Str Value → Except Error (Dict Str Value)
  | [], body => .ok body
  | (member_key, member_value) :: d, body =>
    if member_value.isNone then membersWith keepsNone members d body
    else
      match members.get member_key with
      | none => membersWith keepsNone members d body
      | some member_shape => do
        membersWith keepsNone members d
          (← serializeWith keepsNone member_value member_shape
            (member_shape.getSerializedName member_key) body)
termination_by structural d => d

end

/-- `JSONResponseSerializer._serialize`. -/
def serialize : Value → Shape → Str → Dict Str Value → Except Error (Dict Str Value) :=
  serializeWith false

/-- `_serialize_body_params`, before `json.dumps`: the output shape of an
operation is a structure, which is written into the body without a key. -/
def serialize_body_params (params : Value) (shape : Shape) : Except Error Value :=
  match params, shape with
  | .none, _ => .ok (.dict [])
  | .dict d, .struct _ _ members =>
    wrapSerializerErrors ((membersWith false members d []).map .dict)
  | _, _ => .error .protocolSerializerError

/-! ## Parser -/

def parseScalar (isoparse : IsoParse) (ser : Serialization) (node : Value) :
    ScalarType → Except Error Value
  | .boolean => .ok node
  | t => Parser.parseScalar isoparse .unixtimestamp ser node t

mutual

/-- `_parse_shape`. -/
def parse_shape (isoparse : IsoParse) : Shape → Value → Except Error Value
  | _, .none => .ok .none
  | .scalar ser t, node => wrapErrors (parseScalar isoparse ser node t)
  | .list _ member, node =>
    wrapErrors do
      match node.iter with
      | none => throw .typeError
      | some items => return .list (← items.mapM fun item => parse_shape isoparse member item)
  | .map _ _ value, node =>
    wrapErrors do
      match node with
      | .dict d =>
        let entries ← d.mapM fun p => do return (p.1, ← parse_shape isoparse value p.2)
        return .dict (Dict.ofPairs entries)
      | _ => throw .attributeError
  | .struct _ traits members, node =>
    wrapErrors do
      if traits.is_document_type then return node
      match node with
      | .dict d => return .dict (← parseMembers isoparse traits.required_members members d)
      | _ => if members = [] then return .dict [] else throw .attributeError

/-- A member that is required is set to `None` where it is missing. -/
def parseMembers (isoparse : IsoParse) (required_members : List Str) :
    List (Str × Shape) → Dict Str Value → Except Error (List (Str × Value))
  | [], _ => .ok []
  | (member_name, member_shape) :: members, value => do
    let raw_value := (value.get (member_shape.getSerializedName member_name)).getD .none
    let parsed ← parse_shape isoparse member_shape raw_value
    let final_parsed ← parseMembers isoparse required_members members value
    if parsed.isNone = false ∨ member_name ∈ required_members then
      return (member_name, parsed) :: final_parsed
    return final_parsed

end

end LocalStack.Aws.Protocol.Json
