import LocalStack.Aws.Protocol.Parser
import LocalStack.Aws.Protocol.Serializer

/-! The REST-XML protocol: the element tree that `BaseXMLResponseSerializer`
builds of a value and the value that `RestXMLRequestParser` reads from an element
tree. Shapes have no `location`. -/

namespace LocalStack.Aws.Protocol.RestXml
open LocalStack.Text LocalStack.Decimal LocalStack.OrderedDict
open LocalStack.Aws.Protocol.Serializer LocalStack.Aws.Protocol.Parser

/-! ## Element trees -/

/-- An `ETree.Element`. Attributes and the text can be set to any object. -/
inductive Element
  | mk (tag : Str) (attrib : List (Str × Value)) (text : Value) (children : List Element)
  deriving Inhabited, Repr

namespace Element

def tag : Element → Str
  | mk tag _ _ _ => tag

def attrib : Element → Dict Str Value
  | mk _ attrib _ _ => attrib

def text : Element → Value
  | mk _ _ text _ => text

def children : Element → List Element
  | mk _ _ _ children => children

end Element

/-! ## Serializer -/

/-- A `resultWrapper` takes the place of the name. -/
def wrapName (ser : Serialization) (name : Str) : Str :=
  match ser.resultWrapper with
  | some (c :: wrapper) => c :: wrapper
  | _ => name

/-- The text of a timestamp in its format, in which the serializers differ, and that of a
float. -/
structure Texts where
  timestamp : Option TimestampFormat → Int → Value
  reprFloat : ℚ → Str

/-- `_serialize_type_timestamp` for XML. -/
def xmlTexts (reprFloat : ℚ → Str) : Texts where
  timestamp format t := convert_timestamp_to_str t (format.getD .iso8601)
  reprFloat := reprFloat

/-- `str(params)`. The text of bytes and containers is not modelled. -/
def toText (texts : Texts) : Value → Except Error Value
  | .str s => .ok (.str s)
  | .int i => .ok (.str (intToStr i))
  | .float q => .ok (.str (texts.reprFloat q))
  | .special .inf => .ok (.str "inf".toList)
  | .special .negInf => .ok (.str "-inf".toList)
  | .special .nan => .ok (.str "nan".toList)
  | .bool b => .ok (.str (if b then "True".toList else "False".toList))
  | .none => .ok (.str "None".toList)
  | _ => .error .typeError

/-- The text of a scalar. Numbers and strings given for a timestamp are not
modelled. -/
def scalarText (texts : Texts) (ser : Serialization) (params : Value) :
    ScalarType → Except Error Value
  | .boolean => .ok (.str (if params.truthy then "true".toList else "false".toList))
  | .blob => get_base64 params
  | .timestamp =>
    match params with
    | .datetime t => .ok (texts.timestamp ser.timestampFormat t)
    | _ => .error .valueError
  | _ => toText texts params

/-- The `xmlns` attribute of a structure. -/
def xmlns (ser : Serialization) : List (Str × Value) :=
  match ser.xmlNamespace with
  | none => []
  | some (some (c :: nsPrefix), uri) => [("xmlns:".toList ++ c :: nsPrefix, .str uri)]
  | some (_, uri) => [("xmlns".toList, .str uri)]

/-- What a member adds to the node of its structure. -/
inductive Part
  | attribute (name : Str) (value : Value)
  | elements (es : List Element)

def Part.toElements : Part → List Element
  | .elements es => es
  | .attribute .. => []

def Part.setAttribute (attrib : Dict Str Value) : Part → Dict Str Value
  | .elements _ => attrib
  | .attribute name value => attrib.set name value

def key_location_name (key : Serialization) : Str := key.name.getD "key".toList

def value_location_name (value : Shape) : Str := value.getSerializedName "value".toList

/-- The key of a map entry is a string. -/
def serializeKey (key : Serialization) (k : Str) : Element :=
  .mk (wrapName key (key_location_name key)) [] (.str k) []

mutual

/-- `_serialize`: the elements that are added to `xmlnode`. -/
def serialize (texts : Texts) : Shape → Value → Str → Except Error (List Element)
  | .scalar ser t, params, name =>
    wrapSerializerErrors do
      return [.mk (wrapName ser name) [] (← scalarText texts ser params t) []]
  | .struct ser _ members, params, name =>
    wrapSerializerErrors do
      match params with
      | .dict d =>
        let parts ← (d.filter fun p => !p.2.isNone).mapM fun p =>
          serializeMember texts members p.1 p.2
        return [.mk (wrapName ser name) (parts.foldl Part.setAttribute (xmlns ser)) .none
          (parts.flatMap Part.toElements)]
      | _ => throw .attributeError
  | .list ser member, params, name =>
    wrapSerializerErrors do
      if params.isNone then return []
      match params.iter with
      | none => throw .typeError
      | some items =>
        let element_name := member.getSerializedName
          (if ser.flattened then wrapName ser name else "member".toList)
        let nodes ← (items.filter fun item => !item.isNone).mapM fun item =>
          serialize texts member item element_name
        if ser.flattened then return nodes.flatten
        else return [.mk (wrapName ser name) [] .none nodes.flatten]
  | .map ser key value, params, name =>
    wrapSerializerErrors do
      if params.isNone then return []
      match params with
      | .dict d =>
        let entry_node_name := if ser.flattened then wrapName ser name else "entry".toList
        let entries ← (d.filter fun p => !p.2.isNone).mapM fun p => do
          let nodes ← serialize texts value p.2 (value_location_name value)
          return Element.mk entry_node_name [] .none (serializeKey key p.1 :: nodes)
        if ser.flattened then return entries
        else return [.mk (wrapName ser name) [] .none entries]
      | _ => throw .attributeError

/-- A member that the shape does not have is left out. -/
def serializeMember (texts : Texts) :
    List (Str × Shape) → Str → Value → Except Error Part
  | [], _, _ => .ok (.elements [])
  | (name, member_shape) :: members, key, value =>
    if name = key then
      if member_shape.serialization.xmlAttribute then
        match member_shape.serialization.name with
        | some xml_attribute_name => .ok (.attribute xml_attribute_name value)
        | none => .error .keyError
      else (serialize texts member_shape value (member_shape.getSerializedName key)).map .elements
    else serializeMember texts members key value

end

/-! ## Parser -/

/-- The number of characters up to the last brace of the line. -/
def braceSpan : Str → Option Nat
  | [] => none
  | c :: s =>
    if c = '\n' then none
    else
      match braceSpan s with
      | some n => some (n + 1)
      | none => if c = '}' then some 1 else none

/-- `re.compile("\x7b.*\x7d").sub(repl, s)`; the number counts the characters of
the last match that are still to be skipped. -/
def subNamespace (repl : Str) : Nat → Str → Str
  | _, [] => []
  | skip + 1, _ :: s => subNamespace repl skip s
  | 0, c :: s =>
    match if c = '\x7b' then braceSpan s else none with
    | some n => repl ++ subNamespace repl n s
    | none => c :: subNamespace repl 0 s

example : subNamespace [] 0 "\x7bhttp://s3\x7dKey".toList = "Key".toList := by decide

def node_tag (node : Element) : Str := subNamespace [] 0 node.tag

/-- An element, or the list of elements that share a tag. -/
inductive Node
  | element (e : Element)
  | list (es : List Element)

/-- One turn of the loop of `_build_name_to_xml_node`. -/
def addNode (xml_dict : Dict Str Node) (item : Element) : Dict Str Node :=
  match xml_dict.get (node_tag item) with
  | none => xml_dict.set (node_tag item) (.element item)
  | some (.element e) => xml_dict.set (node_tag item) (.list [e, item])
  | some (.list es) => xml_dict.set (node_tag item) (.list (es ++ [item]))

def build_name_to_xml_node (parent_node : Element) : Dict Str Node :=
  parent_node.children.foldl addNode []

/-- `parent_node[0]` of a list. -/
def Node.first : Node → Except Error Element
  | .element e | .list (e :: _) => .ok e
  | .list [] => .error .indexError

/-- `_member_key_name`. -/
def member_key_name (shape : Shape) (member_name : Str) : Str :=
  match shape with
  | .list ser member =>
    if ser.flattened then member.getSerializedName (shape.getSerializedName member_name)
    else shape.getSerializedName member_name
  | _ => shape.getSerializedName member_name

/-- `_text_content`. Several elements given for one scalar are an error for all
types but strings, which return them and for which this is not modelled. -/
def text_content : Node → Except Error Value
  | .element e => if e.text.isNone then .ok (.str []) else .ok e.text
  | .list _ => .error .typeError

/-- The elements that a container is read from. -/
def Node.items (flattened : Bool) : Node → List Element
  | .list es => es
  | .element e => if flattened then [e] else e.children

/-- The attributes of a node with their namespaces replaced by the prefix that
`location_name` begins with. -/
def attributes (location_name : Str) (node : Element) : Dict Str Value :=
  Dict.ofPairs <| node.attrib.map fun p =>
    (subNamespace ((partition ':' location_name).1 ++ [':']) 0 p.1, p.2)

/-- A key is text; an entry without a key is not modelled. -/
def entryKey : Option Value → Except Error Str
  | some (.str k) => .ok k
  | _ => .error .typeError

/-- One entry of a map: the last key and the last value of the element. -/
def parseEntry (key : Serialization) (value_name : Str)
    (parseValue : Element → Except Error Value) (keyval_node : Element) :
    Except Error (Str × Value) := do
  let (key_name, val_name) ← keyval_node.children.foldlM (fun (key_name, val_name) e => do
    if node_tag e = key_location_name key then
      return (some (← text_content (.element e)), val_name)
    else if node_tag e = value_name then return (key_name, ← parseValue e)
    else throw .protocolParserError) (none, .none)
  return (← entryKey key_name, val_name)

/-- A member without an element: it may be an attribute, and it is set to `None`
where it is required. -/
def missingMember (required : Bool) (ser : Serialization) (node : Node) :
    Except Error (Option Value) :=
  if ser.xmlAttribute then
    match ser.name, node with
    | none, _ => .error .keyError
    | some _, .list _ => .error .attributeError
    | some location_name, .element e => .ok ((attributes location_name e).get location_name)
  else if required then .ok (some .none)
  else .ok none

mutual

/-- `_parse_shape` of a node. -/
def parse_shape (isoparse : IsoParse) : Shape → Node → Except Error Value
  | .scalar ser t, node =>
    wrapErrors do parseScalar isoparse .iso8601 ser (← text_content node) t
  | .list ser member, node =>
    wrapErrors do
      return .list (← (node.items ser.flattened).mapM fun e =>
        parse_shape isoparse member (.element e))
  | .map ser key value, node =>
    wrapErrors do
      let entries ← (node.items ser.flattened).mapM <|
        parseEntry key (value_location_name value) fun e => parse_shape isoparse value (.element e)
      return .dict (Dict.ofPairs entries)
  | .struct _ traits members, node =>
    wrapErrors do
      let e ← node.first
      return .dict (← parseMembers isoparse traits.required_members members node
        (build_name_to_xml_node e))

def parseMembers (isoparse : IsoParse) (required_members : List Str) :
    List (Str × Shape) → Node → Dict Str Node → Except Error (List (Str × Value))
  | [], _, _ => .ok []
  | (member_name, member_shape) :: members, node, xml_dict => do
    let parsed ←
      match xml_dict.get (member_key_name member_shape member_name) with
      | some member_node => (parse_shape isoparse member_shape member_node).map some
      | none =>
        missingMember (member_name ∈ required_members) member_shape.serialization node
    let rest ← parseMembers isoparse required_members members node xml_dict
    match parsed with
    | some value => return (member_name, value) :: rest
    | none => return rest

end

end LocalStack.Aws.Protocol.RestXml
