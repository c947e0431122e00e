import LocalStack.Aws.Datetime
import LocalStack.Aws.Shape
import LocalStack.Lib.Bytes

/-! CBOR data items as `BaseCBORResponseSerializer` writes them (with the
timestamp format of RPC v2) and as `BaseCBORRequestParser` reads them. A reader
takes the rest of the stream and returns what it leaves of it. How `struct` packs the
seconds of a timestamp and how it unpacks floats are parameters. -/

namespace LocalStack.Aws.Protocol.Cbor
open LocalStack.Text LocalStack.Bytes LocalStack.OrderedDict LocalStack.BinaryFloat
open LocalStack.Aws.Datetime

def unsignedIntMajorType := 0
def negativeIntMajorType := 1
def blobMajorType := 2
def stringMajorType := 3
def listMajorType := 4
def mapMajorType := 5
def tagMajorType := 6
def floatAndSimpleMajorType := 7
def indefiniteItemAdditionalInfo := 31
def breakCode : UInt8 := 0xFF

/-! ## Serializer -/

/-- The value of the class attribute `USE_INDEFINITE_DATA_STRUCTURE` and
`struct.pack(">d", seconds)` of a timestamp. -/
structure Config where
  use_indefinite_data_structure : Bool
  packDouble : ℚ → List UInt8

def get_additional_info_and_num_bytes (value : Nat) : Nat × Nat :=
  if value < 24 then (value, 0)
  else if value < 256 then (24, 1)
  else if value < 65536 then (25, 2)
  else if value < 4294967296 then (26, 4)
  else (27, 8)

def get_initial_byte (major_type additional_info : Nat) : UInt8 :=
  UInt8.ofNat (major_type <<< 5 ||| additional_info)

/-- `value.to_bytes(num_bytes, "big")`. -/
def to_bytes (num_bytes value : Nat) : Except Error (List UInt8) :=
  if value < 256 ^ num_bytes then .ok (toBytes num_bytes value) else .error .overflowError

/-- The initial byte for a number, and its bytes where it has bytes of its own. -/
def serializeHead (major_type value : Nat) : Except Error (List UInt8) := do
  let (additional_info, num_bytes) := get_additional_info_and_num_bytes value
  let initial_byte := get_initial_byte major_type additional_info
  if num_bytes = 0 then return [initial_byte]
  return initial_byte :: (← to_bytes num_bytes value)

def serialize_type_integer (value : Int) : Except Error (List UInt8) :=
  if 0 ≤ value then serializeHead unsignedIntMajorType value.toNat
  else serializeHead negativeIntMajorType (-1 - value).toNat

def serialize_type_blob (value : List UInt8) : Except Error (List UInt8) := do
  return (← serializeHead blobMajorType value.length) ++ value

def serialize_type_string (value : Str) : Except Error (List UInt8) := do
  let encoded := encodeUtf8 value
  return (← serializeHead stringMajorType encoded.length) ++ encoded

def serialize_type_boolean (value : Bool) : List UInt8 :=
  [get_initial_byte floatAndSimpleMajorType (if value then 21 else 20)]

def serialize_type_timestamp (cfg : Config) (t : Int) : List UInt8 :=
  get_initial_byte tagMajorType 1 ::
    get_initial_byte floatAndSimpleMajorType 27 :: cfg.packDouble (timestamp t)

/-- `struct.pack(">H", bits)` of a special number. -/
def specialBytes : Special → List UInt8
  | .inf => toBytes 2 0x7C00
  | .negInf => toBytes 2 0xFC00
  | .nan => toBytes 2 0x7E00

def get_bytes_for_special_numbers (x : Special) : List UInt8 :=
  get_initial_byte floatAndSimpleMajorType 25 :: specialBytes x

/-- A number that is not special, in the format that `additional_info` stands for. An int
becomes a double before it is packed. -/
def serializeFloat (F : Format) (additional_info : Nat) : Value → Except Error (List UInt8)
  | .special x => .ok (get_bytes_for_special_numbers x)
  | .float q => pack q
  | v =>
    match v.asInt with
    | none => .error .typeError
    | some i =>
      match double.round i with
      | some q => pack q
      | none => .error .overflowError
where
  pack (q : ℚ) : Except Error (List UInt8) :=
    match F.pack q with
    | some bs => .ok (get_initial_byte floatAndSimpleMajorType additional_info :: bs)
    | none => .error .overflowError

def serialize_type_float : Value → Except Error (List UInt8) := serializeFloat single 26

def serialize_type_double : Value → Except Error (List UInt8) := serializeFloat double 27

/-- The bytes before and after the entries of a list or map. -/
def get_bytes_for_data_structure (cfg : Config) (length major_type : Nat) :
    Except Error (List UInt8 × List UInt8) :=
  if cfg.use_indefinite_data_structure then
    .ok ([get_initial_byte major_type indefiniteItemAdditionalInfo], [breakCode])
  else do
    return (← serializeHead major_type length, [])

def serializeScalar (cfg : Config) : ScalarType → Value → Except Error (List UInt8)
  | .string, .str s => serialize_type_string s
  | .string, _ => .error .attributeError
  | .integer, v | .long, v =>
    match v.asInt with
    | some i => serialize_type_integer i
    | none => .error .typeError
  | .float, v => serialize_type_float v
  | .double, v => serialize_type_double v
  | .boolean, v => .ok (serialize_type_boolean v.truthy)
  | .blob, .str s => serialize_type_blob (encodeUtf8 s)
  | .blob, .bytes bs => serialize_type_blob bs
  | .blob, _ => .error .attributeError
  -- numbers and strings given for a timestamp are not modelled
  | .timestamp, .datetime t => .ok (serialize_type_timestamp cfg t)
  | .timestamp, _ => .error .valueError

mutual

/-- `_serialize_data_item`, with the bytes it appends. Its `name` argument is
never given for the items inside a body. -/
def serialize_data_item (cfg : Config) : Value → Shape → Except Error (List UInt8)
  | v, .scalar _ t => serializeScalar cfg t v
  | .list vs, .list _ member => do
    let (initial_bytes, closing_bytes) ← get_bytes_for_data_structure cfg vs.length listMajorType
    return initial_bytes ++ (← serializeItems cfg member vs) ++ closing_bytes
  | .dict d, .map _ _ value => do
    let (initial_bytes, closing_bytes) ← get_bytes_for_data_structure cfg d.length mapMajorType
    return initial_bytes ++ (← serializeEntries cfg value d) ++ closing_bytes
  | .dict d, .struct _ _ members => do
    let count := (d.filter fun p => !p.2.isNone).length
    let (initial_bytes, closing_bytes) ← get_bytes_for_data_structure cfg count mapMajorType
    return initial_bytes ++ (← serializeMembers cfg members d) ++ closing_bytes
  | _, .list .. => .error .typeError
  | _, _ => .error .attributeError
termination_by structural v => v

def serializeItems (cfg : Config) (member : Shape) : List Value → Except Error (List UInt8)
  | [] => .ok []
  | v :: vs => do
    return (← serialize_data_item cfg v member) ++ (← serializeItems cfg member vs)
termination_by structural vs => vs

def serializeEntries (cfg : Config) (value : Shape) :
    List (Str × Value) → Except Error (List UInt8)
  | [] => .ok []
  | (key, v) :: d => do
    let key ← serialize_type_string key
    let item ← serialize_data_item cfg v value
    return key ++ item ++ (← serializeEntries cfg value d)
termination_by structural d => d

/-- The members whose value is not `None`, each under its serialized name. -/
def serializeMembers (cfg : Config) (members : Dict Str Shape) :
    List (Str × Value) → Except Error (List UInt8)
  | [] => .ok []
  | (member_key, v) :: d =>
    if v.isNone then serializeMembers cfg members d
    else
      match members.get member_key with
      | none => .error .keyError
      | some member_shape => do
        let key ← serialize_type_string (member_shape.getSerializedName member_key)
        let item ← serialize_data_item cfg v member_shape
        return key ++ item ++ (← serializeMembers cfg members d)
termination_by structural d => d

end

/-! ## Reader -/

abbrev Stream := List UInt8

abbrev Reader (α : Type) := Stream → Except Error (α × Stream)

/-- `sys.maxsize`, the largest argument of `stream.read` and the largest length. -/
def maxSize : Nat := 2 ^ 63 - 1

def read_from_stream (num_bytes : Nat) : Reader (List UInt8) := fun stream =>
  if num_bytes ≤ stream.length then .ok (stream.take num_bytes, stream.drop num_bytes)
  else if maxSize < num_bytes then .error .overflowError
  else .error .protocolParserError

def read_bytes_as_int (num_bytes : Nat) : Reader Nat := fun stream => do
  let (byte, stream) ← read_from_stream num_bytes stream
  return (fromBytes byte, stream)

/-- The rest of the stream after the break code, if that comes next. -/
def handle_break_code : Stream → Option Stream
  | b :: stream => if b = breakCode then some stream else none
  | [] => none

def parse_type_unsigned_integer (additional_info : Nat) : Reader Nat := fun stream =>
  if additional_info < 24 then .ok (additional_info, stream)
  else
    match additional_info with
    | 24 => read_bytes_as_int 1 stream
    | 25 => read_bytes_as_int 2 stream
    | 26 => read_bytes_as_int 4 stream
    | 27 => read_bytes_as_int 8 stream
    | _ => .error .protocolParserError

def parse_type_negative_integer (additional_info : Nat) : Reader Int := fun stream => do
  let (n, stream) ← parse_type_unsigned_integer additional_info stream
  return (-1 - n, stream)

/-- `[read() for _ in range(n)]`. -/
def readTimes {α : Type} (read : Reader α) : Nat → Reader (List α)
  | 0, stream => .ok ([], stream)
  | n + 1, stream => do
    let (x, stream) ← read stream
    let (xs, stream) ← readTimes read n stream
    return (x :: xs, stream)

/-- `while not _handle_break_code(): read()`. -/
def readUntilBreak {α : Type} (read : Reader α) : Nat → Reader (List α)
  | 0, _ => .error .recursionError
  | fuel + 1, stream =>
    match handle_break_code stream with
    | some stream => .ok ([], stream)
    | none => do
      let (x, stream) ← read stream
      let (xs, stream) ← readUntilBreak read fuel stream
      return (x :: xs, stream)

/-- The entries of a container: as many as its length says, or up to the break
code. Every entry takes a byte, so the stream is long enough for the latter. -/
def readEntries {α : Type} (read : Reader α) (additional_info : Nat) : Reader (List α) :=
  fun stream =>
    if additional_info ≠ indefiniteItemAdditionalInfo then do
      let (length, stream) ← parse_type_unsigned_integer additional_info stream
      readTimes read length stream
    else readUntilBreak read (stream.length + 1) stream

/-- A chunk of an indefinite string; its major type is not looked at. -/
def readChunk : Reader (List UInt8) := fun stream => do
  let (initial_byte, stream) ← read_bytes_as_int 1 stream
  let (length, stream) ← parse_type_unsigned_integer (initial_byte &&& 0b00011111) stream
  read_from_stream length stream

def parse_type_byte_string (additional_info : Nat) : Reader (List UInt8) := fun stream =>
  if additional_info ≠ indefiniteItemAdditionalInfo then do
    let (length, stream) ← parse_type_unsigned_integer additional_info stream
    read_from_stream length stream
  else do
    let (chunks, stream) ← readUntilBreak readChunk (stream.length + 1) stream
    return (chunks.flatten, stream)

def parse_type_text_string (additional_info : Nat) : Reader Str := fun stream => do
  let (bytes, stream) ← parse_type_byte_string additional_info stream
  match decodeUtf8 bytes with
  | some s => return (s, stream)
  | none => throw .valueError

/-- The entry that a key and value pair adds: none when the value is `None`.
Only text keys are modelled. -/
def parse_type_key_value_pair (item : Reader Value) : Reader (Option (Str × Value)) :=
  fun stream => do
    let (key, stream) ← item stream
    let (value, stream) ← item stream
    match key, value with
    | _, .none => return (none, stream)
    | .str key, value => return (some (key, value), stream)
    | _, _ => throw .typeError

/-- A number of seconds, cut to milliseconds. -/
def parse_type_datetime : Value → Except Error Value
  | .float q => (fromtimestamp (truncate (q * 1000) / 1000)).map .datetime
  | .special .nan => .error .valueError
  | .special _ => .error .overflowError
  | v =>
    match v.asInt with
    | some i => (fromtimestamp (truncate (i * 1000) / 1000)).map .datetime
    | none => .error .protocolParserError

/-- `unpackFloat` is `struct.unpack` of the two, four or eight bytes of a float. -/
def parse_type_simple_and_float (unpackFloat : List UInt8 → Value) (additional_info : Nat) :
    Reader Value := fun stream =>
  match additional_info with
  | 20 => .ok (.bool false, stream)
  | 21 => .ok (.bool true, stream)
  | 22 | 23 => .ok (.none, stream)
  | 25 => (read_from_stream 2 stream).map fun r => (unpackFloat r.1, r.2)
  | 26 => (read_from_stream 4 stream).map fun r => (unpackFloat r.1, r.2)
  | 27 => (read_from_stream 8 stream).map fun r => (unpackFloat r.1, r.2)
  | _ => .error .protocolParserError

/-- The parsing methods by major type; `item` is `parse_data_item`. -/
def parseMajorType (unpackFloat : List UInt8 → Value) (item : Reader Value)
    (major_type additional_info : Nat) : Reader Value := fun stream =>
  match major_type with
  | 0 => (parse_type_unsigned_integer additional_info stream).map fun r => (.int r.1, r.2)
  | 1 => (parse_type_negative_integer additional_info stream).map fun r => (.int r.1, r.2)
  | 2 => (parse_type_byte_string additional_info stream).map fun r => (.bytes r.1, r.2)
  | 3 => (parse_type_text_string additional_info stream).map fun r => (.str r.1, r.2)
  | 4 => (readEntries item additional_info stream).map fun r => (.list r.1, r.2)
  | 5 =>
    (readEntries (parse_type_key_value_pair item) additional_info stream).map fun r =>
      (.dict (Dict.ofPairs (r.1.filterMap id)), r.2)
  | 6 => do
    let (tag, stream) ← parse_type_unsigned_integer additional_info stream
    let (value, stream) ← item stream
    if tag = 1 then return (← parse_type_datetime value, stream)
    throw .protocolParserError
  | 7 => parse_type_simple_and_float unpackFloat additional_info stream
  | _ => .error .protocolParserError

def parseDataItem (unpackFloat : List UInt8 → Value) : Nat → Reader Value
  | 0, _ => .error .recursionError
  | fuel + 1, stream => do
    let (initial_byte, stream) ← read_bytes_as_int 1 stream
    parseMajorType unpackFloat (parseDataItem unpackFloat fuel) (initial_byte >>> 5)
      (initial_byte &&& 0b00011111) stream

/-- `parse_data_item`. Every nested item comes after a byte of its container, so
the nesting is no deeper than the stream is long. -/
def parse_data_item (unpackFloat : List UInt8 → Value) : Reader Value := fun stream =>
  parseDataItem unpackFloat (stream.length + 1) stream

end LocalStack.Aws.Protocol.Cbor
