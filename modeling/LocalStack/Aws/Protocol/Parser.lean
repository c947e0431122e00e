import LocalStack.Aws.Datetime
import LocalStack.Aws.Shape
import LocalStack.Lib.Base64
import LocalStack.Lib.FloatText

/-! The handlers that `RequestParser` shares among the protocols: the scalars,
and the errors that `_parse_shape` turns into a ProtocolParserError. ISO 8601
text is parsed by `dateutil`, which is a parameter. -/

namespace LocalStack.Aws.Protocol.Parser
open LocalStack.Text LocalStack.Decimal LocalStack.Base64 LocalStack.BinaryFloat
open LocalStack.Aws.Datetime

/-- `except (TypeError, ValueError, AttributeError)` of `_parse_shape`. -/
def wrapErrors {α : Type} : Except Error α → Except Error α
  | .error .typeError | .error .valueError | .error .attributeError =>
    .error .protocolParserError
  | r => r

@[simp] theorem wrapErrors_ok {α : Type} (a : α) : wrapErrors (.ok a) = .ok a := rfl

@[simp] theorem wrapErrors_eq_ok {α : Type} {r : Except Error α} {a : α} :
    wrapErrors r = .ok a ↔ r = .ok a := by
  rcases r with e | b
  · cases e <;> simp [wrapErrors]
  · simp

/-- A ValueError in place of nothing. -/
def orValueError {α : Type} : Option α → Except Error α
  | some a => .ok a
  | none => .error .valueError

/-- The bytes of a text as ASCII characters. -/
def asciiText (bs : List UInt8) : Str := bs.map fun b => Char.ofNat b.toNat

/-- `int(node)`, without the limit on the number of digits. -/
def pyInt : Value → Except Error Int
  | .int i => .ok i
  | .bool b => .ok b.toNat
  | .float q => .ok (truncate q)
  | .special .nan => .error .valueError
  | .special _ => .error .overflowError
  | .str s => orValueError (parseInt (s.map IntText.toAscii))
  | .bytes bs => orValueError (parseInt (asciiText bs))
  | _ => .error .typeError

@[simp] theorem pyInt_intToStr (i : Int) : pyInt (.str (intToStr i)) = .ok i := by
  rw [pyInt, IntText.map_toAscii_intToStr, parseInt_intToStr, orValueError]

def parse_integer (node : Value) : Except Error Value := (pyInt node).map .int

/-- `float(node)`. -/
def pyFloat : Value → Except Error Number
  | .float q => .ok (.finite q)
  | .special x => .ok (.special x)
  | .int i => ofInt i
  | .bool b => ofInt b.toNat
  | .str s => orValueError (FloatText.float s)
  | .bytes bs => orValueError (FloatText.asciiFloat (asciiText bs))
  | _ => .error .typeError
where
  ofInt (i : Int) : Except Error Number :=
    match double.round i with
    | some q => .ok (.finite q)
    | none => .error .overflowError

def parse_float (node : Value) : Except Error Value := (pyFloat node).map Value.ofNumber

def parse_blob : Value → Except Error Value
  | .str s => (orValueError (b64decode s)).map .bytes
  | .bytes bs => (orValueError (decodeFrom ⟨0, 0, 0⟩ (asciiText bs))).map .bytes
  | _ => .error .typeError

def lower (s : Str) : Str := s.map Char.toLower

def parseBooleanText (s : Str) : Except Error Value :=
  if lower s = "true".toList then .ok (.bool true)
  else if lower s = "false".toList then .ok (.bool false)
  else .error .valueError

def parse_boolean : Value → Except Error Value
  | .str s => parseBooleanText s
  | .bytes _ => .error .valueError
  | _ => .error .attributeError

/-- `dateutil.parser.isoparse`, as the instant it returns. -/
abbrev IsoParse := Str → Except Error Int

def convert_str_to_timestamp (isoparse : IsoParse) (value : Value) :
    TimestampFormat → Except Error Value
  | .iso8601 =>
    match value with
    | .str s => (isoparse s).map .datetime
    | _ => .error .typeError
  | .unixtimestamp => do
    let seconds ← pyInt value
    return .datetime (← fromtimestamp seconds)

/-- `_parse_timestamp`; `default` is the parser's `TIMESTAMP_FORMAT`. -/
def parse_timestamp (isoparse : IsoParse) (default : TimestampFormat) (ser : Serialization)
    (node : Value) : Except Error Value :=
  convert_str_to_timestamp isoparse node (ser.timestampFormat.getD default)

/-- The handlers of scalar shapes that a parser inherits from `RequestParser`. -/
def parseScalar (isoparse : IsoParse) (default : TimestampFormat) (ser : Serialization)
    (node : Value) : ScalarType → Except Error Value
  | .string => .ok node
  | .integer | .long => parse_integer node
  | .float | .double => parse_float node
  | .boolean => parse_boolean node
  | .blob => parse_blob node
  | .timestamp => parse_timestamp isoparse default ser node

end LocalStack.Aws.Protocol.Parser
