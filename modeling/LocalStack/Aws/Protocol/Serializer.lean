import LocalStack.Aws.Datetime
import LocalStack.Aws.Shape
import LocalStack.Lib.Base64
import LocalStack.Lib.Bytes
import LocalStack.Lib.Calendar

/-! What `ResponseSerializer` shares among the protocols. -/

namespace LocalStack.Aws.Protocol.Serializer
open LocalStack.Text LocalStack.Bytes LocalStack.Base64 LocalStack.Calendar
open LocalStack.Aws.Datetime

/-- `except (TypeError, ValueError, AttributeError)` of `_serialize`. -/
def wrapSerializerErrors {α : Type} : Except Error α → Except Error α
  | .error .typeError | .error .valueError | .error .attributeError =>
    .error .protocolSerializerError
  | r => r

@[simp] theorem wrapSerializerErrors_ok {α : Type} (a : α) :
    wrapSerializerErrors (.ok a) = .ok a := rfl

/-- `_get_base64`. -/
def get_base64 : Value → Except Error Value
  | .str s => .ok (.str (b64encode (encodeUtf8 s)))
  | .bytes bs => .ok (.str (b64encode bs))
  | _ => .error .typeError

/-- `_convert_timestamp_to_str` of a datetime. -/
def convert_timestamp_to_str (t : Int) : TimestampFormat → Value
  | .iso8601 => .str (iso8601 t)
  | .unixtimestamp => .float (timestamp t)

end LocalStack.Aws.Protocol.Serializer
