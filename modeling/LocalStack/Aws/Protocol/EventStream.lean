import LocalStack.Lib.OrderedDict
import LocalStack.Lib.Bytes
import LocalStack.Lib.Framing
import LocalStack.Lib.Lists

/-! Event streams: how the serializer frames one event, and a decoder that follows
the frame layout (total length, headers length, prelude checksum, headers, payload,
message checksum). CRC32 is a parameter. -/

namespace LocalStack.Aws.EventStream
open LocalStack.Text LocalStack.OrderedDict LocalStack.Bytes LocalStack.Framing

abbrev Bytes := List UInt8

inductive Content
  | str (s : Str)
  | bytes (bs : Bytes)

/-- The arguments of `_encode_event_payload`. -/
structure Event where
  event_type : Str
  content : Content := .str []
  error_code : Option Str := none
  error_message : Option Str := none

/-! ## The encoder -/

def AWS_BINARY_DATA_TYPE_STRING : Nat := 7

/-- `struct.pack` of an unsigned integer of `k` bytes; `none` is a struct.error. -/
def pack (k n : Nat) : Option Bytes := if n < 256 ^ k then some (toBytes k n) else none

/-- The string, unless it is `None` or empty. -/
def given : Option Str → Option Str
  | some (c :: s) => some (c :: s)
  | _ => none

def Event.message_type (e : Event) : Str :=
  if (given e.error_message).isSome ∨ (given e.error_code).isSome then "error".toList
  else "event".toList

def Event.headers (e : Event) : Dict Str Str :=
  [(":event-type".toList, e.event_type), (":message-type".toList, e.message_type)] ++
    ((given e.error_message).map (":error-message".toList, ·)).toList ++
    ((given e.error_code).map (":error-code".toList, ·)).toList

def Event.payload (e : Event) : Bytes :=
  match e.content with
  | .str s => encodeUtf8 s
  | .bytes bs => bs

/-- One turn of the loop over `headers.items()`. -/
def encodeHeader (h : Str × Str) : Option Bytes := do
  let header_name := encodeUtf8 h.1
  let header_value := encodeUtf8 h.2
  let name_length ← pack 1 header_name.length
  let value_type ← pack 1 AWS_BINARY_DATA_TYPE_STRING
  let value_length ← pack 2 header_value.length
  return name_length ++ header_name ++ value_type ++ value_length ++ header_value

def _encode_event_payload (crc32 : Bytes → UInt32) (e : Event) : Option Bytes := do
  let header_section := (← e.headers.mapM encodeHeader).flatten
  let headers_length := header_section.length
  let payload_length := e.payload.length
  let total ← pack 4 (payload_length + headers_length + 16)
  let length ← pack 4 headers_length
  let prelude_crc ← pack 4 (crc32 (total ++ length)).toNat
  let result := total ++ length ++ prelude_crc ++ header_section ++ e.payload
  let payload_crc ← pack 4 (crc32 result).toNat
  return result ++ payload_crc

/-! ## The decoder -/

structure Frame where
  headers : Dict Str Str
  payload : Bytes
  preludeIntact : Bool
  messageIntact : Bool
  deriving DecidableEq

def readUInt (k : Nat) : Reader UInt8 Nat := do return fromBytes (← takeN k)

def readText (n : Nat) : Reader UInt8 Str := do decodeUtf8 (← takeN n)

/-- Only headers of the string type occur. -/
def readHeader : Reader UInt8 (Str × Str) := do
  let name ← readText (← readUInt 1)
  guard ((← readUInt 1) = AWS_BINARY_DATA_TYPE_STRING)
  let value ← readText (← readUInt 2)
  return (name, value)

def readHeaders (bs : Bytes) : Option (Dict Str Str) :=
  (readAll readHeader bs.length bs).map Dict.ofPairs

def readFrame (crc32 : Bytes → UInt32) : Reader UInt8 Frame := do
  let total ← takeN 4
  let length ← takeN 4
  let preludeCrc ← takeN 4
  guard (fromBytes length + 16 ≤ fromBytes total)
  let headers ← takeN (fromBytes length)
  let payload ← takeN (fromBytes total - fromBytes length - 16)
  let messageCrc ← takeN 4
  return {
    headers := ← readHeaders headers
    payload
    preludeIntact := fromBytes preludeCrc = (crc32 (total ++ length)).toNat
    messageIntact := fromBytes messageCrc =
      (crc32 (total ++ length ++ preludeCrc ++ headers ++ payload)).toNat }

/-- All frames of a stream; `none` if it does not end with a frame. -/
def decodeStream (crc32 : Bytes → UInt32) (bs : Bytes) : Option (List Frame) :=
  readAll (readFrame crc32) bs.length bs

/-! ## Frames are read back -/

theorem pack_eq {k n : Nat} (h : n < 256 ^ k) : pack k n = some (toBytes k n) := if_pos h

theorem reads_takeN_toBytes (k n : Nat) : Reads (takeN k) (toBytes k n) (toBytes k n) := by
  have h := reads_takeN (toBytes k n)
  rwa [length_toBytes] at h

theorem reads_readUInt {k n : Nat} (h : n < 256 ^ k) : Reads (readUInt k) (toBytes k n) n := by
  have hread := (reads_takeN_toBytes k n).map fromBytes
  rwa [fromBytes_toBytes h] at hread

theorem reads_readText (s : Str) :
    Reads (readText (encodeUtf8 s).length) (encodeUtf8 s) s := by
  intro rest
  rw [readText, StateT.run_bind, reads_takeN]
  show (liftM (decodeUtf8 (encodeUtf8 s)) : Reader UInt8 Str).run rest = _
  rw [decodeUtf8_encodeUtf8]
  rfl

/-- The keys are constants, so the dictionary can be written as a list. -/
theorem Event.headers_sublist (e : Event) : e.headers.keys.Sublist
    [":event-type".toList, ":message-type".toList, ":error-message".toList,
      ":error-code".toList] := by
  unfold Event.headers
  cases given e.error_message <;> cases given e.error_code <;> simp [Dict.keys]

theorem Event.headers_wf (e : Event) : Dict.WF e.headers :=
  (show List.Nodup _ by decide).sublist e.headers_sublist

theorem get_entry (key name : Str) (o : Option Str) :
    Dict.get (o.map (key, ·)).toList name = if name = key then o else none := by
  cases o with
  | none => simp
  | some v =>
    rw [Option.map_some, Option.toList_some, Dict.get_cons, Dict.get_nil]
    simp only [eq_comm]

/-- The headers of an event by their names. An error code or message is left out if it is
empty, and the event is an error if it has one of them. -/
theorem Event.get_headers (e : Event) (name : Str) :
    e.headers.get name =
      if name = ":event-type".toList then some e.event_type
      else if name = ":message-type".toList then
        some (if given e.error_message = none ∧ given e.error_code = none then "event".toList
          else "error".toList)
      else if name = ":error-message".toList then given e.error_message
      else if name = ":error-code".toList then given e.error_code
      else none := by
  have htype : e.message_type =
      if given e.error_message = none ∧ given e.error_code = none then "event".toList
        else "error".toList := by
    unfold message_type
    cases given e.error_message <;> cases given e.error_code <;> simp
  have hne : ":error-message".toList ≠ ":error-code".toList := by decide
  rw [headers, htype, Dict.get_append, Dict.get_append, get_entry, get_entry, Dict.get_cons,
    Dict.get_cons, Dict.get_nil]
  by_cases h₁ : name = ":event-type".toList
  · rw [if_pos h₁.symm, if_pos h₁]
    rfl
  rw [if_neg (Ne.symm h₁), if_neg h₁]
  by_cases h₂ : name = ":message-type".toList
  · rw [if_pos h₂.symm, if_pos h₂]
    rfl
  rw [if_neg (Ne.symm h₂), if_neg h₂]
  by_cases h₃ : name = ":error-message".toList
  · rw [if_pos h₃, if_pos h₃, if_neg (h₃ ▸ hne), Option.none_or, Option.or_none]
  · rw [if_neg h₃, if_neg h₃, Option.none_or, Option.none_or]

theorem Event.decodeUtf8_payload {e : Event} {s : Str} (h : e.content = .str s) :
    decodeUtf8 e.payload = some s := by
  rw [payload, h]
  exact decodeUtf8_encodeUtf8 s

theorem Event.length_name_lt (e : Event) {h : Str × Str} (hh : h ∈ e.headers) :
    (encodeUtf8 h.1).length < 256 := by
  have hnames : ∀ name ∈ [":event-type".toList, ":message-type".toList, ":error-message".toList,
      ":error-code".toList], (encodeUtf8 name).length < 256 := by decide
  exact hnames h.1 (e.headers_sublist.subset (Dict.mem_keys_of_mem hh))

/-- The bytes of a header whose lengths fit into their fields. -/
def headerCode (h : Str × Str) : Bytes :=
  toBytes 1 (encodeUtf8 h.1).length ++ encodeUtf8 h.1 ++ toBytes 1 AWS_BINARY_DATA_TYPE_STRING ++
    toBytes 2 (encodeUtf8 h.2).length ++ encodeUtf8 h.2

theorem length_headerCode (h : Str × Str) :
    (headerCode h).length = 4 + (encodeUtf8 h.1).length + (encodeUtf8 h.2).length := by
  simp only [headerCode, List.length_append, length_toBytes]
  omega

theorem encodeHeader_eq {h : Str × Str} (hname : (encodeUtf8 h.1).length < 256)
    (hvalue : (encodeUtf8 h.2).length ≤ 65535) : encodeHeader h = some (headerCode h) := by
  rw [encodeHeader, pack_eq (by omega), pack_eq (by decide), pack_eq (by omega)]
  rfl

theorem reads_headerCode {h : Str × Str} (hname : (encodeUtf8 h.1).length < 256)
    (hvalue : (encodeUtf8 h.2).length ≤ 65535) : Reads readHeader (headerCode h) h := by
  have hread : Reads readHeader (toBytes 1 (encodeUtf8 h.1).length ++ (encodeUtf8 h.1 ++
      (toBytes 1 AWS_BINARY_DATA_TYPE_STRING ++ (toBytes 2 (encodeUtf8 h.2).length ++
        (encodeUtf8 h.2 ++ []))))) h := by
    refine (reads_readUInt (by omega)).bind ((reads_readText h.1).bind ?_)
    refine (reads_readUInt (by decide)).bind (Reads.guard_bind rfl ?_)
    refine (reads_readUInt (by omega)).bind ((reads_readText h.2).bind ?_)
    exact reads_pure h
  simpa only [headerCode, List.append_assoc, List.append_nil] using hread

theorem readHeaders_flatten {hs : Dict Str Str} (hwf : Dict.WF hs)
    (hname : ∀ h ∈ hs, (encodeUtf8 h.1).length < 256)
    (hvalue : ∀ h ∈ hs, (encodeUtf8 h.2).length ≤ 65535) :
    readHeaders (hs.map headerCode).flatten = some hs := by
  have hcodes : List.Forall₂ (Reads readHeader) (hs.map headerCode) hs := by
    rw [List.forall₂_map_left_iff, List.forall₂_same]
    exact fun h hh => reads_headerCode (hname h hh) (hvalue h hh)
  have hne : ∀ c ∈ hs.map headerCode, c ≠ [] := by
    intro c hc hnil
    obtain ⟨h, -, rfl⟩ := List.mem_map.mp hc
    have hlength := length_headerCode h
    rw [hnil, List.length_nil] at hlength
    omega
  rw [readHeaders, readAll_flatten hcodes hne le_rfl, Option.map_some, Dict.ofPairs_of_wf hwf]

def Event.headersLength (e : Event) : Nat :=
  (e.headers.map fun h => 4 + (encodeUtf8 h.1).length + (encodeUtf8 h.2).length).sum

/-- Every length fits into its field. -/
structure Event.Fits (e : Event) : Prop where
  headers : ∀ h ∈ e.headers, (encodeUtf8 h.2).length ≤ 65535
  length : e.payload.length + e.headersLength + 16 < 2 ^ 32

def Event.headerSection (e : Event) : Bytes := (e.headers.map headerCode).flatten

theorem Event.length_headerSection (e : Event) : e.headerSection.length = e.headersLength := by
  rw [headerSection, headersLength, List.length_flatten, List.map_map]
  congr 1
  exact List.map_congr_left fun h _ => length_headerCode h

/-- The bytes of a frame before the message checksum. -/
def Event.body (crc32 : Bytes → UInt32) (e : Event) : Bytes :=
  let lengths := toBytes 4 (e.payload.length + e.headersLength + 16) ++ toBytes 4 e.headersLength
  lengths ++ toBytes 4 (crc32 lengths).toNat ++ e.headerSection ++ e.payload

def Event.frameCode (crc32 : Bytes → UInt32) (e : Event) : Bytes :=
  e.body crc32 ++ toBytes 4 (crc32 (e.body crc32)).toNat

/-- What the decoder should say about the event's frame. -/
def Event.frame (e : Event) : Frame := ⟨e.headers, e.payload, true, true⟩

theorem crc32_lt (c : UInt32) : c.toNat < 256 ^ 4 := c.toNat_lt

theorem encode_eq_frameCode (crc32 : Bytes → UInt32) {e : Event} (he : e.Fits) :
    _encode_event_payload crc32 e = some (e.frameCode crc32) := by
  have hlength := he.length
  have hheaders : e.headers.mapM encodeHeader = some (e.headers.map headerCode) :=
    Lists.mapM_eq_some_map fun h hh => encodeHeader_eq (e.length_name_lt hh) (he.headers h hh)
  have hsection : (e.headers.map headerCode).flatten.length = e.headersLength :=
    e.length_headerSection
  rw [_encode_event_payload, hheaders]
  simp only [Option.bind_eq_bind, Option.bind_some, hsection]
  rw [pack_eq (by omega), Option.bind_some, pack_eq (by omega), Option.bind_some,
    pack_eq (crc32_lt _), Option.bind_some, pack_eq (crc32_lt _)]
  rfl

theorem reads_frameCode (crc32 : Bytes → UInt32) {e : Event} (he : e.Fits) :
    Reads (readFrame crc32) (e.frameCode crc32) e.frame := by
  have hlength := he.length
  have hheaders : readHeaders e.headerSection = some e.headers :=
    readHeaders_flatten e.headers_wf (fun h hh => e.length_name_lt hh) he.headers
  have hsection := e.length_headerSection
  have htotal : fromBytes (toBytes 4 (e.payload.length + e.headersLength + 16)) =
      e.payload.length + e.headersLength + 16 := fromBytes_toBytes (by omega)
  have hheaderLength : fromBytes (toBytes 4 e.headersLength) = e.headersLength :=
    fromBytes_toBytes (by omega)
  rw [← List.append_nil (e.frameCode crc32), Event.frameCode, Event.body]
  simp only [List.append_assoc]
  refine Reads.takeN_bind (length_toBytes 4 _) (Reads.takeN_bind (length_toBytes 4 _) ?_)
  refine Reads.takeN_bind (length_toBytes 4 _) (Reads.guard_bind (by omega) ?_)
  refine Reads.takeN_bind (by omega) (Reads.takeN_bind (by omega) ?_)
  refine Reads.takeN_bind (length_toBytes 4 _) (Reads.some_bind hheaders ?_)
  rw [fromBytes_toBytes (crc32_lt _), fromBytes_toBytes (crc32_lt _)]
  simp only [List.append_assoc, decide_true]
  exact reads_pure e.frame

/-- A frame has at least the length of its two length fields. -/
theorem frameCode_ne_nil (crc32 : Bytes → UInt32) (e : Event) : e.frameCode crc32 ≠ [] := by
  intro hnil
  have hlength := congrArg List.length hnil
  simp only [Event.frameCode, List.length_append, length_toBytes, List.length_nil] at hlength
  omega

theorem decodeStream_frameCodes (crc32 : Bytes → UInt32) {events : List Event}
    (hfits : ∀ e ∈ events, e.Fits) :
    decodeStream crc32 (events.map (·.frameCode crc32)).flatten = some (events.map (·.frame)) := by
  refine readAll_flatten ?_ ?_ le_rfl
  · rw [List.forall₂_map_left_iff, List.forall₂_map_right_iff, List.forall₂_same]
    exact fun e he => reads_frameCode crc32 (hfits e he)
  · intro c hc
    obtain ⟨e, -, rfl⟩ := List.mem_map.mp hc
    exact frameCode_ne_nil crc32 e

/-- A frame says everything about its event but whether an error code or message is empty or
missing. -/
theorem Event.frame_eq_iff (e e' : Event) : e.frame = e'.frame ↔
    e.event_type = e'.event_type ∧ given e.error_message = given e'.error_message ∧
      given e.error_code = given e'.error_code ∧ e.payload = e'.payload := by
  constructor
  · intro h
    obtain ⟨hheaders, hpayload, -⟩ := Frame.mk.inj h
    have hget := fun name => congrArg (Dict.get · name) hheaders
    simp only [get_headers] at hget
    have htype := hget ":event-type".toList
    have hmessage := hget ":error-message".toList
    have hcode := hget ":error-code".toList
    rw [if_pos rfl, if_pos rfl] at htype
    rw [if_neg (by decide), if_neg (by decide), if_pos rfl, if_neg (by decide),
      if_neg (by decide), if_pos rfl] at hmessage
    rw [if_neg (by decide), if_neg (by decide), if_neg (by decide), if_pos rfl,
      if_neg (by decide), if_neg (by decide), if_neg (by decide), if_pos rfl] at hcode
    exact ⟨Option.some.inj htype, hmessage, hcode, hpayload⟩
  · rintro ⟨htype, hmessage, hcode, hpayload⟩
    simp only [frame, headers, message_type, htype, hmessage, hcode, hpayload]

/-- Streams with the same bytes come from events with the same headers and payloads. -/
theorem frames_eq_of_stream_eq (crc32 : Bytes → UInt32) {events events' : List Event}
    (hfits : ∀ e ∈ events, e.Fits) (hfits' : ∀ e ∈ events', e.Fits)
    (h : (events.map (·.frameCode crc32)).flatten = (events'.map (·.frameCode crc32)).flatten) :
    events.map (·.frame) = events'.map (·.frame) := by
  have hdecode := decodeStream_frameCodes crc32 hfits
  rw [h, decodeStream_frameCodes crc32 hfits'] at hdecode
  exact (Option.some.inj hdecode).symm

/-- The CRC32 of zlib, bit by bit. -/
def zlibCrc32 (bs : Bytes) : UInt32 :=
  let shift (c : UInt32) := if c &&& 1 = 1 then (c >>> 1) ^^^ 0xEDB88320 else c >>> 1
  ~~~ bs.foldl (fun c b => shift^[8] (c ^^^ b.toUInt32)) 0xFFFFFFFF

example : zlibCrc32 (encodeUtf8 "123456789".toList) = 0xCBF43926 := by decide +kernel

/-- An event, an error and an empty event. -/
def sampleEvents : List Event :=
  [{ event_type := "Records".toList, content := .bytes [0, 255, 10] },
    { event_type := "Ö".toList, content := .str "ß".toList, error_code := some "500".toList,
      error_message := some "Internal".toList },
    { event_type := "End".toList }]

end LocalStack.Aws.EventStream
