import LocalStack.Aws.JsonText
import LocalStack.Aws.Protocol.Parser
import LocalStack.Aws.Protocol.Timestamps
import LocalStack.Lib.Lists

/-! Members that are bound to a header: the value that `BaseRestResponseSerializer`
writes, and the list that `RequestParser` reads from a header. -/

namespace LocalStack.Aws.Protocol.RestHeaders
open LocalStack.Text LocalStack.Aws.Datetime LocalStack.Aws.JsonText
open LocalStack.Aws.Protocol.Serializer LocalStack.Aws.Protocol.Parser

/-! ## Serializer -/

def asText : Value → Except Error Str
  | .str s => .ok s
  | _ => .error .typeError

/-- `",".join(values)`. -/
def joinValues (values : List Value) : Except Error Value := do
  return .str ([','].intercalate (← values.mapM asText))

/-- The default format of a header is RFC 822. -/
def headerTimestamp (t : Int) : Option TimestampFormat → Except Error Value
  | none => (Timestamps.formatdate (timestamp t)).map .str
  | some format => .ok (convert_timestamp_to_str t format)

/-- `json.dumps` without spaces, in base 64. -/
def jsonHeader (reprFloat : ℚ → Str) (value : Value) : Except Error Value := do
  get_base64 (.str (← dumps compact reprFloat value))

/-- `is_json_value_header` needs a location, which the member shape of a list has not.
Numbers and strings given for a timestamp are not modelled. -/
def serialize_header_value (reprFloat : ℚ → Str) :
    Shape → Bool → Value → Except Error Value
  | .scalar ser .timestamp, _, value =>
    match value with
    | .datetime t => headerTimestamp t ser.timestampFormat
    | _ => .error .valueError
  | .list _ member, _, value =>
    match value.iter with
    | none => .error .typeError
    | some items => do
      let converted_value ← (items.filter fun v => !v.isNone).mapM
        (serialize_header_value reprFloat member false)
      joinValues converted_value
  | .scalar _ .boolean, _, value =>
    .ok (.str (if value.truthy then "true".toList else "false".toList))
  | _, is_json_value_header, value =>
    if is_json_value_header then jsonHeader reprFloat value else .ok value

/-! ## Parser -/

/-- `s.strip()`. -/
def stripText (s : Str) : Str := (s.dropWhile whitespace).rdropWhile whitespace

/-- `_parse_shape` of a shape without a location; the handlers are those of
`RequestParser`, which has none for maps and structures. -/
def parse_shape (isoparse : IsoParse) : Shape → Value → Except Error Value
  | _, .none => .ok .none
  | .scalar ser t, node => wrapErrors (parseScalar isoparse .iso8601 ser node t)
  | .list _ member, node =>
    wrapErrors do
      match node.iter with
      | none => throw .typeError
      | some items => return .list (← items.mapM (parse_shape isoparse member))
  | _, node => .ok node

/-- The values of all lines of a header, as a list shape with the location `header`
gets them; `None` without a line. -/
def headerPayload (headers : List Str) : Value :=
  if headers = [] then .none
  else .list ((([','].intercalate headers).splitOn ',').map fun value => .str (stripText value))

/-- `_parse_shape` of a list shape with the location `header`. -/
def parse_header_list (isoparse : IsoParse) (shape : Shape) (headers : List Str) :
    Except Error Value :=
  parse_shape isoparse shape (headerPayload headers)

/-! ## Lists in a header -/

/-- A text that a list in a header can hold. -/
structure Plain (s : Str) : Prop where
  ne_nil : s ≠ []
  no_comma : ',' ∉ s
  leading : ∀ c ∈ s.head?, whitespace c = false
  trailing : ∀ c ∈ s.getLast?, whitespace c = false

inductive HeaderItem : ScalarType → Value → Prop
  | string {s : Str} (h : Plain s) : HeaderItem .string (.str s)
  | integer (i : Int) : HeaderItem .integer (.int i)
  | long (i : Int) : HeaderItem .long (.int i)
  | boolean (b : Bool) : HeaderItem .boolean (.bool b)

theorem Plain.stripText {s : Str} (h : Plain s) : stripText s = s := by
  have hleading : s.dropWhile whitespace = s := by
    rw [List.dropWhile_eq_self_iff]
    intro hpos
    rw [h.leading _ (List.head?_eq_getElem? ▸ List.getElem?_eq_getElem hpos)]
    exact Bool.false_ne_true
  rw [RestHeaders.stripText, hleading, List.rdropWhile_eq_self_iff]
  intro hne
  rw [h.trailing _ (List.getLast?_eq_some_getLast hne)]
  exact Bool.false_ne_true

theorem plain_boolean (b : Bool) : Plain (if b then "true".toList else "false".toList) := by
  cases b <;> exact ⟨by decide, by decide, by decide, by decide⟩

/-- The text of an item that is joined. -/
def itemText : Value → Str
  | .str s => s
  | .bool b => if b then "true".toList else "false".toList
  | _ => []

theorem joinValues_str (texts : List Str) :
    joinValues (texts.map .str) = .ok (.str ([','].intercalate texts)) := by
  have htexts : (texts.map Value.str).mapM asText =
      .ok ((texts.map Value.str).map itemText) := by
    refine Lists.mapM_eq_map fun value hvalue => ?_
    obtain ⟨s, -, rfl⟩ := List.mem_map.mp hvalue
    rfl
  have hmap : (texts.map Value.str).map itemText = texts := by
    rw [List.map_map]
    exact List.map_id texts
  rw [joinValues, htexts, hmap]
  rfl

/-- Plain texts are read from the line that they are joined to. -/
theorem headerPayload_intercalate {texts : List Str} (hne : texts ≠ [])
    (h : ∀ s ∈ texts, Plain s) :
    headerPayload [[','].intercalate texts] = .list (texts.map .str) := by
  have hsplit := List.splitOn_intercalate ',' (fun s hs => (h s hs).no_comma) hne
  rw [headerPayload, if_neg (List.cons_ne_nil _ _), List.intercalate_singleton, hsplit]
  exact congrArg Value.list (List.map_congr_left fun s hs => by rw [(h s hs).stripText])

section
variable (reprFloat : ℚ → Str) (isoparse : IsoParse)

theorem parse_shape_list (ser : Serialization) (member : Shape) (vs : List Value) :
    parse_shape isoparse (.list ser member) (.list vs) =
      wrapErrors do return .list (← vs.mapM (parse_shape isoparse member)) := rfl

/-- Strings and booleans are joined. -/
theorem serialize_header_list {t : ScalarType} (ht : t = .string ∨ t = .boolean)
    (ser memberSer : Serialization) {vs : List Value} (hvs : ∀ v ∈ vs, HeaderItem t v) :
    serialize_header_value reprFloat (.list ser (.scalar memberSer t)) false (.list vs) =
      .ok (.str ([','].intercalate (vs.map itemText))) := by
  have hfilter : (vs.filter fun v => !v.isNone) = vs := by
    refine List.filter_eq_self.mpr fun v hv => ?_
    cases hvs v hv <;> rfl
  have hitems : vs.mapM (serialize_header_value reprFloat (.scalar memberSer t) false) =
      .ok (vs.map fun v => .str (itemText v)) := by
    refine Lists.mapM_eq_map fun v hv => ?_
    cases hvs v hv with
    | string => rfl
    | boolean b => cases b <;> rfl
    | integer | long => rcases ht with h | h <;> cases h
  have hjoin := joinValues_str (vs.map itemText)
  rw [List.map_map] at hjoin
  simp only [serialize_header_value, Value.iter, hfilter, hitems]
  exact hjoin

/-- Integers are not. -/
theorem serialize_header_integers {t : ScalarType} (ht : t = .integer ∨ t = .long)
    (ser memberSer : Serialization) {vs : List Value} (hne : vs ≠ [])
    (hvs : ∀ v ∈ vs, HeaderItem t v) :
    serialize_header_value reprFloat (.list ser (.scalar memberSer t)) false (.list vs) =
      .error .typeError := by
  have hfilter : (vs.filter fun v => !v.isNone) = vs := by
    refine List.filter_eq_self.mpr fun v hv => ?_
    cases hvs v hv <;> rfl
  have hitems : vs.mapM (serialize_header_value reprFloat (.scalar memberSer t) false) =
      .ok (vs.map id) := by
    refine Lists.mapM_eq_map fun v hv => ?_
    rcases ht with rfl | rfl <;> rfl
  simp only [serialize_header_value, Value.iter, hfilter, hitems]
  obtain ⟨v, vs, rfl⟩ := List.exists_cons_of_ne_nil hne
  have hv := hvs v List.mem_cons_self
  rcases ht with rfl | rfl <;> cases hv <;> rfl

/-- An item is read from its text. -/
theorem parse_itemText {t : ScalarType} (memberSer : Serialization) {v : Value}
    (ht : t = .string ∨ t = .boolean) (hv : HeaderItem t v) :
    parse_shape isoparse (.scalar memberSer t) (.str (itemText v)) = .ok v := by
  cases hv with
  | string => rfl
  | boolean b => cases b <;> rfl
  | integer | long => rcases ht with h | h <;> cases h

theorem plain_itemText {t : ScalarType} {v : Value} (ht : t = .string ∨ t = .boolean)
    (hv : HeaderItem t v) : Plain (itemText v) := by
  cases hv with
  | string h => exact h
  | boolean b => exact plain_boolean b
  | integer | long => rcases ht with h | h <;> cases h

theorem parse_header_texts {t : ScalarType} (ht : t = .string ∨ t = .boolean)
    (ser memberSer : Serialization) {vs : List Value} (hne : vs ≠ [])
    (hvs : ∀ v ∈ vs, HeaderItem t v) :
    parse_header_list isoparse (.list ser (.scalar memberSer t))
      [[','].intercalate (vs.map itemText)] = .ok (.list vs) := by
  have htexts : vs.map itemText ≠ [] := by rwa [ne_eq, List.map_eq_nil_iff]
  have hpayload := headerPayload_intercalate htexts fun s hs => by
    obtain ⟨v, hv, rfl⟩ := List.mem_map.mp hs
    exact plain_itemText ht (hvs v hv)
  have hitems : (vs.map fun v => Value.str (itemText v)).mapM
      (parse_shape isoparse (.scalar memberSer t)) = .ok vs := by
    have hparse := Lists.mapM_eq_map fun v hv => parse_itemText isoparse memberSer ht (hvs v hv)
    rw [List.mapM_map]
    rwa [List.map_id'] at hparse
  rw [parse_header_list, hpayload, List.map_map]
  exact (parse_shape_list isoparse ser _ _).trans (by rw [Function.comp_def, hitems]; rfl)

/-- An empty list is sent as an empty line, which is read as one empty item. -/
theorem parse_header_empty {t : ScalarType} (ser memberSer : Serialization) :
    parse_header_list isoparse (.list ser (.scalar memberSer t)) [[]] ≠ .ok (.list []) := by
  intro h
  have hpayload : headerPayload [[]] = .list [.str []] := rfl
  rw [parse_header_list, hpayload, parse_shape_list, wrapErrors_eq_ok] at h
  simp only [List.mapM_cons, List.mapM_nil] at h
  cases hitem : parse_shape isoparse (.scalar memberSer t) (.str []) with
  | error e => simp [hitem, bind, Except.bind] at h
  | ok v => simp [hitem, bind, Except.bind, pure, Except.pure] at h

/-- A list that is bound to a header makes it through the header and back. -/
def RoundTrips (shape : Shape) (vs : List Value) : Prop :=
  ∃ line, serialize_header_value reprFloat shape false (.list vs) = .ok (.str line) ∧
    parse_header_list isoparse shape [line] = .ok (.list vs)

/-- Lists of strings and booleans round-trip unless they are empty; no list of
integers does. -/
theorem header_list_round_trips_iff {t : ScalarType}
    (ht : t = .string ∨ t = .integer ∨ t = .long ∨ t = .boolean) (ser memberSer : Serialization)
    {vs : List Value} (hvs : ∀ v ∈ vs, HeaderItem t v) :
    RoundTrips reprFloat isoparse (.list ser (.scalar memberSer t)) vs ↔
      vs ≠ [] ∧ (t = .string ∨ t = .boolean) := by
  constructor
  · rintro ⟨line, hline, hparse⟩
    have hne : vs ≠ [] := by
      rintro rfl
      cases hline
      exact parse_header_empty isoparse ser memberSer hparse
    refine ⟨hne, ?_⟩
    by_contra htext
    have hint : t = .integer ∨ t = .long := by tauto
    rw [serialize_header_integers reprFloat hint ser memberSer hne hvs] at hline
    cases hline
  · rintro ⟨hne, htext⟩
    exact ⟨_, serialize_header_list reprFloat htext ser memberSer hvs,
      parse_header_texts isoparse htext ser memberSer hne hvs⟩

/-- The list `[1]` is not written. -/
theorem integer_header_not_written :
    ¬ RoundTrips (fun _ => []) (fun _ => .error .valueError)
      (.list {} (.scalar {} .integer)) [.int 1] := by
  rintro ⟨line, hline, -⟩
  cases hline

/-- Two object attributes make it. -/
theorem string_header_round_trips :
    RoundTrips (fun _ => []) (fun _ => .error .valueError) (.list {} (.scalar {} .string))
      [.str "ETag".toList, .str "a b".toList] := by
  refine (header_list_round_trips_iff _ _ (Or.inl rfl) {} {} fun v hv => ?_).mpr
    ⟨List.cons_ne_nil _ _, Or.inl rfl⟩
  rcases List.mem_pair.mp hv with rfl | rfl <;>
    exact .string ⟨by decide, by decide, by decide, by decide⟩

end

end LocalStack.Aws.Protocol.RestHeaders
