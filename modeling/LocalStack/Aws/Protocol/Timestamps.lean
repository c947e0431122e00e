import LocalStack.Aws.Protocol.Serializer
import LocalStack.Lib.DateText

/-! How the serializers render a datetime that has an offset of its own or none.
botocore's `parse_to_aware_datetime` is a parameter, and floats are exact
rationals. -/

namespace LocalStack.Aws.Protocol.Timestamps
open LocalStack.Text LocalStack.Calendar LocalStack.DateText LocalStack.Aws.Datetime

/-- A wall clock in microseconds since 1970-01-01T00:00:00, with its UTC offset in
microseconds unless it is naive. -/
structure DateTime where
  wall : Int
  utcoffset : Option Int
  range : InRange wall

structure AwareDateTime where
  wall : Int
  utcoffset : Int
  range : InRange wall

/-- In microseconds since the epoch. -/
def AwareDateTime.instant (value : AwareDateTime) : Int := value.wall - value.utcoffset

inductive Format
  | iso8601
  | unixtimestamp
  | rfc822
  deriving DecidableEq, Repr

/-- `S3ResponseSerializer` overrides `_timestamp_iso8601`. -/
inductive SerializerClass
  | base
  | s3
  deriving DecidableEq, Repr

/-- `strftime` prints the wall clock, and `Z` is a literal of the format. -/
def timestamp_iso8601 : SerializerClass → AwareDateTime → Str
  | .base, value => Calendar.iso8601 value.wall
  | .s3, value => formatSeconds value.wall ++ ".000Z".toList

def timestamp_unixtimestamp (value : AwareDateTime) : ℚ := timestamp value.instant

/-- `email.utils.formatdate(timeval, usegmt=True)`. -/
def formatdate (timeval : ℚ) : Except Error Str := (fromtimestamp timeval).map formatRfc822

def timestamp_rfc822 (value : AwareDateTime) : Except Error Str :=
  formatdate (timestamp_unixtimestamp value)

/-- `getattr(self, f"_timestamp_{timestamp_format}")`. -/
def converter (serializer : SerializerClass) (format : Format) (value : AwareDateTime) :
    Except Error Value :=
  match format with
  | .iso8601 => .ok (.str (timestamp_iso8601 serializer value))
  | .unixtimestamp => .ok (.float (timestamp_unixtimestamp value))
  | .rfc822 => (timestamp_rfc822 value).map .str

/-- The offset of the process' local zone at a wall clock. -/
abbrev LocalZone := Int → Int

section
variable (parse_to_aware_datetime : LocalZone → DateTime → Except Error AwareDateTime)

def convert_timestamp_to_str (zone : LocalZone) (serializer : SerializerClass) (value : DateTime)
    (timestamp_format : Option Format) : Except Error Value := do
  let datetime_obj ← parse_to_aware_datetime zone value
  converter serializer (timestamp_format.getD .iso8601) datetime_obj

/-- "The returned value will be a datetime object that will have tzinfo. If no
timezone info was provided in the input value, then UTC is assumed, not local
time." An aware value is converted to UTC by `astimezone`. -/
structure Documented : Prop where
  naive : ∀ (zone : LocalZone) (value : DateTime), value.utcoffset = none →
    parse_to_aware_datetime zone value = .ok ⟨value.wall, 0, value.range⟩
  aware : ∀ (zone : LocalZone) (value : DateTime) (offset : Int) (h : InRange (value.wall - offset)),
    value.utcoffset = some offset →
      parse_to_aware_datetime zone value = .ok ⟨value.wall - offset, 0, h⟩
  overflow : ∀ (zone : LocalZone) (value : DateTime) (offset : Int),
    value.utcoffset = some offset → ¬ InRange (value.wall - offset) →
      parse_to_aware_datetime zone value = .error .overflowError

/-- The instant that a value stands for. -/
def DateTime.instant (value : DateTime) : Int := value.wall - value.utcoffset.getD 0

/-- What a rendering says by the rules of its format, in microseconds. -/
def meaning : Format → Value → Option ℚ
  | .iso8601, .str s => (readWhole readIso s).map fun t : Int => (t : ℚ)
  | .rfc822, .str s => (readWhole readRfc822 s).map fun t : Int => (t : ℚ)
  | .unixtimestamp, .float seconds => some (seconds * 1000000)
  | _, _ => none

/-- In microseconds. -/
def resolution : SerializerClass → Format → Int
  | .base, .iso8601 | _, .unixtimestamp => 1
  | .s3, .iso8601 | _, .rfc822 => 1000000

def truncateTo (unit t : Int) : Int := t / unit * unit

/-- The rendering denotes the instant, up to the resolution of its format. -/
def Denotes (zone : LocalZone) (value : DateTime) (serializer : SerializerClass)
    (format : Format) : Prop :=
  ∃ v, convert_timestamp_to_str parse_to_aware_datetime zone serializer value (some format) =
      .ok v ∧
    meaning format v = some (truncateTo (resolution serializer format) value.instant : ℚ)

variable {parse_to_aware_datetime}

theorem Documented.of_inRange (h : Documented parse_to_aware_datetime) (zone : LocalZone)
    {value : DateTime} (hrange : InRange value.instant) :
    ∃ aware, parse_to_aware_datetime zone value = .ok aware ∧ aware.utcoffset = 0 ∧
      aware.instant = value.instant := by
  cases ho : value.utcoffset with
  | none => exact ⟨_, h.naive zone value ho, rfl, by rw [DateTime.instant, ho]; rfl⟩
  | some offset =>
    have hinstant : value.instant = value.wall - offset := by rw [DateTime.instant, ho]; rfl
    rw [hinstant] at hrange
    exact ⟨_, h.aware zone value offset hrange ho, rfl, by rw [hinstant]; exact Int.sub_zero _⟩

/-- Only an aware value can leave the years that a datetime has. -/
theorem Documented.of_not_inRange (h : Documented parse_to_aware_datetime) (zone : LocalZone)
    {value : DateTime} (hrange : ¬ InRange value.instant) :
    parse_to_aware_datetime zone value = .error .overflowError := by
  cases ho : value.utcoffset with
  | none =>
    rw [DateTime.instant, ho, Option.getD_none, Int.sub_zero] at hrange
    exact absurd value.range hrange
  | some offset =>
    rw [DateTime.instant, ho, Option.getD_some] at hrange
    exact h.overflow zone value offset ho hrange

end

/-! ## Readings -/

theorem readIso_timestamp_iso8601 (serializer : SerializerClass) (value : AwareDateTime) :
    readWhole readIso (timestamp_iso8601 serializer value) =
      some (truncateTo (resolution serializer .iso8601) value.wall) := by
  cases serializer with
  | base =>
    rw [timestamp_iso8601, readIso_iso8601 value.range.1, resolution, truncateTo, Int.ediv_one,
      Int.mul_one]
  | s3 => exact readIso_zero_fraction value.range.1

theorem formatdate_timestamp {t : Int} (h : InRange t) :
    formatdate (timestamp t) = .ok (formatRfc822 t) := by
  rw [formatdate, fromtimestamp_timestamp h]
  rfl

theorem readRfc822_timestamp_rfc822 {value : AwareDateTime} (h : InRange value.instant) :
    ∃ s, timestamp_rfc822 value = .ok s ∧
      readWhole readRfc822 s = some (truncateTo 1000000 value.instant) :=
  ⟨_, formatdate_timestamp h, readRfc822_formatRfc822 h.1 h.2⟩

/-- A rendering of a value in UTC says its instant, whatever the format. -/
theorem meaning_of_utc {value : AwareDateTime} (hutc : value.utcoffset = 0)
    (serializer : SerializerClass) (format : Format) :
    ∃ v, converter serializer format value = .ok v ∧
      meaning format v =
        some (truncateTo (resolution serializer format) value.instant : ℚ) := by
  have hwall : value.instant = value.wall := by rw [AwareDateTime.instant, hutc, Int.sub_zero]
  cases format with
  | iso8601 =>
    refine ⟨_, rfl, ?_⟩
    rw [meaning, readIso_timestamp_iso8601, hwall]
    rfl
  | unixtimestamp =>
    have hunit : resolution serializer .unixtimestamp = 1 := by cases serializer <;> rfl
    refine ⟨_, rfl, ?_⟩
    rw [meaning, timestamp_unixtimestamp, hunit, truncateTo, Int.ediv_one, Int.mul_one, timestamp,
      div_mul_cancel₀ _ (by norm_num)]
  | rfc822 =>
    have hunit : resolution serializer .rfc822 = 1000000 := by cases serializer <;> rfl
    have hrange : InRange value.instant := hwall ▸ value.range
    obtain ⟨s, hs, hread⟩ := readRfc822_timestamp_rfc822 hrange
    refine ⟨.str s, ?_, ?_⟩
    · rw [converter, hs]
      rfl
    · rw [meaning, hread, hunit]
      rfl

section
variable {parse_to_aware_datetime : LocalZone → DateTime → Except Error AwareDateTime}

/-- In every local zone the renderings of a value all denote its instant, and a value
whose instant no datetime has is rendered in no format. -/
theorem renderings_denote_instant (h : Documented parse_to_aware_datetime) (zone : LocalZone)
    (value : DateTime) :
    (InRange value.instant → ∀ serializer format,
      Denotes parse_to_aware_datetime zone value serializer format) ∧
    (¬ InRange value.instant → ∀ serializer timestamp_format,
      convert_timestamp_to_str parse_to_aware_datetime zone serializer value timestamp_format =
        .error .overflowError) := by
  constructor
  · intro hrange serializer format
    obtain ⟨aware, hparse, hutc, hinstant⟩ := h.of_inRange zone hrange
    obtain ⟨v, hv, hmeaning⟩ := meaning_of_utc hutc serializer format
    refine ⟨v, ?_, by rw [hmeaning, hinstant]⟩
    rw [convert_timestamp_to_str, hparse]
    exact hv
  · intro hrange serializer timestamp_format
    rw [convert_timestamp_to_str, h.of_not_inRange zone hrange]
    rfl

end

/-! ## A zone two hours east -/

/-- `value.replace(tzinfo=tzutc())` and `value.astimezone(tzutc())`. -/
def parseToAware (_ : LocalZone) (value : DateTime) : Except Error AwareDateTime :=
  match value.utcoffset with
  | none => .ok ⟨value.wall, 0, value.range⟩
  | some offset =>
    if h : InRange (value.wall - offset) then .ok ⟨value.wall - offset, 0, h⟩
    else .error .overflowError

theorem parseToAware_documented : Documented parseToAware where
  naive _ value ho := by simp only [parseToAware, ho]
  aware _ value offset h ho := by simp only [parseToAware, ho, h, dite_true]
  overflow _ value offset ho h := by simp only [parseToAware, ho, h, dite_false]

def twoHoursEast : LocalZone := fun _ => 7200000000

/-- 2023-11-14T22:13:20, naive. -/
def naiveValue : DateTime := ⟨1700000000000000, none, by decide⟩

/-- 2023-11-14T22:13:20.5+05:30. -/
def awareValue : DateTime := ⟨1700000000500000, some 19800000000, by decide⟩

/-- The first half hour of the year 1, in a zone an hour east. -/
def beforeTheFirstYear : DateTime := ⟨-62135595000000000, some 3600000000, by decide⟩

theorem renderings_two_hours_east :
    (∀ serializer format, Denotes parseToAware twoHoursEast naiveValue serializer format) ∧
    (∀ serializer format, Denotes parseToAware twoHoursEast awareValue serializer format) ∧
    (∀ serializer timestamp_format, convert_timestamp_to_str parseToAware twoHoursEast serializer
      beforeTheFirstYear timestamp_format = .error .overflowError) :=
  ⟨(renderings_denote_instant parseToAware_documented twoHoursEast naiveValue).1 (by decide),
    (renderings_denote_instant parseToAware_documented twoHoursEast awareValue).1 (by decide),
    (renderings_denote_instant parseToAware_documented twoHoursEast beforeTheFirstYear).2
      (by decide)⟩

end LocalStack.Aws.Protocol.Timestamps
