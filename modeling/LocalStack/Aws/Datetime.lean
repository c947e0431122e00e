import LocalStack.Aws.Value
import LocalStack.Lib.BinaryFloat

/-! Conversions between aware UTC datetimes, which are microseconds since the
epoch here, and numbers of seconds. Floats are exact rationals. -/

namespace LocalStack.Aws.Datetime
open LocalStack.BinaryFloat (roundHalfEven roundHalfEven_intCast)

/-- `value.timestamp()`. -/
def timestamp (t : Int) : ℚ := t / 1000000

/-- `int(x)` truncates towards zero. -/
def truncate (q : ℚ) : Int := if 0 ≤ q then q.floor else q.ceil

/-- The years 1 to 9999. -/
def InRange (t : Int) : Prop := -62135596800000000 ≤ t ∧ t < 253402300800000000

instance (t : Int) : Decidable (InRange t) := inferInstanceAs (Decidable (_ ∧ _))

/-- `datetime.fromtimestamp(seconds, tz=UTC)`. What a `time_t` cannot hold is an
OverflowError, a year that an `int` cannot hold is an OSError of `gmtime`. -/
def fromtimestamp (seconds : ℚ) : Except Error Int :=
  let t := roundHalfEven (seconds * 1000000)
  if InRange t then .ok t
  else if t / 1000000 < -2 ^ 63 ∨ 2 ^ 63 ≤ t / 1000000 then .error .overflowError
  else if t / 1000000 < -67768040609740800 ∨ 67768036191676799 < t / 1000000 then .error .osError
  else .error .valueError

@[simp] theorem truncate_intCast (n : Int) : truncate n = n := by
  simp [truncate, Rat.floor_intCast, Rat.ceil_intCast]

theorem fromtimestamp_timestamp {t : Int} (h : InRange t) :
    fromtimestamp (timestamp t) = .ok t := by
  have ht : timestamp t * 1000000 = t := by simp [timestamp]
  simp [fromtimestamp, ht, h]

theorem truncate_timestamp (t : Int) :
    truncate (timestamp t) = if 0 ≤ t then t / 1000000 else -(-t / 1000000) := by
  have hfloor : (timestamp t).floor = t / 1000000 := Rat.floor_intCast_div_natCast t 1000000
  have hceil : (timestamp t).ceil = -(-t / 1000000) := by
    rw [Rat.ceil_eq_neg_floor_neg, timestamp, ← neg_div, ← Int.cast_neg]
    exact congrArg Neg.neg (Rat.floor_intCast_div_natCast (-t) 1000000)
  have hsign : 0 ≤ timestamp t ↔ 0 ≤ t := by
    rw [timestamp, div_nonneg_iff]
    simp
  simp only [truncate, hfloor, hceil, hsign]

/-- A timestamp that is cut to whole seconds is the same only where it had no
microseconds. -/
theorem fromtimestamp_truncate {t : Int} (h : InRange t) :
    ∃ t', fromtimestamp (truncate (timestamp t)) = .ok t' ∧ (t' = t ↔ t % 1000000 = 0) := by
  obtain ⟨n, hn⟩ : ∃ n, n = truncate (timestamp t) := ⟨_, rfl⟩
  have hcut := hn.trans (truncate_timestamp t)
  have hrange : InRange (n * 1000000) := by
    obtain ⟨hlo, hhi⟩ := h
    split at hcut <;> constructor <;> omega
  have htime : (n : ℚ) = timestamp (n * 1000000) := by simp [timestamp]
  refine ⟨n * 1000000, ?_, by split at hcut <;> omega⟩
  rw [← hn, htime, fromtimestamp_timestamp hrange]

end LocalStack.Aws.Datetime
