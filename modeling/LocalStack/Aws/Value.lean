import LocalStack.Lib.BinaryFloat
import LocalStack.Lib.OrderedDict
import LocalStack.Lib.Text
import Mathlib.Data.List.Forall2
import Mathlib.Data.Rat.Defs

/-! The Python values that service operations take and return and that the
decoders of request bodies produce, and the errors that serializers and parsers
raise. -/

namespace LocalStack.Aws
open LocalStack.Text LocalStack.OrderedDict

/-- A float is a rational number or `special`; `-0.0` is the number zero. `datetime` is an
aware UTC datetime in microseconds since the epoch. -/
inductive Value
  | none
  | bool (b : Bool)
  | int (i : Int)
  | float (q : ℚ)
  | special (x : BinaryFloat.Special)
  | str (s : Str)
  | bytes (bs : List UInt8)
  | datetime (t : Int)
  | list (vs : List Value)
  | dict (d : List (Str × Value))
  deriving Inhabited, Repr

inductive Error
  | typeError
  | valueError
  | attributeError
  | keyError
  | indexError
  | overflowError
  | osError
  | protocolParserError
  | protocolSerializerError
  | unknownSerializerError
  | recursionError
  deriving DecidableEq, Repr

namespace Value

/-- Induction with the elements of lists and the values of dictionaries. -/
theorem induct {P : Value → Prop} (none : P .none) (bool : ∀ b, P (.bool b))
    (int : ∀ i, P (.int i)) (float : ∀ q, P (.float q)) (special : ∀ x, P (.special x))
    (str : ∀ s, P (.str s)) (bytes : ∀ bs, P (.bytes bs)) (datetime : ∀ t, P (.datetime t))
    (list : ∀ vs, (∀ v ∈ vs, P v) → P (.list vs))
    (dict : ∀ d, (∀ p ∈ d, P p.2) → P (.dict d)) (v : Value) : P v :=
  @Value.rec P (fun vs => ∀ v ∈ vs, P v) (fun d => ∀ p ∈ d, P p.2) (fun p => P p.2)
    none bool int float special str bytes datetime list dict
    (by simp) (fun _ _ hv hvs => List.forall_mem_cons.mpr ⟨hv, hvs⟩)
    (by simp) (fun _ _ hp hd => List.forall_mem_cons.mpr ⟨hp, hd⟩) (fun _ _ h => h) v

def ofNumber : BinaryFloat.Number → Value
  | .finite q => .float q
  | .special x => .special x

/-- `value is None`. -/
def isNone : Value → Bool
  | .none => true
  | _ => false

@[simp] theorem isNone_none : isNone .none = true := rfl

theorem isNone_iff {v : Value} : v.isNone = true ↔ v = .none := by
  cases v <;> simp [isNone]

/-- `bool(value)`. -/
def truthy : Value → Bool
  | .none => false
  | .bool b => b
  | .int i => i ≠ 0
  | .float q => q ≠ 0
  | .special _ => true
  | .str s => s ≠ []
  | .bytes bs => bs ≠ []
  | .datetime _ => true
  | .list vs => !vs.isEmpty
  | .dict d => !d.isEmpty

/-- A bool is an int in Python. -/
def asInt : Value → Option Int
  | .int i => some i
  | .bool b => some b.toNat
  | _ => Option.none

/-- `for item in value`; `none` is a TypeError. -/
def iter : Value → Option (List Value)
  | .list vs => some vs
  | .dict d => some ((Dict.keys d).map .str)
  | .str s => some (s.map fun c => .str [c])
  | .bytes bs => some (bs.map fun b => .int b.toNat)
  | _ => Option.none

/-- Python's `==` on values without floats: the order of a dictionary's keys
does not matter. -/
inductive Same : Value → Value → Prop
  | refl (v : Value) : Same v v
  | list {vs ws : List Value} (h : List.Forall₂ Same vs ws) : Same (.list vs) (.list ws)
  | dict {d e : Dict Str Value} (hkeys : ∀ k, k ∈ d.keys ↔ k ∈ e.keys)
      (h : ∀ k v w, d.get k = some v → e.get k = some w → Same v w) : Same (.dict d) (.dict e)

/-- Same dictionaries have the same keys. -/
theorem Same.mem_keys {d e : Dict Str Value} (h : Same (.dict d) (.dict e)) (k : Str) :
    k ∈ d.keys ↔ k ∈ e.keys := by
  cases h with
  | refl => rfl
  | dict hkeys _ => exact hkeys k

theorem Same.get {d e : Dict Str Value} (h : Same (.dict d) (.dict e)) {k : Str} {v w : Value}
    (hv : d.get k = some v) (hw : e.get k = some w) : Same v w := by
  cases h with
  | refl => rw [hv] at hw; cases hw; exact .refl v
  | dict _ h => exact h k v w hv hw

/-- Dictionaries are the same when their lookups are. -/
theorem Same.dict_of_get {d e : Dict Str Value}
    (h : ∀ k, Option.Rel Same (d.get k) (e.get k)) : Same (.dict d) (.dict e) := by
  refine .dict (fun k => ?_) fun k v w hv hw => ?_
  · have hk := h k
    rw [← not_iff_not, ← Dict.get_eq_none_iff, ← Dict.get_eq_none_iff]
    generalize d.get k = a at hk ⊢
    generalize e.get k = b at hk ⊢
    cases hk <;> simp
  · have hk := h k
    rw [hv, hw] at hk
    cases hk
    assumption

theorem Same.forall₂ {vs ws : List Value} (h : Same (.list vs) (.list ws)) :
    List.Forall₂ Same vs ws := by
  cases h with
  | refl => exact List.forall₂_same.mpr fun v _ => .refl v
  | list h => exact h

end Value

end LocalStack.Aws
