import LocalStack.Aws.Value

/-! Botocore shapes, as far as the body serializers and parsers look at them. A
shape carries its own `serialization` record, which for a member already holds
the traits of the reference to it. Bindings to other parts of a request than its
body (`location`) are not part of these shapes. -/

namespace LocalStack.Aws
open LocalStack.Text LocalStack.OrderedDict

inductive TimestampFormat
  | iso8601
  | unixtimestamp
  deriving DecidableEq, Repr

/-- The entries of `shape.serialization`; `name` is the `locationName`. -/
structure Serialization where
  name : Option Str := none
  flattened : Bool := false
  timestampFormat : Option TimestampFormat := none
  resultWrapper : Option Str := none
  xmlAttribute : Bool := false
  /-- prefix and URI -/
  xmlNamespace : Option (Option Str × Str) := none
  deriving DecidableEq, Repr

inductive ScalarType
  | string
  | integer
  | long
  | float
  | double
  | boolean
  | blob
  | timestamp
  deriving DecidableEq, Repr

/-- The traits of a structure shape. -/
structure StructureTraits where
  required_members : List Str := []
  is_document_type : Bool := false
  is_tagged_union : Bool := false
  deriving DecidableEq, Repr

/-- The key shape of a map is always a string shape. -/
inductive Shape
  | scalar (ser : Serialization) (type : ScalarType)
  | list (ser : Serialization) (member : Shape)
  | map (ser : Serialization) (key : Serialization) (value : Shape)
  | struct (ser : Serialization) (traits : StructureTraits) (members : List (Str × Shape))
  deriving Repr

namespace Shape

def serialization : Shape → Serialization
  | .scalar ser _ | .list ser _ | .map ser _ _ | .struct ser _ _ => ser

/-- `shape.serialization.get("name", default)`, which the serializers and the
parsers each wrap in a `_get_serialized_name`. -/
def getSerializedName (shape : Shape) (default : Str) : Str :=
  shape.serialization.name.getD default

theorem induct {P : Shape → Prop} (scalar : ∀ ser t, P (.scalar ser t))
    (list : ∀ ser m, P m → P (.list ser m)) (map : ∀ ser key v, P v → P (.map ser key v))
    (struct : ∀ ser traits ms, (∀ p ∈ ms, P p.2) → P (.struct ser traits ms))
    (s : Shape) : P s :=
  @Shape.rec P (fun ms => ∀ p ∈ ms, P p.2) (fun p => P p.2)
    scalar list map struct (by simp) (fun _ _ hp hms => List.forall_mem_cons.mpr ⟨hp, hms⟩)
    (fun _ _ h => h) s

/-- Every shape of the tree satisfies `P`. -/
inductive All (P : Shape → Prop) : Shape → Prop
  | scalar {ser t} : P (.scalar ser t) → All P (.scalar ser t)
  | list {ser m} : P (.list ser m) → All P m → All P (.list ser m)
  | map {ser key v} : P (.map ser key v) → All P v → All P (.map ser key v)
  | struct {ser traits ms} : P (.struct ser traits ms) → (∀ p ∈ ms, All P p.2) →
      All P (.struct ser traits ms)

theorem All.self {P : Shape → Prop} {s : Shape} (h : All P s) : P s := by
  cases h <;> assumption

theorem All.imp {P Q : Shape → Prop} (hpq : ∀ s, P s → Q s) {s : Shape} (h : All P s) :
    All Q s := by
  induction h with
  | scalar h => exact .scalar (hpq _ h)
  | list h _ ih => exact .list (hpq _ h) ih
  | map h _ ih => exact .map (hpq _ h) ih
  | struct h _ ih => exact .struct (hpq _ h) ih

theorem All.list_member {P : Shape → Prop} {ser m} (h : All P (.list ser m)) : All P m := by
  cases h; assumption

theorem All.map_value {P : Shape → Prop} {ser key v} (h : All P (.map ser key v)) : All P v := by
  cases h; assumption

theorem All.struct_member {P : Shape → Prop} {ser traits ms}
    (h : All P (.struct ser traits ms)) : ∀ p ∈ ms, All P p.2 := by
  cases h; assumption

end Shape

/-- What a protocol asks of the values it is given. -/
structure ValueRules where
  /-- values of a scalar shape -/
  scalar : Serialization → ScalarType → Value → Prop
  /-- dictionary keys -/
  key : Str → Prop := fun _ => True
  /-- list elements and map values -/
  element : Shape → Value → Prop := fun _ _ => True
  /-- the number of entries of a list or dictionary -/
  size : Nat → Prop := fun _ => True
  /-- a structure member may be `None` -/
  noneMembers : Prop := False
  /-- all required members are set -/
  setsRequired : Prop := True

/-- `Typed R s v`: the value `v` is of shape `s`. -/
inductive Typed (R : ValueRules) : Shape → Value → Prop
  | scalar {ser t v} : R.scalar ser t v → Typed R (.scalar ser t) v
  | list {ser m} {vs : List Value} : R.size vs.length → (∀ v ∈ vs, R.element m v) →
      (∀ v ∈ vs, Typed R m v) → Typed R (.list ser m) (.list vs)
  | map {ser key s} {d : Dict Str Value} : R.size d.length → d.WF →
      (∀ p ∈ d, R.key p.1) → (∀ p ∈ d, R.element s p.2) → (∀ p ∈ d, Typed R s p.2) →
      Typed R (.map ser key s) (.dict d)
  | struct {ser traits} {ms : Dict Str Shape} {d : Dict Str Value} : R.size d.length →
      d.WF → (∀ p ∈ d, R.key p.1) → (∀ k ∈ d.keys, k ∈ ms.keys) →
      (R.setsRequired → ∀ k ∈ traits.required_members, k ∈ ms.keys → k ∈ d.keys) →
      (∀ k, d.get k = some .none → R.noneMembers) →
      (∀ k s v, ms.get k = some s → d.get k = some v → v ≠ .none → Typed R s v) →
      Typed R (.struct ser traits ms) (.dict d)

theorem Typed.isNone_eq_false {R : ValueRules} (hR : ∀ ser t, ¬ R.scalar ser t .none) {s : Shape}
    {v : Value} (h : Typed R s v) : v.isNone = false := by
  cases h with
  | @scalar ser t v hv =>
    rw [← Bool.not_eq_true, Value.isNone_iff]
    rintro rfl
    exact hR ser t hv
  | _ => rfl

/-- A structure value is typed when its entries are. -/
theorem Typed.struct_of_entries {R : ValueRules} {ser : Serialization} {traits : StructureTraits}
    {ms : Dict Str Shape} {d : Dict Str Value} (hsize : R.size d.length) (hwf : d.WF)
    (hrequired : R.setsRequired → ∀ k ∈ traits.required_members, k ∈ ms.keys → k ∈ d.keys)
    (h : ∀ p ∈ d, R.key p.1 ∧ (p.2 = .none → R.noneMembers) ∧
      ∃ s, ms.get p.1 = some s ∧ (p.2 ≠ .none → Typed R s p.2)) :
    Typed R (.struct ser traits ms) (.dict d) := by
  refine .struct hsize hwf (fun p hp => (h p hp).1) (fun k hk => ?_) hrequired (fun k hk => ?_)
    fun k s v hs hv hn => ?_
  · obtain ⟨v, hv⟩ := Dict.exists_get hk
    obtain ⟨-, -, s, hs, -⟩ := h _ (Dict.mem_of_get hv)
    exact Dict.mem_keys_of_mem (Dict.mem_of_get hs)
  · exact (h _ (Dict.mem_of_get hk)).2.1 rfl
  · obtain ⟨-, -, s', hs', ht⟩ := h _ (Dict.mem_of_get hv)
    rw [hs] at hs'
    cases hs'
    exact ht hn

end LocalStack.Aws
