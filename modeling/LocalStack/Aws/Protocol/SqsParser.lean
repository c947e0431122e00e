import LocalStack.Aws.Protocol.QueryRoundTrip

/-! `SQSQueryRequestParser`: the query parser, for which a map or a list may also
stand under the name of its member. The first entry in the node where the member
is looked up decides which name is used. -/

namespace LocalStack.Aws.Protocol.SqsParser
open LocalStack.Text LocalStack.Decimal LocalStack.OrderedDict
open LocalStack.Aws.Protocol.Parser LocalStack.Aws.Protocol.Query

/-! ## Parser -/

section

variable {ι : Type} (view : ι → ShapeNode ι) (isoparse : IsoParse)

/-- What follows the name of a member in the keys of its first entry. -/
def suffixes : ShapeNode ι → List Str
  | .map ser _ _ =>
    if ser.flattened then [".1.Key".toList, ".1.Name".toList]
    else [".entry.1.Key".toList, ".entry.1.Name".toList]
  | .list ser _ => if ser.flattened then [".1".toList] else [".member.1".toList]
  | _ => []

/-- `_get_serialized_name`: the default name where only that is in the node. -/
def get_serialized_name (shape : ShapeNode ι) (default_name : Str) (node : Params) : Str :=
  let primary_name := Query.get_serialized_name shape.serialization default_name
  if (∀ suffix ∈ suffixes shape, primary_name ++ suffix ∉ node.keys) ∧
      ∃ suffix ∈ suffixes shape, default_name ++ suffix ∈ node.keys
  then default_name else primary_name

/-- The key of a member of a structure. That of a flattened list is defined by
the member of the list. -/
def structure_key (member : Str) (member_shape : ι) (node : Params) : Str :=
  match view member_shape with
  | .list ser m =>
    get_serialized_name (if ser.flattened then view m else view member_shape) member node
  | n => get_serialized_name n member node

def parseMembers (parse : ι → Params → Except Error Value) (required_members : List Str) :
    List (Str × ι) → Params → Except Error (List (Str × Value))
  | [], _ => .ok []
  | (member, member_shape) :: members, node => do
    let value ← process_member view isoparse parse (structure_key view member member_shape node)
      member_shape node
    let result ← parseMembers parse required_members members node
    if value.isNone = false ∨ member ∈ required_members then return (member, value) :: result
    return result

def get_list_key_prefix (ser : Serialization) (member : ι) (node : Params) : Str :=
  if ser.flattened then []
  else get_serialized_name (view member) "member".toList node ++ ['.']

def parse_list (parse : ι → Params → Except Error Value) (ser : Serialization) (member : ι)
    (node : Params) : Except Error Value := do
  let key_prefix := get_list_key_prefix view ser member node
  let result ← collect (fun i => do
    let key := key_prefix ++ natToStr i
    return present (← process_member view isoparse parse key member node))
    (size node + 1) 1
  return if result = [] then .none else .list result

def parse_map (parse : ι → Params → Except Error Value) (ser key : Serialization) (value : ι)
    (node : Params) : Except Error Value := do
  let key_name := get_serialized_name (.scalar key .string : ShapeNode ι) "key".toList node
  let value_name := get_serialized_name (view value) "value".toList node
  let result ← collect (fun i => do
    let k := node.get (map_key ser i key_name)
    let v ← process_member view isoparse parse (map_key ser i value_name) value node
    return match k, present v with
      | some k, some v => some (k, v)
      | _, _ => none)
    (size node + 1) 1
  return if result = [] then .none else .dict (Dict.ofPairs result)

/-- `_parse_shape` of a node of parameters. -/
def parseNode (parse : ι → Params → Except Error Value) (shape : ι) (node : Params) :
    Except Error Value :=
  wrapErrors <|
    match view shape with
    | .scalar ser t =>
      parseScalar isoparse .iso8601 ser (.dict (node.map fun p => (p.1, .str p.2))) t
    | .list ser member => parse_list view isoparse parse ser member node
    | .map ser key value => parse_map view isoparse parse ser key value node
    | .struct _ traits members =>
      (parseMembers view isoparse parse traits.required_members members node).map fun result =>
        if result = [] then .none else .dict result

/-- `_parse_shape` nested to a depth of at most `fuel`. -/
def parseFuel : Nat → ι → Params → Except Error Value
  | 0, _, _ => .error .recursionError
  | fuel + 1, shape, node => parseNode view isoparse (parseFuel fuel) shape node

/-- `_parse_shape`, with the bound of the query parser. -/
def parse_shape (shape : ι) (node : Params) : Except Error Value :=
  parseFuel view isoparse (size node + 1) shape node

/-- `parse`, with the input shape of the operation. -/
def parse (shape : ι) (params : Params) : Except Error Value :=
  (parse_shape view isoparse shape params).map fun parsed =>
    if parsed.isNone then .dict [] else parsed

end

/-! ## Names in a node -/

section

variable {ι : Type} {shape : ShapeNode ι} {default_name : Str} {node : Params}

theorem get_serialized_name_primary
    (h : ∀ suffix ∈ suffixes shape, default_name ++ suffix ∈ node.keys →
      Query.get_serialized_name shape.serialization default_name = default_name) :
    get_serialized_name shape default_name node =
      Query.get_serialized_name shape.serialization default_name := by
  rw [get_serialized_name]
  split
  · next hif =>
    obtain ⟨-, suffix, hsuffix, hmem⟩ := hif
    exact (h suffix hsuffix hmem).symm
  · rfl

/-- Scalars and structures have their serialized name only. -/
theorem get_serialized_name_plain {shape : ShapeNode ι} (h : suffixes shape = [])
    (default_name : Str) (node : Params) : get_serialized_name shape default_name node =
      Query.get_serialized_name shape.serialization default_name :=
  get_serialized_name_primary (by simp [h])

theorem get_serialized_name_default
    (hprimary : ∀ suffix ∈ suffixes shape,
      Query.get_serialized_name shape.serialization default_name ++ suffix ∉ node.keys)
    {suffix : Str} (hsuffix : suffix ∈ suffixes shape)
    (hdefault : default_name ++ suffix ∈ node.keys) :
    get_serialized_name shape default_name node = default_name := by
  rw [get_serialized_name]
  exact if_pos ⟨hprimary, suffix, hsuffix, hdefault⟩

/-- It is always one of the two names. -/
theorem get_serialized_name_cases (shape : ShapeNode ι) (default_name : Str) (node : Params) :
    get_serialized_name shape default_name node = default_name ∨
      get_serialized_name shape default_name node =
        Query.get_serialized_name shape.serialization default_name := by
  rw [get_serialized_name]
  split
  · exact Or.inl rfl
  · exact Or.inr rfl

/-- Behind the name there is a dot and a key. -/
theorem suffix_eq {suffix : Str} (h : suffix ∈ suffixes shape) :
    ∃ k, k ≠ [] ∧ ∀ name : Str, name ++ suffix = join name k := by
  have hdot : ∃ k, k ≠ [] ∧ suffix = '.' :: k := by
    cases shape with
    | scalar | struct => cases h
    | list ser m =>
      rw [suffixes] at h
      split at h <;> obtain rfl := List.mem_singleton.mp h <;> exact ⟨_, by decide, rfl⟩
    | map ser key v =>
      rw [suffixes] at h
      split at h <;> rcases List.mem_pair.mp h with rfl | rfl <;> exact ⟨_, by decide, rfl⟩
  obtain ⟨k, hk, rfl⟩ := hdot
  exact ⟨k, hk, fun name => (join_of_ne_nil name hk).symm⟩

end

end LocalStack.Aws.Protocol.SqsParser
