import LocalStack.Aws.Protocol.Parser

/-! `QueryRequestParser`: form parameters parsed against a shape. A container is
parsed from the parameters below its name, with the name taken off. -/

namespace LocalStack.Aws.Protocol.Query
open LocalStack.Text LocalStack.Decimal LocalStack.OrderedDict
open LocalStack.Aws.Protocol.Parser

/-! ## Shapes and parameters -/

/-- A shape of a graph of shapes, where a shape may be a member of itself. -/
inductive ShapeNode (ι : Type)
  | scalar (ser : Serialization) (type : ScalarType)
  | list (ser : Serialization) (member : ι)
  | map (ser : Serialization) (key : Serialization) (value : ι)
  | struct (ser : Serialization) (traits : StructureTraits) (members : List (Str × ι))

def ShapeNode.serialization {ι : Type} : ShapeNode ι → Serialization
  | .scalar ser _ | .list ser _ | .map ser _ _ | .struct ser _ _ => ser

/-- A shape tree as a graph. -/
def treeView : Shape → ShapeNode Shape
  | .scalar ser t => .scalar ser t
  | .list ser member => .list ser member
  | .map ser key value => .map ser key value
  | .struct ser traits members => .struct ser traits members

abbrev Params := Dict Str Str

/-- The length of all keys; it gets smaller with each name that is taken off. -/
def size (node : Params) : Nat := (node.map fun p => p.1.length).sum

/-- `_filter_node`: the parameters whose key starts with the name, without the
name and the character behind it. -/
def filter_node (name : Str) (node : Params) : Option Params :=
  let filtered := Dict.ofPairs <|
    (node.filter fun p => name.isPrefixOf p.1).map fun p => (p.1.drop (name.length + 1), p.2)
  if filtered = [] then none else some filtered

example : filter_node "1".toList [("1.Id".toList, "a".toList), ("102.Id".toList, "b".toList)] =
    some [("Id".toList, "a".toList), ("2.Id".toList, "b".toList)] := by decide

/-! ## Parser -/

/-- `while True` over the indexes from `i` on until there is no value. -/
def collect {α : Type} (step : Nat → Except Error (Option α)) : Nat → Nat → Except Error (List α)
  | 0, _ => .error .recursionError
  | fuel + 1, i =>
    match step i with
    | .error e => .error e
    | .ok none => .ok []
    | .ok (some a) => (collect step fuel (i + 1)).map (a :: ·)

/-- A value that `is not None`. -/
def present (v : Value) : Option Value := if v.isNone then none else some v

section

variable {ι : Type} (view : ι → ShapeNode ι) (isoparse : IsoParse)

/-- `_get_serialized_name`. -/
def get_serialized_name (ser : Serialization) (default_name : Str) : Str :=
  ser.name.getD default_name

/-- `_process_member`, where `parse` is `_parse_shape` for containers. -/
def process_member (parse : ι → Params → Except Error Value) (member_name : Str)
    (member_shape : ι) (node : Params) : Except Error Value :=
  match view member_shape with
  | .scalar ser t =>
    match node.get member_name with
    | none => .ok .none
    | some sub_node => wrapErrors (parseScalar isoparse .iso8601 ser (.str sub_node) t)
  | _ =>
    match filter_node member_name node with
    | none => .ok .none
    | some sub_node => parse member_shape sub_node

/-- The key of a member of a structure. That of a flattened list is defined by
the member of the list. -/
def structure_key (member : Str) (member_shape : ι) : Str :=
  match view member_shape with
  | .list ser m => get_serialized_name (if ser.flattened then (view m).serialization else ser) member
  | n => get_serialized_name n.serialization member

def parseMembers (parse : ι → Params → Except Error Value) (required_members : List Str) :
    List (Str × ι) → Params → Except Error (List (Str × Value))
  | [], _ => .ok []
  | (member, member_shape) :: members, node => do
    let value ← process_member view isoparse parse (structure_key view member member_shape)
      member_shape node
    let result ← parseMembers parse required_members members node
    if value.isNone = false ∨ member ∈ required_members then return (member, value) :: result
    return result

def get_list_key_prefix (ser : Serialization) (member : ι) : Str :=
  if ser.flattened then []
  else get_serialized_name (view member).serialization "member".toList ++ ['.']

def list_key (ser : Serialization) (member : ι) (i : Nat) : Str :=
  get_list_key_prefix view ser member ++ natToStr i

def parse_list (parse : ι → Params → Except Error Value) (ser : Serialization) (member : ι)
    (node : Params) : Except Error Value := do
  let result ← collect (fun i => do
    return present (← process_member view isoparse parse (list_key view ser member i) member node))
    (size node + 1) 1
  return if result = [] then .none else .list result

/-- Non-flattened maps have an additional hierarchy level. -/
def map_key (ser : Serialization) (i : Nat) (name : Str) : Str :=
  (if ser.flattened then [] else "entry.".toList) ++ natToStr i ++ '.' :: name

def key_name (key : Serialization) : Str := get_serialized_name key "key".toList

def value_name (value : ι) : Str :=
  get_serialized_name (view value).serialization "value".toList

def parse_map (parse : ι → Params → Except Error Value) (ser key : Serialization) (value : ι)
    (node : Params) : Except Error Value := do
  let result ← collect (fun i => do
    let k := node.get (map_key ser i (key_name key))
    let v ← process_member view isoparse parse (map_key ser i (value_name view value)) value node
    return match k, present v with
      | some k, some v => some (k, v)
      | _, _ => none)
    (size node + 1) 1
  return if result = [] then .none else .dict (Dict.ofPairs result)

/-- `_parse_shape` of a node of parameters. -/
def parseNode (parse : ι → Params → Except Error Value) (shape : ι) (node : Params) :
    Except Error Value :=
  wrapErrors <|
    match view shape with
    | .scalar ser t =>
      parseScalar isoparse .iso8601 ser (.dict (node.map fun p => (p.1, .str p.2))) t
    | .list ser member => parse_list view isoparse parse ser member node
    | .map ser key value => parse_map view isoparse parse ser key value node
    | .struct _ traits members =>
      (parseMembers view isoparse parse traits.required_members members node).map fun result =>
        if result = [] then .none else .dict result

/-- `_parse_shape` nested to a depth of at most `fuel`. -/
def parseFuel : Nat → ι → Params → Except Error Value
  | 0, _, _ => .error .recursionError
  | fuel + 1, shape, node => parseNode view isoparse (parseFuel fuel) shape node

/-- `_parse_shape`. No name is empty, so the nesting is not deeper than the keys
are long. -/
def parse_shape (shape : ι) (node : Params) : Except Error Value :=
  parseFuel view isoparse (size node + 1) shape node

/-- `parse`, with the input shape of the operation. -/
def parse (shape : ι) (params : Params) : Except Error Value :=
  (parse_shape view isoparse shape params).map fun parsed =>
    if parsed.isNone then .dict [] else parsed

end

/-! ## Names taken off the keys -/

/-- The entries that `_filter_node` keeps, before equal keys are merged. -/
def cut (name : Str) (node : Params) : List (Str × Str) :=
  (node.filter fun p => name.isPrefixOf p.1).map fun p => (p.1.drop (name.length + 1), p.2)

theorem filter_node_eq (name : Str) (node : Params) :
    filter_node name node = if cut name node = [] then none else some (Dict.ofPairs (cut name node)) := by
  have hnil : Dict.ofPairs (cut name node) = [] ↔ cut name node = [] := Dict.ofPairs_eq_nil
  rw [filter_node, ← cut]
  simp only [hnil]

theorem mem_cut {name : Str} {node : Params} {q : Str × Str} :
    q ∈ cut name node ↔ ∃ p ∈ node, name <+: p.1 ∧ q = (p.1.drop (name.length + 1), p.2) := by
  simp only [cut, List.mem_map, List.mem_filter, List.isPrefixOf_iff_prefix]
  constructor
  · rintro ⟨p, ⟨hp, hname⟩, rfl⟩
    exact ⟨p, hp, hname, rfl⟩
  · rintro ⟨p, hp, hname, rfl⟩
    exact ⟨p, ⟨hp, hname⟩, rfl⟩

theorem mem_keys_filter_node {name : Str} {node sub_node : Params}
    (h : filter_node name node = some sub_node) {k : Str} (hk : k ∈ sub_node.keys) :
    ∃ k' ∈ node.keys, name <+: k' ∧ k = k'.drop (name.length + 1) := by
  rw [filter_node_eq] at h
  split at h
  · cases h
  · cases h
    rw [Dict.mem_keys_ofPairs] at hk
    obtain ⟨q, hq, rfl⟩ := List.mem_map.mp hk
    obtain ⟨p, hp, hname, rfl⟩ := mem_cut.mp hq
    exact ⟨p.1, Dict.mem_keys_of_mem hp, hname, rfl⟩

theorem drop_name (name k : Str) : (name ++ '.' :: k).drop (name.length + 1) = k := by
  rw [← List.drop_drop, List.drop_left]
  rfl

/-- A key in a node stays a key without its name. -/
theorem filter_node_of_mem {name k : Str} {node : Params} (h : k ∈ node.keys) (hk : name <+: k) :
    ∃ sub_node, filter_node name node = some sub_node ∧
      k.drop (name.length + 1) ∈ Dict.keys sub_node := by
  obtain ⟨v, hv⟩ := Dict.exists_get h
  have hmem : (k.drop (name.length + 1), v) ∈ cut name node :=
    mem_cut.mpr ⟨_, Dict.mem_of_get hv, hk, rfl⟩
  refine ⟨Dict.ofPairs (cut name node), ?_, ?_⟩
  · rw [filter_node_eq, if_neg fun hnil => by simp [hnil] at hmem]
  · rw [Dict.mem_keys_ofPairs]
    exact List.mem_map_of_mem hmem

theorem size_set_le (d : Params) (k v : Str) : size (d.set k v) ≤ size d + k.length := by
  induction d with
  | nil => simp [size, Dict.set]
  | cons p d ih =>
    obtain ⟨k₀, v₀⟩ := p
    rw [Dict.set]
    split
    · next h => simp [size, h]
    · simp only [size, List.map_cons, List.sum_cons] at ih ⊢
      omega

theorem size_ofPairs_le (ps : List (Str × Str)) : size (Dict.ofPairs ps) ≤ size ps := by
  have hfold : ∀ (ps : List (Str × Str)) (d : Params),
      size (ps.foldl (fun d p => d.set p.1 p.2) d) ≤ size d + size ps := by
    intro ps
    induction ps with
    | nil => simp [size]
    | cons p ps ih =>
      intro d
      have hset := size_set_le d p.1 p.2
      have hrest := ih (d.set p.1 p.2)
      simp only [List.foldl_cons, size, List.map_cons, List.sum_cons] at hset hrest ⊢
      omega
  simpa [Dict.ofPairs, size] using hfold ps []

/-- Taking off a name makes a node smaller. -/
theorem size_filter_node {name : Str} (hname : name ≠ []) {node sub_node : Params}
    (h : filter_node name node = some sub_node) : size sub_node < size node := by
  have hcut : size (cut name node) + (cut name node).length ≤ size node := by
    have hlen := List.length_pos_iff.mpr hname
    clear h
    induction node with
    | nil => simp [cut, size]
    | cons p node ih =>
      by_cases hp : name.isPrefixOf p.1
      · have hle := (List.isPrefixOf_iff_prefix.mp hp).length_le
        simp only [cut, List.filter_cons, hp, if_true, List.map_cons, size, List.sum_cons,
          List.length_cons, List.length_drop] at ih ⊢
        omega
      · simp only [cut, List.filter_cons, hp, Bool.false_eq_true, if_false, size, List.map_cons,
          List.sum_cons] at ih ⊢
        omega
  rw [filter_node_eq] at h
  split at h
  · cases h
  · next hne =>
    have hpos := List.length_pos_iff.mpr hne
    have hle := size_ofPairs_le (cut name node)
    cases h
    omega

/-! ## One level of the recursion -/

section

variable {ι : Type} {view : ι → ShapeNode ι} {isoparse : IsoParse}

def IsScalar (view : ι → ShapeNode ι) (s : ι) : Prop := ∃ ser t, view s = .scalar ser t

theorem process_member_scalar {parse : ι → Params → Except Error Value} {s : ι} {ser t}
    (h : view s = .scalar ser t) (name : Str) (node : Params) :
    process_member view isoparse parse name s node =
      match node.get name with
      | none => .ok .none
      | some text => wrapErrors (parseScalar isoparse .iso8601 ser (.str text) t) := by
  simp only [process_member, h]

theorem process_member_container {parse : ι → Params → Except Error Value} {s : ι}
    (h : ¬ IsScalar view s) (name : Str) (node : Params) :
    process_member view isoparse parse name s node =
      match filter_node name node with
      | none => .ok .none
      | some sub_node => parse s sub_node := by
  rw [process_member]
  split
  · next ser t hs => exact absurd ⟨ser, t, hs⟩ h
  · rfl

theorem list_key_ne_nil (ser : Serialization) (m : ι) (i : Nat) : list_key view ser m i ≠ [] := by
  simp [list_key, Decimal.natToStr_ne_nil]

theorem map_key_ne_nil (ser : Serialization) (i : Nat) (name : Str) : map_key ser i name ≠ [] :=
  List.append_ne_nil_of_right_ne_nil _ (List.cons_ne_nil '.' name)

/-- The shapes of the graph below a shape. -/
inductive Reaches (view : ι → ShapeNode ι) : ι → ι → Prop
  | refl (s) : Reaches view s s
  | list {s ser m t} : view s = .list ser m → Reaches view m t → Reaches view s t
  | map {s ser key v t} : view s = .map ser key v → Reaches view v t → Reaches view s t
  | member {s ser traits ms p t} : view s = .struct ser traits ms → p ∈ ms →
      Reaches view p.2 t → Reaches view s t

/-- No member of a structure has the empty name. -/
def NamesMembers (view : ι → ShapeNode ι) (s : ι) : Prop :=
  ∀ t ser traits ms, Reaches view s t → view t = .struct ser traits ms →
    ∀ p ∈ ms, structure_key view p.1 p.2 ≠ []

/-- What holds of all shapes of a tree holds of those below one of them. -/
theorem all_of_reaches {P : Shape → Prop} {s t : Shape} (h : s.All P)
    (hreach : Reaches treeView s t) : t.All P := by
  induction hreach with
  | refl => exact h
  | @list s ser m t hs _ ih =>
    cases s <;> cases hs
    exact ih h.list_member
  | @map s ser key v t hs _ ih =>
    cases s <;> cases hs
    exact ih h.map_value
  | @member s ser traits ms p t hs hp _ ih =>
    cases s <;> cases hs
    exact ih (h.struct_member p hp)

theorem namesMembers_of_all {s : Shape} (h : s.All fun s => ∀ ser traits ms,
    s = .struct ser traits ms → ∀ p ∈ ms, structure_key treeView p.1 p.2 ≠ []) :
    NamesMembers treeView s := by
  intro t ser traits ms hreach ht p hp
  cases t <;> cases ht
  exact (all_of_reaches h hreach).self _ _ _ rfl p hp

theorem parseMembers_congr {parse parse' : ι → Params → Except Error Value} (required : List Str)
    {ms : List (Str × ι)} {node node' : Params}
    (h : ∀ p ∈ ms, process_member view isoparse parse (structure_key view p.1 p.2) p.2 node =
      process_member view isoparse parse' (structure_key view p.1 p.2) p.2 node') :
    parseMembers view isoparse parse required ms node =
      parseMembers view isoparse parse' required ms node' := by
  induction ms with
  | nil => rfl
  | cons p ms ih =>
    rw [List.forall_mem_cons] at h
    rw [parseMembers, parseMembers, h.1, ih h.2]

theorem parseMembers_eq_nil {parse : ι → Params → Except Error Value} (required : List Str)
    {ms : List (Str × ι)} {node : Params}
    (h : ∀ p ∈ ms, p.1 ∉ required ∧
      process_member view isoparse parse (structure_key view p.1 p.2) p.2 node = .ok .none) :
    parseMembers view isoparse parse required ms node = .ok [] := by
  induction ms with
  | nil => rfl
  | cons p ms ih =>
    obtain ⟨⟨hreq, hp⟩, hms⟩ := List.forall_mem_cons.mp h
    simp [parseMembers, hp, ih hms, hreq, Value.isNone, bind, Except.bind, pure, Except.pure]

/-- A node is parsed by what is parsed below the names of its members. -/
theorem parseNode_congr {parse parse' : ι → Params → Except Error Value} {s : ι} {node : Params}
    (hnames : NamesMembers view s)
    (h : ∀ m name, NamesMembers view m → name ≠ [] →
      process_member view isoparse parse name m node =
        process_member view isoparse parse' name m node) :
    parseNode view isoparse parse s node = parseNode view isoparse parse' s node := by
  rw [parseNode, parseNode]
  cases hs : view s with
  | scalar ser t => rfl
  | list ser m =>
    have hm := fun i => h m (list_key view ser m i) (fun t _ _ _ ht => hnames t _ _ _ (.list hs ht))
      (list_key_ne_nil _ _ _)
    simp only [parse_list, hm]
  | map ser key v =>
    have hv := fun i => h v (map_key ser i (value_name view v))
      (fun t _ _ _ ht => hnames t _ _ _ (.map hs ht)) (map_key_ne_nil _ _ _)
    simp only [parse_map, hv]
  | struct ser traits ms =>
    have hms := parseMembers_congr traits.required_members fun p hp =>
      h p.2 (structure_key view p.1 p.2) (fun t _ _ _ ht => hnames t _ _ _ (.member hs hp ht))
        (hnames s ser traits ms (.refl s) hs p hp)
    simp only [hms]

/-- The nesting does not reach the bound. -/
theorem parseFuel_eq {s : ι} (hnames : NamesMembers view s) {fuel fuel' : Nat} {node : Params}
    (h : size node < fuel) (h' : size node < fuel') :
    parseFuel view isoparse fuel s node = parseFuel view isoparse fuel' s node := by
  induction fuel generalizing fuel' s node with
  | zero => omega
  | succ fuel ih =>
    obtain ⟨fuel', rfl⟩ := Nat.exists_eq_succ_of_ne_zero (Nat.ne_zero_of_lt h')
    rw [parseFuel, parseFuel]
    refine parseNode_congr hnames fun m name hm hname => ?_
    by_cases hs : IsScalar view m
    · obtain ⟨ser, t, hs⟩ := hs
      rw [process_member_scalar hs, process_member_scalar hs]
    · rw [process_member_container hs, process_member_container hs]
      rcases hsub : filter_node name node with _ | sub_node
      · rfl
      · have hlt := size_filter_node hname hsub
        exact ih hm (by omega) (by omega)

/-- `_parse_shape` calls itself for the members. -/
theorem parse_shape_eq {s : ι} (hnames : NamesMembers view s) (node : Params) :
    parse_shape view isoparse s node =
      parseNode view isoparse (parse_shape view isoparse) s node := by
  rw [parse_shape, parseFuel]
  refine parseNode_congr hnames fun m name hm hname => ?_
  by_cases hs : IsScalar view m
  · obtain ⟨ser, t, hs⟩ := hs
    rw [process_member_scalar hs, process_member_scalar hs]
  · rw [process_member_container hs, process_member_container hs]
    rcases hsub : filter_node name node with _ | sub_node
    · rfl
    · exact parseFuel_eq hm (size_filter_node hname hsub) (Nat.lt_succ_self _)

/-! ## Shapes that have no value -/

/-- Some parameters below a name give the shape a value, or an error. -/
inductive Live (view : ι → ShapeNode ι) : ι → Prop
  | scalar {s ser t} : view s = .scalar ser t → Live view s
  | list {s ser m} : view s = .list ser m → Live view m → Live view s
  | map {s ser key v} : view s = .map ser key v → Live view v → Live view s
  | required {s ser traits ms} : view s = .struct ser traits ms →
      (∃ p ∈ ms, p.1 ∈ traits.required_members) → Live view s
  | member {s ser traits ms p} : view s = .struct ser traits ms → p ∈ ms → Live view p.2 →
      Live view s

/-- A shape that is not live is parsed to `None` from all parameters. -/
theorem parse_not_live {s : ι} (hnames : NamesMembers view s) (hs : ¬ Live view s) {fuel : Nat}
    {node : Params} (hf : size node < fuel) : parseFuel view isoparse fuel s node = .ok .none := by
  induction fuel generalizing s node with
  | zero => omega
  | succ fuel ih =>
    have hmember : ∀ m name, NamesMembers view m → ¬ Live view m → name ≠ [] →
        process_member view isoparse (parseFuel view isoparse fuel) name m node = .ok .none := by
      intro m name hnames hm hname
      rw [process_member_container fun ⟨ser, t, h⟩ => hm (.scalar h)]
      rcases hsub : filter_node name node with _ | sub_node
      · rfl
      · have hlt := size_filter_node hname hsub
        exact ih hnames hm (by omega)
    rw [parseFuel, parseNode, wrapErrors_eq_ok]
    cases h : view s with
    | scalar ser t => exact absurd (.scalar h) hs
    | list ser m =>
      have hm := hmember m (list_key view ser m 1)
        (fun t _ _ _ ht => hnames t _ _ _ (.list h ht)) (fun hm => hs (.list h hm))
        (list_key_ne_nil _ _ _)
      simp [parse_list, collect, hm, present, bind, Except.bind, pure, Except.pure]
    | map ser key v =>
      have hv := hmember v (map_key ser 1 (value_name view v))
        (fun t _ _ _ ht => hnames t _ _ _ (.map h ht)) (fun hv => hs (.map h hv))
        (map_key_ne_nil _ _ _)
      simp [parse_map, collect, hv, present, bind, Except.bind, pure, Except.pure]
    | struct ser traits ms =>
      have hnil := parseMembers_eq_nil traits.required_members fun p hp =>
        ⟨fun hr => hs (.required h ⟨p, hp, hr⟩),
          hmember p.2 (structure_key view p.1 p.2) (fun t _ _ _ ht => hnames t _ _ _ (.member h hp ht))
            (fun hm => hs (.member h hp hm)) (hnames s ser traits ms (.refl s) h p hp)⟩
      simp [hnil, Except.map]

end

end LocalStack.Aws.Protocol.Query
