import LocalStack.Aws.Protocol.QueryRoundTrip

/-! `EC2RequestParser`: the query parser with names of its own. A `queryName` goes
before the other name, which begins with a capital letter, and no list has a level for
its elements. It parses as the query parser does for shapes that are renamed. -/

namespace LocalStack.Aws.Protocol.Ec2
open LocalStack.Text LocalStack.Decimal LocalStack.OrderedDict
open LocalStack.Aws.Protocol.Parser
open LocalStack.Aws.Protocol.Query (ShapeNode Params collect process_member present size map_key
  treeView)

/-! ## Parser -/

/-- The shapes of the service, with the `queryName` that their serialization has, and
that of the keys of a map. -/
structure Graph (ι : Type) where
  view : ι → ShapeNode ι
  queryName : ι → Option Str
  keyQueryName : ι → Option Str

/-- `name[0].upper() + name[1:]`; no name of the service model is empty. `upper` is that
of a string of one character. -/
def capitalized (upper : Char → Str) : Str → Str
  | [] => []
  | c :: name => upper c ++ name

/-- `_get_serialized_name`. -/
def get_serialized_name (upper : Char → Str) (queryName : Option Str) (ser : Serialization)
    (default_name : Str) : Str :=
  match queryName with
  | some name => name
  | none =>
    match ser.name with
    | some name => capitalized upper name
    | none => default_name

section

variable {ι : Type} (upper : Char → Str) (g : Graph ι) (isoparse : IsoParse)

def serialized_name (shape : ι) (default_name : Str) : Str :=
  get_serialized_name upper (g.queryName shape) (g.view shape).serialization default_name

/-- The key of a member of a structure. That of a flattened list is defined by
the member of the list. -/
def structure_key (member : Str) (member_shape : ι) : Str :=
  match g.view member_shape with
  | .list ser m => serialized_name upper g (if ser.flattened then m else member_shape) member
  | _ => serialized_name upper g member_shape member

def parseMembers (parse : ι → Params → Except Error Value) (required_members : List Str) :
    List (Str × ι) → Params → Except Error (List (Str × Value))
  | [], _ => .ok []
  | (member, member_shape) :: members, node => do
    let value ← process_member g.view isoparse parse (structure_key upper g member member_shape)
      member_shape node
    let result ← parseMembers parse required_members members node
    if value.isNone = false ∨ member ∈ required_members then return (member, value) :: result
    return result

/-- `_get_list_key_prefix`. -/
def get_list_key_prefix : Str := []

def parse_list (parse : ι → Params → Except Error Value) (member : ι) (node : Params) :
    Except Error Value := do
  let result ← collect (fun i => do
    let key := get_list_key_prefix ++ natToStr i
    return present (← process_member g.view isoparse parse key member node))
    (size node + 1) 1
  return if result = [] then .none else .list result

def parse_map (parse : ι → Params → Except Error Value) (shape : ι) (ser key : Serialization)
    (value : ι) (node : Params) : Except Error Value := do
  let key_name := get_serialized_name upper (g.keyQueryName shape) key "key".toList
  let value_name := serialized_name upper g value "value".toList
  let result ← collect (fun i => do
    let k := node.get (map_key ser i key_name)
    let v ← process_member g.view isoparse parse (map_key ser i value_name) value node
    return match k, present v with
      | some k, some v => some (k, v)
      | _, _ => none)
    (size node + 1) 1
  return if result = [] then .none else .dict (Dict.ofPairs result)

/-- `_parse_shape` of a node of parameters. -/
def parseNode (parse : ι → Params → Except Error Value) (shape : ι) (node : Params) :
    Except Error Value :=
  wrapErrors <|
    match g.view shape with
    | .scalar ser t =>
      parseScalar isoparse .iso8601 ser (.dict (node.map fun p => (p.1, .str p.2))) t
    | .list _ member => parse_list g isoparse parse member node
    | .map ser key value => parse_map upper g isoparse parse shape ser key value node
    | .struct _ traits members =>
      (parseMembers upper g isoparse parse traits.required_members members node).map fun result =>
        if result = [] then .none else .dict result

/-- `_parse_shape` nested to a depth of at most `fuel`. -/
def parseFuel : Nat → ι → Params → Except Error Value
  | 0, _, _ => .error .recursionError
  | fuel + 1, shape, node => parseNode upper g isoparse (parseFuel fuel) shape node

/-- `_parse_shape`, with the bound of the query parser. -/
def parse_shape (shape : ι) (node : Params) : Except Error Value :=
  parseFuel upper g isoparse (size node + 1) shape node

/-- `parse`, with the input shape of the operation. -/
def parse (shape : ι) (params : Params) : Except Error Value :=
  (parse_shape upper g isoparse shape params).map fun parsed =>
    if parsed.isNone then .dict [] else parsed

end

/-! ## Shapes under their query names -/

section

variable {ι : Type} (upper : Char → Str) (g : Graph ι)

/-- The name that a serialization has for this protocol. -/
def ec2Name (queryName : Option Str) (ser : Serialization) : Option Str :=
  queryName <|> ser.name.map (capitalized upper)

def Graph.name (s : ι) : Option Str := ec2Name upper (g.queryName s) (g.view s).serialization

/-- The shapes of the query protocol that are parsed alike. All lists are flattened, so a
list that was not gives its name to its member, which carries it beside the shape. -/
def asQuery : ι × Option (Option Str) → ShapeNode (ι × Option (Option Str)) := fun (s, given) =>
  let name := given.getD (g.name upper s)
  match g.view s with
  | .scalar ser t => .scalar { ser with name } t
  | .list ser m =>
    .list { ser with name, flattened := true } (m, if ser.flattened then none else some name)
  | .map ser key value =>
    .map { ser with name } { key with name := ec2Name upper (g.keyQueryName s) key } (value, none)
  | .struct ser traits members =>
    .struct { ser with name } traits (members.map fun p => (p.1, p.2, none))

variable {upper g} {isoparse : IsoParse}

theorem get_serialized_name_eq (queryName : Option Str) (ser : Serialization) (default_name : Str) :
    get_serialized_name upper queryName ser default_name =
      (ec2Name upper queryName ser).getD default_name := by
  cases queryName with
  | some name => rfl
  | none =>
    rw [get_serialized_name, ec2Name]
    cases ser.name <;> rfl

theorem name_asQuery (s : ι) (given : Option (Option Str)) :
    (asQuery upper g (s, given)).serialization.name = given.getD (g.name upper s) := by
  rw [asQuery]
  cases g.view s <;> rfl

theorem serialized_name_asQuery (s : ι) (default_name : Str) :
    Query.get_serialized_name (asQuery upper g (s, none)).serialization default_name =
      serialized_name upper g s default_name := by
  rw [Query.get_serialized_name, name_asQuery, serialized_name, get_serialized_name_eq]
  rfl

theorem structure_key_asQuery (member : Str) (s : ι) :
    Query.structure_key (asQuery upper g) member (s, none) = structure_key upper g member s := by
  have hs := @serialized_name_asQuery ι upper g s member
  rw [structure_key, Query.structure_key]
  cases hview : g.view s with
  | list ser m =>
    have hlist : asQuery upper g (s, none) = .list
        { ser with name := g.name upper s, flattened := true }
        (m, if ser.flattened then none else some (g.name upper s)) := by
      simp only [asQuery, hview, Option.getD_none]
    simp only [hlist, if_true]
    by_cases hf : ser.flattened = true
    · rw [if_pos hf, if_pos hf]
      exact serialized_name_asQuery m member
    · rw [if_neg hf, if_neg hf, ← hs, Query.get_serialized_name, Query.get_serialized_name,
        name_asQuery, name_asQuery]
      rfl
  | scalar ser t => simpa only [asQuery, hview] using hs
  | map ser key value => simpa only [asQuery, hview] using hs
  | struct ser traits members => simpa only [asQuery, hview] using hs

theorem parseScalar_name (default : TimestampFormat) (ser : Serialization) (name : Option Str)
    (node : Value) (t : ScalarType) :
    parseScalar isoparse default { ser with name } node t =
      parseScalar isoparse default ser node t := by
  cases t <;> rfl

/-! ## The two parsers -/

section

variable {parse : ι → Params → Except Error Value}
  {parse' : ι × Option (Option Str) → Params → Except Error Value}

theorem process_member_asQuery (hp : ∀ s given node, parse' (s, given) node = parse s node)
    (name : Str) (s : ι) (given : Option (Option Str)) (node : Params) :
    process_member (asQuery upper g) isoparse parse' name (s, given) node =
      process_member g.view isoparse parse name s node := by
  rw [process_member, process_member, asQuery]
  cases g.view s with
  | scalar ser t => simp only [parseScalar_name]
  | list ser m => simp only [hp]
  | map ser key value => simp only [hp]
  | struct ser traits members => simp only [hp]

theorem parseMembers_asQuery (hp : ∀ s given node, parse' (s, given) node = parse s node)
    (required : List Str) (members : List (Str × ι)) (node : Params) :
    Query.parseMembers (asQuery upper g) isoparse parse' required
        (members.map fun p => (p.1, p.2, none)) node =
      parseMembers upper g isoparse parse required members node := by
  induction members with
  | nil => rfl
  | cons p members ih =>
    rw [List.map_cons, Query.parseMembers, parseMembers, ih, structure_key_asQuery,
      process_member_asQuery hp]

theorem parseNode_asQuery (hp : ∀ s given node, parse' (s, given) node = parse s node)
    (s : ι) (given : Option (Option Str)) (node : Params) :
    Query.parseNode (asQuery upper g) isoparse parse' (s, given) node =
      parseNode upper g isoparse parse s node := by
  rw [Query.parseNode, parseNode, asQuery]
  cases hs : g.view s with
  | scalar ser t => simp only [parseScalar_name]
  | list ser m =>
    simp only [Query.parse_list, parse_list, Query.list_key, Query.get_list_key_prefix,
      process_member_asQuery hp, get_list_key_prefix, if_true]
  | map ser key value =>
    have hkey : Query.key_name { key with name := ec2Name upper (g.keyQueryName s) key } =
        get_serialized_name upper (g.keyQueryName s) key "key".toList :=
      (get_serialized_name_eq _ _ _).symm
    have hvalue : Query.value_name (asQuery upper g) (value, none) =
        serialized_name upper g value "value".toList := serialized_name_asQuery _ _
    simp only [Query.parse_map, parse_map, hkey, hvalue, process_member_asQuery hp]
    rfl
  | struct ser traits members => simp only [parseMembers_asQuery hp]

theorem parseFuel_asQuery (fuel : Nat) (s : ι) (given : Option (Option Str)) (node : Params) :
    Query.parseFuel (asQuery upper g) isoparse fuel (s, given) node =
      parseFuel upper g isoparse fuel s node := by
  induction fuel generalizing s given node with
  | zero => rfl
  | succ fuel ih => exact parseNode_asQuery ih s given node

end

/-- **The protocol is the query protocol under other names.** Parameters are parsed, or
refused with the same error, as the query parser does for the shapes that carry their
`ec2` names and have flattened lists only. -/
theorem parse_eq_query (upper : Char → Str) (g : Graph ι) (isoparse : IsoParse) (s : ι)
    (params : Params) :
    parse upper g isoparse s params =
      Query.parse (asQuery upper g) isoparse (s, none) params := by
  rw [parse, parse_shape, Query.parse, Query.parse_shape, parseFuel_asQuery]

end

/-! ## Graphs that unfold alike -/

def mapNode {ι κ : Type} (f : ι → κ) : ShapeNode ι → ShapeNode κ
  | .scalar ser t => .scalar ser t
  | .list ser m => .list ser (f m)
  | .map ser key value => .map ser key (f value)
  | .struct ser traits members => .struct ser traits (members.map fun p => (p.1, f p.2))

section

variable {ι κ : Type} {view : ι → ShapeNode ι} {view' : κ → ShapeNode κ} {f : ι → κ}
  {isoparse : IsoParse} {parse : ι → Params → Except Error Value}
  {parse' : κ → Params → Except Error Value}

theorem serialization_mapNode (f : ι → κ) (n : ShapeNode ι) :
    (mapNode f n).serialization = n.serialization := by
  cases n <;> rfl

theorem serialization_of_mapNode (hf : ∀ s, view' (f s) = mapNode f (view s)) (s : ι) :
    (view' (f s)).serialization = (view s).serialization := by
  rw [hf, serialization_mapNode]

theorem structure_key_mapNode (hf : ∀ s, view' (f s) = mapNode f (view s)) (member : Str) (s : ι) :
    Query.structure_key view' member (f s) = Query.structure_key view member s := by
  rw [Query.structure_key, Query.structure_key, hf]
  cases view s with
  | list ser m => simp only [mapNode, serialization_of_mapNode hf]
  | scalar ser t => rfl
  | map ser key value => rfl
  | struct ser traits members => rfl

theorem process_member_mapNode (hf : ∀ s, view' (f s) = mapNode f (view s))
    (hp : ∀ s node, parse' (f s) node = parse s node) (name : Str) (s : ι) (node : Params) :
    process_member view' isoparse parse' name (f s) node =
      process_member view isoparse parse name s node := by
  rw [process_member, process_member, hf]
  cases view s with
  | scalar ser t => rfl
  | list ser m => simp only [mapNode, hp]
  | map ser key value => simp only [mapNode, hp]
  | struct ser traits members => simp only [mapNode, hp]

theorem parseMembers_mapNode (hf : ∀ s, view' (f s) = mapNode f (view s))
    (hp : ∀ s node, parse' (f s) node = parse s node) (required : List Str)
    (members : List (Str × ι)) (node : Params) :
    Query.parseMembers view' isoparse parse' required (members.map fun p => (p.1, f p.2)) node =
      Query.parseMembers view isoparse parse required members node := by
  induction members with
  | nil => rfl
  | cons p members ih =>
    rw [List.map_cons, Query.parseMembers, Query.parseMembers, ih, structure_key_mapNode hf,
      process_member_mapNode hf hp]

theorem parseFuel_mapNode (hf : ∀ s, view' (f s) = mapNode f (view s)) (fuel : Nat) (s : ι)
    (node : Params) :
    Query.parseFuel view' isoparse fuel (f s) node = Query.parseFuel view isoparse fuel s node := by
  induction fuel generalizing s node with
  | zero => rfl
  | succ fuel ih =>
    rw [Query.parseFuel, Query.parseFuel, Query.parseNode, Query.parseNode, hf]
    cases view s with
    | scalar ser t => rfl
    | list ser m =>
      simp only [mapNode, Query.parse_list, Query.list_key, Query.get_list_key_prefix,
        serialization_of_mapNode hf, process_member_mapNode hf ih]
    | map ser key value =>
      simp only [mapNode, Query.parse_map, Query.value_name, serialization_of_mapNode hf,
        process_member_mapNode hf ih]
    | struct ser traits members => simp only [mapNode, parseMembers_mapNode hf ih]

end

/-! ## Round trip -/

/-- A shape tree of the protocol. -/
inductive Tree
  | scalar (ser : Serialization) (queryName : Option Str) (type : ScalarType)
  | list (ser : Serialization) (queryName : Option Str) (member : Tree)
  | map (ser : Serialization) (queryName : Option Str) (key : Serialization)
      (keyQueryName : Option Str) (value : Tree)
  | struct (ser : Serialization) (queryName : Option Str) (traits : StructureTraits)
      (members : List (Str × Tree))

namespace Tree

def view : Tree → ShapeNode Tree
  | .scalar ser _ t => .scalar ser t
  | .list ser _ member => .list ser member
  | .map ser _ key _ value => .map ser key value
  | .struct ser _ traits members => .struct ser traits members

def queryName : Tree → Option Str
  | .scalar _ q _ | .list _ q _ | .map _ q _ _ _ | .struct _ q _ _ => q

def keyQueryName : Tree → Option Str
  | .map _ _ _ q _ => q
  | _ => none

def graph : Graph Tree := ⟨view, queryName, keyQueryName⟩

variable (upper : Char → Str)

mutual

/-- The parameters of a value; the keys are relative to its name. A list is sent below
its own name, flattened or not. -/
def flatten : Tree → Value → List (Str × Str)
  | .scalar _ _ _, v => [([], Query.formText v)]
  | .list _ _ member, .list vs => Query.numbered 1 (vs.map fun v => flatten member v)
  | .map ser _ key q value, .dict d =>
    Query.level ser "entry".toList <| Query.numbered 1 <| d.map fun p =>
      (get_serialized_name upper q key "key".toList, p.1) ::
        Query.under (serialized_name upper graph value "value".toList) (flatten value p.2)
  | .struct _ _ _ members, .dict d => flattenMembers members d
  | _, _ => []

def flattenMembers : List (Str × Tree) → Dict Str Value → List (Str × Str)
  | [], _ => []
  | (name, shape) :: members, d =>
    (match d.get name with
      | some v => Query.under (serialized_name upper graph shape name) (flatten shape v)
      | none => []) ++ flattenMembers members d

end

mutual

/-- The shape of the query protocol with the given name. -/
def renamed (name : Option Str) : Tree → Shape
  | .scalar ser _ t => .scalar { ser with name } t
  | .list ser _ m =>
    .list { ser with name, flattened := true }
      (renamed (if ser.flattened then graph.name upper m else name) m)
  | .map ser _ key q value =>
    .map { ser with name } { key with name := ec2Name upper q key }
      (renamed (graph.name upper value) value)
  | .struct ser _ traits members => .struct { ser with name } traits (renamedMembers members)

def renamedMembers : List (Str × Tree) → List (Str × Shape)
  | [] => []
  | (name, shape) :: members => (name, renamed (graph.name upper shape) shape) :: renamedMembers members

end

variable {upper}

theorem renamedMembers_eq (members : List (Str × Tree)) :
    renamedMembers upper members =
      members.map fun p => (p.1, renamed upper (graph.name upper p.2) p.2) := by
  induction members with
  | nil => rfl
  | cons p members ih => rw [renamedMembers, ih, List.map_cons]

/-- The renamed tree is what the graph of renamed shapes unfolds to. -/
theorem treeView_renamed (s : Tree × Option (Option Str)) :
    treeView (renamed upper (s.2.getD (graph.name upper s.1)) s.1) =
      mapNode (fun s => renamed upper (s.2.getD (graph.name upper s.1)) s.1)
        (asQuery upper graph s) := by
  obtain ⟨s, given⟩ := s
  cases s with
  | scalar ser q t => rfl
  | list ser q m =>
    simp only [renamed, treeView, asQuery, mapNode, graph, view]
    split <;> rfl
  | map ser q key q' value => rfl
  | struct ser q traits members =>
    simp only [renamed, treeView, asQuery, mapNode, graph, view, renamedMembers_eq, List.map_map]
    rfl

/-- The names that are sent for the renamed shapes. -/
def ownNames : Query.Naming where
  key member s := Query.get_serialized_name s.serialization member
  found member s h := by
    cases s with
    | list ser m =>
      simp only [Query.structure_key, treeView, h ser m rfl, Bool.false_eq_true, if_false]
      rfl
    | _ => rfl

theorem name_renamed (name : Option Str) (s : Tree) :
    (treeView (renamed upper name s)).serialization.name = name := by
  cases s <;> rfl

theorem ownNames_renamed (member : Str) (s : Tree) :
    ownNames.key member (renamed upper (graph.name upper s) s) =
      serialized_name upper graph s member := by
  have hname : (renamed upper (graph.name upper s) s).serialization.name = graph.name upper s := by
    cases s <;> rfl
  have hkey : ownNames.key member (renamed upper (graph.name upper s) s) =
      (renamed upper (graph.name upper s) s).serialization.name.getD member := rfl
  rw [hkey, hname, serialized_name, get_serialized_name_eq]
  rfl

theorem parse_renamed (isoparse : IsoParse) (s : Tree) (params : Params) :
    parse upper graph isoparse s params =
      Query.parse treeView isoparse (renamed upper (graph.name upper s) s) params := by
  rw [parse, parse_shape, Query.parse, Query.parse_shape, ← parseFuel_asQuery _ s none,
    ← parseFuel_mapNode treeView_renamed]
  rfl

theorem induct {P : Tree → Prop} (scalar : ∀ ser q t, P (.scalar ser q t))
    (list : ∀ ser q m, P m → P (.list ser q m))
    (map : ∀ ser q key q' v, P v → P (.map ser q key q' v))
    (struct : ∀ ser q traits ms, (∀ p ∈ ms, P p.2) → P (.struct ser q traits ms)) (s : Tree) : P s :=
  @Tree.rec P (fun ms => ∀ p ∈ ms, P p.2) (fun p => P p.2)
    scalar list map struct (by simp) (fun _ _ hp hms => List.forall_mem_cons.mpr ⟨hp, hms⟩)
    (fun _ _ h => h) s

theorem flatten_renamed (s : Tree) (name : Option Str) (v : Value) :
    Query.flatten ownNames (renamed upper name s) v = flatten upper s v := by
  induction s using induct generalizing name v with
  | scalar ser q t => rw [renamed, Query.flatten, flatten]
  | list ser q m ih =>
    cases v with
    | list vs => simp only [renamed, Query.flatten, flatten, ih, Query.level, if_true]
    | _ => simp only [renamed, Query.flatten, flatten]
  | map ser q key q' value ih =>
    cases v with
    | dict d =>
      have hkey : Query.key_name { key with name := ec2Name upper q' key } =
          get_serialized_name upper q' key "key".toList := (get_serialized_name_eq _ _ _).symm
      have hvalue : Query.value_name treeView (renamed upper (graph.name upper value) value) =
          serialized_name upper graph value "value".toList := by
        rw [Query.value_name, Query.get_serialized_name, name_renamed, serialized_name,
          get_serialized_name_eq]
        rfl
      simp only [renamed, Query.flatten, flatten, ih, hkey, hvalue]
      rfl
    | _ => simp only [renamed, Query.flatten, flatten]
  | struct ser q traits members ih =>
    cases v with
    | dict d =>
      rw [renamed, Query.flatten, flatten]
      induction members with
      | nil => rfl
      | cons p members hrest =>
        rw [List.forall_mem_cons] at ih
        rw [renamedMembers, Query.flattenMembers, flattenMembers, hrest ih.2, ownNames_renamed]
        cases Dict.get d p.1 with
        | none => rfl
        | some v => simp only [ih.1]
    | _ => simp only [renamed, Query.flatten, flatten]

end Tree

section

variable (upper : Char → Str) (isoparse : IsoParse) (ser : Serialization)
  (queryName : Option Str) (traits : StructureTraits) (ms : List (Str × Tree))

/-- The shape of the query protocol that an input shape is parsed as. -/
def inputShape : Shape :=
  .struct { ser with name := ec2Name upper queryName ser } traits (Tree.renamedMembers upper ms)

/-- Every value of an input shape is parsed back from its parameters, in any order. -/
def RoundTrips : Prop :=
  ∀ d, Typed Query.formValues (inputShape upper ser queryName traits ms) (.dict d) →
    ∀ params : Params, params.WF → (∀ p, p ∈ params ↔ p ∈ Tree.flattenMembers upper ms d) →
      parse upper Tree.graph isoparse (.struct ser queryName traits ms) params =
        .ok (.dict (Query.normMembers traits.required_members (Tree.renamedMembers upper ms) d))

theorem roundTrips_iff_query : RoundTrips upper isoparse ser queryName traits ms ↔
    Query.RoundTrips Tree.ownNames isoparse { ser with name := ec2Name upper queryName ser } traits
      (Tree.renamedMembers upper ms) := by
  have hflat : ∀ d : Dict Str Value, Query.flatten Tree.ownNames
      (inputShape upper ser queryName traits ms) (.dict d) = Tree.flattenMembers upper ms d := by
    intro d
    have h := @Tree.flatten_renamed upper (.struct ser queryName traits ms)
      (ec2Name upper queryName ser) (.dict d)
    rwa [Tree.renamed, Tree.flatten] at h
  have hparse : ∀ params, parse upper Tree.graph isoparse (.struct ser queryName traits ms) params =
      Query.parse treeView isoparse (inputShape upper ser queryName traits ms) params := by
    intro params
    rw [Tree.parse_renamed, Tree.renamed]
    rfl
  simp only [RoundTrips, Query.RoundTrips, hparse, ← hflat, inputShape]

/-- **Round trip.** Where no name begins that of a sibling, the values of an input shape
come back from the parameters that the protocol writes: `Name.N` for every list and names
with a capital letter. The lists that are looked for below another name, that of their
elements, are excepted, and the lists of lists of structures with required members: they
lose elements. -/
theorem roundTrips_iff_quietLists_ec2
    (hl : (inputShape upper ser queryName traits ms).All (Query.Lawful Tree.ownNames))
    (hnamed : (inputShape upper ser queryName traits ms).All (Query.NamedList Tree.ownNames))
    (hdecided : (inputShape upper ser queryName traits ms).All (Query.Decided Tree.ownNames)) :
    RoundTrips upper isoparse ser queryName traits ms ↔
      (inputShape upper ser queryName traits ms).All (Query.FoundByName Tree.ownNames) ∧
        (inputShape upper ser queryName traits ms).All Query.QuietList := by
  rw [roundTrips_iff_query]
  constructor
  · exact Query.conditions_of_roundTrips hl
  · rintro ⟨hfound, hquiet⟩
    exact Query.roundTrips_of_heard hl (Query.all_heard hfound hdecided) hnamed hquiet

end

/-- `Filter.1.Name`, `Filter.1.Value.1`, `DryRun` and a flattened list whose elements have
its name. -/
theorem filters_roundTrip : RoundTrips (fun c => [c.toUpper]) (fun _ => .error .valueError) {} none {}
    [("Filters".toList, .list { name := some "Filter".toList } none
        (.struct { name := some "Filter".toList } none {}
          [("Name".toList, .scalar {} none .string),
            ("Values".toList, .list { name := some "Value".toList } none
              (.scalar { name := some "item".toList } none .string))])),
      ("DryRun".toList, .scalar { name := some "dryRun".toList } none .boolean),
      ("InstanceIds".toList, .list { name := some "instanceId".toList, flattened := true } none
        (.scalar { name := some "InstanceId".toList } none .string))] := by
  refine (roundTrips_iff_quietLists_ec2 _ _ _ _ _ _ ?_ ?_ ?_).mpr ⟨?_, ?_⟩
  · refine .struct ⟨by decide, by decide, by decide⟩ (List.forall_mem_cons.mpr ⟨?_,
      List.forall_mem_cons.mpr ⟨Query.lawful_scalar (by decide), List.forall_mem_singleton.mpr ?_⟩⟩)
    · refine .list ⟨by decide, by decide⟩ (.struct ⟨by decide, by decide, by decide⟩
        (List.forall_mem_cons.mpr ⟨Query.lawful_scalar (by decide), List.forall_mem_singleton.mpr ?_⟩))
      exact .list ⟨by decide, by decide⟩ (Query.lawful_scalar (by decide))
    · exact .list ⟨by decide, by decide⟩ (Query.lawful_scalar (by decide))
  · refine .struct trivial (List.forall_mem_cons.mpr ⟨?_, List.forall_mem_cons.mpr
      ⟨.scalar trivial, List.forall_mem_singleton.mpr (.list trivial (.scalar trivial))⟩⟩)
    refine .list (List.forall_mem_cons.mpr ⟨Or.inl (Query.isScalar_scalar _ _),
      List.forall_mem_singleton.mpr (Or.inr ⟨'V', by decide, by decide⟩)⟩) (.struct trivial ?_)
    exact List.forall_mem_cons.mpr ⟨.scalar trivial,
      List.forall_mem_singleton.mpr (.list trivial (.scalar trivial))⟩
  · refine .struct (Query.decided_of_key_eq (by decide)) (List.forall_mem_cons.mpr ⟨?_,
      List.forall_mem_cons.mpr ⟨.scalar trivial, List.forall_mem_singleton.mpr
        (.list trivial (.scalar trivial))⟩⟩)
    refine .list trivial (.struct (Query.decided_of_key_eq (by decide)) ?_)
    exact List.forall_mem_cons.mpr ⟨.scalar trivial,
      List.forall_mem_singleton.mpr (.list trivial (.scalar trivial))⟩
  · refine .struct (Query.foundByName_of_key_eq (by decide)) (List.forall_mem_cons.mpr ⟨?_,
      List.forall_mem_cons.mpr ⟨.scalar trivial, List.forall_mem_singleton.mpr
        (.list trivial (.scalar trivial))⟩⟩)
    refine .list trivial (.struct (Query.foundByName_of_key_eq (by decide)) ?_)
    exact List.forall_mem_cons.mpr ⟨.scalar trivial,
      List.forall_mem_singleton.mpr (.list trivial (.scalar trivial))⟩
  · refine .struct trivial (List.forall_mem_cons.mpr ⟨?_, List.forall_mem_cons.mpr
      ⟨.scalar trivial, List.forall_mem_singleton.mpr (.list trivial (.scalar trivial))⟩⟩)
    refine .list trivial (.struct trivial (List.forall_mem_cons.mpr ⟨.scalar trivial, ?_⟩))
    exact List.forall_mem_singleton.mpr (.list trivial (.scalar trivial))

end LocalStack.Aws.Protocol.Ec2
