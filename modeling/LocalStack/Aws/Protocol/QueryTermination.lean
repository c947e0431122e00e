import LocalStack.Aws.Protocol.Query
import Mathlib.Data.List.Infix
import Mathlib.Data.List.Nodup
import Mathlib.Data.List.Perm.Subperm

/-! `QueryRequestParser._parse_shape` ends for every node. Its runs are given as
a relation without a bound on the loops or on the nesting: what has a derivation
returns or raises after as many steps as the derivation has. -/

namespace LocalStack.Aws.Protocol.Query
open LocalStack.Text LocalStack.Decimal LocalStack.OrderedDict
open LocalStack.Aws.Protocol.Parser

/-! ## Runs -/

/-- A call of a function of the parser, or the head of one of its loops with what
is left of it. -/
inductive Call (ι : Type)
  | shape (s : ι) (node : Params)
  | member (name : Str) (s : ι) (node : Params)
  | members (required : List Str) (ms : List (Str × ι)) (node : Params)
  | list (ser : Serialization) (m : ι) (node : Params) (i : Nat)
  | map (ser key : Serialization) (v : ι) (node : Params) (i : Nat)

/-- What a call returns, or what a loop collects. -/
abbrev Call.Result {ι : Type} : Call ι → Type
  | .shape .. | .member .. => Value
  | .list .. => List Value
  | .members .. | .map .. => List (Str × Value)

/-- `Runs c r`: the call returns or raises `r`. -/
inductive Runs {ι : Type} (view : ι → ShapeNode ι) (isoparse : IsoParse) :
    (c : Call ι) → Except Error c.Result → Prop
  -- `_parse_shape` with its handlers
  | scalar {s ser t node} : view s = .scalar ser t →
    Runs view isoparse (.shape s node) (wrapErrors
      (parseScalar isoparse .iso8601 ser (.dict (node.map fun p => (p.1, .str p.2))) t))
  | list {s ser m node} {r : Except Error (List Value)} : view s = .list ser m →
    Runs view isoparse (.list ser m node 1) r →
    Runs view isoparse (.shape s node) (wrapErrors
      (r.map fun result => if result = [] then .none else .list result))
  | map {s ser key v node} {r : Except Error (List (Str × Value))} : view s = .map ser key v →
    Runs view isoparse (.map ser key v node 1) r →
    Runs view isoparse (.shape s node) (wrapErrors
      (r.map fun result => if result = [] then .none else .dict (Dict.ofPairs result)))
  | struct {s ser traits ms node} {r : Except Error (List (Str × Value))} :
    view s = .struct ser traits ms →
    Runs view isoparse (.members traits.required_members ms node) r →
    Runs view isoparse (.shape s node) (wrapErrors
      (r.map fun result => if result = [] then .none else .dict result))
  -- `_process_member`
  | member_missing {name s node} : IsScalar view s → node.get name = none →
    Runs view isoparse (.member name s node) (.ok .none)
  | member_text {name s ser t node sub_node} : view s = .scalar ser t →
    node.get name = some sub_node →
    Runs view isoparse (.member name s node)
      (wrapErrors (parseScalar isoparse .iso8601 ser (.str sub_node) t))
  | member_empty {name s node} : ¬IsScalar view s → filter_node name node = none →
    Runs view isoparse (.member name s node) (.ok .none)
  | member_filtered {name s node sub_node r} : ¬IsScalar view s →
    filter_node name node = some sub_node → Runs view isoparse (.shape s sub_node) r →
    Runs view isoparse (.member name s node) r
  -- the loop of `_parse_structure`
  | members_nil {required node} : Runs view isoparse (.members required [] node) (.ok [])
  | members_raise {required member s ms node e} :
    Runs view isoparse (.member (structure_key view member s) s node) (.error e) →
    Runs view isoparse (.members required ((member, s) :: ms) node) (.error e)
  | members_cons {required member s ms node} {v : Value} {r : Except Error (List (Str × Value))} :
    Runs view isoparse (.member (structure_key view member s) s node) (.ok v) →
    Runs view isoparse (.members required ms node) r →
    Runs view isoparse (.members required ((member, s) :: ms) node) (r.map fun result =>
      if v.isNone = false ∨ member ∈ required then (member, v) :: result else result)
  -- the loop of `_parse_list`
  | list_raise {ser m node i e} :
    Runs view isoparse (.member (list_key view ser m i) m node) (.error e) →
    Runs view isoparse (.list ser m node i) (.error e)
  | list_break {ser m node i} :
    Runs view isoparse (.member (list_key view ser m i) m node) (.ok .none) →
    Runs view isoparse (.list ser m node i) (.ok [])
  | list_next {ser m node i} {v : Value} {r : Except Error (List Value)} :
    Runs view isoparse (.member (list_key view ser m i) m node) (.ok v) → v ≠ .none →
    Runs view isoparse (.list ser m node (i + 1)) r →
    Runs view isoparse (.list ser m node i) (r.map (v :: ·))
  -- the loop of `_parse_map`
  | map_raise {ser key s node i e} :
    Runs view isoparse (.member (map_key ser i (value_name view s)) s node) (.error e) →
    Runs view isoparse (.map ser key s node i) (.error e)
  | map_break {ser key s node i} {v : Value} :
    Runs view isoparse (.member (map_key ser i (value_name view s)) s node) (.ok v) →
    node.get (map_key ser i (key_name key)) = none ∨ v = .none →
    Runs view isoparse (.map ser key s node i) (.ok [])
  | map_next {ser key s node i} {k : Str} {v : Value} {r : Except Error (List (Str × Value))} :
    Runs view isoparse (.member (map_key ser i (value_name view s)) s node) (.ok v) →
    node.get (map_key ser i (key_name key)) = some k → v ≠ .none →
    Runs view isoparse (.map ser key s node (i + 1)) r →
    Runs view isoparse (.map ser key s node i) (r.map ((k, v) :: ·))

variable {ι : Type} {view : ι → ShapeNode ι} {isoparse : IsoParse}

/-- A call has one outcome. -/
theorem Runs.unique {c : Call ι} {r r' : Except Error c.Result} (h : Runs view isoparse c r)
    (h' : Runs view isoparse c r') : r = r' := by
  induction h with
  | scalar hs =>
    cases h' with
    | scalar hs' => cases hs.symm.trans hs'; rfl
    | list hs' | map hs' | struct hs' => cases hs.symm.trans hs'
  | list hs _ ih =>
    cases h' with
    | list hs' hl' => cases hs.symm.trans hs'; rw [ih hl']
    | scalar hs' | map hs' | struct hs' => cases hs.symm.trans hs'
  | map hs _ ih =>
    cases h' with
    | map hs' hl' => cases hs.symm.trans hs'; rw [ih hl']
    | scalar hs' | list hs' | struct hs' => cases hs.symm.trans hs'
  | struct hs _ ih =>
    cases h' with
    | struct hs' hl' => cases hs.symm.trans hs'; rw [ih hl']
    | scalar hs' | list hs' | map hs' => cases hs.symm.trans hs'
  | member_missing hs hn =>
    cases h' with
    | member_missing => rfl
    | member_text _ hn' => cases hn.symm.trans hn'
    | member_empty hs' | member_filtered hs' => exact absurd hs hs'
  | member_text hs hn =>
    cases h' with
    | member_missing _ hn' => cases hn.symm.trans hn'
    | member_text hs' hn' =>
      cases hs.symm.trans hs'
      cases hn.symm.trans hn'
      rfl
    | member_empty hs' | member_filtered hs' => exact absurd ⟨_, _, hs⟩ hs'
  | member_empty hs hn =>
    cases h' with
    | member_missing hs' => exact absurd hs' hs
    | member_text hs' => exact absurd ⟨_, _, hs'⟩ hs
    | member_empty => rfl
    | member_filtered _ hn' => cases hn.symm.trans hn'
  | member_filtered hs hn _ ih =>
    cases h' with
    | member_missing hs' => exact absurd hs' hs
    | member_text hs' => exact absurd ⟨_, _, hs'⟩ hs
    | member_empty _ hn' => cases hn.symm.trans hn'
    | member_filtered _ hn' hp' =>
      cases hn.symm.trans hn'
      exact ih hp'
  | members_nil => cases h'; rfl
  | members_raise _ ih =>
    cases h' with
    | members_raise hp' => cases ih hp'; rfl
    | members_cons hp' => cases ih hp'
  | members_cons _ _ ih ihms =>
    cases h' with
    | members_raise hp' => cases ih hp'
    | members_cons hp' hms' =>
      cases ih hp'
      rw [ihms hms']
  | list_raise _ ih =>
    cases h' with
    | list_raise hp' => cases ih hp'; rfl
    | list_break hp' | list_next hp' => cases ih hp'
  | list_break _ ih =>
    cases h' with
    | list_raise hp' => cases ih hp'
    | list_break => rfl
    | list_next hp' hv' => cases ih hp'; exact absurd rfl hv'
  | list_next _ hv _ ih ihnext =>
    cases h' with
    | list_raise hp' => cases ih hp'
    | list_break hp' => cases ih hp'; exact absurd rfl hv
    | list_next hp' _ hnext' =>
      cases ih hp'
      rw [ihnext hnext']
  | map_raise _ ih =>
    cases h' with
    | map_raise hp' => cases ih hp'; rfl
    | map_break hp' | map_next hp' => cases ih hp'
  | map_break _ hnone ih =>
    cases h' with
    | map_raise hp' => cases ih hp'
    | map_break => rfl
    | map_next hp' hk hv =>
      cases ih hp'
      rcases hnone with hn | hn
      · cases hn.symm.trans hk
      · exact absurd hn hv
  | map_next _ hk hv _ ih ihnext =>
    cases h' with
    | map_raise hp' => cases ih hp'
    | map_break hp' hnone =>
      cases ih hp'
      rcases hnone with hn | hn
      · cases hn.symm.trans hk
      · exact absurd hn hv
    | map_next hp' hk' _ hnext' =>
      cases ih hp'
      cases hk.symm.trans hk'
      rw [ihnext hnext']

/-! ## Loops that end -/

/-- The beginnings of the keys of a node. -/
def beginnings (node : Params) : List Str := node.keys.flatMap fun k => k.inits.tail

theorem length_beginnings (node : Params) : (beginnings node).length = size node := by
  induction node with
  | nil => rfl
  | cons p node ih =>
    rw [beginnings, Dict.keys_cons, List.flatMap_cons, List.length_append, ← beginnings, ih,
      List.length_tail, List.length_inits]
    simp [size]

theorem mem_beginnings {node : Params} {k name : Str} (hk : k ∈ node.keys) (hpre : name <+: k)
    (hne : name ≠ []) : name ∈ beginnings node := by
  have hinits : k.inits = [] :: k.inits.tail := by cases k <;> simp
  have hmem := (List.mem_inits name k).mpr hpre
  rw [hinits] at hmem
  exact List.mem_flatMap.mpr ⟨k, hk, (List.mem_cons.mp hmem).resolve_left hne⟩

/-- A member that is found has a key that begins with its name. -/
theorem name_mem_beginnings {parse : ι → Params → Except Error Value} {name : Str} {s : ι}
    {node : Params} {v : Value} (hne : name ≠ [])
    (h : process_member view isoparse parse name s node = .ok v) (hv : v ≠ .none) :
    name ∈ beginnings node := by
  by_cases hs : IsScalar view s
  · obtain ⟨ser, t, hs⟩ := hs
    rw [process_member_scalar hs] at h
    cases hn : node.get name with
    | none =>
      rw [hn] at h
      cases h
      exact absurd rfl hv
    | some text =>
      have hk := Dict.mem_keys_of_mem (Dict.mem_of_get hn)
      exact mem_beginnings hk (List.prefix_refl _) hne
  · rw [process_member_container hs, filter_node_eq] at h
    by_cases hcut : cut name node = []
    · rw [if_pos hcut] at h
      cases h
      exact absurd rfl hv
    · obtain ⟨q, hq⟩ := List.exists_mem_of_ne_nil _ hcut
      obtain ⟨p, hp, hpre, -⟩ := mem_cut.mp hq
      exact mem_beginnings (Dict.mem_keys_of_mem hp) hpre hne

/-- Among as many indexes as the keys have beginnings there is one without a
value, when different indexes have different names. -/
theorem exists_missing {parse : ι → Params → Except Error Value} {s : ι} {node : Params}
    {name : Nat → Str} (hinj : Function.Injective name) (hne : ∀ i, name i ≠ []) :
    ∃ j, j < size node + 1 ∧ ¬∃ v,
      process_member view isoparse parse (name (1 + j)) s node = .ok v ∧ v ≠ .none := by
  by_contra hall
  push Not at hall
  have hsub : (List.range (size node + 1)).map (fun j => name (1 + j)) ⊆ beginnings node := by
    intro n hn
    obtain ⟨j, hj, rfl⟩ := List.mem_map.mp hn
    obtain ⟨v, hp, hv⟩ := hall j (List.mem_range.mp hj)
    exact name_mem_beginnings (hne _) hp hv
  have hinj' : Function.Injective fun j => name (1 + j) :=
    fun a b hab => Nat.add_left_cancel (hinj hab)
  have hle := (List.subperm_of_subset (List.nodup_range.map hinj') hsub).length_le
  rw [length_beginnings, List.length_map, List.length_range] at hle
  omega

theorem list_key_injective (ser : Serialization) (m : ι) :
    Function.Injective (list_key view ser m) :=
  fun _ _ h => natToStr_injective (List.append_cancel_left h)

theorem map_key_injective (ser : Serialization) (name : Str) :
    Function.Injective fun i => map_key ser i name :=
  fun _ _ h => natToStr_injective (List.append_cancel_left (List.append_cancel_right h))

/-! ## Every call ends -/

theorem present_of_ne {v : Value} (hv : v ≠ .none) : present v = some v := by
  rw [present, if_neg]
  rwa [Value.isNone_iff]

section

variable {parse : ι → Params → Except Error Value} {node : Params}

/-- The loop of a list ends with the first index that is not found. -/
theorem runs_list {ser : Serialization} {m : ι}
    (hmember : ∀ i, Runs view isoparse (.member (list_key view ser m i) m node)
      (process_member view isoparse parse (list_key view ser m i) m node)) {fuel i : Nat}
    (hend : ∃ j, j < fuel ∧ ¬∃ v, process_member view isoparse parse
      (list_key view ser m (i + j)) m node = .ok v ∧ v ≠ .none) :
    Runs view isoparse (.list ser m node i) (collect (fun i => do
      return present (← process_member view isoparse parse (list_key view ser m i) m node))
      fuel i) := by
  induction fuel generalizing i with
  | zero =>
    obtain ⟨j, hj, -⟩ := hend
    omega
  | succ fuel ih =>
    have hi := hmember i
    rw [collect]
    cases hp : process_member view isoparse parse (list_key view ser m i) m node with
    | error e =>
      rw [hp] at hi
      exact .list_raise hi
    | ok v =>
      rw [hp] at hi
      by_cases hv : v = .none
      · subst hv
        exact .list_break hi
      · simp only [bind, Except.bind, pure, Except.pure, present_of_ne hv]
        refine .list_next hi hv (ih ?_)
        obtain ⟨j, hj, hnot⟩ := hend
        cases j with
        | zero => exact absurd ⟨v, hp, hv⟩ hnot
        | succ j => exact ⟨j, by omega, by rwa [Nat.add_assoc, Nat.add_comm 1]⟩

theorem runs_map {ser key : Serialization} {s : ι}
    (hmember : ∀ i, Runs view isoparse (.member (map_key ser i (value_name view s)) s node)
      (process_member view isoparse parse (map_key ser i (value_name view s)) s node))
    {fuel i : Nat}
    (hend : ∃ j, j < fuel ∧ ¬∃ v, process_member view isoparse parse
      (map_key ser (i + j) (value_name view s)) s node = .ok v ∧ v ≠ .none) :
    Runs view isoparse (.map ser key s node i) (collect (fun i => do
      let k := node.get (map_key ser i (key_name key))
      let v ← process_member view isoparse parse (map_key ser i (value_name view s)) s node
      return match k, present v with
        | some k, some v => some (k, v)
        | _, _ => none) fuel i) := by
  induction fuel generalizing i with
  | zero =>
    obtain ⟨j, hj, -⟩ := hend
    omega
  | succ fuel ih =>
    have hi := hmember i
    rw [collect]
    cases hp : process_member view isoparse parse (map_key ser i (value_name view s)) s node with
    | error e =>
      rw [hp] at hi
      exact .map_raise hi
    | ok v =>
      rw [hp] at hi
      cases hk : node.get (map_key ser i (key_name key)) with
      | none => exact .map_break hi (.inl hk)
      | some k =>
        by_cases hv : v = .none
        · subst hv
          exact .map_break hi (.inr rfl)
        · simp only [bind, Except.bind, pure, Except.pure, present_of_ne hv]
          refine .map_next hi hk hv (ih ?_)
          obtain ⟨j, hj, hnot⟩ := hend
          cases j with
          | zero => exact absurd ⟨v, hp, hv⟩ hnot
          | succ j => exact ⟨j, by omega, by rwa [Nat.add_assoc, Nat.add_comm 1]⟩

theorem runs_members {required : List Str} {ms : List (Str × ι)}
    (hmember : ∀ p ∈ ms, Runs view isoparse (.member (structure_key view p.1 p.2) p.2 node)
      (process_member view isoparse parse (structure_key view p.1 p.2) p.2 node)) :
    Runs view isoparse (.members required ms node)
      (parseMembers view isoparse parse required ms node) := by
  induction ms with
  | nil => exact .members_nil
  | cons p ms ih =>
    obtain ⟨member, s⟩ := p
    obtain ⟨hp, hms⟩ := List.forall_mem_cons.mp hmember
    rw [parseMembers]
    cases hr : process_member view isoparse parse (structure_key view member s) s node with
    | error e =>
      rw [hr] at hp
      exact .members_raise hp
    | ok v =>
      rw [hr] at hp
      have hcons := Runs.members_cons hp (ih hms)
      cases hq : parseMembers view isoparse parse required ms node with
      | error e =>
        rw [hq] at hcons
        exact hcons
      | ok result =>
        rw [hq] at hcons
        simp only [bind, Except.bind, pure, Except.pure]
        split <;> simpa [*, Except.map] using hcons

theorem runs_member {name : Str} {s : ι}
    (hshape : ∀ sub_node, filter_node name node = some sub_node →
      Runs view isoparse (.shape s sub_node) (parse s sub_node)) :
    Runs view isoparse (.member name s node) (process_member view isoparse parse name s node) := by
  by_cases hs : IsScalar view s
  · have ⟨ser, t, hview⟩ := hs
    rw [process_member_scalar hview]
    cases hn : node.get name with
    | none => exact .member_missing hs hn
    | some text => exact .member_text hview hn
  · rw [process_member_container hs]
    cases hn : filter_node name node with
    | none => exact .member_empty hs hn
    | some sub_node => exact .member_filtered hs hn (hshape sub_node hn)

end

theorem NamesMembers.list {s m : ι} {ser : Serialization} (h : NamesMembers view s)
    (hs : view s = .list ser m) : NamesMembers view m :=
  fun t _ _ _ ht => h t _ _ _ (.list hs ht)

theorem NamesMembers.map {s v : ι} {ser key : Serialization} (h : NamesMembers view s)
    (hs : view s = .map ser key v) : NamesMembers view v :=
  fun t _ _ _ ht => h t _ _ _ (.map hs ht)

theorem NamesMembers.member {s : ι} {ser : Serialization} {traits : StructureTraits}
    {ms : List (Str × ι)} {p : Str × ι} (h : NamesMembers view s)
    (hs : view s = .struct ser traits ms) (hp : p ∈ ms) : NamesMembers view p.2 :=
  fun t _ _ _ ht => h t _ _ _ (.member hs hp ht)

/-- The bounded parser is a run of the unbounded one. -/
theorem runs_parse_shape {s : ι} (hnames : NamesMembers view s) (node : Params) :
    Runs view isoparse (.shape s node) (parse_shape view isoparse s node) := by
  -- the keys get shorter with every name that is taken off
  induction hn : size node using Nat.strong_induction_on generalizing s node with
  | _ n ih =>
    have hmember : ∀ name t, name ≠ [] → NamesMembers view t →
        Runs view isoparse (.member name t node)
          (process_member view isoparse (parse_shape view isoparse) name t node) :=
      fun name t hne ht => runs_member fun sub_node hsub =>
        ih _ (hn ▸ size_filter_node hne hsub) ht sub_node rfl
    rw [parse_shape_eq hnames, parseNode]
    cases hs : view s with
    | scalar ser t => exact .scalar hs
    | list ser m =>
      have hm := hnames.list hs
      exact .list hs (runs_list (fun i => hmember _ m (list_key_ne_nil ser m i) hm)
        (exists_missing (list_key_injective ser m) (list_key_ne_nil ser m)))
    | map ser key v =>
      have hv := hnames.map hs
      exact .map hs (runs_map (fun i => hmember _ v (map_key_ne_nil ser i _) hv)
        (exists_missing (map_key_injective ser _) fun i => map_key_ne_nil ser i _))
    | struct ser traits ms =>
      refine .struct hs (runs_members fun p hp => ?_)
      exact hmember _ p.2 (hnames s ser traits ms (.refl s) hs p hp) (hnames.member hs hp)

/-- **Termination.** Every node is parsed in a run that ends, and there is no
other one. -/
theorem parse_shape_ends {s : ι} (hnames : NamesMembers view s) (node : Params) :
    ∃! r, Runs view isoparse (.shape s node) r :=
  ⟨_, runs_parse_shape hnames node, fun _ h => h.unique (runs_parse_shape hnames node)⟩

/-- A structure with a required list of structures of its own kind. -/
def treeOfNodes : Bool → ShapeNode Bool
  | true => .struct {} { required_members := ["Children".toList] } [("Children".toList, false)]
  | false => .list {} true

theorem treeOfNodes_names (s : Bool) : NamesMembers treeOfNodes s := by
  intro t ser traits ms _ ht p hp
  cases t with
  | false => cases ht
  | true =>
    cases ht
    obtain rfl := List.mem_singleton.mp hp
    decide

theorem parse_shape_ends_treeOfNodes :
    ∃! r, Runs treeOfNodes (fun _ => .error .valueError)
      (.shape true [("Children.member.1.Children.member.1".toList, "x".toList)]) r :=
  parse_shape_ends (treeOfNodes_names true) _

end LocalStack.Aws.Protocol.Query
