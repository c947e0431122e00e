import LocalStack.Aws.Protocol.QueryNodes

/-! The parameters of a value are parsed back to it, level by level: each member,
element and entry finds its own parameters in the node, and strays that its shape
does not read. -/

namespace LocalStack.Aws.Protocol.Query
open LocalStack.Lists LocalStack.Text LocalStack.Decimal LocalStack.OrderedDict
open LocalStack.Aws.Protocol.Parser

variable {N : Naming}

/-! ## Lists of lists -/

/-- Some value of the shape has parameters. -/
inductive Fillable : Shape → Prop
  | scalar {ser t} : Fillable (.scalar ser t)
  | list {ser m} : Fillable m → Fillable (.list ser m)
  | map {ser key s} : Fillable s → Fillable (.map ser key s)
  | struct {ser traits ms p} : p ∈ ms → Fillable p.2 → Fillable (.struct ser traits ms)

/-- The lists in a list are not flattened lists of structures with required members. -/
def QuietList : Shape → Prop
  | .list _ (.list ser (.struct ser' traits members)) =>
    ser.flattened = true → Fillable (.struct ser' traits members) →
      ∀ p ∈ members, p.1 ∉ traits.required_members
  | _ => True

/-- No name below the elements of a list could be taken for an index. -/
def NamedList (N : Naming) : Shape → Prop
  | .list _ member => Named N member
  | _ => True

theorem quiet_of_quietList {ser : Serialization} {m : Shape}
    (h : (Shape.list ser m).All QuietList) (hm : Fillable m) : Quiet m := by
  induction m using Shape.induct generalizing ser with
  | list ser' m' ih =>
    intro hflat
    cases hm with
    | list hm' =>
      have hquiet := ih h.list_member hm'
      cases m' with
      | struct => exact h.self hflat hm'
      | _ => exact hquiet
  | _ => trivial

theorem fillable_of_norm {s : Shape} {v : Value} (ht : Typed formValues s v) (hl : s.All (Lawful N))
    (h : norm s v ≠ .none) : Fillable s := by
  induction ht with
  | scalar => exact .scalar
  | @list ser m vs _ helement _ ih =>
    cases vs with
    | nil => exact absurd rfl h
    | cons v vs =>
      exact .list (ih v List.mem_cons_self hl.list_member (helement v List.mem_cons_self))
  | @map ser key s d _ _ _ helement _ ih =>
    cases d with
    | nil => exact absurd rfl h
    | cons p d =>
      exact .map (ih p List.mem_cons_self hl.map_value (helement p List.mem_cons_self))
  | @struct ser traits ms d _ _ _ _ _ hnone _ ih =>
    rw [Ne, norm_struct_eq_none] at h
    push Not at h
    obtain ⟨p, hp, v, hv, hnorm⟩ := h
    exact .struct hp (ih p.1 p.2 v (Dict.get_of_mem hl.self.1 hp) hv
      (fun hn => hnone p.1 (hn ▸ hv)) (hl.struct_member p hp) hnorm)

/-! ## Names of members -/

/-- A member that can have parameters is sent below the name that it is looked for. -/
def FoundByName (N : Naming) : Shape → Prop
  | .struct _ _ members =>
    ∀ p ∈ members, Fillable p.2 → N.key p.1 p.2 = structure_key treeView p.1 p.2
  | _ => True

/-- A member that is looked for below another name can have parameters, or never has a
value. -/
def Decided (N : Naming) : Shape → Prop
  | .struct _ _ members =>
    ∀ p ∈ members, N.key p.1 p.2 ≠ structure_key treeView p.1 p.2 → Live treeView p.2 →
      Fillable p.2
  | _ => True

theorem foundByName_of_key_eq {ser : Serialization} {traits : StructureTraits}
    {ms : List (Str × Shape)} (h : ∀ p ∈ ms, N.key p.1 p.2 = structure_key treeView p.1 p.2) :
    FoundByName N (.struct ser traits ms) := fun p hp _ => h p hp

theorem decided_of_key_eq {ser : Serialization} {traits : StructureTraits}
    {ms : List (Str × Shape)} (h : ∀ p ∈ ms, N.key p.1 p.2 = structure_key treeView p.1 p.2) :
    Decided N (.struct ser traits ms) := fun p hp hne => absurd (h p hp) hne

theorem live_of_fillable {s : Shape} (h : Fillable s) : Live treeView s := by
  induction h with
  | scalar => exact .scalar rfl
  | list _ ih => exact .list rfl ih
  | map _ ih => exact .map rfl ih
  | struct hp _ ih => exact .member rfl hp ih

theorem all_heard {s : Shape} (hfound : s.All (FoundByName N)) (hdecided : s.All (Decided N)) :
    s.All (Heard N) := by
  induction s using Shape.induct with
  | scalar ser t => exact .scalar trivial
  | list ser m ih => exact .list trivial (ih hfound.list_member hdecided.list_member)
  | map ser key s ih => exact .map trivial (ih hfound.map_value hdecided.map_value)
  | struct ser traits ms ih =>
    refine .struct (fun p hp => ?_) fun p hp =>
      ih p hp (hfound.struct_member p hp) (hdecided.struct_member p hp)
    by_cases hkey : N.key p.1 p.2 = structure_key treeView p.1 p.2
    · exact Or.inl hkey
    · exact Or.inr fun hlive => hkey (hfound.self p hp (hdecided.self p hp hkey hlive))

theorem heard_own (s : Shape) : s.All (Heard .parser) := by
  induction s using Shape.induct with
  | scalar ser t => exact .scalar trivial
  | list ser m ih => exact .list trivial ih
  | map ser key s ih => exact .map trivial ih
  | struct ser traits ms ih => exact .struct (fun _ _ => Or.inl rfl) ih

/-! ## Members -/

section

variable {isoparse : IsoParse}

theorem parseScalar_formText {ser : Serialization} {t : ScalarType} {v : Value}
    (h : formValues.scalar ser t v) :
    wrapErrors (parseScalar isoparse .iso8601 ser (.str (formText v)) t) = .ok v := by
  rw [wrapErrors_eq_ok]
  cases t <;> cases v <;> try (exact h.elim)
  · rfl
  · simp [parseScalar, parse_integer, formText, Except.map]
  · simp [parseScalar, parse_integer, formText, Except.map]
  · rename_i b
    cases b <;> rfl
  · simp [parseScalar, parse_blob, formText, Base64.b64decode_b64encode, orValueError, Except.map]

/-- A member that is absent. -/
theorem process_member_absent {parse : Shape → Params → Except Error Value} {name : Str} {s : Shape}
    {node : Params} (hscalar : IsScalar treeView s → name ∉ node.keys)
    (hcontainer : ¬ IsScalar treeView s → ∀ k ∈ node.keys, ¬ name <+: k) :
    process_member treeView isoparse parse name s node = .ok .none := by
  by_cases hs : IsScalar treeView s
  · exact process_member_scalar_none hs (hscalar hs)
  · exact process_member_none (hcontainer hs)

/-- A member is parsed to its value, when no key can be taken for one of its own. -/
theorem process_member_flatten {parse : Shape → Params → Except Error Value} {name : Str}
    {s : Shape} {v : Value} {node : Params} (hl : s.All (Lawful N)) (ht : Typed formValues s v)
    (hparse : ¬ IsScalar treeView s → flatten N s v ≠ [] → ∀ sub_node, Covers N s v sub_node →
      parse s sub_node = .ok (norm s v))
    (hwf : node.WF) (hhas : ∀ p ∈ flatten N s v, (join name p.1, p.2) ∈ node)
    (honly : ¬ IsScalar treeView s → ∀ k ∈ node.keys, name <+: k →
      (∃ k' ∈ Dict.keys (flatten N s v), k = join name k') ∨
        norm s v ≠ .none ∧ Stray N s (k.drop (name.length + 1))) :
    process_member treeView isoparse parse name s node = .ok (norm s v) := by
  by_cases hs : IsScalar treeView s
  · cases ht with
    | @scalar ser t v hv =>
      have hget := Dict.get_of_mem hwf (hhas ([], formText v) (by simp [flatten]))
      have hview : treeView (.scalar ser t) = .scalar ser t := rfl
      rw [join_nil] at hget
      rw [process_member_scalar hview, hget]
      simpa [norm] using parseScalar_formText hv
    | _ =>
      obtain ⟨ser, t, h⟩ := hs
      cases h
  · have hiff := flatten_eq_nil_iff ht hl
    by_cases hne : flatten N s v = []
    · rw [hiff.mp hne]
      refine process_member_none fun k hk hname => ?_
      rcases honly hs k hk hname with ⟨k', hk', -⟩ | ⟨hnone, -⟩
      · simp [hne] at hk'
      · exact hnone (hiff.mp hne)
    · obtain ⟨sub_node, hsub, hcovers⟩ := covers_filter_node hl hs hne hwf hhas
        fun k hk hname => (honly hs k hk hname).imp_right And.right
      rw [process_member_container hs, hsub]
      exact hparse hs hne sub_node hcovers

theorem parseMembers_eq_normMembers {parse : Shape → Params → Except Error Value}
    {required : List Str} {ms : List (Str × Shape)} {node : Params} {d : Dict Str Value}
    (h : ∀ p ∈ ms, process_member treeView isoparse parse (structure_key treeView p.1 p.2) p.2 node =
      .ok (normMember p.2 (d.get p.1))) :
    parseMembers treeView isoparse parse required ms node = .ok (normMembers required ms d) := by
  induction ms with
  | nil => rfl
  | cons p ms ih =>
    obtain ⟨n, s⟩ := p
    obtain ⟨hp, hms⟩ := List.forall_mem_cons.mp h
    simp only [parseMembers, normMembers_cons, hp, ih hms, bind, Except.bind, pure, Except.pure]
    exact (apply_ite Except.ok _ _ _).symm

/-- The keys of a structure's node that begin like those of a member are its own. -/
theorem struct_key_cases {ser : Serialization} {traits : StructureTraits}
    {ms : List (Str × Shape)} (hl : Lawful N (.struct ser traits ms)) {d : Dict Str Value}
    {node : Params} (hc : Covers N (.struct ser traits ms) (.dict d) node) {p : Str × Shape}
    (hp : p ∈ ms) (hs : ¬ IsScalar treeView p.2) {k : Str} (hk : k ∈ node.keys)
    (hpre : N.key p.1 p.2 <+: k) :
    ∃ v, d.get p.1 = some v ∧ ∃ k' ∈ Dict.keys (flatten N p.2 v),
      k = join (N.key p.1 p.2) k' := by
  rcases hc.only k hk with hmem | ⟨hn, -, hlt⟩
  · obtain ⟨p', hp', v, hv, k', hk', rfl⟩ := keys_flatten_struct.mp hmem
    have hname := prefix_of_prefix_join (hl.2.1 p hp).1.2 hpre
    obtain rfl : p = p' := by
      by_contra hne
      refine hl.2.2 p hp p' hp' (fun he => hne ?_) hname
      exact Prod.ext he (Option.some.inj
        ((Dict.get_of_mem hl.1 hp).symm.trans (he ▸ Dict.get_of_mem hl.1 hp')))
    exact ⟨v, hv, k', hk', rfl⟩
  · rw [digitDepth_of_starts (hl.2.1 p hp).1.2 ((hn p hp).resolve_left hs) hpre] at hlt
    exact absurd hlt (Nat.not_lt_zero _)

/-- A scalar member has a parameter only when it is set. -/
theorem struct_scalar_key {ser : Serialization} {traits : StructureTraits}
    {ms : List (Str × Shape)} (hl : Lawful N (.struct ser traits ms)) {d : Dict Str Value}
    {node : Params} (hc : Covers N (.struct ser traits ms) (.dict d) node) {p : Str × Shape}
    (hp : p ∈ ms) (hk : N.key p.1 p.2 ∈ node.keys) : p.1 ∈ d.keys := by
  rcases hc.only _ hk with hmem | ⟨-, -, hlt⟩
  · obtain ⟨p', hp', v, hv, k', -, hkey⟩ := keys_flatten_struct.mp hmem
    have he : p'.1 = p.1 := by
      by_contra hne
      exact structure_key_ne hl hp' hp hne k' [] (hkey.symm.trans (join_nil _).symm)
    exact he ▸ Dict.mem_keys_of_mem (Dict.mem_of_get hv)
  · rw [digitDepth_eq_zero (hl.2.1 p hp).1.2] at hlt
    exact absurd hlt (Nat.not_lt_zero _)

theorem parseMembers_flatten {ser : Serialization} {traits : StructureTraits}
    {ms : List (Str × Shape)} {d : Dict Str Value} {node : Params}
    (hl : (Shape.struct ser traits ms).All (Lawful N)) (hheard : Heard N (.struct ser traits ms))
    (ht : Typed formValues (.struct ser traits ms) (.dict d))
    (hc : Covers N (.struct ser traits ms) (.dict d) node)
    (hparse : ∀ p ∈ ms, ∀ v, Typed formValues p.2 v → ¬ IsScalar treeView p.2 →
      flatten N p.2 v ≠ [] → ∀ sub_node, Covers N p.2 v sub_node →
        parse_shape treeView isoparse p.2 sub_node = .ok (norm p.2 v)) :
    parseMembers treeView isoparse (parse_shape treeView isoparse) traits.required_members ms node =
      .ok (normMembers traits.required_members ms d) := by
  refine parseMembers_eq_normMembers fun p hp => ?_
  have htyped : ∀ v, d.get p.1 = some v → Typed formValues p.2 v := by
    intro v hv
    cases ht with
    | struct _ _ _ _ _ hnone hmember =>
      exact hmember p.1 p.2 v (Dict.get_of_mem hl.self.1 hp) hv fun hn => hnone p.1 (hn ▸ hv)
  rcases hheard p hp with hkey | hlive
  · rw [← hkey]
    rcases hv : d.get p.1 with _ | v
    · have habsent := (Dict.get_eq_none_iff d p.1).mp hv
      refine process_member_absent (fun _ hk => habsent (struct_scalar_key hl.self hc hp hk))
        fun hs k hk hpre => ?_
      obtain ⟨v, hsome, -⟩ := struct_key_cases hl.self hc hp hs hk hpre
      rw [hv] at hsome
      cases hsome
    · refine process_member_flatten (hl.struct_member p hp) (htyped v hv)
        (hparse p hp v (htyped v hv)) hc.wf (fun q hq => hc.has _ ?_) fun hs k hk hpre => ?_
      · rw [flatten]
        exact mem_flattenMembers.mpr ⟨p, hp, v, hv, mem_under.mpr ⟨q, hq, rfl⟩⟩
      · obtain ⟨w, hw, hmem⟩ := struct_key_cases hl.self hc hp hs hk hpre
        rw [hv, Option.some.injEq] at hw
        subst hw
        exact Or.inl hmem
  -- the member has no value, whatever is below the name that it is looked for
  · have hnorm : normMember p.2 (d.get p.1) = .none := by
      rcases hv : d.get p.1 with _ | v
      · rfl
      · by_contra hne
        exact hlive (live_of_fillable (fillable_of_norm (htyped v hv) (hl.struct_member p hp) hne))
    rw [hnorm]
    exact process_member_not_live (hl.struct_member p hp) hlive _ _

/-! ## Every shape -/

theorem norm_struct {ser : Serialization} {traits : StructureTraits} {ms : List (Str × Shape)}
    {d : Dict Str Value} (h : norm (.struct ser traits ms) (.dict d) ≠ .none) :
    norm (.struct ser traits ms) (.dict d) = .dict (normMembers traits.required_members ms d) := by
  rw [norm] at h ⊢
  split at h
  · exact absurd rfl h
  · next hall => exact if_neg hall

theorem norm_list {ser : Serialization} {m : Shape} {vs : List Value} (h : vs ≠ []) :
    norm (.list ser m) (.list vs) = .list (vs.map fun v => norm m v) := by
  cases vs with
  | nil => exact absurd rfl h
  | cons v vs => simp [norm]

theorem length_le_numbered (pss : List (List (Str × Str))) (h : ∀ ps ∈ pss, ps ≠ []) (i : Nat) :
    pss.length ≤ (numbered i pss).length := by
  induction pss generalizing i with
  | nil => exact Nat.zero_le _
  | cons ps pss ih =>
    rw [List.forall_mem_cons] at h
    have hpos := List.length_pos_iff.mpr h.1
    have hle := ih h.2 (i + 1)
    simp only [numbered, under, List.length_append, List.length_map, List.length_cons]
    omega

theorem length_level (ser : Serialization) (name : Str) (ps : List (Str × Str)) :
    (level ser name ps).length = ps.length := by
  rw [level]
  split
  · rfl
  · simp [under]

theorem Covers.length_le {s : Shape} {v : Value} {node : Params} (hs : ¬ IsScalar treeView s)
    (hl : s.All (Lawful N)) (hc : Covers N s v node) : (flatten N s v).length ≤ size node :=
  length_le_size (wf_flatten hl v) fun p hp => ⟨flatten_key_ne_nil hs hl.self v p hp, hc.has p hp⟩

/-- Every value of a container that has parameters is parsed back from them. -/
def Parses (N : Naming) (isoparse : IsoParse) (s : Shape) : Prop :=
  ¬ IsScalar treeView s → ∀ v, Typed formValues s v → flatten N s v ≠ [] →
    ∀ node, Covers N s v node → parse_shape treeView isoparse s node = .ok (norm s v)

/-- The elements of a list are parsed one after the other, and behind the last one
there is none. -/
theorem parses_list {ser : Serialization} {m : Shape} (hl : (Shape.list ser m).All (Lawful N))
    (hheard : m.All (Heard N)) (hnamed : Named N m) (hquiet : (Shape.list ser m).All QuietList)
    (ih : Parses N isoparse m) :
    Parses N isoparse (.list ser m) := by
  intro hs v ht hne node hc
  cases ht with
  | @list _ _ vs _ helement htyped =>
    have hnil : vs ≠ [] := by
      rintro rfl
      exact hne (by simp [flatten, numbered, level_eq_nil])
    have hquiet_m : Quiet m := by
      obtain ⟨v, hv⟩ := List.exists_mem_of_ne_nil _ hnil
      exact quiet_of_quietList hquiet (fillable_of_norm (htyped v hv) hl.list_member (helement v hv))
    have hstep : ∀ j w, (vs.map fun v => norm m v)[j]? = some w → w ≠ .none ∧
        process_member treeView isoparse (parse_shape treeView isoparse)
          (list_key treeView ser m (j + 1)) m node = .ok w := by
      intro j w hw
      rw [List.getElem?_map, Option.map_eq_some_iff] at hw
      obtain ⟨v, hv, rfl⟩ := hw
      have hmem := List.mem_of_getElem? hv
      refine ⟨helement v hmem, process_member_flatten hl.list_member (htyped v hmem)
        (fun hm hflat => ih hm v (htyped v hmem) hflat) hc.wf (fun p hp => hc.has _ ?_)
        fun hm k hk hpre => ?_⟩
      · exact mem_flatten_list.mpr ⟨j, v, hv, mem_under.mpr ⟨p, hp, rfl⟩⟩
      · rcases list_key_cases hm hl hnamed hquiet_m hc j hk hpre with ⟨w, hw, hown⟩ | ⟨hstray, -⟩
        · rw [hv, Option.some.injEq] at hw
          subst hw
          exact Or.inl hown
        · exact Or.inr ⟨helement v hmem, hstray⟩
    have hend : process_member treeView isoparse (parse_shape treeView isoparse)
        (list_key treeView ser m (vs.length + 1)) m node = .ok .none := by
      by_cases hm : IsScalar treeView m
      · exact process_member_scalar_none hm (list_key_end hm hl.self hc)
      · have hlast : ∀ k ∈ node.keys, list_key treeView ser m (vs.length + 1) <+: k →
            Stray N m (k.drop ((list_key treeView ser m (vs.length + 1)).length + 1)) ∧
              Silent m := by
          intro k hk hpre
          rcases list_key_cases hm hl hnamed hquiet_m hc vs.length hk hpre with
            ⟨w, hw, -⟩ | ⟨hstray, hlt | hsilent⟩
          · simp at hw
          · exact absurd hlt (Nat.lt_irrefl _)
          · exact ⟨hstray, hsilent⟩
        by_cases hsilent : Silent m
        · rw [process_member_container hm]
          rcases hsub : filter_node (list_key treeView ser m (vs.length + 1)) node with _ | sub_node
          · rfl
          · refine parse_silent hm hl.list_member hheard hnamed hsilent fun k hk => ?_
            obtain ⟨k', hk', hpre, rfl⟩ := mem_keys_filter_node hsub hk
            exact (hlast k' hk' hpre).1.2.2
        · exact process_member_none fun k hk hpre => hsilent (hlast k hk hpre).2
    have hlen : vs.length ≤ size node := by
      have hle := length_le_numbered (vs.map fun v => flatten N m v) (fun ps hps => by
        obtain ⟨v, hv, rfl⟩ := List.mem_map.mp hps
        exact mt (flatten_eq_nil_iff (htyped v hv) hl.list_member).mp (helement v hv)) 1
      have hsize := hc.length_le hs hl
      rw [flatten, length_level] at hsize
      rw [List.length_map] at hle
      exact hle.trans hsize
    rw [parse_list_eq ser m node hl _ hstep (by rw [List.length_map]; exact hend)
      (by rw [List.length_map]; exact hlen)]
    rw [norm_list hnil, if_neg (by simpa using hnil)]

theorem parses_map {ser key : Serialization} {s : Shape} (hl : (Shape.map ser key s).All (Lawful N))
    (ih : Parses N isoparse s) : Parses N isoparse (.map ser key s) := by
  intro hs v ht hne node hc
  obtain ⟨hkey, hvalue, -⟩ := hl.self
  cases ht with
  | @map _ _ _ d _ hwf _ helement htyped =>
    have hstep : ∀ j p, (d.map fun p => (p.1, norm s p.2))[j]? = some p → p.2 ≠ .none ∧
        node.get (map_key ser (j + 1) (key_name key)) = some p.1 ∧
        process_member treeView isoparse (parse_shape treeView isoparse)
          (map_key ser (j + 1) (value_name treeView s)) s node = .ok p.2 := by
      intro j p hp
      rw [List.getElem?_map, Option.map_eq_some_iff] at hp
      obtain ⟨p, hp, rfl⟩ := hp
      have hmem := List.mem_of_getElem? hp
      refine ⟨helement p hmem, Dict.get_of_mem hc.wf (hc.has _ ?_),
        process_member_flatten hl.map_value (htyped p hmem)
          (fun hs hflat => ih hs p.2 (htyped p hmem) hflat) hc.wf (fun q hq => hc.has _ ?_)
          fun hs k hk hpre => ?_⟩
      · exact (mem_flatten_map hl.self).mpr ⟨j, p, hp, Or.inl rfl⟩
      · exact (mem_flatten_map hl.self).mpr ⟨j, p, hp, Or.inr (mem_under.mpr ⟨q, hq, rfl⟩)⟩
      · obtain ⟨q, hq, hown⟩ := map_value_cases hs hl.self hc hk hpre
        rw [hp, Option.some.injEq] at hq
        subst hq
        exact Or.inl hown
    have hend : process_member treeView isoparse (parse_shape treeView isoparse)
        (map_key ser (d.length + 1) (value_name treeView s)) s node = .ok .none := by
      refine process_member_absent
        (fun _ hk => absurd (map_key_end hl.self hc hvalue hk) (Nat.lt_irrefl _))
        fun hs k hk hpre => ?_
      obtain ⟨q, hq, -⟩ := map_value_cases hs hl.self hc hk hpre
      simp at hq
    have hlen : d.length ≤ size node := by
      have hle := length_le_numbered (d.map fun p => (key_name key, p.1) ::
        under (value_name treeView s) (flatten N s p.2)) (fun ps hps => by
          obtain ⟨p, -, rfl⟩ := List.mem_map.mp hps
          simp) 1
      have hsize := hc.length_le hs hl
      rw [flatten, length_level] at hsize
      rw [List.length_map] at hle
      exact hle.trans hsize
    rw [parse_map_eq ser key s node hl _ hstep
      (by
        rw [List.length_map, Dict.get_eq_none_iff]
        exact fun hk => absurd (map_key_end hl.self hc hkey hk) (Nat.lt_irrefl _))
      (by rw [List.length_map]; exact hend) (by rw [List.length_map]; exact hlen)]
    cases d with
    | nil => exact absurd (by simp [flatten, numbered, level_eq_nil]) hne
    | cons p d =>
      rw [if_neg (by simp), Dict.ofPairs_of_wf, norm]
      · simp
      · rw [Dict.WF, Dict.keys, List.map_map]
        exact hwf

theorem parses_struct {ser : Serialization} {traits : StructureTraits} {ms : List (Str × Shape)}
    (hl : (Shape.struct ser traits ms).All (Lawful N)) (hheard : Heard N (.struct ser traits ms))
    (ih : ∀ p ∈ ms, Parses N isoparse p.2) :
    Parses N isoparse (.struct ser traits ms) := by
  intro hs v ht hne node hc
  have hnorm := mt (flatten_eq_nil_iff ht hl).mpr hne
  have htyped := ht
  cases ht with
  | @struct _ _ _ d _ _ _ _ _ _ _ =>
    rw [parse_struct_eq hl, parseMembers_flatten hl hheard htyped hc fun p hp v htv hs hflat =>
      ih p hp hs v htv hflat]
    rw [Except.map, wrapErrors_ok, norm_struct hnorm, if_neg fun hnil => hnorm ?_]
    rw [norm, hnil]
    rfl

/-- **Flattened values are parsed back.** -/
theorem parse_flatten {s : Shape} (hl : s.All (Lawful N)) (hheard : s.All (Heard N))
    (hnamed : s.All (NamedList N)) (hquiet : s.All QuietList) : Parses N isoparse s := by
  induction s using Shape.induct with
  | scalar ser t => exact fun hs => absurd (isScalar_scalar ser t) hs
  | list ser m ih =>
    exact parses_list hl hheard.list_member hnamed.self hquiet
      (ih hl.list_member hheard.list_member hnamed.list_member hquiet.list_member)
  | map ser key s ih =>
    exact parses_map hl (ih hl.map_value hheard.map_value hnamed.map_value hquiet.map_value)
  | struct ser traits ms ih =>
    exact parses_struct hl hheard.self fun p hp => ih p hp (hl.struct_member p hp)
      (hheard.struct_member p hp) (hnamed.struct_member p hp) (hquiet.struct_member p hp)

end

end LocalStack.Aws.Protocol.Query
