import LocalStack.Aws.Protocol.SqsSimulation

/-! Maps of a request come back in both spellings, below the serialized name and
below the name of the member, when their values have quiet lists only. -/

namespace LocalStack.Aws.Protocol.SqsAliases
open LocalStack.Text LocalStack.Decimal LocalStack.OrderedDict
open LocalStack.Aws.Protocol.Parser LocalStack.Aws.Protocol.Query

/-! ## Whole requests -/

/-- The parameters of a written value, in any order, and foreign ones. -/
structure Request (σ : Spelling) (s : Shape) (v : Value) (params : Params) : Prop where
  wf : params.WF
  has : ∀ q ∈ flatten .parser (spell σ s) v, q ∈ params
  only : ∀ q ∈ params, q ∈ flatten .parser (spell σ s) v ∨ Foreign s q.1

theorem Request.carries {σ : Spelling} {s : Shape} {v : Value} {params : Params}
    (h : Request σ s v params) : Carries σ s v params := by
  refine ⟨fun k hk => ?_, fun k hk => ?_⟩
  · obtain ⟨q, hq, rfl⟩ := List.mem_map.mp hk
    exact Dict.mem_keys_of_mem (h.has q hq)
  · obtain ⟨q, hq, rfl⟩ := List.mem_map.mp hk
    exact (h.only q hq).imp Dict.mem_keys_of_mem Or.inr

theorem request_flatten {s : Shape} (hl : s.All LawfulSpellings) (σ : Spelling) (v : Value) :
    Request σ s v (flatten .parser (spell σ s) v) :=
  ⟨wf_flatten (lawful_spell hl σ) v, fun _ hq => hq, fun _ hq => Or.inl hq⟩

section

variable {isoparse : IsoParse}

theorem parse_shape_spell {s : Shape} (hl : s.All LawfulSpellings)
    (hn : s.All NamedListSpellings) {σ : Spelling} {v : Value} {node : Params}
    (hc : Carries σ s v node) : SqsParser.parse_shape treeView isoparse s node =
      parse_shape treeView isoparse (spell σ s) node :=
  parseFuel_spell hl hn hc _

theorem parse_spell {s : Shape} (hl : s.All LawfulSpellings) (hn : s.All NamedListSpellings)
    {σ : Spelling} {v : Value} {node : Params} (hc : Carries σ s v node) :
    SqsParser.parse treeView isoparse s node = parse treeView isoparse (spell σ s) node := by
  rw [SqsParser.parse, parse, parse_shape_spell hl hn hc]

/-- A member is not parsed from keys that do not begin with its name. -/
theorem process_member_filter {parse : Shape → Params → Except Error Value} {name : Str} {s : Shape}
    {node : Params} (hwf : node.WF) (f : Str × Str → Bool)
    (h : ∀ q ∈ node, name <+: q.1 → f q = true) :
    process_member treeView isoparse parse name s (node.filter f) =
      process_member treeView isoparse parse name s node := by
  have hsub : (node.filter f).Sublist node := List.filter_sublist
  by_cases hs : IsScalar treeView s
  · have hget : Dict.get (node.filter f) name = node.get name := by
      rcases hv : node.get name with _ | text
      · exact Dict.get_eq_none_of_sublist hsub hv
      · have hmem := Dict.mem_of_get hv
        exact Dict.get_of_mem (Dict.wf_sublist hwf hsub)
          (List.mem_filter.mpr ⟨hmem, h _ hmem (List.prefix_refl name)⟩)
    obtain ⟨ser, t, hs⟩ := hs
    rw [process_member_scalar hs, process_member_scalar hs, hget]
  · have hcut : cut name (node.filter f) = cut name node := by
      rw [cut, cut, List.filter_filter]
      refine congrArg _ (List.filter_congr fun q hq => ?_)
      rw [Bool.and_eq_left_iff_imp]
      exact fun hpre => h q hq (List.isPrefixOf_iff_prefix.mp hpre)
    rw [process_member_container hs, process_member_container hs, filter_node_eq, filter_node_eq,
      hcut]

/-- Foreign parameters do not matter. -/
theorem parse_struct_filter {ser : Serialization} {traits : StructureTraits}
    {ms : List (Str × Shape)} (hl : (Shape.struct ser traits ms).All (Lawful .parser)) {node : Params}
    (hwf : node.WF) (f : Str × Str → Bool)
    (h : ∀ p ∈ ms, ∀ q ∈ node, structure_key treeView p.1 p.2 <+: q.1 → f q = true) :
    parse_shape treeView isoparse (.struct ser traits ms) node =
      parse_shape treeView isoparse (.struct ser traits ms) (node.filter f) := by
  rw [parse_struct_eq hl, parse_struct_eq hl, parseMembers_congr traits.required_members]
  exact fun p hp => (process_member_filter hwf f (h p hp)).symm

theorem parse_request {ser : Serialization} {traits : StructureTraits} {ms : List (Str × Shape)}
    (hl : (Shape.struct ser traits ms).All LawfulSpellings)
    (hn : (Shape.struct ser traits ms).All NamedListSpellings)
    (hquiet : (Shape.struct ser traits ms).All QuietList) {σ : Spelling} {d : Dict Str Value}
    {params : Params} (ht : Typed formValues (.struct ser traits ms) (.dict d))
    (hr : Request σ (.struct ser traits ms) (.dict d) params) :
    SqsParser.parse treeView isoparse (.struct ser traits ms) params =
      .ok (.dict (normMembers traits.required_members ms d)) := by
  have hl' := lawful_spell hl σ
  have hn' := namedList_spell hn σ
  have hq' := quietList_spell hquiet σ
  have ht' := typed_spell ht σ
  obtain ⟨hwf, hhas, honly⟩ := hr
  rw [parse_spell hl hn (Request.carries ⟨hwf, hhas, honly⟩)]
  rw [spell_struct] at hl' hn' hq' ht' hhas honly ⊢
  let f : Str × Str → Bool := fun q => decide (q ∈ flatten .parser (.struct ser traits
    (ms.map fun p => (p.1, spellMember σ p))) (.dict d))
  have hown : ∀ p ∈ ms.map fun p => (p.1, spellMember σ p), ∀ q ∈ params,
      structure_key treeView p.1 p.2 <+: q.1 → f q = true := by
    rw [List.forall_mem_map]
    intro p hp q hq hpre
    rcases honly q hq with hmem | hforeign
    · exact decide_eq_true hmem
    · exact absurd hpre (hforeign p hp _ (written_mem σ p))
  rw [parse, parse_struct_filter hl' hwf f hown, ← parse,
    roundTrips_of_heard hl' (heard_own _) hn' hq' d ht',
    normMembers_congr fun p _ v => norm_spellMember σ p v]
  · exact Dict.wf_sublist hwf List.filter_sublist
  · intro q
    rw [List.mem_filter, decide_eq_true_iff]
    exact ⟨And.right, fun hq => ⟨hhas q hq, hq⟩⟩

end

/-- Every request is parsed back, with any of its maps below the name of its member. -/
def RequestsParsed (isoparse : IsoParse) (ser : Serialization) (traits : StructureTraits)
    (ms : List (Str × Shape)) : Prop :=
  ∀ σ d params, Typed formValues (.struct ser traits ms) (.dict d) →
    Request σ (.struct ser traits ms) (.dict d) params →
      SqsParser.parse treeView isoparse (.struct ser traits ms) params =
        .ok (.dict (normMembers traits.required_members ms d))

theorem requestsParsed_iff (isoparse : IsoParse) {ser : Serialization} {traits : StructureTraits}
    {ms : List (Str × Shape)} (hl : (Shape.struct ser traits ms).All LawfulSpellings)
    (hn : (Shape.struct ser traits ms).All NamedListSpellings) :
    RequestsParsed isoparse ser traits ms ↔ (Shape.struct ser traits ms).All QuietList := by
  have hl' := lawful_of_spellings hl
  constructor
  · intro h
    refine quietLists_of_parsesOwn hl' (@parsesOwn_of_roundTrips .parser isoparse _ _ _ hl' ?_)
    intro d ht params hwf hparams
    have hr : Request (fun _ => false) (.struct ser traits ms) (.dict d) params := by
      refine ⟨hwf, fun q hq => ?_, fun q hq => ?_⟩
      · rw [spell_serialized] at hq
        exact (hparams q).mpr hq
      · rw [spell_serialized]
        exact Or.inl ((hparams q).mp hq)
    have hparse := h _ d params ht hr
    rwa [parse_spell hl hn hr.carries, spell_serialized] at hparse
  · exact fun hquiet _ _ _ ht hr => parse_request hl hn hquiet ht hr

/-! ## Maps at any depth -/

/-- The node of a structure in which the value of a member stands below the name
`n`, and nothing below another name of that member. -/
structure WrittenBelow (σ : Spelling) (name : Str) (s : Shape) (v : Value) (n : Str)
    (node : Params) : Prop where
  wf : node.WF
  own : ∀ q, q ∈ node ∧ n <+: q.1 ↔ q ∈ under n (flatten .parser (spell σ s) v)
  other : ∀ n' ∈ spellings name s, n' ≠ n → ∀ k ∈ node.keys, ¬ n' ++ ['.'] <+: k

/-- Every map that is not empty is parsed back in both spellings, whatever else is
in the node. -/
def MapParsed (isoparse : IsoParse) (name : Str) (s : Shape) : Prop :=
  ∀ σ d n node, Typed formValues s (.dict d) → d ≠ [] → n ∈ spellings name s →
    WrittenBelow σ name s (.dict d) n node →
      process_member treeView isoparse (SqsParser.parse_shape treeView isoparse)
        (SqsParser.structure_key treeView name s node) s node = .ok (norm s (.dict d))

section

variable {isoparse : IsoParse} {σ : Spelling} {name : Str} {ser key : Serialization} {s : Shape}
  {d : Dict Str Value} {n : Str} {node : Params}

theorem WrittenBelow.not_mem {v : Value} (hw : WrittenBelow σ name s v n node) {n' : Str}
    (hn' : n' ∈ spellings name s) (hne : n' ≠ n) {shape : ShapeNode Shape} {suffix : Str}
    (hsuffix : suffix ∈ SqsParser.suffixes shape) : n' ++ suffix ∉ node.keys := by
  intro hmem
  obtain ⟨k, hk, hjoin⟩ := SqsParser.suffix_eq hsuffix
  refine hw.other n' hn' hne _ hmem ⟨k, ?_⟩
  rw [hjoin, join_of_ne_nil _ hk, List.append_assoc, List.singleton_append]

theorem WrittenBelow.mem {v : Value} (hw : WrittenBelow σ name s v n node) {k : Str}
    (hk : k ∈ Dict.keys (flatten .parser (spell σ s) v)) : join n k ∈ node.keys := by
  obtain ⟨q, hq, rfl⟩ := List.mem_map.mp hk
  exact Dict.mem_keys_of_mem ((hw.own (join n q.1, q.2)).mpr (mem_under.mpr ⟨q, hq, rfl⟩)).1

/-- The name is chosen by the first entry. -/
theorem structure_key_of_writtenBelow (hl : (Shape.map ser key s).All LawfulSpellings)
    (hkey : key_name key ∈ entryKeys) (hd : d ≠ []) (hn : n ∈ spellings name (.map ser key s))
    (hw : WrittenBelow σ name (.map ser key s) (.dict d) n node) :
    SqsParser.structure_key treeView name (.map ser key s) node = n := by
  have hchosen : SqsParser.structure_key treeView name (.map ser key s) node =
      SqsParser.get_serialized_name (treeView (.map ser key s)) name node := rfl
  have hnames : spellings name (.map ser key s) =
    [get_serialized_name (treeView (.map ser key s)).serialization name, name] := rfl
  rw [hchosen]
  by_cases hprimary : n = get_serialized_name (treeView (.map ser key s)).serialization name
  · rw [hprimary]
    refine SqsParser.get_serialized_name_primary fun suffix hsuffix hmem => ?_
    by_contra hne
    exact hw.not_mem (List.mem_cons_of_mem _ List.mem_cons_self)
      (fun he => hne (hprimary.symm.trans he.symm)) hsuffix hmem
  · obtain rfl : n = name := by
      rw [hnames] at hn
      exact (List.mem_pair.mp hn).resolve_left hprimary
    have hlaw := lawful_spell hl σ
    have hfirst := @WrittenBelow.mem σ n (.map ser key s) n node _ hw
    rw [spell] at hlaw hfirst
    obtain ⟨suffix, hsuffix, hjoin⟩ := first_entry ser s hkey
    refine SqsParser.get_serialized_name_default (fun suffix hsuffix => ?_) hsuffix ?_
    · exact hw.not_mem List.mem_cons_self (Ne.symm hprimary) hsuffix
    · rw [hjoin]
      refine hfirst (first_entry_mem hlaw.self ?_)
      cases d with
      | nil => exact absurd rfl hd
      | cons p d => simp [flatten, numbered, level_eq_nil, under_eq_nil]

theorem flatten_map_ne_nil (hd : d ≠ []) : flatten .parser (.map ser key s) (.dict d) ≠ [] := by
  cases d with
  | nil => exact absurd rfl hd
  | cons p d => simp [flatten, numbered, level_eq_nil, under_eq_nil]

theorem map_parsed_of_quiet (hl : (Shape.map ser key s).All LawfulSpellings)
    (hn : (Shape.map ser key s).All NamedListSpellings) (hkey : key_name key ∈ entryKeys)
    (hquiet : (Shape.map ser key s).All QuietList) :
    MapParsed isoparse name (.map ser key s) := by
  intro σ d n node ht hd hname hw
  have hl' := lawful_spell hl σ
  have hs : ¬ IsScalar treeView (spell σ (.map ser key s)) :=
    fun hs => not_isScalar_map (isScalar_spell.mp hs)
  have hne : flatten .parser (spell σ (.map ser key s)) (.dict d) ≠ [] := by
    rw [spell]
    exact flatten_map_ne_nil hd
  have honly : ∀ k ∈ node.keys, n <+: k →
      ∃ k' ∈ Dict.keys (flatten .parser (spell σ (.map ser key s)) (.dict d)), k = join n k' := by
    intro k hk hpre
    obtain ⟨q, hq, rfl⟩ := List.mem_map.mp hk
    obtain ⟨r, hr, rfl⟩ := mem_under.mp ((hw.own q).mp ⟨hq, hpre⟩)
    exact ⟨r.1, Dict.mem_keys_of_mem hr, rfl⟩
  obtain ⟨sub_node, hsub, hcovers⟩ := covers_filter_node hl' hs hne hw.wf
    (fun q hq => ((hw.own _).mpr (mem_under.mpr ⟨q, hq, rfl⟩)).1)
    fun k hk hpre => Or.inl (honly k hk hpre)
  have hbelow : Below σ (.map ser key s) (.dict d) n node :=
    ⟨fun k hk => hw.mem hk, fun k hk hpre => Or.inl (honly k hk hpre)⟩
  rw [structure_key_of_writtenBelow hl hkey hd hname hw, process_member_container not_isScalar_map,
    hsub, ← norm_spell σ]
  dsimp only
  rw [parse_shape_spell hl hn (hbelow.carries not_isScalar_map hl hsub)]
  exact parse_flatten hl' (heard_own _) (namedList_spell hn σ) (quietList_spell hquiet σ) hs _
    (typed_spell ht σ) hne sub_node hcovers

theorem writtenBelow_under (hl : (Shape.map ser key s).All LawfulSpellings)
    (hnames : ∀ n ∈ spellings name (.map ser key s), IsName n)
    (hn : n ∈ spellings name (.map ser key s)) (σ : Spelling) (v : Value) :
    WrittenBelow σ name (.map ser key s) v n (under n (flatten .parser (spell σ (.map ser key s)) v)) := by
  refine ⟨wf_under (hnames n hn).2 (wf_flatten (lawful_spell hl σ) v), fun q => ?_,
    fun n' hn' hne k hk hpre => ?_⟩
  · refine ⟨And.left, fun hq => ⟨hq, ?_⟩⟩
    obtain ⟨r, -, rfl⟩ := mem_under.mp hq
    exact prefix_join n r.1
  · obtain ⟨q, hq, rfl⟩ := List.mem_map.mp hk
    obtain ⟨r, -, rfl⟩ := mem_under.mp hq
    exact hne (eq_of_prefix_dot (hnames n' hn').2 (hnames n hn).2 hpre)

theorem quiet_of_map_parsed (hl : (Shape.map ser key s).All LawfulSpellings)
    (hn : (Shape.map ser key s).All NamedListSpellings) (hkey : key_name key ∈ entryKeys)
    (hnames : ∀ n ∈ spellings name (.map ser key s), IsName n)
    (h : MapParsed isoparse name (.map ser key s)) : (Shape.map ser key s).All QuietList := by
  have hl' := lawful_of_spellings hl
  have hown : ParsesOwn .parser isoparse (.map ser key s) := by
    intro hs v ht hne
    obtain ⟨d, rfl⟩ : ∃ d, v = .dict d := by
      cases ht
      exact ⟨_, rfl⟩
    have hd : d ≠ [] := by
      rintro rfl
      exact hne (by simp [flatten, numbered, level_eq_nil])
    have hmem := structure_key_mem_spellings name (.map ser key s)
    have hw := writtenBelow_under hl hnames hmem (fun _ => false) (.dict d)
    have hparse := h _ d _ _ ht hd hmem hw
    have hc : Carries (fun _ => false) (.map ser key s) (.dict d)
        (flatten .parser (.map ser key s) (.dict d)) := by
      have hr := request_flatten hl (fun _ => false) (.dict d)
      rw [spell_serialized] at hr
      exact hr.carries
    rw [structure_key_of_writtenBelow hl hkey hd hmem hw, process_member_container hs,
      filter_node_eq, spell_serialized, cut_under (flatten_key_ne_nil hs hl'.self _), if_neg hne,
      Dict.ofPairs_of_wf (wf_flatten hl' _)] at hparse
    dsimp only at hparse
    rwa [parse_shape_spell hl hn hc, spell_serialized] at hparse
  exact quietLists_of_parsesOwn hl' hown

end

/-- **Both spellings of a map are the same.** In the node of any structure, a map is
parsed back from its parameters in both spellings exactly when its values have quiet
lists only; and so is every request, with its maps at any depth, when all of its
shapes do. -/
theorem aliases_equivalent_iff (isoparse : IsoParse) :
    (∀ name ser key value, (∀ n ∈ spellings name (.map ser key value), IsName n) →
      (Shape.map ser key value).All LawfulSpellings →
      (Shape.map ser key value).All NamedListSpellings → key_name key ∈ entryKeys →
        (MapParsed isoparse name (.map ser key value) ↔ value.All QuietList)) ∧
    ∀ ser traits ms, (Shape.struct ser traits ms).All LawfulSpellings →
      (Shape.struct ser traits ms).All NamedListSpellings →
        (RequestsParsed isoparse ser traits ms ↔ (Shape.struct ser traits ms).All QuietList) := by
  refine ⟨fun name ser key value hnames hl hn hkey => ?_,
    fun ser traits ms hl hn => requestsParsed_iff isoparse hl hn⟩
  constructor
  · exact fun h => (quiet_of_map_parsed hl hn hkey hnames h).map_value
  · exact fun h => map_parsed_of_quiet hl hn hkey (.map trivial h)

/-! ## Parts of a written value -/

/-- A written value is parsed back from its own parameters. -/
def Kept (isoparse : IsoParse) (σ : Spelling) (s : Shape) (v : Value) : Prop :=
  parse_shape treeView isoparse (spell σ s) (flatten .parser (spell σ s) v) = .ok (norm s v)

theorem Kept.member {isoparse : IsoParse} {σ : Spelling} {ser : Serialization}
    {traits : StructureTraits} {ms : List (Str × Shape)} {d : Dict Str Value}
    (h : Kept isoparse σ (.struct ser traits ms) (.dict d))
    (hl : (Shape.struct ser traits ms).All LawfulSpellings) {p : Str × Shape} (hp : p ∈ ms)
    (hs : ¬ IsScalar treeView p.2) {v : Value} (ht : Typed formValues p.2 v)
    (hget : d.get p.1 = some v) (hnorm : norm p.2 v ≠ .none) :
    Kept isoparse (fun path => σ (p.1 :: path)) p.2 v := by
  have hlt := lawful_spell hl σ
  have htm := typed_spellMap (b := σ [p.1]) (typed_spell ht fun path => σ (p.1 :: path))
  rw [Kept, ← norm_spell σ] at h
  rw [spell_struct] at h hlt
  have hmem : (p.1, spellMember σ p) ∈ ms.map fun p => (p.1, spellMember σ p) :=
    List.mem_map_of_mem hp
  have hne : flatten .parser (spellMember σ p) v ≠ [] := by
    refine mt (flatten_eq_nil_iff htm (hlt.struct_member _ hmem)).mp ?_
    rwa [← spellMember, norm_spellMember]
  have hnone : norm (.struct ser traits (ms.map fun p => (p.1, spellMember σ p))) (.dict d) ≠ .none := by
    intro hnone
    have hp' := norm_struct_eq_none.mp hnone _ hmem v hget
    rw [norm_spellMember] at hp'
    exact hnorm hp'
  rw [norm_struct hnone] at h
  have hparse := parse_member_of_struct hlt hmem rfl (fun h => hs (isScalar_spellMember.mp h)) htm hget hne h
  dsimp only at hparse
  rw [norm_spellMember, spellMember, flatten_spellMap] at hparse
  exact (parseFuel_spellMap _ _ _ _).symm.trans hparse

theorem Kept.value {isoparse : IsoParse} {σ : Spelling} {ser key : Serialization} {s : Shape}
    {k : Str} {v : Value} (h : Kept isoparse σ (.map ser key s) (.dict [(k, v)]))
    (hl : (Shape.map ser key s).All LawfulSpellings) (hs : ¬ IsScalar treeView s)
    (ht : Typed formValues s v) (hnorm : norm s v ≠ .none) : Kept isoparse σ s v := by
  have hlt := lawful_spell hl σ
  have hone : norm (.map ser key (spell σ s)) (.dict [(k, v)]) =
      .dict [(k, norm (spell σ s) v)] := rfl
  rw [Kept, ← norm_spell σ] at h ⊢
  rw [spell] at h hlt
  refine parse_value_of_map hlt (fun h => hs (isScalar_spell.mp h)) ?_ (h.trans (congrArg _ hone))
  refine mt (flatten_eq_nil_iff (typed_spell ht σ) hlt.map_value).mp ?_
  rwa [norm_spell]

/-- The list of 102 lists, of which the last is read below the first one. -/
theorem not_kept_replicate {isoparse : IsoParse} {σ : Spelling} {ser ser' ser'' : Serialization}
    {traits : StructureTraits} {ms : List (Str × Shape)}
    (hl : (Shape.list ser (.list ser' (.struct ser'' traits ms))).All LawfulSpellings)
    (hflat : ser'.flattened = true) {p : Str × Shape} (hp : p ∈ ms)
    (hrequired : p.1 ∈ traits.required_members) {v : Value}
    (ht : Typed formValues (.struct ser'' traits ms) v)
    (hnorm : norm (.struct ser'' traits ms) v ≠ .none) :
    ¬ Kept isoparse σ (.list ser (.list ser' (.struct ser'' traits ms)))
      (.list (List.replicate 102 (.list [v]))) := by
  have hlt := lawful_spell hl σ
  have hv : flatten .parser (spell σ (.struct ser'' traits ms)) v ≠ [] := by
    rw [spell, spell] at hlt
    refine mt (flatten_eq_nil_iff (typed_spell ht σ) hlt.list_member.list_member).mp ?_
    rwa [norm_spell]
  intro h
  rw [Kept, ← norm_spell σ] at h
  rw [spell, spell, spell_struct] at h hlt
  rw [spell_struct] at hv
  have hmem : (p.1, spellMember σ p) ∈ ms.map fun p => (p.1, spellMember σ p) :=
    List.mem_map_of_mem hp
  exact (parse_replicate_ne not_isScalar_struct hlt hflat
    (parse_required_ne_none hlt.list_member.list_member hmem hrequired) hv).2 h

/-! ## Sample requests -/

/-- The value of a message attribute, with a flattened list in it. -/
def messageAttributeValue : Shape :=
  .struct { name := some "Value".toList } { required_members := ["DataType".toList] }
    [("StringValue".toList, .scalar {} .string),
      ("StringListValues".toList, .list { flattened := true }
        (.scalar { name := some "StringListValue".toList } .string)),
      ("DataType".toList, .scalar {} .string)]

def messageAttributes : Shape :=
  .map { name := some "MessageAttribute".toList, flattened := true }
    { name := some "Name".toList } messageAttributeValue

theorem messageAttributes_lawful : messageAttributes.All LawfulSpellings := by
  refine .map ⟨by decide, by decide, by decide, by decide⟩ (.struct ⟨by decide, by decide, by decide⟩
    (List.forall_mem_cons.mpr ⟨lawfulSpellings_scalar (by decide), List.forall_mem_cons.mpr ⟨?_,
      List.forall_mem_singleton.mpr (lawfulSpellings_scalar (by decide))⟩⟩))
  exact .list ⟨by decide, by decide⟩ (lawfulSpellings_scalar (by decide))

theorem messageAttributes_named : messageAttributes.All NamedListSpellings :=
  .map trivial (.struct trivial (List.forall_mem_cons.mpr ⟨.scalar trivial, List.forall_mem_cons.mpr
    ⟨.list trivial (.scalar trivial), List.forall_mem_singleton.mpr (.scalar trivial)⟩⟩))

theorem messageAttributeValue_quiet : messageAttributeValue.All QuietList :=
  .struct trivial (List.forall_mem_cons.mpr ⟨.scalar trivial, List.forall_mem_cons.mpr
    ⟨.list trivial (.scalar trivial), List.forall_mem_singleton.mpr (.scalar trivial)⟩⟩)

/-- Message attributes, alone and in a request with the body of the message. -/
theorem messageAttributes_parsed :
    MapParsed (fun _ => .error .valueError) "MessageAttributes".toList messageAttributes ∧
      RequestsParsed (fun _ => .error .valueError) {} { required_members := ["MessageBody".toList] }
        [("MessageBody".toList, .scalar {} .string),
          ("MessageAttributes".toList, messageAttributes)] := by
  constructor
  · exact ((aliases_equivalent_iff _).1 _ _ _ _ (by decide) messageAttributes_lawful
      messageAttributes_named (by decide)).mpr messageAttributeValue_quiet
  · refine ((aliases_equivalent_iff _).2 _ _ _ ?_ ?_).mpr ?_
    · exact .struct ⟨by decide, by decide, by decide⟩ (List.forall_mem_cons.mpr
        ⟨lawfulSpellings_scalar (by decide), List.forall_mem_singleton.mpr messageAttributes_lawful⟩)
    · exact .struct trivial (List.forall_mem_cons.mpr
        ⟨.scalar trivial, List.forall_mem_singleton.mpr messageAttributes_named⟩)
    · exact .struct trivial (List.forall_mem_cons.mpr
        ⟨.scalar trivial, List.forall_mem_singleton.mpr (.map trivial messageAttributeValue_quiet)⟩)

/-- The value of an attribute with 102 lists, of which the last is read below the
first one, in both spellings. -/
theorem attribute_mixed_up :
    let statement : Shape := .struct {} { required_members := ["Id".toList] }
      [("Id".toList, .scalar {} .string)]
    let policy : Shape := .struct { name := some "Value".toList } {}
      [("Policies".toList, .list {} (.list { flattened := true } statement))]
    let members : List (Str × Shape) := [("Attributes".toList,
      .map { name := some "Attribute".toList, flattened := true } { name := some "Key".toList }
        policy)]
    let policies : Value := .list (List.replicate 102 (.list [.dict [("Id".toList, .str "a".toList)]]))
    let d : List (Str × Value) := [("Attributes".toList,
      .dict [("k".toList, .dict [("Policies".toList, policies)])])]
    (Shape.struct {} {} members).All LawfulSpellings ∧
      (Shape.struct {} {} members).All NamedListSpellings ∧
      Typed formValues (.struct {} {} members) (.dict d) ∧ ∀ isoparse σ,
        SqsParser.parse treeView isoparse (.struct {} {} members)
          (flatten .parser (spell σ (.struct {} {} members)) (.dict d)) ≠ .ok (.dict d) := by
  intro statement policy members policies d
  have hstatement : Typed formValues statement (.dict [("Id".toList, .str "a".toList)]) := by
    refine .struct_of_entries trivial (by decide) (fun _ => by decide) (List.forall_mem_singleton.mpr ?_)
    exact ⟨trivial, nofun, _, rfl, fun _ => .scalar trivial⟩
  have hls : statement.All LawfulSpellings :=
    .struct ⟨by decide, by decide, by decide⟩
      (List.forall_mem_singleton.mpr (lawfulSpellings_scalar (by decide)))
  have hlp : policy.All LawfulSpellings :=
    .struct ⟨by decide, by decide, by decide⟩ (List.forall_mem_singleton.mpr
      (.list ⟨by decide, by decide⟩ (.list ⟨by decide, by decide⟩ hls)))
  have hl : (Shape.struct {} {} members).All LawfulSpellings :=
    .struct ⟨by decide, by decide, by decide⟩ (List.forall_mem_singleton.mpr
      (.map ⟨by decide, by decide, by decide, by decide⟩ hlp))
  have hn : (Shape.struct {} {} members).All NamedListSpellings := by
    refine .struct trivial (List.forall_mem_singleton.mpr (.map trivial (.struct trivial
      (List.forall_mem_singleton.mpr (.list ?_ (.list ?_ (.struct trivial
        (List.forall_mem_singleton.mpr (.scalar trivial)))))))))
    · exact List.forall_mem_singleton.mpr (Or.inl (isScalar_scalar _ _))
    · exact List.forall_mem_singleton.mpr (Or.inl (isScalar_scalar _ _))
  have hlist := hlp.struct_member _ List.mem_cons_self
  have hpolicies : Typed formValues (.list {} (.list { flattened := true } statement)) policies := by
    refine typed_replicate {} (lawful_of_spellings hlist).list_member (typed_replicate
      { flattened := true } (lawful_of_spellings hls) hstatement ?_ 1) ?_ 102
    · decide
    · decide
  have hpolicy : Typed formValues policy (.dict [("Policies".toList, policies)]) := by
    refine .struct_of_entries trivial (by decide) (fun _ => by decide) (List.forall_mem_singleton.mpr ?_)
    exact ⟨trivial, nofun, _, rfl, fun _ => hpolicies⟩
  have hmap := hl.struct_member _ List.mem_cons_self
  have hne : flatten .parser policy (.dict [("Policies".toList, policies)]) ≠ [] := by
    have hnorm : norm policy (.dict [("Policies".toList, policies)]) ≠ .none := nofun
    exact mt (flatten_eq_nil_iff hpolicy (lawful_of_spellings hlp)).mp hnorm
  have hattributes := typed_singleton { name := some "Attribute".toList, flattened := true }
    { name := some "Key".toList } (lawful_of_spellings hlp) hpolicy hne "k".toList
  have ht : Typed formValues (.struct {} {} members) (.dict d) := by
    refine .struct_of_entries trivial (by decide) (fun _ => by decide) (List.forall_mem_singleton.mpr ?_)
    exact ⟨trivial, nofun, _, rfl, fun _ => hattributes⟩
  refine ⟨hl, hn, ht, fun isoparse σ h => ?_⟩
  rw [parse_spell hl hn (request_flatten hl σ _).carries] at h
  have hkept : Kept isoparse σ (.struct {} {} members) (.dict d) := by
    have hd : normMembers [] (members.map fun p => (p.1, spellMember σ p)) d = d :=
      normMembers_congr fun p _ v => norm_spellMember σ p v
    have hnone : norm (spell σ (.struct {} {} members)) (.dict d) ≠ .none := by
      rw [norm_spell]
      nofun
    rw [Kept]
    rw [spell_struct] at h hnone ⊢
    exact (parse_shape_of_parse hnone (h.trans (by rw [hd]))).trans (by rw [hd]; rfl)
  -- the values that lead to the list, one after the other
  have hlists := ((hkept.member hl List.mem_cons_self not_isScalar_map hattributes rfl nofun).value
    hmap not_isScalar_struct hpolicy nofun).member hlp List.mem_cons_self
      not_isScalar_list hpolicies rfl nofun
  exact not_kept_replicate hlist rfl List.mem_cons_self List.mem_cons_self hstatement nofun hlists

end LocalStack.Aws.Protocol.SqsAliases
