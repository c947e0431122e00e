import LocalStack.Aws.Protocol.SqsParser
import LocalStack.Aws.Protocol.SqsSpelling

/-! The SQS parser and the two spellings of a map. On the parameters of a value it
does what the query parser does for the shape as it is written. -/

namespace LocalStack.Aws.Protocol.SqsAliases
open LocalStack.Text LocalStack.Decimal LocalStack.OrderedDict
open LocalStack.Aws.Protocol.Parser LocalStack.Aws.Protocol.Query

/-! ## Nodes of written values -/

/-- A parameter beside the members of a structure, such as the action of a request. -/
def Foreign : Shape → Str → Prop
  | .struct _ _ members, k => ∀ p ∈ members, ∀ n ∈ spellings p.1 p.2, ¬ n <+: k
  | _, _ => False

/-- The node has the keys of the written value, and besides them only keys of
other elements and foreign ones. -/
structure Carries (σ : Spelling) (s : Shape) (v : Value) (node : Params) : Prop where
  has : ∀ k ∈ Dict.keys (flatten .parser (spell σ s) v), k ∈ node.keys
  only : ∀ k ∈ node.keys, k ∈ Dict.keys (flatten .parser (spell σ s) v) ∨
    NamedSpellings s ∧ depth (spell σ s) < digitDepth k ∨ Foreign s k

/-- The same for the keys below a name, in the node of the parent. -/
structure Below (σ : Spelling) (s : Shape) (v : Value) (name : Str) (node : Params) : Prop where
  has : ∀ k ∈ Dict.keys (flatten .parser (spell σ s) v), join name k ∈ node.keys
  only : ∀ k ∈ node.keys, name <+: k →
    (∃ k' ∈ Dict.keys (flatten .parser (spell σ s) v), k = join name k') ∨
      NamedSpellings s ∧ depth (spell σ s) < digitDepth (k.drop (name.length + 1))

theorem Below.carries {σ : Spelling} {s : Shape} {v : Value} {name : Str} {node sub_node : Params}
    (hb : Below σ s v name node) (hs : ¬ IsScalar treeView s) (hl : s.All LawfulSpellings)
    (h : filter_node name node = some sub_node) : Carries σ s v sub_node := by
  have hs' : ¬ IsScalar treeView (spell σ s) := mt isScalar_spell.mp hs
  have hdrop : ∀ k ∈ Dict.keys (flatten .parser (spell σ s) v),
      (join name k).drop (name.length + 1) = k := by
    intro k hk
    obtain ⟨p, hp, rfl⟩ := List.mem_map.mp hk
    rw [join_of_ne_nil _ (flatten_key_ne_nil hs' (lawful_spell hl σ).self v p hp), drop_name]
  refine ⟨fun k hk => ?_, fun k hk => ?_⟩
  · obtain ⟨sub_node', h', hmem⟩ := filter_node_of_mem (hb.has k hk) (prefix_join name k)
    rw [h, Option.some.injEq] at h'
    rwa [hdrop k hk, ← h'] at hmem
  · obtain ⟨k', hk', hname, rfl⟩ := mem_keys_filter_node h hk
    rcases hb.only k' hk' hname with ⟨k, hmem, rfl⟩ | hstray
    · rw [hdrop k hmem]
      exact Or.inl hmem
    · exact Or.inr (Or.inl hstray)

/-! ## Keys of the members of a node -/

theorem flatten_none {s : Shape} (hs : ¬ IsScalar treeView s) : flatten .parser s .none = [] := by
  cases s with
  | scalar ser t => exact absurd (isScalar_scalar ser t) hs
  | _ => rfl

/-- There are no keys for a value below the name, when all that begin with it are strays. -/
theorem Below.none {σ : Spelling} {s : Shape} {name : Str} {node : Params}
    (hs : ¬ IsScalar treeView s) (h : ∀ k ∈ node.keys, name <+: k →
      NamedSpellings s ∧ depth (spell σ s) < digitDepth (k.drop (name.length + 1))) :
    Below σ s .none name node := by
  have hnil := flatten_none (mt isScalar_spell.mp hs : ¬ IsScalar treeView (spell σ s))
  exact ⟨by simp [hnil], fun k hk hpre => Or.inr (h k hk hpre)⟩

theorem list_of_key {ser : Serialization} {m : Shape} {v : Value} {k : Str}
    (h : k ∈ Dict.keys (flatten .parser (.list ser m) v)) : ∃ vs, v = .list vs := by
  cases v with
  | list vs => exact ⟨vs, rfl⟩
  | _ => simp [flatten] at h

theorem dict_of_map_key {ser key : Serialization} {s : Shape} {v : Value} {k : Str}
    (h : k ∈ Dict.keys (flatten .parser (.map ser key s) v)) : ∃ d, v = .dict d := by
  cases v with
  | dict d => exact ⟨d, rfl⟩
  | _ => simp [flatten] at h

theorem dict_of_struct_key {ser : Serialization} {traits : StructureTraits}
    {ms : List (Str × Shape)} {v : Value} {k : Str}
    (h : k ∈ Dict.keys (flatten .parser (.struct ser traits ms) v)) : ∃ d, v = .dict d := by
  cases v with
  | dict d => exact ⟨d, rfl⟩
  | _ => simp [flatten] at h

theorem list_element {σ : Spelling} {ser : Serialization} {m : Shape} {v : Value} {node : Params}
    (hl : (Shape.list ser m).All LawfulSpellings) (hn : NamedSpellings m)
    (hm : ¬ IsScalar treeView m) (hc : Carries σ (.list ser m) v node) (i : Nat) :
    ∃ w, Below σ m w (list_key treeView ser (spell σ m) i) node := by
  have hl' := lawful_spell hl σ
  have hm' : ¬ IsScalar treeView (spell σ m) := mt isScalar_spell.mp hm
  obtain ⟨hhas, honly⟩ := hc
  rw [spell] at hl' hhas honly
  have hcases : ∀ k ∈ node.keys, list_key treeView ser (spell σ m) i <+: k →
      (∃ vs j w, v = .list vs ∧ i = j + 1 ∧ vs[j]? = some w ∧
        ∃ k' ∈ Dict.keys (flatten .parser (spell σ m) w), k = join (list_key treeView ser (spell σ m) i) k') ∨
      NamedSpellings m ∧ depth (spell σ m) <
        digitDepth (k.drop ((list_key treeView ser (spell σ m) i).length + 1)) := by
    intro k hk hpre
    rcases honly k hk with hown | ⟨hnamed, hlt⟩ | hforeign
    · obtain ⟨vs, rfl⟩ := list_of_key hown
      rcases own_list_key_cases hm' hl' (named_spell hn σ) hown hpre with
        ⟨j, w, hj, hw, hmem⟩ | ⟨hdrop, -⟩
      · exact Or.inl ⟨vs, j, w, rfl, hj, hw, hmem⟩
      · exact Or.inr ⟨hn, hdrop⟩
    · have hnamed' := named_spell hnamed σ
      rw [spell] at hnamed'
      exact Or.inr ⟨hn, (stray_list_key hm' hl'.self hnamed' hlt hpre).2.2⟩
    · exact hforeign.elim
  by_cases h : ∃ vs j w, v = .list vs ∧ i = j + 1 ∧ vs[j]? = some w
  · obtain ⟨vs, j, w, rfl, rfl, hw⟩ := h
    refine ⟨w, fun k hk => hhas _ ?_, fun k hk hpre => (hcases k hk hpre).imp_left ?_⟩
    · obtain ⟨q, hq, rfl⟩ := List.mem_map.mp hk
      exact Dict.mem_keys_of_mem (mem_flatten_list.mpr ⟨j, w, hw, mem_under.mpr ⟨q, hq, rfl⟩⟩)
    · rintro ⟨vs', j', w', hvs, hj, hw', hmem⟩
      obtain rfl := Value.list.inj hvs
      obtain rfl : j = j' := by omega
      rw [hw, Option.some.injEq] at hw'
      rwa [hw']
  · refine ⟨.none, Below.none hm fun k hk hpre => (hcases k hk hpre).resolve_left ?_⟩
    rintro ⟨vs, j, w, hvs, hj, hw, -⟩
    exact h ⟨vs, j, w, hvs, hj, hw⟩

theorem map_value {σ : Spelling} {ser key : Serialization} {s : Shape} {v : Value} {node : Params}
    (hl : (Shape.map ser key s).All LawfulSpellings) (hs : ¬ IsScalar treeView s)
    (hc : Carries σ (.map ser key s) v node) (i : Nat) :
    ∃ w, Below σ s w (map_key ser i (value_name treeView s)) node := by
  have hl' := lawful_spell hl σ
  have hs' : ¬ IsScalar treeView (spell σ s) := mt isScalar_spell.mp hs
  obtain ⟨hhas, honly⟩ := hc
  rw [spell] at hl' hhas honly
  rw [← value_name_spell σ]
  have hcases : ∀ k ∈ node.keys, map_key ser i (value_name treeView (spell σ s)) <+: k →
      ∃ d j p, v = .dict d ∧ i = j + 1 ∧ d[j]? = some p ∧
        ∃ k' ∈ Dict.keys (flatten .parser (spell σ s) p.2),
          k = join (map_key ser i (value_name treeView (spell σ s))) k' := by
    intro k hk hpre
    rcases honly k hk with hown | ⟨hnamed, hlt⟩ | hforeign
    · obtain ⟨d, rfl⟩ := dict_of_map_key hown
      obtain ⟨j, p, hj, hp, hmem⟩ := own_map_value_cases hl'.self hown hpre
      exact ⟨d, j, p, rfl, hj, hp, hmem⟩
    · have hnamed' := named_spell hnamed σ
      rw [spell] at hnamed'
      exact absurd hlt (not_stray_map_value hs' hl'.self hnamed' hpre)
    · exact hforeign.elim
  by_cases h : ∃ d j p, v = .dict d ∧ i = j + 1 ∧ d[j]? = some p
  · obtain ⟨d, j, p, rfl, rfl, hp⟩ := h
    refine ⟨p.2, fun k hk => hhas _ ?_, fun k hk hpre => Or.inl ?_⟩
    · obtain ⟨q, hq, rfl⟩ := List.mem_map.mp hk
      exact Dict.mem_keys_of_mem ((mem_flatten_map hl'.self).mpr
        ⟨j, p, hp, Or.inr (mem_under.mpr ⟨q, hq, rfl⟩)⟩)
    · obtain ⟨d', j', p', hd, hj, hp', hmem⟩ := hcases k hk hpre
      obtain rfl := Value.dict.inj hd
      obtain rfl : j = j' := by omega
      rw [hp, Option.some.injEq] at hp'
      rwa [hp']
  · refine ⟨.none, Below.none hs fun k hk hpre => ?_⟩
    obtain ⟨d, j, p, hd, hj, hp, -⟩ := hcases k hk hpre
    exact absurd ⟨d, j, p, hd, hj, hp⟩ h

/-- Besides strays, only the keys of a set member begin with one of its names. -/
theorem member_key_cases {σ : Spelling} {ser : Serialization} {traits : StructureTraits}
    {ms : List (Str × Shape)} {v : Value} {node : Params}
    (hl : LawfulSpellings (.struct ser traits ms)) (hc : Carries σ (.struct ser traits ms) v node)
    {p : Str × Shape} (hp : p ∈ ms) (hs : ¬ IsScalar treeView p.2) {n : Str}
    (hname : n ∈ spellings p.1 p.2) {k : Str} (hk : k ∈ node.keys) (hpre : n <+: k) :
    ∃ d w, v = .dict d ∧ Dict.get d p.1 = some w ∧ n <+: written σ p ∧
      ∃ k' ∈ Dict.keys (flatten .parser (spellMember σ p) w), k = join (written σ p) k' := by
  obtain ⟨hwf, hnames, hprefix⟩ := hl
  obtain ⟨-, honly⟩ := hc
  rw [spell_struct] at honly
  rcases honly k hk with hown | ⟨hnamed, hlt⟩ | hforeign
  · obtain ⟨d, rfl⟩ := dict_of_struct_key hown
    obtain ⟨q', hq', w, hw, k', hk', rfl⟩ := keys_flatten_struct.mp hown
    obtain ⟨q, hq, rfl⟩ := List.mem_map.mp hq'
    have hbegin : n <+: written σ q := prefix_of_prefix_join (hnames p hp n hname).2 hpre
    obtain rfl : p = q := by
      by_contra hne
      exact hprefix p hp q hq (fun he => hne (eq_of_mem_of_fst_eq hwf hp hq he)) n hname _
        (written_mem σ q) hbegin
    exact ⟨d, w, rfl, hw, hbegin, k', hk', rfl⟩
  · have hletter := (hnamed p hp).resolve_left hs n hname
    rw [digitDepth_of_starts (hnames p hp n hname).2 hletter hpre] at hlt
    exact absurd hlt (Nat.not_lt_zero _)
  · exact absurd hpre (hforeign p hp n hname)

/-! ## The name that is chosen -/

/-- The key that tells which name a map is written with. -/
theorem first_entry (ser : Serialization) {key : Serialization} (s : Shape)
    (hkey : key_name key ∈ entryKeys) :
    ∃ suffix ∈ SqsParser.suffixes (treeView (.map ser key s)), ∀ name : Str,
      name ++ suffix = join name (map_key ser 1 (key_name key)) := by
  have hjoin : ∀ name : Str, join name (map_key ser 1 (key_name key)) =
      name ++ '.' :: map_key ser 1 (key_name key) :=
    fun name => join_of_ne_nil name (map_key_ne_nil ser 1 _)
  refine ⟨'.' :: map_key ser 1 (key_name key), ?_, fun name => (hjoin name).symm⟩
  rcases List.mem_pair.mp hkey with h | h <;> rw [h] <;> cases hflat : ser.flattened <;>
    simp only [SqsParser.suffixes, treeView, map_key, hflat] <;> decide

theorem first_entry_mem {ser key : Serialization} {s : Shape} (hl : Lawful .parser (.map ser key s))
    {w : Value} (h : flatten .parser (.map ser key s) w ≠ []) :
    map_key ser 1 (key_name key) ∈ Dict.keys (flatten .parser (.map ser key s) w) := by
  cases w with
  | dict d =>
    cases d with
    | nil => exact absurd (by simp [flatten, numbered, level_eq_nil]) h
    | cons p d => exact Dict.mem_keys_of_mem ((mem_flatten_map hl).mpr ⟨0, p, rfl, Or.inl rfl⟩)
  | _ => exact absurd (by simp [flatten]) h

section

variable {σ : Spelling} {ser : Serialization} {traits : StructureTraits} {ms : List (Str × Shape)}
  {v : Value} {node : Params} {p : Str × Shape}

theorem member_key_mem (hc : Carries σ (.struct ser traits ms) v node) (hp : p ∈ ms)
    {d : Dict Str Value} (hv : v = .dict d) {w : Value} (hw : d.get p.1 = some w) {k : Str}
    (hk : k ∈ Dict.keys (flatten .parser (spellMember σ p) w)) : join (written σ p) k ∈ node.keys := by
  refine hc.has _ ?_
  rw [spell_struct, hv]
  exact keys_flatten_struct.mpr ⟨_, List.mem_map_of_mem hp, w, hw, k, hk, rfl⟩

/-- A first entry is in the node only below the name that the member is written with. -/
theorem eq_written_of_mem (hl : LawfulSpellings (.struct ser traits ms))
    (hc : Carries σ (.struct ser traits ms) v node) (hp : p ∈ ms) (hs : ¬ IsScalar treeView p.2)
    {n : Str} (hname : n ∈ spellings p.1 p.2) {shape : ShapeNode Shape} {suffix : Str}
    (hsuffix : suffix ∈ SqsParser.suffixes shape) (hmem : n ++ suffix ∈ node.keys) :
    n = written σ p := by
  obtain ⟨k, -, hjoin⟩ := SqsParser.suffix_eq hsuffix
  rw [hjoin] at hmem
  obtain ⟨d, w, -, -, -, k', -, he⟩ := member_key_cases hl hc hp hs hname hmem (prefix_join n k)
  exact (join_inj (hl.2.1 p hp n hname).2 (hl.2.1 p hp _ (written_mem σ p)).2 he).1

/-- Where the serialized name is the written one, it is chosen. -/
theorem get_serialized_name_eq (hl : LawfulSpellings (.struct ser traits ms))
    (hc : Carries σ (.struct ser traits ms) v node) (hp : p ∈ ms) (hs : ¬ IsScalar treeView p.2)
    (hname : p.1 ∈ spellings p.1 p.2) {shape : ShapeNode Shape}
    (h : get_serialized_name shape.serialization p.1 = written σ p) :
    SqsParser.get_serialized_name shape p.1 node = written σ p := by
  rw [SqsParser.get_serialized_name_primary, h]
  intro suffix hsuffix hmem
  rw [h, ← eq_written_of_mem hl hc hp hs hname hsuffix hmem]

theorem structure_key_eq (hl : (Shape.struct ser traits ms).All LawfulSpellings)
    (hc : Carries σ (.struct ser traits ms) v node) (hp : p ∈ ms) (hs : ¬ IsScalar treeView p.2)
    {d : Dict Str Value} (hv : v = .dict d) {w : Value} (hw : d.get p.1 = some w)
    (hne : flatten .parser (spellMember σ p) w ≠ []) :
    SqsParser.structure_key treeView p.1 p.2 node = written σ p := by
  have heq (shape : ShapeNode Shape) (hname : p.1 ∈ spellings p.1 p.2)
      (h : get_serialized_name shape.serialization p.1 = written σ p) :
      SqsParser.get_serialized_name shape p.1 node = written σ p :=
    get_serialized_name_eq hl.self hc hp hs hname h
  have hmember (k : Str) (hk : k ∈ Dict.keys (flatten .parser (spellMember σ p) w)) :
      join (written σ p) k ∈ node.keys := member_key_mem hc hp hv hw hk
  have hother {n : Str} (hname : n ∈ spellings p.1 p.2) {shape : ShapeNode Shape} {suffix : Str}
      (hsuffix : suffix ∈ SqsParser.suffixes shape) (hmem : n ++ suffix ∈ node.keys) :
      n = written σ p := eq_written_of_mem hl.self hc hp hs hname hsuffix hmem
  have hlp := hl.struct_member p hp
  obtain ⟨name, s⟩ := p
  cases s with
  | scalar ser t => exact absurd (isScalar_scalar ser t) hs
  | struct ser' traits' ms' =>
    rcases written_cases σ (name, .struct ser' traits' ms') with h | ⟨_, _, _, h, -⟩
    · rw [h]
      exact @SqsParser.get_serialized_name_plain _ (treeView (.struct ser' traits' ms')) rfl name node
    · cases h
  | list ser' m =>
    rcases written_cases σ (name, .list ser' m) with h | ⟨_, _, _, h, -⟩
    · refine heq _ (List.mem_cons_of_mem _ List.mem_cons_self) ?_
      rw [h]
      cases hflat : ser'.flattened <;> simp [structure_key, treeView, hflat, ShapeNode.serialization]
    · cases h
  | map ser' key s =>
    by_cases hprimary : written σ (name, .map ser' key s) = structure_key treeView name (.map ser' key s)
    · exact heq _ (List.mem_cons_of_mem _ List.mem_cons_self) hprimary.symm
    · obtain ⟨hkey, h⟩ : key_name key ∈ entryKeys ∧ written σ (name, .map ser' key s) = name := by
        rcases written_cases σ (name, .map ser' key s) with h | ⟨_, _, _, hmap, hkey, h⟩
        · exact absurd h hprimary
        · cases hmap
          exact ⟨hkey, h⟩
      have hlaw := lawful_spell hlp fun path => σ (name :: path)
      rw [spellMember, flatten_spellMap, spell] at hne hmember
      rw [spell] at hlaw
      obtain ⟨suffix, hsuffix, hjoin⟩ := first_entry ser' s hkey
      have hfirst := hmember _ (first_entry_mem hlaw.self hne)
      rw [h] at hfirst hother hprimary ⊢
      refine SqsParser.get_serialized_name_default (fun suffix hsuffix hmem => ?_) hsuffix ?_
      · exact hprimary (hother List.mem_cons_self hsuffix hmem).symm
      · rwa [hjoin]

/-- The name that is chosen is one of the two. -/
theorem structure_key_mem (name : Str) (s : Shape) (node : Params) :
    SqsParser.structure_key treeView name s node ∈ spellings name s := by
  cases s with
  | scalar ser t =>
    have hplain := @SqsParser.get_serialized_name_plain _ (treeView (.scalar ser t)) rfl name node
    exact List.mem_singleton.mpr hplain
  | struct ser traits ms =>
    have hplain := @SqsParser.get_serialized_name_plain _ (treeView (.struct ser traits ms)) rfl name node
    exact List.mem_singleton.mpr hplain
  | list ser m =>
    have hkey : structure_key treeView name (.list ser m) = get_serialized_name
        (if ser.flattened then treeView m else treeView (.list ser m)).serialization name := by
      cases hflat : ser.flattened <;> simp [structure_key, treeView, hflat, ShapeNode.serialization]
    rcases SqsParser.get_serialized_name_cases
        (if ser.flattened then treeView m else treeView (.list ser m)) name node with h | h
    · exact List.mem_cons_of_mem _ (List.mem_singleton.mpr h)
    · exact List.mem_cons.mpr (Or.inl (h.trans hkey.symm))
  | map ser key s =>
    rcases SqsParser.get_serialized_name_cases (treeView (.map ser key s)) name node with h | h
    · exact List.mem_cons_of_mem _ (List.mem_singleton.mpr h)
    · exact List.mem_cons.mpr (Or.inl h)

end

theorem member_isName : IsName "member".toList ∧ HasLetter "member".toList :=
  ⟨by decide, 'm', by decide, by decide⟩

theorem value_isName : IsName "value".toList ∧ HasLetter "value".toList :=
  ⟨by decide, 'v', by decide, by decide⟩

theorem list_prefix_eq {σ : Spelling} {ser : Serialization} {m : Shape} {v : Value} {node : Params}
    (hl : (Shape.list ser m).All LawfulSpellings) (hc : Carries σ (.list ser m) v node) :
    SqsParser.get_list_key_prefix treeView ser m node =
      get_list_key_prefix treeView ser (spell σ m) := by
  unfold SqsParser.get_list_key_prefix get_list_key_prefix
  cases hflat : ser.flattened
  · rw [if_neg (by simp), if_neg (by simp), serialization_spell,
      SqsParser.get_serialized_name_primary]
    intro suffix hsuffix hmem
    obtain ⟨k, -, hjoin⟩ := SqsParser.suffix_eq hsuffix
    rw [hjoin] at hmem
    rcases hc.only _ hmem with hown | ⟨-, hlt⟩ | hforeign
    · rw [spell] at hown
      obtain ⟨vs, rfl⟩ := list_of_key hown
      obtain ⟨q, hq, he⟩ := List.mem_map.mp hown
      obtain ⟨j, w, -, hq⟩ := mem_flatten_list.mp hq
      obtain ⟨r, -, rfl⟩ := mem_under.mp hq
      rw [← list_key_eq, hflat, if_neg (by simp), member_level_name_spell] at he
      have hname := (join_inj hl.self.2 member_isName.1.2 he).1
      cases m <;> exact hname
    · rw [digitDepth_of_starts member_isName.1.2 member_isName.2 (prefix_join _ k)] at hlt
      exact absurd hlt (Nat.not_lt_zero _)
    · exact hforeign.elim
  · rw [if_pos rfl, if_pos rfl]

theorem value_name_eq {σ : Spelling} {ser key : Serialization} {s : Shape} {v : Value}
    {node : Params} (hl : (Shape.map ser key s).All LawfulSpellings)
    (hc : Carries σ (.map ser key s) v node) :
    SqsParser.get_serialized_name (treeView s) "value".toList node = value_name treeView s := by
  have hother : ∀ i n k k', n ≠ [] → join "value".toList k ≠ join (map_key ser i n) k' := by
    intro i n k k' hn he
    rw [← map_key_eq ser i hn] at he
    split at he
    · have hname := (join_inj value_isName.1.2 (natToStr_no_dot i) he).1
      have hdigit := @isDigit_of_mem_natToStr i 'v' (hname ▸ by decide)
      exact absurd hdigit (by decide)
    · exact absurd (join_inj value_isName.1.2 entry_isName.1.2 he).1 (by decide)
  rw [SqsParser.get_serialized_name_primary]
  · rfl
  · intro suffix hsuffix hmem
    obtain ⟨k, -, hjoin⟩ := SqsParser.suffix_eq hsuffix
    rw [hjoin] at hmem
    have hl' := lawful_spell hl σ
    rcases hc.only _ hmem with hown | ⟨-, hlt⟩ | hforeign
    · rw [spell] at hown hl'
      obtain ⟨d, rfl⟩ := dict_of_map_key hown
      obtain ⟨j, q, -, he | ⟨k', -, he⟩⟩ := keys_flatten_map hl'.self hown
      · exact absurd he (hother _ _ _ _ hl'.self.1.1)
      · exact absurd he (hother _ _ _ _ hl'.self.2.1.1)
    · rw [digitDepth_of_starts value_isName.1.2 value_isName.2 (prefix_join _ k)] at hlt
      exact absurd hlt (Nat.not_lt_zero _)
    · exact hforeign.elim

/-! ## Simulation -/

section

variable {isoparse : IsoParse}

theorem parseFuel_spellMap (b : Bool) (fuel : Nat) (s : Shape) (node : Params) :
    parseFuel treeView isoparse fuel (spellMap b s) node =
      parseFuel treeView isoparse fuel s node := by
  cases fuel with
  | zero => rfl
  | succ fuel =>
    rcases spellMap_cases b s with h | ⟨ser, key, v, rfl, -, h⟩ <;> rw [h]
    rfl

theorem process_member_spellMap (b : Bool) (fuel : Nat) (name : Str) (s : Shape) (node : Params) :
    process_member treeView isoparse (parseFuel treeView isoparse fuel) name (spellMap b s) node =
      process_member treeView isoparse (parseFuel treeView isoparse fuel) name s node := by
  rcases spellMap_cases b s with h | ⟨ser, key, v, rfl, -, h⟩
  · rw [h]
  · rw [h, process_member_container not_isScalar_map, process_member_container not_isScalar_map]
    simp only [← parseFuel_spellMap b fuel (.map ser key v), h]

/-- A member is parsed in the same way when its node is. -/
theorem process_member_spell {P Q : Shape → Params → Except Error Value} {σ : Spelling} {s : Shape}
    {name : Str} {node : Params} (hl : s.All LawfulSpellings)
    (hparse : ∀ v sub_node, Carries σ s v sub_node → P s sub_node = Q (spell σ s) sub_node)
    (hb : ¬ IsScalar treeView s → ∃ v, Below σ s v name node) :
    process_member treeView isoparse P name s node =
      process_member treeView isoparse Q name (spell σ s) node := by
  by_cases hs : IsScalar treeView s
  · have hsame : spell σ s = s := by
      obtain ⟨ser, t, h⟩ := hs
      cases s <;> cases h
      rw [spell]
    obtain ⟨ser, t, hs⟩ := hs
    rw [hsame, process_member_scalar hs, process_member_scalar hs]
  · rw [process_member_container hs, process_member_container (mt isScalar_spell.mp hs)]
    obtain ⟨v, hbelow⟩ := hb hs
    rcases hsub : filter_node name node with _ | sub_node
    · rfl
    · exact hparse v sub_node (hbelow.carries hs hl hsub)

theorem parseMembers_spell {P Q : Shape → Params → Except Error Value} {σ : Spelling}
    {required : List Str} {ms : List (Str × Shape)} {node : Params}
    (h : ∀ p ∈ ms, process_member treeView isoparse P
        (SqsParser.structure_key treeView p.1 p.2 node) p.2 node =
      process_member treeView isoparse Q (written σ p) (spellMember σ p) node) :
    SqsParser.parseMembers treeView isoparse P required ms node =
      parseMembers treeView isoparse Q required (ms.map fun p => (p.1, spellMember σ p)) node := by
  induction ms with
  | nil => rfl
  | cons p ms ih =>
    rw [List.forall_mem_cons] at h
    rw [SqsParser.parseMembers, List.map_cons, parseMembers, h.1, ih h.2]
    rfl

/-- A member of a structure is found below the name it is written with. -/
theorem struct_member_spell {σ : Spelling} {ser : Serialization} {traits : StructureTraits}
    {ms : List (Str × Shape)} {v : Value} {node : Params} {fuel : Nat}
    (hl : (Shape.struct ser traits ms).All LawfulSpellings)
    (hc : Carries σ (.struct ser traits ms) v node) {p : Str × Shape} (hp : p ∈ ms)
    (hparse : ∀ σ v sub_node, Carries σ p.2 v sub_node →
      SqsParser.parseFuel treeView isoparse fuel p.2 sub_node =
        parseFuel treeView isoparse fuel (spell σ p.2) sub_node) :
    process_member treeView isoparse (SqsParser.parseFuel treeView isoparse fuel)
        (SqsParser.structure_key treeView p.1 p.2 node) p.2 node =
      process_member treeView isoparse (parseFuel treeView isoparse fuel) (written σ p)
        (spellMember σ p) node := by
  have hlp := hl.struct_member p hp
  have hmember (name : Str) : process_member treeView isoparse (parseFuel treeView isoparse fuel)
      name (spellMember σ p) node = process_member treeView isoparse
        (parseFuel treeView isoparse fuel) name (spell (fun path => σ (p.1 :: path)) p.2) node :=
    process_member_spellMap _ _ _ _ _
  have hname := structure_key_mem p.1 p.2 node
  by_cases hs : IsScalar treeView p.2
  · have hspellings : spellings p.1 p.2 = [structure_key treeView p.1 p.2] := by
      obtain ⟨n, s⟩ := p
      obtain ⟨ser', t, h⟩ := hs
      cases s <;> cases h
      rfl
    have hwritten := written_mem σ p
    rw [hspellings, List.mem_singleton] at hname hwritten
    rw [hmember, hname, hwritten]
    exact process_member_spell hlp (hparse _) fun h => absurd hs h
  · by_cases hset : ∃ d w, v = .dict d ∧ Dict.get d p.1 = some w ∧ flatten .parser (spellMember σ p) w ≠ []
    · obtain ⟨d, w, hv, hw, hne⟩ := hset
      rw [structure_key_eq hl hc hp hs hv hw hne, hmember]
      refine process_member_spell hlp (hparse _) fun _ => ⟨w, fun k hk => ?_, fun k hk hpre => ?_⟩
      · rw [← flatten_spellMap (σ [p.1])] at hk
        exact member_key_mem hc hp hv hw hk
      · obtain ⟨d', w', hd, hw', -, k', hk', he⟩ :=
          member_key_cases hl.self hc hp hs (written_mem σ p) hk hpre
        rw [hv] at hd
        obtain rfl := Value.dict.inj hd
        rw [hw, Option.some.injEq] at hw'
        rw [spellMember, flatten_spellMap, ← hw'] at hk'
        exact Or.inl ⟨k', hk', he⟩
    · have hnone : ∀ n ∈ spellings p.1 p.2, ∀ k ∈ node.keys, ¬ n <+: k := by
        intro n hn k hk hpre
        obtain ⟨d, w, hv, hw, -, k', hk', -⟩ := member_key_cases hl.self hc hp hs hn hk hpre
        exact hset ⟨d, w, hv, hw, fun hnil => by simp [hnil] at hk'⟩
      rw [process_member_none (hnone _ hname), process_member_none (hnone _ (written_mem σ p))]

/-- **On written values the SQS parser is the query parser** of the shape as it is
written. -/
theorem parseFuel_spell {s : Shape} (hl : s.All LawfulSpellings) (hn : s.All NamedListSpellings)
    {σ : Spelling} {v : Value} {node : Params} (hc : Carries σ s v node) (fuel : Nat) :
    SqsParser.parseFuel treeView isoparse fuel s node =
      parseFuel treeView isoparse fuel (spell σ s) node := by
  induction s using Shape.induct generalizing σ v node fuel with
  | scalar ser t =>
    rw [spell]
    cases fuel <;> rfl
  | list ser m ih =>
    cases fuel with
    | zero => rfl
    | succ fuel =>
      have hprefix := list_prefix_eq hl hc
      have hstep (i : Nat) : process_member treeView isoparse
          (SqsParser.parseFuel treeView isoparse fuel) (list_key treeView ser (spell σ m) i) m node =
          process_member treeView isoparse (parseFuel treeView isoparse fuel)
            (list_key treeView ser (spell σ m) i) (spell σ m) node :=
        process_member_spell hl.list_member
          (fun _ _ h => ih hl.list_member hn.list_member h fuel)
          fun hm => list_element hl hn.self hm hc i
      rw [spell, SqsParser.parseFuel, parseFuel, SqsParser.parseNode, parseNode]
      simp only [treeView, SqsParser.parse_list, parse_list, list_key, hprefix] at hstep ⊢
      simp only [hstep]
  | map ser key s ih =>
    cases fuel with
    | zero => rfl
    | succ fuel =>
      have hkey : SqsParser.get_serialized_name (.scalar key .string : ShapeNode Shape)
          "key".toList node = key_name key := SqsParser.get_serialized_name_plain rfl _ _
      have hvalue := value_name_eq hl hc
      have hstep (i : Nat) : process_member treeView isoparse
          (SqsParser.parseFuel treeView isoparse fuel) (map_key ser i (value_name treeView s)) s
          node = process_member treeView isoparse (parseFuel treeView isoparse fuel)
            (map_key ser i (value_name treeView s)) (spell σ s) node :=
        process_member_spell hl.map_value
          (fun _ _ h => ih hl.map_value hn.map_value h fuel)
          fun hs => map_value hl hs hc i
      have hview (s : Shape) : treeView (.map ser key s) = .map ser key s := rfl
      rw [spell, SqsParser.parseFuel, parseFuel, SqsParser.parseNode, parseNode]
      simp only [hview, SqsParser.parse_map, parse_map, hkey, hvalue, value_name_spell]
      exact congrArg (fun entry => wrapErrors (collect entry (size node + 1) 1 >>= _))
        (funext fun i => congrArg (· >>= _) (hstep i))
  | struct ser traits ms ih =>
    cases fuel with
    | zero => rfl
    | succ fuel =>
      have hms := @parseMembers_spell isoparse _ _ σ traits.required_members ms node fun p hp =>
        struct_member_spell hl hc hp fun _ _ _ h =>
          ih p hp (hl.struct_member p hp) (hn.struct_member p hp) h fuel
      rw [spell_struct, SqsParser.parseFuel, parseFuel, SqsParser.parseNode, parseNode]
      simp only [treeView, hms]

end

end LocalStack.Aws.Protocol.SqsAliases
