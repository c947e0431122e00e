import LocalStack.Aws.Protocol.QueryRoundTrip

/-! Two ways to write the form parameters of a map in a structure: below its
serialized name, or below the name of the member. A request is written after a
shape in which the second kind of map has no serialized name. -/

namespace LocalStack.Aws.Protocol.SqsAliases
open LocalStack.Text LocalStack.OrderedDict LocalStack.Aws.Protocol.Query

/-! ## Spellings -/

/-- Which maps are written below the name of their member, by the names of the
members that lead to them. -/
abbrev Spelling := List Str → Bool

/-- The names of keys for which the first entry of a map is recognized. -/
def entryKeys : List Str := ["Key".toList, "Name".toList]

def spellMap (byMember : Bool) : Shape → Shape
  | .map ser key value =>
    if byMember = true ∧ key_name key ∈ entryKeys then .map { ser with name := none } key value
    else .map ser key value
  | s => s

mutual

def spell : Spelling → Shape → Shape
  | _, .scalar ser t => .scalar ser t
  | σ, .list ser member => .list ser (spell σ member)
  | σ, .map ser key value => .map ser key (spell σ value)
  | σ, .struct ser traits members => .struct ser traits (spellMembers σ members)

def spellMembers : Spelling → List (Str × Shape) → List (Str × Shape)
  | _, [] => []
  | σ, (name, shape) :: members =>
    (name, spellMap (σ [name]) (spell (fun path => σ (name :: path)) shape)) ::
      spellMembers σ members

end

/-- The shape of a member as it is written. -/
def spellMember (σ : Spelling) (p : Str × Shape) : Shape :=
  spellMap (σ [p.1]) (spell (fun path => σ (p.1 :: path)) p.2)

theorem spellMembers_eq (σ : Spelling) (ms : List (Str × Shape)) :
    spellMembers σ ms = ms.map fun p => (p.1, spellMember σ p) := by
  induction ms with
  | nil => rfl
  | cons p ms ih =>
    rw [spellMembers, ih]
    rfl

theorem spell_struct (σ : Spelling) (ser : Serialization) (traits : StructureTraits)
    (ms : List (Str × Shape)) : spell σ (.struct ser traits ms) =
      .struct ser traits (ms.map fun p => (p.1, spellMember σ p)) := by
  rw [spell, spellMembers_eq]

theorem spellMap_cases (b : Bool) (s : Shape) : spellMap b s = s ∨
    ∃ ser key v, s = .map ser key v ∧ key_name key ∈ entryKeys ∧
      spellMap b s = .map { ser with name := none } key v := by
  cases s with
  | map ser key v =>
    rw [spellMap]
    split
    · next h => exact Or.inr ⟨ser, key, v, rfl, h.2, rfl⟩
    · exact Or.inl rfl
  | _ => exact Or.inl rfl

theorem spell_serialized (s : Shape) : spell (fun _ => false) s = s := by
  induction s using Shape.induct with
  | scalar ser t => rw [spell]
  | list ser m ih => rw [spell, ih]
  | map ser key v ih => rw [spell, ih]
  | struct ser traits ms ih =>
    have hmember : ∀ p ∈ ms, (p.1, spellMember (fun _ => false) p) = p := by
      intro p hp
      rw [spellMember, ih p hp]
      rcases spellMap_cases false p.2 with h | ⟨ser, key, v, h, -⟩
      · rw [h]
      · rw [h, spellMap, if_neg (by simp), ← h]
    rw [spell_struct, List.map_congr_left hmember, List.map_id']

/-! ## What does not depend on the spelling -/

theorem serialization_spell (σ : Spelling) (s : Shape) :
    (treeView (spell σ s)).serialization = (treeView s).serialization := by
  cases s <;> rw [spell] <;> rfl

theorem member_level_name_spell (σ : Spelling) (s : Shape) :
    member_level_name (spell σ s) = member_level_name s := by
  cases s <;> rw [spell] <;> rfl

theorem value_name_spell (σ : Spelling) (s : Shape) :
    value_name treeView (spell σ s) = value_name treeView s := by
  rw [value_name, serialization_spell, value_name]

theorem structure_key_spell (σ : Spelling) (name : Str) (s : Shape) :
    structure_key treeView name (spell σ s) = structure_key treeView name s := by
  cases s with
  | list ser m =>
    have hser := serialization_spell σ m
    have hview (m : Shape) : treeView (.list ser m) = .list ser m := rfl
    rw [spell]
    simp only [structure_key, hview, hser]
  | scalar ser t => rw [spell]
  | map | struct =>
    rw [spell]
    rfl

theorem isScalar_spell {σ : Spelling} {s : Shape} :
    IsScalar treeView (spell σ s) ↔ IsScalar treeView s := by
  cases s <;> rw [spell] <;> constructor <;> rintro ⟨ser, t, h⟩ <;> cases h

theorem isScalar_spellMember {σ : Spelling} {p : Str × Shape} :
    IsScalar treeView (spellMember σ p) ↔ IsScalar treeView p.2 := by
  rw [spellMember, ← @isScalar_spell (fun path => σ (p.1 :: path)) p.2]
  rcases spellMap_cases (σ [p.1]) (spell (fun path => σ (p.1 :: path)) p.2) with h | ⟨_, _, _, h, -, h'⟩
  · rw [h]
  · rw [h', h]
    exact iff_of_false not_isScalar_map not_isScalar_map

theorem flatten_spellMap (b : Bool) (s : Shape) (v : Value) :
    flatten .parser (spellMap b s) v = flatten .parser s v := by
  rcases spellMap_cases b s with h | ⟨ser, key, s', rfl, -, h⟩
  · rw [h]
  · rw [h]
    cases v <;> rfl

theorem norm_spellMap (b : Bool) (s : Shape) (v : Value) : norm (spellMap b s) v = norm s v := by
  rcases spellMap_cases b s with h | ⟨ser, key, s', rfl, -, h⟩
  · rw [h]
  · rw [h]
    cases v with
    | dict d => cases d <;> rfl
    | _ => rfl

/-- Members of other shapes that normalize values in the same way. -/
theorem normMembers_congr {required : List Str} {ms : List (Str × Shape)} {d : Dict Str Value}
    {f : Str × Shape → Shape} (h : ∀ p ∈ ms, ∀ v, norm (f p) v = norm p.2 v) :
    normMembers required (ms.map fun p => (p.1, f p)) d = normMembers required ms d := by
  have hmember (p : Str × Shape) (hp : p ∈ ms) (o : Option Value) :
      normMember (f p) o = normMember p.2 o := by
    cases o with
    | none => rfl
    | some v => exact h p hp v
  clear h
  induction ms with
  | nil => rfl
  | cons p ms ih =>
    rw [List.forall_mem_cons] at hmember
    rw [List.map_cons, normMembers_cons, normMembers_cons, hmember.1, ih hmember.2]

theorem norm_spell (σ : Spelling) (s : Shape) (v : Value) : norm (spell σ s) v = norm s v := by
  induction s using Shape.induct generalizing σ v with
  | scalar ser t => rw [spell]
  | list ser m ih =>
    rw [spell]
    cases v with
    | list vs =>
      cases vs with
      | nil => rfl
      | cons v vs => simp only [Query.norm, ih]
    | _ => rfl
  | map ser key s ih =>
    rw [spell]
    cases v with
    | dict d =>
      cases d with
      | nil => rfl
      | cons p d => simp only [Query.norm, ih]
    | _ => rfl
  | struct ser traits ms ih =>
    rw [spell_struct]
    cases v with
    | dict d =>
      rw [Query.norm, Query.norm, normMembers_congr fun p hp v => by rw [spellMember, norm_spellMap, ih p hp]]
    | _ => rfl

theorem norm_spellMember (σ : Spelling) (p : Str × Shape) (v : Value) :
    norm (spellMember σ p) v = norm p.2 v := by
  rw [spellMember, norm_spellMap, norm_spell]

theorem typed_spellMap {b : Bool} {s : Shape} {v : Value} (h : Typed formValues s v) :
    Typed formValues (spellMap b s) v := by
  rcases spellMap_cases b s with h' | ⟨ser, key, s', rfl, -, h'⟩
  · rwa [h']
  · rw [h']
    cases h with
    | map hsize hwf hkey helement hvalue => exact .map hsize hwf hkey helement hvalue

theorem keys_spelled (σ : Spelling) (ms : List (Str × Shape)) :
    Dict.keys (ms.map fun p => (p.1, spellMember σ p)) = Dict.keys ms := by
  simp [Dict.keys]

theorem get_spelled (σ : Spelling) (ms : Dict Str Shape) (k : Str) :
    Dict.get (ms.map fun p => (p.1, spellMember σ p)) k =
      (ms.get k).map fun s => spellMember σ (k, s) :=
  Dict.get_map (f := id) (g := fun k s => spellMember σ (k, s)) fun _ _ h => h

/-- A value of the shape is one of the shape as it is written. -/
theorem typed_spell {s : Shape} {v : Value} (h : Typed formValues s v) (σ : Spelling) :
    Typed formValues (spell σ s) v := by
  induction h generalizing σ with
  | scalar h =>
    rw [spell]
    exact .scalar h
  | @list ser m vs hsize helement _ ih =>
    rw [spell]
    refine .list hsize (fun v hv => ?_) fun v hv => ih v hv σ
    have hne : norm m v ≠ .none := helement v hv
    rwa [← norm_spell σ] at hne
  | @map ser key s d hsize hwf hkey helement _ ih =>
    rw [spell]
    refine .map hsize hwf hkey (fun p hp => ?_) fun p hp => ih p hp σ
    have hne : norm s p.2 ≠ .none := helement p hp
    rwa [← norm_spell σ] at hne
  | @struct ser traits ms d hsize hwf hkey hkeys hrequired hnone _ ih =>
    rw [spell_struct]
    refine .struct hsize hwf hkey (by rwa [keys_spelled]) (by rwa [keys_spelled]) hnone
      fun k s v hs hv hne => ?_
    rw [get_spelled, Option.map_eq_some_iff] at hs
    obtain ⟨s, hs, rfl⟩ := hs
    exact typed_spellMap (ih k s v hs hv hne _)

/-! ## Names of members -/

/-- A map or a list may also stand under the name of its member. -/
def spellings (name : Str) (shape : Shape) : List Str :=
  match shape with
  | .list .. | .map .. => [structure_key treeView name shape, name]
  | _ => [structure_key treeView name shape]

/-- Names are not empty and have no dots, and no name is in one of its spellings
the beginning of a sibling's. -/
def LawfulSpellings : Shape → Prop
  | .struct _ _ members =>
    Dict.WF members ∧ (∀ p ∈ members, ∀ n ∈ spellings p.1 p.2, IsName n) ∧
      ∀ p ∈ members, ∀ q ∈ members, p.1 ≠ q.1 →
        ∀ n ∈ spellings p.1 p.2, ∀ n' ∈ spellings q.1 q.2, ¬ n <+: n'
  | s => Lawful .parser s

theorem lawfulSpellings_scalar {ser : Serialization} {t : ScalarType}
    (h : t ≠ .timestamp ∧ t ≠ .float ∧ t ≠ .double) : (Shape.scalar ser t).All LawfulSpellings :=
  .scalar h

/-- No name that is taken off the keys could be taken for an index, in any of its
spellings. -/
def NamedSpellings : Shape → Prop
  | .list ser member =>
    if ser.flattened then NamedSpellings member
    else IsScalar treeView member ∨ HasLetter (member_level_name member)
  | .struct _ _ members =>
    ∀ p ∈ members, IsScalar treeView p.2 ∨ ∀ n ∈ spellings p.1 p.2, HasLetter n
  | s => Named .parser s

/-- `NamedSpellings` below the elements of a list. -/
def NamedListSpellings : Shape → Prop
  | .list _ member => NamedSpellings member
  | _ => True

/-- The name that a member is written with. -/
def written (σ : Spelling) (p : Str × Shape) : Str := structure_key treeView p.1 (spellMember σ p)

theorem structure_key_mem_spellings (name : Str) (s : Shape) :
    structure_key treeView name s ∈ spellings name s := by
  cases s <;> exact List.mem_cons_self

theorem written_cases (σ : Spelling) (p : Str × Shape) :
    written σ p = structure_key treeView p.1 p.2 ∨
      ∃ ser key v, p.2 = .map ser key v ∧ key_name key ∈ entryKeys ∧ written σ p = p.1 := by
  rw [written, spellMember]
  rcases spellMap_cases (σ [p.1]) (spell (fun path => σ (p.1 :: path)) p.2) with h | ⟨ser, key, v, hs, hkey, h⟩
  · rw [h, structure_key_spell]
    exact Or.inl rfl
  · rw [h]
    obtain ⟨n, s⟩ := p
    cases s <;> rw [spell] at hs <;> cases hs
    exact Or.inr ⟨_, _, _, rfl, hkey, rfl⟩

theorem written_mem (σ : Spelling) (p : Str × Shape) : written σ p ∈ spellings p.1 p.2 := by
  rcases written_cases σ p with h | ⟨ser, key, v, hs, -, h⟩
  · rw [h]
    exact structure_key_mem_spellings p.1 p.2
  · rw [h, hs]
    exact List.mem_cons_of_mem _ List.mem_cons_self

/-! ## Written shapes -/

/-- What holds of a shape as it is written, when a map may lose its name. -/
theorem all_spell {P Q : Shape → Prop} (hspell : ∀ σ s, P s → Q (spell σ s))
    (hmap : ∀ ser key v, Q (.map ser key v) → Q (.map { ser with name := none } key v))
    {s : Shape} (h : s.All P) (σ : Spelling) : (spell σ s).All Q := by
  induction h generalizing σ with
  | scalar h =>
    have hq := hspell σ _ h
    rw [spell] at hq ⊢
    exact .scalar hq
  | list h _ ih =>
    have hq := hspell σ _ h
    rw [spell] at hq ⊢
    exact .list hq (ih σ)
  | map h _ ih =>
    have hq := hspell σ _ h
    rw [spell] at hq ⊢
    exact .map hq (ih σ)
  | struct h _ ih =>
    have hq := hspell σ _ h
    rw [spell_struct] at hq ⊢
    refine .struct hq (List.forall_mem_map.mpr fun p hp => ?_)
    have hall := ih p hp fun path => σ (p.1 :: path)
    dsimp only
    rw [spellMember]
    rcases spellMap_cases (σ [p.1]) (spell (fun path => σ (p.1 :: path)) p.2) with h | ⟨ser, key, v, hs, -, h⟩
    · rwa [h]
    · rw [hs] at hall
      rw [h]
      exact .map (hmap ser key v hall.self) hall.map_value

theorem lawful_spell {s : Shape} (h : s.All LawfulSpellings) (σ : Spelling) :
    (spell σ s).All (Lawful .parser) := by
  refine all_spell (fun σ s hs => ?_) (fun _ _ _ h => h) h σ
  cases s with
  | scalar ser t =>
    rw [spell]
    exact hs
  | list ser m =>
    rw [spell, Lawful, member_level_name_spell]
    exact hs
  | map ser key v =>
    rw [spell, Lawful, value_name_spell]
    exact hs
  | struct ser traits ms =>
    obtain ⟨hwf, hnames, hprefix⟩ := hs
    rw [spell_struct]
    refine ⟨by rwa [Dict.WF, keys_spelled], ?_, ?_⟩
    · rw [List.forall_mem_map]
      exact fun p hp => ⟨hnames p hp _ (written_mem σ p), hnames p hp _ (written_mem σ p)⟩
    · rw [List.forall_mem_map]
      intro p hp
      rw [List.forall_mem_map]
      exact fun q hq hne => hprefix p hp q hq hne _ (written_mem σ p) _ (written_mem σ q)

theorem lawful_of_spellings {s : Shape} (h : s.All LawfulSpellings) : s.All (Lawful .parser) := by
  have hl := lawful_spell h fun _ => false
  rwa [spell_serialized] at hl

theorem named_spell {s : Shape} (h : NamedSpellings s) (σ : Spelling) : Named .parser (spell σ s) := by
  induction s using Shape.induct generalizing σ with
  | scalar ser t =>
    rw [spell]
    exact h
  | list ser m ih =>
    rw [NamedSpellings] at h
    rw [spell, Named, member_level_name_spell, isScalar_spell]
    split
    · next hflat =>
      rw [if_pos hflat] at h
      exact ih h σ
    · next hflat => rwa [if_neg hflat] at h
  | map ser key v _ =>
    rw [spell, Named, value_name_spell, isScalar_spell]
    exact h
  | struct ser traits ms _ =>
    rw [spell_struct, Named, List.forall_mem_map]
    intro p hp
    rw [isScalar_spellMember]
    exact (h p hp).imp_right fun hletter => hletter _ (written_mem σ p)

theorem namedList_spell {s : Shape} (h : s.All NamedListSpellings) (σ : Spelling) :
    (spell σ s).All (NamedList .parser) := by
  refine all_spell (fun σ s hs => ?_) (fun _ _ _ h => h) h σ
  cases s with
  | list ser m =>
    rw [spell]
    exact named_spell hs σ
  | scalar => rw [spell]; trivial
  | map => rw [spell]; trivial
  | struct => rw [spell_struct]; trivial

theorem fillable_of_spellMap {b : Bool} {s : Shape} (h : Fillable (spellMap b s)) : Fillable s := by
  rcases spellMap_cases b s with h' | ⟨ser, key, v, rfl, -, h'⟩ <;> rw [h'] at h
  · exact h
  · cases h with
    | map h => exact .map h

theorem fillable_of_spell {σ : Spelling} {s : Shape} (h : Fillable (spell σ s)) : Fillable s := by
  induction s using Shape.induct generalizing σ with
  | scalar ser t => exact .scalar
  | list ser m ih =>
    rw [spell] at h
    cases h with
    | list h => exact .list (ih h)
  | map ser key v ih =>
    rw [spell] at h
    cases h with
    | map h => exact .map (ih h)
  | struct ser traits ms ih =>
    rw [spell_struct] at h
    cases h with
    | struct hp h =>
      obtain ⟨p, hmem, rfl⟩ := List.mem_map.mp hp
      exact .struct hmem (ih p hmem (fillable_of_spellMap h))

theorem quietList_spell {s : Shape} (h : s.All QuietList) (σ : Spelling) :
    (spell σ s).All QuietList := by
  refine all_spell (fun σ s hs => ?_) (fun _ _ _ h => h) h σ
  cases s with
  | list ser m =>
    cases m with
    | list ser' m =>
      cases m with
      | struct ser'' traits ms =>
        intro hflat hfill
        rw [spellMembers_eq, ← spell_struct] at hfill
        rw [spellMembers_eq, List.forall_mem_map]
        exact hs hflat (fillable_of_spell hfill)
      | _ => simp only [spell, QuietList]
    | _ => simp only [spell, QuietList]
  | _ => simp only [spell, QuietList]

end LocalStack.Aws.Protocol.SqsAliases
