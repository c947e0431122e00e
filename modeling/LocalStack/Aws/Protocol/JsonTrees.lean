import LocalStack.Aws.Protocol.Json

/-! The trees that the JSON and the REST-JSON serializer write for values that may have
`None` inside containers and members that their shape does not have. -/

namespace LocalStack.Aws.Protocol.JsonTrees
open LocalStack.Text LocalStack.OrderedDict
open LocalStack.Aws.Protocol.Serializer LocalStack.Aws.Protocol.Json

/-! ## Values with `None` inside -/

/-- The values of a body, except that list items, map values and members may be
`None` and that structures may have other members. A document may be anything. -/
inductive Loose (R : ValueRules) : Shape → Value → Prop
  | scalar {ser t v} : R.scalar ser t v → Loose R (.scalar ser t) v
  | list {ser m} {vs : List Value} : R.size vs.length →
      (∀ v ∈ vs, v ≠ .none → Loose R m v) → Loose R (.list ser m) (.list vs)
  | map {ser key s} {d : Dict Str Value} : R.size d.length → d.WF → (∀ p ∈ d, R.key p.1) →
      (∀ p ∈ d, p.2 ≠ .none → Loose R s p.2) → Loose R (.map ser key s) (.dict d)
  | document {ser traits ms v} : traits.is_document_type = true → v ≠ .none →
      Loose R (.struct ser traits ms) v
  | struct {ser traits} {ms : Dict Str Shape} {d : Dict Str Value} :
      traits.is_document_type = false → R.size d.length → d.WF → (∀ p ∈ d, R.key p.1) →
      (∀ k s v, ms.get k = some s → d.get k = some v → v ≠ .none → Loose R s v) →
      Loose R (.struct ser traits ms) (.dict d)

/-- A structure value without other members is loose when its entries are. -/
theorem Loose.struct_of_entries {R : ValueRules} {ser : Serialization} {traits : StructureTraits}
    {ms : Dict Str Shape} {d : Dict Str Value} (hdoc : traits.is_document_type = false)
    (hsize : R.size d.length) (hwf : d.WF) (hkeys : ∀ p ∈ d, R.key p.1)
    (h : ∀ p ∈ d, p.2 ≠ .none → ∃ s, ms.get p.1 = some s ∧ Loose R s p.2) :
    Loose R (.struct ser traits ms) (.dict d) := by
  refine .struct hdoc hsize hwf hkeys fun k s v hs hv hne => ?_
  obtain ⟨s', hs', hloose⟩ := h _ (Dict.mem_of_get hv) hne
  rw [hs] at hs'
  cases hs'
  exact hloose

/-- Blobs may be given as text. -/
def bodyScalars : ValueRules where
  scalar _ t v :=
    match t, v with
    | .string, .str _ | .integer, .int _ | .long, .int _ | .boolean, .bool _
    | .blob, .bytes _ | .blob, .str _ | .timestamp, .datetime _ => True
    | .float, .float _ | .double, .float _ | .float, .special _ | .double, .special _ => True
    | _, _ => False

/-- The rules ask at least for the scalars of a body. -/
def HasBodyScalars (R : ValueRules) : Prop :=
  ∀ ser t v, R.scalar ser t v → bodyScalars.scalar ser t v

/-- A `None` map value that is written has a shape of strings, numbers or booleans. -/
def Plain : Shape → Prop
  | .scalar _ t => t ≠ .blob ∧ t ≠ .timestamp
  | _ => False

/-- Wherever a map has a `None` value, its value shape is plain. -/
inductive NullsPlain : Shape → Value → Prop
  | scalar {ser t v} : NullsPlain (.scalar ser t) v
  | list {ser m} {vs : List Value} : (∀ v ∈ vs, v ≠ .none → NullsPlain m v) →
      NullsPlain (.list ser m) (.list vs)
  | map {ser key s} {d : Dict Str Value} : (∀ p ∈ d, p.2 = .none → Plain s) →
      (∀ p ∈ d, p.2 ≠ .none → NullsPlain s p.2) → NullsPlain (.map ser key s) (.dict d)
  | document {ser traits ms v} : traits.is_document_type = true →
      NullsPlain (.struct ser traits ms) v
  | struct {ser traits} {ms : Dict Str Shape} {d : Dict Str Value} :
      traits.is_document_type = false →
      (∀ k s v, ms.get k = some s → d.get k = some v → v ≠ .none → NullsPlain s v) →
      NullsPlain (.struct ser traits ms) (.dict d)

/-! ## Trees -/

def scalarTree (ser : Serialization) : ScalarType → Value → Value
  | .blob, .bytes bs => .str (Base64.b64encode bs)
  | .blob, .str s => .str (Base64.b64encode (Bytes.encodeUtf8 s))
  | .timestamp, .datetime t => convert_timestamp_to_str t (ser.timestampFormat.getD .unixtimestamp)
  | _, v => v

mutual

/-- The tree that is written for a value. -/
def tree (keepsNone : Bool) : Value → Shape → Value
  | v, .scalar ser t => scalarTree ser t v
  | .list vs, .list _ member => .list (itemTrees keepsNone member vs)
  | .dict d, .map _ _ value => .dict (Dict.ofPairs (entryTrees keepsNone value d))
  | v, .struct _ traits members =>
    if traits.is_document_type then v
    else
      match v with
      | .dict d => .dict (Dict.ofPairs (memberTrees keepsNone members d))
      | v => v
  | v, _ => v
termination_by structural v => v

def itemTrees (keepsNone : Bool) (member : Shape) : List Value → List Value
  | [] => []
  | v :: vs =>
    if v.isNone then itemTrees keepsNone member vs
    else tree keepsNone v member :: itemTrees keepsNone member vs
termination_by structural vs => vs

def entryTrees (keepsNone : Bool) (value : Shape) : List (Str × Value) → List (Str × Value)
  | [] => []
  | (k, v) :: d =>
    if v.isNone && !keepsNone then entryTrees keepsNone value d
    else (k, tree keepsNone v value) :: entryTrees keepsNone value d
termination_by structural d => d

def memberTrees (keepsNone : Bool) (members : Dict Str Shape) :
    List (Str × Value) → List (Str × Value)
  | [] => []
  | (k, v) :: d =>
    if v.isNone then memberTrees keepsNone members d
    else
      match members.get k with
      | none => memberTrees keepsNone members d
      | some s => (s.getSerializedName k, tree keepsNone v s) :: memberTrees keepsNone members d
termination_by structural d => d

end

theorem itemTrees_eq_map (keepsNone : Bool) (m : Shape) (vs : List Value) :
    itemTrees keepsNone m vs =
      (vs.filter fun v => !v.isNone).map fun v => tree keepsNone v m := by
  induction vs with
  | nil => rfl
  | cons v vs ih => cases hn : v.isNone <;> simp [itemTrees, hn, ih]

theorem entryTrees_eq_map (keepsNone : Bool) (s : Shape) (d : List (Str × Value)) :
    entryTrees keepsNone s d =
      (d.filter fun p => !p.2.isNone || keepsNone).map fun p => (p.1, tree keepsNone p.2 s) := by
  induction d with
  | nil => rfl
  | cons p d ih => cases hn : p.2.isNone <;> cases keepsNone <;> simp [entryTrees, hn, ih]

/-- The value is written as its tree, whatever the key and the body. -/
def Written (keepsNone : Bool) (s : Shape) (v : Value) : Prop :=
  ∀ key body, serializeWith keepsNone v s key body = .ok (body.set key (tree keepsNone v s))

section
variable {keepsNone : Bool}

theorem itemsWith_eq {m : Shape} {vs : List Value}
    (h : ∀ v ∈ vs, v ≠ .none → Written keepsNone m v) :
    itemsWith keepsNone m vs = .ok (itemTrees keepsNone m vs) := by
  induction vs with
  | nil => rfl
  | cons v vs ih =>
    obtain ⟨hv, hvs⟩ := List.forall_mem_cons.mp h
    cases hn : v.isNone with
    | true => simp [itemsWith, itemTrees, hn, ih hvs]
    | false =>
      have hne : v ≠ .none := fun he => by simp [he] at hn
      simp [itemsWith, itemTrees, hn, ih hvs, hv hne currentKey [], bind, Except.bind, pure,
        Except.pure]

theorem entriesWith_eq {s : Shape} {d : List (Str × Value)}
    (h : ∀ p ∈ d, (p.2.isNone && !keepsNone) = false → Written keepsNone s p.2)
    (map_obj : Dict Str Value) :
    entriesWith keepsNone s d map_obj =
      .ok ((entryTrees keepsNone s d).foldl (fun b p => b.set p.1 p.2) map_obj) := by
  induction d generalizing map_obj with
  | nil => rfl
  | cons p d ih =>
    obtain ⟨k, v⟩ := p
    obtain ⟨hp, hrest⟩ := List.forall_mem_cons.mp h
    cases hn : v.isNone && !keepsNone with
    | true => simp only [entriesWith, entryTrees, hn, ih hrest, if_true]
    | false =>
      simp only [entriesWith, entryTrees, hn, hp hn k map_obj, Bool.false_eq_true, if_false, bind,
        Except.bind, ih hrest, List.foldl_cons]

theorem membersWith_eq {ms : Dict Str Shape} {d : List (Str × Value)}
    (h : ∀ p ∈ d, p.2 ≠ .none → ∀ s, ms.get p.1 = some s → Written keepsNone s p.2)
    (body : Dict Str Value) :
    membersWith keepsNone ms d body =
      .ok ((memberTrees keepsNone ms d).foldl (fun b p => b.set p.1 p.2) body) := by
  induction d generalizing body with
  | nil => rfl
  | cons p d ih =>
    obtain ⟨k, v⟩ := p
    obtain ⟨hp, hrest⟩ := List.forall_mem_cons.mp h
    cases hn : v.isNone with
    | true => simp only [membersWith, memberTrees, hn, ih hrest, if_true]
    | false =>
      have hne : v ≠ .none := fun he => by simp [he] at hn
      cases hs : ms.get k with
      | none => simp only [membersWith, memberTrees, hn, hs, ih hrest, Bool.false_eq_true, if_false]
      | some s =>
        have hwritten := hp hne s hs (s.getSerializedName k) body
        dsimp only at hwritten
        simp only [membersWith, memberTrees, hn, hs, ih hrest, hwritten, Bool.false_eq_true,
          if_false, bind, Except.bind, List.foldl_cons]

theorem written_scalar {ser : Serialization} {t : ScalarType} {v : Value}
    (h : bodyScalars.scalar ser t v) : Written keepsNone (.scalar ser t) v := by
  intro key body
  cases t <;> cases v <;> first | exact h.elim | rfl

/-- `None` is written where the shape is plain. -/
theorem written_none {s : Shape} (h : Plain s) : Written keepsNone s .none := by
  intro key body
  cases s with
  | scalar ser t =>
    obtain ⟨hblob, htime⟩ := h
    cases t <;> first | contradiction | rfl
  | _ => exact h.elim

/-- A loose value is written if `None` is dropped, or is only kept where it can be. -/
theorem written_of_loose {R : ValueRules} (hR : HasBodyScalars R) {s : Shape} {v : Value}
    (h : Loose R s v) (hnulls : keepsNone = true → NullsPlain s v) : Written keepsNone s v := by
  induction h with
  | scalar hv => exact written_scalar (hR _ _ _ hv)
  | @list ser m vs _ _ ih =>
    intro key body
    have hitems : ∀ v ∈ vs, v ≠ .none → Written keepsNone m v := by
      refine fun v hv hne => ih v hv hne fun hk => ?_
      cases hnulls hk with
      | list hall => exact hall v hv hne
    rw [serializeWith, itemsWith_eq hitems]
    rfl
  | @map ser key s d _ _ _ _ ih =>
    intro k body
    have hentries : ∀ p ∈ d, (p.2.isNone && !keepsNone) = false → Written keepsNone s p.2 := by
      intro p hp hkept
      by_cases hne : p.2 = .none
      · have hk : keepsNone = true := by simpa [hne] using hkept
        cases hnulls hk with
        | map hplain _ =>
          rw [hne]
          exact written_none (hplain p hp hne)
      · refine ih p hp hne fun hk => ?_
        cases hnulls hk with
        | map _ hall => exact hall p hp hne
    rw [serializeWith, entriesWith_eq hentries]
    rfl
  | @document ser traits ms v hdoc hne =>
    intro key body
    cases v <;> simp [serializeWith, tree, hdoc] at hne ⊢
  | @struct ser traits ms d hdoc _ hwf _ _ ih =>
    intro key body
    have hmembers : ∀ p ∈ d, p.2 ≠ .none → ∀ s, ms.get p.1 = some s →
        Written keepsNone s p.2 := by
      refine fun p hp hne s hs => ih p.1 s p.2 hs (Dict.get_of_mem hwf hp) hne fun hk => ?_
      cases hnulls hk with
      | document hdoc' => rw [hdoc] at hdoc'; cases hdoc'
      | struct _ hall => exact hall p.1 s p.2 hs (Dict.get_of_mem hwf hp) hne
    simp only [serializeWith, hdoc, Bool.false_eq_true, if_false, membersWith_eq hmembers, tree]
    rfl

end

end LocalStack.Aws.Protocol.JsonTrees
