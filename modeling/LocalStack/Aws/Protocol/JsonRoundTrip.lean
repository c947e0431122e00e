import LocalStack.Aws.Protocol.Json
import Mathlib.Data.List.Nodup

/-! Which values survive being written as a JSON tree and parsed again. A value
is followed through both directions at once: `TravelsAs` relates it to its tree
and to what the parser returns. -/

namespace LocalStack.Aws.Protocol.Json
open LocalStack.Lists LocalStack.Text LocalStack.OrderedDict LocalStack.Calendar
open LocalStack.Aws.Datetime LocalStack.Aws.Protocol.Serializer LocalStack.Aws.Protocol.Parser

/-! ## Values and shapes -/

/-- Values without `None`, with timestamps in years of four digits. -/
def jsonValues : ValueRules where
  scalar _ t v :=
    match t, v with
    | .string, .str _ | .integer, .int _ | .long, .int _ | .boolean, .bool _
    | .blob, .bytes _ => True
    | .timestamp, .datetime t =>
      InRange t ∧ 1000 ≤ (dateOf t).year ∧ (dateOf t).year ≤ 9999
    | _, _ => False

/-- Timestamps that are written as numbers are at whole seconds. -/
def wholeSecondValues : ValueRules where
  scalar ser t v :=
    jsonValues.scalar ser t v ∧
      match t, v with
      | .timestamp, .datetime t =>
        ser.timestampFormat.getD .unixtimestamp = .unixtimestamp → t % 1000000 = 0
      | _, _ => True

/-- The parser of ISO 8601 text knows the instants that the serializer writes. -/
def ParsesIso8601 (isoparse : IsoParse) : Prop :=
  ∀ t, 1000 ≤ (dateOf t).year → (dateOf t).year ≤ 9999 → isoparse (iso8601 t) = .ok t

def serializedNames (members : Dict Str Shape) : List Str :=
  members.map fun p => p.2.getSerializedName p.1

/-- No two members have one name, and there are no documents. -/
def Lawful : Shape → Prop
  | .struct _ traits members =>
    Dict.WF members ∧ (serializedNames members).Nodup ∧ traits.is_document_type = false
  | _ => True

/-- The name that a member is written under. -/
def wireName (members : Dict Str Shape) (name : Str) : Str :=
  match members.get name with
  | some s => s.getSerializedName name
  | none => name

theorem wireName_eq {ms : Dict Str Shape} {n : Str} {s : Shape} (h : ms.get n = some s) :
    wireName ms n = s.getSerializedName n := by
  simp [wireName, h]

theorem wireName_inj {ms : Dict Str Shape} (hnames : (serializedNames ms).Nodup) {n n' : Str}
    (hn : n ∈ ms.keys) (hn' : n' ∈ ms.keys) (h : wireName ms n = wireName ms n') : n = n' := by
  obtain ⟨s, hs⟩ := Dict.exists_get hn
  obtain ⟨s', hs'⟩ := Dict.exists_get hn'
  rw [wireName_eq hs, wireName_eq hs'] at h
  have hpair := List.inj_on_of_nodup_map hnames (Dict.mem_of_get hs) (Dict.mem_of_get hs') h
  exact congrArg Prod.fst hpair

theorem typed_isNone {s : Shape} {v : Value} (h : Typed jsonValues s v) : v.isNone = false :=
  h.isNone_eq_false fun _ t ht => by cases t <;> exact ht

/-! ## Serializer -/

theorem itemsWith_eq {member : Shape} {vs : List Value} {T : Value → Value}
    (h : ∀ v ∈ vs, v.isNone = false ∧
      ∀ key body, serializeWith false v member key body = .ok (Dict.set body key (T v))) :
    itemsWith false member vs = .ok (vs.map T) := by
  induction vs with
  | nil => rfl
  | cons v vs ih =>
    obtain ⟨⟨hn, hv⟩, hrest⟩ := List.forall_mem_cons.mp h
    simp only [itemsWith, hn, hv, ih hrest, bind, Except.bind, Dict.get_set_self,
      Bool.false_eq_true, if_false]
    rfl

theorem entriesWith_eq {value : Shape} {d : List (Str × Value)} {T : Value → Value}
    (h : ∀ p ∈ d, p.2.isNone = false ∧
      ∀ key body, serializeWith false p.2 value key body = .ok (Dict.set body key (T p.2)))
    (map_obj : Dict Str Value) :
    entriesWith false value d map_obj =
      .ok ((d.map fun p => (p.1, T p.2)).foldl (fun b p => b.set p.1 p.2) map_obj) := by
  induction d generalizing map_obj with
  | nil => rfl
  | cons p d ih =>
    obtain ⟨⟨hn, hp⟩, hrest⟩ := List.forall_mem_cons.mp h
    simp [entriesWith, hn, hp, ih hrest, bind, Except.bind]

theorem membersWith_eq {ms : Dict Str Shape} {d : List (Str × Value)} {T : Str → Value}
    (h : ∀ p ∈ d, p.2.isNone = false ∧ ∃ s, ms.get p.1 = some s ∧
      ∀ key body, serializeWith false p.2 s key body = .ok (Dict.set body key (T p.1)))
    (body : Dict Str Value) :
    membersWith false ms d body =
      .ok ((d.map fun p => (wireName ms p.1, T p.1)).foldl (fun b p => b.set p.1 p.2) body) := by
  induction d generalizing body with
  | nil => rfl
  | cons p d ih =>
    obtain ⟨⟨hn, s, hs, hp⟩, hrest⟩ := List.forall_mem_cons.mp h
    simp [membersWith, hn, hs, hp, ih hrest, wireName_eq hs, bind, Except.bind]

theorem wf_map_wireName {ms : Dict Str Shape} (hnames : (serializedNames ms).Nodup)
    {d : Dict Str Value} (hd : d.WF) (hkeys : ∀ k ∈ d.keys, k ∈ ms.keys) (T : Str → Value) :
    Dict.WF (d.map fun p => (wireName ms p.1, T p.1)) := by
  have hmap : Dict.keys (d.map fun p => (wireName ms p.1, T p.1)) =
      (Dict.keys d).map (wireName ms) := by
    simp [Dict.keys]
  rw [Dict.WF, hmap]
  exact List.Nodup.map_on (fun k hk k' hk' h => wireName_inj hnames (hkeys k hk) (hkeys k' hk') h) hd

/-! ## Parser -/

theorem parseMembers_eq (isoparse : IsoParse) (required : List Str) (ms : List (Str × Shape))
    (node : Dict Str Value) :
    parseMembers isoparse required ms node =
      Dict.filterMapM (fun n s =>
        (parse_shape isoparse s ((node.get (s.getSerializedName n)).getD .none)).map fun parsed =>
          if parsed.isNone = false ∨ n ∈ required then some parsed else none) ms := by
  induction ms with
  | nil => rfl
  | cons p ms ih =>
    obtain ⟨n, s⟩ := p
    simp only [parseMembers, Dict.filterMapM, ih]
    rcases parse_shape isoparse s _ with e | parsed
    · rfl
    · simp only [bind, Except.bind, Except.map]
      generalize Dict.filterMapM _ ms = r
      by_cases hkeep : parsed.isNone = false ∨ n ∈ required <;> cases r <;>
        simp [hkeep, pure, Except.pure]

theorem parse_shape_none (isoparse : IsoParse) (s : Shape) :
    parse_shape isoparse s .none = .ok .none := by
  rw [parse_shape]

theorem parse_struct_eq {isoparse : IsoParse} {ser : Serialization} {traits : StructureTraits}
    {ms : Dict Str Shape} (hdoc : traits.is_document_type = false) (node : Dict Str Value) :
    parse_shape isoparse (.struct ser traits ms) (.dict node) =
      wrapErrors ((parseMembers isoparse traits.required_members ms node).map .dict) := by
  rw [parse_shape]
  simp only [hdoc, Bool.false_eq_true, if_false]
  rcases parseMembers isoparse traits.required_members ms node with e | r <;> rfl

/-! ## There and back -/

/-- The value `v` is written as `tree`, which parses to `r`, and that is the same
value just when `v` keeps to whole seconds. -/
structure TravelsAs (isoparse : IsoParse) (s : Shape) (v tree r : Value) : Prop where
  serializes : ∀ key body, serialize v s key body = .ok (Dict.set body key tree)
  parses : parse_shape isoparse s tree = .ok r
  isNone : r.isNone = false
  same_iff : v.Same r ↔ Typed wholeSecondValues s v

theorem same_scalar_iff {v r : Value} (hlist : ∀ vs, v ≠ .list vs) (hdict : ∀ d, v ≠ .dict d) :
    v.Same r ↔ v = r := by
  refine ⟨fun h => ?_, fun h => h ▸ .refl v⟩
  cases h with
  | refl => rfl
  | list => exact absurd rfl (hlist _)
  | dict => exact absurd rfl (hdict _)

theorem typed_scalar_iff {R : ValueRules} {ser : Serialization} {t : ScalarType} {v : Value} :
    Typed R (.scalar ser t) v ↔ R.scalar ser t v :=
  ⟨fun h => by cases h; assumption, .scalar⟩

theorem travelsAs_scalar {isoparse : IsoParse} (hiso : ParsesIso8601 isoparse) {ser : Serialization}
    {t : ScalarType} {v : Value} (h : jsonValues.scalar ser t v) :
    ∃ tree r, TravelsAs isoparse (.scalar ser t) v tree r := by
  have hrefl : ∀ tree, (∀ key body, serialize v (.scalar ser t) key body = .ok (Dict.set body key tree)) →
      parse_shape isoparse (.scalar ser t) tree = .ok v → v.isNone = false →
      wholeSecondValues.scalar ser t v → ∃ tree r, TravelsAs isoparse (.scalar ser t) v tree r :=
    fun tree hs hp hn hw => ⟨tree, v, hs, hp, hn, iff_of_true (.refl v) (.scalar hw)⟩
  cases t <;> cases v <;> try exact h.elim
  case string.str s => exact hrefl _ (fun _ _ => rfl) rfl rfl ⟨h, trivial⟩
  case integer.int i => exact hrefl _ (fun _ _ => rfl) rfl rfl ⟨h, trivial⟩
  case long.int i => exact hrefl _ (fun _ _ => rfl) rfl rfl ⟨h, trivial⟩
  case boolean.bool b => exact hrefl _ (fun _ _ => rfl) rfl rfl ⟨h, trivial⟩
  case blob.bytes bs =>
    refine hrefl (.str (Base64.b64encode bs)) (fun _ _ => rfl) ?_ rfl ⟨h, trivial⟩
    simp [parse_shape, parseScalar, Parser.parseScalar, parse_blob, Base64.b64decode_b64encode,
      orValueError, Except.map]
  case timestamp.datetime t =>
    obtain ⟨hrange, hlo, hhi⟩ := h
    cases hf : ser.timestampFormat.getD .unixtimestamp with
    | iso8601 =>
      refine hrefl (.str (iso8601 t)) (fun _ _ => ?_) ?_ rfl ⟨⟨hrange, hlo, hhi⟩, by simp [hf]⟩
      · simp [serialize, serializeWith, serializeScalar, hf, convert_timestamp_to_str, Except.map,
          wrapSerializerErrors]
      · simp [parse_shape, parseScalar, Parser.parseScalar, parse_timestamp, hf,
          convert_str_to_timestamp, hiso t hlo hhi, Except.map]
    | unixtimestamp =>
      obtain ⟨t', ht', hiff⟩ := fromtimestamp_truncate hrange
      refine ⟨.float (timestamp t), .datetime t', fun _ _ => ?_, ?_, rfl, ?_⟩
      · simp [serialize, serializeWith, serializeScalar, hf, convert_timestamp_to_str, Except.map,
          wrapSerializerErrors]
      · simp [parse_shape, parseScalar, Parser.parseScalar, parse_timestamp, hf,
          convert_str_to_timestamp, pyInt, ht', bind, Except.bind, pure, Except.pure]
      · rw [same_scalar_iff (by simp) (by simp), typed_scalar_iff, Value.datetime.injEq, eq_comm, hiff]
        exact ⟨fun ht => ⟨⟨hrange, hlo, hhi⟩, fun _ => ht⟩, fun ht => ht.2 hf⟩

theorem travelsAs_list {isoparse : IsoParse} {ser : Serialization} {m : Shape} {vs : List Value}
    {T R : Value → Value} (hn : ∀ v ∈ vs, v.isNone = false)
    (h : ∀ v ∈ vs, TravelsAs isoparse m v (T v) (R v)) :
    TravelsAs isoparse (.list ser m) (.list vs) (.list (vs.map T)) (.list (vs.map R)) where
  serializes key body := by
    rw [serialize, serializeWith, itemsWith_eq fun v hv => ⟨hn v hv, (h v hv).serializes⟩]
    rfl
  parses := by
    have hmap : (vs.map T).mapM (fun item => parse_shape isoparse m item) = .ok (vs.map R) := by
      induction vs with
      | nil => rfl
      | cons v vs ih =>
        rw [List.forall_mem_cons] at hn h
        exact mapM_cons_ok h.1.parses (ih hn.2 h.2)
    simp only [parse_shape, Value.iter, hmap]
    rfl
  isNone := rfl
  same_iff := by
    have hsame : Value.Same (.list vs) (.list (vs.map R)) ↔ ∀ v ∈ vs, v.Same (R v) := by
      have hpoint : List.Forall₂ Value.Same vs (vs.map R) ↔ ∀ v ∈ vs, v.Same (R v) := by
        rw [List.forall₂_map_right_iff, List.forall₂_same]
      exact ⟨fun hs => hpoint.mp hs.forall₂, fun hs => .list (hpoint.mpr hs)⟩
    rw [hsame]
    refine ⟨fun hs => .list trivial (fun _ _ => trivial) fun v hv => (h v hv).same_iff.mp (hs v hv),
      fun ht v hv => (h v hv).same_iff.mpr ?_⟩
    cases ht with
    | list _ _ hvs => exact hvs v hv

theorem wf_map_values {d : Dict Str Value} (hd : d.WF) (F : Value → Value) :
    Dict.WF (d.map fun p => (p.1, F p.2)) := by
  have hkeys : Dict.keys (d.map fun p => (p.1, F p.2)) = d.keys := by simp [Dict.keys]
  rwa [Dict.WF, hkeys]

theorem get_map_values (d : Dict Str Value) (F : Value → Value) (k : Str) :
    Dict.get (d.map fun p => (p.1, F p.2)) k = (d.get k).map F :=
  Dict.get_map (f := id) (g := fun _ => F) fun _ _ h => h

theorem travelsAs_map {isoparse : IsoParse} {ser key : Serialization} {s : Shape}
    {d : Dict Str Value} {T R : Value → Value} (hd : d.WF) (hn : ∀ p ∈ d, p.2.isNone = false)
    (h : ∀ p ∈ d, TravelsAs isoparse s p.2 (T p.2) (R p.2)) :
    TravelsAs isoparse (.map ser key s) (.dict d) (.dict (d.map fun p => (p.1, T p.2)))
      (.dict (d.map fun p => (p.1, R p.2))) where
  serializes k body := by
    have hobj := entriesWith_eq (fun p hp => ⟨hn p hp, (h p hp).serializes⟩) []
    rw [← Dict.ofPairs, Dict.ofPairs_of_wf (wf_map_values hd T)] at hobj
    rw [serialize, serializeWith, hobj]
    rfl
  parses := by
    have hmap : (d.map fun p => (p.1, T p.2)).mapM
        (fun p => do return (p.1, ← parse_shape isoparse s p.2)) =
        .ok (d.map fun p => (p.1, R p.2)) := by
      clear hd
      induction d with
      | nil => rfl
      | cons p d ih =>
        rw [List.forall_mem_cons] at hn h
        refine mapM_cons_ok ?_ (ih hn.2 h.2)
        simp only [h.1.parses]
        rfl
    have hpairs := Dict.ofPairs_of_wf (wf_map_values hd R)
    simp only [parse_shape, hmap]
    simp only [bind, Except.bind, hpairs]
    rfl
  isNone := rfl
  same_iff := by
    refine ⟨fun hs => .map trivial hd (fun _ _ => trivial) (fun _ _ => trivial) fun p hp => ?_,
      fun ht => .dict_of_get fun k => ?_⟩
    · refine (h p hp).same_iff.mp (hs.get (k := p.1) (Dict.get_of_mem hd hp) ?_)
      rw [get_map_values, Dict.get_of_mem hd hp]
      rfl
    · rw [get_map_values]
      rcases hv : d.get k with _ | v
      · simp
      · have hmem := Dict.mem_of_get hv
        cases ht with
        | map _ _ _ _ hvs => simpa using (h _ hmem).same_iff.mpr (hvs _ hmem)

/-- A structure value, its members being followed by name. -/
theorem travelsAs_struct {isoparse : IsoParse} {ser : Serialization} {traits : StructureTraits}
    {ms : Dict Str Shape} {d : Dict Str Value} {T R : Str → Value}
    (hl : Lawful (.struct ser traits ms)) (hv : Typed jsonValues (.struct ser traits ms) (.dict d))
    (h : ∀ k s v, ms.get k = some s → d.get k = some v → TravelsAs isoparse s v (T k) (R k)) :
    ∃ tree r, TravelsAs isoparse (.struct ser traits ms) (.dict d) tree r := by
  obtain ⟨hms, hnames, hdoc⟩ := hl
  cases hv with
  | struct _ hd _ hkeys hrequired hnone hmem =>
    have hn : ∀ k v, d.get k = some v → v ≠ .none := fun k v hk hv => hnone k (hv ▸ hk)
    have hobj : membersWith false ms d [] = .ok (d.map fun p => (wireName ms p.1, T p.1)) := by
      rw [membersWith_eq, ← Dict.ofPairs,
        Dict.ofPairs_of_wf (wf_map_wireName hnames hd hkeys T)]
      intro p hp
      have hget := Dict.get_of_mem hd hp
      obtain ⟨s, hs⟩ := Dict.exists_get (hkeys _ (Dict.mem_keys_of_mem hp))
      exact ⟨typed_isNone (hmem _ s _ hs hget (hn _ _ hget)), s, hs, (h _ s _ hs hget).serializes⟩
    have hlookup : ∀ k ∈ ms.keys,
        Dict.get (d.map fun p => (wireName ms p.1, T p.1)) (wireName ms k) =
          (d.get k).map fun _ => T k := fun k hk =>
      Dict.get_map (f := wireName ms) (g := fun k _ => T k) fun k' hk' he =>
        wireName_inj hnames (hkeys k' hk') hk he
    let g : Str → Shape → Option Value := fun k _ => (d.get k).map fun _ => R k
    have hparse : parseMembers isoparse traits.required_members ms
        (d.map fun p => (wireName ms p.1, T p.1)) = .ok (Dict.filterMap g ms) := by
      rw [parseMembers_eq]
      refine Dict.filterMapM_ok fun p hp => ?_
      have hs := Dict.get_of_mem hms hp
      have hk := Dict.mem_keys_of_mem hp
      rw [← wireName_eq hs, hlookup p.1 hk]
      rcases hget : d.get p.1 with _ | v
      · have hreq : p.1 ∉ traits.required_members := fun hr =>
          (Dict.get_eq_none_iff d p.1).mp hget (hrequired trivial p.1 hr hk)
        simp [parse_shape_none, Except.map, hreq, g, hget]
      · have ht := h p.1 p.2 v hs hget
        simp [ht.parses, Except.map, ht.isNone, g, hget]
    refine ⟨.dict (d.map fun p => (wireName ms p.1, T p.1)), .dict (Dict.filterMap g ms),
      ⟨fun key body => ?_, ?_, rfl, ?_⟩⟩
    · rw [serialize, serializeWith, hdoc, hobj]
      rfl
    · rw [parse_struct_eq hdoc, hparse]
      rfl
    · have hget : ∀ k s, ms.get k = some s →
          Dict.get (Dict.filterMap g ms) k = (d.get k).map fun _ => R k := fun k s hs => by
        rw [Dict.get_filterMap hms, hs]
        rfl
      refine ⟨fun hs => .struct trivial hd (fun _ _ => trivial) hkeys hrequired hnone
        fun k s v hk hv _ => ?_, fun ht => .dict_of_get fun k => ?_⟩
      · refine (h k s v hk hv).same_iff.mp (hs.get hv ?_)
        rw [hget k s hk, hv]
        rfl
      · rcases hk : ms.get k with _ | s
        · have hd : d.get k = none := by
            rw [Dict.get_eq_none_iff] at hk ⊢
            exact fun hin => hk (hkeys k hin)
          simp [Dict.get_filterMap hms, hk, hd]
        · rw [hget k s hk]
          rcases hv : d.get k with _ | v
          · simp
          · cases ht with
            | struct _ _ _ _ _ _ hvs =>
              simpa using (h k s v hk hv).same_iff.mpr (hvs k s v hk hv (hn k v hv))

/-- Every typed value is written and parsed. -/
theorem exists_travelsAs {isoparse : IsoParse} (hiso : ParsesIso8601 isoparse) {s : Shape}
    {v : Value} (hv : Typed jsonValues s v) (hl : s.All Lawful) :
    ∃ tree r, TravelsAs isoparse s v tree r := by
  induction hv with
  | scalar h => exact travelsAs_scalar hiso h
  | @list ser m vs _ _ hvs ih =>
    have htravels := fun v hv => ih v hv hl.list_member
    choose! T R hTR using htravels
    exact ⟨_, _, travelsAs_list (fun v hv => typed_isNone (hvs v hv)) hTR⟩
  | @map ser key s d _ hd _ _ hvs ih =>
    have htravels : ∀ v ∈ d.map Prod.snd, ∃ tree r, TravelsAs isoparse s v tree r := by
      simp only [List.mem_map, forall_exists_index, and_imp, forall_apply_eq_imp_iff₂]
      exact fun p hp => ih p hp hl.map_value
    choose! T R hTR using htravels
    exact ⟨_, _, travelsAs_map hd (fun p hp => typed_isNone (hvs p hp))
      fun p hp => hTR p.2 (List.mem_map_of_mem hp)⟩
  | @struct ser traits ms d hsize hd hkey hkeys hrequired hnone hmem ih =>
    have htravels : ∀ k s v, ms.get k = some s → d.get k = some v →
        ∃ t : Value × Value, TravelsAs isoparse s v t.1 t.2 := by
      intro k s v hs hv
      obtain ⟨tree, r, h⟩ := ih k s v hs hv (fun hn => hnone k (hn ▸ hv))
        (hl.struct_member _ (Dict.mem_of_get hs))
      exact ⟨(tree, r), h⟩
    have hpair : Nonempty (Value × Value) := ⟨(.none, .none)⟩
    obtain ⟨f, hf⟩ := Dict.choose_of_get htravels
    exact travelsAs_struct hl.self (.struct hsize hd hkey hkeys hrequired hnone hmem) hf

theorem TravelsAs.serialize_body_params {isoparse : IsoParse} {ser : Serialization}
    {traits : StructureTraits} {ms : Dict Str Shape} {v tree r : Value}
    (hv : Typed jsonValues (.struct ser traits ms) v) (hl : Lawful (.struct ser traits ms))
    (h : TravelsAs isoparse (.struct ser traits ms) v tree r) :
    serialize_body_params v (.struct ser traits ms) = .ok tree := by
  cases hv with
  | @struct _ _ _ d =>
    have hs := h.serializes [] []
    rw [serialize, serializeWith, hl.2.2] at hs
    simp only [Bool.false_eq_true, if_false] at hs
    rw [Json.serialize_body_params]
    rcases hobj : membersWith false ms d [] with e | obj
    · cases e <;> simp [hobj, Except.map, wrapSerializerErrors] at hs
    · simpa [hobj, Except.map, wrapSerializerErrors, Dict.set] using hs

/-- The value comes back when it is written under a key of a body, and when it is
a structure that is written as the body. -/
def RoundTrips (isoparse : IsoParse) (s : Shape) (v : Value) : Prop :=
  (∀ key body, ∃ body' tree r, serialize v s key body = .ok body' ∧
    Dict.get body' key = some tree ∧ parse_shape isoparse s tree = .ok r ∧ v.Same r) ∧
  ∀ ser traits ms, s = .struct ser traits ms →
    ∃ tree r, serialize_body_params v s = .ok tree ∧ parse_shape isoparse s tree = .ok r ∧ v.Same r

/-- **Round trip.** A value comes back just when its timestamps that are written
as numbers are at whole seconds: the serializer writes the fraction of a second,
the parser converts it to an `int`. -/
theorem roundTrips_iff_wholeSeconds {isoparse : IsoParse} (hiso : ParsesIso8601 isoparse)
    {s : Shape} {v : Value} (hl : s.All Lawful) (hv : Typed jsonValues s v) :
    RoundTrips isoparse s v ↔ Typed wholeSecondValues s v := by
  obtain ⟨tree, r, h⟩ := exists_travelsAs hiso hv hl
  refine ⟨fun hr => ?_, fun hw => ⟨fun key body => ?_, fun ser traits ms hs => ?_⟩⟩
  · obtain ⟨body', tree', r', hser, hget, hparse, hsame⟩ := hr.1 [] []
    rw [h.serializes, Except.ok.injEq] at hser
    rw [← hser, Dict.get_set_self, Option.some.injEq] at hget
    rw [← hget, h.parses, Except.ok.injEq] at hparse
    rw [← h.same_iff, hparse]
    exact hsame
  · exact ⟨_, tree, r, h.serializes key body, Dict.get_set_self .., h.parses, h.same_iff.mpr hw⟩
  · subst hs
    exact ⟨tree, r, h.serialize_body_params hv hl.self, h.parses, h.same_iff.mpr hw⟩

/-- `readIso8601` is such a parser, so a half second in ISO 8601 text comes back. -/
theorem half_second_roundTrips :
    RoundTrips (fun s => .ok (readIso8601 s))
      (.struct {} {} [("at".toList, .list {} (.scalar { timestampFormat := some .iso8601 }
        .timestamp))])
      (.dict [("at".toList, .list [.datetime 1700000000500000])]) := by
  have hdate : InRange 1700000000500000 ∧ 1000 ≤ (dateOf 1700000000500000).year ∧
      (dateOf 1700000000500000).year ≤ 9999 := by decide
  refine (roundTrips_iff_wholeSeconds (fun t hlo hhi => ?_) ?_ ?_).mpr ?_
  · rw [readIso8601_iso8601 hlo hhi]
  · refine .struct ⟨by decide, by decide, rfl⟩ (List.forall_mem_singleton.mpr ?_)
    exact .list trivial (.scalar trivial)
  · refine .struct_of_entries trivial (by decide) (by simp) (List.forall_mem_singleton.mpr ?_)
    refine ⟨trivial, nofun, _, rfl, fun _ => .list trivial (fun _ _ => trivial) ?_⟩
    exact List.forall_mem_singleton.mpr (.scalar hdate)
  · refine .struct_of_entries trivial (by decide) (by simp) (List.forall_mem_singleton.mpr ?_)
    refine ⟨trivial, nofun, _, rfl, fun _ => .list trivial (fun _ _ => trivial) ?_⟩
    exact List.forall_mem_singleton.mpr (.scalar ⟨hdate, nofun⟩)

/-- A half second since the epoch is written as a float and cut off. -/
theorem half_second_lost :
    let s : Shape := .struct {} {} [("at".toList, .scalar {} .timestamp)]
    let v : Value := .dict [("at".toList, .datetime 1700000000500000)]
    Typed jsonValues s v ∧ ∀ isoparse, ∃ tree,
      serialize_body_params v s = .ok tree ∧
      parse_shape isoparse s tree =
        .ok (.dict [("at".toList, .datetime 1700000000000000)]) ∧
      ¬ v.Same (.dict [("at".toList, .datetime 1700000000000000)]) := by
  refine ⟨?_, fun isoparse => ⟨_, rfl, ?_, fun h => ?_⟩⟩
  · refine .struct_of_entries trivial (by decide) (by simp) (List.forall_mem_singleton.mpr ?_)
    have hdate : InRange 1700000000500000 ∧ 1000 ≤ (dateOf 1700000000500000).year ∧
        (dateOf 1700000000500000).year ≤ 9999 := by decide
    exact ⟨trivial, nofun, _, rfl, fun _ => .scalar hdate⟩
  · have hcut : truncate (timestamp 1700000000500000) = 1700000000 := by
      rw [truncate_timestamp]; rfl
    have hback : fromtimestamp ((1700000000 : Int) : ℚ) = .ok 1700000000000000 := by
      have htime : ((1700000000 : Int) : ℚ) = timestamp 1700000000000000 := by norm_num [timestamp]
      rw [htime, fromtimestamp_timestamp (by decide)]
    have hscalar : parse_shape isoparse (.scalar {} .timestamp)
        (.float (timestamp 1700000000500000)) = .ok (.datetime 1700000000000000) := by
      simp only [parse_shape, parseScalar, Parser.parseScalar, parse_timestamp,
        convert_str_to_timestamp, Option.getD_none, pyInt, hcut, bind, Except.bind, hback]
      rfl
    rw [parse_struct_eq rfl, parseMembers_eq]
    simp [Dict.filterMapM, Dict.set, Shape.getSerializedName, Shape.serialization,
      convert_timestamp_to_str, hscalar, Except.map, Value.isNone]
  · have hsame := h.get (k := "at".toList) rfl rfl
    rw [same_scalar_iff (by simp) (by simp)] at hsame
    cases hsame

end LocalStack.Aws.Protocol.Json
