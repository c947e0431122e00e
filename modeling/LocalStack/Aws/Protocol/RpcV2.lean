import LocalStack.Aws.Protocol.CborRoundTrip
import LocalStack.Aws.Protocol.Parser

/-! `RpcV2CBORRequestParser`: a decoded CBOR body parsed against a shape, and
which shapes the RPC v2 CBOR serializer and this parser agree on. -/

namespace LocalStack.Aws.Protocol.RpcV2
open LocalStack.Lists LocalStack.Text LocalStack.OrderedDict LocalStack.BinaryFloat
open LocalStack.Aws.Datetime
open LocalStack.Aws.Protocol.Parser LocalStack.Aws.Protocol.Cbor

/-! ## Parser -/

/-- The scalar handlers: `BaseCBORRequestParser` takes what CBOR has already
decoded as it is. -/
def parseScalar (isoparse : IsoParse) (ser : Serialization) (node : Value) :
    ScalarType → Except Error Value
  | .blob => .ok node
  | .timestamp =>
    match node with
    | .datetime _ => .ok node
    | _ => parse_timestamp isoparse .unixtimestamp ser node
  | .boolean =>
    match node with
    | .str s => parseBooleanText s
    | _ => .ok node
  | t => Parser.parseScalar isoparse .unixtimestamp ser node t

/-- A tagged union has one member besides `__type`. -/
def checkTaggedUnion (node : Dict Str Value) : Except Error Unit :=
  let cleaned_value := node.filter fun p => p.1 ≠ "__type".toList ∧ !p.2.isNone
  if cleaned_value.length = 1 then .ok () else .error .protocolParserError

mutual

/-- `_parse_shape`. There is no `_parse_map`, so maps are returned as they are. -/
def parse_shape (isoparse : IsoParse) : Shape → Value → Except Error Value
  | _, .none => .ok .none
  | .scalar ser t, node => wrapErrors (parseScalar isoparse ser node t)
  | .list _ member, node =>
    wrapErrors do
      match node.iter with
      | none => throw .typeError
      | some items => return .list (← items.mapM fun item => parse_shape isoparse member item)
  | .map .., node => .ok node
  | .struct _ traits members, node =>
    wrapErrors do
      if traits.is_document_type then return node
      match node with
      | .dict d =>
        if traits.is_tagged_union then checkTaggedUnion d
        return .dict (← parseMembers isoparse members d)
      | _ =>
        if traits.is_tagged_union = false ∧ members = [] then return .dict []
        throw .attributeError

def parseMembers (isoparse : IsoParse) :
    List (Str × Shape) → Dict Str Value → Except Error (List (Str × Value))
  | [], _ => .ok []
  | (member_name, member_shape) :: members, node =>
    match node.get member_name with
    | none | some .none => parseMembers isoparse members node
    | some member_value => do
      let value ← parse_shape isoparse member_shape member_value
      return (member_name, value) :: (← parseMembers isoparse members node)

end

/-- Decode a body and parse it against the shape. -/
def parse_body (unpackFloat : List UInt8 → Value) (isoparse : IsoParse) (s : Shape)
    (body : List UInt8) : Except Error Value := do
  let (node, _) ← parse_data_item unpackFloat body
  parse_shape isoparse s node

/-! ## Values and shapes -/

/-- Values without `None`, with timestamps at whole seconds. -/
def rpcValues : ValueRules where
  scalar ser t v :=
    match t, v with
    | .timestamp, .datetime t => t % 1000000 = 0 ∧ InRange t
    | t, v => dataItems.scalar ser t v
  key := dataItems.key
  size := dataItems.size
  setsRequired := False

/-- Doubles hold whole seconds exactly. -/
structure PacksWholeSeconds (cfg : Config) (unpackFloat : List UInt8 → Value) : Prop where
  length : ∀ n : Int, InRange (n * 1000000) → (cfg.packDouble n).length = 8
  unpack : ∀ n : Int, InRange (n * 1000000) → unpackFloat (cfg.packDouble n) = .float n

/-- What holds of every shape of a service, and no floats, tagged unions and documents. -/
def Lawful (s : Shape) : Prop :=
  NamesFit s ∧
    match s with
    | .scalar _ t => t ≠ .float ∧ t ≠ .double
    | .struct _ traits members =>
      Dict.WF members ∧ (∀ n ∈ Dict.keys members, dataItems.key n) ∧
        traits.is_document_type = false ∧ traits.is_tagged_union = false
    | _ => True

/-- No member of the structure has another name on the wire than its own. -/
def KeepsNames : Shape → Prop
  | .struct _ _ members => ∀ p ∈ members, p.2.getSerializedName p.1 = p.1
  | _ => True

section

variable {cfg : Config} {unpackFloat : List UInt8 → Value} {isoparse : IsoParse}

theorem serialize_type_timestamp_spec (hp : PacksWholeSeconds cfg unpackFloat) {t : Int}
    (hs : t % 1000000 = 0) (hr : InRange t) :
    Decodes unpackFloat (serialize_type_timestamp cfg t) (.datetime t) := by
  obtain ⟨n, rfl⟩ : ∃ n, t = n * 1000000 := ⟨t / 1000000, by omega⟩
  have htime : timestamp (n * 1000000) = n := by simp [timestamp]
  have hdouble := @decodes_float unpackFloat 27 (cfg.packDouble n) (by simp [hp.length n hr])
  rw [hp.unpack n hr] at hdouble
  have hdate : parse_type_datetime (.float n) = .ok (.datetime (n * 1000000)) := by
    have hmillis : (n : ℚ) * 1000 = ((n * 1000 : Int) : ℚ) := by push_cast; rfl
    have hback : ((n * 1000 : Int) : ℚ) / 1000 = timestamp (n * 1000000) := by
      rw [htime]; push_cast; simp
    simp only [parse_type_datetime, hmillis, truncate_intCast, hback, fromtimestamp_timestamp hr,
      Except.map]
  rw [serialize_type_timestamp, htime]
  refine decodes_of_majorType _ (by decide) (by decide) (by decide) fun fuel hf rest => ?_
  have htag : parse_type_unsigned_integer 1
      (get_initial_byte floatAndSimpleMajorType 27 :: cfg.packDouble n ++ rest) =
      .ok (1, get_initial_byte floatAndSimpleMajorType 27 :: cfg.packDouble n ++ rest) := rfl
  simp only [tagMajorType, parseMajorType, htag, (hdouble fuel hf).reads, bind, Except.bind, hdate,
    if_true, pure, Except.pure]

theorem rpcValues_readable (hp : PacksWholeSeconds cfg unpackFloat) :
    Readable cfg unpackFloat rpcValues := by
  have hdata := dataItems_readable cfg unpackFloat
  refine ⟨fun ser t v h => ?_, hdata.key, hdata.size⟩
  cases t
  case timestamp =>
    cases v <;> first | exact h.elim | skip
    exact ⟨rfl, _, rfl, serialize_type_timestamp_spec hp h.1 h.2⟩
  all_goals exact hdata.scalar ser _ v h

theorem typed_isNone {s : Shape} {v : Value} (h : Typed rpcValues s v) : v.isNone = false :=
  h.isNone_eq_false fun _ t ht => by cases t <;> exact ht

/-- Every shape has a value. -/
theorem exists_typed {s : Shape} (hl : Lawful s) : ∃ v, Typed rpcValues s v := by
  cases s with
  | scalar ser t =>
    cases t
    case string => exact ⟨.str [], .scalar (by decide : (0 : Nat) < 2 ^ 64)⟩
    case boolean => exact ⟨.bool true, .scalar trivial⟩
    case blob => exact ⟨.bytes [], .scalar (by decide : (0 : Nat) < 2 ^ 64)⟩
    case timestamp => exact ⟨.datetime 0, .scalar ⟨rfl, by decide⟩⟩
    case float => exact absurd rfl hl.2.1
    case double => exact absurd rfl hl.2.2
    all_goals exact ⟨.int 0, .scalar (⟨by decide, by decide⟩ : -2 ^ 64 ≤ (0 : Int) ∧ (0 : Int) < 2 ^ 64)⟩
  | list ser m =>
    exact ⟨.list [], .list (by decide : (0 : Nat) < 2 ^ 64) (by simp) (by simp)⟩
  | map ser key v =>
    exact ⟨.dict [], .map (by decide : (0 : Nat) < 2 ^ 64) (by simp) (by simp) (by simp) (by simp)⟩
  | struct ser traits ms =>
    refine ⟨.dict [], .struct_of_entries (by decide : (0 : Nat) < 2 ^ 64) (by simp) ?_ (by simp)⟩
    exact fun h => h.elim

/-! ## Shapes that keep their names -/

theorem wireItems_eq {m : Shape} {vs : List Value} (h : ∀ v ∈ vs, wire v m = v) :
    wireItems m vs = vs := by
  induction vs with
  | nil => rfl
  | cons v vs ih =>
    rw [List.forall_mem_cons] at h
    rw [wireItems, h.1, ih h.2]

theorem wireEntries_eq {s : Shape} {d : List (Str × Value)} (h : ∀ p ∈ d, wire p.2 s = p.2) :
    wireEntries s d = d := by
  induction d with
  | nil => rfl
  | cons p d ih =>
    rw [List.forall_mem_cons] at h
    rw [wireEntries, h.1, ih h.2]

theorem wireMembers_eq {ms : Dict Str Shape} {d : List (Str × Value)}
    (h : ∀ p ∈ d, p.2.isNone = false ∧
      ∃ s, ms.get p.1 = some s ∧ s.getSerializedName p.1 = p.1 ∧ wire p.2 s = p.2) :
    wireMembers ms d = d := by
  induction d with
  | nil => rfl
  | cons p d ih =>
    obtain ⟨⟨hn, s, hg, hname, hw⟩, hrest⟩ := List.forall_mem_cons.mp h
    simp [wireMembers, hn, hg, hname, hw, ih hrest]

/-- A value of a shape that keeps its names is written as it is. -/
theorem wire_eq {s : Shape} {v : Value} (h : Typed rpcValues s v) (hk : s.All KeepsNames) :
    wire v s = v := by
  induction h with
  | @scalar ser t v _ => cases v <;> rfl
  | list _ _ _ ih => rw [wire, wireItems_eq fun v hv => ih v hv hk.list_member]
  | map _ hwf _ _ _ ih =>
    rw [wire, wireEntries_eq fun p hp => ih p hp hk.map_value, Dict.ofPairs_of_wf hwf]
  | @struct ser traits ms d _ hwf _ hkeys _ hnone hmem ih =>
    rw [wire, wireMembers_eq, Dict.ofPairs_of_wf hwf]
    intro p hp
    have hget := Dict.get_of_mem hwf hp
    obtain ⟨s, hs⟩ := Dict.exists_get (hkeys _ (Dict.mem_keys_of_mem hp))
    have hn : p.2 ≠ .none := fun hn => hnone p.1 (hn ▸ hget)
    have hms := Dict.mem_of_get hs
    exact ⟨typed_isNone (hmem _ s _ hs hget hn), s, hs, hk.self _ hms,
      ih _ s _ hs hget hn (hk.struct_member _ hms)⟩

theorem parseMembers_eq (ms : Dict Str Shape) (node : Dict Str Value) :
    parseMembers isoparse ms node =
      Dict.filterMapM (fun n s =>
        match node.get n with
        | none | some .none => .ok none
        | some v => (parse_shape isoparse s v).map some) ms := by
  induction ms with
  | nil => rfl
  | cons p ms ih =>
    obtain ⟨n, s⟩ := p
    rw [parseMembers, Dict.filterMapM]
    rcases node.get n with _ | v
    · exact ih
    · cases v
      case none => exact ih
      all_goals
        simp only [ih]
        rcases parse_shape isoparse s _ with e | w
        · rfl
        · simp only [Except.map, bind, Except.bind]
          generalize Dict.filterMapM _ ms = r
          cases r <;> rfl

theorem parse_scalar_eq {ser : Serialization} {t : ScalarType} {v : Value}
    (h : rpcValues.scalar ser t v) : parse_shape isoparse (.scalar ser t) v = .ok v := by
  cases t <;> cases v <;> first | exact h.elim | rfl

theorem parse_struct_eq {ser : Serialization} {traits : StructureTraits} {ms : Dict Str Shape}
    (hl : Lawful (.struct ser traits ms)) (node : Dict Str Value) :
    parse_shape isoparse (.struct ser traits ms) (.dict node) =
      wrapErrors ((parseMembers isoparse ms node).map .dict) := by
  obtain ⟨-, -, -, hdoc, hunion⟩ := hl
  rw [parse_shape]
  simp only [hdoc, hunion, Bool.false_eq_true, if_false]
  rcases parseMembers isoparse ms node with e | r <;> rfl

/-- A typed value that arrives as it is parses to the same value. -/
theorem parse_same {s : Shape} {v : Value} (h : Typed rpcValues s v) (hl : s.All Lawful) :
    ∃ r, parse_shape isoparse s v = .ok r ∧ v.Same r := by
  induction h with
  | scalar hv => exact ⟨_, parse_scalar_eq hv, .refl _⟩
  | @list ser m vs _ _ _ ih =>
    obtain ⟨rs, hrs, hsame⟩ := exists_mapM_ok fun v hv => ih v hv hl.list_member
    refine ⟨.list rs, ?_, .list hsame⟩
    simp only [parse_shape, Value.iter, hrs]
    rfl
  | map => exact ⟨_, rfl, .refl _⟩
  | @struct ser traits ms d _ hwf _ hkeys _ hnone hmem ih =>
    have hms := hl.self.2.1
    let g : Str → Shape → Option Value := fun n s =>
      (d.get n).bind fun v => (parse_shape isoparse s v).toOption
    have hg : ∀ n s v, ms.get n = some s → d.get n = some v →
        ∃ r, parse_shape isoparse s v = .ok r ∧ v.Same r := fun n s v hs hv =>
      ih n s v hs hv (fun hn => hnone n (hn ▸ hv)) (hl.struct_member _ (Dict.mem_of_get hs))
    have hparse : parseMembers isoparse ms d = .ok (Dict.filterMap g ms) := by
      rw [parseMembers_eq]
      refine Dict.filterMapM_ok fun p hp => ?_
      have hs := Dict.get_of_mem hms hp
      rcases hv : d.get p.1 with _ | v
      · simp [g, hv]
      · obtain ⟨r, hr, -⟩ := hg p.1 p.2 v hs hv
        have hn : v ≠ .none := fun hn => hnone p.1 (hn ▸ hv)
        cases v <;> first | exact absurd rfl hn | simp [g, hv, hr, Except.map, Except.toOption]
    refine ⟨.dict (Dict.filterMap g ms), ?_, .dict_of_get fun k => ?_⟩
    · rw [parse_struct_eq hl.self, hparse]
      rfl
    · rw [Dict.get_filterMap hms]
      rcases hv : d.get k with _ | v
      · cases ms.get k <;> simp [g, hv]
      · obtain ⟨s, hs⟩ := Dict.exists_get (hkeys k (Dict.mem_keys_of_mem (Dict.mem_of_get hv)))
        obtain ⟨r, hr, hsame⟩ := hg k s v hs hv
        simpa [hs, g, hv, hr, Except.toOption] using hsame

/-! ## Shapes that do not -/

theorem typed_singleton_list (ser : Serialization) {m : Shape} {v : Value}
    (h : Typed rpcValues m v) : Typed rpcValues (.list ser m) (.list [v]) :=
  .list (by decide : (1 : Nat) < 2 ^ 64) (fun _ _ => trivial) (by simpa using h)

theorem typed_singleton_map (ser key : Serialization) {s : Shape} {v : Value}
    (h : Typed rpcValues s v) : Typed rpcValues (.map ser key s) (.dict [([], v)]) :=
  .map (by decide : (1 : Nat) < 2 ^ 64) (by simp)
    (List.forall_mem_singleton.mpr (by decide : (0 : Nat) < 2 ^ 64)) (fun _ _ => trivial)
    (by simpa using h)

theorem typed_singleton_struct {ser : Serialization} {traits : StructureTraits}
    {ms : Dict Str Shape} (hl : Lawful (.struct ser traits ms)) {n : Str} {s : Shape}
    (hs : ms.get n = some s) {v : Value} (h : Typed rpcValues s v) :
    Typed rpcValues (.struct ser traits ms) (.dict [(n, v)]) := by
  refine .struct_of_entries (by decide : (1 : Nat) < 2 ^ 64) (by simp) (fun h => h.elim) ?_
  refine List.forall_mem_singleton.mpr
    ⟨hl.2.2.1 n (Dict.mem_keys_of_mem (Dict.mem_of_get hs)), ?_, s, hs, fun _ => h⟩
  intro hn
  have hnot := typed_isNone h
  rw [show v = .none from hn] at hnot
  cases hnot

theorem wire_singleton_struct {ser : Serialization} {traits : StructureTraits}
    {ms : Dict Str Shape} {n : Str} {s : Shape} (hs : ms.get n = some s) {v : Value}
    (h : Typed rpcValues s v) :
    wire (.dict [(n, v)]) (.struct ser traits ms) =
      .dict [(s.getSerializedName n, wire v s)] := by
  simp [wire, wireMembers, typed_isNone h, hs, Dict.ofPairs, Dict.set]

/-- Shapes whose values stay the same on the wire keep their names. -/
theorem keepsNames_of_wire_same {s : Shape} (hl : s.All Lawful)
    (h : ∀ v, Typed rpcValues s v → v.Same (wire v s)) : s.All KeepsNames := by
  induction s using Shape.induct with
  | scalar ser t => exact .scalar trivial
  | list ser m ih =>
    refine .list trivial (ih hl.list_member fun v hv => ?_)
    have hsame := (h _ (typed_singleton_list ser hv)).forall₂
    simpa [wireItems] using hsame
  | map ser key s ih =>
    refine .map trivial (ih hl.map_value fun v hv => ?_)
    have hsame := h _ (typed_singleton_map ser key hv)
    rw [wire, wireEntries, wireEntries] at hsame
    exact hsame.get (k := []) rfl rfl
  | struct ser traits ms ih =>
    have hsame : ∀ n s, Dict.get ms n = some s → ∀ v, Typed rpcValues s v →
        s.getSerializedName n = n ∧ v.Same (wire v s) := by
      intro n s hs v hv
      have hwire := h _ (typed_singleton_struct hl.self hs hv)
      rw [wire_singleton_struct hs hv] at hwire
      have hname : s.getSerializedName n = n := by
        simpa [eq_comm] using (hwire.mem_keys n).mp (by simp)
      rw [hname] at hwire
      exact ⟨hname, hwire.get (k := n) (by simp) (by simp)⟩
    refine .struct (fun p hp => ?_) fun p hp => ?_ <;>
      have hs := Dict.get_of_mem hl.self.2.1 hp
    · obtain ⟨v, hv⟩ := exists_typed (hl.struct_member p hp).self
      exact (hsame _ _ hs v hv).1
    · exact ih p hp (hl.struct_member p hp) fun v hv => (hsame _ _ hs v hv).2

theorem keepsNames_of_parse_same {s : Shape} (hl : s.All Lawful)
    (h : ∀ v, Typed rpcValues s v →
      ∃ r, parse_shape isoparse s (wire v s) = .ok r ∧ v.Same r) : s.All KeepsNames := by
  induction s using Shape.induct with
  | scalar ser t => exact .scalar trivial
  | list ser m ih =>
    refine .list trivial (ih hl.list_member fun v hv => ?_)
    obtain ⟨r, hr, hsame⟩ := h _ (typed_singleton_list ser hv)
    simp only [wire, wireItems, parse_shape, Value.iter, wrapErrors_eq_ok] at hr
    rcases hp : parse_shape isoparse m (wire v m) with e | r'
    · simp [hp, bind, Except.bind] at hr
    · simp only [List.mapM_cons, List.mapM_nil, hp, bind, Except.bind, pure, Except.pure,
        Except.ok.injEq] at hr
      subst hr
      exact ⟨r', rfl, by simpa using hsame.forall₂⟩
  | map ser key s _ =>
    -- a map is returned as it arrives, so its values are not parsed at all
    have hkeep : (Shape.map ser key s).All KeepsNames := by
      refine keepsNames_of_wire_same hl fun v hv => ?_
      obtain ⟨r, hr, hsame⟩ := h v hv
      cases hv with
      | map =>
        simp only [wire, parse_shape, Except.ok.injEq] at hr ⊢
        rwa [hr]
    exact hkeep
  | struct ser traits ms ih =>
    have hmember : ∀ n s, Dict.get ms n = some s → ∀ v, Typed rpcValues s v →
        s.getSerializedName n = n ∧
          ∃ r, parse_shape isoparse s (wire v s) = .ok r ∧ v.Same r := by
      intro n s hs v hv
      obtain ⟨r, hr, hsame⟩ := h _ (typed_singleton_struct hl.self hs hv)
      rw [wire_singleton_struct hs hv, parse_struct_eq hl.self, wrapErrors_eq_ok] at hr
      obtain ⟨e, he, rfl⟩ : ∃ e, parseMembers isoparse ms [(s.getSerializedName n, wire v s)] =
          .ok e ∧ r = .dict e := by
        rcases hp : parseMembers isoparse ms [(s.getSerializedName n, wire v s)] with err | e
        · simp [hp, Except.map] at hr
        · simp only [hp, Except.map, Except.ok.injEq] at hr
          exact ⟨e, rfl, hr.symm⟩
      obtain ⟨w, hw⟩ := Dict.exists_get ((hsame.mem_keys n).mp (by simp))
      rw [parseMembers_eq] at he
      obtain ⟨s', hs', hf⟩ := Dict.of_get_filterMapM hl.self.2.1 he hw
      rw [hs] at hs'
      cases hs'
      by_cases hname : s.getSerializedName n = n
      · refine ⟨hname, w, ?_, hsame.get (k := n) (by simp) hw⟩
        rw [hname, Dict.get_cons_self] at hf
        have hn := wire_isNone s (typed_isNone hv)
        cases hwire : wire v s <;> simp only [hwire, Value.isNone_none] at hf hn
        case none => cases hn
        all_goals
          rcases hp : parse_shape isoparse s _ with err | w'
          · simp [hp, Except.map] at hf
          · simpa [hp, Except.map] using hf
      · rw [Dict.get_cons_ne _ _ hname] at hf
        simp at hf
    refine .struct (fun p hp => ?_) fun p hp => ?_ <;>
      have hs := Dict.get_of_mem hl.self.2.1 hp
    · obtain ⟨v, hv⟩ := exists_typed (hl.struct_member p hp).self
      exact (hmember _ _ hs v hv).1
    · exact ih p hp (hl.struct_member p hp) fun v hv => (hmember _ _ hs v hv).2

/-! ## The round trip -/

/-- Every value of the shape, written and parsed by the shape, is the same value. -/
def RoundTrips (cfg : Config) (unpackFloat : List UInt8 → Value) (isoparse : IsoParse)
    (s : Shape) : Prop :=
  ∀ v, Typed rpcValues s v →
    ∃ bs, serialize_data_item cfg v s = .ok bs ∧
      ∃ r, parse_body unpackFloat isoparse s bs = .ok r ∧ v.Same r

/-- The bytes are read back as the wire tree, so only that is parsed. -/
theorem roundTrips_iff_wire (hp : PacksWholeSeconds cfg unpackFloat) {s : Shape}
    (hl : s.All Lawful) :
    RoundTrips cfg unpackFloat isoparse s ↔
      ∀ v, Typed rpcValues s v →
        ∃ r, parse_shape isoparse s (wire v s) = .ok r ∧ v.Same r := by
  refine forall₂_congr fun v hv => ?_
  obtain ⟨-, bs, hs, hd⟩ :=
    typed_serializes (rpcValues_readable hp) hv (hl.imp fun _ h => h.1)
  have hbody : parse_body unpackFloat isoparse s bs = parse_shape isoparse s (wire v s) := by
    have hread := parse_data_item_of_decodes hd []
    rw [List.append_nil] at hread
    simp only [parse_body, hread, bind, Except.bind]
  constructor
  · rintro ⟨bs', hs', r, hr, hsame⟩
    rw [hs] at hs'
    cases hs'
    exact ⟨r, hbody ▸ hr, hsame⟩
  · rintro ⟨r, hr, hsame⟩
    exact ⟨bs, hs, r, hbody.trans hr, hsame⟩

/-- **RPC v2 CBOR round trip, exactly for shapes that keep their names.** All
values of a shape come back the same if and only if no structure in it has a
member with another serialized name than its own. -/
theorem roundTrips_iff_keepsNames (hp : PacksWholeSeconds cfg unpackFloat) {s : Shape}
    (hl : s.All Lawful) :
    RoundTrips cfg unpackFloat isoparse s ↔ s.All KeepsNames := by
  rw [roundTrips_iff_wire hp hl]
  refine ⟨keepsNames_of_parse_same hl, fun hk v hv => ?_⟩
  rw [wire_eq hv hk]
  exact parse_same hv hl

end

/-! ### IEEE 754 -/

/-- Of the numbers that a Python float can be, none overflows. -/
def packDouble (q : ℚ) : List UInt8 := (double.pack q).getD []

def unpackFloat (bs : List UInt8) : Value :=
  .ofNumber <|
    if bs.length = 2 then half.unpack bs
    else if bs.length = 4 then single.unpack bs
    else double.unpack bs

theorem unpacksFloats_unpackFloat : UnpacksFloats unpackFloat := by
  constructor <;> intro bs h <;> simp [unpackFloat, h]

/-- Doubles hold whole seconds exactly. -/
theorem packDouble_wholeSeconds {n : Int} (hn : InRange (n * 1000000)) :
    (packDouble n).length = 8 ∧ unpackFloat (packDouble n) = .float n := by
  have hsmall : n.natAbs < 2 ^ 53 := by
    obtain ⟨hlo, hhi⟩ := hn
    omega
  obtain ⟨bs, hpack, hlen, hread⟩ := Format.unpack_pack Format.valid_double
    (Format.round_intCast Format.valid_double hsmall (by decide) (by decide))
  rw [packDouble, hpack, Option.getD_some, unpacksFloats_unpackFloat.double bs hlen, hread]
  exact ⟨hlen, rfl⟩

def ieee754 (use_indefinite_data_structure : Bool) : Config :=
  ⟨use_indefinite_data_structure, packDouble⟩

theorem ieee754_packsWholeSeconds (indefinite : Bool) :
    PacksWholeSeconds (ieee754 indefinite) unpackFloat :=
  ⟨fun _ hn => (packDouble_wholeSeconds hn).1, fun _ hn => (packDouble_wholeSeconds hn).2⟩

/-- A structure with timestamps inside a map of lists. -/
def eventLog : Shape :=
  .struct {} {} [("events".toList, .map {} {} (.list {} (.scalar {} .timestamp)))]

theorem eventLog_roundTrips :
    RoundTrips (ieee754 true) unpackFloat (fun _ => .error .valueError) eventLog := by
  refine (roundTrips_iff_keepsNames (ieee754_packsWholeSeconds true) ?_).mpr ?_
  · have hlaw : ∀ s : Shape, s.serialization.name = none → NamesFit s := by
      intro s hs name hname
      rw [hs] at hname
      cases hname
    refine .struct ⟨hlaw _ rfl, by decide, ?_, rfl, rfl⟩ ?_
    · exact List.forall_mem_singleton.mpr (by decide : (6 : Nat) < 2 ^ 64)
    · refine List.forall_mem_singleton.mpr ?_
      exact .map ⟨hlaw _ rfl, trivial⟩ (.list ⟨hlaw _ rfl, trivial⟩ (.scalar ⟨hlaw _ rfl, by decide⟩))
  · refine .struct ?_ ?_ <;> refine List.forall_mem_singleton.mpr ?_
    · rfl
    · exact .map trivial (.list trivial (.scalar trivial))

/-- A renamed member is dropped by the parser. -/
theorem renamed_member_lost :
    let s : Shape := .struct {} {} [("tag".toList, .scalar { name := some "Tag".toList } .string)]
    let v : Value := .dict [("tag".toList, .str "x".toList)]
    Typed rpcValues s v ∧ ∃ bs r, serialize_data_item (ieee754 true) v s = .ok bs ∧
      parse_body unpackFloat (fun _ => .error .valueError) s bs = .ok r ∧ ¬ v.Same r := by
  refine ⟨?_, _, .dict [], rfl, rfl, ?_⟩
  · refine .struct_of_entries (by decide : (1 : Nat) < 2 ^ 64) (by decide) (fun h => h.elim) ?_
    refine List.forall_mem_singleton.mpr ⟨(by decide : (3 : Nat) < 2 ^ 64), nofun, _, rfl, fun _ => ?_⟩
    exact .scalar (by decide : (1 : Nat) < 2 ^ 64)
  · intro h
    have := (h.mem_keys "tag".toList).mp (by simp)
    simp at this

end LocalStack.Aws.Protocol.RpcV2
