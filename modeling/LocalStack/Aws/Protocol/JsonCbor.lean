import LocalStack.Aws.Protocol.CborRoundTrip
import LocalStack.Aws.Protocol.JsonRoundTrip
import LocalStack.Aws.Protocol.JsonTrees
import LocalStack.Aws.Protocol.RpcV2

/-! One value written as a JSON and as a CBOR body: which values with `None` items,
`None` entries, unspecified members and floats become the same tree. -/

namespace LocalStack.Aws.Protocol.JsonCbor
open LocalStack.Lists LocalStack.Text LocalStack.Bytes LocalStack.OrderedDict
open LocalStack.BinaryFloat LocalStack.Aws.Datetime
open LocalStack.Aws.Protocol.Serializer LocalStack.Aws.Protocol.JsonTrees
open LocalStack.Aws.Protocol.Cbor (Config Decodes SerializesAs NamesFit UnpacksFloats namedMembers)
open LocalStack.Aws.Protocol.Json (serializedNames wireName)

/-! ## Values -/

/-- Integers of at most 64 bits with a sign, floats that are doubles, and no length of more
than eight bytes. -/
def responseValues : ValueRules where
  scalar _ t v :=
    match t, v with
    | .string, .str s | .blob, .str s => (encodeUtf8 s).length < 2 ^ 64
    | .integer, .int i | .long, .int i => -2 ^ 64 ≤ i ∧ i < 2 ^ 64
    | .float, .float q | .double, .float q => double.round q = some q
    | .float, .special _ | .double, .special _ | .boolean, .bool _ => True
    | .blob, .bytes bs => bs.length < 2 ^ 64
    | .timestamp, .datetime t => InRange t
    | _, _ => False
  key k := (encodeUtf8 k).length < 2 ^ 64
  size n := n < 2 ^ 64

/-- No two members have one name, and a document has none. -/
def Lawful : Shape → Prop
  | .struct _ traits members =>
    Dict.WF members ∧ (serializedNames members).Nodup ∧
      (traits.is_document_type = true → members = [])
  | _ => True

/-- The timestamp of `t` reads as `stamp t`, which the resolution of CBOR leaves of it. -/
def Stamps (cfg : Config) (unpackFloat : List UInt8 → Value) (stamp : Int → Int) : Prop :=
  ∀ t, InRange t → Decodes unpackFloat (Cbor.serialize_type_timestamp cfg t) (.datetime (stamp t))

/-- There is no `None` in a list or map, no member of a structure that its shape does
not have (unless it is `None`), and nothing in a document. Numbers of the shape `float` have
single precision. -/
inductive NothingLost : Shape → Value → Prop
  | scalar {ser t v} : v ≠ .none → (t = .float → ∀ q, v = .float q → single.round q = some q) →
      NothingLost (.scalar ser t) v
  | list {ser m} {vs : List Value} : (∀ v ∈ vs, NothingLost m v) →
      NothingLost (.list ser m) (.list vs)
  | map {ser key s} {d : Dict Str Value} : (∀ p ∈ d, NothingLost s p.2) →
      NothingLost (.map ser key s) (.dict d)
  | document {ser traits ms} : traits.is_document_type = true →
      NothingLost (.struct ser traits ms) (.dict [])
  | struct {ser traits} {ms : Dict Str Shape} {d : Dict Str Value} :
      traits.is_document_type = false → (∀ p ∈ d, p.2 ≠ .none → p.1 ∈ ms.keys) →
      (∀ k s v, ms.get k = some s → d.get k = some v → v ≠ .none → NothingLost s v) →
      NothingLost (.struct ser traits ms) (.dict d)

theorem NothingLost.struct_of_entries {ser : Serialization} {traits : StructureTraits}
    {ms : Dict Str Shape} {d : Dict Str Value} (hdoc : traits.is_document_type = false)
    (h : ∀ p ∈ d, p.2 ≠ .none → ∃ s, ms.get p.1 = some s ∧ NothingLost s p.2) :
    NothingLost (.struct ser traits ms) (.dict d) := by
  refine .struct hdoc (fun p hp hne => ?_) fun k s v hs hv hne => ?_
  · obtain ⟨s, hs, -⟩ := h p hp hne
    exact Dict.mem_keys_of_mem (Dict.mem_of_get hs)
  · obtain ⟨s', hs', hlost⟩ := h _ (Dict.mem_of_get hv) hne
    rw [hs] at hs'
    cases hs'
    exact hlost

/-- A JSON tree and a CBOR tree of one shape that are the same up to blobs and
timestamps. There is no `None` in them, and no member that the shape does not have. -/
inductive SameTree (stamp : Int → Int) : Shape → Value → Value → Prop
  | string {ser} (s : Str) : SameTree stamp (.scalar ser .string) (.str s) (.str s)
  | integer {ser} (i : Int) : SameTree stamp (.scalar ser .integer) (.int i) (.int i)
  | long {ser} (i : Int) : SameTree stamp (.scalar ser .long) (.int i) (.int i)
  | float {ser t} (h : t = .float ∨ t = .double) (q : ℚ) :
      SameTree stamp (.scalar ser t) (.float q) (.float q)
  | special {ser t} (h : t = .float ∨ t = .double) (x : Special) :
      SameTree stamp (.scalar ser t) (.special x) (.special x)
  | boolean {ser} (b : Bool) : SameTree stamp (.scalar ser .boolean) (.bool b) (.bool b)
  | blob {ser} (bs : List UInt8) :
      SameTree stamp (.scalar ser .blob) (.str (Base64.b64encode bs)) (.bytes bs)
  | timestamp {ser} (t : Int) : SameTree stamp (.scalar ser .timestamp)
      (convert_timestamp_to_str t (ser.timestampFormat.getD .unixtimestamp)) (.datetime (stamp t))
  | list {ser m} {as bs : List Value} : as.length = bs.length →
      (∀ (i : Nat) a b, as[i]? = some a → bs[i]? = some b → SameTree stamp m a b) →
      SameTree stamp (.list ser m) (.list as) (.list bs)
  | map {ser key s} {as bs : Dict Str Value} : (∀ k, k ∈ as.keys ↔ k ∈ bs.keys) →
      (∀ k a b, as.get k = some a → bs.get k = some b → SameTree stamp s a b) →
      SameTree stamp (.map ser key s) (.dict as) (.dict bs)
  | struct {ser traits} {ms : Dict Str Shape} {as bs : Dict Str Value} :
      (∀ k, k ∈ as.keys ↔ k ∈ bs.keys) → (∀ k ∈ as.keys, k ∈ serializedNames ms) →
      (∀ p ∈ ms, ∀ a b, as.get (p.2.getSerializedName p.1) = some a →
        bs.get (p.2.getSerializedName p.1) = some b → SameTree stamp p.2 a b) →
      SameTree stamp (.struct ser traits ms) (.dict as) (.dict bs)

/-- Both serializers fail, or both succeed and what is decoded is the same tree. -/
def Agree (cfg : Config) (unpackFloat : List UInt8 → Value) (stamp : Int → Int) (s : Shape)
    (v : Value) : Prop :=
  ((∀ key, ∃ e, Json.serialize v s key [] = .error e) ∧
    ∃ e, Cbor.serialize_data_item cfg v s = .error e) ∨
  ∃ a bs b, (∀ key, Json.serialize v s key [] = .ok [(key, a)]) ∧
    Cbor.serialize_data_item cfg v s = .ok bs ∧
    Cbor.parse_data_item unpackFloat bs = .ok (b, []) ∧ SameTree stamp s a b

/-! ## The CBOR tree -/

/-- A number is rounded to the precision that it is packed with. -/
def readScalar (stamp : Int → Int) : ScalarType → Value → Value
  | .float, .float q => .float ((single.round q).getD q)
  | .boolean, v => .bool v.truthy
  | .blob, .str s => .bytes (encodeUtf8 s)
  | .timestamp, .datetime t => .datetime (stamp t)
  | _, v => v

mutual

/-- What is read of the bytes of a value. A `None` boolean is written as false. -/
def cborTree (stamp : Int → Int) : Value → Shape → Value
  | v, .scalar _ t => readScalar stamp t v
  | .list vs, .list _ member => .list (cborItems stamp member vs)
  | .dict d, .map _ _ value => .dict (Dict.ofPairs (cborEntries stamp value d))
  | .dict d, .struct _ _ members => .dict (Dict.ofPairs (cborMembers stamp members d))
  | v, _ => v
termination_by structural v => v

def cborItems (stamp : Int → Int) (member : Shape) : List Value → List Value
  | [] => []
  | v :: vs => cborTree stamp v member :: cborItems stamp member vs
termination_by structural vs => vs

def cborEntries (stamp : Int → Int) (value : Shape) :
    List (Str × Value) → List (Str × Value)
  | [] => []
  | (k, v) :: d => (k, cborTree stamp v value) :: cborEntries stamp value d
termination_by structural d => d

def cborMembers (stamp : Int → Int) (members : Dict Str Shape) :
    List (Str × Value) → List (Str × Value)
  | [] => []
  | (k, v) :: d =>
    if v.isNone then cborMembers stamp members d
    else
      match members.get k with
      | none => cborMembers stamp members d
      | some s => (s.getSerializedName k, cborTree stamp v s) :: cborMembers stamp members d
termination_by structural d => d

end

section
variable {stamp : Int → Int}

theorem cborItems_eq_map (m : Shape) (vs : List Value) :
    cborItems stamp m vs = vs.map fun v => cborTree stamp v m := by
  induction vs with
  | nil => rfl
  | cons v vs ih => rw [cborItems, ih, List.map_cons]

theorem cborEntries_eq_map (s : Shape) (d : List (Str × Value)) :
    cborEntries stamp s d = d.map fun p => (p.1, cborTree stamp p.2 s) := by
  induction d with
  | nil => rfl
  | cons p d ih => rw [cborEntries, ih, List.map_cons]

theorem cborMembers_eq_named (ms : Dict Str Shape) (d : List (Str × Value)) :
    cborMembers stamp ms d = namedMembers (cborTree stamp) ms d := by
  induction d with
  | nil => rfl
  | cons p d ih =>
    obtain ⟨k, v⟩ := p
    cases hk : ms.get k with
    | none => simp only [cborMembers, namedMembers, hk, ih]
    | some s => simp only [cborMembers, namedMembers, hk, ih]

theorem memberTrees_eq_named (ms : Dict Str Shape) (d : List (Str × Value)) :
    memberTrees false ms d = namedMembers (tree false) ms d := by
  induction d with
  | nil => rfl
  | cons p d ih =>
    obtain ⟨k, v⟩ := p
    cases hk : ms.get k with
    | none => simp only [memberTrees, namedMembers, hk, ih]
    | some s => simp only [memberTrees, namedMembers, hk, ih]

end

/-! ## What succeeding says about the entries -/

section
variable {cfg : Config}

theorem item_ok_of_items {m : Shape} {vs : List Value} {bs : List UInt8}
    (h : Cbor.serializeItems cfg m vs = .ok bs) :
    ∀ v ∈ vs, ∃ c, Cbor.serialize_data_item cfg v m = .ok c := by
  induction vs generalizing bs with
  | nil => simp
  | cons v vs ih =>
    rw [Cbor.serializeItems] at h
    obtain ⟨c, hv, h⟩ := exists_of_bind_ok h
    obtain ⟨cs, hvs, -⟩ := exists_of_bind_ok h
    exact List.forall_mem_cons.mpr ⟨⟨c, hv⟩, ih hvs⟩

theorem entry_ok_of_entries {s : Shape} {d : List (Str × Value)} {bs : List UInt8}
    (h : Cbor.serializeEntries cfg s d = .ok bs) :
    ∀ p ∈ d, ∃ c, Cbor.serialize_data_item cfg p.2 s = .ok c := by
  induction d generalizing bs with
  | nil => simp
  | cons p d ih =>
    rw [Cbor.serializeEntries] at h
    obtain ⟨kbs, -, h⟩ := exists_of_bind_ok h
    obtain ⟨c, hv, h⟩ := exists_of_bind_ok h
    obtain ⟨cs, hd, -⟩ := exists_of_bind_ok h
    exact List.forall_mem_cons.mpr ⟨⟨c, hv⟩, ih hd⟩

theorem member_ok_of_members {ms : Dict Str Shape} {d : List (Str × Value)} {bs : List UInt8}
    (h : Cbor.serializeMembers cfg ms d = .ok bs) :
    ∀ p ∈ d, p.2 ≠ .none →
      ∃ s c, ms.get p.1 = some s ∧ Cbor.serialize_data_item cfg p.2 s = .ok c := by
  induction d generalizing bs with
  | nil => simp
  | cons p d ih =>
    rw [Cbor.serializeMembers] at h
    cases hn : p.2.isNone with
    | true =>
      rw [hn, if_pos rfl] at h
      exact List.forall_mem_cons.mpr ⟨fun hne => absurd (Value.isNone_iff.mp hn) hne, ih h⟩
    | false =>
      rw [hn, if_neg Bool.false_ne_true] at h
      cases hs : ms.get p.1 with
      | none => rw [hs] at h; cases h
      | some s =>
        rw [hs] at h
        obtain ⟨kbs, -, h⟩ := exists_of_bind_ok h
        obtain ⟨c, hv, h⟩ := exists_of_bind_ok h
        obtain ⟨cs, hd, -⟩ := exists_of_bind_ok h
        exact List.forall_mem_cons.mpr ⟨fun _ => ⟨s, c, hs, hv⟩, ih hd⟩

theorem items_ok_of_list {ser : Serialization} {m : Shape} {vs : List Value} {bs : List UInt8}
    (h : Cbor.serialize_data_item cfg (.list vs) (.list ser m) = .ok bs) :
    ∃ c, Cbor.serializeItems cfg m vs = .ok c := by
  rw [Cbor.serialize_data_item] at h
  obtain ⟨r, -, h⟩ := exists_of_bind_ok h
  obtain ⟨c, hc, -⟩ := exists_of_bind_ok h
  exact ⟨c, hc⟩

theorem entries_ok_of_map {ser key : Serialization} {s : Shape} {d : Dict Str Value}
    {bs : List UInt8} (h : Cbor.serialize_data_item cfg (.dict d) (.map ser key s) = .ok bs) :
    ∃ c, Cbor.serializeEntries cfg s d = .ok c := by
  rw [Cbor.serialize_data_item] at h
  obtain ⟨r, -, h⟩ := exists_of_bind_ok h
  obtain ⟨c, hc, -⟩ := exists_of_bind_ok h
  exact ⟨c, hc⟩

theorem members_ok_of_struct {ser : Serialization} {traits : StructureTraits}
    {ms : Dict Str Shape} {v : Value} {bs : List UInt8}
    (h : Cbor.serialize_data_item cfg v (.struct ser traits ms) = .ok bs) :
    ∃ d c, v = .dict d ∧ Cbor.serializeMembers cfg ms d = .ok c := by
  cases v with
  | dict d =>
    rw [Cbor.serialize_data_item] at h
    obtain ⟨r, -, h⟩ := exists_of_bind_ok h
    obtain ⟨c, hc, -⟩ := exists_of_bind_ok h
    exact ⟨d, c, rfl, hc⟩
  | _ => cases h

/-- Only a boolean may be `None`. -/
theorem boolean_of_none_ok {s : Shape} {bs : List UInt8}
    (h : Cbor.serialize_data_item cfg .none s = .ok bs) : ∃ ser, s = .scalar ser .boolean := by
  cases s with
  | scalar ser t =>
    cases t with
    | boolean => exact ⟨ser, rfl⟩
    | _ => cases h
  | _ => cases h

end

/-! ## The bytes decode to the CBOR tree -/

section
variable {cfg : Config} {unpackFloat : List UInt8 → Value} {stamp : Int → Int}

/-- The bytes of `v` are there and read as its CBOR tree. -/
def Reads (cfg : Config) (unpackFloat : List UInt8 → Value) (stamp : Int → Int) (s : Shape)
    (v : Value) : Prop :=
  (cborTree stamp v s).isNone = false ∧
    SerializesAs cfg unpackFloat s v (cborTree stamp v s)

/-- A value that may be `None` reads if it is written at all. -/
theorem reads_of_none_ok {s : Shape} {v : Value} (hv : v = .none) {bs : List UInt8}
    (h : Cbor.serialize_data_item cfg v s = .ok bs) : Reads cfg unpackFloat stamp s v := by
  subst hv
  obtain ⟨ser, rfl⟩ := boolean_of_none_ok h
  exact ⟨rfl, _, rfl, Cbor.serialize_type_boolean_spec false⟩

theorem ne_none_of_nothingLost {s : Shape} {v : Value} (h : NothingLost s v) : v ≠ .none := by
  cases h <;> first | assumption | simp

/-- The value is written, or has nothing to lose. -/
def Proceeds (cfg : Config) (s : Shape) (v : Value) : Prop :=
  (∃ bs, Cbor.serialize_data_item cfg v s = .ok bs) ∨ NothingLost s v

/-- A number that is too large for its format is not written. -/
theorem exists_round_of_ok {F : Format} {info : Nat} {q : ℚ} {bs : List UInt8}
    (h : Cbor.serializeFloat F info (.float q) = .ok bs) : ∃ r, F.round q = some r := by
  cases hr : F.round q with
  | none =>
    rw [Cbor.serializeFloat, Cbor.serializeFloat.pack, Format.pack_eq_none hr] at h
    cases h
  | some r => exact ⟨r, rfl⟩

theorem Proceeds.round {ser : Serialization} {q : ℚ}
    (h : Proceeds cfg (.scalar ser .float) (.float q)) : ∃ r, single.round q = some r := by
  rcases h with ⟨bs, hbs⟩ | hlost
  · exact exists_round_of_ok hbs
  · cases hlost with
    | scalar _ hfloat => exact ⟨q, hfloat rfl q rfl⟩

theorem reads_scalar (hp : Stamps cfg unpackFloat stamp) (hu : UnpacksFloats unpackFloat)
    {ser : Serialization} {t : ScalarType} {v : Value} (h : responseValues.scalar ser t v)
    (hok : Proceeds cfg (.scalar ser t) v) : Reads cfg unpackFloat stamp (.scalar ser t) v := by
  cases t <;> cases v <;> first | exact h.elim | skip
  case string.str s => exact ⟨rfl, Cbor.serialize_type_string_spec h⟩
  case integer.int i => exact ⟨rfl, Cbor.serialize_type_integer_spec h.1 h.2⟩
  case long.int i => exact ⟨rfl, Cbor.serialize_type_integer_spec h.1 h.2⟩
  case float.float q =>
    obtain ⟨r, hr⟩ := hok.round
    rw [Reads, cborTree, readScalar, hr]
    exact ⟨rfl, Cbor.serialize_type_float_spec hu hr⟩
  case double.float q => exact ⟨rfl, Cbor.serialize_type_double_spec hu h⟩
  case float.special x => exact ⟨rfl, _, rfl, Cbor.get_bytes_for_special_numbers_spec hu x⟩
  case double.special x => exact ⟨rfl, _, rfl, Cbor.get_bytes_for_special_numbers_spec hu x⟩
  case boolean.bool b => exact ⟨rfl, _, rfl, Cbor.serialize_type_boolean_spec b⟩
  case blob.str s => exact ⟨rfl, Cbor.serialize_type_blob_spec h⟩
  case blob.bytes bs => exact ⟨rfl, Cbor.serialize_type_blob_spec h⟩
  case timestamp.datetime t => exact ⟨rfl, _, rfl, hp t h⟩

theorem Proceeds.item {ser : Serialization} {m : Shape} {vs : List Value}
    (h : Proceeds cfg (.list ser m) (.list vs)) : ∀ v ∈ vs, Proceeds cfg m v := by
  rcases h with ⟨bs, hbs⟩ | hlost
  · obtain ⟨c, hc⟩ := items_ok_of_list hbs
    exact fun v hv => .inl (item_ok_of_items hc v hv)
  · cases hlost with
    | list hall => exact fun v hv => .inr (hall v hv)

theorem Proceeds.entry {ser key : Serialization} {s : Shape} {d : Dict Str Value}
    (h : Proceeds cfg (.map ser key s) (.dict d)) : ∀ p ∈ d, Proceeds cfg s p.2 := by
  rcases h with ⟨bs, hbs⟩ | hlost
  · obtain ⟨c, hc⟩ := entries_ok_of_map hbs
    exact fun p hp => .inl (entry_ok_of_entries hc p hp)
  · cases hlost with
    | map hall => exact fun p hp => .inr (hall p hp)

theorem Proceeds.member {ser : Serialization} {traits : StructureTraits} {ms : Dict Str Shape}
    {d : Dict Str Value} (h : Proceeds cfg (.struct ser traits ms) (.dict d))
    (hdoc : traits.is_document_type = false) (hwf : d.WF) :
    ∀ p ∈ d, p.2 ≠ .none → ∃ s, ms.get p.1 = some s ∧ Proceeds cfg s p.2 := by
  intro p hp hne
  rcases h with ⟨bs, hbs⟩ | hlost
  · obtain ⟨d', c, hd, hc⟩ := members_ok_of_struct hbs
    cases hd
    obtain ⟨s, c, hs, hc⟩ := member_ok_of_members hc p hp hne
    exact ⟨s, hs, .inl ⟨c, hc⟩⟩
  · cases hlost with
    | document hdoc' => rw [hdoc] at hdoc'; cases hdoc'
    | struct _ hspec hall =>
      obtain ⟨s, hs⟩ := Dict.exists_get (hspec p hp hne)
      exact ⟨s, hs, .inr (hall _ s _ hs (Dict.get_of_mem hwf hp) hne)⟩

/-- A document has no members, so only `None` may be in it. -/
theorem Proceeds.document {ser : Serialization} {traits : StructureTraits} {v : Value}
    (h : Proceeds cfg (.struct ser traits []) v) (hdoc : traits.is_document_type = true) :
    ∃ d, v = .dict d ∧ ∀ p ∈ d, p.2 = .none := by
  rcases h with ⟨bs, hbs⟩ | hlost
  · obtain ⟨d, c, rfl, hc⟩ := members_ok_of_struct hbs
    refine ⟨d, rfl, fun p hp => ?_⟩
    by_contra hv
    obtain ⟨s, c, hs, -⟩ := member_ok_of_members hc p hp hv
    cases hs
  · cases hlost with
    | document => exact ⟨[], rfl, by simp⟩
    | struct hdoc' => rw [hdoc] at hdoc'; cases hdoc'

/-- A `None` that is come to is written. -/
theorem Proceeds.reads_none {s : Shape} {v : Value} (h : Proceeds cfg s v) (hv : v = .none) :
    Reads cfg unpackFloat stamp s v := by
  obtain ⟨bs, hbs⟩ := h.resolve_right fun hd => ne_none_of_nothingLost hd hv
  exact reads_of_none_ok hv hbs

/-- A loose value that is written, or has nothing to lose, reads as its tree. -/
theorem reads_of_loose (hp : Stamps cfg unpackFloat stamp) (hu : UnpacksFloats unpackFloat)
    {s : Shape} {v : Value} (h : Loose responseValues s v) (hnames : s.All NamesFit) (hl : s.All Lawful)
    (hok : Proceeds cfg s v) : Reads cfg unpackFloat stamp s v := by
  induction h with
  | scalar hv => exact reads_scalar hp hu hv hok
  | @list ser m vs hsize _ ih =>
    rw [Reads, cborTree, cborItems_eq_map]
    refine ⟨rfl, Cbor.serializesAs_list hsize fun v hv => (?_ : Reads _ _ _ _ _).2⟩
    by_cases hne : v = .none
    · exact (hok.item v hv).reads_none hne
    · exact ih v hv hne hnames.list_member hl.list_member (hok.item v hv)
  | @map ser key s d hsize _ hkeys _ ih =>
    rw [Reads, cborTree, cborEntries_eq_map]
    refine ⟨rfl, Cbor.serializesAs_map (T := fun v => cborTree stamp v s) hsize hkeys
      fun p hp => (?_ : Reads _ _ _ _ _)⟩
    by_cases hne : p.2 = .none
    · exact (hok.entry p hp).reads_none hne
    · exact ih p hp hne hnames.map_value hl.map_value (hok.entry p hp)
  | @document ser traits ms v hdoc hne =>
    obtain rfl : ms = [] := hl.self.2.2 hdoc
    obtain ⟨d, rfl, hnone⟩ := hok.document hdoc
    have hempty : (d.filter fun p => !p.2.isNone) = [] := by
      rw [List.filter_eq_nil_iff]
      intro p hp
      simp [hnone p hp]
    rw [Reads, cborTree, cborMembers_eq_named]
    refine ⟨rfl, Cbor.serializesAs_struct (by simp [hempty]) fun p hp hn => ?_⟩
    rw [hnone p hp] at hn
    cases hn
  | @struct ser traits ms d hdoc hsize hwf hkeys _ ih =>
    have hle := List.length_filter_le (fun p : Str × Value => !p.2.isNone) d
    rw [Reads, cborTree, cborMembers_eq_named]
    refine ⟨rfl, Cbor.serializesAs_struct (Nat.lt_of_le_of_lt hle hsize) fun p hp hn => ?_⟩
    have hne : p.2 ≠ .none := fun he => by simp [he] at hn
    obtain ⟨s, hs, hmember⟩ := hok.member hdoc hwf p hp hne
    have hshape := Dict.mem_of_get hs
    exact ⟨s, hs, Cbor.length_getSerializedName (hnames.struct_member _ hshape).self (hkeys p hp),
      ih p.1 s p.2 hs (Dict.get_of_mem hwf hp) hne (hnames.struct_member _ hshape)
        (hl.struct_member _ hshape) hmember⟩

end

/-! ## Comparing the trees -/

theorem mem_namedMembers {T : Value → Shape → Value} {ms : Dict Str Shape}
    {d : List (Str × Value)} {q : Str × Value} : q ∈ namedMembers T ms d ↔
      ∃ k v s, (k, v) ∈ d ∧ v ≠ .none ∧ ms.get k = some s ∧
        q = (s.getSerializedName k, T v s) := by
  induction d with
  | nil => simp [namedMembers]
  | cons p d ih =>
    obtain ⟨k, v⟩ := p
    cases hn : v.isNone with
    | true =>
      have hv := Value.isNone_iff.mp hn
      simp only [namedMembers, hn, if_true, ih, List.mem_cons, Prod.mk.injEq]
      constructor
      · rintro ⟨k', v', s, hmem, hrest⟩
        exact ⟨k', v', s, .inr hmem, hrest⟩
      · rintro ⟨k', v', s, ⟨rfl, rfl⟩ | hmem, hne, hrest⟩
        · exact absurd hv hne
        · exact ⟨k', v', s, hmem, hne, hrest⟩
    | false =>
      have hv : v ≠ .none := fun he => by simp [he] at hn
      cases hs : ms.get k with
      | none =>
        simp only [namedMembers, hn, hs, Bool.false_eq_true, if_false, ih, List.mem_cons,
          Prod.mk.injEq]
        constructor
        · rintro ⟨k', v', s, hmem, hrest⟩
          exact ⟨k', v', s, .inr hmem, hrest⟩
        · rintro ⟨k', v', s, ⟨rfl, rfl⟩ | hmem, hne, hs', hq⟩
          · rw [hs] at hs'
            cases hs'
          · exact ⟨k', v', s, hmem, hne, hs', hq⟩
      | some s =>
        simp only [namedMembers, hn, hs, Bool.false_eq_true, if_false, ih, List.mem_cons,
          Prod.mk.injEq]
        constructor
        · rintro (rfl | ⟨k', v', s', hmem, hrest⟩)
          · exact ⟨k, v, s, .inl ⟨rfl, rfl⟩, hv, hs, rfl⟩
          · exact ⟨k', v', s', .inr hmem, hrest⟩
        · rintro ⟨k', v', s', ⟨rfl, rfl⟩ | hmem, hne, hs', rfl⟩
          · rw [hs] at hs'
            cases hs'
            exact .inl rfl
          · exact .inr ⟨k', v', s', hmem, hne, hs', rfl⟩

theorem keys_namedMembers (T T' : Value → Shape → Value) (ms : Dict Str Shape)
    (d : List (Str × Value)) :
    Dict.keys (namedMembers T ms d) = Dict.keys (namedMembers T' ms d) := by
  induction d with
  | nil => rfl
  | cons p d ih =>
    obtain ⟨k, v⟩ := p
    rw [namedMembers, namedMembers]
    split
    · exact ih
    · split
      · exact ih
      · rw [Dict.keys_cons, Dict.keys_cons, ih]

section
variable {ms : Dict Str Shape} {d : Dict Str Value}

theorem wf_namedMembers (T : Value → Shape → Value) (hnames : (serializedNames ms).Nodup)
    (hd : d.WF) : Dict.WF (namedMembers T ms d) := by
  induction d with
  | nil => exact Dict.wf_nil
  | cons p d ih =>
    obtain ⟨k, v⟩ := p
    rw [Dict.wf_cons] at hd
    rw [namedMembers]
    split
    · exact ih hd.2
    · split
      · exact ih hd.2
      · next s hs =>
        refine (Dict.wf_cons _ _).mpr ⟨fun hmem => ?_, ih hd.2⟩
        obtain ⟨q, hq, hname⟩ := List.mem_map.mp hmem
        obtain ⟨k', v', s', hmem', -, hs', rfl⟩ := mem_namedMembers.mp hq
        have hsame : wireName ms k' = wireName ms k := by
          rw [Json.wireName_eq hs', Json.wireName_eq hs]
          exact hname
        have hk := Json.wireName_inj hnames (Dict.mem_keys_of_mem (Dict.mem_of_get hs'))
          (Dict.mem_keys_of_mem (Dict.mem_of_get hs)) hsame
        exact hd.1 (hk ▸ Dict.mem_keys_of_mem hmem')

/-- What a member has been written as. -/
theorem get_namedMembers {T : Value → Shape → Value} (hnames : (serializedNames ms).Nodup)
    (hd : d.WF) {k : Str} {s : Shape} (hs : ms.get k = some s) {w : Value} :
    Dict.get (namedMembers T ms d) (s.getSerializedName k) = some w ↔
      ∃ v, d.get k = some v ∧ v ≠ .none ∧ w = T v s := by
  have hwf := wf_namedMembers T hnames hd
  constructor
  · intro hw
    obtain ⟨k', v, s', hmem, hne, hs', hq⟩ := mem_namedMembers.mp (Dict.mem_of_get hw)
    rw [Prod.mk.injEq] at hq
    have hsame : wireName ms k = wireName ms k' := by
      rw [Json.wireName_eq hs, Json.wireName_eq hs', hq.1]
    have hk := Json.wireName_inj hnames (Dict.mem_keys_of_mem (Dict.mem_of_get hs))
      (Dict.mem_keys_of_mem (Dict.mem_of_get hs')) hsame
    subst hk
    rw [hs] at hs'
    cases hs'
    exact ⟨v, Dict.get_of_mem hd hmem, hne, hq.2⟩
  · rintro ⟨v, hv, hne, rfl⟩
    exact Dict.get_of_mem hwf (mem_namedMembers.mpr ⟨k, v, s, Dict.mem_of_get hv, hne, hs, rfl⟩)

end

section
variable {stamp : Int → Int}

theorem sameTree_list_iff {ser : Serialization} {m : Shape} {vs : List Value}
    {f g : Value → Value} :
    SameTree stamp (.list ser m) (.list (vs.map f)) (.list (vs.map g)) ↔
      ∀ v ∈ vs, SameTree stamp m (f v) (g v) := by
  constructor
  · intro h v hv
    cases h with
    | list _ hall =>
      obtain ⟨i, hi⟩ := List.mem_iff_getElem?.mp hv
      exact hall i _ _ (by rw [List.getElem?_map, hi]; rfl) (by rw [List.getElem?_map, hi]; rfl)
  · intro h
    refine .list (by simp) fun i a b ha hb => ?_
    rw [List.getElem?_map, Option.map_eq_some_iff] at ha hb
    obtain ⟨v, hv, rfl⟩ := ha
    obtain ⟨v', hv', rfl⟩ := hb
    rw [hv] at hv'
    cases hv'
    exact h v (List.mem_of_getElem? hv)

theorem sameTree_map_iff {ser key : Serialization} {s : Shape} {d : Dict Str Value} (hd : d.WF)
    {f g : Value → Value} :
    SameTree stamp (.map ser key s) (.dict (d.map fun p => (p.1, f p.2)))
      (.dict (d.map fun p => (p.1, g p.2))) ↔ ∀ p ∈ d, SameTree stamp s (f p.2) (g p.2) := by
  have hkeys : ∀ f : Value → Value, Dict.keys (d.map fun p => (p.1, f p.2)) = d.keys := by
    intro f
    simp [Dict.keys]
  constructor
  · intro h p hp
    cases h with
    | map _ hall =>
      have hget := Dict.get_of_mem hd hp
      exact hall p.1 _ _ (by rw [Json.get_map_values, hget]; rfl)
        (by rw [Json.get_map_values, hget]; rfl)
  · intro h
    refine .map (fun k => by rw [hkeys, hkeys]) fun k a b ha hb => ?_
    rw [Json.get_map_values, Option.map_eq_some_iff] at ha hb
    obtain ⟨v, hv, rfl⟩ := ha
    obtain ⟨v', hv', rfl⟩ := hb
    rw [hv] at hv'
    cases hv'
    exact h _ (Dict.mem_of_get hv)

theorem sameTree_struct_iff {ser : Serialization} {traits : StructureTraits}
    {ms : Dict Str Shape} {d : Dict Str Value} (hms : ms.WF)
    (hnames : (serializedNames ms).Nodup) (hd : d.WF) {f g : Value → Shape → Value} :
    SameTree stamp (.struct ser traits ms) (.dict (namedMembers f ms d))
      (.dict (namedMembers g ms d)) ↔
      ∀ k s v, ms.get k = some s → d.get k = some v → v ≠ .none →
        SameTree stamp s (f v s) (g v s) := by
  constructor
  · intro h k s v hs hv hne
    cases h with
    | struct _ _ hall =>
      exact hall (k, s) (Dict.mem_of_get hs) _ _
        ((get_namedMembers hnames hd hs).mpr ⟨v, hv, hne, rfl⟩)
        ((get_namedMembers hnames hd hs).mpr ⟨v, hv, hne, rfl⟩)
  · intro h
    refine .struct (fun k => by rw [keys_namedMembers f g]) (fun k hk => ?_) ?_
    · obtain ⟨q, hq, rfl⟩ := List.mem_map.mp hk
      obtain ⟨k', v, s, -, -, hs, rfl⟩ := mem_namedMembers.mp hq
      exact List.mem_map.mpr ⟨(k', s), Dict.mem_of_get hs, rfl⟩
    · rintro ⟨k, s⟩ hp a b ha hb
      have hs := Dict.get_of_mem hms hp
      obtain ⟨v, hv, hne, rfl⟩ := (get_namedMembers hnames hd hs).mp ha
      obtain ⟨v', hv', -, rfl⟩ := (get_namedMembers hnames hd hs).mp hb
      rw [hv] at hv'
      cases hv'
      exact h k s v hs hv hne

/-- A list without `None` is written item by item. -/
theorem itemTrees_of_ne_none {m : Shape} {vs : List Value} (h : ∀ v ∈ vs, v ≠ .none) :
    itemTrees false m vs = vs.map fun v => tree false v m := by
  have hfilter : (vs.filter fun v => !v.isNone) = vs := by
    refine List.filter_eq_self.mpr fun v hv => ?_
    rw [Bool.not_eq_true', ← Bool.not_eq_true, Value.isNone_iff]
    exact h v hv
  rw [itemTrees_eq_map, hfilter]

theorem entryTrees_of_ne_none {s : Shape} {d : List (Str × Value)} (h : ∀ p ∈ d, p.2 ≠ .none) :
    entryTrees false s d = d.map fun p => (p.1, tree false p.2 s) := by
  have hfilter : (d.filter fun p => !p.2.isNone || false) = d := by
    refine List.filter_eq_self.mpr fun p hp => ?_
    rw [Bool.or_false, Bool.not_eq_true', ← Bool.not_eq_true, Value.isNone_iff]
    exact h p hp
  rw [entryTrees_eq_map, hfilter]

theorem wf_map_entries {d : Dict Str Value} (hd : d.WF) (f : Value → Value) :
    Dict.ofPairs (d.map fun p => (p.1, f p.2)) = d.map fun p => (p.1, f p.2) := by
  refine Dict.ofPairs_of_wf ?_
  exact Json.wf_map_values hd f

theorem sameTree_of_nothingLost {s : Shape} {v : Value} (h : Loose responseValues s v)
    (hl : s.All Lawful) (hlost : NothingLost s v) :
    SameTree stamp s (tree false v s) (cborTree stamp v s) := by
  induction h with
  | @scalar ser t v hv =>
    cases t <;> cases v <;> first | exact hv.elim | skip
    case string.str s => exact .string s
    case integer.int i => exact .integer i
    case long.int i => exact .long i
    case float.float q =>
      cases hlost with
      | scalar _ hfloat =>
        rw [cborTree, readScalar, hfloat rfl q rfl]
        exact .float (.inl rfl) q
    case float.special x => exact .special (.inl rfl) x
    case double.float q => exact .float (.inr rfl) q
    case double.special x => exact .special (.inr rfl) x
    case boolean.bool b => cases b <;> exact .boolean _
    case blob.str s => exact .blob _
    case blob.bytes bs => exact .blob bs
    case timestamp.datetime t => exact .timestamp t
  | @list ser m vs _ _ ih =>
    cases hlost with
    | list hall =>
      have hne : ∀ v ∈ vs, v ≠ .none := fun v hv => ne_none_of_nothingLost (hall v hv)
      rw [tree, cborTree, cborItems_eq_map, itemTrees_of_ne_none hne, sameTree_list_iff]
      exact fun v hv => ih v hv (hne v hv) hl.list_member (hall v hv)
  | @map ser key s d _ hwf _ _ ih =>
    cases hlost with
    | map hall =>
      have hne : ∀ p ∈ d, p.2 ≠ .none := fun p hp => ne_none_of_nothingLost (hall p hp)
      rw [tree, cborTree, cborEntries_eq_map, entryTrees_of_ne_none hne,
        wf_map_entries hwf fun v => tree false v s, wf_map_entries hwf fun v => cborTree stamp v s]
      exact (sameTree_map_iff hwf (f := fun v => tree false v s)
        (g := fun v => cborTree stamp v s)).mpr
        fun p hp => ih p hp (hne p hp) hl.map_value (hall p hp)
  | @document ser traits ms v hdoc hne =>
    cases hlost with
    | document =>
      rw [tree, if_pos hdoc]
      exact .struct (fun _ => Iff.rfl) (fun k hk => by cases hk) fun p _ a b ha => by cases ha
    | struct hdoc' => rw [hdoc] at hdoc'; cases hdoc'
  | @struct ser traits ms d hdoc _ hwf _ _ ih =>
    obtain ⟨hms, hnames, -⟩ := hl.self
    cases hlost with
    | document hdoc' => rw [hdoc] at hdoc'; cases hdoc'
    | struct _ _ hall =>
      simp only [tree, hdoc, Bool.false_eq_true, if_false]
      rw [cborTree, cborMembers_eq_named, memberTrees_eq_named,
        Dict.ofPairs_of_wf (wf_namedMembers _ hnames hwf),
        Dict.ofPairs_of_wf (wf_namedMembers _ hnames hwf), sameTree_struct_iff hms hnames hwf]
      exact fun k s v hs hv hne => ih k s v hs hv hne (hl.struct_member _ (Dict.mem_of_get hs))
        (hall k s v hs hv hne)

/-- A list that keeps its length has no `None`. -/
theorem ne_none_of_length {m : Shape} {vs : List Value}
    (h : (itemTrees false m vs).length = vs.length) : ∀ v ∈ vs, v ≠ .none := by
  rw [itemTrees_eq_map, List.length_map, List.length_filter_eq_length_iff] at h
  rintro v hv rfl
  cases h _ hv

/-- A map that keeps its keys has none either. -/
theorem ne_none_of_keys {s : Shape} {d : Dict Str Value} (hwf : d.WF)
    (h : ∀ p ∈ d, p.1 ∈ Dict.keys (Dict.ofPairs (entryTrees false s d))) :
    ∀ p ∈ d, p.2 ≠ .none := by
  intro p hp hnone
  have hmem := h p hp
  rw [Dict.mem_keys_ofPairs, entryTrees_eq_map, List.map_map] at hmem
  obtain ⟨q, hq, hqk⟩ := List.mem_map.mp hmem
  obtain ⟨hqd, hqn⟩ := List.mem_filter.mp hq
  have hget := Dict.get_of_mem hwf hp
  rw [← show q.1 = p.1 from hqk, Dict.get_of_mem hwf hqd, Option.some.injEq] at hget
  simp [hget, hnone] at hqn

/-- What is written and read as the same tree had nothing to lose. -/
theorem nothingLost_of_sameTree {cfg : Config} {s : Shape} {v : Value}
    (h : Loose responseValues s v) (hl : s.All Lawful)
    (hok : ∃ bs, Cbor.serialize_data_item cfg v s = .ok bs)
    (hsame : SameTree stamp s (tree false v s) (cborTree stamp v s)) : NothingLost s v := by
  induction h with
  | @scalar ser t v hv =>
    refine .scalar ?_ ?_
    · rintro rfl
      cases t <;> exact hv
    · rintro rfl q rfl
      obtain ⟨bs, hbs⟩ := hok
      obtain ⟨r, hr⟩ := exists_round_of_ok hbs
      have hread : SameTree stamp (.scalar ser .float) (.float q)
        (.float ((single.round q).getD q)) := hsame
      rw [hr, Option.getD_some] at hread
      cases hread
      exact hr
  | @list ser m vs _ _ ih =>
    obtain ⟨bs, hbs⟩ := hok
    obtain ⟨c, hc⟩ := items_ok_of_list hbs
    rw [tree, cborTree, cborItems_eq_map] at hsame
    have hne : ∀ v ∈ vs, v ≠ .none := by
      cases hsame with
      | list hlength _ => exact ne_none_of_length (by rwa [List.length_map] at hlength)
    rw [itemTrees_of_ne_none hne, sameTree_list_iff] at hsame
    exact .list fun v hv => ih v hv (hne v hv) hl.list_member (item_ok_of_items hc v hv)
      (hsame v hv)
  | @map ser key s d _ hwf _ _ ih =>
    obtain ⟨bs, hbs⟩ := hok
    obtain ⟨c, hc⟩ := entries_ok_of_map hbs
    rw [tree, cborTree, cborEntries_eq_map] at hsame
    have hne : ∀ p ∈ d, p.2 ≠ .none := by
      cases hsame with
      | map hkeys _ =>
        refine ne_none_of_keys hwf fun p hp => (hkeys p.1).mpr (Dict.mem_keys_ofPairs.mpr ?_)
        rw [List.map_map]
        exact List.mem_map.mpr ⟨p, hp, rfl⟩
    rw [entryTrees_of_ne_none hne, wf_map_entries hwf fun v => tree false v s,
      wf_map_entries hwf fun v => cborTree stamp v s] at hsame
    have hall := (sameTree_map_iff hwf (f := fun v => tree false v s)
      (g := fun v => cborTree stamp v s)).mp hsame
    exact .map fun p hp => ih p hp (hne p hp) hl.map_value (entry_ok_of_entries hc p hp)
      (hall p hp)
  | @document ser traits ms v hdoc hne =>
    obtain ⟨bs, hbs⟩ := hok
    obtain ⟨d, c, rfl, hc⟩ := members_ok_of_struct hbs
    obtain rfl : ms = [] := hl.self.2.2 hdoc
    rw [tree, if_pos hdoc, cborTree, cborMembers_eq_named] at hsame
    have hempty : d = [] := by
      cases hsame with
      | struct _ hspec _ =>
        refine List.eq_nil_iff_forall_not_mem.mpr fun p hp => ?_
        cases hspec p.1 (Dict.mem_keys_of_mem hp)
    rw [hempty]
    exact .document hdoc
  | @struct ser traits ms d hdoc _ hwf _ _ ih =>
    obtain ⟨bs, hbs⟩ := hok
    obtain ⟨d', c, hd, hc⟩ := members_ok_of_struct hbs
    cases hd
    obtain ⟨hms, hnames, -⟩ := hl.self
    simp only [tree, hdoc, Bool.false_eq_true, if_false] at hsame
    rw [cborTree, cborMembers_eq_named, memberTrees_eq_named,
      Dict.ofPairs_of_wf (wf_namedMembers _ hnames hwf),
      Dict.ofPairs_of_wf (wf_namedMembers _ hnames hwf), sameTree_struct_iff hms hnames hwf] at hsame
    refine .struct hdoc (fun p hp hne => ?_) fun k s v hs hv hne => ?_
    · obtain ⟨s, -, hs, -⟩ := member_ok_of_members hc p hp hne
      exact Dict.mem_keys_of_mem (Dict.mem_of_get hs)
    · obtain ⟨s', c', hs', hok⟩ := member_ok_of_members hc _ (Dict.mem_of_get hv) hne
      rw [hs] at hs'
      cases hs'
      exact ih k s v hs hv hne (hl.struct_member _ (Dict.mem_of_get hs)) ⟨c', hok⟩
        (hsame k s v hs hv hne)

end

/-! ## Agreement -/

theorem hasBodyScalars_responseValues : HasBodyScalars responseValues := by
  intro ser t v h
  cases t <;> cases v <;> first | exact h.elim | trivial

/-- The JSON serializer writes every loose value. -/
theorem json_serialize_of_loose {s : Shape} {v : Value} (h : Loose responseValues s v)
    (key : Str) : Json.serialize v s key [] = .ok [(key, tree false v s)] := by
  have hwritten : Written false s v :=
    written_of_loose hasBodyScalars_responseValues h fun hk => by cases hk
  rw [Json.serialize, hwritten key []]
  rfl

/-- Doubles of whole numbers of seconds, which these hold exactly. -/
def wholeSeconds (use_indefinite_data_structure : Bool) : Config :=
  ⟨use_indefinite_data_structure, fun q => RpcV2.packDouble q.floor⟩

theorem wholeSeconds_packs (indefinite : Bool) :
    RpcV2.PacksWholeSeconds (wholeSeconds indefinite) RpcV2.unpackFloat := by
  constructor <;> intro n hn <;> simp only [wholeSeconds, Rat.floor_intCast]
  · exact (RpcV2.packDouble_wholeSeconds hn).1
  · exact (RpcV2.packDouble_wholeSeconds hn).2

theorem wholeSeconds_stamps (indefinite : Bool) :
    Stamps (wholeSeconds indefinite) RpcV2.unpackFloat fun t => t / 1000000 * 1000000 := by
  intro t ht
  have hfloor : (timestamp t).floor = (timestamp (t / 1000000 * 1000000)).floor := by
    have h := fun t : Int => Rat.floor_intCast_div_natCast t 1000000
    have hsame := (h t).trans (h (t / 1000000 * 1000000) |>.trans (by omega)).symm
    exact hsame
  have hbytes : Cbor.serialize_type_timestamp (wholeSeconds indefinite) t =
      Cbor.serialize_type_timestamp (wholeSeconds indefinite) (t / 1000000 * 1000000) := by
    simp only [Cbor.serialize_type_timestamp, wholeSeconds, hfloor]
  rw [hbytes]
  refine RpcV2.serialize_type_timestamp_spec (wholeSeconds_packs indefinite) (by omega) ?_
  obtain ⟨hlo, hhi⟩ := ht
  constructor <;> omega

/-- A record with a renamed list, an unset member and both kinds of floats. -/
def record : Shape :=
  .struct {} {} [("names".toList, .list { name := some "Names".toList } (.scalar {} .string)),
    ("at".toList, .scalar {} .timestamp), ("note".toList, .scalar {} .blob),
    ("share".toList, .scalar {} .float), ("total".toList, .scalar {} .double)]

/-- The double next to 0.1, which has no single precision. -/
def tenth : ℚ := 3602879701896397 / 36028797018963968

def recordValue : Value :=
  .dict [("names".toList, .list [.str "é".toList]), ("note".toList, .none),
    ("at".toList, .datetime 1700000000000000), ("share".toList, .float (1 / 2)),
    ("total".toList, .float tenth)]

end LocalStack.Aws.Protocol.JsonCbor
