import LocalStack.Aws.Protocol.Cbor
import LocalStack.Lib.Lists

/-! Reading back what the CBOR serializer writes. The reader is described by what
it does on the bytes of one item with anything behind them, and containers are
put together from the bytes of their entries. -/

namespace LocalStack.Aws.Protocol.Cbor
open LocalStack.Lists LocalStack.Text LocalStack.Bytes LocalStack.OrderedDict
open LocalStack.BinaryFloat LocalStack.Aws.Datetime

/-! ## Heads -/

theorem initial_byte_fields {major_type additional_info : Nat} (hm : major_type < 8)
    (hi : additional_info < 32) :
    (get_initial_byte major_type additional_info).toNat >>> 5 = major_type ∧
      (get_initial_byte major_type additional_info).toNat &&& 0b00011111 = additional_info := by
  have h : ∀ (m : Fin 8) (i : Fin 32), (get_initial_byte m i).toNat >>> 5 = m ∧
      (get_initial_byte m i).toNat &&& 0b00011111 = i := by decide
  exact h ⟨_, hm⟩ ⟨_, hi⟩

theorem initial_byte_ne_break {major_type additional_info : Nat} (hm : major_type < 8)
    (hi : additional_info < 31) : get_initial_byte major_type additional_info ≠ breakCode := by
  intro h
  have hf := (initial_byte_fields hm (Nat.lt_succ_of_lt hi)).2
  rw [h] at hf
  have : (breakCode.toNat &&& 0b00011111) = 31 := by decide
  omega

theorem initial_byte_ne_break_of_major {major_type additional_info : Nat} (hm : major_type < 7)
    (hi : additional_info < 32) : get_initial_byte major_type additional_info ≠ breakCode := by
  intro h
  have hf := (initial_byte_fields (Nat.lt_succ_of_lt hm) hi).1
  rw [h] at hf
  have : breakCode.toNat >>> 5 = 7 := by decide
  omega

theorem read_from_stream_append (bs rest : Stream) :
    read_from_stream bs.length (bs ++ rest) = .ok (bs, rest) := by
  simp [read_from_stream]

theorem read_bytes_as_int_toBytes {k n : Nat} (h : n < 256 ^ k) (rest : Stream) :
    read_bytes_as_int k (toBytes k n ++ rest) = .ok (n, rest) := by
  have hr := read_from_stream_append (toBytes k n) rest
  rw [length_toBytes] at hr
  simp only [read_bytes_as_int, hr, bind, Except.bind, fromBytes_toBytes h]
  rfl

theorem read_bytes_as_int_cons (b : UInt8) (rest : Stream) :
    read_bytes_as_int 1 (b :: rest) = .ok (b.toNat, rest) := by
  simp [read_bytes_as_int, read_from_stream, fromBytes, bind, Except.bind]
  rfl

/-- A number written with its head is read back from its head. -/
theorem serializeHead_spec (major_type : Nat) {n : Nat} (hn : n < 2 ^ 64) :
    ∃ info tail, serializeHead major_type n = .ok (get_initial_byte major_type info :: tail) ∧
      info < 28 ∧ ∀ rest, parse_type_unsigned_integer info (tail ++ rest) = .ok (n, rest) := by
  have hwide : ∀ {info k}, 24 ≤ info → info < 28 → n < 256 ^ k → k ≠ 0 →
      get_additional_info_and_num_bytes n = (info, k) →
      (∀ rest, parse_type_unsigned_integer info (toBytes k n ++ rest) =
        read_bytes_as_int k (toBytes k n ++ rest)) →
      ∃ info tail, serializeHead major_type n = .ok (get_initial_byte major_type info :: tail) ∧
        info < 28 ∧ ∀ rest, parse_type_unsigned_integer info (tail ++ rest) = .ok (n, rest) := by
    intro info k _ hi hk hk0 hg hp
    refine ⟨info, toBytes k n, ?_, hi, fun rest => ?_⟩
    · simp only [serializeHead, hg, hk0, if_false, to_bytes, hk, if_true, bind, Except.bind]
      rfl
    · rw [hp, read_bytes_as_int_toBytes hk]
  by_cases h1 : n < 24
  · refine ⟨n, [], ?_, by omega, fun rest => ?_⟩
    · simp only [serializeHead, get_additional_info_and_num_bytes, h1, if_true]
      rfl
    · simp [parse_type_unsigned_integer, h1]
  by_cases h2 : n < 256
  · exact @hwide 24 1 (by omega) (by omega) (by omega) (by omega)
      (by simp [get_additional_info_and_num_bytes, h1, h2]) (fun _ => rfl)
  by_cases h3 : n < 65536
  · exact @hwide 25 2 (by omega) (by omega) (by omega) (by omega)
      (by simp [get_additional_info_and_num_bytes, h1, h2, h3]) (fun _ => rfl)
  by_cases h4 : n < 4294967296
  · exact @hwide 26 4 (by omega) (by omega) (by omega) (by omega)
      (by simp [get_additional_info_and_num_bytes, h1, h2, h3, h4]) (fun _ => rfl)
  · exact @hwide 27 8 (by omega) (by omega) (by omega) (by omega)
      (by simp [get_additional_info_and_num_bytes, h1, h2, h3, h4]) (fun _ => rfl)

/-! ## Entries -/

/-- `read` takes exactly the bytes `bs` for `x`, whatever follows them, and they
do not look like the break code. -/
structure ReadsAs {α : Type} (read : Reader α) (bs : List UInt8) (x : α) : Prop where
  ne_nil : bs ≠ []
  no_break : handle_break_code bs = none
  reads : ∀ rest, read (bs ++ rest) = .ok (x, rest)

theorem handle_break_code_append {bs : List UInt8} (hne : bs ≠ [])
    (h : handle_break_code bs = none) (rest : Stream) : handle_break_code (bs ++ rest) = none := by
  cases bs with
  | nil => exact absurd rfl hne
  | cons b bs =>
    simp only [List.cons_append, handle_break_code] at h ⊢
    split at h
    · cases h
    · next hb => rw [if_neg hb]

theorem readTimes_chunks {α : Type} {read : Reader α} {chunks : List (List UInt8)} {xs : List α}
    (h : List.Forall₂ (ReadsAs read) chunks xs) (rest : Stream) :
    readTimes read chunks.length (chunks.flatten ++ rest) = .ok (xs, rest) := by
  induction h with
  | nil => rfl
  | cons hc _ ih =>
    simp only [List.length_cons, List.flatten_cons, List.append_assoc, readTimes, hc.reads, bind,
      Except.bind, ih]
    rfl

theorem readUntilBreak_chunks {α : Type} {read : Reader α} {chunks : List (List UInt8)}
    {xs : List α} (h : List.Forall₂ (ReadsAs read) chunks xs) (rest : Stream) (fuel : Nat)
    (hf : chunks.length < fuel) :
    readUntilBreak read fuel (chunks.flatten ++ breakCode :: rest) = .ok (xs, rest) := by
  induction h generalizing fuel with
  | nil =>
    obtain ⟨fuel, rfl⟩ := Nat.exists_eq_succ_of_ne_zero (Nat.ne_of_gt hf)
    simp [readUntilBreak, handle_break_code]
  | cons hc _ ih =>
    obtain ⟨fuel, rfl⟩ := Nat.exists_eq_succ_of_ne_zero (Nat.ne_zero_of_lt hf)
    have hb := fun rest => handle_break_code_append hc.ne_nil hc.no_break rest
    simp only [List.flatten_cons, List.append_assoc, readUntilBreak, hb, hc.reads, bind,
      Except.bind, ih fuel (Nat.lt_of_succ_lt_succ hf)]
    rfl

theorem length_le_flatten {chunks : List (List UInt8)} (h : ∀ c ∈ chunks, c ≠ []) :
    chunks.length ≤ chunks.flatten.length := by
  induction chunks with
  | nil => simp
  | cons c chunks ih =>
    rw [List.forall_mem_cons] at h
    have := List.length_pos_iff.mpr h.1
    have := ih h.2
    simp only [List.length_cons, List.flatten_cons, List.length_append]
    omega

theorem length_le_flatten_of_mem {chunks : List (List UInt8)} {c : List UInt8} (h : c ∈ chunks) :
    c.length ≤ chunks.flatten.length := by
  obtain ⟨l, l', rfl⟩ := List.append_of_mem h
  simp only [List.flatten_append, List.flatten_cons, List.length_append]
  omega

/-- The bytes around the entries of a container, definite or not, make the
reader take exactly the entries. -/
theorem data_structure_spec (cfg : Config) (major_type : Nat) {n : Nat} (hn : n < 2 ^ 64) :
    ∃ info tail closing,
      get_bytes_for_data_structure cfg n major_type =
        .ok (get_initial_byte major_type info :: tail, closing) ∧
      info < 32 ∧
      ∀ {α : Type} {read : Reader α} {chunks : List (List UInt8)} {xs : List α},
        List.Forall₂ (ReadsAs read) chunks xs → chunks.length = n → ∀ rest,
        readEntries read info (tail ++ (chunks.flatten ++ (closing ++ rest))) = .ok (xs, rest) := by
  unfold get_bytes_for_data_structure
  cases cfg.use_indefinite_data_structure with
  | true =>
    refine ⟨indefiniteItemAdditionalInfo, [], [breakCode], rfl, by decide, ?_⟩
    intro α read chunks xs h hlen rest
    have hpos := length_le_flatten fun c hc =>
      (forall₂_left_mem h c hc).elim fun _ hr => hr.ne_nil
    have hu := readUntilBreak_chunks h rest ((chunks.flatten ++ breakCode :: rest).length + 1)
      (by rw [List.length_append]; omega)
    simpa [readEntries] using hu
  | false =>
    obtain ⟨info, tail, hs, hi, hp⟩ := serializeHead_spec major_type hn
    refine ⟨info, tail, [], by simp only [hs]; rfl, by omega, ?_⟩
    intro α read chunks xs h hlen rest
    have hne : info ≠ indefiniteItemAdditionalInfo := by
      simp only [indefiniteItemAdditionalInfo]; omega
    subst hlen
    simp only [readEntries, if_pos hne, hp, bind, Except.bind]
    exact readTimes_chunks h rest

/-! ## Items -/

section Items

variable {unpackFloat : List UInt8 → Value}

/-- `parse_data_item` takes exactly the bytes `bs` for `w`. -/
def Decodes (unpackFloat : List UInt8 → Value) (bs : List UInt8) (w : Value) : Prop :=
  ∀ fuel, bs.length ≤ fuel → ReadsAs (parseDataItem unpackFloat fuel) bs w

/-- What the parsing method of the major type does behind the initial byte. -/
theorem decodes_of_majorType {major_type info : Nat} (tail : List UInt8) {w : Value}
    (hm : major_type < 8) (hi : info < 32)
    (hb : get_initial_byte major_type info ≠ breakCode)
    (h : ∀ fuel, tail.length ≤ fuel → ∀ rest,
      parseMajorType unpackFloat (parseDataItem unpackFloat fuel) major_type info (tail ++ rest) =
        .ok (w, rest)) :
    Decodes unpackFloat (get_initial_byte major_type info :: tail) w := by
  intro fuel hf
  refine ⟨by simp, by simp [handle_break_code, hb], fun rest => ?_⟩
  obtain ⟨fuel, rfl⟩ := Nat.exists_eq_succ_of_ne_zero (Nat.ne_zero_of_lt hf)
  obtain ⟨hmajor, hinfo⟩ := initial_byte_fields hm hi
  simp only [parseDataItem, List.cons_append, read_bytes_as_int_cons, bind, Except.bind, hmajor,
    hinfo]
  exact h fuel (by simpa using hf) rest

theorem parse_data_item_of_decodes {bs : List UInt8} {w : Value} (h : Decodes unpackFloat bs w)
    (rest : Stream) : parse_data_item unpackFloat (bs ++ rest) = .ok (w, rest) :=
  (h _ (by simp; omega)).reads rest

theorem serialize_type_integer_spec {i : Int} (hlo : -2 ^ 64 ≤ i) (hhi : i < 2 ^ 64) :
    ∃ bs, serialize_type_integer i = .ok bs ∧ Decodes unpackFloat bs (.int i) := by
  unfold serialize_type_integer
  split
  · next h0 =>
    obtain ⟨info, tail, hs, hi, hp⟩ := serializeHead_spec unsignedIntMajorType
      (n := i.toNat) (by omega)
    refine ⟨_, hs, decodes_of_majorType _ (by decide) (by omega)
      (initial_byte_ne_break (by decide) (by omega)) fun fuel _ rest => ?_⟩
    simp [unsignedIntMajorType, parseMajorType, hp, Except.map, h0]
  · next h0 =>
    obtain ⟨info, tail, hs, hi, hp⟩ := serializeHead_spec negativeIntMajorType
      (n := (-1 - i).toNat) (by omega)
    have hneg : -1 - ((-1 - i).toNat : Int) = i := by omega
    refine ⟨_, hs, decodes_of_majorType _ (by decide) (by omega)
      (initial_byte_ne_break (by decide) (by omega)) fun fuel _ rest => ?_⟩
    simp only [negativeIntMajorType, parseMajorType, parse_type_negative_integer, hp, bind,
      Except.bind, pure, Except.pure, Except.map, hneg]

theorem parse_type_byte_string_spec {info : Nat} {tail bs : List UInt8} (hi : info < 28)
    (hp : ∀ rest, parse_type_unsigned_integer info (tail ++ rest) = .ok (bs.length, rest))
    (rest : Stream) :
    parse_type_byte_string info (tail ++ (bs ++ rest)) = .ok (bs, rest) := by
  have hne : info ≠ indefiniteItemAdditionalInfo := by
    simp only [indefiniteItemAdditionalInfo]; omega
  simp only [parse_type_byte_string, if_pos hne, hp, bind, Except.bind, read_from_stream_append]

theorem serialize_type_blob_spec {value : List UInt8} (hlen : value.length < 2 ^ 64) :
    ∃ bs, serialize_type_blob value = .ok bs ∧ Decodes unpackFloat bs (.bytes value) := by
  obtain ⟨info, tail, hs, hi, hp⟩ := serializeHead_spec blobMajorType hlen
  refine ⟨get_initial_byte blobMajorType info :: (tail ++ value),
    by simp only [serialize_type_blob, hs]; rfl, ?_⟩
  refine decodes_of_majorType _ (by decide) (by omega)
    (initial_byte_ne_break (by decide) (by omega)) fun fuel _ rest => ?_
  simp only [blobMajorType, parseMajorType, List.append_assoc, parse_type_byte_string_spec hi hp,
    Except.map]

theorem serialize_type_string_spec {s : Str} (hlen : (encodeUtf8 s).length < 2 ^ 64) :
    ∃ bs, serialize_type_string s = .ok bs ∧ Decodes unpackFloat bs (.str s) := by
  obtain ⟨info, tail, hs, hi, hp⟩ := serializeHead_spec stringMajorType hlen
  refine ⟨get_initial_byte stringMajorType info :: (tail ++ encodeUtf8 s),
    by simp only [serialize_type_string, hs]; rfl, ?_⟩
  refine decodes_of_majorType _ (by decide) (by omega)
    (initial_byte_ne_break (by decide) (by omega)) fun fuel _ rest => ?_
  simp only [stringMajorType, parseMajorType, parse_type_text_string, List.append_assoc,
    parse_type_byte_string_spec hi hp, bind, Except.bind, decodeUtf8_encodeUtf8]
  rfl

theorem serialize_type_boolean_spec (b : Bool) :
    Decodes unpackFloat (serialize_type_boolean b) (.bool b) := by
  refine decodes_of_majorType [] (by decide) (by split <;> omega)
    (by cases b <;> decide) fun fuel _ rest => ?_
  cases b <;> rfl

/-! ### Floats -/

/-- `struct.unpack` of the formats that a float can have. -/
structure UnpacksFloats (unpackFloat : List UInt8 → Value) : Prop where
  half : ∀ bs, bs.length = 2 → unpackFloat bs = .ofNumber (BinaryFloat.half.unpack bs)
  single : ∀ bs, bs.length = 4 → unpackFloat bs = .ofNumber (BinaryFloat.single.unpack bs)
  double : ∀ bs, bs.length = 8 → unpackFloat bs = .ofNumber (BinaryFloat.double.unpack bs)

theorem decodes_float {info : Nat} {bs : List UInt8}
    (h : (info, bs.length) ∈ [(25, 2), (26, 4), (27, 8)]) :
    Decodes unpackFloat (get_initial_byte floatAndSimpleMajorType info :: bs) (unpackFloat bs) := by
  have hinfo : info = 25 ∨ info = 26 ∨ info = 27 := by
    simp only [List.mem_cons, Prod.mk.injEq, List.not_mem_nil, or_false] at h
    omega
  refine decodes_of_majorType bs (by decide) (by omega) (by rcases hinfo with rfl | rfl | rfl <;> decide)
    fun fuel _ rest => ?_
  have hread := read_from_stream_append bs rest
  simp only [List.mem_cons, Prod.mk.injEq, List.not_mem_nil, or_false] at h
  rcases h with ⟨rfl, hlen⟩ | ⟨rfl, hlen⟩ | ⟨rfl, hlen⟩ <;>
    · rw [hlen] at hread
      simp only [floatAndSimpleMajorType, parseMajorType, parse_type_simple_and_float, hread,
        Except.map]

theorem serializeFloat_spec {F : Format} (hF : F.Valid) {info : Nat}
    (hinfo : (info, F.width) ∈ [(25, 2), (26, 4), (27, 8)])
    (hunpack : ∀ bs, bs.length = F.width → unpackFloat bs = .ofNumber (F.unpack bs)) {q r : ℚ}
    (h : F.round q = some r) :
    ∃ bs, serializeFloat F info (.float q) = .ok bs ∧ Decodes unpackFloat bs (.float r) := by
  obtain ⟨bs, hpack, hlen, hread⟩ := Format.unpack_pack hF h
  refine ⟨get_initial_byte floatAndSimpleMajorType info :: bs,
    by simp only [serializeFloat, serializeFloat.pack, hpack], ?_⟩
  have hdecodes := @decodes_float unpackFloat info bs (by rw [hlen]; exact hinfo)
  rwa [hunpack bs hlen, hread] at hdecodes

theorem serialize_type_float_spec (hu : UnpacksFloats unpackFloat) {q r : ℚ}
    (h : single.round q = some r) :
    ∃ bs, serialize_type_float (.float q) = .ok bs ∧ Decodes unpackFloat bs (.float r) :=
  serializeFloat_spec Format.valid_single (by decide) hu.single h

theorem serialize_type_double_spec (hu : UnpacksFloats unpackFloat) {q r : ℚ}
    (h : double.round q = some r) :
    ∃ bs, serialize_type_double (.float q) = .ok bs ∧ Decodes unpackFloat bs (.float r) :=
  serializeFloat_spec Format.valid_double (by decide) hu.double h

theorem unpack_specialBytes (x : Special) : half.unpack (specialBytes x) = .special x := by
  cases x <;> decide +kernel

theorem get_bytes_for_special_numbers_spec (hu : UnpacksFloats unpackFloat) (x : Special) :
    Decodes unpackFloat (get_bytes_for_special_numbers x) (.special x) := by
  have hlen : (specialBytes x).length = 2 := by cases x <;> rfl
  have hdecodes := @decodes_float unpackFloat 25 (specialBytes x) (by simp [hlen])
  rwa [hu.half _ hlen, unpack_specialBytes] at hdecodes

/-- The array of the entries that `data_structure_spec` frames. -/
theorem decodes_list (cfg : Config) {chunks : List (List UInt8)} {ws : List Value}
    (h : List.Forall₂ (Decodes unpackFloat) chunks ws) (hn : chunks.length < 2 ^ 64) :
    ∃ opening closing,
      get_bytes_for_data_structure cfg chunks.length listMajorType = .ok (opening, closing) ∧
      Decodes unpackFloat (opening ++ chunks.flatten ++ closing) (.list ws) := by
  obtain ⟨info, tail, closing, hs, hi, hr⟩ := data_structure_spec cfg listMajorType hn
  refine ⟨_, closing, hs, ?_⟩
  rw [List.cons_append, List.cons_append]
  refine decodes_of_majorType _ (by decide) hi (initial_byte_ne_break_of_major (by decide) hi)
    fun fuel hf rest => ?_
  have hchunks : List.Forall₂ (ReadsAs (parseDataItem unpackFloat fuel)) chunks ws := by
    refine forall₂_imp_mem (fun c hc w hd => hd fuel ?_) h
    have := length_le_flatten_of_mem hc
    simp only [List.length_append] at hf
    omega
  simp only [listMajorType, parseMajorType, List.append_assoc, hr hchunks rfl, Except.map]

theorem parse_type_key_value_pair_spec {fuel : Nat} {kbs vbs : List UInt8} {k : Str} {w : Value}
    (hk : ReadsAs (parseDataItem unpackFloat fuel) kbs (.str k))
    (hv : ReadsAs (parseDataItem unpackFloat fuel) vbs w) (hw : w.isNone = false) :
    ReadsAs (parse_type_key_value_pair (parseDataItem unpackFloat fuel)) (kbs ++ vbs)
      (some (k, w)) := by
  refine ⟨by simp [hk.ne_nil], handle_break_code_append hk.ne_nil hk.no_break vbs, fun rest => ?_⟩
  simp only [parse_type_key_value_pair, List.append_assoc, hk.reads, hv.reads, bind, Except.bind]
  cases w <;> first | rfl | simp [Value.isNone] at hw

/-- The bytes of a map entry. -/
def DecodesEntry (unpackFloat : List UInt8 → Value) (bs : List UInt8) (p : Str × Value) : Prop :=
  ∃ kbs vbs, bs = kbs ++ vbs ∧ Decodes unpackFloat kbs (.str p.1) ∧
    Decodes unpackFloat vbs p.2 ∧ p.2.isNone = false

theorem decodes_dict (cfg : Config) {chunks : List (List UInt8)} {ps : List (Str × Value)}
    (h : List.Forall₂ (DecodesEntry unpackFloat) chunks ps) (hn : chunks.length < 2 ^ 64) :
    ∃ opening closing,
      get_bytes_for_data_structure cfg chunks.length mapMajorType = .ok (opening, closing) ∧
      Decodes unpackFloat (opening ++ chunks.flatten ++ closing) (.dict (Dict.ofPairs ps)) := by
  obtain ⟨info, tail, closing, hs, hi, hr⟩ := data_structure_spec cfg mapMajorType hn
  refine ⟨_, closing, hs, ?_⟩
  rw [List.cons_append, List.cons_append]
  refine decodes_of_majorType _ (by decide) hi (initial_byte_ne_break_of_major (by decide) hi)
    fun fuel hf rest => ?_
  have hchunks : List.Forall₂
      (ReadsAs (parse_type_key_value_pair (parseDataItem unpackFloat fuel))) chunks
      (ps.map some) := by
    rw [List.forall₂_map_right_iff]
    refine forall₂_imp_mem (fun c hc p hd => ?_) h
    obtain ⟨kbs, vbs, rfl, hk, hv, hw⟩ := hd
    have := length_le_flatten_of_mem hc
    simp only [List.length_append] at hf this
    exact parse_type_key_value_pair_spec (hk fuel (by omega)) (hv fuel (by omega)) hw
  simp only [mapMajorType, parseMajorType, List.append_assoc, hr hchunks rfl, Except.map]
  simp

end Items

/-! ## Value trees -/

mutual

/-- The tree that a value becomes on the wire: a structure without its `None`
members, the others under their serialized names. -/
def wire : Value → Shape → Value
  | .list vs, .list _ member => .list (wireItems member vs)
  | .dict d, .map _ _ value => .dict (Dict.ofPairs (wireEntries value d))
  | .dict d, .struct _ _ members => .dict (Dict.ofPairs (wireMembers members d))
  | v, _ => v
termination_by structural v => v

def wireItems (member : Shape) : List Value → List Value
  | [] => []
  | v :: vs => wire v member :: wireItems member vs
termination_by structural vs => vs

def wireEntries (value : Shape) : List (Str × Value) → List (Str × Value)
  | [] => []
  | (key, v) :: d => (key, wire v value) :: wireEntries value d
termination_by structural d => d

def wireMembers (members : Dict Str Shape) : List (Str × Value) → List (Str × Value)
  | [] => []
  | (member_key, v) :: d =>
    if v.isNone then wireMembers members d
    else
      match members.get member_key with
      | none => wireMembers members d
      | some member_shape =>
        (member_shape.getSerializedName member_key, wire v member_shape) :: wireMembers members d
termination_by structural d => d

end

theorem wire_isNone {v : Value} (s : Shape) (h : v.isNone = false) : (wire v s).isNone = false := by
  cases v <;> cases s <;> first | rfl | exact h

section Trees

variable {unpackFloat : List UInt8 → Value} {cfg : Config} {R : ValueRules}

/-- Every serialized name has a length that fits in eight bytes. -/
def NamesFit (s : Shape) : Prop :=
  ∀ name, s.serialization.name = some name → (encodeUtf8 name).length < 2 ^ 64

/-- The bytes of `v` decode to `w`. -/
def SerializesAs (cfg : Config) (unpackFloat : List UInt8 → Value) (s : Shape) (v w : Value) :
    Prop :=
  ∃ bs, serialize_data_item cfg v s = .ok bs ∧ Decodes unpackFloat bs w

/-- The serialized value decodes to its wire tree. -/
def Serializes (cfg : Config) (unpackFloat : List UInt8 → Value) (s : Shape) (v : Value) : Prop :=
  v.isNone = false ∧
    ∃ bs, serialize_data_item cfg v s = .ok bs ∧ Decodes unpackFloat bs (wire v s)

/-- The entries of the members that are set, each with what `T` makes of its value. -/
def namedMembers (T : Value → Shape → Value) (ms : Dict Str Shape) :
    List (Str × Value) → List (Str × Value)
  | [] => []
  | (k, v) :: d =>
    if v.isNone then namedMembers T ms d
    else
      match ms.get k with
      | none => namedMembers T ms d
      | some s => (s.getSerializedName k, T v s) :: namedMembers T ms d

theorem wireItems_eq_map (m : Shape) (vs : List Value) :
    wireItems m vs = vs.map fun v => wire v m := by
  induction vs with
  | nil => rfl
  | cons v vs ih => rw [wireItems, ih, List.map_cons]

theorem wireEntries_eq_map (s : Shape) (d : List (Str × Value)) :
    wireEntries s d = d.map fun p => (p.1, wire p.2 s) := by
  induction d with
  | nil => rfl
  | cons p d ih => rw [wireEntries, ih, List.map_cons]

theorem wireMembers_eq_named (ms : Dict Str Shape) (d : List (Str × Value)) :
    wireMembers ms d = namedMembers wire ms d := by
  induction d with
  | nil => rfl
  | cons p d ih => simp only [wireMembers, namedMembers, ih]

theorem serializeItems_spec {m : Shape} {vs : List Value} {T : Value → Value}
    (h : ∀ v ∈ vs, SerializesAs cfg unpackFloat m v (T v)) :
    ∃ chunks, serializeItems cfg m vs = .ok chunks.flatten ∧ chunks.length = vs.length ∧
      List.Forall₂ (Decodes unpackFloat) chunks (vs.map T) := by
  induction vs with
  | nil => exact ⟨[], by simp [serializeItems], rfl, .nil⟩
  | cons v vs ih =>
    obtain ⟨⟨bs, hs, hd⟩, hvs⟩ := List.forall_mem_cons.mp h
    obtain ⟨chunks, hc, hlen, hds⟩ := ih hvs
    refine ⟨bs :: chunks, ?_, by simp [hlen], .cons hd hds⟩
    simp only [serializeItems, hs, hc, bind, Except.bind, pure, Except.pure, List.flatten_cons]

theorem serializeEntries_spec {s : Shape} {d : List (Str × Value)} {T : Value → Value}
    (hkeys : ∀ p ∈ d, (encodeUtf8 p.1).length < 2 ^ 64)
    (h : ∀ p ∈ d, (T p.2).isNone = false ∧ SerializesAs cfg unpackFloat s p.2 (T p.2)) :
    ∃ chunks, serializeEntries cfg s d = .ok chunks.flatten ∧ chunks.length = d.length ∧
      List.Forall₂ (DecodesEntry unpackFloat) chunks (d.map fun p => (p.1, T p.2)) := by
  induction d with
  | nil => exact ⟨[], by simp [serializeEntries], rfl, .nil⟩
  | cons p d ih =>
    obtain ⟨key, v⟩ := p
    obtain ⟨hkey, hkeys⟩ := List.forall_mem_cons.mp hkeys
    obtain ⟨⟨hn, bs, hs, hd⟩, hrest⟩ := List.forall_mem_cons.mp h
    obtain ⟨kbs, hks, hkd⟩ := @serialize_type_string_spec unpackFloat _ hkey
    obtain ⟨chunks, hc, hlen, hds⟩ := ih hkeys hrest
    refine ⟨(kbs ++ bs) :: chunks, ?_, by simp [hlen], .cons ⟨kbs, bs, rfl, hkd, hd, hn⟩ hds⟩
    simp only [serializeEntries, hks, hs, hc, bind, Except.bind, pure, Except.pure,
      List.flatten_cons, List.append_assoc]

theorem serializeMembers_spec {ms : Dict Str Shape} {d : List (Str × Value)}
    {T : Value → Shape → Value}
    (h : ∀ p ∈ d, p.2.isNone = false → ∃ s, ms.get p.1 = some s ∧
      (encodeUtf8 (s.getSerializedName p.1)).length < 2 ^ 64 ∧ (T p.2 s).isNone = false ∧
      SerializesAs cfg unpackFloat s p.2 (T p.2 s)) :
    ∃ chunks, serializeMembers cfg ms d = .ok chunks.flatten ∧
      chunks.length = (d.filter fun p => !p.2.isNone).length ∧
      List.Forall₂ (DecodesEntry unpackFloat) chunks (namedMembers T ms d) := by
  induction d with
  | nil => exact ⟨[], by simp [serializeMembers], rfl, .nil⟩
  | cons p d ih =>
    obtain ⟨key, v⟩ := p
    obtain ⟨hhead, hrest⟩ := List.forall_mem_cons.mp h
    obtain ⟨chunks, hc, hlen, hds⟩ := ih hrest
    cases hv : v.isNone with
    | true => exact ⟨chunks, by simp [serializeMembers, hv, hc], by simp [hv, hlen],
        by simpa [namedMembers, hv] using hds⟩
    | false =>
      obtain ⟨s, hg, hname, hn, bs, hs, hd⟩ := hhead hv
      obtain ⟨kbs, hks, hkd⟩ := @serialize_type_string_spec unpackFloat _ hname
      refine ⟨(kbs ++ bs) :: chunks, ?_, by simp [hv, hlen], ?_⟩
      · simp only [serializeMembers, hv, hg, hks, hs, hc, bind, Except.bind, pure, Except.pure,
          List.flatten_cons, List.append_assoc, Bool.false_eq_true, if_false]
      · simp only [namedMembers, hv, hg, Bool.false_eq_true, if_false]
        exact .cons ⟨kbs, bs, rfl, hkd, hd, hn⟩ hds

/-! The containers around their entries. -/

theorem serializesAs_list {ser : Serialization} {m : Shape} {vs : List Value} {T : Value → Value}
    (hsize : vs.length < 2 ^ 64) (h : ∀ v ∈ vs, SerializesAs cfg unpackFloat m v (T v)) :
    SerializesAs cfg unpackFloat (.list ser m) (.list vs) (.list (vs.map T)) := by
  obtain ⟨chunks, hc, hlen, hds⟩ := serializeItems_spec h
  obtain ⟨opening, closing, hb, hd⟩ := decodes_list cfg hds (hlen ▸ hsize)
  refine ⟨_, ?_, hd⟩
  simp only [serialize_data_item, ← hlen, hb, hc, bind, Except.bind, pure, Except.pure]

theorem serializesAs_map {ser key : Serialization} {s : Shape} {d : Dict Str Value}
    {T : Value → Value} (hsize : d.length < 2 ^ 64)
    (hkeys : ∀ p ∈ d, (encodeUtf8 p.1).length < 2 ^ 64)
    (h : ∀ p ∈ d, (T p.2).isNone = false ∧ SerializesAs cfg unpackFloat s p.2 (T p.2)) :
    SerializesAs cfg unpackFloat (.map ser key s) (.dict d)
      (.dict (Dict.ofPairs (d.map fun p => (p.1, T p.2)))) := by
  obtain ⟨chunks, hc, hlen, hds⟩ := serializeEntries_spec hkeys h
  obtain ⟨opening, closing, hb, hd⟩ := decodes_dict cfg hds (hlen ▸ hsize)
  refine ⟨_, ?_, hd⟩
  simp only [serialize_data_item, ← hlen, hb, hc, bind, Except.bind, pure, Except.pure]

theorem serializesAs_struct {ser : Serialization} {traits : StructureTraits} {ms : Dict Str Shape}
    {d : Dict Str Value} {T : Value → Shape → Value}
    (hsize : (d.filter fun p => !p.2.isNone).length < 2 ^ 64)
    (h : ∀ p ∈ d, p.2.isNone = false → ∃ s, ms.get p.1 = some s ∧
      (encodeUtf8 (s.getSerializedName p.1)).length < 2 ^ 64 ∧ (T p.2 s).isNone = false ∧
      SerializesAs cfg unpackFloat s p.2 (T p.2 s)) :
    SerializesAs cfg unpackFloat (.struct ser traits ms) (.dict d)
      (.dict (Dict.ofPairs (namedMembers T ms d))) := by
  obtain ⟨chunks, hc, hlen, hds⟩ := serializeMembers_spec h
  obtain ⟨opening, closing, hb, hd⟩ := decodes_dict cfg hds (hlen ▸ hsize)
  refine ⟨_, ?_, hd⟩
  simp only [serialize_data_item, ← hlen, hb, hc, bind, Except.bind, pure, Except.pure]

/-- A serialized name is short if the shape's names and the keys of the value are. -/
theorem length_getSerializedName {s : Shape} (hs : NamesFit s) {k : Str}
    (hk : (encodeUtf8 k).length < 2 ^ 64) :
    (encodeUtf8 (s.getSerializedName k)).length < 2 ^ 64 := by
  cases hname : s.serialization.name with
  | none => simpa [Shape.getSerializedName, hname] using hk
  | some name => simpa [Shape.getSerializedName, hname] using hs name hname

/-- What a protocol has to grant for its values to be readable: scalars decode
to themselves, and lengths fit in eight bytes. -/
structure Readable (cfg : Config) (unpackFloat : List UInt8 → Value) (R : ValueRules) : Prop where
  scalar : ∀ ser t v, R.scalar ser t v →
    v.isNone = false ∧ ∃ bs, serializeScalar cfg t v = .ok bs ∧ Decodes unpackFloat bs v
  key : ∀ k, R.key k → (encodeUtf8 k).length < 2 ^ 64
  size : ∀ n, R.size n → n < 2 ^ 64

theorem typed_serializes (hR : Readable cfg unpackFloat R) {s : Shape} {v : Value}
    (h : Typed R s v) (hnames : s.All NamesFit) : Serializes cfg unpackFloat s v := by
  induction h with
  | @scalar ser t v hv =>
    obtain ⟨hn, bs, hs, hd⟩ := hR.scalar ser t v hv
    have hw : wire v (.scalar ser t) = v := by cases v <;> rfl
    refine ⟨hn, bs, ?_, by rw [hw]; exact hd⟩
    cases v <;> exact hs
  | @list ser m vs hsize _ _ ih =>
    rw [Serializes, wire, wireItems_eq_map]
    exact ⟨rfl, serializesAs_list (hR.size _ hsize) fun v hv => (ih v hv hnames.list_member).2⟩
  | @map ser key s d hsize _ hkeys _ _ ih =>
    rw [Serializes, wire, wireEntries_eq_map]
    refine ⟨rfl, serializesAs_map (T := fun v => wire v s) (hR.size _ hsize)
      (fun p hp => hR.key _ (hkeys p hp)) fun p hp => ?_⟩
    obtain ⟨hn, hs⟩ := ih p hp hnames.map_value
    exact ⟨wire_isNone s hn, hs⟩
  | @struct ser traits ms d hsize hwf hkeys hmem _ _ _ ih =>
    rw [Serializes, wire, wireMembers_eq_named]
    have hlength := hR.size _ hsize
    have hle := List.length_filter_le (fun p : Str × Value => !p.2.isNone) d
    refine ⟨rfl, serializesAs_struct (by omega) fun p hp hn => ?_⟩
    obtain ⟨s, hs⟩ := Dict.exists_get (hmem p.1 (Dict.mem_keys_of_mem hp))
    have hall := hnames.struct_member _ (Dict.mem_of_get hs)
    have hne : p.2 ≠ .none := by
      intro hnone
      rw [hnone] at hn
      cases hn
    exact ⟨s, hs, length_getSerializedName hall.self (hR.key _ (hkeys p hp)), wire_isNone s hn,
      (ih p.1 s p.2 hs (Dict.get_of_mem hwf hp) hne hall).2⟩

end Trees

/-! ## The round trip -/

/-- Trees of integers, byte and text strings, booleans, lists, maps and
structures, the members of which may be `None`. No Python length needs more than
eight bytes. -/
def dataItems : ValueRules where
  scalar _ t v :=
    match t, v with
    | .string, .str s => (encodeUtf8 s).length < 2 ^ 64
    | .integer, .int i | .long, .int i => -2 ^ 64 ≤ i ∧ i < 2 ^ 64
    | .boolean, .bool _ => True
    | .blob, .bytes bs => bs.length < 2 ^ 64
    | _, _ => False
  key k := (encodeUtf8 k).length < 2 ^ 64
  size n := n < 2 ^ 64
  noneMembers := True
  setsRequired := False

theorem dataItems_readable (cfg : Config) (unpackFloat : List UInt8 → Value) :
    Readable cfg unpackFloat dataItems := by
  refine ⟨fun ser t v h => ?_, fun _ h => h, fun _ h => h⟩
  cases t <;> cases v <;> first | exact h.elim | skip
  · exact ⟨rfl, serialize_type_string_spec h⟩
  · exact ⟨rfl, serialize_type_integer_spec h.1 h.2⟩
  · exact ⟨rfl, serialize_type_integer_spec h.1 h.2⟩
  · exact ⟨rfl, _, rfl, serialize_type_boolean_spec _⟩
  · exact ⟨rfl, serialize_type_blob_spec h⟩

/-- **CBOR round trip.** Reading the bytes of a value tree, with anything behind
them, takes exactly these bytes and gives the tree back, with the set members of
its structures under their serialized names. -/
theorem parse_data_item_serialize_data_item (cfg : Config) (unpackFloat : List UInt8 → Value)
    {s : Shape} {v : Value} (hnames : s.All NamesFit) (h : Typed dataItems s v) :
    ∃ bs, serialize_data_item cfg v s = .ok bs ∧
      ∀ rest, parse_data_item unpackFloat (bs ++ rest) = .ok (wire v s, rest) := by
  obtain ⟨_, bs, hs, hd⟩ := typed_serializes (dataItems_readable cfg unpackFloat) h hnames
  exact ⟨bs, hs, parse_data_item_of_decodes hd⟩

/-- A structure with a renamed list member. -/
def tagged : Shape :=
  .struct {} {} [("tags".toList, .list { name := some "Tags".toList } (.scalar {} .string)),
    ("size".toList, .scalar {} .long)]

theorem tagged_typed :
    Typed dataItems tagged
      (.dict [("tags".toList, .list [.str "é".toList]), ("size".toList, .none)]) := by
  have hsize : ∀ n, n < 3 → dataItems.size n := fun n hn => by simp only [dataItems]; omega
  have hkey : ∀ k : Str, (encodeUtf8 k).length < 2 ^ 64 → dataItems.key k := fun _ h => h
  refine .struct_of_entries (hsize 2 (by decide)) (by decide) (by simp [dataItems]) ?_
  simp only [List.forall_mem_cons]
  refine ⟨⟨hkey _ (by decide), (fun h => by cases h), _, rfl, fun _ => ?_⟩,
    ⟨hkey _ (by decide), fun _ => trivial, _, rfl, fun h => absurd rfl h⟩, by simp⟩
  refine .list (hsize 1 (by decide)) (fun _ _ => trivial) (List.forall_mem_singleton.mpr ?_)
  exact .scalar (hkey _ (by decide))

theorem tagged_parses :
    ∃ bs, serialize_data_item ⟨true, fun _ => []⟩
        (.dict [("tags".toList, .list [.str "é".toList]), ("size".toList, .none)]) tagged = .ok bs ∧
      ∀ rest, parse_data_item (fun _ => .none) (bs ++ rest) =
        .ok (.dict [("Tags".toList, .list [.str "é".toList])], rest) := by
  refine parse_data_item_serialize_data_item _ _ ?_ tagged_typed
  have hfit : ∀ s : Shape, s.serialization.name = none ∨ s.serialization.name = some "Tags".toList →
      NamesFit s := by
    rintro s (h | h) name hname <;> rw [h] at hname <;> cases hname
    decide
  refine .struct (hfit _ (Or.inl rfl)) ?_
  simp only [List.forall_mem_cons]
  exact ⟨.list (hfit _ (Or.inr rfl)) (.scalar (hfit _ (Or.inl rfl))), .scalar (hfit _ (Or.inl rfl)),
    by simp⟩

/-- A renamed member does not come back under its own name. -/
theorem renamed_member_differs :
    ∃ bs, serialize_data_item ⟨false, fun _ => []⟩
        (.dict [("tags".toList, .list [.str "é".toList])]) tagged = .ok bs ∧
      parse_data_item (fun _ => .none) bs ≠
        .ok (.dict [("tags".toList, .list [.str "é".toList])], []) := by
  refine ⟨_, rfl, ?_⟩
  have hp : parse_data_item (fun _ => .none)
      [0xA1, 0x64, 0x54, 0x61, 0x67, 0x73, 0x81, 0x62, 0xC3, 0xA9] =
      .ok (.dict [("Tags".toList, .list [.str "é".toList])], []) := rfl
  intro h
  have heq := hp.symm.trans h
  simp at heq

end LocalStack.Aws.Protocol.Cbor
