import LocalStack.Aws.Protocol.CborReaders

/-! What `RpcV2CBORRequestParser` accepts, against the data items of RFC 8949. The decoder
is here with keys of every kind, and it does what the decoder of text keys does where that
has a result. -/

namespace LocalStack.Aws.Protocol.CborStrict
open LocalStack.Text LocalStack.Bytes LocalStack.Lists LocalStack.OrderedDict
open LocalStack.BinaryFloat LocalStack.CborItem LocalStack.Aws.Datetime
open LocalStack.Aws.Protocol.Cbor

/-- What is decoded. A dictionary is the list of its assignments. -/
inductive Data
  | none
  | bool (b : Bool)
  | int (i : ℤ)
  | float (x : Number)
  | str (s : Str)
  | bytes (bs : List UInt8)
  | datetime (t : ℤ)
  | list (vs : List Data)
  | dict (d : List (Data × Data))

namespace Data

def isNone : Data → Bool
  | .none => true
  | _ => false

/-- A list or a dictionary is no key. -/
def hashable : Data → Bool
  | .list _ | .dict _ => false
  | _ => true

end Data

/-- The assignment that a key and value pair makes: none when the value is `None`. -/
def assignment (key value : Data) : Except Error (Option (Data × Data)) :=
  if value.isNone then .ok none
  else if key.hashable then .ok (some (key, value))
  else .error .typeError

def parse_type_key_value_pair (item : Reader Data) : Reader (Option (Data × Data)) :=
  fun stream => do
    let (key, stream) ← item stream
    let (value, stream) ← item stream
    return (← assignment key value, stream)

/-- A number of seconds, cut to milliseconds. -/
def parse_type_datetime : Data → Except Error Data
  | .int i => (fromtimestamp (truncate (i * 1000) / 1000)).map .datetime
  | .bool b => (fromtimestamp (truncate (b.toNat * 1000) / 1000)).map .datetime
  | .float (.finite q) => (fromtimestamp (truncate (q * 1000) / 1000)).map .datetime
  | .float (.special .nan) => .error .valueError
  | .float (.special _) => .error .overflowError
  | _ => .error .protocolParserError

section
variable (unpackFloat : List UInt8 → Number)

def parse_type_simple_and_float (additional_info : ℕ) : Reader Data := fun stream =>
  match additional_info with
  | 20 => .ok (.bool false, stream)
  | 21 => .ok (.bool true, stream)
  | 22 | 23 => .ok (.none, stream)
  | 25 => (read_from_stream 2 stream).map fun r => (.float (unpackFloat r.1), r.2)
  | 26 => (read_from_stream 4 stream).map fun r => (.float (unpackFloat r.1), r.2)
  | 27 => (read_from_stream 8 stream).map fun r => (.float (unpackFloat r.1), r.2)
  | _ => .error .protocolParserError

/-- The parsing methods by major type; `item` is `parse_data_item`. -/
def parseMajorType (item : Reader Data) (major_type additional_info : ℕ) : Reader Data :=
  fun stream =>
    match major_type with
    | 0 => (parse_type_unsigned_integer additional_info stream).map fun r => (.int r.1, r.2)
    | 1 => (parse_type_negative_integer additional_info stream).map fun r => (.int r.1, r.2)
    | 2 => (parse_type_byte_string additional_info stream).map fun r => (.bytes r.1, r.2)
    | 3 => (parse_type_text_string additional_info stream).map fun r => (.str r.1, r.2)
    | 4 => (readEntries item additional_info stream).map fun r => (.list r.1, r.2)
    | 5 =>
      (readEntries (parse_type_key_value_pair item) additional_info stream).map fun r =>
        (.dict (r.1.filterMap id), r.2)
    | 6 => do
      let (tag, stream) ← parse_type_unsigned_integer additional_info stream
      let (value, stream) ← item stream
      if tag = 1 then return (← parse_type_datetime value, stream)
      throw .protocolParserError
    | 7 => parse_type_simple_and_float unpackFloat additional_info stream
    | _ => .error .protocolParserError

/-- `parse_data_item`, for items that are nested no deeper than the fuel. -/
def parse_data_item : ℕ → Reader Data
  | 0, _ => .error .recursionError
  | fuel + 1, stream => do
    let (initial_byte, stream) ← read_bytes_as_int 1 stream
    parseMajorType unpackFloat (parse_data_item fuel) (initial_byte >>> 5)
      (initial_byte &&& 0b00011111) stream

/-- Every nested item comes after a byte of its container, so the body is long enough as a
bound for the nesting. The limit that the interpreter has for it is left out. -/
def initial_body_parse (body : List UInt8) : Except Error Data :=
  if body = [] then .ok (.bytes [])
  else (parse_data_item unpackFloat (body.length + 1) body).map Prod.fst

end

/-! ### The decoder of text keys -/

mutual

/-- The value of what is decoded, where all keys are text. -/
def Data.toValue : Data → Option Value
  | .none => some .none
  | .bool b => some (.bool b)
  | .int i => some (.int i)
  | .float x => some (.ofNumber x)
  | .str s => some (.str s)
  | .bytes bs => some (.bytes bs)
  | .datetime t => some (.datetime t)
  | .list vs => (toValues vs).map .list
  | .dict d => (toEntries d).map fun ps => .dict (Dict.ofPairs ps)

def Data.toValues : List Data → Option (List Value)
  | [] => some []
  | v :: vs => do return (← v.toValue) :: (← Data.toValues vs)

def Data.toEntries : List (Data × Data) → Option (List (Str × Value))
  | [] => some []
  | (.str k, v) :: d => do return (k, ← v.toValue) :: (← Data.toEntries d)
  | _ => Option.none

end

section
variable {α β : Type}

/-- Whatever `R'` reads, `R` reads of the same bytes, and the results are related. -/
def Follows (R : Reader α) (R' : Reader β) (rel : α → β → Prop) : Prop :=
  ∀ s b rest, R' s = .ok (b, rest) → ∃ a, R s = .ok (a, rest) ∧ rel a b

variable {R : Reader α} {R' : Reader β} {rel : α → β → Prop}

theorem Follows.readTimes (h : Follows R R' rel) (n : ℕ) :
    Follows (Cbor.readTimes R n) (Cbor.readTimes R' n) (List.Forall₂ rel) := by
  induction n with
  | zero =>
    rintro s b rest hr
    cases hr
    exact ⟨[], rfl, .nil⟩
  | succ n ih =>
    intro s bs rest hr
    rw [Cbor.readTimes] at hr
    obtain ⟨⟨b, s'⟩, hb, hr⟩ := exists_of_bind_ok hr
    obtain ⟨⟨bs', s''⟩, hbs, hr⟩ := exists_of_bind_ok hr
    cases hr
    obtain ⟨a, ha, hab⟩ := h _ _ _ hb
    obtain ⟨as, has, habs⟩ := ih _ _ _ hbs
    refine ⟨a :: as, ?_, .cons hab habs⟩
    simp only [Cbor.readTimes, ha, has, bind, Except.bind, pure, Except.pure]

theorem Follows.readUntilBreak (h : Follows R R' rel) (fuel : ℕ) :
    Follows (Cbor.readUntilBreak R fuel) (Cbor.readUntilBreak R' fuel) (List.Forall₂ rel) := by
  induction fuel with
  | zero => exact fun _ _ _ hr => by cases hr
  | succ fuel ih =>
    intro s bs rest hr
    rw [Cbor.readUntilBreak] at hr
    cases hbreak : handle_break_code s with
    | some s' =>
      rw [hbreak] at hr
      cases hr
      exact ⟨[], by rw [Cbor.readUntilBreak, hbreak], .nil⟩
    | none =>
      rw [hbreak] at hr
      obtain ⟨⟨b, s'⟩, hb, hr⟩ := exists_of_bind_ok hr
      obtain ⟨⟨bs', s''⟩, hbs, hr⟩ := exists_of_bind_ok hr
      cases hr
      obtain ⟨a, ha, hab⟩ := h _ _ _ hb
      obtain ⟨as, has, habs⟩ := ih _ _ _ hbs
      refine ⟨a :: as, ?_, .cons hab habs⟩
      simp only [Cbor.readUntilBreak, hbreak, ha, has, bind, Except.bind, pure, Except.pure]

theorem Follows.readEntries (h : Follows R R' rel) (info : ℕ) :
    Follows (Cbor.readEntries R info) (Cbor.readEntries R' info) (List.Forall₂ rel) := by
  intro s bs rest hr
  unfold Cbor.readEntries at hr ⊢
  split at hr
  · next hinfo =>
    obtain ⟨⟨length, s'⟩, hlength, hr⟩ := exists_of_bind_ok hr
    obtain ⟨as, has, habs⟩ := h.readTimes length _ _ _ hr
    refine ⟨as, ?_, habs⟩
    simp only [if_pos hinfo, hlength, bind, Except.bind, has]
  · next hinfo =>
    rw [if_neg hinfo]
    exact h.readUntilBreak _ _ _ _ hr

end

def SameValue (v : Data) (w : Value) : Prop :=
  v.toValue = some w

/-- An assignment of a text key, or none. -/
def toEntry : Option (Data × Data) → Option (Str × Value) → Prop
  | none, none => True
  | some (k, v), some (k', v') => k = .str k' ∧ SameValue v v'
  | _, _ => False

theorem isNone_of_sameValue {v : Data} {w : Value} (h : SameValue v w) :
    v.isNone = w.isNone := by
  cases v with
  | float x => cases x <;> cases h <;> rfl
  | list vs =>
    obtain ⟨ws, -, rfl⟩ := Option.map_eq_some_iff.mp h
    rfl
  | dict d =>
    obtain ⟨ps, -, rfl⟩ := Option.map_eq_some_iff.mp h
    rfl
  | _ =>
    cases h
    rfl

theorem str_of_sameValue {v : Data} {s : Str} (h : SameValue v (.str s)) : v = .str s := by
  cases v with
  | str => cases h; rfl
  | float x => cases x <;> cases h
  | list vs =>
    obtain ⟨ws, -, hs⟩ := Option.map_eq_some_iff.mp h
    cases hs
  | dict d =>
    obtain ⟨ps, -, hs⟩ := Option.map_eq_some_iff.mp h
    cases hs
  | _ => cases h

theorem toValues_eq {vs : List Data} {ws : List Value}
    (h : List.Forall₂ SameValue vs ws) :
    Data.toValues vs = some ws := by
  induction h with
  | nil => rfl
  | @cons v w vs ws h _ ih =>
    rw [Data.toValues, show v.toValue = some w from h, ih]
    rfl

theorem toEntries_eq {os : List (Option (Data × Data))} {os' : List (Option (Str × Value))}
    (h : List.Forall₂ toEntry os os') :
    Data.toEntries (os.filterMap id) = some (os'.filterMap id) := by
  induction h with
  | nil => rfl
  | @cons o o' _ _ h _ ih =>
    match o, o', h with
    | none, none, _ => exact ih
    | some (_, v), some (k', v'), ⟨rfl, hv⟩ =>
      change Data.toEntries ((.str k', v) :: _) = some ((k', v') :: _)
      rw [Data.toEntries, show v.toValue = some v' from hv, ih]
      rfl

section
variable {unpackFloat : List UInt8 → Number} {unpackValue : List UInt8 → Value}
  {item : Reader Data} {item' : Reader Value}

theorem follows_parse_type_key_value_pair
    (h : Follows item item' SameValue) :
    Follows (parse_type_key_value_pair item) (Cbor.parse_type_key_value_pair item') toEntry := by
  intro s o rest hr
  unfold Cbor.parse_type_key_value_pair at hr
  obtain ⟨⟨k', s'⟩, hk, hr⟩ := exists_of_bind_ok hr
  obtain ⟨⟨v', s''⟩, hv, hr⟩ := exists_of_bind_ok hr
  obtain ⟨k, hkey, hkv⟩ := h _ _ _ hk
  obtain ⟨v, hvalue, hvv⟩ := h _ _ _ hv
  have hpair : parse_type_key_value_pair item s =
      (assignment k v).map fun o => (o, s'') := by
    simp only [parse_type_key_value_pair, hkey, hvalue, bind, Except.bind]
    cases assignment k v <;> rfl
  rw [hpair, assignment, isNone_of_sameValue hvv]
  cases v' with
  | none =>
    cases hr
    exact ⟨none, rfl, trivial⟩
  | _ =>
    cases k' <;> cases hr
    exact ⟨some (k, v), by rw [str_of_sameValue hkv]; rfl, str_of_sameValue hkv, hvv⟩

/-- A map of the results of one reader. -/
theorem Follows.map {α β γ δ : Type} {R : Reader α} {R' : Reader β} {rel : α → β → Prop}
    (h : Follows R R' rel) {f : α → γ} {g : β → δ} {rel' : γ → δ → Prop}
    (hrel : ∀ a b, rel a b → rel' (f a) (g b)) :
    Follows (fun s => (R s).map fun r => (f r.1, r.2)) (fun s => (R' s).map fun r => (g r.1, r.2))
      rel' := by
  intro s d rest hr
  obtain ⟨⟨b, s'⟩, hb, he⟩ := exists_of_map_ok hr
  cases he
  obtain ⟨a, ha, hab⟩ := h _ _ _ hb
  refine ⟨f a, ?_, hrel a b hab⟩
  simp only [ha, Except.map]

theorem follows_self {α : Type} (R : Reader α) : Follows R R Eq :=
  fun _ b _ hr => ⟨b, hr, rfl⟩

theorem follows_parse_type_datetime {v : Data} {w r : Value} (h : SameValue v w)
    (hr : Cbor.parse_type_datetime w = .ok r) :
    ∃ u, parse_type_datetime v = .ok u ∧ SameValue u r := by
  have htime : ∀ {q : ℚ} {r : Value}, (fromtimestamp q).map Value.datetime = .ok r →
      ∃ u, (fromtimestamp q).map Data.datetime = .ok u ∧ SameValue u r := by
    intro q r hq
    obtain ⟨t, ht, rfl⟩ := exists_of_map_ok hq
    exact ⟨.datetime t, by rw [ht]; rfl, rfl⟩
  cases v with
  | int i => cases h; exact htime hr
  | bool b => cases h; exact htime hr
  | float x =>
    cases h
    cases x with
    | finite q => exact htime hr
    | special x => cases x <;> cases hr
  | list =>
    obtain ⟨ws, -, rfl⟩ := Option.map_eq_some_iff.mp h
    cases hr
  | dict =>
    obtain ⟨ps, -, rfl⟩ := Option.map_eq_some_iff.mp h
    cases hr
  | _ =>
    cases h
    cases hr

theorem follows_parse_type_simple_and_float (hu : ∀ bs, unpackValue bs = .ofNumber (unpackFloat bs))
    (info : ℕ) : Follows (parse_type_simple_and_float unpackFloat info)
      (Cbor.parse_type_simple_and_float unpackValue info) SameValue := by
  have hfloat : ∀ n, Follows
      (fun s => (read_from_stream n s).map fun r => (Data.float (unpackFloat r.1), r.2))
      (fun s => (read_from_stream n s).map fun r => (unpackValue r.1, r.2))
      SameValue := by
    intro n
    refine (follows_self (read_from_stream n)).map (f := fun bs => Data.float (unpackFloat bs))
      fun a b hab => ?_
    rw [SameValue, hab, hu, Data.toValue]
  intro s w rest hr
  unfold Cbor.parse_type_simple_and_float at hr
  unfold parse_type_simple_and_float
  split at hr
  · cases hr
    exact ⟨_, rfl, rfl⟩
  · cases hr
    exact ⟨_, rfl, rfl⟩
  · cases hr
    exact ⟨_, rfl, rfl⟩
  · cases hr
    exact ⟨_, rfl, rfl⟩
  · exact hfloat 2 _ _ _ hr
  · exact hfloat 4 _ _ _ hr
  · exact hfloat 8 _ _ _ hr
  · cases hr

theorem follows_parseMajorType (hu : ∀ bs, unpackValue bs = .ofNumber (unpackFloat bs))
    (h : Follows item item' SameValue) (major_type info : ℕ) :
    Follows (parseMajorType unpackFloat item major_type info)
      (Cbor.parseMajorType unpackValue item' major_type info) SameValue := by
  have hself : ∀ {α : Type} (R : Reader α) (f : α → Data) (g : α → Value),
      (∀ a, SameValue (f a) (g a)) →
      Follows (fun s => (R s).map fun r => (f r.1, r.2))
        (fun s => (R s).map fun r => (g r.1, r.2)) SameValue :=
    fun R f g hfg => (follows_self R).map fun a b hab => hab ▸ hfg a
  intro s w rest hr
  unfold Cbor.parseMajorType at hr
  unfold parseMajorType
  split at hr
  · exact hself (parse_type_unsigned_integer info) (fun n => .int n) _ (fun _ => rfl) _ _ _ hr
  · exact hself (parse_type_negative_integer info) .int _ (fun _ => rfl) _ _ _ hr
  · exact hself (parse_type_byte_string info) .bytes _ (fun _ => rfl) _ _ _ hr
  · exact hself (parse_type_text_string info) .str _ (fun _ => rfl) _ _ _ hr
  · have hlist : ∀ vs ws, List.Forall₂ SameValue vs ws →
        SameValue (.list vs) (.list ws) := fun vs ws hvs => by
      rw [SameValue, Data.toValue, toValues_eq hvs]
      rfl
    exact (h.readEntries info).map hlist _ _ _ hr
  · have hdict : ∀ os os', List.Forall₂ toEntry os os' →
        SameValue (.dict (os.filterMap id)) (.dict (Dict.ofPairs (os'.filterMap id))) :=
      fun os os' hos => by
      rw [SameValue, Data.toValue, toEntries_eq hos]
      rfl
    exact ((follows_parse_type_key_value_pair h).readEntries info).map
      (f := fun os => Data.dict (os.filterMap id)) hdict _ _ _ hr
  · obtain ⟨⟨tag, s'⟩, htag, hr⟩ := exists_of_bind_ok hr
    obtain ⟨⟨w', s''⟩, hw, hr⟩ := exists_of_bind_ok hr
    obtain ⟨v, hv, hvw⟩ := h _ _ _ hw
    by_cases hone : tag = 1
    · simp only [if_pos hone] at hr
      obtain ⟨r, hdate, hr⟩ := exists_of_bind_ok hr
      cases hr
      obtain ⟨u, hu', hur⟩ := follows_parse_type_datetime hvw hdate
      refine ⟨u, ?_, hur⟩
      simp only [htag, hv, bind, Except.bind, if_pos hone, hu', pure, Except.pure]
    · simp only [if_neg hone] at hr
      cases hr
  · exact follows_parse_type_simple_and_float hu info _ _ _ hr
  · cases hr

/-- What the decoder of text keys returns is what this one returns. -/
theorem parse_data_item_of_text_keys (hu : ∀ bs, unpackValue bs = .ofNumber (unpackFloat bs))
    (fuel : ℕ) : Follows (parse_data_item unpackFloat fuel) (Cbor.parseDataItem unpackValue fuel)
      SameValue := by
  induction fuel with
  | zero => exact fun _ _ _ hr => by cases hr
  | succ fuel ih =>
    intro s w rest hr
    rw [Cbor.parseDataItem] at hr
    obtain ⟨⟨initial_byte, s'⟩, hbyte, hr⟩ := exists_of_bind_ok hr
    obtain ⟨v, hv, hvw⟩ := follows_parseMajorType hu ih _ _ _ _ _ hr
    refine ⟨v, ?_, hvw⟩
    simp only [parse_data_item, hbyte, bind, Except.bind]
    exact hv

end

/-! ## Trees and their values -/

def concat (chunks : List (ℕ × List UInt8)) : List UInt8 := (chunks.map Prod.snd).flatten

/-- `bs.decode("utf-8")`. -/
def text (bs : List UInt8) : Except Error Data :=
  match decodeUtf8 bs with
  | some s => .ok (.str s)
  | none => .error .valueError

section
variable (unpackFloat : List UInt8 → Number)

mutual

/-- The value that the decoder makes of an item, where it makes one. -/
def value : Item → Except Error Data
  | .unsigned n => .ok (.int n)
  | .negative n => .ok (.int (-1 - n))
  | .string isText content => if isText then text content else .ok (.bytes content)
  | .chunked isText chunks => if isText then text (concat chunks) else .ok (.bytes (concat chunks))
  | .array items => (values items).map .list
  | .map entries => (assignments entries).map fun d => .dict (d.filterMap id)
  | .tag n item => do
    let v ← value item
    if n = 1 then parse_type_datetime v else throw .protocolParserError
  | .simple info =>
    match info with
    | 20 => .ok (.bool false)
    | 21 => .ok (.bool true)
    | _ => .ok .none
  | .float content => .ok (.float (unpackFloat content))

def values : List Item → Except Error (List Data)
  | [] => .ok []
  | item :: items => do return (← value item) :: (← values items)

def assignments : List (Item × Item) → Except Error (List (Option (Data × Data)))
  | [] => .ok []
  | (k, v) :: entries => do
    let key ← value k
    let v ← value v
    return (← assignment key v) :: (← assignments entries)

end

/-- The bytes of an item that has this value. -/
def Means (v : Data) (u : List UInt8) : Prop := ∃ t, Encodes t u ∧ value unpackFloat t = .ok v

end

/-! ## What the decoder reads -/

theorem seq_readChunk {contents : List (List UInt8)} {u : List UInt8} :
    Seq (fun content u => ∃ m, Chunk (m, content) u) contents u ↔
      ∃ chunks : List (ℕ × List UInt8), Seq Chunk chunks u ∧ contents = chunks.map Prod.snd := by
  constructor
  · intro h
    induction h with
    | nil => exact ⟨[], .nil, rfl⟩
    | cons hx _ ih =>
      obtain ⟨m, hm⟩ := hx
      obtain ⟨chunks, hs, rfl⟩ := ih
      exact ⟨(m, _) :: chunks, .cons hm hs, rfl⟩
  · rintro ⟨chunks, hs, rfl⟩
    induction hs with
    | nil => exact .nil
    | cons hE _ ih => exact .cons ⟨_, hE⟩ ih

/-- The contents of a string, with a length or in chunks. -/
def Contents (info : ℕ) (content u : List UInt8) : Prop :=
  Sized info content u ∨
    (info = indefinite ∧ ∃ chunks v, u = v ++ [breakByte] ∧ Seq Chunk chunks v ∧
      content = concat chunks)

theorem parse_type_byte_string_indefinite : parse_type_byte_string indefinite = fun s =>
    (readUntilBreak readChunk (s.length + 1) s).map fun r => (r.1.flatten, r.2) := by
  funext s
  simp only [parse_type_byte_string]
  rw [if_neg fun hne => hne rfl]
  cases readUntilBreak readChunk (s.length + 1) s <;> rfl

theorem parse_type_byte_string_definite {info : ℕ} (hi : info ≠ indefinite) :
    parse_type_byte_string info = readSized info := by
  funext s
  exact if_pos hi

theorem reads_parse_type_byte_string {N : ℕ} (info : ℕ) :
    Reads N (parse_type_byte_string info) (Contents info) := by
  by_cases hi : info = indefinite
  · subst hi
    rw [parse_type_byte_string_indefinite]
    refine ((reads_readUntilBreak reads_readChunk fun _ _ ⟨_, h⟩ => h.exists_cons).map
      (g := List.flatten)).congr fun content u => ?_
    simp only [seq_readChunk]
    constructor
    · rintro ⟨contents, ⟨v, rfl, chunks, hs, rfl⟩, rfl⟩
      exact .inr ⟨rfl, chunks, v, rfl, hs, rfl⟩
    · rintro (⟨arg, ha, -⟩ | ⟨-, chunks, v, rfl, hs, rfl⟩)
      · exact absurd ha not_argument_indefinite
      · exact ⟨_, ⟨v, rfl, chunks, hs, rfl⟩, rfl⟩
  · rw [parse_type_byte_string_definite hi]
    refine (reads_sized info).congr fun content u => ?_
    exact ⟨.inl, fun h => h.resolve_right fun ⟨hi', _⟩ => hi hi'⟩

theorem parse_type_text_string_eq (info : ℕ) :
    (fun s => (parse_type_text_string info s).map fun r => (Data.str r.1, r.2)) =
      fun s => (parse_type_byte_string info s).bind fun r =>
        (text r.1).map fun v => (v, r.2) := by
  funext s
  unfold parse_type_text_string text
  cases parse_type_byte_string info s with
  | error e => rfl
  | ok r =>
    simp only [bind, Except.bind]
    cases decodeUtf8 r.1 <;> rfl

section
variable {unpackFloat : List UInt8 → Number}

theorem values_eq_mapM (items : List Item) :
    values unpackFloat items = items.mapM (value unpackFloat) := by
  induction items with
  | nil => rfl
  | cons t items ih =>
    rw [List.mapM_cons, values, ih]

/-- The assignment that an entry of a map makes. -/
def entryAssignment (unpackFloat : List UInt8 → Number) (p : Item × Item) :
    Except Error (Option (Data × Data)) := do
  let key ← value unpackFloat p.1
  let v ← value unpackFloat p.2
  assignment key v

theorem assignments_eq_mapM (entries : List (Item × Item)) :
    assignments unpackFloat entries = entries.mapM (entryAssignment unpackFloat) := by
  induction entries with
  | nil => rfl
  | cons p entries ih =>
    rw [List.mapM_cons, assignments, ih, entryAssignment]
    simp only [bind_assoc]

theorem parse_type_key_value_pair_eq (item : Reader Data) :
    parse_type_key_value_pair item = fun s => (item s).bind fun k =>
      (item k.2).bind fun v => (assignment k.1 v.1).map fun o => (o, v.2) := by
  funext s
  unfold parse_type_key_value_pair
  rcases item s with e | k
  · rfl
  · simp only [bind, Except.bind]
    rcases item k.2 with e | v
    · rfl
    · cases assignment k.1 v.1 <;> rfl

theorem reads_parse_type_key_value_pair {N : ℕ} {item : Reader Data}
    (h : Reads N item (Means unpackFloat)) :
    Reads N (parse_type_key_value_pair item)
      fun o u => ∃ p, Entry p u ∧ entryAssignment unpackFloat p = .ok o := by
  have hvalue : ∀ key, Reads N
      (fun s => (item s).bind fun v => (assignment key v.1).map fun o => (o, v.2))
      fun o u => ∃ v, Means unpackFloat v u ∧ assignment key v = .ok o :=
    fun key => h.mapExcept (g := assignment key)
  rw [parse_type_key_value_pair_eq]
  refine (h.bind hvalue).congr fun o u => ?_
  constructor
  · rintro ⟨key, a, b, ⟨k, hk, hkey⟩, ⟨v, ⟨t, ht, hv⟩, ho⟩, rfl⟩
    refine ⟨(k, t), ⟨a, b, hk, ht, rfl⟩, ?_⟩
    simp only [entryAssignment, hkey, hv]
    exact ho
  · rintro ⟨p, ⟨a, b, hk, hv, rfl⟩, ho⟩
    obtain ⟨key, hkey, ho⟩ := exists_of_bind_ok ho
    obtain ⟨v, hval, ho⟩ := exists_of_bind_ok ho
    exact ⟨key, a, b, ⟨p.1, hk, hkey⟩, ⟨v, ⟨p.2, hv, hval⟩, ho⟩, rfl⟩

theorem Means.exists_cons {v : Data} {u : List UInt8} (h : Means unpackFloat v u) :
    ∃ b w, u = b :: w ∧ b ≠ breakByte := by
  obtain ⟨t, ht, -⟩ := h
  exact ht.exists_cons

theorem means_array {b : UInt8} (hm : majorType b = 4) {v : Data} {w : List UInt8} :
    Means unpackFloat v (b :: w) ↔
      ∃ vs, Entries (Means unpackFloat) (additionalInfo b) vs w ∧ v = .list vs := by
  simp only [Means, encodes_array hm]
  constructor
  · rintro ⟨_, ⟨items, hs, rfl⟩, hv⟩
    rw [value, values_eq_mapM] at hv
    obtain ⟨vs, hvs, rfl⟩ := exists_of_map_ok hv
    exact ⟨vs, entries_image.mpr ⟨items, hs, mapM_ok_iff.mp hvs⟩, rfl⟩
  · rintro ⟨vs, hs, rfl⟩
    obtain ⟨items, hs, hvs⟩ := entries_image.mp hs
    refine ⟨_, ⟨items, hs, rfl⟩, ?_⟩
    rw [value, values_eq_mapM, mapM_ok_iff.mpr hvs]
    rfl

theorem means_map {b : UInt8} (hm : majorType b = 5) {v : Data} {w : List UInt8} :
    Means unpackFloat v (b :: w) ↔
      ∃ os, Entries (fun o u => ∃ p, Entry p u ∧ entryAssignment unpackFloat p = .ok o)
        (additionalInfo b) os w ∧ v = .dict (os.filterMap id) := by
  simp only [Means, encodes_map hm]
  constructor
  · rintro ⟨_, ⟨entries, hs, rfl⟩, hv⟩
    rw [value, assignments_eq_mapM] at hv
    obtain ⟨os, hos, rfl⟩ := exists_of_map_ok hv
    exact ⟨os, entries_image.mpr ⟨entries, hs, mapM_ok_iff.mp hos⟩, rfl⟩
  · rintro ⟨os, hs, rfl⟩
    obtain ⟨entries, hs, hos⟩ := entries_image.mp hs
    refine ⟨_, ⟨entries, hs, rfl⟩, ?_⟩
    rw [value, assignments_eq_mapM, mapM_ok_iff.mpr hos]
    rfl

/-- The value of a string, from its contents. -/
theorem means_string {isText : Bool} {b : UInt8} (hm : majorType b = stringMajor isText)
    {v : Data} {w : List UInt8} :
    Means unpackFloat v (b :: w) ↔
      ∃ content, Contents (additionalInfo b) content w ∧
        (if isText then text content else .ok (.bytes content)) = .ok v := by
  simp only [Means, encodes_string hm]
  constructor
  · rintro ⟨_, ⟨content, arg, ha, rfl, rfl⟩ | ⟨hi, chunks, u, rfl, hc, rfl⟩, hv⟩
    · exact ⟨content, .inl ⟨arg, ha, rfl⟩, hv⟩
    · exact ⟨concat chunks, .inr ⟨hi, chunks, u, rfl, hc, rfl⟩, hv⟩
  · rintro ⟨content, ⟨arg, ha, rfl⟩ | ⟨hi, chunks, u, rfl, hc, rfl⟩, hv⟩
    · exact ⟨_, .inl ⟨content, arg, ha, rfl, rfl⟩, hv⟩
    · exact ⟨_, .inr ⟨hi, chunks, u, rfl, hc, rfl⟩, hv⟩

/-- The value of a tagged item: there is none unless the tag is 1. -/
def tagged (n : ℕ) (v : Data) : Except Error Data :=
  if n = 1 then parse_type_datetime v else .error .protocolParserError

theorem means_tag {b : UInt8} (hm : majorType b = 6) {v : Data} {w : List UInt8} :
    Means unpackFloat v (b :: w) ↔
      ∃ n arg u, Argument (additionalInfo b) arg n ∧
        (∃ v', Means unpackFloat v' u ∧ tagged n v' = .ok v) ∧ w = arg ++ u := by
  simp only [Means, encodes_tag hm]
  constructor
  · rintro ⟨_, ⟨n, item, arg, u, ha, hu, rfl, rfl⟩, hv⟩
    obtain ⟨v', hv', ht⟩ := exists_of_bind_ok hv
    exact ⟨n, arg, u, ha, ⟨v', ⟨item, hu, hv'⟩, ht⟩, rfl⟩
  · rintro ⟨n, arg, u, ha, ⟨v', ⟨item, hu, hv'⟩, ht⟩, rfl⟩
    refine ⟨_, ⟨n, item, arg, u, ha, hu, rfl, rfl⟩, ?_⟩
    simp only [value, hv']
    exact ht

theorem parseMajorType_tag (item : Reader Data) (info : ℕ) :
    parseMajorType unpackFloat item 6 info = fun s =>
      (parse_type_unsigned_integer info s).bind fun n =>
        (item n.2).bind fun v => (tagged n.1 v.1).map fun t => (t, v.2) := by
  funext s
  simp only [parseMajorType, bind, Except.bind]
  cases parse_type_unsigned_integer info s with
  | error e => rfl
  | ok n =>
    simp only
    cases item n.2 with
    | error e => rfl
    | ok v =>
      simp only [tagged]
      split_ifs
      · cases parse_type_datetime v.1 <;> rfl
      · rfl

theorem parseMajorType_negative (item : Reader Data) (info : ℕ) :
    parseMajorType unpackFloat item 1 info = fun s =>
      (parse_type_unsigned_integer info s).map fun r => (Data.int (-1 - r.1), r.2) := by
  funext s
  simp only [parseMajorType, parse_type_negative_integer]
  cases parse_type_unsigned_integer info s <;> rfl

theorem parseMajorType_text (item : Reader Data) (info : ℕ) :
    parseMajorType unpackFloat item 3 info = fun s =>
      (parse_type_byte_string info s).bind fun r => (text r.1).map fun v => (v, r.2) :=
  parse_type_text_string_eq info

theorem reads_parse_type_tag {N : ℕ} {item : Reader Data} (h : Reads N item (Means unpackFloat))
    {b : UInt8} (hm : majorType b = 6) :
    Reads N (parseMajorType unpackFloat item 6 (additionalInfo b))
      fun v w => Means unpackFloat v (b :: w) := by
  rw [parseMajorType_tag]
  refine ((reads_parse_type_unsigned_integer (additionalInfo b)).bind
    (f := fun n s => (item s).bind fun v => (tagged n v.1).map fun t => (t, v.2))
    fun n => h.mapExcept (g := tagged n)).congr fun v w => ?_
  rw [means_tag hm]

theorem means_simple_or_float {b : UInt8} (hm : majorType b = 7) {v : Data} {w : List UInt8} :
    Means unpackFloat v (b :: w) ↔
      ((20 ≤ additionalInfo b ∧ additionalInfo b ≤ 23) ∧ w = [] ∧
        value unpackFloat (.simple (additionalInfo b)) = .ok v) ∨
      ((additionalInfo b, w.length) ∈ [(25, 2), (26, 4), (27, 8)] ∧
        v = .float (unpackFloat w)) := by
  simp only [Means, encodes_simple_or_float hm]
  constructor
  · rintro ⟨_, ⟨hi, rfl, rfl⟩ | ⟨hc, rfl⟩, hv⟩
    · exact .inl ⟨hi, rfl, hv⟩
    · exact .inr ⟨hc, (Except.ok.inj hv).symm⟩
  · rintro (⟨hi, rfl, hv⟩ | ⟨hc, rfl⟩)
    · exact ⟨_, .inl ⟨hi, rfl, rfl⟩, hv⟩
    · exact ⟨_, .inr ⟨hc, rfl⟩, rfl⟩

theorem reads_simple_value {N : ℕ} {b : UInt8} (hm : majorType b = 7)
    (hi : 20 ≤ additionalInfo b ∧ additionalInfo b ≤ 23) {v : Data}
    (hv : value unpackFloat (.simple (additionalInfo b)) = .ok v) :
    Reads N (fun s => .ok (v, s)) fun v w => Means unpackFloat v (b :: w) := by
  refine (reads_pure v).congr fun v' w => ?_
  rw [means_simple_or_float hm]
  constructor
  · rintro ⟨rfl, rfl⟩
    exact .inl ⟨hi, rfl, hv⟩
  · rintro (⟨-, rfl, hv'⟩ | ⟨hc, -⟩)
    · rw [hv] at hv'
      exact ⟨(Except.ok.inj hv').symm, rfl⟩
    · simp only [List.mem_cons, Prod.mk.injEq, List.not_mem_nil, or_false] at hc
      omega

theorem reads_float_value {N n : ℕ} {b : UInt8} (hm : majorType b = 7)
    (hi : (additionalInfo b, n) ∈ [(25, 2), (26, 4), (27, 8)]) :
    Reads N (fun s => (read_from_stream n s).map fun r => (Data.float (unpackFloat r.1), r.2))
      fun v w => Means unpackFloat v (b :: w) := by
  refine ((reads_read_from_stream n).map (g := fun bs => Data.float (unpackFloat bs))).congr
    fun v w => ?_
  rw [means_simple_or_float hm]
  simp only [List.mem_cons, Prod.mk.injEq, List.not_mem_nil, or_false] at hi ⊢
  constructor
  · rintro ⟨content, ⟨rfl, hlen⟩, rfl⟩
    exact .inr ⟨by rw [hlen]; exact hi, rfl⟩
  · rintro (⟨hlt, -⟩ | ⟨hlen, rfl⟩)
    · omega
    · exact ⟨w, ⟨rfl, by omega⟩, rfl⟩

theorem reads_parse_type_simple_and_float {N : ℕ} {b : UInt8} (hm : majorType b = 7) :
    Reads N (parse_type_simple_and_float unpackFloat (additionalInfo b))
      fun v w => Means unpackFloat v (b :: w) := by
  unfold parse_type_simple_and_float
  split
  · exact reads_simple_value hm (by omega) (by simp [*, value])
  · exact reads_simple_value hm (by omega) (by simp [*, value])
  · exact reads_simple_value hm (by omega) (by simp [*, value])
  · exact reads_simple_value hm (by omega) (by simp [*, value])
  · exact reads_float_value hm (by simp [*])
  · exact reads_float_value hm (by simp [*])
  · exact reads_float_value hm (by simp [*])
  · refine (reads_error .protocolParserError).congr fun v w => ?_
    rw [means_simple_or_float hm]
    simp only [List.mem_cons, Prod.mk.injEq, List.not_mem_nil, or_false]
    constructor
    · exact False.elim
    · rintro (⟨hi, -⟩ | ⟨hc, -⟩) <;> grind

theorem reads_parseMajorType {N : ℕ} {item : Reader Data}
    (h : Reads N item (Means unpackFloat)) (b : UInt8) :
    Reads N (parseMajorType unpackFloat item (majorType b) (additionalInfo b))
      fun v w => Means unpackFloat v (b :: w) := by
  have hint := @reads_parse_type_unsigned_integer N (additionalInfo b)
  rcases majorType_cases b with hm | hm | hm | hm | hm | hm | hm | hm <;> rw [hm]
  · refine Reads.congr (R := parseMajorType unpackFloat item 0 (additionalInfo b))
      (hint.map (g := fun n : ℕ => Data.int n)) fun v w => ?_
    simp only [Means, encodes_unsigned hm]
    constructor
    · rintro ⟨n, ha, rfl⟩
      exact ⟨_, ⟨n, ha, rfl⟩, rfl⟩
    · rintro ⟨_, ⟨n, ha, rfl⟩, hv⟩
      exact ⟨n, ha, (Except.ok.inj hv).symm⟩
  · rw [parseMajorType_negative]
    refine (hint.map (g := fun n : ℕ => Data.int (-1 - n))).congr fun v w => ?_
    simp only [Means, encodes_negative hm]
    constructor
    · rintro ⟨n, ha, rfl⟩
      exact ⟨_, ⟨n, ha, rfl⟩, rfl⟩
    · rintro ⟨_, ⟨n, ha, rfl⟩, hv⟩
      exact ⟨n, ha, (Except.ok.inj hv).symm⟩
  · refine Reads.congr (R := parseMajorType unpackFloat item 2 (additionalInfo b))
      ((reads_parse_type_byte_string (additionalInfo b)).map (g := Data.bytes)) fun v w => ?_
    rw [@means_string unpackFloat false b hm]
    simp only [Bool.false_eq_true, ↓reduceIte, Except.ok.injEq, eq_comm]
  · refine Reads.congr (R := parseMajorType unpackFloat item 3 (additionalInfo b))
      (E := fun v w => ∃ content, Contents (additionalInfo b) content w ∧ text content = .ok v)
      ?_ fun v w => ?_
    · rw [parseMajorType_text]
      exact (reads_parse_type_byte_string (additionalInfo b)).mapExcept
    · rw [@means_string unpackFloat true b hm]
      rfl
  · exact Reads.congr (R := parseMajorType unpackFloat item 4 (additionalInfo b))
      ((reads_readEntries h (fun _ _ => Means.exists_cons) (additionalInfo b)).map
        (g := Data.list)) fun v w => (means_array hm).symm
  · exact Reads.congr (R := parseMajorType unpackFloat item 5 (additionalInfo b))
      ((reads_readEntries (reads_parse_type_key_value_pair h)
        (fun _ _ ⟨_, hp, _⟩ => hp.exists_cons) (additionalInfo b)).map
        (g := fun os : List (Option (Data × Data)) => Data.dict (os.filterMap id)))
      fun v w => (means_map hm).symm
  · exact reads_parse_type_tag h hm
  · exact reads_parse_type_simple_and_float hm

/-- The decoder reads what has a value, and exactly that. -/
theorem reads_parse_data_item (fuel : ℕ) :
    Reads fuel (parse_data_item unpackFloat fuel) (Means unpackFloat) := by
  induction fuel with
  | zero => exact fun s hs => absurd hs (Nat.not_lt_zero _)
  | succ fuel ih =>
    refine Reads.congr (R := parse_data_item unpackFloat (fuel + 1)) (reads_initial_byte
      (f := fun n => parseMajorType unpackFloat (parse_data_item unpackFloat fuel) (n >>> 5)
        (n &&& 0b00011111)) fun b => reads_parseMajorType ih b) fun v u => ?_
    constructor
    · rintro ⟨b, w, rfl, h⟩
      exact h
    · intro h
      obtain ⟨b, w, rfl, -⟩ := h.exists_cons
      exact ⟨b, w, rfl, h⟩

/-! ## Termination -/

theorem ends_parse_type_byte_string {N : ℕ} (info : ℕ) : Ends N (parse_type_byte_string info) := by
  by_cases hi : info = indefinite
  · subst hi
    rw [parse_type_byte_string_indefinite]
    exact (ends_readUntilBreak (@ends_readChunk N) reads_readChunk
      fun _ _ ⟨_, h⟩ => h.exists_cons).map
  · rw [parse_type_byte_string_definite hi]
    exact ends_sized info

theorem fromtimestamp_map_ne {q : ℚ} {f : ℤ → Data} :
    (fromtimestamp q).map f ≠ .error .recursionError := by
  unfold fromtimestamp
  simp only
  split_ifs <;> exact nofun

theorem parse_type_datetime_ne (v : Data) :
    parse_type_datetime v ≠ .error .recursionError := by
  intro h
  unfold parse_type_datetime at h
  split at h
  · exact fromtimestamp_map_ne h
  · exact fromtimestamp_map_ne h
  · exact fromtimestamp_map_ne h
  · cases h
  · cases h
  · cases h

theorem tagged_ne (n : ℕ) (v : Data) : tagged n v ≠ .error .recursionError := by
  unfold tagged
  split_ifs
  · exact parse_type_datetime_ne v
  · exact nofun

theorem text_ne (bs : List UInt8) : text bs ≠ .error .recursionError := by
  unfold text
  cases decodeUtf8 bs <;> exact nofun

theorem assignment_ne (key v : Data) : assignment key v ≠ .error .recursionError := by
  unfold assignment
  split_ifs <;> exact nofun

theorem ends_parse_type_simple_and_float {N : ℕ} (info : ℕ) :
    Ends N (parse_type_simple_and_float unpackFloat info) := by
  have hfloat : ∀ n, Ends N fun s =>
      (read_from_stream n s).map fun r => (Data.float (unpackFloat r.1), r.2) :=
    fun n => (ends_read_from_stream n).map (g := fun bs => Data.float (unpackFloat bs))
  unfold parse_type_simple_and_float
  split
  · exact ends_pure _
  · exact ends_pure _
  · exact ends_pure _
  · exact ends_pure _
  · exact hfloat 2
  · exact hfloat 4
  · exact hfloat 8
  · exact fun _ _ => nofun

theorem ends_parseMajorType {N : ℕ} {item : Reader Data} (h : Ends N item)
    (hr : Reads N item (Means unpackFloat)) (b : UInt8) :
    Ends N (parseMajorType unpackFloat item (majorType b) (additionalInfo b)) := by
  have hint := @ends_parse_type_unsigned_integer N (additionalInfo b)
  have hbytes := @ends_parse_type_byte_string N (additionalInfo b)
  rcases majorType_cases b with hm | hm | hm | hm | hm | hm | hm | hm <;> rw [hm]
  · exact hint.map (g := fun n : ℕ => Data.int n)
  · rw [parseMajorType_negative]
    exact hint.map (g := fun n : ℕ => Data.int (-1 - n))
  · exact hbytes.map (g := Data.bytes)
  · rw [parseMajorType_text]
    exact hbytes.mapExcept text_ne
  · exact (ends_readEntries h hr (fun _ _ => Means.exists_cons) (additionalInfo b)).map
      (g := Data.list)
  · have hpair : Ends N (parse_type_key_value_pair item) := by
      rw [parse_type_key_value_pair_eq]
      exact h.bind hr (f := fun k s =>
        (item s).bind fun v => (assignment k v.1).map fun o => (o, v.2))
        fun k => h.mapExcept (assignment_ne k)
    exact (ends_readEntries hpair (reads_parse_type_key_value_pair hr)
      (fun _ _ ⟨_, hp, _⟩ => hp.exists_cons) (additionalInfo b)).map
      (g := fun os : List (Option (Data × Data)) => Data.dict (os.filterMap id))
  · rw [parseMajorType_tag]
    exact hint.bind (reads_parse_type_unsigned_integer (additionalInfo b))
      (f := fun n s => (item s).bind fun v => (tagged n v.1).map fun t => (t, v.2))
      fun n => h.mapExcept (tagged_ne n)
  · exact ends_parse_type_simple_and_float (additionalInfo b)

theorem ends_parse_data_item (fuel : ℕ) : Ends fuel (parse_data_item unpackFloat fuel) := by
  induction fuel with
  | zero => exact fun s hs => absurd hs (Nat.not_lt_zero _)
  | succ fuel ih =>
    exact ends_initial_byte
      (f := fun n => parseMajorType unpackFloat (parse_data_item unpackFloat fuel) (n >>> 5)
        (n &&& 0b00011111)) fun b => ends_parseMajorType ih (reads_parse_data_item fuel) b

end

/-! ## Strictness -/

def isBoolean : Item → Bool
  | .simple 20 | .simple 21 => true
  | _ => false

/-- The item has nothing that only this decoder takes: chunks that are no string of the type
they stand in or no UTF-8 where that is text, tags of booleans. -/
inductive Clean : Item → Prop
  | unsigned (n) : Clean (.unsigned n)
  | negative (n) : Clean (.negative n)
  | string (text content) : Clean (.string text content)
  | chunked {text chunks} (h : ∀ c ∈ chunks, ChunkOf text c) : Clean (.chunked text chunks)
  | array {items} (h : ∀ i ∈ items, Clean i) : Clean (.array items)
  | map {entries} (h : ∀ i ∈ keysAndValues entries, Clean i) : Clean (.map entries)
  | tag {n item} (h : isBoolean item = false) : Clean (.tag n item)
  | simple (info) : Clean (.simple info)
  | float (content) : Clean (.float content)

theorem clean_of_valid {t : Item} (h : Valid t) : Clean t := by
  induction h with
  | unsigned n => exact .unsigned n
  | negative n => exact .negative n
  | bytes content => exact .string false content
  | text h => exact .string true _
  | chunked h => exact .chunked h
  | array _ ih => exact .array ih
  | map _ ih => exact .map ih
  | @tag item h =>
    refine .tag ?_
    cases item with
    | unsigned n => rfl
    | negative n => rfl
    | float content => rfl
    | _ => cases h
  | simple info => exact .simple info
  | float content => exact .float content

section
variable {unpackFloat : List UInt8 → Number}

theorem text_ok {bs : List UInt8} {v : Data} (h : text bs = .ok v) :
    ∃ s, decodeUtf8 bs = some s ∧ v = .str s := by
  unfold text at h
  split at h
  · exact ⟨_, ‹_›, (Except.ok.inj h).symm⟩
  · cases h

theorem parse_type_datetime_ok {v w : Data} (h : parse_type_datetime v = .ok w) :
    ∃ t, w = .datetime t := by
  unfold parse_type_datetime at h
  split at h
  · obtain ⟨t, -, ht⟩ := exists_of_map_ok h
    exact ⟨t, ht.symm⟩
  · obtain ⟨t, -, ht⟩ := exists_of_map_ok h
    exact ⟨t, ht.symm⟩
  · obtain ⟨t, -, ht⟩ := exists_of_map_ok h
    exact ⟨t, ht.symm⟩
  · cases h
  · cases h
  · cases h

theorem tagged_ok {n : ℕ} {v w : Data} (h : tagged n v = .ok w) :
    n = 1 ∧ parse_type_datetime v = .ok w := by
  unfold tagged at h
  split_ifs at h with hn
  exact ⟨hn, h⟩

/-- A timestamp is only made of numbers and booleans. -/
theorem number_or_boolean {item : Item} {v w : Data} (hv : value unpackFloat item = .ok v)
    (hw : parse_type_datetime v = .ok w) : item.isNumber = true ∨ isBoolean item = true := by
  have hstring : ∀ {isText : Bool} {bs : List UInt8},
      (if isText then text bs else .ok (.bytes bs)) = .ok v → False := by
    intro isText bs h
    split_ifs at h
    · obtain ⟨s, -, rfl⟩ := text_ok h
      cases hw
    · cases h
      cases hw
  cases item with
  | unsigned n => exact .inl rfl
  | negative n => exact .inl rfl
  | float content => exact .inl rfl
  | string isText content => exact (hstring hv).elim
  | chunked isText chunks => exact (hstring hv).elim
  | array items =>
    obtain ⟨vs, -, rfl⟩ := exists_of_map_ok hv
    cases hw
  | map entries =>
    obtain ⟨os, -, rfl⟩ := exists_of_map_ok hv
    cases hw
  | tag n item =>
    obtain ⟨v', -, ht⟩ := exists_of_bind_ok hv
    obtain ⟨t, rfl⟩ := parse_type_datetime_ok (tagged_ok ht).2
    cases hw
  | simple info =>
    simp only [value] at hv
    split at hv
    · exact .inr rfl
    · exact .inr rfl
    · cases hv
      cases hw

theorem mem_keysAndValues {entries : List (Item × Item)} {i : Item}
    (h : i ∈ keysAndValues entries) : ∃ p ∈ entries, i = p.1 ∨ i = p.2 := by
  obtain ⟨p, hp, hi⟩ := List.mem_flatMap.mp h
  simp only [List.mem_cons, List.not_mem_nil, or_false] at hi
  exact ⟨p, hp, hi⟩

theorem valid_of_clean {t : Item} (h : Clean t) {v : Data}
    (hv : value unpackFloat t = .ok v) : Valid t := by
  induction h generalizing v with
  | unsigned n => exact .unsigned n
  | negative n => exact .negative n
  | string isText content =>
    cases isText with
    | false => exact .bytes content
    | true =>
      obtain ⟨s, hs, -⟩ := text_ok hv
      exact .text (by rw [hs]; rfl)
  | chunked h => exact .chunked h
  | @array items _ ih =>
    refine .array fun i hi => ?_
    obtain ⟨vs, hvs, -⟩ := exists_of_map_ok hv
    rw [values_eq_mapM, mapM_ok_iff] at hvs
    obtain ⟨w, hw⟩ := forall₂_left_mem hvs i hi
    exact ih i hi hw
  | @map entries _ ih =>
    refine .map fun i hi => ?_
    obtain ⟨os, hos, -⟩ := exists_of_map_ok hv
    rw [assignments_eq_mapM, mapM_ok_iff] at hos
    obtain ⟨p, hp, hip⟩ := mem_keysAndValues hi
    obtain ⟨o, ho⟩ := forall₂_left_mem hos p hp
    obtain ⟨key, hkey, ho⟩ := exists_of_bind_ok ho
    obtain ⟨w, hw, -⟩ := exists_of_bind_ok ho
    rcases hip with rfl | rfl
    · exact ih _ hi hkey
    · exact ih _ hi hw
  | @tag n item h =>
    obtain ⟨w, hw, ht⟩ := exists_of_bind_ok hv
    obtain ⟨rfl, hdatetime⟩ := tagged_ok ht
    refine .tag ((number_or_boolean hw hdatetime).resolve_right ?_)
    rw [h]
    exact nofun
  | simple info => exact .simple info
  | float content => exact .float content

end

section
variable (unpackFloat : List UInt8 → Number)

/-- The parser comes to an end, and accepts only one well-formed item. -/
def Strict (body : List UInt8) : Prop :=
  initial_body_parse unpackFloat body ≠ .error .recursionError ∧
    ∀ v, initial_body_parse unpackFloat body = .ok v → WellFormed body

/-- Where the body begins with an item that has a value, this is all of it, and clean. -/
def OneCleanItem (body : List UInt8) : Prop :=
  ∀ t u rest v, body = u ++ rest → Encodes t u → value unpackFloat t = .ok v →
    rest = [] ∧ Clean t

theorem initial_body_parse_cons (b : UInt8) (body : List UInt8) (v : Data) :
    initial_body_parse unpackFloat (b :: body) = .ok v ↔
      ∃ t u rest, b :: body = u ++ rest ∧ Encodes t u ∧ value unpackFloat t = .ok v := by
  have hread := @reads_parse_data_item unpackFloat ((b :: body).length + 1) (b :: body)
    (Nat.lt_succ_self _)
  rw [initial_body_parse, if_neg (List.cons_ne_nil b body)]
  constructor
  · intro h
    obtain ⟨⟨w, rest⟩, hr, rfl⟩ := exists_of_map_ok h
    obtain ⟨u, hu, t, ht, hv⟩ := (hread w rest).mp hr
    exact ⟨t, u, rest, hu, ht, hv⟩
  · rintro ⟨t, u, rest, hu, ht, hv⟩
    rw [(hread v rest).mpr ⟨u, hu, t, ht, hv⟩]
    rfl

theorem initial_body_parse_ends (body : List UInt8) :
    initial_body_parse unpackFloat body ≠ .error .recursionError := by
  unfold initial_body_parse
  split_ifs
  · exact nofun
  · intro h
    have hend := @ends_parse_data_item unpackFloat (body.length + 1) body (Nat.lt_succ_self _)
    cases hr : parse_data_item unpackFloat (body.length + 1) body with
    | error e =>
      rw [hr, Except.map, Except.error.injEq] at h
      exact hend (by rw [hr, h])
    | ok r =>
      rw [hr] at h
      cases h

/-- The parser always comes to an end, and it is strict on a body exactly if nothing follows
the item that the body begins with and this item is clean. -/
theorem strict_iff (b : UInt8) (body : List UInt8) :
    Strict unpackFloat (b :: body) ↔ OneCleanItem unpackFloat (b :: body) := by
  constructor
  · rintro ⟨-, h⟩ t u rest v hu ht hv
    have hparse := (initial_body_parse_cons unpackFloat b body v).mpr ⟨t, u, rest, hu, ht, hv⟩
    obtain ⟨t', ht', hvalid⟩ := h v hparse
    have hsame : u ++ rest = (b :: body) ++ [] := by rw [← hu, List.append_nil]
    obtain ⟨rfl, -, rfl⟩ := encodes_unique ht ht' hsame
    exact ⟨rfl, clean_of_valid hvalid⟩
  · intro h
    refine ⟨initial_body_parse_ends unpackFloat _, fun v hv => ?_⟩
    obtain ⟨t, u, rest, hu, ht, hval⟩ := (initial_body_parse_cons unpackFloat b body v).mp hv
    obtain ⟨rfl, hclean⟩ := h t u rest v hu ht hval
    rw [List.append_nil] at hu
    subst hu
    exact ⟨t, ht, valid_of_clean hclean hval⟩

end

/-- An empty map with a byte behind it. -/
theorem trailing_byte_accepted :
    ¬ ∀ (unpackFloat : List UInt8 → Number) (body : List UInt8), body ≠ [] →
      Strict unpackFloat body := by
  intro h
  obtain ⟨t, ht, -⟩ :=
    (h (fun _ => .special .nan) [0xA0, 0x00] (List.cons_ne_nil _ _)).2 (.dict []) rfl
  have hmap : Encodes (.map []) [0xA0] :=
    @Encodes.map 0xA0 [] [] [] (by decide) (.inl ⟨by decide, rfl, by decide⟩) .nil
  obtain ⟨-, -, hrest⟩ := encodes_unique hmap ht (List.append_nil [0xA0, 0x00]).symm
  cases hrest

end LocalStack.Aws.Protocol.CborStrict
