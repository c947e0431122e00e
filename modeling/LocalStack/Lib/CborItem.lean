import LocalStack.Lib.Bytes
import Mathlib.Data.List.Forall2

/-! CBOR data items as trees, and the bytes that stand for a tree. A tree keeps the major
type that each chunk of an indefinite string has on the wire. -/

namespace LocalStack.CborItem
open LocalStack.Bytes

/-- The three high bits of an initial byte. -/
def majorType (b : UInt8) : ℕ := b.toNat >>> 5

/-- The five low bits of an initial byte. -/
def additionalInfo (b : UInt8) : ℕ := b.toNat &&& 0b00011111

/-- Additional information 31 stands for a length that is not given in advance. -/
def indefinite : ℕ := 31

/-- It ends what has no length. -/
def breakByte : UInt8 := 0xFF

inductive Item
  | unsigned (n : ℕ)
  | negative (n : ℕ)
  | string (text : Bool) (content : List UInt8)
  | chunked (text : Bool) (chunks : List (ℕ × List UInt8))
  | array (items : List Item)
  | map (entries : List (Item × Item))
  | tag (n : ℕ) (item : Item)
  | simple (info : ℕ)
  | float (content : List UInt8)

/-- The major type of a string. -/
def stringMajor (text : Bool) : ℕ := if text then 3 else 2

/-- The bytes behind an initial byte that give its argument. -/
def Argument (info : ℕ) (arg : List UInt8) (n : ℕ) : Prop :=
  (info < 24 ∧ arg = [] ∧ n = info) ∨
    ((info, arg.length) ∈ [(24, 1), (25, 2), (26, 4), (27, 8)] ∧ n = fromBytes arg)

/-- One after the other. -/
inductive Seq {α : Type*} (E : α → List UInt8 → Prop) : List α → List UInt8 → Prop
  | nil : Seq E [] []
  | cons {x : α} {xs : List α} {a u : List UInt8} : E x a → Seq E xs u → Seq E (x :: xs) (a ++ u)

/-- A definite string, of any major type. -/
def Chunk (c : ℕ × List UInt8) (u : List UInt8) : Prop :=
  ∃ b arg, majorType b = c.1 ∧ Argument (additionalInfo b) arg c.2.length ∧ u = b :: (arg ++ c.2)

/-- The items of a map in the order of the wire. -/
def keysAndValues (entries : List (Item × Item)) : List Item :=
  entries.flatMap fun p => [p.1, p.2]

/-- The bytes of a data item: any tag, the simple values 20 to 23, floats of two, four or
eight bytes. -/
inductive Encodes : Item → List UInt8 → Prop
  | unsigned {b arg n} (hm : majorType b = 0) (ha : Argument (additionalInfo b) arg n) :
      Encodes (.unsigned n) (b :: arg)
  | negative {b arg n} (hm : majorType b = 1) (ha : Argument (additionalInfo b) arg n) :
      Encodes (.negative n) (b :: arg)
  | string {text b arg content} (hm : majorType b = stringMajor text)
      (ha : Argument (additionalInfo b) arg content.length) :
      Encodes (.string text content) (b :: (arg ++ content))
  | chunked {text b chunks u} (hm : majorType b = stringMajor text)
      (hi : additionalInfo b = indefinite) (hc : Seq Chunk chunks u) :
      Encodes (.chunked text chunks) (b :: (u ++ [breakByte]))
  | array {b arg items u} (hm : majorType b = 4)
      (ha : Argument (additionalInfo b) arg items.length) (hs : Seq Encodes items u) :
      Encodes (.array items) (b :: (arg ++ u))
  | arrayIndefinite {b items u} (hm : majorType b = 4) (hi : additionalInfo b = indefinite)
      (hs : Seq Encodes items u) : Encodes (.array items) (b :: (u ++ [breakByte]))
  | map {b arg entries u} (hm : majorType b = 5)
      (ha : Argument (additionalInfo b) arg entries.length)
      (hs : Seq Encodes (keysAndValues entries) u) : Encodes (.map entries) (b :: (arg ++ u))
  | mapIndefinite {b entries u} (hm : majorType b = 5) (hi : additionalInfo b = indefinite)
      (hs : Seq Encodes (keysAndValues entries) u) :
      Encodes (.map entries) (b :: (u ++ [breakByte]))
  | tag {b arg n item u} (hm : majorType b = 6) (ha : Argument (additionalInfo b) arg n)
      (h : Encodes item u) : Encodes (.tag n item) (b :: (arg ++ u))
  | simple {b} (hm : majorType b = 7) (hi : 20 ≤ additionalInfo b ∧ additionalInfo b ≤ 23) :
      Encodes (.simple (additionalInfo b)) [b]
  | float {b content} (hm : majorType b = 7)
      (hc : (additionalInfo b, content.length) ∈ [(25, 2), (26, 4), (27, 8)]) :
      Encodes (.float content) (b :: content)

/-- A number, of the major types 0 and 1 or a float. -/
def Item.isNumber : Item → Bool
  | .unsigned _ | .negative _ | .float _ => true
  | _ => false

/-- A chunk is a string of the major type it stands in, and UTF-8 where that is text. -/
def ChunkOf (text : Bool) (c : ℕ × List UInt8) : Prop :=
  c.1 = stringMajor text ∧ (text = true → (decodeUtf8 c.2).isSome = true)

/-- What an item must have beside its bytes, if the only tag is 1. -/
inductive Valid : Item → Prop
  | unsigned (n) : Valid (.unsigned n)
  | negative (n) : Valid (.negative n)
  | bytes (content) : Valid (.string false content)
  | text {content} (h : (decodeUtf8 content).isSome = true) : Valid (.string true content)
  | chunked {text chunks} (h : ∀ c ∈ chunks, ChunkOf text c) : Valid (.chunked text chunks)
  | array {items} (h : ∀ i ∈ items, Valid i) : Valid (.array items)
  | map {entries} (h : ∀ i ∈ keysAndValues entries, Valid i) : Valid (.map entries)
  | tag {item} (h : item.isNumber = true) : Valid (.tag 1 item)
  | simple (info) : Valid (.simple info)
  | float (content) : Valid (.float content)

/-- One well-formed data item of the supported kinds, and nothing else. -/
def WellFormed (u : List UInt8) : Prop := ∃ t, Encodes t u ∧ Valid t

/-! ## First bytes -/

theorem majorType_cases (b : UInt8) : majorType b = 0 ∨ majorType b = 1 ∨ majorType b = 2 ∨
    majorType b = 3 ∨ majorType b = 4 ∨ majorType b = 5 ∨ majorType b = 6 ∨ majorType b = 7 := by
  have hb := b.toNat_lt
  rw [majorType, Nat.shiftRight_eq_div_pow]
  omega

theorem breakByte_fields : majorType breakByte = 7 ∧ additionalInfo breakByte = 31 := by
  decide

theorem Argument.info_lt {info n : ℕ} {arg : List UInt8} (h : Argument info arg n) :
    info < 28 := by
  rcases h with ⟨h, -⟩ | ⟨h, -⟩
  · omega
  · simp only [List.mem_cons, Prod.mk.injEq, List.not_mem_nil, or_false] at h
    omega

theorem Argument.ne_break {b : UInt8} {n : ℕ} {arg : List UInt8}
    (h : Argument (additionalInfo b) arg n) : b ≠ breakByte := by
  rintro rfl
  have hlt := h.info_lt
  rw [breakByte_fields.2] at hlt
  omega

theorem ne_break_of_majorType {b : UInt8} (h : majorType b < 7) : b ≠ breakByte := by
  rintro rfl
  rw [breakByte_fields.1] at h
  omega

/-- The break is the first byte of no chunk and of no item. -/
theorem Chunk.exists_cons {c : ℕ × List UInt8} {u : List UInt8} (h : Chunk c u) :
    ∃ b v, u = b :: v ∧ b ≠ breakByte := by
  obtain ⟨b, arg, -, ha, rfl⟩ := h
  exact ⟨b, arg ++ c.2, rfl, ha.ne_break⟩

theorem Encodes.exists_cons {t : Item} {u : List UInt8} (h : Encodes t u) :
    ∃ b v, u = b :: v ∧ b ≠ breakByte := by
  cases h with
  | unsigned hm ha => exact ⟨_, _, rfl, ha.ne_break⟩
  | negative hm ha => exact ⟨_, _, rfl, ha.ne_break⟩
  | string hm ha => exact ⟨_, _, rfl, ha.ne_break⟩
  | chunked hm hi hc =>
    refine ⟨_, _, rfl, ne_break_of_majorType ?_⟩
    rw [hm, stringMajor]
    split <;> omega
  | array hm ha hs => exact ⟨_, _, rfl, ha.ne_break⟩
  | arrayIndefinite hm hi hs => exact ⟨_, _, rfl, ne_break_of_majorType (by omega)⟩
  | map hm ha hs => exact ⟨_, _, rfl, ha.ne_break⟩
  | mapIndefinite hm hi hs => exact ⟨_, _, rfl, ne_break_of_majorType (by omega)⟩
  | tag hm ha h => exact ⟨_, _, rfl, ha.ne_break⟩
  | simple hm hi =>
    refine ⟨_, _, rfl, ?_⟩
    rintro rfl
    rw [breakByte_fields.2] at hi
    omega
  | float hm hc =>
    refine ⟨_, _, rfl, ?_⟩
    rintro rfl
    rw [breakByte_fields.2] at hc
    simp at hc

/-! ## Items by their major type -/

theorem stringMajor_bounds (text : Bool) : 2 ≤ stringMajor text ∧ stringMajor text ≤ 3 := by
  cases text <;> simp [stringMajor]

theorem stringMajor_injective {text text' : Bool} (h : stringMajor text = stringMajor text') :
    text = text' := by
  cases text <;> cases text' <;> simp_all [stringMajor]

section
variable {b : UInt8} {t : Item} {v : List UInt8}

theorem encodes_unsigned (hm : majorType b = 0) :
    Encodes t (b :: v) ↔ ∃ n, Argument (additionalInfo b) v n ∧ t = .unsigned n := by
  constructor
  · intro h
    cases h
    all_goals first
      | omega
      | have hbounds := stringMajor_bounds ‹Bool›
        omega
      | skip
    case unsigned n _ ha => exact ⟨n, ha, rfl⟩
  · rintro ⟨n, ha, rfl⟩
    exact .unsigned hm ha

theorem encodes_negative (hm : majorType b = 1) :
    Encodes t (b :: v) ↔ ∃ n, Argument (additionalInfo b) v n ∧ t = .negative n := by
  constructor
  · intro h
    cases h
    all_goals first
      | omega
      | have hbounds := stringMajor_bounds ‹Bool›
        omega
      | skip
    case negative n _ ha => exact ⟨n, ha, rfl⟩
  · rintro ⟨n, ha, rfl⟩
    exact .negative hm ha

theorem encodes_string {text : Bool} (hm : majorType b = stringMajor text) :
    Encodes t (b :: v) ↔
      (∃ content arg, Argument (additionalInfo b) arg content.length ∧ v = arg ++ content ∧
        t = .string text content) ∨
      (additionalInfo b = indefinite ∧ ∃ chunks u, v = u ++ [breakByte] ∧ Seq Chunk chunks u ∧
        t = .chunked text chunks) := by
  have hb := stringMajor_bounds text
  constructor
  · intro h
    cases h
    all_goals first | omega | skip
    case string text' arg content hm' ha =>
      obtain rfl := stringMajor_injective (hm.symm.trans hm')
      exact .inl ⟨content, arg, ha, rfl, rfl⟩
    case chunked text' chunks u hc hm' hi =>
      obtain rfl := stringMajor_injective (hm.symm.trans hm')
      exact .inr ⟨hi, chunks, u, rfl, hc, rfl⟩
  · rintro (⟨content, arg, ha, rfl, rfl⟩ | ⟨hi, chunks, u, rfl, hc, rfl⟩)
    · exact .string hm ha
    · exact .chunked hm hi hc

/-- Entries with a length or a break. -/
def Entries {α : Type*} (E : α → List UInt8 → Prop) (info : ℕ) (xs : List α)
    (u : List UInt8) : Prop :=
  (∃ arg v, Argument info arg xs.length ∧ u = arg ++ v ∧ Seq E xs v) ∨
    (info = indefinite ∧ ∃ v, u = v ++ [breakByte] ∧ Seq E xs v)

/-- The bytes of things that are each made of something else. -/
theorem seq_image {α β : Type*} {E : α → List UInt8 → Prop} {R : α → β → Prop} {ys : List β}
    {u : List UInt8} : Seq (fun y u => ∃ x, E x u ∧ R x y) ys u ↔
      ∃ xs, Seq E xs u ∧ List.Forall₂ R xs ys := by
  constructor
  · intro h
    induction h with
    | nil => exact ⟨[], .nil, .nil⟩
    | cons hx _ ih =>
      obtain ⟨x, hE, hR⟩ := hx
      obtain ⟨xs, hs, hRs⟩ := ih
      exact ⟨x :: xs, .cons hE hs, .cons hR hRs⟩
  · rintro ⟨xs, hs, hR⟩
    induction hs generalizing ys with
    | nil =>
      cases hR
      exact .nil
    | cons hE _ ih =>
      cases hR with
      | cons hR hRs => exact .cons ⟨_, hE, hR⟩ (ih hRs)

theorem entries_image {α β : Type*} {E : α → List UInt8 → Prop} {R : α → β → Prop} {info : ℕ}
    {ys : List β} {u : List UInt8} : Entries (fun y u => ∃ x, E x u ∧ R x y) info ys u ↔
      ∃ xs, Entries E info xs u ∧ List.Forall₂ R xs ys := by
  simp only [Entries, seq_image]
  constructor
  · rintro (⟨arg, v, ha, rfl, xs, hs, hR⟩ | ⟨hi, v, rfl, xs, hs, hR⟩)
    · exact ⟨xs, .inl ⟨arg, v, by rwa [hR.length_eq], rfl, hs⟩, hR⟩
    · exact ⟨xs, .inr ⟨hi, v, rfl, hs⟩, hR⟩
  · rintro ⟨xs, ⟨arg, v, ha, rfl, hs⟩ | ⟨hi, v, rfl, hs⟩, hR⟩
    · exact .inl ⟨arg, v, by rwa [← hR.length_eq], rfl, xs, hs, hR⟩
    · exact .inr ⟨hi, v, rfl, xs, hs, hR⟩

theorem encodes_array (hm : majorType b = 4) :
    Encodes t (b :: v) ↔ ∃ items, Entries Encodes (additionalInfo b) items v ∧
      t = .array items := by
  constructor
  · intro h
    cases h
    all_goals first
      | omega
      | have hbounds := stringMajor_bounds ‹Bool›
        omega
      | skip
    case array arg items u hs _ ha => exact ⟨items, .inl ⟨arg, u, ha, rfl, hs⟩, rfl⟩
    case arrayIndefinite items u hs _ hi => exact ⟨items, .inr ⟨hi, u, rfl, hs⟩, rfl⟩
  · rintro ⟨items, ⟨arg, u, ha, rfl, hs⟩ | ⟨hi, u, rfl, hs⟩, rfl⟩
    · exact .array hm ha hs
    · exact .arrayIndefinite hm hi hs

end

/-- Keys and values one after the other are entries one after the other. -/
theorem seq_keysAndValues {E : Item → List UInt8 → Prop} {entries : List (Item × Item)}
    {u : List UInt8} : Seq E (keysAndValues entries) u ↔
      Seq (fun p u => ∃ k v, E p.1 k ∧ E p.2 v ∧ u = k ++ v) entries u := by
  induction entries generalizing u with
  | nil =>
    constructor
    · intro h
      cases h
      exact .nil
    · intro h
      cases h
      exact .nil
  | cons p entries ih =>
    constructor
    · intro h
      cases h with
      | cons hk h =>
        cases h with
        | cons hv h =>
          rw [← List.append_assoc]
          exact .cons ⟨_, _, hk, hv, rfl⟩ (ih.mp h)
    · intro h
      cases h with
      | cons hp h =>
        obtain ⟨k, v, hk, hv, rfl⟩ := hp
        rw [List.append_assoc]
        exact .cons hk (.cons hv (ih.mpr h))

/-- A key and its value. -/
def Entry (p : Item × Item) (u : List UInt8) : Prop :=
  ∃ k v, Encodes p.1 k ∧ Encodes p.2 v ∧ u = k ++ v

theorem Entry.exists_cons {p : Item × Item} {u : List UInt8} (h : Entry p u) :
    ∃ b v, u = b :: v ∧ b ≠ breakByte := by
  obtain ⟨k, v, hk, -, rfl⟩ := h
  obtain ⟨b, w, rfl, hb⟩ := hk.exists_cons
  exact ⟨b, w ++ v, rfl, hb⟩

section
variable {b : UInt8} {t : Item} {v : List UInt8}

theorem encodes_map (hm : majorType b = 5) :
    Encodes t (b :: v) ↔ ∃ entries, Entries Entry (additionalInfo b) entries v ∧
      t = .map entries := by
  constructor
  · intro h
    cases h
    all_goals first
      | omega
      | have hbounds := stringMajor_bounds ‹Bool›
        omega
      | skip
    case map arg entries u hs _ ha =>
      exact ⟨entries, .inl ⟨arg, u, ha, rfl, seq_keysAndValues.mp hs⟩, rfl⟩
    case mapIndefinite entries u hs _ hi =>
      exact ⟨entries, .inr ⟨hi, u, rfl, seq_keysAndValues.mp hs⟩, rfl⟩
  · rintro ⟨entries, ⟨arg, u, ha, rfl, hs⟩ | ⟨hi, u, rfl, hs⟩, rfl⟩
    · exact .map hm ha (seq_keysAndValues.mpr hs)
    · exact .mapIndefinite hm hi (seq_keysAndValues.mpr hs)

theorem encodes_tag (hm : majorType b = 6) :
    Encodes t (b :: v) ↔ ∃ n item arg u, Argument (additionalInfo b) arg n ∧ Encodes item u ∧
      v = arg ++ u ∧ t = .tag n item := by
  constructor
  · intro h
    cases h
    all_goals first
      | omega
      | have hbounds := stringMajor_bounds ‹Bool›
        omega
      | skip
    case tag arg n item u h _ ha => exact ⟨n, item, arg, u, ha, h, rfl, rfl⟩
  · rintro ⟨n, item, arg, u, ha, h, rfl, rfl⟩
    exact .tag hm ha h

theorem encodes_simple_or_float (hm : majorType b = 7) :
    Encodes t (b :: v) ↔
      ((20 ≤ additionalInfo b ∧ additionalInfo b ≤ 23) ∧ v = [] ∧
        t = .simple (additionalInfo b)) ∨
      ((additionalInfo b, v.length) ∈ [(25, 2), (26, 4), (27, 8)] ∧ t = .float v) := by
  constructor
  · intro h
    cases h
    all_goals first
      | omega
      | have hbounds := stringMajor_bounds ‹Bool›
        omega
      | skip
    case simple hm' hi => exact .inl ⟨hi, rfl, rfl⟩
    case float hm' hc => exact .inr ⟨hc, rfl⟩
  · rintro (⟨hi, rfl, rfl⟩ | ⟨hc, rfl⟩)
    · exact .simple hm hi
    · exact .float hm hc

end

end LocalStack.CborItem
