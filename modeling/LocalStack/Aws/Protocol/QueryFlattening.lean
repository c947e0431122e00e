import LocalStack.Aws.Protocol.Query
import LocalStack.Lib.Lists
import Mathlib.Data.List.Nodup

/-! The form parameters that a client makes of a value, and what tells the keys of
one shape from those of another: how many indexes they begin with. -/

namespace LocalStack.Aws.Protocol.Query
open LocalStack.Text LocalStack.Decimal LocalStack.OrderedDict LocalStack.Aws.Protocol.Parser

/-! ## Reference flattening -/

/-- `name` before a relative key; the key of a scalar is its name alone. -/
def join (name k : Str) : Str := if k = [] then name else name ++ '.' :: k

def under (name : Str) (ps : List (Str × Str)) : List (Str × Str) :=
  ps.map fun p => (join name p.1, p.2)

/-- The parameters of the elements of a list or map, numbered from `i` on. -/
def numbered : Nat → List (List (Str × Str)) → List (Str × Str)
  | _, [] => []
  | i, ps :: pss => under (natToStr i) ps ++ numbered (i + 1) pss

/-- The hierarchy level of containers that are not flattened. -/
def level (ser : Serialization) (name : Str) (ps : List (Str × Str)) : List (Str × Str) :=
  if ser.flattened then ps else under name ps

def formText : Value → Str
  | .str s => s
  | .int i => intToStr i
  | .bool b => if b then "true".toList else "false".toList
  | .bytes bs => Base64.b64encode bs
  | _ => []

def member_level_name (member : Shape) : Str :=
  get_serialized_name member.serialization "member".toList

/-- The names of the members of a structure in the parameters, of which only those
of flattened lists may be other names than the parser's. -/
structure Naming where
  key : Str → Shape → Str
  found : ∀ member s, (∀ ser m, s = .list ser m → ser.flattened = false) →
    key member s = structure_key treeView member s

/-- The serialized name of a member. A flattened list has the name of its elements,
or else a name of its own. -/
def serialized_key (member : Str) : Shape → Str
  | .list ser m =>
    let name := get_serialized_name ser member
    if ser.flattened then get_serialized_name m.serialization name else name
  | s => get_serialized_name s.serialization member

def Naming.serialized : Naming where
  key := serialized_key
  found member s h := by
    cases s with
    | list ser m => simp [serialized_key, structure_key, treeView, h ser m rfl]
    | _ => rfl

/-- The names that the parser looks for. They leave out a flattened list's own name. -/
def Naming.parser : Naming := ⟨structure_key treeView, fun _ _ _ => rfl⟩

example :
    let tags : Shape := .list { name := some "Tag".toList, flattened := true } (.scalar {} .string)
    Naming.serialized.key "Tags".toList tags = "Tag".toList ∧
      Naming.parser.key "Tags".toList tags = "Tags".toList := by decide

section

variable (N : Naming)

mutual

/-- `Name.member.N` and `Name.N` for lists, `Name.entry.N.key` and `Name.N.key` for
maps and `Name.Member` for structures; the keys are relative to `Name`. -/
def flatten : Shape → Value → List (Str × Str)
  | .scalar _ _, v => [([], formText v)]
  | .list ser member, .list vs =>
    level ser (member_level_name member) (numbered 1 (vs.map fun v => flatten member v))
  | .map ser key value, .dict d =>
    level ser "entry".toList <| numbered 1 <| d.map fun p =>
      (key_name key, p.1) :: under (value_name treeView value) (flatten value p.2)
  | .struct _ _ members, .dict d => flattenMembers members d
  | _, _ => []

def flattenMembers : List (Str × Shape) → Dict Str Value → List (Str × Str)
  | [], _ => []
  | (name, shape) :: members, d =>
    (match d.get name with
      | some v => under (N.key name shape) (flatten shape v)
      | none => []) ++ flattenMembers members d

end

end

mutual

/-- The value as it comes back: empty containers are absent members, and `None`
where they are required. -/
def norm : Shape → Value → Value
  | .list _ _, .list [] => .none
  | .list _ member, .list vs => .list (vs.map fun v => norm member v)
  | .map _ _ _, .dict [] => .none
  | .map _ _ value, .dict d => .dict (d.map fun p => (p.1, norm value p.2))
  | .struct _ traits members, .dict d =>
    let result := normMembers traits.required_members members d
    if result.all (·.2.isNone) then .none else .dict result
  | _, v => v

def normMembers (required_members : List Str) :
    List (Str × Shape) → Dict Str Value → List (Str × Value)
  | [], _ => []
  | (name, shape) :: members, d =>
    let value := match d.get name with
      | some v => norm shape v
      | none => .none
    let result := normMembers required_members members d
    if value.isNone = false ∨ name ∈ required_members then (name, value) :: result else result

end

/-- The value of a member that may be absent. -/
def normMember (s : Shape) : Option Value → Value
  | some v => norm s v
  | none => .none

theorem normMembers_cons (required : List Str) (n : Str) (s : Shape) (ms : List (Str × Shape))
    (d : Dict Str Value) : normMembers required ((n, s) :: ms) d =
      if (normMember s (d.get n)).isNone = false ∨ n ∈ required
      then (n, normMember s (d.get n)) :: normMembers required ms d
      else normMembers required ms d := by
  rw [normMembers]
  cases d.get n <;> rfl

/-! ## Values and shapes -/

/-- Values without `None`, and without empty list elements and map values. -/
def formValues : ValueRules where
  scalar _ t v :=
    match t, v with
    | .string, .str _ | .integer, .int _ | .long, .int _ | .boolean, .bool _
    | .blob, .bytes _ => True
    | _, _ => False
  element s v := norm s v ≠ .none

def IsName (n : Str) : Prop := n ≠ [] ∧ '.' ∉ n

instance (n : Str) : Decidable (IsName n) := inferInstanceAs (Decidable (_ ∧ _))

/-- Names are not empty and have no dots, no name is the beginning of a sibling's,
and no scalar is a timestamp or a float. -/
def Lawful (N : Naming) : Shape → Prop
  | .scalar _ t => t ≠ .timestamp ∧ t ≠ .float ∧ t ≠ .double
  | .list _ member => IsName (member_level_name member)
  | .map _ key value =>
    IsName (key_name key) ∧ IsName (value_name treeView value) ∧
      ¬ key_name key <+: value_name treeView value ∧ ¬ value_name treeView value <+: key_name key
  | .struct _ _ members =>
    Dict.WF members ∧
      (∀ p ∈ members, IsName (N.key p.1 p.2) ∧ IsName (structure_key treeView p.1 p.2)) ∧
      ∀ p ∈ members, ∀ q ∈ members, p.1 ≠ q.1 →
        ¬ N.key p.1 p.2 <+: N.key q.1 q.2

theorem lawful_scalar {N : Naming} {ser : Serialization} {t : ScalarType}
    (h : t ≠ .timestamp ∧ t ≠ .float ∧ t ≠ .double) : (Shape.scalar ser t).All (Lawful N) :=
  .scalar h

/-- The name is not made of digits only. -/
def HasLetter (n : Str) : Prop := ∃ c ∈ n, c.isDigit = false

/-- No name that is taken off the keys could be taken for an index, as far as the
keys consist of indexes before. -/
def Named (N : Naming) : Shape → Prop
  | .scalar _ _ => True
  | .list ser member =>
    if ser.flattened then Named N member
    else IsScalar treeView member ∨ HasLetter (member_level_name member)
  | .map ser _ value =>
    ser.flattened = true → IsScalar treeView value ∨ HasLetter (value_name treeView value)
  | .struct _ _ members =>
    ∀ p ∈ members, IsScalar treeView p.2 ∨ HasLetter (N.key p.1 p.2)

variable {N : Naming}

/-! ## Keys that begin with indexes -/

/-- The number of leading components of digits that a dot ends. -/
def digitDepth : Str → Nat
  | [] => 0
  | c :: s => if c = '.' then digitDepth s + 1 else if c.isDigit then digitDepth s else 0

/-- The number of indexes that the keys of a shape begin with. -/
def depth : Shape → Nat
  | .list ser member =>
    if ser.flattened then
      match member with
      | .scalar _ _ => 0
      | _ => depth member + 1
    else digitDepth (member_level_name member ++ ['.'])
  | .map ser _ _ => if ser.flattened then 1 else 0
  | _ => 0

theorem isDigit_ne_dot {c : Char} (h : c.isDigit = true) : c ≠ '.' := by
  rintro rfl
  exact absurd h (by decide)

theorem digitDepth_digits_append {t : Str} (h : ∀ c ∈ t, c.isDigit = true) (s : Str) :
    digitDepth (t ++ s) = digitDepth s := by
  induction t with
  | nil => rfl
  | cons c t ih =>
    rw [List.forall_mem_cons] at h
    rw [List.cons_append, digitDepth, if_neg (isDigit_ne_dot h.1), if_pos h.1, ih h.2]

theorem digitDepth_dot (s : Str) : digitDepth ('.' :: s) = digitDepth s + 1 := rfl

theorem digitDepth_natToStr_append (i : Nat) (s : Str) :
    digitDepth (natToStr i ++ s) = digitDepth s :=
  digitDepth_digits_append (fun _ h => isDigit_of_mem_natToStr h) s

theorem digitDepth_eq_zero {s : Str} (h : '.' ∉ s) : digitDepth s = 0 := by
  induction s with
  | nil => rfl
  | cons c s ih =>
    rw [List.mem_cons, not_or] at h
    rw [digitDepth, if_neg (Ne.symm h.1), ih h.2]
    simp

/-- A name that has a letter ends the indexes. -/
theorem digitDepth_letter_append {n : Str} (hdot : '.' ∉ n) (h : HasLetter n) (s : Str) :
    digitDepth (n ++ s) = 0 := by
  induction n with
  | nil =>
    obtain ⟨c, hc, -⟩ := h
    simp at hc
  | cons c n ih =>
    rw [List.mem_cons, not_or] at hdot
    rw [List.cons_append, digitDepth, if_neg (Ne.symm hdot.1)]
    split
    · next hdigit =>
      obtain ⟨c', hc', hletter⟩ := h
      refine ih hdot.2 ⟨c', ?_, hletter⟩
      rcases List.mem_cons.mp hc' with rfl | hmem
      · rw [hdigit] at hletter
        cases hletter
      · exact hmem
    · rfl

theorem natToStr_no_dot (i : Nat) : '.' ∉ natToStr i := fun h =>
  isDigit_ne_dot (isDigit_of_mem_natToStr h) rfl

/-! ## Joined keys -/

@[simp] theorem join_nil (n : Str) : join n [] = n := rfl

theorem join_of_ne_nil (n : Str) {k : Str} (h : k ≠ []) : join n k = n ++ '.' :: k := by
  simp [join, h]

theorem prefix_join (n k : Str) : n <+: join n k := by
  rw [join]
  split
  · exact List.prefix_refl n
  · exact List.prefix_append n _

theorem join_ne_nil {n : Str} (h : n ≠ []) (k : Str) : join n k ≠ [] := by
  rw [join]
  split
  · exact h
  · simp

theorem join_assoc (a b k : Str) (hb : b ≠ []) : join a (join b k) = join (a ++ '.' :: b) k := by
  rw [join_of_ne_nil _ (join_ne_nil hb k), join, join]
  split <;> simp

/-- A name without dots that begins a dotted key begins its name. -/
theorem prefix_of_prefix_dot {n m k : Str} (hn : '.' ∉ n) (h : n <+: m ++ '.' :: k) : n <+: m := by
  rcases List.prefix_or_prefix_of_prefix h (List.prefix_append m ('.' :: k)) with h' | h'
  · exact h'
  · obtain ⟨t, rfl⟩ := h'
    rw [List.prefix_append_right_inj] at h
    cases t with
    | nil => simp
    | cons c t =>
      rw [List.cons_prefix_cons] at h
      exact absurd (by simp [h.1]) hn

theorem prefix_of_prefix_join {n m k : Str} (hn : '.' ∉ n) (h : n <+: join m k) : n <+: m := by
  rw [join] at h
  split at h
  · exact h
  · exact prefix_of_prefix_dot hn h

/-- The name of a joined key ends at the first dot. -/
theorem eq_of_prefix_dot {n m k : Str} (hn : '.' ∉ n) (hm : '.' ∉ m)
    (h : n ++ ['.'] <+: join m k) : n = m := by
  have hnm : n <+: m := prefix_of_prefix_join hn ((List.prefix_append n ['.']).trans h)
  have hmn : m <+: n := by
    obtain ⟨t, ht⟩ := h
    have hpre := prefix_join m k
    rw [← ht, List.append_assoc] at hpre
    exact prefix_of_prefix_dot hm hpre
  exact hnm.eq_of_length_le hmn.length_le

/-- Keys below different names are different. -/
theorem join_inj {n n' k k' : Str} (hn : '.' ∉ n) (hn' : '.' ∉ n') (h : join n k = join n' k') :
    n = n' ∧ k = k' := by
  have h1 : n <+: n' := prefix_of_prefix_join hn (h ▸ prefix_join n k)
  have h2 : n' <+: n := prefix_of_prefix_join hn' (h ▸ prefix_join n' k')
  obtain rfl := List.IsPrefix.eq_of_length_le h1 h2.length_le
  refine ⟨rfl, ?_⟩
  rw [join, join] at h
  split at h <;> split at h
  · simp_all
  · simp at h
  · simp at h
  · simpa using h

theorem mem_under {n : Str} {ps : List (Str × Str)} {q : Str × Str} :
    q ∈ under n ps ↔ ∃ p ∈ ps, q = (join n p.1, p.2) := by
  simp [under, eq_comm]

theorem mem_numbered {i : Nat} {pss : List (List (Str × Str))} {q : Str × Str} :
    q ∈ numbered i pss ↔ ∃ j ps, pss[j]? = some ps ∧ q ∈ under (natToStr (i + j)) ps := by
  induction pss generalizing i with
  | nil => simp [numbered]
  | cons ps pss ih =>
    rw [numbered, List.mem_append, ih]
    constructor
    · rintro (h | ⟨j, ps', hj, h⟩)
      · exact ⟨0, ps, rfl, h⟩
      · exact ⟨j + 1, ps', hj, by rwa [show i + (j + 1) = i + 1 + j by omega]⟩
    · rintro ⟨j, ps', hj, h⟩
      cases j with
      | zero =>
        cases hj
        exact Or.inl h
      | succ j =>
        exact Or.inr ⟨j, ps', hj, by rwa [show i + 1 + j = i + (j + 1) by omega]⟩

theorem mem_level {ser : Serialization} {name : Str} {ps : List (Str × Str)} {q : Str × Str} :
    q ∈ level ser name ps ↔ ∃ p ∈ ps, q = (if ser.flattened then p.1 else join name p.1, p.2) := by
  rw [level]
  cases ser.flattened <;> simp [mem_under]

theorem mem_flattenMembers {ms : List (Str × Shape)} {d : Dict Str Value} {q : Str × Str} :
    q ∈ flattenMembers N ms d ↔ ∃ p ∈ ms, ∃ v, d.get p.1 = some v ∧
      q ∈ under (N.key p.1 p.2) (flatten N p.2 v) := by
  induction ms with
  | nil => simp [flattenMembers]
  | cons p ms ih =>
    obtain ⟨n, s⟩ := p
    rw [flattenMembers, List.mem_append, ih]
    cases hv : d.get n <;> simp [hv]

/-! ## Keys of a shape -/

theorem natToStr_join_ne_nil (i : Nat) (k : Str) : join (natToStr i) k ≠ [] :=
  join_ne_nil (natToStr_ne_nil i) k

theorem isScalar_scalar (ser : Serialization) (t : ScalarType) :
    IsScalar treeView (.scalar ser t) := ⟨ser, t, rfl⟩

theorem not_isScalar_list {ser : Serialization} {m : Shape} :
    ¬ IsScalar treeView (.list ser m) := by
  rintro ⟨ser', t, h⟩
  cases h

theorem not_isScalar_map {ser key : Serialization} {s : Shape} :
    ¬ IsScalar treeView (.map ser key s) := by
  rintro ⟨ser', t, h⟩
  cases h

theorem not_isScalar_struct {ser : Serialization} {traits : StructureTraits}
    {ms : List (Str × Shape)} : ¬ IsScalar treeView (.struct ser traits ms) := by
  rintro ⟨ser', t, h⟩
  cases h

/-- Only the key of a scalar is empty. -/
theorem flatten_key_ne_nil {s : Shape} (hs : ¬ IsScalar treeView s) (hl : Lawful N s) (v : Value) :
    ∀ p ∈ flatten N s v, p.1 ≠ [] := by
  have hlevel : ∀ (ser : Serialization) (name : Str) (pss : List (List (Str × Str))), name ≠ [] →
      ∀ p ∈ level ser name (numbered 1 pss), p.1 ≠ [] := by
    intro ser name pss hname p hp
    obtain ⟨q, hq, rfl⟩ := mem_level.mp hp
    obtain ⟨j, ps, -, hq⟩ := mem_numbered.mp hq
    obtain ⟨r, -, rfl⟩ := mem_under.mp hq
    dsimp only
    split
    · exact natToStr_join_ne_nil _ _
    · exact join_ne_nil hname _
  cases s with
  | scalar ser t => exact absurd (isScalar_scalar ser t) hs
  | list ser m =>
    cases v <;> try (simp [flatten]; done)
    rw [flatten]
    exact hlevel ser _ _ hl.1
  | map ser key s =>
    cases v <;> try (simp [flatten]; done)
    rw [flatten]
    exact hlevel ser _ _ (by decide)
  | struct ser traits ms =>
    cases v <;> try (simp [flatten]; done)
    rw [flatten]
    intro p hp
    obtain ⟨q, hq, v, -, hp⟩ := mem_flattenMembers.mp hp
    obtain ⟨r, -, rfl⟩ := mem_under.mp hp
    exact join_ne_nil (hl.2.1 q hq).1.1 _

theorem flatten_scalar {s : Shape} (hs : IsScalar treeView s) (v : Value) :
    flatten N s v = [([], formText v)] := by
  cases s with
  | scalar => rfl
  | _ =>
    obtain ⟨ser, t, h⟩ := hs
    cases h

theorem depth_list_flattened {ser : Serialization} (hflat : ser.flattened = true) {m : Shape}
    (hm : ¬ IsScalar treeView m) : depth (.list ser m) = depth m + 1 := by
  cases m with
  | scalar ser t => exact absurd (isScalar_scalar ser t) hm
  | _ => simp [depth, hflat]

theorem depth_list_scalar {ser : Serialization} (hflat : ser.flattened = true) {m : Shape}
    (hm : IsScalar treeView m) : depth (.list ser m) = 0 := by
  obtain ⟨ser', t, h⟩ := hm
  cases m <;> cases h
  rw [depth, if_pos hflat]

theorem depth_list_level {ser : Serialization} (hflat : ser.flattened = false) (m : Shape) :
    depth (.list ser m) = digitDepth (member_level_name m ++ ['.']) := by
  cases m <;> simp [depth, hflat]

theorem eq_nil_of_mem_flatten {s : Shape} (hs : IsScalar treeView s) {v : Value}
    {p : Str × Str} (hp : p ∈ flatten N s v) : p.1 = [] := by
  rw [flatten_scalar hs, List.mem_singleton] at hp
  rw [hp]

theorem digitDepth_join_name {n k : Str} (hdot : '.' ∉ n) (h : k = [] ∨ HasLetter n) :
    digitDepth (join n k) = 0 := by
  rcases h with rfl | h
  · exact digitDepth_eq_zero hdot
  · obtain ⟨t, ht⟩ := prefix_join n k
    rw [← ht, digitDepth_letter_append hdot h]

/-- The indexes before a component do not depend on what is behind it. -/
theorem digitDepth_append_dot {n k : Str} (hn : '.' ∉ n) (hk : '.' ∉ k) :
    digitDepth (n ++ '.' :: k) = digitDepth (n ++ ['.']) := by
  by_cases hletter : HasLetter n
  · rw [digitDepth_letter_append hn hletter, digitDepth_letter_append hn hletter]
  · have hdigits : ∀ c ∈ n, c.isDigit = true := fun c hc => by
      by_contra hfalse
      exact hletter ⟨c, hc, by simpa using hfalse⟩
    rw [digitDepth_digits_append hdigits, digitDepth_digits_append hdigits, digitDepth_dot,
      digitDepth_dot, digitDepth_eq_zero hk, digitDepth]

theorem digitDepth_join_natToStr (i : Nat) {k : Str} (hk : k ≠ []) :
    digitDepth (join (natToStr i) k) = digitDepth k + 1 := by
  rw [join_of_ne_nil _ hk, digitDepth_natToStr_append, digitDepth_dot]

theorem digitDepth_natToStr (i : Nat) : digitDepth (natToStr i) = 0 :=
  digitDepth_eq_zero (natToStr_no_dot i)

theorem entry_isName : IsName "entry".toList ∧ HasLetter "entry".toList :=
  ⟨by decide, 'e', by decide, by decide⟩

/-- Every key of a shape begins with the same number of indexes. -/
theorem digitDepth_flatten {s : Shape} (hl : s.All (Lawful N)) (hn : Named N s) (v : Value) :
    ∀ p ∈ flatten N s v, digitDepth p.1 = depth s := by
  induction s using Shape.induct generalizing v with
  | scalar ser t => simp [flatten, digitDepth, depth]
  | list ser m ih =>
    cases v <;> try (simp [flatten]; done)
    rename_i vs
    intro p hp
    rw [flatten] at hp
    obtain ⟨q, hq, rfl⟩ := mem_level.mp hp
    obtain ⟨j, ps, hj, hq⟩ := mem_numbered.mp hq
    obtain ⟨r, hr, rfl⟩ := mem_under.mp hq
    rw [List.getElem?_map, Option.map_eq_some_iff] at hj
    obtain ⟨v, -, rfl⟩ := hj
    dsimp only
    rw [Named] at hn
    cases hflat : ser.flattened
    · rw [hflat, if_neg (by simp)] at hn
      rw [if_neg (by simp), depth_list_level hflat, join_of_ne_nil _ (natToStr_join_ne_nil _ _)]
      rcases hn with hm | hletter
      · rw [eq_nil_of_mem_flatten hm hr, join_nil]
        exact digitDepth_append_dot hl.self.2 (natToStr_no_dot _)
      · rw [digitDepth_letter_append hl.self.2 hletter, digitDepth_letter_append hl.self.2 hletter]
    · rw [hflat, if_pos rfl] at hn
      rw [if_pos rfl]
      by_cases hm : IsScalar treeView m
      · rw [depth_list_scalar hflat hm, eq_nil_of_mem_flatten hm hr, join_nil]
        exact digitDepth_natToStr _
      · rw [depth_list_flattened hflat hm,
          digitDepth_join_natToStr _ (flatten_key_ne_nil hm hl.list_member.self v r hr),
          ih hl.list_member hn v r hr]
  | map ser key s _ =>
    cases v <;> try (simp [flatten]; done)
    rename_i d
    intro p hp
    rw [flatten] at hp
    obtain ⟨q, hq, rfl⟩ := mem_level.mp hp
    obtain ⟨j, ps, hj, hq⟩ := mem_numbered.mp hq
    obtain ⟨r, hr, rfl⟩ := mem_under.mp hq
    rw [List.getElem?_map, Option.map_eq_some_iff] at hj
    obtain ⟨e, -, rfl⟩ := hj
    obtain ⟨hkey, hvalue, -, -⟩ := hl.self
    dsimp only
    rw [depth]
    cases hflat : ser.flattened
    · rw [if_neg (by simp), if_neg (by simp)]
      exact digitDepth_join_name entry_isName.1.2 (Or.inr entry_isName.2)
    · rw [if_pos rfl, if_pos rfl]
      rcases List.mem_cons.mp hr with rfl | hr
      · rw [digitDepth_join_natToStr _ hkey.1, digitDepth_eq_zero hkey.2]
      · obtain ⟨r', hr', rfl⟩ := mem_under.mp hr
        rw [digitDepth_join_natToStr _ (join_ne_nil hvalue.1 _), digitDepth_join_name hvalue.2
          ((hn hflat).imp_left fun hs => eq_nil_of_mem_flatten hs hr')]
  | struct ser traits ms _ =>
    cases v <;> try (simp [flatten]; done)
    rename_i d
    intro p hp
    rw [flatten] at hp
    obtain ⟨q, hq, v, -, hp⟩ := mem_flattenMembers.mp hp
    obtain ⟨r, hr, rfl⟩ := mem_under.mp hp
    exact digitDepth_join_name (hl.self.2.1 q hq).1.2
      ((hn q hq).imp_left fun hs => eq_nil_of_mem_flatten hs hr)

/-! ## Distinct keys -/

theorem keys_under (n : Str) (ps : List (Str × Str)) :
    Dict.keys (under n ps) = (Dict.keys ps).map (join n) := by
  simp [Dict.keys, under]

theorem wf_under {n : Str} (hn : '.' ∉ n) {ps : List (Str × Str)} (h : Dict.WF ps) :
    Dict.WF (under n ps) := by
  rw [Dict.WF, keys_under]
  exact List.Nodup.map (fun k k' hk => (join_inj hn hn hk).2) h

theorem wf_append {ps qs : List (Str × Str)} (hp : Dict.WF ps) (hq : Dict.WF qs)
    (h : ∀ p ∈ ps, ∀ q ∈ qs, p.1 ≠ q.1) : Dict.WF (ps ++ qs) := by
  rw [Dict.WF, Dict.keys_append, List.nodup_append]
  refine ⟨hp, hq, fun k hk k' hk' => ?_⟩
  obtain ⟨p, hmem, rfl⟩ := List.mem_map.mp hk
  obtain ⟨q, hmem', rfl⟩ := List.mem_map.mp hk'
  exact h p hmem q hmem'

theorem wf_numbered {pss : List (List (Str × Str))} (h : ∀ ps ∈ pss, Dict.WF ps) (i : Nat) :
    Dict.WF (numbered i pss) := by
  induction pss generalizing i with
  | nil => exact Dict.wf_nil
  | cons ps pss ih =>
    rw [List.forall_mem_cons] at h
    refine wf_append (wf_under (natToStr_no_dot i) h.1) (ih h.2 (i + 1)) fun p hp q hq he => ?_
    obtain ⟨r, -, rfl⟩ := mem_under.mp hp
    obtain ⟨j, qs, -, hq⟩ := mem_numbered.mp hq
    obtain ⟨r', -, rfl⟩ := mem_under.mp hq
    have hi := natToStr_injective (join_inj (natToStr_no_dot _) (natToStr_no_dot _) he).1
    omega

theorem wf_level {ser : Serialization} {name : Str} (hname : '.' ∉ name) {ps : List (Str × Str)}
    (h : Dict.WF ps) : Dict.WF (level ser name ps) := by
  rw [level]
  split
  · exact h
  · exact wf_under hname h

theorem structure_key_ne {ser : Serialization} {traits : StructureTraits}
    {ms : List (Str × Shape)} (hl : Lawful N (.struct ser traits ms)) {p q : Str × Shape}
    (hp : p ∈ ms) (hq : q ∈ ms) (hne : p.1 ≠ q.1) (k k' : Str) :
    join (N.key p.1 p.2) k ≠ join (N.key q.1 q.2) k' := by
  intro h
  have hname := (join_inj (hl.2.1 p hp).1.2 (hl.2.1 q hq).1.2 h).1
  exact hl.2.2 p hp q hq hne (hname ▸ List.prefix_refl _)

/-- No parameter is given twice. -/
theorem wf_flatten {s : Shape} (hl : s.All (Lawful N)) (v : Value) : Dict.WF (flatten N s v) := by
  induction s using Shape.induct generalizing v with
  | scalar ser t => simp [flatten]
  | list ser m ih =>
    cases v <;> try (simp [flatten]; done)
    rw [flatten]
    refine wf_level hl.self.2 (wf_numbered (fun ps hps => ?_) 1)
    obtain ⟨v, -, rfl⟩ := List.mem_map.mp hps
    exact ih hl.list_member v
  | map ser key s ih =>
    cases v <;> try (simp [flatten]; done)
    rw [flatten]
    refine wf_level entry_isName.1.2 (wf_numbered (fun ps hps => ?_) 1)
    obtain ⟨p, -, rfl⟩ := List.mem_map.mp hps
    obtain ⟨hkey, hvalue, hnot, -⟩ := hl.self
    rw [Dict.wf_cons]
    refine ⟨fun hmem => ?_, wf_under hvalue.2 (ih hl.map_value p.2)⟩
    rw [keys_under] at hmem
    obtain ⟨k, -, hk⟩ := List.mem_map.mp hmem
    have hname := (join_inj hvalue.2 hkey.2 (hk.trans (join_nil _).symm)).1
    exact hnot (hname ▸ List.prefix_refl _)
  | struct ser traits ms ih =>
    cases v <;> try (simp [flatten]; done)
    rename_i d
    rw [flatten]
    have hsub : ∀ ms' : Dict Str Shape, ms'.WF → (∀ p ∈ ms', p ∈ ms) →
        Dict.WF (flattenMembers N ms' d) := by
      intro ms' hwf hms
      induction ms' with
      | nil => exact Dict.wf_nil
      | cons p ms' ih' =>
        obtain ⟨n, s⟩ := p
        rw [Dict.wf_cons] at hwf
        rw [List.forall_mem_cons] at hms
        rw [flattenMembers]
        rcases hv : Dict.get d n with _ | v
        · simpa [hv] using ih' hwf.2 hms.2
        · refine wf_append (wf_under (hl.self.2.1 _ hms.1).1.2
            (ih _ hms.1 (hl.struct_member _ hms.1) v)) (ih' hwf.2 hms.2) fun p hp q hq => ?_
          obtain ⟨r, -, rfl⟩ := mem_under.mp hp
          obtain ⟨m, hm, w, -, hq⟩ := mem_flattenMembers.mp hq
          obtain ⟨r', -, rfl⟩ := mem_under.mp hq
          refine structure_key_ne hl.self hms.1 (hms.2 m hm) (fun he => hwf.1 ?_) _ _
          exact List.mem_map.mpr ⟨m, hm, he.symm⟩
    exact hsub ms hl.self.1 fun _ hp => hp

/-! ## Values without parameters -/

theorem normMembers_all_isNone {required : List Str} {ms : List (Str × Shape)} {d : Dict Str Value} :
    (normMembers required ms d).all (·.2.isNone) = true ↔
      ∀ p ∈ ms, ∀ v, d.get p.1 = some v → norm p.2 v = .none := by
  induction ms with
  | nil => simp [normMembers]
  | cons p ms ih =>
    obtain ⟨n, s⟩ := p
    rw [List.forall_mem_cons, ← ih, normMembers]
    rcases hv : d.get n with _ | v
    · by_cases hr : n ∈ required <;> simp [hr, Value.isNone]
    · by_cases hnone : norm s v = .none
      · by_cases hr : n ∈ required <;> simp [hr, hnone, Value.isNone]
      · have hfalse : (norm s v).isNone = false := by
          rw [← Bool.not_eq_true, Value.isNone_iff]
          exact hnone
        simp [hfalse, hnone]

theorem norm_struct_eq_none {ser : Serialization} {traits : StructureTraits}
    {ms : List (Str × Shape)} {d : Dict Str Value} :
    norm (.struct ser traits ms) (.dict d) = .none ↔
      ∀ p ∈ ms, ∀ v, d.get p.1 = some v → norm p.2 v = .none := by
  rw [← @normMembers_all_isNone traits.required_members, norm]
  by_cases hall : (normMembers traits.required_members ms d).all (·.2.isNone) = true <;> simp [hall]

theorem under_eq_nil {n : Str} {ps : List (Str × Str)} : under n ps = [] ↔ ps = [] := by
  simp [under]

theorem level_eq_nil {ser : Serialization} {n : Str} {ps : List (Str × Str)} :
    level ser n ps = [] ↔ ps = [] := by
  rw [level]
  cases ser.flattened <;> simp [under_eq_nil]

theorem flattenMembers_eq_nil {ms : List (Str × Shape)} {d : Dict Str Value} :
    flattenMembers N ms d = [] ↔ ∀ p ∈ ms, ∀ v, d.get p.1 = some v → flatten N p.2 v = [] := by
  induction ms with
  | nil => simp [flattenMembers]
  | cons p ms ih =>
    obtain ⟨n, s⟩ := p
    rw [flattenMembers, List.append_eq_nil_iff, ih, List.forall_mem_cons]
    cases d.get n <;> simp [under_eq_nil]

theorem typed_ne_none {s : Shape} {v : Value} (h : Typed formValues s v) : v ≠ .none := by
  have hnone := h.isNone_eq_false fun _ t ht => by cases t <;> exact ht
  rintro rfl
  cases hnone

/-- A value without parameters is the same as none. -/
theorem flatten_eq_nil_iff {s : Shape} {v : Value} (h : Typed formValues s v) (hl : s.All (Lawful N)) :
    flatten N s v = [] ↔ norm s v = .none := by
  induction h with
  | @scalar ser t v hv =>
    have hne := typed_ne_none (@Typed.scalar _ ser t v hv)
    cases v <;> simp_all [flatten, norm]
  | @list ser m vs _ helement _ ih =>
    cases vs with
    | nil => simp [flatten, numbered, level_eq_nil, norm]
    | cons v vs =>
      have hv : flatten N m v ≠ [] := fun h =>
        helement v List.mem_cons_self ((ih v List.mem_cons_self hl.list_member).mp h)
      simp [flatten, numbered, level_eq_nil, under_eq_nil, norm, hv]
  | @map ser key s d _ _ _ _ _ _ =>
    cases d with
    | nil => simp [flatten, numbered, level_eq_nil, norm]
    | cons p d => simp [flatten, numbered, level_eq_nil, under_eq_nil, norm]
  | @struct ser traits ms d _ _ _ _ _ hnone hmem ih =>
    rw [flatten, flattenMembers_eq_nil, norm_struct_eq_none]
    refine forall₂_congr fun p hp => forall₂_congr fun v hv => ?_
    exact ih p.1 p.2 v (Dict.get_of_mem hl.self.1 hp) hv (fun hn => hnone p.1 (hn ▸ hv))
      (hl.struct_member p hp)

end LocalStack.Aws.Protocol.Query
