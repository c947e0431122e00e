import LocalStack.Lib.Fields
import LocalStack.Lib.FloatText
import LocalStack.Lib.OrderedDict

/-! `assign_to_path` and `extract_from_jsonpointer_path` of `utils/json.py`. The reader
returns an object inside the target, which the writer then changes in place; here the
change is passed down to the place that is reached. -/

namespace LocalStack.Utils.JsonPath
open LocalStack.Fields LocalStack.FloatText LocalStack.OrderedDict LocalStack.Text

/-! ## The functions -/

inductive Key
  | str (s : Str)
  | int (i : Int)
  deriving DecidableEq, Repr

/-- A JSON-like value; `σ` are the values that are neither `None` nor a container. -/
inductive Json (σ : Type)
  | null
  | scalar (value : σ)
  | list (items : List (Json σ))
  | dict (entries : List (Key × Json σ))

inductive Raised
  | valueError
  | typeError
  | indexError
  | overflowError
  | attributeError
  deriving DecidableEq, Repr

variable {σ β : Type}

def Json.isNull : Json σ → Bool
  | .null => true
  | _ => false

def Json.isDict : Json σ → Bool
  | .dict _ => true
  | _ => false

def is_number (s : Str) : Bool := isFloat s

/-- `int(part)` of what looks like a number, and else the text. -/
def keyOf (text : Str → Str) (part : Str) : Except Raised Key :=
  if is_number part = true then
    match IntText.int part with
    | some i => .ok (.int i)
    | none => .error .valueError
  else .ok (.str (text part))

def path_part (part : Str) : Except Raised Key := keyOf id part

def path_end (part : Str) : Except Raised Key := keyOf (replace "~1".toList "/".toList) part

/-- The position in a list of some length that an index stands for. -/
def position (length : Nat) (i : Int) : Option Nat :=
  let j := if i < 0 then i + length else i
  if 0 ≤ j ∧ j < length then some j.toNat else none

/-- `float(i)` raises an OverflowError. -/
def overflows (i : Int) : Bool := Nat.pow 2 1024 - Nat.pow 2 970 ≤ i.natAbs

/-- What one turn of the reader's loop finds. -/
inductive Found (σ : Type)
  /-- `-` in a list: the loop continues with the same target -/
  | again
  /-- another text in a list: the result is `None` -/
  | nowhere
  /-- `target_new`, which is `null` when there is nothing -/
  | item (key : Key) (target_new : Json σ)

def look (target : Json σ) (part : Str) : Except Raised (Found σ) :=
  match path_part part with
  | .error e => .error e
  | .ok key =>
    match target, key with
    | .list _, .str s => .ok (if s = "-".toList then .again else .nowhere)
    | .list items, .int i =>
      if overflows i = true then .error .overflowError
      else match (position items.length i).bind (items[·]?) with
        | some target_new => .ok (.item key target_new)
        | none => .error .indexError
    | .dict entries, key => .ok (.item key ((Dict.get entries key).getD .null))
    | _, _ => .error .attributeError

/-- `target[key] = value` where `key` has been looked up. -/
def Json.put (target : Json σ) (key : Key) (value : Json σ) : Json σ :=
  match target, key with
  | .dict entries, key => .dict (Dict.set entries key value)
  | .list items, .int i =>
    match position items.length i with
    | some j => .list (items.set j value)
    | none => target
  | _, _ => target

/-- The reader's loop, with what is then done to the object that it returns. -/
def visit (auto_create : Bool) (act : Json σ → Json σ × Except Raised β) :
    List Str → Json σ → Json σ × Except Raised β
  | [], target => act target
  | part :: parts, target =>
    match look target part with
    | .error e => (target, .error e)
    | .ok .again => visit auto_create act parts target
    | .ok .nowhere => (target, (act .null).2)
    | .ok (.item key target_new) =>
      if target_new.isNull = true then
        if auto_create = true then
          let (created, result) := visit auto_create act parts (.dict [])
          (target.put key created, result)
        else (target, (act .null).2)
      else
        let (changed, result) := visit auto_create act parts target_new
        (target.put key changed, result)

/-- The parts of a path, without delimiters at its ends. -/
def partsOf (path : Str) (delimiter : Char) : List Str := (strip delimiter path).splitOn delimiter

def extract_from_jsonpointer_path (target : Json σ) (path : Str) (delimiter : Char)
    (auto_create : Bool) (act : Json σ → Json σ × Except Raised β) : Json σ × Except Raised β :=
  visit auto_create act (partsOf path delimiter) target

/-- `extract_from_jsonpointer_path(target, path, delimiter)` of a caller that only reads. -/
def extract (target : Json σ) (path : Str) (delimiter : Char) : Except Raised (Json σ) :=
  (extract_from_jsonpointer_path target path delimiter false fun found => (found, .ok found)).2

/-- `target[part] = value`. -/
def setFirst (part : Str) (value : Json σ) : Json σ → Json σ × Except Raised Bool
  | .dict entries => (.dict (Dict.set entries (.str part) value), .ok true)
  | target => (target, .error .typeError)

/-- `parent[path_end] = value`; the result says whether the target is returned. -/
def setEnd (part : Str) (value : Json σ) : Json σ → Json σ × Except Raised Bool
  | .dict entries =>
    match path_end part with
    | .error e => (.dict entries, .error e)
    | .ok key => (.dict (Dict.set entries key value), .ok true)
  | parent => (parent, .ok false)

def assign_to_path (target : Json σ) (path : Str) (value : Json σ) (delimiter : Char) :
    Json σ × Except Raised Bool :=
  match partsOf path delimiter with
  | [part] => setFirst part value target
  | parts =>
    let path_to_parent := [delimiter].intercalate parts.dropLast
    extract_from_jsonpointer_path target path_to_parent delimiter true
      (setEnd (parts.getLastD []) value)

/-! ## Paths -/

/-- A path of parts that are not empty and contain no delimiter. -/
structure Path (delimiter : Char) where
  parts : List Str
  parts_ne : parts ≠ []
  clean : ∀ part ∈ parts, part ≠ [] ∧ delimiter ∉ part

def Path.parents {delimiter : Char} (path : Path delimiter) : List Str := path.parts.dropLast

def Path.last {delimiter : Char} (path : Path delimiter) : Str := path.parts.getLast path.parts_ne

def Path.text {delimiter : Char} (path : Path delimiter) : Str :=
  [delimiter].intercalate path.parts

theorem Path.parents_append_last {delimiter : Char} (path : Path delimiter) :
    path.parents ++ [path.last] = path.parts := List.dropLast_append_getLast path.parts_ne

theorem Path.mem_of_mem_parents {delimiter : Char} (path : Path delimiter) {part : Str}
    (h : part ∈ path.parents) : part ∈ path.parts := List.dropLast_subset _ h

theorem partsOf_join {delimiter : Char} {parts : List Str} (hne : parts ≠ [])
    (clean : ∀ part ∈ parts, part ≠ [] ∧ delimiter ∉ part) :
    partsOf (join delimiter parts) delimiter = parts := by
  rw [partsOf, strip_of_ends (head?_join_ne clean) (getLast?_join_ne clean)]
  exact splitOn_join hne fun part hp => (clean part hp).2

theorem Path.partsOf_text {delimiter : Char} (path : Path delimiter) :
    partsOf path.text delimiter = path.parts := partsOf_join path.parts_ne path.clean

/-! ## What is read -/

/-- What the reader returns when nothing is created. -/
def read (parts : List Str) (target : Json σ) : Except Raised (Json σ) :=
  (visit false (fun found => (found, .ok found)) parts target).2

theorem extract_text {delimiter : Char} (target : Json σ) (path : Path delimiter) :
    extract target path.text delimiter = read path.parts target := by
  rw [extract, extract_from_jsonpointer_path, path.partsOf_text, read]

@[simp] theorem read_nil (target : Json σ) : read [] target = .ok target := rfl

theorem read_cons (part : Str) (parts : List Str) (target : Json σ) :
    read (part :: parts) target = match look target part with
      | .error e => .error e
      | .ok .again => read parts target
      | .ok .nowhere => .ok .null
      | .ok (.item _ target_new) =>
        if target_new.isNull = true then .ok .null else read parts target_new := by
  rw [read, visit]
  rcases look target part with e | _ | _ | ⟨key, target_new⟩
  · rfl
  · rfl
  · rfl
  · by_cases hnull : target_new.isNull = true
    · simp only [hnull, if_true, Bool.false_eq_true, if_false]
    · simp only [hnull, Bool.false_eq_true, if_false, read]

/-- Parts that stand for the same key are read in the same way. -/
theorem look_congr {part part' : Str} (h : path_part part = path_part part') (target : Json σ) :
    look target part = look target part' := by
  rw [look, look, h]

theorem read_congr {part part' : Str} (h : path_part part = path_part part')
    (before after : List Str) (target : Json σ) :
    read (before ++ part :: after) target = read (before ++ part' :: after) target := by
  induction before generalizing target with
  | nil => rw [List.nil_append, List.nil_append, read_cons, read_cons, look_congr h]
  | cons first before ih =>
    rw [List.cons_append, List.cons_append, read_cons, read_cons]
    simp only [ih]

theorem path_part_of_not_number {part : Str} (h : is_number part = false) :
    path_part part = .ok (.str part) := by
  rw [path_part, keyOf, if_neg (by rw [h]; exact Bool.false_ne_true), id]

theorem path_part_of_number {part : Str} (h : is_number part = true) :
    path_part part = match IntText.int part with
      | some i => .ok (.int i)
      | none => .error .valueError := by
  rw [path_part, keyOf, if_pos h]

theorem path_part_ne_str {part s : Str} (h : part ≠ s) : path_part part ≠ .ok (.str s) := by
  by_cases hn : is_number part = true
  · rw [path_part_of_number hn]
    cases IntText.int part <;> simp
  · rw [path_part_of_not_number (Bool.eq_false_of_not_eq_true hn)]
    simpa using h

theorem look_error {part : Str} {e : Raised} (h : path_part part = .error e)
    (target : Json σ) : look target part = .error e := by
  rw [look, h]

theorem look_dict {part : Str} {key : Key} (h : path_part part = .ok key)
    (entries : Dict Key (Json σ)) :
    look (.dict entries) part = .ok (.item key ((entries.get key).getD .null)) := by
  rw [look, h]

/-! ## Where a parent is -/

/-- A part that does not look like a number, or is the index of an item. -/
def HasIndex (items : List (Json σ)) (part : Str) : Prop :=
  is_number part = false ∨ ∃ i, IntText.int part = some i ∧ overflows i = false ∧
    (position items.length i).isSome = true

/-- The parts lead to a list, or end in one at a part that is no index; the last part can
be looked up where they lead. -/
def Blocked (last : Str) : List Str → Json σ → Prop
  | [], .list items => HasIndex items last
  | [], _ => False
  | part :: parts, target =>
    match look target part with
    | .error _ => False
    | .ok .again => Blocked last parts target
    | .ok .nowhere => True
    | .ok (.item _ target_new) => target_new.isNull = false ∧ Blocked last parts target_new

/-- The parts lead through dictionaries to a dictionary, and none looks like a number. -/
def DictAt : List Str → Json σ → Prop
  | [], target => target.isDict = true
  | part :: parts, target => is_number part = false ∧
    ∃ entries target_new, target = .dict entries ∧
      Dict.get entries (.str part) = some target_new ∧ DictAt parts target_new

theorem DictAt.not_null {parts : List Str} {target : Json σ} (h : DictAt parts target) :
    target.isNull = false := by
  cases parts with
  | nil => cases target <;> first | rfl | exact absurd h Bool.false_ne_true
  | cons part parts =>
    obtain ⟨-, entries, -, rfl, -⟩ := h
    rfl

/-- What was found is put back. -/
theorem put_look {target target_new : Json σ} {part : Str} {key : Key}
    (h : look target part = .ok (.item key target_new)) (hn : target_new.isNull = false) :
    target.put key target_new = target := by
  cases hp : path_part part with
  | error e =>
    rw [look_error hp] at h
    cases h
  | ok k =>
    cases target with
    | null | scalar =>
      rw [look, hp] at h
      cases h
    | dict entries =>
      rw [look_dict hp] at h
      cases h
      cases hget : Dict.get entries key with
      | none =>
        rw [hget] at hn
        cases hn
      | some x =>
        rw [Option.getD_some, Json.put, Dict.set_of_get hget]
    | list items =>
      rw [look, hp] at h
      cases k with
      | str s =>
        dsimp only at h
        split at h <;> cases h
      | int i =>
        dsimp only at h
        split at h
        · cases h
        · split at h
          · next x hx =>
            cases h
            obtain ⟨j, hj, hget⟩ := Option.bind_eq_some_iff.mp hx
            obtain ⟨hlt, hget⟩ := List.getElem?_eq_some_iff.mp hget
            rw [Json.put, hj, ← hget]
            exact congrArg Json.list (List.set_getElem_self hlt)
          · cases h

theorem position_lt {length : Nat} {i : Int} {j : Nat} (h : position length i = some j) :
    j < length := by
  rw [position] at h
  by_cases hj : 0 ≤ (if i < 0 then i + length else i) ∧ (if i < 0 then i + length else i) < length
  · simp only [hj, if_true, and_self, Option.some.injEq] at h
    omega
  · simp only [hj, if_false] at h
    cases h

theorem look_list_ok_iff (items : List (Json σ)) (part : Str) :
    (∃ found, look (.list items) part = .ok found) ↔ HasIndex items part := by
  by_cases hn : is_number part = true
  · rw [HasIndex, hn, or_iff_right (fun h => Bool.false_ne_true h.symm), look,
      path_part_of_number hn]
    cases hi : IntText.int part with
    | none => simp
    | some i =>
      by_cases ho : overflows i = true
      · simp [ho]
      · cases hj : position items.length i with
        | none => simp [ho, hj]
        | some j => simp [ho, hj, List.getElem?_eq_getElem (position_lt hj)]
  · have hn := Bool.eq_false_of_not_eq_true hn
    rw [look, path_part_of_not_number hn]
    exact iff_of_true ⟨_, rfl⟩ (.inl hn)

/-- A walk that is blocked changes nothing. -/
theorem visit_blocked {act : Json σ → Json σ × Except Raised Bool}
    (hact : ∀ t, t.isDict = false → act t = (t, .ok false)) {parts : List Str} {target : Json σ}
    {last : Str} (h : Blocked last parts target) :
    visit true act parts target = (target, .ok false) := by
  induction parts generalizing target with
  | nil =>
    cases target with
    | list items => exact hact _ rfl
    | _ => cases h
  | cons part parts ih =>
    rw [visit]
    rw [Blocked] at h
    cases hlook : look target part with
    | error e =>
      rw [hlook] at h
      exact absurd h id
    | ok found =>
      rw [hlook] at h
      rcases found with _ | _ | ⟨key, target_new⟩
      · exact ih h
      · dsimp only
        rw [hact .null rfl]
      · obtain ⟨hnull, hblocked⟩ := h
        dsimp only
        rw [if_neg (by rw [hnull]; exact Bool.false_ne_true), ih hblocked, put_look hlook hnull]

/-- What is behind such a walk is read without an error. -/
theorem read_blocked {parts : List Str} {target : Json σ} {last : Str}
    (h : Blocked last parts target) : ∃ found, read (parts ++ [last]) target = .ok found := by
  induction parts generalizing target with
  | nil =>
    cases target with
    | list items =>
      obtain ⟨found, hlook⟩ := (look_list_ok_iff items last).mpr h
      rw [List.nil_append, read_cons, hlook]
      rcases found with _ | _ | ⟨key, target_new⟩
      · exact ⟨_, rfl⟩
      · exact ⟨_, rfl⟩
      · dsimp only
        split <;> exact ⟨_, rfl⟩
    | _ => cases h
  | cons part parts ih =>
    rw [List.cons_append, read_cons]
    rw [Blocked] at h
    cases hlook : look target part with
    | error e =>
      rw [hlook] at h
      exact absurd h id
    | ok found =>
      rw [hlook] at h
      rcases found with _ | _ | ⟨key, target_new⟩
      · exact ih h
      · exact ⟨_, rfl⟩
      · dsimp only
        rw [if_neg (by rw [h.1]; exact Bool.false_ne_true)]
        exact ih h.2

/-! ## Writing into a dictionary that is there -/

/-- `act` sets one key of a dictionary. -/
def Sets (act : Json σ → Json σ × Except Raised Bool) (key : Key) (value : Json σ) : Prop :=
  ∀ entries, act (.dict entries) = (.dict (Dict.set entries key value), .ok true)

/-- A path that leaves the way to the key, or reaches the parent and takes another key. -/
def Misses (key : Key) : List Str → List Str → Prop
  | _, [] => False
  | [], part' :: _ => path_part part' ≠ .ok key
  | part :: parts, part' :: parts' => part ≠ part' ∨ Misses key parts parts'

section Writing
variable {act : Json σ → Json σ × Except Raised Bool} {key : Key} {value : Json σ}
  {parts : List Str} {target : Json σ}

/-- One step on the way to the parent. -/
theorem visit_dict {part : Str} {entries : Dict Key (Json σ)} {target_new : Json σ}
    (hp : is_number part = false) (hget : Dict.get entries (.str part) = some target_new)
    (hn : target_new.isNull = false) :
    visit true act (part :: parts) (.dict entries) =
      (.dict (Dict.set entries (.str part) (visit true act parts target_new).1),
        (visit true act parts target_new).2) := by
  rw [visit, look_dict (path_part_of_not_number hp), hget, Option.getD_some]
  dsimp only
  rw [if_neg (by rw [hn]; exact Bool.false_ne_true)]
  rfl

theorem visit_dictAt_ok (hact : Sets act key value) (h : DictAt parts target) :
    (visit true act parts target).2 = .ok true := by
  induction parts generalizing target with
  | nil =>
    cases target with
    | dict entries => rw [visit, hact]
    | _ => cases h
  | cons part parts ih =>
    obtain ⟨hp, entries, target_new, rfl, hget, h⟩ := h
    rw [visit_dict hp hget h.not_null]
    exact ih h

/-- The target is still no `None`. -/
theorem visit_dictAt_not_null (hact : Sets act key value) (h : DictAt parts target) :
    (visit true act parts target).1.isNull = false := by
  cases parts with
  | nil =>
    cases target with
    | dict entries => rw [visit, hact]; rfl
    | _ => cases h
  | cons part parts =>
    obtain ⟨hp, entries, target_new, rfl, hget, h⟩ := h
    rw [visit_dict hp hget h.not_null]
    rfl

/-- Reading below one key of a dictionary. -/
theorem read_dict {part : Str} {k : Key} {entries : Dict Key (Json σ)} {x : Json σ}
    (hp : path_part part = .ok k) (hget : Dict.get entries k = some x) (hn : x.isNull = false)
    (parts : List Str) : read (part :: parts) (.dict entries) = read parts x := by
  rw [read_cons, look_dict hp, hget, Option.getD_some]
  dsimp only
  rw [if_neg (by rw [hn]; exact Bool.false_ne_true)]

/-- The value is read at its key. -/
theorem read_visit_self (hact : Sets act key value) (h : DictAt parts target) {part : Str}
    (hp : path_part part = .ok key) (hv : value.isNull = false) :
    read (parts ++ [part]) (visit true act parts target).1 = .ok value := by
  induction parts generalizing target with
  | nil =>
    cases target with
    | dict entries =>
      rw [visit, hact, List.nil_append, read_dict hp (Dict.get_set_self _ _ _) hv, read_nil]
    | _ => cases h
  | cons first parts ih =>
    obtain ⟨hfirst, entries, target_new, rfl, hget, h⟩ := h
    rw [visit_dict hfirst hget h.not_null, List.cons_append,
      read_dict (path_part_of_not_number hfirst) (Dict.get_set_self _ _ _)
        (visit_dictAt_not_null hact h)]
    exact ih h

/-- Other keys of one dictionary. -/
theorem read_set_ne {part : Str} {k : Key} (hp : path_part part ≠ .ok k)
    (entries : Dict Key (Json σ)) (x : Json σ) (parts : List Str) :
    read (part :: parts) (.dict (Dict.set entries k x)) = read (part :: parts) (.dict entries) := by
  rw [read_cons, read_cons]
  cases hpart : path_part part with
  | error e => rw [look_error hpart, look_error hpart]
  | ok k' =>
    have hne : k ≠ k' := by
      rintro rfl
      exact hp hpart
    rw [look_dict hpart, look_dict hpart, Dict.get_set_ne _ _ hne]

/-- Every path that misses the key reads what it did before. -/
theorem read_visit_misses (hact : Sets act key value) (h : DictAt parts target)
    {other : List Str} (hm : Misses key parts other) :
    read other (visit true act parts target).1 = read other target := by
  induction parts generalizing target other with
  | nil =>
    cases other with
    | nil => cases hm
    | cons part' parts' =>
      cases target with
      | dict entries =>
        rw [visit, hact]
        exact read_set_ne hm entries value parts'
      | _ => cases h
  | cons part parts ih =>
    obtain ⟨hp, entries, target_new, rfl, hget, h⟩ := h
    rw [visit_dict hp hget h.not_null]
    cases other with
    | nil => cases hm
    | cons part' parts' =>
      by_cases hpart : part = part'
      · subst hpart
        rw [read_dict (path_part_of_not_number hp) (Dict.get_set_self _ _ _)
          (visit_dictAt_not_null hact h), read_dict (path_part_of_not_number hp) hget h.not_null]
        exact ih h (hm.resolve_left (not_not_intro rfl))
      · exact read_set_ne (path_part_ne_str (Ne.symm hpart)) _ _ _

end Writing

/-! ## Writing in general -/

section Acting
variable {act : Json σ → Json σ × Except Raised Bool} {parts : List Str} {target : Json σ}

/-- A target that has been created is never given up. -/
theorem visit_empty_ne_false (hact : ∀ t, t.isDict = true → (act t).2 ≠ .ok false)
    (parts : List Str) : (visit true act parts (.dict [])).2 ≠ .ok false := by
  induction parts with
  | nil => exact hact _ rfl
  | cons part parts ih =>
    rw [visit]
    cases hp : path_part part with
    | error e => rw [look_error hp]; simp
    | ok key =>
      rw [look_dict hp]
      simpa [Json.isNull] using ih

/-- The target is only given up where the walk is blocked. -/
theorem blocked_of_visit (hact : ∀ t, t.isDict = true → (act t).2 ≠ .ok false) {last : Str}
    {found : Json σ} (h : (visit true act parts target).2 = .ok false)
    (hread : read (parts ++ [last]) target = .ok found) : Blocked last parts target := by
  induction parts generalizing target with
  | nil =>
    cases target with
    | dict entries => exact absurd h (hact _ rfl)
    | list items =>
      refine (look_list_ok_iff items last).mp ?_
      rw [List.nil_append, read_cons] at hread
      cases hlook : look (.list items) last with
      | error e =>
        rw [hlook] at hread
        cases hread
      | ok found => exact ⟨found, rfl⟩
    | null | scalar =>
      rw [List.nil_append, read_cons, look] at hread
      cases hp : path_part last <;> rw [hp] at hread <;> cases hread
  | cons part parts ih =>
    rw [visit] at h
    rw [List.cons_append, read_cons] at hread
    rw [Blocked]
    cases hlook : look target part with
    | error e =>
      rw [hlook] at h
      cases h
    | ok found =>
      rw [hlook] at h hread
      rcases found with _ | _ | ⟨key, target_new⟩
      · exact ih h hread
      · trivial
      · by_cases hnull : target_new.isNull = true
        · simp only [hnull, if_true] at h
          exact absurd h (visit_empty_ne_false hact parts)
        · simp only [hnull, if_false, Bool.false_eq_true] at h hread
          exact ⟨Bool.eq_false_of_not_eq_true hnull, ih h hread⟩

variable (hact : ∀ t, (act t).2 = .ok true → t.isDict = true ∧ (act t).1.isDict = true)
  (hplain : ∀ part ∈ parts, is_number part = false)
include hact hplain

/-- Without numbers a walk to a dictionary starts at one. -/
theorem isDict_of_visit (h : (visit true act parts target).2 = .ok true) :
    target.isDict = true := by
  induction parts generalizing target with
  | nil => exact (hact target h).1
  | cons part parts ih =>
    rw [List.forall_mem_cons] at hplain
    rw [visit, look, path_part_of_not_number hplain.1] at h
    cases target with
    | dict entries => rfl
    | null | scalar => cases h
    | list items =>
      by_cases hs : part = "-".toList
      · simp only [hs, if_true] at h
        exact absurd (ih hplain.2 h) Bool.false_ne_true
      · simp only [hs, if_false] at h
        exact absurd (hact .null h).1 Bool.false_ne_true

/-- One turn of a walk to a dictionary without numbers: the next target is there or is
created, and is put back. -/
theorem visit_cons_of_ok {part : Str} (hp : is_number part = false)
    (h : (visit true act (part :: parts) target).2 = .ok true) :
    ∃ entries next, target = .dict entries ∧ (visit true act parts next).2 = .ok true ∧
      (visit true act (part :: parts) target).1 =
        .dict (Dict.set entries (.str part) (visit true act parts next).1) ∧
      (Dict.get entries (.str part) = some next ∧ next.isNull = false ∨
        ((Dict.get entries (.str part)).getD .null).isNull = true) := by
  have hdict := isDict_of_visit hact (List.forall_mem_cons.mpr ⟨hp, hplain⟩) h
  cases target with
  | null | scalar | list => cases hdict
  | dict entries =>
    rw [visit, look_dict (path_part_of_not_number hp)] at h ⊢
    by_cases hnull : ((Dict.get entries (.str part)).getD .null).isNull = true
    · simp only [hnull, if_true] at h ⊢
      exact ⟨entries, .dict [], rfl, h, rfl, .inr hnull⟩
    · simp only [hnull, if_false, Bool.false_eq_true] at h ⊢
      cases hget : Dict.get entries (.str part) with
      | none =>
        rw [hget] at hnull
        exact absurd rfl hnull
      | some next =>
        rw [hget] at h hnull
        exact ⟨entries, next, rfl, h, rfl, .inl ⟨hget, Bool.eq_false_of_not_eq_true hnull⟩⟩

/-- Below the parent that has been written to, a part that raises does so. -/
theorem read_visit_error {bad : Str} {e : Raised} (hbad : path_part bad = .error e)
    (h : (visit true act parts target).2 = .ok true) :
    (visit true act parts target).1.isDict = true ∧
      read (parts ++ [bad]) (visit true act parts target).1 = .error e := by
  induction parts generalizing target with
  | nil =>
    refine ⟨(hact target h).2, ?_⟩
    rw [List.nil_append, read_cons, look_error hbad]
  | cons part parts ih =>
    rw [List.forall_mem_cons] at hplain
    obtain ⟨entries, next, -, hnext, hchanged, -⟩ := visit_cons_of_ok hact hplain.2 hplain.1 h
    obtain ⟨hdict, hread⟩ := ih hplain.2 hnext
    have hnull : (visit true act parts next).1.isNull = false := by
      cases hv : (visit true act parts next).1 <;> rw [hv] at hdict <;> first | rfl | cases hdict
    rw [hchanged]
    refine ⟨rfl, ?_⟩
    rw [List.cons_append, read_dict (path_part_of_not_number hplain.1) (Dict.get_set_self _ _ _)
      hnull, hread]

/-- Before that there was nothing, unless all parents were there. -/
theorem dictAt_or_read (bad : Str) (h : (visit true act parts target).2 = .ok true) :
    DictAt parts target ∨ read (parts ++ [bad]) target = .ok .null := by
  induction parts generalizing target with
  | nil => exact .inl (hact target h).1
  | cons part parts ih =>
    rw [List.forall_mem_cons] at hplain
    obtain ⟨entries, next, rfl, hnext, -, hget⟩ := visit_cons_of_ok hact hplain.2 hplain.1 h
    have hp := path_part_of_not_number hplain.1
    rw [List.cons_append]
    rcases hget with ⟨hget, hnull⟩ | hnull
    · rw [read_dict hp hget hnull]
      rcases ih hplain.2 hnext with hat | hread
      · exact .inl ⟨hplain.1, entries, next, rfl, hget, hat⟩
      · exact .inr hread
    · right
      rw [read_cons, look_dict hp]
      dsimp only
      rw [if_pos hnull]

end Acting

/-! ## Assignment and extraction -/

section Assignment
variable {delimiter : Char}

/-- The value is at the path, and only paths above and below it have changed. -/
structure Assigned (target target' : Json σ) (path : Path delimiter) (value : Json σ) : Prop where
  reads : extract target' path.text delimiter = .ok value
  frame : ∀ other : Path delimiter, ¬path.parts <+: other.parts → ¬other.parts <+: path.parts →
    extract target' other.text delimiter = extract target other.text delimiter

/-- Neither function raises, and the value is assigned or the target is as it was. -/
def Agrees (target : Json σ) (path : Path delimiter) : Prop :=
  ∀ value : Json σ, value.isNull = false → ∃ target' returned found,
    assign_to_path target path.text value delimiter = (target', .ok returned) ∧
    extract target' path.text delimiter = .ok found ∧
    (returned = true → Assigned target target' path value) ∧
    (returned = false → target' = target)

/-- What is done at the parent. -/
def writer (parents : List Str) (last : Str) (value : Json σ) :
    Json σ → Json σ × Except Raised Bool :=
  if parents = [] then setFirst last value else setEnd last value

theorem assign_text (path : Path delimiter) (target value : Json σ) :
    assign_to_path target path.text value delimiter =
      visit true (writer path.parents path.last value) path.parents target := by
  rw [assign_to_path, path.partsOf_text, ← path.parents_append_last]
  cases hparents : path.parents with
  | nil => rw [List.nil_append, writer, if_pos rfl, visit]
  | cons first parents =>
    have hclean : ∀ part ∈ first :: parents, part ≠ [] ∧ delimiter ∉ part := fun part hp =>
      path.clean part (path.mem_of_mem_parents (hparents ▸ hp))
    have hlast : (first :: parents ++ [path.last]).getLastD [] = path.last :=
      List.getLastD_concat ..
    split
    · next part heq => simp at heq
    · have hsplit : partsOf ([delimiter].intercalate (first :: parents)) delimiter =
          first :: parents := partsOf_join (List.cons_ne_nil _ _) hclean
      rw [List.dropLast_concat, hlast, extract_from_jsonpointer_path, hsplit, writer,
        if_neg (List.cons_ne_nil _ _)]

theorem path_end_of_not_number {part : Str} (h : is_number part = false) :
    path_end part = .ok (.str (replace "~1".toList "/".toList part)) := by
  rw [path_end, keyOf, if_neg (by rw [h]; exact Bool.false_ne_true)]

/-- The key that is written. -/
def writtenKey (parents : List Str) (last : Str) : Key :=
  if parents = [] then .str last else .str (replace "~1".toList "/".toList last)

theorem writer_sets (parents : List Str) {last : Str} (h : is_number last = false)
    (value : Json σ) : Sets (writer parents last value) (writtenKey parents last) value := by
  intro entries
  by_cases hp : parents = []
  · rw [writer, writtenKey, if_pos hp, if_pos hp, setFirst]
  · rw [writer, writtenKey, if_neg hp, if_neg hp, setEnd, path_end_of_not_number h]

/-- The writer and the reader mean the same key. -/
theorem writtenKey_eq_iff (parents : List Str) (last : Str) :
    writtenKey parents last = .str last ↔ parents = [] ∨ ¬"~1".toList <:+: last := by
  by_cases hp : parents = []
  · simp [writtenKey, hp]
  · rw [writtenKey, if_neg hp, or_iff_right hp, Key.str.injEq]
    constructor
    · intro heq hin
      have hlt := @length_replace_lt _ "/".toList _ (by decide) hin
      rw [heq] at hlt
      exact absurd hlt (Nat.lt_irrefl _)
    · exact replace_of_not_infix _

theorem writer_ok {parents : List Str} {last : Str} {value t : Json σ}
    (h : (writer parents last value t).2 = .ok true) :
    t.isDict = true ∧ (writer parents last value t).1.isDict = true := by
  by_cases hp : parents = []
  · rw [writer, if_pos hp] at h ⊢
    cases t with
    | dict entries => exact ⟨rfl, rfl⟩
    | _ => cases h
  · rw [writer, if_neg hp] at h ⊢
    cases t with
    | dict entries =>
      refine ⟨rfl, ?_⟩
      rw [setEnd]
      cases path_end last <;> rfl
    | _ => cases h

theorem writer_not_false {parents : List Str} {last : Str} {value t : Json σ}
    (ht : t.isDict = true) : (writer parents last value t).2 ≠ .ok false := by
  cases t with
  | dict entries =>
    rw [writer]
    split
    · simp [setFirst]
    · rw [setEnd]
      split <;> simp
  | _ => cases ht

/-- A path that is neither above nor below another one leaves it or takes another key. -/
theorem misses_of_apart {parents other : List Str} {last : Str}
    (hbelow : ¬parents ++ [last] <+: other) (habove : ¬other <+: parents ++ [last]) :
    Misses (.str last) parents other := by
  induction parents generalizing other with
  | nil =>
    cases other with
    | nil => exact absurd (List.nil_prefix) habove
    | cons part' parts' =>
      apply path_part_ne_str
      rintro rfl
      exact hbelow (List.cons_prefix_cons.mpr ⟨rfl, List.nil_prefix⟩)
  | cons part parents ih =>
    cases other with
    | nil => exact absurd (List.nil_prefix) habove
    | cons part' parts' =>
      by_cases hp : part = part'
      · subst hp
        rw [List.cons_append, List.cons_prefix_cons] at hbelow habove
        exact .inr (ih (fun h => hbelow ⟨rfl, h⟩) fun h => habove ⟨rfl, h⟩)
      · exact .inl hp

theorem misses_self {key : Key} {parents : List Str} {last : Str}
    (h : path_part last ≠ .ok key) : Misses key parents (parents ++ [last]) := by
  induction parents with
  | nil => exact h
  | cons part parents ih => exact .inr ih

/-- A path with another spelling of one number. -/
theorem exists_alias (path : Path delimiter) {part : Str} (hpart : part ∈ path.parts)
    (hn : is_number part = true) : ∃ other : Path delimiter,
      ¬path.parts <+: other.parts ∧ ¬other.parts <+: path.parts ∧
      ∀ target : Json σ, read other.parts target = read path.parts target := by
  obtain ⟨c, hc, hlt, hspace⟩ : ∃ c : Char, delimiter ≠ c ∧ c.toNat < 127 ∧
      Decimal.isSpace c = true := by
    by_cases hd : delimiter = ' '
    · subst hd
      exact ⟨'\t', by decide, by decide, by decide⟩
    · exact ⟨' ', hd, by decide, by decide⟩
  obtain ⟨before, after, hsplit⟩ := List.append_of_mem hpart
  have hkey : path_part (c :: part) = path_part part := by
    have hn' : is_number (c :: part) = true := (congrArg Option.isSome (float_cons hlt hspace part)).trans hn
    rw [path_part_of_number hn, path_part_of_number hn', int_cons hlt hspace]
  have hlen : (before ++ (c :: part) :: after).length = path.parts.length := by
    rw [hsplit, List.length_append, List.length_append, List.length_cons, List.length_cons]
  have hne : before ++ (c :: part) :: after ≠ path.parts := by
    intro heq
    rw [hsplit, List.append_cancel_left_eq, List.cons.injEq] at heq
    exact List.cons_ne_self c part heq.1
  refine ⟨⟨before ++ (c :: part) :: after, by simp, ?_⟩, ?_, ?_, ?_⟩
  · intro q hq
    have hold : ∀ q ∈ before ++ part :: after, q ≠ [] ∧ delimiter ∉ q := hsplit ▸ path.clean
    rcases List.mem_append.mp hq with hq | hq
    · exact hold q (List.mem_append_left _ hq)
    · rcases List.mem_cons.mp hq with rfl | hq
      · have hpc := hold part (List.mem_append_right _ List.mem_cons_self)
        exact ⟨List.cons_ne_nil _ _, List.not_mem_cons_of_ne_of_not_mem hc hpc.2⟩
      · exact hold q (List.mem_append_right _ (List.mem_cons_of_mem _ hq))
  · intro hp
    exact hne (hp.eq_of_length hlen.symm).symm
  · intro hp
    exact hne (hp.eq_of_length hlen)
  · intro target
    exact (read_congr hkey before after target).trans (by rw [hsplit])

/-- A text that is a number for `float` and not for `int`. -/
theorem exists_bad (delimiter : Char) : ∃ bad : Str, bad ≠ [] ∧ delimiter ∉ bad ∧
    is_number bad = true ∧ path_part bad = .error .valueError := by
  by_cases hd : delimiter ∈ "nan".toList
  · refine ⟨"1e5".toList, by decide, ?_, by decide +kernel, by decide +kernel⟩
    intro h
    have hboth : ∀ c ∈ "nan".toList, c ∉ "1e5".toList := by decide
    exact hboth delimiter hd h
  · exact ⟨"nan".toList, by decide, hd, by decide +kernel, by decide +kernel⟩

/-- Two different values cannot both be what was there before. -/
theorem Assigned.not_both {target t t' : Json σ} {path : Path delimiter}
    {before : Except Raised (Json σ)} (h : Assigned target t path (.dict []))
    (h' : Assigned target t' path (.list [])) (hread : read path.parts t = before)
    (hread' : read path.parts t' = before) : False := by
  have hv := h.reads
  have hv' := h'.reads
  rw [extract_text, hread] at hv
  rw [extract_text, hread', hv] at hv'
  cases hv'

theorem Assigned.read_other {target t value : Json σ} {path : Path delimiter}
    (h : Assigned target t path value) (other : Path delimiter)
    (hbelow : ¬path.parts <+: other.parts) (habove : ¬other.parts <+: path.parts) :
    read other.parts t = read other.parts target := by
  rw [← extract_text, ← extract_text]
  exact h.frame other hbelow habove

/-- Another spelling of a number would be changed too. -/
theorem not_number_of_assigned {target t t' : Json σ} {path : Path delimiter}
    (h : Assigned target t path (.dict [])) (h' : Assigned target t' path (.list [])) :
    ∀ part ∈ path.parts, is_number part = false := by
  intro part hpart
  rw [← Bool.not_eq_true]
  intro hn
  obtain ⟨other, hbelow, habove, halias⟩ := exists_alias (σ := σ) path hpart hn
  exact h.not_both h' ((halias t).symm.trans (h.read_other other hbelow habove))
    ((halias t').symm.trans (h'.read_other other hbelow habove))

/-- A parent that has been created is something that the reader did not find before. -/
theorem dictAt_of_assigned {target value : Json σ} {path : Path delimiter}
    (hplain : ∀ part ∈ path.parts, is_number part = false)
    (hok : (visit true (writer path.parents path.last value) path.parents target).2 = .ok true)
    (h : Assigned target (visit true (writer path.parents path.last value) path.parents target).1
      path value) : DictAt path.parents target := by
  obtain ⟨bad, hne, hclean, hnum, hbad⟩ := exists_bad delimiter
  have hparents : ∀ part ∈ path.parents, is_number part = false := fun part hp =>
    hplain part (path.mem_of_mem_parents hp)
  have hlast : bad ≠ path.last := by
    rintro rfl
    exact absurd hnum (Bool.not_eq_true _ ▸ hplain path.last (List.getLast_mem path.parts_ne))
  rcases dictAt_or_read (fun _ => writer_ok) hparents bad hok with hat | hbefore
  · exact hat
  · have hafter := (read_visit_error (fun _ => writer_ok) hparents hbad hok).2
    have hlen : path.parts.length = (path.parents ++ [bad]).length := by
      rw [← path.parents_append_last, List.length_append, List.length_append]
      rfl
    have hdiff : path.parts ≠ path.parents ++ [bad] := by
      rw [← path.parents_append_last]
      intro heq
      exact hlast (List.cons.inj (List.append_cancel_left heq)).1.symm
    have hother := h.read_other ⟨path.parents ++ [bad], by simp, fun part hp => by
        rcases List.mem_append.mp hp with hp | hp
        · exact path.clean part (path.mem_of_mem_parents hp)
        · rw [List.mem_singleton.mp hp]
          exact ⟨hne, hclean⟩⟩
      (fun hp => hdiff (hp.eq_of_length hlen)) fun hp => hdiff (hp.eq_of_length hlen.symm).symm
    rw [hafter, hbefore] at hother
    cases hother

/-- The value is read where it was written and nothing else changes exactly when the parent
is a list in which the last part can be looked up, or nothing because a list has no such
item; or when all parents are dictionaries that are there already, no part of the path
looks like a number, and the last part of several has no `~1`. -/
theorem agrees_iff (path : Path delimiter) (entries : Dict Key (Json σ)) :
    Agrees (.dict entries) path ↔ Blocked path.last path.parents (.dict entries) ∨
      DictAt path.parents (.dict entries) ∧ is_number path.last = false ∧
        (path.parents = [] ∨ ¬"~1".toList <:+: path.last) := by
  rw [← writtenKey_eq_iff]
  constructor
  · intro h
    obtain ⟨t, returned, found, heq, hread, htrue, hfalse⟩ := h (.dict []) rfl
    obtain ⟨t', returned', found', heq', hread', htrue', hfalse'⟩ := h (.list []) rfl
    rw [assign_text] at heq heq'
    rw [extract_text, ← path.parents_append_last] at hread hread'
    cases returned with
    | false =>
      rw [hfalse rfl] at hread
      exact .inl (blocked_of_visit (fun _ => writer_not_false) (by rw [heq]) hread)
    | true =>
      cases returned' with
      | false =>
        rw [hfalse' rfl] at hread'
        exact .inl (blocked_of_visit (fun _ => writer_not_false) (by rw [heq']) hread')
      | true =>
        right
        have hplain := not_number_of_assigned (htrue rfl) (htrue' rfl)
        have hlast := hplain path.last (List.getLast_mem path.parts_ne)
        have hat := dictAt_of_assigned hplain (by rw [heq]) (by rw [heq]; exact htrue rfl)
        refine ⟨hat, hlast, ?_⟩
        by_contra hkey
        have hmiss : Misses (writtenKey path.parents path.last) path.parents path.parts := by
          rw [← path.parents_append_last]
          apply misses_self
          rw [path_part_of_not_number hlast]
          exact fun hk => hkey (Except.ok.inj hk).symm
        have hread := read_visit_misses (writer_sets path.parents hlast (.dict [])) hat hmiss
        have hread' := read_visit_misses (writer_sets path.parents hlast (.list [])) hat hmiss
        rw [heq] at hread
        rw [heq'] at hread'
        exact (htrue rfl).not_both (htrue' rfl) hread hread'
  · rintro (hblocked | ⟨hat, hlast, hkey⟩) value hv
    · obtain ⟨found, hread⟩ := read_blocked hblocked
      rw [path.parents_append_last, ← extract_text] at hread
      refine ⟨.dict entries, false, found, ?_, hread, fun h => absurd h Bool.false_ne_true,
        fun _ => rfl⟩
      have hne : path.parents ≠ [] := by
        intro he
        rw [he] at hblocked
        cases hblocked
      rw [assign_text]
      refine visit_blocked (fun t ht => ?_) hblocked
      rw [writer, if_neg hne]
      cases t with
      | dict entries => cases ht
      | _ => rfl
    · have hsets := writer_sets path.parents hlast value
      rw [hkey] at hsets
      have hreads : extract (visit true (writer path.parents path.last value) path.parents
          (.dict entries)).1 path.text delimiter = .ok value := by
        rw [extract_text, ← path.parents_append_last]
        exact read_visit_self hsets hat (path_part_of_not_number hlast) hv
      refine ⟨_, true, value, ?_, hreads, fun _ => ⟨hreads, fun other hbelow habove => ?_⟩,
        fun h => absurd h.symm Bool.false_ne_true⟩
      · rw [assign_text]
        exact Prod.ext rfl (visit_dictAt_ok hsets hat)
      · rw [extract_text, extract_text]
        rw [← path.parents_append_last] at hbelow habove
        exact read_visit_misses hsets hat (misses_of_apart hbelow habove)

/-- A numeric name at the top is written as a text and read as a number. -/
theorem numeric_name_not_read : ¬Agrees (.dict [] : Json Unit)
    (⟨["1".toList], by decide, by decide⟩ : Path '.') := by
  intro h
  obtain ⟨t, returned, found, heq, -, htrue, -⟩ := h (.scalar ()) rfl
  have hassign : assign_to_path (.dict [] : Json Unit) "1".toList (.scalar ()) '.' =
      (.dict [(.str "1".toList, .scalar ())], .ok true) := rfl
  have hextract : extract (.dict [(.str "1".toList, .scalar ())] : Json Unit) "1".toList '.' =
      .ok .null := rfl
  cases hassign.symm.trans heq
  cases hextract.symm.trans (htrue rfl).reads

end Assignment

end LocalStack.Utils.JsonPath
