import LocalStack.Aws.Value
import LocalStack.Lib.Lists
import Mathlib.Data.List.Dedup

/-! `aws/skeleton.py`: the table of handlers that is read off the class tree of a
provider. -/

namespace LocalStack.Aws.Skeleton
open LocalStack.Text LocalStack.OrderedDict

/-! ## Classes -/

/-- What `@handler` leaves on a function. -/
structure Marker where
  operation : Str
  pass_context : Bool := true
  expand_parameters : Bool := true
deriving DecidableEq

/-- `name` is `__name__`. -/
structure Function (β : Type) where
  name : Str
  marker : Option Marker
  body : β

/-- An attribute of a class that is a function, or not. -/
inductive Attribute (β : Type)
  | function (fn : Function β)
  | other

/-- Classes with their namespaces, and with their order of method resolution without
`object`. The orders of the bases are merged into that of a class. -/
structure Classes (γ β : Type) where
  mro : γ → List γ
  namespace_ : γ → Dict Str (Attribute β)
  merged : ∀ c, ∀ b ∈ mro c, ∀ a ∈ mro b, a ∈ mro c

/-- An instance, with attributes of its own. -/
structure Delegate (γ β : Type) where
  class_ : γ
  attributes : Dict Str (Attribute β)

section

variable {γ β : Type} (cs : Classes γ β)

/-- `getattr` of a class. -/
def Classes.getattr (c : γ) (name : Str) : Option (Attribute β) :=
  (cs.mro c).findSome? fun b => (cs.namespace_ b).get name

/-- `getattr` of an instance. -/
def getattr (delegate : Delegate γ β) (name : Str) : Option (Attribute β) :=
  (delegate.attributes.get name).or (cs.getattr delegate.class_ name)

/-- `dir`: the names of all attributes, sorted. -/
def Classes.dir (c : γ) : List Str :=
  ((cs.mro c).flatMap fun b => (cs.namespace_ b).keys).dedup.mergeSort fun a b =>
    !List.lex b a fun x y => decide (x < y)

/-- `inspect.getmembers(cls, inspect.isfunction)`. -/
def getmembers (c : γ) : List (Str × Function β) :=
  (cs.dir c).filterMap fun name =>
    match cs.getattr c name with
    | some (.function fn) => some (name, fn)
    | _ => none

/-! ## Dispatch table -/

structure HandlerAttributes where
  function_name : Str
  operation : Str
  pass_context : Bool
  expand_parameters : Bool
deriving DecidableEq

/-- The attributes of a function that has the marks of `@handler`. -/
def Function.attributes (fn : Function β) : Option HandlerAttributes :=
  fn.marker.map fun m => ⟨fn.name, m.operation, m.pass_context, m.expand_parameters⟩

/-- The handlers of one class, in the order of their names. -/
def handlersOf (c : γ) : List HandlerAttributes :=
  (getmembers cs c).filterMap fun p => p.2.attributes

/-- All handlers of the class tree, from the bases on: those of a class replace those of
its bases. -/
def scanHandlers (c : γ) : Dict Str HandlerAttributes :=
  Dict.ofPairs <| (cs.mro c).reverse.flatMap fun b => (handlersOf cs b).map fun h => (h.operation, h)

/-- `ServiceRequestDispatcher`. -/
structure Dispatcher (β : Type) where
  fn : Attribute β
  operation : Str
  pass_context : Bool
  expand_parameters : Bool

/-- The dispatcher of a handler, where the delegate has the attribute. -/
def resolve (delegate : Delegate γ β) (h : HandlerAttributes) : Except Error (Dispatcher β) :=
  match getattr cs delegate h.function_name with
  | some fn => .ok ⟨fn, h.operation, h.pass_context, h.expand_parameters⟩
  | none => .error .attributeError

def create_dispatch_table (delegate : Delegate γ β) : Except Error (Dict Str (Dispatcher β)) := do
  let entries ← (scanHandlers cs delegate.class_).mapM fun p => do
    let d ← resolve cs delegate p.2
    return (d.operation, d)
  return Dict.ofPairs entries

/-! ## Which handler a class tree has -/

/-- The last entry of a dictionary that is built up stands. -/
theorem get_ofPairs_eq_find {κ ν : Type} [DecidableEq κ] (ps : List (κ × ν)) (k : κ) :
    (Dict.ofPairs ps).get k = (ps.reverse.find? fun p => p.1 = k).map Prod.snd := by
  induction ps using List.reverseRecOn with
  | nil => rfl
  | append_singleton ps p ih =>
    have hsnoc : Dict.ofPairs (ps ++ [p]) = (Dict.ofPairs ps).set p.1 p.2 := by
      simp [Dict.ofPairs]
    rw [hsnoc, Dict.get_set, ih, List.reverse_append, List.reverse_singleton, List.singleton_append,
      List.find?_cons]
    by_cases hp : p.1 = k
    · simp [hp]
    · simp [hp]

/-- The handler of a class for an operation. -/
def marked (op : Str) (c : γ) : Option HandlerAttributes :=
  (handlersOf cs c).reverse.find? fun h => h.operation = op

/-- The first class in the order of resolution that has one. -/
theorem get_scanHandlers (c : γ) (op : Str) :
    (scanHandlers cs c).get op = (cs.mro c).findSome? (marked cs op) := by
  have hclass : ∀ b, (((handlersOf cs b).map fun h => (h.operation, h)).reverse.find?
      fun p => p.1 = op).map Prod.snd = marked cs op b := by
    intro b
    rw [← List.map_reverse, List.find?_map, Option.map_map]
    exact Option.map_id'
  rw [scanHandlers, get_ofPairs_eq_find]
  induction cs.mro c with
  | nil => rfl
  | cons b bs ih =>
    rw [List.reverse_cons, List.flatMap_append, List.reverse_append, List.find?_append,
      List.findSome?_cons, List.flatMap_singleton, ← hclass b, ← ih]
    cases ((handlersOf cs b).map fun h => (h.operation, h)).reverse.find? fun p => p.1 = op <;> rfl

theorem mem_getmembers {c : γ} {name : Str} {fn : Function β} :
    (name, fn) ∈ getmembers cs c ↔ cs.getattr c name = some (.function fn) := by
  rw [getmembers, List.mem_filterMap]
  constructor
  · rintro ⟨name', -, h⟩
    split at h
    · rename_i fn' hget
      cases h
      exact hget
    · cases h
  · intro h
    refine ⟨name, ?_, by rw [h]⟩
    obtain ⟨b, hb, hget⟩ := List.exists_of_findSome?_eq_some h
    rw [Classes.dir, List.mem_mergeSort, List.mem_dedup, List.mem_flatMap]
    exact ⟨b, hb, Dict.mem_keys_of_mem (Dict.mem_of_get hget)⟩

/-- A class sees a function that is marked for an operation. -/
def Marks (c : γ) (op name : Str) (m : Marker) : Prop :=
  ∃ fn, cs.getattr c name = some (.function fn) ∧ fn.marker = some m ∧ m.operation = op

/-- The functions that the classes of the tree see are stored under their own names,
and those for one operation under one name. -/
structure Regular (c : γ) : Prop where
  named : ∀ b ∈ cs.mro c, ∀ name fn, cs.getattr b name = some (.function fn) →
    fn.marker.isSome → fn.name = name
  single : ∀ a ∈ cs.mro c, ∀ b ∈ cs.mro c, ∀ op name name' m m',
    Marks cs a op name m → Marks cs b op name' m' → name = name'

variable {cs} {c b : γ} {op name : Str}

theorem mem_handlersOf {h : HandlerAttributes} :
    h ∈ handlersOf cs c ↔ ∃ name fn, cs.getattr c name = some (.function fn) ∧
      fn.attributes = some h := by
  simp only [handlersOf, List.mem_filterMap, Prod.exists, mem_getmembers]

/-- The handler of a class comes from a function that it sees. -/
theorem marked_eq_some {h : HandlerAttributes} (hm : marked cs op c = some h) :
    ∃ name fn, cs.getattr c name = some (.function fn) ∧ fn.attributes = some h ∧
      h.operation = op := by
  have hmem := List.mem_reverse.mp (List.mem_of_find?_eq_some hm)
  obtain ⟨name, fn, hget, hattr⟩ := mem_handlersOf.mp hmem
  exact ⟨name, fn, hget, hattr, by simpa using List.find?_some hm⟩

theorem marked_isSome_iff : (marked cs op c).isSome ↔ ∃ name m, Marks cs c op name m := by
  rw [marked, List.find?_isSome]
  constructor
  · rintro ⟨h, hmem, hop⟩
    obtain ⟨name, fn, hget, hattr⟩ := mem_handlersOf.mp (List.mem_reverse.mp hmem)
    obtain ⟨m, hm, rfl⟩ := Option.map_eq_some_iff.mp hattr
    exact ⟨name, m, fn, hget, hm, by simpa using hop⟩
  · rintro ⟨name, m, fn, hget, hm, rfl⟩
    refine ⟨⟨fn.name, m.operation, m.pass_context, m.expand_parameters⟩, ?_, by simp⟩
    rw [List.mem_reverse, mem_handlersOf]
    exact ⟨name, fn, hget, by simp [Function.attributes, hm]⟩

/-- In a regular class tree the handler of a class is the function under the name of the
operation, where it is marked. -/
theorem marked_eq (hr : Regular cs c) (hb : b ∈ cs.mro c) {h : HandlerAttributes}
    (hm : marked cs op b = some h) : ∃ m, Marks cs b op h.function_name m ∧
      h = ⟨h.function_name, op, m.pass_context, m.expand_parameters⟩ := by
  obtain ⟨name, fn, hget, hattr, rfl⟩ := marked_eq_some hm
  obtain ⟨m, hmark, rfl⟩ := Option.map_eq_some_iff.mp hattr
  have hname : fn.name = name := hr.named b hb name fn hget (by simp [hmark])
  exact ⟨m, ⟨fn, hname ▸ hget, hmark, rfl⟩, rfl⟩

/-- What a class sees under a name, if it is marked for the operation. -/
def markerAt (cs : Classes γ β) (op name : Str) (b : γ) : Option Marker :=
  match cs.getattr b name with
  | some (.function fn) => fn.marker.filter fun m => m.operation = op
  | _ => none

theorem markerAt_eq_some {m : Marker} : markerAt cs op name b = some m ↔ Marks cs b op name m := by
  rw [markerAt]
  constructor
  · intro h
    split at h
    · rename_i fn hget
      obtain ⟨hm, hop⟩ := Option.filter_eq_some_iff.mp h
      exact ⟨fn, hget, hm, by simpa using hop⟩
    · cases h
  · rintro ⟨fn, hget, hm, hop⟩
    simp [hget, hm, Option.filter, hop]

/-- The handler of a class is the function that it sees under the name of the operation. -/
theorem marked_eq_markerAt (hr : Regular cs c) {a : γ} {m₀ : Marker} (ha : a ∈ cs.mro c)
    (hname : Marks cs a op name m₀) (hb : b ∈ cs.mro c) :
    marked cs op b = (markerAt cs op name b).map fun m =>
      ⟨name, op, m.pass_context, m.expand_parameters⟩ := by
  cases hm : marked cs op b with
  | none =>
    have hnone : markerAt cs op name b = none := by
      by_contra hne
      obtain ⟨m, hm'⟩ := Option.ne_none_iff_exists'.mp hne
      have hsome := marked_isSome_iff.mpr ⟨name, m, markerAt_eq_some.mp hm'⟩
      simp [hm] at hsome
    rw [hnone, Option.map_none]
  | some h =>
    obtain ⟨m, hmarks, heq⟩ := marked_eq hr hb hm
    have hsame : h.function_name = name := hr.single b hb a ha op _ _ m m₀ hmarks hname
    rw [hsame] at hmarks heq
    rw [markerAt_eq_some.mpr hmarks, heq]
    rfl

theorem findSome?_congr {α δ : Type} {f g : α → Option δ} {l : List α} (h : ∀ a ∈ l, f a = g a) :
    l.findSome? f = l.findSome? g := by
  induction l with
  | nil => rfl
  | cons a l ih =>
    rw [List.forall_mem_cons] at h
    rw [List.findSome?_cons, List.findSome?_cons, h.1, ih h.2]

theorem getattr_isSome {delegate : Delegate γ β} (hb : b ∈ cs.mro delegate.class_)
    (h : (cs.getattr b name).isSome) : (getattr cs delegate name).isSome := by
  have hclass : (cs.getattr delegate.class_ name).isSome := by
    obtain ⟨attr, hget⟩ := Option.isSome_iff_exists.mp h
    obtain ⟨a, ha, hattr⟩ := List.exists_of_findSome?_eq_some hget
    rw [Classes.getattr, List.findSome?_isSome_iff]
    exact ⟨a, cs.merged _ b hb a ha, by simp [hattr]⟩
  rw [getattr]
  cases delegate.attributes.get name with
  | some attr => rfl
  | none => exact hclass

/-- Every handler of the class tree is resolved on the delegate. -/
theorem resolve_ok {delegate : Delegate γ β} (hr : Regular cs delegate.class_)
    {h : HandlerAttributes} (hh : (op, h) ∈ scanHandlers cs delegate.class_) :
    h.operation = op ∧ ∃ fn, getattr cs delegate h.function_name = some fn ∧
      resolve cs delegate h = .ok ⟨fn, op, h.pass_context, h.expand_parameters⟩ := by
  have hget : (scanHandlers cs delegate.class_).get op = some h :=
    Dict.get_of_mem (Dict.wf_ofPairs _) hh
  rw [get_scanHandlers] at hget
  obtain ⟨b, hb, hm⟩ := List.exists_of_findSome?_eq_some hget
  obtain ⟨m, ⟨fn, hfn, -, -⟩, heq⟩ := marked_eq hr hb hm
  have hop : h.operation = op := by rw [heq]
  obtain ⟨attr, hattr⟩ := Option.isSome_iff_exists.mp (getattr_isSome hb (by rw [hfn]; rfl))
  exact ⟨hop, attr, hattr, by rw [resolve, hattr, hop]⟩

theorem create_dispatch_table_ok {delegate : Delegate γ β} (hr : Regular cs delegate.class_) :
    ∃ table, create_dispatch_table cs delegate = .ok table ∧ ∀ op, table.get op =
      ((scanHandlers cs delegate.class_).get op).bind fun h =>
        (getattr cs delegate h.function_name).map fun fn =>
          ⟨fn, op, h.pass_context, h.expand_parameters⟩ := by
  have hwf : Dict.WF (scanHandlers cs delegate.class_) := Dict.wf_ofPairs _
  have hentries := Lists.mapM_eq_map (l := scanHandlers cs delegate.class_)
    (f := fun p => do
      let d ← resolve cs delegate p.2
      return (d.operation, d))
    (g := fun p => (p.1, ⟨(getattr cs delegate p.2.function_name).getD .other, p.1,
      p.2.pass_context, p.2.expand_parameters⟩)) fun p hp => by
    obtain ⟨-, fn, hfn, hok⟩ := resolve_ok hr hp
    rw [hok, hfn]
    rfl
  refine ⟨_, by rw [create_dispatch_table, hentries]; rfl, fun op => ?_⟩
  rw [Dict.ofPairs_of_wf (by simpa [Dict.WF, Dict.keys, Function.comp_def] using hwf)]
  have hmap := Dict.get_map (f := id) (d := scanHandlers cs delegate.class_) (k := op)
    (g := fun op h => (⟨(getattr cs delegate h.function_name).getD .other, op,
      h.pass_context, h.expand_parameters⟩ : Dispatcher β)) fun _ _ => id
  refine hmap.trans ?_
  cases hget : (scanHandlers cs delegate.class_).get op with
  | none => rfl
  | some h =>
    obtain ⟨-, fn, hfn, -⟩ := resolve_ok hr (Dict.mem_of_get hget)
    simp [hfn]

/-- **Dispatching to the most derived function.** The table of a regular provider has the
operations that are marked in some class of its tree. An operation is dispatched to what
the provider itself has under the name, marked or not, with the flags of the first class in
the order of resolution that sees it marked. -/
theorem dispatches_most_derived (delegate : Delegate γ β) (hr : Regular cs delegate.class_) :
    ∃ table, create_dispatch_table cs delegate = .ok table ∧ ∀ op,
      (table.get op = none ↔ ∀ b ∈ cs.mro delegate.class_, ∀ name m, ¬Marks cs b op name m) ∧
      ∀ b ∈ cs.mro delegate.class_, ∀ name m, Marks cs b op name m →
        ∃ fn m', getattr cs delegate name = some fn ∧
          (cs.mro delegate.class_).findSome? (markerAt cs op name) = some m' ∧
          table.get op = some ⟨fn, op, m'.pass_context, m'.expand_parameters⟩ := by
  obtain ⟨table, hok, htable⟩ := create_dispatch_table_ok hr
  refine ⟨table, hok, fun op => ?_⟩
  have hsome : ∀ b ∈ cs.mro delegate.class_, ∀ name m, Marks cs b op name m →
      ∃ fn m', getattr cs delegate name = some fn ∧
        (cs.mro delegate.class_).findSome? (markerAt cs op name) = some m' ∧
        table.get op = some ⟨fn, op, m'.pass_context, m'.expand_parameters⟩ := by
    intro b hb name m hm
    have hfirst : (cs.mro delegate.class_).findSome? (marked cs op) =
        ((cs.mro delegate.class_).findSome? (markerAt cs op name)).map fun m =>
          ⟨name, op, m.pass_context, m.expand_parameters⟩ := by
      rw [List.map_findSome?]
      exact findSome?_congr fun a ha => marked_eq_markerAt hr hb hm ha
    obtain ⟨fn, hget, -⟩ := id hm
    obtain ⟨attr, hattr⟩ := Option.isSome_iff_exists.mp (getattr_isSome hb (by rw [hget]; rfl))
    have hmark : ((cs.mro delegate.class_).findSome? (markerAt cs op name)).isSome := by
      rw [List.findSome?_isSome_iff]
      exact ⟨b, hb, by rw [markerAt_eq_some.mpr hm]; rfl⟩
    obtain ⟨m', hm'⟩ := Option.isSome_iff_exists.mp hmark
    refine ⟨attr, m', hattr, hm', ?_⟩
    rw [htable, get_scanHandlers, hfirst, hm']
    simp [hattr]
  refine ⟨⟨fun hnone b hb name m hm => ?_, fun hall => ?_⟩, hsome⟩
  · obtain ⟨fn, m', -, -, htab⟩ := hsome b hb name m hm
    rw [hnone] at htab
    cases htab
  · have hscan : (cs.mro delegate.class_).findSome? (marked cs op) = none := by
      rw [List.findSome?_eq_none_iff]
      intro b hb
      by_contra hne
      obtain ⟨name, m, hm⟩ := marked_isSome_iff.mp (Option.isSome_iff_ne_none.mpr hne)
      exact hall b hb name m hm
    rw [htable, get_scanHandlers, hscan, Option.bind_none]

end

/-- A generated interface, and a provider that implements its operation without marks. -/
def userClasses : Classes Bool Nat where
  mro provider := if provider then [true, false] else [false]
  namespace_ provider :=
    if provider then [("create_user".toList, .function ⟨"create_user".toList, none, 1⟩)]
    else [("create_user".toList, .function
      ⟨"create_user".toList, some ⟨"CreateUser".toList, true, false⟩, 0⟩)]
  merged := by decide

theorem userClasses_getattr {b : Bool} {name : Str} {fn : Function Nat}
    (h : userClasses.getattr b name = some (.function fn)) :
    name = "create_user".toList ∧ fn.name = "create_user".toList := by
  obtain ⟨a, -, hget⟩ := List.exists_of_findSome?_eq_some h
  have hmem := Dict.mem_of_get hget
  cases a <;> cases List.mem_singleton.mp hmem <;> exact ⟨rfl, rfl⟩

theorem userClasses_regular (b : Bool) : Regular userClasses b := by
  refine ⟨fun b _ name fn h _ => ?_, ?_⟩
  · obtain ⟨rfl, hfn⟩ := userClasses_getattr h
    exact hfn
  · rintro a - b - op name name' m m' ⟨fn, h, -⟩ ⟨fn', h', -⟩
    exact (userClasses_getattr h).1.trans (userClasses_getattr h').1.symm

theorem create_user_dispatched : ∃ table,
    create_dispatch_table userClasses ⟨true, []⟩ = .ok table ∧
      table.get "CreateUser".toList = some
        ⟨.function ⟨"create_user".toList, none, 1⟩, "CreateUser".toList, true, false⟩ := by
  obtain ⟨table, hok, htable⟩ := dispatches_most_derived ⟨true, []⟩ (userClasses_regular true)
  obtain ⟨fn, m, hfn, hm, hget⟩ := (htable "CreateUser".toList).2 false (by decide)
    "create_user".toList ⟨"CreateUser".toList, true, false⟩ ⟨_, rfl, rfl, rfl⟩
  cases hfn
  cases hm
  exact ⟨table, hok, hget⟩

end LocalStack.Aws.Skeleton
