import LocalStack.Aws.Protocol.RestXml
import LocalStack.Lib.Lists
import Mathlib.Data.List.Nodup

/-! Reading back the element trees that the XML serializer builds. Equal tags of
one node are grouped by the parser, so a member is followed through the elements
that it adds to the node of its structure. -/

namespace LocalStack.Aws.Protocol.RestXml
open LocalStack.Lists LocalStack.Text LocalStack.Decimal LocalStack.OrderedDict
open LocalStack.Aws.Protocol.Serializer LocalStack.Aws.Protocol.Parser

/-! ## Values and shapes -/

/-- Values without `None`, timestamps and floats. -/
def xmlValues : ValueRules where
  scalar _ t v :=
    match t, v with
    | .string, .str _ | .integer, .int _ | .long, .int _ | .boolean, .bool _
    | .blob, .bytes _ => True
    | _, _ => False

theorem typed_isNone {s : Shape} {v : Value} (h : Typed xmlValues s v) : v.isNone = false :=
  h.isNone_eq_false fun _ t ht => by cases t <;> exact ht

def isFlattened : Shape → Bool
  | .list ser _ | .map ser _ _ => ser.flattened
  | _ => false

/-- The name is not changed where namespaces are removed. -/
def PlainName (name : Str) : Prop := subNamespace [] 0 name = name

instance (name : Str) : Decidable (PlainName name) := inferInstanceAs (Decidable (_ = _))

/-- Flattened containers are members of structures, the names that the parser
looks for are distinct, and only the root has a `resultWrapper`. -/
def Lawful : Shape → Prop
  | .scalar .. => True
  | .list _ member => isFlattened member = false ∧ member.serialization.resultWrapper = none
  | .map _ key value =>
    isFlattened value = false ∧ value.serialization.resultWrapper = none ∧
      key.resultWrapper = none ∧ PlainName (key_location_name key) ∧
      PlainName (value_location_name value) ∧ key_location_name key ≠ value_location_name value
  | .struct _ _ members =>
    Dict.WF members ∧ (members.map fun p => member_key_name p.2 p.1).Nodup ∧
      ∀ p ∈ members, PlainName (member_key_name p.2 p.1) ∧
        p.2.serialization.resultWrapper = none ∧ p.2.serialization.xmlAttribute = false

/-- A container that leaves no element behind. -/
def leavesNothing : Shape → Value → Bool
  | .list ser _, .list [] => ser.flattened
  | .map ser _ _, .dict [] => ser.flattened
  | _, _ => false

mutual

/-- The value with its empty flattened containers taken for absent members. -/
def identifyEmpty : Shape → Value → Value
  | .list _ member, .list vs => .list (vs.map fun v => identifyEmpty member v)
  | .map _ _ value, .dict d => .dict (d.map fun p => (p.1, identifyEmpty value p.2))
  | .struct _ traits members, .dict d =>
    .dict (identifyMembers traits.required_members members d)
  | _, v => v

/-- A required member that is absent is `None`. -/
def identifyMembers (required_members : List Str) :
    List (Str × Shape) → Dict Str Value → List (Str × Value)
  | [], _ => []
  | (name, shape) :: members, d =>
    let rest := identifyMembers required_members members d
    let absent := if name ∈ required_members then (name, .none) :: rest else rest
    match d.get name with
    | some v => if leavesNothing shape v then absent else (name, identifyEmpty shape v) :: rest
    | none => absent

end

/-! ## Grouping by tag -/

/-- The node of the elements that have one tag. -/
def groupNode : List Element → Option Node
  | [] => none
  | [e] => some (.element e)
  | es => some (.list es)

theorem groupNode_eq_none {es : List Element} : groupNode es = none ↔ es = [] := by
  rcases es with _ | ⟨e, _ | ⟨e', es⟩⟩ <;> simp [groupNode]

theorem groupNode_items {es : List Element} {n : Node} (h : groupNode es = some n) :
    n.items true = es := by
  rcases es with _ | ⟨e, _ | ⟨e', es⟩⟩ <;> simp only [groupNode, Option.some.injEq, reduceCtorEq] at h
  all_goals
    subst h
    rfl

theorem get_addNode {xml_dict : Dict Str Node} {es : List Element} {item : Element} {t : Str}
    (h : xml_dict.get t = groupNode (es.filter fun e => node_tag e = t)) :
    (addNode xml_dict item).get t =
      groupNode ((es ++ [item]).filter fun e => node_tag e = t) := by
  rw [List.filter_append]
  by_cases ht : node_tag item = t
  · simp only [addNode, ht, h, List.filter_cons, decide_true, if_true, List.filter_nil]
    rcases es.filter fun e => node_tag e = t with _ | ⟨e, _ | ⟨e', es⟩⟩ <;>
      simp [groupNode]
  · have hset : ∀ n, (xml_dict.set (node_tag item) n).get t = xml_dict.get t := fun n =>
      Dict.get_set_ne _ _ ht
    have hadd : (addNode xml_dict item).get t = xml_dict.get t := by
      unfold addNode
      split <;> exact hset _
    rw [hadd, h]
    simp [ht]

theorem get_build_name_to_xml_node (node : Element) (t : Str) :
    (build_name_to_xml_node node).get t =
      groupNode (node.children.filter fun e => node_tag e = t) := by
  rw [build_name_to_xml_node]
  induction node.children using List.reverseRecOn with
  | nil => rfl
  | append_singleton es e ih =>
    rw [List.foldl_append]
    exact get_addNode ih

/-! ## There and back -/

/-- The tag of the elements of a shape that is written under `name`. -/
def elementName (shape : Shape) (name : Str) : Str :=
  match shape with
  | .list ser member => if ser.flattened then member.getSerializedName name else name
  | _ => name

theorem elementName_eq {s : Shape} (h : isFlattened s = false) (name : Str) :
    elementName s name = name := by
  cases s <;> first | rfl | simp_all [isFlattened, elementName]

theorem member_key_name_eq (s : Shape) (n : Str) :
    member_key_name s n = elementName s (s.getSerializedName n) := by
  cases s <;> rfl

theorem wrapName_eq {ser : Serialization} (h : ser.resultWrapper = none) (name : Str) :
    wrapName ser name = name := by
  simp [wrapName, h]

/-- The value `v` is written under `name` as the elements `es`, from which it is
read again. -/
structure TravelsAs (texts : Texts) (isoparse : IsoParse) (s : Shape) (v : Value) (name : Str)
    (es : List Element) : Prop where
  serializes : serialize texts s v name = .ok es
  tag : ∀ e ∈ es, e.tag = elementName s (wrapName s.serialization name)
  single : isFlattened s = false → ∃ e, es = [e]
  eq_nil_iff : es = [] ↔ leavesNothing s v = true
  parses : ∀ n, groupNode es = some n → parse_shape isoparse s n = .ok (identifyEmpty s v)

section

variable {texts : Texts} {isoparse : IsoParse}

theorem travelsAs_scalar {ser : Serialization} {t : ScalarType} {v : Value}
    (h : xmlValues.scalar ser t v) (name : Str) :
    ∃ es, TravelsAs texts isoparse (.scalar ser t) v name es := by
  have hone : ∀ text : Str, scalarText texts ser v t = .ok (.str text) →
      parseScalar isoparse .iso8601 ser (.str text) t = .ok v →
      ∃ es, TravelsAs texts isoparse (.scalar ser t) v name es := fun text hs hp => by
    refine ⟨[.mk (wrapName ser name) [] (.str text) []], ⟨?_, ?_, fun _ => ⟨_, rfl⟩, ?_, ?_⟩⟩
    · simp [serialize, hs, bind, Except.bind, pure, Except.pure]
    · simp [Element.tag, elementName, Shape.serialization]
    · simp [leavesNothing]
    · rintro n ⟨rfl⟩
      simp [parse_shape, text_content, Element.text, Value.isNone, hp, bind, Except.bind,
        identifyEmpty]
  cases t <;> cases v <;> try exact h.elim
  case string.str s => exact hone s rfl rfl
  case integer.int i =>
    exact hone (intToStr i) rfl (by
      simp [Parser.parseScalar, parse_integer, Except.map])
  case long.int i =>
    exact hone (intToStr i) rfl (by
      simp [Parser.parseScalar, parse_integer, Except.map])
  case boolean.bool b => cases b <;> exact hone _ rfl rfl
  case blob.bytes bs =>
    refine hone (Base64.b64encode bs) rfl ?_
    simp [Parser.parseScalar, parse_blob, Base64.b64decode_b64encode, orValueError, Except.map]

/-- Elements of shapes that are not flattened are written as one element each. -/
theorem exists_element {s : Shape} {v : Value} {name : Str}
    (hw : s.serialization.resultWrapper = none) (hf : isFlattened s = false)
    (h : ∃ es, TravelsAs texts isoparse s v name es) :
    ∃ e : Element, serialize texts s v name = .ok [e] ∧ e.tag = name ∧
      parse_shape isoparse s (.element e) = .ok (identifyEmpty s v) := by
  obtain ⟨es, h⟩ := h
  obtain ⟨e, rfl⟩ := h.single hf
  refine ⟨e, h.serializes, ?_, h.parses _ rfl⟩
  rw [h.tag e (List.mem_singleton.mpr rfl), wrapName_eq hw, elementName_eq hf]

theorem filter_not_none {vs : List Value} (h : ∀ v ∈ vs, v.isNone = false) :
    (vs.filter fun v => !v.isNone) = vs :=
  List.filter_eq_self.mpr fun v hv => by simp [h v hv]

theorem travelsAs_list {ser : Serialization} {m : Shape} {vs : List Value} (name : Str)
    (hl : Lawful (.list ser m)) (hn : ∀ v ∈ vs, v.isNone = false)
    (h : ∀ v ∈ vs, ∀ name, ∃ es, TravelsAs texts isoparse m v name es) :
    ∃ es, TravelsAs texts isoparse (.list ser m) (.list vs) name es := by
  obtain ⟨hf, hw⟩ := hl
  let element_name := m.getSerializedName
    (if ser.flattened then wrapName ser name else "member".toList)
  have helement := fun v hv => exists_element hw hf (h v hv element_name)
  choose! E hser htag hparse using helement
  have hmap : (vs.mapM fun item => serialize texts m item element_name) = .ok (vs.map fun v => [E v]) :=
    mapM_eq_map hser
  have hback : ((vs.map E).mapM fun e => parse_shape isoparse m (.element e)) =
      .ok (vs.map fun v => identifyEmpty m v) := by
    rw [List.mapM_map]
    exact mapM_eq_map hparse
  have hserialize : serialize texts (.list ser m) (.list vs) name = .ok
      (if ser.flattened then vs.map E else [.mk (wrapName ser name) [] .none (vs.map E)]) := by
    simp only [serialize, show (Value.list vs).isNone = false from rfl, Value.iter,
      filter_not_none hn, Bool.false_eq_true, if_false]
    rw [show m.getSerializedName (if ser.flattened then wrapName ser name else "member".toList) =
      element_name from rfl, hmap]
    cases ser.flattened <;>
      simp [bind, Except.bind, pure, Except.pure, ← List.flatMap_def, ← List.map_eq_flatMap]
  cases hflat : ser.flattened
  · refine ⟨_, hserialize, ?_, ?_, ?_, ?_⟩
    · simp [hflat, elementName, Element.tag, Shape.serialization]
    · simp [hflat]
    · cases vs <;> simp [hflat, leavesNothing]
    · intro n hgroup
      simp only [hflat, Bool.false_eq_true, if_false, groupNode, Option.some.injEq] at hgroup
      subst hgroup
      simp [parse_shape, Node.items, hflat, Element.children, hback, bind, Except.bind, pure,
        Except.pure, identifyEmpty]
  · refine ⟨_, hserialize, ?_, ?_, ?_, ?_⟩
    · simp only [hflat, if_true, List.mem_map, forall_exists_index, and_imp,
        forall_apply_eq_imp_iff₂, elementName, Shape.serialization]
      intro v hv
      rw [htag v hv]
      simp only [element_name, hflat, if_true]
    · simp [hflat, isFlattened]
    · cases vs <;> simp [hflat, leavesNothing]
    · intro n hgroup
      simp only [hflat, if_true] at hgroup
      simp only [parse_shape, hflat, groupNode_items hgroup, hback, identifyEmpty]
      rfl

theorem node_tag_eq {e : Element} (h : PlainName e.tag) : node_tag e = e.tag := h

/-- An entry of two elements is its key and its value. -/
theorem parseEntry_eq {key : Serialization} {value_name : Str}
    {parseValue : Element → Except Error Value} {k tag : Str} {e : Element} {r : Value}
    (hkey : key.resultWrapper = none) (hkeyName : PlainName (key_location_name key))
    (hvalueName : PlainName value_name)
    (hne : key_location_name key ≠ value_name) (htag : e.tag = value_name)
    (hparse : parseValue e = .ok r) :
    parseEntry key value_name parseValue (.mk tag [] .none [serializeKey key k, e]) =
      .ok (k, r) := by
  have hk : node_tag (serializeKey key k) = key_location_name key := by
    rw [serializeKey, wrapName_eq hkey]
    exact hkeyName
  have he : node_tag e = value_name := by
    rw [node_tag_eq (by rwa [htag]), htag]
  have htext : text_content (.element (serializeKey key k)) = .ok (.str k) := rfl
  simp [parseEntry, Element.children, hk, he, hne.symm, htext, hparse, entryKey, bind,
    Except.bind, pure, Except.pure]

theorem travelsAs_map {ser key : Serialization} {s : Shape} {d : Dict Str Value} (name : Str)
    (hl : Lawful (.map ser key s)) (hd : d.WF) (hn : ∀ p ∈ d, p.2.isNone = false)
    (h : ∀ p ∈ d, ∀ name, ∃ es, TravelsAs texts isoparse s p.2 name es) :
    ∃ es, TravelsAs texts isoparse (.map ser key s) (.dict d) name es := by
  obtain ⟨hf, hw, hkey, hkeyName, hvalueName, hne⟩ := hl
  let entry_node_name := if ser.flattened then wrapName ser name else "entry".toList
  have helement := fun p hp => exists_element hw hf (h p hp (value_location_name s))
  choose! E hser htag hparse using helement
  let entry : Str × Value → Element := fun p =>
    .mk entry_node_name [] .none [serializeKey key p.1, E p]
  have hfilter : (d.filter fun p => !p.2.isNone) = d :=
    List.filter_eq_self.mpr fun p hp => by simp [hn p hp]
  have hmap : (d.mapM fun p => do
      let nodes ← serialize texts s p.2 (value_location_name s)
      return Element.mk entry_node_name [] .none (serializeKey key p.1 :: nodes)) =
      .ok (d.map entry) :=
    mapM_eq_map fun p hp => by rw [hser p hp]; rfl
  have hback : ((d.map entry).mapM <| parseEntry key (value_location_name s) fun e =>
      parse_shape isoparse s (.element e)) = .ok (d.map fun p => (p.1, identifyEmpty s p.2)) := by
    rw [List.mapM_map]
    exact mapM_eq_map fun p hp =>
      parseEntry_eq hkey hkeyName hvalueName hne (htag p hp) (hparse p hp)
  have hpairs : Dict.ofPairs (d.map fun p => (p.1, identifyEmpty s p.2)) =
      d.map fun p => (p.1, identifyEmpty s p.2) := by
    refine Dict.ofPairs_of_wf ?_
    have hkeys : Dict.keys (d.map fun p => (p.1, identifyEmpty s p.2)) = d.keys := by
      simp [Dict.keys]
    rwa [Dict.WF, hkeys]
  have hserialize : serialize texts (.map ser key s) (.dict d) name = .ok
      (if ser.flattened then d.map entry else [.mk (wrapName ser name) [] .none (d.map entry)]) := by
    simp only [serialize, show (Value.dict d).isNone = false from rfl, hfilter,
      Bool.false_eq_true, if_false]
    rw [show (if ser.flattened then wrapName ser name else "entry".toList) = entry_node_name
      from rfl, hmap]
    cases ser.flattened <;> simp [bind, Except.bind, pure, Except.pure]
  cases hflat : ser.flattened
  · refine ⟨_, hserialize, ?_, ?_, ?_, ?_⟩
    · simp [hflat, elementName, Element.tag, Shape.serialization]
    · simp [hflat]
    · cases d <;> simp [hflat, leavesNothing]
    · intro n hgroup
      simp only [hflat, Bool.false_eq_true, if_false, groupNode, Option.some.injEq] at hgroup
      subst hgroup
      simp [parse_shape, Node.items, hflat, Element.children, hback, hpairs, bind, Except.bind, pure,
        Except.pure, identifyEmpty]
  · refine ⟨_, hserialize, ?_, ?_, ?_, ?_⟩
    · intro e he
      simp only [hflat, if_true, List.mem_map] at he
      obtain ⟨p, -, rfl⟩ := he
      simp [entry, entry_node_name, hflat, elementName, Element.tag, Shape.serialization]
    · simp [hflat, isFlattened]
    · cases d <;> simp [hflat, leavesNothing]
    · intro n hgroup
      simp only [hflat, if_true] at hgroup
      simp only [parse_shape, hflat, groupNode_items hgroup, hback, identifyEmpty, bind, Except.bind,
        hpairs]
      rfl

/-! ### Structures -/

theorem serializeMember_eq {ms : Dict Str Shape} {k : Str} {s : Shape} {v : Value}
    {es : List Element} (hs : ms.get k = some s) (hattr : s.serialization.xmlAttribute = false)
    (h : serialize texts s v (s.getSerializedName k) = .ok es) :
    serializeMember texts ms k v = .ok (.elements es) := by
  induction ms with
  | nil => simp at hs
  | cons p ms ih =>
    obtain ⟨k₀, s₀⟩ := p
    rw [serializeMember]
    by_cases hk : k₀ = k
    · subst hk
      rw [Dict.get_cons_self, Option.some.injEq] at hs
      subst hs
      simp [hattr, h, Except.map]
    · rw [Dict.get_cons_ne _ _ hk] at hs
      rw [if_neg hk, ih hs]

/-- The elements of one member among those of all members. -/
theorem filter_flatMap_tag {d : Dict Str Value} {E : Str → List Element} {tagOf : Str → Str}
    {k : Str} (hd : d.WF) (hE : ∀ k' ∈ d.keys, ∀ e ∈ E k', node_tag e = tagOf k')
    (hinj : ∀ k' ∈ d.keys, tagOf k' = tagOf k → k' = k) :
    (d.flatMap fun p => E p.1).filter (fun e => node_tag e = tagOf k) =
      if k ∈ d.keys then E k else [] := by
  induction d with
  | nil => rfl
  | cons p d ih =>
    rw [Dict.wf_cons] at hd
    rw [Dict.keys_cons, List.forall_mem_cons] at hE hinj
    rw [List.flatMap_cons, List.filter_append, ih hd.2 hE.2 hinj.2]
    by_cases hk : p.1 = k
    · have hall : (E p.1).filter (fun e => node_tag e = tagOf k) = E k := by
        rw [← hk]
        exact List.filter_eq_self.mpr fun e he => by simp [hE.1 e he]
      rw [hall, if_neg (hk ▸ hd.1), List.append_nil, if_pos (by simp [hk])]
    · have hnone : (E p.1).filter (fun e => node_tag e = tagOf k) = [] := by
        refine List.filter_eq_nil_iff.mpr fun e he => ?_
        simpa [hE.1 e he] using fun h => hk (hinj.1 h)
      simp [hnone, Ne.symm hk]

theorem parseMembers_eq {ms : Dict Str Shape} (required : List Str) (node : Node)
    {xml_dict : Dict Str Node} {d : Dict Str Value}
    (hattr : ∀ p ∈ ms, p.2.serialization.xmlAttribute = false)
    (h : ∀ p ∈ ms, match xml_dict.get (member_key_name p.2 p.1) with
      | none => ∀ v, d.get p.1 = some v → leavesNothing p.2 v = true
      | some n => ∃ v, d.get p.1 = some v ∧ leavesNothing p.2 v = false ∧
          parse_shape isoparse p.2 n = .ok (identifyEmpty p.2 v)) :
    parseMembers isoparse required ms node xml_dict = .ok (identifyMembers required ms d) := by
  induction ms with
  | nil => rfl
  | cons p ms ih =>
    obtain ⟨n, s⟩ := p
    rw [List.forall_mem_cons] at hattr h
    rw [parseMembers, ih hattr.2 h.2, identifyMembers]
    have hp := h.1
    split at hp
    · next hxml =>
      have hmissing : missingMember (n ∈ required) s.serialization node =
          .ok (if n ∈ required then some .none else none) := by
        have hno : s.serialization.xmlAttribute = false := hattr.1
        by_cases hr : n ∈ required <;> simp [missingMember, hno, hr]
      simp only [hxml, hmissing]
      rcases hv : d.get n with _ | v
      · by_cases hr : n ∈ required <;> simp [hr, bind, Except.bind, pure, Except.pure]
      · by_cases hr : n ∈ required <;>
          simp [hr, hp v hv, bind, Except.bind, pure, Except.pure]
    · next hxml =>
      obtain ⟨v, hv, hleaves, hparse⟩ := hp
      simp [hxml, hv, hleaves, hparse, Except.map, bind, Except.bind, pure, Except.pure]

theorem travelsAs_struct {ser : Serialization} {traits : StructureTraits} {ms : Dict Str Shape}
    {d : Dict Str Value} (name : Str) (hl : Lawful (.struct ser traits ms))
    (hv : Typed xmlValues (.struct ser traits ms) (.dict d))
    (h : ∀ k s v, ms.get k = some s → d.get k = some v → ∀ name,
      ∃ es, TravelsAs texts isoparse s v name es) :
    ∃ es, TravelsAs texts isoparse (.struct ser traits ms) (.dict d) name es := by
  obtain ⟨hms, hnames, hmembers⟩ := hl
  cases hv with
  | struct _ hd _ hkeys _ hnone hmem =>
    obtain ⟨E, hE⟩ := Dict.choose_of_get (P := fun k s v es =>
      TravelsAs texts isoparse s v (s.getSerializedName k) es) fun k s v hs hv => h k s v hs hv _
    -- the tag that the parser looks for under a member's name
    let tagOf : Str → Str := fun k => (ms.get k).elim k (member_key_name · k)
    have htagOf : ∀ k s, ms.get k = some s → tagOf k = member_key_name s k := fun k s hs => by
      simp [tagOf, hs]
    have hshape : ∀ k ∈ d.keys, ∃ s v, ms.get k = some s ∧ d.get k = some v := fun k hk => by
      obtain ⟨s, hs⟩ := Dict.exists_get (hkeys k hk)
      obtain ⟨v, hv⟩ := Dict.exists_get hk
      exact ⟨s, v, hs, hv⟩
    have htag : ∀ k ∈ d.keys, ∀ e ∈ E k, node_tag e = tagOf k := by
      intro k hk e he
      obtain ⟨s, v, hs, hv⟩ := hshape k hk
      obtain ⟨hplain, hw, -⟩ := hmembers _ (Dict.mem_of_get hs)
      have htag := (hE k s v hs hv).tag e he
      rw [wrapName_eq hw, ← member_key_name_eq] at htag
      rw [node_tag_eq (by rwa [htag]), htag, htagOf k s hs]
    have hinj : ∀ k ∈ ms.keys, ∀ k' ∈ d.keys, tagOf k' = tagOf k → k' = k := by
      intro k hk k' hk' he
      obtain ⟨s, hs⟩ := Dict.exists_get hk
      obtain ⟨s', hs'⟩ := Dict.exists_get (hkeys k' hk')
      rw [htagOf k s hs, htagOf k' s' hs'] at he
      exact congrArg Prod.fst
        (List.inj_on_of_nodup_map hnames (Dict.mem_of_get hs') (Dict.mem_of_get hs) he)
    have hfilter : (d.filter fun p => !p.2.isNone) = d := by
      refine List.filter_eq_self.mpr fun p hp => ?_
      have hget := Dict.get_of_mem hd hp
      obtain ⟨s, -, hs, -⟩ := hshape p.1 (Dict.mem_keys_of_mem hp)
      simp [typed_isNone (hmem p.1 s p.2 hs hget fun hn => hnone p.1 (hn ▸ hget))]
    have hparts : (d.mapM fun p => serializeMember texts ms p.1 p.2) =
        .ok (d.map fun p => .elements (E p.1)) := by
      refine mapM_eq_map fun p hp => ?_
      obtain ⟨s, v, hs, hv⟩ := hshape p.1 (Dict.mem_keys_of_mem hp)
      have hget := Dict.get_of_mem hd hp
      exact serializeMember_eq hs (hmembers _ (Dict.mem_of_get hs)).2.2
        (hE p.1 s p.2 hs hget).serializes
    let attrib := (d.map fun p => Part.elements (E p.1)).foldl Part.setAttribute (xmlns ser)
    refine ⟨[.mk (wrapName ser name) attrib .none (d.flatMap fun p => E p.1)],
      ⟨?_, ?_, fun _ => ⟨_, rfl⟩, ?_, ?_⟩⟩
    · simp [serialize, hfilter, hparts, bind, Except.bind, pure, Except.pure, attrib,
        List.flatMap_map, Part.toElements]
    · simp [Element.tag, elementName, Shape.serialization]
    · simp [leavesNothing]
    · rintro n ⟨rfl⟩
      have hmembers_parse := @parseMembers_eq isoparse ms traits.required_members
        (.element (.mk (wrapName ser name) attrib .none (d.flatMap fun p => E p.1)))
        (build_name_to_xml_node (.mk (wrapName ser name) attrib .none (d.flatMap fun p => E p.1))) d
        (fun p hp => (hmembers p hp).2.2) fun p hp => ?_
      · simp [parse_shape, Node.first, hmembers_parse, identifyEmpty, bind, Except.bind, pure,
          Except.pure]
      · have hs := Dict.get_of_mem hms hp
        rw [get_build_name_to_xml_node, ← htagOf p.1 p.2 hs, Element.children,
          filter_flatMap_tag hd htag (hinj p.1 (Dict.mem_keys_of_mem hp))]
        by_cases hk : p.1 ∈ d.keys
        · obtain ⟨v, hv⟩ := Dict.exists_get hk
          have ht := hE p.1 p.2 v hs hv
          rw [if_pos hk]
          split
          · next hgroup =>
            intro v' hv'
            rw [hv, Option.some.injEq] at hv'
            rw [← hv', ← ht.eq_nil_iff, ← groupNode_eq_none, hgroup]
          · next n hgroup =>
            refine ⟨v, hv, ?_, ht.parses n hgroup⟩
            rw [← Bool.not_eq_true, ← ht.eq_nil_iff, ← groupNode_eq_none, hgroup]
            simp
        · rw [if_neg hk]
          intro v hv
          exact absurd (Dict.mem_keys_of_mem (Dict.mem_of_get hv)) hk

/-- Every typed value is written and read. -/
theorem exists_travelsAs (texts : Texts) (isoparse : IsoParse) {s : Shape} {v : Value}
    (hv : Typed xmlValues s v) (hl : s.All Lawful) (name : Str) : ∃ es, TravelsAs texts isoparse s v name es := by
  induction hv generalizing name with
  | scalar h => exact travelsAs_scalar h name
  | list _ _ hvs ih =>
    exact travelsAs_list name hl.self (fun v hv => typed_isNone (hvs v hv))
      fun v hv name => ih v hv hl.list_member name
  | map _ hd _ _ hvs ih =>
    exact travelsAs_map name hl.self hd (fun p hp => typed_isNone (hvs p hp))
      fun p hp name => ih p hp hl.map_value name
  | @struct ser traits ms d hsize hd hkey hkeys hrequired hnone hmem ih =>
    refine travelsAs_struct name hl.self
      (.struct hsize hd hkey hkeys hrequired hnone hmem) fun k s v hs hv name => ?_
    exact ih k s v hs hv (fun hn => hnone k (hn ▸ hv)) (hl.struct_member _ (Dict.mem_of_get hs)) name

end

/-! ## Nothing is lost but empty containers -/

theorem get_identifyMembers {required : List Str} {ms : Dict Str Shape} (hms : ms.WF)
    {d : Dict Str Value} (hrequired : ∀ k ∈ required, k ∈ ms.keys → k ∈ d.keys)
    (hfull : ∀ k s v, ms.get k = some s → d.get k = some v → leavesNothing s v = false) (k : Str) :
    Dict.get (identifyMembers required ms d) k =
      (ms.get k).bind fun s => (d.get k).map (identifyEmpty s) := by
  let g : Str → Shape → Option Value := fun k s => (d.get k).map (identifyEmpty s)
  have hmap : ∀ ms' : Dict Str Shape, (∀ p ∈ ms', ms.get p.1 = some p.2) →
      identifyMembers required ms' d = Dict.filterMap g ms' := by
    intro ms' hsub
    induction ms' with
    | nil => rfl
    | cons p ms' ih =>
      obtain ⟨n, s⟩ := p
      rw [List.forall_mem_cons] at hsub
      rw [identifyMembers, Dict.filterMap, ih hsub.2]
      rcases hv : d.get n with _ | v
      · have hr : n ∉ required := fun hr => (Dict.get_eq_none_iff d n).mp hv
          (hrequired n hr (Dict.mem_keys_of_mem (Dict.mem_of_get hsub.1)))
        simp [hr, g, hv]
      · simp [hfull n s v hsub.1 hv, g, hv]
  rw [hmap ms fun p hp => Dict.get_of_mem hms hp, Dict.get_filterMap hms]

/-- No empty flattened container is a member of a structure, at any depth. -/
inductive Full : Shape → Value → Prop
  | scalar {ser t v} : Full (.scalar ser t) v
  | list {ser m vs} : (∀ v ∈ vs, Full m v) → Full (.list ser m) (.list vs)
  | map {ser key s} {d : Dict Str Value} : (∀ p ∈ d, Full s p.2) → Full (.map ser key s) (.dict d)
  | struct {ser traits} {ms : Dict Str Shape} {d : Dict Str Value} :
      (∀ k s v, ms.get k = some s → d.get k = some v → leavesNothing s v = false) →
      (∀ k s v, ms.get k = some s → d.get k = some v → Full s v) →
      Full (.struct ser traits ms) (.dict d)

theorem same_identifyEmpty {s : Shape} {v : Value} (hv : Typed xmlValues s v) (hl : s.All Lawful)
    (hfull : Full s v) : v.Same (identifyEmpty s v) := by
  induction hv with
  | @scalar ser t v _ => cases v <;> exact .refl _
  | list _ _ _ ih =>
    cases hfull with
    | list hfull =>
      rw [identifyEmpty]
      refine .list ?_
      rw [List.forall₂_map_right_iff, List.forall₂_same]
      exact fun v hv => ih v hv hl.list_member (hfull v hv)
  | @map ser key s d _ _ _ _ _ ih =>
    cases hfull with
    | map hfull =>
      rw [identifyEmpty]
      refine .dict_of_get fun k => ?_
      have hget := Dict.get_map (f := id) (g := fun _ => identifyEmpty s) (d := d) (k := k)
        fun _ _ h => h
      simp only [id_eq] at hget
      rw [hget]
      rcases hv : d.get k with _ | v
      · simp
      · have hmem := Dict.mem_of_get hv
        simpa using ih _ hmem hl.map_value (hfull _ hmem)
  | @struct ser traits ms d _ _ _ hkeys hrequired hnone _ ih =>
    cases hfull with
    | struct hleaves hfull =>
      rw [identifyEmpty]
      refine .dict_of_get fun k => ?_
      rw [get_identifyMembers hl.self.1 (hrequired trivial) hleaves]
      rcases hv : d.get k with _ | v
      · cases ms.get k <;> simp
      · obtain ⟨s, hs⟩ := Dict.exists_get (hkeys k (Dict.mem_keys_of_mem (Dict.mem_of_get hv)))
        simpa [hs] using ih k s v hs hv (fun hn => hnone k (hn ▸ hv))
          (hl.struct_member _ (Dict.mem_of_get hs)) (hfull k s v hs hv)

/-- **Round trip.** A structure is written as one element and read as the same
value, but for flattened containers that are empty. -/
theorem parse_serialize (texts : Texts) (isoparse : IsoParse) {ser : Serialization} {traits : StructureTraits}
    {ms : Dict Str Shape} {v : Value} (hl : (Shape.struct ser traits ms).All Lawful)
    (hv : Typed xmlValues (.struct ser traits ms) v) (name : Str) :
    ∃ e r, serialize texts (.struct ser traits ms) v name = .ok [e] ∧
      parse_shape isoparse (.struct ser traits ms) (.element e) = .ok r ∧
      (identifyEmpty (.struct ser traits ms) v).Same r ∧
      (Full (.struct ser traits ms) v → v.Same r) := by
  obtain ⟨es, h⟩ := exists_travelsAs texts isoparse hv hl name
  obtain ⟨e, rfl⟩ := h.single rfl
  exact ⟨e, _, h.serializes, h.parses _ rfl, .refl _, same_identifyEmpty hv hl⟩

/-- A flattened list of one structure and a map of one entry. -/
theorem grants_parse_serialize :
    let s : Shape := .struct { name := some "Policy".toList } { required_members := ["l".toList] }
      [("l".toList, .list { flattened := true } (.struct { name := some "Grant".toList } {}
        [("id".toList, .scalar {} .integer)])), ("m".toList, .map {} {} (.scalar {} .blob))]
    let v : Value := .dict [("l".toList, .list [.dict [("id".toList, .int (-7))]]),
      ("m".toList, .dict [("k".toList, .bytes [0, 255])])]
    ∃ e r, serialize (xmlTexts fun _ => []) s v "Policy".toList = .ok [e] ∧
      parse_shape (fun _ => .error .valueError) s (.element e) = .ok r ∧
      (identifyEmpty s v).Same r ∧ (Full s v → v.Same r) := by
  refine parse_serialize _ _ ?_ ?_ _
  · refine .struct ⟨by decide, by decide, by decide⟩ ?_
    refine List.forall_mem_cons.mpr ⟨?_, List.forall_mem_singleton.mpr ?_⟩
    · refine .list ⟨rfl, rfl⟩ (.struct ⟨by decide, by decide, by decide⟩ ?_)
      exact List.forall_mem_singleton.mpr (.scalar trivial)
    · exact .map ⟨rfl, rfl, rfl, by decide, by decide, by decide⟩ (.scalar trivial)
  · refine .struct_of_entries trivial (by decide) (fun _ => by decide) ?_
    refine List.forall_mem_cons.mpr ⟨⟨trivial, nofun, _, rfl, fun _ => ?_⟩,
      List.forall_mem_singleton.mpr ⟨trivial, nofun, _, rfl, fun _ => ?_⟩⟩
    · refine .list trivial (fun _ _ => trivial) (List.forall_mem_singleton.mpr ?_)
      refine .struct_of_entries trivial (by decide) (fun _ => by decide) (List.forall_mem_singleton.mpr ?_)
      exact ⟨trivial, nofun, _, rfl, fun _ => .scalar trivial⟩
    · refine .map trivial (by decide) (fun _ _ => trivial) (fun _ _ => trivial)
        (List.forall_mem_singleton.mpr ?_)
      exact .scalar trivial

/-- The key and the value of an entry cannot be told apart by one name, a nested
`resultWrapper` renames the element of a member, and braces in a name are taken
for a namespace. -/
theorem ambiguous_names_lost :
    let str : Shape := .scalar {} .string
    let member := fun s => Shape.struct {} {} [("a".toList, s)]
    let texts := xmlTexts fun _ => []
    (∃ e r, let s := member (.map {} { name := some "value".toList } str)
      let v := Value.dict [("a".toList, .dict [("k".toList, .str "x".toList)])]
      Typed xmlValues s v ∧ Full s v ∧ serialize texts s v [] = .ok [e] ∧
        parse_shape (fun _ => .error .valueError) s (.element e) = .ok r ∧ ¬ v.Same r) ∧
    (∃ e r, let s := member (.scalar { resultWrapper := some "W".toList } .string)
      let v := Value.dict [("a".toList, .str "x".toList)]
      Typed xmlValues s v ∧ Full s v ∧ serialize texts s v [] = .ok [e] ∧
        parse_shape (fun _ => .error .valueError) s (.element e) = .ok r ∧ ¬ v.Same r) ∧
    ∃ e r, let s := member (.scalar { name := some "{n}a".toList } .string)
      let v := Value.dict [("a".toList, .str "x".toList)]
      Typed xmlValues s v ∧ Full s v ∧ serialize texts s v [] = .ok [e] ∧
        parse_shape (fun _ => .error .valueError) s (.element e) = .ok r ∧ ¬ v.Same r := by
  have hlost : ∀ v : Value, ¬ Value.Same (.dict [("a".toList, v)]) (.dict []) := fun v h => by
    simpa using (h.mem_keys "a".toList).mp (by simp)
  have htyped : ∀ s v, Typed xmlValues s v →
      Typed xmlValues (.struct {} {} [("a".toList, s)]) (.dict [("a".toList, v)]) := by
    intro s v hv
    refine .struct_of_entries trivial (by simp) (by simp) (List.forall_mem_singleton.mpr ?_)
    refine ⟨trivial, fun hn => ?_, s, rfl, fun _ => hv⟩
    have := typed_isNone hv
    simp_all
  have hfull : ∀ s v, leavesNothing s v = false → Full s v →
      Full (.struct {} {} [("a".toList, s)]) (.dict [("a".toList, v)]) := by
    intro s v hleaves hv
    have hone : ∀ {α : Type} (k : Str) (x y : α), Dict.get [("a".toList, x)] k = some y → y = x := by
      intro α k x y h
      rw [Dict.get_cons] at h
      split at h <;> simp_all
    refine .struct (fun k s' v' hs hv' => ?_) fun k s' v' hs hv' => ?_ <;>
      rw [hone k _ _ hs, hone k _ _ hv'] <;> assumption
  refine ⟨⟨_, .dict [("a".toList, .dict [("x".toList, .none)])], htyped _ _ ?_, hfull _ _ rfl ?_,
    rfl, rfl, ?_⟩, ⟨_, .dict [], htyped _ _ (.scalar trivial), hfull _ _ rfl .scalar, rfl, rfl,
    hlost _⟩, ⟨_, .dict [], htyped _ _ (.scalar trivial), hfull _ _ rfl .scalar, rfl, rfl, hlost _⟩⟩
  · exact .map trivial (by simp) (fun _ _ => trivial) (fun _ _ => trivial)
      (List.forall_mem_singleton.mpr (.scalar trivial))
  · exact .map (List.forall_mem_singleton.mpr .scalar)
  · intro h
    have hinner := (h.get (k := "a".toList) rfl rfl).mem_keys "k".toList
    simp at hinner

end LocalStack.Aws.Protocol.RestXml
