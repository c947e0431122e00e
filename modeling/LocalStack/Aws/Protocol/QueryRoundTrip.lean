import LocalStack.Aws.Protocol.QueryParsing
import Mathlib.Algebra.Order.BigOperators.Group.List

/-! Which shapes keep all of their values. A flattened list must be sent below the name
that it is looked for, which leaves out a name of its own. A list must not hold
flattened lists of structures with required members: there the element with index 102
is read as a second element of the list with index 1. -/

namespace LocalStack.Aws.Protocol.Query
open LocalStack.Text LocalStack.Decimal LocalStack.OrderedDict LocalStack.Aws.Protocol.Parser

section

variable {N : Naming} {isoparse : IsoParse}

/-! ## What a parsed value says about its node -/

theorem of_collect {α : Type} {step : Nat → Except Error (Option α)} {as : List α} {i fuel : Nat}
    (h : collect step fuel i = .ok as) :
    (∀ j a, as[j]? = some a → step (i + j) = .ok (some a)) ∧ step (i + as.length) = .ok none := by
  induction fuel generalizing i as with
  | zero => cases h
  | succ fuel ih =>
    rw [collect] at h
    rcases hstep : step i with e | _ | a <;> rw [hstep] at h
    · cases h
    · cases h
      exact ⟨by simp, hstep⟩
    · rcases hrest : collect step fuel (i + 1) with e | as'
      · rw [hrest] at h
        cases h
      · rw [hrest] at h
        cases h
        obtain ⟨hmem, hend⟩ := ih hrest
        refine ⟨fun j b hj => ?_, ?_⟩
        · cases j with
          | zero =>
            cases hj
            exact hstep
          | succ j => exact Nat.add_right_comm i 1 j ▸ hmem j b hj
        · rw [List.length_cons, ← Nat.add_assoc, Nat.add_right_comm]
          exact hend

theorem of_parse_list {ser : Serialization} {m : Shape} {node : Params} {vs : List Value}
    (hl : (Shape.list ser m).All (Lawful N))
    (h : parse_shape treeView isoparse (.list ser m) node = .ok (.list vs)) :
    (∀ j v, vs[j]? = some v → process_member treeView isoparse (parse_shape treeView isoparse)
      (list_key treeView ser m (j + 1)) m node = .ok v) ∧
    process_member treeView isoparse (parse_shape treeView isoparse)
      (list_key treeView ser m (vs.length + 1)) m node = .ok .none := by
  have hpresent : ∀ (i : Nat) (o : Option Value), (do
      return present (← process_member treeView isoparse (parse_shape treeView isoparse)
        (list_key treeView ser m i) m node) : Except Error (Option Value)) = .ok o →
      process_member treeView isoparse (parse_shape treeView isoparse)
        (list_key treeView ser m i) m node = .ok (o.getD .none) := by
    intro i o ho
    rcases hp : process_member treeView isoparse (parse_shape treeView isoparse)
        (list_key treeView ser m i) m node with e | v
    · rw [hp] at ho
      cases ho
    · rw [hp] at ho
      cases v <;> cases ho <;> rfl
  rw [parse_shape_eq (namesMembers hl), parseNode, wrapErrors_eq_ok] at h
  simp only [treeView, parse_list] at h
  rcases hcollect : collect (fun i => do
      return present (← process_member treeView isoparse (parse_shape treeView isoparse)
        (list_key treeView ser m i) m node)) (size node + 1) 1 with e | as
  · rw [hcollect] at h
    cases h
  · obtain ⟨hmem, hend⟩ := of_collect hcollect
    have hvs : as = vs := by
      rw [hcollect] at h
      simp only [bind, Except.bind, pure, Except.pure] at h
      split at h <;> cases h
      rfl
    subst hvs
    refine ⟨fun j v hj => ?_, ?_⟩
    · rw [Nat.add_comm j 1]
      exact hpresent _ _ (hmem j v hj)
    · rw [Nat.add_comm as.length 1]
      exact hpresent _ _ hend

theorem of_parse_map {ser key : Serialization} {s : Shape} {node : Params} {d : List (Str × Value)}
    (hl : (Shape.map ser key s).All (Lawful N))
    (h : parse_shape treeView isoparse (.map ser key s) node = .ok (.dict d)) :
    ∃ ps, d = Dict.ofPairs ps ∧ ∀ j p, ps[j]? = some p →
      node.get (map_key ser (j + 1) (key_name key)) = some p.1 ∧
      process_member treeView isoparse (parse_shape treeView isoparse)
        (map_key ser (j + 1) (value_name treeView s)) s node = .ok p.2 := by
  rw [parse_shape_eq (namesMembers hl), parseNode, wrapErrors_eq_ok] at h
  simp only [treeView, parse_map] at h
  generalize hcollect : collect _ (size node + 1) 1 = result at h
  rcases result with e | ps
  · cases h
  · refine ⟨ps, ?_, fun j p hj => ?_⟩
    · simp only [bind, Except.bind, pure, Except.pure] at h
      split at h <;> cases h
      rfl
    · have hstep := (of_collect hcollect).1 j p hj
      rw [Nat.add_comm 1 j] at hstep
      rcases hv : process_member treeView isoparse (parse_shape treeView isoparse)
          (map_key ser (j + 1) (value_name treeView s)) s node with e | v
      · rw [hv] at hstep
        cases hstep
      · rw [hv] at hstep
        rcases hk : node.get (map_key ser (j + 1) (key_name key)) with _ | k <;>
          rw [hk] at hstep <;> cases v <;> cases hstep <;> exact ⟨rfl, rfl⟩

/-- The members that are set: those with a value, and the required ones. -/
theorem of_parseMembers {parse : Shape → Params → Except Error Value} {required : List Str}
    {ms : Dict Str Shape} {node : Params} {result : Dict Str Value}
    (h : parseMembers treeView isoparse parse required ms node = .ok result) (hwf : ms.WF) :
    (∀ k ∈ result.keys, k ∈ ms.keys) ∧ ∀ p ∈ ms, ∃ v,
      process_member treeView isoparse parse (structure_key treeView p.1 p.2) p.2 node = .ok v ∧
        result.get p.1 = if v.isNone = false ∨ p.1 ∈ required then some v else none := by
  induction ms generalizing result with
  | nil =>
    cases h
    exact ⟨by simp, by simp⟩
  | cons p ms ih =>
    obtain ⟨n, s⟩ := p
    rw [Dict.wf_cons] at hwf
    rw [parseMembers] at h
    rcases hp : process_member treeView isoparse parse (structure_key treeView n s) s node with e | v
    · rw [hp] at h
      cases h
    · rcases hms : parseMembers treeView isoparse parse required ms node with e | rest
      · rw [hp, hms] at h
        cases h
      · obtain ⟨hkeys, hget⟩ := ih hms hwf.2
        have hnot : n ∉ Dict.keys rest := fun hn => hwf.1 (hkeys n hn)
        have hne : ∀ q ∈ ms, n ≠ q.1 := fun q hq he => hwf.1 (List.mem_map.mpr ⟨q, hq, he.symm⟩)
        rw [hp, hms] at h
        simp only [bind, Except.bind, pure, Except.pure] at h
        rw [List.forall_mem_cons]
        split at h <;> cases h
        · next hset =>
          refine ⟨fun k hk => ?_, ⟨v, hp, ?_⟩, fun q hq => ?_⟩
          · rw [Dict.keys_cons, List.mem_cons] at hk ⊢
            exact hk.imp_right (hkeys k)
          · rw [if_pos hset, Dict.get_cons_self]
          · rw [Dict.get_cons_ne _ _ (hne q hq)]
            exact hget q hq
        · next hset =>
          refine ⟨fun k hk => ?_, ⟨v, hp, ?_⟩, hget⟩
          · rw [Dict.keys_cons]
            exact List.mem_cons_of_mem _ (hkeys k hk)
          · rw [if_neg hset, Dict.get_eq_none_iff]
            exact hnot

theorem get_normMembers (required : List Str) {ms : Dict Str Shape} (d : Dict Str Value)
    (hwf : ms.WF) : (∀ k ∈ Dict.keys (normMembers required ms d), k ∈ ms.keys) ∧ ∀ p ∈ ms,
      Dict.get (normMembers required ms d) p.1 =
        if (normMember p.2 (d.get p.1)).isNone = false ∨ p.1 ∈ required
        then some (normMember p.2 (d.get p.1)) else none := by
  induction ms with
  | nil => exact ⟨by simp [normMembers], by simp⟩
  | cons p ms ih =>
    obtain ⟨n, s⟩ := p
    rw [Dict.wf_cons] at hwf
    obtain ⟨hkeys, hget⟩ := ih hwf.2
    have hnot : n ∉ Dict.keys (normMembers required ms d) := fun hn => hwf.1 (hkeys n hn)
    have hne : ∀ q ∈ ms, n ≠ q.1 := fun q hq he => hwf.1 (List.mem_map.mpr ⟨q, hq, he.symm⟩)
    rw [normMembers_cons, List.forall_mem_cons]
    split
    · refine ⟨fun k hk => ?_, Dict.get_cons_self _ _ _, fun q hq => ?_⟩
      · rw [Dict.keys_cons, List.mem_cons] at hk ⊢
        exact hk.imp_right (hkeys k)
      · rw [Dict.get_cons_ne _ _ (hne q hq)]
        exact hget q hq
    · refine ⟨fun k hk => ?_, (Dict.get_eq_none_iff _ _).mpr hnot, hget⟩
      rw [Dict.keys_cons]
      exact List.mem_cons_of_mem _ (hkeys k hk)

theorem get_normMembers_of_ne_none {required : List Str} {ms : Dict Str Shape} {d : Dict Str Value}
    {p : Str × Shape} {v : Value} (hp : p ∈ ms) (hwf : ms.WF) (hv : d.get p.1 = some v)
    (hnorm : norm p.2 v ≠ .none) :
    Dict.get (normMembers required ms d) p.1 = some (norm p.2 v) := by
  have hfalse : (norm p.2 v).isNone = false := by
    rw [← Bool.not_eq_true, Value.isNone_iff]
    exact hnorm
  rw [(get_normMembers required d hwf).2 p hp, hv]
  exact if_pos (Or.inl hfalse)

/-! ## Parameters of one member -/

theorem cut_append (name : Str) (a b : Params) : cut name (a ++ b) = cut name a ++ cut name b := by
  simp [cut]

theorem cut_eq_nil {name : Str} {node : Params} (h : ∀ p ∈ node, ¬ name <+: p.1) :
    cut name node = [] := by
  rw [List.eq_nil_iff_forall_not_mem]
  intro q hq
  obtain ⟨p, hp, hname, -⟩ := mem_cut.mp hq
  exact h p hp hname

theorem cut_under {name : Str} {ps : List (Str × Str)} (h : ∀ p ∈ ps, p.1 ≠ []) :
    cut name (under name ps) = ps := by
  induction ps with
  | nil => rfl
  | cons p ps ih =>
    rw [List.forall_mem_cons] at h
    have hhead : cut name [(join name p.1, p.2)] = [p] := by
      simp [cut, join_of_ne_nil _ h.1]
    have hcons : under name (p :: ps) = [(join name p.1, p.2)] ++ under name ps := rfl
    rw [hcons, cut_append, hhead, ih h.2, List.singleton_append]

theorem cut_flattenMembers {ser : Serialization} {traits : StructureTraits}
    {ms : List (Str × Shape)} (hl : (Shape.struct ser traits ms).All (Lawful N)) {d : Dict Str Value}
    {p : Str × Shape} (hp : p ∈ ms) (hs : ¬ IsScalar treeView p.2) {v : Value}
    (hv : d.get p.1 = some v) :
    cut (N.key p.1 p.2) (flattenMembers N ms d) = flatten N p.2 v := by
  have hother : ∀ q ∈ ms, q.1 ≠ p.1 → ∀ w, cut (N.key p.1 p.2)
      (under (N.key q.1 q.2) (flatten N q.2 w)) = [] := by
    intro q hq hne w
    refine cut_eq_nil fun r hr hname => ?_
    obtain ⟨r', -, rfl⟩ := mem_under.mp hr
    exact hl.self.2.2 p hp q hq hne.symm (prefix_of_prefix_join (hl.self.2.1 p hp).1.2 hname)
  have hsub : ∀ ms' : Dict Str Shape, ms'.WF → (∀ q ∈ ms', q ∈ ms) →
      cut (N.key p.1 p.2) (flattenMembers N ms' d) =
        if p.1 ∈ ms'.keys then flatten N p.2 v else [] := by
    intro ms' hwf hms
    induction ms' with
    | nil => rfl
    | cons q ms' ih =>
      obtain ⟨n, s⟩ := q
      rw [Dict.wf_cons] at hwf
      rw [List.forall_mem_cons] at hms
      rw [flattenMembers, cut_append, ih hwf.2 hms.2, Dict.keys_cons]
      by_cases hn : n = p.1
      · subst hn
        have hs : s = p.2 := Option.some.inj
          ((Dict.get_of_mem hl.self.1 hms.1).symm.trans (Dict.get_of_mem hl.self.1 hp))
        subst hs
        rw [hv, if_neg hwf.1, if_pos List.mem_cons_self, List.append_nil]
        exact cut_under (flatten_key_ne_nil ‹_› (hl.struct_member p hp).self v)
      · have hmem : p.1 ∈ n :: Dict.keys ms' ↔ p.1 ∈ Dict.keys ms' := by
          simp [Ne.symm hn]
        rcases hw : Dict.get d n with _ | w
        · simp [hmem, cut]
        · have hnil := hother (n, s) hms.1 hn w
          dsimp only at hnil ⊢
          simp [hmem, hnil]
  have hmem : p.1 ∈ Dict.keys ms := Dict.mem_keys_of_mem hp
  rw [hsub ms hl.self.1 fun _ h => h, if_pos hmem]

theorem process_member_of_cut {parse : Shape → Params → Except Error Value} {name : Str} {s : Shape}
    {v : Value} {node : Params} (hs : ¬ IsScalar treeView s) (hl : s.All (Lawful N))
    (hne : flatten N s v ≠ []) (hcut : cut name node = flatten N s v) :
    process_member treeView isoparse parse name s node = parse s (flatten N s v) := by
  rw [process_member_container hs, filter_node_eq, hcut, if_neg hne,
    Dict.ofPairs_of_wf (wf_flatten hl v)]

/-! ## Values of a shape -/

theorem eq_of_mem_of_fst_eq {ms : Dict Str Shape} (hwf : ms.WF) {p q : Str × Shape} (hp : p ∈ ms)
    (hq : q ∈ ms) (h : p.1 = q.1) : p = q :=
  Prod.ext h (Option.some.inj ((Dict.get_of_mem hwf hp).symm.trans (h ▸ Dict.get_of_mem hwf hq)))

/-- A structure with all of its members. -/
def values (f : Str → Value) (ms : List (Str × Shape)) : Dict Str Value :=
  ms.map fun p => (p.1, f p.1)

theorem keys_values (f : Str → Value) (ms : List (Str × Shape)) :
    Dict.keys (values f ms) = Dict.keys ms := by
  simp [Dict.keys, values]

theorem get_values (f : Str → Value) {ms : Dict Str Shape} (hwf : ms.WF) {p : Str × Shape}
    (hp : p ∈ ms) : Dict.get (values f ms) p.1 = some (f p.1) := by
  refine Dict.get_of_mem ?_ (List.mem_map.mpr ⟨p, hp, rfl⟩)
  rwa [Dict.WF, keys_values]

/-- A value of a structure, put together from values of its members. -/
theorem typed_values (ser : Serialization) (traits : StructureTraits) {ms : Dict Str Shape}
    (hwf : ms.WF) {f : Str → Value} (h : ∀ p ∈ ms, Typed formValues p.2 (f p.1)) :
    Typed formValues (.struct ser traits ms) (.dict (values f ms)) := by
  refine .struct_of_entries trivial (by rwa [Dict.WF, keys_values])
    (fun _ k _ hk => by rwa [keys_values]) fun q hq => ?_
  obtain ⟨p, hp, rfl⟩ := List.mem_map.mp hq
  exact ⟨trivial, fun hnone => absurd hnone (typed_ne_none (h p hp)), p.2,
    Dict.get_of_mem hwf hp, fun _ => h p hp⟩

theorem exists_values {ms : Dict Str Shape} (hwf : ms.WF)
    (h : ∀ p ∈ ms, ∃ v, Typed formValues p.2 v) :
    ∃ f : Str → Value, ∀ p ∈ ms, Typed formValues p.2 (f p.1) := by
  have hex : ∀ n, ∃ v, ∀ p ∈ ms, p.1 = n → Typed formValues p.2 v := by
    intro n
    by_cases hmem : ∃ p ∈ ms, p.1 = n
    · obtain ⟨p, hp, rfl⟩ := hmem
      obtain ⟨v, hv⟩ := h p hp
      exact ⟨v, fun q hq hqp => eq_of_mem_of_fst_eq hwf hq hp hqp ▸ hv⟩
    · exact ⟨.none, fun p hp hpn => absurd ⟨p, hp, hpn⟩ hmem⟩
  choose f hf using hex
  exact ⟨f, fun p hp => hf p.1 p hp rfl⟩

/-- Another value of one member. -/
theorem typed_update {ms : Dict Str Shape} (hwf : ms.WF) {f : Str → Value}
    (h : ∀ p ∈ ms, Typed formValues p.2 (f p.1)) {p : Str × Shape} (hp : p ∈ ms) {v : Value}
    (hv : Typed formValues p.2 v) :
    ∀ q ∈ ms, Typed formValues q.2 (Function.update f p.1 v q.1) := by
  intro q hq
  by_cases hqp : q.1 = p.1
  · rw [hqp, Function.update_self, eq_of_mem_of_fst_eq hwf hq hp hqp]
    exact hv
  · rw [Function.update_of_ne hqp]
    exact h q hq

theorem exists_typed {s : Shape} (hl : s.All (Lawful N)) : ∃ v, Typed formValues s v := by
  induction s using Shape.induct with
  | scalar ser t =>
    cases t with
    | string => exact ⟨.str [], .scalar trivial⟩
    | integer | long => exact ⟨.int 0, .scalar trivial⟩
    | boolean => exact ⟨.bool true, .scalar trivial⟩
    | blob => exact ⟨.bytes [], .scalar trivial⟩
    | timestamp => exact absurd rfl hl.self.1
    | float => exact absurd rfl hl.self.2.1
    | double => exact absurd rfl hl.self.2.2
  | list ser m _ => exact ⟨.list [], .list trivial (by simp) (by simp)⟩
  | map ser key s _ =>
    exact ⟨.dict [], .map trivial Dict.wf_nil (by simp) (by simp) (by simp)⟩
  | struct ser traits ms ih =>
    obtain ⟨f, hf⟩ := exists_values hl.self.1 fun p hp => ih p hp (hl.struct_member p hp)
    exact ⟨_, typed_values ser traits hl.self.1 hf⟩

/-- Each value of a member is part of a value of the structure. -/
theorem exists_typed_member {ser : Serialization} {traits : StructureTraits}
    {ms : List (Str × Shape)} (hl : (Shape.struct ser traits ms).All (Lawful N)) {p : Str × Shape}
    (hp : p ∈ ms) {v : Value} (hv : Typed formValues p.2 v) :
    ∃ d, Typed formValues (.struct ser traits ms) (.dict d) ∧ Dict.get d p.1 = some v := by
  obtain ⟨f, hf⟩ := exists_values hl.self.1 fun q hq => exists_typed (hl.struct_member q hq)
  refine ⟨_, typed_values ser traits hl.self.1 (typed_update hl.self.1 hf hp hv), ?_⟩
  rw [get_values _ hl.self.1 hp, Function.update_self]

theorem typed_replicate (ser : Serialization) {m : Shape} {v : Value} (hl : m.All (Lawful N))
    (ht : Typed formValues m v) (hne : flatten N m v ≠ []) (n : Nat) :
    Typed formValues (.list ser m) (.list (List.replicate n v)) := by
  refine .list trivial (fun w hw => ?_) fun w hw => ?_ <;> rw [List.eq_of_mem_replicate hw]
  · exact mt (flatten_eq_nil_iff ht hl).mpr hne
  · exact ht

theorem exists_flatten {s : Shape} (hs : Fillable s) (hl : s.All (Lawful N)) :
    ∃ v, Typed formValues s v ∧ flatten N s v ≠ [] := by
  induction hs with
  | scalar =>
    obtain ⟨v, hv⟩ := exists_typed hl
    exact ⟨v, hv, by simp [flatten]⟩
  | list _ ih =>
    obtain ⟨v, hv, hne⟩ := ih hl.list_member
    exact ⟨_, typed_replicate _ hl.list_member hv hne 1,
      by simp [flatten, numbered, level_eq_nil, under_eq_nil, hne]⟩
  | map _ ih =>
    obtain ⟨v, hv, hne⟩ := ih hl.map_value
    refine ⟨.dict [([], v)], .map trivial (by simp) (by simp [formValues]) ?_ (by simpa using hv),
      by simp [flatten, numbered, level_eq_nil, under_eq_nil]⟩
    simpa [formValues] using mt (flatten_eq_nil_iff hv hl.map_value).mpr hne
  | struct hp _ ih =>
    obtain ⟨v, hv, hne⟩ := ih (hl.struct_member _ hp)
    obtain ⟨d, hd, hget⟩ := exists_typed_member hl hp hv
    refine ⟨_, hd, fun hnil => hne ?_⟩
    rw [flatten, flattenMembers_eq_nil] at hnil
    exact hnil _ hp v hget

/-! ## Shapes that keep their values -/

/-- Every value of a container that has parameters is parsed back from exactly these. -/
def ParsesOwn (N : Naming) (isoparse : IsoParse) (s : Shape) : Prop :=
  ¬ IsScalar treeView s → ∀ v, Typed formValues s v → flatten N s v ≠ [] →
    parse_shape treeView isoparse s (flatten N s v) = .ok (norm s v)

theorem covers_flatten {s : Shape} (hl : s.All (Lawful N)) (v : Value) : Covers N s v (flatten N s v) :=
  ⟨wf_flatten hl v, fun _ hp => hp, fun _ hk => Or.inl hk⟩

theorem parsesOwn_list {ser : Serialization} {m : Shape} (hl : (Shape.list ser m).All (Lawful N))
    (h : ParsesOwn N isoparse (.list ser m)) : ParsesOwn N isoparse m := by
  intro hs v ht hne
  have hflat : flatten N (.list ser m) (.list [v]) = under (list_key treeView ser m 1) (flatten N m v) := by
    have hkey := fun k => list_key_eq ser m 1 k
    rw [flatten, level]
    simp only [List.map_cons, List.map_nil, numbered, List.append_nil]
    cases hser : ser.flattened <;> simp only [hser] at hkey <;>
      simp [under, ← hkey]
  have hown := h not_isScalar_list (.list [v]) (typed_replicate _ hl.list_member ht hne 1)
    (by rw [hflat]; simpa [under_eq_nil] using hne)
  rw [norm_list (by simp)] at hown
  obtain ⟨hmem, -⟩ := of_parse_list hl hown
  rw [← hmem 0 _ rfl, hflat]
  exact (process_member_of_cut hs hl.list_member hne
    (cut_under (flatten_key_ne_nil hs hl.list_member.self v))).symm

/-- What is parsed below the name of a member, when the structure is parsed back. -/
theorem process_member_of_struct {ser : Serialization} {traits : StructureTraits}
    {ms : List (Str × Shape)} (hl : (Shape.struct ser traits ms).All (Lawful N)) {d : Dict Str Value}
    {p : Str × Shape} (hp : p ∈ ms) {v : Value} (hget : d.get p.1 = some v)
    (hnorm : norm p.2 v ≠ .none) {node : Params}
    (h : parse_shape treeView isoparse (.struct ser traits ms) node =
      .ok (.dict (normMembers traits.required_members ms d))) :
    process_member treeView isoparse (parse_shape treeView isoparse)
      (structure_key treeView p.1 p.2) p.2 node = .ok (norm p.2 v) := by
  rw [parse_struct_eq hl, wrapErrors_eq_ok] at h
  rcases hmembers : parseMembers treeView isoparse (parse_shape treeView isoparse)
      traits.required_members ms node with e | result
  · rw [hmembers] at h
    cases h
  · have hresult : result = normMembers traits.required_members ms d := by
      rw [hmembers, Except.map] at h
      split at h <;> cases h
      rfl
    obtain ⟨-, hget'⟩ := of_parseMembers hmembers hl.self.1
    obtain ⟨w, hw, hif⟩ := hget' p hp
    rw [hresult, get_normMembers_of_ne_none hp hl.self.1 hget hnorm] at hif
    split at hif <;> cases hif
    exact hw

/-- The value of a member that is parsed back with a structure. -/
theorem parse_member_of_struct {ser : Serialization} {traits : StructureTraits}
    {ms : List (Str × Shape)} (hl : (Shape.struct ser traits ms).All (Lawful N)) {d : Dict Str Value}
    {p : Str × Shape} (hp : p ∈ ms) (hkey : N.key p.1 p.2 = structure_key treeView p.1 p.2)
    (hs : ¬ IsScalar treeView p.2) {v : Value} (ht : Typed formValues p.2 v)
    (hget : d.get p.1 = some v) (hne : flatten N p.2 v ≠ [])
    (h : parse_shape treeView isoparse (.struct ser traits ms)
      (flatten N (.struct ser traits ms) (.dict d)) =
        .ok (.dict (normMembers traits.required_members ms d))) :
    parse_shape treeView isoparse p.2 (flatten N p.2 v) = .ok (norm p.2 v) := by
  have hnorm := mt (flatten_eq_nil_iff ht (hl.struct_member p hp)).mpr hne
  rw [← process_member_of_struct hl hp hget hnorm h]
  exact (process_member_of_cut hs (hl.struct_member p hp) hne
    (by rw [flatten, ← hkey]; exact cut_flattenMembers hl hp hs hget)).symm

theorem flatten_struct_ne_nil (ser : Serialization) (traits : StructureTraits)
    {ms : List (Str × Shape)} {d : Dict Str Value} {p : Str × Shape} (hp : p ∈ ms) {v : Value}
    (hget : d.get p.1 = some v) (hne : flatten N p.2 v ≠ []) :
    flatten N (.struct ser traits ms) (.dict d) ≠ [] := by
  rw [flatten, Ne, flattenMembers_eq_nil]
  exact fun hnil => hne (hnil p hp v hget)

theorem parsesOwn_struct {ser : Serialization} {traits : StructureTraits}
    {ms : List (Str × Shape)} (hl : (Shape.struct ser traits ms).All (Lawful N))
    (h : ParsesOwn N isoparse (.struct ser traits ms)) {p : Str × Shape} (hp : p ∈ ms)
    (hkey : N.key p.1 p.2 = structure_key treeView p.1 p.2) : ParsesOwn N isoparse p.2 := by
  intro hs v ht hne
  obtain ⟨d, hd, hget⟩ := exists_typed_member hl hp ht
  have hflat := flatten_struct_ne_nil ser traits hp hget hne
  have hown := h not_isScalar_struct _ hd hflat
  rw [norm_struct (mt (flatten_eq_nil_iff hd hl).mpr hflat)] at hown
  exact parse_member_of_struct hl hp hkey hs ht hget hne hown

theorem typed_singleton (ser key : Serialization) {s : Shape} {v : Value} (hl : s.All (Lawful N))
    (ht : Typed formValues s v) (hne : flatten N s v ≠ []) (k : Str) :
    Typed formValues (.map ser key s) (.dict [(k, v)]) := by
  have hnorm := mt (flatten_eq_nil_iff ht hl).mpr hne
  exact .map trivial (by simp) (by simp [formValues]) (by simpa [formValues] using hnorm)
    (by simpa using ht)

theorem flatten_singleton {ser key : Serialization} {s : Shape} (hl : Lawful N (.map ser key s))
    (k : Str) (v : Value) : flatten N (.map ser key s) (.dict [(k, v)]) =
      [(map_key ser 1 (key_name key), k)] ++
        under (map_key ser 1 (value_name treeView s)) (flatten N s v) := by
  obtain ⟨hkey, hvalue, -⟩ := hl
  have hkeys := fun k => map_key_eq ser 1 hkey.1 k
  have hvalues := fun k => map_key_eq ser 1 hvalue.1 k
  have hfirst := hkeys []
  simp only [join_nil] at hfirst
  rw [flatten, level]
  simp only [List.map_cons, List.map_nil, numbered, List.append_nil]
  cases hser : ser.flattened <;> simp only [hser] at hvalues hfirst <;>
    simp [under, ← hvalues, ← hfirst]

/-- The value of an entry that is parsed back with a map. -/
theorem parse_value_of_map {ser key : Serialization} {s : Shape}
    (hl : (Shape.map ser key s).All (Lawful N)) (hs : ¬ IsScalar treeView s) {k : Str} {v : Value}
    (hne : flatten N s v ≠ []) (h : parse_shape treeView isoparse (.map ser key s)
      (flatten N (.map ser key s) (.dict [(k, v)])) = .ok (.dict [(k, norm s v)])) :
    parse_shape treeView isoparse s (flatten N s v) = .ok (norm s v) := by
  obtain ⟨hkey, hvalue, -, hnot⟩ := hl.self
  have hcut : cut (map_key ser 1 (value_name treeView s))
      (flatten N (.map ser key s) (.dict [(k, v)])) = flatten N s v := by
    rw [flatten_singleton hl.self, cut_append,
      cut_under (flatten_key_ne_nil hs hl.map_value.self v), cut_eq_nil, List.nil_append]
    intro p hp hpre
    rw [List.mem_singleton.mp hp] at hpre
    exact hnot (map_key_starts (k := []) hvalue.1 hkey.1 hpre).2
  obtain ⟨ps, hps, hstep⟩ := of_parse_map hl h
  rcases ps with _ | ⟨p, _ | ⟨q, ps⟩⟩
  · cases hps
  · rw [Dict.ofPairs_of_wf (by simp)] at hps
    cases hps
    rw [← (hstep 0 _ rfl).2]
    exact (process_member_of_cut hs hl.map_value hne hcut).symm
  · have hmem := Dict.mem_keys_of_mem (Dict.mem_of_get (hstep 1 q rfl).1)
    exact absurd (map_key_end hl.self (covers_flatten hl _) hkey hmem) (Nat.lt_irrefl _)

theorem parsesOwn_map {ser key : Serialization} {s : Shape} (hl : (Shape.map ser key s).All (Lawful N))
    (h : ParsesOwn N isoparse (.map ser key s)) : ParsesOwn N isoparse s := by
  intro hs v ht hne
  have hown := h not_isScalar_map _ (typed_singleton ser key hl.map_value ht hne [])
    (by rw [flatten_singleton hl.self]; simp)
  have hone : norm (.map ser key s) (.dict [([], v)]) = .dict [([], norm s v)] := rfl
  exact parse_value_of_map hl hs hne (hown.trans (congrArg _ hone))

/-- A structure with a required member is not absent from a node. -/
theorem parse_required_ne_none {ser : Serialization} {traits : StructureTraits}
    {ms : List (Str × Shape)} (hl : (Shape.struct ser traits ms).All (Lawful N)) {p : Str × Shape}
    (hp : p ∈ ms) (hrequired : p.1 ∈ traits.required_members) (node : Params) :
    parse_shape treeView isoparse (.struct ser traits ms) node ≠ .ok .none := by
  rw [parse_struct_eq hl, Ne, wrapErrors_eq_ok]
  rcases hmembers : parseMembers treeView isoparse (parse_shape treeView isoparse)
      traits.required_members ms node with e | result
  · simp [Except.map]
  · obtain ⟨v, -, hget⟩ := (of_parseMembers hmembers hl.self.1).2 p hp
    rw [if_pos (Or.inr hrequired)] at hget
    have hne : result ≠ [] := List.ne_nil_of_mem (Dict.mem_of_get hget)
    simp [Except.map, hne]

/-- Of `102` lists with one structure each, the last is read as the second structure
of the first list. -/
theorem parse_replicate_ne {ser ser' : Serialization} {m : Shape} (hs : ¬ IsScalar treeView m)
    (hl : (Shape.list ser (.list ser' m)).All (Lawful N)) (hflat : ser'.flattened = true)
    (hnone : ∀ node, parse_shape treeView isoparse m node ≠ .ok .none) {v : Value}
    (hne : flatten N m v ≠ []) :
    let vs : Value := .list (List.replicate 102 (.list [v]))
    flatten N (.list ser (.list ser' m)) vs ≠ [] ∧
      parse_shape treeView isoparse (.list ser (.list ser' m))
        (flatten N (.list ser (.list ser' m)) vs) ≠ .ok (norm (.list ser (.list ser' m)) vs) := by
  have hl' := hl.list_member
  have hs' : ¬ IsScalar treeView (.list ser' m) := not_isScalar_list
  obtain ⟨q, hq⟩ := List.exists_mem_of_ne_nil _ hne
  have hinner : (join (natToStr 1) q.1, q.2) ∈ flatten N (.list ser' m) (.list [v]) :=
    mem_flatten_list.mpr ⟨0, v, rfl, mem_under.mpr ⟨q, hq, by rw [list_key_flattened hflat]⟩⟩
  have houter : (join (list_key treeView ser (.list ser' m) 102) (join (natToStr 1) q.1), q.2) ∈
      flatten N (.list ser (.list ser' m)) (.list (List.replicate 102 (.list [v]))) :=
    mem_flatten_list.mpr ⟨101, .list [v], List.getElem?_replicate_of_lt (by decide),
      mem_under.mpr ⟨_, hinner, rfl⟩⟩
  refine ⟨List.ne_nil_of_mem houter, fun hown => ?_⟩
  rw [norm_list (by simp)] at hown
  -- the node of the first list has a key that begins with `2`
  have hpre : list_key treeView ser (.list ser' m) 1 <+:
      join (list_key treeView ser (.list ser' m) 102) (join (natToStr 1) q.1) :=
    list_key_prefix_iff.mpr ((by decide : natToStr 1 <+: natToStr 102).trans (prefix_join _ _))
  obtain ⟨sub_node, hsub, hkey⟩ := filter_node_of_mem (Dict.mem_keys_of_mem houter) hpre
  rw [drop_list_key, join_of_ne_nil _ (join_ne_nil (natToStr_ne_nil 1) _)] at hkey
  obtain ⟨node, hnode, -⟩ := @filter_node_of_mem (natToStr 2) _ _ hkey
    ⟨'.' :: join (natToStr 1) q.1, rfl⟩
  -- the first list ends with its one structure all the same
  have hfirst := (of_parse_list hl hown).1 0 (norm (.list ser' m) (.list [v]))
    (by rw [List.getElem?_map, List.getElem?_replicate_of_lt (by decide)]; rfl)
  rw [norm_list (by simp), process_member_container hs', hsub] at hfirst
  have hend := (of_parse_list hl' hfirst).2
  rw [process_member_container hs, list_key_flattened hflat, List.map_singleton,
    List.length_singleton, hnode] at hend
  exact hnone node hend

theorem not_parsesOwn {ser ser' : Serialization} {m : Shape} (hs : ¬ IsScalar treeView m)
    (hl : (Shape.list ser (.list ser' m)).All (Lawful N)) (hflat : ser'.flattened = true)
    (hfill : Fillable m) (hnone : ∀ node, parse_shape treeView isoparse m node ≠ .ok .none) :
    ¬ ParsesOwn N isoparse (.list ser (.list ser' m)) := by
  intro h
  have hl' := hl.list_member
  obtain ⟨v, hv, hne⟩ := exists_flatten hfill hl'.list_member
  have hinner : Typed formValues (.list ser' m) (.list [v]) := typed_replicate _ hl'.list_member hv hne 1
  have hne' : flatten N (.list ser' m) (.list [v]) ≠ [] := by
    simpa [flatten, numbered, level_eq_nil, under_eq_nil] using hne
  obtain ⟨hflat', hlost⟩ := parse_replicate_ne hs hl hflat hnone hne
  exact hlost (h not_isScalar_list _ (typed_replicate _ hl' hinner hne' 102) hflat')

/-! ## Lists that are sent below another name -/

theorem key_length_le_size {k : Str} {node : Params} (h : k ∈ node.keys) : k.length ≤ size node := by
  obtain ⟨p, hp, rfl⟩ := List.mem_map.mp h
  exact List.le_sum_of_mem (List.mem_map.mpr ⟨p, hp, rfl⟩)

theorem exists_long_index (L : Nat) : ∃ n, 0 < n ∧ L < (natToStr n).length := by
  refine ⟨10 ^ (L + 1), Nat.pow_pos (by decide), ?_⟩
  have hle := @Nat.length_toDigits_le_iff 10 (10 ^ (L + 1)) (L + 1) (by decide) (Nat.succ_pos L)
  rw [← natToStr] at hle
  by_contra hlt
  exact absurd (hle.mp (by omega)) (Nat.lt_irrefl _)

/-- A key that begins with a name that the member is not sent below, without this name
and the character behind it. -/
theorem prefix_drop_of_ne {K n i k : Str} (hK : '.' ∉ K) (hne : n ≠ K) (hi : '.' ∉ i) (hk : k ≠ [])
    (hpre : K <+: join n k) (h : i <+: (join n k).drop (K.length + 1)) : i.length ≤ n.length := by
  obtain ⟨t, rfl⟩ := prefix_of_prefix_join hK hpre
  rw [join_of_ne_nil _ hk, List.append_assoc, ← List.drop_drop, List.drop_left] at h
  cases t with
  | nil => exact absurd (List.append_nil K) hne
  | cons c t =>
    have hlen := (prefix_of_prefix_dot hi h).length_le
    simp only [List.length_append, List.length_cons]
    omega

/-- An element of a list has a parameter below its index. -/
theorem exists_key_of_list {ser : Serialization} {m : Shape} {node : Params} {vs : List Value}
    (hl : (Shape.list ser m).All (Lawful N)) (hflat : ser.flattened = true)
    (h : parse_shape treeView isoparse (.list ser m) node = .ok (.list vs)) {j : Nat} {v : Value}
    (hj : vs[j]? = some v) (hv : v ≠ .none) : ∃ k ∈ node.keys, natToStr (j + 1) <+: k := by
  by_contra hnone
  push Not at hnone
  have hstep := (of_parse_list hl h).1 j v hj
  rw [list_key_flattened hflat, process_member_none hnone] at hstep
  exact hv (Except.ok.inj hstep).symm

/-- Below a name that a member is not sent with, no key begins with an index that is
longer than the keys of the other members. -/
theorem not_prefix_of_long {ser : Serialization} {traits : StructureTraits}
    {ms : List (Str × Shape)} (hl : (Shape.struct ser traits ms).All (Lawful N)) {p : Str × Shape}
    (hp : p ∈ ms) (hs : ¬ IsScalar treeView p.2)
    (hkey : N.key p.1 p.2 ≠ structure_key treeView p.1 p.2) {f : Str → Value} {i : Nat}
    (hlong : size (flatten N (.struct ser traits ms) (.dict (values f ms))) +
      (N.key p.1 p.2).length < (natToStr i).length) {w : Value} {sub_node : Params}
    (h : filter_node (structure_key treeView p.1 p.2) (flatten N (.struct ser traits ms)
      (.dict (values (Function.update f p.1 w) ms))) = some sub_node) :
    ∀ k ∈ sub_node.keys, ¬ natToStr i <+: k := by
  intro k hk hpre
  have hname := (hl.self.2.1 p hp).2
  obtain ⟨k', hk', hstarts, rfl⟩ := mem_keys_filter_node h hk
  obtain ⟨q, hq, v, hv, k, hk, rfl⟩ := keys_flatten_struct.mp hk'
  rw [get_values _ hl.self.1 hq, Option.some.injEq] at hv
  subst hv
  by_cases hqp : q.1 = p.1
  · obtain rfl := eq_of_mem_of_fst_eq hl.self.1 hq hp hqp
    have hne : k ≠ [] := by
      obtain ⟨r, hr, rfl⟩ := List.mem_map.mp hk
      exact flatten_key_ne_nil hs (hl.struct_member q hq).self _ r hr
    have hlen := prefix_drop_of_ne hname.2 hkey (natToStr_no_dot i) hne hstarts hpre
    omega
  · rw [Function.update_of_ne hqp] at hk
    have hle := key_length_le_size (keys_flatten_struct.mpr
      ⟨q, hq, _, get_values f hl.self.1 hq, k, hk, rfl⟩ :
        _ ∈ Dict.keys (flatten N (.struct ser traits ms) (.dict (values f ms))))
    have hlen := hpre.length_le
    rw [List.length_drop] at hlen
    omega

/-- A list that is sent below another name is lost when it is long enough. -/
theorem key_eq_of_parsesOwn {ser : Serialization} {traits : StructureTraits}
    {ms : List (Str × Shape)} (hl : (Shape.struct ser traits ms).All (Lawful N))
    (h : ParsesOwn N isoparse (.struct ser traits ms)) {p : Str × Shape} (hp : p ∈ ms)
    (hfill : Fillable p.2) : N.key p.1 p.2 = structure_key treeView p.1 p.2 := by
  by_contra hkey
  obtain ⟨n, s⟩ := p
  have hlist := mt (N.found n s) hkey
  push Not at hlist
  obtain ⟨ser', m, rfl, hflat⟩ := hlist
  rw [Ne, Bool.not_eq_false] at hflat
  have hlm := hl.struct_member _ hp
  cases hfill with
  | list hm =>
    obtain ⟨v, hv, hne⟩ := exists_flatten hm hlm.list_member
    obtain ⟨f, hf⟩ := exists_values hl.self.1 fun q hq => exists_typed (hl.struct_member q hq)
    obtain ⟨i, hi, hlong⟩ := exists_long_index
      (size (flatten N (.struct ser traits ms) (.dict (values f ms))) +
        (N.key n (.list ser' m)).length)
    have hnil : List.replicate i v ≠ [] := by simp [Nat.ne_of_gt hi]
    have hget := get_values (Function.update f n (.list (List.replicate i v))) hl.self.1 hp
    rw [Function.update_self] at hget
    have htyped := typed_replicate ser' hlm.list_member hv hne i
    have hd := typed_values ser traits hl.self.1 (typed_update hl.self.1 hf hp htyped)
    have hnorm : norm (.list ser' m) (.list (List.replicate i v)) ≠ .none := by
      rw [norm_list hnil]
      nofun
    have hstruct := flatten_struct_ne_nil ser traits hp hget
      (mt (flatten_eq_nil_iff htyped hlm).mp hnorm)
    have hown := h not_isScalar_struct _ hd hstruct
    rw [norm_struct (mt (flatten_eq_nil_iff hd hl).mpr hstruct)] at hown
    have hmember := process_member_of_struct hl hp hget hnorm hown
    rw [process_member_container not_isScalar_list, norm_list hnil] at hmember
    split at hmember
    · cases hmember
    · next hsub =>
      -- the last element is read nowhere below the name that the list is looked for
      obtain ⟨k, hk, hpre⟩ := exists_key_of_list hlm hflat hmember (j := i - 1)
        (by rw [List.getElem?_map, List.getElem?_replicate_of_lt (by omega)]; rfl)
        (mt (flatten_eq_nil_iff hv hlm.list_member).mpr hne)
      rw [Nat.sub_add_cancel hi] at hpre
      exact not_prefix_of_long hl hp not_isScalar_list hkey hlong hsub k hk hpre

theorem all_not_fillable {s : Shape} (h : ¬ Fillable s) : s.All fun t => ¬ Fillable t := by
  induction s using Shape.induct with
  | scalar ser t => exact absurd .scalar h
  | list ser m ih => exact .list h (ih fun hm => h (.list hm))
  | map ser key s ih => exact .map h (ih fun hs => h (.map hs))
  | struct ser traits ms ih => exact .struct h fun p hp => ih p hp fun hm => h (.struct hp hm)

theorem quietList_of_not_fillable {s : Shape} (h : ¬ Fillable s) : QuietList s := by
  cases s with
  | list ser m =>
    cases m with
    | list ser' m' =>
      cases m' with
      | struct ser'' traits ms => exact fun _ hfill => absurd (.list (.list hfill)) h
      | _ => trivial
    | _ => trivial
  | _ => trivial

theorem foundByName_of_not_fillable {s : Shape} (h : ¬ Fillable s) : FoundByName N s := by
  cases s with
  | struct ser traits ms => exact fun p hp hfill => absurd (.struct hp hfill) h
  | _ => trivial

/-- A shape that keeps all values finds its members by their names. -/
theorem foundByName_of_parsesOwn {s : Shape} (hl : s.All (Lawful N)) (h : ParsesOwn N isoparse s) :
    s.All (FoundByName N) := by
  induction s using Shape.induct with
  | scalar ser t => exact .scalar trivial
  | list ser m ih => exact .list trivial (ih hl.list_member (parsesOwn_list hl h))
  | map ser key s ih => exact .map trivial (ih hl.map_value (parsesOwn_map hl h))
  | struct ser traits ms ih =>
    refine .struct (fun p hp => key_eq_of_parsesOwn hl h hp) fun p hp => ?_
    by_cases hfill : Fillable p.2
    · exact ih p hp (hl.struct_member p hp)
        (parsesOwn_struct hl h hp (key_eq_of_parsesOwn hl h hp hfill))
    · exact (all_not_fillable hfill).imp fun _ => foundByName_of_not_fillable

/-- A shape that keeps all values has quiet lists only. -/
theorem quietLists_of_parsesOwn {s : Shape} (hl : s.All (Lawful N)) (h : ParsesOwn N isoparse s) :
    s.All QuietList := by
  induction s using Shape.induct with
  | scalar ser t => exact .scalar trivial
  | list ser m ih =>
    refine .list ?_ (ih hl.list_member (parsesOwn_list hl h))
    cases m with
    | list ser' m' =>
      cases m' with
      | struct ser'' traits ms =>
        exact fun hflat hfill p hp hrequired => not_parsesOwn not_isScalar_struct hl hflat
          hfill (parse_required_ne_none hl.list_member.list_member hp hrequired) h
      | _ => trivial
    | _ => trivial
  | map ser key s ih => exact .map trivial (ih hl.map_value (parsesOwn_map hl h))
  | struct ser traits ms ih =>
    refine .struct trivial fun p hp => ?_
    by_cases hfill : Fillable p.2
    · exact ih p hp (hl.struct_member p hp)
        (parsesOwn_struct hl h hp (key_eq_of_parsesOwn hl h hp hfill))
    · exact (all_not_fillable hfill).imp fun _ => quietList_of_not_fillable

/-! ## Values without empty containers -/

/-- Values without empty lists, maps and structures. -/
def fullValues : ValueRules := { formValues with size := fun n => 0 < n }

/-- A value without empty containers comes back as it was. -/
theorem same_norm {s : Shape} (hl : s.All (Lawful N)) {v : Value} (h : Typed fullValues s v) :
    v.Same (norm s v) ∧ norm s v ≠ .none := by
  induction h with
  | @scalar ser t v hv =>
    have hnorm : norm (.scalar ser t) v = v := by cases v <;> rfl
    rw [hnorm]
    exact ⟨.refl v, typed_ne_none (@Typed.scalar formValues ser t v hv)⟩
  | @list ser m vs hsize _ _ ih =>
    rw [norm_list (List.length_pos_iff.mp hsize)]
    refine ⟨.list ?_, by simp⟩
    rw [List.forall₂_map_right_iff, List.forall₂_same]
    exact fun v hv => (ih v hv hl.list_member).1
  | @map ser key s d hsize hwf _ _ _ ih =>
    have hnorm : norm (.map ser key s) (.dict d) = .dict (d.map fun p => (p.1, norm s p.2)) := by
      cases d with
      | nil => exact absurd hsize (Nat.lt_irrefl 0)
      | cons p d => simp [norm]
    rw [hnorm]
    refine ⟨.dict_of_get fun k => ?_, by simp⟩
    have hget := Dict.get_map (f := id) (g := fun _ v => norm s v) (d := d) (k := k) fun _ _ h => h
    rw [id] at hget
    rw [show (d.map fun p => (p.1, norm s p.2)) = d.map fun p => (id p.1, norm s p.2) from rfl, hget]
    rcases hv : d.get k with _ | v
    · exact .none
    · exact .some (ih _ (Dict.mem_of_get hv) hl.map_value).1
  | @struct ser traits ms d hsize hwf _ hkeys hrequired hnone _ ih =>
    have hmember : ∀ k v, d.get k = some v → ∃ s, ms.get k = some s ∧
        Value.Same v (norm s v) ∧ norm s v ≠ .none := by
      intro k v hv
      obtain ⟨s, hs⟩ := Dict.exists_get (hkeys k (Dict.mem_keys_of_mem (Dict.mem_of_get hv)))
      exact ⟨s, hs, ih k s v hs hv (fun hn => (hnone k (hn ▸ hv)).elim)
        (hl.struct_member _ (Dict.mem_of_get hs))⟩
    have hnorm : norm (.struct ser traits ms) (.dict d) ≠ .none := by
      obtain ⟨⟨k, v⟩, hp⟩ := List.exists_mem_of_ne_nil d (List.length_pos_iff.mp hsize)
      have hv := Dict.get_of_mem hwf hp
      obtain ⟨s, hs, -, hne⟩ := hmember k v hv
      exact fun h => hne (norm_struct_eq_none.mp h _ (Dict.mem_of_get hs) v hv)
    refine ⟨?_, hnorm⟩
    rw [norm_struct hnorm]
    refine .dict_of_get fun k => ?_
    rcases hv : d.get k with _ | v
    · have habsent := (Dict.get_eq_none_iff d k).mp hv
      have hnot : k ∉ Dict.keys (normMembers traits.required_members ms d) := fun hk => by
        have hkms := (get_normMembers traits.required_members d hl.self.1).1 k hk
        obtain ⟨s, hs⟩ := Dict.exists_get hkms
        have hget := (get_normMembers traits.required_members d hl.self.1).2 _ (Dict.mem_of_get hs)
        have hreq : k ∉ traits.required_members := fun hr => habsent (hrequired trivial k hr hkms)
        rw [hv, if_neg (by simp [normMember, hreq])] at hget
        exact (Dict.get_eq_none_iff _ k).mp hget hk
      rw [(Dict.get_eq_none_iff _ k).mpr hnot]
      exact .none
    · obtain ⟨s, hs, hsame, hne⟩ := hmember k v hv
      rw [get_normMembers_of_ne_none (p := (k, s)) (Dict.mem_of_get hs) hl.self.1 hv hne]
      exact .some hsame

/-! ## Input shapes -/

/-- Every value of an input shape is parsed back from its parameters, in any order. -/
def RoundTrips (N : Naming) (isoparse : IsoParse) (ser : Serialization) (traits : StructureTraits)
    (ms : List (Str × Shape)) : Prop :=
  ∀ d, Typed formValues (.struct ser traits ms) (.dict d) → ∀ params : Params, params.WF →
    (∀ p, p ∈ params ↔ p ∈ flatten N (.struct ser traits ms) (.dict d)) →
      parse treeView isoparse (.struct ser traits ms) params =
        .ok (.dict (normMembers traits.required_members ms d))

theorem roundTrips_of_heard {ser : Serialization} {traits : StructureTraits}
    {ms : List (Str × Shape)} (hl : (Shape.struct ser traits ms).All (Lawful N))
    (hheard : (Shape.struct ser traits ms).All (Heard N))
    (hnamed : (Shape.struct ser traits ms).All (NamedList N))
    (hquiet : (Shape.struct ser traits ms).All QuietList) : RoundTrips N isoparse ser traits ms := by
  intro d ht params hwf hparams
  have hcovers : Covers N (.struct ser traits ms) (.dict d) params :=
    ⟨hwf, fun p hp => (hparams p).mpr hp, fun k hk => by
      obtain ⟨p, hp, rfl⟩ := List.mem_map.mp hk
      exact Or.inl (Dict.mem_keys_of_mem ((hparams p).mp hp))⟩
  rw [parse, parse_struct_eq hl, parseMembers_flatten hl hheard.self ht hcovers fun p hp v htv hs hne =>
    parse_flatten (hl.struct_member p hp) (hheard.struct_member p hp) (hnamed.struct_member p hp)
      (hquiet.struct_member p hp) hs v htv hne]
  by_cases hnil : normMembers traits.required_members ms d = [] <;>
    simp [Except.map, hnil, Value.isNone]

/-- Where a structure has parameters, it is parsed from them as a member is. -/
theorem parse_shape_of_parse {ser : Serialization} {traits : StructureTraits}
    {ms : List (Str × Shape)} {d : Dict Str Value} {params : Params}
    (hnorm : norm (.struct ser traits ms) (.dict d) ≠ .none)
    (h : parse treeView isoparse (.struct ser traits ms) params =
      .ok (.dict (normMembers traits.required_members ms d))) :
    parse_shape treeView isoparse (.struct ser traits ms) params =
      .ok (.dict (normMembers traits.required_members ms d)) := by
  have hnil : normMembers traits.required_members ms d ≠ [] := fun hnil => hnorm (by
    rw [norm, hnil]
    rfl)
  rw [parse] at h
  generalize parse_shape treeView isoparse (.struct ser traits ms) params = result at h ⊢
  rcases result with e | w
  · cases h
  · rw [Except.map, Except.ok.injEq] at h
    split at h
    · exact absurd (Value.dict.inj h).symm hnil
    · rw [h]

theorem parsesOwn_of_roundTrips {ser : Serialization} {traits : StructureTraits}
    {ms : List (Str × Shape)} (hl : (Shape.struct ser traits ms).All (Lawful N))
    (h : RoundTrips N isoparse ser traits ms) : ParsesOwn N isoparse (.struct ser traits ms) := by
  intro _ v ht hne
  have htyped := ht
  cases ht with
  | @struct _ _ _ d _ _ _ _ _ _ _ =>
    have hnorm := mt (flatten_eq_nil_iff htyped hl).mpr hne
    rw [norm_struct hnorm]
    exact parse_shape_of_parse hnorm (h d htyped _ (wf_flatten hl _) fun _ => Iff.rfl)

theorem conditions_of_roundTrips {ser : Serialization} {traits : StructureTraits}
    {ms : List (Str × Shape)} (hl : (Shape.struct ser traits ms).All (Lawful N))
    (h : RoundTrips N isoparse ser traits ms) :
    (Shape.struct ser traits ms).All (FoundByName N) ∧
      (Shape.struct ser traits ms).All QuietList :=
  have hown := parsesOwn_of_roundTrips hl h
  ⟨foundByName_of_parsesOwn hl hown, quietLists_of_parsesOwn hl hown⟩

end

/-- **Round trip.** All values of an input shape are parsed back when each flattened list
is sent below the name that it is looked for and no list holds flattened lists of
structures with required members, and only then. -/
theorem roundTrips_iff_quietLists (isoparse : IsoParse) (ser : Serialization)
    (traits : StructureTraits) (ms : List (Str × Shape))
    (hl : (Shape.struct ser traits ms).All (Lawful .serialized)) :
    ((Shape.struct ser traits ms).All (NamedList .serialized) →
      (Shape.struct ser traits ms).All (Decided .serialized) →
        (RoundTrips .serialized isoparse ser traits ms ↔
          (Shape.struct ser traits ms).All (FoundByName .serialized) ∧
            (Shape.struct ser traits ms).All QuietList)) ∧
    (RoundTrips .serialized isoparse ser traits ms →
      (Shape.struct ser traits ms).All (FoundByName .serialized) ∧
        (Shape.struct ser traits ms).All QuietList) := by
  have hnecessary : RoundTrips .serialized isoparse ser traits ms →
      (Shape.struct ser traits ms).All (FoundByName .serialized) ∧
        (Shape.struct ser traits ms).All QuietList := conditions_of_roundTrips hl
  refine ⟨fun hnamed hdecided => ⟨hnecessary, fun ⟨hfound, hquiet⟩ => ?_⟩, hnecessary⟩
  exact roundTrips_of_heard hl (all_heard hfound hdecided) hnamed hquiet

/-- A flattened list of structures with a required member, beside a flattened list that
is named by its elements and a map of lists. -/
theorem filters_roundTrips :
    RoundTrips .serialized (fun _ => .error .valueError) {} {}
      [("Filters".toList, .list { flattened := true }
          (.struct {} { required_members := ["Name".toList] }
            [("Name".toList, .scalar {} .string),
              ("Values".toList, .list { name := some "Values".toList, flattened := true }
                (.scalar { name := some "Value".toList } .string))])),
        ("Tags".toList, .map {} {} (.list {} (.scalar {} .integer)))] := by
  refine ((roundTrips_iff_quietLists _ _ _ _ ?_).1 ?_ ?_).mpr ⟨?_, ?_⟩
  · refine .struct ⟨by decide, by decide, by decide⟩ (List.forall_mem_cons.mpr ⟨?_,
      List.forall_mem_singleton.mpr ?_⟩)
    · refine .list ⟨by decide, by decide⟩ (.struct ⟨by decide, by decide, by decide⟩
        (List.forall_mem_cons.mpr ⟨lawful_scalar (by decide), List.forall_mem_singleton.mpr ?_⟩))
      exact .list ⟨by decide, by decide⟩ (lawful_scalar (by decide))
    · exact .map ⟨by decide, by decide, by decide, by decide⟩
        (.list ⟨by decide, by decide⟩ (lawful_scalar (by decide)))
  · refine .struct trivial (List.forall_mem_cons.mpr ⟨?_, List.forall_mem_singleton.mpr ?_⟩)
    · refine .list (List.forall_mem_cons.mpr ⟨Or.inl (isScalar_scalar _ _),
        List.forall_mem_singleton.mpr (Or.inr ⟨'V', by decide, by decide⟩)⟩) (.struct trivial ?_)
      exact List.forall_mem_cons.mpr ⟨.scalar trivial,
        List.forall_mem_singleton.mpr (.list trivial (.scalar trivial))⟩
    · exact .map trivial (.list trivial (.scalar trivial))
  · refine .struct (decided_of_key_eq (by decide)) (List.forall_mem_cons.mpr ⟨?_,
      List.forall_mem_singleton.mpr (.map trivial (.list trivial (.scalar trivial)))⟩)
    refine .list trivial (.struct (decided_of_key_eq (by decide)) ?_)
    exact List.forall_mem_cons.mpr ⟨.scalar trivial,
      List.forall_mem_singleton.mpr (.list trivial (.scalar trivial))⟩
  · refine .struct (foundByName_of_key_eq (by decide)) (List.forall_mem_cons.mpr ⟨?_,
      List.forall_mem_singleton.mpr (.map trivial (.list trivial (.scalar trivial)))⟩)
    refine .list trivial (.struct (foundByName_of_key_eq (by decide)) ?_)
    exact List.forall_mem_cons.mpr ⟨.scalar trivial,
      List.forall_mem_singleton.mpr (.list trivial (.scalar trivial))⟩
  · refine .struct trivial (List.forall_mem_cons.mpr ⟨?_,
      List.forall_mem_singleton.mpr (.map trivial (.list trivial (.scalar trivial)))⟩)
    refine .list trivial (.struct trivial (List.forall_mem_cons.mpr ⟨.scalar trivial, ?_⟩))
    exact List.forall_mem_singleton.mpr (.list trivial (.scalar trivial))

/-- The statements of 102 lists, of which the last is read below the first one. -/
theorem statements_mixed_up :
    let statement : Shape := .struct {} { required_members := ["Id".toList] }
      [("Id".toList, .scalar {} .string)]
    let members : List (Str × Shape) :=
      [("Policies".toList, .list {} (.list { flattened := true } statement))]
    let d : List (Str × Value) := [("Policies".toList, .list (List.replicate 102
      (.list [.dict [("Id".toList, .str "a".toList)]])))]
    Typed formValues (.struct {} {} members) (.dict d) ∧ ∀ isoparse,
      parse treeView isoparse (.struct {} {} members)
        (flatten .serialized (.struct {} {} members) (.dict d)) ≠ .ok (.dict d) := by
  intro statement members d
  have hstatement : Typed formValues statement (.dict [("Id".toList, .str "a".toList)]) := by
    refine .struct_of_entries trivial (by decide) (fun _ => by decide) (List.forall_mem_singleton.mpr ?_)
    exact ⟨trivial, nofun, _, rfl, fun _ => .scalar trivial⟩
  have hlawful : statement.All (Lawful .serialized) :=
    .struct ⟨by decide, by decide, by decide⟩ (List.forall_mem_singleton.mpr (lawful_scalar (by decide)))
  have hlist : (Shape.list {} (.list { flattened := true } statement)).All (Lawful .serialized) :=
    .list ⟨by decide, by decide⟩ (.list ⟨by decide, by decide⟩ hlawful)
  have hmembers : (Shape.struct {} {} members).All (Lawful .serialized) :=
    .struct ⟨by decide, by decide, by decide⟩ (List.forall_mem_singleton.mpr hlist)
  have htyped := typed_replicate {} hlist.list_member
    (typed_replicate { flattened := true } hlawful hstatement (by decide) 1) (by decide) 102
  refine ⟨?_, fun isoparse h => ?_⟩
  · refine .struct_of_entries trivial (by decide) (fun _ => by decide) (List.forall_mem_singleton.mpr ?_)
    exact ⟨trivial, nofun, _, rfl, fun _ => htyped⟩
  · obtain ⟨hne, hlost⟩ := @parse_replicate_ne _ isoparse _ _ _ not_isScalar_struct
      hlist rfl (parse_required_ne_none hlawful List.mem_cons_self List.mem_cons_self)
      (v := .dict [("Id".toList, .str "a".toList)]) (by decide)
    have hnorm : norm (.struct {} {} members) (.dict d) = .dict d := rfl
    have hvalue : normMembers [] members d = d := rfl
    have hparse := parse_shape_of_parse (by rw [hnorm]; nofun) (h.trans (by rw [hvalue]))
    exact hlost (parse_member_of_struct hmembers List.mem_cons_self rfl not_isScalar_list
      htyped rfl hne hparse)

end LocalStack.Aws.Protocol.Query
