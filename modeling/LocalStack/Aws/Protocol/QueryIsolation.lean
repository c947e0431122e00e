import LocalStack.Aws.Protocol.Query

/-! Which parameters of a form can influence the parsed value of one member. The
names that `_filter_node` takes off the keys are compared as prefixes only, so a
key of another name is read below this one when it begins with it. -/

namespace LocalStack.Aws.Protocol.Query
open LocalStack.Text LocalStack.OrderedDict LocalStack.Aws.Protocol.Parser

section

variable {ι : Type} {view : ι → ShapeNode ι} {isoparse : IsoParse}

/-! ## Shapes that have a value -/

theorem map_ne_none {α : Type} {f : α → Value} (hf : ∀ a, f a ≠ .none) (r : Except Error α) :
    r.map f ≠ .ok .none := by
  cases r with
  | error e => simp [Except.map]
  | ok a => simpa [Except.map] using hf a

/-- Text never parses to `None`. -/
theorem parse_text_ne_none (ser : Serialization) (t : ScalarType) (text : Str) :
    wrapErrors (parseScalar isoparse .iso8601 ser (.str text) t) ≠ .ok .none := by
  rw [Ne, wrapErrors_eq_ok]
  cases t with
  | string => simp [parseScalar]
  | integer | long => exact map_ne_none (fun _ => by simp) _
  | float | double => exact map_ne_none (fun x => by cases x <;> simp [Value.ofNumber]) _
  | boolean =>
    simp only [parseScalar, parse_boolean, parseBooleanText]
    split
    · simp
    · split <;> simp
  | blob => exact map_ne_none (fun _ => by simp) _
  | timestamp =>
    simp only [parseScalar, parse_timestamp]
    cases ser.timestampFormat.getD .iso8601 with
    | iso8601 => exact map_ne_none (fun _ => by simp) _
    | unixtimestamp =>
      simp only [convert_str_to_timestamp]
      cases pyInt (.str text) with
      | error e => simp [bind, Except.bind]
      | ok n =>
        simp only [bind, Except.bind]
        cases Datetime.fromtimestamp n <;> simp [pure, Except.pure]

/-- A loop whose first turn is not `None` has a value or an error. -/
theorem collect_ne_nil {α : Type} {step : Nat → Except Error (Option α)} (fuel : Nat) {i : Nat}
    (h : step i ≠ .ok none) : collect step fuel i ≠ .ok [] := by
  cases fuel with
  | zero => simp [collect]
  | succ fuel =>
    rw [collect]
    rcases hs : step i with e | _ | a
    · simp
    · exact absurd hs h
    · cases collect step fuel (i + 1) <;> simp [Except.map]

/-- `keys` below the name of a member give it a value or an error, whatever else
is in the node. -/
def Probes (view : ι → ShapeNode ι) (isoparse : IsoParse) (s : ι) (name : Str)
    (keys : List Str) : Prop :=
  keys ≠ [] ∧ ∀ (fuel : Nat) (node : Params), (∀ k ∈ keys, k ∈ node.keys) →
    process_member view isoparse (parseFuel view isoparse fuel) name s node ≠ .ok .none

/-- The same for the node that a container is parsed from. -/
def NodeProbes (view : ι → ShapeNode ι) (isoparse : IsoParse) (s : ι) (keys : List Str) : Prop :=
  ∀ (fuel : Nat) (node : Params), (∀ k ∈ keys, k ∈ node.keys) →
    parseNode view isoparse (parseFuel view isoparse fuel) s node ≠ .ok .none

/-- The keys of a container become those of a member when its name is put before
them, with any character between. -/
theorem probes_of_nodeProbes {s : ι} (hs : ¬ IsScalar view s) {keys : List Str}
    (h : NodeProbes view isoparse s keys) (name : Str) (c : Char) :
    Probes view isoparse s name ((([] : Str) :: keys).map fun k => name ++ c :: k) := by
  refine ⟨by simp, fun fuel node hkeys => ?_⟩
  have hsub : ∀ k ∈ ([] : Str) :: keys, ∃ sub_node, filter_node name node = some sub_node ∧
      k ∈ Dict.keys sub_node := fun k hk => by
    obtain ⟨sub_node, hf, hmem⟩ := filter_node_of_mem (hkeys _ (List.mem_map_of_mem hk))
      (List.prefix_append name (c :: k))
    refine ⟨sub_node, hf, ?_⟩
    have hdrop : (name ++ c :: k).drop (name.length + 1) = k := by
      rw [← List.drop_drop, List.drop_left]
      rfl
    rwa [hdrop] at hmem
  obtain ⟨sub_node, hf, -⟩ := hsub [] List.mem_cons_self
  rw [process_member_container hs, hf]
  cases fuel with
  | zero => simp [parseFuel]
  | succ fuel =>
    refine h fuel sub_node fun k hk => ?_
    obtain ⟨sub_node', hf', hmem⟩ := hsub k (List.mem_cons_of_mem _ hk)
    rw [hf, Option.some.injEq] at hf'
    rwa [hf']

theorem probes_scalar {s : ι} {ser t} (h : view s = .scalar ser t) (name : Str) :
    Probes view isoparse s name [name] := by
  refine ⟨by simp, fun fuel node hkeys => ?_⟩
  obtain ⟨text, htext⟩ := Dict.exists_get (hkeys name (List.mem_singleton.mpr rfl))
  rw [process_member_scalar h, htext]
  exact parse_text_ne_none ser t text

theorem nodeProbes_list {s : ι} {ser m} (h : view s = .list ser m) {keys : List Str}
    (hm : Probes view isoparse m (list_key view ser m 1) keys) :
    NodeProbes view isoparse s keys := by
  intro fuel node hkeys
  have hstep := hm.2 fuel node hkeys
  simp only [parseNode, h, Ne, wrapErrors_eq_ok, parse_list]
  generalize hf : (fun i => do
    return present (← process_member view isoparse (parseFuel view isoparse fuel)
      (list_key view ser m i) m node)) = step
  have hne : step 1 ≠ .ok none := by
    rw [← hf]
    dsimp only
    rcases hp : process_member view isoparse _ _ m node with e | v
    · simp [bind, Except.bind]
    · have hv : v.isNone = false := by
        rw [← Bool.not_eq_true, Value.isNone_iff]
        rintro rfl
        exact hstep hp
      simp [bind, Except.bind, pure, Except.pure, present, hv]
  have hcollect := collect_ne_nil (size node + 1) hne
  rcases hc : collect step (size node + 1) 1 with e | result
  · simp [bind, Except.bind]
  · have hr : result ≠ [] := fun hr => hcollect (hr ▸ hc)
    simp [bind, Except.bind, pure, Except.pure, hr]

theorem nodeProbes_map {s : ι} {ser key v} (h : view s = .map ser key v) {keys : List Str}
    (hv : Probes view isoparse v (map_key ser 1 (value_name view v)) keys) :
    NodeProbes view isoparse s (map_key ser 1 (key_name key) :: keys) := by
  intro fuel node hkeys
  rw [List.forall_mem_cons] at hkeys
  have hstep := hv.2 fuel node hkeys.2
  obtain ⟨k, hk⟩ := Dict.exists_get hkeys.1
  simp only [parseNode, h, Ne, wrapErrors_eq_ok, parse_map]
  generalize hc : collect _ (size node + 1) 1 = r
  rcases r with e | result
  · simp [bind, Except.bind]
  · have hr : result ≠ [] := by
      rintro rfl
      refine collect_ne_nil _ ?_ hc
      rcases hp : process_member view isoparse _ _ v node with e | w
      · simp [bind, Except.bind]
      · have hw : w.isNone = false := by
          rw [← Bool.not_eq_true, Value.isNone_iff]
          rintro rfl
          exact hstep hp
        simp [bind, Except.bind, pure, Except.pure, present, hw, hk]
    simp [bind, Except.bind, pure, Except.pure, hr]

/-- A member that has a value or is required is in the result. -/
theorem parseMembers_ne_nil {parse : ι → Params → Except Error Value} {required : List Str}
    {ms : List (Str × ι)} {node : Params} {p : Str × ι} (hp : p ∈ ms)
    (h : p.1 ∈ required ∨
      process_member view isoparse parse (structure_key view p.1 p.2) p.2 node ≠ .ok .none) :
    parseMembers view isoparse parse required ms node ≠ .ok [] := by
  induction ms with
  | nil => simp at hp
  | cons q ms ih =>
    obtain ⟨n, s⟩ := q
    rw [parseMembers]
    rcases hq : process_member view isoparse parse (structure_key view n s) s node with e | v
    · simp [bind, Except.bind]
    · rcases hr : parseMembers view isoparse parse required ms node with e | result
      · simp [bind, Except.bind]
      · rcases List.mem_cons.mp hp with rfl | hmem
        · have hkeep : v.isNone = false ∨ n ∈ required := by
            rcases h with hreq | hne
            · exact Or.inr hreq
            · refine Or.inl ?_
              rw [← Bool.not_eq_true, Value.isNone_iff]
              rintro rfl
              exact hne hq
          simp [bind, Except.bind, pure, Except.pure, hkeep]
        · have hne : result ≠ [] := fun hnil => ih hmem (hnil ▸ hr)
          by_cases hkeep : v.isNone = false ∨ n ∈ required <;>
            simp [bind, Except.bind, pure, Except.pure, hkeep, hne]

theorem nodeProbes_struct {s : ι} {ser traits ms} (h : view s = .struct ser traits ms)
    {keys : List Str} {p : Str × ι} (hp : p ∈ ms)
    (hm : p.1 ∈ traits.required_members ∨
      Probes view isoparse p.2 (structure_key view p.1 p.2) keys) :
    NodeProbes view isoparse s keys := by
  intro fuel node hkeys
  have hne := @parseMembers_ne_nil ι view isoparse (parseFuel view isoparse fuel) traits.required_members ms
    node p hp
    (hm.imp_right fun hm => hm.2 fuel node hkeys)
  simp only [parseNode, h, Ne, wrapErrors_eq_ok]
  rcases hr : parseMembers view isoparse _ traits.required_members ms node with e | result
  · simp [Except.map]
  · have hnil : result ≠ [] := fun hnil => hne (hnil ▸ hr)
    simp [Except.map, hnil]

/-- A live shape has probes below every name, with any character behind it when
it is a container. -/
theorem exists_nodeProbes (isoparse : IsoParse) {s : ι} (hl : Live view s) :
    IsScalar view s ∨ (¬ IsScalar view s ∧ ∃ keys, NodeProbes view isoparse s keys) := by
  have hprobes : ∀ {m : ι},
      (IsScalar view m ∨ (¬ IsScalar view m ∧ ∃ keys, NodeProbes view isoparse m keys)) →
      ∀ name, ∃ keys, Probes view isoparse m name keys := by
    rintro m (⟨ser, t, hm⟩ | ⟨hm, keys, hkeys⟩) name
    · exact ⟨_, probes_scalar hm name⟩
    · exact ⟨_, probes_of_nodeProbes hm hkeys name '.'⟩
  induction hl with
  | scalar h => exact Or.inl ⟨_, _, h⟩
  | list h _ ih =>
    obtain ⟨keys, hkeys⟩ := hprobes ih _
    exact Or.inr ⟨by simp [IsScalar, h], _, nodeProbes_list h hkeys⟩
  | map h _ ih =>
    obtain ⟨keys, hkeys⟩ := hprobes ih _
    exact Or.inr ⟨by simp [IsScalar, h], _, nodeProbes_map h hkeys⟩
  | required h hr =>
    obtain ⟨p, hp, hr⟩ := hr
    exact Or.inr ⟨by simp [IsScalar, h], [], nodeProbes_struct h hp (Or.inl hr)⟩
  | @member s ser traits ms p h hp _ ih =>
    obtain ⟨keys, hkeys⟩ := hprobes ih (structure_key view p.1 p.2)
    exact Or.inr ⟨by simp [IsScalar, h], keys, nodeProbes_struct h hp (Or.inr hkeys)⟩

/-! ## Interference -/

/-- The parameters that are named `p` or are below it. -/
def Below (p k : Str) : Prop := k = p ∨ p ++ ['.'] <+: k

instance (p k : Str) : Decidable (Below p k) := inferInstanceAs (Decidable (_ ∨ _))

def AgreeBelow (p : Str) (body body' : Params) : Prop :=
  ∀ k, Below p k → body.get k = body'.get k

/-- In the node of a shape the parser looks for another shape below a name. -/
inductive LooksFor (view : ι → ShapeNode ι) : ι → ι → Str → Prop
  | element {s ser m} (i : Nat) : view s = .list ser m →
      LooksFor view s m (list_key view ser m (i + 1))
  | entry {s ser key v} (i : Nat) : view s = .map ser key v →
      LooksFor view s v (map_key ser (i + 1) (value_name view v))
  | member {s ser traits ms p} : view s = .struct ser traits ms → p ∈ ms →
      LooksFor view s p.2 (structure_key view p.1 p.2)

/-- The key begins with the name of a container, or with the names down to one inside,
and goes on with another character than a dot. -/
inductive IsStray (view : ι → ShapeNode ι) : ι → Str → Str → Prop
  | here {s name c k} : ¬ IsScalar view s → c ≠ '.' → IsStray view s name (name ++ c :: k)
  | inside {s m name name' k} : LooksFor view s m name' → IsStray view m name' k →
      IsStray view s name (name ++ '.' :: k)

/-- No parameter has a name that the name of a member is only the beginning of. -/
def NoStray (view : ι → ShapeNode ι) (p : Str) (s : ι) (body : Params) : Prop :=
  ∀ k ∈ body.keys, ¬ IsStray view s p k

/-- What the parser makes of the member. -/
def memberValue (view : ι → ShapeNode ι) (isoparse : IsoParse) (p : Str) (s : ι) (body : Params) :
    Except Error Value :=
  process_member view isoparse (parse_shape view isoparse) p s body

/-- Bodies with the same parameters below the member's name give it the same value. -/
def Isolated (view : ι → ShapeNode ι) (isoparse : IsoParse) (p : Str) (s : ι) : Prop :=
  ∀ body body' : Params, body.WF → body'.WF → AgreeBelow p body body' →
    memberValue view isoparse p s body = memberValue view isoparse p s body'

/-! ## Nodes without strays -/

theorem below_of_noStray {p : Str} {s : ι} (hs : ¬ IsScalar view s) {body : Params}
    (h : NoStray view p s body) {k : Str} (hk : k ∈ body.keys) (hpre : p <+: k) : Below p k := by
  obtain ⟨t, rfl⟩ := hpre
  cases t with
  | nil => exact Or.inl (List.append_nil p)
  | cons c t =>
    by_cases hc : c = '.'
    · exact Or.inr ⟨t, by simp [hc]⟩
    · exact absurd (.here hs hc) (h _ hk)

/-- What is read below the name of a container was given below it. -/
theorem get_filter_node {p : Str} {s : ι} (hs : ¬ IsScalar view s) {body sub_node : Params}
    (hwf : body.WF) (h : NoStray view p s body) (hsub : filter_node p body = some sub_node) {k : Str}
    (hk : k ≠ []) : sub_node.get k = body.get (p ++ '.' :: k) := by
  have hkey : ∀ k' ∈ body.keys, p <+: k' → k'.drop (p.length + 1) = k → k' = p ++ '.' :: k := by
    intro k' hk' hpre hdrop
    rcases below_of_noStray hs h hk' hpre with rfl | ⟨t, rfl⟩
    · rw [List.drop_eq_nil_of_le (Nat.le_succ _)] at hdrop
      exact absurd hdrop.symm hk
    · rw [List.append_assoc, List.singleton_append, drop_name] at hdrop
      rw [hdrop, List.append_assoc, List.singleton_append]
  rcases hget : body.get (p ++ '.' :: k) with _ | v
  · rw [Dict.get_eq_none_iff] at hget ⊢
    intro hmem
    obtain ⟨k', hk', hpre, he⟩ := mem_keys_filter_node hsub hmem
    exact hget (hkey k' hk' hpre he.symm ▸ hk')
  · have hcut : (k, v) ∈ cut p body := mem_cut.mpr
      ⟨_, Dict.mem_of_get hget, List.prefix_append _ _, by rw [drop_name]⟩
    rw [filter_node_eq, if_neg (List.ne_nil_of_mem hcut), Option.some.injEq] at hsub
    rw [← hsub]
    refine Dict.get_ofPairs_of_mem hcut fun q hq he => ?_
    obtain ⟨r, hr, hpre, rfl⟩ := mem_cut.mp hq
    have hr' := Dict.get_of_mem hwf hr
    rw [hkey r.1 (Dict.mem_keys_of_mem hr) hpre he, hget, Option.some.injEq] at hr'
    exact hr'.symm

/-- Two nodes that a shape is parsed from: they have the same parameters, apart from one
without a name, which is never read, and no strays. -/
structure Alike (view : ι → ShapeNode ι) (s : ι) (node node' : Params) : Prop where
  wf : node.WF
  wf' : node'.WF
  same : ∀ k ≠ [], node.get k = node'.get k
  clean : ∀ m name, LooksFor view s m name → NoStray view name m node
  clean' : ∀ m name, LooksFor view s m name → NoStray view name m node'

theorem filter_node_isSome_of_below {p : Str} {s : ι} (hs : ¬ IsScalar view s) {body body' : Params}
    (hagree : AgreeBelow p body body') (h : NoStray view p s body) {sub_node : Params}
    (hsub : filter_node p body = some sub_node) : ∃ sub_node', filter_node p body' = some sub_node' := by
  by_contra hnone
  have hne : cut p body ≠ [] := fun hnil => by simp [filter_node_eq, hnil] at hsub
  obtain ⟨q, hq⟩ := List.exists_mem_of_ne_nil _ hne
  obtain ⟨r, hr, hpre, -⟩ := mem_cut.mp hq
  have hmem := Dict.mem_keys_of_mem hr
  obtain ⟨v, hv⟩ := Dict.exists_get hmem
  rw [hagree r.1 (below_of_noStray hs h hmem hpre)] at hv
  obtain ⟨sub_node', hsub', -⟩ := filter_node_of_mem (Dict.mem_keys_of_mem (Dict.mem_of_get hv)) hpre
  exact hnone ⟨sub_node', hsub'⟩

theorem noStray_filter_node {p : Str} {s m : ι} {name : Str} {body sub_node : Params}
    (hs : ¬ IsScalar view s) (h : NoStray view p s body) (hsub : filter_node p body = some sub_node)
    (hm : LooksFor view s m name) : NoStray view name m sub_node := by
  intro k hk hstray
  obtain ⟨k', hk', hpre, rfl⟩ := mem_keys_filter_node hsub hk
  rcases below_of_noStray hs h hk' hpre with rfl | ⟨t, rfl⟩
  · rw [List.drop_eq_nil_of_le (Nat.le_succ _)] at hstray
    generalize hnil : ([] : Str) = k at hstray
    cases hstray <;> simp at hnil
  · rw [List.append_assoc, List.singleton_append] at hk' hstray
    rw [drop_name] at hstray
    exact h _ hk' (.inside hm hstray)

/-- Below a name that the bodies agree on, the nodes are alike. -/
theorem filter_node_alike {p : Str} {s : ι} (hs : ¬ IsScalar view s) {body body' : Params}
    (hwf : body.WF) (hwf' : body'.WF) (hagree : AgreeBelow p body body')
    (h : NoStray view p s body) (h' : NoStray view p s body') :
    (filter_node p body = none ∧ filter_node p body' = none) ∨
      ∃ sub_node sub_node', filter_node p body = some sub_node ∧
        filter_node p body' = some sub_node' ∧ Alike view s sub_node sub_node' := by
  have hsymm : AgreeBelow p body' body := fun k hk => (hagree k hk).symm
  rcases hsub : filter_node p body with _ | sub_node
  · refine Or.inl ⟨rfl, ?_⟩
    rcases hsub' : filter_node p body' with _ | sub_node'
    · rfl
    · obtain ⟨_, hsome⟩ := filter_node_isSome_of_below hs hsymm h' hsub'
      rw [hsub] at hsome
      cases hsome
  · obtain ⟨sub_node', hsub'⟩ := filter_node_isSome_of_below hs hagree h hsub
    refine Or.inr ⟨sub_node, sub_node', rfl, hsub', ?_⟩
    have hwf_sub : ∀ {body sub_node : Params}, filter_node p body = some sub_node →
        sub_node.WF := by
      intro body sub_node hsub
      rw [filter_node_eq] at hsub
      split at hsub <;> cases hsub
      exact Dict.wf_ofPairs _
    refine ⟨hwf_sub hsub, hwf_sub hsub', fun k hk => ?_,
      fun m name hm => noStray_filter_node hs h hsub hm,
      fun m name hm => noStray_filter_node hs h' hsub' hm⟩
    rw [get_filter_node hs hwf h hsub hk, get_filter_node hs hwf' h' hsub' hk]
    exact hagree _ (Or.inr ⟨k, by simp⟩)

theorem size_eq_filter (node : Params) :
    size node = (((node.keys).filter (· ≠ [])).map List.length).sum := by
  induction node with
  | nil => rfl
  | cons p node ih =>
    rw [size, List.map_cons, List.sum_cons, ← size, ih, Dict.keys_cons, List.filter_cons]
    split
    · rw [List.map_cons, List.sum_cons]
    · next hnil =>
      have hlen : p.1.length = 0 := by simpa using hnil
      rw [hlen, Nat.zero_add]

theorem Alike.size_eq {s : ι} {node node' : Params} (h : Alike view s node node') :
    size node = size node' := by
  have hmem : ∀ k ≠ [], k ∈ node.keys ↔ k ∈ node'.keys := by
    intro k hk
    rw [← not_iff_not, ← Dict.get_eq_none_iff, ← Dict.get_eq_none_iff, h.same k hk]
  have hperm : ((node.keys).filter (· ≠ [])).Perm ((node'.keys).filter (· ≠ [])) := by
    rw [List.perm_ext_iff_of_nodup (h.wf.filter _) (h.wf'.filter _)]
    intro k
    simp only [List.mem_filter, decide_eq_true_iff]
    exact and_congr_left fun hk => hmem k hk
  rw [size_eq_filter, size_eq_filter, (hperm.map _).sum_eq]

theorem collect_congr {α : Type} {step step' : Nat → Except Error (Option α)} (fuel : Nat) {i : Nat}
    (h : ∀ j, i ≤ j → step j = step' j) : collect step fuel i = collect step' fuel i := by
  induction fuel generalizing i with
  | zero => rfl
  | succ fuel ih =>
    rw [collect, collect, h i (Nat.le_refl i), ih fun j hj => h j (by omega)]

theorem looksFor_ne_nil {s m : ι} {name : Str} (hnames : NamesMembers view s)
    (h : LooksFor view s m name) : name ≠ [] := by
  cases h with
  | element i hs => exact list_key_ne_nil _ _ _
  | entry i hs => exact map_key_ne_nil _ _ _
  | member hs hp => exact hnames s _ _ _ (.refl s) hs _ hp

theorem namesMembers_looksFor {s m : ι} {name : Str} (hnames : NamesMembers view s)
    (h : LooksFor view s m name) : NamesMembers view m := by
  intro t ser traits ms ht
  cases h with
  | element i hs => exact hnames t ser traits ms (.list hs ht)
  | entry i hs => exact hnames t ser traits ms (.map hs ht)
  | member hs hp => exact hnames t ser traits ms (.member hs hp ht)

/-- A container is parsed alike from nodes that are alike, when the shapes that it looks
for are. -/
theorem parseNode_alike {parse : ι → Params → Except Error Value} {s : ι}
    (hs : ¬ IsScalar view s) {node node' : Params}
    (h : Alike view s node node')
    (hmember : ∀ m name, LooksFor view s m name →
      process_member view isoparse parse name m node =
        process_member view isoparse parse name m node') :
    parseNode view isoparse parse s node = parseNode view isoparse parse s node' := by
  rw [parseNode, parseNode]
  cases hview : view s with
  | scalar ser t => exact absurd ⟨ser, t, hview⟩ hs
  | list ser m =>
    simp only [parse_list, h.size_eq]
    rw [collect_congr _ fun i hi => ?_]
    obtain ⟨i, rfl⟩ := Nat.exists_eq_succ_of_ne_zero (Nat.ne_of_gt hi)
    rw [hmember m _ (.element i hview)]
  | map ser key v =>
    simp only [parse_map, h.size_eq]
    rw [collect_congr _ fun i hi => ?_]
    obtain ⟨i, rfl⟩ := Nat.exists_eq_succ_of_ne_zero (Nat.ne_of_gt hi)
    rw [hmember v _ (.entry i hview), h.same _ (map_key_ne_nil _ _ _)]
  | struct ser traits ms =>
    simp only
    rw [parseMembers_congr traits.required_members fun p hp => hmember p.2 _ (.member hview hp)]

theorem process_member_alike {parse : ι → Params → Except Error Value} {m : ι} {name : Str}
    {node node' : Params} (hwf : node.WF) (hwf' : node'.WF) (hagree : AgreeBelow name node node')
    (h : NoStray view name m node) (h' : NoStray view name m node')
    (hparse : ¬ IsScalar view m → ∀ sub_node sub_node', Alike view m sub_node sub_node' →
      parse m sub_node = parse m sub_node') :
    process_member view isoparse parse name m node =
      process_member view isoparse parse name m node' := by
  by_cases hm : IsScalar view m
  · obtain ⟨ser, t, hm⟩ := hm
    rw [process_member_scalar hm, process_member_scalar hm, hagree name (Or.inl rfl)]
  · rw [process_member_container hm, process_member_container hm]
    rcases filter_node_alike hm hwf hwf' hagree h h' with
      ⟨hnone, hnone'⟩ | ⟨sub_node, sub_node', hsub, hsub', halike⟩
    · rw [hnone, hnone']
    · rw [hsub, hsub']
      exact hparse hm sub_node sub_node' halike

theorem parseFuel_alike {s : ι} (hnames : NamesMembers view s) (hs : ¬ IsScalar view s) {fuel : Nat}
    {node node' : Params} (h : Alike view s node node') :
    parseFuel view isoparse fuel s node = parseFuel view isoparse fuel s node' := by
  induction fuel generalizing s node node' with
  | zero => rfl
  | succ fuel ih =>
    rw [parseFuel, parseFuel]
    refine parseNode_alike hs h fun m name hm => ?_
    refine process_member_alike h.wf h.wf' (fun k hk => h.same k ?_) (h.clean m name hm)
      (h.clean' m name hm) fun hcontainer _ _ halike =>
        ih (namesMembers_looksFor hnames hm) hcontainer halike
    rintro rfl
    rcases hk with hnil | hpre
    · exact looksFor_ne_nil hnames hm hnil.symm
    · exact absurd (List.prefix_nil.mp hpre) (by simp)

/-- Without strays, the parameters below a name decide the value. -/
theorem memberValue_eq_of_noStray {p : Str} {s : ι} (hnames : NamesMembers view s)
    {body body' : Params} (hwf : body.WF) (hwf' : body'.WF) (hagree : AgreeBelow p body body')
    (h : NoStray view p s body) (h' : NoStray view p s body') :
    memberValue view isoparse p s body = memberValue view isoparse p s body' := by
  refine process_member_alike hwf hwf' hagree h h' fun hs sub_node sub_node' halike => ?_
  rw [parse_shape, parse_shape, halike.size_eq]
  exact parseFuel_alike hnames hs halike

theorem agreeBelow_of_mem {p : Str} {body body' : Params} (hwf : body.WF) (hwf' : body'.WF)
    (h : ∀ q ∈ body, Below p q.1 → q ∈ body') (h' : ∀ q ∈ body', Below p q.1 → q ∈ body) :
    AgreeBelow p body body' := by
  intro k hk
  rcases hget : body.get k with _ | v
  · rcases hget' : body'.get k with _ | v
    · rfl
    · rw [Dict.get_of_mem hwf (h' _ (Dict.mem_of_get hget') hk)] at hget
      cases hget
  · exact (Dict.get_of_mem hwf' (h _ (Dict.mem_of_get hget) hk)).symm

theorem not_isStray_scalar {s : ι} (hs : IsScalar view s) (name k : Str) :
    ¬ IsStray view s name k := by
  rintro (⟨hcontainer, -⟩ | ⟨hm, -⟩)
  · exact hcontainer hs
  · obtain ⟨ser, t, hs⟩ := hs
    cases hm <;> simp_all

theorem not_isStray {s : ι} {name k : Str} (h : ¬ name <+: k) :
    ¬ IsStray view s name k := by
  rintro (_ | _) <;> exact h (List.prefix_append _ _)

theorem not_isStray_dot {s : ι} {name k : Str}
    (h : ∀ m name', LooksFor view s m name' → ¬ IsStray view m name' k) :
    ¬ IsStray view s name (name ++ '.' :: k) := by
  intro hstray
  generalize hkey : name ++ '.' :: k = key at hstray
  cases hstray with
  | here hs hc =>
    rw [List.append_cancel_left_eq, List.cons.injEq] at hkey
    exact hc hkey.1.symm
  | inside hm hstray =>
    rw [List.append_cancel_left_eq, List.cons.injEq] at hkey
    exact h _ _ hm (hkey.2 ▸ hstray)

/-! ## Members that are isolated -/

theorem memberValue_nil {s : ι} (hs : ¬ IsScalar view s) (p : Str) :
    memberValue view isoparse p s [] = .ok .none := by
  rw [memberValue, process_member_container hs]
  rfl

theorem isolated_iff_scalar_or_not_live {s : ι} (hnames : NamesMembers view s) (p : Str) :
    Isolated view isoparse p s ↔ IsScalar view s ∨ ¬ Live view s := by
  constructor
  · intro h
    by_contra hcon
    rw [not_or, not_not] at hcon
    obtain ⟨hs, hl⟩ := hcon
    rcases exists_nodeProbes isoparse hl with hscalar | ⟨-, keys, hkeys⟩
    · exact hs hscalar
    -- the probes are keys that the name `p` is only the beginning of
    obtain ⟨-, hprobes⟩ := probes_of_nodeProbes hs hkeys p 'X'
    generalize hks : (([] : Str) :: keys).map (fun k => p ++ 'X' :: k) = ks at hprobes
    let body : Params := Dict.ofPairs (ks.map fun k => (k, []))
    have hbody : ∀ k, k ∈ body.keys ↔ k ∈ ks := fun k => by simp [body]
    have hagree : AgreeBelow p body [] := by
      intro k hk
      rw [Dict.get_nil, Dict.get_eq_none_iff, hbody, ← hks]
      intro hmem
      obtain ⟨k', -, rfl⟩ := List.mem_map.mp hmem
      rcases hk with he | hpre
      · simp at he
      · rw [List.prefix_append_right_inj] at hpre
        simp at hpre
    have hsame := h body [] (Dict.wf_ofPairs _) Dict.wf_nil hagree
    rw [memberValue_nil hs, memberValue, process_member_container hs] at hsame
    rcases hsub : filter_node p body with _ | sub_node
    · have hne := hprobes 0 body fun k hk => (hbody k).mpr hk
      rw [process_member_container hs, hsub] at hne
      exact hne rfl
    · have hne := hprobes (size sub_node + 1) body fun k hk => (hbody k).mpr hk
      rw [process_member_container hs, hsub] at hne
      rw [hsub] at hsame
      exact hne hsame
  · rintro (⟨ser, t, hs⟩ | hs) body body' _ _ hagree
    · rw [memberValue, memberValue, process_member_scalar hs, process_member_scalar hs,
        hagree p (Or.inl rfl)]
    · have hnone : ∀ body, memberValue view isoparse p s body = .ok .none := by
        intro body
        rw [memberValue, process_member_container fun ⟨ser, t, h⟩ => hs (.scalar h)]
        rcases filter_node p body with _ | sub_node
        · rfl
        · exact parse_not_live hnames hs (Nat.lt_succ_self _)
      rw [hnone, hnone]

/-- **Interference.** The members that no other parameter can influence are the
scalars and the containers that never have a value; another container is only
influenced by parameters whose name begins with its own, or with the name of a
container inside, and goes on with another character than a dot. -/
theorem isolated_iff (view : ι → ShapeNode ι) (isoparse : IsoParse) (p : Str) (s : ι)
    (hnames : NamesMembers view s) :
    (Isolated view isoparse p s ↔ IsScalar view s ∨ ¬ Live view s) ∧
      ∀ body body' : Params, body.WF → body'.WF → AgreeBelow p body body' →
        NoStray view p s body → NoStray view p s body' →
        memberValue view isoparse p s body = memberValue view isoparse p s body' :=
  ⟨isolated_iff_scalar_or_not_live hnames p,
    fun _ _ hwf hwf' hagree h h' => memberValue_eq_of_noStray hnames hwf hwf' hagree h h'⟩

end

/-- The parameters of a filter in two orders, beside others. -/
theorem filter_isolated :
    let filter : Shape := .struct {} {} [("Name".toList, .scalar {} .string),
      ("Values".toList, .list {} (.scalar {} .string))]
    let body : Params := [("Filter.Name".toList, "state".toList),
      ("Filter.Values.member.1".toList, "running".toList),
      ("Filter.Values.member.2".toList, "stopped".toList)]
    let body' : Params := [("Limit".toList, "5".toList),
      ("Filter.Values.member.2".toList, "stopped".toList), ("Filter.Name".toList, "state".toList),
      ("Filter.Values.member.1".toList, "running".toList)]
    memberValue treeView (fun _ => .error .valueError) "Filter".toList filter body =
        memberValue treeView (fun _ => .error .valueError) "Filter".toList filter body' ∧
      memberValue treeView (fun _ => .error .valueError) "Filter".toList filter body =
        .ok (.dict [("Name".toList, .str "state".toList),
          ("Values".toList, .list [.str "running".toList, .str "stopped".toList])]) := by
  intro filter body body'
  have hnames : NamesMembers treeView filter := by
    refine namesMembers_of_all (.struct ?_ (List.forall_mem_cons.mpr ⟨.scalar ?_,
      List.forall_mem_singleton.mpr (.list ?_ (.scalar ?_))⟩))
    all_goals rintro ser traits ms ⟨⟩
    decide
  have hscalar : IsScalar treeView (.scalar {} .string) := ⟨_, _, rfl⟩
  have hvalues : ∀ k, ¬ IsStray treeView (.list {} (.scalar {} .string)) "Values".toList
      ("Values".toList ++ '.' :: k) := by
    refine fun k => not_isStray_dot fun m name hm => not_isStray_scalar ?_ _ _
    cases hm with
    | element i h =>
      cases h
      exact hscalar
    | entry i h => cases h
    | member h hp => cases h
  have hfilter : ∀ k, ("Values".toList <+: k → ∃ k', k = "Values".toList ++ '.' :: k') →
      ¬ IsStray treeView filter "Filter".toList ("Filter".toList ++ '.' :: k) := by
    refine fun k hk => not_isStray_dot fun m name hm hstray => ?_
    cases hm with
    | element i h => cases h
    | entry i h => cases h
    | member h hp =>
      cases h
      rcases List.mem_pair.mp hp with rfl | rfl
      · exact not_isStray_scalar hscalar _ _ hstray
      · by_cases hpre : "Values".toList <+: k
        · obtain ⟨k', rfl⟩ := hk hpre
          exact hvalues k' hstray
        · exact not_isStray hpre hstray
  have hname := hfilter "Name".toList fun h => absurd h (by decide)
  have hfirst := hfilter "Values.member.1".toList fun _ => ⟨"member.1".toList, by decide⟩
  have hsecond := hfilter "Values.member.2".toList fun _ => ⟨"member.2".toList, by decide⟩
  have hagree : AgreeBelow "Filter".toList body body' :=
    agreeBelow_of_mem (by decide) (by decide) (by decide) (by decide)
  refine ⟨(isolated_iff treeView _ _ filter hnames).2 body body' (by decide) (by decide) hagree
    ?_ ?_, rfl⟩
  · exact List.forall_mem_cons.mpr ⟨hname, List.forall_mem_cons.mpr
      ⟨hfirst, List.forall_mem_singleton.mpr hsecond⟩⟩
  · exact List.forall_mem_cons.mpr ⟨not_isStray (by decide),
      List.forall_mem_cons.mpr ⟨hsecond, List.forall_mem_cons.mpr
        ⟨hname, List.forall_mem_singleton.mpr hfirst⟩⟩⟩

/-- `FooXBaz` is read as the member `Baz` of `Foo`. -/
theorem stray_parameter_read :
    let foo : Shape := .struct {} {} [("Baz".toList, .scalar {} .string)]
    let body : Params := [("FooXBaz".toList, "v".toList)]
    AgreeBelow "Foo".toList body [] ∧
      memberValue treeView (fun _ => .error .valueError) "Foo".toList foo body =
        .ok (.dict [("Baz".toList, .str "v".toList)]) ∧
      memberValue treeView (fun _ => .error .valueError) "Foo".toList foo [] = .ok .none := by
  refine ⟨fun k hk => ?_, rfl, rfl⟩
  rw [Dict.get_nil, Dict.get_eq_none_iff]
  intro hmem
  obtain rfl := List.mem_singleton.mp hmem
  revert hk
  decide

end LocalStack.Aws.Protocol.Query
