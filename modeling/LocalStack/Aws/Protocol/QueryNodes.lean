import LocalStack.Aws.Protocol.QueryFlattening
import Mathlib.Data.List.Perm.Subperm

/-! Parsing flattened values. The node of a list element also holds keys of the
elements whose index begins with its own; they begin with more indexes than the
element's keys and are read by nothing, unless they are taken for elements of a
list inside. -/

namespace LocalStack.Aws.Protocol.Query
open LocalStack.Lists LocalStack.Text LocalStack.Decimal LocalStack.OrderedDict
open LocalStack.Aws.Protocol.Parser

variable {N : Naming}

/-! ## Shapes that are silent without parameters of their own -/

/-- Nothing is parsed from keys that begin with more indexes than the shape's. -/
def Silent : Shape → Prop
  | .struct _ traits members => ∀ p ∈ members, p.1 ∉ traits.required_members
  | .list ser member => ser.flattened = true → Silent member
  | _ => True

/-- The shape of a list element: where the list goes on, it is silent. -/
def Quiet : Shape → Prop
  | .list ser member => Silent (.list ser member)
  | _ => True

/-- A member is looked for below the name that it is sent with, or never has a value. -/
def Heard (N : Naming) : Shape → Prop
  | .struct _ _ members =>
    ∀ p ∈ members, N.key p.1 p.2 = structure_key treeView p.1 p.2 ∨ ¬ Live treeView p.2
  | _ => True

/-- The key of another element, in the node of a shape that does not read it. -/
def Stray (N : Naming) (s : Shape) (k : Str) : Prop := Named N s ∧ Quiet s ∧ depth s < digitDepth k

/-! ## Nodes -/

/-- The node has the parameters of the value, and besides them only strays. -/
structure Covers (N : Naming) (s : Shape) (v : Value) (node : Params) : Prop where
  wf : node.WF
  has : ∀ p ∈ flatten N s v, p ∈ node
  only : ∀ k ∈ node.keys, k ∈ Dict.keys (flatten N s v) ∨ Stray N s k

theorem filter_node_eq_none {name : Str} {node : Params} (h : ∀ k ∈ node.keys, ¬ name <+: k) :
    filter_node name node = none := by
  have hcut : cut name node = [] := by
    rw [List.eq_nil_iff_forall_not_mem]
    intro q hq
    obtain ⟨p, hp, hname, -⟩ := mem_cut.mp hq
    exact h p.1 (Dict.mem_keys_of_mem hp) hname
  rw [filter_node_eq, if_pos hcut]

/-- The node that is filtered out for a container, when no key can be taken for
one of its own. -/
theorem covers_filter_node {s : Shape} {v : Value} {name : Str} {node : Params}
    (hl : s.All (Lawful N)) (hs : ¬ IsScalar treeView s) (hne : flatten N s v ≠ [])
    (hwf : node.WF) (hhas : ∀ p ∈ flatten N s v, (join name p.1, p.2) ∈ node)
    (honly : ∀ k ∈ node.keys, name <+: k →
      (∃ k' ∈ Dict.keys (flatten N s v), k = join name k') ∨ Stray N s (k.drop (name.length + 1))) :
    ∃ sub_node, filter_node name node = some sub_node ∧ Covers N s v sub_node := by
  have hkeys : ∀ k ∈ Dict.keys (flatten N s v), (join name k).drop (name.length + 1) = k := by
    intro k hk
    obtain ⟨p, hp, rfl⟩ := List.mem_map.mp hk
    rw [join_of_ne_nil _ (flatten_key_ne_nil hs hl.self v p hp), drop_name]
  have hcut : ∀ p ∈ flatten N s v, p ∈ cut name node := fun p hp =>
    mem_cut.mpr ⟨_, hhas p hp, prefix_join _ _, by rw [hkeys p.1 (Dict.mem_keys_of_mem hp)]⟩
  have hnil : cut name node ≠ [] := by
    obtain ⟨p, hp⟩ := List.exists_mem_of_ne_nil _ hne
    exact List.ne_nil_of_mem (hcut p hp)
  refine ⟨Dict.ofPairs (cut name node), by rw [filter_node_eq, if_neg hnil],
    Dict.wf_ofPairs _, fun p hp => ?_, fun k hk => ?_⟩
  · refine Dict.mem_of_get (Dict.get_ofPairs_of_mem (hcut p hp) fun q hq he => ?_)
    obtain ⟨r, hr, hname, rfl⟩ := mem_cut.mp hq
    rcases honly r.1 (Dict.mem_keys_of_mem hr) hname with ⟨k', hmem, hk'⟩ | ⟨hn, -, hlt⟩
    · rw [hk', hkeys k' hmem] at he
      subst he
      have hget := Dict.get_of_mem hwf hr
      rw [hk', Dict.get_of_mem hwf (hhas p hp), Option.some.injEq] at hget
      exact hget.symm
    · dsimp only at he
      rw [he, digitDepth_flatten hl hn v p hp] at hlt
      exact absurd hlt (Nat.lt_irrefl _)
  · obtain ⟨k', hk', hname, rfl⟩ :=
      mem_keys_filter_node (by rw [filter_node_eq, if_neg hnil]) hk
    refine (honly k' hk' hname).imp_left fun ⟨k, hmem, he⟩ => ?_
    rwa [he, hkeys k hmem]

/-- The parameters of a value fit into the keys of a node that has them. -/
theorem length_le_size {ps : List (Str × Str)} {node : Params} (hwf : Dict.WF ps)
    (h : ∀ p ∈ ps, p.1 ≠ [] ∧ p ∈ node) : ps.length ≤ size node := by
  have hsub : Dict.keys ps ⊆ (node.keys).filter (· ≠ []) := by
    intro k hk
    obtain ⟨p, hp, rfl⟩ := List.mem_map.mp hk
    exact List.mem_filter.mpr ⟨Dict.mem_keys_of_mem (h p hp).2, by simpa using (h p hp).1⟩
  have hle := (List.subperm_of_subset hwf hsub).length_le
  have hsize : ∀ node : Params, ((node.keys).filter (· ≠ [])).length ≤ size node := by
    intro node
    induction node with
    | nil => simp [size]
    | cons p node ih =>
      rw [Dict.keys_cons, List.filter_cons, size, List.map_cons, List.sum_cons, ← size]
      split
      · next hp =>
        have hpos := List.length_pos_iff.mpr (of_decide_eq_true hp)
        simp only [List.length_cons]
        omega
      · omega
  have hlen : (Dict.keys ps).length = ps.length := by simp [Dict.keys]
  exact hlen ▸ hle.trans (hsize node)

/-- A loop that finds the values of a list and then none. -/
theorem collect_eq {α : Type} {step : Nat → Except Error (Option α)} (as : List α) {i fuel : Nat}
    (hstep : ∀ j a, as[j]? = some a → step (i + j) = .ok (some a))
    (hend : step (i + as.length) = .ok none) (hf : as.length < fuel) :
    collect step fuel i = .ok as := by
  induction as generalizing i fuel with
  | nil =>
    obtain ⟨fuel, rfl⟩ := Nat.exists_eq_succ_of_ne_zero (Nat.ne_zero_of_lt hf)
    rw [List.length_nil, Nat.add_zero] at hend
    simp [collect, hend]
  | cons a as ih =>
    obtain ⟨fuel, rfl⟩ := Nat.exists_eq_succ_of_ne_zero (Nat.ne_zero_of_lt hf)
    have hfirst := hstep 0 a rfl
    have hrest := @ih (i + 1) fuel
      (fun j b hj => by rw [show i + 1 + j = i + (j + 1) by omega]; exact hstep (j + 1) b hj)
      (by rw [show i + 1 + as.length = i + (a :: as).length by simp; omega]; exact hend)
      (Nat.lt_of_succ_lt_succ hf)
    rw [Nat.add_zero] at hfirst
    simp [collect, hfirst, hrest, Except.map]

/-! ## Keys of lists and maps -/

theorem list_key_eq (ser : Serialization) (m : Shape) (i : Nat) (k : Str) :
    (if ser.flattened then join (natToStr i) k
      else join (member_level_name m) (join (natToStr i) k)) =
      join (list_key treeView ser m i) k := by
  have hser : (treeView m).serialization = m.serialization := by cases m <;> rfl
  rw [list_key, get_list_key_prefix]
  cases ser.flattened
  · rw [if_neg (by simp), if_neg (by simp), join_assoc _ _ _ (natToStr_ne_nil i), hser,
      member_level_name]
    simp
  · simp

theorem mem_flatten_list {ser : Serialization} {m : Shape} {vs : List Value} {q : Str × Str} :
    q ∈ flatten N (.list ser m) (.list vs) ↔ ∃ j v, vs[j]? = some v ∧
      q ∈ under (list_key treeView ser m (j + 1)) (flatten N m v) := by
  rw [flatten, mem_level]
  constructor
  · rintro ⟨p, hp, rfl⟩
    obtain ⟨j, ps, hj, hp⟩ := mem_numbered.mp hp
    obtain ⟨r, hr, rfl⟩ := mem_under.mp hp
    rw [List.getElem?_map, Option.map_eq_some_iff] at hj
    obtain ⟨v, hv, rfl⟩ := hj
    refine ⟨j, v, hv, mem_under.mpr ⟨r, hr, ?_⟩⟩
    rw [← list_key_eq, Nat.add_comm 1 j]
  · rintro ⟨j, v, hv, hq⟩
    obtain ⟨r, hr, rfl⟩ := mem_under.mp hq
    refine ⟨(join (natToStr (1 + j)) r.1, r.2), mem_numbered.mpr ⟨j, flatten N m v, ?_,
      mem_under.mpr ⟨r, hr, rfl⟩⟩, ?_⟩
    · rw [List.getElem?_map, hv]
      rfl
    · rw [← list_key_eq, Nat.add_comm 1 j]

theorem map_key_eq (ser : Serialization) (i : Nat) {n : Str} (hn : n ≠ []) (k : Str) :
    (if ser.flattened then join (natToStr i) (join n k)
      else join "entry".toList (join (natToStr i) (join n k))) = join (map_key ser i n) k := by
  rw [join_assoc _ _ _ hn, map_key]
  cases ser.flattened
  · rw [if_neg (by simp), if_neg (by simp), join_assoc _ _ _ (by simp)]
    simp
  · simp

theorem mem_flatten_map {ser key : Serialization} {s : Shape} (hl : Lawful N (.map ser key s))
    {d : List (Str × Value)} {q : Str × Str} :
    q ∈ flatten N (.map ser key s) (.dict d) ↔ ∃ j p, d[j]? = some p ∧
      (q = (map_key ser (j + 1) (key_name key), p.1) ∨
        q ∈ under (map_key ser (j + 1) (value_name treeView s)) (flatten N s p.2)) := by
  obtain ⟨hkey, hvalue, -, -⟩ := hl
  have hkey_eq := fun i => map_key_eq ser i hkey.1 []
  simp only [join_nil] at hkey_eq
  rw [flatten, mem_level]
  constructor
  · rintro ⟨p, hp, rfl⟩
    obtain ⟨j, ps, hj, hp⟩ := mem_numbered.mp hp
    obtain ⟨r, hr, rfl⟩ := mem_under.mp hp
    rw [List.getElem?_map, Option.map_eq_some_iff] at hj
    obtain ⟨e, he, rfl⟩ := hj
    refine ⟨j, e, he, ?_⟩
    rcases List.mem_cons.mp hr with rfl | hr
    · exact Or.inl (by rw [← hkey_eq, Nat.add_comm 1 j])
    · obtain ⟨r', hr', rfl⟩ := mem_under.mp hr
      refine Or.inr (mem_under.mpr ⟨r', hr', ?_⟩)
      rw [← map_key_eq ser _ hvalue.1, Nat.add_comm 1 j]
  · rintro ⟨j, e, he, hq⟩
    have hj : (d.map fun p => (key_name key, p.1) ::
        under (value_name treeView s) (flatten N s p.2))[j]? =
        some ((key_name key, e.1) :: under (value_name treeView s) (flatten N s e.2)) := by
      rw [List.getElem?_map, he]
      rfl
    rcases hq with rfl | hq
    · refine ⟨_, mem_numbered.mpr ⟨j, _, hj, mem_under.mpr ⟨_, List.mem_cons_self, rfl⟩⟩, ?_⟩
      rw [← hkey_eq, Nat.add_comm 1 j]
    · obtain ⟨r, hr, rfl⟩ := mem_under.mp hq
      refine ⟨_, mem_numbered.mpr ⟨j, _, hj, mem_under.mpr
        ⟨_, List.mem_cons_of_mem _ (mem_under.mpr ⟨r, hr, rfl⟩), rfl⟩⟩, ?_⟩
      rw [← map_key_eq ser _ hvalue.1, Nat.add_comm 1 j]

/-- A number is not greater than those that begin with its digits. -/
theorem le_of_natToStr_prefix {i j : Nat} (h : natToStr i <+: natToStr j) : i ≤ j := by
  obtain ⟨t, ht⟩ := h
  have hi := Nat.ofDigitChars_toDigits (b := 10) (n := i) (by decide) (by decide)
  have hj := Nat.ofDigitChars_toDigits (b := 10) (n := j) (by decide) (by decide)
  rw [← natToStr] at hi hj
  rw [← ht, Nat.ofDigitChars_append, hi, Nat.ofDigitChars_eq_ofDigitChars_zero] at hj
  have hpow := Nat.le_mul_of_pos_left i (Nat.pow_pos (n := t.length) (by decide : 0 < 10))
  omega

/-! ## Keys of other elements -/

theorem digitDepth_drop {i n : Nat} {k : Str} (hk : natToStr i <+: k) (h : n + 1 < digitDepth k) :
    n < digitDepth (k.drop ((natToStr i).length + 1)) := by
  obtain ⟨t, rfl⟩ := hk
  rw [digitDepth_natToStr_append] at h
  rw [← List.drop_drop, List.drop_left]
  cases t with
  | nil => simp [digitDepth] at h
  | cons c t =>
    rw [digitDepth] at h
    rw [List.drop_one, List.tail_cons]
    split at h
    · omega
    · split at h <;> omega

/-- A key of an element whose index only begins with `i`, without `i` and the
character behind it. -/
theorem digitDepth_drop_other {i j : Nat} {k : Str} (hk : k ≠ [])
    (h : natToStr i <+: join (natToStr j) k) :
    i = j ∨ digitDepth k < digitDepth ((join (natToStr j) k).drop ((natToStr i).length + 1)) := by
  obtain ⟨t, ht⟩ := prefix_of_prefix_join (natToStr_no_dot i) h
  cases t with
  | nil => exact Or.inl (natToStr_injective (by simpa using ht))
  | cons c t =>
    refine Or.inr ?_
    have hdigits : ∀ c ∈ t, c.isDigit = true := fun c hc =>
      isDigit_of_mem_natToStr (n := j) (by rw [← ht]; simp [hc])
    rw [join_of_ne_nil _ hk, ← ht, List.append_assoc, ← List.drop_drop, List.drop_left,
      List.cons_append, List.drop_one, List.tail_cons, digitDepth_digits_append hdigits,
      digitDepth_dot]
    exact Nat.lt_succ_self _

theorem list_key_flattened {ser : Serialization} (h : ser.flattened = true) (m : Shape) (i : Nat) :
    list_key treeView ser m i = natToStr i := by
  simp [list_key, get_list_key_prefix, h]

theorem list_key_level {ser : Serialization} (h : ser.flattened = false) (m : Shape) (i : Nat) :
    list_key treeView ser m i = member_level_name m ++ '.' :: natToStr i := by
  have hkey := list_key_eq ser m i []
  rw [h, if_neg (by simp), join_nil, join_nil, join_of_ne_nil _ (natToStr_ne_nil i)] at hkey
  exact hkey.symm

/-- A key that begins with a name that has a letter begins with no index. -/
theorem digitDepth_of_starts {n k : Str} (hdot : '.' ∉ n) (hn : HasLetter n) (h : n <+: k) :
    digitDepth k = 0 := by
  obtain ⟨t, rfl⟩ := h
  exact digitDepth_letter_append hdot hn t

theorem join_append (a b k : Str) : join (a ++ b) k = a ++ join b k := by
  rw [join, join]
  split <;> simp

theorem list_key_prefix_iff {ser : Serialization} {m : Shape} {i j : Nat} {k : Str} :
    list_key treeView ser m i <+: join (list_key treeView ser m j) k ↔
      natToStr i <+: join (natToStr j) k := by
  rw [list_key, list_key, join_append, List.prefix_append_right_inj]

theorem drop_list_key {ser : Serialization} {m : Shape} {i j : Nat} {k : Str} :
    (join (list_key treeView ser m j) k).drop ((list_key treeView ser m i).length + 1) =
      (join (natToStr j) k).drop ((natToStr i).length + 1) := by
  rw [list_key, list_key, join_append, List.length_append, Nat.add_assoc, ← List.drop_drop,
    List.drop_left]

/-- The keys of a list that begin like those of the element with index `i`: its
own, and those of later elements, which begin with more indexes. -/
theorem own_list_key_cases {ser : Serialization} {m : Shape} (hm : ¬ IsScalar treeView m)
    (hl : (Shape.list ser m).All (Lawful N)) (hn : Named N m) {vs : List Value} {i : Nat} {k : Str}
    (hk : k ∈ Dict.keys (flatten N (.list ser m) (.list vs)))
    (hpre : list_key treeView ser m i <+: k) :
    (∃ j v, i = j + 1 ∧ vs[j]? = some v ∧ ∃ k' ∈ Dict.keys (flatten N m v),
      k = join (list_key treeView ser m i) k') ∨
    depth m < digitDepth (k.drop ((list_key treeView ser m i).length + 1)) ∧ i ≤ vs.length := by
  obtain ⟨p, hp, rfl⟩ := List.mem_map.mp hk
  obtain ⟨j, v, hj, hp⟩ := mem_flatten_list.mp hp
  obtain ⟨r, hr, rfl⟩ := mem_under.mp hp
  have hne := flatten_key_ne_nil hm hl.list_member.self v r hr
  have hdepth := digitDepth_flatten hl.list_member hn v r hr
  rw [list_key_prefix_iff] at hpre
  have hle := le_of_natToStr_prefix (prefix_of_prefix_join (natToStr_no_dot _) hpre)
  obtain ⟨hlen, -⟩ := List.getElem?_eq_some_iff.mp hj
  rcases digitDepth_drop_other hne hpre with rfl | hdrop
  · exact Or.inl ⟨j, v, rfl, hj, r.1, Dict.mem_keys_of_mem hr, rfl⟩
  · rw [hdepth] at hdrop
    rw [drop_list_key]
    exact Or.inr ⟨hdrop, by omega⟩

/-- A key of another element is one in the list only when the list is flattened. -/
theorem stray_list_key {ser : Serialization} {m : Shape} (hm : ¬ IsScalar treeView m)
    (hl : Lawful N (.list ser m)) (hn : Named N (.list ser m)) {i : Nat} {k : Str}
    (hlt : depth (.list ser m) < digitDepth k) (hpre : list_key treeView ser m i <+: k) :
    ser.flattened = true ∧ Named N m ∧
      depth m < digitDepth (k.drop ((list_key treeView ser m i).length + 1)) := by
  rw [Named] at hn
  cases hflat : ser.flattened
  · rw [hflat, if_neg (by simp)] at hn
    rw [list_key_level hflat] at hpre
    have hzero := digitDepth_of_starts hl.2 (hn.resolve_left hm)
      ((List.prefix_append _ _).trans hpre)
    omega
  · rw [hflat, if_pos rfl] at hn
    rw [depth_list_flattened hflat hm] at hlt
    rw [list_key_flattened hflat] at hpre ⊢
    exact ⟨rfl, hn, digitDepth_drop hpre hlt⟩

/-- The keys of a list's node that begin like those of the element with index
`i + 1`: its own, and others that begin with more indexes. Where there is no such
element, the others are not the list's. -/
theorem list_key_cases {ser : Serialization} {m : Shape} (hm : ¬ IsScalar treeView m)
    (hl : (Shape.list ser m).All (Lawful N)) (hn : Named N m) (hquiet : Quiet m) {vs : List Value}
    {node : Params} (hc : Covers N (.list ser m) (.list vs) node) (i : Nat) {k : Str}
    (hk : k ∈ node.keys) (hpre : list_key treeView ser m (i + 1) <+: k) :
    (∃ v, vs[i]? = some v ∧ ∃ k' ∈ Dict.keys (flatten N m v),
      k = join (list_key treeView ser m (i + 1)) k') ∨
    Stray N m (k.drop ((list_key treeView ser m (i + 1)).length + 1)) ∧
      (i < vs.length ∨ Silent m) := by
  rcases hc.only k hk with hmem | ⟨hnamed, hsilent, hlt⟩
  · rcases own_list_key_cases hm hl hn hmem hpre with ⟨j, v, hij, hj, hown⟩ | ⟨hdrop, hle⟩
    · obtain rfl : i = j := by omega
      exact Or.inl ⟨v, hj, hown⟩
    · exact Or.inr ⟨⟨hn, hquiet, hdrop⟩, Or.inl (by omega)⟩
  · obtain ⟨hflat, -, hdrop⟩ := stray_list_key hm hl.self hnamed hlt hpre
    exact Or.inr ⟨⟨hn, hquiet, hdrop⟩, Or.inr (hsilent hflat)⟩

/-- No scalar element has the index behind the last one. -/
theorem list_key_end {ser : Serialization} {m : Shape} (hm : IsScalar treeView m)
    (hl : Lawful N (.list ser m)) {vs : List Value} {node : Params}
    (hc : Covers N (.list ser m) (.list vs) node) :
    list_key treeView ser m (vs.length + 1) ∉ node.keys := by
  intro hk
  rcases hc.only _ hk with hmem | ⟨-, -, hlt⟩
  · obtain ⟨p, hp, he⟩ := List.mem_map.mp hmem
    obtain ⟨j, v, hj, hp⟩ := mem_flatten_list.mp hp
    obtain ⟨r, hr, rfl⟩ := mem_under.mp hp
    have hpre : list_key treeView ser m (vs.length + 1) <+:
        join (list_key treeView ser m (j + 1)) r.1 := he ▸ List.prefix_refl _
    rw [eq_nil_of_mem_flatten hm hr, list_key_prefix_iff] at hpre
    have hle := le_of_natToStr_prefix hpre
    obtain ⟨hlen, -⟩ := List.getElem?_eq_some_iff.mp hj
    omega
  · cases hflat : ser.flattened
    · rw [list_key_level hflat, depth_list_level hflat,
        digitDepth_append_dot hl.2 (natToStr_no_dot _)] at hlt
      exact absurd hlt (Nat.lt_irrefl _)
    · rw [list_key_flattened hflat, digitDepth_natToStr] at hlt
      exact absurd hlt (Nat.not_lt_zero _)

theorem digitDepth_map_key {ser key : Serialization} {s : Shape} {n t : Str} (i : Nat)
    (h : ser.flattened = true → digitDepth (n ++ t) = 0) :
    digitDepth (map_key ser i n ++ t) = depth (.map ser key s) := by
  rw [map_key, depth]
  cases hflat : ser.flattened
  · rw [if_neg (by simp), if_neg (by simp), List.append_assoc, List.append_assoc]
    exact digitDepth_letter_append entry_isName.1.2 entry_isName.2 ('.' :: _)
  · rw [if_pos rfl, if_pos rfl, List.nil_append, List.append_assoc, digitDepth_natToStr_append,
      List.cons_append, digitDepth_dot, h hflat]

theorem map_key_starts {ser : Serialization} {i j : Nat} {n n' k : Str} (hn : n ≠ [])
    (hn' : n' ≠ []) (h : map_key ser i n <+: join (map_key ser j n') k) :
    i = j ∧ n <+: join n' k := by
  have hjoin : join (map_key ser j n') k =
      (if ser.flattened then [] else "entry.".toList) ++ (natToStr j ++ '.' :: join n' k) := by
    rw [map_key, List.append_assoc, join_append, ← join_assoc _ _ _ hn',
      join_of_ne_nil _ (join_ne_nil hn' k)]
  rw [hjoin, map_key, List.append_assoc, List.prefix_append_right_inj] at h
  obtain ⟨t, ht⟩ := h
  rw [List.append_assoc, List.cons_append] at ht
  have ht' : join (natToStr i) (n ++ t) = join (natToStr j) (join n' k) := by
    rw [join_of_ne_nil _ (by simp [hn]), join_of_ne_nil _ (join_ne_nil hn' k), ht]
  have hinj := join_inj (natToStr_no_dot i) (natToStr_no_dot j) ht'
  exact ⟨natToStr_injective hinj.1, t, hinj.2⟩

/-- The keys of a map are keys of its entries, which are told apart by the index. -/
theorem keys_flatten_map {ser key : Serialization} {s : Shape} (hl : Lawful N (.map ser key s))
    {d : List (Str × Value)} {k : Str} (h : k ∈ Dict.keys (flatten N (.map ser key s) (.dict d))) :
    ∃ j p, d[j]? = some p ∧ (k = join (map_key ser (j + 1) (key_name key)) [] ∨
      ∃ k' ∈ Dict.keys (flatten N s p.2),
        k = join (map_key ser (j + 1) (value_name treeView s)) k') := by
  obtain ⟨q, hq, rfl⟩ := List.mem_map.mp h
  obtain ⟨j, p, hj, hq⟩ := (mem_flatten_map hl).mp hq
  refine ⟨j, p, hj, hq.imp (fun he => by rw [he, join_nil]) fun hq => ?_⟩
  obtain ⟨r, hr, rfl⟩ := mem_under.mp hq
  exact ⟨r.1, Dict.mem_keys_of_mem hr, rfl⟩

/-- No entry has an index behind the last one. -/
theorem map_key_end {ser key : Serialization} {s : Shape} (hl : Lawful N (.map ser key s))
    {d : List (Str × Value)} {node : Params} (hc : Covers N (.map ser key s) (.dict d) node) {i : Nat}
    {n : Str} (hn : IsName n) (hk : map_key ser (i + 1) n ∈ node.keys) : i < d.length := by
  have ⟨hkey, hvalue, _⟩ := hl
  rcases hc.only _ hk with hmem | ⟨-, -, hlt⟩
  · obtain ⟨j, p, hj, he⟩ := keys_flatten_map hl hmem
    obtain ⟨hlen, -⟩ := List.getElem?_eq_some_iff.mp hj
    have hself : ∀ n' k', map_key ser (i + 1) n = join (map_key ser (j + 1) n') k' →
        map_key ser (i + 1) n <+: join (map_key ser (j + 1) n') k' := fun _ _ he =>
      he ▸ List.prefix_refl _
    have hij : i + 1 = j + 1 := by
      rcases he with he | ⟨k', -, he⟩
      · exact (map_key_starts hn.1 hkey.1 (hself _ _ he)).1
      · exact (map_key_starts hn.1 hvalue.1 (hself _ _ he)).1
    omega
  · have hdepth := @digitDepth_map_key ser key s n [] (i + 1)
      fun _ => by rw [List.append_nil, digitDepth_eq_zero hn.2]
    rw [List.append_nil] at hdepth
    omega

/-- The keys of a map that begin like those of a value are its own. -/
theorem own_map_value_cases {ser key : Serialization} {s : Shape} (hl : Lawful N (.map ser key s))
    {d : List (Str × Value)} {i : Nat} {k : Str}
    (hk : k ∈ Dict.keys (flatten N (.map ser key s) (.dict d)))
    (hpre : map_key ser i (value_name treeView s) <+: k) :
    ∃ j p, i = j + 1 ∧ d[j]? = some p ∧ ∃ k' ∈ Dict.keys (flatten N s p.2),
      k = join (map_key ser i (value_name treeView s)) k' := by
  have ⟨hkey, hvalue, _, hnot⟩ := hl
  obtain ⟨j, p, hj, he⟩ := keys_flatten_map hl hk
  rcases he with rfl | ⟨k', hk', rfl⟩
  · exact absurd (map_key_starts hvalue.1 hkey.1 hpre).2 hnot
  · obtain rfl := (map_key_starts hvalue.1 hvalue.1 hpre).1
    exact ⟨j, p, rfl, hj, k', hk', rfl⟩

/-- A key of another element does not begin like one of a map's value. -/
theorem not_stray_map_value {ser key : Serialization} {s : Shape} (hs : ¬ IsScalar treeView s)
    (hl : Lawful N (.map ser key s)) (hn : Named N (.map ser key s)) {i : Nat} {k : Str}
    (hpre : map_key ser i (value_name treeView s) <+: k) :
    ¬ depth (.map ser key s) < digitDepth k := by
  obtain ⟨t, rfl⟩ := hpre
  rw [@digitDepth_map_key ser key s _ t i fun hflat =>
    digitDepth_letter_append hl.2.1.2 ((hn hflat).resolve_left hs) t]
  exact Nat.lt_irrefl _

/-- The keys of a map's node that begin like those of a value are its own. -/
theorem map_value_cases {ser key : Serialization} {s : Shape} (hs : ¬ IsScalar treeView s)
    (hl : Lawful N (.map ser key s)) {d : List (Str × Value)} {node : Params}
    (hc : Covers N (.map ser key s) (.dict d) node) {i : Nat} {k : Str} (hk : k ∈ node.keys)
    (hpre : map_key ser (i + 1) (value_name treeView s) <+: k) :
    ∃ p, d[i]? = some p ∧ ∃ k' ∈ Dict.keys (flatten N s p.2),
      k = join (map_key ser (i + 1) (value_name treeView s)) k' := by
  rcases hc.only _ hk with hmem | ⟨hn, -, hlt⟩
  · obtain ⟨j, p, hij, hj, hown⟩ := own_map_value_cases hl hmem hpre
    obtain rfl : i = j := by omega
    exact ⟨p, hj, hown⟩
  · exact absurd hlt (not_stray_map_value hs hl hn hpre)

/-- The keys of a structure are those of its members that are set. -/
theorem keys_flatten_struct {ser : Serialization} {traits : StructureTraits}
    {ms : List (Str × Shape)} {d : Dict Str Value} {k : Str} :
    k ∈ Dict.keys (flatten N (.struct ser traits ms) (.dict d)) ↔ ∃ p ∈ ms, ∃ v,
      d.get p.1 = some v ∧ ∃ k' ∈ Dict.keys (flatten N p.2 v),
        k = join (N.key p.1 p.2) k' := by
  rw [flatten]
  constructor
  · intro h
    obtain ⟨q, hq, rfl⟩ := List.mem_map.mp h
    obtain ⟨p, hp, v, hv, hq⟩ := mem_flattenMembers.mp hq
    obtain ⟨r, hr, rfl⟩ := mem_under.mp hq
    exact ⟨p, hp, v, hv, r.1, Dict.mem_keys_of_mem hr, rfl⟩
  · rintro ⟨p, hp, v, hv, k', hk', rfl⟩
    obtain ⟨r, hr, rfl⟩ := List.mem_map.mp hk'
    exact List.mem_map.mpr ⟨_, mem_flattenMembers.mpr ⟨p, hp, v, hv, mem_under.mpr ⟨r, hr, rfl⟩⟩, rfl⟩

/-! ## Parsing a node of silent shape -/

theorem namesMembers {s : Shape} (hl : s.All (Lawful N)) : NamesMembers treeView s := by
  refine namesMembers_of_all (hl.imp fun s hs ser traits ms he p hp => ?_)
  subst he
  exact (hs.2.1 p hp).2.1

section

variable {isoparse : IsoParse}

theorem process_member_none {parse : Shape → Params → Except Error Value} {name : Str} {s : Shape}
    {node : Params} (h : ∀ k ∈ node.keys, ¬ name <+: k) :
    process_member treeView isoparse parse name s node = .ok .none := by
  by_cases hs : IsScalar treeView s
  · obtain ⟨ser, t, hs⟩ := hs
    have hget := (Dict.get_eq_none_iff node name).mpr fun hk => h name hk (List.prefix_refl _)
    rw [process_member_scalar hs, hget]
  · rw [process_member_container hs, filter_node_eq_none h]

theorem process_member_scalar_none {parse : Shape → Params → Except Error Value} {name : Str}
    {s : Shape} (hs : IsScalar treeView s) {node : Params} (h : name ∉ node.keys) :
    process_member treeView isoparse parse name s node = .ok .none := by
  obtain ⟨ser, t, hs⟩ := hs
  rw [process_member_scalar hs, (Dict.get_eq_none_iff node name).mpr h]

theorem parse_list_eq (ser : Serialization) (m : Shape) (node : Params)
    (hl : (Shape.list ser m).All (Lawful N)) (result : List Value)
    (hstep : ∀ j v, result[j]? = some v → v ≠ .none ∧
      process_member treeView isoparse (parse_shape treeView isoparse)
        (list_key treeView ser m (j + 1)) m node = .ok v)
    (hend : process_member treeView isoparse (parse_shape treeView isoparse)
      (list_key treeView ser m (result.length + 1)) m node = .ok .none)
    (hlen : result.length ≤ size node) :
    parse_shape treeView isoparse (.list ser m) node =
      .ok (if result = [] then .none else .list result) := by
  rw [parse_shape_eq (namesMembers hl), parseNode, wrapErrors_eq_ok]
  simp only [treeView, parse_list]
  rw [collect_eq result]
  · rfl
  · intro j v hj
    obtain ⟨hv, hp⟩ := hstep j v hj
    rw [Nat.add_comm 1 j, hp]
    have hfalse : v.isNone = false := by
      rw [← Bool.not_eq_true, Value.isNone_iff]
      exact hv
    simp [bind, Except.bind, pure, Except.pure, present, hfalse]
  · rw [Nat.add_comm 1, hend]
    rfl
  · omega

theorem parse_map_eq (ser key : Serialization) (s : Shape) (node : Params)
    (hl : (Shape.map ser key s).All (Lawful N)) (result : List (Str × Value))
    (hstep : ∀ j p, result[j]? = some p → p.2 ≠ .none ∧
      node.get (map_key ser (j + 1) (key_name key)) = some p.1 ∧
      process_member treeView isoparse (parse_shape treeView isoparse)
        (map_key ser (j + 1) (value_name treeView s)) s node = .ok p.2)
    (hkey : node.get (map_key ser (result.length + 1) (key_name key)) = none)
    (hend : process_member treeView isoparse (parse_shape treeView isoparse)
      (map_key ser (result.length + 1) (value_name treeView s)) s node = .ok .none)
    (hlen : result.length ≤ size node) :
    parse_shape treeView isoparse (.map ser key s) node =
      .ok (if result = [] then .none else .dict (Dict.ofPairs result)) := by
  rw [parse_shape_eq (namesMembers hl), parseNode, wrapErrors_eq_ok]
  simp only [treeView, parse_map]
  rw [collect_eq result]
  · rfl
  · intro j p hj
    obtain ⟨hv, hk, hp⟩ := hstep j p hj
    rw [Nat.add_comm 1 j, hp, hk]
    have hfalse : p.2.isNone = false := by
      rw [← Bool.not_eq_true, Value.isNone_iff]
      exact hv
    simp [bind, Except.bind, pure, Except.pure, present, hfalse]
  · rw [Nat.add_comm 1, hend, hkey]
    rfl
  · omega

theorem parse_struct_eq {ser : Serialization} {traits : StructureTraits}
    {ms : List (Str × Shape)} (hl : (Shape.struct ser traits ms).All (Lawful N)) (node : Params) :
    parse_shape treeView isoparse (.struct ser traits ms) node =
      wrapErrors ((parseMembers treeView isoparse (parse_shape treeView isoparse)
        traits.required_members ms node).map fun result =>
          if result = [] then .none else .dict result) := by
  rw [parse_shape_eq (namesMembers hl), parseNode]
  rfl

theorem process_member_not_live {s : Shape} (hl : s.All (Lawful N)) (hs : ¬ Live treeView s)
    (name : Str) (node : Params) :
    process_member treeView isoparse (parse_shape treeView isoparse) name s node = .ok .none := by
  rw [process_member_container fun ⟨ser, t, h⟩ => hs (.scalar h)]
  cases filter_node name node with
  | none => rfl
  | some sub_node => exact parse_not_live (namesMembers hl) hs (Nat.lt_succ_self _)

/-- A shape that is silent has no value in a node of strays. -/
theorem parse_silent {s : Shape} (hs : ¬ IsScalar treeView s) (hl : s.All (Lawful N))
    (hheard : s.All (Heard N)) (hn : Named N s) (hsilent : Silent s) {node : Params}
    (h : ∀ k ∈ node.keys, depth s < digitDepth k) :
    parse_shape treeView isoparse s node = .ok .none := by
  induction s using Shape.induct generalizing node with
  | scalar ser t => exact absurd (isScalar_scalar ser t) hs
  | list ser m ih =>
    have hmember : process_member treeView isoparse (parse_shape treeView isoparse)
        (list_key treeView ser m 1) m node = .ok .none := by
      rw [Named] at hn
      by_cases hm : IsScalar treeView m
      · refine process_member_scalar_none hm fun hk => ?_
        have hlt := h _ hk
        cases hflat : ser.flattened
        · rw [list_key_level hflat, depth_list_level hflat,
            digitDepth_append_dot hl.self.2 (natToStr_no_dot _)] at hlt
          exact absurd hlt (Nat.lt_irrefl _)
        · rw [list_key_flattened hflat, digitDepth_natToStr] at hlt
          exact absurd hlt (Nat.not_lt_zero _)
      · cases hflat : ser.flattened
        · rw [hflat, if_neg (by simp)] at hn
          refine process_member_none fun k hk hpre => ?_
          rw [list_key_level hflat] at hpre
          have hlt := h k hk
          rw [digitDepth_of_starts hl.self.2 (hn.resolve_left hm)
            ((List.prefix_append _ _).trans hpre)] at hlt
          exact absurd hlt (Nat.not_lt_zero _)
        · rw [hflat, if_pos rfl] at hn
          rw [list_key_flattened hflat, process_member_container hm]
          rcases hsub : filter_node (natToStr 1) node with _ | sub_node
          · rfl
          · refine ih hm hl.list_member hheard.list_member hn (hsilent hflat) fun k hk => ?_
            obtain ⟨k', hk', hpre, rfl⟩ := mem_keys_filter_node hsub hk
            have hlt := h k' hk'
            rw [depth_list_flattened hflat hm] at hlt
            exact digitDepth_drop hpre hlt
    exact parse_list_eq ser m node hl [] (by simp) hmember (Nat.zero_le _)
  | map ser key s _ =>
    obtain ⟨hkey, hvalue, -⟩ := hl.self
    have hname : ∀ n, IsName n → map_key ser 1 n ∉ node.keys := by
      intro n hname hk
      have hlt := h _ hk
      have hdepth := @digitDepth_map_key ser key s n [] 1
        fun _ => by rw [List.append_nil, digitDepth_eq_zero hname.2]
      rw [List.append_nil] at hdepth
      omega
    refine parse_map_eq ser key s node hl [] (by simp)
      ((Dict.get_eq_none_iff node _).mpr (hname _ hkey)) ?_ (Nat.zero_le _)
    by_cases hs : IsScalar treeView s
    · exact process_member_scalar_none hs (hname _ hvalue)
    · exact process_member_none fun k hk hpre => not_stray_map_value hs hl.self hn hpre (h k hk)
  | struct ser traits ms _ =>
    rw [parse_struct_eq hl, parseMembers_eq_nil traits.required_members]
    · rfl
    · refine fun p hp => ⟨hsilent p hp, ?_⟩
      rcases hheard.self p hp with hkey | hlive
      · rw [← hkey]
        by_cases hp' : IsScalar treeView p.2
        · refine process_member_scalar_none hp' fun hk => ?_
          have hlt := h _ hk
          rw [digitDepth_eq_zero (hl.self.2.1 p hp).1.2] at hlt
          exact absurd hlt (Nat.not_lt_zero _)
        · refine process_member_none fun k hk hpre => ?_
          have hlt := h k hk
          rw [digitDepth_of_starts (hl.self.2.1 p hp).1.2 ((hn p hp).resolve_left hp') hpre] at hlt
          exact absurd hlt (Nat.not_lt_zero _)
      · exact process_member_not_live (hl.struct_member p hp) hlive _ _

end

end LocalStack.Aws.Protocol.Query
