import Mathlib.Data.List.Basic

/-! Insertion-ordered dictionaries with the interface of a Python `dict`:
overwriting a key keeps its position, a new key goes to the end. The entries
are an association list, and `WF` says that no key occurs twice. -/

namespace LocalStack.OrderedDict

abbrev Dict (κ ν : Type*) := List (κ × ν)

namespace Dict

variable {κ ν : Type*}

def keys (d : Dict κ ν) : List κ := d.map Prod.fst

def WF (d : Dict κ ν) : Prop := (keys d).Nodup

instance [DecidableEq κ] (d : Dict κ ν) : Decidable (WF d) :=
  inferInstanceAs (Decidable (keys d).Nodup)

@[simp] theorem keys_nil : keys ([] : Dict κ ν) = [] := rfl

@[simp] theorem keys_cons (p : κ × ν) (d : Dict κ ν) : keys (p :: d) = p.1 :: keys d := rfl

@[simp] theorem keys_append (d d' : Dict κ ν) : keys (d ++ d') = keys d ++ keys d' := by
  simp [keys]

@[simp] theorem wf_nil : WF ([] : Dict κ ν) := List.nodup_nil

@[simp] theorem wf_cons (p : κ × ν) (d : Dict κ ν) : WF (p :: d) ↔ p.1 ∉ keys d ∧ WF d := by
  simp [WF]

theorem mem_keys_of_mem {d : Dict κ ν} {p : κ × ν} (h : p ∈ d) : p.1 ∈ keys d :=
  List.mem_map_of_mem h

variable [DecidableEq κ]

/-- `d.get(k)`. -/
def get (d : Dict κ ν) (k : κ) : Option ν :=
  match d with
  | [] => none
  | (k', v) :: d => if k' = k then some v else get d k

/-- `d[k] = v`. -/
def set (d : Dict κ ν) (k : κ) (v : ν) : Dict κ ν :=
  match d with
  | [] => [(k, v)]
  | (k', v') :: d => if k' = k then (k, v) :: d else (k', v') :: set d k v

/-- `del d[k]`. -/
def erase (d : Dict κ ν) (k : κ) : Dict κ ν := d.filter fun p => p.1 ≠ k

/-- The dictionary built by a comprehension: later pairs overwrite earlier ones. -/
def ofPairs (ps : List (κ × ν)) : Dict κ ν :=
  ps.foldl (fun d p => set d p.1 p.2) []

@[simp] theorem get_nil (k : κ) : get ([] : Dict κ ν) k = none := rfl

theorem get_cons (k' k : κ) (v : ν) (d : Dict κ ν) :
    get ((k', v) :: d) k = if k' = k then some v else get d k := rfl

theorem set_nil (k : κ) (v : ν) : set [] k v = [(k, v)] := rfl

theorem set_cons (k' k : κ) (v' v : ν) (d : Dict κ ν) :
    set ((k', v') :: d) k v = if k' = k then (k, v) :: d else (k', v') :: set d k v := rfl

@[simp] theorem get_cons_self (k : κ) (v : ν) (d : Dict κ ν) : get ((k, v) :: d) k = some v := by
  simp [get_cons]

theorem get_cons_ne {k' k : κ} (v : ν) (d : Dict κ ν) (h : k' ≠ k) :
    get ((k', v) :: d) k = get d k := by
  simp [get_cons, h]

theorem get_set (d : Dict κ ν) (k k' : κ) (v : ν) :
    get (set d k v) k' = if k = k' then some v else get d k' := by
  induction d with
  | nil => simp [set_nil, get_cons, get_nil]
  | cons p d ih =>
    obtain ⟨k₀, v₀⟩ := p
    by_cases h : k₀ = k
    · subst h; simp only [set_cons, ↓reduceIte, get_cons]; split <;> rfl
    · simp only [set_cons, h, ↓reduceIte, get_cons, ih]
      by_cases hk : k = k'
      · subst hk; simp [h]
      · simp [hk]

@[simp] theorem get_set_self (d : Dict κ ν) (k : κ) (v : ν) : get (set d k v) k = some v := by
  simp [get_set]

theorem get_set_ne (d : Dict κ ν) {k k' : κ} (v : ν) (h : k ≠ k') :
    get (set d k v) k' = get d k' := by
  simp [get_set, h]

theorem set_set (d : Dict κ ν) (k : κ) (v v' : ν) : set (set d k v) k v' = set d k v' := by
  induction d with
  | nil => simp [set_nil, set_cons]
  | cons p d ih =>
    obtain ⟨k₀, v₀⟩ := p
    by_cases h : k₀ = k
    · subst h; simp [set_cons]
    · simp [set_cons, h, ih]

theorem set_of_get {d : Dict κ ν} {k : κ} {v : ν} (h : get d k = some v) : set d k v = d := by
  induction d with
  | nil => cases h
  | cons p d ih =>
    obtain ⟨k₀, v₀⟩ := p
    by_cases hk : k₀ = k
    · rw [hk, get_cons_self] at h
      simp only [set_cons, hk, ↓reduceIte, Option.some.inj h]
    · rw [get_cons_ne v₀ d hk] at h
      simp only [set_cons, hk, ↓reduceIte, ih h]

/-- A key that is not there yet is added at the end. -/
theorem set_of_not_mem (d : Dict κ ν) {k : κ} (v : ν) (h : k ∉ keys d) :
    set d k v = d ++ [(k, v)] := by
  induction d with
  | nil => rfl
  | cons p d ih =>
    obtain ⟨k₀, v₀⟩ := p
    simp only [keys_cons, List.mem_cons, not_or] at h
    simp [set_cons, Ne.symm h.1, ih h.2]

theorem mem_keys_set (d : Dict κ ν) (k k' : κ) (v : ν) :
    k' ∈ keys (set d k v) ↔ k' = k ∨ k' ∈ keys d := by
  induction d with
  | nil => simp [set_nil]
  | cons p d ih =>
    obtain ⟨k₀, v₀⟩ := p
    by_cases h : k₀ = k
    · subst h; simp [set_cons]
    · simp only [set_cons, h, ↓reduceIte, keys_cons, List.mem_cons, ih]
      tauto

theorem get_eq_none_iff (d : Dict κ ν) (k : κ) : get d k = none ↔ k ∉ keys d := by
  induction d with
  | nil => simp
  | cons p d ih =>
    obtain ⟨k₀, v₀⟩ := p
    by_cases h : k₀ = k
    · subst h; simp
    · simp [get_cons, h, ih, Ne.symm h]

theorem exists_get {d : Dict κ ν} {k : κ} (h : k ∈ keys d) : ∃ v, get d k = some v := by
  cases hg : get d k with
  | none => exact absurd h ((get_eq_none_iff d k).mp hg)
  | some v => exact ⟨v, rfl⟩

/-- What there is for the two values of each key can be chosen by the key alone. -/
theorem choose_of_get {μ τ : Type*} [Nonempty τ] {d : Dict κ ν} {e : Dict κ μ}
    {P : κ → ν → μ → τ → Prop}
    (h : ∀ k v u, get d k = some v → get e k = some u → ∃ t, P k v u t) :
    ∃ f : κ → τ, ∀ k v u, get d k = some v → get e k = some u → P k v u (f k) := by
  have hkey : ∀ k, ∃ t, ∀ v u, get d k = some v → get e k = some u → P k v u t := by
    intro k
    cases hd : get d k with
    | none => exact ⟨Classical.arbitrary τ, nofun⟩
    | some v =>
      cases he : get e k with
      | none => exact ⟨Classical.arbitrary τ, nofun⟩
      | some u =>
        obtain ⟨t, ht⟩ := h k v u hd he
        refine ⟨t, fun v' u' hv hu => ?_⟩
        cases hv
        cases hu
        exact ht
  choose f hf using hkey
  exact ⟨f, hf⟩

theorem mem_of_get {d : Dict κ ν} {k : κ} {v : ν} (h : get d k = some v) : (k, v) ∈ d := by
  induction d with
  | nil => simp at h
  | cons p d ih =>
    obtain ⟨k₀, v₀⟩ := p
    by_cases hk : k₀ = k
    · subst hk
      simp only [get_cons_self, Option.some.injEq] at h
      simp [h]
    · rw [get_cons_ne _ _ hk] at h
      exact List.mem_cons_of_mem _ (ih h)

theorem mem_set {d : Dict κ ν} {k : κ} {v : ν} {p : κ × ν} (h : p ∈ set d k v) :
    p ∈ d ∨ p = (k, v) := by
  induction d with
  | nil => simpa [set_nil] using h
  | cons q d ih =>
    obtain ⟨k₀, v₀⟩ := q
    by_cases hk : k₀ = k
    · simp only [set_cons, hk, ↓reduceIte, List.mem_cons] at h
      tauto
    · simp only [set_cons, hk, ↓reduceIte, List.mem_cons] at h ⊢
      tauto

theorem get_of_mem {d : Dict κ ν} (hd : WF d) {k : κ} {v : ν} (h : (k, v) ∈ d) :
    get d k = some v := by
  induction d with
  | nil => simp at h
  | cons p d ih =>
    obtain ⟨k₀, v₀⟩ := p
    simp only [WF, keys_cons, List.nodup_cons] at hd
    rcases List.mem_cons.mp h with he | hm
    · obtain ⟨rfl, rfl⟩ := Prod.mk.inj he
      simp
    · have hne : k₀ ≠ k := fun e => hd.1 (e ▸ mem_keys_of_mem hm)
      rw [get_cons_ne _ _ hne]
      exact ih hd.2 hm

theorem wf_set {d : Dict κ ν} (hd : WF d) (k : κ) (v : ν) : WF (set d k v) := by
  induction d with
  | nil => simp [set_nil]
  | cons p d ih =>
    obtain ⟨k₀, v₀⟩ := p
    rw [wf_cons] at hd
    by_cases h : k₀ = k
    · subst h; simpa [set_cons] using hd
    · rw [set_cons, if_neg h, wf_cons, mem_keys_set]
      exact ⟨fun hk => hk.elim h hd.1, ih hd.2⟩

/-- Keys and values changed by functions that keep the keys apart. -/
theorem get_map {κ' μ : Type*} [DecidableEq κ'] {f : κ → κ'} {g : κ → ν → μ} {d : Dict κ ν}
    {k : κ} (hf : ∀ k' ∈ keys d, f k' = f k → k' = k) :
    get (d.map fun p => (f p.1, g p.1 p.2)) (f k) = (get d k).map (g k) := by
  induction d with
  | nil => rfl
  | cons p d ih =>
    obtain ⟨k₀, v₀⟩ := p
    rw [keys_cons, List.forall_mem_cons] at hf
    rw [List.map_cons, get_cons, get_cons, ih hf.2]
    by_cases hk : k₀ = k
    · subst hk; simp
    · rw [if_neg hk, if_neg fun h => hk (hf.1 h)]

/-- Entries selected by their keys. -/
theorem get_filter_keys (P : κ → Bool) (d : Dict κ ν) (k : κ) :
    get (d.filter fun p => P p.1) k = if P k then get d k else none := by
  induction d with
  | nil => simp
  | cons p d ih =>
    obtain ⟨k₀, v₀⟩ := p
    by_cases hk : k₀ = k
    · subst hk
      cases hP : P k₀ with
      | true => simp [hP]
      | false => simpa [hP] using ih
    · cases hP : P k₀ with
      | true => simp [hP, get_cons_ne _ _ hk, ih]
      | false => simp [hP, get_cons_ne _ _ hk, ih]

omit [DecidableEq κ] in
theorem wf_sublist {d d' : Dict κ ν} (hd : WF d) (h : d'.Sublist d) : WF d' :=
  hd.sublist (h.map Prod.fst)

omit [DecidableEq κ] in
theorem mem_keys_of_sublist {d d' : Dict κ ν} (h : d'.Sublist d) {k : κ} (hk : k ∈ keys d') :
    k ∈ keys d :=
  (h.map Prod.fst).subset hk

theorem get_eq_none_of_sublist {d d' : Dict κ ν} (h : d'.Sublist d) {k : κ}
    (hk : get d k = none) : get d' k = none := by
  rw [get_eq_none_iff] at hk ⊢
  exact fun hmem => hk (mem_keys_of_sublist h hmem)

theorem get_of_sublist {d d' : Dict κ ν} (hd : WF d) (h : d'.Sublist d) {k : κ} {v : ν}
    (hk : get d' k = some v) : get d k = some v :=
  get_of_mem hd (h.subset (mem_of_get hk))

theorem erase_sublist (d : Dict κ ν) (k : κ) : (erase d k).Sublist d :=
  List.filter_sublist

theorem get_erase (d : Dict κ ν) (k k' : κ) :
    get (erase d k) k' = if k' = k then none else get d k' := by
  rw [erase, get_filter_keys (fun x => decide (x ≠ k)) d k']
  by_cases h : k' = k
  · simp [h]
  · simp [h]

/-- An entry at the end, where the key is not in front of it. -/
theorem wf_snoc {d : Dict κ ν} (hd : WF d) {k : κ} (h : get d k = none) (v : ν) :
    WF (d ++ [(k, v)]) := by
  rw [get_eq_none_iff] at h
  simp only [WF, keys_append, keys_cons, keys_nil]
  exact List.nodup_append.mpr ⟨hd, by simp, by
    rintro a ha b hb rfl
    rw [List.mem_singleton] at hb
    exact h (hb ▸ ha)⟩

theorem get_append (d d' : Dict κ ν) (k : κ) : get (d ++ d') k = (get d k).or (get d' k) := by
  induction d with
  | nil => simp
  | cons p d ih =>
    obtain ⟨k₀, v₀⟩ := p
    rw [List.cons_append, get_cons, get_cons]
    split_ifs
    · rfl
    · exact ih

theorem erase_of_not_mem {d : Dict κ ν} {k : κ} (h : k ∉ keys d) : erase d k = d := by
  refine List.filter_eq_self.mpr fun p hp => ?_
  have hne : p.1 ≠ k := fun hk => h (hk ▸ mem_keys_of_mem hp)
  simp [hne]

theorem length_erase {d : Dict κ ν} (hd : WF d) {k : κ} (h : k ∈ keys d) :
    (erase d k).length + 1 = d.length := by
  induction d with
  | nil => simp at h
  | cons p d ih =>
    obtain ⟨k₀, v₀⟩ := p
    rw [wf_cons] at hd
    by_cases hk : k₀ = k
    · subst hk
      have hhead : erase ((k₀, v₀) :: d) k₀ = erase d k₀ := by simp [erase]
      rw [hhead, erase_of_not_mem hd.1, List.length_cons]
    · rw [keys_cons, List.mem_cons] at h
      have hrest := ih hd.2 (h.resolve_left (Ne.symm hk))
      simp only [erase, List.filter_cons, ne_eq, hk, not_false_eq_true, decide_true, ↓reduceIte,
        List.length_cons] at hrest ⊢
      omega

/-! Values changed by a function that can look at the key. -/

theorem set_map {μ : Type*} (g : κ → ν → μ) (d : Dict κ ν) (k : κ) (v : ν) :
    set (d.map fun p => (p.1, g p.1 p.2)) k (g k v) =
      (set d k v).map fun p => (p.1, g p.1 p.2) := by
  induction d with
  | nil => rfl
  | cons p d ih =>
    obtain ⟨k₀, v₀⟩ := p
    by_cases h : k₀ = k
    · subst h; simp [set_cons]
    · simp only [List.map_cons, set_cons, h, ↓reduceIte, ih]

theorem erase_map {μ : Type*} (g : κ → ν → μ) (d : Dict κ ν) (k : κ) :
    erase (d.map fun p => (p.1, g p.1 p.2)) k = (erase d k).map fun p => (p.1, g p.1 p.2) := by
  rw [erase, List.filter_map]
  rfl

/-! ## Comprehensions -/

section FilterMap

variable {μ ε : Type*}

/-- The dictionary of the entries for which `g` has a value. -/
def filterMap (g : κ → ν → Option μ) : Dict κ ν → Dict κ μ
  | [] => []
  | (k, v) :: d =>
    match g k v with
    | some w => (k, w) :: filterMap g d
    | none => filterMap g d

/-- The same for a function that may fail, run on the entries in order. -/
def filterMapM (f : κ → ν → Except ε (Option μ)) : Dict κ ν → Except ε (Dict κ μ)
  | [] => .ok []
  | (k, v) :: d =>
    match f k v with
    | .error e => .error e
    | .ok none => filterMapM f d
    | .ok (some w) =>
      match filterMapM f d with
      | .error e => .error e
      | .ok r => .ok ((k, w) :: r)

omit [DecidableEq κ] in
theorem filterMapM_ok {f : κ → ν → Except ε (Option μ)} {g : κ → ν → Option μ} {d : Dict κ ν}
    (h : ∀ p ∈ d, f p.1 p.2 = .ok (g p.1 p.2)) : filterMapM f d = .ok (filterMap g d) := by
  induction d with
  | nil => rfl
  | cons p d ih =>
    obtain ⟨k, v⟩ := p
    rw [List.forall_mem_cons] at h
    simp only [filterMapM, filterMap, h.1, ih h.2]
    cases g k v <;> rfl

omit [DecidableEq κ] in
/-- Every call of a comprehension that succeeds has succeeded. -/
theorem exists_ok_of_filterMapM {f : κ → ν → Except ε (Option μ)} {d : Dict κ ν} {e : Dict κ μ}
    (h : filterMapM f d = .ok e) : ∀ p ∈ d, ∃ w, f p.1 p.2 = .ok w := by
  induction d generalizing e with
  | nil => simp
  | cons p d ih =>
    obtain ⟨k, v⟩ := p
    cases hf : f k v with
    | error err => simp [filterMapM, hf] at h
    | ok w =>
      refine List.forall_mem_cons.mpr ⟨⟨w, hf⟩, ?_⟩
      cases hd : filterMapM f d with
      | error err => cases w <;> simp [filterMapM, hf, hd] at h
      | ok e' => exact ih hd

omit [DecidableEq κ] in
theorem mem_keys_of_mem_filterMap {g : κ → ν → Option μ} {d : Dict κ ν} {k : κ}
    (h : k ∈ keys (filterMap g d)) : k ∈ keys d := by
  induction d with
  | nil => simp [filterMap] at h
  | cons p d ih =>
    obtain ⟨k₀, v₀⟩ := p
    rw [filterMap] at h
    rw [keys_cons, List.mem_cons]
    split at h
    · rcases List.mem_cons.mp h with h | h
      · exact Or.inl h
      · exact Or.inr (ih h)
    · exact Or.inr (ih h)

theorem get_filterMap {g : κ → ν → Option μ} {d : Dict κ ν} (hd : WF d) (k : κ) :
    get (filterMap g d) k = (get d k).bind (g k) := by
  induction d with
  | nil => rfl
  | cons p d ih =>
    obtain ⟨k₀, v₀⟩ := p
    rw [wf_cons] at hd
    rw [filterMap, get_cons]
    by_cases hk : k₀ = k
    · subst hk
      cases hg : g k₀ v₀ with
      | none =>
        have hnot := (get_eq_none_iff (filterMap g d) k₀).mpr
          fun h => hd.1 (mem_keys_of_mem_filterMap h)
        simp [hg, hnot]
      | some w => simp [hg]
    · rw [if_neg hk]
      cases g k₀ v₀ with
      | none => exact ih hd.2
      | some w =>
        rw [get_cons_ne _ _ hk]
        exact ih hd.2

/-- What a comprehension that may fail has found under a key. -/
theorem of_get_filterMapM {f : κ → ν → Except ε (Option μ)} {d : Dict κ ν} {e : Dict κ μ}
    (hd : WF d) (h : filterMapM f d = .ok e) {k : κ} {w : μ} (hw : get e k = some w) :
    ∃ v, get d k = some v ∧ f k v = .ok (some w) := by
  let g : κ → ν → Option μ := fun k v => (f k v).toOption.join
  have hg : ∀ p ∈ d, f p.1 p.2 = .ok (g p.1 p.2) := fun p hp => by
    obtain ⟨o, ho⟩ := exists_ok_of_filterMapM h p hp
    cases o <;> simp [g, ho, Except.toOption]
  rw [filterMapM_ok hg, Except.ok.injEq] at h
  rw [← h, get_filterMap hd, Option.bind_eq_some_iff] at hw
  obtain ⟨v, hv, hgv⟩ := hw
  exact ⟨v, hv, by rw [hg (k, v) (mem_of_get hv), hgv]⟩

end FilterMap

theorem mem_keys_foldl_set (ps : List (κ × ν)) (d : Dict κ ν) (k : κ) :
    k ∈ keys (ps.foldl (fun d p => set d p.1 p.2) d) ↔ k ∈ keys d ∨ k ∈ ps.map Prod.fst := by
  induction ps generalizing d with
  | nil => simp
  | cons p ps ih =>
    rw [List.foldl_cons, ih, mem_keys_set, List.map_cons, List.mem_cons]
    tauto

@[simp] theorem mem_keys_ofPairs {ps : List (κ × ν)} {k : κ} :
    k ∈ keys (ofPairs ps) ↔ k ∈ ps.map Prod.fst := by
  simp [ofPairs, mem_keys_foldl_set]

theorem wf_ofPairs (ps : List (κ × ν)) : WF (ofPairs ps) := by
  have hfold : ∀ (ps : List (κ × ν)) (d : Dict κ ν), WF d →
      WF (ps.foldl (fun d p => set d p.1 p.2) d) := by
    intro ps
    induction ps with
    | nil => exact fun _ hd => hd
    | cons p ps ih => exact fun d hd => ih _ (wf_set hd p.1 p.2)
  exact hfold ps [] wf_nil

/-- The value of a key that is given one value only. -/
theorem get_ofPairs_of_mem {ps : List (κ × ν)} {k : κ} {v : ν} (h : (k, v) ∈ ps)
    (hv : ∀ p ∈ ps, p.1 = k → p.2 = v) : get (ofPairs ps) k = some v := by
  have hfold : ∀ (ps : List (κ × ν)) (d : Dict κ ν), (∀ p ∈ ps, p.1 = k → p.2 = v) →
      (k, v) ∈ ps ∨ get d k = some v →
      get (ps.foldl (fun d p => set d p.1 p.2) d) k = some v := by
    intro ps
    induction ps with
    | nil => exact fun d _ h => by simpa using h
    | cons p ps ih =>
      intro d hps h
      rw [List.forall_mem_cons] at hps
      refine ih _ hps.2 ?_
      by_cases hk : p.1 = k
      · exact Or.inr (by rw [← hk, get_set_self, hps.1 hk])
      · rw [get_set_ne _ _ hk]
        refine h.imp_left fun hmem => (List.mem_cons.mp hmem).resolve_left fun he => ?_
        exact hk (congrArg Prod.fst he).symm
  exact hfold ps [] hv (Or.inl h)

theorem mem_of_mem_ofPairs {ps : List (κ × ν)} {q : κ × ν} (h : q ∈ ofPairs ps) : q ∈ ps := by
  have hfold : ∀ (ps : List (κ × ν)) (d : Dict κ ν),
      q ∈ ps.foldl (fun d p => set d p.1 p.2) d → q ∈ d ∨ q ∈ ps := by
    intro ps
    induction ps with
    | nil => exact fun _ h => .inl h
    | cons p ps ih =>
      intro d h
      rcases ih _ h with h | h
      · exact (mem_set h).imp_right fun he => List.mem_cons.mpr (.inl he)
      · exact .inr (List.mem_cons_of_mem _ h)
  exact (hfold ps [] h).resolve_left List.not_mem_nil

theorem ofPairs_eq_nil {ps : List (κ × ν)} : ofPairs ps = [] ↔ ps = [] := by
  cases ps with
  | nil => simp [ofPairs]
  | cons p ps =>
    have hmem : p.1 ∈ keys (ofPairs (p :: ps)) := by simp
    refine iff_of_false (fun h => ?_) (by simp)
    rw [h] at hmem
    simp at hmem

/-- Pairs with distinct keys are the dictionary they build. -/
theorem ofPairs_of_wf {ps : List (κ × ν)} (h : WF ps) : ofPairs ps = ps := by
  have key : ∀ (ps d : Dict κ ν), WF (d ++ ps) →
      ps.foldl (fun d p => set d p.1 p.2) d = d ++ ps := by
    intro ps
    induction ps with
    | nil => simp
    | cons p ps ih =>
      intro d hd
      have hnot : p.1 ∉ keys d := by
        intro hmem
        rw [WF, keys_append, List.nodup_append] at hd
        exact hd.2.2 _ hmem _ (by simp) rfl
      rw [List.foldl_cons, set_of_not_mem d p.2 hnot]
      have := ih (d ++ [(p.1, p.2)]) (by simpa using hd)
      simpa using this
  simpa [ofPairs] using key ps [] h

/-! ## Grouping

The loop that appends `g a` to the list of the key `f a`. -/

section Grouping
variable {α μ : Type*} (f : α → κ) (g : α → μ)

theorem getD_foldl_append (l : List α) (d : Dict κ (List μ)) (k : κ) :
    (get (l.foldl (fun d a => set d (f a) ((get d (f a)).getD [] ++ [g a])) d) k).getD [] =
      (get d k).getD [] ++ (l.filter (f · = k)).map g := by
  induction l generalizing d with
  | nil => simp
  | cons a l ih =>
    rw [List.foldl_cons, ih, get_set]
    by_cases hk : f a = k
    · simp [hk]
    · simp [hk]

theorem wf_foldl_append (l : List α) {d : Dict κ (List μ)} (hd : WF d) :
    WF (l.foldl (fun d a => set d (f a) ((get d (f a)).getD [] ++ [g a])) d) := by
  induction l generalizing d with
  | nil => exact hd
  | cons a l ih => exact ih (wf_set hd _ _)

theorem mem_keys_foldl_append (l : List α) (d : Dict κ (List μ)) (k : κ) :
    k ∈ keys (l.foldl (fun d a => set d (f a) ((get d (f a)).getD [] ++ [g a])) d) ↔
      k ∈ keys d ∨ k ∈ l.map f := by
  induction l generalizing d with
  | nil => simp
  | cons a l ih =>
    rw [List.foldl_cons, ih, mem_keys_set, List.map_cons, List.mem_cons]
    tauto

/-- Every entry of the groups of a list holds the elements of its key, in their
order. -/
theorem eq_of_mem_foldl_append {l : List α} {p : κ × List μ}
    (h : p ∈ l.foldl (fun d a => set d (f a) ((get d (f a)).getD [] ++ [g a])) []) :
    p.2 = (l.filter (f · = p.1)).map g := by
  have hget := get_of_mem (wf_foldl_append f g l wf_nil) h
  simpa [hget] using getD_foldl_append f g l [] p.1

theorem perm_set_append (d : Dict κ (List μ)) (k : κ) (x : μ) :
    ((set d k ((get d k).getD [] ++ [x])).map Prod.snd).flatten.Perm
      ((d.map Prod.snd).flatten ++ [x]) := by
  induction d with
  | nil => simp [set_nil]
  | cons p d ih =>
    obtain ⟨k₀, v₀⟩ := p
    by_cases hk : k₀ = k
    · simp only [set_cons, hk, ↓reduceIte, get_cons, Option.getD_some, List.map_cons,
        List.flatten_cons, List.append_assoc]
      exact List.Perm.append_left v₀ List.perm_append_comm
    · simp only [set_cons, hk, ↓reduceIte, get_cons, List.map_cons, List.flatten_cons,
        List.append_assoc]
      exact List.Perm.append_left v₀ ih

/-- All groups together hold what was put into them. -/
theorem perm_foldl_append (l : List α) (d : Dict κ (List μ)) :
    ((l.foldl (fun d a => set d (f a) ((get d (f a)).getD [] ++ [g a])) d).map
      Prod.snd).flatten.Perm ((d.map Prod.snd).flatten ++ l.map g) := by
  induction l generalizing d with
  | nil => simp
  | cons a l ih =>
    rw [List.foldl_cons, List.map_cons]
    refine (ih _).trans ((List.Perm.append_right _ (perm_set_append d (f a) (g a))).trans ?_)
    simp

variable (keysOf : α → List κ)

/-- A `defaultdict(list)` with every item under all of its keys. -/
def collect (items : List α) : Dict κ (List μ) :=
  (items.flatMap fun a => (keysOf a).map fun k => (k, a)).foldl
    (fun d e => set d e.1 ((get d e.1).getD [] ++ [g e.2])) []

theorem get_collect (items : List α) (hkeys : ∀ a ∈ items, (keysOf a).Nodup) (k : κ) :
    ((collect g keysOf items).get k).getD [] =
      (items.filter fun a => decide (k ∈ keysOf a)).map g := by
  rw [collect, getD_foldl_append, get_nil, Option.getD_none, List.nil_append]
  induction items with
  | nil => rfl
  | cons a items ih =>
    rw [List.forall_mem_cons] at hkeys
    have hfilter : ((keysOf a).filter fun k' => k' = k) = if k ∈ keysOf a then [k] else [] := by
      rw [List.filter_eq, hkeys.1.count]
      split <;> rfl
    have hhead : (((keysOf a).filter ((fun e : κ × α => decide (e.1 = k)) ∘
        fun k => (k, a))).map ((fun e : κ × α => g e.2) ∘ fun k => (k, a))) =
          ([a].filter fun a => decide (k ∈ keysOf a)).map g := by
      rw [show ((fun e : κ × α => decide (e.1 = k)) ∘ fun k' => (k', a)) =
        fun k' => decide (k' = k) from rfl, hfilter]
      by_cases hk : k ∈ keysOf a <;> simp [hk]
    rw [List.flatMap_cons, List.filter_append, List.map_append, ih hkeys.2, List.filter_map,
      List.map_map, hhead, ← List.map_append, ← List.filter_append, List.singleton_append]

end Grouping

end Dict

end LocalStack.OrderedDict
