import LocalStack.Services.StoreHeap

/-! What `reset` does to the heap. It only removes entries, so the references of a
store stay, and every store that the bundle still returns loses its own attributes. -/

namespace LocalStack.Services.Stores
open LocalStack.OrderedDict LocalStack.Text LocalStack.Regex LocalStack.Stateful LocalStack.Runs

variable {ν : Type} {cls : StoreClass ν} {cfg : Config ν} {w w' w'' : World ν}
  {s b : Nat} {a r n : Str} {u : Bool}

/-- Nothing is new in `w'`, and the attributes that a bundle has set on a store are
still there. -/
structure Shrinks (w w' : World ν) : Prop where
  nextDict : w'.nextDict = w.nextDict
  nextObject : w'.nextObject = w.nextObject
  nextBundle : w'.nextBundle = w.nextBundle
  accounts : w'.accounts.Sublist w.accounts
  global : ∀ b, (w'.regionBundles b)._global = (w.regionBundles b)._global
  universal : ∀ b, (w'.regionBundles b)._universal = (w.regionBundles b)._universal
  account_id : ∀ b, (w'.regionBundles b).account_id = (w.regionBundles b).account_id
  stores : ∀ b, (w'.regionBundles b).stores.Sublist (w.regionBundles b).stores
  dicts : ∀ i, (w'.dicts i).Sublist (w.dicts i)
  objects : ∀ s, (w'.objects s).Sublist (w.objects s)
  own : ∀ s, ∀ n ∈ ownAttrs, Dict.get (w'.objects s) n = Dict.get (w.objects s) n

theorem Shrinks.refl (w : World ν) : Shrinks w w where
  nextDict := rfl
  nextObject := rfl
  nextBundle := rfl
  accounts := List.Sublist.refl _
  global := fun _ => rfl
  universal := fun _ => rfl
  account_id := fun _ => rfl
  stores := fun _ => List.Sublist.refl _
  dicts := fun _ => List.Sublist.refl _
  objects := fun _ => List.Sublist.refl _
  own := fun _ _ _ => rfl

theorem Shrinks.trans (h : Shrinks w w') (h' : Shrinks w' w'') : Shrinks w w'' where
  nextDict := h'.nextDict.trans h.nextDict
  nextObject := h'.nextObject.trans h.nextObject
  nextBundle := h'.nextBundle.trans h.nextBundle
  accounts := h'.accounts.trans h.accounts
  global := fun b => (h'.global b).trans (h.global b)
  universal := fun b => (h'.universal b).trans (h.universal b)
  account_id := fun b => (h'.account_id b).trans (h.account_id b)
  stores := fun b => (h'.stores b).trans (h.stores b)
  dicts := fun i => (h'.dicts i).trans (h.dicts i)
  objects := fun s => (h'.objects s).trans (h.objects s)
  own := fun s n hn => (h'.own s n hn).trans (h.own s n hn)

theorem Home.shrinks (hh : Home cls w s b r) (h : Shrinks w w') : Home cls w' s b r :=
  hh.of_eq (h.global b) (h.account_id b) (h.own s)
    (fun n hn => hh.names n (Dict.mem_keys_of_sublist (h.objects s) hn))
    (Dict.wf_sublist hh.wf (h.objects s))

theorem Inv.shrinks (hi : Inv cls w) (h : Shrinks w w') : Inv cls w' := by
  constructor
  · rw [h.nextDict]
    exact hi.nextDict
  · exact Dict.wf_sublist hi.accounts_wf h.accounts
  · intro a b hb
    rw [h.nextBundle, h.account_id]
    exact hi.account a b (Dict.get_of_sublist hi.accounts_wf h.accounts hb)
  · intro b hb
    rw [h.nextBundle] at hb
    rw [h.universal]
    exact hi.universal b hb
  · intro b hb
    rw [h.nextBundle] at hb
    rw [h.global]
    exact hi.global_pos b hb
  · intro b hb
    rw [h.nextBundle] at hb
    rw [h.global, h.nextDict]
    exact hi.global_lt b hb
  · intro b hb b' hb' he
    rw [h.nextBundle] at hb hb'
    rw [h.global, h.global] at he
    exact hi.global_injective b hb b' hb' he
  · intro b hb
    rw [h.nextBundle] at hb
    exact Dict.wf_sublist (hi.stores_wf b hb) (h.stores b)
  · intro b hb r s hs
    rw [h.nextBundle] at hb
    have hold := Dict.get_of_sublist (hi.stores_wf b hb) (h.stores b) hs
    obtain ⟨hlt, hh⟩ := hi.store b hb r s hold
    rw [h.nextObject]
    exact ⟨hlt, hh.shrinks h⟩
  · intro s hs
    rw [h.nextObject] at hs
    obtain ⟨b, hb, r, hh⟩ := hi.home s hs
    exact ⟨b, h.nextBundle ▸ hb, r, hh.shrinks h⟩

/-- A store without local attributes. -/
def Wiped (w : World ν) (s : Nat) : Prop :=
  ∀ n, Dict.get (w.objects s) (LOCAL_ATTR_PREFIX ++ n) = none

theorem Wiped.shrinks (hw : Wiped w s) (h : Shrinks w w') : Wiped w' s :=
  fun n => Dict.get_eq_none_of_sublist (h.objects s) (hw n)

/-! ## One name -/

theorem clear_eq (w : World ν) (i : Nat) : (clear (.dict i)).run w =
    .ok () { w with dicts := Function.update w.dicts i [] } :=
  rfl

theorem shrinks_clear (w : World ν) (i : Nat) :
    Shrinks w { w with dicts := Function.update w.dicts i [] } := by
  refine { Shrinks.refl w with dicts := ?_ }
  intro i'
  by_cases h : i' = i
  · subst h
    simp
  · simp [Function.update_of_ne h]

theorem prefixed_of_isPrefixOf (h : LOCAL_ATTR_PREFIX.isPrefixOf n = true) :
    ∃ m, n = LOCAL_ATTR_PREFIX ++ m := by
  obtain ⟨m, rfl⟩ := List.isPrefixOf_iff_prefix.mp h
  exact ⟨m, rfl⟩

theorem delattr_eq (hn : n ∉ Dict.keys cls.attributes) (hk : n ∈ Dict.keys (w.objects s)) :
    (delattr cls s n).run w = .ok ()
      { w with objects := Function.update w.objects s (Dict.erase (w.objects s) n) } := by
  obtain ⟨v, hv⟩ := Dict.exists_get hk
  simp [delattr, (Dict.get_eq_none_iff _ _).mpr hn, hv]

theorem shrinks_delattr (w : World ν) (s : Nat) (m : Str) : Shrinks w { w with
    objects := Function.update w.objects s (Dict.erase (w.objects s) (LOCAL_ATTR_PREFIX ++ m)) } := by
  refine { Shrinks.refl w with objects := ?_, own := ?_ }
  · intro s'
    by_cases h : s' = s
    · subst h
      simpa using Dict.erase_sublist _ _
    · simp [Function.update_of_ne h]
  · intro s' n hn
    by_cases h : s' = s
    · subst h
      simp [Dict.get_erase, (prefixed_ne m hn).symm]
    · simp [Function.update_of_ne h]

/-- What is left to do in the loop over the names of a store's `__dict__`. -/
structure Pending (w₀ : World ν) (s : Nat) (names : List Str) (w : World ν) : Prop where
  shrinks : Shrinks w₀ w
  bundles : w.regionBundles = w₀.regionBundles
  nodup : names.Nodup
  present : ∀ n ∈ names, n ∈ Dict.keys (w.objects s)
  left : ∀ n, LOCAL_ATTR_PREFIX ++ n ∈ Dict.keys (w.objects s) → LOCAL_ATTR_PREFIX ++ n ∈ names

/-- The first branch only touches dictionaries. -/
theorem resetGlobal_run (ho : cls.Ordinary) (hh : Home cls w s b r) (n : Str) :
    ∃ D, (resetGlobal cls s n).run w = .ok () { w with dicts := D } ∧
      Shrinks w { w with dicts := D } := by
  by_cases h : n = globalAttr
  · have hread : (readAttr cls s globalAttr).run w = .ok (.dict (w.regionBundles b)._global) w := by
      rw [readAttr, StoreClass.depth, getattr_plain (ho.own _ (by decide))]
      exact instanceGet_some cls hh.global
    exact ⟨_, by rw [resetGlobal, if_pos h, bind_ok hread, clear_eq], shrinks_clear w _⟩
  · exact ⟨w.dicts, by rw [resetGlobal, if_neg h]; rfl, Shrinks.refl w⟩

/-- The other branch removes the name from the store if it is a local attribute, and
no other name. -/
theorem resetOther_run (ho : cls.Ordinary) (hh : Home cls w s b r) (u : Bool)
    (hk : n ∈ Dict.keys (w.objects s)) :
    ∃ D O, (resetOther cls u s n).run w = .ok () { w with dicts := D, objects := O } ∧
      Shrinks w { w with dicts := D, objects := O } ∧
      (∀ m, m ≠ n → m ∈ Dict.keys (w.objects s) → m ∈ Dict.keys (O s)) ∧
      ∀ m, LOCAL_ATTR_PREFIX ++ m ∈ Dict.keys (O s) → LOCAL_ATTR_PREFIX ++ m ≠ n := by
  by_cases hu : n = universalAttr ∧ u = true
  · have hread : (readAttr cls s universalAttr).run w = .ok (.dict 0) w := by
      rw [readAttr, StoreClass.depth, getattr_plain (ho.own _ (by decide))]
      exact instanceGet_some cls hh.universal
    refine ⟨Function.update w.dicts 0 [], w.objects, ?_, shrinks_clear w 0, fun _ _ hm => hm, ?_⟩
    · rw [resetOther, if_pos hu, bind_ok hread, clear_eq]
    · rw [hu.1]
      exact fun m _ => prefixed_ne m (by decide)
  · by_cases hp : LOCAL_ATTR_PREFIX.isPrefixOf n = true
    · obtain ⟨m, rfl⟩ := prefixed_of_isPrefixOf hp
      refine ⟨w.dicts, Function.update w.objects s (Dict.erase (w.objects s) _), ?_, shrinks_delattr w s m, ?_, ?_⟩
      · rw [resetOther, if_neg hu, if_pos hp, delattr_eq (hh.names _ hk) hk]
      · intro m' hne hm'
        obtain ⟨v, hv⟩ := Dict.exists_get hm'
        rw [Function.update_self]
        by_contra hnot
        rw [← Dict.get_eq_none_iff, Dict.get_erase, if_neg hne, hv] at hnot
        cases hnot
      · intro m' hm' he
        rw [Function.update_self, he] at hm'
        have hnone := Dict.get_erase (w.objects s) (LOCAL_ATTR_PREFIX ++ m) (LOCAL_ATTR_PREFIX ++ m)
        rw [if_pos rfl, Dict.get_eq_none_iff] at hnone
        exact hnone hm'
    · refine ⟨w.dicts, w.objects, ?_, Shrinks.refl w, fun _ _ hm => hm, ?_⟩
      · rw [resetOther, if_neg hu, if_neg hp]
        rfl
      · rintro m - rfl
        exact hp (List.isPrefixOf_iff_prefix.mpr (List.prefix_append _ _))

theorem resetAttr_run (ho : cls.Ordinary) (hh : Home cls w' s b r) (u : Bool) {names : List Str}
    (h : Pending w' s (n :: names) w) :
    ∃ w'', (resetAttr cls u s n).run w = .ok () w'' ∧ Pending w' s names w'' := by
  have hnodup := List.nodup_cons.mp h.nodup
  obtain ⟨D, hrun, hD⟩ := resetGlobal_run ho (hh.shrinks h.shrinks) n
  obtain ⟨D', O, hrun', hO, hkeep, hgone⟩ := resetOther_run ho
    ((hh.shrinks h.shrinks).shrinks hD) u (h.present n List.mem_cons_self)
  refine ⟨_, by rw [resetAttr, bind_ok hrun, hrun'], (h.shrinks.trans hD).trans hO, h.bundles,
    hnodup.2, ?_, ?_⟩
  · intro m hm
    have hne : m ≠ n := fun he => hnodup.1 (he ▸ hm)
    exact hkeep m hne (h.present m (List.mem_cons_of_mem _ hm))
  · intro m hm
    have hold := h.left m (Dict.mem_keys_of_sublist (hO.objects s) hm)
    exact (List.mem_cons.mp hold).resolve_left (hgone m hm)

/-! ## Stores, region bundles, accounts -/

theorem resetStore_run (ho : cls.Ordinary) (hh : Home cls w s b r) (u : Bool) :
    ∃ w', (resetStore cls u s).run w = .ok () w' ∧ Shrinks w w' ∧
      w'.regionBundles = w.regionBundles ∧ Wiped w' s := by
  have hstart : Pending w s (Dict.keys (w.objects s)) w :=
    ⟨Shrinks.refl w, rfl, hh.wf, fun _ hn => hn, fun _ hn => hn⟩
  have hstep : ∀ n names w', Pending w s (n :: names) w' →
      ∃ w'', (resetAttr cls u s n).run w' = .ok () w'' ∧ Pending w s names w'' :=
    fun n names w' h => resetAttr_run ho hh u h
  obtain ⟨w', hrun, hend⟩ := forM_run hstep hstart
  refine ⟨w', ?_, hend.shrinks, hend.bundles, ?_⟩
  · rw [resetStore, bind_ok (EStateM.run_get w), hrun]
  · intro n
    rw [Dict.get_eq_none_iff]
    exact fun hmem => List.not_mem_nil (hend.left n hmem)

/-- What `RegionBundle.reset` has done. -/
structure RegionReset (w : World ν) (b : Nat) (w' : World ν) : Prop where
  shrinks : Shrinks w w'
  global : w'.dicts (w.regionBundles b)._global = []
  wiped : ∀ p ∈ (w.regionBundles b).stores, Wiped w' p.2
  others : ∀ b' ≠ b, w'.regionBundles b' = w.regionBundles b'
  stores : (w'.regionBundles b).stores = []

/-- The loop over the stores of a region bundle. -/
structure StoresPending (w₀ : World ν) (b : Nat) (rest : Dict Str Nat) (w : World ν) :
    Prop where
  shrinks : Shrinks w₀ w
  bundles : w.regionBundles = w₀.regionBundles
  known : ∀ p ∈ rest, p ∈ (w₀.regionBundles b).stores
  wiped : ∀ p ∈ (w₀.regionBundles b).stores, p ∈ rest ∨ Wiped w p.2

theorem StoresPending.step (ho : cls.Ordinary) {w₀ : World ν} {p : Str × Nat}
    {rest : Dict Str Nat} (hhome : ∀ q ∈ (w₀.regionBundles b).stores, Home cls w₀ q.2 b q.1)
    (u : Bool) (h : StoresPending w₀ b (p :: rest) w) :
    ∃ w', (resetStore cls u p.2).run w = .ok () w' ∧ StoresPending w₀ b rest w' := by
  have hh := (hhome p (h.known p List.mem_cons_self)).shrinks h.shrinks
  obtain ⟨w', hrun, hs, hbundles, hwiped⟩ := resetStore_run ho hh u
  refine ⟨w', hrun, h.shrinks.trans hs, hbundles.trans h.bundles,
    fun q hq => h.known q (List.mem_cons_of_mem _ hq), ?_⟩
  intro q hq
  rcases h.wiped q hq with hmem | hold
  · rcases List.mem_cons.mp hmem with rfl | hmem
    · exact Or.inr hwiped
    · exact Or.inl hmem
  · exact Or.inr (hold.shrinks hs)

/-- `self.clear()` of region bundle `b`. -/
theorem shrinks_clearStores (w : World ν) (b : Nat) : Shrinks w { w with
    regionBundles := Function.update w.regionBundles b { w.regionBundles b with stores := [] } } := by
  refine { Shrinks.refl w with global := ?_, universal := ?_, account_id := ?_, stores := ?_ }
  all_goals
    intro b'
    by_cases h : b' = b
    · subst h
      simp
    · simp [Function.update_of_ne h]

theorem regionReset_run (ho : cfg.store.Ordinary) (hi : Inv cfg.store w) (hb : b < w.nextBundle)
    (u : Bool) :
    ∃ w', (RegionBundle.reset cfg u b).run w = .ok () w' ∧ RegionReset w b w' := by
  have hhome : ∀ p ∈ (w.regionBundles b).stores, Home cfg.store w p.2 b p.1 := fun p hp =>
    (hi.store b hb p.1 p.2 (Dict.get_of_mem (hi.stores_wf b hb) hp)).2
  obtain ⟨w₁, hrun, hend⟩ := forM_run (I := StoresPending w b)
    (fun _ _ _ h => h.step ho hhome u)
    ⟨Shrinks.refl w, rfl, fun p hp => hp, fun p hp => Or.inl hp⟩
  have hclear := shrinks_clear w₁ (w₁.regionBundles b)._global
  have hstores := shrinks_clearStores
    { w₁ with dicts := Function.update w₁.dicts (w₁.regionBundles b)._global [] } b
  refine ⟨_, ?_, (hend.shrinks.trans hclear).trans hstores, ?_, ?_, ?_, ?_⟩
  · rw [RegionBundle.reset, bind_ok (EStateM.run_get w), bind_ok hrun,
      bind_ok (EStateM.run_get w₁), bind_ok (clear_eq w₁ _)]
    rfl
  · rw [← hend.bundles]
    exact Function.update_self _ _ _
  · intro p hp
    have hold := (hend.wiped p hp).resolve_left List.not_mem_nil
    exact (hold.shrinks hclear).shrinks hstores
  · intro b' hne
    rw [← hend.bundles]
    exact Function.update_of_ne hne _ _
  · exact congrArg RegionBundle.stores (Function.update_self b _ w₁.regionBundles)

/-- What `AccountRegionBundle.reset` has done. -/
structure Reset (w w' : World ν) : Prop where
  shrinks : Shrinks w w'
  accounts : w'.accounts = []
  universal : w'.dicts 0 = []
  global : ∀ p ∈ w.accounts, w'.dicts (w.regionBundles p.2)._global = []
  wiped : ∀ p ∈ w.accounts, ∀ q ∈ (w.regionBundles p.2).stores, Wiped w' q.2

/-- The loop over the region bundles. -/
structure BundlesPending (w₀ : World ν) (rest : Dict Str Nat) (w : World ν) : Prop where
  shrinks : Shrinks w₀ w
  wf : Dict.WF rest
  known : ∀ p ∈ rest, p ∈ w₀.accounts ∧ w.regionBundles p.2 = w₀.regionBundles p.2
  done : ∀ p ∈ w₀.accounts, p ∈ rest ∨ w.dicts (w₀.regionBundles p.2)._global = [] ∧
    ∀ q ∈ (w₀.regionBundles p.2).stores, Wiped w q.2

theorem BundlesPending.step (ho : cfg.store.Ordinary) {w₀ : World ν} {p : Str × Nat}
    {rest : Dict Str Nat} (hi : Inv cfg.store w₀) (h : BundlesPending w₀ (p :: rest) w) :
    ∃ w', (RegionBundle.reset cfg true p.2).run w = .ok () w' ∧ BundlesPending w₀ rest w' := by
  have hbundle : ∀ q ∈ w₀.accounts,
      q.2 < w₀.nextBundle ∧ (w₀.regionBundles q.2).account_id = q.1 :=
    fun q hq => hi.account q.1 q.2 (Dict.get_of_mem hi.accounts_wf hq)
  obtain ⟨hp, hsame⟩ := h.known p List.mem_cons_self
  have hwf := (Dict.wf_cons p rest).mp h.wf
  have hlt : p.2 < w.nextBundle := h.shrinks.nextBundle ▸ (hbundle p hp).1
  obtain ⟨w', hrun, hr⟩ := regionReset_run ho (hi.shrinks h.shrinks) hlt true
  refine ⟨w', hrun, h.shrinks.trans hr.shrinks, hwf.2, ?_, ?_⟩
  · -- two accounts have two bundles, since a bundle knows its account
    intro q hq
    obtain ⟨hq₀, hq₁⟩ := h.known q (List.mem_cons_of_mem _ hq)
    refine ⟨hq₀, (hr.others q.2 ?_).trans hq₁⟩
    intro he
    have hkey : q.1 = p.1 := by
      rw [← (hbundle q hq₀).2, he, (hbundle p hp).2]
    exact hwf.1 (hkey ▸ Dict.mem_keys_of_mem hq)
  · intro q hq
    rcases h.done q hq with hmem | ⟨hg, hw⟩
    · rcases List.mem_cons.mp hmem with rfl | hmem
      · rw [← hsame]
        exact Or.inr ⟨hr.global, hr.wiped⟩
      · exact Or.inl hmem
    · refine Or.inr ⟨?_, fun x hx => (hw x hx).shrinks hr.shrinks⟩
      have hsub := hr.shrinks.dicts (w₀.regionBundles q.2)._global
      rw [hg] at hsub
      exact List.sublist_nil.mp hsub

theorem reset_run (ho : cfg.store.Ordinary) (hi : Inv cfg.store w) :
    ∃ w', (AccountRegionBundle.reset cfg).run w = .ok () w' ∧ Reset w w' := by
  obtain ⟨w₁, hrun, hend⟩ := forM_run (I := BundlesPending w) (fun _ _ _ h => h.step ho hi)
    ⟨Shrinks.refl w, hi.accounts_wf, fun p hp => ⟨hp, rfl⟩, fun p hp => Or.inl hp⟩
  have hclear := shrinks_clear w₁ 0
  have hshrink : Shrinks w { w₁ with dicts := Function.update w₁.dicts 0 [], accounts := [] } :=
    { hend.shrinks.trans hclear with accounts := List.nil_sublist _ }
  have hdone := fun p hp => (hend.done p hp).resolve_left List.not_mem_nil
  refine ⟨_, ?_, hshrink, rfl, by simp, ?_, ?_⟩
  · rw [AccountRegionBundle.reset, bind_ok (EStateM.run_get w), bind_ok hrun,
      bind_ok (clear_eq w₁ 0)]
    rfl
  · intro p hp
    have hsub := hclear.dicts (w.regionBundles p.2)._global
    rw [(hdone p hp).1] at hsub
    exact List.sublist_nil.mp hsub
  · intro p hp q hq
    exact fun n => ((hdone p hp).2 q hq).shrinks hclear n

/-! ## Steps -/

/-- The operation is a reset. -/
def Op.IsReset (op : Op cls) : Prop := op = .reset ∨ ∃ b u, op = .resetRegions b u

/-- Everything that one step can do to the heap. -/
inductive Change (cfg : Config ν) (op : Op cfg.store) (w : World ν) : World ν → Prop
  | same : Change cfg op w w
  | bundle {a : Str} : cfg.validAccount a = true → Dict.get w.accounts a = none →
      Change cfg op w (w.addBundle a)
  | store {b : Nat} {r : Str} : b < w.nextBundle → cfg.validRegion r = true →
      Dict.get (w.regionBundles b).stores r = none → Change cfg op w (w.withStore cfg b r)
  | cell {c : Cell} (k : Nat) (v : Value ν) : c.Free cfg.store →
      Change cfg op w ({ w with calls := k }.setCell c v)
  | reset {w' : World ν} : op.IsReset → Shrinks w w' → Change cfg op w w'

theorem bundle_change (op : Op cfg.store) (w : World ν) (a : Str) :
    Change cfg op w (after (AccountRegionBundle.getitem cfg a) w) := by
  cases hv : cfg.validAccount a with
  | false =>
    rw [after_error (account_getitem_invalid hv)]
    exact .same
  | true =>
    cases hb : Dict.get w.accounts a with
    | some b =>
      rw [after_ok (account_getitem_some hv hb)]
      exact .same
    | none =>
      rw [after_ok (account_getitem_none hv hb)]
      exact .bundle hv hb

theorem store_change (ho : cfg.store.Ordinary) (op : Op cfg.store) (hb : b < w.nextBundle)
    (r : Str) : Change cfg op w (after (RegionBundle.getitem cfg b r) w) := by
  cases hv : cfg.validRegion r with
  | false =>
    rw [after_error (region_getitem_invalid hv)]
    exact .same
  | true =>
    cases hs : Dict.get (w.regionBundles b).stores r with
    | some s =>
      rw [after_ok (region_getitem_some hv hs)]
      exact .same
    | none =>
      rw [after_ok (region_getitem_none ho hv hs)]
      exact .store hb hv hs

theorem read_change (ho : cfg.store.Ordinary) (op : Op cfg.store) (hh : Home cfg.store w s b r)
    (n : cfg.store.Attr) : Change cfg op w (after (readAttr cfg.store s n.1) w) := by
  have hrun := readAttr_eq ho hh n
  cases hc : w.cell (attrCell w s b n) with
  | some v =>
    rw [readCell_some hc] at hrun
    rw [after_ok hrun]
    exact .same
  | none =>
    rw [readCell_none hc] at hrun
    rw [after_ok hrun]
    exact .cell _ _ (attrCell_free ho w s b n)

theorem write_change (ho : cfg.store.Ordinary) (op : Op cfg.store) (hh : Home cfg.store w s b r)
    (n : cfg.store.Attr) (v : Value ν) :
    Change cfg op w (after (writeAttr cfg.store s n.1 v) w) := by
  rw [after_ok (writeAttr_eq ho hh n v)]
  exact .cell w.calls v (attrCell_free ho w s b n)

theorem step_change (ho : cfg.store.Ordinary) (hi : Inv cfg.store w) {op : Op cfg.store}
    (hs : step cfg w op = some w') : Change cfg op w w' := by
  unfold step at hs
  split at hs
  · rename_i hob
    rw [Option.some.injEq] at hs
    subst hs
    cases op with
    | bundle a => exact bundle_change _ w a
    | store b r => exact store_change ho _ hob r
    | read s n =>
      obtain ⟨b, -, r, hh⟩ := hi.home s hob
      exact read_change ho _ hh n
    | write s n v =>
      obtain ⟨b, -, r, hh⟩ := hi.home s hob
      exact write_change ho _ hh n _
    | resetRegions b u =>
      obtain ⟨w', hrun, hr⟩ := regionReset_run ho hi hob u
      rw [Op.run, after_ok hrun]
      exact .reset (Or.inr ⟨b, u, rfl⟩) hr.shrinks
    | reset =>
      obtain ⟨w', hrun, hr⟩ := reset_run ho hi
      rw [Op.run, after_ok hrun]
      exact .reset (Or.inl rfl) hr.shrinks
  · cases hs

theorem Change.inv (ho : cfg.store.Ordinary) {op : Op cfg.store} (h : Change cfg op w w')
    (hi : Inv cfg.store w) : Inv cfg.store w' := by
  cases h with
  | same => exact hi
  | bundle _ _ => exact hi.addBundle _
  | store hb _ _ => exact hi.withStore ho hb _
  | cell k v hc => exact (hi.setCalls k).setCell hc v
  | reset _ hs => exact hi.shrinks hs

theorem Change.nextObject_le {op : Op cfg.store} (h : Change cfg op w w') :
    w.nextObject ≤ w'.nextObject := by
  cases h with
  | same => exact Nat.le_refl _
  | bundle _ _ => exact Nat.le_refl _
  | store _ _ _ => exact Nat.le_succ _
  | @cell c k v _ => cases c <;> exact Nat.le_refl _
  | reset _ hs => exact hs.nextObject.ge

theorem step_keeps (ho : cfg.store.Ordinary) {op : Op cfg.store} (hi : Inv cfg.store w)
    (hs : step cfg w op = some w') : Inv cfg.store w' :=
  (step_change ho hi hs).inv ho hi

/-- `w` can be reached from a new bundle. -/
def Reachable (cfg : Config ν) (w : World ν) : Prop := ∃ es, Run (step cfg) initial es w

/-- **References.** The references of every reachable state are in order. -/
theorem Reachable.inv (ho : cfg.store.Ordinary) (h : Reachable cfg w) : Inv cfg.store w := by
  obtain ⟨es, hrun⟩ := h
  exact hrun.keeps (initial_inv cfg.store) fun _ _ _ hi hs => step_keeps ho hi hs

end LocalStack.Services.Stores
