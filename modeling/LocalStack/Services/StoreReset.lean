import LocalStack.Services.StoreSharing

/-! What stores obtained before `AccountRegionBundle.reset` are worth after it. The
bundle forgets its region bundles and stores, so an old store and a path to the same
account and region only share what all accounts share. -/

namespace LocalStack.Services.Stores
open LocalStack.OrderedDict LocalStack.Text LocalStack.Regex LocalStack.Stateful LocalStack.Runs

variable {ν : Type} {cls : StoreClass ν} {cfg : Config ν} {w w' : World ν}
  {s b : Nat} {a r : Str}

/-! ## The names of a store -/

/-- `s` is a store for account `a` and region `r`. -/
structure StoreFor (w : World ν) (s : Nat) (a r : Str) : Prop where
  account : Dict.get (w.objects s) accountIdAttr = some (.str a)
  region : Dict.get (w.objects s) regionNameAttr = some (.str r)

/-- Every store was obtained through a path that the bundle accepts. -/
structure Named (cfg : Config ν) (w : World ν) : Prop where
  account : ∀ b < w.nextBundle, cfg.validAccount (w.regionBundles b).account_id = true
  store : ∀ s < w.nextObject, ∃ a r, StoreFor w s a r ∧ cfg.validAccount a = true ∧
    cfg.validRegion r = true

theorem StoreFor.of_own (h : StoreFor w s a r)
    (hown : ∀ n ∈ ownAttrs, Dict.get (w'.objects s) n = Dict.get (w.objects s) n) :
    StoreFor w' s a r where
  account := (hown _ (by decide)).trans h.account
  region := (hown _ (by decide)).trans h.region

/-- Names stay as long as the bundles and the stores' own attributes stay. -/
theorem Named.of_own (h : Named cfg w) (hb : w'.nextBundle = w.nextBundle)
    (ho : w'.nextObject = w.nextObject)
    (hacc : ∀ b, (w'.regionBundles b).account_id = (w.regionBundles b).account_id)
    (hown : ∀ s, ∀ n ∈ ownAttrs, Dict.get (w'.objects s) n = Dict.get (w.objects s) n) :
    Named cfg w' where
  account := by
    intro b hlt
    rw [hacc]
    exact h.account b (hb ▸ hlt)
  store := by
    intro s hlt
    obtain ⟨a, r, hs, hv⟩ := h.store s (ho ▸ hlt)
    exact ⟨a, r, hs.of_own (hown s), hv⟩

theorem Named.shrinks (h : Named cfg w) (hs : Shrinks w w') : Named cfg w' :=
  h.of_own hs.nextBundle hs.nextObject hs.account_id hs.own

theorem Named.setCell (h : Named cfg w) (c : Cell) (v : Value ν) : Named cfg (w.setCell c v) := by
  cases c with
  | entry i n => exact h.of_own rfl rfl (fun _ => rfl) fun _ _ _ => rfl
  | attr obj n =>
    refine h.of_own rfl rfl (fun _ => rfl) ?_
    intro s own hown
    by_cases hs : s = obj
    · subst hs
      simp [World.setCell, World.setAttr, Dict.get_set_ne _ v (prefixed_ne n hown)]
    · simp [World.setCell, World.setAttr, Function.update_of_ne hs]

theorem Named.addBundle (h : Named cfg w) (ha : cfg.validAccount a = true) :
    Named cfg (w.addBundle a) where
  account := by
    intro b hb
    rcases Nat.lt_succ_iff_lt_or_eq.mp hb with hlt | rfl
    · simpa [World.addBundle, Function.update_of_ne hlt.ne] using h.account b hlt
    · simpa [World.addBundle] using ha
  store := by
    intro s hs
    obtain ⟨a', r, hfor, hv⟩ := h.store s hs
    exact ⟨a', r, hfor.of_own fun _ _ => rfl, hv⟩

theorem Named.withStore (h : Named cfg w) (hb : b < w.nextBundle)
    (hr : cfg.validRegion r = true) : Named cfg (w.withStore cfg b r) where
  account := by
    intro b' hb'
    rw [withStore_account]
    exact h.account b' hb'
  store := by
    intro s hs
    rcases Nat.lt_succ_iff_lt_or_eq.mp hs with hlt | rfl
    · obtain ⟨a, r', hfor, hv⟩ := h.store s hlt
      refine ⟨a, r', hfor.of_own ?_, hv⟩
      intro n _
      rw [withStore_objects cfg hlt]
    · have hobj : (w.withStore cfg b r).objects w.nextObject =
          newStore cfg (w.regionBundles b) r := Function.update_self _ _ _
      refine ⟨(w.regionBundles b).account_id, r, ⟨?_, ?_⟩, h.account b hb, hr⟩
      · rw [hobj]
        exact newStore_get _ (by simp)
      · rw [hobj]
        exact newStore_get _ (by simp)

theorem Change.named {op : Op cfg.store} (hc : Change cfg op w w') (h : Named cfg w) :
    Named cfg w' := by
  cases hc with
  | same => exact h
  | bundle ha _ => exact h.addBundle ha
  | store hb hr _ => exact h.withStore hb hr
  | cell k v _ =>
    have hcalls : Named cfg { w with calls := k } :=
      h.of_own rfl rfl (fun _ => rfl) fun _ _ _ => rfl
    exact hcalls.setCell _ v
  | reset _ hs => exact h.shrinks hs

theorem Reachable.named (ho : cfg.store.Ordinary) (h : Reachable cfg w) : Named cfg w := by
  obtain ⟨es, hrun⟩ := h
  have hstart : Named cfg (initial : World ν) :=
    ⟨fun b hb => absurd hb (Nat.not_lt_zero b), fun s hs => absurd hs (Nat.not_lt_zero s)⟩
  have hstep : ∀ t op u, Inv cfg.store t ∧ Named cfg t → step cfg t op = some u →
      Inv cfg.store u ∧ Named cfg u := by
    rintro t op u ⟨hi, hn⟩ hs
    have hchange := step_change ho hi hs
    exact ⟨hchange.inv ho hi, hchange.named hn⟩
  exact (hrun.keeps ⟨initial_inv cfg.store, hstart⟩ hstep).2

/-! ## Reads and writes through a path -/

section Paths

variable (ho : cfg.store.Ordinary) (hi : Inv cfg.store w) (ha : cfg.validAccount a = true)
  (hr : cfg.validRegion r = true) (n : cfg.store.Attr)
include ho hi ha hr

theorem readPath_outcome : outcome (readPath cfg a r n.1) w =
    .ok ((w.held ((cfg.store.descriptor n).kind.scope a r n.1)).getD
      ((cfg.store.descriptor n).default.value w.calls)) := by
  obtain ⟨b, s, w₁, hpath, hi₁, hl, hk, -⟩ := path_run ho hi ha hr
  obtain ⟨w₂, hrun, -⟩ := @located_read _ _ _ _ _ ho hi₁ ⟨a, r, n, none⟩ hl
  have hread : (readPath cfg a r n.1).run w = _ := (bind_ok hpath).trans hrun
  rw [outcome_ok hread, hk, Keyed.read_value]
  rfl

theorem writePath_run (v : ν) : ∃ w', (writePath cfg a r n.1 v).run w = .ok () w' ∧
    Inv cfg.store w' ∧ w.nextObject ≤ w'.nextObject ∧
    w'.held ((cfg.store.descriptor n).kind.scope a r n.1) = some (.user v) := by
  obtain ⟨b, s, w₁, hpath, hi₁, hl, hk, hle⟩ := path_run ho hi ha hr
  have hcell := hl.scopeCell (cfg.store.descriptor n).kind n.1
  refine ⟨_, (bind_ok hpath).trans (writeAttr_eq ho (hl.home hi₁) n _),
    hi₁.setCell (attrCell_free ho w₁ s b n) _, ?_, ?_⟩
  · rw [setCell_nextObject]
    exact hle
  · rw [attrCell, held_setCell hi₁ hcell, Function.update_self]

end Paths

/-! ## After a reset -/

/-- The bundle holds nothing. -/
theorem Reset.held (hr : Reset w w') : w'.held = fun _ => none := by
  funext x
  cases x with
  | store a r n => simp [World.held, World.scopeCell, hr.accounts]
  | account a n => simp [World.held, World.scopeCell, hr.accounts]
  | everywhere n => simp [World.held, World.scopeCell, World.cell, hr.universal]

/-- A kept store and the path to its account and region see each other's writes of `n`. -/
def Agrees (cfg : Config ν) (w : World ν) (s : Nat) (n : cfg.store.Attr) : Prop :=
  ∀ a r, StoreFor w s a r → ∀ v,
    outcome (readPath cfg a r n.1) (after (writeAttr cfg.store s n.1 (.user v)) w) =
        .ok (.user v) ∧
      outcome (readAttr cfg.store s n.1) (after (writePath cfg a r n.1 v) w) = .ok (.user v)

/-- **What a reset promises** for attribute `n` and the stores `S` that were obtained
before it. -/
structure ResetContract (cfg : Config ν) (w : World ν) (S : Set Nat) (n : cfg.store.Attr) :
    Prop where
  returns : outcome (AccountRegionBundle.reset cfg) w = .ok ()
  paths : ∀ a r, cfg.validAccount a = true → cfg.validRegion r = true →
    outcome (readPath cfg a r n.1) (after (AccountRegionBundle.reset cfg) w) =
      .ok ((cfg.store.descriptor n).default.value (after (AccountRegionBundle.reset cfg) w).calls)
  kept : ∀ s ∈ S,
    outcome (readAttr cfg.store s n.1) (after (AccountRegionBundle.reset cfg) w) =
      .ok ((cfg.store.descriptor n).default.value (after (AccountRegionBundle.reset cfg) w).calls)
  agrees : ∀ s ∈ S, ∀ es w', Run (step cfg) (after (AccountRegionBundle.reset cfg) w) es w' →
    Guarded (fun _ op => ¬op.IsReset) es → Agrees cfg w' s n

theorem readAttr_outcome (ho : cls.Ordinary) (hh : Home cls w s b r) (n : cls.Attr) :
    outcome (readAttr cls s n.1) w = .ok ((w.cell (attrCell w s b n)).getD
      ((cls.descriptor n).default.value w.calls)) := by
  have hrun := readAttr_eq ho hh n
  cases hc : w.cell (attrCell w s b n) with
  | some v =>
    rw [readCell_some hc] at hrun
    rw [outcome_ok hrun, Option.getD_some]
  | none =>
    rw [readCell_none hc] at hrun
    rw [outcome_ok hrun, Option.getD_none]

/-- **Paths are cleared.** -/
theorem Reset.paths (ho : cfg.store.Ordinary) (hi : Inv cfg.store w') (hr : Reset w w')
    (ha : cfg.validAccount a = true) (hv : cfg.validRegion r = true) (n : cfg.store.Attr) :
    outcome (readPath cfg a r n.1) w' = .ok ((cfg.store.descriptor n).default.value w'.calls) := by
  rw [readPath_outcome ho hi ha hv n, hr.held, Option.getD_none]

/-- **Stores are cleared**, as long as the bundle has not forgotten them before. -/
theorem Reset.kept (ho : cfg.store.Ordinary) (hi : Inv cfg.store w) (hr : Reset w w')
    (hl : Located w a r b s) (n : cfg.store.Attr) :
    outcome (readAttr cfg.store s n.1) w' = .ok ((cfg.store.descriptor n).default.value w'.calls) := by
  have hcell : w'.cell (attrCell w' s b n) = none := by
    unfold attrCell
    cases (cfg.store.descriptor n).kind with
    | localAttribute =>
      exact hr.wiped _ (Dict.mem_of_get hl.account) _ (Dict.mem_of_get hl.store) n.1
    | crossRegionAttribute =>
      simp only [Kind.cell, World.cell, hr.shrinks.global]
      rw [hr.global _ (Dict.mem_of_get hl.account)]
      rfl
    | crossAccountAttribute =>
      simp only [Kind.cell, World.cell, hr.universal]
      rfl
  rw [readAttr_outcome ho ((hl.home hi).shrinks hr.shrinks) n, hcell, Option.getD_none]

/-- A local or cross-region value that a kept store writes after the reset does not
reach the path. -/
theorem Reset.not_agrees [Nontrivial ν] (ho : cfg.store.Ordinary) (hi : Inv cfg.store w')
    (hn : Named cfg w') (hr : Reset w w') (hs : s < w'.nextObject) {n : cfg.store.Attr}
    (hk : (cfg.store.descriptor n).kind ≠ .crossAccountAttribute) : ¬Agrees cfg w' s n := by
  intro h
  obtain ⟨b, -, r', hh⟩ := hi.home s hs
  obtain ⟨a, r, hfor, ha, hv⟩ := hn.store s hs
  have hread : ∀ v : ν, (cfg.store.descriptor n).default.value w'.calls = .user v := by
    intro v
    have hpath := (h a r hfor v).1
    rw [after_ok (writeAttr_eq ho hh n _),
      readPath_outcome ho (hi.setCell (attrCell_free ho w' s b n) _) ha hv n] at hpath
    have hheld : (w'.setCell (attrCell w' s b n) (.user v)).held
        ((cfg.store.descriptor n).kind.scope a r n.1) = none := by
      rw [World.held, scopeCell_setCell]
      cases hkind : (cfg.store.descriptor n).kind with
      | localAttribute => simp [Kind.scope, World.scopeCell, hr.accounts]
      | crossRegionAttribute => simp [Kind.scope, World.scopeCell, hr.accounts]
      | crossAccountAttribute => exact absurd hkind hk
    rw [hheld, Option.getD_none, setCell_calls, Except.ok.injEq] at hpath
    exact hpath
  obtain ⟨u, v, huv⟩ := exists_pair_ne ν
  have he := (hread u).symm.trans (hread v)
  rw [Value.user.injEq] at he
  exact huv he

/-- Cross-account values are shared by all stores, old and new. -/
theorem agrees_of_crossAccount (ho : cfg.store.Ordinary) (hi : Inv cfg.store w)
    (hn : Named cfg w) (hs : s < w.nextObject) {n : cfg.store.Attr}
    (hk : (cfg.store.descriptor n).kind = .crossAccountAttribute) : Agrees cfg w s n := by
  have hcell : ∀ (w : World ν) (b : Nat), attrCell w s b n = .entry 0 n.1 := by
    intro w b
    rw [attrCell, hk]
    rfl
  intro a r hfor v
  obtain ⟨ha, hv⟩ : cfg.validAccount a = true ∧ cfg.validRegion r = true := by
    obtain ⟨a', r', hfor', hv⟩ := hn.store s hs
    have ha := hfor.account.symm.trans hfor'.account
    have hr := hfor.region.symm.trans hfor'.region
    simp only [Option.some.injEq, Value.str.injEq] at ha hr
    rw [ha, hr]
    exact hv
  obtain ⟨b, -, r', hh⟩ := hi.home s hs
  constructor
  · have hi' := hi.setCell (attrCell_free ho w s b n) (.user v)
    rw [after_ok (writeAttr_eq ho hh n _), readPath_outcome ho hi' ha hv n, hk, hcell]
    simp [Kind.scope, World.held, World.scopeCell, cell_setCell]
  · obtain ⟨w', hrun, hi', hle, hheld⟩ := writePath_run ho hi ha hv n v
    obtain ⟨b', -, r'', hh'⟩ := hi'.home s (hs.trans_le hle)
    rw [after_ok hrun, readAttr_outcome ho hh' n, hcell]
    rw [hk] at hheld
    simp only [Kind.scope, World.held, World.scopeCell, Option.bind_some] at hheld
    rw [hheld, Option.getD_some]

/-- **Resets and kept stores.** The reset keeps its promise for an attribute exactly if
no store is kept or the attribute is shared by all accounts. -/
theorem reset_contract_iff [Nontrivial ν] (ho : cfg.store.Ordinary) (hw : Reachable cfg w)
    (S : Set Nat) (hS : ∀ s ∈ S, s < w.nextObject) (n : cfg.store.Attr) :
    ResetContract cfg w S n ↔
      S = ∅ ∨ (cfg.store.descriptor n).kind = .crossAccountAttribute := by
  have hi := hw.inv ho
  obtain ⟨w', hrun, hr⟩ := reset_run ho hi
  have hi' := hi.shrinks hr.shrinks
  have hn' := (hw.named ho).shrinks hr.shrinks
  have hlt : ∀ s ∈ S, s < w'.nextObject := fun s hs => hr.shrinks.nextObject ▸ hS s hs
  constructor
  · intro h
    by_contra hnot
    rw [not_or] at hnot
    obtain ⟨s, hs⟩ := Set.nonempty_iff_ne_empty.mpr hnot.1
    have hagrees := h.agrees s hs [] _ Run.nil (guarded_nil _)
    rw [after_ok hrun] at hagrees
    exact hr.not_agrees ho hi' hn' (hlt s hs) hnot.2 hagrees
  · intro h
    refine ⟨outcome_ok hrun, ?_, ?_, ?_⟩
    · intro a r ha hv
      rw [after_ok hrun]
      exact hr.paths ho hi' ha hv n
    · intro s hs
      rcases h with rfl | hk
      · exact absurd hs (Set.notMem_empty s)
      · obtain ⟨b, -, r, hh⟩ := hi'.home s (hlt s hs)
        rw [after_ok hrun, readAttr_outcome ho hh n, attrCell, hk]
        simp [Kind.cell, World.cell, hr.universal]
    · intro s hs es w'' hruns hes
      rcases h with rfl | hk
      · exact absurd hs (Set.notMem_empty s)
      · rw [after_ok hrun] at hruns
        have hstep : ∀ t op u, (Inv cfg.store t ∧ Named cfg t ∧ s < t.nextObject) →
            step cfg t op = some u → Inv cfg.store u ∧ Named cfg u ∧ s < u.nextObject := by
          rintro t op u ⟨hi, hn, hs⟩ hst
          have hchange := step_change ho hi hst
          exact ⟨hchange.inv ho hi, hchange.named hn, hs.trans_le hchange.nextObject_le⟩
        obtain ⟨hi'', hn'', hs''⟩ := hruns.keeps ⟨hi', hn', hlt s hs⟩ hstep
        exact agrees_of_crossAccount ho hi'' hn'' hs'' hk

/-! ## One store kept over a reset -/

/-- The state after `bundle["000000000000"]["us-east-1"]`. -/
def oneStore : World Nat :=
  after (RegionBundle.getitem (bundleOf sampleStore) 0 "us-east-1".toList)
    (after (AccountRegionBundle.getitem (bundleOf sampleStore) "000000000000".toList) initial)

theorem oneStore_reachable : Reachable (bundleOf sampleStore) oneStore := by
  have hbundle : step (bundleOf sampleStore) initial (.bundle "000000000000".toList) =
      some (after (AccountRegionBundle.getitem (bundleOf sampleStore) "000000000000".toList)
        initial) := if_pos trivial
  have hstore : step (bundleOf sampleStore) (after (AccountRegionBundle.getitem
      (bundleOf sampleStore) "000000000000".toList) initial) (.store 0 "us-east-1".toList) =
      some oneStore := if_pos (by decide +kernel)
  exact ⟨_, (Run.nil.snoc hbundle).snoc hstore⟩

/-- The store has written to an attribute of each kind. -/
def writtenStore : World Nat :=
  after (writeAttr sampleStore 0 "region_specific_attr".toList (.user 9))
    (after (writeAttr sampleStore 0 "CROSS_REGION_ATTR".toList (.user 8))
      (after (writeAttr sampleStore 0 "CROSS_ACCOUNT_ATTR".toList (.user 7)) oneStore))

theorem writtenStore_reachable : Reachable (bundleOf sampleStore) writtenStore := by
  obtain ⟨ops, hrun⟩ := oneStore_reachable
  have hwrite : ∀ (w : World Nat) (n : sampleStore.Attr) (v : Nat), 0 < w.nextObject →
      step (bundleOf sampleStore) w (.write 0 n v) =
        some (after (writeAttr sampleStore 0 n.1 (.user v)) w) := fun w n v h => if_pos h
  have haccounts := hwrite oneStore ⟨"CROSS_ACCOUNT_ATTR".toList, by decide⟩ 7
    (by decide +kernel)
  have hregions := hwrite _ ⟨"CROSS_REGION_ATTR".toList, by decide⟩ 8
    (by decide +kernel : 0 < (after (writeAttr sampleStore 0 "CROSS_ACCOUNT_ATTR".toList
      (.user 7)) oneStore).nextObject)
  have hlocal := hwrite _ ⟨"region_specific_attr".toList, by decide⟩ 9
    (by decide +kernel : 0 < (after (writeAttr sampleStore 0 "CROSS_REGION_ATTR".toList
      (.user 8)) (after (writeAttr sampleStore 0 "CROSS_ACCOUNT_ATTR".toList
        (.user 7)) oneStore)).nextObject)
  exact ⟨_, ((hrun.snoc haccounts).snoc hregions).snoc hlocal⟩

theorem oneStore_crossAccount :
    outcome (readAttr sampleStore 0 "CROSS_ACCOUNT_ATTR".toList) writtenStore = .ok (.user 7) ∧
      ResetContract (bundleOf sampleStore) writtenStore {0}
        ⟨"CROSS_ACCOUNT_ATTR".toList, by decide⟩ := by
  refine ⟨by decide +kernel, ?_⟩
  refine (reset_contract_iff sampleStore_ordinary writtenStore_reachable {0} ?_ _).mpr (Or.inr rfl)
  rintro s rfl
  decide +kernel

/-- What the kept store writes to its local attribute, the path does not read. -/
theorem kept_store_detached : Reachable (bundleOf sampleStore) oneStore ∧
    0 < oneStore.nextObject ∧ ¬ResetContract (bundleOf sampleStore) oneStore {0}
      ⟨"region_specific_attr".toList, by decide⟩ := by
  refine ⟨oneStore_reachable, by decide +kernel, ?_⟩
  intro h
  have hfor : StoreFor (after (AccountRegionBundle.reset (bundleOf sampleStore)) oneStore) 0
      "000000000000".toList "us-east-1".toList :=
    ⟨by decide +kernel, by decide +kernel⟩
  have hread := (h.agrees 0 rfl [] _ Run.nil (guarded_nil _) _ _ hfor 7).1
  exact absurd hread (by decide +kernel)

end LocalStack.Services.Stores
