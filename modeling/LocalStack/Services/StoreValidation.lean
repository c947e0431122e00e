import LocalStack.Services.StoreSharing

/-! Which accounts and regions `AccountRegionBundle[account][region]` accepts, and
under which keys stores are kept. -/

namespace LocalStack.Services.Stores
open LocalStack.OrderedDict LocalStack.Text LocalStack.Regex LocalStack.Stateful LocalStack.Runs
open LocalStack.Aws.Accounts (IsAccountId twelveDigits match_of_isAccountId)

variable {ν α : Type} {cls : StoreClass ν} {cfg : Config ν} {w w' : World ν}
  {b : Nat} {a r : Str}

/-- The account id begins with twelve decimal digits of any script: what
`re.match(r"\d{12}", account_id)` finds. -/
def BeginsWithDigits (account_id : Str) : Prop := (twelveDigits.match_ account_id).isSome = true

instance (account_id : Str) : Decidable (BeginsWithDigits account_id) :=
  inferInstanceAs (Decidable (_ = true))

/-- Account ids and regions are checked. -/
structure Config.Validating (cfg : Config ν) : Prop where
  validate : cfg.validate = true
  standard : cfg.ALLOW_NONSTANDARD_REGIONS = false

theorem validAccount_iff (hc : cfg.Validating) : cfg.validAccount a = true ↔ BeginsWithDigits a := by
  rw [Config.validAccount, hc.validate]
  rfl

theorem validRegion_iff (hc : cfg.Validating) : cfg.validRegion r = true ↔ r ∈ cfg.valid_regions := by
  rw [Config.validRegion, hc.validate, hc.standard]
  simp

/-! ## One access -/

/-- No store is created. -/
structure NoStoreCreated (w w' : World ν) : Prop where
  nextObject : w'.nextObject = w.nextObject
  stores : ∀ b r s, Dict.get (w'.regionBundles b).stores r = some s →
    Dict.get (w.regionBundles b).stores r = some s

/-- The access to `bundle[account_id][region_name]` succeeds exactly for a valid account
and a valid region; else it raises a `ValueError` and creates no store. -/
structure AccessExact (cfg : Config ν) (w : World ν) (account_id region_name : Str) : Prop where
  succeeds : (∃ s, outcome (path cfg account_id region_name) w = .ok s) ↔
    IsAccountId account_id ∧ region_name ∈ cfg.valid_regions
  rejected : ∀ e, outcome (path cfg account_id region_name) w = .error e →
    (∃ text, e = .valueError text) ∧
      NoStoreCreated w (after (path cfg account_id region_name) w)

theorem noStoreCreated_addBundle (w : World ν) (a : Str) : NoStoreCreated w (w.addBundle a) := by
  refine ⟨rfl, fun b r s hs => ?_⟩
  by_cases hb : b = w.nextBundle
  · subst hb
    simp [World.addBundle] at hs
  · simpa [World.addBundle, Function.update_of_ne hb] using hs

/-- The region bundle of an accepted account. -/
theorem exists_account_getitem (ha : cfg.validAccount a = true) (w : World ν) :
    ∃ b w₁, (AccountRegionBundle.getitem cfg a).run w = .ok b w₁ ∧ NoStoreCreated w w₁ := by
  cases hb : Dict.get w.accounts a with
  | some b => exact ⟨b, w, account_getitem_some ha hb, rfl, fun _ _ _ h => h⟩
  | none => exact ⟨_, _, account_getitem_none ha hb, noStoreCreated_addBundle w a⟩

theorem path_of_valid (ho : cfg.store.Reserves) (ha : cfg.validAccount a = true)
    (hr : cfg.validRegion r = true) (w : World ν) : ∃ s, outcome (path cfg a r) w = .ok s := by
  obtain ⟨b, w₁, hrun, -⟩ := exists_account_getitem ha w
  cases hs : Dict.get (w₁.regionBundles b).stores r with
  | some s =>
    have hpath : (path cfg a r).run w = .ok s w₁ := by
      rw [path, bind_ok hrun, region_getitem_some hr hs]
    exact ⟨s, outcome_ok hpath⟩
  | none =>
    have hpath : (path cfg a r).run w = .ok w₁.nextObject (w₁.withStore cfg b r) := by
      rw [path, bind_ok hrun, region_getitem_new ho hr hs]
    exact ⟨w₁.nextObject, outcome_ok hpath⟩

theorem path_of_invalid (h : ¬(cfg.validAccount a = true ∧ cfg.validRegion r = true))
    (w : World ν) : ∃ text w₁, (path cfg a r).run w = .error (.valueError text) w₁ ∧
      NoStoreCreated w w₁ := by
  cases ha : cfg.validAccount a with
  | false => exact ⟨_, w, path_invalid_account ha, rfl, fun _ _ _ h => h⟩
  | true =>
    have hr : cfg.validRegion r = false := by simpa [ha] using h
    obtain ⟨b, w₁, hrun, hn⟩ := exists_account_getitem ha w
    exact ⟨_, w₁, by rw [path, bind_ok hrun, region_getitem_invalid hr]; rfl, hn⟩

/-- An access is treated exactly unless it is one to a valid region of an account id that
only begins like one. -/
theorem accessExact_iff (hc : cfg.Validating) (ho : cfg.store.Reserves) (w : World ν)
    (a r : Str) :
    AccessExact cfg w a r ↔ (r ∈ cfg.valid_regions → BeginsWithDigits a → IsAccountId a) := by
  have hvalid : cfg.validAccount a = true ∧ cfg.validRegion r = true ↔
      BeginsWithDigits a ∧ r ∈ cfg.valid_regions := by
    rw [validAccount_iff hc, validRegion_iff hc]
  by_cases h : cfg.validAccount a = true ∧ cfg.validRegion r = true
  · obtain ⟨s, hs⟩ := path_of_valid ho h.1 h.2 w
    obtain ⟨ha, hr⟩ := hvalid.mp h
    constructor
    · exact fun hexact _ _ => (hexact.succeeds.mp ⟨s, hs⟩).1
    · refine fun hid => ⟨iff_of_true ⟨s, hs⟩ ⟨hid hr ha, hr⟩, fun e he => ?_⟩
      rw [hs] at he
      cases he
  · obtain ⟨text, w₁, hrun, hn⟩ := path_of_invalid h w
    rw [hvalid] at h
    have hnot : ¬∃ s, outcome (path cfg a r) w = .ok s := by
      rintro ⟨s, hs⟩
      rw [outcome_error hrun] at hs
      cases hs
    refine iff_of_true ⟨iff_of_false hnot ?_, fun e he => ?_⟩ fun hr ha => absurd ⟨ha, hr⟩ h
    · exact fun hid => h ⟨match_of_isAccountId hid.1, hid.2⟩
    · rw [outcome_error hrun] at he
      rw [after_error hrun]
      exact ⟨⟨text, (Except.error.inj he).symm⟩, hn⟩

/-! ## The keys -/

/-- Every account under which a region bundle is kept is an account id, and every region
under which a store is kept is one of the service. -/
structure KeysValid (cfg : Config ν) (w : World ν) : Prop where
  account : ∀ a ∈ Dict.keys w.accounts, IsAccountId a
  region : ∀ b, ∀ r ∈ Dict.keys (w.regionBundles b).stores, r ∈ cfg.valid_regions

theorem KeysValid.of_eq (h : KeysValid cfg w) (ha : w'.accounts = w.accounts)
    (hb : w'.regionBundles = w.regionBundles) : KeysValid cfg w' := by
  refine ⟨?_, ?_⟩
  · rw [ha]
    exact h.account
  · rw [hb]
    exact h.region

/-- Dictionaries and store objects hold no keys of this kind. -/
theorem preserves_contents {f : World ν → World ν} (ha : ∀ w, (f w).accounts = w.accounts)
    (hb : ∀ w, (f w).regionBundles = w.regionBundles) :
    Preserves (KeysValid cfg) (modify f : Py ν PUnit) :=
  preserves_modify fun w h => h.of_eq (ha w) (hb w)

section Attributes

variable {read : Py ν (Value ν)} {write : Value ν → Py ν Unit} {d : Default ν} {n text : Str}

theorem preserves_call : Preserves (KeysValid cfg) (call d) := by
  intro w h
  rw [after_ok (call_eq d w)]
  exact h.of_eq rfl rfl

theorem preserves_contains (v : Value ν) (n : Str) : Preserves (KeysValid cfg) (contains v n) := by
  cases v with
  | dict i => exact preserves_get.bind fun w => preserves_pure _
  | _ => exact preserves_throw _

theorem preserves_getItem (v : Value ν) (n : Str) : Preserves (KeysValid cfg) (getItem v n) := by
  cases v with
  | dict i =>
    refine preserves_get.bind fun w => ?_
    split
    · exact preserves_pure _
    · exact preserves_throw _
  | _ => exact preserves_throw _

theorem preserves_setItem (v : Value ν) (n : Str) (x : Value ν) :
    Preserves (KeysValid cfg) (setItem v n x) := by
  cases v with
  | dict i => exact preserves_contents (fun _ => rfl) fun _ => rfl
  | _ => exact preserves_throw _

theorem preserves_hasattr (hread : Preserves (KeysValid cfg) read) :
    Preserves (KeysValid cfg) (hasattr read) := by
  intro w h
  have hafter : after (hasattr read) w = after read w := by
    unfold after hasattr
    simp only [EStateM.run]
    split <;> rename_i hrun
    all_goals split at hrun <;> simp_all
  rw [hafter]
  exact hread w h

theorem preserves_localGet (hread : Preserves (KeysValid cfg) read)
    (hwrite : ∀ v, Preserves (KeysValid cfg) (write v)) :
    Preserves (KeysValid cfg) (LocalAttribute.get read write d) := by
  have hfill : Preserves (KeysValid cfg) (LocalAttribute.fill read write d) := by
    refine (preserves_hasattr hread).bind fun has => ?_
    split
    · exact preserves_pure _
    · exact preserves_call.bind hwrite
  exact hfill.bind fun _ => hread

theorem preserves_checkAssociation (hread : Preserves (KeysValid cfg) read) :
    Preserves (KeysValid cfg) (checkAssociation text read) := by
  refine (preserves_hasattr hread).bind fun has => ?_
  split
  · exact preserves_pure _
  · exact preserves_throw _

theorem preserves_sharedGet (hread : Preserves (KeysValid cfg) read) :
    Preserves (KeysValid cfg) (sharedGet text n read d) := by
  have hfill : Preserves (KeysValid cfg) (sharedFill n read d) := by
    refine hread.bind fun v => (preserves_contains v n).bind fun has => ?_
    split
    · exact preserves_pure _
    · exact preserves_call.bind fun x => hread.bind fun v => preserves_setItem v n x
  exact (preserves_checkAssociation hread).bind fun _ =>
    hfill.bind fun _ => hread.bind fun v => preserves_getItem v n

theorem preserves_sharedSet (hread : Preserves (KeysValid cfg) read) (v : Value ν) :
    Preserves (KeysValid cfg) (sharedSet text n read v) :=
  (preserves_checkAssociation hread).bind fun _ => hread.bind fun x => preserves_setItem x n v

theorem preserves_instanceGet (obj : Nat) : Preserves (KeysValid cfg) (instanceGet cls obj n) := by
  intro w h
  have hafter : after (instanceGet cls obj n) w = w := by
    unfold after instanceGet
    simp only [EStateM.run]
    split <;> rename_i hrun
    all_goals split at hrun <;> simp_all
  rw [hafter]
  exact h

/-- Reading and writing attributes touches no key, whatever the class declares. -/
theorem preserves_attr (fuel : Nat) :
    (∀ obj n, Preserves (KeysValid cfg) (getattr cls fuel obj n)) ∧
      ∀ obj n v, Preserves (KeysValid cfg) (setattr cls fuel obj n v) := by
  induction fuel with
  | zero => exact ⟨fun _ _ => preserves_throw _, fun _ _ _ => preserves_throw _⟩
  | succ fuel ih =>
    obtain ⟨hget, hset⟩ := ih
    constructor
    · intro obj n
      rw [getattr]
      split
      · exact preserves_localGet (hget _ _) (hset _ _)
      · exact preserves_sharedGet (hget _ _)
      · exact preserves_sharedGet (hget _ _)
      · exact preserves_instanceGet obj
    · intro obj n v
      rw [setattr]
      split
      · exact hset _ _ _
      · exact preserves_sharedSet (hget _ _) v
      · exact preserves_sharedSet (hget _ _) v
      · exact preserves_contents (fun _ => rfl) fun _ => rfl

theorem preserves_readAttr (obj : Nat) (n : Str) : Preserves (KeysValid cfg) (readAttr cls obj n) :=
  (preserves_attr cls.depth).1 obj n

theorem preserves_writeAttr (obj : Nat) (n : Str) (v : Value ν) :
    Preserves (KeysValid cfg) (writeAttr cls obj n v) :=
  (preserves_attr cls.depth).2 obj n v

end Attributes

theorem preserves_lookup (d : Dict Str Nat) (k : Str) : Preserves (KeysValid cfg) (lookup d k : Py ν Nat) := by
  unfold lookup
  split
  · exact preserves_pure _
  · exact preserves_throw _

theorem preserves_clear (v : Value ν) : Preserves (KeysValid cfg) (clear v) := by
  cases v with
  | dict i => exact preserves_contents (fun _ => rfl) fun _ => rfl
  | _ => exact preserves_throw _

theorem KeysValid.addBundle (h : KeysValid cfg w) (ha : IsAccountId a) :
    KeysValid cfg (w.addBundle a) := by
  constructor
  · intro a' ha'
    rcases (Dict.mem_keys_set _ _ _ _).mp ha' with rfl | ha'
    · exact ha
    · exact h.account a' ha'
  · intro b r hr
    by_cases hb : b = w.nextBundle
    · subst hb
      simp [World.addBundle] at hr
    · exact h.region b r (by simpa [World.addBundle, Function.update_of_ne hb] using hr)

/-- Only this step adds a region. -/
theorem KeysValid.setStores (h : KeysValid cfg w) (hr : r ∈ cfg.valid_regions) (s : Nat) :
    KeysValid cfg { w with
      regionBundles := Function.update w.regionBundles b
        { w.regionBundles b with stores := Dict.set (w.regionBundles b).stores r s } } := by
  refine ⟨h.account, fun b' r' hr' => ?_⟩
  by_cases hb : b' = b
  · subst hb
    simp only [Function.update_self, Dict.mem_keys_set] at hr'
    rcases hr' with rfl | hr'
    · exact hr
    · exact h.region b' r' hr'
  · exact h.region b' r' (by simpa [Function.update_of_ne hb] using hr')

theorem preserves_addStore (hr : r ∈ cfg.valid_regions) :
    Preserves (KeysValid cfg) (RegionBundle.addStore cfg b r) := by
  refine preserves_get.bind fun w => preserves_get.bind fun w' => ?_
  refine Preserves.bind (preserves_contents (fun _ => rfl) fun _ => rfl) fun _ => ?_
  refine (preserves_writeAttr _ _ _).bind fun _ => (preserves_writeAttr _ _ _).bind fun _ => ?_
  refine (preserves_writeAttr _ _ _).bind fun _ => (preserves_writeAttr _ _ _).bind fun _ => ?_
  refine (preserves_writeAttr _ _ _).bind fun _ => preserves_modify fun w h => ?_
  exact h.setStores hr _

theorem preserves_region_getitem (hc : cfg.Validating) (b : Nat) (r : Str) :
    Preserves (KeysValid cfg) (RegionBundle.getitem cfg b r) := by
  cases hv : cfg.validRegion r with
  | false =>
    intro w h
    rw [after_error (region_getitem_invalid hv)]
    exact h
  | true =>
    have hensure : Preserves (KeysValid cfg) (RegionBundle.ensure cfg b r) := by
      refine preserves_get.bind fun w => ?_
      split
      · exact preserves_addStore ((validRegion_iff hc).mp hv)
      · exact preserves_pure _
    rw [region_getitem_eq hv]
    exact hensure.bind fun _ => preserves_get.bind fun w => preserves_lookup _ r

theorem preserves_account_getitem (hc : cfg.Validating) (ha : BeginsWithDigits a → IsAccountId a) :
    Preserves (KeysValid cfg) (AccountRegionBundle.getitem cfg a) := by
  cases hv : cfg.validAccount a with
  | false =>
    intro w h
    rw [after_error (account_getitem_invalid hv)]
    exact h
  | true =>
    have hid := ha ((validAccount_iff hc).mp hv)
    have hensure : Preserves (KeysValid cfg) (AccountRegionBundle.ensure a : Py ν Unit) := by
      refine preserves_get.bind fun w => ?_
      split
      · exact preserves_modify fun w h => h.addBundle hid
      · exact preserves_pure _
    rw [account_getitem_eq hv]
    exact hensure.bind fun _ => preserves_get.bind fun w => preserves_lookup _ a

theorem preserves_delattr (obj : Nat) (n : Str) : Preserves (KeysValid cfg) (delattr cls obj n) := by
  unfold delattr
  split
  · exact preserves_throw _
  · refine preserves_get.bind fun w => ?_
    split
    · exact preserves_contents (fun _ => rfl) fun _ => rfl
    · exact preserves_throw _

theorem preserves_resetStore (_reset_universal : Bool) (store_inst : Nat) :
    Preserves (KeysValid cfg) (resetStore cls _reset_universal store_inst) := by
  refine preserves_get.bind fun w => preserves_forM fun attr _ => ?_
  have hglobal : Preserves (KeysValid cfg) (resetGlobal cls store_inst attr) := by
    unfold resetGlobal
    split
    · exact (preserves_readAttr _ _).bind fun v => preserves_clear v
    · exact preserves_pure _
  refine hglobal.bind fun _ => ?_
  unfold resetOther
  split
  · exact (preserves_readAttr _ _).bind fun v => preserves_clear v
  · split
    · exact preserves_delattr _ _
    · exact preserves_pure _

theorem KeysValid.dropStores (h : KeysValid cfg w) : KeysValid cfg { w with
    regionBundles := Function.update w.regionBundles b { w.regionBundles b with stores := [] } } := by
  refine ⟨h.account, fun b' r hr => ?_⟩
  by_cases hb : b' = b
  · subst hb
    simp at hr
  · exact h.region b' r (by simpa [Function.update_of_ne hb] using hr)

theorem preserves_region_reset (_reset_universal : Bool) (b : Nat) :
    Preserves (KeysValid cfg) (RegionBundle.reset cfg _reset_universal b) := by
  refine preserves_get.bind fun w => ?_
  refine (preserves_forM fun p _ => preserves_resetStore _ _).bind fun _ => ?_
  refine preserves_get.bind fun w' => (preserves_clear _).bind fun _ => ?_
  exact preserves_modify fun w h => h.dropStores

theorem preserves_reset : Preserves (KeysValid cfg) (AccountRegionBundle.reset cfg) := by
  refine preserves_get.bind fun w => ?_
  refine (preserves_forM fun p _ => preserves_region_reset _ _).bind fun _ => ?_
  refine (preserves_clear _).bind fun _ => preserves_modify fun w h => ⟨by simp, h.region⟩

/-! ## Runs -/

/-- An account id that is looked up and begins with twelve digits consists of them. -/
def AccountsExact {cls : StoreClass ν} (_ : World ν) (op : Op cls) : Prop :=
  ∀ a, op = .bundle a → BeginsWithDigits a → IsAccountId a

theorem step_keysValid (hc : cfg.Validating) {op : Op cfg.store} (h : KeysValid cfg w)
    (hok : AccountsExact w op) (hs : step cfg w op = some w') : KeysValid cfg w' := by
  unfold step at hs
  split at hs
  · obtain rfl := Option.some.inj hs
    cases op with
    | bundle a => exact preserves_account_getitem hc (hok a rfl) w h
    | store b r => exact preserves_region_getitem hc b r w h
    | read obj n => exact preserves_readAttr obj n.1 w h
    | write obj n v => exact preserves_writeAttr obj n.1 _ w h
    | resetRegions b u => exact preserves_region_reset u b w h
    | reset => exact preserves_reset w h
  · cases hs

theorem initial_keysValid : KeysValid cfg initial := ⟨by simp [initial], by simp [initial]⟩

/-- **Store access is validated exactly**, for every access and every run in which no
account id only begins with twelve digits. -/
theorem store_access_exact (hc : cfg.Validating) (ho : cfg.store.Reserves) :
    (∀ (w : World ν) (a r : Str), AccessExact cfg w a r ↔
      (r ∈ cfg.valid_regions → BeginsWithDigits a → IsAccountId a)) ∧
    ∀ (es : List (Event (World ν) (Op cfg.store))) (w : World ν),
      Run (step cfg) initial es w → Guarded AccountsExact es →
      Always (KeysValid cfg) initial es := by
  refine ⟨accessExact_iff hc ho, fun es w hr hok => hr.always initial_keysValid ?_ hok⟩
  exact fun w op w' h hop hs => step_keysValid hc h hop hs

theorem sample_validating : (bundleOf sampleStore).Validating := ⟨rfl, rfl⟩

/-- One store, for a valid account and region. -/
theorem sample_access_exact :
    AccessExact (bundleOf sampleStore) initial "123456789012".toList "us-east-1".toList ∧
      ∃ es w, Run (step (bundleOf sampleStore)) initial es w ∧
        Always (KeysValid (bundleOf sampleStore)) initial es ∧
        Dict.keys w.accounts = ["123456789012".toList] := by
  have hexact := store_access_exact sample_validating sampleStore_ordinary.own
  refine ⟨(hexact.1 _ _ _).mpr fun _ _ => by decide, ?_⟩
  obtain ⟨es, w, hr, -, hl, hw⟩ := @exists_guarded_run _ _ (step (bundleOf sampleStore)) initial _
    (fun _ _ => True) _ (fun w => Dict.keys w.accounts)
    [.bundle "123456789012".toList, .store 0 "us-east-1".toList] ["123456789012".toList]
    (by decide +kernel)
  refine ⟨es, w, hr, hexact.2 es w hr fun e he a ha _ => ?_, hw⟩
  have hmem := List.mem_map_of_mem (f := Event.label) he
  rw [hl, ha] at hmem
  simp only [List.mem_cons, Op.bundle.injEq, reduceCtorEq, List.not_mem_nil, or_false] at hmem
  rw [hmem]
  decide

/-- Thirteen digits begin with twelve: they are accepted and become a key. -/
theorem thirteen_digits_accepted :
    ¬AccessExact (bundleOf sampleStore) initial "1234567890123".toList "us-east-1".toList ∧
      ∃ es w, Run (step (bundleOf sampleStore)) initial es w ∧
        Dict.keys w.accounts = ["1234567890123".toList] ∧ ¬KeysValid (bundleOf sampleStore) w := by
  constructor
  · intro h
    have hown : (bundleOf sampleStore).store.Reserves := sampleStore_ordinary.own
    have hok := path_of_valid hown
      ((validAccount_iff (a := "1234567890123".toList) sample_validating).mpr (by decide))
      ((validRegion_iff (r := "us-east-1".toList) sample_validating).mpr (by decide)) initial
    exact absurd (h.succeeds.mp hok).1 (by decide)
  · obtain ⟨es, w, hr, hw⟩ := @exists_run_of_replay _ _ (step (bundleOf sampleStore)) initial _
      (fun w => Dict.keys w.accounts) [.bundle "1234567890123".toList]
      ["1234567890123".toList] (by decide +kernel)
    refine ⟨es, w, hr, hw, fun h => ?_⟩
    exact absurd (h.account "1234567890123".toList (by simp [hw])) (by decide)

end LocalStack.Services.Stores
