import LocalStack.Lib.Runs
import LocalStack.Services.Stores

/-! What the references between stores, region bundles and shared dictionaries look
like in every reachable state, for a store class with ordinary attribute names. -/

namespace LocalStack.Services.Stores
open LocalStack.OrderedDict LocalStack.Text LocalStack.Regex LocalStack.Stateful LocalStack.Runs
open LocalStack.Aws.Accounts (twelveDigits)

variable {ν α : Type} {cls : StoreClass ν} {cfg : Config ν} {w w' : World ν}
  {s b : Nat} {a r n : Str} {v : Value ν}

/-- Store object `s` was created by region bundle `b` for region `r`. -/
structure Home (cls : StoreClass ν) (w : World ν) (s b : Nat) (r : Str) : Prop where
  global : Dict.get (w.objects s) globalAttr = some (.dict (w.regionBundles b)._global)
  universal : Dict.get (w.objects s) universalAttr = some (.dict 0)
  account : Dict.get (w.objects s) accountIdAttr = some (.str (w.regionBundles b).account_id)
  region : Dict.get (w.objects s) regionNameAttr = some (.str r)
  names : ∀ n ∈ Dict.keys (w.objects s), n ∉ Dict.keys cls.attributes
  wf : Dict.WF (w.objects s)

/-- The references of a reachable state. No two region bundles share a dictionary, and
what a bundle returns for a region is a store that it has created for that region. -/
structure Inv (cls : StoreClass ν) (w : World ν) : Prop where
  nextDict : 0 < w.nextDict
  accounts_wf : Dict.WF w.accounts
  account : ∀ a b, Dict.get w.accounts a = some b →
    b < w.nextBundle ∧ (w.regionBundles b).account_id = a
  universal : ∀ b < w.nextBundle, (w.regionBundles b)._universal = 0
  global_pos : ∀ b < w.nextBundle, 0 < (w.regionBundles b)._global
  global_lt : ∀ b < w.nextBundle, (w.regionBundles b)._global < w.nextDict
  global_injective : ∀ b < w.nextBundle, ∀ b' < w.nextBundle,
    (w.regionBundles b)._global = (w.regionBundles b')._global → b = b'
  stores_wf : ∀ b < w.nextBundle, Dict.WF (w.regionBundles b).stores
  store : ∀ b < w.nextBundle, ∀ r s, Dict.get (w.regionBundles b).stores r = some s →
    s < w.nextObject ∧ Home cls w s b r
  home : ∀ s < w.nextObject, ∃ b < w.nextBundle, ∃ r, Home cls w s b r

theorem initial_inv (cls : StoreClass ν) : Inv cls (initial : World ν) where
  nextDict := Nat.one_pos
  accounts_wf := Dict.wf_nil
  account := fun _ _ h => by simp [initial] at h
  universal := fun b hb => absurd hb (Nat.not_lt_zero b)
  global_pos := fun b hb => absurd hb (Nat.not_lt_zero b)
  global_lt := fun b hb => absurd hb (Nat.not_lt_zero b)
  global_injective := fun b hb => absurd hb (Nat.not_lt_zero b)
  stores_wf := fun b hb => absurd hb (Nat.not_lt_zero b)
  store := fun b hb => absurd hb (Nat.not_lt_zero b)
  home := fun s hs => absurd hs (Nat.not_lt_zero s)

/-- A store has one home. -/
theorem Home.unique (hi : Inv cls w) {b' : Nat} {r' : Str} (h : Home cls w s b r)
    (h' : Home cls w s b' r') (hb : b < w.nextBundle) (hb' : b' < w.nextBundle) :
    b = b' ∧ r = r' := by
  have hg := h.global.symm.trans h'.global
  have hr := h.region.symm.trans h'.region
  simp only [Option.some.injEq, Value.dict.injEq, Value.str.injEq] at hg hr
  exact ⟨hi.global_injective b hb b' hb' hg, hr⟩

/-! ## Names -/

theorem prefixed_notin_ownAttrs (n : Str) : LOCAL_ATTR_PREFIX ++ n ∉ ownAttrs := by
  intro h
  have hown : ∀ own ∈ ownAttrs, own.head? = some '_' := by decide
  exact absurd (hown _ h) (by simp [LOCAL_ATTR_PREFIX])

theorem prefixed_ne (n : Str) {own : Str} (h : own ∈ ownAttrs) : LOCAL_ATTR_PREFIX ++ n ≠ own :=
  fun he => prefixed_notin_ownAttrs n (he ▸ h)

/-! ## Attributes of a store -/

/-- Where attribute `n` of a store of region bundle `b` is kept. -/
def attrCell (w : World ν) (s b : Nat) (n : cls.Attr) : Cell :=
  (cls.descriptor n).kind.cell s (w.regionBundles b)._global n.1

theorem exists_depth (n : cls.Attr) : ∃ k, cls.depth = k + 2 := by
  have hpos : 0 < cls.attributes.length := by
    cases h : cls.attributes with
    | nil =>
      have := n.2
      simp [h] at this
    | cons p d => simp
  exact ⟨cls.attributes.length - 1, by unfold StoreClass.depth; omega⟩

theorem prefixed_undeclared (ho : cls.Ordinary) (n : cls.Attr)
    (h : (cls.descriptor n).kind = .localAttribute) :
    LOCAL_ATTR_PREFIX ++ n.1 ∉ Dict.keys cls.attributes :=
  ho.prefixed (n.1, cls.descriptor n) (Dict.mem_of_get (get_attributes n)) h

/-- **Attributes are cells.** Reading an attribute of a store reads its cell. -/
theorem readAttr_eq (ho : cls.Ordinary) (hh : Home cls w s b r) (n : cls.Attr) :
    (readAttr cls s n.1).run w =
      (readCell (attrCell w s b n) (cls.descriptor n).default).run w := by
  obtain ⟨k, hk⟩ := exists_depth n
  rw [readAttr, hk, attrCell]
  cases hkind : (cls.descriptor n).kind with
  | localAttribute =>
    have hplain := prefixed_undeclared ho n hkind
    rw [getattr_local (get_attributes n) hkind, getattr_plain hplain]
    exact localGet_eq fun v w' => setattr_plain hplain
  | crossRegionAttribute =>
    rw [getattr_crossRegion (get_attributes n) hkind, getattr_plain (ho.own _ (by decide))]
    apply sharedGet_eq
    intro w' hw'
    exact instanceGet_some cls (hw' ▸ hh.global)
  | crossAccountAttribute =>
    rw [getattr_crossAccount (get_attributes n) hkind, getattr_plain (ho.own _ (by decide))]
    apply sharedGet_eq
    intro w' hw'
    exact instanceGet_some cls (hw' ▸ hh.universal)

/-- Writing an attribute of a store sets its cell. -/
theorem writeAttr_eq (ho : cls.Ordinary) (hh : Home cls w s b r) (n : cls.Attr) (v : Value ν) :
    (writeAttr cls s n.1 v).run w = .ok () (w.setCell (attrCell w s b n) v) := by
  obtain ⟨k, hk⟩ := exists_depth n
  rw [writeAttr, hk, attrCell]
  cases hkind : (cls.descriptor n).kind with
  | localAttribute =>
    rw [setattr_local (get_attributes n) hkind, setattr_plain (prefixed_undeclared ho n hkind)]
    rfl
  | crossRegionAttribute =>
    rw [setattr_crossRegion (get_attributes n) hkind, getattr_plain (ho.own _ (by decide))]
    exact sharedSet_eq (instanceGet_some cls hh.global)
  | crossAccountAttribute =>
    rw [setattr_crossAccount (get_attributes n) hkind, getattr_plain (ho.own _ (by decide))]
    exact sharedSet_eq (instanceGet_some cls hh.universal)

/-! ## Writing cells keeps the references -/

/-- A local cell of an attribute that is kept apart from the class's names. -/
def Cell.Free (cls : StoreClass ν) : Cell → Prop
  | .attr _ n => LOCAL_ATTR_PREFIX ++ n ∉ Dict.keys cls.attributes
  | .entry _ _ => True

theorem attrCell_free (ho : cls.Ordinary) (w : World ν) (s b : Nat) (n : cls.Attr) :
    (attrCell w s b n).Free cls := by
  unfold attrCell
  cases hkind : (cls.descriptor n).kind with
  | localAttribute => exact prefixed_undeclared ho n hkind
  | crossRegionAttribute => trivial
  | crossAccountAttribute => trivial

/-- A store keeps its home as long as the references of its bundle and its own
attributes stay. -/
theorem Home.of_eq (h : Home cls w s b r)
    (hb : (w'.regionBundles b)._global = (w.regionBundles b)._global)
    (ha : (w'.regionBundles b).account_id = (w.regionBundles b).account_id)
    (hown : ∀ n ∈ ownAttrs, Dict.get (w'.objects s) n = Dict.get (w.objects s) n)
    (hnames : ∀ n ∈ Dict.keys (w'.objects s), n ∉ Dict.keys cls.attributes)
    (hwf : Dict.WF (w'.objects s)) : Home cls w' s b r where
  global := by rw [hown _ (by decide), hb]; exact h.global
  universal := by rw [hown _ (by decide)]; exact h.universal
  account := by rw [hown _ (by decide), ha]; exact h.account
  region := by rw [hown _ (by decide)]; exact h.region
  names := hnames
  wf := hwf

theorem Home.setCell {c : Cell} (hc : c.Free cls) (h : Home cls w s b r) (v : Value ν) :
    Home cls (w.setCell c v) s b r := by
  cases c with
  | entry i n => exact h.of_eq rfl rfl (fun _ _ => rfl) h.names h.wf
  | attr obj n =>
    by_cases hs : s = obj
    · subst hs
      refine h.of_eq rfl rfl ?_ ?_ ?_
      · intro own hown
        simp [World.setCell, World.setAttr, Dict.get_set_ne _ v (prefixed_ne n hown)]
      · intro m hm
        simp only [World.setCell, World.setAttr, Function.update_self, Dict.mem_keys_set] at hm
        rcases hm with rfl | hm
        · exact hc
        · exact h.names m hm
      · simpa [World.setCell, World.setAttr] using Dict.wf_set h.wf _ v
    · have heq : (w.setCell (.attr obj n) v).objects s = w.objects s := by
        simp [World.setCell, World.setAttr, Function.update_of_ne hs]
      refine h.of_eq rfl rfl ?_ ?_ ?_
      · intro own _
        rw [heq]
      · rw [heq]
        exact h.names
      · rw [heq]
        exact h.wf

/-- References only depend on the objects and the bundles. -/
theorem Inv.of_homes (hi : Inv cls w) (hdict : w'.nextDict = w.nextDict)
    (hobj : w'.nextObject = w.nextObject) (hb : w'.regionBundles = w.regionBundles)
    (hnb : w'.nextBundle = w.nextBundle) (hacc : w'.accounts = w.accounts)
    (hhome : ∀ s b r, Home cls w s b r → Home cls w' s b r) : Inv cls w' where
  nextDict := hdict ▸ hi.nextDict
  accounts_wf := hacc ▸ hi.accounts_wf
  account := by rw [hacc, hnb, hb]; exact hi.account
  universal := by rw [hnb, hb]; exact hi.universal
  global_pos := by rw [hnb, hb]; exact hi.global_pos
  global_lt := by rw [hnb, hb, hdict]; exact hi.global_lt
  global_injective := by rw [hnb, hb]; exact hi.global_injective
  stores_wf := by rw [hnb, hb]; exact hi.stores_wf
  store := by
    rw [hnb, hb, hobj]
    intro b hb r s hs
    obtain ⟨hlt, hh⟩ := hi.store b hb r s hs
    exact ⟨hlt, hhome s b r hh⟩
  home := by
    rw [hnb, hobj]
    intro s hs
    obtain ⟨b, hb, r, hh⟩ := hi.home s hs
    exact ⟨b, hb, r, hhome s b r hh⟩

theorem Inv.setCell {c : Cell} (hc : c.Free cls) (hi : Inv cls w) (v : Value ν) :
    Inv cls (w.setCell c v) := by
  cases c with
  | attr obj n => exact hi.of_homes rfl rfl rfl rfl rfl fun _ _ _ h => h.setCell hc v
  | entry i n => exact hi.of_homes rfl rfl rfl rfl rfl fun _ _ _ h => h.setCell hc v

theorem Inv.setCalls (hi : Inv cls w) (k : Nat) : Inv cls { w with calls := k } :=
  hi.of_homes rfl rfl rfl rfl rfl fun _ _ _ h => h.of_eq rfl rfl (fun _ _ => rfl) h.names h.wf

/-! ## New region bundles and stores -/

def Config.validRegion (cfg : Config ν) (r : Str) : Bool :=
  cfg.ALLOW_NONSTANDARD_REGIONS || !cfg.validate || cfg.valid_regions.contains r

def Config.validAccount (cfg : Config ν) (a : Str) : Bool :=
  !cfg.validate || (twelveDigits.match_ a).isSome

/-- The `__dict__` of a new store. -/
def newStore (cfg : Config ν) (self : RegionBundle) (r : Str) : Dict Str (Value ν) :=
  Dict.ofPairs [(globalAttr, .dict self._global), (universalAttr, .dict self._universal),
    (serviceNameAttr, .str cfg.service_name), (accountIdAttr, .str self.account_id),
    (regionNameAttr, .str r)]

def World.withStore (w : World ν) (cfg : Config ν) (b : Nat) (r : Str) : World ν :=
  { w with
    objects := Function.update w.objects w.nextObject (newStore cfg (w.regionBundles b) r)
    nextObject := w.nextObject + 1
    regionBundles := Function.update w.regionBundles b
      { w.regionBundles b with
        stores := Dict.set (w.regionBundles b).stores r w.nextObject } }

/-- No descriptor takes a name that the bundles set themselves. -/
def StoreClass.Reserves (cls : StoreClass ν) : Prop := ∀ n ∈ ownAttrs, n ∉ Dict.keys cls.attributes

theorem writeAttr_own (ho : cls.Reserves) (hn : n ∈ ownAttrs) :
    (writeAttr cls s n v).run w = .ok () (w.setAttr s n v) :=
  setattr_plain (ho n hn)

theorem addStore_eq (ho : cfg.store.Reserves) :
    (RegionBundle.addStore cfg b r).run w = .ok () (w.withStore cfg b r) := by
  have hown : ∀ n ∈ ownAttrs, ∀ v (w : World ν) s,
      (writeAttr cfg.store s n v).run w = .ok () (w.setAttr s n v) :=
    fun n hn v w s => writeAttr_own ho hn
  simp only [RegionBundle.addStore, EStateM.run_bind, EStateM.run_get, EStateM.run_modify,
    hown globalAttr (by decide), hown universalAttr (by decide), hown serviceNameAttr (by decide),
    hown accountIdAttr (by decide), hown regionNameAttr (by decide)]
  simp [World.withStore, World.setAttr, newStore, Dict.ofPairs]

theorem lookup_some {d : Dict Str Nat} {i : Nat} (h : Dict.get d n = some i) :
    (lookup d n).run w = .ok i w := by
  simp [lookup, h]

theorem region_getitem_invalid (hv : cfg.validRegion r = false) :
    (RegionBundle.getitem cfg b r).run w = .error (invalidRegion cfg r) w := by
  rw [RegionBundle.getitem, if_pos]
  · rfl
  · simp only [Config.validRegion, Bool.or_eq_false_iff, Bool.not_eq_false'] at hv
    rw [hv.1.1, hv.1.2, hv.2]
    rfl

theorem region_getitem_eq (hv : cfg.validRegion r = true) : RegionBundle.getitem cfg b r =
    (do RegionBundle.ensure cfg b r
        lookup ((← get).regionBundles b).stores r) := by
  rw [RegionBundle.getitem, if_neg]
  intro h
  simp only [Bool.and_eq_true, Bool.not_eq_true'] at h
  simp only [Config.validRegion, h.1.1, h.1.2, h.2] at hv
  cases hv

theorem region_getitem_some (hv : cfg.validRegion r = true)
    (hs : Dict.get (w.regionBundles b).stores r = some s) :
    (RegionBundle.getitem cfg b r).run w = .ok s w := by
  have hensure : (RegionBundle.ensure cfg b r).run w = .ok () w := by
    simp [RegionBundle.ensure, hs]
  rw [region_getitem_eq hv, bind_ok hensure, bind_ok (EStateM.run_get w), lookup_some hs]

theorem region_getitem_new (ho : cfg.store.Reserves) (hv : cfg.validRegion r = true)
    (hs : Dict.get (w.regionBundles b).stores r = none) :
    (RegionBundle.getitem cfg b r).run w = .ok w.nextObject (w.withStore cfg b r) := by
  have hensure : (RegionBundle.ensure cfg b r).run w = .ok () (w.withStore cfg b r) := by
    simp [RegionBundle.ensure, hs, addStore_eq ho]
  rw [region_getitem_eq hv, bind_ok hensure, bind_ok (EStateM.run_get _), lookup_some]
  simp [World.withStore]

theorem region_getitem_none (ho : cfg.store.Ordinary) (hv : cfg.validRegion r = true)
    (hs : Dict.get (w.regionBundles b).stores r = none) :
    (RegionBundle.getitem cfg b r).run w = .ok w.nextObject (w.withStore cfg b r) :=
  region_getitem_new ho.own hv hs

theorem account_getitem_invalid (hv : cfg.validAccount a = false) :
    (AccountRegionBundle.getitem cfg a).run w = .error (invalidAccount a) w := by
  rw [AccountRegionBundle.getitem, if_pos]
  · rfl
  · simp only [Config.validAccount, Bool.or_eq_false_iff, Bool.not_eq_false'] at hv
    rw [hv.1, hv.2]
    rfl

theorem account_getitem_eq (hv : cfg.validAccount a = true) :
    AccountRegionBundle.getitem cfg a =
      (do AccountRegionBundle.ensure a
          lookup (← get).accounts a) := by
  rw [AccountRegionBundle.getitem, if_neg]
  intro h
  simp only [Bool.and_eq_true, Bool.not_eq_true'] at h
  simp only [Config.validAccount, h.1, h.2] at hv
  cases hv

theorem account_getitem_some (hv : cfg.validAccount a = true)
    (hb : Dict.get w.accounts a = some b) :
    (AccountRegionBundle.getitem cfg a).run w = .ok b w := by
  have hensure : (AccountRegionBundle.ensure a).run w = .ok () w := by
    simp [AccountRegionBundle.ensure, hb]
  rw [account_getitem_eq hv, bind_ok hensure, bind_ok (EStateM.run_get w), lookup_some hb]

theorem account_getitem_none (hv : cfg.validAccount a = true)
    (hb : Dict.get w.accounts a = none) :
    (AccountRegionBundle.getitem cfg a).run w = .ok w.nextBundle (w.addBundle a) := by
  have hensure : (AccountRegionBundle.ensure a).run w = .ok () (w.addBundle a) := by
    simp [AccountRegionBundle.ensure, hb]
  rw [account_getitem_eq hv, bind_ok hensure, bind_ok (EStateM.run_get _), lookup_some]
  simp [World.addBundle]

theorem Home.addBundle (h : Home cls w s b r) (hb : b < w.nextBundle) (a : Str) :
    Home cls (w.addBundle a) s b r := by
  have hne : b ≠ w.nextBundle := hb.ne
  refine h.of_eq ?_ ?_ (fun _ _ => rfl) h.names h.wf
  · simp [World.addBundle, Function.update_of_ne hne]
  · simp [World.addBundle, Function.update_of_ne hne]

/-- What holds of the region bundles and of the new one holds of all. -/
theorem forall_addBundle {P : Nat → RegionBundle → Prop}
    (hold : ∀ b < w.nextBundle, P b (w.regionBundles b))
    (hnew : P w.nextBundle ⟨a, [], w.nextDict, 0⟩) :
    ∀ b < (w.addBundle a).nextBundle, P b ((w.addBundle a).regionBundles b) := by
  intro b hb
  rcases Nat.lt_succ_iff_lt_or_eq.mp hb with hlt | rfl
  · have hsame : (w.addBundle a).regionBundles b = w.regionBundles b :=
      Function.update_of_ne hlt.ne _ _
    rw [hsame]
    exact hold b hlt
  · have hsame : (w.addBundle a).regionBundles w.nextBundle = ⟨a, [], w.nextDict, 0⟩ :=
      Function.update_self _ _ _
    rw [hsame]
    exact hnew

theorem Inv.addBundle (hi : Inv cls w) (a : Str) : Inv cls (w.addBundle a) := by
  have hold : ∀ b < w.nextBundle, (w.addBundle a).regionBundles b = w.regionBundles b :=
    fun b hb => Function.update_of_ne hb.ne _ _
  have hnew : (w.addBundle a).regionBundles w.nextBundle = ⟨a, [], w.nextDict, 0⟩ :=
    Function.update_self _ _ _
  have hglobal : ∀ b < w.nextBundle, (w.regionBundles b)._global ≠ w.nextDict :=
    fun b hb => (hi.global_lt b hb).ne
  constructor
  · exact Nat.succ_pos _
  · exact Dict.wf_set hi.accounts_wf a _
  · intro a' b hb
    simp only [World.addBundle, Dict.get_set] at hb
    by_cases ha : a = a'
    · rw [if_pos ha, Option.some.injEq] at hb
      subst ha hb
      exact ⟨Nat.lt_succ_self _, by rw [hnew]⟩
    · rw [if_neg ha] at hb
      obtain ⟨hlt, hacc⟩ := hi.account a' b hb
      exact ⟨Nat.lt_succ_of_lt hlt, by rw [hold b hlt, hacc]⟩
  · exact forall_addBundle (P := fun _ self => self._universal = 0) hi.universal rfl
  · exact forall_addBundle (P := fun _ self => 0 < self._global) hi.global_pos hi.nextDict
  · refine forall_addBundle (P := fun _ self => self._global < w.nextDict + 1) ?_
      (Nat.lt_succ_self _)
    exact fun b hb => Nat.lt_succ_of_lt (hi.global_lt b hb)
  · -- the dictionary of the new bundle is new
    refine forall_addBundle (P := fun b self => ∀ b' < (w.addBundle a).nextBundle,
      self._global = ((w.addBundle a).regionBundles b')._global → b = b') ?_ ?_
    · intro b hb
      exact forall_addBundle (P := fun b' self => (w.regionBundles b)._global = self._global →
        b = b') (hi.global_injective b hb) fun he => absurd he (hglobal b hb)
    · exact forall_addBundle (P := fun b' self => w.nextDict = self._global →
        w.nextBundle = b') (fun b' hb' he => absurd he.symm (hglobal b' hb')) fun _ => rfl
  · exact forall_addBundle (P := fun _ self => Dict.WF self.stores) hi.stores_wf Dict.wf_nil
  · refine forall_addBundle (P := fun b self => ∀ r s, Dict.get self.stores r = some s →
      s < w.nextObject ∧ Home cls (w.addBundle a) s b r) ?_ ?_
    · intro b hb r s hs
      obtain ⟨hlt, hh⟩ := hi.store b hb r s hs
      exact ⟨hlt, hh.addBundle hb a⟩
    · intro r s hs
      cases hs
  · intro s hs
    obtain ⟨b, hb, r, hh⟩ := hi.home s hs
    exact ⟨b, Nat.lt_succ_of_lt hb, r, hh.addBundle hb a⟩

/-! Adding a store leaves the references of the bundles as they are. -/

theorem withStore_global (w : World ν) (cfg : Config ν) (b b' : Nat) (r : Str) :
    ((w.withStore cfg b r).regionBundles b')._global = (w.regionBundles b')._global := by
  by_cases h : b' = b
  · subst h
    simp [World.withStore]
  · simp [World.withStore, Function.update_of_ne h]

theorem withStore_universal (w : World ν) (cfg : Config ν) (b b' : Nat) (r : Str) :
    ((w.withStore cfg b r).regionBundles b')._universal = (w.regionBundles b')._universal := by
  by_cases h : b' = b
  · subst h
    simp [World.withStore]
  · simp [World.withStore, Function.update_of_ne h]

theorem withStore_account (w : World ν) (cfg : Config ν) (b b' : Nat) (r : Str) :
    ((w.withStore cfg b r).regionBundles b').account_id = (w.regionBundles b').account_id := by
  by_cases h : b' = b
  · subst h
    simp [World.withStore]
  · simp [World.withStore, Function.update_of_ne h]

theorem withStore_stores (w : World ν) (cfg : Config ν) (b b' : Nat) (r r' : Str) :
    Dict.get ((w.withStore cfg b r).regionBundles b').stores r' =
      if b = b' ∧ r = r' then some w.nextObject else Dict.get (w.regionBundles b').stores r' := by
  by_cases h : b' = b
  · subst h
    simp [World.withStore, Dict.get_set]
  · simp [World.withStore, Function.update_of_ne h, Ne.symm h]

theorem withStore_objects (cfg : Config ν) (h : s < w.nextObject) (b : Nat) (r : Str) :
    (w.withStore cfg b r).objects s = w.objects s :=
  Function.update_of_ne h.ne _ _

theorem newStore_wf (self : RegionBundle) : Dict.WF [(globalAttr, Value.dict self._global),
    (universalAttr, .dict self._universal), (serviceNameAttr, .str cfg.service_name),
    (accountIdAttr, .str self.account_id), (regionNameAttr, (.str r : Value ν))] := by
  show ownAttrs.Nodup
  decide

theorem newStore_get (self : RegionBundle) {m : Str} (h : (m, v) ∈ [(globalAttr,
    Value.dict self._global), (universalAttr, .dict self._universal),
    (serviceNameAttr, .str cfg.service_name), (accountIdAttr, .str self.account_id),
    (regionNameAttr, (.str r : Value ν))]) : Dict.get (newStore cfg self r) m = some v := by
  rw [newStore, Dict.ofPairs_of_wf (newStore_wf self)]
  exact Dict.get_of_mem (newStore_wf self) h

theorem keys_newStore (self : RegionBundle) :
    Dict.keys (newStore cfg self r) = ownAttrs := by
  rw [newStore, Dict.ofPairs_of_wf (newStore_wf self)]
  rfl

/-- A new store has no attribute of its own yet. -/
theorem newStore_prefixed (self : RegionBundle) (n : Str) :
    Dict.get (newStore cfg self r) (LOCAL_ATTR_PREFIX ++ n) = none := by
  rw [Dict.get_eq_none_iff, keys_newStore]
  exact prefixed_notin_ownAttrs n

theorem home_withStore (ho : cfg.store.Ordinary) (hi : Inv cfg.store w) (hb : b < w.nextBundle) :
    Home cfg.store (w.withStore cfg b r) w.nextObject b r := by
  have hobj : (w.withStore cfg b r).objects w.nextObject = newStore cfg (w.regionBundles b) r :=
    Function.update_self _ _ _
  constructor
  · rw [hobj, withStore_global]
    exact newStore_get _ (by simp)
  · rw [hobj, ← hi.universal b hb]
    exact newStore_get _ (by simp)
  · rw [hobj, withStore_account]
    exact newStore_get _ (by simp)
  · rw [hobj]
    exact newStore_get _ (by simp)
  · rw [hobj, keys_newStore]
    exact ho.own
  · rw [hobj, newStore]
    exact Dict.wf_ofPairs _

theorem Home.withStore (h : Home cfg.store w s b r) (hs : s < w.nextObject) (b' : Nat)
    (r' : Str) : Home cfg.store (w.withStore cfg b' r') s b r := by
  have hobj := withStore_objects cfg hs b' r'
  refine h.of_eq (withStore_global ..) (withStore_account ..) ?_ ?_ ?_
  · intro n _
    rw [hobj]
  · rw [hobj]
    exact h.names
  · rw [hobj]
    exact h.wf

theorem Inv.withStore (ho : cfg.store.Ordinary) (hi : Inv cfg.store w) (hb : b < w.nextBundle)
    (r : Str) : Inv cfg.store (w.withStore cfg b r) := by
  constructor
  · exact hi.nextDict
  · exact hi.accounts_wf
  · intro a b' hb'
    rw [withStore_account]
    exact hi.account a b' hb'
  · intro b' hb'
    rw [withStore_universal]
    exact hi.universal b' hb'
  · intro b' hb'
    rw [withStore_global]
    exact hi.global_pos b' hb'
  · intro b' hb'
    rw [withStore_global]
    exact hi.global_lt b' hb'
  · intro b₁ hb₁ b₂ hb₂
    rw [withStore_global, withStore_global]
    exact hi.global_injective b₁ hb₁ b₂ hb₂
  · intro b' hb'
    by_cases h : b' = b
    · subst h
      simpa [World.withStore] using Dict.wf_set (hi.stores_wf b' hb') r w.nextObject
    · simpa [World.withStore, Function.update_of_ne h] using hi.stores_wf b' hb'
  · intro b' hb' r' s hs
    rw [withStore_stores] at hs
    by_cases h : b = b' ∧ r = r'
    · rw [if_pos h, Option.some.injEq] at hs
      obtain ⟨rfl, rfl⟩ := h
      subst hs
      exact ⟨Nat.lt_succ_self _, home_withStore ho hi hb⟩
    · rw [if_neg h] at hs
      obtain ⟨hlt, hh⟩ := hi.store b' hb' r' s hs
      exact ⟨Nat.lt_succ_of_lt hlt, hh.withStore hlt b r⟩
  · intro s hs
    rcases Nat.lt_succ_iff_lt_or_eq.mp hs with hlt | rfl
    · obtain ⟨b', hb', r', hh⟩ := hi.home s hlt
      exact ⟨b', hb', r', hh.withStore hlt b r⟩
    · exact ⟨b, hb, r, home_withStore ho hi hb⟩

end LocalStack.Services.Stores
