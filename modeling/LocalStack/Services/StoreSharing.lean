import LocalStack.Services.StoreClearing

/-! Isolation and sharing of the stores. Abstractly, a bundle is a map from scopes to
values: a local attribute has one value for each account and region, a cross-region
attribute one for each account, a cross-account attribute one for the bundle. -/

namespace LocalStack.Services.Stores
open LocalStack.OrderedDict LocalStack.Text LocalStack.Regex LocalStack.Stateful LocalStack.Runs

variable {ν : Type} {cls : StoreClass ν} {cfg : Config ν} {w w' : World ν}
  {s b : Nat} {a r n : Str}

/-! ## The map of scopes -/

/-- The paths that share a value. -/
inductive Scope
  | store (account_id region_name n : Str)
  | account (account_id n : Str)
  | everywhere (n : Str)
  deriving DecidableEq, Repr

def Kind.scope (k : Kind) (a r n : Str) : Scope :=
  match k with
  | .localAttribute => .store a r n
  | .crossRegionAttribute => .account a n
  | .crossAccountAttribute => .everywhere n

structure Keyed (ν : Type) where
  held : Scope → Option (Value ν)
  calls : Nat

/-- A read or a write through `bundle[account_id][region_name]`; a write has a value. -/
structure Access (cls : StoreClass ν) where
  account_id : Str
  region_name : Str
  attr : cls.Attr
  value : Option ν

def Access.descriptor (x : Access cls) : Descriptor ν := cls.descriptor x.attr

def Access.scope (x : Access cls) : Scope :=
  x.descriptor.kind.scope x.account_id x.region_name x.attr.1

/-- The value of a scope, filled with the default if there is none. -/
def Keyed.read (k : Keyed ν) (x : Scope) (d : Default ν) : Value ν × Keyed ν :=
  match k.held x with
  | some v => (v, k)
  | none => (d.value k.calls,
      ⟨Function.update k.held x (some (d.value k.calls)), d.next k.calls⟩)

def Keyed.write (k : Keyed ν) (x : Scope) (v : Value ν) : Keyed ν :=
  { k with held := Function.update k.held x (some v) }

/-- What an access of the map does. -/
def Keyed.apply (k : Keyed ν) (x : Access cls) : Option (Value ν) × Keyed ν :=
  match x.value with
  | none => (some (k.read x.scope x.descriptor.default).1, (k.read x.scope x.descriptor.default).2)
  | some v => (none, k.write x.scope (.user v))

def Keyed.access (cfg : Config ν) (x : Access cfg.store) (k : Keyed ν) :
    Except PyError (Option (Value ν)) × Keyed ν :=
  if !cfg.validAccount x.account_id then (.error (invalidAccount x.account_id), k)
  else if !cfg.validRegion x.region_name then (.error (invalidRegion cfg x.region_name), k)
  else (.ok (k.apply x).1, (k.apply x).2)

/-- What an access of the bundle does. -/
def access (cfg : Config ν) (x : Access cfg.store) : Py ν (Option (Value ν)) :=
  match x.value with
  | none => do return some (← readPath cfg x.account_id x.region_name x.attr.1)
  | some v => do
    writePath cfg x.account_id x.region_name x.attr.1 v
    return none

/-! ## The cell of a scope -/

def World.scopeCell (w : World ν) : Scope → Option Cell
  | .store a r n => (Dict.get w.accounts a).bind fun b =>
      (Dict.get (w.regionBundles b).stores r).map fun s => .attr s n
  | .account a n => (Dict.get w.accounts a).map fun b => .entry (w.regionBundles b)._global n
  | .everywhere n => some (.entry 0 n)

def World.held (w : World ν) (x : Scope) : Option (Value ν) := (w.scopeCell x).bind w.cell

/-- The map that a state of the heap stands for. -/
def World.keyed (w : World ν) : Keyed ν := ⟨w.held, w.calls⟩

/-- `bundle[a][r]` is the store `s` of region bundle `b`. -/
structure Located (w : World ν) (a r : Str) (b s : Nat) : Prop where
  account : Dict.get w.accounts a = some b
  store : Dict.get (w.regionBundles b).stores r = some s

theorem Located.lt (h : Located w a r b s) (hi : Inv cls w) : b < w.nextBundle :=
  (hi.account a b h.account).1

theorem Located.home (h : Located w a r b s) (hi : Inv cls w) : Home cls w s b r :=
  (hi.store b (h.lt hi) r s h.store).2

theorem Located.scopeCell (h : Located w a r b s) (k : Kind) (n : Str) :
    w.scopeCell (k.scope a r n) = some (k.cell s (w.regionBundles b)._global n) := by
  cases k with
  | localAttribute => simp [Kind.scope, World.scopeCell, Kind.cell, h.account, h.store]
  | crossRegionAttribute => simp [Kind.scope, World.scopeCell, Kind.cell, h.account]
  | crossAccountAttribute => rfl

theorem scopeCell_store {c : Cell} :
    w.scopeCell (.store a r n) = some c ↔ ∃ b s, Located w a r b s ∧ Cell.attr s n = c := by
  simp only [World.scopeCell, Option.bind_eq_some_iff, Option.map_eq_some_iff]
  constructor
  · rintro ⟨b, hb, s, hs, rfl⟩
    exact ⟨b, s, ⟨hb, hs⟩, rfl⟩
  · rintro ⟨b, s, h, rfl⟩
    exact ⟨b, h.account, s, h.store, rfl⟩

theorem scopeCell_account {c : Cell} : w.scopeCell (.account a n) = some c ↔
    ∃ b, Dict.get w.accounts a = some b ∧ Cell.entry (w.regionBundles b)._global n = c := by
  simp [World.scopeCell]

theorem scopeCell_everywhere {c : Cell} :
    w.scopeCell (.everywhere n) = some c ↔ Cell.entry 0 n = c := by
  simp [World.scopeCell]

/-- An account has its own region bundle. -/
theorem account_injective (hi : Inv cls w) {a' : Str} (h : Dict.get w.accounts a = some b)
    (h' : Dict.get w.accounts a' = some b) : a = a' :=
  (hi.account a b h).2.symm.trans (hi.account a' b h').2

theorem Located.setCell (h : Located w a r b s) (c : Cell) (v : Value ν) :
    Located (w.setCell c v) a r b s := by
  cases c with
  | attr obj n => exact ⟨h.account, h.store⟩
  | entry i n => exact ⟨h.account, h.store⟩

/-- **No aliases.** Different scopes have different cells. -/
theorem scopeCell_injective (hi : Inv cls w) {x y : Scope} {c : Cell}
    (hx : w.scopeCell x = some c) (hy : w.scopeCell y = some c) : x = y := by
  cases x with
  | store a r n =>
    obtain ⟨b, s, hl, rfl⟩ := scopeCell_store.mp hx
    cases y with
    | store a' r' n' =>
      obtain ⟨b', s', hl', he⟩ := scopeCell_store.mp hy
      obtain ⟨rfl, rfl⟩ := Cell.attr.inj he
      obtain ⟨rfl, rfl⟩ := (hl.home hi).unique hi (hl'.home hi) (hl.lt hi) (hl'.lt hi)
      rw [account_injective hi hl.account hl'.account]
    | account a' n' =>
      obtain ⟨b', -, he⟩ := scopeCell_account.mp hy
      cases he
    | everywhere n' => cases scopeCell_everywhere.mp hy
  | account a n =>
    obtain ⟨b, hb, rfl⟩ := scopeCell_account.mp hx
    have hlt := (hi.account a b hb).1
    cases y with
    | store a' r' n' =>
      obtain ⟨b', s', -, he⟩ := scopeCell_store.mp hy
      cases he
    | account a' n' =>
      obtain ⟨b', hb', he⟩ := scopeCell_account.mp hy
      obtain ⟨hg, rfl⟩ := Cell.entry.inj he
      have hbb := hi.global_injective b' (hi.account a' b' hb').1 b hlt hg
      rw [account_injective hi hb (hbb ▸ hb')]
    | everywhere n' =>
      obtain ⟨hg, -⟩ := Cell.entry.inj (scopeCell_everywhere.mp hy)
      exact absurd hg (hi.global_pos b hlt).ne
  | everywhere n =>
    have hc := scopeCell_everywhere.mp hx
    subst hc
    cases y with
    | store a' r' n' =>
      obtain ⟨b', s', -, he⟩ := scopeCell_store.mp hy
      cases he
    | account a' n' =>
      obtain ⟨b', hb', he⟩ := scopeCell_account.mp hy
      obtain ⟨hg, -⟩ := Cell.entry.inj he
      exact absurd hg (hi.global_pos b' (hi.account a' b' hb').1).ne'
    | everywhere n' => rw [(Cell.entry.inj (scopeCell_everywhere.mp hy)).2]

theorem scopeCell_setCell (w : World ν) (c : Cell) (v : Value ν) :
    (w.setCell c v).scopeCell = w.scopeCell := by
  cases c <;> rfl

theorem setCell_calls (w : World ν) (c : Cell) (v : Value ν) :
    (w.setCell c v).calls = w.calls := by
  cases c <;> rfl

theorem setCell_nextObject (w : World ν) (c : Cell) (v : Value ν) :
    (w.setCell c v).nextObject = w.nextObject := by
  cases c <;> rfl

theorem held_setCell (hi : Inv cls w) {x : Scope} {c : Cell} (hx : w.scopeCell x = some c)
    (v : Value ν) : (w.setCell c v).held = Function.update w.held x (some v) := by
  funext y
  rw [World.held, scopeCell_setCell]
  by_cases h : y = x
  · subst h
    simp [hx, cell_setCell]
  · rw [Function.update_of_ne h, World.held]
    cases hy : w.scopeCell y with
    | none => rfl
    | some c' =>
      have hne : c ≠ c' := fun he => h (scopeCell_injective hi hy (he ▸ hx))
      simp [cell_setCell, hne]

/-! ## Getting a store -/

/-- A new region bundle holds nothing. -/
theorem held_addBundle (hi : Inv cls w) (ha : Dict.get w.accounts a = none) :
    (w.addBundle a).held = w.held := by
  have hold : ∀ b < w.nextBundle, (w.addBundle a).regionBundles b = w.regionBundles b :=
    fun b hb => Function.update_of_ne hb.ne _ _
  have hnew : (w.addBundle a).regionBundles w.nextBundle = ⟨a, [], w.nextDict, 0⟩ :=
    Function.update_self _ _ _
  have hdict : ∀ i < w.nextDict, (w.addBundle a).dicts i = w.dicts i :=
    fun i hi => Function.update_of_ne hi.ne _ _
  have haccounts : ∀ a', Dict.get (w.addBundle a).accounts a' =
      if a = a' then some w.nextBundle else Dict.get w.accounts a' :=
    fun a' => Dict.get_set w.accounts a a' w.nextBundle
  funext x
  cases x with
  | store a' r n =>
    simp only [World.held, World.scopeCell, haccounts]
    by_cases h : a = a'
    · subst h
      simp [ha, hnew]
    · rw [if_neg h]
      cases hb : Dict.get w.accounts a' with
      | none => rfl
      | some b =>
        simp only [Option.bind_some, hold b (hi.account a' b hb).1]
        cases Dict.get (w.regionBundles b).stores r <;> rfl
  | account a' n =>
    simp only [World.held, World.scopeCell, haccounts]
    by_cases h : a = a'
    · subst h
      simp [ha, World.cell, World.addBundle]
    · rw [if_neg h]
      cases hb : Dict.get w.accounts a' with
      | none => rfl
      | some b =>
        have hlt := (hi.account a' b hb).1
        simp only [Option.map_some, Option.bind_some, hold b hlt, World.cell,
          hdict _ (hi.global_lt b hlt)]
  | everywhere n => simp [World.held, World.scopeCell, World.cell, hdict 0 hi.nextDict]

/-- A new store holds nothing. -/
theorem held_withStore (hi : Inv cls w)
    (hs : Dict.get (w.regionBundles b).stores r = none) :
    (w.withStore cfg b r).held = w.held := by
  funext x
  cases x with
  | store a' r' n =>
    simp only [World.held, World.scopeCell]
    show (Option.bind (Option.bind (Dict.get w.accounts a') _) _) = _
    cases ha : Dict.get w.accounts a' with
    | none => rfl
    | some b' =>
      simp only [Option.bind_some, withStore_stores]
      by_cases h : b = b' ∧ r = r'
      · obtain ⟨rfl, rfl⟩ := h
        simp [hs, World.cell, World.withStore, newStore_prefixed]
      · rw [if_neg h]
        cases hst : Dict.get (w.regionBundles b').stores r' with
        | none => rfl
        | some s =>
          have hlt := (hi.store b' (hi.account a' b' ha).1 r' s hst).1
          simp [World.cell, withStore_objects cfg hlt b r]
  | account a' n =>
    simp only [World.held, World.scopeCell, withStore_global]
    show Option.bind (Option.map _ (Dict.get w.accounts a')) _ = _
    cases Dict.get w.accounts a' <;> rfl
  | everywhere n => rfl

/-- **Paths.** A path with a valid account and a valid region yields a store, and the
map stays the same. -/
theorem path_run (ho : cfg.store.Ordinary) (hi : Inv cfg.store w)
    (ha : cfg.validAccount a = true) (hr : cfg.validRegion r = true) :
    ∃ b s w', (path cfg a r).run w = .ok s w' ∧ Inv cfg.store w' ∧ Located w' a r b s ∧
      w'.keyed = w.keyed ∧ w.nextObject ≤ w'.nextObject := by
  have hbundle : ∃ b w₁, (AccountRegionBundle.getitem cfg a).run w = .ok b w₁ ∧
      Inv cfg.store w₁ ∧ Dict.get w₁.accounts a = some b ∧ w₁.keyed = w.keyed ∧
      w₁.nextObject = w.nextObject := by
    cases hb : Dict.get w.accounts a with
    | some b => exact ⟨b, w, account_getitem_some ha hb, hi, hb, rfl, rfl⟩
    | none =>
      refine ⟨_, _, account_getitem_none ha hb, hi.addBundle a, ?_, ?_, rfl⟩
      · simp [World.addBundle]
      · rw [World.keyed, held_addBundle hi hb]
        rfl
  obtain ⟨b, w₁, hrun, hi₁, hb, hk, hn⟩ := hbundle
  have hlt := (hi₁.account a b hb).1
  rw [path, bind_ok hrun]
  cases hs : Dict.get (w₁.regionBundles b).stores r with
  | some s => exact ⟨b, s, w₁, region_getitem_some hr hs, hi₁, ⟨hb, hs⟩, hk, hn.ge⟩
  | none =>
    refine ⟨b, _, _, region_getitem_none ho hr hs, hi₁.withStore ho hlt r, ⟨hb, ?_⟩, ?_,
      hn.ge.trans (Nat.le_succ _)⟩
    · rw [withStore_stores, if_pos ⟨rfl, rfl⟩]
    · rw [World.keyed, held_withStore hi₁ hs, ← hk]
      rfl

theorem path_invalid_account (ha : cfg.validAccount a = false) :
    (path cfg a r).run w = .error (invalidAccount a) w := by
  rw [path, bind_error (account_getitem_invalid ha)]

/-- A path with an invalid region can still create the region bundle. -/
theorem path_invalid_region (hi : Inv cfg.store w) (ha : cfg.validAccount a = true)
    (hr : cfg.validRegion r = false) :
    ∃ w', (path cfg a r).run w = .error (invalidRegion cfg r) w' ∧ Inv cfg.store w' ∧
      w'.keyed = w.keyed := by
  cases hb : Dict.get w.accounts a with
  | some b =>
    exact ⟨w, by rw [path, bind_ok (account_getitem_some ha hb), region_getitem_invalid hr], hi, rfl⟩
  | none =>
    refine ⟨w.addBundle a, ?_, hi.addBundle a, ?_⟩
    · rw [path, bind_ok (account_getitem_none ha hb), region_getitem_invalid hr]
    · rw [World.keyed, held_addBundle hi hb]
      rfl

/-! ## Reads and writes -/

theorem readCell_keyed (hi : Inv cls w) {x : Scope} {c : Cell} (hx : w.scopeCell x = some c)
    (hfree : c.Free cls) (d : Default ν) :
    ∃ w', (readCell c d).run w = .ok (w.keyed.read x d).1 w' ∧ Inv cls w' ∧
      w'.keyed = (w.keyed.read x d).2 ∧ ∀ a r b s, Located w a r b s → Located w' a r b s := by
  have hheld : w.held x = w.cell c := by rw [World.held, hx, Option.bind_some]
  cases hc : w.cell c with
  | some v =>
    have hread : w.keyed.read x d = (v, w.keyed) := by
      simp [Keyed.read, World.keyed, hheld, hc]
    exact ⟨w, by rw [readCell_some hc, hread], hi, by rw [hread], fun _ _ _ _ hl => hl⟩
  | none =>
    have hread : w.keyed.read x d = (d.value w.calls,
        ⟨Function.update w.held x (some (d.value w.calls)), d.next w.calls⟩) := by
      simp [Keyed.read, World.keyed, hheld, hc]
    have hcalls := hi.setCalls (d.next w.calls)
    refine ⟨_, by rw [readCell_none hc, hread], hcalls.setCell hfree _, ?_, ?_⟩
    · rw [hread, World.keyed, held_setCell hcalls hx, setCell_calls]
      rfl
    · intro a r b s hl
      have hcalls : Located { w with calls := d.next w.calls } a r b s := ⟨hl.account, hl.store⟩
      exact hcalls.setCell c _

theorem located_read (ho : cls.Ordinary) (hi : Inv cls w) {x : Access cls}
    (hl : Located w x.account_id x.region_name b s) :
    ∃ w', (readAttr cls s x.attr.1).run w =
        .ok (w.keyed.read x.scope x.descriptor.default).1 w' ∧
      Inv cls w' ∧ w'.keyed = (w.keyed.read x.scope x.descriptor.default).2 ∧
      Located w' x.account_id x.region_name b s := by
  have hcell : w.scopeCell x.scope = some (attrCell w s b x.attr) :=
    hl.scopeCell x.descriptor.kind x.attr.1
  obtain ⟨w', hrun, hi', hk, hkeep⟩ :=
    readCell_keyed hi hcell (attrCell_free ho w s b x.attr) x.descriptor.default
  exact ⟨w', (readAttr_eq ho (hl.home hi) x.attr).trans hrun, hi', hk, hkeep _ _ _ _ hl⟩

theorem located_write (ho : cls.Ordinary) (hi : Inv cls w) {x : Access cls}
    (hl : Located w x.account_id x.region_name b s) (v : ν) :
    ∃ w', (writeAttr cls s x.attr.1 (.user v)).run w = .ok () w' ∧ Inv cls w' ∧
      w'.keyed = w.keyed.write x.scope (.user v) := by
  refine ⟨_, writeAttr_eq ho (hl.home hi) x.attr _,
    hi.setCell (attrCell_free ho w s b x.attr) _, ?_⟩
  have hcell : w.scopeCell x.scope = some (attrCell w s b x.attr) :=
    hl.scopeCell x.descriptor.kind x.attr.1
  rw [World.keyed, held_setCell hi hcell, setCell_calls]
  rfl

theorem access_read {x : Access cfg.store} (h : x.value = none) :
    access cfg x = (do return some (← readPath cfg x.account_id x.region_name x.attr.1)) := by
  rw [access, h]

theorem access_write {x : Access cfg.store} {v : ν} (h : x.value = some v) :
    access cfg x = (do
      writePath cfg x.account_id x.region_name x.attr.1 v
      return none) := by
  rw [access, h]

theorem access_error {x : Access cfg.store} {e : PyError}
    (h : (path cfg x.account_id x.region_name).run w = .error e w') :
    (access cfg x).run w = .error e w' := by
  cases hx : x.value with
  | none =>
    have hread : (readPath cfg x.account_id x.region_name x.attr.1).run w = .error e w' :=
      bind_error h
    rw [access_read hx, bind_error hread]
  | some v =>
    have hwrite : (writePath cfg x.account_id x.region_name x.attr.1 v).run w = .error e w' :=
      bind_error h
    rw [access_write hx, bind_error hwrite]

/-- **Refinement.** An access of the bundle returns or raises what the map returns or
raises, and changes the map in the same way. -/
theorem access_refines (ho : cfg.store.Ordinary) (hi : Inv cfg.store w) (x : Access cfg.store) :
    outcome (access cfg x) w = (w.keyed.access cfg x).1 ∧
      Inv cfg.store (after (access cfg x) w) ∧
      (after (access cfg x) w).keyed = (w.keyed.access cfg x).2 := by
  cases ha : cfg.validAccount x.account_id with
  | false =>
    have hrun : (access cfg x).run w = _ := access_error (path_invalid_account ha)
    rw [outcome_error hrun, after_error hrun, Keyed.access, ha, if_pos (by simp)]
    exact ⟨rfl, hi, rfl⟩
  | true =>
    cases hr : cfg.validRegion x.region_name with
    | false =>
      obtain ⟨w', hpath, hi', hk⟩ := path_invalid_region hi ha hr
      have hrun := access_error hpath
      rw [outcome_error hrun, after_error hrun, Keyed.access, ha, hr,
        if_neg (by simp), if_pos (by simp)]
      exact ⟨rfl, hi', hk⟩
    | true =>
      obtain ⟨b, s, w₁, hpath, hi₁, hl, hk, -⟩ := path_run ho hi ha hr
      rw [Keyed.access, ha, hr, if_neg (by simp), if_neg (by simp), ← hk]
      cases hx : x.value with
      | none =>
        obtain ⟨w₂, hrun, hi₂, hk₂, -⟩ := located_read ho hi₁ hl
        have hread : (readPath cfg x.account_id x.region_name x.attr.1).run w = _ :=
          (bind_ok hpath).trans hrun
        have haccess : (access cfg x).run w =
            .ok (some (w₁.keyed.read x.scope x.descriptor.default).1) w₂ := by
          rw [access_read hx, bind_ok hread]
          rfl
        rw [outcome_ok haccess, after_ok haccess, Keyed.apply, hx]
        exact ⟨rfl, hi₂, hk₂⟩
      | some v =>
        obtain ⟨w₂, hrun, hi₂, hk₂⟩ := located_write ho hi₁ hl v
        have hwrite : (writePath cfg x.account_id x.region_name x.attr.1 v).run w = _ :=
          (bind_ok hpath).trans hrun
        have haccess : (access cfg x).run w = .ok none w₂ := by
          rw [access_write hx, bind_ok hwrite]
          rfl
        rw [outcome_ok haccess, after_ok haccess, Keyed.apply, hx]
        exact ⟨rfl, hi₂, hk₂⟩

/-! ## What the map remembers -/

/-- The path is accepted. -/
def Access.Valid (cfg : Config ν) (x : Access cfg.store) : Prop :=
  cfg.validAccount x.account_id = true ∧ cfg.validRegion x.region_name = true

/-- The access is a write that sets the value of scope `y`. -/
def Access.Writes (cfg : Config ν) (y : Scope) (x : Access cfg.store) : Prop :=
  x.value.isSome ∧ x.Valid cfg ∧ x.scope = y

theorem Keyed.access_valid {x : Access cfg.store} (h : x.Valid cfg) (k : Keyed ν) :
    k.access cfg x = (.ok (k.apply x).1, (k.apply x).2) := by
  rw [Keyed.access, h.1, h.2, if_neg (by simp), if_neg (by simp)]

theorem Keyed.access_invalid {x : Access cfg.store} (h : ¬x.Valid cfg) (k : Keyed ν) :
    (k.access cfg x).2 = k := by
  unfold Keyed.access
  split
  · rfl
  · split
    · rfl
    · rename_i ha hr
      simp only [Bool.not_eq_true', Bool.not_eq_false] at ha hr
      exact absurd ⟨ha, hr⟩ h

theorem Keyed.apply_read {x : Access cls} (h : x.value = none) (k : Keyed ν) :
    k.apply x = (some (k.read x.scope x.descriptor.default).1,
      (k.read x.scope x.descriptor.default).2) := by
  rw [Keyed.apply, h]

theorem Keyed.apply_write {x : Access cls} {v : ν} (h : x.value = some v) (k : Keyed ν) :
    k.apply x = (none, k.write x.scope (.user v)) := by
  rw [Keyed.apply, h]

/-- A scope belongs to one attribute. -/
theorem attr_of_scope {x y : Access cls} (h : x.scope = y.scope) : x.attr = y.attr := by
  apply Subtype.ext
  unfold Access.scope at h
  cases hx : x.descriptor.kind <;> cases hy : y.descriptor.kind <;>
    simp only [hx, hy, Kind.scope, reduceCtorEq, Scope.store.injEq, Scope.account.injEq,
      Scope.everywhere.injEq] at h
  · exact h.2.2
  · exact h.2
  · exact h

theorem Keyed.read_value (k : Keyed ν) (x : Scope) (d : Default ν) :
    (k.read x d).1 = (k.held x).getD (d.value k.calls) := by
  unfold Keyed.read
  cases k.held x <;> rfl

theorem Keyed.held_read (k : Keyed ν) (x y : Scope) (d : Default ν) :
    (k.read x d).2.held y = if y = x then some (k.read x d).1 else k.held y := by
  unfold Keyed.read
  cases h : k.held x with
  | some v =>
    by_cases hy : y = x
    · subst hy
      rw [if_pos rfl, h]
    · rw [if_neg hy]
  | none => exact Function.update_apply _ _ _ _

theorem Keyed.held_write (k : Keyed ν) (x y : Scope) (v : Value ν) :
    (k.write x v).held y = if y = x then some v else k.held y :=
  Function.update_apply _ _ _ _

/-- The value of a scope that an access does not write: it stays, or an empty scope
is filled with the default of the attribute. -/
theorem Keyed.access_held {y : Scope} (k : Keyed ν) {x : Access cfg.store}
    (hx : ¬x.Writes cfg y) : (k.access cfg x).2.held y = k.held y ∨
      k.held y = none ∧ x.scope = y ∧
        (k.access cfg x).2.held y = some (x.descriptor.default.value k.calls) := by
  by_cases hv : x.Valid cfg
  · rw [Keyed.access_valid hv]
    cases hval : x.value with
    | none =>
      rw [Keyed.apply_read hval, Keyed.held_read, Keyed.read_value]
      by_cases he : y = x.scope
      · subst he
        rw [if_pos rfl]
        cases h : k.held x.scope with
        | some v => exact Or.inl rfl
        | none => exact Or.inr ⟨rfl, rfl, rfl⟩
      · exact Or.inl (if_neg he)
    | some v =>
      have hne : y ≠ x.scope := fun he => hx ⟨by rw [hval]; rfl, hv, he.symm⟩
      rw [Keyed.apply_write hval, Keyed.held_write]
      exact Or.inl (if_neg hne)
  · rw [Keyed.access_invalid hv]
    exact Or.inl rfl

/-- A write calls no default. -/
theorem Keyed.calls_of_write {x : Access cfg.store} (hx : x.value.isSome) (k : Keyed ν) :
    (k.access cfg x).2.calls = k.calls := by
  by_cases hv : x.Valid cfg
  · obtain ⟨v, hval⟩ := Option.isSome_iff_exists.mp hx
    rw [Keyed.access_valid hv, Keyed.apply_write hval]
    rfl
  · rw [Keyed.access_invalid hv]

/-- What a read returns depends on its scope and the number of calls only. -/
theorem Keyed.read_congr {y : Access cfg.store} (hy : y.value = none) {k k' : Keyed ν}
    (hheld : k.held y.scope = k'.held y.scope) (hcalls : k.calls = k'.calls) :
    (k.access cfg y).1 = (k'.access cfg y).1 := by
  unfold Keyed.access
  split
  · rfl
  · split
    · rfl
    · simp only [Keyed.apply_read hy, Keyed.read_value, hheld, hcalls]

/-! ## Isolation -/

/-- **Isolation and sharing.** What a client of `bundle[account_id][region_name]` sees:
`written` and `unwritten` say what a read returns, `untouched` what a write leaves
alone, and `same` that a path yields one store between resets. -/
structure Isolated (cfg : Config ν) : Prop where
  refines : ∀ w, Reachable cfg w → ∀ xs : List (Access cfg.store),
    outcomes (access cfg) xs w = Machine.outcomes (Keyed.access cfg) xs w.keyed
  written : ∀ w, Reachable cfg w → ∀ x y : Access cfg.store, ∀ v xs, x.value = some v →
    y.value = none → x.Valid cfg → y.Valid cfg → y.scope = x.scope →
    (∀ z ∈ xs, ¬z.Writes cfg y.scope) →
    outcome (access cfg y) (afterAll (access cfg) (x :: xs) w) = .ok (some (.user v))
  unwritten : ∀ y : Access cfg.store, ∀ xs, y.value = none → y.Valid cfg →
    (∀ z ∈ xs, ¬z.Writes cfg y.scope) → ∃ c,
      outcome (access cfg y) (afterAll (access cfg) xs initial) =
        .ok (some (y.descriptor.default.value c))
  untouched : ∀ w, Reachable cfg w → ∀ x y : Access cfg.store, x.value.isSome → y.value = none →
    x.scope ≠ y.scope →
    outcome (access cfg y) (after (access cfg x) w) = outcome (access cfg y) w
  same : ∀ w, Reachable cfg w → ∀ a r s, outcome (path cfg a r) w = .ok s →
    ∀ es w', Run (step cfg) (after (path cfg a r) w) es w' →
      Guarded (fun _ op => ¬op.IsReset) es → outcome (path cfg a r) w' = .ok s

/-- The state and the map that it stands for. -/
def Stands (cfg : Config ν) (w : World ν) (k : Keyed ν) : Prop :=
  Inv cfg.store w ∧ w.keyed = k

theorem accesses_refine (ho : cfg.store.Ordinary) (hi : Inv cfg.store w)
    (xs : List (Access cfg.store)) :
    outcomes (access cfg) xs w = Machine.outcomes (Keyed.access cfg) xs w.keyed ∧
      Stands cfg (afterAll (access cfg) xs w) (Machine.afterAll (Keyed.access cfg) xs w.keyed) := by
  have hstep : ∀ x (_ : List (Access cfg.store)) w k, Stands cfg w k →
      outcome (access cfg x) w = (Keyed.access cfg x k).1 ∧
      Stands cfg (after (access cfg x) w) (Keyed.access cfg x k).2 := by
    rintro x - w k ⟨hi, rfl⟩
    exact access_refines ho hi x
  exact @outcomes_eq _ _ _ _ _ (access cfg) (Keyed.access cfg) (fun _ => Stands cfg) w w.keyed
    hstep xs ⟨hi, rfl⟩

theorem afterAll_held {y : Scope} {v : Value ν} {xs : List (Access cfg.store)} {k : Keyed ν}
    (hxs : ∀ z ∈ xs, ¬z.Writes cfg y) (h : k.held y = some v) :
    (Machine.afterAll (Keyed.access cfg) xs k).held y = some v := by
  induction xs generalizing k with
  | nil => exact h
  | cons x xs ih =>
    rw [List.forall_mem_cons] at hxs
    apply ih hxs.2
    rcases k.access_held hxs.1 with he | ⟨hnone, -⟩
    · rw [he, h]
    · rw [h] at hnone
      cases hnone

/-- A scope that nobody writes holds nothing, or a default. -/
theorem afterAll_unwritten {y : Access cfg.store} {xs : List (Access cfg.store)} {k : Keyed ν}
    (hxs : ∀ z ∈ xs, ¬z.Writes cfg y.scope)
    (h : ∀ v, k.held y.scope = some v → ∃ c, v = y.descriptor.default.value c) (v : Value ν)
    (hv : (Machine.afterAll (Keyed.access cfg) xs k).held y.scope = some v) :
    ∃ c, v = y.descriptor.default.value c := by
  induction xs generalizing k with
  | nil => exact h v hv
  | cons x xs ih =>
    rw [List.forall_mem_cons] at hxs
    refine ih hxs.2 ?_ hv
    intro u hu
    rcases k.access_held hxs.1 with he | ⟨-, hscope, hfill⟩
    · exact h u (he ▸ hu)
    · rw [hfill, Option.some.injEq] at hu
      have hattr := attr_of_scope hscope
      exact ⟨k.calls, by rw [← hu, Access.descriptor, hattr, Access.descriptor]⟩

theorem read_outcome (ho : cfg.store.Ordinary) (hi : Inv cfg.store w) {y : Access cfg.store}
    (hv : y.Valid cfg) (hy : y.value = none) : outcome (access cfg y) w =
      .ok (some ((w.held y.scope).getD (y.descriptor.default.value w.calls))) := by
  rw [(access_refines ho hi y).1, Keyed.access_valid hv, Keyed.apply_read hy, Keyed.read_value]
  rfl

/-! ## One store between resets -/

theorem located_path (hl : Located w a r b s) (ha : cfg.validAccount a = true)
    (hr : cfg.validRegion r = true) : (path cfg a r).run w = .ok s w := by
  rw [path, bind_ok (account_getitem_some ha hl.account), region_getitem_some hr hl.store]

theorem Located.addBundle (hl : Located w a r b s) (hb : b < w.nextBundle) {a' : Str}
    (ha : Dict.get w.accounts a' = none) : Located (w.addBundle a') a r b s where
  account := by
    have hne : a' ≠ a := by
      rintro rfl
      rw [hl.account] at ha
      cases ha
    exact (Dict.get_set_ne w.accounts _ hne).trans hl.account
  store := by
    have hold : (w.addBundle a').regionBundles b = w.regionBundles b :=
      Function.update_of_ne hb.ne _ _
    rw [hold]
    exact hl.store

theorem Located.withStore (hl : Located w a r b s) {b' : Nat} {r' : Str}
    (hs : Dict.get (w.regionBundles b').stores r' = none) :
    Located (w.withStore cfg b' r') a r b s where
  account := hl.account
  store := by
    have hne : ¬(b' = b ∧ r' = r) := by
      rintro ⟨rfl, rfl⟩
      rw [hl.store] at hs
      cases hs
    rw [withStore_stores, if_neg hne]
    exact hl.store

/-- Only a reset takes a store away from its path. -/
theorem Change.located (hi : Inv cfg.store w) {op : Op cfg.store} (h : Change cfg op w w')
    (hop : ¬op.IsReset) (hl : Located w a r b s) : Located w' a r b s := by
  cases h with
  | same => exact hl
  | bundle _ ha => exact hl.addBundle (hl.lt hi) ha
  | store _ _ hs => exact hl.withStore hs
  | cell k v _ =>
    have hcalls : Located { w with calls := k } a r b s := ⟨hl.account, hl.store⟩
    exact hcalls.setCell _ v
  | reset h _ => exact absurd h hop

theorem located_run (ho : cfg.store.Ordinary) (hi : Inv cfg.store w)
    {es : List (Event (World ν) (Op cfg.store))} (h : Run (step cfg) w es w')
    (hes : Guarded (fun _ op => ¬op.IsReset) es) (hl : Located w a r b s) :
    Located w' a r b s := by
  have hstep : ∀ t op u, Inv cfg.store t ∧ Located t a r b s → ¬op.IsReset →
      step cfg t op = some u → Inv cfg.store u ∧ Located u a r b s := by
    rintro t op u ⟨hi, hl⟩ hop hs
    have hchange := step_change ho hi hs
    exact ⟨hchange.inv ho hi, hchange.located hi hop hl⟩
  exact (h.invariant ⟨hi, hl⟩ hstep hes).2

theorem valid_of_path (hi : Inv cfg.store w) (h : outcome (path cfg a r) w = .ok s) :
    cfg.validAccount a = true ∧ cfg.validRegion r = true := by
  cases ha : cfg.validAccount a with
  | false =>
    rw [outcome_error (path_invalid_account ha)] at h
    cases h
  | true =>
    cases hr : cfg.validRegion r with
    | false =>
      obtain ⟨w', hrun, -⟩ := path_invalid_region hi ha hr
      rw [outcome_error hrun] at h
      cases h
    | true => exact ⟨rfl, rfl⟩

/-- **Store isolation and sharing**, for every store class with ordinary names. -/
theorem ordinary_isolated (ho : cfg.store.Ordinary) : Isolated cfg where
  refines := fun w hw xs => (accesses_refine ho (hw.inv ho) xs).1
  written := by
    intro w hw x y v xs hx hy hxv hyv hscope hxs
    obtain ⟨-, hi₁, hk₁⟩ := access_refines ho (hw.inv ho) x
    obtain ⟨-, hi₂, hk₂⟩ := accesses_refine ho hi₁ xs
    have hheld : (after (access cfg x) w).keyed.held y.scope = some (.user v) := by
      rw [hk₁, Keyed.access_valid hxv, Keyed.apply_write hx, Keyed.held_write, if_pos hscope]
    have hend : (afterAll (access cfg) xs (after (access cfg x) w)).held y.scope =
        some (.user v) := by
      have := afterAll_held hxs hheld
      rwa [← hk₂] at this
    have hread := read_outcome ho hi₂ hyv hy
    rw [hend] at hread
    exact hread
  unwritten := by
    intro y xs hy hyv hxs
    obtain ⟨-, hi, hk⟩ := accesses_refine ho (initial_inv cfg.store) xs
    have hread := read_outcome ho hi hyv hy
    cases hheld : (afterAll (access cfg) xs initial).held y.scope with
    | none => exact ⟨_, by rw [hread, hheld]; rfl⟩
    | some v =>
      have hstart : ∀ v, (initial : World ν).keyed.held y.scope = some v →
          ∃ c, v = y.descriptor.default.value c := by
        intro v hv
        cases hs : y.scope <;> simp [World.keyed, World.held, World.scopeCell, World.cell,
          initial, hs] at hv
      obtain ⟨c, rfl⟩ := afterAll_unwritten hxs hstart v (by rw [← hk]; exact hheld)
      exact ⟨c, by rw [hread, hheld]; rfl⟩
  untouched := by
    intro w hw x y hx hy hscope
    have hi := hw.inv ho
    obtain ⟨-, hi', hk⟩ := access_refines ho hi x
    rw [(access_refines ho hi' y).1, (access_refines ho hi y).1, hk]
    apply Keyed.read_congr hy
    · have hnot : ¬x.Writes cfg y.scope := fun h => hscope h.2.2
      rcases w.keyed.access_held hnot with he | ⟨-, he, -⟩
      · exact he
      · exact absurd he hscope
    · exact Keyed.calls_of_write hx w.keyed
  same := by
    intro w hw a r s hpath es w' hrun hes
    have hi := hw.inv ho
    obtain ⟨ha, hr⟩ := valid_of_path hi hpath
    obtain ⟨b, s', w₁, hrun₁, hi₁, hl, -⟩ := path_run ho hi ha hr
    obtain rfl : s' = s := by
      rw [outcome_ok hrun₁, Except.ok.injEq] at hpath
      exact hpath
    rw [after_ok hrun₁] at hrun
    exact outcome_ok (located_path (located_run ho hi₁ hrun hes hl) ha hr)

/-- A store class with one attribute of each kind. -/
def sampleStore : StoreClass Nat where
  name := "SampleStore".toList
  attributes := [("CROSS_ACCOUNT_ATTR".toList, ⟨.crossAccountAttribute, .callable id⟩),
    ("CROSS_REGION_ATTR".toList, ⟨.crossRegionAttribute, .callable id⟩),
    ("region_specific_attr".toList, ⟨.localAttribute, .callable id⟩)]
  no_special_names := by decide

def bundleOf (cls : StoreClass Nat) : Config Nat where
  service_name := "sqs".toList
  store := cls
  validate := true
  ALLOW_NONSTANDARD_REGIONS := false
  valid_regions := ["us-east-1".toList, "eu-west-1".toList]

theorem sampleStore_ordinary : sampleStore.Ordinary := ⟨by decide, by decide⟩

theorem sample_isolated : Isolated (bundleOf sampleStore) :=
  ordinary_isolated sampleStore_ordinary

/-- The local value of `x` is kept under the name of the other attribute. -/
def aliasStore : StoreClass Nat where
  name := "AliasStore".toList
  attributes := [("x".toList, ⟨.localAttribute, .scalar 1⟩),
    ("attr_x".toList, ⟨.localAttribute, .scalar 2⟩)]
  no_special_names := by decide

/-- The bundle sets an attribute of this name itself. -/
def ownNameStore : StoreClass Nat where
  name := "OwnNameStore".toList
  attributes := [("_service_name".toList, ⟨.localAttribute, .scalar 1⟩)]
  no_special_names := by decide

/-- A write of `x` changes `attr_x`, and `_service_name` does not read its default. -/
theorem names_collide : ¬Isolated (bundleOf aliasStore) ∧ ¬Isolated (bundleOf ownNameStore) := by
  constructor
  · intro h
    have huntouched := h.untouched initial ⟨[], Run.nil⟩
      ⟨"000000000000".toList, "us-east-1".toList, ⟨"x".toList, by decide⟩, some 7⟩
      ⟨"000000000000".toList, "us-east-1".toList, ⟨"attr_x".toList, by decide⟩, none⟩
      rfl rfl (by decide)
    exact absurd huntouched (by decide +kernel)
  · intro h
    have hrefines := h.refines initial ⟨[], Run.nil⟩
      [⟨"000000000000".toList, "us-east-1".toList, ⟨"_service_name".toList, by decide⟩, none⟩]
    exact absurd hrefines (by decide +kernel)

end LocalStack.Services.Stores
