import LocalStack.Aws.Accounts
import LocalStack.Lib.Stateful
import Mathlib.Logic.Function.Basic

/-! The stores of the providers: `services/stores.py`. Stores share data by
references to one dictionary, so dictionaries, store objects and region bundles
are numbered objects of a heap here, and reading an attribute follows Python's
lookup: a descriptor of the class comes before the instance's own `__dict__`. -/

namespace LocalStack.Services.Stores
open LocalStack.OrderedDict LocalStack.Text LocalStack.Regex LocalStack.Stateful
open LocalStack.Aws.Accounts (twelveDigits)

variable {ν α : Type}

def LOCAL_ATTR_PREFIX : Str := "attr_".toList

/-! ## Objects -/

/-- What a name or a dictionary entry can refer to: a value of a provider, one of the
shared dictionaries, or a string. -/
inductive Value (ν : Type)
  | user (v : ν)
  | dict (ref : Nat)
  | str (s : Str)
  deriving DecidableEq, Repr

/-- A default is a value, or a callable whose calls are numbered over the whole run:
`dict` and `list` give a new object at each of them. -/
inductive Default (ν : Type)
  | scalar (v : ν)
  | callable (f : Nat → ν)

inductive Kind
  | localAttribute
  | crossRegionAttribute
  | crossAccountAttribute
  deriving DecidableEq, Repr

structure Descriptor (ν : Type) where
  kind : Kind
  default : Default ν

/-- A subclass of `BaseStore` and its descriptors. Names with two leading underscores
are left out: they can change how Python looks attributes up. -/
structure StoreClass (ν : Type) where
  name : Str
  attributes : Dict Str (Descriptor ν)
  no_special_names : ∀ n ∈ Dict.keys attributes, ¬"__".toList <+: n

/-- `_global` and `_universal` are references to shared dictionaries, and `stores` are
the bundle's own entries. -/
structure RegionBundle where
  account_id : Str
  stores : Dict Str Nat
  _global : Nat
  _universal : Nat

/-- The heap and the entries of the `AccountRegionBundle`. Its own `_universal` is
dictionary 0. -/
structure World (ν : Type) where
  dicts : Nat → Dict Str (Value ν)
  nextDict : Nat
  objects : Nat → Dict Str (Value ν)
  nextObject : Nat
  regionBundles : Nat → RegionBundle
  nextBundle : Nat
  accounts : Dict Str Nat
  calls : Nat

/-- An `AccountRegionBundle` just created. -/
def initial : World ν where
  dicts := fun _ => []
  nextDict := 1
  objects := fun _ => []
  nextObject := 0
  regionBundles := fun _ => ⟨[], [], 0, 0⟩
  nextBundle := 0
  accounts := []
  calls := 0

/-- What the bundle is created with, and the configuration. `valid_regions` is the
result of `get_valid_regions_for_service`, which asks boto3. -/
structure Config (ν : Type) where
  service_name : Str
  store : StoreClass ν
  validate : Bool
  ALLOW_NONSTANDARD_REGIONS : Bool
  valid_regions : List Str

inductive PyError
  | attributeError (text : Str)
  | recursionError
  | typeError
  | keyError
  | valueError (text : Str)
  deriving DecidableEq, Repr

/-- An exception keeps what was written before it. -/
abbrev Py (ν α : Type) := EStateM PyError (World ν) α

/-! ## Dictionaries and attributes -/

def call (d : Default ν) : Py ν (Value ν) :=
  match d with
  | .scalar v => pure (.user v)
  | .callable f => do
    let w ← get
    set { w with calls := w.calls + 1 }
    return .user (f w.calls)

/-- `n in d`. -/
def contains (d : Value ν) (n : Str) : Py ν Bool :=
  match d with
  | .dict i => return (Dict.get ((← get).dicts i) n).isSome
  | _ => throw .typeError

/-- `d[n]`. -/
def getItem (d : Value ν) (n : Str) : Py ν (Value ν) :=
  match d with
  | .dict i => do
    match Dict.get ((← get).dicts i) n with
    | some v => return v
    | none => throw .keyError
  | _ => throw .typeError

def World.setEntry (w : World ν) (i : Nat) (n : Str) (v : Value ν) : World ν :=
  { w with dicts := Function.update w.dicts i (Dict.set (w.dicts i) n v) }

/-- `d[n] = v`. -/
def setItem (d : Value ν) (n : Str) (v : Value ν) : Py ν Unit :=
  match d with
  | .dict i => modify (·.setEntry i n v)
  | _ => throw .typeError

/-- `hasattr`, given the lookup: any other exception than `AttributeError` passes. -/
def hasattr (read : Py ν α) : Py ν Bool := fun w =>
  match read.run w with
  | .ok _ w' => .ok true w'
  | .error (.attributeError _) w' => .ok false w'
  | .error e w' => .error e w'

/-- The default of a local attribute that the store does not have yet. -/
def LocalAttribute.fill (read : Py ν (Value ν)) (write : Value ν → Py ν Unit) (d : Default ν) :
    Py ν Unit := do
  if ← hasattr read then return ()
  else write (← call d)

/-- `LocalAttribute.__get__`, given the lookup of `self.name` in the store. -/
def LocalAttribute.get (read : Py ν (Value ν)) (write : Value ν → Py ν Unit) (d : Default ν) :
    Py ν (Value ν) := do
  LocalAttribute.fill read write d
  read

/-- `_check_region_store_association` and `_check_account_store_association`, given the
lookup of the shared dictionary. -/
def checkAssociation (text : Str) (read : Py ν (Value ν)) : Py ν Unit := do
  if ← hasattr read then return ()
  else throw (.attributeError text)

def sharedFill (n : Str) (read : Py ν (Value ν)) (d : Default ν) : Py ν Unit := do
  if ← contains (← read) n then return ()
  else
    let v ← call d
    setItem (← read) n v

/-- `__get__` of the two shared kinds. -/
def sharedGet (text : Str) (n : Str) (read : Py ν (Value ν)) (d : Default ν) :
    Py ν (Value ν) := do
  checkAssociation text read
  sharedFill n read d
  getItem (← read) n

/-- `__set__` of the two shared kinds. -/
def sharedSet (text : Str) (n : Str) (read : Py ν (Value ν)) (v : Value ν) : Py ν Unit := do
  checkAssociation text read
  setItem (← read) n v

def noRegionBundle : Str :=
  ("Could not resolve cross-region attribute because there is no associated " ++
    "RegionBundle").toList

def noAccountRegionBundle : Str :=
  ("Could not resolve cross-account attribute because there is no associated " ++
    "AccountRegionBundle").toList

def CrossRegionAttribute.get (n : Str) (read : Py ν (Value ν)) (d : Default ν) :
    Py ν (Value ν) :=
  sharedGet noRegionBundle n read d

def CrossRegionAttribute.set (n : Str) (read : Py ν (Value ν)) (v : Value ν) : Py ν Unit :=
  sharedSet noRegionBundle n read v

def CrossAccountAttribute.get (n : Str) (read : Py ν (Value ν)) (d : Default ν) :
    Py ν (Value ν) :=
  sharedGet noAccountRegionBundle n read d

def CrossAccountAttribute.set (n : Str) (read : Py ν (Value ν)) (v : Value ν) : Py ν Unit :=
  sharedSet noAccountRegionBundle n read v

/-! The names of the attributes that a bundle sets on a new store. -/

def globalAttr : Str := "_global".toList
def universalAttr : Str := "_universal".toList
def serviceNameAttr : Str := "_service_name".toList
def accountIdAttr : Str := "_account_id".toList
def regionNameAttr : Str := "_region_name".toList

/-- The text of Python's own `AttributeError`. -/
def noAttribute (cls : StoreClass ν) (n : Str) : Str :=
  "'".toList ++ cls.name ++ "' object has no attribute '".toList ++ n ++ "'".toList

def World.setAttr (w : World ν) (obj : Nat) (n : Str) (v : Value ν) : World ν :=
  { w with objects := Function.update w.objects obj (Dict.set (w.objects obj) n v) }

/-- The lookup in the store's own `__dict__`. -/
def instanceGet (cls : StoreClass ν) (obj : Nat) (n : Str) : Py ν (Value ν) := fun w =>
  match Dict.get (w.objects obj) n with
  | some v => .ok v w
  | none => .error (.attributeError (noAttribute cls n)) w

mutual

/-- `getattr(obj, n)`. The descriptors look other names up, so the lookup is recursive;
when it runs out of `fuel`, some name has come up twice and Python recurses without
end. -/
def getattr (cls : StoreClass ν) : Nat → Nat → Str → Py ν (Value ν)
  | 0, _, _ => throw .recursionError
  | fuel + 1, obj, n =>
    match Dict.get cls.attributes n with
    | some ⟨.localAttribute, d⟩ =>
      LocalAttribute.get (getattr cls fuel obj (LOCAL_ATTR_PREFIX ++ n))
        (setattr cls fuel obj (LOCAL_ATTR_PREFIX ++ n)) d
    | some ⟨.crossRegionAttribute, d⟩ =>
      CrossRegionAttribute.get n (getattr cls fuel obj globalAttr) d
    | some ⟨.crossAccountAttribute, d⟩ =>
      CrossAccountAttribute.get n (getattr cls fuel obj universalAttr) d
    | none => instanceGet cls obj n

/-- `setattr(obj, n, v)`. -/
def setattr (cls : StoreClass ν) : Nat → Nat → Str → Value ν → Py ν Unit
  | 0, _, _, _ => throw .recursionError
  | fuel + 1, obj, n, v =>
    match Dict.get cls.attributes n with
    | some ⟨.localAttribute, _⟩ => setattr cls fuel obj (LOCAL_ATTR_PREFIX ++ n) v
    | some ⟨.crossRegionAttribute, _⟩ =>
      CrossRegionAttribute.set n (getattr cls fuel obj globalAttr) v
    | some ⟨.crossAccountAttribute, _⟩ =>
      CrossAccountAttribute.set n (getattr cls fuel obj universalAttr) v
    | none => modify (·.setAttr obj n v)

end

/-- One lookup for each descriptor, and one in the instance. -/
def StoreClass.depth (cls : StoreClass ν) : Nat := cls.attributes.length + 1

def readAttr (cls : StoreClass ν) (obj : Nat) (n : Str) : Py ν (Value ν) :=
  getattr cls cls.depth obj n

def writeAttr (cls : StoreClass ν) (obj : Nat) (n : Str) (v : Value ν) : Py ν Unit :=
  setattr cls cls.depth obj n v

/-! ## Bundles -/

def invalidRegion (cfg : Config ν) (region_name : Str) : PyError :=
  .valueError ("'".toList ++ region_name ++ "' is not a valid AWS region name for ".toList ++
    cfg.service_name)

def invalidAccount (account_id : Str) : PyError :=
  .valueError ("'".toList ++ account_id ++ "' is not a valid AWS account ID".toList)

/-- A new store for `region_name`. -/
def RegionBundle.addStore (cfg : Config ν) (b : Nat) (region_name : Str) : Py ν Unit := do
  let self := (← get).regionBundles b
  let store_obj := (← get).nextObject
  modify fun w => { w with
    objects := Function.update w.objects store_obj [], nextObject := store_obj + 1 }
  writeAttr cfg.store store_obj globalAttr (.dict self._global)
  writeAttr cfg.store store_obj universalAttr (.dict self._universal)
  writeAttr cfg.store store_obj serviceNameAttr (.str cfg.service_name)
  writeAttr cfg.store store_obj accountIdAttr (.str self.account_id)
  writeAttr cfg.store store_obj regionNameAttr (.str region_name)
  modify fun w => { w with
    regionBundles := Function.update w.regionBundles b
      { w.regionBundles b with
        stores := Dict.set (w.regionBundles b).stores region_name store_obj } }

/-- The locked part of `RegionBundle.__getitem__`. -/
def RegionBundle.ensure (cfg : Config ν) (b : Nat) (region_name : Str) : Py ν Unit := do
  if (Dict.get ((← get).regionBundles b).stores region_name).isNone then
    RegionBundle.addStore cfg b region_name
  else return ()

/-- `super().__getitem__`. -/
def lookup (d : Dict Str Nat) (k : Str) : Py ν Nat :=
  match Dict.get d k with
  | some i => return i
  | none => throw .keyError

/-- `RegionBundle.__getitem__`; the result is the store object. -/
def RegionBundle.getitem (cfg : Config ν) (b : Nat) (region_name : Str) : Py ν Nat :=
  if !cfg.ALLOW_NONSTANDARD_REGIONS && cfg.validate && !cfg.valid_regions.contains region_name then
    throw (invalidRegion cfg region_name)
  else do
    RegionBundle.ensure cfg b region_name
    lookup ((← get).regionBundles b).stores region_name

/-- A new `RegionBundle`, with its `_global`, for `account_id`. -/
def World.addBundle (w : World ν) (account_id : Str) : World ν :=
  { w with
    dicts := Function.update w.dicts w.nextDict [], nextDict := w.nextDict + 1
    regionBundles := Function.update w.regionBundles w.nextBundle ⟨account_id, [], w.nextDict, 0⟩
    nextBundle := w.nextBundle + 1
    accounts := Dict.set w.accounts account_id w.nextBundle }

/-- The locked part of `AccountRegionBundle.__getitem__`. -/
def AccountRegionBundle.ensure (account_id : Str) : Py ν Unit := do
  if (Dict.get (← get).accounts account_id).isNone then modify (·.addBundle account_id)
  else return ()

/-- `AccountRegionBundle.__getitem__`; the result is the region bundle. -/
def AccountRegionBundle.getitem (cfg : Config ν) (account_id : Str) : Py ν Nat :=
  if cfg.validate && !(twelveDigits.match_ account_id).isSome then
    throw (invalidAccount account_id)
  else do
    AccountRegionBundle.ensure account_id
    lookup (← get).accounts account_id

/-- `d.clear()`. -/
def clear (d : Value ν) : Py ν Unit :=
  match d with
  | .dict i => modify fun w => { w with dicts := Function.update w.dicts i [] }
  | _ => throw (.attributeError "object has no attribute 'clear'".toList)

/-- `delattr(obj, n)`; the descriptors have no `__delete__`. -/
def delattr (cls : StoreClass ν) (obj : Nat) (n : Str) : Py ν Unit := do
  if (Dict.get cls.attributes n).isSome then throw (.attributeError "__delete__".toList)
  else if (Dict.get ((← get).objects obj) n).isSome then
    modify fun w => { w with
      objects := Function.update w.objects obj (Dict.erase (w.objects obj) n) }
  else throw (.attributeError (noAttribute cls n))

/-- One name of a store's `__dict__` in `RegionBundle.reset`: the cross-region
attributes, which the other branches do not exclude. -/
def resetGlobal (cls : StoreClass ν) (store_inst : Nat) (attr : Str) : Py ν Unit := do
  if attr = globalAttr then clear (← readAttr cls store_inst globalAttr)
  else return ()

/-- The cross-account attributes, or else a local attribute. -/
def resetOther (cls : StoreClass ν) (_reset_universal : Bool) (store_inst : Nat) (attr : Str) :
    Py ν Unit := do
  if attr = universalAttr ∧ _reset_universal then
    clear (← readAttr cls store_inst universalAttr)
  else if LOCAL_ATTR_PREFIX.isPrefixOf attr then delattr cls store_inst attr
  else return ()

def resetAttr (cls : StoreClass ν) (_reset_universal : Bool) (store_inst : Nat) (attr : Str) :
    Py ν Unit := do
  resetGlobal cls store_inst attr
  resetOther cls _reset_universal store_inst attr

/-- All names of a store's `__dict__`. -/
def resetStore (cls : StoreClass ν) (_reset_universal : Bool) (store_inst : Nat) :
    Py ν Unit := do
  (Dict.keys ((← get).objects store_inst)).forM (resetAttr cls _reset_universal store_inst)

def RegionBundle.reset (cfg : Config ν) (_reset_universal : Bool) (b : Nat) : Py ν Unit := do
  ((← get).regionBundles b).stores.forM fun p => resetStore cfg.store _reset_universal p.2
  clear (.dict ((← get).regionBundles b)._global)
  modify fun w => { w with
    regionBundles := Function.update w.regionBundles b { w.regionBundles b with stores := [] } }

def AccountRegionBundle.reset (cfg : Config ν) : Py ν Unit := do
  (← get).accounts.forM fun p => RegionBundle.reset cfg true p.2
  clear (.dict 0)
  modify fun w => { w with accounts := [] }

/-! ## Runs -/

/-- The declared attributes of a store class. -/
abbrev StoreClass.Attr (cls : StoreClass ν) := { n : Str // n ∈ Dict.keys cls.attributes }

/-- What a client does. Stores and region bundles that were obtained once can be kept
and used later. -/
inductive Op (cls : StoreClass ν)
  | bundle (account_id : Str)
  | store (b : Nat) (region_name : Str)
  | read (obj : Nat) (n : cls.Attr)
  | write (obj : Nat) (n : cls.Attr) (v : ν)
  | resetRegions (b : Nat) (_reset_universal : Bool)
  | reset

/-- The objects that `op` uses have been obtained before. -/
def Op.Obtained {cls : StoreClass ν} (op : Op cls) (w : World ν) : Prop :=
  match op with
  | .store b _ | .resetRegions b _ => b < w.nextBundle
  | .read obj _ | .write obj _ _ => obj < w.nextObject
  | .bundle _ | .reset => True

instance {cls : StoreClass ν} (op : Op cls) (w : World ν) : Decidable (op.Obtained w) :=
  match op with
  | .store b _ | .resetRegions b _ => inferInstanceAs (Decidable (b < w.nextBundle))
  | .read obj _ | .write obj _ _ => inferInstanceAs (Decidable (obj < w.nextObject))
  | .bundle _ | .reset => inferInstanceAs (Decidable True)

def Op.run (cfg : Config ν) : Op cfg.store → World ν → World ν
  | .bundle a => after (AccountRegionBundle.getitem cfg a)
  | .store b r => after (RegionBundle.getitem cfg b r)
  | .read obj n => after (readAttr cfg.store obj n)
  | .write obj n v => after (writeAttr cfg.store obj n (.user v))
  | .resetRegions b u => after (RegionBundle.reset cfg u b)
  | .reset => after (AccountRegionBundle.reset cfg)

def step (cfg : Config ν) (w : World ν) (op : Op cfg.store) : Option (World ν) :=
  if op.Obtained w then some (op.run cfg w) else none

/-! ## Paths -/

/-- `bundle[account_id][region_name]`. -/
def path (cfg : Config ν) (account_id region_name : Str) : Py ν Nat := do
  RegionBundle.getitem cfg (← AccountRegionBundle.getitem cfg account_id) region_name

/-- `bundle[account_id][region_name].n`. -/
def readPath (cfg : Config ν) (account_id region_name : Str) (n : Str) : Py ν (Value ν) := do
  readAttr cfg.store (← path cfg account_id region_name) n

/-- `bundle[account_id][region_name].n = v`. -/
def writePath (cfg : Config ν) (account_id region_name : Str) (n : Str) (v : ν) :
    Py ν Unit := do
  writeAttr cfg.store (← path cfg account_id region_name) n (.user v)

/-! ## Defaults -/

def Default.value (d : Default ν) (calls : Nat) : Value ν :=
  match d with
  | .scalar v => .user v
  | .callable f => .user (f calls)

/-- The number of calls after the default has been used. -/
def Default.next (d : Default ν) (calls : Nat) : Nat :=
  match d with
  | .scalar _ => calls
  | .callable _ => calls + 1

theorem call_eq (d : Default ν) (w : World ν) :
    (call d).run w = .ok (d.value w.calls) { w with calls := d.next w.calls } := by
  cases d <;> rfl

/-! ## Cells -/

/-- Where an attribute is kept: under its prefixed name in the store object, or in
a shared dictionary. -/
inductive Cell
  | attr (obj : Nat) (n : Str)
  | entry (dict : Nat) (n : Str)
  deriving DecidableEq, Repr

def World.cell (w : World ν) : Cell → Option (Value ν)
  | .attr obj n => Dict.get (w.objects obj) (LOCAL_ATTR_PREFIX ++ n)
  | .entry i n => Dict.get (w.dicts i) n

def World.setCell (w : World ν) : Cell → Value ν → World ν
  | .attr obj n, v => w.setAttr obj (LOCAL_ATTR_PREFIX ++ n) v
  | .entry i n, v => w.setEntry i n v

theorem cell_setCell (w : World ν) (c c' : Cell) (v : Value ν) :
    (w.setCell c v).cell c' = if c = c' then some v else w.cell c' := by
  cases c with
  | attr obj n =>
    cases c' with
    | attr obj' n' =>
      by_cases h : obj' = obj
      · subst h
        simp [World.setCell, World.setAttr, World.cell, Dict.get_set]
      · simp [World.setCell, World.setAttr, World.cell, Function.update_of_ne h, Ne.symm h]
    | entry i n' => simp [World.setCell, World.setAttr, World.cell]
  | entry i n =>
    cases c' with
    | attr obj' n' => simp [World.setCell, World.setEntry, World.cell]
    | entry i' n' =>
      by_cases h : i' = i
      · subst h
        simp [World.setCell, World.setEntry, World.cell, Dict.get_set]
      · simp [World.setCell, World.setEntry, World.cell, Function.update_of_ne h, Ne.symm h]

/-- The cell of attribute `n` in a store whose region bundle shares dictionary `g`. -/
def Kind.cell (k : Kind) (obj g : Nat) (n : Str) : Cell :=
  match k with
  | .localAttribute => .attr obj n
  | .crossRegionAttribute => .entry g n
  | .crossAccountAttribute => .entry 0 n

/-- A read finds a value in the cell, or fills it with the default. -/
def readCell (c : Cell) (d : Default ν) : Py ν (Value ν) := fun w =>
  match w.cell c with
  | some v => .ok v w
  | none => .ok (d.value w.calls)
      ({ w with calls := d.next w.calls }.setCell c (d.value w.calls))

/-! ## Attributes are cells -/

def ownAttrs : List Str :=
  [globalAttr, universalAttr, serviceNameAttr, accountIdAttr, regionNameAttr]

/-- No descriptor takes a name that the bundles set themselves, nor the name under
which another one keeps its local value. -/
structure StoreClass.Ordinary (cls : StoreClass ν) : Prop where
  own : ∀ n ∈ ownAttrs, n ∉ Dict.keys cls.attributes
  prefixed : ∀ p ∈ cls.attributes, p.2.kind = .localAttribute →
    LOCAL_ATTR_PREFIX ++ p.1 ∉ Dict.keys cls.attributes

variable {cls : StoreClass ν} {w w' : World ν} {obj g fuel : Nat} {n : Str} {v : Value ν}

def StoreClass.descriptor (cls : StoreClass ν) (n : cls.Attr) : Descriptor ν :=
  (Dict.get cls.attributes n.1).get
    (Option.isSome_iff_ne_none.mpr fun h => (Dict.get_eq_none_iff _ _).mp h n.2)

theorem get_attributes (n : cls.Attr) :
    Dict.get cls.attributes n.1 = some (cls.descriptor n) :=
  (Option.some_get _).symm

theorem hasattr_ok {x : Py ν α} {a : α} (h : x.run w = .ok a w') :
    (hasattr x).run w = .ok true w' := by
  simp only [EStateM.run] at h
  simp only [EStateM.run, hasattr, h]

theorem hasattr_missing {x : Py ν α} {text : Str}
    (h : x.run w = .error (.attributeError text) w') : (hasattr x).run w = .ok false w' := by
  simp only [EStateM.run] at h
  simp only [EStateM.run, hasattr, h]

theorem getItem_ok (h : w.cell (.entry g n) = some v) :
    (getItem (.dict g) n).run w = .ok v w := by
  rw [World.cell] at h
  simp [getItem, h]

theorem getattr_plain (hn : n ∉ Dict.keys cls.attributes) :
    getattr cls (fuel + 1) obj n = instanceGet cls obj n := by
  simp only [getattr, (Dict.get_eq_none_iff _ _).mpr hn]

section Declared

variable {d : Descriptor ν} (h : Dict.get cls.attributes n = some d)
include h

theorem getattr_local (hk : d.kind = .localAttribute) : getattr cls (fuel + 1) obj n =
    LocalAttribute.get (getattr cls fuel obj (LOCAL_ATTR_PREFIX ++ n))
      (setattr cls fuel obj (LOCAL_ATTR_PREFIX ++ n)) d.default := by
  obtain ⟨kind, default⟩ := d
  subst hk
  simp only [getattr, h]

theorem getattr_crossRegion (hk : d.kind = .crossRegionAttribute) :
    getattr cls (fuel + 1) obj n =
      CrossRegionAttribute.get n (getattr cls fuel obj globalAttr) d.default := by
  obtain ⟨kind, default⟩ := d
  subst hk
  simp only [getattr, h]

theorem getattr_crossAccount (hk : d.kind = .crossAccountAttribute) :
    getattr cls (fuel + 1) obj n =
      CrossAccountAttribute.get n (getattr cls fuel obj universalAttr) d.default := by
  obtain ⟨kind, default⟩ := d
  subst hk
  simp only [getattr, h]

theorem setattr_local (hk : d.kind = .localAttribute) : setattr cls (fuel + 1) obj n v =
    setattr cls fuel obj (LOCAL_ATTR_PREFIX ++ n) v := by
  obtain ⟨kind, default⟩ := d
  subst hk
  simp only [setattr, h]

theorem setattr_crossRegion (hk : d.kind = .crossRegionAttribute) :
    setattr cls (fuel + 1) obj n v =
      CrossRegionAttribute.set n (getattr cls fuel obj globalAttr) v := by
  obtain ⟨kind, default⟩ := d
  subst hk
  simp only [setattr, h]

theorem setattr_crossAccount (hk : d.kind = .crossAccountAttribute) :
    setattr cls (fuel + 1) obj n v =
      CrossAccountAttribute.set n (getattr cls fuel obj universalAttr) v := by
  obtain ⟨kind, default⟩ := d
  subst hk
  simp only [setattr, h]

end Declared

theorem setattr_plain (hn : n ∉ Dict.keys cls.attributes) :
    (setattr cls (fuel + 1) obj n v).run w = .ok () (w.setAttr obj n v) := by
  simp [setattr, (Dict.get_eq_none_iff _ _).mpr hn]

theorem instanceGet_some (cls : StoreClass ν) (h : Dict.get (w.objects obj) n = some v) :
    (instanceGet cls obj n).run w = .ok v w := by
  simp only [EStateM.run, instanceGet, h]

theorem instanceGet_none (cls : StoreClass ν) (h : Dict.get (w.objects obj) n = none) :
    (instanceGet cls obj n).run w = .error (.attributeError (noAttribute cls n)) w := by
  simp only [EStateM.run, instanceGet, h]

theorem readCell_some {c : Cell} {d : Default ν} (h : w.cell c = some v) :
    (readCell c d).run w = .ok v w := by
  simp only [EStateM.run, readCell, h]

theorem readCell_none {c : Cell} {d : Default ν} (h : w.cell c = none) :
    (readCell c d).run w = .ok (d.value w.calls)
      ({ w with calls := d.next w.calls }.setCell c (d.value w.calls)) := by
  simp only [EStateM.run, readCell, h]

theorem checkAssociation_ok {text : Str} {read : Py ν (Value ν)} (h : read.run w = .ok v w) :
    (checkAssociation text read).run w = .ok () w := by
  rw [checkAssociation, bind_ok (hasattr_ok h), if_pos rfl]
  rfl

/-- What the descriptors of the two shared kinds do once the reference is there. -/
theorem sharedGet_eq {text : Str} {read : Py ν (Value ν)} {d : Default ν}
    (hread : ∀ w' : World ν, w'.objects = w.objects → read.run w' = .ok (.dict g) w') :
    (sharedGet text n read d).run w = (readCell (.entry g n) d).run w := by
  have hw : read.run w = .ok (.dict g) w := hread w rfl
  have hcontains : (contains (.dict g) n).run w = .ok (w.cell (.entry g n)).isSome w := rfl
  rw [sharedGet, bind_ok (checkAssociation_ok hw)]
  cases hc : w.cell (.entry g n) with
  | some v =>
    have hfill : (sharedFill n read d).run w = .ok () w := by
      rw [sharedFill, bind_ok hw, bind_ok hcontains, hc, if_pos Option.isSome_some]
      rfl
    rw [bind_ok hfill, bind_ok hw, getItem_ok hc, readCell_some hc]
  | none =>
    have hcall := hread { w with calls := d.next w.calls } rfl
    have hfill : (sharedFill n read d).run w = .ok ()
        ({ w with calls := d.next w.calls }.setCell (.entry g n) (d.value w.calls)) := by
      rw [sharedFill, bind_ok hw, bind_ok hcontains, hc, if_neg (by simp), bind_ok (call_eq d w),
        bind_ok hcall]
      rfl
    have hfilled := hread
      ({ w with calls := d.next w.calls }.setCell (.entry g n) (d.value w.calls)) rfl
    rw [bind_ok hfill, bind_ok hfilled, getItem_ok, readCell_none hc]
    rw [cell_setCell, if_pos rfl]

theorem sharedSet_eq {text : Str} {read : Py ν (Value ν)} (hread : read.run w = .ok (.dict g) w) :
    (sharedSet text n read v).run w = .ok () (w.setCell (.entry g n) v) := by
  rw [sharedSet, bind_ok (checkAssociation_ok hread), bind_ok hread]
  rfl

theorem localGet_eq {d : Default ν} {write : Value ν → Py ν Unit}
    (hwrite : ∀ v w', (write v).run w' = .ok () (w'.setCell (.attr obj n) v)) :
    (LocalAttribute.get (instanceGet cls obj (LOCAL_ATTR_PREFIX ++ n)) write d).run w =
      (readCell (.attr obj n) d).run w := by
  rw [LocalAttribute.get]
  cases hc : w.cell (.attr obj n) with
  | some v =>
    have hread := instanceGet_some cls hc
    have hfill : (LocalAttribute.fill (instanceGet cls obj (LOCAL_ATTR_PREFIX ++ n))
        write d).run w = .ok () w := by
      rw [LocalAttribute.fill, bind_ok (hasattr_ok hread), if_pos rfl]
      rfl
    rw [bind_ok hfill, hread, readCell_some hc]
  | none =>
    have hread := instanceGet_none cls hc
    have hfill : (LocalAttribute.fill (instanceGet cls obj (LOCAL_ATTR_PREFIX ++ n))
        write d).run w = .ok ()
          ({ w with calls := d.next w.calls }.setCell (.attr obj n) (d.value w.calls)) := by
      rw [LocalAttribute.fill, bind_ok (hasattr_missing hread), if_neg (by simp),
        bind_ok (call_eq d w), hwrite]
    rw [bind_ok hfill, instanceGet_some, readCell_none hc]
    exact (cell_setCell _ (.attr obj n) _ _).trans (if_pos rfl)

end LocalStack.Services.Stores
