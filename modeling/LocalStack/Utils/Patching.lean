import LocalStack.Lib.Runs
import LocalStack.Lib.Text
import Mathlib.Data.List.Induction
import Mathlib.Data.List.Nodup
import Mathlib.Data.List.Perm.Basic
import Mathlib.Logic.Function.Basic

/-! `Patch` and `Patches` of `utils/patch.py`: objects with attributes, the patches of a run and
the list of those that are applied. -/

namespace LocalStack.Utils.Patching
open LocalStack.Runs LocalStack.Text

/-! ## Attributes -/

/-- How attributes are read: the objects in which a name is looked up after the object itself,
what a value that is found in one object is bound to when another one is asked for it, and which
values are true. A value that was bound to an object is not bound to it again. Data descriptors
and the answer of a class's `__getattr__` for a missing name are left out. -/
structure Objects (Obj Val : Type) where
  parents : Obj → List Obj
  bind : Obj → Obj → Val → Val
  truth : Val → Bool
  bind_bind : ∀ o c v, bind o o (bind o c v) = bind o c v

/-- The attributes that an object has itself. -/
abbrev Slots (Obj Val : Type) := Obj → Str → Option Val

variable {Obj Val : Type} (O : Objects Obj Val)

/-- `getattr`; `none` is an `AttributeError`. -/
def getattr (own : Slots Obj Val) (obj : Obj) (name : Str) : Option Val :=
  (obj :: O.parents obj).findSome? fun c => (own c name).map (O.bind obj c)

section
variable [DecidableEq Obj]

def put (own : Slots Obj Val) (obj : Obj) (name : Str) (slot : Option Val) : Slots Obj Val :=
  fun o n => if o = obj ∧ n = name then slot else own o n

def setattr (own : Slots Obj Val) (obj : Obj) (name : Str) (value : Val) : Slots Obj Val :=
  put own obj name (some value)

def delattr (own : Slots Obj Val) (obj : Obj) (name : Str) : Option (Slots Obj Val) :=
  if own obj name = none then none else some (put own obj name none)

end

/-! ## Patches -/

def GETATTR : Str := "__getattr__".toList

structure Patch (Obj Val : Type) where
  obj : Obj
  name : Str
  old : Option Val
  new : Val

/-- The truth value of `self.old`, which is `None` when there was no attribute. -/
def Patch.oldTrue (p : Patch Obj Val) : Bool := p.old.any O.truth

/-- `Patch.__init__`. -/
def Patch.init (own : Slots Obj Val) (obj : Obj) (name : Str) (new : Val) : Patch Obj Val :=
  ⟨obj, name, getattr O own obj name, new⟩

/-- The patches that exist have numbers; `patches` is the list of the `Patches` object. -/
structure State (Obj Val : Type) where
  own : Slots Obj Val
  created : List (Patch Obj Val)
  is_applied : ℕ → Bool
  applied_patches : List ℕ
  patches : List ℕ

section
variable [DecidableEq Obj]

/-- `Patch.apply`. -/
def apply (s : State Obj Val) (i : ℕ) : Option (State Obj Val) :=
  s.created[i]?.bind fun p =>
    if s.is_applied i = true then some s
    else if p.oldTrue O = true ∧ p.name = GETATTR then none
    else if p.oldTrue O = false ∧ p.name ≠ GETATTR then none
    else some { s with
      own := setattr s.own p.obj p.name p.new
      applied_patches := s.applied_patches ++ [i]
      is_applied := Function.update s.is_applied i true }

/-- The attribute in `Patch.undo`. -/
def Patch.restore (own : Slots Obj Val) (p : Patch Obj Val) : Option (Slots Obj Val) :=
  match p.old with
  | some old => if O.truth old = true then some (setattr own p.obj p.name old)
    else delattr own p.obj p.name
  | none => delattr own p.obj p.name

/-- `Patch.undo`. -/
def undo (s : State Obj Val) (i : ℕ) : Option (State Obj Val) :=
  s.created[i]?.bind fun p =>
    if s.is_applied i = false then some s
    else (p.restore O s.own).bind fun own =>
      if i ∈ s.applied_patches then some { s with
        own := own
        applied_patches := s.applied_patches.erase i
        is_applied := Function.update s.is_applied i false }
      else none

namespace Patches

/-- `Patches.apply`. -/
def apply (s : State Obj Val) : Option (State Obj Val) :=
  s.patches.foldlM (Patching.apply O) s

/-- `Patches.undo`. -/
def undo (s : State Obj Val) : Option (State Obj Val) := s.patches.foldlM (Patching.undo O) s

end Patches

/-! ## Runs -/

inductive Event (Obj Val : Type)
  | create (obj : Obj) (name : Str) (new : Val)
  | add (i : ℕ)
  | apply

/-- Patches are created, added to the list and applied; `first` is the number of the first patch
of the run. -/
def step (first : ℕ) (s : State Obj Val) : Event Obj Val → Option (State Obj Val)
  | .create obj name new =>
    some { s with created := s.created ++ [Patch.init O s.own obj name new] }
  | .add i =>
    if first ≤ i ∧ i < s.created.length then some { s with patches := s.patches ++ [i] } else none
  | .apply => Patches.apply O s

/-- The list is empty, and patches that do not exist yet are not applied. -/
structure Start (s : State Obj Val) : Prop where
  patches : s.patches = []
  is_applied : ∀ i, s.created.length ≤ i → s.is_applied i = false
  applied_patches : ∀ i ∈ s.applied_patches, i < s.created.length

/-- Undoing the patches brings the attributes back, and all is done then. -/
def Restored (s₀ s : State Obj Val) : Prop :=
  ∃ t, Patches.undo O s = some t ∧
    (∀ i ∈ s.patches, ∀ p, s.created[i]? = some p →
      getattr O t.own p.obj p.name = getattr O s₀.own p.obj p.name) ∧
    t.applied_patches = s₀.applied_patches ∧
    Patches.undo O t = some t ∧ Patches.apply O s = some s

end

/-! ## Attributes that are read -/

theorem getattr_congr {own own' : Slots Obj Val} {name : Str} (h : ∀ o, own o name = own' o name)
    (obj : Obj) : getattr O own obj name = getattr O own' obj name := by
  rw [getattr, getattr]
  simp only [h]

theorem getattr_of_own {own : Slots Obj Val} {obj : Obj} {name : Str} {v : Val}
    (h : own obj name = some v) : getattr O own obj name = some (O.bind obj obj v) := by
  rw [getattr, List.findSome?_cons, h]
  rfl

/-- What was read is not bound again. -/
theorem bind_of_getattr {own : Slots Obj Val} {obj : Obj} {name : Str} {v : Val}
    (h : getattr O own obj name = some v) : O.bind obj obj v = v := by
  obtain ⟨c, -, hc⟩ := List.exists_of_findSome?_eq_some h
  obtain ⟨w, -, rfl⟩ := Option.map_eq_some_iff.mp hc
  exact O.bind_bind obj c w

/-! ## Attributes that are written -/

variable [DecidableEq Obj]

theorem put_same (own : Slots Obj Val) (obj : Obj) (name : Str) (slot : Option Val) :
    put own obj name slot obj name = slot := if_pos ⟨rfl, rfl⟩

theorem put_other {own : Slots Obj Val} {obj o : Obj} {name n : Str} (slot : Option Val)
    (h : ¬(o = obj ∧ n = name)) : put own obj name slot o n = own o n := if_neg h

/-- What undoing a patch leaves in the slot. -/
def Patch.back (p : Patch Obj Val) : Option Val := if p.oldTrue O = true then p.old else none

theorem restore_of_true {p : Patch Obj Val} (h : p.oldTrue O = true) (own : Slots Obj Val) :
    p.restore O own = some (put own p.obj p.name (p.back O)) := by
  have hback : p.back O = p.old := if_pos h
  rw [hback, Patch.restore]
  cases hold : p.old with
  | none => simp [Patch.oldTrue, hold] at h
  | some old =>
    rw [Patch.oldTrue, hold] at h
    exact if_pos h

theorem restore_of_false {p : Patch Obj Val} (h : p.oldTrue O = false) (own : Slots Obj Val) :
    p.restore O own =
      if own p.obj p.name = none then none else some (put own p.obj p.name (p.back O)) := by
  have hback : p.back O = none := if_neg (by simp [h])
  rw [hback, Patch.restore]
  cases hold : p.old with
  | none => rfl
  | some old =>
    rw [Patch.oldTrue, hold] at h
    have htruth : ¬O.truth old = true := by simpa using h
    exact if_neg htruth

theorem restore_eq_some {p : Patch Obj Val} {own own' : Slots Obj Val}
    (h : p.restore O own = some own') : own' = put own p.obj p.name (p.back O) := by
  by_cases htrue : p.oldTrue O = true
  · rw [restore_of_true O htrue] at h
    exact (Option.some.inj h).symm
  · rw [restore_of_false O (by simpa using htrue)] at h
    split at h
    · cases h
    · exact (Option.some.inj h).symm

/-! ## Undoing several patches -/

def Patch.Targets (p : Patch Obj Val) (obj : Obj) (name : Str) : Prop := p.obj = obj ∧ p.name = name

instance (p : Patch Obj Val) (obj : Obj) (name : Str) : Decidable (p.Targets obj name) :=
  inferInstanceAs (Decidable (_ ∧ _))

theorem restore_other {p : Patch Obj Val} {own own' : Slots Obj Val} {obj : Obj} {name : Str}
    (h : p.restore O own = some own') (htarget : ¬p.Targets obj name) :
    own' obj name = own obj name := by
  rw [restore_eq_some O h]
  exact put_other _ fun ho => htarget ⟨ho.1.symm, ho.2.symm⟩

/-- The attributes after undoing patches. -/
def restoreAll (ps : List (Patch Obj Val)) (own : Slots Obj Val) : Option (Slots Obj Val) :=
  ps.foldlM (fun own p => p.restore O own) own

theorem restoreAll_other {ps : List (Patch Obj Val)} {own own' : Slots Obj Val} {obj : Obj}
    {name : Str} (h : restoreAll O ps own = some own') (hps : ∀ p ∈ ps, ¬p.Targets obj name) :
    own' obj name = own obj name := by
  induction ps generalizing own with
  | nil => rw [Option.some.inj h]
  | cons p ps ih =>
    obtain ⟨own₁, h₁, h⟩ := Option.bind_eq_some_iff.mp h
    rw [List.forall_mem_cons] at hps
    rw [ih h hps.2, restore_other O h₁ hps.1]

/-- The last write to an attribute stays. -/
theorem restoreAll_last {before after : List (Patch Obj Val)} {q : Patch Obj Val}
    {own own' : Slots Obj Val} (h : restoreAll O (before ++ q :: after) own = some own')
    (hlast : ∀ p ∈ after, ¬p.Targets q.obj q.name) : own' q.obj q.name = q.back O := by
  rw [restoreAll, List.foldlM_append] at h
  obtain ⟨own₁, -, h⟩ := Option.bind_eq_some_iff.mp h
  obtain ⟨own₂, h₂, h⟩ := Option.bind_eq_some_iff.mp h
  rw [restoreAll_other O h hlast, restore_eq_some O h₂, put_same]

theorem exists_last {ps : List (Patch Obj Val)} {p : Patch Obj Val} (hp : p ∈ ps) :
    ∃ before q after, ps = before ++ q :: after ∧ q.obj = p.obj ∧ q.name = p.name ∧
      ∀ r ∈ after, ¬r.Targets q.obj q.name := by
  induction ps using List.reverseRecOn with
  | nil => exact absurd hp List.not_mem_nil
  | append_singleton ps r ih =>
    by_cases hr : r.Targets p.obj p.name
    · exact ⟨ps, r, [], rfl, hr.1, hr.2, by simp⟩
    · rcases List.mem_append.mp hp with hp | hp
      · obtain ⟨before, q, after, rfl, hobj, hname, hafter⟩ := ih hp
        refine ⟨before, q, after ++ [r], by simp, hobj, hname, ?_⟩
        intro s hs
        rcases List.mem_append.mp hs with hs | hs
        · exact hafter s hs
        · rwa [List.mem_singleton.mp hs, hobj, hname]
      · rw [List.mem_singleton.mp hp] at hr
        exact absurd ⟨rfl, rfl⟩ hr

/-! ## Attributes that are removed -/

/-- Which patches remove their attribute. -/
def Kinds (ps : List (Patch Obj Val)) : Prop := ∀ p ∈ ps, p.oldTrue O = true ↔ p.name ≠ GETATTR

/-- The attributes that are to be removed are there. -/
def Present (ps : List (Patch Obj Val)) (own : Slots Obj Val) : Prop :=
  ∀ p ∈ ps, p.name = GETATTR → own p.obj GETATTR ≠ none

/-- `__getattr__` is patched once in an object. -/
def Once (ps : List (Patch Obj Val)) : Prop :=
  ps.Pairwise fun p q => p.name = GETATTR → q.name = GETATTR → p.obj ≠ q.obj

theorem restoreAll_missing {ps : List (Patch Obj Val)} (hkinds : Kinds O ps)
    {q : Patch Obj Val} (hq : q ∈ ps) (hname : q.name = GETATTR) {own : Slots Obj Val}
    (hown : own q.obj GETATTR = none) : restoreAll O ps own = none := by
  induction ps generalizing own with
  | nil => exact absurd hq List.not_mem_nil
  | cons p ps ih =>
    rw [Kinds, List.forall_mem_cons] at hkinds
    rw [restoreAll, List.foldlM_cons, Option.bind_eq_bind, Option.bind_eq_none_iff]
    intro own₁ h₁
    by_cases htarget : p.Targets q.obj GETATTR
    · have hfalse : p.oldTrue O = false := by
        rw [Bool.eq_false_iff]
        exact fun htrue => (hkinds.1.mp htrue) htarget.2
      rw [restore_of_false O hfalse, htarget.1, htarget.2, if_pos hown] at h₁
      cases h₁
    · rcases List.mem_cons.mp hq with rfl | hq
      · exact absurd ⟨rfl, hname⟩ htarget
      · exact ih hkinds.2 hq (by rw [restore_other O h₁ htarget, hown])

/-- Undoing fails where an attribute would be removed twice, and nowhere else. -/
theorem restoreAll_isSome_iff {ps : List (Patch Obj Val)} (hkinds : Kinds O ps)
    {own : Slots Obj Val} (hpresent : Present ps own) :
    (∃ own', restoreAll O ps own = some own') ↔ Once ps := by
  induction ps generalizing own with
  | nil => exact ⟨fun _ => List.Pairwise.nil, fun _ => ⟨own, rfl⟩⟩
  | cons p ps ih =>
    rw [Kinds, List.forall_mem_cons] at hkinds
    rw [Present, List.forall_mem_cons] at hpresent
    rw [Once, List.pairwise_cons]
    have hsome : p.restore O own = some (put own p.obj p.name (p.back O)) := by
      by_cases htrue : p.oldTrue O = true
      · exact restore_of_true O htrue own
      · have hname : p.name = GETATTR := by
          by_contra hname
          exact htrue (hkinds.1.mpr hname)
        rw [restore_of_false O (by simpa using htrue), hname, if_neg (hpresent.1 hname)]
    have hcons : restoreAll O (p :: ps) own =
        restoreAll O ps (put own p.obj p.name (p.back O)) := by
      rw [restoreAll, List.foldlM_cons, hsome]
      rfl
    rw [hcons]
    by_cases hclash : ∃ q ∈ ps, q.name = GETATTR ∧ p.Targets q.obj GETATTR
    · -- the slot is empty when the second patch is undone
      obtain ⟨q, hq, hname, htarget⟩ := hclash
      have hfalse : ¬p.oldTrue O = true := fun htrue => (hkinds.1.mp htrue) htarget.2
      have hempty : put own p.obj p.name (p.back O) q.obj GETATTR = none := by
        rw [← htarget.1, ← htarget.2, put_same, Patch.back, if_neg hfalse]
      rw [restoreAll_missing O hkinds.2 hq hname hempty]
      constructor
      · rintro ⟨own', h⟩
        cases h
      · exact fun h => absurd htarget.1 (h.1 q hq htarget.2 hname)
    · have hpresent' : Present ps (put own p.obj p.name (p.back O)) := by
        intro q hq hname
        rw [put_other _ fun h => hclash ⟨q, hq, hname, h.1.symm, h.2.symm⟩]
        exact hpresent.2 q hq hname
      rw [ih hkinds.2 hpresent', Once]
      constructor
      · exact fun h => ⟨fun q hq hp hname hobj => hclash ⟨q, hq, hname, hobj, hp⟩, h⟩
      · exact fun h => h.2

/-! ## Attributes that are brought back -/

/-- The slots without those that are removed. -/
def without (ps : List (Patch Obj Val)) (own : Slots Obj Val) : Slots Obj Val :=
  fun o n => if n = GETATTR ∧ ∃ p ∈ ps, p.Targets o GETATTR then none else own o n

/-- When undoing the patches in the order of the list brings `own₀` back: the last patch of an
attribute captured its first value, and `__getattr__` is patched once in an object whose own slot
made no difference. -/
structure Captured (own₀ : Slots Obj Val) (ps : List (Patch Obj Val)) : Prop where
  last : ∀ before q after, ps = before ++ q :: after → q.name ≠ GETATTR →
    (∀ p ∈ after, ¬p.Targets q.obj q.name) → q.old = getattr O own₀ q.obj q.name
  once : Once ps
  missing : ∀ p ∈ ps, p.name = GETATTR →
    getattr O (without ps own₀) p.obj GETATTR = getattr O own₀ p.obj GETATTR

/-- The old values of the patches were read. -/
def Bound (ps : List (Patch Obj Val)) : Prop :=
  ∀ p ∈ ps, ∀ v, p.old = some v → O.bind p.obj p.obj v = v

/-- Attributes that no patch targets are as they were. -/
def Untouched (own₀ : Slots Obj Val) (ps : List (Patch Obj Val)) (own : Slots Obj Val) : Prop :=
  ∀ obj name, (∀ p ∈ ps, ¬p.Targets obj name) → own obj name = own₀ obj name

theorem getattr_restored {ps : List (Patch Obj Val)} (hkinds : Kinds O ps) (hbound : Bound O ps)
    {own own' : Slots Obj Val} {before after : List (Patch Obj Val)} {q : Patch Obj Val}
    (hps : ps = before ++ q :: after) (h : restoreAll O ps own = some own')
    (hname : q.name ≠ GETATTR) (hlast : ∀ p ∈ after, ¬p.Targets q.obj q.name) :
    getattr O own' q.obj q.name = q.old := by
  have hq : q ∈ ps := by simp [hps]
  have htrue : q.oldTrue O = true := (hkinds q hq).mpr hname
  rw [hps] at h
  have hslot := restoreAll_last O h hlast
  rw [Patch.back, if_pos htrue] at hslot
  cases hold : q.old with
  | none => simp [Patch.oldTrue, hold] at htrue
  | some v =>
    rw [hold] at hslot
    rw [getattr_of_own O hslot, hbound q hq v hold]

theorem restoreAll_getattr {ps : List (Patch Obj Val)} (hkinds : Kinds O ps)
    {own₀ own own' : Slots Obj Val} (huntouched : Untouched own₀ ps own)
    (h : restoreAll O ps own = some own') (o : Obj) :
    own' o GETATTR = without ps own₀ o GETATTR := by
  by_cases htarget : ∃ p ∈ ps, p.Targets o GETATTR
  · rw [without, if_pos ⟨rfl, htarget⟩]
    obtain ⟨p, hp, rfl, hp_name⟩ := htarget
    obtain ⟨before, q, after, rfl, hobj, hname, hlast⟩ := exists_last hp
    rw [hp_name] at hname
    have hslot := restoreAll_last O h hlast
    have hfalse : ¬q.oldTrue O = true := fun htrue => (hkinds q (by simp)).mp htrue hname
    rw [Patch.back, if_neg hfalse, hobj, hname] at hslot
    exact hslot
  · rw [without, if_neg fun hc => htarget hc.2]
    have hps : ∀ p ∈ ps, ¬p.Targets o GETATTR := fun p hp ht => htarget ⟨p, hp, ht⟩
    rw [restoreAll_other O h hps, huntouched o GETATTR hps]

/-- Undoing brings the attributes back just when the patches captured them. -/
theorem restoreAll_iff {ps : List (Patch Obj Val)} (hkinds : Kinds O ps) (hbound : Bound O ps)
    {own₀ own : Slots Obj Val} (hpresent : Present ps own) (huntouched : Untouched own₀ ps own) :
    (∃ own', restoreAll O ps own = some own' ∧
      ∀ p ∈ ps, getattr O own' p.obj p.name = getattr O own₀ p.obj p.name) ↔
      Captured O own₀ ps := by
  constructor
  · rintro ⟨own', h, hback⟩
    refine ⟨?_, (restoreAll_isSome_iff O hkinds hpresent).mp ⟨own', h⟩, ?_⟩
    · intro before q after hps hname hlast
      rw [← hback q (by simp [hps]),
        getattr_restored O hkinds hbound hps h hname hlast]
    · intro p hp hname
      rw [← getattr_congr O (restoreAll_getattr O hkinds huntouched h), ← hname]
      exact hback p hp
  · rintro ⟨hlast, honce, hmissing⟩
    obtain ⟨own', h⟩ := (restoreAll_isSome_iff O hkinds hpresent).mpr honce
    refine ⟨own', h, fun p hp => ?_⟩
    by_cases hname : p.name = GETATTR
    · rw [hname, getattr_congr O (restoreAll_getattr O hkinds huntouched h), hmissing p hp hname]
    · obtain ⟨before, q, after, hps, hobj, hq_name, hafter⟩ := exists_last hp
      rw [← hq_name] at hname
      rw [← hobj, ← hq_name, ← hlast before q after hps hname hafter]
      exact getattr_restored O hkinds hbound hps h hname hafter

/-! ## Undoing the patches of a list -/

/-- The numbers of a list, without those that came before. -/
def firsts : List ℕ → List ℕ
  | [] => []
  | i :: l => i :: (firsts l).filter (· ≠ i)

theorem mem_firsts {l : List ℕ} {i : ℕ} : i ∈ firsts l ↔ i ∈ l := by
  induction l with
  | nil => rfl
  | cons j l ih =>
    rw [firsts, List.mem_cons, List.mem_cons, List.mem_filter, ih, decide_eq_true_eq]
    by_cases h : i = j <;> simp [h]

theorem nodup_firsts (l : List ℕ) : (firsts l).Nodup := by
  induction l with
  | nil => exact List.nodup_nil
  | cons i l ih =>
    rw [firsts, List.nodup_cons]
    exact ⟨by simp, ih.filter _⟩

theorem undo_of_not_applied {s : State Obj Val} {i : ℕ} (hcreated : i < s.created.length)
    (h : s.is_applied i = false) : undo O s i = some s := by
  rw [undo, List.getElem?_eq_getElem hcreated, Option.bind_some, if_pos h]

theorem apply_of_applied {s : State Obj Val} {i : ℕ} (hcreated : i < s.created.length)
    (h : s.is_applied i = true) : apply O s i = some s := by
  rw [apply, List.getElem?_eq_getElem hcreated, Option.bind_some, if_pos h]

theorem undo_of_applied {s : State Obj Val} {i : ℕ} {p : Patch Obj Val}
    (hp : s.created[i]? = some p) (h : s.is_applied i = true) (hmem : i ∈ s.applied_patches) :
    undo O s i = (p.restore O s.own).map fun own => { s with
      own := own
      applied_patches := s.applied_patches.erase i
      is_applied := Function.update s.is_applied i false } := by
  rw [undo, hp, Option.bind_some, if_neg (by simp [h])]
  simp only [if_pos hmem]
  cases p.restore O s.own with
  | none => rfl
  | some own => rfl

/-- What undoing a patch does to the others. -/
theorem undo_frame {s t : State Obj Val} {i : ℕ} (h : undo O s i = some t) :
    t.created = s.created ∧ t.patches = s.patches ∧ i < s.created.length ∧
      t.is_applied i = false ∧ ∀ j, j ≠ i → t.is_applied j = s.is_applied j := by
  obtain ⟨p, hp, h⟩ := Option.bind_eq_some_iff.mp h
  have hlt : i < s.created.length := (List.getElem?_eq_some_iff.mp hp).1
  by_cases happlied : s.is_applied i = false
  · rw [if_pos happlied] at h
    obtain rfl := Option.some.inj h
    exact ⟨rfl, rfl, hlt, happlied, fun j _ => rfl⟩
  · rw [if_neg happlied] at h
    obtain ⟨own, -, h⟩ := Option.bind_eq_some_iff.mp h
    split at h
    · obtain rfl := Option.some.inj h
      exact ⟨rfl, rfl, hlt, Function.update_self .., fun j hj => Function.update_of_ne hj ..⟩
    · cases h

/-- A patch that is not applied may be left out. -/
theorem foldlM_undo_filter {l : List ℕ} {s : State Obj Val} {i : ℕ}
    (hcreated : i < s.created.length) (h : s.is_applied i = false) :
    l.foldlM (undo O) s = (l.filter (· ≠ i)).foldlM (undo O) s := by
  induction l generalizing s with
  | nil => rfl
  | cons j l ih =>
    by_cases hj : j = i
    · rw [List.filter_cons_of_neg (by simp [hj]), List.foldlM_cons, hj,
        undo_of_not_applied O hcreated h]
      exact ih hcreated h
    · rw [List.filter_cons_of_pos (by simpa using hj), List.foldlM_cons, List.foldlM_cons]
      cases hundo : undo O s j with
      | none => rfl
      | some t =>
        obtain ⟨hc, -, -, -, hothers⟩ := undo_frame O hundo
        exact ih (by rwa [hc]) (by rw [hothers i (Ne.symm hj), h])

theorem foldlM_undo_firsts (l : List ℕ) (s : State Obj Val) :
    l.foldlM (undo O) s = (firsts l).foldlM (undo O) s := by
  induction l generalizing s with
  | nil => rfl
  | cons i l ih =>
    rw [firsts, List.foldlM_cons, List.foldlM_cons]
    cases hundo : undo O s i with
    | none => rfl
    | some t =>
      obtain ⟨hc, -, hlt, hdone, -⟩ := undo_frame O hundo
      exact (ih t).trans (foldlM_undo_filter O (by rwa [hc]) hdone)

/-- The state after undoing the patches of a list. -/
def State.undone (s : State Obj Val) (l : List ℕ) (own : Slots Obj Val) : State Obj Val :=
  { s with
    own := own
    applied_patches := s.applied_patches.diff l
    is_applied := fun i => s.is_applied i && decide (i ∉ l) }

/-- Undoing applied patches, each of them once. -/
theorem foldlM_undo_eq {created : List (Patch Obj Val)} {l : List ℕ} {ps : List (Patch Obj Val)}
    (hps : List.Forall₂ (fun i p => created[i]? = some p) l ps) (hnodup : l.Nodup)
    {s : State Obj Val} (hcreated : s.created = created)
    (happlied : ∀ i ∈ l, s.is_applied i = true) (hmem : ∀ i ∈ l, i ∈ s.applied_patches) :
    l.foldlM (undo O) s = (restoreAll O ps s.own).map (s.undone l) := by
  induction hps generalizing s with
  | nil => simp [restoreAll, State.undone]
  | @cons i p l ps hp hps ih =>
    rw [List.forall_mem_cons] at happlied hmem
    obtain ⟨hi, hnodup⟩ := List.nodup_cons.mp hnodup
    rw [← hcreated] at hp
    rw [List.foldlM_cons, undo_of_applied O hp happlied.1 hmem.1, restoreAll, List.foldlM_cons]
    cases p.restore O s.own with
    | none => rfl
    | some own =>
      have hne : ∀ j ∈ l, j ≠ i := fun j hj he => hi (he ▸ hj)
      let t : State Obj Val := { s with
        own := own
        applied_patches := s.applied_patches.erase i
        is_applied := Function.update s.is_applied i false }
      have hrest : l.foldlM (undo O) t = (restoreAll O ps own).map (t.undone l) := by
        refine ih hnodup hcreated ?_ ?_
        · intro j hj
          exact (Function.update_of_ne (hne j hj) ..).trans (happlied.2 j hj)
        · exact fun j hj => (List.mem_erase_of_ne (hne j hj)).mpr (hmem.2 j hj)
      have hundone : t.undone l = s.undone (i :: l) := by
        have hflags : (t.undone l own).is_applied = (s.undone (i :: l) own).is_applied := by
          funext j
          by_cases hj : j = i <;> simp [State.undone, t, hj]
        funext own'
        exact State.mk.injEq .. ▸ ⟨rfl, rfl, hflags, (List.diff_cons ..).symm, rfl⟩
      rw [← hundone]
      exact hrest

/-! ## Invariants of a run -/

/-- The patches `l` of the run are applied. -/
structure Progress (s₀ s : State Obj Val) (l : List ℕ) : Prop where
  first : s₀.created.length ≤ s.created.length
  listed : ∀ i ∈ s.patches, s₀.created.length ≤ i ∧ i < s.created.length
  is_applied : ∀ i, s₀.created.length ≤ i → (s.is_applied i = true ↔ i ∈ l)
  applied_patches : s.applied_patches = s₀.applied_patches ++ l
  nodup : l.Nodup
  subset : l ⊆ s.patches
  bound : ∀ i, s₀.created.length ≤ i → ∀ p, s.created[i]? = some p →
    ∀ v, p.old = some v → O.bind p.obj p.obj v = v
  kinds : ∀ i ∈ l, ∀ p, s.created[i]? = some p → (p.oldTrue O = true ↔ p.name ≠ GETATTR)
  present : ∀ i ∈ l, ∀ p, s.created[i]? = some p → s.own p.obj p.name ≠ none
  untouched : ∀ obj name, (∀ i ∈ l, ∀ p, s.created[i]? = some p → ¬p.Targets obj name) →
    s.own obj name = s₀.own obj name

omit [DecidableEq Obj] in
theorem progress_start {s₀ : State Obj Val} (h : Start s₀) : Progress O s₀ s₀ [] where
  first := le_refl _
  listed := by simp [h.patches]
  is_applied i hi := by simp [h.is_applied i hi]
  applied_patches := (List.append_nil _).symm
  nodup := List.nodup_nil
  subset := List.nil_subset _
  bound i hi p hp := by
    rw [List.getElem?_eq_none hi] at hp
    cases hp
  kinds := by simp
  present := by simp
  untouched _ _ _ := rfl

omit [DecidableEq Obj] in
theorem progress_create {s₀ s : State Obj Val} {l : List ℕ} (h : Progress O s₀ s l) (obj : Obj)
    (name : Str) (new : Val) :
    Progress O s₀ { s with created := s.created ++ [Patch.init O s.own obj name new] } l := by
  have hold : ∀ i ∈ l, (s.created ++ [Patch.init O s.own obj name new])[i]? = s.created[i]? :=
    fun i hi => List.getElem?_append_left (h.listed i (h.subset hi)).2
  refine ⟨?_, ?_, h.is_applied, h.applied_patches, h.nodup, h.subset, ?_, ?_, ?_, ?_⟩
  · rw [List.length_append]
    exact Nat.le_add_right_of_le h.first
  · intro i hi
    rw [List.length_append]
    exact ⟨(h.listed i hi).1, Nat.lt_add_right _ (h.listed i hi).2⟩
  · intro i hi p hp
    rw [List.getElem?_append] at hp
    split at hp
    · exact h.bound i hi p hp
    · rw [List.getElem?_singleton] at hp
      split at hp
      · obtain rfl := Option.some.inj hp
        exact fun v hv => bind_of_getattr O hv
      · cases hp
  · exact fun i hi p hp => h.kinds i hi p ((hold i hi) ▸ hp)
  · exact fun i hi p hp => h.present i hi p ((hold i hi) ▸ hp)
  · exact fun obj name ht => h.untouched obj name fun i hi p hp => ht i hi p ((hold i hi).trans hp)

omit [DecidableEq Obj] in
theorem progress_add {s₀ s : State Obj Val} {l : List ℕ} (h : Progress O s₀ s l) {i : ℕ}
    (hi : s₀.created.length ≤ i ∧ i < s.created.length) :
    Progress O s₀ { s with patches := s.patches ++ [i] } l := by
  refine ⟨h.first, ?_, h.is_applied, h.applied_patches, h.nodup, ?_, h.bound, h.kinds, h.present,
    h.untouched⟩
  · intro j hj
    rcases List.mem_append.mp hj with hj | hj
    · exact h.listed j hj
    · rwa [List.mem_singleton.mp hj]
  · exact fun j hj => List.mem_append_left _ (h.subset hj)

theorem apply_cases {s t : State Obj Val} {i : ℕ} (h : apply O s i = some t) :
    ∃ p, s.created[i]? = some p ∧ ((s.is_applied i = true ∧ t = s) ∨
      (s.is_applied i = false ∧ (p.oldTrue O = true ↔ p.name ≠ GETATTR) ∧ t = { s with
        own := setattr s.own p.obj p.name p.new
        applied_patches := s.applied_patches ++ [i]
        is_applied := Function.update s.is_applied i true })) := by
  obtain ⟨p, hp, h⟩ := Option.bind_eq_some_iff.mp h
  refine ⟨p, hp, ?_⟩
  split at h
  · next happlied => exact .inl ⟨happlied, (Option.some.inj h).symm⟩
  · next happlied =>
    split at h
    · cases h
    · next hhook =>
      split at h
      · cases h
      · next hmissing =>
        refine .inr ⟨by simpa using happlied, ?_, (Option.some.inj h).symm⟩
        constructor
        · exact fun htrue hname => hhook ⟨htrue, hname⟩
        · intro hname
          by_contra hfalse
          exact hmissing ⟨by simpa using hfalse, hname⟩

theorem progress_apply {s₀ s t : State Obj Val} {l : List ℕ} (h : Progress O s₀ s l) {i : ℕ}
    (hi : i ∈ s.patches) (happly : apply O s i = some t) : ∃ l', Progress O s₀ t l' := by
  obtain ⟨p, hp, ⟨-, rfl⟩ | ⟨happlied, hkind, rfl⟩⟩ := apply_cases O happly
  · exact ⟨l, h⟩
  have hil : i ∉ l := by
    rw [← h.is_applied i (h.listed i hi).1, happlied]
    exact Bool.false_ne_true
  have hlast : ∀ {P : ℕ → Prop}, (∀ j ∈ l, P j) → P i → ∀ j ∈ l ++ [i], P j := by
    intro P hl hPi j hj
    rcases List.mem_append.mp hj with hj | hj
    · exact hl j hj
    · rwa [List.mem_singleton.mp hj]
  refine ⟨l ++ [i], h.first, h.listed, ?_, ?_, ?_, ?_, h.bound, ?_, ?_, ?_⟩
  · intro j hj
    by_cases hji : j = i
    · simp [hji]
    · simp only [Function.update_of_ne hji, h.is_applied j hj, List.mem_append, List.mem_singleton,
        hji, or_false]
  · rw [h.applied_patches, List.append_assoc]
  · exact List.nodup_append'.mpr ⟨h.nodup, List.nodup_singleton i, by simpa using hil⟩
  · exact List.append_subset.mpr ⟨h.subset, by simpa using hi⟩
  · refine hlast h.kinds fun q hq => ?_
    obtain rfl := Option.some.inj (hp.symm.trans hq)
    exact hkind
  · refine hlast (fun j hj q hq => ?_) fun q hq => ?_
    · by_cases htarget : q.obj = p.obj ∧ q.name = p.name
      · dsimp only
        rw [htarget.1, htarget.2, setattr, put_same]
        exact Option.some_ne_none _
      · dsimp only
        rw [setattr, put_other _ htarget]
        exact h.present j hj q hq
    · obtain rfl := Option.some.inj (hp.symm.trans hq)
      dsimp only
      rw [setattr, put_same]
      exact Option.some_ne_none _
  · intro obj name ht
    have htp : ¬p.Targets obj name := ht i (by simp) p hp
    dsimp only
    rw [setattr, put_other _ fun ho => htp ⟨ho.1.symm, ho.2.symm⟩]
    exact h.untouched obj name fun j hj => ht j (List.mem_append_left _ hj)

theorem apply_patches {s t : State Obj Val} {i : ℕ} (h : apply O s i = some t) :
    t.patches = s.patches := by
  obtain ⟨p, -, ⟨-, rfl⟩ | ⟨-, -, rfl⟩⟩ := apply_cases O h
  · rfl
  · rfl

theorem progress_foldlM {s₀ s t : State Obj Val} {l is : List ℕ} (h : Progress O s₀ s l)
    (his : is ⊆ s.patches) (hfold : is.foldlM (apply O) s = some t) :
    ∃ l', Progress O s₀ t l' := by
  induction is generalizing s l with
  | nil =>
    obtain rfl := Option.some.inj hfold
    exact ⟨l, h⟩
  | cons i is ih =>
    obtain ⟨u, happly, hfold⟩ := Option.bind_eq_some_iff.mp hfold
    rw [List.cons_subset] at his
    obtain ⟨l', h'⟩ := progress_apply O h his.1 happly
    exact ih h' (by rw [apply_patches O happly]; exact his.2) hfold

theorem progress_run {s₀ s : State Obj Val} (hstart : Start s₀)
    {es : List (Runs.Event (State Obj Val) (Event Obj Val))}
    (hrun : Run (step O s₀.created.length) s₀ es s) : ∃ l, Progress O s₀ s l := by
  refine @Run.keeps _ _ _ _ _ _ (fun t => ∃ l, Progress O s₀ t l) hrun
    ⟨[], progress_start O hstart⟩ ?_
  rintro s e t ⟨l, h⟩ hstep
  cases e with
  | create obj name new =>
    obtain rfl := Option.some.inj hstep
    exact ⟨l, progress_create O h obj name new⟩
  | add i =>
    rw [step] at hstep
    split at hstep
    · next hi =>
      obtain rfl := Option.some.inj hstep
      exact ⟨l, progress_add O h hi⟩
    · cases hstep
  | apply => exact progress_foldlM O h (List.Subset.refl _) hstep

/-! ## Undoing after a run -/

theorem diff_append {l₀ l : List ℕ} (h : ∀ i ∈ l, i ∉ l₀) : (l₀ ++ l).diff l = l₀ := by
  induction l with
  | nil => rw [List.append_nil, List.diff_nil]
  | cons i l ih =>
    rw [List.forall_mem_cons] at h
    rw [List.diff_cons, List.erase_append_right _ h.1, List.erase_cons_head, ih h.2]

omit [DecidableEq Obj] in
theorem foldlM_of_noop {f : State Obj Val → ℕ → Option (State Obj Val)} {s : State Obj Val}
    {l : List ℕ} (h : ∀ i ∈ l, f s i = some s) : l.foldlM f s = some s := by
  induction l with
  | nil => rfl
  | cons i l ih =>
    rw [List.forall_mem_cons] at h
    rw [List.foldlM_cons, h.1]
    exact ih h.2

/-- The patches of the list, in the order in which they are undone. -/
def listed (s : State Obj Val) : List (Patch Obj Val) :=
  (firsts s.patches).filterMap fun i => s.created[i]?

theorem forall₂_filterMap {α β : Type} {f : α → Option β} {l : List α} (h : ∀ a ∈ l, f a ≠ none) :
    List.Forall₂ (fun a b => f a = some b) l (l.filterMap f) := by
  induction l with
  | nil => exact .nil
  | cons a l ih =>
    rw [List.forall_mem_cons] at h
    obtain ⟨b, hb⟩ := Option.ne_none_iff_exists'.mp h.1
    rw [List.filterMap_cons_some hb]
    exact .cons hb (ih h.2)

omit [DecidableEq Obj] in
theorem mem_listed {s : State Obj Val} {p : Patch Obj Val} :
    p ∈ listed s ↔ ∃ i ∈ s.patches, s.created[i]? = some p := by
  simp [listed, mem_firsts]

section
variable {O} {s₀ s : State Obj Val} {l : List ℕ} (h : Progress O s₀ s l)
include h

omit [DecidableEq Obj] in
theorem mem_of_applied (happlied : ∀ i ∈ s.patches, s.is_applied i = true) :
    ∀ i ∈ s.patches, i ∈ l := fun i hi =>
  (h.is_applied i (h.listed i hi).1).mp (happlied i hi)

omit [DecidableEq Obj] in
theorem bound_listed : Bound O (listed s) := by
  intro p hp
  obtain ⟨i, hi, hp⟩ := mem_listed.mp hp
  exact h.bound i (h.listed i hi).1 p hp

omit [DecidableEq Obj] in
theorem untouched_listed : Untouched s₀.own (listed s) s.own := fun obj name ht =>
  h.untouched obj name fun i hi p hp => ht p (mem_listed.mpr ⟨i, h.subset hi, hp⟩)

omit [DecidableEq Obj] in
theorem kinds_listed (hl : ∀ i ∈ s.patches, i ∈ l) : Kinds O (listed s) := by
  intro p hp
  obtain ⟨i, hi, hp⟩ := mem_listed.mp hp
  exact h.kinds i (hl i hi) p hp

omit [DecidableEq Obj] in
theorem present_listed (hl : ∀ i ∈ s.patches, i ∈ l) : Present (listed s) s.own := by
  intro p hp hname
  obtain ⟨i, hi, hp⟩ := mem_listed.mp hp
  have hslot := h.present i (hl i hi) p hp
  rwa [hname] at hslot

/-- All patches are applied, so that undoing runs over the listed ones. -/
theorem undo_listed (happlied : ∀ i ∈ s.patches, s.is_applied i = true) : Patches.undo O s =
    (restoreAll O (listed s) s.own).map (s.undone (firsts s.patches)) := by
  rw [Patches.undo, foldlM_undo_firsts]
  refine foldlM_undo_eq O (forall₂_filterMap fun i hi => ?_) (nodup_firsts _) rfl ?_ ?_
  · rw [List.getElem?_eq_getElem (h.listed i (mem_firsts.mp hi)).2]
    exact Option.some_ne_none _
  · exact fun i hi => happlied i (mem_firsts.mp hi)
  · intro i hi
    rw [h.applied_patches]
    exact List.mem_append_right _ (mem_of_applied h happlied i (mem_firsts.mp hi))

omit [DecidableEq Obj] in
/-- What was applied before the run stays so. -/
theorem undone_applied_patches (hstart : Start s₀) (hl : ∀ i ∈ s.patches, i ∈ l)
    (own' : Slots Obj Val) :
    (s.undone (firsts s.patches) own').applied_patches = s₀.applied_patches := by
  have hperm : (firsts s.patches).Perm l := by
    refine (List.perm_ext_iff_of_nodup (nodup_firsts _) h.nodup).mpr fun i => ?_
    rw [mem_firsts]
    exact ⟨hl i, fun hi => h.subset hi⟩
  rw [State.undone, hperm.diff_left, h.applied_patches]
  refine diff_append fun i hi hold => ?_
  have hlt := hstart.applied_patches i hold
  have hle := (h.listed i (h.subset hi)).1
  omega

end

/-- Undoing the patches of a run brings all back just when the list captured it. -/
theorem patches_restored_iff {s₀ s : State Obj Val} (hstart : Start s₀)
    {es : List (Runs.Event (State Obj Val) (Event Obj Val))}
    (hrun : Run (step O s₀.created.length) s₀ es s)
    (happlied : ∀ i ∈ s.patches, s.is_applied i = true) :
    Restored O s₀ s ↔ Captured O s₀.own (listed s) := by
  obtain ⟨l, h⟩ := progress_run O hstart hrun
  have hl := mem_of_applied h happlied
  have hundo := undo_listed h happlied
  rw [← restoreAll_iff O (kinds_listed h hl) (bound_listed h) (present_listed h hl)
    (untouched_listed h)]
  constructor
  · rintro ⟨t, ht, hback, -⟩
    rw [hundo] at ht
    obtain ⟨own', hown', rfl⟩ := Option.map_eq_some_iff.mp ht
    refine ⟨own', hown', fun p hp => ?_⟩
    obtain ⟨i, hi, hp⟩ := mem_listed.mp hp
    exact hback i hi p hp
  · rintro ⟨own', hown', hback⟩
    have hcreated : ∀ i ∈ s.patches, i < s.created.length := fun i hi => (h.listed i hi).2
    refine ⟨_, by rw [hundo, hown']; rfl, fun i hi p hp => hback p (mem_listed.mpr ⟨i, hi, hp⟩),
      undone_applied_patches h hstart hl own', foldlM_of_noop fun i hi => ?_,
      foldlM_of_noop fun i hi => ?_⟩
    · have hmem : i ∈ firsts s.patches := mem_firsts.mpr hi
      refine undo_of_not_applied O (hcreated i hi) ?_
      simp [State.undone, hmem]
    · exact apply_of_applied O (hcreated i hi) (happlied i hi)

/-- Objects without classes; zero is the false value. -/
def plain : Objects ℕ ℕ := ⟨fun _ => [], fun _ _ v => v, fun v => v ≠ 0, fun _ _ _ => rfl⟩

/-- One attribute with the value one. -/
def oneAttribute : State ℕ ℕ :=
  ⟨fun o n => if o = 0 ∧ n = "f".toList then some 1 else none, [], fun _ => false, [], []⟩

theorem start_oneAttribute : Start oneAttribute := ⟨rfl, fun _ _ => rfl, by simp [oneAttribute]⟩

/-- Two patches that were created before they are applied. -/
theorem created_first_restored : ∃ es s, Run (step plain 0) oneAttribute es s ∧
    s.patches = [0, 1] ∧ Restored plain oneAttribute s := by
  have hrun : Run (step plain 0) oneAttribute _ _ := @replay_run _ _ (step plain 0) oneAttribute _ _
    [.create 0 "f".toList 2, .create 0 "f".toList 3, .add 0, .add 1, .apply] rfl
  refine ⟨_, _, hrun, rfl, (patches_restored_iff plain start_oneAttribute hrun (by decide)).mpr ?_⟩
  change Captured plain oneAttribute.own
    [⟨0, "f".toList, some 1, 2⟩, ⟨0, "f".toList, some 1, 3⟩]
  have hf : "f".toList ≠ GETATTR := by decide
  refine ⟨?_, ?_, ?_⟩
  · rintro (_ | ⟨p, _ | ⟨q, before⟩⟩) r after hps - hlast
    · obtain ⟨rfl, rfl⟩ := List.cons.inj hps
      rfl
    · obtain ⟨-, htail⟩ := List.cons.inj hps
      obtain ⟨rfl, -⟩ := List.cons.inj htail
      rfl
    · simp at hps
  · rw [Once, List.pairwise_cons]
    exact ⟨fun _ _ hname => absurd hname hf, List.pairwise_singleton _ _⟩
  · intro p hp hname
    rcases List.mem_cons.mp hp with rfl | hp
    · exact absurd hname hf
    · rw [List.mem_singleton.mp hp] at hname
      exact absurd hname hf

/-- The second patch captures the first one, and puts it back last. -/
theorem stacked_not_restored : ∃ es s, Run (step plain 0) oneAttribute es s ∧
    Start oneAttribute ∧ (∀ i ∈ s.patches, s.is_applied i = true) ∧
    ¬Restored plain oneAttribute s := by
  have hrun : Run (step plain 0) oneAttribute _ _ := @replay_run _ _ (step plain 0) oneAttribute _ _
    [.create 0 "f".toList 2, .add 0, .apply, .create 0 "f".toList 3, .add 1, .apply] rfl
  refine ⟨_, _, hrun, start_oneAttribute, by decide, ?_⟩
  rintro ⟨t, hundo, hback, -⟩
  have hfirst : getattr plain t.own 0 "f".toList = some 1 := hback 0 (by decide) _ rfl
  have hleft : (some t).map (fun t => getattr plain t.own 0 "f".toList) = some (some 2) := by
    rw [← hundo]
    rfl
  rw [Option.map_some, hfirst] at hleft
  exact absurd hleft (by decide)

end LocalStack.Utils.Patching
