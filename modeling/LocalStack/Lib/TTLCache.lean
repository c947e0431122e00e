import LocalStack.Lib.OrderedDict
import Mathlib.Order.Lattice

/-! Bounded caches whose entries expire: the operations, what is documented of them, and
one that evicts the entry that was used least recently. -/

namespace LocalStack.TTLCache
open LocalStack.OrderedDict

/-- The operations, for keys `κ` and times `τ`. `expires` has the time at which the entry
of a key expires, whether that has come or not. -/
structure Cache (κ τ : Type*) where
  Carrier : Type*
  new : Carrier
  expires : Carrier → κ → Option τ
  size : Carrier → ℕ
  get : τ → Carrier → κ → Carrier × Bool
  set : ℕ → τ → τ → Carrier → κ → Carrier
  setExpires : Carrier → κ → τ → Carrier

variable {κ τ : Type*} [LinearOrder τ] [Add τ]

/-- An entry is there until it expires. A new one expires after `ttl`; unless the cache has
`maxsize` entries and none of its key, it takes no other's place. -/
structure Cache.Documented (C : Cache κ τ) : Prop where
  get_iff : ∀ now c k, (C.get now c k).2 = true ↔ ∃ e, C.expires c k = some e ∧ now < e
  expires_get : ∀ now c k k', C.expires (C.get now c k).1 k' = C.expires c k'
  size_get : ∀ now c k, C.size (C.get now c k).1 = C.size c
  expires_set : ∀ maxsize ttl now c k, 0 < maxsize →
    C.expires (C.set maxsize ttl now c k) k = some (now + ttl)
  set_keeps : ∀ maxsize ttl now c k k' e, k ≠ k' → C.expires c k' = some e → now < e →
    (C.expires c k).isSome ∨ C.size c < maxsize →
      C.expires (C.set maxsize ttl now c k) k' = some e
  setExpires_self : ∀ c k e, (C.expires c k).isSome → C.expires (C.setExpires c k e) k = some e
  setExpires_ne : ∀ c k k' e, k ≠ k' → C.expires (C.setExpires c k e) k' = C.expires c k'

/-! ## Least recently used -/

variable [DecidableEq κ]

/-- Entries from the one used least recently to the one used last. -/
abbrev Entries (κ τ : Type*) := {d : Dict κ τ // Dict.WF d}

/-- The entries that have not expired, without that of the key. -/
def others (now : τ) (c : Dict κ τ) (k : κ) : Dict κ τ :=
  (Dict.erase c k).filter fun p => now < p.2

omit [Add τ] in
theorem others_sublist (now : τ) (c : Dict κ τ) (k : κ) : (others now c k).Sublist c :=
  List.filter_sublist.trans (Dict.erase_sublist c k)

omit [Add τ] in
theorem get_others_self (now : τ) (c : Dict κ τ) (k : κ) : Dict.get (others now c k) k = none :=
  Dict.get_eq_none_of_sublist List.filter_sublist (by rw [Dict.get_erase, if_pos rfl])

omit [Add τ] in
theorem get_others {now : τ} {c : Dict κ τ} (hc : Dict.WF c) {k k' : κ} {e : τ} (hk : k ≠ k')
    (h : Dict.get c k' = some e) (he : now < e) : Dict.get (others now c k) k' = some e := by
  refine Dict.get_of_mem (Dict.wf_sublist hc (others_sublist now c k)) ?_
  have hmem : (k', e) ∈ Dict.erase c k :=
    Dict.mem_of_get (by rw [Dict.get_erase, if_neg (Ne.symm hk), h])
  exact List.mem_filter.mpr ⟨hmem, decide_eq_true he⟩

/-- What is kept when an entry is set: an entry of another key may have to go. -/
def kept (maxsize : ℕ) (now : τ) (c : Dict κ τ) (k : κ) : Dict κ τ :=
  if Dict.get c k = none ∧ maxsize ≤ (others now c k).length then (others now c k).drop 1
  else others now c k

omit [Add τ] in
theorem kept_sublist (maxsize : ℕ) (now : τ) (c : Dict κ τ) (k : κ) :
    (kept maxsize now c k).Sublist (others now c k) := by
  unfold kept
  split
  · exact List.drop_sublist 1 _
  · exact List.Sublist.refl _

omit [Add τ] in
theorem get_kept_self (maxsize : ℕ) (now : τ) (c : Dict κ τ) (k : κ) :
    Dict.get (kept maxsize now c k) k = none :=
  Dict.get_eq_none_of_sublist (kept_sublist maxsize now c k) (get_others_self now c k)

/-- The cache that evicts the entry that was used least recently. -/
def lru (κ τ : Type*) [LinearOrder τ] [Add τ] [DecidableEq κ] : Cache κ τ where
  Carrier := Entries κ τ
  new := ⟨[], Dict.wf_nil⟩
  expires c := Dict.get c.1
  size c := c.1.length
  get now c k :=
    match Dict.get c.1 k with
    | none => (c, false)
    | some e =>
      (⟨Dict.erase c.1 k ++ [(k, e)],
        Dict.wf_snoc (Dict.wf_sublist c.2 (Dict.erase_sublist c.1 k))
          (by rw [Dict.get_erase, if_pos rfl]) e⟩, decide (now < e))
  set maxsize ttl now c k :=
    ⟨kept maxsize now c.1 k ++ [(k, now + ttl)],
      Dict.wf_snoc (Dict.wf_sublist c.2 ((kept_sublist maxsize now c.1 k).trans
        (others_sublist now c.1 k))) (get_kept_self maxsize now c.1 k) _⟩
  setExpires c k e := ⟨Dict.set c.1 k e, Dict.wf_set c.2 k e⟩

theorem lru_documented : (lru κ τ).Documented where
  get_iff now c k := by
    simp only [lru]
    cases h : Dict.get c.1 k with
    | none => simp
    | some e => simp
  expires_get now c k k' := by
    simp only [lru]
    cases h : Dict.get c.1 k with
    | none => rfl
    | some e =>
      rw [Dict.get_append, Dict.get_erase]
      by_cases hk : k' = k
      · subst hk
        rw [if_pos rfl, Dict.get_cons_self, Option.none_or, h]
      · rw [if_neg hk, Dict.get_cons_ne e [] (Ne.symm hk), Dict.get_nil, Option.or_none]
  size_get now c k := by
    simp only [lru]
    cases h : Dict.get c.1 k with
    | none => rfl
    | some e =>
      rw [List.length_append]
      exact Dict.length_erase c.2 (Dict.mem_keys_of_mem (Dict.mem_of_get h))
  expires_set maxsize ttl now c k _ := by
    simp only [lru]
    rw [Dict.get_append, get_kept_self, Option.none_or, Dict.get_cons_self]
  set_keeps maxsize ttl now c k k' e hk h he hroom := by
    simp only [lru] at h hroom ⊢
    have hnot : ¬ (Dict.get c.1 k = none ∧ maxsize ≤ (others now c.1 k).length) := by
      rintro ⟨hnone, hfull⟩
      rw [hnone] at hroom
      have hlt := hroom.resolve_left Bool.false_ne_true
      have hle := (others_sublist now c.1 k).length_le
      omega
    rw [kept, if_neg hnot, Dict.get_append, get_others c.2 hk h he, Option.some_or]
  setExpires_self c k e _ := Dict.get_set_self c.1 k e
  setExpires_ne c k k' e hk := Dict.get_set_ne c.1 e hk

end LocalStack.TTLCache
