import LocalStack.Lib.Matching

/-! `items_equivalent` of `utils/collections.py`, compared with a pairing of the two lists. -/

namespace LocalStack.Utils.ItemsEquivalent
open LocalStack.Matching

variable {α : Type*}

section
variable (comparator : α → α → Bool)

def contained (list2 : List α) (item : α) : Bool := list2.any (comparator item)

def items_equivalent (list1 list2 : List α) : Bool :=
  if list1.length ≠ list2.length then false else list1.all (contained comparator list2)

/-- The comparison is that of multisets: it finds the pairings, either way round and in any
order. -/
structure MultisetEquality (list1 list2 : List α) : Prop where
  bijection : items_equivalent comparator list1 list2 = true ↔ Matches comparator list1 list2
  symmetric : items_equivalent comparator list1 list2 = items_equivalent comparator list2 list1
  permuted : ∀ {perm1 perm2 : List α}, perm1.Perm list1 → perm2.Perm list2 →
    items_equivalent comparator perm1 perm2 = items_equivalent comparator list1 list2

/-- The lists have the same length and each item of the first one is contained in the second one,
which has fewer of some item. -/
def Surplus (list1 list2 : List α) : Prop :=
  list1.length = list2.length ∧ (∀ x ∈ list1, ∃ y ∈ list2, comparator x y = true) ∧
    ∃ x ∈ list1, list2.countP (comparator x) < list1.countP (comparator x)

end

variable {comparator : α → α → Bool} {list1 list2 : List α}

theorem items_equivalent_iff : items_equivalent comparator list1 list2 = true ↔
    list1.length = list2.length ∧ ∀ x ∈ list1, ∃ y ∈ list2, comparator x y = true := by
  unfold items_equivalent
  split
  · rename_i hlen
    simp [hlen]
  · rename_i hlen
    simp [contained, not_not.mp hlen]

/-- The order of the items does not matter to the code. -/
theorem items_equivalent_perm {perm1 perm2 : List α} (h1 : perm1.Perm list1)
    (h2 : perm2.Perm list2) :
    items_equivalent comparator perm1 perm2 = items_equivalent comparator list1 list2 := by
  rw [Bool.eq_iff_iff, items_equivalent_iff, items_equivalent_iff, h1.length_eq, h2.length_eq]
  simp only [h1.mem_iff, h2.mem_iff]

theorem items_equivalent_of_matches (h : Matches comparator list1 list2) :
    items_equivalent comparator list1 list2 = true :=
  items_equivalent_iff.mpr ⟨h.length_eq, fun _ hx => h.exists_mem hx⟩

section
variable (hr : Equivalence fun x y => comparator x y = true)
include hr

theorem matches_of_not_surplus (hs : ¬ Surplus comparator list1 list2)
    (h : items_equivalent comparator list1 list2 = true) : Matches comparator list1 list2 := by
  obtain ⟨hlen, hmem⟩ := items_equivalent_iff.mp h
  refine matches_of_countP_le hr hlen fun x hx => ?_
  by_contra hlt
  exact hs ⟨hlen, hmem, x, hx, not_le.mp hlt⟩

/-- The code takes lists with a surplus for equivalent, though no pairing exists. -/
theorem surplus_not_matched (hs : Surplus comparator list1 list2) :
    items_equivalent comparator list1 list2 = true ∧ ¬ Matches comparator list1 list2 := by
  obtain ⟨hlen, hmem, x, -, hlt⟩ := hs
  refine ⟨items_equivalent_iff.mpr ⟨hlen, hmem⟩, fun h => ?_⟩
  exact absurd (h.countP_eq hr x) hlt.ne'

/-- The lists are compared as multisets exactly where neither has a surplus over the other. -/
theorem multiset_equality_iff : MultisetEquality comparator list1 list2 ↔
    ¬ Surplus comparator list1 list2 ∧ ¬ Surplus comparator list2 list1 := by
  constructor
  · intro h
    constructor
    · intro hs
      obtain ⟨htrue, hnot⟩ := surplus_not_matched hr hs
      exact hnot (h.bijection.mp htrue)
    · intro hs
      obtain ⟨htrue, hnot⟩ := surplus_not_matched hr hs
      exact hnot ((h.bijection.mp (h.symmetric.trans htrue)).symm hr)
  · rintro ⟨h12, h21⟩
    refine ⟨⟨matches_of_not_surplus hr h12, items_equivalent_of_matches⟩, ?_, items_equivalent_perm⟩
    rw [Bool.eq_iff_iff]
    constructor
    · exact fun h => items_equivalent_of_matches ((matches_of_not_surplus hr h12 h).symm hr)
    · exact fun h => items_equivalent_of_matches ((matches_of_not_surplus hr h21 h).symm hr)

end

theorem equivalence_beq : Equivalence fun x y : Nat => (x == y) = true := by
  simpa using (eq_equivalence : Equivalence (@Eq Nat))

theorem multiset_equality_iff_swapped : MultisetEquality (α := Nat) (· == ·) [1, 2] [2, 1] ↔
    ¬ Surplus (· == ·) [1, 2] [2, 1] ∧ ¬ Surplus (· == ·) [2, 1] [1, 2] :=
  multiset_equality_iff equivalence_beq

/-- One item too many of one kind, and one too few of another. -/
theorem repeated_not_multiset_equality :
    ¬ MultisetEquality (α := Nat) (· == ·) [1, 1, 2] [1, 2, 2] := by
  intro h
  have hs : Surplus (α := Nat) (· == ·) [1, 1, 2] [1, 2, 2] := by
    refine ⟨rfl, by decide, 1, by decide, by decide⟩
  obtain ⟨htrue, hnot⟩ := surplus_not_matched equivalence_beq hs
  exact hnot (h.bijection.mp htrue)

end LocalStack.Utils.ItemsEquivalent
