import Mathlib.Algebra.BigOperators.Fin
import Mathlib.Data.Fintype.EquivFin

/-! Lists whose items can be paired so that the partners are equivalent. The pairing exists where
each item has as many equivalent ones in both lists. -/

namespace LocalStack.Matching

variable {α : Type*} {r : α → α → Bool} {l l' : List α}

/-- A bijection between the places of two lists pairs related items. -/
def Matches (r : α → α → Bool) (l l' : List α) : Prop :=
  ∃ e : Fin l.length ≃ Fin l'.length, ∀ i, r l[i] l'[e i] = true

theorem Matches.length_eq (h : Matches r l l') : l.length = l'.length := by
  obtain ⟨e, -⟩ := h
  simpa using Fintype.card_congr e

theorem Matches.exists_mem (h : Matches r l l') {x : α} (hx : x ∈ l) : ∃ y ∈ l', r x y = true := by
  obtain ⟨e, he⟩ := h
  obtain ⟨i, hi, rfl⟩ := List.mem_iff_getElem.mp hx
  exact ⟨l'[e ⟨i, hi⟩], List.getElem_mem _, he ⟨i, hi⟩⟩

/-- Counting the items of a list is counting their places. -/
theorem card_places (p : α → Bool) (l : List α) :
    Fintype.card {i : Fin l.length // p l[i] = true} = l.countP p := by
  rw [Fintype.card_subtype, Finset.card_filter]
  refine Eq.trans (Fin.sum_univ_fun_getElem l fun a => if p a = true then 1 else 0) ?_
  induction l with
  | nil => rfl
  | cons a l ih => rw [List.map_cons, List.sum_cons, ih, List.countP_cons, Nat.add_comm]

section
variable (hr : Equivalence fun a b => r a b = true)
include hr

theorem Matches.symm (h : Matches r l l') : Matches r l' l := by
  obtain ⟨e, he⟩ := h
  refine ⟨e.symm, fun i => hr.symm ?_⟩
  simpa using he (e.symm i)

theorem Matches.countP_eq (h : Matches r l l') (x : α) : l.countP (r x) = l'.countP (r x) := by
  obtain ⟨e, he⟩ := h
  rw [← card_places, ← card_places]
  refine Fintype.card_congr (e.subtypeEquiv fun i => ?_)
  exact ⟨fun hi => hr.trans hi (he i), fun hi => hr.trans hi (hr.symm (he i))⟩

/-- Where no item occurs more often in the first list, and the lists have the same length, each
item finds a partner of its own. -/
theorem matches_of_countP_le (hlen : l.length = l'.length)
    (hcount : ∀ x ∈ l, l.countP (r x) ≤ l'.countP (r x)) : Matches r l l' := by
  classical
  let s : Setoid α := ⟨fun a b => r a b = true, hr⟩
  let f (i : Fin l.length) : Quotient s := ⟦l[i]⟧
  let g (j : Fin l'.length) : Quotient s := ⟦l'[j]⟧
  have hfiber : ∀ c : Quotient s, Nonempty ({i // f i = c} ↪ {j // g j = c}) := by
    intro c
    by_cases hc : ∃ i, f i = c
    · obtain ⟨i, rfl⟩ := hc
      have hf : ∀ k, f k = f i ↔ r l[i] l[k] = true := fun k =>
        ⟨fun h => hr.symm (Quotient.exact h), fun h => Quotient.sound (hr.symm h)⟩
      have hg : ∀ k, g k = f i ↔ r l[i] l'[k] = true := fun k =>
        ⟨fun h => hr.symm (Quotient.exact h), fun h => Quotient.sound (hr.symm h)⟩
      refine Function.Embedding.nonempty_of_card_le ?_
      rw [Fintype.card_congr (Equiv.subtypeEquivRight hf), card_places,
        Fintype.card_congr (Equiv.subtypeEquivRight hg), card_places]
      exact hcount _ (List.getElem_mem _)
    · exact ⟨⟨fun i => absurd ⟨i.1, i.2⟩ hc, fun i => absurd ⟨i.1, i.2⟩ hc⟩⟩
  let φ (c : Quotient s) : {i // f i = c} ↪ {j // g j = c} := (hfiber c).some
  let ψ (i : Fin l.length) : Fin l'.length := (φ (f i) ⟨i, rfl⟩).1
  have hψ : ∀ i, g (ψ i) = f i := fun i => (φ (f i) ⟨i, rfl⟩).2
  have hinj : Function.Injective ψ := by
    intro i j hij
    have hf : f i = f j := by rw [← hψ i, hij, hψ j]
    have hsame : ∀ c (h : f j = c), (φ c ⟨j, h⟩).1 = ψ j := by
      rintro c rfl
      rfl
    have heq : φ (f i) ⟨i, rfl⟩ = φ (f i) ⟨j, hf.symm⟩ := Subtype.ext (by rw [hsame]; exact hij)
    exact congrArg Subtype.val ((φ (f i)).injective heq)
  have hbij : Function.Bijective ψ :=
    (Fintype.bijective_iff_injective_and_card ψ).mpr ⟨hinj, by simpa using hlen⟩
  refine ⟨Equiv.ofBijective ψ hbij, fun i => hr.symm ?_⟩
  exact Quotient.exact (hψ i)

end

end LocalStack.Matching
