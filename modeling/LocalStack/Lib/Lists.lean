import Mathlib.Data.List.Forall2
import Mathlib.Data.List.Sort
import Mathlib.Order.Defs.LinearOrder

/-! Pointwise relations between lists, functions that may fail mapped over a
list, and the first of the best elements of a list. -/

namespace LocalStack.Lists

variable {α β ε : Type*}

theorem forall₂_imp_mem {R S : α → β → Prop} {l : List α} {l' : List β}
    (hRS : ∀ a ∈ l, ∀ b, R a b → S a b) (h : List.Forall₂ R l l') : List.Forall₂ S l l' := by
  induction h with
  | nil => exact .nil
  | cons hr _ ih =>
    rw [List.forall_mem_cons] at hRS
    exact .cons (hRS.1 _ hr) (ih hRS.2)

theorem forall₂_left_mem {R : α → β → Prop} {l : List α} {l' : List β}
    (h : List.Forall₂ R l l') : ∀ a ∈ l, ∃ b, R a b := by
  induction h with
  | nil => simp
  | cons hr _ ih => exact List.forall_mem_cons.mpr ⟨⟨_, hr⟩, ih⟩

/-- The parts of a split list do not contain the separator. -/
theorem not_mem_of_mem_splitOn [DecidableEq α] {a : α} {l part : List α}
    (h : part ∈ l.splitOn a) : a ∉ part := by
  rw [List.splitOn_eq_splitOnP] at h
  induction l generalizing part with
  | nil =>
    rw [List.splitOnP_nil, List.mem_singleton] at h
    subst h
    exact List.not_mem_nil
  | cons x l ih =>
    rw [List.splitOnP_cons_eq_if_modifyHead] at h
    split at h
    · rcases List.mem_cons.mp h with rfl | h
      · exact List.not_mem_nil
      · exact ih h
    · rename_i hx
      cases hl : l.splitOnP (· == a) with
      | nil => exact absurd hl (List.splitOnP_ne_nil _ _)
      | cons p ps =>
        rw [hl, List.modifyHead_cons] at h
        rcases List.mem_cons.mp h with rfl | h
        · have hne : a ≠ x := fun he => hx (by rw [he]; exact beq_self_eq_true x)
          simpa [hne] using @ih p (by rw [hl]; simp)
        · exact ih (by rw [hl]; simp [h])

theorem exists_of_bind_ok {α β : Type} {x : Except ε α} {f : α → Except ε β} {b : β}
    (h : (x >>= f) = .ok b) : ∃ a, x = .ok a ∧ f a = .ok b := by
  cases x with
  | error e => cases h
  | ok a => exact ⟨a, rfl, h⟩

theorem exists_of_map_ok {α β : Type} {x : Except ε α} {f : α → β} {b : β}
    (h : x.map f = .ok b) : ∃ a, x = .ok a ∧ f a = b := by
  cases x with
  | error e => cases h
  | ok a => exact ⟨a, rfl, Except.ok.inj h⟩

theorem mapM_cons_ok {f : α → Except ε β} {a : α} {l : List α} {b : β} {l' : List β}
    (h : f a = .ok b) (h' : l.mapM f = .ok l') : (a :: l).mapM f = .ok (b :: l') := by
  rw [List.mapM_cons, h, h']
  rfl

theorem mapM_ok_iff {f : α → Except ε β} {l : List α} {l' : List β} :
    l.mapM f = .ok l' ↔ List.Forall₂ (fun a b => f a = .ok b) l l' := by
  constructor
  · intro h
    induction l generalizing l' with
    | nil =>
      cases h
      exact .nil
    | cons a l ih =>
      rw [List.mapM_cons] at h
      cases ha : f a with
      | error e =>
        rw [ha] at h
        cases h
      | ok b =>
        cases hl : l.mapM f with
        | error e =>
          rw [ha, hl] at h
          cases h
        | ok bs =>
          rw [ha, hl] at h
          cases h
          exact .cons ha (ih hl)
  · intro h
    induction h with
    | nil => rfl
    | cons ha _ ih => exact mapM_cons_ok ha ih

theorem mapM_eq_map {f : α → Except ε β} {g : α → β} {l : List α}
    (h : ∀ a ∈ l, f a = .ok (g a)) : l.mapM f = .ok (l.map g) := by
  induction l with
  | nil => rfl
  | cons a l ih =>
    rw [List.forall_mem_cons] at h
    exact mapM_cons_ok h.1 (ih h.2)

theorem mapM_eq_some_map {f : α → Option β} {g : α → β} {l : List α}
    (h : ∀ a ∈ l, f a = some (g a)) : l.mapM f = some (l.map g) := by
  induction l with
  | nil => rfl
  | cons a l ih =>
    rw [List.forall_mem_cons] at h
    rw [List.mapM_cons, h.1, ih h.2]
    rfl

/-- A map whose every call succeeds with a related result does so as a whole. -/
theorem exists_mapM_ok {f : α → Except ε β} {R : α → β → Prop} {l : List α}
    (h : ∀ a ∈ l, ∃ b, f a = .ok b ∧ R a b) : ∃ l', l.mapM f = .ok l' ∧ List.Forall₂ R l l' := by
  induction l with
  | nil => exact ⟨[], rfl, .nil⟩
  | cons a l ih =>
    obtain ⟨⟨b, hb, hr⟩, hrest⟩ := List.forall_mem_cons.mp h
    obtain ⟨l', hl, hrs⟩ := ih hrest
    exact ⟨b :: l', mapM_cons_ok hb hl, .cons hr hrs⟩

/-! ## The first of the best -/

section Best
variable {β : Type*} [LinearOrder β]

/-- `x` is the first of the elements of `l` with `p` that have the greatest `f`. -/
structure FirstBest (p : α → Prop) (f : α → β) (l : List α) (x : α) : Prop where
  holds : p x
  split : ∃ before after, l = before ++ x :: after ∧
    (∀ y ∈ before, p y → f y < f x) ∧ ∀ y ∈ after, p y → f y ≤ f x

theorem FirstBest.le {p : α → Prop} {f : α → β} {l : List α} {x : α} (h : FirstBest p f l x) :
    ∀ y ∈ l, p y → f y ≤ f x := by
  obtain ⟨before, after, rfl, hbefore, hafter⟩ := h.split
  intro y hy hp
  rcases List.mem_append.mp hy with hy | hy
  · exact (hbefore y hy hp).le
  · rcases List.mem_cons.mp hy with rfl | hy
    · exact le_refl _
    · exact hafter y hy hp

/-- Only what is before the first of the best can be in the way. -/
theorem FirstBest.cons {p : α → Prop} {f : α → β} {l : List α} {x a : α} (h : FirstBest p f l x)
    (ha : p a → f a < f x) : FirstBest p f (a :: l) x := by
  obtain ⟨before, after, rfl, hbefore, hafter⟩ := h.split
  exact ⟨h.holds, a :: before, after, rfl, List.forall_mem_cons.mpr ⟨ha, hbefore⟩, hafter⟩

theorem FirstBest.of_map {γ : Type*} {g : γ → α} {p : α → Prop} {f : α → β} {l : List γ} {y : α}
    (h : FirstBest p f (l.map g) y) :
    ∃ x, g x = y ∧ FirstBest (fun x => p (g x)) (fun x => f (g x)) l x := by
  obtain ⟨before, after, hl, hbefore, hafter⟩ := h.split
  obtain ⟨l₁, l₂, rfl, rfl, h₂⟩ := List.map_eq_append_iff.mp hl
  obtain ⟨x, l₂, rfl, rfl, rfl⟩ := List.map_eq_cons_iff.mp h₂
  exact ⟨x, rfl, h.holds, l₁, l₂, rfl, fun z hz => hbefore _ (List.mem_map_of_mem hz),
    fun z hz => hafter _ (List.mem_map_of_mem hz)⟩

theorem find?_orderedInsert_of_not (p : α → Bool) (r : α → α → Prop) [DecidableRel r] {a : α}
    (ha : p a = false) (s : List α) : (s.orderedInsert r a).find? p = s.find? p := by
  induction s with
  | nil => simp [ha]
  | cons b s ih =>
    rw [List.orderedInsert_cons]
    split
    · rw [List.find?_cons, ha]
    · rw [List.find?_cons, List.find?_cons, ih]

/-- In a list in descending order an element is found where it is inserted, or
behind a greater one. -/
theorem find?_orderedInsert_of_pos (p : α → Bool) (f : α → β) {a : α} (ha : p a = true)
    {s : List α} (hs : s.Pairwise fun a b => f b ≤ f a) :
    (s.orderedInsert (fun a b => f b ≤ f a) a).find? p =
      some (match s.find? p with
        | some x => if f a < f x then x else a
        | none => a) := by
  induction s with
  | nil => simp [ha]
  | cons b s ih =>
    obtain ⟨hb, hs⟩ := List.pairwise_cons.mp hs
    rw [List.orderedInsert_cons]
    split
    · rename_i hle
      rw [List.find?_cons, ha]
      cases hfind : (b :: s).find? p with
      | none => rfl
      | some x =>
        have hx : f x ≤ f b := by
          rcases List.mem_cons.mp (List.mem_of_find?_eq_some hfind) with rfl | hx
          · exact le_refl _
          · exact hb x hx
        simp [not_lt.mpr (hx.trans hle)]
    · rename_i hlt
      rw [List.find?_cons, List.find?_cons, ih hs]
      cases hb : p b with
      | true => simp [not_le.mp hlt]
      | false => rfl

/-- The first hit in a list sorted in descending order, equal ones in their old
order, is the first of the best. -/
theorem firstBest_of_find?_insertionSort {p : α → Bool} {f : α → β} {l : List α} {x : α}
    (h : (l.insertionSort fun a b => f b ≤ f a).find? p = some x) :
    FirstBest (fun a => p a = true) f l x := by
  induction l generalizing x with
  | nil => simp at h
  | cons a l ih =>
    have hs : (l.insertionSort fun a b => f b ≤ f a).Pairwise fun a b => f b ≤ f a := by
      have : Std.Total fun a b : α => f b ≤ f a := ⟨fun a b => le_total (f b) (f a)⟩
      have : IsTrans α fun a b => f b ≤ f a := ⟨fun _ _ _ hab hbc => hbc.trans hab⟩
      exact List.pairwise_insertionSort _ l
    rw [List.insertionSort_cons] at h
    cases ha : p a with
    | false =>
      rw [find?_orderedInsert_of_not p _ ha] at h
      exact (ih h).cons (by simp [ha])
    | true =>
      rw [find?_orderedInsert_of_pos p f ha hs] at h
      cases hfind : (l.insertionSort fun a b => f b ≤ f a).find? p with
      | none =>
        obtain rfl : a = x := by simpa [hfind] using h
        refine ⟨ha, [], l, rfl, by simp, fun y hy hp => ?_⟩
        have hnone := List.find?_eq_none.mp hfind y ((List.mem_insertionSort _).mpr hy)
        exact absurd hp hnone
      | some z =>
        have hz := ih hfind
        by_cases hlt : f a < f z
        · obtain rfl : z = x := by simpa [hfind, hlt] using h
          exact hz.cons fun _ => hlt
        · obtain rfl : a = x := by simpa [hfind, hlt] using h
          exact ⟨ha, [], l, rfl, by simp, fun y hy hp => (hz.le y hy hp).trans (not_lt.mp hlt)⟩

end Best

end LocalStack.Lists
