import Mathlib.Data.List.Nodup
import Mathlib.Data.List.Perm.Basic

/-! Sets whose elements come in an order of their own: a set does not determine the
order in which a loop over it or `pop` finds its elements. -/

namespace LocalStack.Sets

/-- A set, as a list without repetitions. -/
structure PySet (α : Type) where
  elements : List α
  nodup : elements.Nodup
  deriving Repr

variable {α ε : Type} [DecidableEq α]

namespace PySet

instance : Membership α (PySet α) := ⟨fun s x => x ∈ s.elements⟩

instance (x : α) (s : PySet α) : Decidable (x ∈ s) := inferInstanceAs (Decidable (x ∈ s.elements))

omit [DecidableEq α] in
theorem ext {s t : PySet α} (h : s.elements = t.elements) : s = t := by
  cases s
  cases t
  cases h
  rfl

/-- `set()`. -/
def empty : PySet α := ⟨[], List.nodup_nil⟩

/-- `len(s)`. -/
def card (s : PySet α) : Nat := s.elements.length

/-- `s.add(x)`. -/
def add (s : PySet α) (x : α) : PySet α := ⟨s.elements.insert x, s.nodup.insert⟩

/-- `s.update(xs)`. -/
def update (s : PySet α) (xs : List α) : PySet α := xs.foldl add s

/-- `s.remove(x)` for an element of `s`. -/
def remove (s : PySet α) (x : α) : PySet α := ⟨s.elements.erase x, s.nodup.erase x⟩

def filter (P : α → Bool) (s : PySet α) : PySet α := ⟨s.elements.filter P, s.nodup.filter P⟩

theorem mem_add {s : PySet α} {x y : α} : y ∈ s.add x ↔ y = x ∨ y ∈ s := List.mem_insert_iff

theorem mem_update {s : PySet α} {xs : List α} {y : α} : y ∈ s.update xs ↔ y ∈ s ∨ y ∈ xs := by
  induction xs generalizing s with
  | nil => simp [update]
  | cons x xs ih =>
    rw [update, List.foldl_cons]
    refine ih.trans ?_
    rw [mem_add, List.mem_cons]
    tauto

end PySet

open PySet

/-- An order for the elements of every set. -/
structure Order (α : Type) where
  list : PySet α → List α
  perm : ∀ s, (list s).Perm s.elements

/-- The order in which the elements came into the set. -/
def Order.insertion : Order α := ⟨fun s => s.elements, fun _ => .refl _⟩

/-- The same, but for one element that comes first. -/
def Order.first (x : α) : Order α where
  list := fun s => if x ∈ s then x :: s.elements.erase x else s.elements
  perm := by
    intro s
    split
    · rename_i h
      exact (List.perm_cons_erase h).symm
    · exact .refl _

variable {o o' : Order α} {s : PySet α} {x : α}

omit [DecidableEq α] in
theorem Order.mem_list : x ∈ o.list s ↔ x ∈ s := (o.perm s).mem_iff

/-! ## Popping -/

/-- `s.pop()`; `none` is a `KeyError`. -/
def pop (o : Order α) (s : PySet α) : Option α := (o.list s).head?

omit [DecidableEq α] in
theorem mem_of_pop (h : pop o s = some x) : x ∈ s :=
  Order.mem_list.mp (List.mem_of_head? h)

omit [DecidableEq α] in
theorem pop_eq_none : pop o s = none ↔ s.elements = [] := by
  rw [pop, List.head?_eq_none_iff, ← List.length_eq_zero_iff, (o.perm s).length_eq,
    List.length_eq_zero_iff]

theorem pop_first (h : x ∈ s) : pop (.first x) s = some x := by
  simp [pop, Order.first, h]

omit [DecidableEq α] in
/-- A set of one element leaves no choice. -/
theorem pop_of_card (h : s.card = 1) : pop o s = pop o' s := by
  obtain ⟨x, hx⟩ := List.length_eq_one_iff.mp h
  have hlist : ∀ o : Order α, o.list s = [x] := by
    intro o
    have := o.perm s
    rw [hx, List.perm_singleton] at this
    exact this
  rw [pop, pop, hlist o, hlist o']

/-! ## Removing while looping -/

/-- What one turn of the loop leaves. -/
def step (bad : α → Except ε Bool) (t : PySet α) (x : α) : Except ε (PySet α) :=
  (bad x).map fun b => if b then t.remove x else t

/-- `for x in list(s): if bad(x): s.remove(x)`, where `bad` can raise. -/
def exclude (o : Order α) (bad : α → Except ε Bool) (s : PySet α) : Except ε (PySet α) :=
  (o.list s).foldlM (step bad) s

variable {bad : α → Except ε Bool} {xs : List α} {t : PySet α} {e : ε}

theorem foldlM_step_error (h : xs.foldlM (step bad) t = .error e) :
    ∃ x ∈ xs, bad x = .error e := by
  induction xs generalizing t with
  | nil => cases h
  | cons x xs ih =>
    rw [List.foldlM_cons, step] at h
    cases hx : bad x with
    | error e' =>
      rw [hx] at h
      obtain rfl := Except.error.inj h
      exact ⟨x, List.mem_cons_self, hx⟩
    | ok b =>
      rw [hx] at h
      obtain ⟨y, hy, he⟩ := ih h
      exact ⟨y, List.mem_cons_of_mem x hy, he⟩

theorem forall_ok_of_foldlM (h : xs.foldlM (step bad) t = .ok s) :
    ∀ x ∈ xs, ∃ b, bad x = .ok b := by
  induction xs generalizing t with
  | nil => simp
  | cons x xs ih =>
    rw [List.foldlM_cons, step] at h
    cases hx : bad x with
    | error e =>
      rw [hx] at h
      cases h
    | ok b =>
      rw [hx] at h
      exact List.forall_mem_cons.mpr ⟨⟨b, hx⟩, ih h⟩

theorem foldlM_step_ok {b : α → Bool} (h : ∀ x ∈ xs, bad x = .ok (b x)) :
    xs.foldlM (step bad) t = .ok (t.filter fun x => !(b x && decide (x ∈ xs))) := by
  induction xs generalizing t with
  | nil =>
    have hall : t.filter (fun x => !(b x && decide (x ∈ ([] : List α)))) = t := by
      apply PySet.ext
      simp [PySet.filter]
    rw [hall]
    rfl
  | cons x xs ih =>
    rw [List.forall_mem_cons] at h
    have hstep : step bad t x = .ok (if b x then t.remove x else t) := by
      rw [step, h.1]
      rfl
    rw [List.foldlM_cons, hstep]
    refine (ih h.2).trans (congrArg Except.ok (PySet.ext ?_))
    cases hb : b x with
    | false =>
      apply List.filter_congr
      intro y _
      by_cases hy : y = x
      · simp [hy, hb]
      · simp [hy]
    | true =>
      simp only [↓reduceIte, PySet.filter, PySet.remove, t.nodup.erase_eq_filter,
        List.filter_filter]
      apply List.filter_congr
      intro y _
      by_cases hy : y = x
      · simp [hy, hb]
      · simp [hy]

/-- If no test raises, the order of the loop makes no difference. -/
theorem exclude_ok {b : α → Bool} (h : ∀ x ∈ s, bad x = .ok (b x)) :
    exclude o bad s = .ok (s.filter fun x => !b x) := by
  rw [exclude, foldlM_step_ok fun x hx => h x (Order.mem_list.mp hx)]
  congr 1
  apply PySet.ext
  apply List.filter_congr
  intro x hx
  have hmem : x ∈ o.list s := Order.mem_list.mpr hx
  simp [hmem]

theorem exclude_error (h : exclude o bad s = .error e) : ∃ x ∈ s, bad x = .error e := by
  obtain ⟨x, hx, he⟩ := foldlM_step_error h
  exact ⟨x, Order.mem_list.mp hx, he⟩

/-- The element that comes first is the one whose exception ends the loop. -/
theorem exclude_first (hx : x ∈ s) (he : bad x = .error e) :
    exclude (.first x) bad s = .error e := by
  have hlist : (Order.first x).list s = x :: s.elements.erase x := if_pos hx
  rw [exclude, hlist, List.foldlM_cons, step, he]
  rfl

/-- A loop that ends in one order ends in every order, with the same set. -/
theorem exclude_of_ok (h : exclude o bad s = .ok t) : exclude o' bad s = .ok t := by
  have hok : ∀ x ∈ s, bad x = .ok ((bad x).toOption.getD false) := by
    intro x hx
    obtain ⟨b, hb⟩ := forall_ok_of_foldlM h x (Order.mem_list.mpr hx)
    rw [hb]
    rfl
  rw [← h, exclude_ok hok, exclude_ok hok]

end LocalStack.Sets
