import Mathlib.Tactic.TypeStar

/-! Generators: the values that are yielded until the input ends or an exception is
raised. A loop may carry a state from one input to the next. -/

namespace LocalStack.Generator

variable {σ α β ε : Type*}

structure Yields (ε β : Type*) where
  yielded : List β
  raised : Option ε

/-- One more value in front. -/
def Yields.cons (b : β) (r : Yields ε β) : Yields ε β := ⟨b :: r.yielded, r.raised⟩

/-- Each input is turned into one value, with a state that is kept between them. -/
def loop (step : σ → α → Except ε (σ × β)) : σ → List α → Yields ε β
  | _, [] => ⟨[], none⟩
  | s, a :: as =>
    match step s a with
    | .error e => ⟨[], some e⟩
    | .ok (s', b) => (loop step s' as).cons b

/-- The same without a state. -/
def each (f : α → Except ε β) : List α → Yields ε β
  | [] => ⟨[], none⟩
  | a :: as =>
    match f a with
    | .error e => ⟨[], some e⟩
    | .ok b => (each f as).cons b

theorem Yields.cons_injective {b b' : β} {r r' : Yields ε β} (h : r.cons b = r'.cons b') :
    b = b' ∧ r = r' := by
  obtain ⟨bs, e⟩ := r
  obtain ⟨bs', e'⟩ := r'
  simp only [cons, Yields.mk.injEq, List.cons.injEq] at h
  obtain ⟨⟨rfl, rfl⟩, rfl⟩ := h
  exact ⟨rfl, rfl⟩

/-- The state does not matter if, as long as an invariant holds of it, what a step
yields does not depend on it. -/
theorem loop_eq_each {step : σ → α → Except ε (σ × β)} {f : α → Except ε β} {I : σ → Prop}
    (hstep : ∀ s a, I s → (step s a).map Prod.snd = f a)
    (hkeep : ∀ s a s' b, I s → step s a = .ok (s', b) → I s') {s : σ} (hs : I s) (as : List α) :
    loop step s as = each f as := by
  induction as generalizing s with
  | nil => rfl
  | cons a as ih =>
    have hf := hstep s a hs
    cases h : step s a with
    | error e =>
      rw [h] at hf
      simp only [loop, each, h, ← hf, Except.map]
    | ok r =>
      obtain ⟨s', b⟩ := r
      rw [h] at hf
      simp only [loop, each, h, ← hf, Except.map]
      rw [ih (hkeep s a s' b hs h)]

/-- What a generator does with each input alone can be told from its runs. -/
theorem each_injective {f g : α → Except ε β} (h : each f = each g) : f = g := by
  funext a
  have ha := congrFun h [a]
  simp only [each] at ha
  cases hf : f a <;> cases hg : g a <;>
    simp only [hf, hg, Yields.cons, Yields.mk.injEq, Option.some.injEq, List.cons.injEq,
      reduceCtorEq, and_true, true_and, and_false] at ha
  · rw [ha]
  · rw [ha]

end LocalStack.Generator
