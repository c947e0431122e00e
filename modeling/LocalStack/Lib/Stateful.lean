/-! Computations that change a state and can raise. An exception keeps the state as
it was when it was raised, as a Python exception does. -/

namespace LocalStack.Stateful

variable {ε σ α β : Type} {x : EStateM ε σ α} {f : α → EStateM ε σ β} {s s' : σ} {a : α} {e : ε}

/-- The state after a computation, whether it has raised or not. -/
def after (x : EStateM ε σ α) (s : σ) : σ :=
  match x.run s with
  | .ok _ s' => s'
  | .error _ s' => s'

/-- What a computation returns or raises. -/
def outcome (x : EStateM ε σ α) (s : σ) : Except ε α :=
  match x.run s with
  | .ok a _ => .ok a
  | .error e _ => .error e

theorem bind_ok (h : x.run s = .ok a s') : (x >>= f).run s = (f a).run s' := by
  rw [EStateM.run_bind, h]

theorem bind_error (h : x.run s = .error e s') : (x >>= f).run s = .error e s' := by
  rw [EStateM.run_bind, h]

theorem after_ok (h : x.run s = .ok a s') : after x s = s' := by
  rw [after, h]

theorem after_error (h : x.run s = .error e s') : after x s = s' := by
  rw [after, h]

theorem outcome_ok (h : x.run s = .ok a s') : outcome x s = .ok a := by
  rw [outcome, h]

theorem outcome_error (h : x.run s = .error e s') : outcome x s = .error e := by
  rw [outcome, h]

/-- **Loops.** An invariant of what is still to be done holds at the end, with
nothing left to do, if every turn succeeds and keeps it. -/
theorem forM_run {I : List α → σ → Prop} {g : α → EStateM ε σ PUnit}
    (hstep : ∀ x l s, I (x :: l) s → ∃ s', (g x).run s = .ok ⟨⟩ s' ∧ I l s') {l : List α}
    (h : I l s) : ∃ s', (l.forM g).run s = .ok ⟨⟩ s' ∧ I [] s' := by
  induction l generalizing s with
  | nil => exact ⟨s, rfl, h⟩
  | cons x l ih =>
    obtain ⟨s₁, hrun, h₁⟩ := hstep x l s h
    obtain ⟨s₂, hrun₂, h₂⟩ := ih h₁
    have hcons : (x :: l).forM g = g x >>= fun _ => l.forM g := rfl
    exact ⟨s₂, by rw [hcons, bind_ok hrun, hrun₂], h₂⟩

/-! ## What a computation keeps

A property of states that a computation keeps, whether it returns or raises. -/

def Preserves (I : σ → Prop) (x : EStateM ε σ α) : Prop := ∀ s, I s → I (after x s)

section Preserves

variable {I : σ → Prop}

theorem preserves_pure (a : α) : Preserves I (pure a : EStateM ε σ α) := fun _ h => h

theorem preserves_throw (e : ε) : Preserves I (throw e : EStateM ε σ α) := fun _ h => h

theorem preserves_get : Preserves I (get : EStateM ε σ σ) := fun _ h => h

theorem preserves_modify {f : σ → σ} (h : ∀ s, I s → I (f s)) :
    Preserves I (modify f : EStateM ε σ PUnit) := h

theorem Preserves.bind (hx : Preserves I x) (hf : ∀ a, Preserves I (f a)) :
    Preserves I (x >>= f) := by
  intro s hs
  have hs' := hx s hs
  cases hrun : x.run s with
  | ok a s' =>
    rw [after_ok hrun] at hs'
    have hafter : after (x >>= f) s = after (f a) s' := by
      rw [after, bind_ok hrun, after]
    rw [hafter]
    exact hf a s' hs'
  | error e s' =>
    rw [after_error hrun] at hs'
    rw [after_error (bind_error hrun)]
    exact hs'

theorem preserves_forM {g : α → EStateM ε σ PUnit} {l : List α}
    (h : ∀ a ∈ l, Preserves I (g a)) : Preserves I (l.forM g) := by
  induction l with
  | nil => exact preserves_pure PUnit.unit
  | cons a l ih =>
    rw [List.forall_mem_cons] at h
    exact h.1.bind fun _ => ih h.2

end Preserves

/-! ## Reading, catching and cleaning up -/

/-- Something that the state says. -/
def read (p : σ → β) : EStateM ε σ β := fun s => .ok (p s) s

/-- The exception of a result, if it is one. -/
def raised : Except ε α → Option ε
  | .ok _ => none
  | .error e => some e

/-- The exception that a computation raises, if any; `try: .. except Exception as e`. -/
def attempt (x : EStateM ε σ α) : EStateM ε σ (Option ε) :=
  fun s => .ok (raised (outcome x s)) (after x s)

/-- `try: .. finally: ..`; an exception of the second part replaces one of the first. -/
def ensure (x : EStateM ε σ α) (f : EStateM ε σ Unit) : EStateM ε σ α := fun s =>
  match x.run s, f.run (after x s) with
  | _, .error e s' => .error e s'
  | .ok a _, .ok _ s' => .ok a s'
  | .error e _, .ok _ s' => .error e s'

theorem after_read_bind (p : σ → α) (f : α → EStateM ε σ β) (s : σ) :
    after (read p >>= f) s = after (f (p s)) s := rfl

theorem after_attempt_bind (x : EStateM ε σ α) (f : Option ε → EStateM ε σ β) (s : σ) :
    after (attempt x >>= f) s = after (f (raised (outcome x s))) (after x s) := rfl

theorem after_ensure (x : EStateM ε σ α) (f : EStateM ε σ Unit) (s : σ) :
    after (ensure x f) s = after f (after x s) := by
  cases hx : x.run s with
  | ok a s₁ =>
    rw [after_ok hx]
    cases hf : f.run s₁ with
    | ok _ s₂ =>
      have hrun : (ensure x f).run s = .ok a s₂ := by
        show ensure x f s = _
        rw [ensure, after_ok hx, hx, hf]
      rw [after_ok hrun, after_ok hf]
    | error e s₂ =>
      have hrun : (ensure x f).run s = .error e s₂ := by
        show ensure x f s = _
        rw [ensure, after_ok hx, hx, hf]
      rw [after_error hrun, after_error hf]
  | error e s₁ =>
    rw [after_error hx]
    cases hf : f.run s₁ with
    | ok _ s₂ =>
      have hrun : (ensure x f).run s = .error e s₂ := by
        show ensure x f s = _
        rw [ensure, after_error hx, hx, hf]
      rw [after_error hrun, after_ok hf]
    | error e' s₂ =>
      have hrun : (ensure x f).run s = .error e' s₂ := by
        show ensure x f s = _
        rw [ensure, after_error hx, hx, hf]
      rw [after_error hrun, after_error hf]

/-- A second part that cannot raise. -/
theorem outcome_ensure {f : EStateM ε σ Unit} (x : EStateM ε σ α) {s s' : σ}
    (h : f.run (after x s) = .ok () s') : outcome (ensure x f) s = outcome x s := by
  cases hx : x.run s with
  | ok a s₁ =>
    have hrun : (ensure x f).run s = .ok a s' := by
      show ensure x f s = _
      rw [ensure, h, hx]
    rw [outcome_ok hrun, outcome_ok hx]
  | error e s₁ =>
    have hrun : (ensure x f).run s = .error e s' := by
      show ensure x f s = _
      rw [ensure, h, hx]
    rw [outcome_error hrun, outcome_error hx]

/-! ## Two programs side by side -/

section Agree

variable {τ : Type} {R : σ → τ → Prop} {y : EStateM ε τ α} {g : α → EStateM ε τ β}

/-- From related states both programs end in related states, with the same result or
the same exception. -/
def Agree (R : σ → τ → Prop) (x : EStateM ε σ α) (y : EStateM ε τ α) : Prop :=
  ∀ s t, R s t → outcome x s = outcome y t ∧ R (after x s) (after y t)

theorem agree_pure (a : α) : Agree R (pure a : EStateM ε σ α) (pure a) :=
  fun _ _ h => ⟨rfl, h⟩

theorem agree_throw (e : ε) : Agree R (throw e : EStateM ε σ α) (throw e) :=
  fun _ _ h => ⟨rfl, h⟩

theorem agree_modify {u : σ → σ} {v : τ → τ} (h : ∀ s t, R s t → R (u s) (v t)) :
    Agree (ε := ε) R (modify u) (modify v) :=
  fun s t hst => ⟨rfl, h s t hst⟩

theorem agree_read {p : σ → β} {q : τ → β} (h : ∀ s t, R s t → p s = q t) :
    Agree (ε := ε) R (read p) (read q) :=
  fun s t hst => ⟨congrArg Except.ok (h s t hst), hst⟩

theorem Agree.bind (hx : Agree R x y) (hf : ∀ a, Agree R (f a) (g a)) :
    Agree R (x >>= f) (y >>= g) := by
  intro s t hst
  obtain ⟨hout, hrel⟩ := hx s t hst
  cases hxr : x.run s with
  | ok a s₁ =>
    cases hyr : y.run t with
    | ok b t₁ =>
      rw [outcome_ok hxr, outcome_ok hyr, Except.ok.injEq] at hout
      rw [after_ok hxr, after_ok hyr] at hrel
      subst hout
      rw [outcome, outcome, after, after, bind_ok hxr, bind_ok hyr]
      exact hf a s₁ t₁ hrel
    | error e t₁ =>
      rw [outcome_ok hxr, outcome_error hyr] at hout
      cases hout
  | error e s₁ =>
    cases hyr : y.run t with
    | ok b t₁ =>
      rw [outcome_error hxr, outcome_ok hyr] at hout
      cases hout
    | error e' t₁ =>
      rw [outcome_error hxr, outcome_error hyr, Except.error.injEq] at hout
      rw [after_error hxr, after_error hyr] at hrel
      subst hout
      rw [outcome_error (bind_error hxr), outcome_error (bind_error hyr),
        after_error (bind_error hxr), after_error (bind_error hyr)]
      exact ⟨rfl, hrel⟩

theorem Agree.attempt (h : Agree R x y) : Agree R (attempt x) (attempt y) := by
  intro s t hst
  obtain ⟨hout, hrel⟩ := h s t hst
  exact ⟨congrArg (fun o => Except.ok (raised o)) hout, hrel⟩

/-- Something that only the first program does at its end. -/
theorem Agree.ensure_left {u : σ → σ} (h : Agree R x y) (hu : ∀ s t, R s t → R (u s) t) :
    Agree R (ensure x (modify u)) y := by
  intro s t hst
  obtain ⟨hout, hrel⟩ := h s t hst
  have hu' : (modify u : EStateM ε σ Unit).run (after x s) = .ok () (u (after x s)) := rfl
  rw [outcome_ensure x hu', after_ensure]
  exact ⟨hout, hu _ _ hrel⟩

/-- Something that only the first program does at its beginning. -/
theorem Agree.modify_left {u : σ → σ} {x : EStateM ε σ α} (h : Agree R x y)
    (hu : ∀ s t, R s t → R (u s) t) : Agree R (modify u >>= fun _ => x) y :=
  fun s t hst => h (u s) t (hu s t hst)

end Agree

/-! ## Sequences -/

section Sequences

variable {τ ι : Type} (f : ι → EStateM ε σ α) (g : ι → τ → Except ε α × τ)

/-- What each of several computations returns or raises, one after the other. -/
def outcomes : List ι → σ → List (Except ε α)
  | [], _ => []
  | x :: xs, s => outcome (f x) s :: outcomes xs (after (f x) s)

def afterAll : List ι → σ → σ
  | [], s => s
  | x :: xs, s => afterAll xs (after (f x) s)

/-- The same for an abstract machine. -/
def Machine.outcomes : List ι → τ → List (Except ε α)
  | [], _ => []
  | x :: xs, t => (g x t).1 :: Machine.outcomes xs (g x t).2

def Machine.afterAll : List ι → τ → τ
  | [], t => t
  | x :: xs, t => Machine.afterAll xs (g x t).2

variable {f g} {R : List ι → σ → τ → Prop} {s : σ} {t : τ}

/-- **Refinement.** Related states stay related, and their results agree, if this holds
of every single computation. The relation can speak of the computations still to come. -/
theorem outcomes_eq (hstep : ∀ x xs s t, R (x :: xs) s t →
      outcome (f x) s = (g x t).1 ∧ R xs (after (f x) s) (g x t).2)
    (xs : List ι) (h : R xs s t) :
    outcomes f xs s = Machine.outcomes g xs t ∧
      R [] (afterAll f xs s) (Machine.afterAll g xs t) := by
  induction xs generalizing s t with
  | nil => exact ⟨rfl, h⟩
  | cons x xs ih =>
    obtain ⟨hout, hrel⟩ := hstep x xs s t h
    obtain ⟨houts, hend⟩ := ih hrel
    exact ⟨by rw [outcomes, Machine.outcomes, hout, houts], hend⟩

end Sequences

end LocalStack.Stateful
