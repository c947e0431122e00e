import Mathlib.Data.List.Basic

/-! Runs of a labelled, partial step function. A label is one atomic action, and
an interleaving of several parties is a run whose labels name the party that
moves. Guarded invariants are carried along a run once here, so that a system
only proves what one step does. -/

namespace LocalStack.Runs

variable {σ α : Type*}

/-- One executed step: the state before it, its label and the state after it. -/
structure Event (σ α : Type*) where
  pre : σ
  label : α
  post : σ

/-- `Run step s es t`: the steps `es` lead from `s` to `t`. -/
inductive Run (step : σ → α → Option σ) (s : σ) : List (Event σ α) → σ → Prop
  | nil : Run step s [] s
  | snoc {es : List (Event σ α)} {t u : σ} {a : α} :
      Run step s es t → step t a = some u → Run step s (es ++ [⟨t, a, u⟩]) u

/-- Every step of `es` was taken in a state where its label was allowed. -/
def Guarded (ok : σ → α → Prop) (es : List (Event σ α)) : Prop :=
  ∀ e ∈ es, ok e.pre e.label

/-- `P` holds in the first state and after every step. -/
def Always (P : σ → Prop) (s : σ) (es : List (Event σ α)) : Prop :=
  P s ∧ ∀ e ∈ es, P e.post

variable {step : σ → α → Option σ} {s t u : σ} {es : List (Event σ α)} {a : α}

@[simp] theorem guarded_nil (ok : σ → α → Prop) : Guarded ok ([] : List (Event σ α)) := by
  simp [Guarded]

@[simp] theorem guarded_snoc (ok : σ → α → Prop) (e : Event σ α) :
    Guarded ok (es ++ [e]) ↔ Guarded ok es ∧ ok e.pre e.label := by
  simp [Guarded, or_imp, forall_and]

@[simp] theorem always_nil (P : σ → Prop) : Always P s ([] : List (Event σ α)) ↔ P s := by
  simp [Always]

@[simp] theorem always_snoc (P : σ → Prop) (e : Event σ α) :
    Always P s (es ++ [e]) ↔ Always P s es ∧ P e.post := by
  simp [Always, or_imp, forall_and, and_assoc]

/-- **Guarded invariants.** What every allowed step keeps holds at the end of
every run whose steps are all allowed. -/
theorem Run.invariant {I : σ → Prop} {ok : σ → α → Prop} (h : Run step s es t) (h0 : I s)
    (hstep : ∀ t a u, I t → ok t a → step t a = some u → I u) (hok : Guarded ok es) : I t := by
  induction h with
  | nil => exact h0
  | snoc _ hs ih =>
    rw [guarded_snoc] at hok
    exact hstep _ _ _ (ih hok.1) hok.2 hs

/-- A guarded invariant holds in every state of the run, not only the last. -/
theorem Run.always {I : σ → Prop} {ok : σ → α → Prop} (h : Run step s es t) (h0 : I s)
    (hstep : ∀ t a u, I t → ok t a → step t a = some u → I u) (hok : Guarded ok es) :
    Always I s es := by
  induction h with
  | nil => simpa using h0
  | snoc hr hs ih =>
    rw [guarded_snoc] at hok
    rw [always_snoc]
    exact ⟨ih hok.1, hstep _ _ _ (hr.invariant h0 hstep hok.1) hok.2 hs⟩

/-- An unguarded invariant. -/
theorem Run.keeps {I : σ → Prop} (h : Run step s es t) (h0 : I s)
    (hstep : ∀ t a u, I t → step t a = some u → I u) : I t :=
  @Run.invariant σ α step s t es I (fun _ _ => True) h h0 (fun t a u hi _ => hstep t a u hi)
    fun _ _ => trivial

theorem Run.keeps_always {I : σ → Prop} (h : Run step s es t) (h0 : I s)
    (hstep : ∀ t a u, I t → step t a = some u → I u) : Always I s es :=
  @Run.always σ α step s t es I (fun _ _ => True) h h0 (fun t a u hi _ => hstep t a u hi)
    fun _ _ => trivial

theorem Run.last_of_always {P : σ → Prop} (h : Run step s es t) (hp : Always P s es) : P t := by
  cases h with
  | nil => simpa using hp
  | snoc _ _ => exact ((always_snoc _ _).mp hp).2

/-- Where a run is cut in two, each part is a run. -/
theorem Run.split {e : Event σ α} (h : Run step s es t) (he : e ∈ es) :
    ∃ fs gs, es = fs ++ e :: gs ∧ Run step s fs e.pre ∧ step e.pre e.label = some e.post ∧
      Run step e.post gs t := by
  induction h with
  | nil => simp at he
  | @snoc es t u a hr hs ih =>
    rcases List.mem_append.mp he with h | h
    · obtain ⟨fs, gs, rfl, hf, hes, hg⟩ := ih h
      exact ⟨fs, gs ++ [⟨t, a, u⟩], by simp, hf, hes, hg.snoc hs⟩
    · rw [List.mem_singleton] at h
      subst h
      exact ⟨es, [], rfl, hr, hs, Run.nil⟩

/-- What holds throughout a run holds before each of its steps. -/
theorem Run.pre_of_always {P : σ → Prop} {e : Event σ α} (h : Run step s es t)
    (hp : Always P s es) (he : e ∈ es) : P e.pre := by
  obtain ⟨fs, gs, rfl, hpre, -, -⟩ := h.split he
  exact hpre.last_of_always ⟨hp.1, fun f hf => hp.2 f (List.mem_append_left _ hf)⟩

theorem Run.cons (hs : step s a = some t) (h : Run step t es u) :
    Run step s (⟨s, a, t⟩ :: es) u := by
  induction h with
  | nil => exact Run.nil.snoc hs
  | snoc _ hu ih => exact ih.snoc hu

/-- Run a list of labels; `none` as soon as one of them is not enabled. -/
def replay (step : σ → α → Option σ) : σ → List α → Option (List (Event σ α) × σ)
  | s, [] => some ([], s)
  | s, a :: as =>
    (step s a).bind fun t => (replay step t as).map fun r => (⟨s, a, t⟩ :: r.1, r.2)

theorem replay_run {as : List α} (h : replay step s as = some (es, t)) : Run step s es t := by
  induction as generalizing s es with
  | nil =>
    simp only [replay, Option.some.injEq, Prod.mk.injEq] at h
    obtain ⟨rfl, rfl⟩ := h
    exact Run.nil
  | cons a as ih =>
    simp only [replay, Option.bind_eq_some_iff, Option.map_eq_some_iff] at h
    obtain ⟨s', hs, r, hr, he⟩ := h
    obtain ⟨rfl, rfl⟩ := Prod.mk.inj he
    exact (ih hr).cons hs

theorem replay_labels {as : List α} (h : replay step s as = some (es, t)) :
    es.map Event.label = as := by
  induction as generalizing s es with
  | nil =>
    simp only [replay, Option.some.injEq, Prod.mk.injEq] at h
    obtain ⟨rfl, -⟩ := h
    rfl
  | cons a as ih =>
    simp only [replay, Option.bind_eq_some_iff, Option.map_eq_some_iff] at h
    obtain ⟨s', -, r, hr, he⟩ := h
    obtain ⟨rfl, rfl⟩ := Prod.mk.inj he
    rw [List.map_cons, ih hr]

/-- What is observed at the end of a replay is observed at the end of a run. -/
theorem exists_run_of_replay {β : Type*} {f : σ → β} {l : List α} {b : β}
    (h : (replay step s l).map (fun r => f r.2) = some b) :
    ∃ es t, Run step s es t ∧ f t = b := by
  obtain ⟨r, hr, hb⟩ := Option.map_eq_some_iff.mp h
  exact ⟨r.1, r.2, replay_run hr, hb⟩

/-- The same, where the guard is checked along the way. -/
theorem exists_guarded_run {β : Type*} {ok : σ → α → Prop} [∀ s a, Decidable (ok s a)]
    {f : σ → β} {l : List α} {b : β}
    (h : (replay step s l).map (fun r => (decide (∀ e ∈ r.1, ok e.pre e.label), f r.2)) =
      some (true, b)) :
    ∃ es t, Run step s es t ∧ Guarded ok es ∧ es.map Event.label = l ∧ f t = b := by
  obtain ⟨r, hr, hb⟩ := Option.map_eq_some_iff.mp h
  obtain ⟨hdec, hf⟩ := Prod.mk.inj hb
  have hok : ∀ e ∈ r.1, ok e.pre e.label := of_decide_eq_true hdec
  exact ⟨r.1, r.2, replay_run hr, hok, replay_labels hr, hf⟩

end LocalStack.Runs
