import Mathlib.Data.List.Induction
import Mathlib.Data.Rat.Defs

/-! `Batcher` of `utils/batching.py`. What its calls have to return is stated on the
history of the calls alone, and the batcher is shown to agree with it. -/

namespace LocalStack.Utils.BatchPolicy

variable {α : Type*}

/-! ## The batcher -/

/-- The two limits, each `None` or positive. -/
structure Policy where
  max_count : Option Nat
  max_window : Option ℚ
  count_pos : ∀ n ∈ max_count, 0 < n
  window_pos : ∀ w ∈ max_window, 0 < w

/-- The fields of a `Batcher`. Where a method reads the clock, the reading is an
argument. -/
structure Batcher (α : Type*) where
  policy : Policy
  triggered : Bool
  last_batch_time : ℚ
  batch : List α

namespace Batcher

def new (policy : Policy) (now : ℚ) : Batcher α := ⟨policy, false, now, []⟩

def period (b : Batcher α) (now : ℚ) : ℚ := now - b.last_batch_time

def countReached (b : Batcher α) : Bool := b.policy.max_count.any (· ≤ b.batch.length)

def windowElapsed (b : Batcher α) (now : ℚ) : Bool := b.policy.max_window.any (· ≤ b.period now)

/-- `not self.max_count and not self.max_window`. -/
def unlimited (b : Batcher α) : Bool :=
  b.policy.max_count.all (· = 0) && b.policy.max_window.all (· = 0)

def _check_batch_policy (b : Batcher α) (now : ℚ) : Bool × Batcher α :=
  let b :=
    if b.countReached then { b with triggered := true }
    else if b.windowElapsed now then { b with triggered := true }
    else if b.unlimited then { b with triggered := true }
    else b
  (b.triggered, b)

def is_triggered (b : Batcher α) (now : ℚ) : Bool × Batcher α :=
  if b.triggered then (true, b) else b._check_batch_policy now

/-- `add` of an item or of a list of items; a deep copy of them is the same value. -/
def add (b : Batcher α) (item_or_items : α ⊕ List α) (now : ℚ) : Bool × Batcher α :=
  match item_or_items with
  | .inr items => is_triggered { b with batch := b.batch ++ items } now
  | .inl item => is_triggered { b with batch := b.batch ++ [item] } now

/-- The items that `flush` returns and those that it leaves. -/
def divide (b : Batcher α) (partially : Bool) : List α × List α :=
  match partially, b.policy.max_count with
  | true, some (n + 1) =>
    let batch_size := min (n + 1) b.batch.length
    (b.batch.take batch_size, b.batch.drop batch_size)
  | _, _ => (b.batch, [])

/-- `flush`, which reads the clock at `flushed` and again, for the check, at `checked`. -/
def flush (b : Batcher α) (partially : Bool) (flushed checked : ℚ) : List α × Batcher α :=
  let b' := { b with
    batch := (b.divide partially).2
    last_batch_time := flushed
    triggered := false }
  ((b.divide partially).1, (b'._check_batch_policy checked).2)

end Batcher

/-- A call with the times at which it reads the clock. -/
inductive Call (α : Type*)
  | add (item_or_items : α ⊕ List α) (now : ℚ)
  | flush (partially : Bool) (flushed checked : ℚ)
  | is_triggered (now : ℚ)

/-- The batcher and the lists that its flushes have returned. -/
structure World (α : Type*) where
  batcher : Batcher α
  flushed : List (List α)

def call (w : World α) : Call α → World α
  | .add items now => { w with batcher := (w.batcher.add items now).2 }
  | .flush partially flushed checked =>
    ⟨(w.batcher.flush partially flushed checked).2,
      w.flushed ++ [(w.batcher.flush partially flushed checked).1]⟩
  | .is_triggered now => { w with batcher := (w.batcher.is_triggered now).2 }

/-- The calls on a batcher made at the time `start`. -/
def calls (policy : Policy) (start : ℚ) (cs : List (Call α)) : World α :=
  cs.foldl call ⟨.new policy start, []⟩

/-! ## What the history says -/

/-- The items that a call adds. -/
def Call.items : Call α → List α
  | .add (.inr items) _ => items
  | .add (.inl item) _ => [item]
  | _ => []

def added (cs : List (Call α)) : List α := cs.flatMap Call.items

/-- The time of the last flush, or of the batcher's creation. -/
def lastFlush (start : ℚ) (cs : List (Call α)) : ℚ :=
  cs.foldl (fun t c => match c with | .flush _ flushed _ => flushed | _ => t) start

/-- The times at which the policy was to be checked since the last flush, with the
check that this flush makes. -/
def checks (cs : List (Call α)) : List ℚ :=
  cs.foldl (fun ts c => match c with
    | .flush _ _ checked => [checked]
    | .add _ now | .is_triggered now => ts ++ [now]) []

/-- The window since the last flush has elapsed at one of the checks. -/
def Elapsed (policy : Policy) (start : ℚ) (cs : List (Call α)) : Prop :=
  ∃ w ∈ policy.max_window, ∃ now ∈ checks cs, w ≤ now - lastFlush start cs

/-- A batch of `size` items is to be flushed. -/
def Due (policy : Policy) (start : ℚ) (cs : List (Call α)) (size : Nat) : Prop :=
  (∃ n ∈ policy.max_count, n ≤ size) ∨ Elapsed policy start cs ∨
    (policy.max_count = none ∧ policy.max_window = none)

/-! ## One call -/

theorem unlimited_iff (b : Batcher α) :
    b.unlimited = true ↔ b.policy.max_count = none ∧ b.policy.max_window = none := by
  rw [Batcher.unlimited, Bool.and_eq_true]
  refine and_congr ?_ ?_
  · cases h : b.policy.max_count with
    | none => simp
    | some n =>
      have := b.policy.count_pos n h
      simp only [Option.all_some, decide_eq_true_eq, reduceCtorEq, iff_false]
      omega
  · cases h : b.policy.max_window with
    | none => simp
    | some w =>
      have hpos := b.policy.window_pos w h
      simp only [Option.all_some, decide_eq_true_eq, reduceCtorEq, iff_false]
      rintro rfl
      exact Rat.lt_irrefl hpos

/-- What a check of the policy does to the flag; nothing else changes. -/
theorem check_spec (b : Batcher α) (now : ℚ) :
    ∃ flag, b._check_batch_policy now = (flag, { b with triggered := flag }) ∧
      (flag = true ↔ b.triggered = true ∨ (∃ n ∈ b.policy.max_count, n ≤ b.batch.length) ∨
        (∃ w ∈ b.policy.max_window, w ≤ now - b.last_batch_time) ∨
        (b.policy.max_count = none ∧ b.policy.max_window = none)) := by
  have hcount : b.countReached = true ↔ ∃ n ∈ b.policy.max_count, n ≤ b.batch.length := by
    simp [Batcher.countReached, Option.any_eq_true]
  have hwindow : b.windowElapsed now = true ↔
      ∃ w ∈ b.policy.max_window, w ≤ now - b.last_batch_time := by
    rw [Batcher.windowElapsed, Option.any_eq_true]
    exact exists_congr fun w => and_congr Iff.rfl decide_eq_true_iff
  rw [← hcount, ← hwindow, ← unlimited_iff, Batcher._check_batch_policy]
  split
  · exact ⟨true, rfl, by simp [*]⟩
  split
  · exact ⟨true, rfl, by simp [*]⟩
  split
  · exact ⟨true, rfl, by simp [*]⟩
  · exact ⟨b.triggered, rfl, by simp [*]⟩

theorem is_triggered_spec (b : Batcher α) (now : ℚ) :
    ∃ flag, b.is_triggered now = (flag, { b with triggered := flag }) ∧
      (flag = true ↔ b.triggered = true ∨ (∃ n ∈ b.policy.max_count, n ≤ b.batch.length) ∨
        (∃ w ∈ b.policy.max_window, w ≤ now - b.last_batch_time) ∨
        (b.policy.max_count = none ∧ b.policy.max_window = none)) := by
  rw [Batcher.is_triggered]
  split
  · rename_i h
    exact ⟨true, by rw [← h], by simp [h]⟩
  · exact check_spec b now

theorem add_eq (b : Batcher α) (items : α ⊕ List α) (now : ℚ) :
    b.add items now = Batcher.is_triggered
      { b with batch := b.batch ++ (Call.add items now).items } now := by
  cases items <;> rfl

/-- `add` returns the flag that it leaves. -/
theorem add_returns (b : Batcher α) (items : α ⊕ List α) (now : ℚ) :
    (b.add items now).1 = (b.add items now).2.triggered := by
  obtain ⟨flag, heq, -⟩ := is_triggered_spec
    { b with batch := b.batch ++ (Call.add items now).items } now
  rw [add_eq, heq]

theorem divide_append (b : Batcher α) (partially : Bool) :
    (b.divide partially).1 ++ (b.divide partially).2 = b.batch := by
  unfold Batcher.divide
  split
  · exact List.take_append_drop _ _
  · exact List.append_nil _

theorem divide_full {b : Batcher α} {partially : Bool}
    (h : partially = false ∨ b.policy.max_count = none) : (b.divide partially).2 = [] := by
  rcases h with rfl | h
  · rfl
  · cases partially <;> simp [Batcher.divide, h]

theorem length_divide {b : Batcher α} {n : Nat} (h : n ∈ b.policy.max_count) :
    (b.divide true).1.length = min n b.batch.length := by
  cases n with
  | zero => exact absurd (b.policy.count_pos 0 h) (Nat.lt_irrefl 0)
  | succ n =>
    have h : b.policy.max_count = some (n + 1) := h
    simp [Batcher.divide, h]

/-! ## A sequence of calls -/

theorem lastFlush_snoc (start : ℚ) (cs : List (Call α)) (c : Call α) :
    lastFlush start (cs ++ [c]) =
      match c with | .flush _ flushed _ => flushed | _ => lastFlush start cs := by
  cases c <;> simp [lastFlush]

theorem checks_snoc (cs : List (Call α)) (c : Call α) :
    checks (cs ++ [c]) = match c with
      | .flush _ _ checked => [checked]
      | .add _ now | .is_triggered now => checks cs ++ [now] := by
  cases c <;> simp [checks]

theorem calls_snoc (policy : Policy) (start : ℚ) (cs : List (Call α)) (c : Call α) :
    calls policy start (cs ++ [c]) = call (calls policy start cs) c := by
  simp [calls]

/-- What is carried from call to call. -/
structure Agrees (policy : Policy) (start : ℚ) (cs : List (Call α)) (w : World α) : Prop where
  policy_eq : w.batcher.policy = policy
  last : w.batcher.last_batch_time = lastFlush start cs
  conserved : w.flushed.flatten ++ w.batcher.batch = added cs
  triggered : w.batcher.triggered = true ↔
    cs ≠ [] ∧ Due policy start cs w.batcher.batch.length

variable {policy : Policy} {start : ℚ} {cs : List (Call α)} {w : World α}

/-- Between two flushes only the size and the number of checks can grow. -/
theorem due_grows {c : Call α} {now : ℚ} {m n : Nat} (hlast : lastFlush start (cs ++ [c]) =
      lastFlush start cs) (hchecks : checks (cs ++ [c]) = checks cs ++ [now]) (hle : m ≤ n) :
    ((cs ≠ [] ∧ Due policy start cs m) ∨ (∃ k ∈ policy.max_count, k ≤ n) ∨
      (∃ w ∈ policy.max_window, w ≤ now - lastFlush start cs) ∨
      (policy.max_count = none ∧ policy.max_window = none)) ↔ Due policy start (cs ++ [c]) n := by
  simp only [Due, Elapsed, hlast, hchecks, List.mem_append, List.mem_singleton]
  constructor
  · rintro (⟨-, ⟨k, hk, hkm⟩ | ⟨w, hw, t, ht, hwt⟩ | hnone⟩ | hcount | ⟨w, hw, hwt⟩ | hnone)
    · exact .inl ⟨k, hk, hkm.trans hle⟩
    · exact .inr (.inl ⟨w, hw, t, .inl ht, hwt⟩)
    · exact .inr (.inr hnone)
    · exact .inl hcount
    · exact .inr (.inl ⟨w, hw, now, .inr rfl, hwt⟩)
    · exact .inr (.inr hnone)
  · rintro (hcount | ⟨w, hw, t, ht | rfl, hwt⟩ | hnone)
    · exact .inr (.inl hcount)
    · refine .inl ⟨?_, .inr (.inl ⟨w, hw, t, ht, hwt⟩)⟩
      rintro rfl
      simp [checks] at ht
    · exact .inr (.inr (.inl ⟨w, hw, hwt⟩))
    · exact .inr (.inr (.inr hnone))

theorem agrees_new : Agrees policy start ([] : List (Call α)) ⟨.new policy start, []⟩ :=
  ⟨rfl, rfl, rfl, by simp [Batcher.new]⟩

theorem Agrees.add (h : Agrees policy start cs w) (items : α ⊕ List α) (now : ℚ) :
    Agrees policy start (cs ++ [.add items now]) (call w (.add items now)) := by
  obtain ⟨flag, heq, hflag⟩ := is_triggered_spec
    { w.batcher with batch := w.batcher.batch ++ (Call.add items now).items } now
  have hlast := lastFlush_snoc start cs (.add items now)
  rw [call, add_eq, heq]
  refine ⟨h.policy_eq, h.last.trans hlast.symm, ?_, ?_⟩
  · simp only [added, List.flatMap_append, List.flatMap_singleton]
    rw [← List.append_assoc, h.conserved, added]
  · simp only [h.policy_eq, h.last, h.triggered] at hflag
    rw [hflag, due_grows hlast (checks_snoc cs _) (by simp)]
    simp

theorem Agrees.is_triggered (h : Agrees policy start cs w) (now : ℚ) :
    Agrees policy start (cs ++ [.is_triggered now]) (call w (.is_triggered now)) := by
  obtain ⟨flag, heq, hflag⟩ := is_triggered_spec w.batcher now
  have hlast := lastFlush_snoc start cs (.is_triggered now)
  rw [call, heq]
  refine ⟨h.policy_eq, h.last.trans hlast.symm, ?_, ?_⟩
  · simpa [added, Call.items] using h.conserved
  · simp only [h.policy_eq, h.last, h.triggered] at hflag
    rw [hflag, due_grows hlast (checks_snoc cs _) le_rfl]
    simp

theorem Agrees.flush (h : Agrees policy start cs w) (partially : Bool) (flushed checked : ℚ) :
    Agrees policy start (cs ++ [.flush partially flushed checked])
      (call w (.flush partially flushed checked)) := by
  obtain ⟨flag, heq, hflag⟩ := check_spec { w.batcher with
    batch := (w.batcher.divide partially).2, last_batch_time := flushed, triggered := false } checked
  have hlast := lastFlush_snoc start cs (.flush partially flushed checked)
  have hchecks := checks_snoc cs (.flush partially flushed checked)
  rw [call, Batcher.flush]
  simp only [heq]
  refine ⟨h.policy_eq, hlast.symm, ?_, ?_⟩
  · simp only [List.flatten_append, List.flatten_singleton, List.append_assoc, divide_append]
    simpa [added, Call.items] using h.conserved
  · rw [hflag]
    simp [Due, Elapsed, hlast, hchecks, h.policy_eq]

theorem calls_agrees (policy : Policy) (start : ℚ) (cs : List (Call α)) :
    Agrees policy start cs (calls policy start cs) := by
  induction cs using List.reverseRecOn with
  | nil => exact agrees_new
  | append_singleton cs c ih =>
    rw [calls_snoc]
    cases c with
    | add items now => exact ih.add items now
    | flush partially flushed checked => exact ih.flush partially flushed checked
    | is_triggered now => exact ih.is_triggered now

/-- **Items are conserved in order, and the flag says when a batch is due.** -/
theorem calls_correct (policy : Policy) (start : ℚ) (cs : List (Call α)) :
    (calls policy start cs).flushed.flatten ++ (calls policy start cs).batcher.batch = added cs ∧
    (cs ≠ [] → ((calls policy start cs).batcher.triggered = true ↔
      Due policy start cs (calls policy start cs).batcher.batch.length)) ∧
    (∀ items now, ((calls policy start cs).batcher.add items now).1 =
      ((calls policy start cs).batcher.add items now).2.triggered) ∧
    (∀ partially flushed checked, partially = false ∨ policy.max_count = none →
      ((calls policy start cs).batcher.flush partially flushed checked).2.batch = []) ∧
    (∀ n ∈ policy.max_count, ∀ flushed checked,
      ((calls policy start cs).batcher.flush true flushed checked).1.length =
        min n (calls policy start cs).batcher.batch.length) := by
  have h := calls_agrees policy start cs
  refine ⟨h.conserved, fun hne => by simp [h.triggered, hne], add_returns _, ?_, ?_⟩
  · intro partially flushed checked hfull
    obtain ⟨flag, heq, -⟩ := check_spec { (calls policy start cs).batcher with
      batch := ((calls policy start cs).batcher.divide partially).2
      last_batch_time := flushed
      triggered := false } checked
    rw [Batcher.flush]
    simp only [heq]
    exact divide_full (by rwa [h.policy_eq])
  · intro n hn flushed checked
    exact length_divide (by rwa [h.policy_eq])

/-- Two partial flushes of three items and one more. -/
example : (calls ⟨some 2, none, by simp, by simp⟩ 0
    [.add (.inr [1, 2, 3]) 1, .flush true 2 2, .add (.inl 4) 3, .flush true 4 4]).flushed =
      [[1, 2], [3, 4]] := by decide

end LocalStack.Utils.BatchPolicy
