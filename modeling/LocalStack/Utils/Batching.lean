import LocalStack.Lib.Runs
import Mathlib.Data.Rat.Defs

/-! `AsyncBatcher` of `utils/batching.py` as a transition system. Each
lock-protected section is one step, and so are the unlocked test of `_closed`
and the handler call, so every interleaving of `add`, `run` and `close` is a
run of `step`. The main results say exactly when no accepted item is lost, and when
no batch is larger than `max_batch_size`. -/

namespace LocalStack.Utils.Batching
open LocalStack.Runs

variable {α : Type*}

/-! ## The batcher -/

/-- The fields of an `AsyncBatcher`; `notified` is the state of its waiter. -/
structure AsyncBatcher (α : Type*) where
  max_flush_interval : Option ℚ
  max_batch_size : Int
  buffer : List α
  closed : Bool
  notified : Bool

inductive AddError
  | stopped
  deriving DecidableEq, Repr

namespace AsyncBatcher

def new (max_flush_interval : Option ℚ) (max_batch_size : Int) : AsyncBatcher α :=
  ⟨max_flush_interval, max_batch_size, [], false, false⟩

/-- `add`: refused once the batcher is closed. -/
def add (b : AsyncBatcher α) (item : α) : Except AddError (AsyncBatcher α) :=
  if b.closed then .error .stopped
  else
    let buffer := b.buffer ++ [item]
    .ok { b with
      buffer := buffer
      notified := b.notified || decide (b.max_batch_size ≤ buffer.length) }

def close (b : AsyncBatcher α) : AsyncBatcher α :=
  if b.closed then b else { b with closed := true, notified := true }

end AsyncBatcher

/-- Where the thread inside `run()` stands. -/
inductive RunPoint (α : Type*)
  | notStarted
  | loopTest
  | beforeWait
  | waiting
  | flushed (batch : List α)
  | handling
  | returned
  deriving DecidableEq, Repr

/-- The batcher, its `run()` thread, and what callers have observed: the items
`add` accepted and the batches the handler was called with. -/
structure World (α : Type*) where
  batcher : AsyncBatcher α
  point : RunPoint α
  accepted : List α
  delivered : List (List α)

def World.init (max_flush_interval : Option ℚ) (max_batch_size : Int) : World α :=
  ⟨.new max_flush_interval max_batch_size, .notStarted, [], []⟩

inductive Action (α : Type*)
  | add (item : α)
  | close
  | startRun
  | testClosed
  | beginWait
  | wakeNotified
  | wakeTimeout
  | callHandler
  | handlerReturns

/-- The section after `wait` returns: `continue` on an empty buffer, else take
the whole buffer as the next batch. -/
def afterWait (w : World α) : World α :=
  if w.batcher.buffer = [] then { w with point := .loopTest }
  else { w with
    batcher := { w.batcher with buffer := [] }
    point := .flushed w.batcher.buffer }

def step (w : World α) : Action α → Option (World α)
  | .add item =>
    match w.batcher.add item with
    | .error _ => some w
    | .ok b => some { w with batcher := b, accepted := w.accepted ++ [item] }
  | .close => some { w with batcher := w.batcher.close }
  | .startRun =>
    match w.point with
    | .notStarted => some { w with point := .loopTest }
    | _ => none
  | .testClosed =>
    match w.point with
    | .loopTest => some { w with point := if w.batcher.closed then .returned else .beforeWait }
    | _ => none
  | .beginWait =>
    match w.point with
    | .beforeWait =>
      some { w with batcher := { w.batcher with notified := false }, point := .waiting }
    | _ => none
  | .wakeNotified =>
    match w.point with
    | .waiting => if w.batcher.notified then some (afterWait w) else none
    | _ => none
  | .wakeTimeout =>
    -- the timeout may expire at any moment, unless there is none
    match w.point with
    | .waiting => if w.batcher.max_flush_interval.isSome then some (afterWait w) else none
    | _ => none
  | .callHandler =>
    match w.point with
    | .flushed batch => some { w with point := .handling, delivered := w.delivered ++ [batch] }
    | _ => none
  | .handlerReturns =>
    match w.point with
    | .handling => some { w with point := .loopTest }
    | _ => none

/-! ## What one step can do -/

/-- The effect of an action that is enabled in `w`. -/
inductive Effect (w : World α) : Action α → World α → Prop
  | refused (item : α) : w.batcher.closed = true → Effect w (.add item) w
  | accepted (item : α) (notified : Bool) : w.batcher.closed = false →
      Effect w (.add item)
        { w with
          batcher := { w.batcher with
            buffer := w.batcher.buffer ++ [item], notified := notified }
          accepted := w.accepted ++ [item] }
  | closeAgain : w.batcher.closed = true → Effect w .close w
  | closeFirst : w.batcher.closed = false →
      Effect w .close { w with batcher := { w.batcher with closed := true, notified := true } }
  | starts : w.point = .notStarted → Effect w .startRun { w with point := .loopTest }
  | leaves : w.point = .loopTest → w.batcher.closed = true →
      Effect w .testClosed { w with point := .returned }
  | loops : w.point = .loopTest → w.batcher.closed = false →
      Effect w .testClosed { w with point := .beforeWait }
  | waits : w.point = .beforeWait →
      Effect w .beginWait
        { w with batcher := { w.batcher with notified := false }, point := .waiting }
  | wakesEmpty (a : Action α) : a ≠ .close → w.point = .waiting → w.batcher.buffer = [] →
      Effect w a { w with point := .loopTest }
  | flushes (a : Action α) : a ≠ .close → w.point = .waiting → w.batcher.buffer ≠ [] →
      Effect w a
        { w with
          batcher := { w.batcher with buffer := [] }
          point := .flushed w.batcher.buffer }
  | calls (batch : List α) : w.point = .flushed batch →
      Effect w .callHandler
        { w with point := .handling, delivered := w.delivered ++ [batch] }
  | finishes : w.point = .handling → Effect w .handlerReturns { w with point := .loopTest }

theorem afterWait_effect {w : World α} (a : Action α) (ha : a ≠ .close)
    (hp : w.point = .waiting) : Effect w a (afterWait w) := by
  unfold afterWait
  split
  · next hb => exact .wakesEmpty a ha hp hb
  · next hb => exact .flushes a ha hp hb

theorem step_effect {w w' : World α} {a : Action α} (h : step w a = some w') :
    Effect w a w' := by
  cases a with
  | add item =>
    cases hc : w.batcher.closed <;> simp [step, AsyncBatcher.add, hc] at h <;> subst h
    · simpa only [hc] using Effect.accepted item _ hc
    · exact .refused item hc
  | close =>
    cases hc : w.batcher.closed <;> simp [step, AsyncBatcher.close, hc] at h <;> subst h
    · exact .closeFirst hc
    · exact .closeAgain hc
  | startRun =>
    cases hp : w.point <;> simp [step, hp] at h
    subst h
    exact .starts hp
  | testClosed =>
    cases hp : w.point <;> simp [step, hp] at h
    subst h
    cases hc : w.batcher.closed
    · exact .loops hp hc
    · exact .leaves hp hc
  | beginWait =>
    cases hp : w.point <;> simp [step, hp] at h
    subst h
    exact .waits hp
  | wakeNotified =>
    cases hp : w.point <;> simp [step, hp] at h
    obtain ⟨_, rfl⟩ := h
    exact afterWait_effect _ (by simp) hp
  | wakeTimeout =>
    cases hp : w.point <;> simp [step, hp] at h
    obtain ⟨_, rfl⟩ := h
    exact afterWait_effect _ (by simp) hp
  | callHandler =>
    cases hp : w.point <;> simp [step, hp] at h
    subst h
    exact .calls _ hp
  | handlerReturns =>
    cases hp : w.point <;> simp [step, hp] at h
    subst h
    exact .finishes hp

/-! ## Conservation -/

/-- The batch taken from the buffer that the handler has not seen yet. -/
def RunPoint.inFlight : RunPoint α → List α
  | .flushed batch => batch
  | _ => []

/-- Delivered, in flight and buffered items together are the accepted ones, in
the order of acceptance. -/
def Conserved (w : World α) : Prop :=
  w.delivered.flatten ++ w.point.inFlight ++ w.batcher.buffer = w.accepted

theorem conserved_step {w w' : World α} {a : Action α} (hi : Conserved w)
    (h : step w a = some w') : Conserved w' := by
  unfold Conserved at hi ⊢
  cases step_effect h with
  | accepted item n _ => simp [← hi]
  | flushes a _ hp _ => simp_all [RunPoint.inFlight]
  | calls batch hp => simp_all [RunPoint.inFlight]
  | _ => simp_all [RunPoint.inFlight]

/-- `run()` only returns after it has seen `_closed`. -/
def ReturnedClosed (w : World α) : Prop := w.point = .returned → w.batcher.closed = true

theorem returnedClosed_step {w w' : World α} {a : Action α} (hi : ReturnedClosed w)
    (h : step w a = some w') : ReturnedClosed w' := by
  unfold ReturnedClosed at hi ⊢
  cases step_effect h <;> simp_all

/-! ## The last flush -/

/-- `run()` is past its test of `_closed` and has not taken the buffer yet. -/
def RunPoint.MayFlush : RunPoint α → Prop
  | .beforeWait | .waiting => True
  | _ => False

/-- `close()` arrives while `run()` is still going to look at the buffer, or
when there is nothing left in it. -/
def ClosesInTime (w : World α) : Action α → Prop
  | .close => w.batcher.closed = true ∨ w.batcher.buffer = [] ∨ w.point.MayFlush
  | _ => True

/-- A closed batcher has no items left unless `run()` is still to flush them. -/
def NoneStranded (w : World α) : Prop :=
  w.batcher.closed = true → w.batcher.buffer = [] ∨ w.point.MayFlush

/-- Items are left in a closed batcher and `run()` will not look at them. -/
def Stranded (w : World α) : Prop :=
  w.batcher.closed = true ∧ w.batcher.buffer ≠ [] ∧ ¬ w.point.MayFlush

theorem noneStranded_step (w : World α) (a : Action α) (w' : World α) (hi : NoneStranded w)
    (hok : ClosesInTime w a) (h : step w a = some w') : NoneStranded w' := by
  unfold NoneStranded at hi ⊢
  cases step_effect h with
  | closeFirst hc => simpa [ClosesInTime, hc] using hok
  | _ => simp_all [RunPoint.MayFlush]

theorem stranded_step (w : World α) (a : Action α) (w' : World α) (hi : Stranded w)
    (h : step w a = some w') : Stranded w' := by
  unfold Stranded at hi ⊢
  cases step_effect h <;> simp_all [RunPoint.MayFlush]

theorem stranded_of_late_close {w w' : World α} {a : Action α} (hok : ¬ ClosesInTime w a)
    (h : step w a = some w') : Stranded w' := by
  unfold Stranded
  cases step_effect h <;> simp_all [ClosesInTime]

section Runs

variable {max_flush_interval : Option ℚ} {max_batch_size : Int} {w : World α}
  {es : List (Event (World α) (Action α))}

theorem run_conserved (h : Run step (.init max_flush_interval max_batch_size) es w) :
    Conserved w :=
  h.keeps (by simp [Conserved, World.init, AsyncBatcher.new, RunPoint.inFlight])
    (fun _ _ _ => conserved_step)

theorem run_returned_closed (h : Run step (.init max_flush_interval max_batch_size) es w)
    (hret : w.point = .returned) : w.batcher.closed = true :=
  h.keeps (I := ReturnedClosed) (by simp [ReturnedClosed, World.init])
    (fun _ _ _ => returnedClosed_step) hret

/-- What is missing from the handler's batches once `run()` has returned is
what is left in the buffer. -/
theorem delivered_iff_buffer_empty (h : Run step (.init max_flush_interval max_batch_size) es w)
    (hret : w.point = .returned) :
    w.delivered.flatten = w.accepted ↔ w.batcher.buffer = [] := by
  have hc := run_conserved h
  simp only [Conserved, hret, RunPoint.inFlight, List.append_nil] at hc
  rw [← hc]
  simp

/-- **No item is lost or duplicated, exactly when `close()` comes in time.**
Once `run()` has returned, the batches given to the handler are together the
accepted items, in order, if and only if `close()` was executed with an empty
buffer or while `run()` was between its test of `_closed` and its flush. -/
theorem delivered_iff_closesInTime
    (h : Run step (.init max_flush_interval max_batch_size) es w) (hret : w.point = .returned) :
    w.delivered.flatten = w.accepted ↔ Guarded ClosesInTime es := by
  rw [delivered_iff_buffer_empty h hret]
  constructor
  · intro hb e he
    by_contra hlate
    obtain ⟨_, _, _, _, hs, hrest⟩ := h.split he
    have hst := hrest.keeps (stranded_of_late_close hlate hs) stranded_step
    exact hst.2.1 hb
  · intro hok
    have hn : NoneStranded w :=
      h.invariant (by simp [NoneStranded, World.init, AsyncBatcher.new]) noneStranded_step hok
    rcases hn (run_returned_closed h hret) with hb | hm
    · exact hb
    · simp [hret, RunPoint.MayFlush] at hm

end Runs

/-- An item added while the handler runs, then `close()`. -/
def lateClose : List (Action Nat) :=
  [.startRun, .testClosed, .beginWait, .add 1, .wakeTimeout, .callHandler, .add 2, .close,
    .handlerReturns, .testClosed]

theorem lateClose_loses_item :
    ∃ es, ∃ w : World Nat, Run step (.init (some 10) 20) es w ∧ w.point = .returned ∧
      w.delivered.flatten ≠ w.accepted := by
  obtain ⟨es, w, hr, hw⟩ := exists_run_of_replay (s := .init (some 10) 20) (l := lateClose)
    (f := fun w => (w.point, w.delivered, w.accepted)) (b := (.returned, [[1]], [1, 2]))
    (by rfl : (replay step _ _).map _ = _)
  simp only [Prod.mk.injEq] at hw
  obtain ⟨hp, hd, ha⟩ := hw
  exact ⟨es, w, hr, hp, by rw [hd, ha]; decide⟩

/-- A full buffer, items that arrive while the handler runs, a timeout, and `close()` while
`run()` waits: the last flush delivers what is left. -/
def timelyClose : List (Action Nat) :=
  [.startRun, .testClosed, .beginWait, .add 1, .add 2, .wakeNotified, .callHandler, .add 3,
    .handlerReturns, .testClosed, .beginWait, .wakeTimeout, .add 4, .callHandler, .add 5,
    .handlerReturns, .testClosed, .beginWait, .close, .add 6, .wakeNotified, .callHandler,
    .handlerReturns, .testClosed]

theorem timelyClose_delivers :
    ∃ es, ∃ w : World Nat, Run step (.init (some 10) 2) es w ∧ Guarded ClosesInTime es ∧
      w.accepted = [1, 2, 3, 4, 5] ∧ w.delivered.flatten = w.accepted := by
  obtain ⟨es, w, hr, hw⟩ := exists_run_of_replay (s := .init (some 10) 2) (l := timelyClose)
    (f := fun w => (w.point, w.delivered, w.accepted))
    (b := (.returned, [[1, 2], [3], [4, 5]], [1, 2, 3, 4, 5]))
    (by rfl : (replay step _ _).map _ = _)
  simp only [Prod.mk.injEq] at hw
  obtain ⟨hp, hd, ha⟩ := hw
  have hall : w.delivered.flatten = w.accepted := by rw [hd, ha]; decide
  exact ⟨es, w, hr, (delivered_iff_closesInTime hr hp).mp hall, ha, hall⟩

/-! ## The size of a batch -/

/-- A batch as `max_batch_size` promises it. -/
def AsyncBatcher.IsBatch (b : AsyncBatcher α) (batch : List α) : Prop :=
  batch ≠ [] ∧ (batch.length : Int) ≤ b.max_batch_size

/-- What the handler has been called with. -/
def BatchesBounded (w : World α) : Prop := ∀ batch ∈ w.delivered, w.batcher.IsBatch batch

/-- No item is added to a buffer that already holds `max_batch_size` items. -/
def HasRoom (w : World α) : Action α → Prop
  | .add _ => w.batcher.closed = true ∨ (w.batcher.buffer.length : Int) < w.batcher.max_batch_size
  | _ => True

instance (w : World α) (a : Action α) : Decidable (HasRoom w a) := by
  cases a <;> unfold HasRoom <;> infer_instance

/-- Every accepted item has been given to the handler. -/
def Drained (w : World α) : Prop := w.batcher.buffer = [] ∧ w.point.inFlight = []

/-- Whatever is or becomes a batch has the promised size. -/
structure Sized (w : World α) : Prop where
  buffer : w.batcher.buffer ≠ [] → w.batcher.IsBatch w.batcher.buffer
  taken : ∀ batch, w.point = .flushed batch → w.batcher.IsBatch batch
  delivered : BatchesBounded w

/-- Something that is or becomes a batch is larger than `max_batch_size`. -/
def Oversized (w : World α) : Prop :=
  ∃ batch, (batch = w.batcher.buffer ∨ batch = w.point.inFlight ∨ batch ∈ w.delivered) ∧
    batch ≠ [] ∧ w.batcher.max_batch_size < batch.length

theorem sized_step (w : World α) (a : Action α) (w' : World α) (hi : Sized w)
    (hok : HasRoom w a) (h : step w a = some w') : Sized w' := by
  obtain ⟨hb, ht, hd⟩ := hi
  cases step_effect h with
  | accepted item n hc =>
    refine ⟨fun _ => ⟨by simp, ?_⟩, ht, hd⟩
    have hroom : (w.batcher.buffer.length : Int) < w.batcher.max_batch_size := by
      simpa [HasRoom, hc] using hok
    simp only [List.length_append, List.length_singleton]
    omega
  | flushes _ _ _ hne =>
    refine ⟨fun h => absurd rfl h, ?_, hd⟩
    rintro batch ⟨⟩
    exact hb hne
  | calls batch hp =>
    refine ⟨hb, by simp, ?_⟩
    intro b hmem
    rcases List.mem_append.mp hmem with hmem | hmem
    · exact hd b hmem
    · rw [List.mem_singleton.mp hmem]
      exact ht batch hp
  | refused | closeAgain => exact ⟨hb, ht, hd⟩
  | closeFirst => exact ⟨hb, ht, hd⟩
  | _ => exact ⟨hb, by simp, hd⟩

theorem oversized_step (w : World α) (a : Action α) (w' : World α) (hi : Oversized w)
    (h : step w a = some w') : Oversized w' := by
  obtain ⟨batch, hwhere, hne, hsize⟩ := hi
  cases step_effect h with
  | accepted item n hc =>
    rcases hwhere with rfl | hwhere
    · refine ⟨_, .inl rfl, by simp, ?_⟩
      simp only [List.length_append, List.length_singleton]
      omega
    · exact ⟨batch, .inr hwhere, hne, hsize⟩
  | flushes _ _ hp _ =>
    rcases hwhere with rfl | rfl | hmem
    · exact ⟨_, .inr (.inl rfl), hne, hsize⟩
    · exact absurd (by rw [hp]; rfl) hne
    · exact ⟨batch, .inr (.inr hmem), hne, hsize⟩
  | calls taken hp =>
    rcases hwhere with rfl | rfl | hmem
    · exact ⟨_, .inl rfl, hne, hsize⟩
    · exact ⟨_, .inr (.inr (by simp [hp, RunPoint.inFlight])), hne, hsize⟩
    · exact ⟨batch, .inr (.inr (by simp [hmem])), hne, hsize⟩
  | refused | closeAgain => exact ⟨batch, hwhere, hne, hsize⟩
  | closeFirst => exact ⟨batch, hwhere, hne, hsize⟩
  | starts hp | leaves hp | loops hp | waits hp | wakesEmpty _ _ hp | finishes hp =>
    rcases hwhere with rfl | rfl | hmem
    · exact ⟨_, .inl rfl, hne, hsize⟩
    · exact absurd (by rw [hp]; rfl) hne
    · exact ⟨batch, .inr (.inr hmem), hne, hsize⟩

theorem oversized_of_no_room {w w' : World α} {a : Action α} (hok : ¬ HasRoom w a)
    (h : step w a = some w') : Oversized w' := by
  cases a with
  | add item =>
    simp only [HasRoom, not_or, Bool.not_eq_true] at hok
    obtain ⟨hc, hfull⟩ := hok
    simp only [step, AsyncBatcher.add, hc, Bool.false_eq_true, if_false, Option.some.injEq] at h
    subst h
    refine ⟨_, .inl rfl, by simp, ?_⟩
    simp only [List.length_append, List.length_singleton]
    omega
  | _ => exact absurd trivial hok

theorem not_bounded_of_drained {w : World α} (hd : Drained w) (ho : Oversized w) :
    ¬ BatchesBounded w := by
  obtain ⟨batch, rfl | rfl | hmem, hne, hsize⟩ := ho
  · exact absurd hd.1 hne
  · exact absurd hd.2 hne
  · intro hb
    have := (hb batch hmem).2
    omega

/-- **Batches are bounded while nothing is added to a full buffer.** In such a run
every batch given to the handler is non-empty and holds at most `max_batch_size`
items; and once all accepted items have been handed over, an addition to a full
buffer has led to a batch that is too large. -/
theorem batches_bounded_iff_hasRoom {max_flush_interval : Option ℚ} {max_batch_size : Int}
    {w : World α} {es : List (Event (World α) (Action α))}
    (h : Run step (.init max_flush_interval max_batch_size) es w) :
    (Guarded HasRoom es → Always BatchesBounded (.init max_flush_interval max_batch_size) es) ∧
      (Drained w → (BatchesBounded w ↔ Guarded HasRoom es)) := by
  have hinit : Sized (World.init max_flush_interval max_batch_size : World α) :=
    ⟨fun h => absurd rfl h, by simp [World.init], by simp [BatchesBounded, World.init]⟩
  have hforward : Guarded HasRoom es → Always Sized _ es := h.always hinit sized_step
  refine ⟨fun hok => ⟨(hforward hok).1.delivered, fun e he => ((hforward hok).2 e he).delivered⟩,
    fun hd => ⟨fun hb e he => ?_, fun hok => (h.last_of_always (hforward hok)).delivered⟩⟩
  by_contra hfull
  obtain ⟨_, _, _, _, hs, hrest⟩ := h.split he
  exact not_bounded_of_drained hd (hrest.keeps (oversized_of_no_room hfull hs) oversized_step) hb

/-- Two items arrive before the waiting loop gets the lock back. -/
def lateWakeUp : List (Action Nat) :=
  [.startRun, .testClosed, .beginWait, .add 1, .add 2, .wakeNotified, .callHandler]

theorem lateWakeUp_exceeds_size :
    ∃ es, ∃ w : World Nat, Run step (.init (some 10) 1) es w ∧ ¬ BatchesBounded w := by
  obtain ⟨es, w, hr, hw⟩ := exists_run_of_replay (s := .init (some 10) 1) (l := lateWakeUp)
    (f := fun w => (w.delivered, w.batcher.max_batch_size)) (b := ([[1, 2]], 1))
    (by rfl : (replay step _ _).map _ = _)
  obtain ⟨hd, hm⟩ := Prod.mk.inj hw
  refine ⟨es, w, hr, fun hb => ?_⟩
  have hsize := (hb [1, 2] (by rw [hd]; simp)).2
  rw [hm] at hsize
  exact absurd hsize (by decide)

theorem timelyClose_bounded :
    ∃ es, ∃ w : World Nat, Run step (.init (some 10) 2) es w ∧ Guarded HasRoom es ∧
      w.delivered = [[1, 2], [3], [4, 5]] ∧ BatchesBounded w := by
  obtain ⟨es, w, hr, hok, -, hd⟩ := @exists_guarded_run _ _ step (.init (some 10) 2) _
    HasRoom _ (fun w => w.delivered) timelyClose [[1, 2], [3], [4, 5]] (by rfl)
  exact ⟨es, w, hr, hok, hd, hr.last_of_always ((batches_bounded_iff_hasRoom hr).1 hok)⟩

end LocalStack.Utils.Batching
