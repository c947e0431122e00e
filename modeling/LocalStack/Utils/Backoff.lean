import Mathlib.Algebra.Order.Field.Basic
import Mathlib.Algebra.Order.Field.Rat
import Mathlib.Data.List.Induction
import Mathlib.Tactic.Linarith
import Mathlib.Tactic.LinearCombination
import Mathlib.Tactic.NormNum

/-! Exponential backoff of `utils/backoff.py`, over rational numbers. The clock and the random
numbers are arguments of a call. -/

namespace LocalStack.Utils.Backoff

/-! ## The object -/

/-- The fields with their constraints. -/
structure ExponentialBackoff where
  initial_interval : ℚ
  randomization_factor : ℚ
  multiplier : ℚ
  max_interval : ℚ
  max_retries : ℤ
  max_time_elapsed : ℚ
  initial_interval_gt : 0 < initial_interval
  randomization_factor_ge : 0 ≤ randomization_factor
  randomization_factor_le : randomization_factor ≤ 1
  multiplier_gt : 1 < multiplier
  max_interval_gt : 0 < max_interval
  max_retries_ge : -1 ≤ max_retries
  max_time_elapsed_ge : -1 ≤ max_time_elapsed

structure State where
  retry_interval : ℚ
  retries : ℤ
  start_time : ℚ
  deriving DecidableEq

/-- What a call gets from outside: the clock, which it may read twice, and `random.random()`. -/
structure Call where
  started : ℚ
  checked : ℚ
  draw : ℚ
  started_le_checked : started ≤ checked
  draw_nonneg : 0 ≤ draw
  draw_lt_one : draw < 1

/-- `__post_init__`. -/
def post_init : State := ⟨0, 0, 0⟩

def reset (_ : State) : State := ⟨0, 0, 0⟩

def elapsed_duration (s : State) (now : ℚ) : ℚ := max (now - s.start_time) 0

/-- `random.uniform`. -/
def uniform (low high draw : ℚ) : ℚ := low + (high - low) * draw

namespace ExponentialBackoff

variable (b : ExponentialBackoff)

/-- The state in which the limits are checked. -/
def counted (c : Call) (s : State) : State :=
  let s := if s.retry_interval = 0 then
    { s with retry_interval := b.initial_interval, start_time := c.started } else s
  { s with retries := s.retries + 1 }

/-- `max_retries` or `max_time_elapsed` is set and exceeded. -/
def Exceeded (c : Call) (s : State) : Prop :=
  (b.max_retries ≥ 0 ∧ (b.counted c s).retries > b.max_retries) ∨
    (b.max_time_elapsed > 0 ∧ elapsed_duration (b.counted c s) c.checked > b.max_time_elapsed)

instance (c : Call) (s : State) : Decidable (b.Exceeded c s) :=
  inferInstanceAs (Decidable (_ ∨ _))

def next_interval (c : Call) (s : State) : ℚ :=
  if 0 < b.randomization_factor ∧ b.randomization_factor ≤ 1 then
    uniform (s.retry_interval * (1 - b.randomization_factor))
      (s.retry_interval * (1 + b.randomization_factor)) c.draw
  else s.retry_interval

def next_backoff (c : Call) (s : State) : ℚ × State :=
  let counted := b.counted c s
  if b.Exceeded c s then (0, counted)
  else (b.next_interval c counted, { counted with
    retry_interval := min b.max_interval (counted.retry_interval * b.multiplier) })

end ExponentialBackoff

/-! ## Runs -/

inductive Event
  | next_backoff (c : Call)
  | reset

def Event.call : Event → Option Call
  | next_backoff c => some c
  | reset => none

/-- No clock reading is earlier than one before it. -/
def Clock (events : List Event) : Prop :=
  (events.filterMap Event.call).Pairwise fun c d => c.checked ≤ d.started

/-- The calls after construction or the last reset. -/
def calls : List Event → ℕ := List.foldl (fun n e => match e with
  | .next_backoff _ => n + 1
  | .reset => 0) 0

namespace ExponentialBackoff

variable (b : ExponentialBackoff)

def step (s : State) : Event → State
  | .next_backoff c => (b.next_backoff c s).2
  | .reset => reset s

def state (events : List Event) : State := events.foldl b.step post_init

/-- The base interval of the `n`-th call. -/
def base (n : ℕ) : ℚ := min b.max_interval (b.initial_interval * b.multiplier ^ (n - 1))

/-- A call within the limits returns a value around the base interval. -/
def Formula (events : List Event) : Prop :=
  ∀ before c after, events = before ++ .next_backoff c :: after →
    ¬b.Exceeded c (b.state before) →
      b.base (calls before + 1) * (1 - b.randomization_factor) ≤
        (b.next_backoff c (b.state before)).1 ∧
      (b.next_backoff c (b.state before)).1 ≤
        b.base (calls before + 1) * (1 + b.randomization_factor)

/-- Once a limit is exceeded, calls return 0 until the object is reset. -/
def Stops (events : List Event) : Prop :=
  ∀ before c between d after,
    events = before ++ .next_backoff c :: (between ++ .next_backoff d :: after) →
    .reset ∉ between → b.Exceeded c (b.state before) →
      (b.next_backoff c (b.state before)).1 = 0 ∧
      (b.next_backoff d (b.state (before ++ .next_backoff c :: between))).1 = 0

/-! ## Limits -/

theorem next_backoff_of_exceeded {b : ExponentialBackoff} {c : Call} {s : State}
    (h : b.Exceeded c s) : b.next_backoff c s = (0, b.counted c s) := if_pos h

theorem next_backoff_of_not_exceeded {b : ExponentialBackoff} {c : Call} {s : State}
    (h : ¬b.Exceeded c s) : b.next_backoff c s = (b.next_interval c (b.counted c s),
      { b.counted c s with
        retry_interval := min b.max_interval ((b.counted c s).retry_interval * b.multiplier) }) :=
  if_neg h

theorem counted_retry_interval_ne (c : Call) (s : State) :
    (b.counted c s).retry_interval ≠ 0 := by
  rw [counted]
  split
  · exact b.initial_interval_gt.ne'
  · next h => exact h

theorem counted_of_ne {s : State} (h : s.retry_interval ≠ 0) (c : Call) :
    b.counted c s = { s with retries := s.retries + 1 } := by
  rw [counted, if_neg h]

/-- A limit that is exceeded stays exceeded. -/
theorem exceeded_next {c d : Call} {s : State} (h : b.Exceeded c s)
    (hclock : c.checked ≤ d.checked) : b.Exceeded d (b.next_backoff c s).2 := by
  rw [next_backoff_of_exceeded h, Exceeded,
    counted_of_ne b (counted_retry_interval_ne b c s) d]
  rcases h with ⟨hset, hretries⟩ | ⟨hset, helapsed⟩
  · refine .inl ⟨hset, ?_⟩
    dsimp only
    omega
  · refine .inr ⟨hset, ?_⟩
    have hle : elapsed_duration (b.counted c s) c.checked ≤
        elapsed_duration (b.counted c s) d.checked := max_le_max_right 0 (by linarith)
    exact lt_of_lt_of_le helapsed hle

theorem exceeded_run {c : Call} {s : State} (h : b.Exceeded c s) {between : List Event}
    (hreset : .reset ∉ between) {d : Call}
    (hclock : ((.next_backoff c :: between).filterMap Event.call ++ [d]).Pairwise
      fun c d => c.checked ≤ d.started) :
    b.Exceeded d (between.foldl b.step (b.next_backoff c s).2) := by
  induction between generalizing c s with
  | nil =>
    have hcd : c.checked ≤ d.started := by simpa [Event.call] using hclock
    exact exceeded_next b h (hcd.trans d.started_le_checked)
  | cons e between ih =>
    rw [List.mem_cons, not_or] at hreset
    cases e with
    | reset => exact absurd rfl hreset.1
    | next_backoff e =>
      obtain ⟨hc, hrest⟩ := List.pairwise_cons.mp hclock
      have hce : c.checked ≤ e.started := hc e (by simp [Event.call])
      exact ih (exceeded_next b h (hce.trans e.started_le_checked)) hreset.2 hrest

theorem stops {events : List Event} (hclock : Clock events) : b.Stops events := by
  rintro before c between d after rfl hreset h
  have hpart : ((.next_backoff c :: between).filterMap Event.call ++ [d]).Pairwise
      fun c d => c.checked ≤ d.started := by
    have hsub : List.Sublist (.next_backoff c :: between ++ [.next_backoff d])
        (before ++ .next_backoff c :: (between ++ .next_backoff d :: after)) := by
      refine List.Sublist.trans ?_ (List.sublist_append_right before _)
      simp
    have hcalls := hclock.sublist (hsub.filterMap Event.call)
    rwa [List.filterMap_append] at hcalls
  refine ⟨by rw [next_backoff_of_exceeded h], ?_⟩
  have hd := exceeded_run b h hreset hpart
  have hstate : b.state (before ++ .next_backoff c :: between) =
      between.foldl b.step (b.next_backoff c (b.state before)).2 := by
    rw [state, List.foldl_append, List.foldl_cons]
    rfl
  rw [hstate, next_backoff_of_exceeded hd]

/-! ## The formula -/

theorem calls_concat (events : List Event) (c : Call) :
    calls (events ++ [.next_backoff c]) = calls events + 1 := by
  rw [calls, List.foldl_append, List.foldl_cons, List.foldl_nil]

theorem state_concat (events : List Event) (e : Event) :
    b.state (events ++ [e]) = b.step (b.state events) e := by
  rw [state, List.foldl_append, List.foldl_cons, List.foldl_nil, ← state]

theorem base_succ (n : ℕ) :
    b.base (n + 1) = min b.max_interval (b.initial_interval * b.multiplier ^ n) := rfl

theorem base_pos (n : ℕ) : 0 < b.base n := by
  have hmultiplier : 0 < b.multiplier := by linarith [b.multiplier_gt]
  exact lt_min b.max_interval_gt (mul_pos b.initial_interval_gt (pow_pos hmultiplier _))

theorem min_min_mul {m x k : ℚ} (hm : 0 < m) (hk : 1 < k) :
    min m (min m x * k) = min m (x * k) := by
  have hle : m ≤ m * k := le_mul_of_one_le_right hm.le hk.le
  rw [min_mul_of_nonneg _ _ (by linarith), ← min_assoc, min_eq_left hle]

/-- The interval that a call uses. -/
theorem counted_retry_interval {s : State} {n : ℕ}
    (h : s.retry_interval = if n = 0 then 0 else b.base (n + 1)) (c : Call) :
    (b.counted c s).retry_interval = if n = 0 then b.initial_interval else b.base (n + 1) := by
  by_cases hn : n = 0
  · rw [if_pos hn] at h ⊢
    rw [counted, if_pos h]
  · rw [if_neg hn] at h ⊢
    have hinterval : s.retry_interval ≠ 0 := by
      rw [h]
      exact (b.base_pos (n + 1)).ne'
    rw [counted, if_neg hinterval, h]

/-- After a call within the limits, the object has the base interval of the next one. -/
theorem retry_interval_of_calls {events : List Event} {c : Call}
    (hclock : Clock (events ++ [.next_backoff c])) (h : ¬b.Exceeded c (b.state events)) :
    (b.state events).retries = calls events ∧ (b.state events).retry_interval =
      if calls events = 0 then 0 else b.base (calls events + 1) := by
  induction events using List.reverseRecOn generalizing c with
  | nil => exact ⟨rfl, rfl⟩
  | append_singleton events e ih =>
    cases e with
    | reset =>
      have hcalls : calls (events ++ [.reset]) = 0 := by
        rw [calls, List.foldl_append]
        rfl
      rw [state_concat, hcalls]
      exact ⟨rfl, rfl⟩
    | next_backoff e =>
      rw [Clock, List.filterMap_append, List.pairwise_append] at hclock
      have hec : e.checked ≤ c.checked := by
        have hstarted : e.checked ≤ c.started :=
          hclock.2.2 e (by simp [Event.call]) c (by simp [Event.call])
        exact hstarted.trans c.started_le_checked
      rw [state_concat, step] at h ⊢
      have he : ¬b.Exceeded e (b.state events) := fun he => h (exceeded_next b he hec)
      obtain ⟨hretries, hinterval⟩ := ih hclock.1 he
      rw [calls_concat, if_neg (Nat.succ_ne_zero _), next_backoff_of_not_exceeded he]
      constructor
      · rw [Nat.cast_add_one, ← hretries, counted]
        split <;> rfl
      · dsimp only
        rw [counted_retry_interval b hinterval, b.base_succ (calls events + 1)]
        split
        · next hcalls => rw [hcalls, zero_add, pow_one]
        · rw [b.base_succ (calls events), min_min_mul b.max_interval_gt b.multiplier_gt, mul_assoc,
            pow_succ]

theorem factor_eq_zero (h : ¬(0 < b.randomization_factor ∧ b.randomization_factor ≤ 1)) :
    b.randomization_factor = 0 := by
  by_contra hne
  exact h ⟨lt_of_le_of_ne b.randomization_factor_ge (Ne.symm hne), b.randomization_factor_le⟩

theorem next_interval_mem {c : Call} {s : State} (h : 0 ≤ s.retry_interval) :
    s.retry_interval * (1 - b.randomization_factor) ≤ b.next_interval c s ∧
      b.next_interval c s ≤ s.retry_interval * (1 + b.randomization_factor) := by
  rw [next_interval]
  split
  · have hwidth : 0 ≤ s.retry_interval * b.randomization_factor :=
      mul_nonneg h b.randomization_factor_ge
    have hlow := mul_nonneg hwidth c.draw_nonneg
    have hhigh := mul_le_mul_of_nonneg_left c.draw_lt_one.le hwidth
    constructor <;> rw [uniform] <;> linarith
  · next hfactor =>
    rw [factor_eq_zero b hfactor, sub_zero, add_zero, mul_one]
    exact ⟨le_refl _, le_refl _⟩

theorem formula_of_capped (hcap : b.initial_interval ≤ b.max_interval ∨ b.max_retries = 0)
    {events : List Event} (hclock : Clock events) : b.Formula events := by
  rintro before c after rfl h
  have hclock' : Clock (before ++ [.next_backoff c]) := by
    have hsub : List.Sublist (before ++ [.next_backoff c])
        (before ++ .next_backoff c :: after) := by
      simp
    exact hclock.sublist (hsub.filterMap Event.call)
  obtain ⟨hretries, hinterval⟩ := retry_interval_of_calls b hclock' h
  have hcounted := counted_retry_interval b hinterval c
  have hbase : (b.counted c (b.state before)).retry_interval = b.base (calls before + 1) := by
    rw [hcounted]
    split
    · next hcalls =>
      rw [hcalls, Nat.cast_zero] at hretries
      rcases hcap with hcap | hzero
      · rw [hcalls, base, zero_add, Nat.sub_self, pow_zero, mul_one, min_eq_right hcap]
      · refine absurd (.inl ⟨hzero.ge, ?_⟩) h
        rw [hzero, counted]
        split <;> simp [hretries]
    · rfl
  rw [next_backoff_of_not_exceeded h, ← hbase]
  refine next_interval_mem b ?_
  rw [hbase]
  exact (b.base_pos _).le

/-- A first call that is within the limits, at any time. -/
def firstCall (draw : ℚ) (h0 : 0 ≤ draw) (h1 : draw < 1) : Call := ⟨0, 0, draw, le_refl 0, h0, h1⟩

theorem firstCall_not_exceeded (h : b.max_retries ≠ 0) {draw : ℚ} (h0 : 0 ≤ draw) (h1 : draw < 1) :
    ¬b.Exceeded (firstCall draw h0 h1) post_init := by
  rintro (⟨hset, hretries⟩ | ⟨hset, helapsed⟩)
  · have hone : (b.counted (firstCall draw h0 h1) post_init).retries = 1 := rfl
    omega
  · have hzero : elapsed_duration (b.counted (firstCall draw h0 h1) post_init)
        (firstCall draw h0 h1).checked = 0 := by
      simp [elapsed_duration, counted, post_init, firstCall]
    linarith

theorem capped_of_formula (h : ∀ events, Clock events → b.Formula events) :
    b.initial_interval ≤ b.max_interval ∨ b.max_retries = 0 := by
  by_contra hcap
  rw [not_or, not_le] at hcap
  obtain ⟨hcap, hretries⟩ := hcap
  -- the draw leaves more than the cap allows, however small the difference is
  have hratio : b.max_interval / b.initial_interval < 1 :=
    (div_lt_one b.initial_interval_gt).mpr hcap
  have hratio0 : 0 < b.max_interval / b.initial_interval :=
    div_pos b.max_interval_gt b.initial_interval_gt
  let draw := (1 + b.max_interval / b.initial_interval) / 2
  have h0 : 0 ≤ draw := by dsimp only [draw]; linarith
  have h1 : draw < 1 := by dsimp only [draw]; linarith
  let c := firstCall draw h0 h1
  have hclock : Clock [.next_backoff c] := by simp [Clock, Event.call]
  have hwithin := firstCall_not_exceeded b hretries h0 h1
  have hhigh := (h _ hclock [] c [] rfl hwithin).2
  rw [show b.state [] = post_init from rfl, next_backoff_of_not_exceeded hwithin] at hhigh
  have hbase : b.base (calls [] + 1) = b.max_interval := by
    rw [base_succ, show calls [] = 0 from rfl, pow_zero, mul_one, min_eq_left hcap.le]
  have hinterval : (b.counted c post_init).retry_interval = b.initial_interval := rfl
  have hcancel : b.initial_interval * (b.max_interval / b.initial_interval) = b.max_interval :=
    mul_div_cancel₀ _ b.initial_interval_gt.ne'
  have hnext : b.next_interval c (b.counted c post_init) =
      b.initial_interval + b.randomization_factor * b.max_interval := by
    rw [next_interval, hinterval]
    split
    · rw [uniform, show c.draw = (1 + b.max_interval / b.initial_interval) / 2 from rfl]
      linear_combination b.randomization_factor * hcancel
    · next hfactor =>
      rw [factor_eq_zero b hfactor, zero_mul, add_zero]
  rw [hbase] at hhigh
  linarith

/-- The formula and the limits hold in every run just when the first interval is below the cap,
or there is no first interval. -/
theorem formula_iff : (∀ events, Clock events → b.Formula events ∧ b.Stops events) ↔
    b.initial_interval ≤ b.max_interval ∨ b.max_retries = 0 := by
  constructor
  · exact fun h => capped_of_formula b fun events hclock => (h events hclock).1
  · exact fun hcap events hclock => ⟨formula_of_capped b hcap hclock, stops b hclock⟩

/-- An initial interval of ten under a cap of one. -/
def uncapped : ExponentialBackoff where
  initial_interval := 10
  randomization_factor := 0
  multiplier := 2
  max_interval := 1
  max_retries := -1
  max_time_elapsed := -1
  initial_interval_gt := by norm_num
  randomization_factor_ge := le_refl 0
  randomization_factor_le := zero_le_one
  multiplier_gt := by norm_num
  max_interval_gt := zero_lt_one
  max_retries_ge := le_refl _
  max_time_elapsed_ge := le_refl _

theorem uncapped_first_interval : ∃ events, Clock events ∧ ¬uncapped.Formula events := by
  have hretries : uncapped.max_retries ≠ 0 := by decide
  let c := firstCall 0 (le_refl 0) zero_lt_one
  refine ⟨[.next_backoff c], by simp [Clock, Event.call], fun h => ?_⟩
  have hwithin := firstCall_not_exceeded uncapped hretries (le_refl 0) zero_lt_one
  have hhigh := (h [] c [] rfl hwithin).2
  have hvalue : (uncapped.next_backoff c (uncapped.state [])).1 = 10 := by
    rw [show uncapped.state [] = post_init from rfl, next_backoff_of_not_exceeded hwithin]
    norm_num [next_interval, uncapped, counted, post_init]
  rw [hvalue, show calls [] = 0 from rfl, base_succ] at hhigh
  norm_num [uncapped] at hhigh

end ExponentialBackoff

end LocalStack.Utils.Backoff
