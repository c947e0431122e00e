import LocalStack.Lib.Runs
import Mathlib.Logic.Function.Basic

/-! `singleton_factory` of `utils/objects.py` under any number of threads. Every access
to the value and to the lock is one step. A factory that calls the singleton itself is
a call above another one in the same thread. -/

namespace LocalStack.Utils.Singleton
open LocalStack.Runs

variable {α ε : Type*}

/-- `value` is never `some` of `None`. -/
structure Value (α : Type*) where
  value : Option α

namespace Value

def clear : Value α := ⟨none⟩

def set (v : α) : Value α := ⟨some v⟩

def is_set (x : Value α) : Bool := x.value.isSome

def get (x : Value α) : Option α := x.value

/-- `__bool__`; `truthy` is the truth value of objects. -/
def bool (truthy : α → Bool) (x : Value α) : Bool := x.value.any truthy

end Value

/-- Where a call of `_singleton_factory` stands; `leave` releases the lock. -/
inductive Point (α ε : Type*)
  | enter
  | fastGet
  | acquire
  | recheck
  | creating
  | store (v : α)
  | get
  | leave (r : Except ε (Option α))

/-- `lock` has the thread that holds the lock and how often, and `frames` the calls of
each thread, the innermost first. `made` and `returned` record what the factory and the
calls have returned since the last `clear`. -/
structure World (α ε : Type*) where
  instance_ : Value α
  lock : Option (Nat × Nat)
  frames : Nat → List (Point α ε)
  made : List α
  returned : List (Option α)

/-- A thread begins a call, or its innermost call goes on; `outcome` is that of the
factory, where it ends. -/
inductive Action (α ε : Type*)
  | call (thread : Nat)
  | move (thread : Nat) (outcome : Except ε α)
  | clear

namespace World

def setStack (w : World α ε) (t : Nat) (l : List (Point α ε)) : World α ε :=
  { w with frames := Function.update w.frames t l }

/-- `lock.acquire()` of a lock that its owner can take again. -/
def acquire (w : World α ε) (t : Nat) : Option (World α ε) :=
  match w.lock with
  | none => some { w with lock := some (t, 1) }
  | some (owner, depth) => if owner = t then some { w with lock := some (t, depth + 1) } else none

def release (w : World α ε) : World α ε :=
  match w.lock with
  | some (owner, depth + 2) => { w with lock := some (owner, depth + 1) }
  | _ => { w with lock := none }

/-- The call on top ends. -/
def finish (w : World α ε) (t : Nat) (rest : List (Point α ε)) (r : Except ε (Option α)) :
    World α ε :=
  match r with
  | .ok v => { w with returned := w.returned ++ [v] }.setStack t rest
  | .error _ => w.setStack t rest

end World

section
variable (truthy : α → Bool)

/-- The innermost call of thread `t` goes on from `p`. -/
def move (w : World α ε) (t : Nat) (outcome : Except ε α) (p : Point α ε)
    (rest : List (Point α ε)) : Option (World α ε) :=
  match p with
  | .enter => some (w.setStack t ((if w.instance_.is_set then .fastGet else .acquire) :: rest))
  | .fastGet => some (w.finish t rest (.ok w.instance_.get))
  | .acquire => (w.acquire t).map fun w => w.setStack t (.recheck :: rest)
  | .recheck =>
    some (w.setStack t ((if w.instance_.bool truthy then .get else .creating) :: rest))
  | .creating =>
    match outcome with
    | .ok v => some ({ w with made := w.made ++ [v] }.setStack t (.store v :: rest))
    | .error e => some (w.setStack t (.leave (.error e) :: rest))
  | .store v => some ({ w with instance_ := .set v }.setStack t (.get :: rest))
  | .get => some (w.setStack t (.leave (.ok w.instance_.get) :: rest))
  | .leave r => some (w.release.finish t rest r)

def step (w : World α ε) (a : Action α ε) : Option (World α ε) :=
  match a with
  | .call t =>
    match w.frames t with
    | [] => some (w.setStack t [.enter])
    | .creating :: rest => some (w.setStack t (.enter :: .creating :: rest))
    | _ => none
  | .move t outcome =>
    match w.frames t with
    | [] => none
    | p :: rest => move truthy w t outcome p rest
  | .clear => some { w with instance_ := .clear, made := [], returned := [] }

/-! ## Creating once -/

/-- Since the last `clear`, the factory has returned at most once, and every call that
returned has returned its value. -/
structure CreatedOnce (w : World α ε) : Prop where
  once : w.made.length ≤ 1
  same : ∀ r ∈ w.returned, ∃ v, r = some v ∧ w.made = [v]

/-- `clear` is only called while no call is in progress. -/
def ClearsIdle (w : World α ε) (a : Action α ε) : Prop :=
  a = .clear → ∀ t, w.frames t = []

/-- No call is made from inside the factory, and no test under the lock sees a value
that is false. -/
def TestsAgree (w : World α ε) (a : Action α ε) : Bool :=
  match a with
  | .call t => (w.frames t).isEmpty
  | .move t _ =>
    match w.frames t with
    | .recheck :: _ => w.instance_.value.all truthy
    | _ => true
  | .clear => true

end

structure Initial (w : World α ε) : Prop where
  value : w.instance_.value = none
  lock : w.lock = none
  frames : ∀ t, w.frames t = []
  made : w.made = []
  returned : w.returned = []

/-! ## What holds in every run -/

/-- Inside `with lock`. -/
def Point.Inside : Point α ε → Prop
  | .recheck | .creating | .store _ | .get | .leave _ => True
  | _ => False

/-- What is known about the value at a point. -/
def Point.Fits (value : Option α) (made : List α) : Point α ε → Prop
  | .fastGet | .get => value ≠ none
  | .creating => value = none ∧ made = []
  | .store v => value = none ∧ made = [v]
  | .leave (.ok r) => ∃ v, r = some v ∧ made = [v]
  | _ => True

structure Invariant (w : World α ε) : Prop where
  single : ∀ t, (w.frames t).length ≤ 1
  owner : ∀ t d, w.lock = some (t, d) ↔ d = 1 ∧ ∃ p ∈ w.frames t, p.Inside
  point : ∀ t, ∀ p ∈ w.frames t, p.Fits w.instance_.value w.made
  value : ∀ v, w.instance_.value = some v → w.made = [v]
  unset : w.instance_.value = none → w.made = [] ∨ ∃ t v, .store v ∈ w.frames t ∧ w.made = [v]
  returned : ∀ r ∈ w.returned, ∃ v, r = some v ∧ w.made = [v]

variable {truthy : α → Bool} {w w' : World α ε} {t : Nat} {p q : Point α ε}

theorem initial_invariant (h : Initial w) : Invariant w := by
  constructor
  · simp [h.frames]
  · simp [h.lock, h.frames]
  · simp [h.frames]
  · simp [h.value]
  · exact fun _ => .inl h.made
  · simp [h.returned]

theorem Invariant.createdOnce (h : Invariant w) : CreatedOnce w := by
  refine ⟨?_, h.returned⟩
  cases hv : w.instance_.value with
  | none =>
    rcases h.unset hv with hm | ⟨_, _, -, hm⟩
    · simp [hm]
    · simp [hm]
  | some v => simp [h.value v hv]

/-- There is one call inside the lock. -/
theorem Invariant.unique (h : Invariant w) {t' : Nat} (hs : w.frames t = [p]) (hp : p.Inside)
    (hq : q ∈ w.frames t') (hi : q.Inside) : t' = t ∧ q = p := by
  have hown : w.lock = some (t, 1) := (h.owner t 1).mpr ⟨rfl, p, by simp [hs], hp⟩
  have hown' : w.lock = some (t', 1) := (h.owner t' 1).mpr ⟨rfl, q, hq, hi⟩
  have ht : t = t' := by
    rw [hown] at hown'
    exact congrArg Prod.fst (Option.some.inj hown')
  subst ht
  rw [hs, List.mem_singleton] at hq
  exact ⟨rfl, hq⟩

section Frames

variable {l : List (Point α ε)} {t' : Nat}

/-- The lock after a step of thread `t`: as before, taken or released. -/
inductive LockStep (w w' : World α ε) (t : Nat) (l : List (Point α ε)) : Prop
  | same (hlock : w'.lock = w.lock)
      (hinside : (∃ p ∈ l, p.Inside) ↔ ∃ p ∈ w.frames t, p.Inside) : LockStep w w' t l
  | taken (hfree : w.lock = none) (hlock : w'.lock = some (t, 1)) (hinside : ∃ p ∈ l, p.Inside) :
      LockStep w w' t l
  | released (hheld : w.lock = some (t, 1)) (hlock : w'.lock = none)
      (hinside : ¬∃ p ∈ l, p.Inside) : LockStep w w' t l

theorem Invariant.owner_step (h : Invariant w) (hframes : w'.frames = Function.update w.frames t l)
    (hlock : LockStep w w' t l) (t' d : Nat) :
    w'.lock = some (t', d) ↔ d = 1 ∧ ∃ p ∈ w'.frames t', p.Inside := by
  have hown := h.owner t' d
  by_cases ht : t' = t
  · subst ht
    rw [hframes, Function.update_self]
    cases hlock with
    | same hlock hinside => rw [hlock, hown, hinside]
    | taken _ hlock hinside => simp [hlock, hinside, eq_comm]
    | released _ hlock hinside => simp [hlock, hinside]
  · rw [hframes, Function.update_of_ne ht]
    cases hlock with
    | same hlock _ => rw [hlock, hown]
    | taken hfree hlock _ =>
      rw [hfree] at hown
      simp [hlock, Ne.symm ht, ← hown]
    | released hheld hlock _ =>
      rw [hheld] at hown
      simp [hlock, ← hown, Ne.symm ht]

/-- A step of thread `t` keeps the invariant if it keeps what the other threads know. -/
theorem Invariant.advance (h : Invariant w) (hframes : w'.frames = Function.update w.frames t l)
    (hl : l.length ≤ 1) (hlock : LockStep w w' t l)
    (hfit : ∀ p ∈ l, p.Fits w'.instance_.value w'.made)
    (hothers : ∀ t' ≠ t, ∀ p ∈ w.frames t', p.Fits w'.instance_.value w'.made)
    (hvalue : ∀ v, w'.instance_.value = some v → w'.made = [v])
    (hunset : w'.instance_.value = none →
      w'.made = [] ∨ ∃ t v, .store v ∈ w'.frames t ∧ w'.made = [v])
    (hreturned : ∀ r ∈ w'.returned, ∃ v, r = some v ∧ w'.made = [v]) : Invariant w' := by
  refine ⟨fun t' => ?_, h.owner_step hframes hlock, fun t' => ?_, hvalue, hunset, hreturned⟩
  · by_cases ht : t' = t
    · rw [ht, hframes, Function.update_self]
      exact hl
    · rw [hframes, Function.update_of_ne ht]
      exact h.single t'
  · by_cases ht : t' = t
    · rw [ht, hframes, Function.update_self]
      exact hfit
    · rw [hframes, Function.update_of_ne ht]
      exact hothers t' ht

theorem Invariant.unset_step (h : Invariant w) (hframes : w'.frames = Function.update w.frames t l)
    (hstore : ∀ v, .store v ∉ w.frames t) (hmade : w'.made = w.made)
    (hv : w.instance_.value = none) :
    w'.made = [] ∨ ∃ t v, .store v ∈ w'.frames t ∧ w'.made = [v] := by
  rw [hmade]
  refine (h.unset hv).imp_right ?_
  rintro ⟨t', v, hmem, hm⟩
  have ht : t' ≠ t := by
    rintro rfl
    exact hstore v hmem
  refine ⟨t', v, ?_, hm⟩
  rw [hframes, Function.update_of_ne ht]
  exact hmem

/-- Only the point of one thread changes, and it stays on its side of the lock. -/
theorem Invariant.goto (h : Invariant w) (hl : l.length ≤ 1)
    (hinside : (∃ p ∈ l, p.Inside) ↔ ∃ p ∈ w.frames t, p.Inside)
    (hfit : ∀ p ∈ l, p.Fits w.instance_.value w.made) (hstore : ∀ v, .store v ∉ w.frames t) :
    Invariant (w.setStack t l) :=
  h.advance rfl hl (.same rfl hinside) hfit (fun t' _ => h.point t') h.value
    (h.unset_step rfl hstore rfl) h.returned

end Frames

theorem Invariant.others_outside (h : Invariant w) (hs : w.frames t = [p]) (hp : p.Inside)
    {t' : Nat} (ht : t' ≠ t) (hq : q ∈ w.frames t') : ¬q.Inside :=
  fun hi => ht (h.unique hs hp hq hi).1

/-- Outside the lock, all that is known is that there is a value. -/
theorem Point.Fits.of_outside {value value' : Option α} {made made' : List α}
    (h : q.Fits value made) (hi : ¬q.Inside) (hv : value ≠ none → value' ≠ none) :
    q.Fits value' made' := by
  cases q with
  | fastGet => exact hv h
  | enter => trivial
  | acquire => trivial
  | _ => exact absurd trivial hi

theorem acquire_invariant (h : Invariant w) (hs : w.frames t = [.acquire])
    (hm : (w.acquire t).map (fun w => w.setStack t [.recheck]) = some w') : Invariant w' := by
  have hstore : ∀ v, .store v ∉ w.frames t := by simp [hs]
  unfold World.acquire at hm
  split at hm
  · rename_i hlock
    cases hm
    refine h.advance rfl (by simp) (.taken hlock rfl ⟨.recheck, by simp, trivial⟩) ?_
      (fun t' _ => h.point t') h.value (h.unset_step rfl hstore rfl) h.returned
    simp [Point.Fits]
  · rename_i owner depth hlock
    split at hm
    · rename_i ht
      subst ht
      obtain ⟨-, p, hp, hi⟩ := (h.owner owner depth).mp hlock
      rw [hs, List.mem_singleton] at hp
      subst hp
      exact hi.elim
    · cases hm

/-- Where the test under the lock fails, nothing has been made. -/
theorem unmade_of_recheck (h : Invariant w) (hs : w.frames t = [.recheck])
    (hok : ∀ v, w.instance_.value = some v → truthy v = true)
    (hb : ¬w.instance_.bool truthy = true) : w.instance_.value = none ∧ w.made = [] := by
  have hv : w.instance_.value = none := by
    cases hv : w.instance_.value with
    | none => rfl
    | some v => exact absurd (by simp [Value.bool, hv, hok v hv]) hb
  refine ⟨hv, (h.unset hv).resolve_right ?_⟩
  rintro ⟨t', v, hmem, -⟩
  have heq := (h.unique hs trivial hmem trivial).2
  cases heq

theorem create_invariant (h : Invariant w) (hs : w.frames t = [.creating]) (v : α) :
    Invariant ({ w with made := w.made ++ [v] }.setStack t [.store v]) := by
  obtain ⟨hv, hm⟩ := h.point t .creating (by simp [hs])
  refine h.advance rfl (by simp) (.same rfl (by simp [hs, Point.Inside])) ?_ ?_ ?_ ?_ ?_
  · simp [World.setStack, Point.Fits, hv, hm]
  · intro t' ht q hq
    exact (h.point t' q hq).of_outside (h.others_outside hs trivial ht hq) id
  · intro x hx
    exact absurd (hv.symm.trans hx) (by simp)
  · intro _
    exact .inr ⟨t, v, by simp [World.setStack], by simp [World.setStack, hm]⟩
  · intro r hr
    obtain ⟨x, -, hx⟩ := h.returned r hr
    rw [hm] at hx
    cases hx

theorem store_invariant (h : Invariant w) {v : α} (hs : w.frames t = [.store v]) :
    Invariant ({ w with instance_ := .set v }.setStack t [.get]) := by
  obtain ⟨-, hm⟩ := h.point t (.store v) (by simp [hs])
  refine h.advance rfl (by simp) (.same rfl (by simp [hs, Point.Inside])) ?_ ?_ ?_ ?_ h.returned
  · simp [World.setStack, Point.Fits, Value.set]
  · intro t' ht q hq
    exact (h.point t' q hq).of_outside (h.others_outside hs trivial ht hq) fun _ => by
      simp [World.setStack, Value.set]
  · intro x hx
    cases hx
    exact hm
  · intro hx
    cases hx

theorem finish_invariant (h : Invariant w) {lock : Option (Nat × Nat)} {r : Except ε (Option α)}
    (hlock : LockStep w { w with lock := lock } t []) (hstore : ∀ v, .store v ∉ w.frames t)
    (hr : ∀ x, r = .ok x → ∃ v, x = some v ∧ w.made = [v]) :
    Invariant ({ w with lock := lock }.finish t [] r) := by
  have hlock' : ∀ w', w'.lock = lock → LockStep w w' t [] := by
    intro w' hw
    cases hlock with
    | same hl hin => exact .same (hw.trans hl) hin
    | taken hf hl hin => exact .taken hf (hw.trans hl) hin
    | released hf hl hin => exact .released hf (hw.trans hl) hin
  cases r with
  | error e =>
    exact h.advance rfl (by simp) (hlock' _ rfl) (by simp) (fun t' _ => h.point t') h.value
      (h.unset_step rfl hstore rfl) h.returned
  | ok x =>
    refine h.advance rfl (by simp) (hlock' _ rfl) (by simp) (fun t' _ => h.point t') h.value
      (h.unset_step rfl hstore rfl) ?_
    intro y hy
    rcases List.mem_append.mp hy with hy | hy
    · exact h.returned y hy
    · rw [List.mem_singleton.mp hy]
      exact hr x rfl

theorem move_invariant (h : Invariant w) (hs : w.frames t = [p]) {outcome : Except ε α}
    (hok : p = .recheck → ∀ v, w.instance_.value = some v → truthy v = true)
    (hm : move truthy w t outcome p [] = some w') : Invariant w' := by
  have hfit := h.point t p (by simp [hs])
  cases p with
  | enter =>
    cases hm
    refine h.goto (by simp) ?_ ?_ (by simp [hs])
    · rw [hs]
      split <;> simp [Point.Inside]
    · split
      · rename_i hset
        simpa [Point.Fits, Value.is_set, Option.isSome_iff_ne_none] using hset
      · simp [Point.Fits]
  | fastGet =>
    cases hm
    obtain ⟨v, hv⟩ := Option.ne_none_iff_exists'.mp hfit
    refine finish_invariant h (.same rfl (by simp [hs, Point.Inside])) (by simp [hs]) ?_
    rintro _ ⟨⟩
    exact ⟨v, hv, h.value v hv⟩
  | acquire => exact acquire_invariant h hs hm
  | recheck =>
    cases hm
    refine h.goto (by simp) ?_ ?_ (by simp [hs])
    · rw [hs]
      split <;> simp [Point.Inside]
    · split
      · rename_i hb
        have hv : w.instance_.value ≠ none := by
          rintro hv
          simp [Value.bool, hv] at hb
        simpa [Point.Fits] using hv
      · rename_i hb
        simpa [Point.Fits] using unmade_of_recheck h hs (hok rfl) hb
  | creating =>
    cases outcome with
    | ok v =>
      cases hm
      exact create_invariant h hs v
    | error e =>
      cases hm
      exact h.goto (by simp) (by simp [hs, Point.Inside]) (by simp [Point.Fits]) (by simp [hs])
  | store v =>
    cases hm
    exact store_invariant h hs
  | get =>
    cases hm
    obtain ⟨v, hv⟩ := Option.ne_none_iff_exists'.mp hfit
    refine h.goto (by simp) (by simp [hs, Point.Inside]) ?_ (by simp [hs])
    simpa [Point.Fits, Value.get, hv] using h.value v hv
  | leave r =>
    cases hm
    have hheld : w.lock = some (t, 1) := (h.owner t 1).mpr ⟨rfl, .leave r, by simp [hs], trivial⟩
    have hrelease : w.release = { w with lock := none } := by rw [World.release, hheld]
    rw [hrelease]
    refine finish_invariant h (.released hheld rfl (by simp)) (by simp [hs]) ?_
    rintro x rfl
    exact hfit

theorem clear_invariant (h : Invariant w) (hidle : ∀ t, w.frames t = []) :
    Invariant { w with instance_ := .clear, made := [], returned := [] } := by
  refine ⟨h.single, h.owner, ?_, ?_, fun _ => .inl rfl, by simp⟩
  · simp [hidle]
  · simp [Value.clear]

theorem step_invariant {a : Action α ε} (h : Invariant w) (hidle : ClearsIdle w a)
    (hok : TestsAgree truthy w a) (hs : step truthy w a = some w') : Invariant w' := by
  cases a with
  | call t =>
    have hempty : w.frames t = [] := List.isEmpty_iff.mp hok
    simp only [step, hempty, Option.some.injEq] at hs
    subst hs
    exact h.goto (by simp) (by simp [hempty, Point.Inside]) (by simp [Point.Fits]) (by simp [hempty])
  | move t outcome =>
    simp only [step] at hs
    split at hs
    · cases hs
    · rename_i p rest hstack
      have hrest : rest = [] := by
        have hlen := h.single t
        rw [hstack, List.length_cons] at hlen
        exact List.eq_nil_of_length_eq_zero (by omega)
      subst hrest
      refine move_invariant h hstack (fun hp v hv => ?_) hs
      subst hp
      simpa [TestsAgree, hstack, hv] using hok
  | clear =>
    cases hs
    exact clear_invariant h (hidle rfl)

theorem run_invariant {w₀ : World α ε} {es : List (Event (World α ε) (Action α ε))}
    (h₀ : Initial w₀) (h : Run (step truthy) w₀ es w) (hidle : Guarded ClearsIdle es)
    (hok : Guarded (fun w a => TestsAgree truthy w a) es) : Always Invariant w₀ es := by
  have hstep : ∀ (w : World α ε) a w', Invariant w → (ClearsIdle w a ∧ TestsAgree truthy w a) →
      step truthy w a = some w' → Invariant w' :=
    fun _ _ _ hi hg hs => step_invariant hi hg.1 hg.2 hs
  exact h.always (initial_invariant h₀) hstep fun e he => ⟨hidle e he, hok e he⟩

/-- While no call is in progress, the lock is free. -/
theorem Invariant.lock_free (h : Invariant w) (hidle : ∀ t, w.frames t = []) : w.lock = none := by
  rcases hlock : w.lock with _ | ⟨t, d⟩
  · rfl
  · obtain ⟨-, p, hp, -⟩ := (h.owner t d).mp hlock
    rw [hidle t] at hp
    cases hp

/-- `clear` makes the beginning of it again. -/
theorem clear_initial (h : Invariant w) (hidle : ∀ t, w.frames t = []) :
    Initial { w with instance_ := .clear, made := [], returned := [] } :=
  ⟨rfl, h.lock_free hidle, hidle, rfl, rfl⟩

/-- A run whose first action moves the innermost call of a thread. -/
theorem exists_run_move {rest : List (Point α ε)} {outcome : Except ε α} {l : List (Action α ε)}
    {P : World α ε → Prop} (hframes : w.frames t = p :: rest)
    (hmove : move truthy w t outcome p rest = some w')
    (h : ∃ es u, Run (step truthy) w' es u ∧ es.map Event.label = l ∧ P u) :
    ∃ es u, Run (step truthy) w es u ∧ es.map Event.label = .move t outcome :: l ∧ P u := by
  obtain ⟨es, u, hr, hl, hu⟩ := h
  have hstep : step truthy w (.move t outcome) = some w' := by
    simp only [step, hframes]
    exact hmove
  exact ⟨_, u, hr.cons hstep, by rw [List.map_cons, hl], hu⟩

/-- One call alone, at the beginning. -/
theorem call_creates (h : Initial w) (t : Nat) (v : α) :
    ∃ es w', Run (step truthy) w es w' ∧
      es.map Event.label = .call t :: List.replicate 7 (.move t (.ok v)) ∧
      w'.made = [v] ∧ w'.returned = [some v] ∧ w'.instance_.value = some v := by
  obtain ⟨⟨value⟩, lock, frames, made, returned⟩ := w
  obtain ⟨rfl, rfl, hframes, rfl, rfl⟩ := h
  dsimp only at hframes
  have hcall : step truthy ⟨⟨none⟩, none, frames, [], []⟩ (.call t) =
      some (World.setStack ⟨⟨none⟩, none, frames, [], []⟩ t [.enter]) := by
    simp only [step, hframes]
  have hmoves : ∃ es u, Run (step truthy)
      (World.setStack ⟨⟨none⟩, none, frames, [], []⟩ t [.enter]) es u ∧
      es.map Event.label = List.replicate 7 (.move t (.ok v)) ∧
      u.made = [v] ∧ u.returned = [some v] ∧ u.instance_.value = some v := by
    -- one move for each point, from `enter` to `leave`
    iterate 7 refine exists_run_move (Function.update_self t _ _) rfl ?_
    exact ⟨[], _, .nil, rfl, rfl, rfl, rfl⟩
  obtain ⟨es, u, hr, hl, hu⟩ := hmoves
  exact ⟨_, u, hr.cons hcall, by rw [List.map_cons, hl], hu⟩

/-- **The factory creates once.** In every run in which no test under the lock sees a
value that is false and the factory does not call the singleton, the factory returns at
most once between two calls of `clear`, and every call returns that value. -/
theorem always_createdOnce {w₀ : World α ε} {es : List (Event (World α ε) (Action α ε))}
    (h₀ : Initial w₀) (h : Run (step truthy) w₀ es w) (hidle : Guarded ClearsIdle es)
    (hok : Guarded (fun w a => TestsAgree truthy w a) es) : Always CreatedOnce w₀ es := by
  have hinv := run_invariant h₀ h hidle hok
  exact ⟨hinv.1.createdOnce, fun e he => (hinv.2 e he).createdOnce⟩

/-- **After `clear`, a value is created once again**, by the next call. -/
theorem creates_after_clear {w₀ : World α ε} {es : List (Event (World α ε) (Action α ε))}
    (h₀ : Initial w₀) (h : Run (step truthy) w₀ es w) (hidle : Guarded ClearsIdle es)
    (hok : Guarded (fun w a => TestsAgree truthy w a) es) (hnone : ∀ t, w.frames t = [])
    (t : Nat) (v : α) :
    ∃ es' w', Run (step truthy) w es' w' ∧
      es'.map Event.label = .clear :: .call t :: List.replicate 7 (.move t (.ok v)) ∧
      w'.made = [v] ∧ w'.returned = [some v] ∧ w'.instance_.value = some v := by
  have hinv : Invariant w := h.last_of_always (run_invariant h₀ h hidle hok)
  obtain ⟨es', w', hrun, hlabels, hresult⟩ :=
    @call_creates _ _ truthy _ (clear_initial hinv hnone) t v
  exact ⟨_, w', hrun.cons rfl, by rw [List.map_cons, hlabels], hresult⟩

def unused : World Nat Nat := ⟨.clear, none, fun _ => [], [], []⟩

theorem unused_initial : Initial unused := ⟨rfl, rfl, fun _ => rfl, rfl, rfl⟩

/-- Two threads have passed the fast test when the factory returns 1, and a third one comes
when the value is there but the lock is not free. -/
def threeCalls : List (Action Nat Nat) :=
  .flatten [
    [.call 0, .move 0 (.ok 1), .call 1, .move 1 (.ok 1)],
    .replicate 4 (.move 0 (.ok 1)),
    [.call 2, .move 2 (.ok 1), .move 2 (.ok 1)],
    .replicate 2 (.move 0 (.ok 1)),
    .replicate 4 (.move 1 (.ok 1))]

theorem created_once : ∃ es w, Run (step fun n => n != 0) unused es w ∧
    Always CreatedOnce unused es ∧ w.returned = [some 1, some 1, some 1] := by
  obtain ⟨es, w, hr, hok, hl, hw⟩ := @exists_guarded_run _ _ (step fun n : Nat => n != 0) unused _
    (fun w a => TestsAgree (fun n => n != 0) w a) _ World.returned threeCalls
    [some 1, some 1, some 1] rfl
  have hclear : Guarded ClearsIdle es := by
    intro e he hc
    have hmem := List.mem_map_of_mem (f := Event.label) he
    rw [hl, hc] at hmem
    simp [threeCalls] at hmem
  exact ⟨es, w, hr, always_createdOnce unused_initial hr hclear hok, hw⟩

/-- Two threads have passed the fast test when the factory returns 0. -/
def twoCalls : List (Action Nat Nat) :=
  .flatten [
    [.call 0, .move 0 (.ok 0), .call 1, .move 1 (.ok 0)],
    .replicate 6 (.move 0 (.ok 0)),
    .replicate 6 (.move 1 (.ok 0))]

theorem created_twice : ∃ es w, Run (step fun n => n != 0) unused es w ∧
    (∀ e ∈ es, e.label ≠ .clear) ∧ w.made = [0, 0] := by
  obtain ⟨es, w, hr, -, hl, hw⟩ := @exists_guarded_run _ _ (step fun n : Nat => n != 0) unused _
    (fun _ _ => True) _ World.made twoCalls [0, 0] rfl
  refine ⟨es, w, hr, fun e he hc => ?_, hw⟩
  have hmem := List.mem_map_of_mem (f := Event.label) he
  rw [hl, hc] at hmem
  simp [twoCalls] at hmem

end LocalStack.Utils.Singleton
