import LocalStack.Services.Plugins
import Mathlib.Logic.Function.Basic

/-! `ServiceLoader.require_service` under any number of concurrent requests. Every
access to the set of loaded services, to a service's lock and to the router's
table of handlers is one step. What the service manager answers, and whether
registering a handler fails, is not known: each step carries an outcome. -/

namespace LocalStack.Aws.Handlers.ServiceLoader
open LocalStack.OrderedDict LocalStack.Runs
open LocalStack.Services.Plugins (Outcome)

variable {ε : Type*}

/-! ## Requests -/

/-- The key of the router's handlers. -/
structure ServiceOperation where
  service : String
  operation : String
  deriving DecidableEq, Repr

/-- `dispatch_table` lists the keys of the table. -/
structure Skeleton where
  service_name : String
  dispatch_table : List String
  deriving DecidableEq, Repr

/-- What a service manager holds under a name: a `Service`, whose skeleton may be
`None`, or an object of another type. -/
inductive Plugin
  | service (skeleton : Option Skeleton)
  | other
  deriving DecidableEq, Repr

structure ServiceManager where
  exists_ : String → Bool
  is_api_enabled : String → Bool
  plugin : String → Plugin

/-- What a call into the service manager or into the router raises. -/
inductive CallError (ε : Type*)
  | pluginDisabled (reason : String)
  | other (e : ε)
  deriving DecidableEq, Repr

/-- What `require_service` raises. `attributeError` is `skeleton.service` of `None`. -/
inductive LoaderError (ε : Type*)
  | notImplemented (message : Option String)
  | pluginNotIncludedInUserLicense
  | attributeError
  | raised (e : CallError ε)
  deriving DecidableEq, Repr

inductive Result (ε : Type*)
  | returned
  | raised (e : LoaderError ε)
  deriving DecidableEq, Repr

/-- The `except PluginDisabled` clause. -/
def requireError : CallError ε → LoaderError ε
  | .pluginDisabled reason =>
    if reason = "This feature is not part of the active license agreement" then
      .pluginNotIncludedInUserLicense
    else .raised (.pluginDisabled reason)
  | .other e => .raised (.other e)

/-- Where a call of `require_service` stands. `adding` are the operations of the
skeleton that have no handler yet; `leave` releases the lock of the service. -/
inductive Point (ε : Type*)
  | enter (service : Option String)
  | checkExists (name : String)
  | checkEnabled (name : String)
  | requiring (name : String)
  | acquire (name : String)
  | recheck (name : String)
  | mark (name : String)
  | attach (name : String)
  | adding (name : String) (skeleton : Skeleton) (operations : List String)
  | leave (name : String) (result : Result ε)
  | done (service : Option String) (result : Result ε)

/-- `loaded_services name` is the call that put `name` into the set; the code only
tests whether there is one. `locks name` is the call inside the lock. -/
structure World (ε : Type*) where
  loaded_services : String → Option Nat
  locks : String → Option Nat
  handlers : Dict ServiceOperation Skeleton
  threads : Nat → Point ε

/-- A step of call `i`; `o` is the outcome of a call that returns there. -/
structure Action (ε : Type*) where
  thread : Nat
  outcome : Outcome (CallError ε)

namespace World

def goto (w : World ε) (i : Nat) (p : Point ε) : World ε :=
  { w with threads := Function.update w.threads i p }

def setLock (w : World ε) (name : String) (owner : Option Nat) : World ε :=
  { w with locks := Function.update w.locks name owner }

def mark (w : World ε) (name : String) (i : Nat) : World ε :=
  { w with loaded_services := Function.update w.loaded_services name (some i) }

def add_handler (w : World ε) (key : ServiceOperation) (skeleton : Skeleton) : World ε :=
  { w with handlers := w.handlers.set key skeleton }

end World

def step (m : ServiceManager) (w : World ε) (a : Action ε) : Option (World ε) :=
  let i := a.thread
  match w.threads i with
  | .enter none => some (w.goto i (.done none .returned))
  | .enter (some n) =>
    some (w.goto i
      (if (w.loaded_services n).isSome then .done (some n) .returned else .checkExists n))
  | .checkExists n =>
    some (w.goto i
      (if m.exists_ n then .checkEnabled n
      else .done (some n) (.raised (.notImplemented none))))
  | .checkEnabled n =>
    some (w.goto i
      (if m.is_api_enabled n then .requiring n
      else .done (some n) (.raised (.notImplemented (some
        ("Service '" ++ n ++ "' is not enabled. Please check your 'SERVICES' configuration variable."))))))
  | .requiring n =>
    match a.outcome with
    | .returns => some (w.goto i (.acquire n))
    | .raises e => some (w.goto i (.done (some n) (.raised (requireError e))))
  | .acquire n =>
    if (w.locks n).isSome then none else some ((w.setLock n (some i)).goto i (.recheck n))
  | .recheck n =>
    some (w.goto i (if (w.loaded_services n).isSome then .leave n .returned else .mark n))
  | .mark n => some ((w.mark n i).goto i (.attach n))
  | .attach n =>
    match m.plugin n with
    | .service (some skeleton) => some (w.goto i (.adding n skeleton skeleton.dispatch_table))
    | .service none => some (w.goto i (.leave n (.raised .attributeError)))
    | .other => some (w.goto i (.leave n .returned))
  | .adding n _ [] => some (w.goto i (.leave n .returned))
  | .adding n skeleton (operation :: rest) =>
    match a.outcome with
    | .returns =>
      some ((w.add_handler ⟨skeleton.service_name, operation⟩ skeleton).goto i
        (.adding n skeleton rest))
    | .raises e => some (w.goto i (.leave n (.raised (.raised e))))
  | .leave n r => some ((w.setLock n none).goto i (.done (some n) r))
  | .done _ _ => none

/-! ## Published services -/

/-- The router has a handler for every operation of `n`'s skeleton. -/
def Complete (m : ServiceManager) (w : World ε) (n : String) : Prop :=
  ∀ skeleton, m.plugin n = .service (some skeleton) → ∀ operation ∈ skeleton.dispatch_table,
    (⟨skeleton.service_name, operation⟩ : ServiceOperation) ∈ w.handlers.keys

/-- The call for `n` has raised. -/
def Point.Failed (n : String) : Point ε → Prop
  | .leave m (.raised _) => m = n
  | .done (some m) (.raised _) => m = n
  | _ => False

/-- A call that returned normally finds all handlers registered, and a call that
raised has not marked its service as loaded. -/
structure Sound (m : ServiceManager) (w : World ε) : Prop where
  ready : ∀ i n, w.threads i = .done (some n) .returned → Complete m w n
  unmarked : ∀ i n, (w.threads i).Failed n → w.loaded_services n ≠ some i

/-- A test of the loaded set sees `n` only when all handlers of `n` are there, and
the step that registers a skeleton or one of its operations does not raise. -/
def PublishesWhole (m : ServiceManager) (w : World ε) (a : Action ε) : Prop :=
  match w.threads a.thread with
  | .enter (some n) | .recheck n => (w.loaded_services n).isSome → Complete m w n
  | .attach n => m.plugin n ≠ .service none
  | .adding _ _ (_ :: _) => a.outcome = .returns
  | _ => True

/-- No call has begun. -/
structure Initial (w : World ε) : Prop where
  loaded : ∀ n, w.loaded_services n = none
  locks : ∀ n, w.locks n = none
  threads : ∀ i, ∃ service, w.threads i = .enter service

/-! ## What holds in every run -/

/-- Inside `with self.service_locks[n]`. -/
def Point.Inside (n : String) : Point ε → Prop
  | .recheck m | .mark m | .attach m | .adding m _ _ | .leave m _ => m = n
  | _ => False

/-- Where the call that marked `n` can stand. -/
def Point.Marked (m : ServiceManager) (w : World ε) (n : String) : Point ε → Prop
  | .attach n' | .adding n' _ _ => n' = n
  | .leave n' .returned | .done (some n') .returned => n' = n ∧ Complete m w n
  | .leave n' (.raised _) | .done (some n') (.raised _) => n' = n
  | _ => False

/-- A call that registers a skeleton has marked its service, and the operations
that are no longer to be added have their handlers. -/
def Point.Registering (m : ServiceManager) (w : World ε) (i : Nat) : Point ε → Prop
  | .attach n => w.loaded_services n = some i
  | .adding n skeleton rest =>
    w.loaded_services n = some i ∧ m.plugin n = .service (some skeleton) ∧
      ∀ operation ∈ skeleton.dispatch_table, operation ∈ rest ∨
        (⟨skeleton.service_name, operation⟩ : ServiceOperation) ∈ w.handlers.keys
  | _ => True

structure Invariant (m : ServiceManager) (w : World ε) : Prop where
  inside : ∀ i n, (w.threads i).Inside n → w.locks n = some i
  marked : ∀ i n, w.loaded_services n = some i → (w.threads i).Marked m w n
  registering : ∀ i, (w.threads i).Registering m w i

section Frames

variable {m : ServiceManager} {w w' : World ε} {i j : Nat} {n : String} {p : Point ε}

@[simp] theorem goto_threads_self : (w.goto i p).threads i = p := by
  simp [World.goto]

theorem goto_threads_ne (h : j ≠ i) : (w.goto i p).threads j = w.threads j := by
  simp [World.goto, h]

@[simp] theorem goto_loaded : (w.goto i p).loaded_services = w.loaded_services := rfl

/-- Handlers are only added. -/
theorem complete_mono (h : ∀ k ∈ w.handlers.keys, k ∈ w'.handlers.keys) (hc : Complete m w n) :
    Complete m w' n :=
  fun skeleton hs operation ho => h _ (hc skeleton hs operation ho)

theorem marked_mono (h : ∀ k ∈ w.handlers.keys, k ∈ w'.handlers.keys) (hp : p.Marked m w n) :
    p.Marked m w' n := by
  cases p with
  | leave n' r =>
    cases r with
    | returned => exact ⟨hp.1, complete_mono h hp.2⟩
    | raised e => exact hp
  | done s r =>
    cases s with
    | none => exact hp
    | some n' =>
      cases r with
      | returned => exact ⟨hp.1, complete_mono h hp.2⟩
      | raised e => exact hp
  | _ => exact hp

theorem registering_mono (hl : ∀ k, p.Inside k → w'.loaded_services k = w.loaded_services k)
    (h : ∀ k ∈ w.handlers.keys, k ∈ w'.handlers.keys) (hp : p.Registering m w i) :
    p.Registering m w' i := by
  cases p with
  | attach n => exact (hl n rfl).trans hp
  | adding n skeleton rest =>
    obtain ⟨hm, hpl, hall⟩ := hp
    exact ⟨(hl n rfl).trans hm, hpl, fun operation ho => (hall operation ho).imp_right (h _)⟩
  | _ => trivial

/-- A skeleton without operations left to add is registered. -/
theorem registering_complete {skeleton : Skeleton}
    (h : Point.Registering m w i (.adding n skeleton [])) : Complete m w n := by
  intro skeleton' hs operation ho
  obtain ⟨-, hpl, hall⟩ := h
  rw [hpl] at hs
  cases hs
  simpa using hall operation ho

end Frames

section Steps

variable {m : ServiceManager} {w w' : World ε} {i : Nat} {p : Point ε}

/-- Call `i` moves to `p`; the set of loaded services stays, handlers are only
added, and no lock of another call changes. -/
theorem invariant_move (hw : Invariant m w) (hthreads : w'.threads = w.threads)
    (hloaded : w'.loaded_services = w.loaded_services)
    (hkeys : ∀ k ∈ w.handlers.keys, k ∈ w'.handlers.keys)
    (hlocks : ∀ n j, j ≠ i → w.locks n = some j → w'.locks n = some j)
    (hinside : ∀ n, p.Inside n → w'.locks n = some i)
    (hmarked : ∀ n, (w.threads i).Marked m w n → p.Marked m w' n)
    (hregistering : p.Registering m w' i) : Invariant m (w'.goto i p) := by
  constructor
  · intro j n hj
    by_cases hji : j = i
    · subst hji
      rw [goto_threads_self] at hj
      exact hinside n hj
    · rw [goto_threads_ne hji, hthreads] at hj
      exact hlocks n j hji (hw.inside j n hj)
  · intro j n hj
    rw [goto_loaded, hloaded] at hj
    have hmark := hw.marked j n hj
    by_cases hji : j = i
    · subst hji
      rw [goto_threads_self]
      exact hmarked n hmark
    · rw [goto_threads_ne hji, hthreads]
      exact marked_mono hkeys hmark
  · intro j
    by_cases hji : j = i
    · subst hji
      rw [goto_threads_self]
      exact hregistering
    · rw [goto_threads_ne hji, hthreads]
      exact registering_mono (fun k _ => congrFun hloaded k) hkeys (hw.registering j)

/-- The common case: only the point of call `i` changes. -/
theorem invariant_goto (hw : Invariant m w)
    (hinside : ∀ n, p.Inside n → (w.threads i).Inside n)
    (hmarked : ∀ n, (w.threads i).Marked m w n → p.Marked m w n)
    (hregistering : p.Registering m w i) : Invariant m (w.goto i p) :=
  invariant_move hw rfl rfl (fun _ hk => hk) (fun _ _ _ h => h)
    (fun n h => hw.inside i n (hinside n h)) hmarked hregistering

/-! The steps that change more than the point of their call. -/

variable {n : String} {skeleton : Skeleton} {operation : String} {rest : List String}

theorem invariant_acquire (hw : Invariant m w) (hp : w.threads i = .acquire n)
    (hfree : w.locks n = none) : Invariant m ((w.setLock n (some i)).goto i (.recheck n)) := by
  refine invariant_move hw rfl rfl (fun _ hk => hk) ?_ ?_ ?_ trivial
  · intro k j _ hk
    have hne : k ≠ n := by
      rintro rfl
      rw [hfree] at hk
      cases hk
    simp [World.setLock, hne, hk]
  · rintro k rfl
    simp [World.setLock]
  · simp [hp, Point.Marked]

theorem invariant_release {r : Result ε} (hw : Invariant m w) (hp : w.threads i = .leave n r) :
    Invariant m ((w.setLock n none).goto i (.done (some n) r)) := by
  have hlock : w.locks n = some i := hw.inside i n (by simp [hp, Point.Inside])
  refine invariant_move hw rfl rfl (fun _ hk => hk) ?_ ?_ ?_ trivial
  · intro k j hj hk
    have hne : k ≠ n := by
      rintro rfl
      rw [hlock] at hk
      exact hj (Option.some.inj hk).symm
    simp [World.setLock, hne, hk]
  · simp [Point.Inside]
  · intro k hk
    rw [hp] at hk
    cases r <;> exact hk

/-- Only the call inside the lock of `n` registers for `n`, so that marking `n`
again touches no other call. -/
theorem invariant_mark (hw : Invariant m w) (hp : w.threads i = .mark n) :
    Invariant m ((w.mark n i).goto i (.attach n)) := by
  have hlock : w.locks n = some i := hw.inside i n (by simp [hp, Point.Inside])
  constructor
  · intro j k hj
    by_cases hji : j = i
    · subst hji
      rw [goto_threads_self] at hj
      cases hj
      exact hlock
    · rw [goto_threads_ne hji] at hj
      exact hw.inside j k hj
  · intro j k hj
    by_cases hkn : k = n
    · subst hkn
      have : i = j := by simpa [World.mark] using hj
      subst this
      simp [Point.Marked]
    · have hold : w.loaded_services k = some j := by simpa [World.mark, hkn] using hj
      have hmark := hw.marked j k hold
      by_cases hji : j = i
      · subst hji
        simp [hp, Point.Marked] at hmark
      · rw [goto_threads_ne hji]
        exact hmark
  · intro j
    by_cases hji : j = i
    · subst hji
      simp [Point.Registering, World.mark]
    · rw [goto_threads_ne hji]
      refine registering_mono (w := w) (fun k hk => ?_) (fun _ hk => hk) (hw.registering j)
      have hkn : k ≠ n := by
        rintro rfl
        have := hw.inside j k hk
        rw [hlock] at this
        exact hji (Option.some.inj this).symm
      simp [World.mark, hkn]

theorem add_handler_keys {key k : ServiceOperation} (hk : k ∈ w.handlers.keys) :
    k ∈ (w.add_handler key skeleton).handlers.keys :=
  (Dict.mem_keys_set _ _ _ _).mpr (Or.inr hk)

theorem invariant_add_handler (hw : Invariant m w)
    (hp : w.threads i = .adding n skeleton (operation :: rest)) :
    Invariant m ((w.add_handler ⟨skeleton.service_name, operation⟩ skeleton).goto i
      (.adding n skeleton rest)) := by
  have hreg := hw.registering i
  rw [hp] at hreg
  obtain ⟨hmarked, hpl, hall⟩ := hreg
  refine invariant_move hw rfl rfl (fun _ => add_handler_keys) (fun _ _ _ h => h) ?_ ?_ ?_
  · exact fun k hk => hw.inside i k (by rw [hp]; exact hk)
  · simp [hp, Point.Marked]
  · refine ⟨hmarked, hpl, fun op ho => ?_⟩
    rcases hall op ho with hr | hd
    · rcases List.mem_cons.mp hr with rfl | hr
      · exact Or.inr ((Dict.mem_keys_set _ _ _ _).mpr (Or.inl rfl))
      · exact Or.inl hr
    · exact Or.inr (add_handler_keys hd)

end Steps

theorem step_invariant {m : ServiceManager} {w w' : World ε} {a : Action ε}
    (hw : Invariant m w) (h : step m w a = some w') : Invariant m w' := by
  unfold step at h
  cases hp : w.threads a.thread <;> simp only [hp] at h
  case enter s =>
    cases s with
    | none =>
      cases h
      apply invariant_goto hw <;> simp [hp, Point.Inside, Point.Marked, Point.Registering]
    | some n =>
      cases h
      split <;> apply invariant_goto hw <;>
        simp [hp, Point.Inside, Point.Marked, Point.Registering]
  case checkExists n | checkEnabled n | recheck n =>
    cases h
    split <;> apply invariant_goto hw <;>
      simp [hp, Point.Inside, Point.Marked, Point.Registering]
  case requiring n =>
    split at h <;> cases h <;> apply invariant_goto hw <;>
      simp [hp, Point.Inside, Point.Marked, Point.Registering]
  case acquire n =>
    split at h <;> cases h
    rename_i hfree
    exact invariant_acquire hw hp (by simpa using hfree)
  case mark n =>
    cases h
    exact invariant_mark hw hp
  case attach n =>
    split at h <;> cases h <;> rename_i hpl
    · apply invariant_goto hw
      · simp [hp, Point.Inside]
      · simp [hp, Point.Marked]
      · exact ⟨by simpa [hp, Point.Registering] using hw.registering a.thread, hpl,
          fun operation ho => Or.inl ho⟩
    · apply invariant_goto hw <;> simp [hp, Point.Inside, Point.Marked, Point.Registering]
    · apply invariant_goto hw
      · simp [hp, Point.Inside]
      · simp [hp, Point.Marked, Complete, hpl]
      · trivial
  case adding n skeleton operations =>
    cases operations with
    | nil =>
      have hreg := hw.registering a.thread
      rw [hp] at hreg
      cases h
      apply invariant_goto hw
      · simp [hp, Point.Inside]
      · intro k hk
        rw [hp] at hk
        cases hk
        exact ⟨rfl, registering_complete hreg⟩
      · trivial
    | cons operation rest =>
      dsimp only at h
      split at h
      · cases h
        exact invariant_add_handler hw hp
      · cases h
        apply invariant_goto hw <;> simp [hp, Point.Inside, Point.Marked, Point.Registering]
  case leave n r =>
    cases h
    exact invariant_release hw hp
  case done s r => cases h

/-! ## Publishing as a whole -/

/-- What the guard keeps: a call past its tests, still inside the lock or not,
finds its service complete, and a call that raised has marked nothing. -/
structure Whole (m : ServiceManager) (w : World ε) : Prop where
  ready : ∀ i n, w.threads i = .leave n .returned ∨ w.threads i = .done (some n) .returned →
    Complete m w n
  unmarked : ∀ i n, (w.threads i).Failed n → w.loaded_services n ≠ some i

theorem whole_sound {m : ServiceManager} {w : World ε} (h : Whole m w) : Sound m w :=
  ⟨fun i n hi => h.ready i n (Or.inr hi), h.unmarked⟩

/-- Call `i` moves to `p`, handlers are only added, and no service is newly marked. -/
theorem whole_move {m : ServiceManager} {w w' : World ε} {i : Nat} {p : Point ε}
    (hw : Whole m w) (hthreads : w'.threads = w.threads)
    (hloaded : w'.loaded_services = w.loaded_services)
    (hkeys : ∀ k ∈ w.handlers.keys, k ∈ w'.handlers.keys)
    (hready : ∀ n, p = .leave n .returned ∨ p = .done (some n) .returned → Complete m w' n)
    (hfailed : ∀ n, p.Failed n → w.loaded_services n ≠ some i) : Whole m (w'.goto i p) := by
  constructor
  · intro j n hj
    by_cases hji : j = i
    · subst hji
      rw [goto_threads_self] at hj
      exact hready n hj
    · rw [goto_threads_ne hji, hthreads] at hj
      exact complete_mono hkeys (hw.ready j n hj)
  · intro j n hj
    rw [goto_loaded, hloaded]
    by_cases hji : j = i
    · subst hji
      rw [goto_threads_self] at hj
      exact hfailed n hj
    · rw [goto_threads_ne hji, hthreads] at hj
      exact hw.unmarked j n hj

theorem whole_goto {m : ServiceManager} {w : World ε} {i : Nat} {p : Point ε} (hw : Whole m w)
    (hready : ∀ n, p = .leave n .returned ∨ p = .done (some n) .returned → Complete m w n)
    (hfailed : ∀ n, p.Failed n → w.loaded_services n ≠ some i) : Whole m (w.goto i p) :=
  whole_move hw rfl rfl (fun _ hk => hk) hready hfailed

/-- A newly marked service is marked by a call that has not ended. -/
theorem whole_mark {m : ServiceManager} {w : World ε} {i : Nat} {n : String} (hw : Whole m w) :
    Whole m ((w.mark n i).goto i (.attach n)) := by
  constructor
  · intro j k hj
    by_cases hji : j = i
    · subst hji
      simp at hj
    · rw [goto_threads_ne hji] at hj
      exact hw.ready j k hj
  · intro j k hj hl
    by_cases hji : j = i
    · subst hji
      simp [Point.Failed] at hj
    · rw [goto_threads_ne hji] at hj
      by_cases hkn : k = n
      · subst hkn
        exact hji (by simpa [World.mark] using hl.symm)
      · exact hw.unmarked j k hj (by simpa [World.mark, hkn] using hl)

theorem step_whole {m : ServiceManager} {w w' : World ε} {a : Action ε} (hi : Invariant m w)
    (hw : Whole m w) (hok : PublishesWhole m w a) (h : step m w a = some w') : Whole m w' := by
  -- a call that has not marked its service raises without a trace
  have hunmarked : ∀ n, ¬ (w.threads a.thread).Marked m w n →
      w.loaded_services n ≠ some a.thread := fun n hn hl => hn (hi.marked _ n hl)
  unfold step at h
  unfold PublishesWhole at hok
  cases hp : w.threads a.thread <;> simp only [hp] at h hok
  case enter s =>
    cases s with
    | none =>
      cases h
      apply whole_goto hw <;> simp [Point.Failed]
    | some n =>
      dsimp only at h hok
      cases h
      split
      · rename_i hl
        apply whole_goto hw
        · rintro k (hk | hk) <;> cases hk
          exact hok hl
        · simp [Point.Failed]
      · apply whole_goto hw <;> simp [Point.Failed]
  case checkExists n | checkEnabled n =>
    cases h
    split
    · apply whole_goto hw <;> simp [Point.Failed]
    · apply whole_goto hw
      · simp
      · exact fun k _ => hunmarked k (by simp [hp, Point.Marked])
  case requiring n =>
    split at h <;> cases h
    · apply whole_goto hw <;> simp [Point.Failed]
    · apply whole_goto hw
      · simp
      · exact fun k _ => hunmarked k (by simp [hp, Point.Marked])
  case acquire n =>
    split at h <;> cases h
    refine whole_move hw rfl rfl (fun _ hk => hk) ?_ ?_ <;> simp [Point.Failed]
  case recheck n =>
    cases h
    split
    · rename_i hl
      apply whole_goto hw
      · rintro k (hk | hk) <;> cases hk
        exact hok hl
      · simp [Point.Failed]
    · apply whole_goto hw <;> simp [Point.Failed]
  case mark n =>
    cases h
    exact whole_mark hw
  case attach n =>
    split at h <;> cases h <;> rename_i hpl
    · apply whole_goto hw <;> simp [Point.Failed]
    · exact absurd hpl hok
    · apply whole_goto hw
      · rintro k (hk | hk) <;> cases hk
        intro skeleton hs
        rw [hpl] at hs
        cases hs
      · simp [Point.Failed]
  case adding n skeleton operations =>
    cases operations with
    | nil =>
      cases h
      apply whole_goto hw
      · rintro k (hk | hk) <;> cases hk
        have hreg := hi.registering a.thread
        rw [hp] at hreg
        exact registering_complete hreg
      · simp [Point.Failed]
    | cons operation rest =>
      dsimp only at h hok
      rw [hok] at h
      cases h
      refine whole_move hw rfl rfl (fun _ => add_handler_keys) ?_ ?_ <;> simp [Point.Failed]
  case leave n r =>
    cases h
    refine whole_move hw rfl rfl (fun _ hk => hk) ?_ ?_
    · rintro k (hk | hk) <;> cases hk
      exact hw.ready a.thread n (Or.inl hp)
    · intro k hk
      apply hw.unmarked
      rw [hp]
      cases r <;> exact hk
  case done s r => cases h

/-! ## Runs -/

theorem initial_invariant {m : ServiceManager} {w : World ε} (h : Initial w) :
    Invariant m w := by
  constructor
  · intro i n hi
    obtain ⟨s, hs⟩ := h.threads i
    rw [hs] at hi
    exact hi.elim
  · intro i n hi
    rw [h.loaded] at hi
    cases hi
  · intro i
    obtain ⟨s, hs⟩ := h.threads i
    rw [hs]
    trivial

theorem initial_whole {m : ServiceManager} {w : World ε} (h : Initial w) : Whole m w := by
  constructor
  · intro i n hi
    obtain ⟨s, hs⟩ := h.threads i
    simp [hs] at hi
  · intro i n _
    simp [h.loaded]

/-- The call that marked `n`, once outside the lock, has completed `n` or raised. -/
theorem marked_outside {m : ServiceManager} {w : World ε} {n : String} {p : Point ε}
    (h : p.Marked m w n) (hout : ¬ p.Inside n) : Complete m w n ∨ p.Failed n := by
  cases p with
  | attach n' | adding n' skeleton rest => exact absurd h hout
  | leave n' r =>
    cases r with
    | returned => exact Or.inl h.2
    | raised e => exact Or.inr h
  | done s r =>
    cases s with
    | none => exact h.elim
    | some n' =>
      cases r with
      | returned => exact Or.inl h.2
      | raised e => exact Or.inr h
  | _ => exact h.elim

/-- A step against the guard shows: the call returns without handlers, or it raises
after it has marked the service, or an earlier call has done so. -/
theorem step_unsound {m : ServiceManager} {w w' : World ε} {a : Action ε} (hi : Invariant m w)
    (hok : ¬ PublishesWhole m w a) (h : step m w a = some w') : ¬ (Sound m w ∧ Sound m w') := by
  rintro ⟨hw, hw'⟩
  have hreg := hi.registering a.thread
  unfold step at h
  unfold PublishesWhole at hok
  cases hp : w.threads a.thread <;> simp only [hp] at h hok hreg
  case enter s =>
    cases s with
    | none => exact hok trivial
    | some n =>
      dsimp only at h hok
      obtain ⟨hl, hc⟩ := Classical.not_imp.mp hok
      rw [if_pos hl] at h
      cases h
      exact hc (hw'.ready a.thread n (by simp))
  case recheck n =>
    obtain ⟨hl, hc⟩ := Classical.not_imp.mp hok
    obtain ⟨j, hj⟩ := Option.isSome_iff_exists.mp hl
    have hmark := hi.marked j n hj
    have hlock : w.locks n = some a.thread := hi.inside a.thread n (by simp [hp, Point.Inside])
    have hout : ¬ (w.threads j).Inside n := by
      intro hin
      have := hi.inside j n hin
      rw [hlock] at this
      cases this
      simp [hp, Point.Marked] at hmark
    rcases marked_outside hmark hout with hcomplete | hfailed
    · exact hc hcomplete
    · exact hw.unmarked j n hfailed hj
  case attach n =>
    rw [not_not.mp hok] at h
    cases h
    exact hw'.unmarked a.thread n (by simp [Point.Failed]) hreg
  case adding n skeleton operations =>
    cases operations with
    | nil => exact hok trivial
    | cons operation rest =>
      dsimp only at h hok
      cases ho : a.outcome with
      | returns => exact hok ho
      | raises e =>
        rw [ho] at h
        cases h
        exact hw'.unmarked a.thread n (by simp [Point.Failed]) hreg.1
  all_goals exact hok trivial

/-- **A service is published only when ready, exactly where it is published whole.**
In every state of a run, every call that returned normally for a `Service` finds a
handler for each operation of its skeleton, and no call that raised has marked its
service, if and only if no test of the loaded set sees a marked service whose
handlers are missing and no registration raises. -/
theorem always_sound_iff_publishesWhole {m : ServiceManager} {w₀ w : World ε}
    {es : List (Event (World ε) (Action ε))} (h₀ : Initial w₀) (h : Run (step m) w₀ es w) :
    Always (Sound m) w₀ es ↔ Guarded (PublishesWhole m) es := by
  constructor
  · intro hall e he
    by_contra hbad
    obtain ⟨_, _, _, hpre, hs, -⟩ := h.split he
    have hi : Invariant m e.pre :=
      hpre.keeps (initial_invariant h₀) fun _ _ _ hi hs => step_invariant hi hs
    exact step_unsound hi hbad hs ⟨h.pre_of_always hall he, hall.2 e he⟩
  · intro hok
    have hinv : Always (fun w => Invariant m w ∧ Whole m w) w₀ es :=
      h.always ⟨initial_invariant h₀, initial_whole h₀⟩
        (fun _ _ _ hi hg hs => ⟨step_invariant hi.1 hs, step_whole hi.1 hi.2 hg hs⟩) hok
    exact ⟨whole_sound hinv.1.2, fun e he => whole_sound (hinv.2 e he).2⟩

/-- One service with one operation, and two requests for it. -/
def sqs : Skeleton := ⟨"sqs", ["SendMessage"]⟩

def sqsManager : ServiceManager := ⟨fun _ => true, fun _ => true, fun _ => .service (some sqs)⟩

def twoRequests : World Nat where
  loaded_services := fun _ => none
  locks := fun _ => none
  handlers := []
  threads := fun _ => .enter (some "sqs")

theorem twoRequests_initial : Initial twoRequests :=
  ⟨fun _ => rfl, fun _ => rfl, fun _ => ⟨_, rfl⟩⟩

/-- The same service without a skeleton. -/
def bareManager : ServiceManager := { sqsManager with plugin := fun _ => .service none }

/-- The second request arrives when the service is marked and has no handler; and a
service without a skeleton stays marked after the error. -/
theorem unready_service_returned :
    (∃ es, ∃ w : World Nat, Run (step sqsManager) twoRequests es w ∧
      w.threads 1 = .done (some "sqs") .returned ∧ ¬ Complete sqsManager w "sqs") ∧
    ∃ es, ∃ w : World Nat, Run (step bareManager) twoRequests es w ∧
      w.threads 0 = .done (some "sqs") (.raised .attributeError) ∧
      w.loaded_services "sqs" = some 0 := by
  constructor
  · have hex : ∃ es t, Run (step sqsManager) twoRequests es t ∧
        (t.threads 1, t.handlers) = (.done (some "sqs") .returned, []) :=
      exists_run_of_replay (f := fun w : World Nat => (w.threads 1, w.handlers))
        (l := List.replicate 7 ⟨0, .returns⟩ ++ [⟨1, .returns⟩]) rfl
    obtain ⟨es, w, hr, hw⟩ := hex
    obtain ⟨hdone, hhandlers⟩ := Prod.mk.inj hw
    refine ⟨es, w, hr, hdone, fun hc => ?_⟩
    have := hc sqs rfl "SendMessage" (List.mem_singleton.mpr rfl)
    simp [hhandlers] at this
  · have hex : ∃ es t, Run (step bareManager) twoRequests es t ∧
        (t.threads 0, t.loaded_services "sqs") =
          (.done (some "sqs") (.raised .attributeError), some 0) :=
      exists_run_of_replay (f := fun w : World Nat => (w.threads 0, w.loaded_services "sqs"))
        (l := List.replicate 9 ⟨0, .returns⟩) rfl
    obtain ⟨es, w, hr, hw⟩ := hex
    obtain ⟨hdone, hloaded⟩ := Prod.mk.inj hw
    exact ⟨es, w, hr, hdone, hloaded⟩

/-- The second request arrives when the first one has returned. -/
theorem published_before_second :
    ∃ es, ∃ w : World Nat, Run (step sqsManager) twoRequests es w ∧
      w.threads 1 = .done (some "sqs") .returned ∧ Always (Sound sqsManager) twoRequests es := by
  have hr : Run (step sqsManager) twoRequests _ _ :=
    (((((((((((Run.nil.snoc (a := ⟨0, .returns⟩) rfl).snoc (a := ⟨0, .returns⟩) rfl).snoc
      (a := ⟨0, .returns⟩) rfl).snoc (a := ⟨0, .returns⟩) rfl).snoc
      (a := ⟨0, .returns⟩) rfl).snoc (a := ⟨0, .returns⟩) rfl).snoc
      (a := ⟨0, .returns⟩) rfl).snoc (a := ⟨0, .returns⟩) rfl).snoc
      (a := ⟨0, .returns⟩) rfl).snoc (a := ⟨0, .returns⟩) rfl).snoc
      (a := ⟨0, .returns⟩) rfl).snoc (a := ⟨1, .returns⟩) rfl
  refine ⟨_, _, hr, rfl, (always_sound_iff_publishesWhole twoRequests_initial hr).mpr ?_⟩
  simp only [guarded_snoc, guarded_nil, true_and, and_assoc]
  refine ⟨by rintro ⟨⟩, trivial, trivial, trivial, trivial, by rintro ⟨⟩, trivial, by rintro ⟨⟩,
    rfl, trivial, trivial, ?_⟩
  rintro - skeleton hs operation ho
  cases hs
  cases List.mem_singleton.mp ho
  exact List.mem_singleton.mpr rfl

end LocalStack.Aws.Handlers.ServiceLoader
