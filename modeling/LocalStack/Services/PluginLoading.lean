import LocalStack.Services.Plugins
import Mathlib.Logic.Function.Basic

/-! `ServicePluginManager.get_service_container` under any number of concurrent
calls for any names. Each access to the map of services, to the table of load
locks, to a load lock and to the mutex is one step, and loading a plugin is a step
with an unknown outcome. Containers and load locks are objects: they are numbered
in the order of their creation. -/

namespace LocalStack.Services.PluginLoading
open LocalStack.Runs LocalStack.Services.Plugins

variable {ε : Type*}

/-! ## Calls -/

/-- How `_load_service_plugin(name)` ends; `nothing` is no plugin, or a plugin
without a service. -/
inductive Load (ε : Type*)
  | raises (e : ε)
  | nothing
  | plugin (service : Service)
  deriving DecidableEq, Repr

/-- `keyError` is `del` of a load lock that is not in the table. -/
inductive Result (ε : Type*)
  | returned (container : Option Nat)
  | raised (e : ε)
  | keyError
  deriving DecidableEq, Repr

/-- Where a call for `name` stands; `lock` is the load lock it got. -/
inductive Point (ε : Type*)
  | lookup (name : String)
  | checkExists (name : String)
  | getLock (name : String)
  | acquire (name : String) (lock : Nat)
  | recheck (name : String) (lock : Nat)
  | load (name : String) (lock : Nat)
  | acquireMutex (name : String) (lock : Nat) (service : Service)
  | add (name : String) (lock : Nat) (service : Service)
  | releaseMutex (name : String) (lock : Nat)
  | deleteLock (name : String) (lock : Nat)
  | lookupAgain (name : String) (lock : Nat)
  | leave (name : String) (lock : Nat) (result : Result ε)
  | done (name : String) (result : Result ε)

/-- `containers` are all service containers ever created. -/
structure World (ε : Type*) where
  _services : String → Option Nat
  containers : List (ServiceContainer ε)
  _plugin_load_locks : String → Option Nat
  nextLock : Nat
  owners : Nat → Option Nat
  _mutex : Option Nat
  threads : Nat → Point ε

/-- A step of call `thread`; `outcome` is the outcome of a load that ends there. -/
structure Action (ε : Type*) where
  thread : Nat
  outcome : Load ε

namespace World

def goto (w : World ε) (i : Nat) (p : Point ε) : World ε :=
  { w with threads := Function.update w.threads i p }

/-- `self._plugin_load_locks[name]`: a new lock if there is none. -/
def getLock (w : World ε) (name : String) : Nat × World ε :=
  match w._plugin_load_locks name with
  | some l => (l, w)
  | none =>
    (w.nextLock, { w with
      _plugin_load_locks := Function.update w._plugin_load_locks name (some w.nextLock)
      nextLock := w.nextLock + 1 })

def deleteLock (w : World ε) (name : String) : World ε :=
  { w with _plugin_load_locks := Function.update w._plugin_load_locks name none }

def setOwner (w : World ε) (lock : Nat) (owner : Option Nat) : World ε :=
  { w with owners := Function.update w.owners lock owner }

def setMutex (w : World ε) (owner : Option Nat) : World ε :=
  { w with _mutex := owner }

/-- `ServiceManager.add_service`. -/
def add_service (w : World ε) (service : Service) : World ε :=
  { w with
    _services := Function.update w._services service.plugin_name (some w.containers.length)
    containers := w.containers ++
      [.new service (if service.is_enabled then .available else .disabled)] }

end World

/-- `exists_ name` is `self.exists(name)`: the plugin specs and the configured
providers do not change. -/
def step (exists_ : String → Bool) (w : World ε) (a : Action ε) : Option (World ε) :=
  let i := a.thread
  match w.threads i with
  | .lookup n =>
    some (w.goto i
      (match w._services n with
      | some c => .done n (.returned (some c))
      | none => .checkExists n))
  | .checkExists n => some (w.goto i (if exists_ n then .getLock n else .done n (.returned none)))
  | .getLock n => some ((w.getLock n).2.goto i (.acquire n (w.getLock n).1))
  | .acquire n l =>
    if (w.owners l).isSome then none else some ((w.setOwner l (some i)).goto i (.recheck n l))
  | .recheck n l =>
    some (w.goto i
      (match w._services n with
      | some c => .leave n l (.returned (some c))
      | none => .load n l))
  | .load n l =>
    some (w.goto i
      (match a.outcome with
      | .raises e => .leave n l (.raised e)
      | .nothing => .leave n l (.returned none)
      | .plugin service => .acquireMutex n l service))
  | .acquireMutex n l service =>
    if w._mutex.isSome then none else some ((w.setMutex (some i)).goto i (.add n l service))
  | .add n l service => some ((w.add_service service).goto i (.releaseMutex n l))
  | .releaseMutex n l => some ((w.setMutex none).goto i (.deleteLock n l))
  | .deleteLock n l =>
    match w._plugin_load_locks n with
    | some _ => some ((w.deleteLock n).goto i (.lookupAgain n l))
    | none => some (w.goto i (.leave n l .keyError))
  | .lookupAgain n l => some (w.goto i (.leave n l (.returned (w._services n))))
  | .leave n l r => some ((w.setOwner l none).goto i (.done n r))
  | .done _ _ => none

/-! ## What is to hold -/

/-- At most one container was created for each name, and all calls for a name that
returned a container returned the same one, which is registered. -/
structure LoadedOnce (w : World ε) : Prop where
  once : ∀ (c c' : Nat) (k k' : ServiceContainer ε), w.containers[c]? = some k →
    w.containers[c']? = some k' → k.service.plugin_name = k'.service.plugin_name → c = c'
  same : ∀ i j n c c', w.threads i = .done n (.returned (some c)) →
    w.threads j = .done n (.returned (some c')) → c = c'
  registered : ∀ i n c, w.threads i = .done n (.returned (some c)) → w._services n = some c

/-- A loaded service is called what its plugin is called. -/
def OwnName (w : World ε) (a : Action ε) : Prop :=
  ∀ n l service, w.threads a.thread = .load n l → a.outcome = .plugin service →
    service.plugin_name = n

/-- The step ends a load without a service. -/
def FailedLoad (w : World ε) (a : Action ε) : Prop :=
  ∃ n l, w.threads a.thread = .load n l ∧ ∀ service, a.outcome ≠ .plugin service

/-- The services are registered under their own names, and no call has begun. -/
structure Initial (w : World ε) : Prop where
  names : ∀ (c : Nat) (k : ServiceContainer ε), w.containers[c]? = some k →
    w._services k.service.plugin_name = some c
  threads : ∀ i, ∃ name, w.threads i = .lookup name

/-! ## The invariant -/

def Result.Fits (w : World ε) (n : String) : Result ε → Prop
  | .returned (some c) => w._services n = some c
  | .keyError => False
  | _ => True

/-- What holds where call `i` stands. While a name is not registered, all calls
for it that have got a load lock have the one in the table. -/
def Point.Fits (w : World ε) (i : Nat) : Point ε → Prop
  | .lookup _ | .checkExists _ | .getLock _ => True
  | .acquire n l => w._services n = none → w._plugin_load_locks n = some l
  | .recheck n l =>
    w.owners l = some i ∧ (w._services n = none → w._plugin_load_locks n = some l)
  | .load n l => w.owners l = some i ∧ w._services n = none ∧ w._plugin_load_locks n = some l
  | .acquireMutex n l service | .add n l service =>
    w.owners l = some i ∧ w._services n = none ∧ w._plugin_load_locks n = some l ∧
      service.plugin_name = n
  | .releaseMutex n l | .deleteLock n l =>
    w.owners l = some i ∧ w._services n ≠ none ∧ w._plugin_load_locks n = some l
  | .lookupAgain _ l => w.owners l = some i
  | .leave n l r => w.owners l = some i ∧ r.Fits w n
  | .done n r => r.Fits w n

structure Invariant (w : World ε) : Prop where
  names : ∀ (c : Nat) (k : ServiceContainer ε), w.containers[c]? = some k →
    w._services k.service.plugin_name = some c
  fits : ∀ i, (w.threads i).Fits w i

/-- Between the second test and the registration of `n`. -/
def Point.Loading (n : String) : Point ε → Prop
  | .load m _ | .acquireMutex m _ _ | .add m _ _ => m = n
  | _ => False

/-- Between the registration of `n` and the removal of its load lock. -/
def Point.Registered (n : String) (l : Nat) : Point ε → Prop
  | .releaseMutex m l' | .deleteLock m l' => m = n ∧ l' = l
  | _ => False

@[simp] theorem goto_threads_self (w : World ε) (i : Nat) (p : Point ε) :
    (w.goto i p).threads i = p := by
  simp [World.goto]

theorem goto_threads_ne (w : World ε) {i j : Nat} (h : j ≠ i) (p : Point ε) :
    (w.goto i p).threads j = w.threads j := by
  simp [World.goto, h]

theorem result_fits_goto (w : World ε) (i : Nat) (p : Point ε) (n : String) (r : Result ε) :
    r.Fits (w.goto i p) n ↔ r.Fits w n := by
  cases r with
  | returned c => cases c <;> rfl
  | _ => rfl

theorem fits_goto (w : World ε) (i j : Nat) (p q : Point ε) :
    q.Fits (w.goto i p) j ↔ q.Fits w j := by
  cases q with
  | leave n l r => exact and_congr_right fun _ => result_fits_goto w i p n r
  | done n r => exact result_fits_goto w i p n r
  | _ => rfl

theorem result_fits_mono {w w' : World ε} {n : String} {r : Result ε}
    (hsome : ∀ c, w._services n = some c → w'._services n = some c) (h : r.Fits w n) :
    r.Fits w' n := by
  cases r with
  | returned c =>
    cases c with
    | none => trivial
    | some c => exact hsome c h
  | raised e => trivial
  | keyError => exact h

/-- What a step must leave alone for a call at `q`: its lock, the services that are
registered, and the load lock of a name that is not. -/
theorem fits_frame {w w' : World ε} {j : Nat} {q : Point ε} (h : q.Fits w j)
    (howner : ∀ l, w.owners l = some j → w'.owners l = some j)
    (hsome : ∀ n c, w._services n = some c → w'._services n = some c)
    (hlock : ∀ n l, w'._services n = none → w._plugin_load_locks n = some l →
      w'._plugin_load_locks n = some l)
    (hloading : ∀ n, q.Loading n → w'._services n = none)
    (hregistered : ∀ n l, q.Registered n l → w'._plugin_load_locks n = some l) :
    q.Fits w' j := by
  have hnone : ∀ n, w'._services n = none → w._services n = none := by
    intro n hn
    cases hs : w._services n with
    | none => rfl
    | some c =>
      rw [hsome n c hs] at hn
      cases hn
  cases q with
  | lookup n | checkExists n | getLock n => trivial
  | acquire n l => exact fun hn => hlock n l hn (h (hnone n hn))
  | recheck n l => exact ⟨howner l h.1, fun hn => hlock n l hn (h.2 (hnone n hn))⟩
  | load n l =>
    have hn := hloading n rfl
    exact ⟨howner l h.1, hn, hlock n l hn h.2.2⟩
  | acquireMutex n l service | add n l service =>
    have hn := hloading n rfl
    exact ⟨howner l h.1, hn, hlock n l hn h.2.2.1, h.2.2.2⟩
  | releaseMutex n l | deleteLock n l =>
    exact ⟨howner l h.1, fun hn => h.2.1 (hnone n hn), hregistered n l ⟨rfl, rfl⟩⟩
  | lookupAgain n l => exact howner l h
  | leave n l r => exact ⟨howner l h.1, result_fits_mono (hsome n) h.2⟩
  | done n r => exact result_fits_mono (hsome n) h

/-- Call `i` moves to `p` in a world whose other calls still fit. -/
theorem invariant_move {w w' : World ε} {i : Nat} {p : Point ε}
    (hthreads : w'.threads = w.threads)
    (hnames : ∀ (c : Nat) (k : ServiceContainer ε), w'.containers[c]? = some k →
      w'._services k.service.plugin_name = some c)
    (hothers : ∀ j, j ≠ i → (w.threads j).Fits w' j) (hp : p.Fits w' i) :
    Invariant (w'.goto i p) := by
  constructor
  · exact hnames
  · intro j
    rw [fits_goto]
    by_cases hji : j = i
    · subst hji
      rwa [goto_threads_self]
    · rw [goto_threads_ne _ hji, hthreads]
      exact hothers j hji

/-- The common case: only the point of call `i` changes. -/
theorem invariant_goto {w : World ε} {i : Nat} {p : Point ε} (hw : Invariant w)
    (hp : p.Fits w i) : Invariant (w.goto i p) :=
  invariant_move rfl hw.names (fun j _ => hw.fits j) hp

theorem fits_loading {w : World ε} {j : Nat} {q : Point ε} {n : String} (h : q.Fits w j)
    (hq : q.Loading n) :
    w._services n = none ∧ ∃ l, w.owners l = some j ∧ w._plugin_load_locks n = some l := by
  cases q with
  | load m l =>
    cases hq
    exact ⟨h.2.1, l, h.1, h.2.2⟩
  | acquireMutex m l service | add m l service =>
    cases hq
    exact ⟨h.2.1, l, h.1, h.2.2.1⟩
  | _ => exact hq.elim

theorem fits_registered {w : World ε} {j : Nat} {q : Point ε} {n : String} {l : Nat}
    (h : q.Fits w j) (hq : q.Registered n l) :
    w.owners l = some j ∧ w._services n ≠ none ∧ w._plugin_load_locks n = some l := by
  cases q with
  | releaseMutex m l' | deleteLock m l' =>
    obtain ⟨rfl, rfl⟩ := hq
    exact h
  | _ => exact hq.elim

/-- A change of one lock's owner that takes it from no other call. -/
theorem fits_setOwner {w : World ε} {j l : Nat} {o : Option Nat} {q : Point ε}
    (hl : w.owners l ≠ some j) (h : q.Fits w j) : q.Fits (w.setOwner l o) j := by
  refine fits_frame h ?_ (fun _ _ hs => hs) (fun _ _ _ hl => hl) ?_ ?_
  · intro l' hl'
    have hne : l' ≠ l := by
      rintro rfl
      exact hl hl'
    simpa [World.setOwner, hne] using hl'
  · exact fun n hn => (fits_loading h hn).1
  · exact fun n l hn => (fits_registered h hn).2.2

theorem fits_setMutex {w : World ε} {j : Nat} {o : Option Nat} {q : Point ε}
    (h : q.Fits w j) : q.Fits (w.setMutex o) j :=
  fits_frame h (fun _ ho => ho) (fun _ _ hs => hs) (fun _ _ _ hl => hl)
    (fun _ hn => (fits_loading h hn).1) (fun _ _ hn => (fits_registered h hn).2.2)

/-- The table of load locks only gets an entry for a name that has none. -/
theorem fits_getLock {w : World ε} {j : Nat} {q : Point ε} (n : String) (h : q.Fits w j) :
    q.Fits (w.getLock n).2 j := by
  cases hn : w._plugin_load_locks n with
  | some l₀ => simpa [World.getLock, hn] using h
  | none =>
    have hlock : ∀ m l, w._plugin_load_locks m = some l →
        (w.getLock n).2._plugin_load_locks m = some l := by
      intro m l hl
      have hne : m ≠ n := by
        rintro rfl
        rw [hn] at hl
        cases hl
      simpa [World.getLock, hn, hne] using hl
    have howner : (w.getLock n).2.owners = w.owners := by simp [World.getLock, hn]
    have hservices : (w.getLock n).2._services = w._services := by simp [World.getLock, hn]
    refine fits_frame h (fun _ ho => howner ▸ ho) (fun _ _ hs => hservices ▸ hs)
      (fun m l _ => hlock m l) ?_ ?_
    · exact fun m hm => hservices ▸ (fits_loading h hm).1
    · exact fun m l hm => hlock m l (fits_registered h hm).2.2

theorem getLock_lock (w : World ε) (n : String) :
    (w.getLock n).2._plugin_load_locks n = some (w.getLock n).1 := by
  unfold World.getLock
  split
  · assumption
  · simp

/-- Registering `n`, which no other call is about to do. -/
theorem fits_add_service {w : World ε} {j : Nat} {q : Point ε} {service : Service}
    (hnone : w._services service.plugin_name = none) (hq : ¬ q.Loading service.plugin_name)
    (h : q.Fits w j) : q.Fits (w.add_service service) j := by
  have hother : ∀ n, n ≠ service.plugin_name →
      (w.add_service service)._services n = w._services n := fun n hn => by
    simp [World.add_service, hn]
  refine fits_frame h (fun _ ho => ho) ?_ (fun _ _ _ hl => hl) ?_ ?_
  · intro n c hs
    have hn : n ≠ service.plugin_name := by
      rintro rfl
      rw [hnone] at hs
      cases hs
    rw [hother n hn]
    exact hs
  · intro n hn
    rw [hother n (by rintro rfl; exact hq hn)]
    exact (fits_loading h hn).1
  · exact fun n l hn => (fits_registered h hn).2.2

/-- Removing the load lock of a registered name. -/
theorem fits_deleteLock {w : World ε} {j : Nat} {q : Point ε} {n : String}
    (hsome : w._services n ≠ none) (hq : ∀ l, ¬ q.Registered n l) (h : q.Fits w j) :
    q.Fits (w.deleteLock n) j := by
  have hother : ∀ m, m ≠ n →
      (w.deleteLock n)._plugin_load_locks m = w._plugin_load_locks m := fun m hm => by
    simp [World.deleteLock, hm]
  refine fits_frame h (fun _ ho => ho) (fun _ _ hs => hs) ?_ ?_ ?_
  · intro m l hm hl
    rw [hother m (by rintro rfl; exact hsome hm)]
    exact hl
  · exact fun m hm => (fits_loading h hm).1
  · intro m l hm
    rw [hother m (by rintro rfl; exact hq l hm)]
    exact (fits_registered h hm).2.2

theorem names_add_service {w : World ε} {service : Service}
    (hnames : ∀ (c : Nat) (k : ServiceContainer ε), w.containers[c]? = some k →
      w._services k.service.plugin_name = some c)
    (hnone : w._services service.plugin_name = none) (c : Nat) (k : ServiceContainer ε)
    (hk : (w.add_service service).containers[c]? = some k) :
    (w.add_service service)._services k.service.plugin_name = some c := by
  rcases Nat.lt_or_ge c w.containers.length with hc | hc
  · have hold := hnames c k (by simpa [World.add_service, List.getElem?_append_left hc] using hk)
    have hne : k.service.plugin_name ≠ service.plugin_name := by
      intro he
      rw [he, hnone] at hold
      cases hold
    simpa [World.add_service, hne] using hold
  · simp only [World.add_service, List.getElem?_append_right hc, List.getElem?_singleton] at hk
    split at hk <;> cases hk
    have hc' : w.containers.length = c := by omega
    simp [World.add_service, ServiceContainer.new, hc']

/-- While call `i` holds the load lock of `n`, it alone is loading `n`. -/
theorem not_loading {w : World ε} {i j l : Nat} {n : String} (hw : Invariant w)
    (howner : w.owners l = some i) (hlock : w._plugin_load_locks n = some l) (hj : j ≠ i) :
    ¬ (w.threads j).Loading n := by
  intro hl
  obtain ⟨-, l', ho, hl'⟩ := fits_loading (hw.fits j) hl
  rw [hlock] at hl'
  cases hl'
  rw [howner] at ho
  exact hj (Option.some.inj ho).symm

theorem not_registered {w : World ε} {i j l l' : Nat} {n : String} (hw : Invariant w)
    (howner : w.owners l = some i) (hlock : w._plugin_load_locks n = some l) (hj : j ≠ i) :
    ¬ (w.threads j).Registered n l' := by
  intro hl
  obtain ⟨ho, -, hl'⟩ := fits_registered (hw.fits j) hl
  rw [hlock] at hl'
  cases hl'
  rw [howner] at ho
  exact hj (Option.some.inj ho).symm

theorem step_invariant {exists_ : String → Bool} {w w' : World ε} {a : Action ε}
    (hw : Invariant w) (hok : OwnName w a) (h : step exists_ w a = some w') :
    Invariant w' := by
  have hfit := hw.fits a.thread
  unfold step at h
  cases hp : w.threads a.thread <;> simp only [hp] at h hfit
  case lookup n =>
    cases h
    cases hs : w._services n with
    | none => exact invariant_goto hw trivial
    | some c => exact invariant_goto hw hs
  case checkExists n =>
    cases h
    split <;> exact invariant_goto hw trivial
  case getLock n =>
    cases h
    refine invariant_move ?_ ?_ (fun j _ => fits_getLock n (hw.fits j)) ?_
    · unfold World.getLock
      split <;> rfl
    · unfold World.getLock
      split <;> exact hw.names
    · exact fun _ => getLock_lock w n
  case acquire n l =>
    split at h <;> cases h
    rename_i hfree
    have hnone : w.owners l = none := by simpa using hfree
    refine invariant_move rfl hw.names (fun j _ => fits_setOwner ?_ (hw.fits j)) ?_
    · simp [hnone]
    · exact ⟨by simp [World.setOwner], hfit⟩
  case recheck n l =>
    cases h
    cases hs : w._services n with
    | none => exact invariant_goto hw ⟨hfit.1, hs, hfit.2 hs⟩
    | some c => exact invariant_goto hw ⟨hfit.1, hs⟩
  case load n l =>
    cases h
    cases ho : a.outcome with
    | raises e | nothing => exact invariant_goto hw ⟨hfit.1, trivial⟩
    | plugin service =>
      exact invariant_goto hw ⟨hfit.1, hfit.2.1, hfit.2.2, hok n l service hp ho⟩
  case acquireMutex n l service =>
    split at h <;> cases h
    exact invariant_move rfl hw.names (fun j _ => fits_setMutex (hw.fits j)) hfit
  case add n l service =>
    cases h
    obtain ⟨howner, hnone, hlock, rfl⟩ := hfit
    refine invariant_move rfl ?_ (fun j hj => fits_add_service hnone ?_ (hw.fits j)) ?_
    · exact names_add_service hw.names hnone
    · exact not_loading (w := w) hw howner hlock hj
    · exact ⟨howner, by simp [World.add_service], hlock⟩
  case releaseMutex n l =>
    cases h
    exact invariant_move rfl hw.names (fun j _ => fits_setMutex (hw.fits j)) hfit
  case deleteLock n l =>
    obtain ⟨howner, hsome, hlock⟩ := hfit
    rw [hlock] at h
    cases h
    exact invariant_move rfl hw.names (fun j hj => fits_deleteLock hsome
      (fun _ => not_registered (w := w) hw howner hlock hj) (hw.fits j)) howner
  case lookupAgain n l =>
    cases h
    refine invariant_goto hw ⟨hfit, ?_⟩
    cases hs : w._services n with
    | none => trivial
    | some c => exact hs
  case leave n l r =>
    cases h
    refine invariant_move rfl hw.names (fun j hj => fits_setOwner ?_ (hw.fits j)) ?_
    · rw [hfit.1]
      exact fun he => hj (Option.some.inj he).symm
    · exact result_fits_mono (fun _ hs => hs) hfit.2
  case done n r => cases h

/-! ## Failed loads -/

/-- The registration is being made or behind the call. -/
def Point.Adding : Point ε → Prop
  | .add _ _ _ | .releaseMutex _ _ | .deleteLock _ _ | .lookupAgain _ _ | .leave _ _ _
  | .done _ _ => True
  | _ => False

def Point.Over : Point ε → Prop
  | .leave _ _ _ | .done _ _ => True
  | _ => False

/-- What a step of call `i` can do to the services and to its own point. -/
structure StepEffect (i : Nat) (w w' : World ε) : Prop where
  others : ∀ j, j ≠ i → w'.threads j = w.threads j
  adding : (w.threads i).Adding → (w'.threads i).Adding
  ended : (w.threads i).Over → (w'.threads i).Over
  services : (∃ n l service, w.threads i = .add n l service) ∨
    w'._services = w._services ∧ w'.containers = w.containers

theorem effect_move {w w' : World ε} {i : Nat} {p : Point ε} (hthreads : w'.threads = w.threads)
    (hadding : (w.threads i).Adding → p.Adding) (hover : (w.threads i).Over → p.Over)
    (hservices : (∃ n l service, w.threads i = .add n l service) ∨
      w'._services = w._services ∧ w'.containers = w.containers) :
    StepEffect i w (w'.goto i p) := by
  constructor
  · intro j hj
    rw [goto_threads_ne _ hj, hthreads]
  · rwa [goto_threads_self]
  · rwa [goto_threads_self]
  · exact hservices

theorem step_effect {exists_ : String → Bool} {w w' : World ε} {a : Action ε}
    (h : step exists_ w a = some w') : StepEffect a.thread w w' := by
  unfold step at h
  cases hp : w.threads a.thread <;> simp only [hp] at h
  case lookup n | recheck n l =>
    cases h
    apply effect_move rfl <;> simp [hp, Point.Adding, Point.Over]
  case checkExists n =>
    cases h
    apply effect_move rfl <;> simp [hp, Point.Adding, Point.Over]
  case getLock n =>
    cases h
    apply effect_move
    · unfold World.getLock
      split <;> rfl
    · simp [hp, Point.Adding]
    · simp [hp, Point.Over]
    · unfold World.getLock
      split <;> exact Or.inr ⟨rfl, rfl⟩
  case acquire n l | acquireMutex n l service =>
    split at h <;> cases h
    apply effect_move <;> simp [hp, Point.Adding, Point.Over, World.setOwner, World.setMutex]
  case load n l | lookupAgain n l =>
    cases h
    apply effect_move rfl <;> simp [hp, Point.Adding, Point.Over]
  case add n l service =>
    cases h
    apply effect_move <;> simp [hp, Point.Adding, Point.Over, World.add_service]
  case releaseMutex n l | leave n l r =>
    cases h
    apply effect_move <;> simp [hp, Point.Adding, Point.Over, World.setOwner, World.setMutex]
  case deleteLock n l =>
    split at h <;> cases h <;> apply effect_move <;>
      simp [hp, Point.Adding, Point.Over, World.deleteLock]
  case done n r => cases h

/-- A failed load sends its call to its end. -/
theorem failedLoad_over {exists_ : String → Bool} {w w' : World ε} {a : Action ε}
    (hf : FailedLoad w a) (h : step exists_ w a = some w') :
    ¬ (w.threads a.thread).Adding ∧ (w'.threads a.thread).Over := by
  obtain ⟨n, l, hp, ho⟩ := hf
  refine ⟨by simp [hp, Point.Adding], ?_⟩
  simp only [step, hp] at h
  cases h
  rw [goto_threads_self]
  cases hl : a.outcome with
  | raises e | nothing => trivial
  | plugin service => exact absurd hl (ho service)

/-- What a call's own steps keep is kept by all steps. -/
theorem step_keeps_point {exists_ : String → Bool} {w w' : World ε} {a : Action ε} {i : Nat}
    {P : Point ε → Prop} (hown : StepEffect i w w' → P (w.threads i) → P (w'.threads i))
    (h : step exists_ w a = some w') (hp : P (w.threads i)) : P (w'.threads i) := by
  have he := step_effect h
  by_cases hi : a.thread = i
  · subst hi
    exact hown he hp
  · rw [he.others i (Ne.symm hi)]
    exact hp

/-! ## Runs -/

theorem initial_invariant {w : World ε} (h : Initial w) : Invariant w := by
  refine ⟨h.names, fun i => ?_⟩
  obtain ⟨n, hn⟩ := h.threads i
  rw [hn]
  trivial

theorem invariant_loadedOnce {w : World ε} (h : Invariant w) : LoadedOnce w := by
  have hdone : ∀ i n c, w.threads i = .done n (.returned (some c)) → w._services n = some c := by
    intro i n c hi
    have := h.fits i
    rwa [hi] at this
  refine ⟨?_, ?_, hdone⟩
  · intro c c' k k' hk hk' he
    have hc := h.names c k hk
    rw [he, h.names c' k' hk'] at hc
    exact (Option.some.inj hc).symm
  · intro i j n c c' hi hj
    have hc := hdone i n c hi
    rw [hdone j n c' hj] at hc
    exact (Option.some.inj hc).symm

/-- **Plugins are loaded at most once.** In every state of a run there is at most
one container for each name, and every call that has returned a container for a
name has returned that one. A call whose load fails changes the services in none of
its steps. -/
theorem run_loadedOnce {exists_ : String → Bool} {w₀ w : World ε}
    {es : List (Event (World ε) (Action ε))} (h₀ : Initial w₀) (h : Run (step exists_) w₀ es w)
    (hname : Guarded OwnName es) :
    Always LoadedOnce w₀ es ∧
      ∀ e ∈ es, ∀ f ∈ es, FailedLoad e.pre e.label → f.label.thread = e.label.thread →
        f.post._services = f.pre._services ∧ f.post.containers = f.pre.containers := by
  constructor
  · have hinv := h.always (initial_invariant h₀) (fun _ _ _ hi hg hs => step_invariant hi hg hs)
      hname
    exact ⟨invariant_loadedOnce hinv.1, fun e he => invariant_loadedOnce (hinv.2 e he)⟩
  · intro e he f hf hfail hthread
    obtain ⟨fs, gs, rfl, hpre, hs, hpost⟩ := h.split he
    obtain ⟨hnot, hover⟩ := failedLoad_over hfail hs
    have heffect : StepEffect f.label.thread f.pre f.post := by
      obtain ⟨_, _, _, _, hfs, _⟩ := h.split hf
      exact step_effect hfs
    -- the call does not register anything before, at or after the failed load
    refine heffect.services.resolve_left ?_
    rintro ⟨n, l, service, hadd⟩
    rw [hthread] at hadd
    rcases List.mem_append.mp hf with hf | hf
    · obtain ⟨_, _, rfl, _, hfs, hmid⟩ := hpre.split hf
      have hadding : (f.post.threads e.label.thread).Adding := by
        have := (step_effect hfs).adding
        rw [hthread] at this
        exact this (by rw [hadd]; trivial)
      exact hnot (hmid.keeps hadding fun _ _ _ hp hs =>
        step_keeps_point (fun heff => heff.adding) hs hp)
    · rcases List.mem_cons.mp hf with rfl | hf
      · exact hnot (by rw [hadd]; trivial)
      · have halways : Always (fun w => (w.threads e.label.thread).Over) e.post gs :=
          hpost.keeps_always hover fun _ _ _ hp hs =>
            step_keeps_point (fun heff => heff.ended) hs hp
        have hend := hpost.pre_of_always halways hf
        rw [hadd] at hend
        exact hend

def sqs : Service := ⟨"sqs", .default, false, false, true⟩

def noServices : World Nat where
  _services := fun _ => none
  containers := []
  _plugin_load_locks := fun _ => none
  nextLock := 0
  owners := fun _ => none
  _mutex := none
  threads := fun _ => .lookup "sqs"

theorem noServices_initial : Initial noServices :=
  ⟨by simp [noServices], fun _ => ⟨_, rfl⟩⟩

/-- Call 0 fails to load `sqs`; call 1 then loads it with the same lock, for which
call 2 waits. -/
theorem failed_then_loadedOnce :
    ∃ es, ∃ w : World Nat, Run (step fun _ => true) noServices es w ∧
      w.threads 0 = .done "sqs" (.raised 7) ∧
      w.threads 1 = .done "sqs" (.returned (some 0)) ∧
      w.threads 2 = .done "sqs" (.returned (some 0)) ∧ Always LoadedOnce noServices es := by
  have hr : Run (step fun _ => true) noServices _ _ :=
    (((((((((((((((((((((((((Run.nil.snoc (a := ⟨0, .nothing⟩) rfl).snoc
      (a := ⟨0, .nothing⟩) rfl).snoc (a := ⟨0, .nothing⟩) rfl).snoc (a := ⟨0, .nothing⟩) rfl).snoc
      (a := ⟨0, .nothing⟩) rfl).snoc (a := ⟨0, .raises 7⟩) rfl).snoc
      (a := ⟨0, .nothing⟩) rfl).snoc
      (a := ⟨1, .nothing⟩) rfl).snoc (a := ⟨1, .nothing⟩) rfl).snoc (a := ⟨1, .nothing⟩) rfl).snoc
      (a := ⟨2, .nothing⟩) rfl).snoc (a := ⟨2, .nothing⟩) rfl).snoc (a := ⟨2, .nothing⟩) rfl).snoc
      (a := ⟨1, .nothing⟩) rfl).snoc (a := ⟨1, .nothing⟩) rfl).snoc
      (a := ⟨1, .plugin sqs⟩) rfl).snoc (a := ⟨1, .nothing⟩) rfl).snoc
      (a := ⟨1, .nothing⟩) rfl).snoc (a := ⟨1, .nothing⟩) rfl).snoc
      (a := ⟨1, .nothing⟩) rfl).snoc (a := ⟨1, .nothing⟩) rfl).snoc
      (a := ⟨1, .nothing⟩) rfl).snoc (a := ⟨2, .nothing⟩) rfl).snoc
      (a := ⟨2, .nothing⟩) rfl).snoc (a := ⟨2, .nothing⟩) rfl)
  refine ⟨_, _, hr, rfl, rfl, rfl, (run_loadedOnce noServices_initial hr ?_).1⟩
  simp only [guarded_snoc, guarded_nil, true_and, and_assoc]
  refine ⟨?_, ?_, ?_, ?_, ?_, ?_, ?_, ?_, ?_, ?_, ?_, ?_, ?_, ?_, ?_, ?_, ?_, ?_, ?_, ?_, ?_, ?_,
    ?_, ?_, ?_⟩ <;> rintro n l service hp ho <;> cases ho
  cases hp
  rfl

end LocalStack.Services.PluginLoading
