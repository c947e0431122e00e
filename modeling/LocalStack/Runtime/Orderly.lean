import LocalStack.Lib.Runs
import LocalStack.Runtime.ShutdownCalls

/-! The runtime with all its threads and the requests that the gateway is sent meanwhile. -/

namespace LocalStack.Runtime.Lifecycle
open LocalStack.Runs

variable {h : Hooks} {w w' : World} {l : List Entry} {o : Outcome} {c : Nat}

/-- The events tell what was done. -/
structure Signals (w : World) : Prop where
  starting : w.starting = true ↔ .starting ∈ w.log
  ready : w.ready = true ↔ .ready ∈ w.log
  stopping : w.stopping = true ↔ .stopping ∈ w.log
  stopped : w.stopped = true ↔ .stopped ∈ w.log

/-- What the code of a role leaves alone. -/
def Frame (w w' : World) : Role → Prop
  | .shutdown => w'.main = w.main ∧ w'.monitor = w.monitor
  | _ => w'.calls = w.calls ∧ w'.lock = w.lock ∧ w'.stopping = w.stopping ∧ w'.found = w.found

/-- A step of a role does what the list says. -/
structure Effect (r : Role) (w w' : World) (l : List Entry) : Prop where
  log : w'.log = w.log ++ l
  role : ∀ e ∈ l, e.role = r
  requests : w'.requests = w.requests
  frame : Frame w w' r
  starting : w'.starting = true ↔ w.starting = true ∨ .starting ∈ l
  ready : w'.ready = true ↔ w.ready = true ∨ .ready ∈ l
  stopping : w'.stopping = true ↔ w.stopping = true ∨ .stopping ∈ l
  stopped : w'.stopped = true ↔ w.stopped = true ∨ .stopped ∈ l

variable {r : Role}

theorem Effect.signals (he : Effect r w w' l) (hi : Signals w) : Signals w' := by
  constructor
  · rw [he.starting, hi.starting, he.log, List.mem_append]
  · rw [he.ready, hi.ready, he.log, List.mem_append]
  · rw [he.stopping, hi.stopping, he.log, List.mem_append]
  · rw [he.stopped, hi.stopped, he.log, List.mem_append]

/-- A step that does nothing but to move on. -/
theorem effect_nil (hlog : w'.log = w.log) (hrequests : w'.requests = w.requests)
    (hframe : Frame w w' r) (hstarting : w'.starting = w.starting) (hready : w'.ready = w.ready)
    (hstopping : w'.stopping = w.stopping) (hstopped : w'.stopped = w.stopped) :
    Effect r w w' [] := by
  constructor <;> simp [*]

/-- The event that an entry is the setting of. -/
def Entry.signal : Entry → Bool
  | .starting | .ready | .stopping | .stopped => true
  | _ => false

/-- A step that does something else than to set an event. -/
theorem effect_quiet {e : Entry} (hrole : e.role = r) (he : e.signal = false)
    (hlog : w'.log = w.log ++ [e]) (hrequests : w'.requests = w.requests)
    (hframe : Frame w w' r) (hstarting : w'.starting = w.starting) (hready : w'.ready = w.ready)
    (hstopping : w'.stopping = w.stopping) (hstopped : w'.stopped = w.stopped) :
    Effect r w w' [e] := by
  have hne : ∀ e' : Entry, e'.signal = true → e' ∉ [e] := by
    intro e' ht hm
    rw [List.mem_singleton.mp hm, he] at ht
    cases ht
  refine ⟨hlog, by simpa using hrole, hrequests, hframe, ?_, ?_, ?_, ?_⟩
  · simp [hstarting, hne .starting rfl]
  · simp [hready, hne .ready rfl]
  · simp [hstopping, hne .stopping rfl]
  · simp [hstopped, hne .stopped rfl]

theorem run_effect (hs : run h w o w.main = some w') : ∃ l, Effect .run w w' l := by
  generalize w.main = p at hs
  have hframe : ∀ q n, Frame w { w with main := q, log := n } .run :=
    fun _ _ => ⟨rfl, rfl, rfl, rfl⟩
  have hnil : ∀ q, Effect .run w { w with main := q } [] := fun q =>
    effect_nil rfl rfl (hframe q w.log) rfl rfl rfl rfl
  cases p with
  | setStarting =>
    cases hs
    refine ⟨[.starting], rfl, by simp [Entry.role], rfl, ⟨rfl, rfl, rfl, rfl⟩, ?_, ?_, ?_, ?_⟩ <;>
      simp
  | startHooks rest =>
    cases rest with
    | nil => cases hs; exact ⟨_, hnil _⟩
    | cons p rest =>
      cases hs
      exact ⟨_, effect_quiet rfl rfl rfl rfl (hframe _ _) rfl rfl rfl rfl⟩
  | startMonitor =>
    cases hs
    exact ⟨[], effect_nil rfl rfl ⟨rfl, rfl, rfl, rfl⟩ rfl rfl rfl rfl⟩
  | serve =>
    cases hs
    exact ⟨_, effect_quiet rfl rfl rfl rfl (hframe _ _) rfl rfl rfl rfl⟩
  | cleanupResources =>
    cases o with
    | returns =>
      cases hs
      exact ⟨_, effect_quiet rfl rfl rfl rfl (hframe _ _) rfl rfl rfl rfl⟩
    | raises => cases hs; exact ⟨_, hnil _⟩
  | setStopped =>
    cases hs
    refine ⟨[.stopped], rfl, by simp [Entry.role], rfl, ⟨rfl, rfl, rfl, rfl⟩, ?_, ?_, ?_, ?_⟩ <;>
      simp
  | ended => cases hs
  | _ => cases hs; exact ⟨_, hnil _⟩

theorem run_ready_monitor_effect (hs : run_ready_monitor h w o w.monitor = some w') :
    ∃ l, Effect .monitor w w' l := by
  generalize w.monitor = p at hs
  have hframe : ∀ q n, Frame w { w with monitor := q, log := n } .monitor :=
    fun _ _ => ⟨rfl, rfl, rfl, rfl⟩
  have hnil : ∀ q, Effect .monitor w { w with monitor := q } [] := fun q =>
    effect_nil rfl rfl (hframe q w.log) rfl rfl rfl rfl
  cases p with
  | readyHooks rest =>
    cases rest with
    | nil => cases hs; exact ⟨_, hnil _⟩
    | cons p rest =>
      cases hs
      exact ⟨_, effect_quiet rfl rfl rfl rfl (hframe _ _) rfl rfl rfl rfl⟩
  | printMarker =>
    cases hs
    exact ⟨_, effect_quiet rfl rfl rfl rfl (hframe _ _) rfl rfl rfl rfl⟩
  | setReady =>
    cases hs
    refine ⟨[.ready], rfl, by simp [Entry.role], rfl, ⟨rfl, rfl, rfl, rfl⟩, ?_, ?_, ?_, ?_⟩ <;>
      simp
  | unborn | ended => cases hs
  | _ => cases hs; exact ⟨_, hnil _⟩

theorem shutdown_effect {p : CallPoint} (hs : shutdown h w c o p = some w') :
    ∃ l, Effect .shutdown w w' l := by
  have hframe : ∀ w' : World, w'.main = w.main → w'.monitor = w.monitor →
      Frame w w' .shutdown := fun _ hm hn => ⟨hm, hn⟩
  have hnil : ∀ q, Effect .shutdown w (w.setCall c q) [] := fun q =>
    effect_nil rfl rfl (hframe _ rfl rfl) rfl rfl rfl rfl
  cases p with
  | setExitCode code | leave first =>
    cases hs
    exact ⟨[], effect_nil rfl rfl (hframe _ rfl rfl) rfl rfl rfl rfl⟩
  | acquire =>
    simp only [shutdown] at hs
    split at hs
    · cases hs
      exact ⟨[], effect_nil rfl rfl (hframe _ rfl rfl) rfl rfl rfl rfl⟩
    · cases hs
  | setStopping =>
    cases hs
    refine ⟨[.stopping], rfl, by simp [Entry.role], rfl, ⟨rfl, rfl⟩, ?_, ?_, ?_, ?_⟩ <;>
      simp [World.tell, World.setCall]
  | hooks rest =>
    cases rest with
    | nil => cases hs; exact ⟨_, hnil _⟩
    | cons p rest =>
      cases hs
      exact ⟨_, effect_quiet rfl rfl rfl rfl (hframe _ rfl rfl) rfl rfl rfl rfl⟩
  | handlers p fs rest =>
    cases fs with
    | nil => cases hs; exact ⟨_, hnil _⟩
    | cons f fs =>
      simp only [shutdown] at hs
      cases hs
      split
      · exact ⟨_, effect_quiet rfl rfl rfl rfl (hframe _ rfl rfl) rfl rfl rfl rfl⟩
      · exact ⟨_, effect_quiet rfl rfl rfl rfl (hframe _ rfl rfl) rfl rfl rfl rfl⟩
  | inHook rest =>
    cases o with
    | returns => cases hs; exact ⟨_, hnil _⟩
    | raises =>
      cases hs
      exact ⟨_, effect_quiet rfl rfl rfl rfl (hframe _ rfl rfl) rfl rfl rfl rfl⟩
  | serverShutdown =>
    cases hs
    exact ⟨_, effect_quiet rfl rfl rfl rfl (hframe _ rfl rfl) rfl rfl rfl rfl⟩
  | unborn | ended => cases hs
  | _ => cases hs; exact ⟨_, hnil _⟩

/-- What is known of a request. -/
def RequestPoint.Fits (log : List Entry) : RequestPoint → Prop
  | .unborn => True
  | .testStopped _ begun => begun <+: log
  | .testStopping _ begun => begun <+: log ∧ .stopped ∉ begun
  | .answered q begun admitted =>
    begun <+: log ∧
      (admitted = true → .stopped ∉ begun ∧ (q.internal = true ∨ .stopping ∉ begun)) ∧
      (admitted = false → .stopped ∈ log ∨ .stopping ∈ log ∧ q.internal = false)

structure Invariant (h : Hooks) (w : World) : Prop where
  main : MainInvariant h w
  calls : CallInvariant h w
  signals : Signals w
  requests : ∀ i, (w.requests i).Fits w.log

variable {a : Action} {i : Nat}

theorem RequestPoint.Fits.mono {p : RequestPoint} {log log' : List Entry} (hp : p.Fits log)
    (hl : log <+: log') : p.Fits log' := by
  cases p with
  | unborn => trivial
  | testStopped q begun => exact List.IsPrefix.trans hp hl
  | testStopping q begun => exact ⟨hp.1.trans hl, hp.2⟩
  | answered q begun admitted =>
    exact ⟨hp.1.trans hl, hp.2.1, fun ha => (hp.2.2 ha).imp (hl.subset ·)
      fun ht => ⟨hl.subset ht.1, ht.2⟩⟩

theorem MainInvariant.same (hi : MainInvariant h w) (hmain : w'.main = w.main)
    (hmonitor : w'.monitor = w.monitor) (hlog : w'.log = w.log ++ l)
    (hl : ∀ e ∈ l, e.role = .shutdown) : MainInvariant h w' := by
  have hrun : story .run w'.log = story .run w.log := by
    rw [hlog, story_append_other _ hl (by decide)]
  have hother : story .monitor w'.log = story .monitor w.log := by
    rw [hlog, story_append_other _ hl (by decide)]
  obtain ⟨main, monitor, unborn, started⟩ := hi
  constructor
  · rwa [hmain, hrun]
  · rwa [hmonitor, hother]
  · rwa [hmain, hmonitor]
  · rwa [hmonitor, hrun]

theorem Initial.invariant (hi : Initial w) : Invariant h w := by
  refine ⟨hi.mainInvariant, hi.callInvariant, ?_, ?_⟩
  · constructor <;> simp [hi.starting, hi.ready, hi.stopping, hi.stopped, hi.log]
  · simp [hi.requests, RequestPoint.Fits]

theorem Invariant.of_effect (hi : Invariant h w) (he : Effect r w w' l)
    (hmain : MainInvariant h w') (hcalls : CallInvariant h w') : Invariant h w' := by
  refine ⟨hmain, hcalls, he.signals hi.signals, fun i => ?_⟩
  rw [he.requests, he.log]
  exact (hi.requests i).mono (List.prefix_append _ _)

theorem Effect.callInvariant (he : Effect r w w' l) (hr : r ≠ .shutdown)
    (hi : CallInvariant h w) : CallInvariant h w' := by
  have hlog : story .shutdown w'.log = story .shutdown w.log := by
    rw [he.log, story_append_other _ he.role hr]
  have hframe := he.frame
  cases r with
  | shutdown => exact absurd rfl hr
  | run => exact hi.same hframe.1 hframe.2.1 hframe.2.2.1 hframe.2.2.2 hlog
  | monitor => exact hi.same hframe.1 hframe.2.1 hframe.2.2.1 hframe.2.2.2 hlog

/-- A test of the two events. An answer is one by what they tell now. -/
theorem answer_invariant (hi : Invariant h w) (hs : answer w i (w.requests i) = some w') :
    Invariant h w' := by
  have hfit := hi.requests i
  have hset : ∀ p : RequestPoint, p.Fits w.log → Invariant h (w.setRequest i p) := by
    intro p hp
    refine ⟨hi.main.same rfl rfl (List.append_nil _).symm (by simp),
      hi.calls.same rfl rfl rfl rfl rfl,
      ⟨hi.signals.starting, hi.signals.ready, hi.signals.stopping, hi.signals.stopped⟩,
      fun i' => ?_⟩
    by_cases he : i' = i
    · subst he
      simpa [World.setRequest] using hp
    · simpa [World.setRequest, Function.update_of_ne he] using hi.requests i'
  generalize w.requests i = p at hs hfit
  cases p with
  | unborn => cases hs
  | testStopped q begun =>
    cases hs
    refine hset _ ?_
    cases ht : w.stopped with
    | true => exact ⟨hfit, by simp, fun _ => .inl (hi.signals.stopped.mp ht)⟩
    | false =>
      refine ⟨hfit, fun hb => ?_⟩
      rw [hi.signals.stopped.mpr (hfit.subset hb)] at ht
      cases ht
  | testStopping q begun =>
    cases hs
    refine hset _ ⟨hfit.1, fun hadmitted => ⟨hfit.2, ?_⟩, fun hrefused => .inr ?_⟩
    · rcases Bool.or_eq_true_iff.mp hadmitted with ht | hq
      · refine .inr fun hb => ?_
        rw [hi.signals.stopping.mpr (hfit.1.subset hb)] at ht
        cases ht
      · exact .inl hq
    · obtain ⟨ht, hq⟩ := Bool.or_eq_false_iff.mp hrefused
      exact ⟨hi.signals.stopping.mp (by simpa using ht), hq⟩
  | answered q begun admitted => cases hs

theorem step_invariant (hi : Invariant h w) (hs : step h w a = some w') : Invariant h w' := by
  have hmain : ∀ v : World, v.main = w.main → v.monitor = w.monitor → v.log = w.log →
      MainInvariant h v := fun v hm hn hl =>
    hi.main.same (l := []) hm hn (hl.trans (List.append_nil _).symm) (by simp)
  have hborn : ∀ c p, w.calls c = .unborn → CallPoint.active p = false →
      CallPoint.inside p = false → p ≠ .setStopping → CallPoint.Tells h w.found
        (story .shutdown w.log) p → Invariant h (w.setCall c p) := by
    intro c p hc ha hin hset ht
    refine ⟨hmain _ rfl rfl rfl, ?_,
      ⟨hi.signals.starting, hi.signals.ready, hi.signals.stopping, hi.signals.stopped⟩,
      hi.requests⟩
    exact hi.calls.goto rfl rfl rfl rfl (.inl rfl) ht (fun h' => absurd h' hset)
      (fun h' => by simp [ha] at h') (fun h' => by simp [hin] at h')
  cases a with
  | run o =>
    obtain ⟨l, he⟩ := run_effect hs
    exact hi.of_effect he (run_mainInvariant hi.main hs) (he.callInvariant (by decide) hi.calls)
  | monitor o =>
    obtain ⟨l, he⟩ := run_ready_monitor_effect hs
    exact hi.of_effect he (run_ready_monitor_mainInvariant hi.main hs)
      (he.callInvariant (by decide) hi.calls)
  | shutdown c =>
    simp only [step] at hs
    split at hs
    · rename_i hc
      cases hs
      exact hborn c _ hc rfl rfl (by simp) trivial
    · cases hs
  | exit c code =>
    simp only [step] at hs
    split at hs
    · rename_i hc
      cases hs
      exact hborn c _ hc rfl rfl (by simp) trivial
    · cases hs
  | move c o =>
    obtain ⟨l, he⟩ := shutdown_effect hs
    exact hi.of_effect he (hi.main.same he.frame.1 he.frame.2 he.log he.role)
      (shutdown_callInvariant hi.calls hs)
  | register r f | unregister r f =>
    cases hs
    exact ⟨hmain _ rfl rfl rfl, hi.calls.same rfl rfl rfl rfl rfl,
      ⟨hi.signals.starting, hi.signals.ready, hi.signals.stopping, hi.signals.stopped⟩,
      hi.requests⟩
  | request i q =>
    simp only [step] at hs
    split at hs
    · cases hs
      refine ⟨hmain _ rfl rfl rfl, hi.calls.same rfl rfl rfl rfl rfl,
        ⟨hi.signals.starting, hi.signals.ready, hi.signals.stopping, hi.signals.stopped⟩,
        fun i' => ?_⟩
      by_cases he : i' = i
      · subst he
        simp [World.setRequest, RequestPoint.Fits]
      · simpa [World.setRequest, Function.update_of_ne he] using hi.requests i'
    · cases hs
  | answer i => exact answer_invariant hi hs

theorem filterMap_called (p : FunctionPlugin) (fs : List Callback) :
    (Entry.shutdownHook p :: fs.map .handler).filterMap Entry.hook = [p] := by
  simp [List.filterMap_map, Entry.hook, Function.comp_def]

theorem filterMap_hook (found : FunctionPlugin → List Callback) (ps : List FunctionPlugin) :
    (ps.flatMap (Hooks.hookStory found)).filterMap Entry.hook = ps := by
  induction ps with
  | nil => rfl
  | cons p ps ih =>
    rw [List.flatMap_cons, List.filterMap_append, ih, Hooks.hookStory, filterMap_called]
    rfl

theorem Hooks.Course.hooks_prefix {found : FunctionPlugin → List Callback} {cut : List Entry}
    (hcut : h.Course found cut) :
    cut.filterMap Entry.hook <+: load_all_sorted h.on_runtime_shutdown := by
  cases hcut with
  | completed => rw [filterMap_hook]
  | @failed called rest p hcalled hfail =>
    rw [List.filterMap_append, filterMap_hook, Hooks.failedStory, List.filterMap_append,
      filterMap_called, ← hcalled]
    exact (List.prefix_append_right_inj _).mpr ⟨rest, rfl⟩

/-- The hooks that were called are the first ones of all. -/
theorem CallInvariant.hooks_prefix (hi : CallInvariant h w) :
    (story .shutdown w.log).filterMap Entry.hook <+: load_all_sorted h.on_runtime_shutdown := by
  obtain ⟨cut, hcut, htold⟩ := hi.told
  have hhooks : (Entry.stopping :: (cut ++ [.serverShutdown])).filterMap Entry.hook =
      cut.filterMap Entry.hook := by
    rw [List.filterMap_cons_none rfl, List.filterMap_append]
    simp [Entry.hook]
  exact (hhooks ▸ htold.filterMap Entry.hook).trans hcut.hooks_prefix

theorem Invariant.orderly (hi : Invariant h w) : Orderly h w where
  run := hi.main.main.begins
  monitor := hi.main.monitor.begins
  started hne := by
    refine hi.main.started fun hm => hne ?_
    have ht := hi.main.monitor
    rw [hm] at ht
    exact ht
  shutdown := hi.calls.told
  by_priority := (load_all_sorted_pairwise h.on_runtime_shutdown).sublist
    hi.calls.hooks_prefix.sublist
  starting_set := hi.signals.starting
  ready_set := hi.signals.ready
  stopping_set := hi.signals.stopping
  stopped_set := hi.signals.stopped

/-- **An orderly life.** However many calls of `shutdown` and `exit` there are and in
whatever order all threads move, the runtime is orderly in every state. -/
theorem always_orderly {w₀ : World} {es : List (Event World Action)} (h₀ : Initial w₀)
    (hr : Run (step h) w₀ es w) : Always (Orderly h) w₀ es := by
  have hinv := hr.keeps_always h₀.invariant fun _ _ _ hi hs => step_invariant hi hs
  exact ⟨hinv.1.orderly, fun e he => (hinv.2 e he).orderly⟩

/-- The hooks of `runtime/shutdown.py`, found in another order, and one hook for the start. -/
def someHooks : Hooks where
  on_runtime_start := [⟨"setup", .other 0, none⟩]
  on_runtime_ready := []
  on_runtime_shutdown := shutdownPlugins.reverse
  distinct := by decide

def created : World where
  starting := false
  ready := false
  stopping := false
  stopped := false
  exit_code := 0
  lock := none
  main := .initFilesystem
  monitor := .unborn
  calls := fun _ => .unborn
  callbacks := fun _ => []
  requests := fun _ => .unborn
  log := []
  found := fun _ => []

theorem created_initial : Initial created :=
  ⟨rfl, rfl, rfl, rfl, rfl, rfl, rfl, fun _ => rfl, fun _ => rfl, rfl⟩

/-- Two calls race, the handler that was registered last fails and so does the hook that
stops the services. Request 0 is sent before the shutdown, request 1 after its first hook. -/
def twoCalls : List Action :=
  List.flatten [List.replicate 7 (.run .returns), List.replicate 4 (.monitor .returns),
    [.register .SHUTDOWN_HANDLERS ⟨0, true⟩, .register .SHUTDOWN_HANDLERS ⟨1, true⟩,
      .shutdown 0, .exit 1 7, .request 0 ⟨false, "/"⟩, .answer 0, .answer 0],
    List.replicate 5 (.move 1 .returns), List.replicate 3 (.move 0 .returns),
    [.move 1 .returns, .request 1 ⟨false, "/"⟩, .answer 1, .answer 1],
    List.replicate 8 (.move 1 .raises), List.replicate 3 (.run .returns)]

theorem two_calls_orderly : ∃ es w, Run (step someHooks) created es w ∧
    Always (Orderly someHooks) created es ∧
    story .shutdown w.log =
      [.stopping, .shutdownHook shutdownPlugins[0], .handler ⟨1, true⟩, .handler ⟨0, true⟩,
        .shutdownHook shutdownPlugins[1], .hookFailed, .serverShutdown] := by
  obtain ⟨es, w, hr, hw⟩ := @exists_run_of_replay _ _ (step someHooks) created _
    (fun w => story .shutdown w.log) twoCalls
    [.stopping, .shutdownHook shutdownPlugins[0], .handler ⟨1, true⟩, .handler ⟨0, true⟩,
      .shutdownHook shutdownPlugins[1], .hookFailed, .serverShutdown] rfl
  exact ⟨es, w, hr, always_orderly created_initial hr, hw⟩

/-- **Turning away.** A request that is admitted has begun before the runtime has stopped,
and unless it is internal before the first shutdown hook was called. A request is turned
away only when the runtime has stopped, or when it is stopping and the request is not
internal. -/
theorem always_screened {w₀ : World} {es : List (Event World Action)} (h₀ : Initial w₀)
    (hr : Run (step h) w₀ es w) {q : Request} {begun : List Entry} {admitted : Bool}
    (ha : w.requests i = .answered q begun admitted) :
    (admitted = true →
      .stopped ∉ begun ∧ (q.internal = false → ∀ e ∈ begun, e.role ≠ .shutdown)) ∧
    (admitted = false → .stopped ∈ w.log ∨ .stopping ∈ w.log ∧ q.internal = false) := by
  have hi := hr.keeps h₀.invariant fun _ _ _ hi hs => step_invariant hi hs
  have hfit := hi.requests i
  rw [ha] at hfit
  obtain ⟨hpre, hadmitted, hrefused⟩ := hfit
  refine ⟨fun ht => ⟨(hadmitted ht).1, fun hq e he hrole => ?_⟩, hrefused⟩
  have hnot : .stopping ∉ begun := (hadmitted ht).2.resolve_left (by simp [hq])
  obtain ⟨cut, -, htold⟩ := hi.calls.told
  have hstory : story .shutdown begun <+: .stopping :: (cut ++ [.serverShutdown]) :=
    (hpre.filter _).trans htold
  have hmem : e ∈ story .shutdown begun := mem_story.mpr ⟨he, hrole⟩
  rcases List.prefix_cons_iff.mp hstory with hnil | ⟨l, hl, -⟩
  · rw [hnil] at hmem
    cases hmem
  · exact hnot (mem_story.mp (hl ▸ List.mem_cons_self)).1

/-- Request 0 of that run is admitted, request 1 is not. -/
theorem two_calls_screened : ∃ es w, Run (step someHooks) created es w ∧
    (∃ begun, w.requests 0 = .answered ⟨false, "/"⟩ begun true ∧
      begun = [.starting, .startHook ⟨"setup", .other 0, none⟩, .marker, .ready] ∧
      ∀ e ∈ begun, e.role ≠ .shutdown) ∧
    ∃ begun, w.requests 1 = .answered ⟨false, "/"⟩ begun false ∧
      (.stopped ∈ w.log ∨ .stopping ∈ w.log ∧ Request.internal ⟨false, "/"⟩ = false) := by
  obtain ⟨es, w, hr, hw⟩ := @exists_run_of_replay _ _ (step someHooks) created _
    (fun w => (w.requests 0, w.requests 1)) twoCalls
    (.answered ⟨false, "/"⟩
        [.starting, .startHook ⟨"setup", .other 0, none⟩, .marker, .ready] true,
      .answered ⟨false, "/"⟩
        [.starting, .startHook ⟨"setup", .other 0, none⟩, .marker, .ready, .stopping,
          .shutdownHook shutdownPlugins[0]] false) rfl
  obtain ⟨h₀, h₁⟩ := Prod.mk.inj hw
  exact ⟨es, w, hr,
    ⟨_, h₀, rfl, ((always_screened created_initial hr h₀).1 rfl).2 (by decide)⟩,
    ⟨_, h₁, (always_screened created_initial hr h₁).2 rfl⟩⟩

end LocalStack.Runtime.Lifecycle
