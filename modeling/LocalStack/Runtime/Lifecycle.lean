import Mathlib.Data.List.Infix
import Mathlib.Data.List.Sort
import Mathlib.Logic.Function.Basic

/-! `LocalstackRuntime` of `runtime/runtime.py` with its hooks, the shutdown handlers of
`runtime/shutdown.py` and the gateway handler that turns requests away, under any number
of calls of `shutdown` and `exit`. Every access to an event or to the lifecycle lock and
every call of a hook is one step. A hook that calls the runtime makes a call like any
other; that it waits for it is not modelled, which only allows more interleavings. -/

namespace LocalStack.Runtime.Lifecycle

/-! ## Hooks -/

/-- The two `ShutdownHandlers`. -/
inductive Registry
  | SHUTDOWN_HANDLERS
  | ON_AFTER_SERVICE_SHUTDOWN_HANDLERS
deriving DecidableEq

/-- The function of a hook; the first three are those of `runtime/shutdown.py`. -/
inductive Fn
  | run_shutdown_handlers
  | shutdown_services
  | run_on_after_service_shutdown_handlers
  | other (id : Nat)
deriving DecidableEq

/-- The handlers that the function runs. -/
def Fn.registry : Fn → Option Registry
  | .run_shutdown_handlers => some .SHUTDOWN_HANDLERS
  | .run_on_after_service_shutdown_handlers => some .ON_AFTER_SERVICE_SHUTDOWN_HANDLERS
  | _ => none

structure FunctionPlugin where
  name : String
  fn : Fn
  hook_priority : Option Int
deriving DecidableEq

/-- `getattr(_fn_plugin.fn, "hook_priority", 0)`. -/
def FunctionPlugin.priority (p : FunctionPlugin) : Int := p.hook_priority.getD 0

def SERVICE_SHUTDOWN_PRIORITY : Int := -10

/-- The shutdown hooks of `runtime/shutdown.py`. -/
def shutdownPlugins : List FunctionPlugin :=
  [⟨"run_shutdown_handlers", .run_shutdown_handlers, some 0⟩,
   ⟨"shutdown_services", .shutdown_services, some SERVICE_SHUTDOWN_PRIORITY⟩,
   ⟨"run_on_after_service_shutdown_handlers", .run_on_after_service_shutdown_handlers,
    some (SERVICE_SHUTDOWN_PRIORITY - 10)⟩]

/-- Hooks with a higher priority are called earlier. -/
def FunctionPlugin.Before (p q : FunctionPlugin) : Prop := q.priority ≤ p.priority

instance : DecidableRel FunctionPlugin.Before := fun p q =>
  inferInstanceAs (Decidable (q.priority ≤ p.priority))

instance : Std.Total FunctionPlugin.Before := ⟨fun p q => le_total q.priority p.priority⟩

instance : IsTrans FunctionPlugin FunctionPlugin.Before :=
  ⟨fun _ _ _ hpq hqr => le_trans hqr hpq⟩

/-- `HookManager.load_all_sorted`; the sort is stable. -/
def load_all_sorted (plugins : List FunctionPlugin) : List FunctionPlugin :=
  plugins.insertionSort FunctionPlugin.Before

theorem load_all_sorted_pairwise (plugins : List FunctionPlugin) :
    (load_all_sorted plugins).Pairwise FunctionPlugin.Before :=
  List.pairwise_insertionSort _ plugins

example : load_all_sorted shutdownPlugins.reverse = shutdownPlugins := by decide

theorem load_all_sorted_nodup {plugins : List FunctionPlugin} (hd : plugins.Nodup) :
    (load_all_sorted plugins).Nodup :=
  (List.perm_insertionSort _ plugins).nodup_iff.mpr hd

/-- The hooks of the three namespaces, as the plugin manager loads them. It keeps plugins
by their names. -/
structure Hooks where
  on_runtime_start : List FunctionPlugin
  on_runtime_ready : List FunctionPlugin
  on_runtime_shutdown : List FunctionPlugin
  distinct : on_runtime_shutdown.Nodup

/-- A shutdown handler; some callables have no `__name__`. -/
structure Callback where
  id : Nat
  named : Bool
deriving DecidableEq

/-! ## The runtime -/

/-- What was done, in the order of time. -/
inductive Entry
  | starting
  | startHook (p : FunctionPlugin)
  | returned
  | cleanedUp
  | stopped
  | readyHook (p : FunctionPlugin)
  | marker
  | ready
  | stopping
  | shutdownHook (p : FunctionPlugin)
  | handler (f : Callback)
  | hookFailed
  | serverShutdown
deriving DecidableEq

inductive Role
  | run
  | monitor
  | shutdown
deriving DecidableEq

/-- The code that does it. -/
def Entry.role : Entry → Role
  | .starting | .startHook _ | .returned | .cleanedUp | .stopped => .run
  | .readyHook _ | .marker | .ready => .monitor
  | .stopping | .shutdownHook _ | .handler _ | .hookFailed | .serverShutdown => .shutdown

/-- Where `run()` stands; `rest` are the hooks that are still to be called. -/
inductive MainPoint
  | initFilesystem
  | setStarting
  | startHooks (rest : List FunctionPlugin)
  | inStartHook (rest : List FunctionPlugin)
  | initGatewayServer
  | startMonitor
  | serve
  | cleanupResources
  | setStopped
  | ended

/-- Where the thread of `_run_ready_monitor` stands. -/
inductive MonitorPoint
  | unborn
  | waitForGateway
  | readyHooks (rest : List FunctionPlugin)
  | inReadyHook (rest : List FunctionPlugin)
  | printMarker
  | setReady
  | ended

/-- Where a call of `shutdown()` or `exit()` stands. `leave` releases the lock; `first` is
the call that goes on. Of the hook `p` the handlers `fs` are still to be called. -/
inductive CallPoint
  | unborn
  | setExitCode (code : Int)
  | acquire
  | testStopping
  | setStopping
  | leave (first : Bool)
  | hooks (rest : List FunctionPlugin)
  | inHook (rest : List FunctionPlugin)
  | handlers (p : FunctionPlugin) (fs : List Callback) (rest : List FunctionPlugin)
  | inHandler (p : FunctionPlugin) (fs : List Callback) (rest : List FunctionPlugin)
  | serverShutdown
  | ended

/-- What `RuntimeShutdownHandler` reads of a request. -/
structure Request where
  is_internal_call : Bool
  path : String
deriving DecidableEq

/-- Calls that are served while the runtime stops. -/
def Request.internal (q : Request) : Bool :=
  q.is_internal_call || "/_localstack".toList.isPrefixOf q.path.toList

/-- Where `RuntimeShutdownHandler` stands; `begun` is what was done when it was called. -/
inductive RequestPoint
  | unborn
  | testStopped (q : Request) (begun : List Entry)
  | testStopping (q : Request) (begun : List Entry)
  | answered (q : Request) (begun : List Entry) (admitted : Bool)

/-- `found` has the handlers that were registered when a hook was called, the first one
first. -/
structure World where
  starting : Bool
  ready : Bool
  stopping : Bool
  stopped : Bool
  exit_code : Int
  lock : Option Nat
  main : MainPoint
  monitor : MonitorPoint
  calls : Nat → CallPoint
  callbacks : Registry → List Callback
  requests : Nat → RequestPoint
  log : List Entry
  found : FunctionPlugin → List Callback

/-- How code outside of the runtime ends. -/
inductive Outcome
  | returns
  | raises

def Outcome.choose {α : Type} (returned raised : α) : Outcome → α
  | .returns => returned
  | .raises => raised

inductive Action
  | run (o : Outcome)
  | monitor (o : Outcome)
  | shutdown (c : Nat)
  | exit (c : Nat) (code : Int)
  | move (c : Nat) (o : Outcome)
  | register (r : Registry) (f : Callback)
  | unregister (r : Registry) (f : Callback)
  | request (i : Nat) (q : Request)
  | answer (i : Nat)

namespace World

def tell (w : World) (e : Entry) : World := { w with log := w.log ++ [e] }

def setCall (w : World) (c : Nat) (p : CallPoint) : World :=
  { w with calls := Function.update w.calls c p }

def setRequest (w : World) (i : Nat) (p : RequestPoint) : World :=
  { w with requests := Function.update w.requests i p }

end World

variable (h : Hooks)

/-- One step of `run()`. `_on_return` follows however the server ends. -/
def run (w : World) (o : Outcome) : MainPoint → Option World
  | .initFilesystem => some { w with main := o.choose .setStarting .ended }
  | .setStarting =>
    some { w with
      starting := true
      main := .startHooks (load_all_sorted h.on_runtime_start)
      log := w.log ++ [.starting] }
  | .startHooks [] => some { w with main := .initGatewayServer }
  | .startHooks (p :: rest) =>
    some { w with main := .inStartHook rest, log := w.log ++ [.startHook p] }
  | .inStartHook rest => some { w with main := o.choose (.startHooks rest) .ended }
  | .initGatewayServer => some { w with main := o.choose .startMonitor .ended }
  | .startMonitor => some { w with main := .serve, monitor := .waitForGateway }
  | .serve => some { w with main := .cleanupResources, log := w.log ++ [.returned] }
  | .cleanupResources =>
    match o with
    | .returns => some { w with main := .setStopped, log := w.log ++ [.cleanedUp] }
    | .raises => some { w with main := .ended }
  | .setStopped => some { w with stopped := true, main := .ended, log := w.log ++ [.stopped] }
  | .ended => none

/-- One step of `_run_ready_monitor`. -/
def run_ready_monitor (w : World) (o : Outcome) : MonitorPoint → Option World
  | .unborn => none
  | .waitForGateway =>
    some { w with
      monitor := o.choose (.readyHooks (load_all_sorted h.on_runtime_ready)) .ended }
  | .readyHooks [] => some { w with monitor := .printMarker }
  | .readyHooks (p :: rest) =>
    some { w with monitor := .inReadyHook rest, log := w.log ++ [.readyHook p] }
  | .inReadyHook rest => some { w with monitor := o.choose (.readyHooks rest) .ended }
  | .printMarker => some { w with monitor := .setReady, log := w.log ++ [.marker] }
  | .setReady => some { w with ready := true, monitor := .ended, log := w.log ++ [.ready] }
  | .ended => none

/-- The handlers that are registered for the hook. -/
def World.registered (w : World) (p : FunctionPlugin) : List Callback :=
  match p.fn.registry with
  | some r => w.callbacks r
  | none => []

/-- `reversed(list(self._callbacks))`. -/
def handlersOf (w : World) (p : FunctionPlugin) : List Callback := (w.registered p).reverse

/-- One step of the call `c`. The message of `call_safe` reads the name of a handler before
it is tried, so a handler without one ends the hooks as a hook that raises does. -/
def shutdown (w : World) (c : Nat) (o : Outcome) : CallPoint → Option World
  | .unborn | .ended => none
  | .setExitCode code => some ({ w with exit_code := code }.setCall c .acquire)
  | .acquire =>
    match w.lock with
    | none => some ({ w with lock := some c }.setCall c .testStopping)
    | some _ => none
  | .testStopping => some (w.setCall c (if w.stopping then .leave false else .setStopping))
  | .setStopping => some (({ w with stopping := true }.tell .stopping).setCall c (.leave true))
  | .leave first =>
    some ({ w with lock := none }.setCall c
      (if first then .hooks (load_all_sorted h.on_runtime_shutdown) else .ended))
  | .hooks [] => some (w.setCall c .serverShutdown)
  | .hooks (p :: rest) =>
    some (({ w with found := Function.update w.found p (w.registered p) }.tell
      (.shutdownHook p)).setCall c
        (if p.fn.registry.isSome then .handlers p (handlersOf w p) rest else .inHook rest))
  | .inHook rest =>
    match o with
    | .returns => some (w.setCall c (.hooks rest))
    | .raises => some ((w.tell .hookFailed).setCall c .serverShutdown)
  | .handlers _ [] rest => some (w.setCall c (.hooks rest))
  | .handlers p (f :: fs) rest =>
    some (if f.named then (w.tell (.handler f)).setCall c (.inHandler p fs rest)
      else (w.tell .hookFailed).setCall c .serverShutdown)
  | .inHandler p fs rest => some (w.setCall c (.handlers p fs rest))
  | .serverShutdown => some ((w.tell .serverShutdown).setCall c .ended)

/-- `RuntimeShutdownHandler.__call__`: a request that is turned away is answered with 503. -/
def answer (w : World) (i : Nat) : RequestPoint → Option World
  | .testStopped q begun =>
    some (w.setRequest i
      (if w.stopped then .answered q begun false else .testStopping q begun))
  | .testStopping q begun =>
    some (w.setRequest i (.answered q begun (!w.stopping || q.internal)))
  | _ => none

def step (w : World) : Action → Option World
  | .run o => run h w o w.main
  | .monitor o => run_ready_monitor h w o w.monitor
  | .shutdown c =>
    match w.calls c with
    | .unborn => some (w.setCall c .acquire)
    | _ => none
  | .exit c code =>
    match w.calls c with
    | .unborn => some (w.setCall c (.setExitCode code))
    | _ => none
  | .move c o => shutdown h w c o (w.calls c)
  | .register r f =>
    some { w with callbacks := Function.update w.callbacks r (w.callbacks r ++ [f]) }
  | .unregister r f =>
    some { w with callbacks := Function.update w.callbacks r ((w.callbacks r).erase f) }
  | .request i q =>
    match w.requests i with
    | .unborn => some (w.setRequest i (.testStopped q w.log))
    | _ => none
  | .answer i => answer w i (w.requests i)

/-! ## The order of what is done -/

def story (r : Role) (log : List Entry) : List Entry := log.filter (·.role = r)

theorem story_append {r : Role} {l : List Entry} (log : List Entry) (hl : ∀ e ∈ l, e.role = r) :
    story r (log ++ l) = story r log ++ l := by
  have hown : l.filter (·.role = r) = l :=
    List.filter_eq_self.mpr fun e he => by simpa using hl e he
  rw [story, List.filter_append, hown]
  rfl

theorem story_append_other {r r' : Role} {l : List Entry} (log : List Entry)
    (hl : ∀ e ∈ l, e.role = r) (hne : r ≠ r') : story r' (log ++ l) = story r' log := by
  have hnone : l.filter (·.role = r') = [] :=
    List.filter_eq_nil_iff.mpr fun e he => by simpa [hl e he] using hne
  rw [story, List.filter_append, hnone, List.append_nil]
  rfl

@[simp] theorem mem_story {r : Role} {log : List Entry} {e : Entry} :
    e ∈ story r log ↔ e ∈ log ∧ e.role = r := by
  simp [story]

namespace Hooks

/-- The start of a runtime. -/
def startStory : List Entry :=
  .starting :: (load_all_sorted h.on_runtime_start).map .startHook

/-- A `run()` that is never left by an exception. -/
def runStory : List Entry := h.startStory ++ [.returned, .cleanedUp, .stopped]

def readyStory : List Entry :=
  (load_all_sorted h.on_runtime_ready).map .readyHook ++ [.marker, .ready]

/-- A hook with the handlers that it has found, the last one that was registered first. -/
def hookStory (found : FunctionPlugin → List Callback) (p : FunctionPlugin) : List Entry :=
  .shutdownHook p :: (found p).reverse.map .handler

/-- A hook that fails: it runs no handlers, or one of them has no name. -/
def failedStory (found : FunctionPlugin → List Callback) (p : FunctionPlugin) : List Entry :=
  .shutdownHook p :: ((found p).reverse.takeWhile Callback.named).map .handler ++ [.hookFailed]

/-- What a shutdown does with its hooks: all are called, or those up to one that fails. -/
inductive Course (found : FunctionPlugin → List Callback) : List Entry → Prop
  | completed : Course found ((load_all_sorted h.on_runtime_shutdown).flatMap (hookStory found))
  | failed {called rest : List FunctionPlugin} {p : FunctionPlugin}
      (hcalled : called ++ p :: rest = load_all_sorted h.on_runtime_shutdown)
      (hfail : p.fn.registry = none ∨ ∃ f ∈ found p, f.named = false) :
      Course found (called.flatMap (hookStory found) ++ failedStory found p)

end Hooks

/-- The shutdown hook that is called. -/
def Entry.hook : Entry → Option FunctionPlugin
  | .shutdownHook p => some p
  | _ => none

/-- What is done is done in the order of the code and once, whoever calls the runtime:
the start, then the ready marker after all hooks of the start, and one shutdown that goes
through the hooks by their priority until one of them fails and then stops the server. The
events tell it. -/
structure Orderly (w : World) : Prop where
  run : story .run w.log <+: h.runStory
  monitor : story .monitor w.log <+: h.readyStory
  started : story .monitor w.log ≠ [] → h.startStory <+: story .run w.log
  shutdown : ∃ cut, h.Course w.found cut ∧
    story .shutdown w.log <+: .stopping :: (cut ++ [.serverShutdown])
  by_priority : ((story .shutdown w.log).filterMap Entry.hook).Pairwise FunctionPlugin.Before
  starting_set : w.starting = true ↔ .starting ∈ w.log
  ready_set : w.ready = true ↔ .ready ∈ w.log
  stopping_set : w.stopping = true ↔ .stopping ∈ w.log
  stopped_set : w.stopped = true ↔ .stopped ∈ w.log

structure Initial (w : World) : Prop where
  starting : w.starting = false
  ready : w.ready = false
  stopping : w.stopping = false
  stopped : w.stopped = false
  lock : w.lock = none
  main : w.main = .initFilesystem
  monitor : w.monitor = .unborn
  calls : ∀ c, w.calls c = .unborn
  requests : ∀ i, w.requests i = .unborn
  log : w.log = []

/-! ## The main thread and the monitor -/

/-- What `run()` has done at a point. -/
def MainPoint.Tells (l : List Entry) : MainPoint → Prop
  | .initFilesystem | .setStarting => l = []
  | .startHooks rest | .inStartHook rest =>
    ∃ called, called ++ rest = load_all_sorted h.on_runtime_start ∧
      l = .starting :: called.map .startHook
  | .initGatewayServer | .startMonitor | .serve => l = h.startStory
  | .cleanupResources => l = h.startStory ++ [.returned]
  | .setStopped => l = h.startStory ++ [.returned, .cleanedUp]
  | .ended => l <+: h.runStory

/-- Before the monitor is started. -/
def MainPoint.early : MainPoint → Bool
  | .initFilesystem | .setStarting | .startHooks _ | .inStartHook _ => true
  | .initGatewayServer | .startMonitor => true
  | _ => false

def MonitorPoint.Tells (l : List Entry) : MonitorPoint → Prop
  | .unborn | .waitForGateway => l = []
  | .readyHooks rest | .inReadyHook rest =>
    ∃ called, called ++ rest = load_all_sorted h.on_runtime_ready ∧ l = called.map .readyHook
  | .printMarker => l = (load_all_sorted h.on_runtime_ready).map .readyHook
  | .setReady => l = (load_all_sorted h.on_runtime_ready).map .readyHook ++ [.marker]
  | .ended => l <+: h.readyStory

structure MainInvariant (w : World) : Prop where
  main : w.main.Tells h (story .run w.log)
  monitor : w.monitor.Tells h (story .monitor w.log)
  unborn : w.main.early = true → w.monitor = .unborn
  started : w.monitor ≠ .unborn → h.startStory <+: story .run w.log

variable {h} {w w' : World} {l : List Entry} {o : Outcome}

/-- At every point `run()` has done a part of what it does. -/
theorem MainPoint.Tells.begins {p : MainPoint} (ht : p.Tells h l) : l <+: h.runStory := by
  cases p with
  | startHooks rest | inStartHook rest =>
    obtain ⟨called, hcalled, rfl⟩ := ht
    refine ((List.prefix_cons_inj _).mpr ?_).trans (List.prefix_append _ _)
    rw [← hcalled, List.map_append]
    exact List.prefix_append _ _
  | initGatewayServer | startMonitor | serve =>
    rw [show l = h.startStory from ht]
    exact List.prefix_append _ _
  | cleanupResources =>
    rw [show l = h.startStory ++ [.returned] from ht, Hooks.runStory]
    exact (List.prefix_append_right_inj _).mpr ⟨_, rfl⟩
  | setStopped =>
    rw [show l = h.startStory ++ [.returned, .cleanedUp] from ht, Hooks.runStory]
    exact (List.prefix_append_right_inj _).mpr ⟨_, rfl⟩
  | ended => exact ht
  | _ =>
    rw [show l = [] from ht]
    exact List.nil_prefix

theorem MonitorPoint.Tells.begins {p : MonitorPoint} (ht : p.Tells h l) :
    l <+: h.readyStory := by
  cases p with
  | readyHooks rest | inReadyHook rest =>
    obtain ⟨called, hcalled, rfl⟩ := ht
    rw [Hooks.readyStory, ← hcalled, List.map_append, List.append_assoc]
    exact List.prefix_append _ _
  | printMarker =>
    rw [show l = _ from ht]
    exact List.prefix_append _ _
  | setReady =>
    rw [show l = _ from ht, Hooks.readyStory]
    exact (List.prefix_append_right_inj _).mpr ⟨_, rfl⟩
  | ended => exact ht
  | _ =>
    rw [show l = [] from ht]
    exact List.nil_prefix

theorem MainPoint.tells_startHooks {rest : List FunctionPlugin} {p : FunctionPlugin}
    (ht : (MainPoint.startHooks (p :: rest)).Tells h l) :
    (MainPoint.inStartHook rest).Tells h (l ++ [.startHook p]) := by
  obtain ⟨called, hcalled, rfl⟩ := ht
  exact ⟨called ++ [p], by simpa using hcalled, by simp⟩

theorem MonitorPoint.tells_readyHooks {rest : List FunctionPlugin} {p : FunctionPlugin}
    (ht : (MonitorPoint.readyHooks (p :: rest)).Tells h l) :
    (MonitorPoint.inReadyHook rest).Tells h (l ++ [.readyHook p]) := by
  obtain ⟨called, hcalled, rfl⟩ := ht
  exact ⟨called ++ [p], by simpa using hcalled, by simp⟩

theorem Initial.mainInvariant (hi : Initial w) : MainInvariant h w := by
  constructor
  · simp [hi.main, hi.log, MainPoint.Tells, story]
  · simp [hi.monitor, hi.log, MonitorPoint.Tells, story]
  · exact fun _ => hi.monitor
  · exact fun hm => absurd hi.monitor hm

/-- A step of `run()` that does `l`. -/
theorem MainInvariant.advance (hi : MainInvariant h w) (hmonitor : w'.monitor = w.monitor)
    (hlog : w'.log = w.log ++ l) (hl : ∀ e ∈ l, e.role = .run)
    (hmain : w'.main.Tells h (story .run w.log ++ l))
    (hearly : w'.main.early = true → w.main.early = true) : MainInvariant h w' := by
  have hrun : story .run w'.log = story .run w.log ++ l := by rw [hlog, story_append _ hl]
  have hother : story .monitor w'.log = story .monitor w.log := by
    rw [hlog, story_append_other _ hl (by decide)]
  constructor
  · rw [hrun]
    exact hmain
  · rw [hmonitor, hother]
    exact hi.monitor
  · rw [hmonitor]
    exact fun he => hi.unborn (hearly he)
  · rw [hmonitor, hrun]
    exact fun hm => (hi.started hm).trans (List.prefix_append _ _)

theorem MainInvariant.goto (hi : MainInvariant h w) {p : MainPoint}
    (hp : p.Tells h (story .run w.log)) (hearly : p.early = true → w.main.early = true) :
    MainInvariant h { w with main := p } := by
  refine hi.advance (l := []) rfl (List.append_nil _).symm (by simp) ?_ hearly
  rw [List.append_nil]
  exact hp

/-- A step of the monitor that does `l`. -/
theorem MainInvariant.advance_monitor (hi : MainInvariant h w) (hmain : w'.main = w.main)
    (hlog : w'.log = w.log ++ l) (hl : ∀ e ∈ l, e.role = .monitor)
    (hborn : w.monitor ≠ .unborn)
    (hmonitor : w'.monitor.Tells h (story .monitor w.log ++ l)) : MainInvariant h w' := by
  have hrun : story .run w'.log = story .run w.log := by
    rw [hlog, story_append_other _ hl (by decide)]
  have hother : story .monitor w'.log = story .monitor w.log ++ l := by
    rw [hlog, story_append _ hl]
  constructor
  · rw [hmain, hrun]
    exact hi.main
  · rw [hother]
    exact hmonitor
  · rw [hmain]
    exact fun he => absurd (hi.unborn he) hborn
  · rw [hrun]
    exact fun _ => hi.started hborn

theorem MainInvariant.goto_monitor (hi : MainInvariant h w) {p : MonitorPoint}
    (hborn : w.monitor ≠ .unborn) (hp : p.Tells h (story .monitor w.log)) :
    MainInvariant h { w with monitor := p } := by
  refine hi.advance_monitor (l := []) rfl (List.append_nil _).symm (by simp) hborn ?_
  rw [List.append_nil]
  exact hp

theorem run_mainInvariant (hi : MainInvariant h w) (hs : run h w o w.main = some w') :
    MainInvariant h w' := by
  have hmain := hi.main
  have hearly := hi.unborn
  generalize hp : w.main = p at hs hmain hearly
  cases p with
  | initFilesystem =>
    cases hs
    cases o with
    | returns => exact hi.goto hmain (by simp [hp, MainPoint.early])
    | raises => exact hi.goto hmain.begins (by simp [Outcome.choose, MainPoint.early])
  | setStarting =>
    cases hs
    refine hi.advance (l := [.starting]) rfl rfl (by simp [Entry.role]) ?_
      (by simp [hp, MainPoint.early])
    exact ⟨[], by simp, by simp [show story .run w.log = [] from hmain]⟩
  | startHooks rest =>
    cases rest with
    | nil =>
      cases hs
      refine hi.goto ?_ (by simp [hp, MainPoint.early])
      obtain ⟨called, hcalled, hl⟩ := hmain
      simp [MainPoint.Tells, Hooks.startStory, hl, ← hcalled]
    | cons p rest =>
      cases hs
      exact hi.advance (l := [.startHook p]) rfl rfl (by simp [Entry.role])
        (MainPoint.tells_startHooks hmain) (by simp [hp, MainPoint.early])
  | inStartHook rest =>
    cases hs
    cases o with
    | returns => exact hi.goto hmain (by simp [hp, MainPoint.early])
    | raises => exact hi.goto hmain.begins (by simp [Outcome.choose, MainPoint.early])
  | initGatewayServer =>
    cases hs
    cases o with
    | returns => exact hi.goto hmain (by simp [hp, MainPoint.early])
    | raises => exact hi.goto hmain.begins (by simp [Outcome.choose, MainPoint.early])
  | startMonitor =>
    cases hs
    have hmonitor := hi.monitor
    rw [hearly rfl] at hmonitor
    exact ⟨hmain, hmonitor, by simp [MainPoint.early], fun _ => by
      rw [show story .run w.log = h.startStory from hmain]⟩
  | serve =>
    cases hs
    refine hi.advance (l := [.returned]) rfl rfl (by simp [Entry.role]) ?_
      (by simp [MainPoint.early])
    rw [show story .run w.log = h.startStory from hmain]
    rfl
  | cleanupResources =>
    cases o with
    | returns =>
      cases hs
      refine hi.advance (l := [.cleanedUp]) rfl rfl (by simp [Entry.role]) ?_
        (by simp [MainPoint.early])
      rw [show story .run w.log = _ from hmain]
      simp [MainPoint.Tells]
    | raises =>
      cases hs
      exact hi.goto hmain.begins (by simp [MainPoint.early])
  | setStopped =>
    cases hs
    refine hi.advance (l := [.stopped]) rfl rfl (by simp [Entry.role]) ?_
      (by simp [MainPoint.early])
    rw [show story .run w.log = _ from hmain]
    simp [MainPoint.Tells, Hooks.runStory]
  | ended => cases hs

theorem run_ready_monitor_mainInvariant (hi : MainInvariant h w)
    (hs : run_ready_monitor h w o w.monitor = some w') : MainInvariant h w' := by
  have hmonitor := hi.monitor
  generalize hp : w.monitor = p at hs hmonitor
  cases p with
  | unborn => cases hs
  | waitForGateway =>
    cases hs
    cases o with
    | returns => exact hi.goto_monitor (by simp [hp]) ⟨[], rfl, hmonitor⟩
    | raises => exact hi.goto_monitor (by simp [hp]) hmonitor.begins
  | readyHooks rest =>
    cases rest with
    | nil =>
      cases hs
      refine hi.goto_monitor (by simp [hp]) ?_
      obtain ⟨called, hcalled, hl⟩ := hmonitor
      simp [MonitorPoint.Tells, hl, ← hcalled]
    | cons p rest =>
      cases hs
      exact hi.advance_monitor (l := [.readyHook p]) rfl rfl (by simp [Entry.role]) (by simp [hp])
        (MonitorPoint.tells_readyHooks hmonitor)
  | inReadyHook rest =>
    cases hs
    cases o with
    | returns => exact hi.goto_monitor (by simp [hp]) hmonitor
    | raises => exact hi.goto_monitor (by simp [hp]) hmonitor.begins
  | printMarker =>
    cases hs
    refine hi.advance_monitor (l := [.marker]) rfl rfl (by simp [Entry.role]) (by simp [hp]) ?_
    rw [show story .monitor w.log = _ from hmonitor]
    rfl
  | setReady =>
    cases hs
    refine hi.advance_monitor (l := [.ready]) rfl rfl (by simp [Entry.role]) (by simp [hp]) ?_
    rw [show story .monitor w.log = _ from hmonitor]
    simp [MonitorPoint.Tells, Hooks.readyStory]
  | ended => cases hs

end LocalStack.Runtime.Lifecycle
