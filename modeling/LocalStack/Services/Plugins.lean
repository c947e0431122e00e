import LocalStack.Lib.OrderedDict
import LocalStack.Lib.Runs

/-! The service lifecycle of `services/plugins.py`: `Service`,
`ServiceContainer` and the `ServiceManager` that drives them. What a service's
own start, stop and health check functions do is not known, so every operation
carries the outcomes of the calls it may make. -/

namespace LocalStack.Services.Plugins
open LocalStack.OrderedDict

variable {ε : Type*}

inductive ServiceState
  | unknown
  | available
  | disabled
  | starting
  | running
  | stopping
  | stopped
  | error
  deriving DecidableEq, Repr

/-- How a call into the service ends. -/
inductive Outcome (ε : Type*)
  | returns
  | raises (e : ε)
  deriving DecidableEq, Repr

/-- `start=_default`, `start=None` or a function. -/
inductive StartFunction
  | default
  | missing
  | function
  deriving DecidableEq, Repr

structure Service where
  plugin_name : String
  start_function : StartFunction
  check_function : Bool
  stop_function : Bool
  /-- the value of `is_api_enabled(plugin_name)` -/
  enabled : Bool
  deriving DecidableEq, Repr

namespace Service

/-- The lifecycle hooks are called through `call_safe`, which swallows what they
raise, so they do not show here. -/
def start (s : Service) (o : Outcome ε) : Outcome ε :=
  match s.start_function with
  | .missing | .default => .returns
  | .function => o

def stop (s : Service) (o : Outcome ε) : Outcome ε :=
  if s.stop_function then o else .returns

def check (s : Service) (o : Outcome ε) : Outcome ε :=
  if s.check_function then o else .returns

def is_enabled (s : Service) : Bool := s.enabled

end Service

/-- A start or stop of the service made by its container. -/
inductive Call
  | started
  | startRaised
  | stop
  deriving DecidableEq, Repr

/-- `calls` is a history of the starts and stops, most recent first; nothing
reads it. -/
structure ServiceContainer (ε : Type*) where
  service : Service
  state : ServiceState
  errors : List ε
  calls : List Call
  deriving DecidableEq, Repr

namespace ServiceContainer

def new (service : Service) (state : ServiceState) : ServiceContainer ε :=
  ⟨service, state, [], []⟩

def check (c : ServiceContainer ε) (o : Outcome ε) : Bool × ServiceContainer ε :=
  match c.service.check o with
  | .returns => (true, { c with state := .running })
  | .raises e => (false, { c with state := .error, errors := c.errors ++ [e] })

def start (c : ServiceContainer ε) (o oCheck : Outcome ε) : Bool × ServiceContainer ε :=
  let c := { c with state := .starting }
  match c.service.start o with
  | .raises e =>
    (false, { c with state := .error, errors := c.errors ++ [e], calls := .startRaised :: c.calls })
  | .returns => check { c with calls := .started :: c.calls } oCheck

def stop (c : ServiceContainer ε) (o : Outcome ε) : ServiceContainer ε :=
  let c := { c with state := .stopping, calls := .stop :: c.calls }
  match c.service.stop o with
  | .returns => { c with state := .stopped }
  | .raises e => { c with state := .error, errors := c.errors ++ [e] }

end ServiceContainer

/-- What `ServiceManager.require` raises. `indexError` is `errors[-1]` of an
empty list. -/
inductive RequireError (ε : Type*)
  | noSuchService
  | timeoutStarting
  | timeoutStopping
  | serviceDisabled
  | captured (e : ε)
  | indexError
  | notReady (state : ServiceState)
  deriving DecidableEq, Repr

abbrev ServiceManager (ε : Type*) := Dict String (ServiceContainer ε)

namespace ServiceManager

def get_service_container (m : ServiceManager ε) (name : String) : Option (ServiceContainer ε) :=
  m.get name

def get_state (m : ServiceManager ε) (name : String) : Option ServiceState :=
  (m.get_service_container name).map (·.state)

def list_available (m : ServiceManager ε) : List String := m.keys

def add_service (m : ServiceManager ε) (service : Service) : ServiceManager ε :=
  m.set service.plugin_name
    (.new service (if service.is_enabled then .available else .disabled))

/-- `errors[-1]`. -/
def lastError (c : ServiceContainer ε) : RequireError ε :=
  match c.errors.getLast? with
  | some e => .captured e
  | none => .indexError

/-- `check`: only a container in state RUNNING or ERROR is looked at. -/
def check (m : ServiceManager ε) (name : String) (o : Outcome ε) : Bool × ServiceManager ε :=
  match m.get_service_container name with
  | none => (false, m)
  | some c =>
    if c.state = .running ∨ c.state = .error then
      ((c.check o).1, m.set name (c.check o).2)
    else (false, m)

/-- `any(self.check(name) for name in names)` stops at the first success. -/
def checkAny (m : ServiceManager ε) (o : String → Outcome ε) :
    List String → Bool × ServiceManager ε
  | [] => (false, m)
  | name :: names =>
    match m.check name (o name) with
    | (true, m') => (true, m')
    | (false, m') => checkAny m' o names

def check_all (m : ServiceManager ε) (o : String → Outcome ε) : Bool × ServiceManager ε :=
  m.checkAny o m.list_available

/-- `require` while no other thread runs: a container found STARTING or STOPPING
stays so until the polling times out. -/
def require (m : ServiceManager ε) (name : String) (o oCheck : Outcome ε) :
    Except (RequireError ε) Service × ServiceManager ε :=
  match m.get_service_container name with
  | none => (.error .noSuchService, m)
  | some c =>
    match c.state with
    | .starting => (.error .timeoutStarting, m)
    | .stopping => (.error .timeoutStopping, m)
    | .disabled => (.error .serviceDisabled, m)
    | .running => (.ok c.service, m)
    | .error => (.error (lastError c), m)
    | .available | .stopped =>
      match c.start o oCheck with
      | (true, c') => (.ok c'.service, m.set name c')
      | (false, c') => (.error (lastError c'), m.set name c')
    | .unknown => (.error (.notReady .unknown), m)

end ServiceManager

end LocalStack.Services.Plugins
