import LocalStack.Lib.OrderedDict
import LocalStack.Lib.Stateful
import LocalStack.Lib.Text

/-! The tracing handler chain: `http/trace.py`. The control flow that it inherits is
rolo's; what rolo's loops do between two handlers is a parameter. Durations and the
text of the report are left out. -/

namespace LocalStack.Http.Trace
open LocalStack.OrderedDict LocalStack.Stateful LocalStack.Text

/-! ## Exchanges -/

abbrev Headers := List (Str × Str)

/-- `ν` are the Python values that tracing does not look into. -/
structure Request (ν : Type) where
  identity : Nat
  headers : Headers
  content : ν

structure Response (ν : Type) where
  status_code : Nat
  headers : Headers
  content : ν
  deriving DecidableEq

/-- Everything that handlers share: the flags and the other attributes of the chain, the
context and the response. -/
structure Exchange (ν : Type) where
  stopped : Bool
  terminated : Bool
  chain : ν
  request : Request ν
  /-- The rest of `context.__dict__`. -/
  attributes : Dict Str ν
  response : Response ν

/-- What Python values are compared and tested with. -/
structure Values (ν : Type) where
  truthy : ν → Bool
  sameHeaders : Headers → Headers → Bool

/-- What one call of a handler does. `calls` names the methods of request and response
that are patched while it is traced. -/
structure Effect (ν ε : Type) where
  exchange : Exchange ν
  raised : Option ε
  calls : List Str

variable {ν ε ι : Type}

/-! ## Traces -/

inductive Action (ν : Type)
  | action (name : Str)
  | setAttribute (key : Str) (value : ν)
  | setStatus (key : Str) (value : Nat)
  | modifyHeaders (name : Str) (before after : Headers)

/-- A handler, or a `TracingHandler` or a `TracingExceptionHandler`, which is an object
with a trace of its own. -/
inductive Callable (ι : Type)
  | handler (h : ι)
  | traced (trace : Nat) (delegate : Callable ι)

/-- The handler that is called in the end. -/
def Callable.name : Callable ι → ι
  | .handler h => h
  | .traced _ delegate => delegate.name

structure HandlerTrace (ν ι : Type) where
  handler : Callable ι
  actions : List (Action ν)

/-! ## Chains -/

structure HandlerChain (ν ι : Type) where
  request_handlers : List (Callable ι)
  response_handlers : List (Callable ι)
  finalizers : List (Callable ι)
  exception_handlers : List (Callable ι)
  request_handler_traces : List (Option (HandlerTrace ν ι))
  response_handler_traces : List (Option (HandlerTrace ν ι))
  finalizer_traces : List (Option (HandlerTrace ν ι))
  exception_handler_traces : List (Option (HandlerTrace ν ι))

/-- A call of a handler, or of an exception handler with an exception. -/
structure Invocation (ε ι : Type) where
  handler : ι
  exception : Option ε
  deriving DecidableEq

structure State (ν ε ι : Type) where
  self : HandlerChain ν ι
  exchange : Exchange ν
  /-- All calls of handlers so far. -/
  invoked : List (Invocation ε ι)
  /-- The calls of patched methods so far. -/
  calls : List Str
  traces : Nat → Option (HandlerTrace ν ι)
  nextTrace : Nat

abbrev Tx (ν ε ι : Type) := EStateM ε (State ν ε ι)

/-- What a loop over handlers does after one of them. -/
inductive Next (ε : Type)
  | goOn
  | leave
  | raise (e : ε)

/-- Whether a loop over handlers comes to its next handler, and what it makes of the
way in which the handler ends. -/
structure Loop (ν ε : Type) where
  enters : Exchange ν → Bool
  next : Exchange ν → Option ε → Next ε

/-- The loops of rolo's chain, and what it notes of an exception of a request handler
before it calls the exception handlers. -/
structure Rolo (ν ε : Type) where
  requests : Loop ν ε
  responses : Loop ν ε
  finalizers : Loop ν ε
  exceptions : Loop ν ε
  noteError : ε → Exchange ν → Exchange ν

/-- The methods that a subclass of rolo's chain can override. -/
structure Methods (ν ε ι : Type) where
  _call_response_handlers : Tx ν ε ι Unit
  _call_finalizers : Tx ν ε ι Unit
  _call_exception_handlers : ε → Tx ν ε ι Unit

section Calls

variable (values : Values ν) (act : ι → Option ε → Exchange ν → Effect ν ε)

/-! ## Calling a handler -/

/-- What `do_trace_call` finds after a call. -/
def actions (before after : State ν ε ι) : List (Action ν) :=
  let old := before.exchange
  let new := after.exchange
  (after.calls.drop before.calls.length).map (fun name => Action.action ("call ".toList ++ name)) ++
  (if new.stopped ∧ ¬ old.stopped then [Action.action "stop chain".toList] else []) ++
  (if new.terminated ∧ ¬ old.terminated then [Action.action "terminate chain".toList] else []) ++
  (new.attributes.filter fun p =>
    values.truthy p.2 ∧ ¬ (Dict.get old.attributes p.1).any values.truthy).map
      (fun p => Action.setAttribute p.1 p.2) ++
  (if new.request.identity ≠ old.request.identity then
    [Action.action "replaced request object".toList] else []) ++
  (if new.response.status_code ≠ old.response.status_code then
    [Action.setStatus "response stats_code".toList new.response.status_code] else []) ++
  (if values.sameHeaders new.request.headers old.request.headers then []
    else [Action.modifyHeaders "modify request headers".toList old.request.headers
      new.request.headers]) ++
  (if values.sameHeaders new.response.headers old.response.headers then []
    else [Action.modifyHeaders "modify response headers".toList old.response.headers
      new.response.headers])

/-- `self.trace = HandlerTrace(..)`. -/
def recordTrace (trace : Nat) (delegate : Callable ι) (before after : State ν ε ι) :
    State ν ε ι := { after with
  traces := Function.update after.traces trace (some ⟨delegate, actions values before after⟩) }

/-- `fn` is the call of the delegate. -/
def do_trace_call (trace : Nat) (delegate : Callable ι) (fn : Tx ν ε ι Unit) : Tx ν ε ι Unit := do
  let before ← get
  ensure fn (modify (recordTrace values trace delegate before))

/-- The state after the call of a handler. -/
def State.called (st : State ν ε ι) (h : ι) (exception : Option ε) : State ν ε ι :=
  let effect := act h exception st.exchange
  { st with
    exchange := effect.exchange
    invoked := st.invoked ++ [⟨h, exception⟩]
    calls := st.calls ++ effect.calls }

/-- The call of a handler itself. -/
def invoke (h : ι) (exception : Option ε) : Tx ν ε ι Unit := fun st =>
  match (act h exception st.exchange).raised with
  | none => .ok () (st.called act h exception)
  | some e => .error e (st.called act h exception)

/-- Exception handlers are called with an exception, all others without. -/
def call : Callable ι → Option ε → Tx ν ε ι Unit
  | .handler h, exception => invoke act h exception
  | .traced trace delegate, exception =>
    do_trace_call values trace delegate (call delegate exception)

/-! ## rolo's `HandlerChain` -/

def runLoop (l : Loop ν ε) (f : Callable ι → Tx ν ε ι Unit) : List (Callable ι) → Tx ν ε ι Unit
  | [] => pure ()
  | c :: cs => do
    if ← read fun st => l.enters st.exchange then
      let raised ← attempt (f c)
      match ← read fun st => l.next st.exchange raised with
      | .goOn => runLoop l f cs
      | .leave => pure ()
      | .raise e => throw e
    else pure ()

variable (rolo : Rolo ν ε)

def HandlerChain._call_response_handlers : Tx ν ε ι Unit := do
  let handlers ← read fun st => st.self.response_handlers
  runLoop rolo.responses (fun c => call values act c none) handlers

def HandlerChain._call_finalizers : Tx ν ε ι Unit := do
  let handlers ← read fun st => st.self.finalizers
  runLoop rolo.finalizers (fun c => call values act c none) handlers

def HandlerChain._call_exception_handlers (e : ε) : Tx ν ε ι Unit := do
  let handlers ← read fun st => st.self.exception_handlers
  runLoop rolo.exceptions (fun c => call values act c (some e)) handlers

/-- A request handler, and the exception handlers if it raises. -/
def callRequestHandler (m : Methods ν ε ι) (c : Callable ι) : Tx ν ε ι Unit := do
  match ← attempt (call values act c none) with
  | none => pure ()
  | some e => do
    modify fun st => { st with exchange := rolo.noteError e st.exchange }
    m._call_exception_handlers e

/-- The request and the response handlers. -/
def HandlerChain.phases (m : Methods ν ε ι) : Tx ν ε ι Unit := do
  let handlers ← read fun st => st.self.request_handlers
  runLoop rolo.requests (callRequestHandler values act rolo m) handlers
  if ← read fun st => st.exchange.terminated then pure () else m._call_response_handlers

def HandlerChain.handle (m : Methods ν ε ι) : Tx ν ε ι Unit :=
  ensure (HandlerChain.phases values act rolo m) m._call_finalizers

/-- The methods of rolo's chain itself. -/
def HandlerChain.methods : Methods ν ε ι where
  _call_response_handlers := HandlerChain._call_response_handlers values act rolo
  _call_finalizers := HandlerChain._call_finalizers values act rolo
  _call_exception_handlers := HandlerChain._call_exception_handlers values act rolo

/-! ## `TracingHandlerChain` -/

/-- `[TracingHandler(handler) for handler in cs]`: every object gets a trace. -/
def tracingHandlers (first : Nat) (cs : List (Callable ι)) : List (Callable ι) :=
  cs.mapIdx fun k c => .traced (first + k) c

/-- `handler.trace`. -/
def traceOf (st : State ν ε ι) : Callable ι → Option (HandlerTrace ν ι)
  | .handler _ => none
  | .traced trace _ => st.traces trace

def traceRequestHandlers (st : State ν ε ι) : State ν ε ι := { st with
  self := { st.self with
    request_handlers := tracingHandlers st.nextTrace st.self.request_handlers }
  nextTrace := st.nextTrace + st.self.request_handlers.length }

def traceResponseHandlers (st : State ν ε ι) : State ν ε ι := { st with
  self := { st.self with
    response_handlers := tracingHandlers st.nextTrace st.self.response_handlers }
  nextTrace := st.nextTrace + st.self.response_handlers.length }

def traceFinalizers (st : State ν ε ι) : State ν ε ι := { st with
  self := { st.self with finalizers := tracingHandlers st.nextTrace st.self.finalizers }
  nextTrace := st.nextTrace + st.self.finalizers.length }

def traceExceptionHandlers (st : State ν ε ι) : State ν ε ι := { st with
  self := { st.self with
    exception_handlers := tracingHandlers st.nextTrace st.self.exception_handlers }
  nextTrace := st.nextTrace + st.self.exception_handlers.length }

def TracingHandlerChain._call_response_handlers : Tx ν ε ι Unit := do
  modify traceResponseHandlers
  ensure (HandlerChain._call_response_handlers values act rolo) <| modify fun st => { st with
    self := { st.self with
      response_handler_traces := st.self.response_handlers.map (traceOf st) } }

/-- The base method that this calls is the one for response handlers. -/
def TracingHandlerChain._call_finalizers : Tx ν ε ι Unit := do
  modify traceFinalizers
  ensure (HandlerChain._call_response_handlers values act rolo) <| modify fun st => { st with
    self := { st.self with finalizer_traces := st.self.finalizers.map (traceOf st) } }

def TracingHandlerChain._call_exception_handlers (e : ε) : Tx ν ε ι Unit := do
  modify traceExceptionHandlers
  ensure (HandlerChain._call_exception_handlers values act rolo e) <| modify fun st => { st with
    self := { st.self with
      exception_handler_traces := st.self.exception_handlers.map (traceOf st) } }

def TracingHandlerChain.methods : Methods ν ε ι where
  _call_response_handlers := TracingHandlerChain._call_response_handlers values act rolo
  _call_finalizers := TracingHandlerChain._call_finalizers values act rolo
  _call_exception_handlers := TracingHandlerChain._call_exception_handlers values act rolo

def TracingHandlerChain.handle : Tx ν ε ι Unit :=
  ensure
    (do
      modify traceRequestHandlers
      HandlerChain.handle values act rolo (TracingHandlerChain.methods values act rolo))
    (modify fun st => { st with
      self := { st.self with
        request_handler_traces := st.self.request_handlers.map (traceOf st) } })

end Calls

/-! ## New chains -/

/-- The handlers that a gateway passes to its chains. -/
structure Gateway (ι : Type) where
  request_handlers : List ι
  response_handlers : List ι
  finalizers : List ι
  exception_handlers : List ι

def Gateway.new_chain (g : Gateway ι) : HandlerChain ν ι :=
  ⟨g.request_handlers.map .handler, g.response_handlers.map .handler,
    g.finalizers.map .handler, g.exception_handlers.map .handler, [], [], [], []⟩

def start (self : HandlerChain ν ι) (exchange : Exchange ν) : State ν ε ι :=
  ⟨self, exchange, [], [], fun _ => none, 0⟩

end LocalStack.Http.Trace
