import LocalStack.Http.Trace

/-! When the tracing handler chain does what the plain chain does. Up to the finalizers
the two are in step; then the tracing chain runs its response handlers once more. -/

namespace LocalStack.Http.Trace
open LocalStack.Stateful

variable {ν ε ι : Type} {values : Values ν} {act : ι → Option ε → Exchange ν → Effect ν ε}
  {rolo : Rolo ν ε}

/-! ## Calls -/

/-- The end of a call that may have raised. -/
def ending : Option ε → Except ε Unit
  | none => .ok ()
  | some e => .error e

section Invoke

variable {h : ι} {exception : Option ε} {st : State ν ε ι}

theorem invoke_ok (hr : (act h exception st.exchange).raised = none) :
    (invoke act h exception).run st = .ok () (st.called act h exception) := by
  show invoke act h exception st = _
  rw [invoke, hr]

theorem invoke_error {e : ε} (hr : (act h exception st.exchange).raised = some e) :
    (invoke act h exception).run st = .error e (st.called act h exception) := by
  show invoke act h exception st = _
  rw [invoke, hr]

end Invoke

theorem outcome_invoke (h : ι) (exception : Option ε) (st : State ν ε ι) :
    outcome (invoke act h exception) st = ending (act h exception st.exchange).raised := by
  cases hr : (act h exception st.exchange).raised with
  | none => exact outcome_ok (invoke_ok hr)
  | some e => exact outcome_error (invoke_error hr)

theorem after_invoke (h : ι) (exception : Option ε) (st : State ν ε ι) :
    after (invoke act h exception) st = st.called act h exception := by
  cases hr : (act h exception st.exchange).raised with
  | none => exact after_ok (invoke_ok hr)
  | some e => exact after_error (invoke_error hr)

theorem call_traced (values : Values ν) (act : ι → Option ε → Exchange ν → Effect ν ε)
    (trace : Nat) (delegate : Callable ι) (exception : Option ε) :
    call values act (.traced trace delegate) exception =
      do_trace_call values trace delegate (call values act delegate exception) := rfl

/-- Tracing only adds a trace. -/
theorem do_trace_call_run (values : Values ν) (trace : Nat) (delegate : Callable ι)
    (fn : Tx ν ε ι Unit) (st : State ν ε ι) :
    outcome (do_trace_call values trace delegate fn) st = outcome fn st ∧
      after (do_trace_call values trace delegate fn) st =
        recordTrace values trace delegate st (after fn st) := by
  have hrun : (do_trace_call values trace delegate fn).run st =
      (ensure fn (modify (recordTrace values trace delegate st))).run st := rfl
  have hrecord : (modify (recordTrace values trace delegate st) : Tx ν ε ι Unit).run
      (after fn st) = .ok () (recordTrace values trace delegate st (after fn st)) := rfl
  constructor
  · rw [outcome, hrun, ← outcome_ensure fn hrecord, outcome]
  · rw [after, hrun, ← after_ok hrecord, ← after_ensure, after]

/-! ## Chains in step -/

theorem name_tracingHandlers (n : Nat) (cs : List (Callable ι)) :
    (tracingHandlers n cs).map Callable.name = cs.map Callable.name := by
  apply List.ext_getElem
  · simp [tracingHandlers]
  · intro k _ _
    simp [tracingHandlers, Callable.name]

variable {g : Gateway ι}

/-- A chain with traces beside a plain chain of the same gateway. -/
structure Same (g : Gateway ι) (st st' : State ν ε ι) : Prop where
  exchange : st.exchange = st'.exchange
  invoked : st.invoked = st'.invoked
  plain : st'.self = g.new_chain
  request_handlers : st.self.request_handlers.map Callable.name = g.request_handlers
  response_handlers : st.self.response_handlers.map Callable.name = g.response_handlers
  finalizers : st.self.finalizers.map Callable.name = g.finalizers
  exception_handlers : st.self.exception_handlers.map Callable.name = g.exception_handlers

theorem agree_invoke (h : ι) (exception : Option ε) :
    Agree (Same (ν := ν) g) (invoke act h exception) (invoke act h exception) := by
  intro st st' hs
  have hcalled : Same g (st.called act h exception) (st'.called act h exception) := by
    constructor
    · simp only [State.called, hs.exchange]
    · simp only [State.called, hs.invoked]
    · exact hs.plain
    · exact hs.request_handlers
    · exact hs.response_handlers
    · exact hs.finalizers
    · exact hs.exception_handlers
  rw [outcome_invoke, outcome_invoke, after_invoke, after_invoke, hs.exchange]
  exact ⟨rfl, hcalled⟩

/-- Tracing a call does not change it. -/
theorem agree_call (c : Callable ι) (exception : Option ε) :
    Agree (Same g) (call values act c exception) (call values act (.handler c.name) exception) := by
  induction c with
  | handler h => exact agree_invoke h exception
  | traced trace delegate ih =>
    intro st st' hs
    obtain ⟨hout, h⟩ := ih st st' hs
    obtain ⟨htraced, hafter⟩ :=
      do_trace_call_run values trace delegate (call values act delegate exception) st
    rw [call_traced, htraced, hafter]
    exact ⟨hout, ⟨h.1, h.2, h.3, h.4, h.5, h.6, h.7⟩⟩

theorem agree_runLoop (l : Loop ν ε) {f f' : Callable ι → Tx ν ε ι Unit}
    (hf : ∀ c, Agree (Same g) (f c) (f' (.handler c.name))) (cs : List (Callable ι)) :
    Agree (Same g) (runLoop l f cs) (runLoop l f' ((cs.map Callable.name).map .handler)) := by
  induction cs with
  | nil => exact agree_pure ()
  | cons c cs ih =>
    apply (agree_read fun st st' hs => by rw [hs.exchange]).bind
    intro enters
    cases enters with
    | false => exact agree_pure ()
    | true =>
      apply (hf c).attempt.bind
      intro raised
      apply (agree_read fun st st' hs => by rw [hs.exchange]).bind
      intro next
      cases next with
      | goOn => exact ih
      | leave => exact agree_pure ()
      | raise e => exact agree_throw e

/-- The same for the handlers that the chains hold. -/
theorem agree_loop_read (l : Loop ν ε) {f f' : Callable ι → Tx ν ε ι Unit}
    (hf : ∀ c, Agree (Same g) (f c) (f' (.handler c.name)))
    {field : HandlerChain ν ι → List (Callable ι)}
    (hfield : ∀ st st' : State ν ε ι, Same g st st' →
      field st'.self = ((field st.self).map Callable.name).map .handler) :
    Agree (Same g) (read (fun st => field st.self) >>= runLoop l f)
      (read (fun st => field st.self) >>= runLoop l f') := by
  intro st st' hs
  have hloop := agree_runLoop l hf (field st.self)
  rw [← hfield st st' hs] at hloop
  exact hloop st st' hs

/-! ## Methods in step -/

theorem agree_call_response_handlers : Agree (Same g)
    (HandlerChain._call_response_handlers values act rolo)
    (HandlerChain._call_response_handlers values act rolo) := by
  apply agree_loop_read rolo.responses fun c => agree_call c none
  intro st st' hs
  rw [hs.plain, hs.response_handlers]
  rfl

theorem agree_call_exception_handlers (e : ε) : Agree (Same g)
    (HandlerChain._call_exception_handlers values act rolo e)
    (HandlerChain._call_exception_handlers values act rolo e) := by
  apply agree_loop_read rolo.exceptions fun c => agree_call c (some e)
  intro st st' hs
  rw [hs.plain, hs.exception_handlers]
  rfl

/-- Wrapping the handlers is invisible, and so is collecting their traces. -/
theorem agree_tracing_response_handlers : Agree (Same g)
    (TracingHandlerChain._call_response_handlers values act rolo)
    (HandlerChain._call_response_handlers values act rolo) := by
  apply Agree.modify_left
  · apply agree_call_response_handlers.ensure_left
    exact fun _ _ h => ⟨h.1, h.2, h.3, h.4, h.5, h.6, h.7⟩
  · intro st st' h
    exact ⟨h.1, h.2, h.3, h.4, (name_tracingHandlers _ _).trans h.5, h.6, h.7⟩

theorem agree_tracing_exception_handlers (e : ε) : Agree (Same g)
    (TracingHandlerChain._call_exception_handlers values act rolo e)
    (HandlerChain._call_exception_handlers values act rolo e) := by
  apply Agree.modify_left
  · apply (agree_call_exception_handlers e).ensure_left
    exact fun _ _ h => ⟨h.1, h.2, h.3, h.4, h.5, h.6, h.7⟩
  · intro st st' h
    exact ⟨h.1, h.2, h.3, h.4, h.5, h.6, (name_tracingHandlers _ _).trans h.7⟩

theorem agree_callRequestHandler (c : Callable ι) : Agree (Same g)
    (callRequestHandler values act rolo (TracingHandlerChain.methods values act rolo) c)
    (callRequestHandler values act rolo (HandlerChain.methods values act rolo)
      (.handler c.name)) := by
  apply (agree_call c none).attempt.bind
  intro raised
  cases raised with
  | none => exact agree_pure ()
  | some e =>
    apply (agree_modify ?_).bind fun _ => agree_tracing_exception_handlers e
    intro st st' h
    exact ⟨congrArg (rolo.noteError e) h.1, h.2, h.3, h.4, h.5, h.6, h.7⟩

/-- Up to the finalizers the two chains do the same. -/
theorem agree_phases (values : Values ν) (act : ι → Option ε → Exchange ν → Effect ν ε)
    (rolo : Rolo ν ε) : Agree (Same g)
    (HandlerChain.phases values act rolo (TracingHandlerChain.methods values act rolo))
    (HandlerChain.phases values act rolo (HandlerChain.methods values act rolo)) := by
  intro st st' hs
  have hcall : ∀ c, Agree (Same g)
      (callRequestHandler values act rolo (TracingHandlerChain.methods values act rolo) c)
      (callRequestHandler values act rolo (HandlerChain.methods values act rolo)
        (.handler c.name)) := agree_callRequestHandler
  have hloop := agree_runLoop rolo.requests hcall st.self.request_handlers
  have hself : st'.self.request_handlers =
      (st.self.request_handlers.map Callable.name).map .handler := by
    rw [hs.plain, hs.request_handlers]
    rfl
  rw [← hself] at hloop
  refine (hloop.bind fun _ => ?_) st st' hs
  apply (agree_read fun st st' hs => by rw [hs.exchange]).bind
  intro terminated
  cases terminated with
  | true => exact agree_pure ()
  | false => exact agree_tracing_response_handlers

/-! ## The handlers of a loop -/

/-- The handlers that a loop comes to: all up to the first with which it ends. -/
def Loop.reach (l : Loop ν ε) (act : ι → Option ε → Exchange ν → Effect ν ε) :
    List ι → Exchange ν → List ι
  | [], _ => []
  | h :: hs, x =>
    if l.enters x then
      match l.next (act h none x).exchange (act h none x).raised with
      | .goOn => h :: l.reach act hs (act h none x).exchange
      | _ => [h]
    else []

/-- Several handlers, one after the other. -/
def advance (act : ι → Option ε → Exchange ν → Effect ν ε) (hs : List ι) (x : Exchange ν) :
    Exchange ν :=
  hs.foldl (fun x h => (act h none x).exchange) x

section Reach

variable (values : Values ν) (act : ι → Option ε → Exchange ν → Effect ν ε)

theorem call_run (c : Callable ι) (st : State ν ε ι) :
    outcome (call values act c none) st = ending (act c.name none st.exchange).raised ∧
      (after (call values act c none) st).exchange = (act c.name none st.exchange).exchange ∧
      (after (call values act c none) st).invoked = st.invoked ++ [⟨c.name, none⟩] := by
  induction c with
  | handler h =>
    exact ⟨outcome_invoke h none st, congrArg State.exchange (after_invoke h none st),
      congrArg State.invoked (after_invoke h none st)⟩
  | traced trace delegate ih =>
    obtain ⟨htraced, hafter⟩ :=
      do_trace_call_run values trace delegate (call values act delegate none) st
    rw [call_traced, htraced, hafter]
    exact ih

@[simp] theorem raised_ending (r : Option ε) : raised (ending r) = r := by
  cases r <;> rfl

theorem runLoop_reach (l : Loop ν ε) (cs : List (Callable ι)) (st : State ν ε ι) :
    (after (runLoop l (fun c => call values act c none) cs) st).exchange =
        advance act (l.reach act (cs.map Callable.name) st.exchange) st.exchange ∧
      (after (runLoop l (fun c => call values act c none) cs) st).invoked =
        st.invoked ++ (l.reach act (cs.map Callable.name) st.exchange).map (⟨·, none⟩) := by
  induction cs generalizing st with
  | nil => exact ⟨rfl, (List.append_nil _).symm⟩
  | cons c cs ih =>
    obtain ⟨hout, hexchange, hinvoked⟩ := call_run values act c st
    rw [runLoop, after_read_bind, List.map_cons, Loop.reach]
    cases henters : l.enters st.exchange with
    | false => exact ⟨rfl, (List.append_nil _).symm⟩
    | true =>
      simp only [↓reduceIte, after_attempt_bind, after_read_bind, hout, raised_ending, hexchange]
      cases hnext : l.next (act c.name none st.exchange).exchange
          (act c.name none st.exchange).raised with
      | goOn =>
        obtain ⟨hx, hi⟩ := ih (after (call values act c none) st)
        rw [hexchange] at hx hi
        rw [hinvoked, List.append_assoc] at hi
        exact ⟨hx, hi⟩
      | leave => exact ⟨hexchange, hinvoked⟩
      | raise e => exact ⟨hexchange, hinvoked⟩

end Reach

/-! ## Whole runs -/

section Runs

variable (values : Values ν) (act : ι → Option ε → Exchange ν → Effect ν ε) (rolo : Rolo ν ε)
  (g : Gateway ι) (x : Exchange ν)

/-- The end of an exchange that a plain chain handles. -/
def handled : State ν ε ι :=
  after (HandlerChain.handle values act rolo (HandlerChain.methods values act rolo))
    (start g.new_chain x)

/-- The end of an exchange that a tracing chain handles. -/
def handledTraced : State ν ε ι :=
  after (TracingHandlerChain.handle values act rolo) (start g.new_chain x)

/-- The exchange when its finalizers are due. -/
def finalized : Exchange ν :=
  (after (HandlerChain.phases values act rolo (HandlerChain.methods values act rolo))
    (start g.new_chain x)).exchange

/-- Tracing makes no difference. -/
structure Transparent : Prop where
  invoked : (handledTraced values act rolo g x).invoked = (handled values act rolo g x).invoked
  response : (handledTraced values act rolo g x).exchange.response =
    (handled values act rolo g x).exchange.response
  stopped : (handledTraced values act rolo g x).exchange.stopped =
    (handled values act rolo g x).exchange.stopped
  terminated : (handledTraced values act rolo g x).exchange.terminated =
    (handled values act rolo g x).exchange.terminated

end Runs

theorem same_start (g : Gateway ι) (x : Exchange ν) :
    Same (ε := ε) g (traceRequestHandlers (start g.new_chain x)) (start g.new_chain x) := by
  have hname : ∀ hs : List ι, (hs.map Callable.handler).map Callable.name = hs := by
    intro hs
    rw [List.map_map]
    exact List.map_id hs
  exact ⟨rfl, rfl, rfl, (name_tracingHandlers _ _).trans (hname _), hname _, hname _, hname _⟩

section Finalizers

variable (values : Values ν) (act : ι → Option ε → Exchange ν → Effect ν ε)
  (rolo : Rolo ν ε) (g : Gateway ι) (x : Exchange ν)

theorem call_finalizers_run (st : State ν ε ι) :
    let hs := rolo.finalizers.reach act (st.self.finalizers.map Callable.name) st.exchange
    (after (HandlerChain._call_finalizers values act rolo) st).exchange =
        advance act hs st.exchange ∧
      (after (HandlerChain._call_finalizers values act rolo) st).invoked =
        st.invoked ++ hs.map (⟨·, none⟩) :=
  runLoop_reach values act rolo.finalizers st.self.finalizers st

/-- The finalizers of a tracing chain are its response handlers. -/
theorem tracing_finalizers_run (st : State ν ε ι) :
    let hs := rolo.responses.reach act (st.self.response_handlers.map Callable.name) st.exchange
    (after (TracingHandlerChain._call_finalizers values act rolo) st).exchange =
        advance act hs st.exchange ∧
      (after (TracingHandlerChain._call_finalizers values act rolo) st).invoked =
        st.invoked ++ hs.map (⟨·, none⟩) := by
  have hafter := after_ensure (HandlerChain._call_response_handlers values act rolo)
    (modify fun st => { st with
      self := { st.self with finalizer_traces := st.self.finalizers.map (traceOf st) } })
    (traceFinalizers st)
  obtain ⟨hexchange, hinvoked⟩ := runLoop_reach values act rolo.responses
    st.self.response_handlers (traceFinalizers st)
  exact ⟨(congrArg State.exchange hafter).trans hexchange,
    (congrArg State.invoked hafter).trans hinvoked⟩

theorem handledTraced_eq :
    let st := after (TracingHandlerChain._call_finalizers values act rolo)
      (after (HandlerChain.phases values act rolo (TracingHandlerChain.methods values act rolo))
        (traceRequestHandlers (start g.new_chain x)))
    (handledTraced values act rolo g x).exchange = st.exchange ∧
      (handledTraced values act rolo g x).invoked = st.invoked := by
  have houter := after_ensure
    (do
      modify traceRequestHandlers
      HandlerChain.handle values act rolo (TracingHandlerChain.methods values act rolo))
    (modify fun st => { st with
      self := { st.self with
        request_handler_traces := st.self.request_handlers.map (traceOf st) } })
    (start g.new_chain x)
  have hinner := after_ensure
    (HandlerChain.phases values act rolo (TracingHandlerChain.methods values act rolo))
    (TracingHandlerChain._call_finalizers values act rolo)
    (traceRequestHandlers (start g.new_chain x))
  have hexchange := congrArg State.exchange hinner
  have hinvoked := congrArg State.invoked hinner
  exact ⟨(congrArg State.exchange houter).trans hexchange,
    (congrArg State.invoked houter).trans hinvoked⟩

/-- From the finalizers on the plain chain runs the finalizers, and the tracing chain
the response handlers. -/
theorem handled_run :
    let y := finalized values act rolo g x
    ∃ before : List (Invocation ε ι),
      (handled values act rolo g x).exchange =
        advance act (rolo.finalizers.reach act g.finalizers y) y ∧
      (handled values act rolo g x).invoked =
        before ++ (rolo.finalizers.reach act g.finalizers y).map (⟨·, none⟩) ∧
      (handledTraced values act rolo g x).exchange =
        advance act (rolo.responses.reach act g.response_handlers y) y ∧
      (handledTraced values act rolo g x).invoked =
        before ++ (rolo.responses.reach act g.response_handlers y).map (⟨·, none⟩) := by
  have hsame := (agree_phases values act rolo _ _
    (same_start (ε := ε) g x)).2
  have hplain : handled values act rolo g x = after
      (HandlerChain._call_finalizers values act rolo) _ := after_ensure _ _ _
  obtain ⟨hx, hi⟩ := call_finalizers_run values act rolo
    (after (HandlerChain.phases values act rolo (HandlerChain.methods values act rolo))
      (start g.new_chain x))
  obtain ⟨hxt, hit⟩ := tracing_finalizers_run values act rolo
    (after (HandlerChain.phases values act rolo (TracingHandlerChain.methods values act rolo))
      (traceRequestHandlers (start g.new_chain x)))
  obtain ⟨hxt', hit'⟩ := handledTraced_eq values act rolo g x
  have hnames : (g.new_chain : HandlerChain ν ι).finalizers.map Callable.name = g.finalizers := by
    simp [Gateway.new_chain, Callable.name, Function.comp_def]
  rw [hsame.response_handlers, hsame.exchange] at hxt hit
  rw [hsame.plain, hnames] at hx hi
  rw [hsame.invoked] at hit
  rw [hplain, hxt', hit']
  exact ⟨_, hx, hi, hxt, hit⟩

/-- **Transparency.** Tracing makes no difference exactly if another round of the
response handlers would call the finalizers. -/
theorem transparent_iff :
    Transparent values act rolo g x ↔
      rolo.finalizers.reach act g.finalizers (finalized values act rolo g x) =
        rolo.responses.reach act g.response_handlers (finalized values act rolo g x) := by
  obtain ⟨before, hx, hi, hxt, hit⟩ := handled_run values act rolo g x
  constructor
  · rintro ⟨hinvoked, -, -, -⟩
    rw [hi, hit, List.append_cancel_left_eq] at hinvoked
    have hinj : Function.Injective fun h : ι => (⟨h, none⟩ : Invocation ε ι) := by
      intro h h' he
      exact congrArg Invocation.handler he
    exact (List.map_injective_iff.mpr hinj hinvoked).symm
  · intro h
    have hexchange : (handledTraced values act rolo g x).exchange =
        (handled values act rolo g x).exchange := by
      rw [hx, hxt, h]
    constructor
    · rw [hi, hit, h]
    · rw [hexchange]
    · rw [hexchange]
    · rw [hexchange]

end Finalizers

/-! ## A finalizer that is never called -/

/-- Request handlers run until the chain is stopped or terminated and response handlers
until it is terminated; exceptions do not end a loop. -/
def lenient : Rolo ν ε where
  requests := ⟨fun _ => true, fun x _ => if x.stopped ∨ x.terminated then .leave else .goOn⟩
  responses := ⟨fun x => !x.terminated, fun _ _ => .goOn⟩
  finalizers := ⟨fun _ => true, fun _ _ => .goOn⟩
  exceptions := ⟨fun _ => true, fun _ _ => .goOn⟩
  noteError := fun _ x => x

def sampleGateway : Gateway String where
  request_handlers := []
  response_handlers := ["log_response"]
  finalizers := ["set_close_connection_header"]
  exception_handlers := []

def sampleExchange : Exchange Unit :=
  ⟨false, false, (), ⟨0, [], ()⟩, [], ⟨200, [], ()⟩⟩

/-- The plain chain calls the response handler and the finalizer, the tracing chain the
response handler twice. -/
theorem finalizer_not_called : ¬ Transparent (ε := Unit) ⟨fun _ => true, fun h h' => h = h'⟩
    (fun _ _ x => ⟨x, none, []⟩) lenient sampleGateway sampleExchange := by
  rintro ⟨hinvoked, -, -, -⟩
  exact absurd hinvoked (by decide)

end LocalStack.Http.Trace
