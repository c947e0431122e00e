import LocalStack.Aws.Skeleton

/-! The call of a handler, `Skeleton.invoke` of `aws/skeleton.py` and
`ForwardingFallbackDispatcher` of `aws/forwarder.py`. Handlers may change the request
context and whatever else there is. -/

namespace LocalStack.Aws.Forwarder
open LocalStack.Text LocalStack.OrderedDict LocalStack.Aws.Skeleton

/-- `ServiceException`. -/
structure ServiceException where
  code : Str
  message : Str
  status_code : Nat
deriving DecidableEq

/-- What is raised. `NotImplementedAvoidFallbackError` is a `NotImplementedError`; the
texts are the first arguments. `exit` is a `BaseException` that is no `Exception`. -/
inductive Raised (ε : Type)
  | service (e : ServiceException)
  | notImplemented (message : Option Str)
  | avoidFallback (message : Option Str)
  | error (e : Error)
  | other (e : ε)
  | exit (e : ε)

/-- What a handler returns; `response` is a response of HTTP. -/
inductive Returned (ρ : Type)
  | none
  | result (d : Dict Str Value)
  | response (r : ρ)

abbrev Request := Option (Dict Str Value)

/-- The fields of the request context that are used here. -/
structure Context where
  operation : Option Str
  service_request : Request
  service_response : Option (Dict Str Value)
  service_exception : Option ServiceException

structure World (σ : Type) where
  context : Context
  store : σ

/-- `ServiceRequestHandler`. -/
abbrev Handler (σ ρ ε : Type) :=
  Request → World σ → Except (Raised ε) (Returned ρ) × World σ

/-! ## Calling a handler -/

inductive Arg
  | value (v : Value)
  | request (r : Request)
  | context

inductive Call
  | positional (args : List Arg)
  | keywords (kwargs : Dict Str Arg)

abbrev Body (σ ρ ε : Type) := Call → World σ → Except (Raised ε) (Returned ρ) × World σ

section

variable {σ ρ ε : Type} (xform_name : Str → Str)

/-- The arguments of `ServiceRequestDispatcher.__call__`. -/
def arguments {β : Type} (d : Dispatcher β) (request : Request) : Call :=
  if d.expand_parameters then
    let kwargs := Dict.ofPairs ((request.getD []).map fun p => (xform_name p.1, Arg.value p.2))
    .keywords (kwargs.set "context".toList .context)
  else .positional ((if d.pass_context then [.context] else []) ++ [.request request])

def Dispatcher.call (d : Dispatcher (Body σ ρ ε)) : Handler σ ρ ε := fun request w =>
  match d.fn with
  | .function fn => fn.body (arguments xform_name d request) w
  | .other => (.error (.error .typeError), w)

/-- A member of the request reaches the handler under its name, unless another member has
that name as well or it is the name of the context. -/
theorem arguments_member {β : Type} {d : Dispatcher β} (hd : d.expand_parameters = true)
    {members : Dict Str Value} {k : Str} {v : Value} (hm : (k, v) ∈ members)
    (hone : ∀ p ∈ members, xform_name p.1 = xform_name k → p = (k, v))
    (hctx : xform_name k ≠ "context".toList) :
    ∃ kwargs : Dict Str Arg, arguments xform_name d (some members) = .keywords kwargs ∧
      kwargs.get (xform_name k) = some (.value v) ∧ kwargs.get "context".toList = some .context := by
  refine ⟨_, by rw [arguments, if_pos hd], ?_, Dict.get_set_self _ _ _⟩
  rw [Dict.get_set_ne _ _ hctx.symm]
  refine Dict.get_ofPairs_of_mem (List.mem_map.mpr ⟨_, hm, rfl⟩) fun q hq hk => ?_
  obtain ⟨p, hp, rfl⟩ := List.mem_map.mp hq
  rw [hone p hp hk]

/-! ## `Skeleton.invoke` -/

/-- The parser of the request and the serializer of its protocol; `serialize` and
`serialize_error` are the bodies of its two public methods. -/
structure Protocol (ρ ε : Type) where
  service_name : Str
  parse : Except (Raised ε) (Str × Request)
  serialize : Dict Str Value → Str → Except (Raised ε) ρ
  serialize_error : ServiceException → Option Str → Except (Raised ε) ρ

/-- `_handle_exceptions`: every `Exception` becomes a `ResponseSerializerError`. -/
def handle_exceptions (outcome : Except (Raised ε) ρ) : Except (Raised ε) ρ :=
  match outcome with
  | .ok r => .ok r
  | .error (.error .protocolSerializerError) => .error (.error .protocolSerializerError)
  | .error (.exit e) => .error (.exit e)
  | .error _ => .error (.error .unknownSerializerError)

def Protocol.serialize_to_response (protocol : Protocol ρ ε) (response : Dict Str Value)
    (operation : Str) : Except (Raised ε) ρ :=
  handle_exceptions (protocol.serialize response operation)

def Protocol.serialize_error_to_response (protocol : Protocol ρ ε) (error : ServiceException)
    (operation : Option Str) : Except (Raised ε) ρ :=
  handle_exceptions (protocol.serialize_error error operation)

/-- `get_service_availability_exception`, with the name of an operation. -/
def get_service_availability_exception (service_name operation_name : Str) : ServiceException :=
  ⟨"InternalFailure".toList,
    "Sorry, the ".toList ++ operation_name ++ " operation on the ".toList ++ service_name ++
      " service is not currently supported by LocalStack.".toList, 501⟩

variable (protocol : Protocol ρ ε)

/-- A service request of the context is used again unless it is empty. -/
def operation_and_instance (w : World σ) : Except (Raised ε) (Str × Request) × World σ :=
  match w.context.operation, w.context.service_request with
  | some operation, some (p :: request) => (.ok (operation, some (p :: request)), w)
  | _, _ =>
    match protocol.parse with
    | .ok (operation, instance_) =>
      (.ok (operation, instance_),
        { w with context := { w.context with operation := some operation } })
    | .error e => (.error e, w)

/-- The error is noted in the context. -/
def on_service_exception (e : ServiceException) (w : World σ) : Except (Raised ε) ρ × World σ :=
  (protocol.serialize_error_to_response e w.context.operation,
    { w with context := { w.context with service_exception := some e } })

def on_not_implemented_error (exception_message : Option Str) (w : World σ) :
    Except (Raised ε) ρ × World σ :=
  match w.context.operation with
  | none => (.error (.error .attributeError), w)
  | some operation_name =>
    match exception_message with
    | some message => on_service_exception protocol ⟨"InternalFailure".toList, message, 501⟩ w
    | none =>
      on_service_exception protocol
        (get_service_availability_exception protocol.service_name operation_name) w

/-- What `dispatch_request` does with the outcome of the handler. -/
def conclude (operation : Str) (outcome : Except (Raised ε) (Returned ρ) × World σ) :
    Except (Raised ε) ρ × World σ :=
  match outcome with
  | (.error e, w) => (.error e, w)
  | (.ok (.response r), w) => (.ok r, w)
  | (.ok .none, w) =>
    (protocol.serialize_to_response [] operation,
      { w with context := { w.context with service_response := some [] } })
  | (.ok (.result d), w) =>
    (protocol.serialize_to_response d operation,
      { w with context := { w.context with service_response := some d } })

/-- The `except` clauses of `invoke`. -/
def rescue (outcome : Except (Raised ε) ρ × World σ) : Except (Raised ε) ρ × World σ :=
  match outcome with
  | (.error (.service e), w) => on_service_exception protocol e w
  | (.error (.notImplemented message), w) => on_not_implemented_error protocol message w
  | (.error (.avoidFallback message), w) => on_not_implemented_error protocol message w
  | outcome => outcome

def invoke (dispatch_table : Dict Str (Handler σ ρ ε)) (w : World σ) :
    Except (Raised ε) ρ × World σ :=
  match operation_and_instance protocol w with
  | (.error e, w) => (.error e, w)
  | (.ok (operation, instance_), w) =>
    rescue protocol <|
      match dispatch_table.get operation with
      | none => (.error (.notImplemented none), w)
      | some handler => conclude protocol operation (handler instance_ w)

/-! ## `ForwardingFallbackDispatcher` -/

/-- `_wrap_with_fallthrough`. -/
def wrap_with_fallthrough (handler fallthrough_handler : Handler σ ρ ε) : Handler σ ρ ε :=
  fun req w =>
    match handler req w with
    | (.error (.notImplemented _), w) => fallthrough_handler req w
    | outcome => outcome

def ForwardingFallbackDispatcher (table : Dict Str (Handler σ ρ ε))
    (request_forwarder : Handler σ ρ ε) : Dict Str (Handler σ ρ ε) :=
  table.map fun p => (p.1, wrap_with_fallthrough p.2 request_forwarder)

/-! ## What becomes of a request -/

variable {protocol} {table : Dict Str (Handler σ ρ ε)} {w w' : World σ}

theorem get_fallback (forwarder : Handler σ ρ ε) (op : Str) :
    (ForwardingFallbackDispatcher table forwarder).get op =
      (table.get op).map fun h => wrap_with_fallthrough h forwarder :=
  Dict.get_map (f := id) (g := fun _ h => wrap_with_fallthrough h forwarder) fun _ _ => id

/-- The error is not one that `invoke` makes a response of. -/
def Raised.Internal : Raised ε → Prop
  | .error _ | .other _ | .exit _ => True
  | _ => False

theorem handle_exceptions_error {outcome : Except (Raised ε) ρ} {e : Raised ε}
    (h : handle_exceptions outcome = .error e) : e.Internal := by
  unfold handle_exceptions at h
  split at h <;> cases h <;> trivial

/-- What a response is made of. -/
inductive Accounts (protocol : Protocol ρ ε) (table : Dict Str (Handler σ ρ ε)) (w' : World σ)
    (r : ρ) : Prop
  | result (operation : Str) (d : Dict Str Value) (hd : w'.context.service_response = some d)
      (hr : protocol.serialize_to_response d operation = .ok r)
  | exception (e : ServiceException) (he : w'.context.service_exception = some e)
      (hr : protocol.serialize_error_to_response e w'.context.operation = .ok r)
  | raw (operation : Str) (h : Handler σ ρ ε) (request : Request) (w : World σ)
      (hh : table.get operation = some h) (hr : h request w = (.ok (.response r), w'))

theorem on_service_exception_ok {e : ServiceException} {r : ρ}
    (h : on_service_exception protocol e w = (.ok r, w')) : Accounts protocol table w' r := by
  obtain ⟨hr, rfl⟩ := Prod.mk.inj h
  exact .exception e rfl hr

theorem on_not_implemented_error_ok {message : Option Str} {r : ρ}
    (h : on_not_implemented_error protocol message w = (.ok r, w')) :
    Accounts protocol table w' r := by
  rw [on_not_implemented_error] at h
  cases hop : w.context.operation with
  | none => simp [hop] at h
  | some op =>
    rw [hop] at h
    cases message <;> exact on_service_exception_ok h

/-- A response is accounted for: it is what the serializer makes of the result that is
kept in the context, or of the exception that is kept there, or the handler's own. -/
theorem conclude_ok {op : Str} {h : Handler σ ρ ε} {request : Request} {r : ρ}
    (hh : table.get op = some h) (hc : conclude protocol op (h request w) = (.ok r, w')) :
    Accounts protocol table w' r := by
  unfold conclude at hc
  split at hc
  · cases hc
  · rename_i r' w₁ hout
    cases hc
    exact .raw op h request w hh hout
  · obtain ⟨hr, rfl⟩ := Prod.mk.inj hc
    exact .result op [] rfl hr
  · rename_i d w₁ hout
    obtain ⟨hr, rfl⟩ := Prod.mk.inj hc
    exact .result op d rfl hr

theorem rescue_ok {outcome : Except (Raised ε) ρ × World σ} {r : ρ}
    (h : rescue protocol outcome = (.ok r, w'))
    (hok : outcome = (.ok r, w') → Accounts protocol table w' r) :
    Accounts protocol table w' r := by
  unfold rescue at h
  split at h
  · exact on_service_exception_ok h
  · exact on_not_implemented_error_ok h
  · exact on_not_implemented_error_ok h
  · exact hok h

theorem on_service_exception_error {x : ServiceException} {e : Raised ε}
    (h : on_service_exception protocol x w = (.error e, w')) : e.Internal :=
  handle_exceptions_error (Prod.mk.inj h).1

theorem on_not_implemented_error_error {message : Option Str} {e : Raised ε}
    (h : on_not_implemented_error protocol message w = (.error e, w')) : e.Internal := by
  rw [on_not_implemented_error] at h
  cases hop : w.context.operation with
  | none =>
    rw [hop] at h
    cases h
    trivial
  | some op =>
    rw [hop] at h
    cases message <;> exact on_service_exception_error h

/-- No `ServiceException` and no `NotImplementedError` comes out of the `try`. -/
theorem rescue_error {outcome : Except (Raised ε) ρ × World σ} {e : Raised ε}
    (h : rescue protocol outcome = (.error e, w')) : e.Internal := by
  unfold rescue at h
  split at h
  · exact on_service_exception_error h
  · exact on_not_implemented_error_error h
  · exact on_not_implemented_error_error h
  · rename_i hservice hnot havoid
    subst h
    cases e with
    | service x => exact hservice x _ rfl
    | notImplemented message => exact hnot message _ rfl
    | avoidFallback message => exact havoid message _ rfl
    | error x => trivial
    | other x => trivial
    | exit x => trivial

theorem operation_and_instance_error {e : Raised ε}
    (h : operation_and_instance protocol w = (.error e, w')) :
    protocol.parse = .error e ∧ w' = w := by
  unfold operation_and_instance at h
  split at h
  · cases h
  · split at h
    · cases h
    · rename_i e' hparse
      cases h
      exact ⟨hparse, rfl⟩

/-- **Falling back.** With the fallback, an operation that the table has is answered as
without it, but that where the handler raises `NotImplementedError` the forwarder goes on
from the state that the handler has left. An operation that the table has not is never
forwarded, and neither is one whose handler avoids the fallback. -/
theorem invoke_fallback (protocol : Protocol ρ ε) (table : Dict Str (Handler σ ρ ε))
    (forwarder : Handler σ ρ ε) (w : World σ) :
    invoke protocol (ForwardingFallbackDispatcher table forwarder) w =
      match operation_and_instance protocol w with
      | (.error e, w) => (.error e, w)
      | (.ok (op, instance_), w₁) =>
        match (table.get op).map fun h => h instance_ w₁ with
        | some (Except.error (Raised.notImplemented _), w₂) =>
          rescue protocol (conclude protocol op (forwarder instance_ w₂))
        | _ => invoke protocol table w := by
  unfold invoke
  cases operation_and_instance protocol w with
  | mk out w₁ =>
    cases out with
    | error e => rfl
    | ok p =>
      obtain ⟨op, instance_⟩ := p
      simp only [get_fallback]
      cases table.get op with
      | none => rfl
      | some h =>
        simp only [Option.map_some, wrap_with_fallthrough]
        split
        · rename_i message w₂ hout
          simp only [hout]
        · rename_i hne
          split
          · rename_i message w₂ hout
            exact absurd (Option.some.inj hout) (hne message w₂)
          · rfl

end

/-! ## A table -/

/-- `create_queue` fails with a `ServiceException`, `list_queues` is not implemented and
`purge_queue` avoids the fallback. -/
def queueTable : Dict Str (Handler Nat Str Unit) :=
  [("CreateQueue".toList, fun _ w =>
      (.error (.service ⟨"QueueNameExists".toList, [], 400⟩), { w with store := w.store + 1 })),
    ("ListQueues".toList, fun _ w => (.error (.notImplemented none), w)),
    ("PurgeQueue".toList, fun _ w => (.error (.avoidFallback none), w))]

/-- The forwarder counts its calls by the hundred. -/
def backend : Handler Nat Str Unit := fun _ w =>
  (.ok (.response "forwarded".toList), { w with store := w.store + 100 })

def queueProtocol (operation : String) : Protocol Str Unit where
  service_name := "sqs".toList
  parse := .ok (operation.toList, none)
  serialize _ op := .ok op
  -- an empty message stands for one that the serializer cannot write
  serialize_error e _ := if e.message = [] then .error (.other ()) else .ok e.code

def freshWorld : World Nat := ⟨⟨none, none, none, none⟩, 0⟩

end LocalStack.Aws.Forwarder
