import LocalStack.Services.Plugins
import Mathlib.Logic.Function.Basic

/-! Any number of concurrent `ServiceManager.require` and
`ServiceContainer.start` calls beside one `ServicePluginManager.stop_services`
call. Every read or write of a container's state and every call into its
service is one step. `start` keeps the container's lock only inside `require`,
and `stop` takes no container lock at all; the manager's mutex, held by the
stop call throughout, is taken by none of the others. -/

namespace LocalStack.Services.Shutdown
open LocalStack.Runs LocalStack.Services.Plugins

variable {ε : Type*}

/-! ## Threads -/

/-- Where a call of `require(name)` or `start()` stands. `locked` says whether
it runs inside `with container.lock`. -/
inductive Point (ε : Type*)
  | requireStarting (name : String)
  | pollStarting (name : String)
  | requireStopping (name : String)
  | pollStopping (name : String)
  | acquire (name : String)
  | testDisabled (name : String)
  | testRunning (name : String)
  | testError (name : String)
  | testAvailable (name : String)
  | testStopped (name : String)
  | startEnter (name : String) (locked : Bool)
  | inStart (name : String) (locked : Bool)
  | startFailed (name : String) (locked : Bool) (e : ε)
  | inCheck (name : String) (locked : Bool)
  | checkPassed (name : String) (locked : Bool)
  | checkFailed (name : String) (locked : Bool) (e : ε)
  | appendError (name : String) (locked : Bool) (e : ε)
  | leave (name : String) (locked : Bool)
  | done

/-- Where the stop call stands; `rest` are the containers still to be visited. -/
inductive StopPoint (ε : Type*)
  | notStarted (targets : List String)
  | visit (rest : List String)
  | writeStopping (name : String) (rest : List String)
  | callStop (name : String) (rest : List String)
  | inStop (name : String) (rest : List String)
  | writeStopped (name : String) (rest : List String)
  | writeError (name : String) (rest : List String) (e : ε)
  | appendError (name : String) (rest : List String) (e : ε)
  | returned

/-- `stopCalled` and `settled` are history: the containers whose service's stop
function has been called by the stop call, and those whose `stop()` has written
its final state. -/
structure World (ε : Type*) where
  containers : String → ServiceContainer ε
  locks : String → Bool
  threads : Nat → Point ε
  stopper : StopPoint ε
  stopCalled : List String
  settled : List String

/-- A step of thread `i`, the expiry of its polling timeout, or a step of the
stop call; `o` is the outcome of a call into the service that returns there. -/
inductive Action (ε : Type*)
  | thread (i : Nat) (o : Outcome ε)
  | timeout (i : Nat)
  | stopper (o : Outcome ε)

namespace World

def state (w : World ε) (name : String) : ServiceState := (w.containers name).state

def update (w : World ε) (name : String) (f : ServiceContainer ε → ServiceContainer ε) : World ε :=
  { w with containers := Function.update w.containers name (f (w.containers name)) }

def write (w : World ε) (name : String) (s : ServiceState) : World ε :=
  w.update name fun c => { c with state := s }

def addError (w : World ε) (name : String) (e : ε) : World ε :=
  w.update name fun c => { c with errors := c.errors ++ [e] }

/-- Record a start or stop of the service in the history of its container. -/
def record (w : World ε) (name : String) (call : Call) : World ε :=
  w.update name fun c => { c with calls := call :: c.calls }

def setLock (w : World ε) (name : String) (b : Bool) : World ε :=
  { w with locks := Function.update w.locks name b }

def goto (w : World ε) (i : Nat) (p : Point ε) : World ε :=
  { w with threads := Function.update w.threads i p }

end World

def threadStep (w : World ε) (i : Nat) (o : Outcome ε) : Option (World ε) :=
  match w.threads i with
  | .requireStarting n =>
    some (w.goto i (if w.state n = .starting then .pollStarting n else .requireStopping n))
  | .pollStarting n => if w.state n = .starting then none else some (w.goto i (.requireStopping n))
  | .requireStopping n =>
    some (w.goto i (if w.state n = .stopping then .pollStopping n else .acquire n))
  | .pollStopping n => if w.state n = .stopped then some (w.goto i (.acquire n)) else none
  | .acquire n => if w.locks n then none else some ((w.setLock n true).goto i (.testDisabled n))
  | .testDisabled n =>
    some (w.goto i (if w.state n = .disabled then .leave n true else .testRunning n))
  | .testRunning n =>
    some (w.goto i (if w.state n = .running then .leave n true else .testError n))
  | .testError n =>
    some (w.goto i (if w.state n = .error then .leave n true else .testAvailable n))
  | .testAvailable n =>
    some (w.goto i (if w.state n = .available then .startEnter n true else .testStopped n))
  | .testStopped n =>
    some (w.goto i (if w.state n = .stopped then .startEnter n true else .leave n true))
  | .startEnter n l => some ((w.write n .starting).goto i (.inStart n l))
  | .inStart n l =>
    match (w.containers n).service.start o with
    | .returns => some ((w.record n .started).goto i (.inCheck n l))
    | .raises e => some ((w.record n .startRaised).goto i (.startFailed n l e))
  | .startFailed n l e => some ((w.write n .error).goto i (.appendError n l e))
  | .inCheck n l =>
    match (w.containers n).service.check o with
    | .returns => some (w.goto i (.checkPassed n l))
    | .raises e => some (w.goto i (.checkFailed n l e))
  | .checkPassed n l => some ((w.write n .running).goto i (.leave n l))
  | .checkFailed n l e => some ((w.write n .error).goto i (.appendError n l e))
  | .appendError n l e => some ((w.addError n e).goto i (.leave n l))
  | .leave n l => some ((if l then w.setLock n false else w).goto i .done)
  | .done => none

def timeoutStep (w : World ε) (i : Nat) : Option (World ε) :=
  match w.threads i with
  | .pollStarting _ | .pollStopping _ => some (w.goto i .done)
  | _ => none

def stopStep (w : World ε) (o : Outcome ε) : Option (World ε) :=
  match w.stopper with
  | .notStarted targets => some { w with stopper := .visit targets }
  | .visit [] => some { w with stopper := .returned }
  | .visit (n :: rest) =>
    some { w with
      stopper :=
        if w.state n = .starting ∨ w.state n = .running then .writeStopping n rest
        else .visit rest }
  | .writeStopping n rest => some { w.write n .stopping with stopper := .callStop n rest }
  | .callStop n rest =>
    some { w.record n .stop with stopper := .inStop n rest, stopCalled := n :: w.stopCalled }
  | .inStop n rest =>
    match (w.containers n).service.stop o with
    | .returns => some { w with stopper := .writeStopped n rest }
    | .raises e => some { w with stopper := .writeError n rest e }
  | .writeStopped n rest =>
    some { w.write n .stopped with stopper := .visit rest, settled := n :: w.settled }
  | .writeError n rest e =>
    some { w.write n .error with stopper := .appendError n rest e, settled := n :: w.settled }
  | .appendError n rest e => some { w.addError n e with stopper := .visit rest }
  | .returned => none

def step (w : World ε) : Action ε → Option (World ε)
  | .thread i o => threadStep w i o
  | .timeout i => timeoutStep w i
  | .stopper o => stopStep w o

/-! ## Phases of a call -/

/-- The next step of the thread writes STARTING. -/
def Point.Entering (n : String) : Point ε → Prop
  | .startEnter m _ => m = n
  | _ => False

/-- Inside the service's start function. -/
def Point.Starting (n : String) : Point ε → Prop
  | .inStart m _ => m = n
  | _ => False

/-- Past the start function, and RUNNING may still be written. -/
def Point.Checking (n : String) : Point ε → Prop
  | .inCheck m _ | .checkPassed m _ => m = n
  | _ => False

def StopPoint.Begun : StopPoint ε → Prop
  | .notStarted _ => False
  | _ => True

/-- The next step calls the service's stop function. -/
def StopPoint.Calling (n : String) : StopPoint ε → Prop
  | .callStop m _ => m = n
  | _ => False

/-- The next step writes the final state, STOPPED or ERROR. -/
def StopPoint.Settling (n : String) : StopPoint ε → Prop
  | .writeStopped m _ | .writeError m _ _ => m = n
  | _ => False

/-- Every successful return of the start function is followed by a call of the
stop function; the history has the most recent call first. -/
def StopAfterStarts (calls : List Call) : Prop :=
  ∀ later earlier, calls = later ++ .started :: earlier → .stop ∈ later

theorem stopAfterStarts_stop (calls : List Call) : StopAfterStarts (.stop :: calls) := by
  intro later earlier h
  cases later with
  | nil => simp at h
  | cons c later =>
    simp only [List.cons_append, List.cons.injEq] at h
    simp [← h.1]

theorem stopAfterStarts_startRaised {calls : List Call} (h : StopAfterStarts calls) :
    StopAfterStarts (.startRaised :: calls) := by
  intro later earlier he
  cases later with
  | nil => simp at he
  | cons c later =>
    simp only [List.cons_append, List.cons.injEq] at he
    exact List.mem_cons_of_mem _ (h later earlier he.2)

@[simp] theorem World.update_self (w : World ε) (n : String)
    (f : ServiceContainer ε → ServiceContainer ε) :
    (w.update n f).containers n = f (w.containers n) := by
  simp [World.update]

theorem World.update_ne (w : World ε) {n m : String} (h : m ≠ n)
    (f : ServiceContainer ε → ServiceContainer ε) :
    (w.update n f).containers m = w.containers m := by
  simp [World.update, h]

@[simp] theorem World.goto_threads_self (w : World ε) (i : Nat) (p : Point ε) :
    (w.goto i p).threads i = p := by
  simp [World.goto]

theorem World.goto_threads_ne (w : World ε) {i j : Nat} (h : j ≠ i) (p : Point ε) :
    (w.goto i p).threads j = w.threads j := by
  simp [World.goto, h]

/-- What a step of thread `i` can do to container `n` and to the phase of `i`. -/
structure ThreadEffect (n : String) (i : Nat) (w w' : World ε) : Prop where
  stopper : w'.stopper = w.stopper
  stopCalled : w'.stopCalled = w.stopCalled
  settled : w'.settled = w.settled
  others : ∀ j, j ≠ i → w'.threads j = w.threads j
  starting : (w'.threads i).Starting n → (w.threads i).Entering n
  checking : (w'.threads i).Checking n → (w.threads i).Starting n ∨ (w.threads i).Checking n
  running : w'.state n = .running → w.state n = .running ∨ (w.threads i).Checking n
  calls : (w'.containers n).calls = (w.containers n).calls ∨
    (w'.containers n).calls = .startRaised :: (w.containers n).calls ∨ (w.threads i).Starting n

/-- A jump that touches no container, and enters no start and no check. -/
theorem goto_effect (n : String) {i : Nat} (w : World ε) {p : Point ε}
    (hs : p.Starting n → (w.threads i).Entering n)
    (hc : p.Checking n → (w.threads i).Starting n ∨ (w.threads i).Checking n) :
    ThreadEffect n i w (w.goto i p) :=
  ⟨rfl, rfl, rfl, fun j hj => w.goto_threads_ne hj p, by simpa using hs, by simpa using hc, Or.inl,
    Or.inl rfl⟩

theorem setLock_goto_effect (n : String) {i : Nat} (w : World ε) {p : Point ε} (m : String)
    (b : Bool) (hs : p.Starting n → (w.threads i).Entering n)
    (hc : p.Checking n → (w.threads i).Starting n ∨ (w.threads i).Checking n) :
    ThreadEffect n i w ((w.setLock m b).goto i p) :=
  ⟨rfl, rfl, rfl, fun j hj => w.goto_threads_ne hj p, by simpa using hs, by simpa using hc, Or.inl,
    Or.inl rfl⟩

/-- A jump together with a change of container `m`. -/
theorem update_goto_effect (n : String) {i : Nat} (w : World ε) {p : Point ε} {m : String}
    {f : ServiceContainer ε → ServiceContainer ε} (hs : p.Starting n → (w.threads i).Entering n)
    (hc : p.Checking n → (w.threads i).Starting n ∨ (w.threads i).Checking n)
    (hrun : m = n → (f (w.containers n)).state = .running →
      w.state n = .running ∨ (w.threads i).Checking n)
    (hcalls : m = n → (f (w.containers n)).calls = (w.containers n).calls ∨
      (f (w.containers n)).calls = .startRaised :: (w.containers n).calls ∨
      (w.threads i).Starting n) :
    ThreadEffect n i w ((w.update m f).goto i p) := by
  by_cases hm : m = n
  · subst hm
    have hself : ((w.update m f).goto i p).containers m = f (w.containers m) := w.update_self m f
    refine ⟨rfl, rfl, rfl, fun j hj => (w.update m f).goto_threads_ne hj p, by simpa using hs,
      by simpa using hc, ?_, ?_⟩
    · simpa only [World.state, hself] using hrun rfl
    · simpa only [hself] using hcalls rfl
  · have hne : ((w.update m f).goto i p).containers n = w.containers n :=
      w.update_ne (Ne.symm hm) f
    refine ⟨rfl, rfl, rfl, fun j hj => (w.update m f).goto_threads_ne hj p, by simpa using hs,
      by simpa using hc, ?_, ?_⟩
    · simpa only [World.state, hne] using Or.inl
    · simp [hne]

theorem threadStep_effect (n : String) {w w' : World ε} {i : Nat} {o : Outcome ε}
    (h : threadStep w i o = some w') : ThreadEffect n i w w' := by
  unfold threadStep at h
  cases hp : w.threads i <;> simp only [hp] at h
  case requireStarting m | requireStopping m | testDisabled m | testRunning m | testError m |
      testAvailable m | testStopped m =>
    cases h
    split <;> exact goto_effect n w (by simp [Point.Starting]) (by simp [Point.Checking])
  case pollStarting m | pollStopping m =>
    split at h <;> cases h
    exact goto_effect n w (by simp [Point.Starting]) (by simp [Point.Checking])
  case acquire m =>
    split at h <;> cases h
    exact setLock_goto_effect n w m true (by simp [Point.Starting]) (by simp [Point.Checking])
  case startEnter m l =>
    cases h
    exact update_goto_effect n w (by simp [Point.Starting, hp, Point.Entering])
      (by simp [Point.Checking]) (by simp) (by simp)
  case inStart m l =>
    split at h <;> cases h
    · exact update_goto_effect n w (by simp [Point.Starting])
        (by simp [Point.Checking, Point.Starting, hp]) (fun _ hr => Or.inl hr)
        (by simp [hp, Point.Starting])
    · exact update_goto_effect n w (by simp [Point.Starting]) (by simp [Point.Checking])
        (fun _ hr => Or.inl hr) (by simp)
  case startFailed m l e | checkFailed m l e =>
    cases h
    exact update_goto_effect n w (by simp [Point.Starting]) (by simp [Point.Checking]) (by simp)
      (by simp)
  case inCheck m l =>
    split at h <;> cases h
    · exact goto_effect n w (by simp [Point.Starting]) (fun hc => Or.inr (by rw [hp]; exact hc))
    · exact goto_effect n w (by simp [Point.Starting]) (by simp [Point.Checking])
  case checkPassed m l =>
    cases h
    exact update_goto_effect n w (by simp [Point.Starting]) (by simp [Point.Checking])
      (fun hm _ => Or.inr (by rw [hp]; exact hm)) (by simp)
  case appendError m l e =>
    cases h
    exact update_goto_effect n w (by simp [Point.Starting]) (by simp [Point.Checking])
      (fun _ hr => Or.inl hr) (by simp)
  case leave m l =>
    cases h
    cases l
    · exact goto_effect n w (by simp [Point.Starting]) (by simp [Point.Checking])
    · exact setLock_goto_effect n w m false (by simp [Point.Starting]) (by simp [Point.Checking])
  case done => cases h

theorem timeoutStep_effect (n : String) {w w' : World ε} {i : Nat}
    (h : timeoutStep w i = some w') : ThreadEffect n i w w' := by
  unfold timeoutStep at h
  cases hp : w.threads i <;> simp only [hp] at h <;> cases h <;>
    exact goto_effect n w (by simp [Point.Starting]) (by simp [Point.Checking])

/-! ## The invariant of a stopped container -/

/-- `n`'s stop function has been called in this visit of the stop call. -/
def StopPoint.Called (n : String) : StopPoint ε → Prop
  | .inStop m _ | .writeStopped m _ | .writeError m _ _ => m = n
  | _ => False

/-- Once the stop function of `n` has been called, no start function of `n` is
running; once `stop()` has settled, no check of `n` is left either. -/
structure Quiet (n : String) (w : World ε) : Prop where
  begun : n ∈ w.stopCalled → w.stopper.Begun
  called : w.stopper.Called n → n ∈ w.stopCalled
  noStart : n ∈ w.stopCalled → ∀ i, ¬ (w.threads i).Starting n
  stopLast : n ∈ w.stopCalled → StopAfterStarts (w.containers n).calls
  settled : n ∈ w.settled → n ∈ w.stopCalled
  noCheck : n ∈ w.settled → ∀ i, ¬ (w.threads i).Checking n
  notRunning : n ∈ w.settled → w.state n ≠ .running

/-- Every start of `n` enters STARTING before the stop call begins. -/
def EarlyStart (n : String) (w : World ε) : Action ε → Prop
  | .thread i _ => (w.threads i).Entering n → ¬ w.stopper.Begun
  | _ => True

/-- No start function of `n` is running when its stop function is called, and no
start of `n` is still checking when `stop()` writes its final state. -/
def NoStartInFlight (n : String) (w : World ε) : Action ε → Prop
  | .stopper _ =>
    (w.stopper.Calling n → ∀ i, ¬ (w.threads i).Starting n) ∧
    (w.stopper.Settling n → ∀ i, ¬ (w.threads i).Checking n)
  | _ => True

theorem quiet_of_threadEffect {n : String} {i : Nat} {w w' : World ε} (hq : Quiet n w)
    (he : (w.threads i).Entering n → ¬ w.stopper.Begun) (h : ThreadEffect n i w w') :
    Quiet n w' := by
  have hstart : n ∈ w.stopCalled → ¬ (w'.threads i).Starting n :=
    fun hn hs => he (h.starting hs) (hq.begun hn)
  have hcheck : n ∈ w.settled → ¬ (w'.threads i).Checking n := by
    intro hn hc
    rcases h.checking hc with hs | hc
    · exact hq.noStart (hq.settled hn) i hs
    · exact hq.noCheck hn i hc
  refine ⟨?_, ?_, ?_, ?_, ?_, ?_, ?_⟩
  · rw [h.stopCalled, h.stopper]; exact hq.begun
  · rw [h.stopCalled, h.stopper]; exact hq.called
  · rw [h.stopCalled]
    intro hn j
    by_cases hj : j = i
    · subst hj; exact hstart hn
    · rw [h.others j hj]; exact hq.noStart hn j
  · rw [h.stopCalled]
    intro hn
    rcases h.calls with hc | hc | hs
    · rw [hc]; exact hq.stopLast hn
    · rw [hc]; exact stopAfterStarts_startRaised (hq.stopLast hn)
    · exact absurd hs (hq.noStart hn i)
  · rw [h.stopCalled, h.settled]; exact hq.settled
  · rw [h.settled]
    intro hn j
    by_cases hj : j = i
    · subst hj; exact hcheck hn
    · rw [h.others j hj]; exact hq.noCheck hn j
  · rw [h.settled]
    intro hn hr
    rcases h.running hr with hr | hc
    · exact hq.notRunning hn hr
    · exact hq.noCheck hn i hc

/-- A step of the stop call that leaves threads and histories alone and writes
no RUNNING. -/
theorem quiet_of_stopMove {n : String} {w w' : World ε} (hq : Quiet n w)
    (hthreads : w'.threads = w.threads) (hcalled : w'.stopCalled = w.stopCalled)
    (hsettled : w'.settled = w.settled)
    (hcalls : (w'.containers n).calls = (w.containers n).calls)
    (hstate : w'.state n = .running → w.state n = .running)
    (hbegun : w'.stopper.Begun) (hstop : w'.stopper.Called n → n ∈ w.stopCalled) :
    Quiet n w' := by
  refine ⟨fun _ => hbegun, ?_, ?_, ?_, ?_, ?_, ?_⟩
  · rw [hcalled]; exact hstop
  · rw [hcalled, hthreads]; exact hq.noStart
  · rw [hcalled, hcalls]; exact hq.stopLast
  · rw [hcalled, hsettled]; exact hq.settled
  · rw [hsettled, hthreads]; exact hq.noCheck
  · rw [hsettled]; exact fun hn hr => hq.notRunning hn (hstate hr)

theorem quiet_of_stopCall {n m : String} {w : World ε} {rest : List String} (hq : Quiet n w)
    (hstart : m = n → ∀ i, ¬ (w.threads i).Starting n) :
    Quiet n { w.record m .stop with stopper := .inStop m rest, stopCalled := m :: w.stopCalled } := by
  by_cases hm : m = n
  · subst hm
    refine ⟨fun _ => trivial, fun _ => List.mem_cons_self .., fun _ => hstart rfl, fun _ => ?_,
      fun hn => List.mem_cons_of_mem _ (hq.settled hn), hq.noCheck, fun hn => ?_⟩
    · simpa [World.record] using stopAfterStarts_stop _
    · simpa [World.record, World.state] using hq.notRunning hn
  · have hmem : n ∈ m :: w.stopCalled ↔ n ∈ w.stopCalled := by simp [Ne.symm hm]
    have hc : (w.record m .stop).containers n = w.containers n := w.update_ne (Ne.symm hm) _
    refine ⟨fun _ => trivial, fun h => absurd h hm, ?_, ?_, ?_, hq.noCheck, ?_⟩
    · rw [hmem]; exact hq.noStart
    · rw [hmem]; simpa only [hc] using hq.stopLast
    · rw [hmem]; exact hq.settled
    · intro hn
      simpa only [World.state, hc] using hq.notRunning hn

theorem quiet_of_settle {n m : String} {w : World ε} (hq : Quiet n w)
    (hcheck : m = n → ∀ i, ¬ (w.threads i).Checking n) (hcalled : m = n → n ∈ w.stopCalled)
    (hstate : m = n → w.state n ≠ .running) :
    Quiet n { w with settled := m :: w.settled } := by
  refine ⟨hq.begun, hq.called, hq.noStart, hq.stopLast, ?_, ?_, ?_⟩ <;> intro hn <;>
    rcases List.mem_cons.mp hn with rfl | hn
  · exact hcalled rfl
  · exact hq.settled hn
  · exact hcheck rfl
  · exact hq.noCheck hn
  · exact hstate rfl
  · exact hq.notRunning hn

theorem write_calls (n m : String) (w : World ε) (s : ServiceState) :
    ((w.write m s).containers n).calls = (w.containers n).calls := by
  by_cases hm : n = m
  · subst hm; simp [World.write]
  · rw [World.write, w.update_ne hm]

theorem write_state_running {n m : String} {w : World ε} {s : ServiceState} (hs : s ≠ .running)
    (h : (w.write m s).state n = .running) : w.state n = .running := by
  by_cases hm : n = m
  · subst hm; exact absurd (by simpa [World.state, World.write] using h) hs
  · rwa [World.state, World.write, w.update_ne hm] at h

theorem write_state_self (n : String) (w : World ε) (s : ServiceState) :
    (w.write n s).state n = s := by
  simp [World.state, World.write]

/-- The last write of `stop()`: the container gets state `s` and has settled. -/
theorem quiet_of_lastWrite {n m : String} {w : World ε} {s : ServiceState} {p : StopPoint ε}
    (hq : Quiet n w) (hs : s ≠ .running) (hp : w.stopper.Settling m)
    (hok : w.stopper.Settling n → ∀ i, ¬ (w.threads i).Checking n) (hbegun : p.Begun)
    (hstop : ¬ p.Called n) :
    Quiet n { w.write m s with stopper := p, settled := m :: w.settled } := by
  have hmove : Quiet n { w.write m s with stopper := p } :=
    quiet_of_stopMove hq rfl rfl rfl (write_calls n m w s) (write_state_running hs) hbegun
      (fun h => absurd h hstop)
  refine quiet_of_settle hmove ?_ ?_ ?_
  · rintro rfl; exact hok hp
  · rintro rfl
    apply hq.called
    cases hw : w.stopper <;> simp_all [StopPoint.Settling, StopPoint.Called]
  · rintro rfl
    have : (w.write m s).state m ≠ .running := by rw [write_state_self]; exact hs
    exact this

theorem stopStep_quiet {n : String} {w w' : World ε} {o : Outcome ε} (hq : Quiet n w)
    (hok : NoStartInFlight n w (.stopper o)) (h : stopStep w o = some w') : Quiet n w' := by
  obtain ⟨hcalling, hsettling⟩ := hok
  unfold stopStep at h
  split at h
  case h_1 | h_2 =>
    cases h
    exact quiet_of_stopMove hq rfl rfl rfl rfl id trivial (by simp [StopPoint.Called])
  case h_3 =>
    cases h
    refine quiet_of_stopMove hq rfl rfl rfl rfl id ?_ ?_ <;> dsimp only <;> split <;>
      simp [StopPoint.Begun, StopPoint.Called]
  case h_4 m rest hp =>
    cases h
    exact quiet_of_stopMove hq rfl rfl rfl (write_calls n m w _) (write_state_running (by decide))
      trivial (by simp [StopPoint.Called])
  case h_5 m rest hp =>
    cases h
    exact quiet_of_stopCall hq fun hm => hcalling (by rw [hp]; exact hm)
  case h_6 m rest hp =>
    have hc : m = n → n ∈ w.stopCalled := fun hm => hq.called (by rw [hp]; exact hm)
    split at h <;> cases h <;> exact quiet_of_stopMove hq rfl rfl rfl rfl id trivial hc
  case h_7 m rest hp =>
    cases h
    exact quiet_of_lastWrite hq (by decide) (by rw [hp]; rfl) hsettling trivial
      (by simp [StopPoint.Called])
  case h_8 m rest e hp =>
    cases h
    exact quiet_of_lastWrite hq (by decide) (by rw [hp]; rfl) hsettling trivial
      (by simp [StopPoint.Called])
  case h_9 m rest e hp =>
    cases h
    have hsame : ((w.addError m e).containers n).calls = (w.containers n).calls ∧
        (w.addError m e).state n = w.state n := by
      by_cases hm : n = m
      · subst hm; simp [World.state, World.addError]
      · simp [World.state, World.addError, w.update_ne hm]
    exact quiet_of_stopMove hq rfl rfl rfl hsame.1 (fun hr => hsame.2 ▸ hr) trivial
      (by simp [StopPoint.Called])
  case h_10 => cases h

theorem step_quiet {n : String} {w w' : World ε} {a : Action ε} (hq : Quiet n w)
    (hearly : EarlyStart n w a) (hok : NoStartInFlight n w a) (h : step w a = some w') :
    Quiet n w' := by
  cases a with
  | thread i o => exact quiet_of_threadEffect hq hearly (threadStep_effect n h)
  | timeout i =>
    refine quiet_of_threadEffect hq ?_ (timeoutStep_effect n h)
    intro he
    -- a polling thread is not about to start anything
    cases hp : w.threads i <;> simp_all [Point.Entering, step, timeoutStep]
  | stopper o => exact stopStep_quiet hq hok h

/-! ## Runs -/

/-- The stop call has not begun. -/
structure Initial (w : World ε) : Prop where
  notBegun : ¬ w.stopper.Begun
  stopCalled : w.stopCalled = []
  settled : w.settled = []

theorem initial_quiet {w : World ε} (h : Initial w) (n : String) : Quiet n w := by
  refine ⟨?_, ?_, ?_, ?_, ?_, ?_, ?_⟩ <;> simp only [h.stopCalled, h.settled] <;> try simp
  have hb := h.notBegun
  cases hp : w.stopper <;> simp_all [StopPoint.Begun, StopPoint.Called]

/-- **Shutdown wins over starts that are not in flight.** Let all starts of `n`
enter STARTING before the stop call begins. If none of them is inside the start
function when the stop function is called, and none is still checking when
`stop()` writes its final state, then in the end `n` is not RUNNING and its stop
function was called after every successful return of its start function. -/
theorem stopped_of_noStartInFlight {w₀ w : World ε} {es : List (Event (World ε) (Action ε))}
    {n : String} (h₀ : Initial w₀) (h : Run step w₀ es w) (hearly : Guarded (EarlyStart n) es)
    (hok : Guarded (NoStartInFlight n) es) (hstopped : n ∈ w.settled) :
    w.state n ≠ .running ∧ StopAfterStarts (w.containers n).calls := by
  have hboth : Guarded (fun w a => EarlyStart n w a ∧ NoStartInFlight n w a) es :=
    fun e he => ⟨hearly e he, hok e he⟩
  have hq : Quiet n w :=
    h.invariant (initial_quiet h₀ n) (fun _ _ _ hq hg hs => step_quiet hq hg.1 hg.2 hs) hboth
  exact ⟨hq.notRunning hstopped, hq.stopLast (hq.settled hstopped)⟩

def quietService : Service := ⟨"sqs", .function, false, true, true⟩

/-- One `start()` call of `sqs` beside `stop_services(["sqs"])`. -/
def oneStart : World Nat where
  containers := fun _ => .new quietService .available
  locks := fun _ => false
  threads := fun i => if i = 0 then .startEnter "sqs" false else .done
  stopper := .notStarted ["sqs"]
  stopCalled := []
  settled := []

/-- The stop call runs to its end while the start function is still running. -/
theorem stop_during_start_loses :
    ∃ es, ∃ w : World Nat, Run step oneStart es w ∧ Guarded (EarlyStart "sqs") es ∧
      w.stopper = .returned ∧ (∀ i, w.threads i = .done) ∧ "sqs" ∈ w.settled ∧
      w.state "sqs" = .running ∧ (w.containers "sqs").calls = [.started, .stop] := by
  have hr : Run step oneStart _ _ :=
    (((((((((((Run.nil.snoc (a := .thread 0 .returns) rfl).snoc (a := .stopper .returns) rfl).snoc
      (a := .stopper .returns) rfl).snoc (a := .stopper .returns) rfl).snoc
      (a := .stopper .returns) rfl).snoc (a := .stopper .returns) rfl).snoc
      (a := .stopper .returns) rfl).snoc (a := .stopper .returns) rfl).snoc
      (a := .thread 0 .returns) rfl).snoc (a := .thread 0 .returns) rfl).snoc
      (a := .thread 0 .returns) rfl).snoc (a := .thread 0 .returns) rfl
  refine ⟨_, _, hr, ?_, rfl, ?_, by decide, rfl, rfl⟩
  · iterate 11 refine (guarded_snoc _ _).mpr ⟨?_, by first | exact trivial | exact False.elim⟩
    exact (guarded_snoc _ _).mpr ⟨guarded_nil _, fun _ => id⟩
  · intro i
    by_cases hi : i = 0
    · subst hi; rfl
    · simp [World.goto, World.write, World.update, World.record, oneStart, hi]

/-! ### Finitely many calls -/

/-- All calls but the first `k` are over. -/
def AllDoneFrom (k : Nat) (w : World ε) : Prop := ∀ i, k ≤ i → w.threads i = .done

theorem stopStep_threads {w w' : World ε} {o : Outcome ε} (h : stopStep w o = some w') :
    w'.threads = w.threads := by
  unfold stopStep at h
  split at h
  case h_6 => split at h <;> cases h <;> rfl
  case h_10 => cases h
  all_goals
    cases h
    rfl

theorem allDoneFrom_step {k : Nat} {w : World ε} {a : Action ε} {w' : World ε}
    (hk : AllDoneFrom k w) (h : step w a = some w') : AllDoneFrom k w' := by
  have hothers : ∀ i, ThreadEffect "" i w w' → w.threads i ≠ .done → AllDoneFrom k w' := by
    intro i heffect hi j hj
    rw [heffect.others j fun hji => hi (hji ▸ hk j hj)]
    exact hk j hj
  cases a with
  | thread i o =>
    refine hothers i (threadStep_effect "" h) fun hdone => ?_
    simp [step, threadStep, hdone] at h
  | timeout i =>
    refine hothers i (timeoutStep_effect "" h) fun hdone => ?_
    simp [step, timeoutStep, hdone] at h
  | stopper o =>
    intro j hj
    rw [stopStep_threads h]
    exact hk j hj

instance (n : String) (p : Point ε) : Decidable (p.Entering n) := by
  cases p <;> unfold Point.Entering <;> infer_instance

instance (n : String) (p : Point ε) : Decidable (p.Starting n) := by
  cases p <;> unfold Point.Starting <;> infer_instance

instance (n : String) (p : Point ε) : Decidable (p.Checking n) := by
  cases p <;> unfold Point.Checking <;> infer_instance

instance (p : StopPoint ε) : Decidable p.Begun := by
  cases p <;> unfold StopPoint.Begun <;> infer_instance

instance (n : String) (p : StopPoint ε) : Decidable (p.Calling n) := by
  cases p <;> unfold StopPoint.Calling <;> infer_instance

instance (n : String) (p : StopPoint ε) : Decidable (p.Settling n) := by
  cases p <;> unfold StopPoint.Settling <;> infer_instance

/-- Both conditions of a step, where only the first `k` calls matter. -/
def Timely (k : Nat) (n : String) (w : World ε) : Action ε → Prop
  | .thread i _ => (w.threads i).Entering n → ¬ w.stopper.Begun
  | .timeout _ => True
  | .stopper _ =>
    (w.stopper.Calling n → ∀ i < k, ¬ (w.threads i).Starting n) ∧
    (w.stopper.Settling n → ∀ i < k, ¬ (w.threads i).Checking n)

instance (k : Nat) (n : String) (w : World ε) (a : Action ε) : Decidable (Timely k n w a) := by
  cases a <;> unfold Timely <;> infer_instance

theorem early_of_timely {k : Nat} {n : String} {w : World ε} {a : Action ε}
    (h : Timely k n w a) : EarlyStart n w a := by
  cases a with
  | thread => exact h
  | _ => trivial

theorem noStartInFlight_of_timely {k : Nat} {n : String} {w : World ε} {a : Action ε}
    (hk : AllDoneFrom k w) (h : Timely k n w a) : NoStartInFlight n w a := by
  have hlater : ∀ {P : Point ε → Prop}, ¬P .done → (∀ i < k, ¬P (w.threads i)) →
      ∀ i, ¬P (w.threads i) := by
    intro P hdone hbelow i
    rcases Nat.lt_or_ge i k with hi | hi
    · exact hbelow i hi
    · rw [hk i hi]
      exact hdone
  cases a with
  | stopper =>
    exact ⟨fun hc => @hlater (Point.Starting n) id (h.1 hc),
      fun hs => @hlater (Point.Checking n) id (h.2 hs)⟩
  | _ => trivial

/-- Two `start()` calls and one `require("sqs")` beside `stop_services(["sqs"])`. -/
def threeCalls : World Nat where
  containers := fun _ => .new quietService .available
  locks := fun _ => false
  threads
    | 0 | 1 => .startEnter "sqs" false
    | 2 => .requireStarting "sqs"
    | _ => .done
  stopper := .notStarted ["sqs"]
  stopCalled := []
  settled := []

/-- The stop call begins inside the second start, which writes RUNNING while the stop function
is running; the call of `require` waits for both of them in vain. -/
def overlapping : List (Action Nat) :=
  let start : List (Action Nat) := [.thread 0 .returns, .thread 2 .returns, .thread 1 .returns,
    .thread 0 .returns, .thread 0 .returns, .thread 0 .returns, .thread 2 .returns]
  let stop : List (Action Nat) := [.stopper .returns, .thread 0 .returns, .stopper .returns,
    .stopper .returns, .thread 2 .returns, .thread 1 .returns, .stopper .returns,
    .thread 1 .returns, .thread 1 .returns, .stopper .returns, .timeout 2, .stopper .returns,
    .thread 1 .returns, .stopper .returns]
  start ++ stop

theorem stop_after_start_wins :
    ∃ es, ∃ w : World Nat, Run step threeCalls es w ∧ es.map Event.label = overlapping ∧
      w.stopper = .returned ∧ (w.containers "sqs").calls = [.stop, .started, .started] ∧
      w.state "sqs" ≠ .running ∧ StopAfterStarts (w.containers "sqs").calls := by
  obtain ⟨es, w, hr, hok, hl, hw⟩ := @exists_guarded_run _ _ step threeCalls _
    (Timely 3 "sqs") _ (fun w => (w.stopper, (w.containers "sqs").calls, w.settled))
    overlapping (.returned, [.stop, .started, .started], ["sqs"]) (by rfl)
  simp only [Prod.mk.injEq] at hw
  obtain ⟨hreturned, hcalls, hsettled⟩ := hw
  have hinit : AllDoneFrom 3 threeCalls := fun i hi => by
    match i, hi with
    | i + 3, _ => rfl
  have hall := hr.keeps_always hinit fun _ _ _ hk hs => allDoneFrom_step hk hs
  have hearly : Guarded (EarlyStart "sqs") es := fun e he => early_of_timely (hok e he)
  have hflight : Guarded (NoStartInFlight "sqs") es := fun e he =>
    noStartInFlight_of_timely (hr.pre_of_always hall he) (hok e he)
  exact ⟨es, w, hr, hl, hreturned, hcalls,
    stopped_of_noStartInFlight ⟨id, rfl, rfl⟩ hr hearly hflight (by simp [hsettled])⟩

end LocalStack.Services.Shutdown
