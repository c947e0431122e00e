import LocalStack.Lib.RLock
import LocalStack.Lib.Runs

/-! `Server` of `utils/serving.py` under any number of threads. Every access to the
events, to `_thread` and to the lifecycle lock is one step. `do_run` and `do_shutdown`
are code of a subclass and may call the server again, from the thread they run in. -/

namespace LocalStack.Utils.Serving
open LocalStack.Runs

/-- The methods that read or change the lifecycle. -/
inductive Method
  | start
  | shutdown
  | is_running

/-- How a call ended. `attributeError` is reading `running` of a `_thread` that is `None`. -/
inductive Return
  | start (first : Bool)
  | startFailed
  | shutdown
  | shutdownFailed
  | notStarted
  | running (b : Bool)
  | attributeError
deriving DecidableEq

/-- Where a call stands; `leave` releases the lock. The last two are the thread that
`do_start_thread` has started. -/
inductive Point
  | acquireStart
  | startedStart
  | doStartThread
  | storeThread (thread : Nat)
  | setStarted
  | acquireShutdown
  | startedShutdown
  | stoppedShutdown
  | stopThread
  | setStopped
  | doShutdown
  | leave (r : Return)
  | startedRunning
  | stoppedRunning
  | threadRunning
  | doRun
  | finallyStopped

/-- Between `__enter__` and `__exit__` of the lifecycle lock. -/
def Point.inside : Point → Bool
  | .startedStart | .doStartThread | .storeThread _ | .setStarted => true
  | .startedShutdown | .stoppedShutdown | .stopThread | .setStopped | .doShutdown => true
  | .leave _ => true
  | _ => false

/-- Code of the subclass, from which calls are made. -/
def Point.user : Point → Bool
  | .doShutdown | .doRun => true
  | _ => false

/-- `stopEvent` has the `_stop_event` of every `FuncThread`. What was started, how often
`do_shutdown` was called and what the calls returned is kept in the last three fields. -/
structure World where
  thread : Option Nat
  stopEvent : Nat → Bool
  started : Bool
  stopped : Bool
  lock : RLock
  frames : Nat → List Point
  spawned : List Nat
  shutdowns : Nat
  returned : List Return

/-- What code outside of the class does: `do_start_thread` may fail, and `do_run` and
`do_shutdown` may raise. -/
inductive Outcome
  | returns
  | raises
  | spawns (thread : Nat)

inductive Action
  | call (thread : Nat) (method : Method)
  | move (thread : Nat) (outcome : Outcome)

def Method.entry : Method → Point
  | .start => .acquireStart
  | .shutdown => .acquireShutdown
  | .is_running => .startedRunning

namespace World

def setStack (w : World) (t : Nat) (l : List Point) : World :=
  { w with frames := Function.update w.frames t l }

/-- The call on top of `rest` ends. -/
def finish (w : World) (t : Nat) (rest : List Point) (r : Return) : World :=
  { w with returned := w.returned ++ [r] }.setStack t rest

end World

/-- The innermost call of thread `t` goes on from `p`. -/
def move (w : World) (t : Nat) (o : Outcome) (p : Point) (rest : List Point) : Option World :=
  match p with
  | .acquireStart =>
    (w.lock.acquire t).map fun l => { w with lock := l }.setStack t (.startedStart :: rest)
  | .startedStart =>
    some (w.setStack t ((if w.started then .leave (.start false) else .doStartThread) :: rest))
  | .doStartThread =>
    match o with
    | .spawns n =>
      if w.frames n = [] ∧ n ∉ w.spawned then
        some (({ w with spawned := w.spawned ++ [n] }.setStack n [.doRun]).setStack t
          (.storeThread n :: rest))
      else none
    | .raises => some (w.setStack t (.leave .startFailed :: rest))
    | .returns => none
  | .storeThread n => some ({ w with thread := some n }.setStack t (.setStarted :: rest))
  | .setStarted => some ({ w with started := true }.setStack t (.leave (.start true) :: rest))
  | .acquireShutdown =>
    (w.lock.acquire t).map fun l => { w with lock := l }.setStack t (.startedShutdown :: rest)
  | .startedShutdown =>
    some (w.setStack t ((if w.started then .stoppedShutdown else .leave .notStarted) :: rest))
  | .stoppedShutdown =>
    some (w.setStack t ((if w.stopped then .leave .shutdown else .stopThread) :: rest))
  | .stopThread =>
    match w.thread with
    | some n =>
      some ({ w with stopEvent := Function.update w.stopEvent n true }.setStack t
        (.setStopped :: rest))
    | none => some (w.setStack t (.leave .attributeError :: rest))
  | .setStopped =>
    some ({ w with stopped := true, shutdowns := w.shutdowns + 1 }.setStack t (.doShutdown :: rest))
  | .doShutdown =>
    match o with
    | .returns => some (w.setStack t (.leave .shutdown :: rest))
    | .raises => some (w.setStack t (.leave .shutdownFailed :: rest))
    | .spawns _ => none
  | .leave r => some ({ w with lock := w.lock.release }.finish t rest r)
  | .startedRunning =>
    some (if w.started then w.setStack t (.stoppedRunning :: rest)
      else w.finish t rest (.running false))
  | .stoppedRunning =>
    some (if w.stopped then w.finish t rest (.running false)
      else w.setStack t (.threadRunning :: rest))
  | .threadRunning =>
    match w.thread with
    | some n => some (w.finish t rest (.running !w.stopEvent n))
    | none => some (w.finish t rest .attributeError)
  | .doRun => some (w.setStack t (.finallyStopped :: rest))
  | .finallyStopped => some ({ w with stopped := true }.setStack t rest)

def step (w : World) (a : Action) : Option World :=
  match a with
  | .call t m =>
    match w.frames t with
    | [] => some (w.setStack t [m.entry])
    | p :: rest => if p.user then some (w.setStack t (m.entry :: p :: rest)) else none
  | .move t o =>
    match w.frames t with
    | [] => none
    | p :: rest => move w t o p rest

def Action.thread : Action → Nat
  | .call t _ | .move t _ => t

/-! ## The lifecycle -/

/-- The thread that was started is the one that calls read. -/
def World.Stored (w : World) : Prop := ∃ n, w.thread = some n ∧ w.spawned = [n]

/-- The thread was told to stop. -/
def World.Told (w : World) : Prop := ∃ n, w.thread = some n ∧ w.stopEvent n = true

/-- What a call that ended so has seen. -/
def Return.Fits (w : World) : Return → Prop
  | .start _ | .running true => w.started = true
  | .shutdown | .shutdownFailed => w.started = true ∧ w.stopped = true
  | .attributeError => False
  | _ => True

/-- One thread is started and by one call; `do_shutdown` is called once at most, and only
after the thread was told to stop; nothing is read before it is there. -/
structure Sound (w : World) : Prop where
  one_thread : w.spawned.length ≤ 1
  one_start : w.returned.count (.start true) ≤ 1
  one_shutdown : w.shutdowns ≤ 1
  shutdown_last : 0 < w.shutdowns → w.started = true ∧ w.stopped = true ∧ w.Told
  returned : ∀ r ∈ w.returned, r.Fits w

structure Initial (w : World) : Prop where
  thread : w.thread = none
  stopEvent : ∀ n, w.stopEvent n = false
  started : w.started = false
  stopped : w.stopped = false
  lock : w.lock = .free
  frames : ∀ t, w.frames t = []
  spawned : w.spawned = []
  shutdowns : w.shutdowns = 0
  returned : w.returned = []

/-! ## What holds in every run -/

/-- Between the start of the thread and the event. -/
def Point.Starting : Point → Prop
  | .storeThread _ | .setStarted => True
  | _ => False

/-- What is known at a point. -/
def Point.Fits (w : World) : Point → Prop
  | .doStartThread => w.started = false ∧ w.spawned = []
  | .storeThread n => w.started = false ∧ w.spawned = [n]
  | .setStarted => w.started = false ∧ w.Stored
  | .stoppedShutdown | .stoppedRunning | .threadRunning => w.started = true
  | .stopThread => w.started = true ∧ w.shutdowns = 0
  | .setStopped => w.started = true ∧ w.shutdowns = 0 ∧ w.Told
  | .doShutdown => w.started = true ∧ w.stopped = true
  | .leave r =>
    r.Fits w ∧ (r = .start true → w.returned.count (.start true) = 0) ∧ r ≠ .running true
  | _ => True

structure Invariant (w : World) : Prop where
  held : RLock.Held Point.inside w.frames w.lock
  below : ∀ t, ∀ p ∈ (w.frames t).tail, p.user = true
  point : ∀ t, ∀ p ∈ w.frames t, p.Fits w
  idle : w.started = false → w.spawned = [] ∨ ∃ t, ∃ p ∈ w.frames t, p.Starting
  begun : w.started = true → w.Stored
  unreturned : w.started = false → w.returned.count (.start true) = 0
  one_start : w.returned.count (.start true) ≤ 1
  one_shutdown : w.shutdowns ≤ 1
  shutdown_last : 0 < w.shutdowns → w.started = true ∧ w.stopped = true ∧ w.Told
  returned : ∀ r ∈ w.returned, r.Fits w

variable {w w' : World} {t : Nat} {p q : Point} {rest : List Point}

theorem Initial.invariant (h : Initial w) : Invariant w := by
  constructor
  · rw [h.lock]
    exact RLock.held_free h.frames
  · simp [h.frames]
  · simp [h.frames]
  · exact fun _ => .inl h.spawned
  · simp [h.started]
  · simp [h.returned]
  · simp [h.returned]
  · simp [h.shutdowns]
  · simp [h.shutdowns]
  · simp [h.returned]

/-- Events are never cleared. -/
structure Grows (w w' : World) : Prop where
  started : w.started = true → w'.started = true
  stopped : w.stopped = true → w'.stopped = true

/-- Nothing that only calls inside the lock change has changed. -/
structure Same (w w' : World) : Prop where
  thread : w'.thread = w.thread
  stopEvent : w'.stopEvent = w.stopEvent
  started : w'.started = w.started
  stopped : w.stopped = true → w'.stopped = true
  spawned : w'.spawned = w.spawned
  shutdowns : w'.shutdowns = w.shutdowns
  count : w'.returned.count (.start true) = w.returned.count (.start true)

theorem Same.grows (h : Same w w') : Grows w w' := ⟨fun hs => h.started.trans hs, h.stopped⟩

theorem Same.stored (h : Same w w') : w'.Stored ↔ w.Stored := by
  simp [World.Stored, h.thread, h.spawned]

theorem Same.told (h : Same w w') : w'.Told ↔ w.Told := by
  simp [World.Told, h.thread, h.stopEvent]

theorem Return.Fits.of_grows {r : Return} (h : r.Fits w) (hg : Grows w w') : r.Fits w' := by
  cases r with
  | start first => exact hg.started h
  | running b =>
    cases b with
    | false => trivial
    | true => exact hg.started h
  | shutdown => exact ⟨hg.started h.1, hg.stopped h.2⟩
  | shutdownFailed => exact ⟨hg.started h.1, hg.stopped h.2⟩
  | attributeError => exact h
  | startFailed => trivial
  | notStarted => trivial

/-- What a call outside the lock knows, or one in the code of the subclass, is not undone. -/
theorem Point.Fits.of_grows (h : q.Fits w) (hq : q.inside = false ∨ q.user = true)
    (hg : Grows w w') : q.Fits w' := by
  cases q with
  | stoppedRunning => exact hg.started h
  | threadRunning => exact hg.started h
  | doShutdown => exact ⟨hg.started h.1, hg.stopped h.2⟩
  | acquireStart => trivial
  | acquireShutdown => trivial
  | startedRunning => trivial
  | doRun => trivial
  | finallyStopped => trivial
  | _ => simp [inside, user] at hq

theorem Point.Fits.of_same (h : q.Fits w) (hsame : Same w w') : q.Fits w' := by
  cases q with
  | doStartThread => exact ⟨hsame.started.trans h.1, hsame.spawned.trans h.2⟩
  | storeThread n => exact ⟨hsame.started.trans h.1, hsame.spawned.trans h.2⟩
  | setStarted => exact ⟨hsame.started.trans h.1, hsame.stored.mpr h.2⟩
  | stoppedShutdown => exact hsame.started.trans h
  | stopThread => exact ⟨hsame.started.trans h.1, hsame.shutdowns.trans h.2⟩
  | setStopped =>
    exact ⟨hsame.started.trans h.1, hsame.shutdowns.trans h.2.1, hsame.told.mpr h.2.2⟩
  | leave r => exact ⟨h.1.of_grows hsame.grows, fun hr => hsame.count.trans (h.2.1 hr), h.2.2⟩
  | startedStart => trivial
  | startedShutdown => trivial
  | _ => exact h.of_grows (by simp [inside, user]) hsame.grows

theorem Point.user_not_starting (h : q.user = true) : ¬q.Starting := by
  cases q with
  | doShutdown => exact id
  | doRun => exact id
  | _ => simp [user] at h

theorem Point.Starting.inside (h : q.Starting) : q.inside = true := by
  cases q with
  | storeThread n => rfl
  | setStarted => rfl
  | _ => exact h.elim

section Advance

variable {l : List Point}

/-- The stack of thread `t` is `l` above what was below its innermost call, and another
thread may have begun to run. -/
structure Moves (w w' : World) (t : Nat) (rest l : List Point) : Prop where
  length : l.length ≤ 1
  top : w'.frames t = l ++ rest
  others : ∀ t' ≠ t, w'.frames t' = w.frames t' ∨ w.frames t' = [] ∧ w'.frames t' = [.doRun]

theorem moves_update (hf : w'.frames = Function.update w.frames t (l ++ rest))
    (hl : l.length ≤ 1) : Moves w w' t rest l := by
  refine ⟨hl, by rw [hf, Function.update_self], fun t' ht => .inl ?_⟩
  rw [hf, Function.update_of_ne ht]

theorem Moves.countP (h : Moves w w' t rest l) {t' : Nat} (ht : t' ≠ t) :
    (w'.frames t').countP Point.inside = (w.frames t').countP Point.inside := by
  rcases h.others t' ht with he | ⟨he, he'⟩
  · rw [he]
  · rw [he, he']
    rfl

theorem Moves.held (h : Moves w w' t rest l) (hs : w.frames t = p :: rest)
    (hheld : RLock.Held Point.inside w.frames w.lock)
    (hl : l.countP Point.inside = if p.inside then 1 else 0) :
    RLock.Held Point.inside w'.frames w.lock := by
  refine hheld.of_count fun t' => ?_
  by_cases ht : t' = t
  · rw [ht, h.top, hs, List.countP_append, List.countP_cons, hl, Nat.add_comm]
  · exact h.countP ht

theorem Invariant.user_of_rest (h : Invariant w) (hs : w.frames t = p :: rest) (hq : q ∈ rest) :
    q.user = true :=
  h.below t q (by simpa [hs] using hq)

theorem Invariant.below_step (h : Invariant w) (hs : w.frames t = p :: rest)
    (hm : Moves w w' t rest l) (t' : Nat) : ∀ q ∈ (w'.frames t').tail, q.user = true := by
  by_cases ht : t' = t
  · subst ht
    rw [hm.top]
    intro q hq
    refine h.user_of_rest hs ?_
    have hlen := hm.length
    match l with
    | [] => exact List.mem_of_mem_tail hq
    | [_] => exact hq
    | _ :: _ :: _ => simp at hlen
  · rcases hm.others t' ht with he | ⟨-, he⟩
    · rw [he]
      exact h.below t'
    · simp [he]

/-- A step inside the lock meets no other call inside, and a step outside changes nothing
that those inside know. -/
theorem Invariant.point_step (h : Invariant w) (hs : w.frames t = p :: rest)
    (hm : Moves w w' t rest l) (hg : Grows w w') (hsame : p.inside = true ∨ Same w w')
    (hfit : ∀ q ∈ l, q.Fits w') (t' : Nat) : ∀ q ∈ w'.frames t', q.Fits w' := by
  have hp : p ∈ w.frames t := by simp [hs]
  by_cases ht : t' = t
  · subst ht
    rw [hm.top]
    intro q hq
    rcases List.mem_append.mp hq with hq | hq
    · exact hfit q hq
    · refine (h.point t' q ?_).of_grows (.inr (h.user_of_rest hs hq)) hg
      rw [hs]
      exact List.mem_cons_of_mem _ hq
  · intro q hq
    rcases hm.others t' ht with he | ⟨-, he⟩
    · rw [he] at hq
      rcases hsame with hi | hsame
      · refine (h.point t' q hq).of_grows (.inl ?_) hg
        by_contra hj
        exact ht (h.held.exclusive hp hi hq (by simpa using hj))
      · exact (h.point t' q hq).of_same hsame
    · rw [he, List.mem_singleton] at hq
      rw [hq]
      trivial

theorem Invariant.idle_step (h : Invariant w) (hs : w.frames t = p :: rest) (hp : ¬p.Starting)
    (hm : Moves w w' t rest l) (hspawned : w'.spawned = w.spawned) (hw : w.started = false) :
    w'.spawned = [] ∨ ∃ t, ∃ p ∈ w'.frames t, p.Starting := by
  rw [hspawned]
  refine (h.idle hw).imp_right ?_
  rintro ⟨t', q, hq, hst⟩
  have ht : t' ≠ t := by
    rintro rfl
    rw [hs] at hq
    rcases List.mem_cons.mp hq with rfl | hq
    · exact hp hst
    · exact Point.user_not_starting (h.user_of_rest hs hq) hst
  rcases hm.others t' ht with he | ⟨he, -⟩
  · exact ⟨t', q, he ▸ hq, hst⟩
  · simp [he] at hq

/-- A step that changes nothing but the stack, the lock and what was returned. -/
theorem Invariant.same (h : Invariant w) (hs : w.frames t = p :: rest) (hp : ¬p.Starting)
    (hm : Moves w w' t rest l) (hsame : Same w w') (hfit : ∀ q ∈ l, q.Fits w')
    (hheld : RLock.Held Point.inside w'.frames w'.lock)
    (hr : ∀ r ∈ w'.returned, r ∈ w.returned ∨ r.Fits w') : Invariant w' := by
  refine ⟨hheld, h.below_step hs hm, h.point_step hs hm hsame.grows (.inr hsame) hfit, ?_, ?_, ?_,
    ?_, ?_, ?_, ?_⟩
  · exact fun hw => h.idle_step hs hp hm hsame.spawned (hsame.started.symm.trans hw)
  · exact fun hw => hsame.stored.mpr (h.begun (hsame.started.symm.trans hw))
  · exact fun hw => hsame.count.trans (h.unreturned (hsame.started.symm.trans hw))
  · exact Nat.le_trans (Nat.le_of_eq hsame.count) h.one_start
  · exact Nat.le_trans (Nat.le_of_eq hsame.shutdowns) h.one_shutdown
  · intro hd
    obtain ⟨hst, hsp, htold⟩ := h.shutdown_last (hsame.shutdowns ▸ hd)
    exact ⟨hsame.started.trans hst, hsame.stopped hsp, hsame.told.mpr htold⟩
  · intro r hmem
    rcases hr r hmem with hmem | hf
    · exact (h.returned r hmem).of_grows hsame.grows
    · exact hf

/-- Another call comes to stand on top of the stack. -/
theorem Invariant.goto (h : Invariant w) (hs : w.frames t = p :: rest) (hp : ¬p.Starting)
    (hin : q.inside = p.inside) (hfit : q.Fits w) : Invariant (w.setStack t (q :: rest)) := by
  have hm : Moves w (w.setStack t (q :: rest)) t rest [q] := moves_update rfl (by simp)
  have hsame : Same w (w.setStack t (q :: rest)) := ⟨rfl, rfl, rfl, id, rfl, rfl, rfl⟩
  refine h.same hs hp hm hsame ?_ ?_ fun r hr => .inl hr
  · intro q' hq
    rw [List.mem_singleton.mp hq]
    exact hfit.of_same hsame
  · exact hm.held hs h.held (by simp [hin])

/-- A call outside the lock returns. -/
theorem Invariant.finish (h : Invariant w) (hs : w.frames t = p :: rest) (hp : ¬p.Starting)
    (hin : p.inside = false) {r : Return} (hfit : r.Fits w) (hr : r ≠ .start true) :
    Invariant (w.finish t rest r) := by
  have hm : Moves w (w.finish t rest r) t rest [] :=
    moves_update rfl (by simp)
  have hsame : Same w (w.finish t rest r) :=
    ⟨rfl, rfl, rfl, id, rfl, rfl, by simp [World.finish, World.setStack, hr]⟩
  refine h.same hs hp hm hsame (by simp) (hm.held hs h.held (by simp [hin])) ?_
  intro r' hr'
  rcases List.mem_append.mp hr' with hr' | hr'
  · exact .inl hr'
  · rw [List.mem_singleton.mp hr']
    exact .inr (hfit.of_grows hsame.grows)

theorem Invariant.enter (h : Invariant w) (hs : w.frames t = p :: rest) (hp : ¬p.Starting)
    {lock : RLock} (hl : w.lock.acquire t = some lock) (hin : p.inside = false)
    (hq : q.inside = true) (hfit : ∀ w, q.Fits w) :
    Invariant ({ w with lock := lock }.setStack t (q :: rest)) := by
  have hm : Moves w ({ w with lock := lock }.setStack t (q :: rest)) t rest [q] :=
    moves_update rfl (by simp)
  refine h.same hs hp hm ⟨rfl, rfl, rfl, id, rfl, rfl, rfl⟩ ?_ ?_ fun r hr => .inl hr
  · intro q' hq
    rw [List.mem_singleton.mp hq]
    exact hfit _
  · refine h.held.acquire hl ?_ fun t' ht => hm.countP ht
    rw [hm.top, hs]
    simp [hin, hq]

end Advance

/-- The lock is released, and the call returns. -/
theorem Invariant.leave (h : Invariant w) {r : Return} (hs : w.frames t = .leave r :: rest) :
    Invariant ({ w with lock := w.lock.release }.finish t rest r) := by
  have hm : Moves w ({ w with lock := w.lock.release }.finish t rest r) t rest [] :=
    moves_update rfl (by simp)
  obtain ⟨hfit, hfirst, -⟩ := h.point t (.leave r) (by simp [hs])
  have hg : Grows w ({ w with lock := w.lock.release }.finish t rest r) := ⟨id, id⟩
  have hcount : ((w.returned ++ [r]).count (.start true)) ≤ 1 := by
    by_cases hr : r = .start true
    · simp [hr, hfirst hr]
    · simpa [hr] using h.one_start
  refine ⟨?_, h.below_step hs hm, h.point_step hs hm hg (.inl rfl) (by simp), ?_, h.begun, ?_,
    hcount, h.one_shutdown, h.shutdown_last, ?_⟩
  · refine h.held.release ?_ fun t' ht => hm.countP ht
    rw [hm.top, hs, List.countP_cons_of_pos rfl, List.nil_append]
  · exact h.idle_step hs id hm rfl
  · intro hw
    have hr : r ≠ .start true := by
      rintro rfl
      exact absurd (hfit.symm.trans hw) (by simp)
    simpa [World.finish, World.setStack, hr] using h.unreturned hw
  · intro r' hr'
    rcases List.mem_append.mp hr' with hr' | hr'
    · exact (h.returned r' hr').of_grows hg
    · rw [List.mem_singleton.mp hr']
      exact hfit.of_grows hg

theorem Invariant.spawn (h : Invariant w) {n : Nat} (hs : w.frames t = .doStartThread :: rest)
    (hn : w.frames n = []) :
    Invariant (({ w with spawned := w.spawned ++ [n] }.setStack n [.doRun]).setStack t
      (.storeThread n :: rest)) := by
  have hne : n ≠ t := by
    rintro rfl
    simp [hn] at hs
  obtain ⟨hst, hsp⟩ := h.point t .doStartThread (by simp [hs])
  have hm : Moves w (({ w with spawned := w.spawned ++ [n] }.setStack n [.doRun]).setStack t
      (.storeThread n :: rest)) t rest [.storeThread n] := by
    refine ⟨by simp, by simp [World.setStack], fun t' ht => ?_⟩
    by_cases ht' : t' = n
    · exact .inr ⟨ht' ▸ hn, by simp [World.setStack, ht', Function.update_of_ne hne]⟩
    · exact .inl (by simp [World.setStack, Function.update_of_ne ht, Function.update_of_ne ht'])
  refine ⟨hm.held hs h.held rfl, h.below_step hs hm, ?_, fun _ => .inr ⟨t, .storeThread n, ?_, trivial⟩,
    fun hw => absurd (hst.symm.trans hw) (by simp), h.unreturned, h.one_start, h.one_shutdown,
    h.shutdown_last, h.returned⟩
  · refine h.point_step hs hm ⟨id, id⟩ (.inl rfl) fun q hq => ?_
    rw [List.mem_singleton.mp hq]
    exact ⟨hst, by simp [World.setStack, hsp]⟩
  · simp [World.setStack]

theorem Invariant.store (h : Invariant w) {n : Nat} (hs : w.frames t = .storeThread n :: rest) :
    Invariant ({ w with thread := some n }.setStack t (.setStarted :: rest)) := by
  obtain ⟨hst, hsp⟩ := h.point t (.storeThread n) (by simp [hs])
  have hm : Moves w ({ w with thread := some n }.setStack t (.setStarted :: rest)) t rest
      [.setStarted] := moves_update rfl (by simp)
  refine ⟨hm.held hs h.held rfl, h.below_step hs hm, ?_, fun _ => .inr ⟨t, .setStarted, ?_, trivial⟩,
    fun hw => absurd (hst.symm.trans hw) (by simp), h.unreturned, h.one_start, h.one_shutdown,
    ?_, h.returned⟩
  · refine h.point_step hs hm ⟨id, id⟩ (.inl rfl) fun q hq => ?_
    rw [List.mem_singleton.mp hq]
    exact ⟨hst, n, rfl, hsp⟩
  · simp [World.setStack]
  · exact fun hd => absurd (hst.symm.trans (h.shutdown_last hd).1) (by simp)

theorem Invariant.set_started (h : Invariant w) (hs : w.frames t = .setStarted :: rest) :
    Invariant ({ w with started := true }.setStack t (.leave (.start true) :: rest)) := by
  obtain ⟨hst, hstored⟩ := h.point t .setStarted (by simp [hs])
  have hm : Moves w ({ w with started := true }.setStack t (.leave (.start true) :: rest)) t rest
      [.leave (.start true)] := moves_update rfl (by simp)
  have hg : Grows w ({ w with started := true }.setStack t (.leave (.start true) :: rest)) :=
    ⟨fun _ => rfl, id⟩
  refine ⟨hm.held hs h.held rfl, h.below_step hs hm, ?_, ?_, fun _ => hstored, ?_, h.one_start,
    h.one_shutdown, fun hd => ⟨rfl, (h.shutdown_last hd).2⟩,
    fun r hr => (h.returned r hr).of_grows hg⟩
  · refine h.point_step hs hm hg (.inl rfl) fun q hq => ?_
    rw [List.mem_singleton.mp hq]
    exact ⟨rfl, fun _ => h.unreturned hst, by simp⟩
  · rintro ⟨⟩
  · rintro ⟨⟩

theorem Invariant.tell (h : Invariant w) {n : Nat} (hs : w.frames t = .stopThread :: rest)
    (hn : w.thread = some n) :
    Invariant ({ w with stopEvent := Function.update w.stopEvent n true }.setStack t
      (.setStopped :: rest)) := by
  obtain ⟨hst, hsd⟩ := h.point t .stopThread (by simp [hs])
  have hm : Moves w ({ w with stopEvent := Function.update w.stopEvent n true }.setStack t
      (.setStopped :: rest)) t rest [.setStopped] :=
    moves_update rfl (by simp)
  refine ⟨hm.held hs h.held rfl, h.below_step hs hm, ?_, h.idle_step hs id hm rfl, h.begun,
    h.unreturned, h.one_start, h.one_shutdown, ?_, h.returned⟩
  · refine h.point_step hs hm ⟨id, id⟩ (.inl rfl) fun q hq => ?_
    rw [List.mem_singleton.mp hq]
    exact ⟨hst, hsd, n, hn, by simp [World.setStack]⟩
  · exact fun hd => absurd (hsd ▸ hd) (by simp)

theorem Invariant.set_stopped (h : Invariant w) (hs : w.frames t = .setStopped :: rest) :
    Invariant ({ w with stopped := true, shutdowns := w.shutdowns + 1 }.setStack t
      (.doShutdown :: rest)) := by
  obtain ⟨hst, hsd, htold⟩ := h.point t .setStopped (by simp [hs])
  have hm : Moves w ({ w with stopped := true, shutdowns := w.shutdowns + 1 }.setStack t
      (.doShutdown :: rest)) t rest [.doShutdown] :=
    moves_update rfl (by simp)
  have hg : Grows w ({ w with stopped := true, shutdowns := w.shutdowns + 1 }.setStack t
      (.doShutdown :: rest)) := ⟨id, fun _ => rfl⟩
  refine ⟨hm.held hs h.held rfl, h.below_step hs hm, ?_, h.idle_step hs id hm rfl, h.begun,
    h.unreturned, h.one_start, ?_, fun _ => ⟨hst, rfl, htold⟩,
    fun r hr => (h.returned r hr).of_grows hg⟩
  · refine h.point_step hs hm hg (.inl rfl) fun q hq => ?_
    rw [List.mem_singleton.mp hq]
    exact ⟨hst, rfl⟩
  · simp [World.setStack, hsd]

theorem Invariant.set_finally (h : Invariant w) (hs : w.frames t = .finallyStopped :: rest) :
    Invariant ({ w with stopped := true }.setStack t rest) := by
  have hm : Moves w ({ w with stopped := true }.setStack t rest) t rest [] :=
    moves_update rfl (by simp)
  exact h.same hs id hm ⟨rfl, rfl, rfl, fun _ => rfl, rfl, rfl, rfl⟩ (by simp)
    (hm.held hs h.held rfl) fun r hr => .inl hr

/-- No second thread has been started where `_started` is not set under the lock. -/
theorem Invariant.unspawned (h : Invariant w) (hs : w.frames t = .startedStart :: rest)
    (hw : w.started = false) : w.spawned = [] := by
  refine (h.idle hw).resolve_right ?_
  rintro ⟨t', q, hq, hst⟩
  have hp : Point.startedStart ∈ w.frames t := by simp [hs]
  have ht : t' = t := h.held.exclusive hp rfl hq hst.inside
  subst ht
  rw [hs] at hq
  rcases List.mem_cons.mp hq with rfl | hq
  · exact hst
  · exact Point.user_not_starting (h.user_of_rest hs hq) hst

/-- Where `_stopped` is not set under the lock, `do_shutdown` was not called. -/
theorem Invariant.not_shut (h : Invariant w) (hw : w.stopped = false) : w.shutdowns = 0 := by
  by_contra hd
  exact absurd ((h.shutdown_last (Nat.pos_of_ne_zero hd)).2.1.symm.trans hw) (by simp)

theorem move_start_invariant (h : Invariant w) {o : Outcome}
    (hs : w.frames t = .doStartThread :: rest)
    (hm : move w t o .doStartThread rest = some w') : Invariant w' := by
  cases o with
  | returns => cases hm
  | raises =>
    cases hm
    exact h.goto hs id rfl ⟨trivial, by simp, by simp⟩
  | spawns n =>
    simp only [move] at hm
    split at hm
    · rename_i hn
      cases hm
      exact h.spawn hs hn.1
    · cases hm

theorem move_invariant (h : Invariant w) {o : Outcome} (hs : w.frames t = p :: rest)
    (hm : move w t o p rest = some w') : Invariant w' := by
  have hfit := h.point t p (by simp [hs])
  cases p with
  | acquireStart =>
    obtain ⟨l, hl, rfl⟩ := Option.map_eq_some_iff.mp hm
    exact h.enter hs id hl rfl rfl fun _ => trivial
  | startedStart =>
    cases hm
    split
    · rename_i hst
      exact h.goto hs id rfl ⟨hst, by simp, by simp⟩
    · rename_i hst
      have hw : w.started = false := by simpa using hst
      exact h.goto hs id rfl ⟨hw, h.unspawned hs hw⟩
  | doStartThread => exact move_start_invariant h hs hm
  | storeThread n =>
    cases hm
    exact h.store hs
  | setStarted =>
    cases hm
    exact h.set_started hs
  | acquireShutdown =>
    obtain ⟨l, hl, rfl⟩ := Option.map_eq_some_iff.mp hm
    exact h.enter hs id hl rfl rfl fun _ => trivial
  | startedShutdown =>
    cases hm
    split
    · rename_i hst
      exact h.goto hs id rfl hst
    · exact h.goto hs id rfl ⟨trivial, by simp, by simp⟩
  | stoppedShutdown =>
    cases hm
    split
    · rename_i hsp
      exact h.goto hs id rfl ⟨⟨hfit, hsp⟩, by simp, by simp⟩
    · rename_i hsp
      exact h.goto hs id rfl ⟨hfit, h.not_shut (by simpa using hsp)⟩
  | stopThread =>
    obtain ⟨n, hn, -⟩ := h.begun hfit.1
    rw [move, hn] at hm
    cases hm
    rw [← hn]
    exact h.tell hs hn
  | setStopped =>
    cases hm
    exact h.set_stopped hs
  | doShutdown =>
    cases o with
    | returns =>
      cases hm
      exact h.goto hs id rfl ⟨hfit, by simp, by simp⟩
    | raises =>
      cases hm
      exact h.goto hs id rfl ⟨hfit, by simp, by simp⟩
    | spawns n => cases hm
  | leave r =>
    cases hm
    exact h.leave hs
  | startedRunning =>
    cases hm
    split
    · rename_i hst
      exact h.goto hs id rfl hst
    · exact h.finish hs id rfl trivial (by simp)
  | stoppedRunning =>
    cases hm
    split
    · exact h.finish hs id rfl trivial (by simp)
    · exact h.goto hs id rfl hfit
  | threadRunning =>
    obtain ⟨n, hn, -⟩ := h.begun hfit
    rw [move, hn] at hm
    cases hm
    refine h.finish hs id rfl ?_ (by simp)
    cases w.stopEvent n with
    | false => exact hfit
    | true => trivial
  | doRun =>
    cases hm
    exact h.goto hs id rfl trivial
  | finallyStopped =>
    cases hm
    exact h.set_finally hs

/-- A thread that is idle or runs code of the subclass makes a call. -/
theorem call_invariant (h : Invariant w) (m : Method) (hu : ∀ p ∈ w.frames t, p.user = true) :
    Invariant (w.setStack t (m.entry :: w.frames t)) := by
  have hof : ∀ t', t' ≠ t → (w.setStack t (m.entry :: w.frames t)).frames t' = w.frames t' :=
    fun t' ht => Function.update_of_ne ht _ _
  have htop : (w.setStack t (m.entry :: w.frames t)).frames t = m.entry :: w.frames t :=
    Function.update_self _ _ _
  have hsame : Same w (w.setStack t (m.entry :: w.frames t)) := ⟨rfl, rfl, rfl, id, rfl, rfl, rfl⟩
  refine ⟨?_, fun t' => ?_, fun t' q hq => ?_, fun hw => ?_, h.begun, h.unreturned, h.one_start,
    h.one_shutdown, h.shutdown_last, fun r hr => (h.returned r hr).of_grows hsame.grows⟩
  · refine h.held.of_count fun t' => ?_
    by_cases ht : t' = t
    · subst ht
      rw [htop]
      cases m <;> rfl
    · rw [hof t' ht]
  · by_cases ht : t' = t
    · subst ht
      rw [htop]
      exact hu
    · rw [hof t' ht]
      exact h.below t'
  · by_cases ht : t' = t
    · subst ht
      rw [htop] at hq
      rcases List.mem_cons.mp hq with rfl | hq
      · cases m <;> trivial
      · exact (h.point t' q hq).of_same hsame
    · rw [hof t' ht] at hq
      exact (h.point t' q hq).of_same hsame
  · refine (h.idle hw).imp_right ?_
    rintro ⟨t', q, hq, hst⟩
    refine ⟨t', q, ?_, hst⟩
    by_cases ht : t' = t
    · subst ht
      rw [htop]
      exact List.mem_cons_of_mem _ hq
    · rwa [hof t' ht]

/-- Only code of the subclass is below a new call. -/
theorem step_call (h : Invariant w) {m : Method} (hs : step w (.call t m) = some w') :
    (∀ p ∈ w.frames t, p.user = true) ∧ w' = w.setStack t (m.entry :: w.frames t) := by
  simp only [step] at hs
  split at hs
  · rename_i hstack
    cases hs
    rw [hstack]
    exact ⟨by simp, rfl⟩
  · rename_i p rest hstack
    split at hs
    · rename_i hp
      cases hs
      refine ⟨fun q hq => ?_, by rw [hstack]⟩
      rw [hstack] at hq
      rcases List.mem_cons.mp hq with rfl | hq
      · exact hp
      · exact h.user_of_rest hstack hq
    · cases hs

theorem step_invariant {a : Action} (h : Invariant w) (hs : step w a = some w') :
    Invariant w' := by
  cases a with
  | call t m =>
    obtain ⟨hu, rfl⟩ := step_call h hs
    exact call_invariant h m hu
  | move t o =>
    simp only [step] at hs
    split at hs
    · cases hs
    · rename_i p rest hstack
      exact move_invariant h hstack hs

theorem Invariant.sound (h : Invariant w) : Sound w := by
  refine ⟨?_, h.one_start, h.one_shutdown, h.shutdown_last, h.returned⟩
  cases hw : w.started with
  | true =>
    obtain ⟨n, -, hn⟩ := h.begun hw
    simp [hn]
  | false =>
    rcases h.idle hw with hn | ⟨t, q, hq, hst⟩
    · simp [hn]
    · have hfit := h.point t q hq
      cases q with
      | storeThread n => simp [hfit.2]
      | setStarted =>
        obtain ⟨n, -, hn⟩ := hfit.2
        simp [hn]
      | _ => exact hst.elim

/-- **The lifecycle of a server.** Whatever its threads call and in whatever order they
move, also from `do_run` and `do_shutdown`, one thread is started at most, one call of
`start` returns true, and `do_shutdown` is called at most once and after the thread was
told to stop. A call that returns has seen what its result says. -/
theorem always_sound {w₀ : World} {es : List (Event World Action)} (h₀ : Initial w₀)
    (h : Run step w₀ es w) : Always Sound w₀ es := by
  have hinv := h.keeps_always h₀.invariant fun _ _ _ hi hs => step_invariant hi hs
  exact ⟨hinv.1.sound, fun e he => (hinv.2 e he).sound⟩

def unstarted : World :=
  ⟨none, fun _ => false, false, false, .free, fun _ => [], [], 0, []⟩

theorem unstarted_initial : Initial unstarted :=
  ⟨rfl, fun _ => rfl, rfl, rfl, rfl, fun _ => rfl, rfl, rfl, rfl⟩

/-- Thread 1 waits for the lock while thread 0 starts thread 7, which runs `do_run` and
calls `shutdown` from there. -/
def twoStarts : List Action :=
  .flatten [
    [.call 0 .start, .call 1 .start],
    .replicate 2 (.move 0 .returns),
    [.move 0 (.spawns 7), .call 7 .shutdown],
    .replicate 3 (.move 0 .returns),
    .replicate 3 (.move 1 .returns),
    .replicate 7 (.move 7 .returns),
    [.call 1 .is_running],
    .replicate 2 (.move 1 .returns)]

theorem two_starts_sound : ∃ es w, Run step unstarted es w ∧ Always Sound unstarted es ∧
    w.returned = [.start true, .start false, .shutdown, .running false] := by
  obtain ⟨es, w, hr, hw⟩ := @exists_run_of_replay _ _ step unstarted _ World.returned twoStarts
    [.start true, .start false, .shutdown, .running false] rfl
  exact ⟨es, w, hr, always_sound unstarted_initial hr, hw⟩

/-! ## After a shutdown -/

/-- Only a call of `is_running` that has its test of `_stopped` behind it can still find
the server running. -/
structure Down (w : World) : Prop where
  started : w.started = true
  stopped : w.stopped = true

/-- What a move from `p` leaves as it was. -/
structure Leaves (w w' : World) (t : Nat) (p : Point) : Prop where
  grows : Grows w w'
  thread : w'.thread = w.thread ∨ ∃ n, p = .storeThread n
  stopEvent : ∀ n, w.stopEvent n = true → w'.stopEvent n = true
  reads : w.stopped = true →
    ∀ t', .threadRunning ∈ w'.frames t' → t' ≠ t ∧ .threadRunning ∈ w.frames t'

theorem leaves_setStack {v : World} {l : List Point}
    (hg : Grows w v) (hthread : v.thread = w.thread ∨ ∃ n, p = .storeThread n)
    (hevent : ∀ n, w.stopEvent n = true → v.stopEvent n = true) (hframes : v.frames = w.frames)
    (hl : w.stopped = true → .threadRunning ∉ l) : Leaves w (v.setStack t l) t p := by
  refine ⟨⟨hg.started, hg.stopped⟩, hthread, hevent, fun hw t' hr => ?_⟩
  by_cases ht : t' = t
  · subst ht
    exact absurd (by simpa [World.setStack] using hr) (hl hw)
  · exact ⟨ht, by simpa [World.setStack, Function.update_of_ne ht, hframes] using hr⟩

theorem move_leaves {o : Outcome} (hs : w.frames t = p :: rest)
    (hrest : .threadRunning ∉ rest) (hm : move w t o p rest = some w') : Leaves w w' t p := by
  have hg : Grows w w := ⟨id, id⟩
  -- a step of a call that only changes the stack, the lock or what was returned
  have plain : ∀ {v : World} {q : Point}, v.thread = w.thread → v.stopEvent = w.stopEvent →
      Grows w v → v.frames = w.frames → (w.stopped = true → q ≠ .threadRunning) →
      Leaves w (v.setStack t (q :: rest)) t p := by
    intro v q hthread hevent hg hframes hq
    refine leaves_setStack hg (.inl hthread) (fun n hn => hevent ▸ hn) hframes fun hw hr => ?_
    rcases List.mem_cons.mp hr with he | hr
    · exact hq hw he.symm
    · exact hrest hr
  have ends : ∀ {v : World}, v.thread = w.thread → v.stopEvent = w.stopEvent → Grows w v →
      v.frames = w.frames → Leaves w (v.setStack t rest) t p :=
    fun hthread hevent hg hframes =>
      leaves_setStack hg (.inl hthread) (fun n hn => hevent ▸ hn) hframes fun _ => hrest
  cases p with
  | acquireStart =>
    obtain ⟨l, -, rfl⟩ := Option.map_eq_some_iff.mp hm
    exact plain rfl rfl ⟨id, id⟩ rfl (by simp)
  | acquireShutdown =>
    obtain ⟨l, -, rfl⟩ := Option.map_eq_some_iff.mp hm
    exact plain rfl rfl ⟨id, id⟩ rfl (by simp)
  | startedStart =>
    cases hm
    exact plain rfl rfl hg rfl fun _ => by split <;> simp
  | startedShutdown =>
    cases hm
    exact plain rfl rfl hg rfl fun _ => by split <;> simp
  | stoppedShutdown =>
    cases hm
    exact plain rfl rfl hg rfl fun _ => by split <;> simp
  | doStartThread =>
    cases o with
    | returns => cases hm
    | raises =>
      cases hm
      exact plain rfl rfl hg rfl (by simp)
    | spawns n =>
      simp only [move] at hm
      split at hm
      · rename_i hn
        cases hm
        have hne : n ≠ t := by
          rintro rfl
          simp [hn.1] at hs
        refine ⟨⟨id, id⟩, .inl rfl, fun _ => id, fun _ t' hr => ?_⟩
        by_cases ht : t' = t
        · subst ht
          exact absurd (by simpa [World.setStack] using hr) hrest
        · refine ⟨ht, ?_⟩
          by_cases ht' : t' = n
          · simp [World.setStack, ht', Function.update_of_ne hne] at hr
          · simpa [World.setStack, Function.update_of_ne ht, Function.update_of_ne ht'] using hr
      · cases hm
  | storeThread n =>
    cases hm
    exact leaves_setStack ⟨id, id⟩ (.inr ⟨n, rfl⟩) (fun _ => id) rfl (by simp [hrest])
  | setStarted =>
    cases hm
    exact plain rfl rfl ⟨fun _ => rfl, id⟩ rfl (by simp)
  | stopThread =>
    simp only [move] at hm
    split at hm
    · rename_i n _
      cases hm
      refine leaves_setStack ⟨id, id⟩ (.inl rfl) (fun m hw => ?_) rfl (by simp [hrest])
      by_cases hn : m = n
      · simp [hn]
      · simpa [Function.update_of_ne hn] using hw
    · cases hm
      exact plain rfl rfl hg rfl (by simp)
  | setStopped =>
    cases hm
    exact plain rfl rfl ⟨id, fun _ => rfl⟩ rfl (by simp)
  | doShutdown =>
    cases o with
    | returns =>
      cases hm
      exact plain rfl rfl hg rfl (by simp)
    | raises =>
      cases hm
      exact plain rfl rfl hg rfl (by simp)
    | spawns n => cases hm
  | leave r =>
    cases hm
    exact ends rfl rfl ⟨id, id⟩ rfl
  | startedRunning =>
    cases hm
    split
    · exact plain rfl rfl hg rfl (by simp)
    · exact ends rfl rfl ⟨id, id⟩ rfl
  | stoppedRunning =>
    cases hm
    split
    · exact ends rfl rfl ⟨id, id⟩ rfl
    · rename_i hw
      exact plain rfl rfl hg rfl fun hw' => absurd hw' hw
  | threadRunning =>
    simp only [move] at hm
    split at hm
    · cases hm
      exact ends rfl rfl ⟨id, id⟩ rfl
    · cases hm
      exact ends rfl rfl ⟨id, id⟩ rfl
  | doRun =>
    cases hm
    exact plain rfl rfl hg rfl (by simp)
  | finallyStopped =>
    cases hm
    exact ends rfl rfl ⟨id, fun _ => rfl⟩ rfl

/-- Only a call that reads a thread which was not told to stop finds it running. -/
theorem move_running {o : Outcome} (h : Invariant w) (hs : w.frames t = p :: rest)
    (hm : move w t o p rest = some w')
    (hread : p = .threadRunning → ∃ n, w.thread = some n ∧ w.stopEvent n = true) :
    w'.returned.count (.running true) = w.returned.count (.running true) := by
  have hfit := h.point t p (by simp [hs])
  have other : ∀ {v : World} {r : Return}, v.returned = w.returned → r ≠ .running true →
      (v.finish t rest r).returned.count (.running true) =
        w.returned.count (.running true) := by
    intro v r hv hr
    simp [World.finish, World.setStack, hv, hr]
  cases p with
  | leave r =>
    cases hm
    exact other rfl hfit.2.2
  | startedRunning =>
    cases hm
    split
    · rfl
    · exact other rfl (by simp)
  | stoppedRunning =>
    cases hm
    split
    · exact other rfl (by simp)
    · rfl
  | threadRunning =>
    obtain ⟨n, hn, hstop⟩ := hread rfl
    rw [move, hn] at hm
    cases hm
    exact other rfl (by simp [hstop])
  | acquireStart =>
    obtain ⟨l, -, rfl⟩ := Option.map_eq_some_iff.mp hm
    rfl
  | acquireShutdown =>
    obtain ⟨l, -, rfl⟩ := Option.map_eq_some_iff.mp hm
    rfl
  | doStartThread =>
    cases o with
    | returns => cases hm
    | raises =>
      cases hm
      rfl
    | spawns n =>
      simp only [move] at hm
      split at hm
      · cases hm
        rfl
      · cases hm
  | doShutdown =>
    cases o with
    | spawns n => cases hm
    | _ =>
      cases hm
      rfl
  | stopThread =>
    simp only [move] at hm
    split at hm
    · cases hm
      rfl
    · cases hm
      rfl
  | _ =>
    cases hm
    rfl

/-- What a step of thread `t` does to a server that is down. -/
structure Settles (w w' : World) (t : Nat) : Prop where
  down : Down w'
  told : w.Told → w'.Told
  late : ∀ t', .threadRunning ∈ w'.frames t' → t' ≠ t ∧ .threadRunning ∈ w.frames t'
  count : w'.returned.count (.running true) = w.returned.count (.running true) ∨
    ¬w.Told ∧ .threadRunning ∈ w.frames t

theorem Down.move (h : Invariant w) (hd : Down w) {o : Outcome} (hs : w.frames t = p :: rest)
    (hm : move w t o p rest = some w') : Settles w w' t := by
  have hrest : .threadRunning ∉ rest := fun hr => by cases h.user_of_rest hs hr
  have hl := move_leaves hs hrest hm
  have hthread : w'.thread = w.thread := by
    refine hl.thread.resolve_right ?_
    rintro ⟨n, rfl⟩
    have hst : w.started = false := (h.point t (.storeThread n) (by simp [hs])).1
    exact absurd (hd.started.symm.trans hst) (by simp)
  refine ⟨⟨hl.grows.started hd.started, hl.grows.stopped hd.stopped⟩, ?_, hl.reads hd.stopped, ?_⟩
  · rintro ⟨n, hn, hstop⟩
    exact ⟨n, hthread.trans hn, hl.stopEvent n hstop⟩
  · by_cases hlate : ¬w.Told ∧ .threadRunning ∈ w.frames t
    · exact .inr hlate
    · refine .inl (move_running h hs hm fun hp => ?_)
      by_contra htold
      exact hlate ⟨htold, by simp [hs, hp]⟩

theorem Down.call (hd : Down w) (m : Method) (hu : ∀ p ∈ w.frames t, p.user = true) :
    Settles w (w.setStack t (m.entry :: w.frames t)) t := by
  refine ⟨⟨hd.started, hd.stopped⟩, id, fun t' hr => ?_, .inl rfl⟩
  by_cases ht : t' = t
  · subst ht
    have hm : .threadRunning ∈ m.entry :: w.frames t' := by simpa [World.setStack] using hr
    rcases List.mem_cons.mp hm with he | he
    · cases m <;> cases he
    · cases hu _ he
  · exact ⟨ht, by simpa [World.setStack, Function.update_of_ne ht] using hr⟩

theorem Down.step (h : Invariant w) (hd : Down w) {a : Action} (hs : step w a = some w') :
    Settles w w' a.thread := by
  cases a with
  | call t m =>
    obtain ⟨hu, rfl⟩ := step_call h hs
    exact hd.call m hu
  | move t o =>
    simp only [Serving.step] at hs
    split at hs
    · cases hs
    · rename_i p rest hstack
      exact hd.move h hstack hs

/-- Once a call of `shutdown` has seen `_stopped`, the server is down; once
`do_shutdown` was called, its thread was told, too. -/
theorem Sound.down (h : Sound w) (hw : 0 < w.shutdowns ∨ .shutdown ∈ w.returned) :
    Down w ∧ (0 < w.shutdowns → w.Told) := by
  refine ⟨?_, fun hd => (h.shutdown_last hd).2.2⟩
  rcases hw with hw | hw
  · obtain ⟨hst, hsp, -⟩ := h.shutdown_last hw
    exact ⟨hst, hsp⟩
  · exact ⟨(h.returned _ hw).1, (h.returned _ hw).2⟩

/-- Behind a shutdown, the calls that are past their test of `_stopped` stand where they
stood then. -/
theorem late_of_run (h : Invariant w) (hd : Down w) {fs : List (Event World Action)} {v : World}
    (hfs : Run step w fs v) : Invariant v ∧ Down v ∧ (w.Told → v.Told) ∧
      ∀ t, .threadRunning ∈ v.frames t →
        .threadRunning ∈ w.frames t ∧ ∀ e ∈ fs, e.label.thread ≠ t := by
  induction hfs with
  | nil => exact ⟨h, hd, id, fun t hr => ⟨hr, by simp⟩⟩
  | snoc _ hs ih =>
    obtain ⟨hi, hd', htold, hlate⟩ := ih
    have hstep := hd'.step hi hs
    refine ⟨step_invariant hi hs, hstep.down, fun hw => hstep.told (htold hw), fun t hr => ?_⟩
    obtain ⟨hne, hr⟩ := hstep.late t hr
    obtain ⟨hr, hfs⟩ := hlate t hr
    refine ⟨hr, fun e he => ?_⟩
    rcases List.mem_append.mp he with he | he
    · exact hfs e he
    · rw [List.mem_singleton.mp he]
      exact hne.symm

/-- A call of `is_running` makes no further call. -/
theorem Invariant.head_of_mem (h : Invariant w) (hp : p ∈ w.frames t) (hu : p.user = false) :
    (w.frames t).head? = some p := by
  cases hs : w.frames t with
  | nil => simp [hs] at hp
  | cons q rest =>
    rw [hs] at hp
    rcases List.mem_cons.mp hp with rfl | hp
    · rfl
    · exact absurd ((h.user_of_rest hs hp).symm.trans hu) (by simp)

/-- **A server that was shut down stays down.** After `do_shutdown` was called no call of
`is_running` returns true, also none that has begun before. Where the server's thread had
ended by itself, a call that does was past its test of `_stopped` when `shutdown`
returned, and its thread has not moved since. -/
theorem never_running_again {w₀ v : World} {es fs : List (Event World Action)} {a : Action}
    (h₀ : Initial w₀) (h : Run step w₀ es w) (hw : 0 < w.shutdowns ∨ .shutdown ∈ w.returned)
    (hfs : Run step w fs v) (hs : step v a = some w') :
    w'.returned.count (.running true) = v.returned.count (.running true) ∨
      w.shutdowns = 0 ∧ (w.frames a.thread).head? = some .threadRunning ∧
        ∀ e ∈ fs, e.label.thread ≠ a.thread := by
  have hinv : Invariant w := h.keeps h₀.invariant fun _ _ _ hi hs => step_invariant hi hs
  obtain ⟨hd, htold⟩ := hinv.sound.down hw
  obtain ⟨hi, hd', htold', hlate⟩ := late_of_run hinv hd hfs
  refine (hd'.step hi hs).count.imp_right ?_
  rintro ⟨hno, hr⟩
  obtain ⟨hr, hstill⟩ := hlate _ hr
  refine ⟨?_, hinv.head_of_mem hr rfl, hstill⟩
  by_contra hpos
  exact hno (htold' (htold (Nat.pos_of_ne_zero hpos)))

def startServer : List Action :=
  .flatten [
    [.call 0 .start],
    .replicate 2 (.move 0 .returns),
    [.move 0 (.spawns 7)],
    .replicate 3 (.move 0 .returns)]

/-- Thread 1 has read `_stopped` when thread 0 shuts the server down. -/
def overtaken : List Action :=
  .flatten [
    startServer,
    [.call 1 .is_running, .call 0 .shutdown],
    .replicate 2 (.move 1 .returns),
    .replicate 5 (.move 0 .returns)]

/-- Thread 1 has read `_stopped` and thread 2 has not when the server's thread ends by
itself. -/
def endedByItself : List Action :=
  .flatten [
    startServer,
    [.call 1 .is_running, .call 2 .is_running],
    .replicate 2 (.move 1 .returns),
    [.move 2 .returns],
    .replicate 2 (.move 7 .returns),
    [.call 0 .shutdown],
    .replicate 4 (.move 0 .returns)]

/-- In the first run the late call returns false as well; in the second it returns true,
and the other one does not. -/
theorem overtaken_not_running :
    (∃ es w v, Run step unstarted es w ∧ w.shutdowns = 1 ∧
      step w (.move 1 .returns) = some v ∧ v.returned = [.start true, .running false] ∧
      v.returned.count (.running true) = w.returned.count (.running true)) ∧
    ∃ es w v u, Run step unstarted es w ∧ .shutdown ∈ w.returned ∧ w.shutdowns = 0 ∧
      step w (.move 2 .returns) = some v ∧
      v.returned.count (.running true) = w.returned.count (.running true) ∧
      step v (.move 1 .returns) = some u ∧
      u.returned = [.start true, .shutdown, .running false, .running true] := by
  constructor
  · obtain ⟨es, w, hr, hw⟩ := @exists_run_of_replay _ _ step unstarted _
      (fun w => (w.shutdowns, (step w (.move 1 .returns)).map World.returned)) overtaken
      (1, some [.start true, .running false]) rfl
    obtain ⟨hone, hread⟩ := Prod.mk.inj hw
    obtain ⟨v, hs, hv⟩ := Option.map_eq_some_iff.mp hread
    have hpos : 0 < w.shutdowns := hone ▸ Nat.one_pos
    refine ⟨es, w, v, hr, hone, hs, hv, ?_⟩
    refine (never_running_again unstarted_initial hr (.inl hpos) .nil hs).resolve_right ?_
    rintro ⟨hzero, -⟩
    omega
  · obtain ⟨es, w, hr, hw⟩ := @exists_run_of_replay _ _ step unstarted _
      (fun w => ((w.returned, w.shutdowns, w.frames 2),
        (step w (.move 2 .returns)).bind fun v =>
          (step v (.move 1 .returns)).map World.returned)) endedByItself
      (([.start true, .shutdown], 0, [.stoppedRunning]),
        some [.start true, .shutdown, .running false, .running true]) rfl
    obtain ⟨hstate, hread⟩ := Prod.mk.inj hw
    obtain ⟨hreturned, hstate⟩ := Prod.mk.inj hstate
    obtain ⟨hzero, hstack⟩ := Prod.mk.inj hstate
    obtain ⟨v, hs, hread⟩ := Option.bind_eq_some_iff.mp hread
    obtain ⟨u, hu, hreads⟩ := Option.map_eq_some_iff.mp hread
    have hshut : .shutdown ∈ w.returned := by simp [hreturned]
    refine ⟨es, w, v, u, hr, hshut, hzero, hs, ?_, hu, hreads⟩
    refine (never_running_again unstarted_initial hr (.inr hshut) .nil hs).resolve_right ?_
    rintro ⟨-, hhead, -⟩
    rw [Action.thread, hstack] at hhead
    cases hhead

end LocalStack.Utils.Serving
