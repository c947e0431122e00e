import LocalStack.Runtime.Lifecycle

/-! What the calls of `shutdown` and `exit` keep: one of them sets the event, and it alone
goes through the hooks. -/

namespace LocalStack.Runtime.Lifecycle

variable {h : Hooks} {w w' : World} {l : List Entry} {o : Outcome}

/-- Between `__enter__` and `__exit__` of the lifecycle lock. -/
def CallPoint.inside : CallPoint → Bool
  | .testStopping | .setStopping | .leave _ => true
  | _ => false

/-- The call that shuts down, from when the event is set. -/
def CallPoint.active : CallPoint → Bool
  | .leave first => first
  | .hooks _ | .inHook _ | .handlers _ _ _ | .inHandler _ _ _ | .serverShutdown => true
  | _ => false

/-- A call that knows nothing of the others. -/
def CallPoint.idle : CallPoint → Bool
  | .setStopping => false
  | p => !p.active

/-- What has been done at a point. -/
def CallPoint.Tells (h : Hooks) (found : FunctionPlugin → List Callback) (l : List Entry) :
    CallPoint → Prop
  | .leave true => l = [.stopping]
  | .hooks rest =>
    ∃ called, called ++ rest = load_all_sorted h.on_runtime_shutdown ∧
      l = .stopping :: called.flatMap (Hooks.hookStory found)
  | .inHook rest =>
    ∃ called p, called ++ p :: rest = load_all_sorted h.on_runtime_shutdown ∧
      p.fn.registry = none ∧ found p = [] ∧
      l = .stopping :: (called.flatMap (Hooks.hookStory found) ++ [.shutdownHook p])
  | .handlers p fs rest | .inHandler p fs rest =>
    ∃ called done, called ++ p :: rest = load_all_sorted h.on_runtime_shutdown ∧
      (found p).reverse = done ++ fs ∧ (∀ f ∈ done, f.named = true) ∧
      l = .stopping :: (called.flatMap (Hooks.hookStory found) ++
        .shutdownHook p :: done.map .handler)
  | .serverShutdown => ∃ cut, h.Course found cut ∧ l = .stopping :: cut
  | _ => True

structure CallInvariant (h : Hooks) (w : World) : Prop where
  tells : ∀ c, (w.calls c).Tells h w.found (story .shutdown w.log)
  testing : ∀ c, w.calls c = .setStopping → w.stopping = false
  active : ∀ c, (w.calls c).active = true → w.stopping = true
  locked : ∀ c, (w.calls c).inside = true → w.lock = some c
  one : ∀ c c', (w.calls c).active = true → (w.calls c').active = true → c' = c
  untold : w.stopping = false → story .shutdown w.log = []
  told : ∃ cut, h.Course w.found cut ∧
    story .shutdown w.log <+: .stopping :: (cut ++ [.serverShutdown])

variable {found : FunctionPlugin → List Callback} {c c' : Nat}

theorem CallPoint.tells_of_idle {p : CallPoint} (hp : p.idle = true) : p.Tells h found l := by
  cases p with
  | leave first =>
    cases first with
    | true => cases hp
    | false => trivial
  | hooks _ | inHook _ | handlers _ _ _ | inHandler _ _ _ | serverShutdown => cases hp
  | _ => trivial

theorem CallPoint.idle_of_active {p : CallPoint} (ha : p.active = false)
    (ht : p ≠ .setStopping) : p.idle = true := by
  cases p with
  | setStopping => exact absurd rfl ht
  | _ => simp [idle, ha]

/-- A part of what all hooks do. -/
theorem exists_told {called rest : List FunctionPlugin} {cut : List Entry}
    (hcalled : called ++ rest = load_all_sorted h.on_runtime_shutdown)
    (hcut : cut <+: rest.flatMap (Hooks.hookStory found)) :
    ∃ cut', h.Course found cut' ∧
      Entry.stopping :: (called.flatMap (Hooks.hookStory found) ++ cut) <+:
        .stopping :: (cut' ++ [.serverShutdown]) := by
  refine ⟨_, .completed, (List.prefix_cons_inj _).mpr ?_⟩
  rw [← hcalled, List.flatMap_append]
  exact ((List.prefix_append_right_inj _).mpr hcut).trans (List.prefix_append _ _)

theorem course_told {cut : List Entry} (hcut : h.Course found cut) :
    ∃ cut', h.Course found cut' ∧
      Entry.stopping :: cut <+: .stopping :: (cut' ++ [.serverShutdown]) :=
  ⟨cut, hcut, (List.prefix_cons_inj _).mpr (List.prefix_append _ _)⟩

/-- What an active call has done leads through the hooks. -/
theorem CallPoint.Tells.told {p : CallPoint} (ha : p.active = true) (ht : p.Tells h found l) :
    ∃ cut, h.Course found cut ∧ l <+: .stopping :: (cut ++ [.serverShutdown]) := by
  cases p with
  | leave first =>
    cases first with
    | true =>
      rw [show l = [.stopping] from ht]
      exact @exists_told h found [] _ [] rfl List.nil_prefix
    | false => cases ha
  | hooks rest =>
    obtain ⟨called, hcalled, rfl⟩ := ht
    rw [← List.append_nil (called.flatMap _)]
    exact exists_told hcalled List.nil_prefix
  | inHook rest =>
    obtain ⟨called, p, hcalled, -, -, rfl⟩ := ht
    refine exists_told hcalled ?_
    rw [List.flatMap_cons, Hooks.hookStory, List.cons_append, List.prefix_cons_inj]
    exact List.nil_prefix
  | handlers p fs rest | inHandler p fs rest =>
    obtain ⟨called, done, hcalled, hfound, -, rfl⟩ := ht
    refine exists_told hcalled ?_
    rw [List.flatMap_cons, Hooks.hookStory, hfound, List.map_append, List.cons_append,
      List.prefix_cons_inj, List.append_assoc]
    exact List.prefix_append _ _
  | serverShutdown =>
    obtain ⟨cut, hcut, rfl⟩ := ht
    exact course_told hcut
  | _ => cases ha

/-- A hook that is called now is no earlier one. -/
theorem flatMap_hookStory_update {p : FunctionPlugin} {called rest : List FunctionPlugin}
    {fs : List Callback} (hcalled : called ++ p :: rest = load_all_sorted h.on_runtime_shutdown) :
    called.flatMap (Hooks.hookStory (Function.update found p fs)) =
      called.flatMap (Hooks.hookStory found) := by
  have hnodup := load_all_sorted_nodup h.distinct
  rw [← hcalled, List.nodup_append] at hnodup
  refine List.flatMap_congr fun q hq => ?_
  have hne : q ≠ p := fun he => hnodup.2.2 q hq p (by simp) he
  rw [Hooks.hookStory, Hooks.hookStory, Function.update_of_ne hne]

theorem Initial.callInvariant (hi : Initial w) : CallInvariant h w := by
  constructor
  · simp [hi.calls, CallPoint.Tells]
  · simp [hi.calls]
  · simp [hi.calls, CallPoint.active]
  · simp [hi.calls, CallPoint.inside]
  · simp [hi.calls, CallPoint.active]
  · simp [hi.log, story]
  · simp only [hi.log]
    exact ⟨_, .completed, List.nil_prefix⟩

/-- What other code does changes nothing here. -/
theorem CallInvariant.same (hi : CallInvariant h w) (hcalls : w'.calls = w.calls)
    (hlock : w'.lock = w.lock) (hstopping : w'.stopping = w.stopping)
    (hfound : w'.found = w.found)
    (hlog : story .shutdown w'.log = story .shutdown w.log) : CallInvariant h w' := by
  obtain ⟨tells, testing, active, locked, one, untold, told⟩ := hi
  constructor
  · rwa [hcalls, hfound, hlog]
  · rwa [hcalls, hstopping]
  · rwa [hcalls, hstopping]
  · rwa [hcalls, hlock]
  · rwa [hcalls]
  · rwa [hstopping, hlog]
  · rwa [hfound, hlog]

/-- Beside the active call all are idle. -/
theorem CallInvariant.idle_of_active (hi : CallInvariant h w) (ha : (w.calls c).active = true)
    (hc : c' ≠ c) : (w.calls c').idle = true := by
  refine CallPoint.idle_of_active (Bool.eq_false_iff.mpr fun h' => hc (hi.one c c' ha h')) ?_
  intro hset
  have hfalse := hi.testing c' hset
  rw [hi.active c ha] at hfalse
  cases hfalse

/-- Beside a call that is about to set the event all are idle. -/
theorem CallInvariant.idle_of_setStopping (hi : CallInvariant h w)
    (hset : w.calls c = .setStopping) (hc : c' ≠ c) : (w.calls c').idle = true := by
  refine CallPoint.idle_of_active (Bool.eq_false_iff.mpr fun h' => ?_) fun hset' => hc ?_
  · have htrue := hi.active c' h'
    rw [hi.testing c hset] at htrue
    cases htrue
  · have hl := hi.locked c (by rw [hset]; rfl)
    rw [hi.locked c' (by rw [hset']; rfl)] at hl
    exact Option.some.inj hl

/-- A step of the call `c`: it changes what is told only where the others are idle, and the
lock only where it takes or releases it. -/
theorem CallInvariant.advance (hi : CallInvariant h w) {p : CallPoint}
    (hcalls : w'.calls = Function.update w.calls c p)
    (hsame : (w'.stopping = w.stopping ∧ w'.found = w.found ∧ w'.log = w.log) ∨
      w'.stopping = true ∧ ∀ c' ≠ c, (w.calls c').idle = true)
    (hlock : w'.lock = w.lock ∨ w.lock = none ∨ w.lock = some c)
    (htells : p.Tells h w'.found (story .shutdown w'.log))
    (htesting : p = .setStopping → w'.stopping = false)
    (hactive : p.active = true → w'.stopping = true ∧ ∀ c' ≠ c, (w.calls c').active = false)
    (hlocked : p.inside = true → w'.lock = some c)
    (huntold : w'.stopping = false → story .shutdown w'.log = [])
    (htold : ∃ cut, h.Course w'.found cut ∧
      story .shutdown w'.log <+: .stopping :: (cut ++ [.serverShutdown])) :
    CallInvariant h w' := by
  have hidle : ∀ {q : CallPoint}, q.idle = true → q.active = false ∧ q ≠ .setStopping := by
    intro q hq
    cases q with
    | setStopping => cases hq
    | _ => exact ⟨by simpa [CallPoint.idle] using hq, by simp⟩
  refine ⟨fun c' => ?_, fun c' => ?_, fun c' => ?_, fun c' => ?_, fun c₁ c₂ => ?_, huntold, htold⟩
  · rw [hcalls]
    by_cases hc : c' = c
    · subst hc
      simpa using htells
    · rw [Function.update_of_ne hc]
      rcases hsame with ⟨-, hfound, hlog⟩ | ⟨-, hothers⟩
      · rw [hfound, hlog]
        exact hi.tells c'
      · exact CallPoint.tells_of_idle (hothers c' hc)
  · rw [hcalls]
    by_cases hc : c' = c
    · subst hc
      simpa using htesting
    · rw [Function.update_of_ne hc]
      rcases hsame with ⟨hstopping, -, -⟩ | ⟨-, hothers⟩
      · rw [hstopping]
        exact hi.testing c'
      · exact fun hset => absurd hset (hidle (hothers c' hc)).2
  · rw [hcalls]
    by_cases hc : c' = c
    · subst hc
      simpa using fun ha => (hactive ha).1
    · rw [Function.update_of_ne hc]
      rcases hsame with ⟨hstopping, -, -⟩ | ⟨hstopping, -⟩
      · rw [hstopping]
        exact hi.active c'
      · exact fun _ => hstopping
  · rw [hcalls]
    by_cases hc : c' = c
    · subst hc
      simpa using hlocked
    · rw [Function.update_of_ne hc]
      intro hin
      have hl := hi.locked c' hin
      rcases hlock with h' | h' | h'
      · rw [h', hl]
      · rw [h'] at hl
        cases hl
      · rw [h'] at hl
        exact absurd (Option.some.inj hl).symm hc
  · rw [hcalls]
    by_cases h₁ : c₁ = c
    · by_cases h₂ : c₂ = c
      · exact fun _ _ => h₂.trans h₁.symm
      · rw [h₁, Function.update_self, Function.update_of_ne h₂]
        intro ha ha'
        rw [(hactive ha).2 c₂ h₂] at ha'
        cases ha'
    · rw [Function.update_of_ne h₁]
      by_cases h₂ : c₂ = c
      · rw [h₂, Function.update_self]
        intro ha ha'
        rw [(hactive ha').2 c₁ h₁] at ha
        cases ha
      · rw [Function.update_of_ne h₂]
        exact hi.one c₁ c₂

/-- A step of the call `c` that does nothing but to move on. -/
theorem CallInvariant.goto (hi : CallInvariant h w) {p : CallPoint} (hlog : w'.log = w.log)
    (hstopping : w'.stopping = w.stopping) (hfound : w'.found = w.found)
    (hcalls : w'.calls = Function.update w.calls c p)
    (hlock : w'.lock = w.lock ∨ w.lock = none ∨ w.lock = some c)
    (htells : p.Tells h w.found (story .shutdown w.log))
    (htesting : p = .setStopping → w.stopping = false)
    (hactive : p.active = true → (w.calls c).active = true)
    (hlocked : p.inside = true → w'.lock = some c) : CallInvariant h w' := by
  refine hi.advance hcalls (.inl ⟨hstopping, hfound, hlog⟩) hlock ?_ ?_ (fun ha => ⟨?_, ?_⟩)
    hlocked ?_ ?_
  · rwa [hfound, hlog]
  · rwa [hstopping]
  · rw [hstopping]
    exact hi.active c (hactive ha)
  · exact fun c' hc => Bool.eq_false_iff.mpr fun h' => hc (hi.one c c' (hactive ha) h')
  · rw [hstopping, hlog]
    exact hi.untold
  · rw [hfound, hlog]
    exact hi.told

/-- A step of the active call that does something. -/
theorem CallInvariant.write (hi : CallInvariant h w) {p : CallPoint}
    (ha : (w.calls c).active = true) (hstopping : w'.stopping = w.stopping)
    (hlock : w'.lock = w.lock) (hcalls : w'.calls = Function.update w.calls c p)
    (hp : p.inside = false) (hset : p ≠ .setStopping)
    (htells : p.Tells h w'.found (story .shutdown w'.log))
    (htold : ∃ cut, h.Course w'.found cut ∧
      story .shutdown w'.log <+: .stopping :: (cut ++ [.serverShutdown])) :
    CallInvariant h w' := by
  have hset' : w'.stopping = true := by rw [hstopping, hi.active c ha]
  refine hi.advance hcalls (.inr ⟨hset', fun c' hc => hi.idle_of_active ha hc⟩) (.inl hlock)
    htells (fun h' => absurd h' hset) (fun _ => ⟨hset', fun c' hc => ?_⟩) (fun h' => ?_)
    (fun h' => ?_) htold
  · exact Bool.eq_false_iff.mpr fun h' => hc (hi.one c c' ha h')
  · rw [hp] at h'
    cases h'
  · rw [hset'] at h'
    cases h'

theorem story_tell {e : Entry} (he : e.role = .shutdown) :
    story .shutdown (w.log ++ [e]) = story .shutdown w.log ++ [e] :=
  story_append _ (by simpa using he)

/-- The hook `p` is called. -/
theorem CallInvariant.callHook (hi : CallInvariant h w) {p : FunctionPlugin}
    {rest : List FunctionPlugin} (hc : w.calls c = .hooks (p :: rest)) :
    CallInvariant h (({ w with found := Function.update w.found p (w.registered p) }.tell
      (.shutdownHook p)).setCall c
        (if p.fn.registry.isSome then .handlers p (handlersOf w p) rest else .inHook rest)) := by
  have htells := hi.tells c
  rw [hc] at htells
  obtain ⟨called, hcalled, hstory⟩ := htells
  have hcall : story .shutdown (w.log ++ [.shutdownHook p]) = .stopping ::
      (called.flatMap (Hooks.hookStory (Function.update w.found p (w.registered p))) ++
        [.shutdownHook p]) := by
    rw [story_tell rfl, hstory, flatMap_hookStory_update hcalled]
    rfl
  have hnext : (if p.fn.registry.isSome then CallPoint.handlers p (handlersOf w p) rest
      else .inHook rest).Tells h (Function.update w.found p (w.registered p))
        (story .shutdown (w.log ++ [.shutdownHook p])) := by
    rw [hcall]
    split
    · exact ⟨called, [], hcalled, by simp [handlersOf], by simp, rfl⟩
    · rename_i hregistry
      rw [Bool.not_eq_true, Option.isSome_eq_false_iff, Option.isNone_iff_eq_none] at hregistry
      exact ⟨called, p, hcalled, hregistry, by simp [World.registered, hregistry], rfl⟩
  have hactive : (if p.fn.registry.isSome then CallPoint.handlers p (handlersOf w p) rest
      else .inHook rest).active = true := by split <;> rfl
  exact hi.write (by rw [hc]; rfl) rfl rfl rfl (by split <;> rfl) (by split <;> simp) hnext
    (hnext.told hactive)

/-- A handler is called. -/
theorem CallInvariant.callHandler (hi : CallInvariant h w) {p : FunctionPlugin} {f : Callback}
    {fs : List Callback} {rest : List FunctionPlugin} (hf : f.named = true)
    (hc : w.calls c = .handlers p (f :: fs) rest) :
    CallInvariant h ((w.tell (.handler f)).setCall c (.inHandler p fs rest)) := by
  have htells := hi.tells c
  rw [hc] at htells
  obtain ⟨called, done, hcalled, hfound, hnamed, hstory⟩ := htells
  have hnext : (CallPoint.inHandler p fs rest).Tells h w.found
      (story .shutdown (w.log ++ [.handler f])) := by
    refine ⟨called, done ++ [f], hcalled, by simpa using hfound, ?_, ?_⟩
    · simpa [or_imp, forall_and, hf] using hnamed
    · rw [story_tell rfl, hstory]
      simp
  exact hi.write (by rw [hc]; rfl) rfl rfl rfl rfl (by simp) hnext (hnext.told rfl)

/-- A hook fails. -/
theorem CallInvariant.failHook (hi : CallInvariant h w) {called rest : List FunctionPlugin}
    {p : FunctionPlugin} (hc : (w.calls c).active = true)
    (hcalled : called ++ p :: rest = load_all_sorted h.on_runtime_shutdown)
    (hfail : p.fn.registry = none ∨ ∃ f ∈ w.found p, f.named = false)
    (hstory : story .shutdown w.log = .stopping :: (called.flatMap (Hooks.hookStory w.found) ++
      .shutdownHook p :: ((w.found p).reverse.takeWhile Callback.named).map .handler)) :
    CallInvariant h ((w.tell .hookFailed).setCall c .serverShutdown) := by
  have hnext : CallPoint.serverShutdown.Tells h w.found
      (story .shutdown (w.log ++ [.hookFailed])) := by
    refine ⟨_, .failed hcalled hfail, ?_⟩
    rw [story_tell rfl, hstory, Hooks.failedStory]
    simp
  exact hi.write hc rfl rfl rfl rfl (by simp) hnext (hnext.told rfl)

/-- The event is set, which only one call does. -/
theorem CallInvariant.setEvent (hi : CallInvariant h w) (hc : w.calls c = .setStopping) :
    CallInvariant h (({ w with stopping := true }.tell .stopping).setCall c (.leave true)) := by
  have hstory : story .shutdown (w.log ++ [.stopping]) = [.stopping] := by
    rw [story_tell rfl, hi.untold (hi.testing c hc)]
    rfl
  refine hi.advance rfl (.inr ⟨rfl, fun c' h' => hi.idle_of_setStopping hc h'⟩) (.inl rfl) hstory
    (by simp) (fun _ => ⟨rfl, fun c' h' => ?_⟩) (fun _ => hi.locked c (by rw [hc]; rfl))
    (by simp [World.tell, World.setCall]) ?_
  · have hidle := hi.idle_of_setStopping hc h'
    refine Bool.eq_false_iff.mpr fun ha => ?_
    have htrue := hi.active c' ha
    rw [hi.testing c hc] at htrue
    cases htrue
  · have hnext : (CallPoint.leave true).Tells h w.found
        (story .shutdown (w.log ++ [.stopping])) := hstory
    exact hnext.told rfl

theorem shutdown_callInvariant (hi : CallInvariant h w)
    (hs : shutdown h w c o (w.calls c) = some w') : CallInvariant h w' := by
  have htells := hi.tells c
  generalize hc : w.calls c = p at hs htells
  have hactive : ∀ q : CallPoint, (q.active = true → p.active = true) →
      q.active = true → (w.calls c).active = true := by simp [hc]
  cases p with
  | unborn => cases hs
  | setExitCode code =>
    cases hs
    exact hi.goto rfl rfl rfl rfl (.inl rfl) trivial (by simp)
      (hactive _ (by simp [CallPoint.active])) (by simp [CallPoint.inside])
  | acquire =>
    simp only [shutdown] at hs
    split at hs
    · rename_i hlock
      cases hs
      exact hi.goto rfl rfl rfl rfl (.inr (.inl hlock)) trivial (by simp)
        (hactive _ (by simp [CallPoint.active])) fun _ => rfl
    · cases hs
  | testStopping =>
    cases hs
    have hl := hi.locked c (by rw [hc]; rfl)
    cases hset : w.stopping with
    | true =>
      exact hi.goto rfl rfl rfl rfl (.inl rfl) trivial (by simp)
        (hactive _ (by simp [CallPoint.active])) fun _ => hl
    | false =>
      exact hi.goto rfl rfl rfl rfl (.inl rfl) trivial (fun _ => hset)
        (hactive _ (by simp [CallPoint.active])) fun _ => hl
  | setStopping =>
    cases hs
    exact hi.setEvent hc
  | leave first =>
    cases hs
    have hl := hi.locked c (by rw [hc]; rfl)
    cases first with
    | true =>
      exact hi.goto rfl rfl rfl rfl (.inr (.inr hl)) ⟨[], rfl, htells⟩ (by simp)
        (hactive _ fun _ => rfl) (by simp [CallPoint.inside])
    | false =>
      exact hi.goto rfl rfl rfl rfl (.inr (.inr hl)) trivial (by simp)
        (hactive _ (by simp [CallPoint.active])) (by simp [CallPoint.inside])
  | hooks rest =>
    cases rest with
    | nil =>
      cases hs
      obtain ⟨called, hcalled, hstory⟩ := htells
      rw [List.append_nil] at hcalled
      refine hi.goto rfl rfl rfl rfl (.inl rfl) ⟨_, .completed, ?_⟩ (by simp)
        (hactive _ fun _ => rfl) (by simp [CallPoint.inside])
      rw [hstory, hcalled]
    | cons p rest =>
      cases hs
      exact hi.callHook hc
  | inHook rest =>
    obtain ⟨called, p, hcalled, hregistry, hfound, hstory⟩ := htells
    cases o with
    | returns =>
      cases hs
      refine hi.goto rfl rfl rfl rfl (.inl rfl) ⟨called ++ [p], by simpa using hcalled, ?_⟩
        (by simp) (hactive _ fun _ => rfl) (by simp [CallPoint.inside])
      rw [hstory, List.flatMap_append, List.flatMap_singleton, Hooks.hookStory, hfound]
      rfl
    | raises =>
      cases hs
      refine hi.failHook (by rw [hc]; rfl) hcalled (.inl hregistry) ?_
      rw [hstory, hfound]
      rfl
  | handlers p fs rest =>
    cases fs with
    | nil =>
      cases hs
      obtain ⟨called, done, hcalled, hfound, -, hstory⟩ := htells
      refine hi.goto rfl rfl rfl rfl (.inl rfl) ⟨called ++ [p], by simpa using hcalled, ?_⟩
        (by simp) (hactive _ fun _ => rfl) (by simp [CallPoint.inside])
      rw [hstory, List.flatMap_append, List.flatMap_singleton, Hooks.hookStory, hfound,
        List.append_nil]
    | cons f fs =>
      obtain ⟨called, done, hcalled, hfound, hnamed, hstory⟩ := htells
      cases hs
      split
      · rename_i hf
        exact hi.callHandler hf hc
      · rename_i hf
        have hfalse : f.named = false := by simpa using hf
        refine hi.failHook (by rw [hc]; rfl) hcalled (.inr ⟨f, ?_, hfalse⟩) ?_
        · rw [← List.mem_reverse, hfound]
          simp
        · rw [hstory, hfound, List.takeWhile_append_of_pos hnamed, List.takeWhile_cons, hfalse]
          simp
  | inHandler p fs rest =>
    cases hs
    exact hi.goto rfl rfl rfl rfl (.inl rfl) htells (by simp) (hactive _ fun _ => rfl)
      (by simp [CallPoint.inside])
  | serverShutdown =>
    cases hs
    obtain ⟨cut, hcut, hstory⟩ := htells
    have hend : story .shutdown (w.log ++ [.serverShutdown]) =
        .stopping :: (cut ++ [.serverShutdown]) := by
      rw [story_tell rfl, hstory, List.cons_append]
    exact hi.write (by rw [hc]; rfl) rfl rfl rfl rfl (by simp) trivial
      ⟨cut, hcut, hend ▸ List.prefix_rfl⟩
  | ended => cases hs

end LocalStack.Runtime.Lifecycle
