import LocalStack.Services.Plugins

/-! Soundness of the service lifecycle over every sequence of operations: a
container is RUNNING only after a successful start that no stop followed, and
its ERROR state always comes with a captured error. The health check of
`ServiceManager.check` breaks the first half for containers that are in ERROR
because of a failed start or stop; everything else keeps both. -/

namespace LocalStack.Services.Lifecycle
open LocalStack.OrderedDict LocalStack.Runs LocalStack.Services.Plugins

variable {ε : Type*}

/-! ## Operations -/

inductive Operation (ε : Type*)
  | addService (service : Service)
  | start (name : String) (o oCheck : Outcome ε)
  | stop (name : String) (o : Outcome ε)
  | require (name : String) (o oCheck : Outcome ε)
  | check (name : String) (o : Outcome ε)
  | checkAll (o : String → Outcome ε)

/-- `start` and `stop` are methods of a container, so they need one. -/
def step (m : ServiceManager ε) : Operation ε → Option (ServiceManager ε)
  | .addService service => some (m.add_service service)
  | .start name o oCheck => (m.get name).map fun c => m.set name (c.start o oCheck).2
  | .stop name o => (m.get name).map fun c => m.set name (c.stop o)
  | .require name o oCheck => some (m.require name o oCheck).2
  | .check name o => some (m.check name o).2
  | .checkAll o => some (m.check_all o).2

/-- The most recent start returned and no stop came after it. -/
def StartedOk (c : ServiceContainer ε) : Prop := c.calls.head? = some .started

structure Sound (c : ServiceContainer ε) : Prop where
  started : c.state = .running → StartedOk c
  captured : c.state = .error → c.errors ≠ []

def AllSound (m : ServiceManager ε) : Prop :=
  ∀ name c, m.get name = some c → Sound c

/-! ## Containers -/

theorem sound_new (s : Service) : Sound (.new s (if s.is_enabled then .available else .disabled) :
    ServiceContainer ε) := by
  cases h : s.is_enabled <;> exact ⟨by simp [ServiceContainer.new], by simp [ServiceContainer.new]⟩

theorem check_sound {c : ServiceContainer ε} (h : StartedOk c) (o : Outcome ε) :
    Sound (c.check o).2 := by
  unfold ServiceContainer.check
  split
  · exact ⟨fun _ => h, by simp⟩
  · exact ⟨by simp, by simp⟩

theorem check_sound_of_raises {c : ServiceContainer ε} {o : Outcome ε}
    (h : c.service.check o ≠ .returns) : Sound (c.check o).2 := by
  unfold ServiceContainer.check
  split
  · next hr => exact absurd hr h
  · exact ⟨by simp, by simp⟩

/-- Starting makes every container sound, whatever it was before. -/
theorem start_sound (c : ServiceContainer ε) (o oCheck : Outcome ε) :
    Sound (c.start o oCheck).2 := by
  simp only [ServiceContainer.start]
  split
  · exact ⟨by simp, by simp⟩
  · exact check_sound (by simp [StartedOk]) oCheck

theorem stop_sound (c : ServiceContainer ε) (o : Outcome ε) : Sound (c.stop o) := by
  simp only [ServiceContainer.stop]
  split <;> exact ⟨by simp, by simp⟩

/-! ## The health check -/

/-- A health check that would turn a container back to RUNNING although its last
start failed or it was stopped. -/
def Resurrects (c : ServiceContainer ε) (o : Outcome ε) : Prop :=
  c.state = .error ∧ ¬ StartedOk c ∧ c.service.check o = .returns

/-- `check(name)` answers true. -/
def Passes (m : ServiceManager ε) (name : String) (o : Outcome ε) : Prop :=
  ∃ c, m.get name = some c ∧ (c.state = .running ∨ c.state = .error) ∧
    c.service.check o = .returns

def Harmless (m : ServiceManager ε) (name : String) (o : Outcome ε) : Prop :=
  ∀ c, m.get name = some c → ¬ Resurrects c o

/-- No check that `check_all` reaches resurrects its container; it goes on to
the next name as long as no check passes. -/
def NoneResurrected (m : ServiceManager ε) (o : String → Outcome ε) : List String → Prop
  | [] => True
  | name :: names =>
    Harmless m name (o name) ∧ (¬ Passes m name (o name) → NoneResurrected m o names)

/-- No passing health check is run on a container that is in ERROR because its
last start or a stop failed. -/
def NoResurrection (m : ServiceManager ε) : Operation ε → Prop
  | .check name o => Harmless m name o
  | .checkAll o => NoneResurrected m o m.keys
  | _ => True

theorem noneResurrected_congr {m m' : ServiceManager ε} {o : String → Outcome ε}
    {names : List String} (h : ∀ n ∈ names, m.get n = m'.get n) :
    NoneResurrected m o names ↔ NoneResurrected m' o names := by
  induction names with
  | nil => rfl
  | cons name names ih =>
    have hn := h name (List.mem_cons_self ..)
    simp only [NoneResurrected, Harmless, Passes, hn,
      ih (fun n hm => h n (List.mem_cons_of_mem _ hm))]

theorem allSound_set {m : ServiceManager ε} (hm : AllSound m) (name : String)
    {c : ServiceContainer ε} (hc : Sound c) : AllSound (m.set name c) := by
  intro name' c' h
  rw [Dict.get_set] at h
  split at h
  · cases h; exact hc
  · exact hm name' c' h

theorem check_fst_iff (m : ServiceManager ε) (name : String) (o : Outcome ε) :
    (m.check name o).1 = true ↔ Passes m name o := by
  unfold ServiceManager.check ServiceManager.get_service_container Passes
  cases hg : m.get name with
  | none => simp
  | some c =>
    by_cases hs : c.state = .running ∨ c.state = .error
    · cases ho : c.service.check o <;> simp [hs, ServiceContainer.check, ho]
    · simp [hs]

theorem check_get_ne (m : ServiceManager ε) {name name' : String} (o : Outcome ε)
    (h : name ≠ name') : (m.check name o).2.get name' = m.get name' := by
  unfold ServiceManager.check
  split
  · rfl
  · split
    · exact Dict.get_set_ne _ _ h
    · rfl

theorem check_elsewhere (m : ServiceManager ε) {name : String} (o : Outcome ε)
    {names : List String} (h : name ∉ names) :
    ∀ n ∈ names, m.get n = (m.check name o).2.get n :=
  fun n hn => (check_get_ne m o fun e => h (by rw [e]; exact hn)).symm

theorem check_allSound {m : ServiceManager ε} (hm : AllSound m) {name : String} {o : Outcome ε}
    (hok : Harmless m name o) : AllSound (m.check name o).2 := by
  unfold ServiceManager.check ServiceManager.get_service_container
  cases hg : m.get name with
  | none => exact hm
  | some c =>
    by_cases hs : c.state = .running ∨ c.state = .error
    · simp only [hs, ↓reduceIte]
      refine allSound_set hm name ?_
      by_cases hst : StartedOk c
      · exact check_sound hst o
      · rcases hs with hr | he
        · exact absurd ((hm name c hg).started hr) hst
        · exact check_sound_of_raises fun ho => hok c hg ⟨he, hst, ho⟩
    · simpa only [hs, ↓reduceIte] using hm

/-- A check that resurrects its container leaves it RUNNING and not started. -/
theorem check_unsound {m : ServiceManager ε} {name : String} {o : Outcome ε}
    (hbad : ¬ Harmless m name o) :
    Passes m name o ∧ ¬ AllSound (m.check name o).2 := by
  simp only [Harmless, not_forall, not_not] at hbad
  obtain ⟨c, hg, he, hst, ho⟩ := hbad
  refine ⟨⟨c, hg, Or.inr he, ho⟩, fun hall => hst ?_⟩
  have hget : (m.check name o).2.get name = some { c with state := .running } := by
    simp [ServiceManager.check, ServiceManager.get_service_container, hg, he,
      ServiceContainer.check, ho]
  exact (hall name _ hget).started rfl

theorem checkAny_allSound {o : String → Outcome ε} {names : List String} (hn : names.Nodup) :
    ∀ {m : ServiceManager ε}, AllSound m → NoneResurrected m o names →
      AllSound (m.checkAny o names).2 := by
  induction names with
  | nil => intro m hm _; exact hm
  | cons name names ih =>
    intro m hm hok
    obtain ⟨hhead, htail⟩ := hok
    have hm' := check_allSound hm hhead
    rw [List.nodup_cons] at hn
    cases hc : m.check name (o name) with
    | mk passed m' =>
      rw [hc] at hm'
      cases passed with
      | true => simpa [ServiceManager.checkAny, hc] using hm'
      | false =>
        have hp : ¬ Passes m name (o name) := by
          rw [← check_fst_iff, hc]; simp
        have hsame : ∀ n ∈ names, m.get n = m'.get n := by
          simpa [hc] using check_elsewhere m (o name) hn.1
        simpa [ServiceManager.checkAny, hc] using
          ih hn.2 hm' ((noneResurrected_congr hsame).mp (htail hp))

theorem checkAny_unsound {o : String → Outcome ε} {names : List String} (hn : names.Nodup) :
    ∀ {m : ServiceManager ε}, ¬ NoneResurrected m o names →
      ¬ AllSound (m.checkAny o names).2 := by
  induction names with
  | nil => intro m hbad; exact absurd trivial hbad
  | cons name names ih =>
    intro m hbad
    rw [List.nodup_cons] at hn
    cases hc : m.check name (o name) with
    | mk passed m' =>
      by_cases hhead : Harmless m name (o name)
      · have hbad' : ¬ Passes m name (o name) ∧ ¬ NoneResurrected m o names := by
          simpa [NoneResurrected, hhead] using hbad
        have hf : passed = false := by
          have := hbad'.1
          rw [← check_fst_iff, hc] at this
          simpa using this
        have hsame : ∀ n ∈ names, m.get n = m'.get n := by
          simpa [hc] using check_elsewhere m (o name) hn.1
        subst hf
        simpa [ServiceManager.checkAny, hc] using
          ih hn.2 (fun h => hbad'.2 ((noneResurrected_congr hsame).mpr h))
      · obtain ⟨hp, hu⟩ := check_unsound hhead
        rw [← check_fst_iff, hc] at hp
        rw [hc] at hu
        simp only at hp hu
        subst hp
        simpa [ServiceManager.checkAny, hc] using hu

/-! ## One step -/

/-- `require` starts the container or leaves the manager as it was. -/
theorem require_cases (m : ServiceManager ε) (name : String) (o oCheck : Outcome ε) :
    (m.require name o oCheck).2 = m ∨
      ∃ c, m.get name = some c ∧ (m.require name o oCheck).2 = m.set name (c.start o oCheck).2 := by
  unfold ServiceManager.require ServiceManager.get_service_container
  cases hg : m.get name with
  | none => exact Or.inl rfl
  | some c =>
    cases hs : c.state
    case available | stopped =>
      refine Or.inr ⟨c, rfl, ?_⟩
      simp only [hs]
      split <;> next hr => rw [hr]
    all_goals exact Or.inl (by simp only [hs])

/-- Every operation keeps the containers sound, unless it resurrects one. -/
theorem step_allSound {m m' : ServiceManager ε} {a : Operation ε} (hm : AllSound m)
    (hwf : m.WF) (hok : NoResurrection m a) (h : step m a = some m') : AllSound m' := by
  cases a with
  | addService service =>
    cases h
    exact allSound_set hm _ (sound_new service)
  | start name o oCheck =>
    obtain ⟨c, _, rfl⟩ := Option.map_eq_some_iff.mp h
    exact allSound_set hm name (start_sound c o oCheck)
  | stop name o =>
    obtain ⟨c, _, rfl⟩ := Option.map_eq_some_iff.mp h
    exact allSound_set hm name (stop_sound c o)
  | require name o oCheck =>
    cases h
    rcases require_cases m name o oCheck with hr | ⟨c, _, hr⟩ <;> rw [hr]
    · exact hm
    · exact allSound_set hm name (start_sound c o oCheck)
  | check name o =>
    cases h
    exact check_allSound hm hok
  | checkAll o =>
    cases h
    exact checkAny_allSound hwf hm hok

theorem step_unsound {m m' : ServiceManager ε} {a : Operation ε} (hwf : m.WF)
    (hbad : ¬ NoResurrection m a) (h : step m a = some m') : ¬ AllSound m' := by
  cases a with
  | check name o =>
    cases h
    exact (check_unsound hbad).2
  | checkAll o =>
    cases h
    exact checkAny_unsound hwf hbad
  | _ => exact absurd trivial hbad

theorem check_wf {m : ServiceManager ε} (hwf : m.WF) (name : String) (o : Outcome ε) :
    (m.check name o).2.WF := by
  unfold ServiceManager.check
  split
  · exact hwf
  · split
    · exact Dict.wf_set hwf _ _
    · exact hwf

theorem checkAny_wf (o : String → Outcome ε) (names : List String) :
    ∀ {m : ServiceManager ε}, m.WF → (m.checkAny o names).2.WF := by
  induction names with
  | nil => intro m hwf; exact hwf
  | cons name names ih =>
    intro m hwf
    have hwf' := check_wf hwf name (o name)
    cases hc : m.check name (o name) with
    | mk passed m' =>
      rw [hc] at hwf'
      cases passed with
      | true => simpa [ServiceManager.checkAny, hc] using hwf'
      | false => simpa [ServiceManager.checkAny, hc] using ih hwf'

theorem step_wf {m m' : ServiceManager ε} {a : Operation ε} (hwf : m.WF)
    (h : step m a = some m') : m'.WF := by
  cases a with
  | addService service => cases h; exact Dict.wf_set hwf _ _
  | start name o oCheck =>
    obtain ⟨c, _, rfl⟩ := Option.map_eq_some_iff.mp h
    exact Dict.wf_set hwf _ _
  | stop name o =>
    obtain ⟨c, _, rfl⟩ := Option.map_eq_some_iff.mp h
    exact Dict.wf_set hwf _ _
  | require name o oCheck =>
    cases h
    rcases require_cases m name o oCheck with hr | ⟨c, _, hr⟩ <;> rw [hr]
    · exact hwf
    · exact Dict.wf_set hwf _ _
  | check name o => cases h; exact check_wf hwf name o
  | checkAll o => cases h; exact checkAny_wf o _ hwf

/-! ## Runs -/

section Runs

variable {es : List (Event (ServiceManager ε) (Operation ε))} {m : ServiceManager ε}

theorem run_wf (h : Run step [] es m) : m.WF :=
  h.keeps Dict.wf_nil (fun _ _ _ => step_wf)

/-- **Lifecycle soundness.** In a run of a fresh manager every container is sound
in every state, if and only if no passing health check is run on a container
that is in ERROR because its last start or a stop failed. -/
theorem always_sound_iff_noResurrection (h : Run step [] es m) :
    Always AllSound [] es ↔ Guarded NoResurrection es := by
  constructor
  · intro hall e he
    by_contra hbad
    obtain ⟨_, _, _, hpre, hs, _⟩ := h.split he
    exact step_unsound (run_wf hpre) hbad hs (hall.2 e he)
  · intro hok
    have hinv : Always (fun m : ServiceManager ε => AllSound m ∧ m.WF) [] es :=
      h.always ⟨by simp [AllSound], Dict.wf_nil⟩
        (fun _ _ _ hi hg hs => ⟨step_allSound hi.1 hi.2 hg hs, step_wf hi.2 hs⟩) hok
    exact ⟨hinv.1.1, fun e he => (hinv.2 e he).1⟩

end Runs

/-- A service without a health check whose start function raises. -/
def brokenService : Service := ⟨"sqs", .function, false, false, true⟩

/-- `require` starts it in vain, then `check` is called. -/
def failedStartThenCheck : List (Operation Nat) :=
  [.addService brokenService, .require "sqs" (.raises 7) .returns, .check "sqs" .returns]

theorem failedStart_resurrected :
    ∃ es, ∃ m : ServiceManager Nat, Run step [] es m ∧ ∃ c, m.get "sqs" = some c ∧
      c.state = .running ∧ c.calls = [.startRaised] := by
  obtain ⟨es, m, hr, hm⟩ := exists_run_of_replay (s := ([] : ServiceManager Nat))
    (f := fun m => m) (l := failedStartThenCheck)
    (b := [("sqs", ⟨brokenService, .running, [7], [.startRaised]⟩)])
    (by rfl : (replay step _ _).map _ = _)
  subst hm
  exact ⟨es, _, hr, _, by rfl, rfl, rfl⟩

/-- A health check that fails once moves a started service to ERROR and back. -/
theorem recoveringCheck_sound :
    ∃ es, ∃ m : ServiceManager Nat, Run step [] es m ∧ Always AllSound [] es ∧
      (m.get "sqs").map (·.state) = some .running := by
  have hr : Run step ([] : ServiceManager Nat) _ _ :=
    ((Run.nil.snoc (a := .addService ⟨"sqs", .function, true, false, true⟩) rfl).snoc
      (a := .require "sqs" .returns (.raises 7)) rfl).snoc (a := .check "sqs" .returns) rfl
  refine ⟨_, _, hr, (always_sound_iff_noResurrection hr).mpr ?_, rfl⟩
  simp only [guarded_snoc, guarded_nil, NoResurrection, true_and, and_true]
  rintro c hc ⟨_, hst, _⟩
  cases hc
  exact hst rfl

end LocalStack.Services.Lifecycle
