import LocalStack.Lib.Decimal
import LocalStack.Lib.OrderedDict
import Mathlib.Logic.Function.Basic

/-! The init scripts of a stage: `runtime/init.py`. -/

namespace LocalStack.Runtime.Init
open LocalStack.OrderedDict LocalStack.Text LocalStack.Decimal

inductive State
  | UNKNOWN
  | RUNNING
  | SUCCESSFUL
  | ERROR
  deriving DecidableEq, Repr

inductive Stage
  | BOOT
  | START
  | READY
  | SHUTDOWN
  deriving DecidableEq, Repr

def Stage.all : List Stage := [.BOOT, .START, .READY, .SHUTDOWN]

structure Script where
  path : Str
  stage : Stage
  state : State := .UNKNOWN
  deriving DecidableEq, Repr

/-- What a script raises: an `Exception`, or a `BaseException` that is none, such as
`SystemExit`. -/
inductive Raised
  | exception (message : Str)
  | exit (name : Str)
  deriving DecidableEq, Repr

/-- `os.environ`. -/
abbrev Env := Dict Str Str

/-- What `run` leaves as the environment, and how it ends. -/
structure ScriptRunner where
  suffixes : List Str
  run : Str → Env → Env × Except Raised Unit

def ScriptRunner.should_run (runner : ScriptRunner) (script_file : Str) : Bool :=
  runner.suffixes.any fun suffix => suffix.isSuffixOf script_file

/-- `call` is `subprocess.call`; a child process has a copy of the environment. -/
def ShellScriptRunner (call : Str → Env → Except Raised Int) : ScriptRunner where
  suffixes := [".sh".toList]
  run := fun path env => (env, do
    let exit_code ← call path env
    if exit_code ≠ 0 then
      throw (.exception ("Script ".toList ++ path ++ " returned a non-zero exit code ".toList ++
        intToStr exit_code))
    else pure ())

/-- `exec` opens the file and runs it in this process. -/
def PythonScriptRunner (exec : Str → Env → Env × Except Raised Unit) : ScriptRunner where
  suffixes := [".py".toList]
  run := exec

/-- The variables that are set back after each script. -/
def protectedVars : List Str :=
  ["AWS_ACCESS_KEY_ID".toList, "AWS_SECRET_ACCESS_KEY".toList, "AWS_SESSION_TOKEN".toList,
    "AWS_DEFAULT_REGION".toList, "AWS_PROFILE".toList, "AWS_REGION".toList]

def restoreVar (env_original env : Env) (env_var : Str) : Env :=
  match env_original.get env_var with
  | some value => env.set env_var value
  | none => env.erase env_var

/-- The `finally` block. -/
def restore (env_original env : Env) : Env := protectedVars.foldl (restoreVar env_original) env

/-- One run of a script: what it saw and how it ended. -/
structure Ran where
  path : Str
  env : Env
  outcome : Except Raised Unit

/-- What one turn of the loop leaves. `raised` escapes from the loop. -/
structure Turn where
  script : Script
  env : Env
  ran : List Ran
  raised : Option Raised

structure InitScriptManager where
  scripts : Dict Stage (List Script)
  stage_completed : Stage → Bool

/-- What one call of `run_stage` leaves. -/
structure StageRun where
  scripts : List Script
  env : Env
  ran : List Ran
  raised : Option Raised

section
variable (runners : List ScriptRunner)

def get_script_runner (script_file : Str) : Option ScriptRunner :=
  runners.find? (·.should_run script_file)

def has_script_runner (script_file : Str) : Bool := (get_script_runner runners script_file).isSome

/-- `None.run` is an `AttributeError`. -/
def runScript (env : Env) (script : Script) : Turn :=
  match get_script_runner runners script.path with
  | none => ⟨{ script with state := .ERROR }, restore env env, [], none⟩
  | some runner =>
    let (env', outcome) := runner.run script.path env
    let ran := [⟨script.path, env, outcome⟩]
    match outcome with
    | .ok () => ⟨{ script with state := .SUCCESSFUL }, restore env env', ran, none⟩
    | .error (.exception _) => ⟨{ script with state := .ERROR }, restore env env', ran, none⟩
    | .error (.exit e) =>
      ⟨{ script with state := .RUNNING }, restore env env', ran, some (.exit e)⟩

/-- The loop of `run_stage`. -/
def runScripts : Env → List Script → StageRun
  | env, [] => ⟨[], env, [], none⟩
  | env, script :: rest =>
    let turn := runScript runners env script
    match turn.raised with
    | some e => ⟨turn.script :: rest, turn.env, turn.ran, some e⟩
    | none =>
      let r := runScripts turn.env rest
      ⟨turn.script :: r.scripts, r.env, turn.ran ++ r.ran, r.raised⟩

namespace InitScriptManager

/-- `_find_scripts`; `files` has the files below the directory of each stage, in order,
if there is a root directory. -/
def find_scripts (files : Option (Stage → List Str)) : Dict Stage (List Script) :=
  match files with
  | none => []
  | some files => Stage.all.map fun stage =>
    (stage, ((files stage).filter (has_script_runner runners)).map fun path => ⟨path, stage, .UNKNOWN⟩)

/-- `__init__`, with the scripts that are found at the first use. -/
def init (files : Option (Stage → List Str)) : InitScriptManager :=
  ⟨find_scripts runners files, fun _ => false⟩

variable (m : InitScriptManager)

def scriptsOf (stage : Stage) : List Script := (m.scripts.get stage).getD []

def run_stage (stage : Stage) (env : Env) : InitScriptManager × StageRun :=
  if m.stage_completed stage then (m, ⟨m.scriptsOf stage, env, [], none⟩)
  else
    let r := runScripts runners env (m.scriptsOf stage)
    (⟨if (m.scripts.get stage).isSome then m.scripts.set stage r.scripts else m.scripts,
      Function.update m.stage_completed stage true⟩, r)

/-- Calls of `run_stage` for one stage, each made in an environment of its own. -/
def calls (stage : Stage) : InitScriptManager → List Env → List StageRun
  | _, [] => []
  | m, env :: envs =>
    let (m', r) := m.run_stage runners stage env
    r :: calls stage m' envs

end InitScriptManager

/-! ## The environment -/

end

variable {runners : List ScriptRunner} {env env' : Env} {v : Str}

theorem get_restoreVar (env env' : Env) (w v : Str) :
    (restoreVar env env' w).get v = if v = w then env.get v else env'.get v := by
  unfold restoreVar
  split
  · rename_i value h
    rw [Dict.get_set]
    by_cases hv : v = w
    · rw [if_pos hv, if_pos hv.symm, hv, h]
    · rw [if_neg hv, if_neg (Ne.symm hv)]
  · rename_i h
    rw [Dict.get_erase]
    by_cases hv : v = w
    · rw [if_pos hv, if_pos hv, hv, h]
    · rw [if_neg hv, if_neg hv]

theorem get_foldl_restoreVar (vars : List Str) (env env' : Env) (v : Str) :
    (vars.foldl (restoreVar env) env').get v = if v ∈ vars then env.get v else env'.get v := by
  induction vars generalizing env' with
  | nil => simp
  | cons w vars ih =>
    rw [List.foldl_cons, ih, get_restoreVar]
    by_cases hw : v = w
    · simp [hw]
    · simp [hw]

/-- Only the protected variables are set back. -/
theorem get_restore (env env' : Env) (v : Str) :
    (restore env env').get v = if v ∈ protectedVars then env.get v else env'.get v :=
  get_foldl_restoreVar protectedVars env env' v

/-! ## One script -/

/-- The script raises past `except Exception`. -/
def Exits (runners : List ScriptRunner) (env : Env) (script : Script) : Prop :=
  ∃ runner e, get_script_runner runners script.path = some runner ∧
    (runner.run script.path env).2 = .error (.exit e)

/-- The state that an outcome calls for. -/
def stateOf : Except Raised Unit → State
  | .ok () => .SUCCESSFUL
  | .error _ => .ERROR

/-- What a turn can do with a script that has a runner. -/
theorem runScript_cases {script : Script} (h : has_script_runner runners script.path = true) :
    ∃ env' outcome,
      (¬Exits runners env script ∧ runScript runners env script =
        ⟨{ script with state := stateOf outcome }, restore env env',
          [⟨script.path, env, outcome⟩], none⟩) ∨
      (Exits runners env script ∧ ∃ e, outcome = .error (.exit e) ∧ runScript runners env script =
        ⟨{ script with state := .RUNNING }, restore env env',
          [⟨script.path, env, outcome⟩], some (.exit e)⟩) := by
  obtain ⟨runner, hr⟩ := Option.isSome_iff_exists.mp h
  have hexits : Exits runners env script ↔ ∃ e, (runner.run script.path env).2 = .error (.exit e) := by
    constructor
    · rintro ⟨runner', e, hr', he⟩
      obtain rfl := Option.some.inj (hr.symm.trans hr')
      exact ⟨e, he⟩
    · rintro ⟨e, he⟩
      exact ⟨runner, e, hr, he⟩
  refine ⟨(runner.run script.path env).1, (runner.run script.path env).2, ?_⟩
  rw [hexits, runScript, hr]
  cases ho : (runner.run script.path env).2 with
  | ok u => exact .inl ⟨by simp, by simp only [ho, stateOf]⟩
  | error r =>
    cases r with
    | exception message => exact .inl ⟨by simp, by simp only [ho, stateOf]⟩
    | exit e => exact .inr ⟨⟨e, rfl⟩, e, rfl, by simp only [ho]⟩

/-- A turn leaves the protected variables as they were. -/
theorem get_runScript_env (script : Script) (hv : v ∈ protectedVars) :
    (runScript runners env script).env.get v = env.get v := by
  have hrestore : ∀ env' : Env, (restore env env').get v = env.get v := by
    intro env'
    rw [get_restore, if_pos hv]
  unfold runScript
  split
  · exact hrestore env
  · simp only
    split <;> exact hrestore _

theorem ran_env {script : Script} {r : Ran} (h : r ∈ (runScript runners env script).ran) :
    r.env = env := by
  unfold runScript at h
  split at h
  · simp at h
  · simp only at h
    split at h <;> rw [List.mem_singleton.mp h]

theorem runScript_path (env : Env) (script : Script) :
    (runScript runners env script).script.path = script.path := by
  unfold runScript
  split
  · rfl
  · simp only
    split <;> rfl

/-! ## All scripts of a stage -/

/-- No script raises past `except Exception`, each in the environment that the ones
before it leave. -/
def NoneExits (runners : List ScriptRunner) : Env → List Script → Prop
  | _, [] => True
  | env, script :: rest =>
    ¬Exits runners env script ∧ NoneExits runners (runScript runners env script).env rest

variable {scripts : List Script}

theorem get_runScripts_env (hv : v ∈ protectedVars) :
    (runScripts runners env scripts).env.get v = env.get v := by
  induction scripts generalizing env with
  | nil => rfl
  | cons script rest ih =>
    rw [runScripts]
    simp only
    split
    · exact get_runScript_env script hv
    · exact ih.trans (get_runScript_env script hv)

theorem get_ran_env (hv : v ∈ protectedVars) :
    ∀ r ∈ (runScripts runners env scripts).ran, r.env.get v = env.get v := by
  induction scripts generalizing env with
  | nil => simp [runScripts]
  | cons script rest ih =>
    have hhead : ∀ r ∈ (runScript runners env script).ran, r.env.get v = env.get v := by
      intro r hr
      rw [ran_env hr]
    rw [runScripts]
    simp only
    split
    · exact hhead
    · intro r hr
      rcases List.mem_append.mp hr with hr | hr
      · exact hhead r hr
      · exact (ih r hr).trans (get_runScript_env script hv)

theorem runScripts_paths : (runScripts runners env scripts).scripts.map Script.path =
    scripts.map Script.path := by
  induction scripts generalizing env with
  | nil => rfl
  | cons script rest ih =>
    rw [runScripts]
    simp only
    split
    · rw [List.map_cons, List.map_cons, runScript_path]
    · rw [List.map_cons, List.map_cons, runScript_path, ih]

/-- The states of the scripts are those that the outcomes of their runs call for. -/
def StatesSet (r : StageRun) : Prop :=
  r.scripts.map Script.state = r.ran.map fun ran => stateOf ran.outcome

/-- Exactly if no script exits, every script gets the state of its outcome. -/
theorem statesSet_iff (h : ∀ s ∈ scripts, has_script_runner runners s.path = true) :
    StatesSet (runScripts runners env scripts) ↔ NoneExits runners env scripts := by
  induction scripts generalizing env with
  | nil => exact iff_of_true rfl trivial
  | cons script rest ih =>
    rw [List.forall_mem_cons] at h
    obtain ⟨env', outcome, ⟨hne, hturn⟩ | ⟨he, e, rfl, hturn⟩⟩ := @runScript_cases _ env script h.1
    · rw [NoneExits, and_iff_right hne, ← ih h.2, runScripts, hturn]
      simp [StatesSet]
    · rw [NoneExits, runScripts, hturn]
      simp [StatesSet, stateOf, he]

theorem ran_paths (h : ∀ s ∈ scripts, has_script_runner runners s.path = true)
    (hn : NoneExits runners env scripts) :
    (runScripts runners env scripts).ran.map Ran.path = scripts.map Script.path := by
  induction scripts generalizing env with
  | nil => rfl
  | cons script rest ih =>
    rw [List.forall_mem_cons] at h
    obtain ⟨env', outcome, ⟨hne, hturn⟩ | ⟨he, -⟩⟩ := @runScript_cases _ env script h.1
    · have hrest := ih h.2 hn.2
      rw [hturn] at hrest
      rw [runScripts, hturn]
      simp [hrest]
    · exact absurd he hn.1

/-! ## Calls of `run_stage` -/

namespace InitScriptManager

variable {m : InitScriptManager} {stage : Stage} {envs : List Env}

/-- Where a stage is completed, further calls run nothing and change nothing. -/
theorem calls_of_completed (h : m.stage_completed stage = true) :
    m.calls runners stage envs = envs.map fun env => ⟨m.scriptsOf stage, env, [], none⟩ := by
  induction envs with
  | nil => rfl
  | cons env envs ih =>
    have hrun : m.run_stage runners stage env = (m, ⟨m.scriptsOf stage, env, [], none⟩) := if_pos h
    rw [calls, hrun, List.map_cons]
    simp only [ih]

theorem run_stage_completed (env : Env) :
    (m.run_stage runners stage env).1.stage_completed stage = true := by
  unfold run_stage
  split
  · assumption
  · exact Function.update_self ..

theorem run_stage_scripts (env : Env) :
    (m.run_stage runners stage env).1.scriptsOf stage = (m.run_stage runners stage env).2.scripts := by
  unfold run_stage
  split
  · rfl
  · simp only [scriptsOf]
    cases h : m.scripts.get stage with
    | none => simp [h, runScripts]
    | some l => simp

theorem scriptsOf_init (files : Option (Stage → List Str)) (stage : Stage) :
    (init runners files).scriptsOf stage =
      ((files.elim [] fun files => files stage).filter (has_script_runner runners)).map
        fun path => ⟨path, stage, .UNKNOWN⟩ := by
  cases files with
  | none => rfl
  | some files => cases stage <;> rfl

/-- Every script that is found has a runner. -/
theorem has_runner_of_mem_init {files : Option (Stage → List Str)} :
    ∀ s ∈ (init runners files).scriptsOf stage, has_script_runner runners s.path = true := by
  intro s hs
  rw [scriptsOf_init] at hs
  obtain ⟨path, hp, rfl⟩ := List.mem_map.mp hs
  exact (List.mem_filter.mp hp).2

/-- The first call for a stage runs every script once and in order, with the protected
variables of `env` before and after each, and later calls run none. -/
structure RunsOnce (runners : List ScriptRunner) (m : InitScriptManager) (stage : Stage)
    (env : Env) (later : List Env) : Prop where
  in_order : (m.run_stage runners stage env).2.ran.map Ran.path =
    (m.scriptsOf stage).map Script.path
  paths : ((m.run_stage runners stage env).1.scriptsOf stage).map Script.path =
    (m.scriptsOf stage).map Script.path
  states : ((m.run_stage runners stage env).1.scriptsOf stage).map Script.state =
    (m.run_stage runners stage env).2.ran.map fun ran => stateOf ran.outcome
  later_nothing : (m.run_stage runners stage env).1.calls runners stage later =
    later.map fun env' => ⟨(m.run_stage runners stage env).1.scriptsOf stage, env', [], none⟩
  seen : ∀ r ∈ (m.run_stage runners stage env).2.ran, ∀ v ∈ protectedVars, r.env.get v = env.get v
  left : ∀ v ∈ protectedVars, (m.run_stage runners stage env).2.env.get v = env.get v

theorem run_stage_init (files : Option (Stage → List Str)) (env : Env) :
    ((init runners files).run_stage runners stage env).2 =
      runScripts runners env ((init runners files).scriptsOf stage) := by
  rw [run_stage, if_neg (by simp [init])]

/-- **Scripts run once.** Every script of a stage is run exactly once, in order, and
gets the state of its outcome, exactly if none of them raises past `except Exception`. -/
theorem runsOnce_iff (runners : List ScriptRunner) (files : Option (Stage → List Str))
    (stage : Stage) (env : Env) (later : List Env) :
    RunsOnce runners (init runners files) stage env later ↔
      NoneExits runners env ((init runners files).scriptsOf stage) := by
  have hrunner := @has_runner_of_mem_init runners stage files
  constructor
  · intro h
    have hstates := h.states
    rw [run_stage_scripts, run_stage_init] at hstates
    exact (statesSet_iff hrunner).mp hstates
  · intro h
    constructor
    · rw [run_stage_init]
      exact ran_paths hrunner h
    · rw [run_stage_scripts, run_stage_init]
      exact runScripts_paths
    · rw [run_stage_scripts, run_stage_init]
      exact (statesSet_iff hrunner).mpr h
    · exact calls_of_completed (run_stage_completed env)
    · intro r hr v hv
      rw [run_stage_init] at hr
      exact get_ran_env hv r hr
    · intro v hv
      rw [run_stage_init]
      exact get_runScripts_env hv

/-- A script that calls `exit(0)` keeps the next one from running. -/
theorem not_runsOnce_exit :
    ¬RunsOnce [PythonScriptRunner fun _ env => (env, .error (.exit "SystemExit: 0".toList))]
      (init [PythonScriptRunner fun _ env => (env, .error (.exit "SystemExit: 0".toList))]
        (some fun _ => ["a.py".toList, "b.py".toList])) .READY [] [] := by
  intro h
  exact absurd h.in_order (by decide)

end InitScriptManager

end LocalStack.Runtime.Init
