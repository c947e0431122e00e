import LocalStack.Lib.OrderedDict
import LocalStack.Lib.Text
import LocalStack.Lib.Worklist
import Mathlib.Data.Finset.Lattice.Fold
import Mathlib.Order.Bounds.Basic

/-! `resolve_apis` of `utils/bootstrap.py`: the names that a list of services stands
for, with the services that they depend on. -/

namespace LocalStack.Utils.Bootstrap
open LocalStack.OrderedDict LocalStack.Text LocalStack.Worklist Relation

variable {ν : Type*} [DecidableEq ν]

/-- `API_COMPOSITES` and `API_DEPENDENCIES`. -/
structure Tables (ν : Type*) where
  composites : Dict ν (List ν)
  dependencies : Dict ν (List ν)

def API_DEPENDENCIES : Dict Str (List Str) :=
  [("dynamodb", ["dynamodbstreams"]), ("dynamodbstreams", ["kinesis"]), ("es", ["opensearch"]),
    ("cloudformation", ["s3", "sts"]), ("lambda", ["s3", "sts"]), ("firehose", ["kinesis"]),
    ("transcribe", ["s3"]), ("secretsmanager", ["kms", "lambda"]),
    ("ssm", ["secretsmanager"])].map fun e => (e.1.toList, e.2.map String.toList)

def API_COMPOSITES : Dict Str (List Str) :=
  [("serverless", ["cloudformation", "cloudwatch", "iam", "sts", "lambda", "dynamodb",
      "apigateway", "s3"]),
    ("cognito", ["cognito-idp", "cognito-identity"]),
    ("timestream", ["timestream-write", "timestream-query"])].map fun e =>
      (e.1.toList, e.2.map String.toList)

def apiTables : Tables Str := ⟨API_COMPOSITES, API_DEPENDENCIES⟩

/-- The loop of `resolve_apis` in a number of turns, with the top of the stack as the
head; `none` where the turns do not suffice. -/
def resolve_loop (tables : Tables ν) : Nat → List ν → Finset ν → Option (Finset ν)
  | _, [], result => some result
  | 0, _ :: _, _ => none
  | turns + 1, service :: stack, result =>
    if service ∈ result then resolve_loop tables turns stack result
    else
      match tables.composites.get service with
      | some members => resolve_loop tables turns (members.reverse ++ stack) result
      | none =>
        match tables.dependencies.get service with
        | some services =>
          resolve_loop tables turns (services.reverse ++ stack) (insert service result)
        | none => resolve_loop tables turns stack (insert service result)

def resolve_apis (tables : Tables ν) (turns : Nat) (services : List ν) : Option (Finset ν) :=
  resolve_loop tables turns services.reverse ∅

/-! ## What the names stand for -/

/-- `m` is one of the members of the composite `c`. -/
def Member (tables : Tables ν) (c m : ν) : Prop := ∃ ms, tables.composites.get c = some ms ∧ m ∈ ms

/-- No composite is a member of itself, directly or through other composites. -/
def Acyclic (tables : Tables ν) : Prop := ∀ c, ¬ TransGen (Member tables) c c

/-- A name that is not a composite, and that the name `n` stands for: it is `n`, or a
member of `n`, recursively. -/
def Expands (tables : Tables ν) (n m : ν) : Prop :=
  ReflTransGen (Member tables) n m ∧ tables.composites.get m = none

/-- A set of names without composites that has what the services stand for, and what the
dependencies of its own names stand for. -/
structure Closed (tables : Tables ν) (services : List ν) (S : Set ν) : Prop where
  no_composite : ∀ s ∈ S, tables.composites.get s = none
  requested : ∀ s ∈ services, ∀ m, Expands tables s m → m ∈ S
  dependencies : ∀ s ∈ S, ∀ ds, tables.dependencies.get s = some ds → ∀ d ∈ ds, ∀ m,
    Expands tables d m → m ∈ S

/-! ## The loop as a search -/

section
variable (tables : Tables ν)

/-- What is pushed for a name. -/
def pushed (service : ν) : List ν :=
  match tables.composites.get service with
  | some members => members
  | none => (tables.dependencies.get service).getD []

def recorded (service : ν) : Bool := (tables.composites.get service).isNone

end

variable {tables : Tables ν} {services : List ν} {n m x : ν}

theorem resolve_loop_eq (tables : Tables ν) (turns : Nat) (stack : List ν) (result : Finset ν) :
    resolve_loop tables turns stack result =
      search (pushed tables) (recorded tables) turns stack result := by
  induction turns generalizing stack result with
  | zero => cases stack <;> rfl
  | succ turns ih =>
    cases stack with
    | nil => rfl
    | cons service stack =>
      rw [resolve_loop, search]
      split
      · exact ih _ _
      · cases hc : tables.composites.get service with
        | some members => simp [recorded, pushed, hc, ih]
        | none =>
          cases hd : tables.dependencies.get service with
          | some ds => simp [recorded, pushed, hc, hd, ih]
          | none => simp [recorded, pushed, hc, hd, ih]

theorem recorded_iff : recorded tables x = true ↔ tables.composites.get x = none := by
  simp [recorded]

theorem member_iff : Member tables n m ↔ recorded tables n = false ∧ m ∈ pushed tables n := by
  unfold Member recorded pushed
  cases h : tables.composites.get n <;> simp

theorem mem_pushed_of_recorded (h : tables.composites.get n = none) :
    m ∈ pushed tables n ↔ ∃ ds, tables.dependencies.get n = some ds ∧ m ∈ ds := by
  rw [pushed, h]
  cases hd : tables.dependencies.get n <;> simp

/-! ## Termination -/

/-- Every name that the loop can meet. -/
def mentioned (tables : Tables ν) (services : List ν) : Finset ν :=
  (services ++ tables.composites.flatMap Prod.snd ++
    tables.dependencies.flatMap Prod.snd).toFinset

theorem pushed_mentioned (h : m ∈ pushed tables n) : m ∈ mentioned tables services := by
  simp only [mentioned, List.mem_toFinset, List.mem_append, List.mem_flatMap]
  unfold pushed at h
  split at h
  · rename_i members hc
    exact .inl (.inr ⟨_, Dict.mem_of_get hc, h⟩)
  · cases hd : tables.dependencies.get n with
    | none => simp [hd] at h
    | some ds =>
      rw [hd, Option.getD_some] at h
      exact .inr ⟨_, Dict.mem_of_get hd, h⟩

/-- Composites without cycles end: each of them can be met once on a way down. -/
theorem acc_of_acyclic (hacyclic : Acyclic tables) (above : Finset ν)
    (habove : ∀ a ∈ above, TransGen (Member tables) a n) :
    Acc (fun m c => Member tables c m) n := by
  induction hcard : ((Dict.keys tables.composites).toFinset \ above).card using
    Nat.strong_induction_on generalizing n above with
  | _ k ih =>
    refine Acc.intro n fun m hm => ?_
    obtain ⟨ms, hms, -⟩ := id hm
    have hn : n ∉ above := fun hmem => hacyclic n (habove n hmem)
    have hkey : n ∈ (Dict.keys tables.composites).toFinset :=
      List.mem_toFinset.mpr (Dict.mem_keys_of_mem (Dict.mem_of_get hms))
    refine ih _ (hcard ▸ card_sdiff_insert_lt hkey hn) (insert n above) ?_ rfl
    intro a ha
    rcases Finset.mem_insert.mp ha with rfl | ha
    · exact .single hm
    · exact (habove a ha).tail hm

/-- **The loop ends** for every list of services. -/
theorem exists_resolve_apis (hacyclic : Acyclic tables) (services : List ν) :
    ∃ turns result, resolve_apis tables turns services = some result := by
  have hends : Ends (pushed tables) (recorded tables) services.reverse ∅ := by
    refine @ends_of_wellFounded ν _ _ _ _ _ (mentioned tables services)
      (fun x _ y hy => pushed_mentioned hy) ?_ ?_
    · refine ⟨fun n => ?_⟩
      have hacc := acc_of_acyclic hacyclic ∅ (n := n) (by simp)
      simpa only [member_iff] using hacc
    · intro x hx
      simp only [mentioned, List.mem_toFinset, List.mem_append]
      exact .inl (.inl (List.mem_reverse.mp hx))
  obtain ⟨turns, result, h⟩ := hends
  exact ⟨turns, result, by rw [resolve_apis, resolve_loop_eq, h]⟩

/-! ## The least closed set -/

/-- The names that a search from the services records. -/
def needed (tables : Tables ν) (services : List ν) : Set ν :=
  {x | tables.composites.get x = none ∧ Reachable (pushed tables) services x}

theorem Expands.reachable (h : Expands tables n m) (hn : Reachable (pushed tables) services n) :
    m ∈ needed tables services := by
  refine ⟨h.2, ?_⟩
  have hpath := h.1
  clear h
  induction hpath with
  | refl => exact hn
  | tail _ hstep ih => exact ih.step (member_iff.mp hstep).2

theorem needed_closed (tables : Tables ν) (services : List ν) :
    Closed tables services (needed tables services) where
  no_composite := fun s hs => hs.1
  requested := fun s hs m hm => hm.reachable ⟨s, hs, .refl⟩
  dependencies := by
    intro s hs ds hds d hd m hm
    exact hm.reachable (hs.2.step ((mem_pushed_of_recorded hs.1).mpr ⟨ds, hds, hd⟩))

/-- What a name on the way stands for is in every closed set. -/
theorem Closed.expands {S : Set ν} (hS : Closed tables services S)
    (hx : Reachable (pushed tables) services x) (hm : Expands tables x m) : m ∈ S := by
  obtain ⟨i, hi, hpath⟩ := hx
  induction hpath generalizing m with
  | refl => exact hS.requested i hi m hm
  | @tail y z _ hstep ih =>
    cases hy : tables.composites.get y with
    | some members =>
      have hmember : Member tables y z := member_iff.mpr ⟨by simp [recorded, hy], hstep⟩
      exact ih ⟨.head hmember hm.1, hm.2⟩
    | none =>
      obtain ⟨ds, hds, hd⟩ := (mem_pushed_of_recorded hy).mp hstep
      exact hS.dependencies y (ih ⟨.refl, hy⟩) ds hds z hd m hm

theorem isLeast_needed (tables : Tables ν) (services : List ν) :
    IsLeast {S | Closed tables services S} (needed tables services) :=
  ⟨needed_closed tables services, fun _ hS _ hx => hS.expands hx.2 ⟨.refl, hx.1⟩⟩

theorem resolve_apis_eq {turns : Nat} {result : Finset ν}
    (h : resolve_apis tables turns services = some result) :
    (result : Set ν) = needed tables services := by
  rw [resolve_apis, resolve_loop_eq] at h
  ext x
  rw [Finset.mem_coe, mem_of_search h, recorded_iff]
  rfl

/-- Order and repetition make no difference. -/
theorem needed_congr {services' : List ν} (h : ∀ s, s ∈ services' ↔ s ∈ services) :
    needed tables services' = needed tables services := by
  simp only [needed, Reachable, h]

/-- **Names are resolved to the least closed set.** For all tables with acyclic
composites and every list of services the loop ends, with the least closed set, and any
list of the same services gives the same set. -/
theorem resolve_apis_least (hacyclic : Acyclic tables) (services : List ν) :
    ∃ turns result, resolve_apis tables turns services = some result ∧
      IsLeast {S | Closed tables services S} (result : Set ν) ∧
      ∀ services', (∀ s, s ∈ services' ↔ s ∈ services) → ∀ turns' result',
        resolve_apis tables turns' services' = some result' → result' = result := by
  obtain ⟨turns, result, h⟩ := exists_resolve_apis hacyclic services
  refine ⟨turns, result, h, ?_, ?_⟩
  · rw [resolve_apis_eq h]
    exact isLeast_needed tables services
  · intro services' hsame turns' result' h'
    rw [← Finset.coe_inj, resolve_apis_eq h, resolve_apis_eq h', needed_congr hsame]

/-- Composites without composites among their members are acyclic. -/
theorem acyclic_of_flat (h : ∀ entry ∈ tables.composites, ∀ m ∈ entry.2,
    tables.composites.get m = none) : Acyclic tables := by
  intro c hcycle
  obtain ⟨b, -, hlast⟩ := TransGen.tail'_iff.mp hcycle
  obtain ⟨ms, hms, hm⟩ := hlast
  obtain ⟨d, hfirst, -⟩ := TransGen.head'_iff.mp hcycle
  obtain ⟨cs, hcs, -⟩ := hfirst
  rw [h _ (Dict.mem_of_get hms) c hm] at hcs
  exact absurd hcs (Option.some_ne_none cs).symm

theorem apiTables_acyclic : Acyclic apiTables := acyclic_of_flat (by decide +kernel)

theorem serverless_resolved : ∃ turns result,
    resolve_apis apiTables turns ["serverless".toList] = some result ∧
      IsLeast {S | Closed apiTables ["serverless".toList] S} (result : Set Str) ∧
      ∀ services', (∀ s, s ∈ services' ↔ s ∈ ["serverless".toList]) → ∀ turns' result',
        resolve_apis apiTables turns' services' = some result' → result' = result :=
  resolve_apis_least apiTables_acyclic ["serverless".toList]

end LocalStack.Utils.Bootstrap
