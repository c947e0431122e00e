import LocalStack.Lib.Runs
import LocalStack.Lib.Text
import LocalStack.Utils.Collections

/-! `HealthResource` of `services/internal.py`: what the requests for the health endpoint
do to the stored state, and what they report. -/

namespace LocalStack.Services.Health
open LocalStack.Text LocalStack.OrderedDict LocalStack.PathTree LocalStack.Runs
open LocalStack.Utils.Collections

variable {α : Type}

/-- The JSON values that are no objects; the items of an array are not looked at. -/
inductive Plain (α : Type)
  | null
  | bool (b : Bool)
  | number (q : Rat)
  | str (s : Str)
  | array (items : List α)
  deriving DecidableEq, Repr

abbrev Json (α : Type) := Nested Str (Plain α)

abbrev State (α : Type) := Dict Str (Json α)

def Plain.isNone : Plain α → Bool
  | .null => true
  | _ => false

/-- `bool(value)`. -/
def truthy : Json α → Bool
  | .leaf .null => false
  | .leaf (.bool b) => b
  | .leaf (.number q) => q ≠ 0
  | .leaf (.str s) => s ≠ []
  | .leaf (.array items) => !items.isEmpty
  | .node fields => !fields.isEmpty

/-! ## PUT -/

/-- The path that a key of the body stands for. -/
def path (k : Str) : List Str := if ':' ∈ k then k.splitOn ':' else [k]

/-- `state[p]` of a `defaultdict(dict)`, as far as it changes `state`. -/
def touch (state : State α) (p : Str) : State α :=
  match state.get p with
  | some _ => state
  | none => state.set p (.node [])

/-- One round of the loop over the body: `d` is in the end what `state` has under the last
key but one, or `state` itself. -/
def assign (state : State α) (k : Str) (v : Json α) : Except Raised (State α) :=
  let path := path k
  let state := path.dropLast.foldl touch state
  match path.dropLast.getLast? with
  | none => .ok (state.set (path.getLastD []) v)
  | some p =>
    match state.get p with
    | some (.node d) => .ok (state.set p (.node (Dict.set d (path.getLastD []) v)))
    | _ => .error .typeError

def build : List (Str × Json α) → State α → Except Raised (State α)
  | [], state => .ok state
  | (k, v) :: items, state => (assign state k v).bind (build items)

/-- The entries of the body, where it is an object or nothing. -/
def entries (body : Json α) : Except Raised (List (Str × Json α)) :=
  if truthy body then
    match body with
    | .node items => .ok items
    | .leaf _ => .error .attributeError
  else .ok []

def on_put (self : State α) (body : Json α) : State α × Except Raised Unit :=
  match (entries body).bind fun items => build items [] with
  | .error e => (self, .error e)
  | .ok state =>
    match merge_recursive Plain.isNone true state (.node self) with
    | (.node self, r) => (self, r)
    | (.leaf _, r) => (self, r)

/-! ## GET -/

/-- The key services. -/
def servicesKey : Str := "services".toList

def services (live : Dict Str Str) : State α := live.map fun p => (p.1, .leaf (.str p.2))

/-- The copy that is merged into shares the object under services with the stored state. -/
def shared (self : State α) : Json α → State α
  | .leaf _ => self
  | .node result =>
    match self.get servicesKey, Dict.get result servicesKey with
    | some (.node _), some merged => self.set servicesKey merged
    | _, _ => self

def on_get (version : Str) (self : State α) (live : Dict Str Str) :
    State α × Except Raised (State α) :=
  let merged := merge_recursive Plain.isNone false [(servicesKey, .node (services live))]
    (.node self)
  (shared self merged.1,
    merged.2.map fun _ =>
      match merged.1 with
      | .leaf _ => []
      | .node result =>
        (Dict.set result "edition".toList (.leaf (.str "unknown".toList))).set
          "version".toList (.leaf (.str version)))

/-! ## Requests -/

/-- A body, as `get_json` has it: `null` where it is no JSON. -/
structure Body (α : Type) where
  json : Json α
  wf : json.WF

/-- `live` has the state that each service is in when the request comes. -/
inductive Request (α : Type)
  | get (live : Dict Str Str)
  | put (body : Body α)

/-- `puts` has the entries of all the PUT requests that have succeeded. -/
structure World (α : Type) where
  state : State α
  puts : List (Str × Json α)

def World.init : World α := ⟨[], []⟩

variable (version : Str)

def step (w : World α) : Request α → Option (World α)
  | .get live => some { w with state := (on_get version w.state live).1 }
  | .put body =>
    match on_put w.state body.json, entries body.json with
    | (state, .ok _), .ok items => some ⟨state, w.puts ++ items⟩
    | (state, _), _ => some { w with state }

/-- What the entries set, one after the other. -/
def putAll (items : List (Str × Json α)) (s : View Str (Plain α)) : View Str (Plain α) :=
  items.foldl (fun s p => s.put (path p.1) p.2) s

/-- An entry sets the state of the service. -/
def Overridden (puts : List (Str × Json α)) (service : Str) : Prop :=
  ∃ p ∈ puts, View.put (path p.1) p.2 (fun _ => none) [servicesKey, service] ≠ none

/-- A PUT sets the paths of its entries and no others, or it fails and sets nothing. A GET
sets nothing, and reports the live state of a service that no PUT has overridden. -/
def Correct (w : World α) : Request α → Prop
  | .get live =>
    (on_get version w.state live).1 = w.state ∧
      ∃ report, (on_get version w.state live).2 = .ok report ∧
        ∀ service state, live.get service = some state → ¬ Overridden w.puts service →
          (Nested.node report).view [servicesKey, service] = some (.leaf (.str state))
  | .put body =>
    match on_put w.state body.json with
    | (state, .ok _) =>
      ∃ items, entries body.json = .ok items ∧
        (Nested.node state).view = putAll items (Nested.node w.state).view
    | (state, .error _) => state = w.state

/-- The entry is an object, and the stored value under its key is none. -/
def clashes (self : State α) (entry : Str × Json α) : Bool :=
  match entry.2, self.get entry.1 with
  | .node _, some (.leaf _) => true
  | _, _ => false

/-- The key has at most one colon, and an object is only put where nothing is stored. -/
def direct (self : State α) (entry : Str × Json α) : Bool :=
  (path entry.1).length ≤ 2 &&
    (!entry.2.isNode || ((Nested.node self).view (path entry.1)).isNone)

def allowed (w : World α) : Request α → Bool
  | .get live =>
    match w.state.get servicesKey with
    | none => true
    | some (.leaf _) => live.isEmpty
    | some (.node fields) => live.all fun p => !missing Plain.isNone fields p.1
  | .put body =>
    match entries body.json with
    | .error _ => true
    | .ok items =>
      match build items [] with
      | .error _ => true
      | .ok state =>
        items.all (direct w.state) &&
          (!state.any (clashes w.state) || state.head?.any (clashes w.state))

/-! ## The body -/

theorem path_ne_nil (k : Str) : path k ≠ [] := by
  unfold path
  split_ifs
  · exact List.splitOn_ne_nil ':' k
  · exact List.cons_ne_nil k []

theorem path_cases {k : Str} (h : (path k).length ≤ 2) :
    (∃ a, path k = [a]) ∨ ∃ a b, path k = [a, b] := by
  rcases hp : path k with _ | ⟨a, _ | ⟨b, _ | ⟨c, p⟩⟩⟩
  · exact absurd hp (path_ne_nil k)
  · exact .inl ⟨a, rfl⟩
  · exact .inr ⟨a, b, rfl⟩
  · simp only [hp, List.length_cons] at h
    omega

theorem touch_wf {state : State α} (h : (Nested.node state).WF) (p : Str) :
    (Nested.node (touch state p)).WF := by
  unfold touch
  split
  · exact h
  · exact h.set (.node Dict.wf_nil nofun) p

theorem get_touch (state : State α) (p : Str) :
    (touch state p).get p = some ((state.get p).getD (.node [])) := by
  unfold touch
  cases h : state.get p with
  | some t => exact h
  | none => exact Dict.get_set_self state p _

/-- What the loop does for a key with at most one colon. -/
theorem assign_cases {state state' : State α} {k : Str} {v : Json α}
    (h : assign state k v = .ok state') (hk : (path k).length ≤ 2) :
    (∃ a, path k = [a] ∧ state' = state.set a v) ∨
    ∃ a b d, path k = [a, b] ∧ (state.get a).getD (.node []) = .node d ∧
      state' = (touch state a).set a (.node (Dict.set d b v)) := by
  rcases path_cases hk with ⟨a, hp⟩ | ⟨a, b, hp⟩
  · refine .inl ⟨a, hp, ?_⟩
    simp only [assign, hp] at h
    exact (Except.ok.inj h).symm
  · refine .inr ⟨a, b, ?_⟩
    simp only [assign, hp] at h
    cases hd : (state.get a).getD (.node []) with
    | leaf x => simp [get_touch, hd] at h
    | node d =>
      refine ⟨d, hp, rfl, ?_⟩
      simp [get_touch, hd] at h
      exact h.symm

theorem touch_set (state : State α) (p : Str) (t : Json α) :
    (touch state p).set p t = state.set p t := by
  unfold touch
  split
  · rfl
  · exact Dict.set_set state p _ t

/-- It puts the path of the key, and passes no leaf on the way. -/
theorem view_assign {state state' : State α} {k : Str} {v : Json α}
    (h : assign state k v = .ok state') (hk : (path k).length ≤ 2) :
    (Nested.node state').view = View.put (path k) v (Nested.node state).view ∧
      ∀ r, r <+: path k → r ≠ path k → ∀ a, (Nested.node state).view r ≠ some (.leaf a) := by
  obtain ⟨a, hp, rfl⟩ | ⟨a, b, d, hp, hd, rfl⟩ := assign_cases h hk
  · rw [hp]
    refine ⟨(View.put_singleton state a v).symm, fun r hr hne x => ?_⟩
    rcases List.prefix_cons_iff.mp hr with rfl | ⟨r, rfl, hr'⟩
    · simp [Nested.site]
    · exact absurd (by rw [List.prefix_nil.mp hr']) hne
  · rw [hp]
    refine ⟨by rw [touch_set, View.put_pair hd], fun r hr hne x => ?_⟩
    rcases List.prefix_cons_iff.mp hr with rfl | ⟨r, rfl, hr'⟩
    · simp [Nested.site]
    · rcases List.prefix_cons_iff.mp hr' with rfl | ⟨r, rfl, hr''⟩
      · cases ha : state.get a with
        | none => simp [Nested.view_node_cons_none ha]
        | some t =>
          rw [ha, Option.getD_some] at hd
          simp [Nested.view_node_cons ha, hd, Nested.site]
      · exact absurd (by rw [List.prefix_nil.mp hr'']) hne

theorem assign_wf {state state' : State α} {k : Str} {v : Json α}
    (h : assign state k v = .ok state') (hk : (path k).length ≤ 2) (hs : (Nested.node state).WF)
    (hv : v.WF) : (Nested.node state').WF := by
  obtain ⟨a, -, rfl⟩ | ⟨a, b, d, -, hd, rfl⟩ := assign_cases h hk
  · exact hs.set hv a
  · have hda : (touch state a).get a = some (.node d) := by rw [get_touch, hd]
    exact (touch_wf hs a).set (((touch_wf hs a).get hda).set hv b) a

/-! ## The body laid over the state -/

/-- What the loop has built from the entries, seen from the stored state. -/
structure Laid (stored : View Str (Plain α)) (items : List (Str × Json α)) (state : State α) :
    Prop where
  wf : (Nested.node state).WF
  overlay : (Nested.node state).view.overlay stored = putAll items stored
  shallow : ∀ q, (Nested.node state).view q = some .node → stored q = none ∨ q.length ≤ 1
  inhabited : ∀ q, q ≠ [] → (Nested.node state).view q = some .node →
    stored q = none ∨ ∃ k, (Nested.node state).view (q ++ [k]) ≠ none

theorem laid_nil (self : Json α) (h : self.isNode = true) : Laid self.view [] [] where
  wf := .node Dict.wf_nil nofun
  overlay := by
    funext q
    cases q with
    | nil =>
      cases self with
      | leaf a => simp [Nested.isNode] at h
      | node cs => exact View.overlay_of_some rfl
    | cons k q =>
      rw [View.overlay_cons rfl, View.child_node_none (Dict.get_nil k), View.overlay_empty]
      rfl
  shallow := by
    intro q hq
    cases q with
    | nil => simp
    | cons k q => simp [Nested.view] at hq
  inhabited := by
    intro q hne hq
    cases q with
    | nil => exact absurd rfl hne
    | cons k q => simp [Nested.view] at hq

theorem putAll_snoc (items : List (Str × Json α)) (k : Str) (v : Json α)
    (s : View Str (Plain α)) : putAll (items ++ [(k, v)]) s = (putAll items s).put (path k) v := by
  simp [putAll]

/-- An entry of a shorter path stands at a key of a longer one. -/
theorem exists_snoc_prefix {q p : List Str} (h : q <+: p) (hne : q ≠ p) :
    ∃ k, q ++ [k] <+: p := by
  obtain ⟨r, rfl⟩ := h
  cases r with
  | nil => simp at hne
  | cons k r => exact ⟨k, r, by simp⟩

theorem Laid.assign {self : Json α} {items : List (Str × Json α)} {state state' : State α}
    {k : Str} {v : Json α} (hl : Laid self.view items state)
    (h : assign state k v = .ok state') (hk : (path k).length ≤ 2) (hv : v.WF)
    (hnew : v.isNode = true → self.view (path k) = none) :
    Laid self.view (items ++ [(k, v)]) state' := by
  obtain ⟨hview, hpass⟩ := view_assign h hk
  have hbelow : v.isNode = true → ∀ q, path k <+: q → self.view q = none :=
    fun hn q hq => Nested.view_eq_none_of_prefix (hnew hn) hq
  have hnode : ∀ q, v.view q = some .node → v.isNode = true := by
    intro q hq
    cases v with
    | node cs => rfl
    | leaf a => cases q <;> simp [Nested.site] at hq
  constructor
  · exact assign_wf h hk hl.wf hv
  · rw [hview, View.overlay_put hpass hbelow, hl.overlay, putAll_snoc]
  · intro q hq
    rw [hview] at hq
    unfold View.put at hq
    split_ifs at hq with hp hp'
    · exact .inl (hbelow (hnode _ hq) q hp)
    · refine .inr ?_
      have hlt : q.length < (path k).length := by
        refine lt_of_le_of_ne hp'.length_le fun he => hp ?_
        rw [hp'.eq_of_length he]
      omega
    · exact hl.shallow q hq
  · intro q hne hq
    rw [hview] at hq ⊢
    by_cases hp : path k <+: q
    · simp only [View.put, if_pos hp] at hq
      exact .inl (hbelow (hnode _ hq) q hp)
    · by_cases hp' : q <+: path k
      · obtain ⟨j, hj⟩ := exists_snoc_prefix hp' fun he => hp (by rw [he])
        refine .inr ⟨j, ?_⟩
        unfold View.put
        split_ifs with hpj
        · have he : path k = q ++ [j] := hpj.eq_of_length_le hj.length_le
          simp [he]
        · exact Option.some_ne_none _
      · simp only [View.put, if_neg hp, if_neg hp'] at hq
        refine (hl.inhabited q hne hq).imp_right ?_
        rintro ⟨j, hj⟩
        refine ⟨j, ?_⟩
        have h1 : ¬ path k <+: q ++ [j] := by
          intro hpj
          rcases List.prefix_concat_iff.mp hpj with he | hpq
          · exact hp' (he ▸ List.prefix_append q [j])
          · exact hp hpq
        have h2 : ¬ q ++ [j] <+: path k := fun hjp => hp' ((List.prefix_append q [j]).trans hjp)
        simpa only [View.put, if_neg h1, if_neg h2] using hj

theorem Laid.build {self : Json α} {done items : List (Str × Json α)} {state state' : State α}
    (hl : Laid self.view done state) (h : build items state = .ok state')
    (hok : ∀ p ∈ items, (path p.1).length ≤ 2 ∧ p.2.WF ∧
      (p.2.isNode = true → self.view (path p.1) = none)) :
    Laid self.view (done ++ items) state' := by
  induction items generalizing done state with
  | nil =>
    cases h
    rwa [List.append_nil]
  | cons p items ih =>
    obtain ⟨k, v⟩ := p
    obtain ⟨hk, hv, hnew⟩ := hok _ List.mem_cons_self
    simp only [Health.build] at h
    cases ha : Health.assign state k v with
    | error e => simp [ha, Except.bind] at h
    | ok mid =>
      rw [ha] at h
      have hrest := ih (hl.assign ha hk hv hnew) h fun p hp => hok p (List.mem_cons_of_mem _ hp)
      rwa [List.append_assoc, List.singleton_append] at hrest

theorem clashes_iff (self : State α) (k : Str) (v : Json α) :
    clashes self (k, v) = true ↔ ∃ cs a, v = .node cs ∧ self.get k = some (.leaf a) := by
  unfold clashes
  constructor
  · intro h
    split at h
    · exact ⟨_, _, ‹_›, ‹_›⟩
    · cases h
  · rintro ⟨cs, a, rfl, ha⟩
    simp only [ha]

/-- Without a clash at the top there is none further down. -/
theorem Laid.compatible {self : State α} {items : List (Str × Json α)} {state : State α}
    (hl : Laid (Nested.node self).view items state) (h : state.any (clashes self) = false) :
    Compatible (Nested.node state).view (Nested.node self).view := by
  intro q a hq hs
  rcases hl.shallow q hq with hnone | hlen
  · rw [hnone] at hs
    cases hs
  · match q, hlen with
    | [], _ => simp [Nested.site] at hs
    | [k], _ =>
      cases hk : state.get k with
      | none => simp [Nested.view_node_cons_none hk] at hq
      | some t =>
        cases hself : self.get k with
        | none => simp [Nested.view_node_cons_none hself] at hs
        | some u =>
          rw [Nested.view_node_cons hk, Nested.view_nil] at hq
          rw [Nested.view_node_cons hself, Nested.view_nil] at hs
          have hclash : clashes self (k, t) = true := by
            rw [clashes_iff]
            cases t with
            | leaf b => simp [Nested.site] at hq
            | node cs =>
              cases u with
              | node ds => simp [Nested.site] at hs
              | leaf b => exact ⟨cs, b, rfl, hself⟩
          have hmem := Dict.mem_of_get hk
          rw [List.any_eq_false] at h
          exact h _ hmem hclash

/-- Where the first entry clashes, nothing has been merged yet. -/
theorem Laid.merge_clash {self : State α} {items : List (Str × Json α)} {k : Str} {v : Json α}
    {state : State α} (hl : Laid (Nested.node self).view items ((k, v) :: state))
    (h : clashes self (k, v) = true) :
    ∃ e, merge_recursive Plain.isNone true ((k, v) :: state) (.node self) =
      (.node self, .error e) := by
  obtain ⟨cs, a, rfl, ha⟩ := (clashes_iff self k v).mp h
  have hk : Dict.get ((k, Nested.node cs) :: state) k = some (.node cs) :=
    Dict.get_cons_self k _ state
  have hcs : cs ≠ [] := by
    rintro rfl
    rcases hl.inhabited [k] (List.cons_ne_nil k [])
      (by rw [Nested.view_node_cons hk]; rfl) with hnone | ⟨j, hj⟩
    · rw [Nested.view_node_cons ha, Nested.view_nil] at hnone
      cases hnone
    · rw [List.singleton_append, Nested.view_node_cons hk] at hj
      exact hj rfl
  obtain ⟨entry, cs, rfl⟩ := List.exists_cons_of_ne_nil hcs
  obtain ⟨e, he⟩ := @merge_cons_leaf Str (Plain α) _ Plain.isNone true entry cs a
  have hentry : mergeEntry Plain.isNone true k (.node (entry :: cs)) (.node self) =
      (.node self, .error e) := by
    simp only [mergeEntry, ha, Option.getD_some, he, Dict.set_of_get ha]
  exact ⟨e, by simp only [merge_recursive, hentry]⟩

theorem entries_wf {body : Body α} {items : List (Str × Json α)}
    (h : entries body.json = .ok items) : ∀ p ∈ items, p.2.WF := by
  obtain ⟨json, hwf⟩ := body
  unfold entries at h
  split_ifs at h
  · cases hwf with
    | leaf a => cases h
    | node hd hc =>
      cases h
      exact hc
  · cases h
    exact nofun

theorem put_correct (w : World α) (body : Body α) (h : allowed w (.put body) = true) :
    Correct version w (.put body) := by
  cases hi : entries body.json with
  | error e => simp [Correct, on_put, hi, Except.bind]
  | ok items =>
    cases hb : build items [] with
    | error e => simp [Correct, on_put, hi, hb, Except.bind]
    | ok state =>
      simp only [allowed, hi, hb, Bool.and_eq_true, List.all_eq_true, Bool.or_eq_true,
        Bool.not_eq_true'] at h
      obtain ⟨hdirect, hclash⟩ := h
      have hl : Laid (Nested.node w.state).view items state := by
        refine (laid_nil (.node w.state) rfl).build hb fun p hp => ?_
        have hd := hdirect p hp
        simp only [direct, Bool.and_eq_true, decide_eq_true_eq, Bool.or_eq_true,
          Bool.not_eq_true', Option.isNone_iff_eq_none] at hd
        refine ⟨hd.1, entries_wf hi p hp, fun hn => ?_⟩
        rw [hn] at hd
        exact hd.2.resolve_left nofun
      have hput : on_put w.state body.json =
          match merge_recursive Plain.isNone true state (.node w.state) with
          | (.node self, r) => (self, r)
          | (.leaf _, r) => (w.state, r) := by
        simp only [on_put, hi, hb, Except.bind]
      by_cases hany : state.any (clashes w.state) = true
      · have hhead := hclash.resolve_left (by rw [hany]; exact nofun)
        cases state with
        | nil => cases hhead
        | cons entry rest =>
          obtain ⟨e, he⟩ := hl.merge_clash hhead
          rw [he] at hput
          simp only [Correct, hput]
      · rw [Bool.not_eq_true] at hany
        obtain ⟨d, hd, hview⟩ := merge_overwrite state hl.wf (.node w.state)
          (hl.compatible hany)
        cases d with
        | leaf a =>
          have hroot := congrFun hview []
          rw [View.overlay_of_some (Nested.view_nil _)] at hroot
          simp [Nested.site] at hroot
        | node fields =>
          rw [hd] at hput
          simp only [Correct, hput]
          exact ⟨items, hi, hview.trans hl.overlay⟩

/-! ## The live states -/

theorem missing_set_str (fields : State α) (k : Str) (st : Str) :
    missing Plain.isNone (Dict.set fields k (.leaf (.str st))) k = false := by
  simp only [missing, Dict.get_set_self]
  rfl

theorem missing_set_ne (fields : State α) {k k' : Str} (t : Json α) (h : k ≠ k') :
    missing Plain.isNone (Dict.set fields k t) k' = missing Plain.isNone fields k' := by
  simp only [missing, Dict.get_set_ne fields t h]

/-- What a service has already stays, and a service that has nothing gets its live state. -/
theorem merge_services (live : Dict Str Str) (fields : State α) :
    ∃ merged, merge_recursive Plain.isNone false (services live) (.node fields) =
        (.node merged, .ok ()) ∧
      ∀ k, (missing Plain.isNone fields k = false → Dict.get merged k = fields.get k) ∧
        ∀ st, live.get k = some st → missing Plain.isNone fields k = true →
          Dict.get merged k = some (.leaf (.str st)) := by
  induction live generalizing fields with
  | nil => exact ⟨fields, rfl, fun k => ⟨fun _ => rfl, nofun⟩⟩
  | cons p live ih =>
    obtain ⟨name, st⟩ := p
    by_cases hm : missing Plain.isNone fields name = true
    · obtain ⟨merged, hrun, hmerged⟩ := ih (fields.set name (.leaf (.str st)))
      refine ⟨merged, ?_, fun k => ?_⟩
      · simpa only [services, List.map_cons, merge_recursive, mergeEntry, hm, Bool.false_or,
          ↓reduceIte] using hrun
      · by_cases hk : name = k
        · subst hk
          refine ⟨fun hf => absurd (hf.symm.trans hm) nofun, fun st' hst _ => ?_⟩
          rw [Dict.get_cons_self] at hst
          rw [(hmerged name).1 (missing_set_str fields name st), Dict.get_set_self,
            Option.some.inj hst]
        · obtain ⟨hkeep, hlive⟩ := hmerged k
          rw [missing_set_ne fields _ hk] at hkeep hlive
          rw [Dict.get_set_ne fields _ hk] at hkeep
          rw [Dict.get_cons_ne st live hk]
          exact ⟨hkeep, hlive⟩
    · rw [Bool.not_eq_true] at hm
      obtain ⟨merged, hrun, hmerged⟩ := ih fields
      refine ⟨merged, ?_, fun k => ⟨(hmerged k).1, fun st' hst hk => ?_⟩⟩
      · simpa only [services, List.map_cons, merge_recursive, mergeEntry, hm, Bool.false_or,
          Bool.false_eq_true, ↓reduceIte] using hrun
      · have hne : name ≠ k := by
          rintro rfl
          rw [hm] at hk
          cases hk
        rw [Dict.get_cons_ne st live hne] at hst
        exact (hmerged k).2 st' hst hk

/-- Where every service has something, nothing is merged. -/
theorem merge_services_of_present {live : Dict Str Str} {fields : State α}
    (h : ∀ p ∈ live, missing Plain.isNone fields p.1 = false) :
    merge_recursive Plain.isNone false (services live) (.node fields) =
      (.node fields, .ok ()) := by
  induction live with
  | nil => rfl
  | cons p live ih =>
    have hp := h p List.mem_cons_self
    have hrest := ih fun q hq => h q (List.mem_cons_of_mem _ hq)
    simpa only [services, List.map_cons, merge_recursive, mergeEntry, hp, Bool.false_or,
      Bool.false_eq_true, ↓reduceIte] using hrest

/-- The report, from what the merge has left under services. -/
theorem on_get_of_merge {self : State α} {live : Dict Str Str} {t : Json α}
    (h : merge_recursive Plain.isNone false (services live)
      ((self.get servicesKey).getD (.node [])) = (t, .ok ())) :
    on_get version self live =
      (shared self (.node (self.set servicesKey t)),
        .ok (((self.set servicesKey t).set "edition".toList (.leaf (.str "unknown".toList))).set
          "version".toList (.leaf (.str version)))) := by
  have hrun : merge_recursive Plain.isNone false [(servicesKey, .node (services live))]
      (.node self) = (.node (self.set servicesKey t), .ok ()) := by
    have hentry : mergeEntry Plain.isNone false servicesKey (.node (services live))
        (.node self) = (.node (self.set servicesKey t), .ok ()) := by
      simp only [mergeEntry, h]
    simp only [merge_recursive, hentry]
  simp only [on_get, hrun]
  rfl

theorem shared_none {self : State α} (h : self.get servicesKey = none) (t : Json α) :
    shared self t = self := by
  cases t with
  | leaf a => rfl
  | node cs => simp only [shared, h]

theorem shared_self (self : State α) : shared self (.node self) = self := by
  simp only [shared]
  split
  · exact Dict.set_of_get ‹_›
  · rfl

theorem view_report (fields : State α) (service : Str) :
    (Nested.node ((fields.set "edition".toList (.leaf (.str "unknown".toList))).set
      "version".toList (.leaf (.str version)))).view [servicesKey, service] =
      (Nested.node fields).view [servicesKey, service] := by
  rw [Nested.view_set, if_neg (by decide), Nested.view_set, if_neg (by decide)]

/-- The stored states of services all come from PUT requests. -/
def Explained (w : World α) : Prop :=
  ∀ service, (Nested.node w.state).view [servicesKey, service] ≠ none →
    Overridden w.puts service

theorem get_correct {w : World α} (hw : Explained w) (live : Dict Str Str)
    (h : allowed w (.get live) = true) : Correct version w (.get live) := by
  cases hs : w.state.get servicesKey with
  | none =>
    obtain ⟨merged, hrun, hmerged⟩ := merge_services live ([] : State α)
    have hget := @on_get_of_merge α version w.state live _ (by rw [hs]; exact hrun)
    refine ⟨by rw [hget, shared_none hs], _, by rw [hget], fun service state hlive _ => ?_⟩
    have hfields : Dict.get (w.state.set servicesKey (.node merged)) servicesKey =
      some (.node merged) := Dict.get_set_self ..
    rw [view_report, Nested.view_node_cons hfields,
      Nested.view_node_cons ((hmerged service).2 state hlive rfl)]
    rfl
  | some stored =>
    cases stored with
    | leaf a =>
      simp only [allowed, hs, List.isEmpty_iff] at h
      subst h
      have hget := @on_get_of_merge α version w.state [] (.leaf a) (by rw [hs]; rfl)
      rw [Dict.set_of_get hs] at hget
      exact ⟨by rw [hget, shared_self], _, by rw [hget], nofun⟩
    | node fields =>
      simp only [allowed, hs, List.all_eq_true, Bool.not_eq_true'] at h
      have hget := @on_get_of_merge α version w.state live (.node fields)
        (by rw [hs]; exact merge_services_of_present h)
      rw [Dict.set_of_get hs] at hget
      refine ⟨by rw [hget, shared_self], _, by rw [hget], fun service state hlive hnot => ?_⟩
      refine absurd (hw service ?_) hnot
      have hpresent := h _ (Dict.mem_of_get hlive)
      rw [Nested.view_node_cons hs]
      cases hf : Dict.get fields service with
      | none => simp [missing, hf] at hpresent
      | some t =>
        rw [Nested.view_node_cons hf, Nested.view_nil]
        exact nofun

/-- For GET the condition is exact: else the live states end up in the stored object, or
there is no object to merge them into. -/
theorem allowed_of_get_correct {w : World α} {live : Dict Str Str}
    (h : Correct version w (.get live)) : allowed w (.get live) = true := by
  obtain ⟨hstate, report, hreport, -⟩ := h
  cases hs : w.state.get servicesKey with
  | none => simp only [allowed, hs]
  | some stored =>
    cases stored with
    | leaf a =>
      cases live with
      | nil => simp only [allowed, hs, List.isEmpty_nil]
      | cons p live =>
        obtain ⟨e, he⟩ := @merge_cons_leaf Str (Plain α) _ Plain.isNone false
          (p.1, .leaf (.str p.2)) (services live) a
        have hentry : mergeEntry Plain.isNone false servicesKey (.node (services (p :: live)))
            (.node w.state) = (.node w.state, .error e) := by
          simp only [mergeEntry, hs, Option.getD_some, services, List.map_cons] at he ⊢
          rw [he, Dict.set_of_get hs]
        simp only [on_get, merge_recursive, hentry] at hreport
        cases hreport
    | node fields =>
      obtain ⟨merged, hrun, hmerged⟩ := merge_services live fields
      have hget := @on_get_of_merge α version w.state live _ (by rw [hs]; exact hrun)
      have hset : w.state.set servicesKey (.node merged) = w.state := by
        rw [hget] at hstate
        simpa only [shared, hs, Dict.get_set_self] using hstate
      have heq : merged = fields := by
        have hboth := Dict.get_set_self w.state servicesKey (.node merged)
        rw [hset, hs] at hboth
        exact (Nested.node.inj (Option.some.inj hboth)).symm
      subst heq
      simp only [allowed, hs, List.all_eq_true, Bool.not_eq_true']
      intro p hp
      by_contra hmissing
      rw [Bool.not_eq_false] at hmissing
      obtain ⟨st, hst⟩ := Dict.exists_get (Dict.mem_keys_of_mem hp)
      have hfilled := (hmerged p.1).2 st hst hmissing
      simp [missing, hfilled, Plain.isNone] at hmissing

/-! ## Runs -/

theorem putAll_ne_none {items : List (Str × Json α)} {s : View Str (Plain α)} {q : List Str}
    (h : putAll items s q ≠ none) :
    (∃ p ∈ items, View.put (path p.1) p.2 (fun _ => none) q ≠ none) ∨ s q ≠ none := by
  induction items generalizing s with
  | nil => exact .inr h
  | cons p items ih =>
    rcases @ih (s.put (path p.1) p.2) h with ⟨p', hp', hput⟩ | hq
    · exact .inl ⟨p', List.mem_cons_of_mem _ hp', hput⟩
    · exact (View.put_ne_none hq).imp_left fun hput => ⟨p, List.mem_cons_self, hput⟩

theorem allowed_correct {w : World α} (hw : Explained w) (r : Request α)
    (h : allowed w r = true) : Correct version w r := by
  cases r with
  | get live => exact get_correct version hw live h
  | put body => exact put_correct version w body h

theorem step_explained {w w' : World α} {r : Request α} (hw : Explained w)
    (h : allowed w r = true) (hs : step version w r = some w') : Explained w' := by
  have hc := allowed_correct version hw r h
  cases r with
  | get live =>
    cases hs
    have hstate : (on_get version w.state live).1 = w.state := hc.1
    simpa only [Explained, hstate] using hw
  | put body =>
    simp only [Correct] at hc
    rcases hput : on_put w.state body.json with ⟨state, _ | _⟩
    · rw [hput] at hc
      simp only [step, hput, Option.some.injEq] at hs
      subst hs
      simpa only [Explained, hc] using hw
    · rw [hput] at hc
      obtain ⟨items, hi, hview⟩ := hc
      simp only [step, hput, hi, Option.some.injEq] at hs
      subst hs
      intro service hne
      rw [hview] at hne
      rcases putAll_ne_none hne with ⟨p, hp, hset⟩ | hold
      · exact ⟨p, List.mem_append_right _ hp, hset⟩
      · obtain ⟨p, hp, hset⟩ := hw service hold
        exact ⟨p, List.mem_append_left _ hp, hset⟩

/-- In a run whose requests are all allowed, every request does what it should. -/
theorem guarded_correct {es : List (Event (World α) (Request α))} {w : World α}
    (hr : Run (step version) World.init es w)
    (h : Guarded (fun w r => allowed w r = true) es) : Guarded (Correct version) es := by
  have hinit : Explained (World.init : World α) := by
    intro service hne
    exact absurd rfl hne
  have hall := hr.always hinit (fun _ _ _ hw hok hs => step_explained version hw hok hs) h
  exact fun e he => allowed_correct version (hr.pre_of_always hall he) e.label (h e he)

/-- One entry, whose value is no object. -/
def Body.single (k : Str) (v : Plain α) : Body α where
  json := .node [(k, .leaf v)]
  wf := .node (by simp [Dict.WF]) fun p hp => by
    rw [List.mem_singleton] at hp
    subst hp
    exact .leaf v

/-- A feature and the state of a service are set, between two GET requests. -/
theorem puts_and_gets_correct :
    ∃ (es : List (Event (World Nat) (Request Nat))) (w : World Nat),
      Run (step "4.0".toList) World.init es w ∧
      es.map Event.label =
        [.put (.single "features:initScripts".toList (.str "completed".toList)),
          .get [("s3".toList, "available".toList)],
          .put (.single "services:s3".toList (.str "disabled".toList)),
          .get [("s3".toList, "running".toList)]] ∧
      (Nested.node w.state).view [servicesKey, "s3".toList] =
        some (.leaf (.str "disabled".toList)) ∧
      Guarded (Correct "4.0".toList) es := by
  obtain ⟨es, w, hr, hok, hlabels, hview⟩ := @exists_guarded_run _ _ (step "4.0".toList)
    World.init _ (fun w r => allowed w r = true) _
    (fun w : World Nat => (Nested.node w.state).view [servicesKey, "s3".toList])
    [.put (.single "features:initScripts".toList (.str "completed".toList)),
      .get [("s3".toList, "available".toList)],
      .put (.single "services:s3".toList (.str "disabled".toList)),
      .get [("s3".toList, "running".toList)]]
    (some (.leaf (.str "disabled".toList))) (by decide +kernel)
  exact ⟨es, w, hr, hlabels, hview, guarded_correct _ hr hok⟩

/-- A key with two colons sets the path of its last two parts. -/
theorem two_colons_misplaced :
    ¬ ∀ (version : Str) (es : List (Event (World Nat) (Request Nat))) (w : World Nat),
      Run (step version) World.init es w → Guarded (Correct version) es := by
  intro h
  have hstep : (step [] (World.init : World Nat)
      (.put (.single "a:b:c".toList (.number 1)))).isSome := by decide +kernel
  obtain ⟨w, hw⟩ := Option.isSome_iff_exists.mp hstep
  have hc := h [] _ w (Run.nil.snoc hw) _ (List.mem_append_right _ (List.mem_singleton_self _))
  simp only [Correct] at hc
  split at hc
  next state _ hput =>
    obtain ⟨items, hitems, hview⟩ := hc
    have hentries : entries (Body.single "a:b:c".toList (Plain.number 1) : Body Nat).json =
        .ok [("a:b:c".toList, .leaf (.number 1))] := rfl
    rw [hentries, Except.ok.injEq] at hitems
    have hne : (Nested.node (on_put (World.init : World Nat).state
        (Body.single "a:b:c".toList (.number 1)).json).1).view
          ["a".toList, "b".toList, "c".toList] ≠
        putAll [("a:b:c".toList, .leaf (.number 1))]
          (Nested.node (World.init : World Nat).state).view
          ["a".toList, "b".toList, "c".toList] := by decide +kernel
    rw [hput] at hne
    rw [← hitems] at hview
    exact hne (congrFun hview _)
  next _ _ hput =>
    have hok : (on_put (World.init : World Nat).state
        (Body.single "a:b:c".toList (.number 1)).json).2.isOk = true := by decide +kernel
    rw [hput] at hok
    cases hok

end LocalStack.Services.Health
