import LocalStack.Services.TransferTables

/-! The Transfer provider refines a map from accounts and regions to servers, and from
servers to ordered maps of users and their roles. -/

namespace LocalStack.Services.Transfer
open LocalStack.OrderedDict LocalStack.Text LocalStack.Regex LocalStack.Stateful
open LocalStack.Services.Stores

/-! ## The abstract map -/

/-- The servers of each account and region, with the roles of their users in the order
in which they were created. -/
abbrev Model := RequestContext → Dict Str (Dict Str Str)

/-- The fields of an ARN. -/
structure Arn where
  partition : Str
  service : Str
  region : Str
  account_id : Str
  resource : Str

def Arn.toStr (arn : Arn) : Str :=
  "arn:".toList ++ arn.partition ++ ":".toList ++ arn.service ++ ":".toList ++ arn.region ++
    ":".toList ++ arn.account_id ++ ":".toList ++ arn.resource

/-- A server belongs to the account and the region of the request that created it. -/
def Arn.ofServer (c : RequestContext) (i : Str) : Arn where
  partition := "aws".toList
  service := "transfer".toList
  region := c.region
  account_id := c.account_id
  resource := "server/".toList ++ i

/-- A user is named below its server. -/
def Arn.ofUser (c : RequestContext) (i n : Str) : Arn where
  partition := "aws".toList
  service := "transfer".toList
  region := c.region
  account_id := c.account_id
  resource := "user/".toList ++ i ++ "/".toList ++ n

section Requests

variable (m : Model) (c : RequestContext)

def Model.setUsers (i : Str) (us : Dict Str Str) : Model :=
  Function.update m c (Dict.set (m c) i us)

/-- What an admitted request does to the map. -/
def Model.apply : Request → Except Error Response × Model
  | .create_server u =>
    (.ok (.CreateServerResponse (_generate_server_id u)), m.setUsers c (_generate_server_id u) [])
  | .describe_server i =>
    match Dict.get (m c) i with
    | none => (.error (unknownServer i), m)
    | some _ => (.ok (.DescribeServerResponse i (Arn.ofServer c i).toStr ONLINE), m)
  | .create_user role i n =>
    match Dict.get (m c) i with
    | none => (.error (unknownServer i), m)
    | some us =>
      if n ∈ Dict.keys us then (.error (userExists i n), m)
      else (.ok (.CreateUserResponse i n), m.setUsers c i (us ++ [(n, role)]))
  | .list_users i =>
    match Dict.get (m c) i with
    | none => (.error (unknownServer i), m)
    | some us =>
      (.ok (.ListUsersResponse i (us.map fun p => ⟨(Arn.ofUser c i p.1).toStr, p.1, p.2⟩)), m)
  | .delete_user i n =>
    match Dict.get (m c) i with
    | none => (.error (unknownServer i), m)
    | some us =>
      if n ∈ Dict.keys us then (.ok .deleted, m.setUsers c i (Dict.erase us n))
      else (.error (unknownUser n), m)

end Requests

def Model.handle (cfg : Config Nat) (r : RequestContext × Request) (m : Model) :
    Except Error Response × Model :=
  match precheck cfg r.1 r.2.server_id with
  | .error e => (.error e, m)
  | .ok () => m.apply r.1 r.2

/-! ## Fresh ids -/

/-- The server that a request creates. -/
def created (r : RequestContext × Request) : Option (RequestContext × Str) :=
  match r.2 with
  | .create_server u => some (r.1, _generate_server_id u)
  | _ => none

/-- No account and region gets an id twice. -/
def Fresh (rs : List (RequestContext × Request)) : Prop := (rs.filterMap created).Nodup

/-! ## Tables stand for the map -/

def serverRecord (c : RequestContext) (i : Str) : ServerInstance :=
  ⟨i, (Arn.ofServer c i).toStr, ONLINE⟩

def userRecord (c : RequestContext) (i n role : Str) : UserInstance :=
  ⟨n, i, role, (Arn.ofUser c i n).toStr⟩

theorem arn_start : "arn:aws:transfer:".toList =
    "arn:".toList ++ "aws".toList ++ ":".toList ++ "transfer".toList ++ ":".toList := by decide

theorem serverArn_eq (c : RequestContext) (i : Str) :
    serverArn c i = (Arn.ofServer c i).toStr := by
  have hresource : ":server/".toList = ":".toList ++ "server/".toList := by decide
  unfold serverArn
  rw [arn_start, hresource]
  show _ = "arn:".toList ++ "aws".toList ++ ":".toList ++ "transfer".toList ++ ":".toList ++
    c.region ++ ":".toList ++ c.account_id ++ ":".toList ++ ("server/".toList ++ i)
  simp only [List.append_assoc]

theorem userArn_eq (c : RequestContext) (i n : Str) :
    userArn c i n = (Arn.ofUser c i n).toStr := by
  have hresource : ":user/".toList = ":".toList ++ "user/".toList := by decide
  unfold userArn
  rw [arn_start, hresource]
  show _ = "arn:".toList ++ "aws".toList ++ ":".toList ++ "transfer".toList ++ ":".toList ++
    c.region ++ ":".toList ++ c.account_id ++ ":".toList ++
      ("user/".toList ++ i ++ "/".toList ++ n)
  simp only [List.append_assoc]

/-- The records of the users of a server. -/
def userRecords (c : RequestContext) (i : Str) (us : Dict Str Str) : Dict Str UserInstance :=
  us.map fun p => (p.1, userRecord c i p.1 p.2)

structure Represents (cfg : Config Nat) (t : Tables) (m : Model) : Prop where
  servers : ∀ c i, Dict.get (t.servers c) i = (Dict.get (m c) i).map fun _ => serverRecord c i
  users : ∀ c i us, Dict.get (m c) i = some us → t.usersOf c i = userRecords c i us
  stored : ∀ c i, Dict.get (m c) i = none → Dict.get (t.users c) i = none
  admitted : ∀ c i us, Dict.get (m c) i = some us → precheck cfg c none = .ok ()

variable {cfg : Config Nat} {t : Tables} {m : Model} {c : RequestContext}

theorem usersOf_setUsers (t : Tables) (c c' : RequestContext) (i i' : Str)
    (d : Dict Str UserInstance) :
    (t.setUsers c i d).usersOf c' i' = if c' = c ∧ i = i' then d else t.usersOf c' i' := by
  by_cases hc : c' = c
  · subst hc
    by_cases hi : i = i'
    · simp [Tables.usersOf, Tables.setUsers, hi]
    · simp [Tables.usersOf, Tables.setUsers, Dict.get_set, hi]
  · simp [Tables.usersOf, Tables.setUsers, hc]

theorem get_setUsers (m : Model) (c c' : RequestContext) (i i' : Str) (us : Dict Str Str) :
    Dict.get (m.setUsers c i us c') i' =
      if c' = c ∧ i = i' then some us else Dict.get (m c') i' := by
  by_cases hc : c' = c
  · subst hc
    simp [Model.setUsers, Dict.get_set]
  · simp [Model.setUsers, hc]

/-- Tables that differ in one server stand for the map with this server. -/
theorem Represents.put (h : Represents cfg t m) {t' : Tables} {i : Str} {us : Dict Str Str}
    (ha : precheck cfg c none = .ok ())
    (hservers : ∀ c' i', Dict.get (t'.servers c') i' =
      if c' = c ∧ i = i' then some (serverRecord c i) else Dict.get (t.servers c') i')
    (husers : ∀ c' i', t'.usersOf c' i' =
      if c' = c ∧ i = i' then userRecords c i us else t.usersOf c' i')
    (hstored : ∀ c' i', ¬ (c' = c ∧ i = i') → Dict.get (t'.users c') i' =
      Dict.get (t.users c') i') :
    Represents cfg t' (m.setUsers c i us) := by
  constructor
  · intro c' i'
    rw [hservers, get_setUsers]
    split
    · rename_i he
      obtain ⟨rfl, rfl⟩ := he
      rfl
    · exact h.servers c' i'
  · intro c' i' us₁ hus
    rw [get_setUsers] at hus
    rw [husers]
    split
    · rename_i he
      rw [if_pos he, Option.some.injEq] at hus
      obtain ⟨rfl, rfl⟩ := he
      rw [hus]
    · rename_i he
      rw [if_neg he] at hus
      exact h.users c' i' us₁ hus
  · intro c' i' hus
    rw [get_setUsers] at hus
    by_cases he : c' = c ∧ i = i'
    · rw [if_pos he] at hus
      cases hus
    · rw [if_neg he] at hus
      rw [hstored c' i' he]
      exact h.stored c' i' hus
  · intro c' i' us₁ hus
    rw [get_setUsers] at hus
    by_cases he : c' = c ∧ i = i'
    · rw [he.1]
      exact ha
    · rw [if_neg he] at hus
      exact h.admitted c' i' us₁ hus

/-- A change of the users of a server that exists. -/
theorem Represents.setUsers (h : Represents cfg t m) {i : Str} {us us' : Dict Str Str}
    (hi : Dict.get (m c) i = some us) :
    Represents cfg (t.setUsers c i (userRecords c i us')) (m.setUsers c i us') := by
  refine h.put (h.admitted c i us hi) ?_ (fun c' i' => usersOf_setUsers _ _ _ _ _ _) ?_
  · intro c' i'
    split
    · rename_i he
      obtain ⟨rfl, rfl⟩ := he
      exact (h.servers c' i).trans (by rw [hi]; rfl)
    · rfl
  · intro c' i' he
    by_cases hc : c' = c
    · subst hc
      have hne : i ≠ i' := fun hi => he ⟨rfl, hi⟩
      simp [Tables.setUsers, Dict.get_set, hne]
    · simp [Tables.setUsers, hc]

/-- A new server. -/
theorem Represents.setServer (h : Represents cfg t m) {i : Str} (hi : Dict.get (m c) i = none)
    (ha : precheck cfg c none = .ok ()) :
    Represents cfg (t.setServer c i (serverRecord c i)) (m.setUsers c i []) := by
  refine h.put ha ?_ ?_ fun _ _ _ => rfl
  · intro c' i'
    by_cases hc : c' = c
    · subst hc
      simp [Tables.setServer, Dict.get_set]
    · simp [Tables.setServer, hc]
  · intro c' i'
    split
    · rename_i he
      obtain ⟨rfl, rfl⟩ := he
      show (Dict.get (t.users c') i).getD [] = _
      rw [h.stored c' i hi]
      rfl
    · rfl

/-! ## One request -/

theorem get_userRecords (c : RequestContext) (i n : Str) (us : Dict Str Str) :
    Dict.get (userRecords c i us) n = (Dict.get us n).map (userRecord c i n) :=
  Dict.get_map (f := id) fun _ _ h => h

/-- A new user is the last one. -/
theorem set_userRecords (c : RequestContext) (i : Str) {n : Str} (role : Str)
    {us : Dict Str Str} (h : n ∉ Dict.keys us) :
    Dict.set (userRecords c i us) n (userRecord c i n role) =
      userRecords c i (us ++ [(n, role)]) := by
  rw [← Dict.set_of_not_mem us role h]
  exact Dict.set_map (userRecord c i) us n role

theorem erase_userRecords (c : RequestContext) (i n : Str) (us : Dict Str Str) :
    Dict.erase (userRecords c i us) n = userRecords c i (Dict.erase us n) :=
  Dict.erase_map (userRecord c i) us n

theorem Represents.get_user (h : Represents cfg t m) {i : Str} {us : Dict Str Str}
    (hi : Dict.get (m c) i = some us) (n : Str) :
    Dict.get (t.usersOf c i) n = (Dict.get us n).map (userRecord c i n) := by
  rw [h.users c i us hi, get_userRecords]

/-- An admitted request. The id of a new server must be free. -/
theorem Represents.apply (h : Represents cfg t m) (ha : precheck cfg c none = .ok ())
    (req : Request) (hfree : ∀ p, created (c, req) = some p → Dict.get (m p.1) p.2 = none) :
    (t.apply c req).1 = (m.apply c req).1 ∧
      Represents cfg (t.apply c req).2 (m.apply c req).2 := by
  have hserver := h.servers c
  cases req with
  | create_server u =>
    have hnone : Dict.get (m c) (_generate_server_id u) = none := hfree _ rfl
    refine ⟨rfl, ?_⟩
    rw [Tables.apply, Tables.create_server, serverArn_eq]
    exact h.setServer hnone ha
  | describe_server i =>
    simp only [Tables.apply, Tables.describe_server, Model.apply, hserver i]
    cases Dict.get (m c) i with
    | none => exact ⟨rfl, h⟩
    | some us => exact ⟨rfl, h⟩
  | create_user role i n =>
    simp only [Tables.apply, Tables.create_user, Model.apply, hserver i]
    cases hi : Dict.get (m c) i with
    | none => exact ⟨rfl, h⟩
    | some us =>
      simp only [h.get_user hi, Option.map_some]
      by_cases hn : n ∈ Dict.keys us
      · obtain ⟨old, hold⟩ := Dict.exists_get hn
        simp only [hold, Option.map_some, if_pos hn]
        exact ⟨trivial, h⟩
      · simp only [(Dict.get_eq_none_iff us n).mpr hn, Option.map_none, if_neg hn]
        have hset : Dict.set (t.usersOf c i) n (userRecord c i n role) =
            userRecords c i (us ++ [(n, role)]) := by
          rw [h.users c i us hi, set_userRecords c i role hn]
        rw [userArn_eq, ← userRecord, hset]
        exact ⟨trivial, h.setUsers hi⟩
  | list_users i =>
    simp only [Tables.apply, Tables.list_users, Model.apply, hserver i]
    cases hi : Dict.get (m c) i with
    | none => exact ⟨rfl, h⟩
    | some us =>
      simp only [h.users c i us hi, userRecords, List.map_map, Option.map_some]
      exact ⟨rfl, h⟩
  | delete_user i n =>
    simp only [Tables.apply, Tables.delete_user, Model.apply, hserver i]
    cases hi : Dict.get (m c) i with
    | none => exact ⟨rfl, h⟩
    | some us =>
      simp only [h.get_user hi, Option.map_some]
      by_cases hn : n ∈ Dict.keys us
      · obtain ⟨old, hold⟩ := Dict.exists_get hn
        simp only [hold, Option.map_some, if_pos hn, h.users c i us hi, erase_userRecords]
        exact ⟨trivial, h.setUsers hi⟩
      · simp only [(Dict.get_eq_none_iff us n).mpr hn, Option.map_none, if_neg hn]
        exact ⟨trivial, h⟩

/-- Whoever may not name a server may not create one either. -/
theorem precheck_none {o : Option Str} (h : precheck cfg c o = .ok ()) :
    precheck cfg c none = .ok () := by
  obtain ⟨-, hacc, hreg⟩ := precheck_ok h
  simp [precheck, hacc, hreg]

theorem Represents.handle (h : Represents cfg t m) (r : RequestContext × Request)
    (hfree : ∀ p, created r = some p → Dict.get (m p.1) p.2 = none) :
    (t.handle cfg r).1 = (m.handle cfg r).1 ∧
      Represents cfg (t.handle cfg r).2 (m.handle cfg r).2 := by
  obtain ⟨c, req⟩ := r
  cases ha : precheck cfg c req.server_id with
  | error e =>
    simp only [Tables.handle, Model.handle, ha]
    exact ⟨trivial, h⟩
  | ok _ =>
    simp only [Tables.handle, Model.handle, ha]
    exact h.apply (precheck_none ha) req hfree

/-! ## Requests to other servers -/

/-- The server that a request is about. -/
def Request.target : Request → Str
  | .create_server u => _generate_server_id u
  | .describe_server i | .create_user _ i _ | .list_users i | .delete_user i _ => i

/-- A request about server `i` of the account and the region of `c`. -/
def concerns (c : RequestContext) (i : Str) (r : RequestContext × Request) : Bool :=
  r.1 = c ∧ r.2.target = i

/-- A request changes its own server only, and makes one only if it is to create it. -/
theorem Model.handle_cases (cfg : Config Nat) (m : Model) (r : RequestContext × Request) :
    (m.handle cfg r).2 = m ∨ ∃ us, (m.handle cfg r).2 = m.setUsers r.1 r.2.target us ∧
      (created r = some (r.1, r.2.target) ∧ precheck cfg r.1 none = .ok () ∨
        ∃ old, Dict.get (m r.1) r.2.target = some old) := by
  obtain ⟨c, req⟩ := r
  cases ha : precheck cfg c req.server_id with
  | error e =>
    simp only [Model.handle, ha]
    exact Or.inl trivial
  | ok _ =>
    simp only [Model.handle, ha]
    cases req with
    | create_server u =>
      right
      exact ⟨[], rfl, Or.inl ⟨rfl, ha⟩⟩
    | describe_server i =>
      left
      simp only [Model.apply]
      cases Dict.get (m c) i <;> rfl
    | create_user role i n =>
      simp only [Model.apply, Request.target]
      cases hi : Dict.get (m c) i with
      | none => exact Or.inl rfl
      | some us =>
        by_cases hn : n ∈ Dict.keys us
        · left
          simp only [if_pos hn]
        · right
          simp only [if_neg hn]
          exact ⟨_, rfl, Or.inr ⟨us, rfl⟩⟩
    | list_users i =>
      left
      simp only [Model.apply]
      cases Dict.get (m c) i <;> rfl
    | delete_user i n =>
      simp only [Model.apply, Request.target]
      cases hi : Dict.get (m c) i with
      | none => exact Or.inl rfl
      | some us =>
        by_cases hn : n ∈ Dict.keys us
        · right
          simp only [if_pos hn]
          exact ⟨_, rfl, Or.inr ⟨us, rfl⟩⟩
        · left
          simp only [if_neg hn]

theorem Model.get_handle_of_not_concerns {i : Str} {r : RequestContext × Request}
    (h : concerns c i r = false) : Dict.get ((m.handle cfg r).2 c) i = Dict.get (m c) i := by
  rcases m.handle_cases cfg r with hsame | ⟨us, hset, -⟩
  · rw [hsame]
  · rw [hset, get_setUsers, if_neg]
    rintro ⟨rfl, rfl⟩
    simp [concerns] at h

/-- What a request returns and does depends on its own server only. -/
theorem Model.handle_congr {m m' : Model} {req : Request}
    (h : Dict.get (m c) req.target = Dict.get (m' c) req.target) :
    (m.handle cfg (c, req)).1 = (m'.handle cfg (c, req)).1 ∧
      Dict.get ((m.handle cfg (c, req)).2 c) req.target =
        Dict.get ((m'.handle cfg (c, req)).2 c) req.target := by
  cases ha : precheck cfg c req.server_id with
  | error e =>
    simp only [Model.handle, ha]
    exact ⟨trivial, h⟩
  | ok _ =>
    simp only [Model.handle, ha]
    cases req with
    | create_server u => exact ⟨rfl, by simp [Model.apply, Request.target, get_setUsers]⟩
    | describe_server i | list_users i =>
      simp only [Request.target] at h ⊢
      simp only [Model.apply, ← h]
      cases hi : Dict.get (m c) i with
      | none => exact ⟨rfl, by rw [hi, ← h, hi]⟩
      | some us => exact ⟨rfl, by rw [hi, ← h, hi]⟩
    | create_user role i n | delete_user i n =>
      simp only [Request.target] at h ⊢
      simp only [Model.apply, ← h]
      cases hi : Dict.get (m c) i with
      | none => exact ⟨rfl, by rw [hi, ← h, hi]⟩
      | some us =>
        by_cases hn : n ∈ Dict.keys us
        · simp [hn, get_setUsers, ← h, hi]
        · simp [hn, get_setUsers, ← h, hi]

/-! ## Runs -/

/-- The map after some requests. -/
def Model.afterAll (cfg : Config Nat) (rs : List (RequestContext × Request)) (m : Model) :
    Model :=
  Machine.afterAll (Model.handle cfg) rs m

def Model.empty : Model := fun _ => []

/-- Requests about other servers can be left out. -/
theorem Model.get_afterAll_filter {i : Str} (rs : List (RequestContext × Request))
    {m m' : Model} (h : Dict.get (m c) i = Dict.get (m' c) i) :
    Dict.get (m.afterAll cfg rs c) i =
      Dict.get (m'.afterAll cfg (rs.filter (concerns c i)) c) i := by
  induction rs generalizing m m' with
  | nil => exact h
  | cons r rs ih =>
    cases hr : concerns c i r with
    | false =>
      rw [List.filter_cons_of_neg (by simp [hr])]
      exact ih ((get_handle_of_not_concerns hr).trans h)
    | true =>
      rw [List.filter_cons_of_pos hr]
      obtain ⟨c', req⟩ := r
      simp only [concerns, Bool.decide_and, Bool.and_eq_true, decide_eq_true_eq] at hr
      obtain ⟨rfl, rfl⟩ := hr
      exact ih (handle_congr h).2

/-- The ids of the servers still to be created are free. -/
def Free (rs : List (RequestContext × Request)) (m : Model) : Prop :=
  ∀ p ∈ rs.filterMap created, Dict.get (m p.1) p.2 = none

theorem free_empty (rs : List (RequestContext × Request)) : Free rs Model.empty :=
  fun _ _ => rfl

theorem Fresh.of_cons {r : RequestContext × Request} {rs : List (RequestContext × Request)}
    (h : Fresh (r :: rs)) : Fresh rs ∧ ∀ p, created r = some p → p ∉ rs.filterMap created := by
  cases hr : created r with
  | none =>
    rw [Fresh, List.filterMap_cons_none hr] at h
    exact ⟨h, fun p hp => absurd hp (by simp)⟩
  | some q =>
    rw [Fresh, List.filterMap_cons_some hr, List.nodup_cons] at h
    refine ⟨h.2, ?_⟩
    rintro p ⟨⟩
    exact h.1

theorem Free.handle {r : RequestContext × Request} {rs : List (RequestContext × Request)}
    (h : Free (r :: rs) m) (hf : Fresh (r :: rs)) : Free rs (m.handle cfg r).2 := by
  intro p hp
  have hold : Dict.get (m p.1) p.2 = none := by
    apply h p
    rw [List.mem_filterMap] at hp ⊢
    obtain ⟨r', hr', he⟩ := hp
    exact ⟨r', List.mem_cons_of_mem r hr', he⟩
  rcases m.handle_cases cfg r with hsame | ⟨us, hset, hwhy⟩
  · rw [hsame, hold]
  · rw [hset, get_setUsers, if_neg, hold]
    rintro ⟨hc, hi⟩
    rcases hwhy with ⟨hcreated, -⟩ | ⟨us', hus⟩
    · refine hf.of_cons.2 p ?_ hp
      rw [hcreated, ← hc, hi]
    · rw [← hc, hi, hold] at hus
      cases hus

/-- A server is one of the map, or an admitted request creates it. -/
theorem Model.mem_handle (m : Model) (r : RequestContext × Request) (i : Str) :
    (Dict.get ((m.handle cfg r).2 c) i).isSome ↔
      (Dict.get (m c) i).isSome ∨ created r = some (c, i) ∧ precheck cfg c none = .ok () := by
  constructor
  · intro h
    rcases m.handle_cases cfg r with hsame | ⟨us, hset, hwhy⟩
    · rw [hsame] at h
      exact Or.inl h
    · rw [hset, get_setUsers] at h
      split at h
      · rename_i he
        obtain ⟨rfl, rfl⟩ := he
        rcases hwhy with hcreated | ⟨old, hold⟩
        · exact Or.inr hcreated
        · exact Or.inl (by rw [hold]; rfl)
      · exact Or.inl h
  · rintro (h | ⟨hcreated, ha⟩)
    · rcases m.handle_cases cfg r with hsame | ⟨us, hset, -⟩
      · rwa [hsame]
      · rw [hset, get_setUsers]
        split
        · rfl
        · exact h
    · obtain ⟨c', req⟩ := r
      cases req with
      | create_server u =>
        simp only [created, Option.some.injEq, Prod.mk.injEq] at hcreated
        obtain ⟨rfl, rfl⟩ := hcreated
        simp [Model.handle, Request.server_id, ha, Model.apply, get_setUsers]
      | describe_server _ | create_user _ _ _ | list_users _ | delete_user _ _ =>
        cases hcreated

/-- The servers of the map are those that admitted requests created. -/
theorem Model.mem_afterAll (rs : List (RequestContext × Request)) (m : Model) (i : Str) :
    (Dict.get (m.afterAll cfg rs c) i).isSome ↔
      (Dict.get (m c) i).isSome ∨ (c, i) ∈ rs.filterMap created ∧ precheck cfg c none = .ok () := by
  induction rs generalizing m with
  | nil => simp [Model.afterAll, Machine.afterAll]
  | cons r rs ih =>
    refine (ih _).trans ?_
    rw [m.mem_handle r i, List.filterMap_cons]
    cases hr : created r with
    | none => simp
    | some p =>
      simp only [List.mem_cons, Option.some.injEq]
      rw [eq_comm (a := p)]
      tauto

/-! ## Generated ids -/

/-- A server id that passes validation. -/
def WellFormed (i : Str) : Prop := (serverIdPattern.match_ i).isSome

theorem replace_toStr (u : Uuid) : replace "-".toList [] u.toStr = u.digits := by
  have hkeep : ∀ s : Str, s ⊆ u.digits → s.filter (· ≠ '-') = s := by
    intro s hs
    rw [List.filter_eq_self]
    rintro c hc
    have hhex := u.hex c (hs hc)
    rw [decide_eq_true_eq]
    rintro rfl
    exact absurd hhex (by decide)
  have hpart : ∀ a b, (u.digits.drop a).take b ⊆ u.digits := fun a b _ hc =>
    List.drop_subset _ _ (List.take_subset _ _ hc)
  refine (replace_nil '-' u.toStr).trans ?_
  simp only [Uuid.toStr, List.filter_append, List.filter_cons, ne_eq, not_true_eq_false,
    decide_false, Bool.false_eq_true, ↓reduceIte]
  rw [hkeep _ (List.take_subset _ _), hkeep _ (hpart 8 4), hkeep _ (hpart 12 4),
    hkeep _ (hpart 16 4), hkeep _ (List.drop_subset _ _), ← List.take_add, ← List.take_add,
    ← List.take_add, List.take_append_drop]

theorem generated_wellFormed (u : Uuid) : WellFormed (_generate_server_id u) := by
  have hlen : (u.digits.take 17).length = 17 := by
    rw [List.length_take, u.length_eq]
    rfl
  rw [WellFormed, _generate_server_id, replace_toStr, Pattern.match_isSome]
  refine ⟨⟨[], []⟩, ?_⟩
  rw [serverIdPattern, Pattern.mem_run_seq]
  refine ⟨⟨u.digits.take 17, []⟩, Pattern.mem_run_lit.mpr ⟨rfl, rfl⟩, ?_⟩
  rw [Pattern.mem_run_seq]
  refine ⟨⟨[], []⟩, Pattern.mem_run_chars.mpr ⟨u.digits.take 17, ?_, rfl, ?_, ?_, ?_⟩, ?_⟩
  · simp
  · exact hlen.ge
  · rintro n ⟨⟩
    exact hlen.le
  · exact fun c hc => u.hex c (List.take_subset _ _ hc)
  · exact Pattern.mem_run_endOfText.mpr ⟨Or.inl rfl, rfl⟩

theorem wellFormed_of_created {rs : List (RequestContext × Request)} {i : Str}
    (h : (c, i) ∈ rs.filterMap created) : WellFormed i := by
  obtain ⟨⟨c', req⟩, -, hcreated⟩ := List.mem_filterMap.mp h
  cases req with
  | create_server u =>
    simp only [created, Option.some.injEq, Prod.mk.injEq] at hcreated
    obtain ⟨-, rfl⟩ := hcreated
    exact generated_wellFormed u
  | describe_server _ | create_user _ _ _ | list_users _ | delete_user _ _ => cases hcreated

/-! ## What the provider promises -/

def HasServer (st : State) (c : RequestContext) (i : Str) : Prop :=
  (Dict.get (st.tables.servers c) i).isSome

def HasUser (st : State) (c : RequestContext) (i n : Str) : Prop :=
  (Dict.get (st.tables.usersOf c i) n).isSome

/-- A request ends with an exception. -/
def Fails (cfg : Config Nat) (st : State) (r : RequestContext × Request) : Prop :=
  ∃ e, outcome (handle cfg r) st = .error e

/-- The two tables agree, and names and ARNs are those of the keys. -/
structure Consistent (st : State) : Prop where
  users_on_servers : ∀ c i, (Dict.get (st.tables.users c) i).isSome → HasServer st c i
  servers : ∀ c i s, Dict.get (st.tables.servers c) i = some s →
    s.server_id = i ∧ s.arn = (Arn.ofServer c i).toStr
  users : ∀ c i us n u, Dict.get (st.tables.users c) i = some us → Dict.get us n = some u →
    u.server_id = i ∧ u.user_name = n ∧ u.arn = (Arn.ofUser c i n).toStr

/-- The results of a sequence of requests, and what holds in the state after it. -/
structure Refines (cfg : Config Nat) (rs : List (RequestContext × Request)) (st : State) :
    Prop where
  outcomes : outcomes (handle cfg) rs start = Machine.outcomes (Model.handle cfg) rs Model.empty
  servers : ∀ c i, HasServer st c i ↔ (c, i) ∈ rs.filterMap created ∧ precheck cfg c none = .ok ()
  described : ∀ c i, HasServer st c i → outcome (handle cfg (c, .describe_server i)) st =
    .ok (.DescribeServerResponse i (Arn.ofServer c i).toStr ONLINE)
  local_ : ∀ c req, outcome (handle cfg (c, req)) st =
    outcome (handle cfg (c, req)) (afterAll (handle cfg) (rs.filter (concerns c req.target)) start)
  create_user : ∀ c role i n, WellFormed i →
    (Fails cfg st (c, .create_user role i n) ↔ ¬ HasServer st c i ∨ HasUser st c i n)
  delete_user : ∀ c i n, WellFormed i →
    (Fails cfg st (c, .delete_user i n) ↔ ¬ HasServer st c i ∨ ¬ HasUser st c i n)
  list_users : ∀ c i, WellFormed i → (Fails cfg st (c, .list_users i) ↔ ¬ HasServer st c i)
  describe_server : ∀ c i, WellFormed i →
    (Fails cfg st (c, .describe_server i) ↔ ¬ HasServer st c i)
  unchanged : ∀ r, Fails cfg st r → (after (handle cfg r) st).tables = st.tables
  consistent : Consistent st

/-! ## The provider and the map in step -/

/-- The heap stands for a map in which the ids still to be created are free. -/
structure Related (cfg : Config Nat) (rs : List (RequestContext × Request)) (st : State)
    (m : Model) : Prop where
  good : Good st
  represents : Represents cfg st.tables m
  fresh : Fresh rs
  free : Free rs m

variable {st : State} {rs : List (RequestContext × Request)}

theorem represents_start (cfg : Config Nat) : Represents cfg start.tables Model.empty := by
  constructor
  · intro c i
    rfl
  · intro c i us h
    cases h
  · intro c i _
    rfl
  · intro c i us h
    cases h

theorem Related.step (hc : cfg.store = TransferStore) {r : RequestContext × Request}
    (h : Related cfg (r :: rs) st m) : outcome (handle cfg r) st = (m.handle cfg r).1 ∧
      Related cfg rs (after (handle cfg r) st) (m.handle cfg r).2 := by
  have hyields := handle_tables hc h.good r
  have hfree : ∀ p, created r = some p → Dict.get (m p.1) p.2 = none := by
    intro p hp
    apply h.free p
    rw [List.filterMap_cons_some hp]
    exact List.mem_cons_self
  obtain ⟨hout, hrep⟩ := h.represents.handle r hfree
  refine ⟨hyields.outcome.trans hout, hyields.good, ?_, h.fresh.of_cons.1, h.free.handle h.fresh⟩
  rw [hyields.tables]
  exact hrep

theorem related_afterAll (hc : cfg.store = TransferStore) (hf : Fresh rs) :
    Stateful.outcomes (handle cfg) rs start =
        Machine.outcomes (Model.handle cfg) rs Model.empty ∧
      Related cfg [] (afterAll (handle cfg) rs start) (Model.empty.afterAll cfg rs) := by
  have hstart : Related cfg rs start Model.empty :=
    ⟨good_start, represents_start cfg, hf, free_empty rs⟩
  exact outcomes_eq (fun _ _ _ _ h => h.step hc) rs hstart

/-! ## What a state in step promises -/

section States

variable (h : Represents cfg st.tables m)
include h

theorem Represents.hasServer (i : Str) : HasServer st c i ↔ (Dict.get (m c) i).isSome := by
  rw [HasServer, h.servers, Option.isSome_map]

theorem Represents.not_hasServer {i : Str} (hi : Dict.get (m c) i = none) :
    ¬ HasServer st c i := by
  rw [h.hasServer, hi]
  simp

theorem Represents.hasUser {i : Str} {us : Dict Str Str} (hi : Dict.get (m c) i = some us)
    (n : Str) : HasUser st c i n ↔ n ∈ Dict.keys us := by
  rw [HasUser, h.get_user hi, Option.isSome_map, Option.isSome_iff_ne_none, ne_eq,
    Dict.get_eq_none_iff, not_not]

theorem Represents.consistent : Consistent st := by
  constructor
  · intro c i hus
    rw [h.hasServer]
    cases hi : Dict.get (m c) i with
    | none =>
      rw [h.stored c i hi] at hus
      cases hus
    | some us => rfl
  · intro c i s hs
    rw [h.servers, Option.map_eq_some_iff] at hs
    obtain ⟨us, -, rfl⟩ := hs
    exact ⟨rfl, rfl⟩
  · intro c i us n u hus hu
    cases hi : Dict.get (m c) i with
    | none =>
      rw [h.stored c i hi] at hus
      cases hus
    | some roles =>
      have hof : st.tables.usersOf c i = us := by
        rw [Tables.usersOf, hus]
        rfl
      have hget := h.get_user hi n
      rw [hof, hu] at hget
      obtain ⟨role, -, rfl⟩ := Option.map_eq_some_iff.mp hget.symm
      exact ⟨rfl, rfl, rfl⟩

/-- A request about an existing server is admitted. -/
theorem Represents.handle_stored {i : Str} {us : Dict Str Str}
    (hi : Dict.get (m c) i = some us) (hw : WellFormed i) {req : Request}
    (hreq : req.server_id = some i) : m.handle cfg (c, req) = m.apply c req := by
  have hprecheck : precheck cfg c (some i) = .ok () := by
    obtain ⟨-, hacc, hreg⟩ := precheck_ok (h.admitted c i us hi)
    simp [precheck, hacc, hreg, Option.isNone_iff_eq_none, Option.isSome_iff_ne_none.mp hw]
  rw [Model.handle, hreq, hprecheck]

end States

/-- A request about a server that does not exist fails. -/
theorem Model.handle_missing {i : Str} (hi : Dict.get (m c) i = none) {req : Request}
    (hreq : req.server_id = some i) : ∃ e, (m.handle cfg (c, req)).1 = .error e := by
  unfold Model.handle
  cases precheck cfg c req.server_id with
  | error e => exact ⟨e, rfl⟩
  | ok _ =>
    refine ⟨unknownServer i, ?_⟩
    cases req with
    | create_server u => cases hreq
    | describe_server j | create_user role j n | list_users j | delete_user j n =>
      obtain rfl := Option.some.inj hreq
      simp only [Model.apply, hi]

theorem Represents.outcome_eq (h : Represents cfg t m) (r : RequestContext × Request) :
    (t.handle cfg r).1 = (m.handle cfg r).1 := by
  obtain ⟨c, req⟩ := r
  cases req with
  | create_server u =>
    unfold Tables.handle Model.handle
    cases precheck cfg c (Request.create_server u).server_id <;> rfl
  | describe_server _ | create_user _ _ _ | list_users _ | delete_user _ _ =>
    exact (h.handle _ (by rintro p ⟨⟩)).1

/-- A request that fails leaves the tables as they are. -/
theorem Tables.handle_error {r : RequestContext × Request} {e : Error}
    (h : (t.handle cfg r).1 = .error e) : (t.handle cfg r).2 = t := by
  obtain ⟨c, req⟩ := r
  unfold Tables.handle at h ⊢
  cases ha : precheck cfg c req.server_id with
  | error e' => rfl
  | ok _ =>
    simp only [ha] at h ⊢
    cases req with
    | create_server u => cases h
    | describe_server i =>
      simp only [Tables.apply, Tables.describe_server] at h ⊢
      split <;> rfl
    | create_user role i n =>
      simp only [Tables.apply, Tables.create_user] at h ⊢
      split
      · rfl
      · rfl
      · rename_i hs hn
        simp [hs, hn] at h
    | list_users i =>
      simp only [Tables.apply, Tables.list_users] at h ⊢
      split <;> rfl
    | delete_user i n =>
      simp only [Tables.apply, Tables.delete_user] at h ⊢
      split
      · rfl
      · rfl
      · rename_i hs hn
        simp [hs, hn] at h

section Fails

variable (hc : cfg.store = TransferStore) (hg : Good st) (h : Represents cfg st.tables m)
  {i : Str} (hw : WellFormed i)
include hc hg h

theorem outcome_handle (r : RequestContext × Request) :
    outcome (handle cfg r) st = (m.handle cfg r).1 :=
  (handle_tables hc hg r).outcome.trans (h.outcome_eq r)

theorem fails_of_missing {req : Request} (hi : Dict.get (m c) i = none)
    (hreq : req.server_id = some i) : Fails cfg st (c, req) := by
  obtain ⟨e, he⟩ := Model.handle_missing hi hreq
  exact ⟨e, (outcome_handle hc hg h _).trans he⟩

include hw

theorem fails_iff_apply {us : Dict Str Str} {req : Request} (hi : Dict.get (m c) i = some us)
    (hreq : req.server_id = some i) :
    Fails cfg st (c, req) ↔ ∃ e, (m.apply c req).1 = .error e := by
  rw [Fails, outcome_handle hc hg h, h.handle_stored hi hw hreq]

theorem describe_server_fails_iff :
    Fails cfg st (c, .describe_server i) ↔ ¬ HasServer st c i := by
  cases hi : Dict.get (m c) i with
  | none => exact iff_of_true (fails_of_missing hc hg h hi rfl) (h.not_hasServer hi)
  | some us =>
    rw [fails_iff_apply hc hg h hw hi rfl, h.hasServer, hi]
    simp [Model.apply, hi]

theorem list_users_fails_iff : Fails cfg st (c, .list_users i) ↔ ¬ HasServer st c i := by
  cases hi : Dict.get (m c) i with
  | none => exact iff_of_true (fails_of_missing hc hg h hi rfl) (h.not_hasServer hi)
  | some us =>
    rw [fails_iff_apply hc hg h hw hi rfl, h.hasServer, hi]
    simp [Model.apply, hi]

theorem create_user_fails_iff (role n : Str) : Fails cfg st (c, .create_user role i n) ↔
    ¬ HasServer st c i ∨ HasUser st c i n := by
  cases hi : Dict.get (m c) i with
  | none => exact iff_of_true (fails_of_missing hc hg h hi rfl) (Or.inl (h.not_hasServer hi))
  | some us =>
    rw [fails_iff_apply hc hg h hw hi rfl, h.hasServer, h.hasUser hi, hi]
    by_cases hn : n ∈ Dict.keys us
    · simp [Model.apply, hi, hn]
    · simp [Model.apply, hi, hn]

theorem delete_user_fails_iff (n : Str) : Fails cfg st (c, .delete_user i n) ↔
    ¬ HasServer st c i ∨ ¬ HasUser st c i n := by
  cases hi : Dict.get (m c) i with
  | none => exact iff_of_true (fails_of_missing hc hg h hi rfl) (Or.inl (h.not_hasServer hi))
  | some us =>
    rw [fails_iff_apply hc hg h hw hi rfl, h.hasServer, h.hasUser hi, hi]
    by_cases hn : n ∈ Dict.keys us
    · simp [Model.apply, hi, hn]
    · simp [Model.apply, hi, hn]

end Fails

theorem hasServer_afterAll (hc : cfg.store = TransferStore) (hf : Fresh rs) (c : RequestContext)
    (i : Str) : HasServer (afterAll (handle cfg) rs start) c i ↔
      (c, i) ∈ rs.filterMap created ∧ precheck cfg c none = .ok () := by
  rw [(related_afterAll hc hf).2.represents.hasServer, Model.mem_afterAll]
  simp [Model.empty]

theorem Fresh.filter (h : Fresh rs) (P : RequestContext × Request → Bool) :
    Fresh (rs.filter P) :=
  h.sublist (List.filter_sublist.filterMap created)

/-- **Refinement.** Requests with fresh server ids see the map from accounts and regions
to servers and their users, whatever the other accounts, regions and servers do. -/
theorem transfer_refines (ALLOW_NONSTANDARD_REGIONS : Bool) (valid_regions : List Str)
    (rs : List (RequestContext × Request)) (hf : Fresh rs) :
    Refines (transfer_stores ALLOW_NONSTANDARD_REGIONS valid_regions) rs
      (afterAll (handle (transfer_stores ALLOW_NONSTANDARD_REGIONS valid_regions)) rs start) := by
  have hc : (transfer_stores ALLOW_NONSTANDARD_REGIONS valid_regions).store = TransferStore := rfl
  obtain ⟨houts, hg, h, -, -⟩ := related_afterAll hc hf
  constructor
  · exact houts
  · exact hasServer_afterAll hc hf
  · intro c i hi
    have hw := wellFormed_of_created ((hasServer_afterAll hc hf c i).mp hi).1
    rw [h.hasServer, Option.isSome_iff_exists] at hi
    obtain ⟨us, hus⟩ := hi
    rw [outcome_handle hc hg h, h.handle_stored hus hw rfl]
    simp [Model.apply, hus]
  · intro c req
    obtain ⟨-, hg', h', -, -⟩ := related_afterAll hc (hf.filter (concerns c req.target))
    rw [outcome_handle hc hg h, outcome_handle hc hg' h']
    exact (Model.handle_congr (Model.get_afterAll_filter rs rfl)).1
  · exact fun c role i n hw => create_user_fails_iff hc hg h hw role n
  · exact fun c i n hw => delete_user_fails_iff hc hg h hw n
  · exact fun c i hw => list_users_fails_iff hc hg h hw
  · exact fun c i hw => describe_server_fails_iff hc hg h hw
  · rintro r ⟨e, he⟩
    have hyields := handle_tables hc hg r
    rw [hyields.outcome] at he
    rw [hyields.tables, Tables.handle_error he]
  · exact h.consistent

/-! A user of a server in one region, and a server in another. -/

def sampleUuid : Uuid where
  digits := List.replicate 32 'a'
  length_eq := rfl
  hex := by
    intro c hc
    rw [List.eq_of_mem_replicate hc]
    decide

def sampleContext (region : String) : RequestContext := ⟨"000000000000".toList, region.toList⟩

def sampleRequests : List (RequestContext × Request) :=
  [(sampleContext "us-east-1", .create_server sampleUuid),
    (sampleContext "eu-west-1", .create_server sampleUuid),
    (sampleContext "us-east-1",
      .create_user "role".toList (_generate_server_id sampleUuid) "bob".toList)]

theorem sample_refines :
    Refines (transfer_stores false ["us-east-1".toList, "eu-west-1".toList]) sampleRequests
      (afterAll (handle (transfer_stores false ["us-east-1".toList, "eu-west-1".toList]))
        sampleRequests start) :=
  transfer_refines _ _ sampleRequests (by unfold Fresh; decide)

end LocalStack.Services.Transfer
