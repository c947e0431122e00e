import LocalStack.Services.Transfer

/-! The tables of the Transfer provider. Every account and region has a dictionary of
servers and a dictionary of users of its own, so a request is a function of the two
tables of its account and region. -/

namespace LocalStack.Services.Transfer
open LocalStack.OrderedDict LocalStack.Text LocalStack.Regex LocalStack.Stateful
open LocalStack.Services.Stores

variable {α β : Type}

/-! ## Dictionaries are not shared -/

/-- Every scope of a map has a dictionary of its own. -/
structure Distinct (k : Keyed Nat) : Prop where
  refs : ∀ x v, k.held x = some v → ∃ i < k.calls, v = .user i
  injective : ∀ x y i, k.held x = some (.user i) → k.held y = some (.user i) → x = y

/-- The contents of the dictionary that a scope holds; one that is still to be made is
empty. -/
def contents (heap : Nat → Dict Str β) (o : Option (Value Nat)) : Dict Str β :=
  match o with
  | some (.user i) => heap i
  | _ => []

theorem distinct_initial : Distinct (initial : World Nat).keyed := by
  have hnone : ∀ x, (initial : World Nat).keyed.held x = none := by
    intro x
    cases x <;> rfl
  constructor
  · intro x v hv
    rw [hnone] at hv
    cases hv
  · intro x y i hx
    rw [hnone] at hx
    cases hx

/-- A new dictionary is not one of those that are held. -/
theorem Distinct.fill {k : Keyed Nat} (h : Distinct k) (x : Scope) :
    Distinct ⟨Function.update k.held x (some (.user k.calls)), k.calls + 1⟩ := by
  have hfresh : ∀ y, k.held y ≠ some (.user k.calls) := by
    intro y hy
    obtain ⟨i, hi, he⟩ := h.refs y _ hy
    rw [Value.user.injEq] at he
    exact absurd he hi.ne'
  constructor
  · intro y v hv
    simp only [Function.update_apply] at hv
    split at hv
    · rw [Option.some.injEq] at hv
      exact ⟨k.calls, Nat.lt_succ_self _, hv.symm⟩
    · obtain ⟨i, hi, rfl⟩ := h.refs y v hv
      exact ⟨i, Nat.lt_succ_of_lt hi, rfl⟩
  · intro y z i hy hz
    simp only [Function.update_apply] at hy hz
    split at hy
    · rw [Option.some.injEq, Value.user.injEq] at hy
      subst hy
      split at hz
      · rename_i hyx hzx
        rw [hyx, hzx]
      · exact absurd hz (hfresh z)
    · split at hz
      · rw [Option.some.injEq, Value.user.injEq] at hz
        subst hz
        exact absurd hy (hfresh y)
      · exact h.injective y z i hy hz

/-- A read makes a dictionary if there is none. -/
theorem Distinct.read {k : Keyed Nat} (h : Distinct k) (x : Scope) :
    ∃ i, (k.read x (.callable id)).1 = .user i ∧
      (k.read x (.callable id)).2.held x = some (.user i) ∧
      Distinct (k.read x (.callable id)).2 ∧ k.calls ≤ (k.read x (.callable id)).2.calls := by
  cases hx : k.held x with
  | some v =>
    obtain ⟨i, hi, rfl⟩ := h.refs x v hx
    have hread : k.read x (.callable id) = (.user i, k) := by
      simp [Keyed.read, hx]
    rw [hread]
    exact ⟨i, rfl, hx, h, Nat.le_refl _⟩
  | none =>
    have hread : k.read x (.callable id) = (.user k.calls,
        ⟨Function.update k.held x (some (.user k.calls)), k.calls + 1⟩) := by
      simp [Keyed.read, hx, Default.value, Default.next]
    rw [hread]
    exact ⟨k.calls, rfl, Function.update_self _ _ _, h.fill x, Nat.le_succ _⟩

theorem contents_read {k : Keyed Nat} {heap : Nat → Dict Str β}
    (hempty : ∀ i ≥ k.calls, heap i = []) (x y : Scope) :
    contents heap ((k.read x (.callable id)).2.held y) = contents heap (k.held y) := by
  rw [Keyed.held_read, Keyed.read_value]
  split
  · rename_i he
    subst he
    cases k.held y with
    | some v => rfl
    | none => exact hempty _ (Nat.le_refl _)
  · rfl

theorem contents_update {k : Keyed Nat} (h : Distinct k) {x : Scope} {i : Nat}
    (hx : k.held x = some (.user i)) (heap : Nat → Dict Str β) (d : Dict Str β) (y : Scope) :
    contents (Function.update heap i d) (k.held y) =
      if y = x then d else contents heap (k.held y) := by
  by_cases hy : y = x
  · subst hy
    rw [hx, if_pos rfl]
    exact Function.update_self _ _ _
  · rw [if_neg hy]
    cases hv : k.held y with
    | none => rfl
    | some v =>
      obtain ⟨j, -, rfl⟩ := h.refs y v hv
      have hne : j ≠ i := by
        rintro rfl
        exact hy (h.injective y x j hv hx)
      exact Function.update_of_ne hne _ _

/-! ## Tables -/

/-- The two tables of each account and region. -/
structure Tables where
  servers : RequestContext → Dict Str ServerInstance
  users : RequestContext → Dict Str (Dict Str UserInstance)

def scopeOf (n : TransferStore.Attr) (c : RequestContext) : Scope :=
  .store c.account_id c.region n.1

def State.tables (st : State) : Tables where
  servers := fun c => contents st.servers (st.stores.held (scopeOf serversAttr c))
  users := fun c => contents st.users (st.stores.held (scopeOf usersAttr c))

/-- The references of the stores are in order, and dictionaries that are still to be
made are empty. -/
structure Good (st : State) : Prop where
  inv : Inv TransferStore st.stores
  distinct : Distinct st.stores.keyed
  empty : ∀ i ≥ st.stores.calls, st.servers i = [] ∧ st.users i = []

/-- `store` is what the stores return for the request. -/
structure Opened (st : State) (c : RequestContext) (store : Nat) : Prop where
  good : Good st
  located : ∃ b, Located st.stores c.account_id c.region b store

theorem good_start : Good start :=
  ⟨initial_inv _, distinct_initial, fun _ _ => ⟨rfl, rfl⟩⟩

theorem transferStore_ordinary : TransferStore.Ordinary := ⟨by decide, by decide⟩

theorem scopeOf_injective {n : TransferStore.Attr} {c c' : RequestContext}
    (h : scopeOf n c = scopeOf n c') : c = c' := by
  obtain ⟨a, r⟩ := c
  obtain ⟨a', r'⟩ := c'
  simp only [scopeOf, Scope.store.injEq, and_true] at h
  rw [h.1, h.2]

theorem onStores_ok {x : Py Nat α} {st : State} {a : α} {w : World Nat}
    (h : x.run st.stores = .ok a w) : (onStores x).run st = .ok a { st with stores := w } := by
  show onStores x st = _
  rw [onStores, h]

theorem onStores_error {x : Py Nat α} {st : State} {e : PyError} {w : World Nat}
    (h : x.run st.stores = .error e w) :
    (onStores x).run st = .error (.python e) { st with stores := w } := by
  show onStores x st = _
  rw [onStores, h]

variable {cfg : Config Nat} {st : State} {c : RequestContext} {store : Nat}

/-- An attribute of the class is a local one with a fresh dictionary as its default. -/
structure IsTable (n : TransferStore.Attr) : Prop where
  scope : ∀ c : RequestContext,
    (⟨c.account_id, c.region, n, none⟩ : Access TransferStore).scope = scopeOf n c
  default : (TransferStore.descriptor n).default = .callable id

theorem servers_isTable : IsTable serversAttr := ⟨fun _ => rfl, rfl⟩

theorem users_isTable : IsTable usersAttr := ⟨fun _ => rfl, rfl⟩

/-- Reading an attribute yields its dictionary and changes no table. -/
theorem dictionary_run (hc : cfg.store = TransferStore) (h : Opened st c store)
    {n : TransferStore.Attr} (hn : IsTable n) :
    ∃ i st', (dictionary cfg store n.1).run st = .ok i st' ∧ Opened st' c store ∧
      st'.stores.held (scopeOf n c) = some (.user i) ∧ st'.tables = st.tables ∧
      st'.servers = st.servers ∧ st'.users = st.users := by
  obtain ⟨b, hl⟩ := h.located
  obtain ⟨w, hrun, hi, hk, hl'⟩ :=
    @located_read _ _ _ _ _ transferStore_ordinary h.good.inv ⟨c.account_id, c.region, n, none⟩ hl
  obtain ⟨i, hval, hheld, hdist, hle⟩ := h.good.distinct.read (scopeOf n c)
  rw [hn.scope, Access.descriptor, hn.default] at hrun hk
  rw [hval] at hrun
  rw [← hk] at hheld hdist hle
  have htables : ∀ {β : Type} (heap : Nat → Dict Str β) x,
      (∀ i ≥ st.stores.calls, heap i = []) →
      contents heap (w.held x) = contents heap (st.stores.held x) := by
    intro β heap x hempty
    have := @contents_read _ st.stores.keyed _ hempty (scopeOf n c) x
    rwa [← hk] at this
  refine ⟨i, { st with stores := w }, ?_, ⟨⟨hi, hdist, ?_⟩, ⟨b, hl'⟩⟩, hheld, ?_, rfl, rfl⟩
  · rw [dictionary, bind_ok (onStores_ok (by rw [hc]; exact hrun))]
    rfl
  · exact fun i hi => h.good.empty i (hle.trans hi)
  · unfold State.tables
    congr 1
    · exact funext fun c => htables _ _ fun i hi => (h.good.empty i hi).1
    · exact funext fun c => htables _ _ fun i hi => (h.good.empty i hi).2

def Tables.setServer (t : Tables) (c : RequestContext) (server_id : Str)
    (server : ServerInstance) : Tables :=
  { t with servers := Function.update t.servers c (Dict.set (t.servers c) server_id server) }

def Tables.setUsers (t : Tables) (c : RequestContext) (server_id : Str)
    (d : Dict Str UserInstance) : Tables :=
  { t with users := Function.update t.users c (Dict.set (t.users c) server_id d) }

theorem servers_run (hc : cfg.store = TransferStore) (h : Opened st c store) :
    ∃ st', (servers cfg store).run st = .ok (st.tables.servers c) st' ∧ Opened st' c store ∧
      st'.tables = st.tables := by
  obtain ⟨i, st', hrun, hopen, hheld, htables, -⟩ := dictionary_run hc h servers_isTable
  refine ⟨st', ?_, hopen, htables⟩
  rw [servers, bind_ok hrun, bind_ok (EStateM.run_get st'), ← htables, State.tables]
  simp only [hheld]
  rfl

theorem users_run (hc : cfg.store = TransferStore) (h : Opened st c store) :
    ∃ st', (users cfg store).run st = .ok (st.tables.users c) st' ∧ Opened st' c store ∧
      st'.tables = st.tables := by
  obtain ⟨i, st', hrun, hopen, hheld, htables, -⟩ := dictionary_run hc h users_isTable
  refine ⟨st', ?_, hopen, htables⟩
  rw [users, bind_ok hrun, bind_ok (EStateM.run_get st'), ← htables, State.tables]
  simp only [hheld]
  rfl

/-- Other contents for dictionary `i` as a table of servers. -/
def State.putServers (st : State) (i : Nat) (d : Dict Str ServerInstance) : State :=
  { st with servers := Function.update st.servers i d }

def State.putUsers (st : State) (i : Nat) (d : Dict Str (Dict Str UserInstance)) : State :=
  { st with users := Function.update st.users i d }

/-- A change of the dictionary that one account and region refer to. -/
theorem contents_put (h : Distinct st.stores.keyed) {n : TransferStore.Attr} {i : Nat}
    (hheld : st.stores.held (scopeOf n c) = some (.user i)) (heap : Nat → Dict Str β)
    (d : Dict Str β) :
    (fun c' => contents (Function.update heap i d) (st.stores.held (scopeOf n c'))) =
      Function.update (fun c' => contents heap (st.stores.held (scopeOf n c'))) c d := by
  funext c'
  refine (contents_update h hheld heap d (scopeOf n c')).trans ?_
  rw [Function.update_apply]
  by_cases hcc : c' = c
  · rw [if_pos hcc, if_pos (by rw [hcc])]
  · rw [if_neg hcc, if_neg fun h => hcc (scopeOf_injective h)]
    rfl

/-- A dictionary that is held is not one that is still to be made. -/
theorem ne_of_held (h : Distinct st.stores.keyed) {x : Scope} {i k : Nat}
    (hheld : st.stores.held x = some (.user i)) (hk : k ≥ st.stores.calls) : k ≠ i := by
  obtain ⟨j, hlt, he⟩ := h.refs _ _ hheld
  obtain rfl := Value.user.inj he
  exact (hlt.trans_le hk).ne'

theorem putServers_run (hg : Good st) {i : Nat}
    (hheld : st.stores.held (scopeOf serversAttr c) = some (.user i))
    (d : Dict Str ServerInstance) : Good (st.putServers i d) ∧ (st.putServers i d).tables =
      { st.tables with servers := Function.update st.tables.servers c d } := by
  constructor
  · refine ⟨hg.inv, hg.distinct, ?_⟩
    intro k hk
    have hne := ne_of_held hg.distinct hheld hk
    exact ⟨(Function.update_of_ne hne _ _).trans (hg.empty k hk).1, (hg.empty k hk).2⟩
  · rw [State.tables, Tables.mk.injEq]
    exact ⟨contents_put hg.distinct hheld st.servers d, rfl⟩

theorem putUsers_run (hg : Good st) {i : Nat}
    (hheld : st.stores.held (scopeOf usersAttr c) = some (.user i))
    (d : Dict Str (Dict Str UserInstance)) : Good (st.putUsers i d) ∧ (st.putUsers i d).tables =
      { st.tables with users := Function.update st.tables.users c d } := by
  constructor
  · refine ⟨hg.inv, hg.distinct, ?_⟩
    intro k hk
    have hne := ne_of_held hg.distinct hheld hk
    exact ⟨(hg.empty k hk).1, (Function.update_of_ne hne _ _).trans (hg.empty k hk).2⟩
  · rw [State.tables, Tables.mk.injEq]
    exact ⟨rfl, contents_put hg.distinct hheld st.users d⟩

theorem setServer_run (hc : cfg.store = TransferStore) (h : Opened st c store) (i : Str)
    (server : ServerInstance) :
    ∃ st', (setServer cfg store i server).run st = .ok () st' ∧ Good st' ∧
      st'.tables = st.tables.setServer c i server := by
  obtain ⟨j, st', hrun, hopen, hheld, htables, -⟩ := dictionary_run hc h servers_isTable
  have hself : st.tables.servers c = st'.servers j := by
    rw [← htables, State.tables]
    simp only [hheld]
    rfl
  obtain ⟨hgood, hput⟩ := putServers_run hopen.good hheld (Dict.set (st'.servers j) i server)
  refine ⟨st'.putServers j (Dict.set (st'.servers j) i server), ?_, hgood, ?_⟩
  · rw [setServer, bind_ok hrun]
    rfl
  · rw [hput, htables, Tables.setServer, hself]

theorem setUsers_run (hc : cfg.store = TransferStore) (h : Opened st c store) (i : Str)
    (d : Dict Str UserInstance) :
    ∃ st', (setUsers cfg store i d).run st = .ok () st' ∧ Opened st' c store ∧
      st'.tables = st.tables.setUsers c i d := by
  obtain ⟨j, st', hrun, hopen, hheld, htables, -⟩ := dictionary_run hc h users_isTable
  have hself : st.tables.users c = st'.users j := by
    rw [← htables, State.tables]
    simp only [hheld]
    rfl
  obtain ⟨hgood, hput⟩ := putUsers_run hopen.good hheld (Dict.set (st'.users j) i d)
  refine ⟨st'.putUsers j (Dict.set (st'.users j) i d), ?_, ⟨hgood, hopen.located⟩, ?_⟩
  · rw [setUsers, bind_ok hrun]
    rfl
  · rw [hput, htables, Tables.setUsers, hself]

/-! ## Requests on tables -/

/-- What a request must pass before it gets to its store. -/
def precheck (cfg : Config Nat) (c : RequestContext) (server_id : Option Str) : Except Error Unit :=
  if server_id.any fun i => (serverIdPattern.match_ i).isNone then
    .error (.CommonServiceException "ValidationException".toList validationMessage)
  else if !cfg.validAccount c.account_id then .error (.python (invalidAccount c.account_id))
  else if !cfg.validRegion c.region then .error (.python (invalidRegion cfg c.region))
  else .ok ()

def Request.server_id : Request → Option Str
  | .create_server _ => none
  | .describe_server i | .create_user _ i _ | .list_users i | .delete_user i _ => some i

section Requests

variable (t : Tables) (c : RequestContext)

def Tables.create_server (u : Uuid) : Except Error Response × Tables :=
  (.ok (.CreateServerResponse (_generate_server_id u)), t.setServer c (_generate_server_id u)
    ⟨_generate_server_id u, serverArn c (_generate_server_id u), ONLINE⟩)

def Tables.describe_server (i : Str) : Except Error Response × Tables :=
  match Dict.get (t.servers c) i with
  | none => (.error (unknownServer i), t)
  | some s => (.ok (.DescribeServerResponse s.server_id s.arn s.state), t)

/-- The users of a server; a server can have no entry for them yet. -/
def Tables.usersOf (i : Str) : Dict Str UserInstance := (Dict.get (t.users c) i).getD []

def Tables.create_user (role i n : Str) : Except Error Response × Tables :=
  match Dict.get (t.servers c) i, Dict.get (t.usersOf c i) n with
  | none, _ => (.error (unknownServer i), t)
  | some _, some _ => (.error (userExists i n), t)
  | some _, none => (.ok (.CreateUserResponse i n),
      t.setUsers c i (Dict.set (t.usersOf c i) n ⟨n, i, role, userArn c i n⟩))

def Tables.list_users (i : Str) : Except Error Response × Tables :=
  match Dict.get (t.servers c) i with
  | none => (.error (unknownServer i), t)
  | some _ => (.ok (.ListUsersResponse i ((t.usersOf c i).map fun p =>
      ⟨p.2.arn, p.2.user_name, p.2.role⟩)), t)

def Tables.delete_user (i n : Str) : Except Error Response × Tables :=
  match Dict.get (t.servers c) i, Dict.get (t.usersOf c i) n with
  | none, _ => (.error (unknownServer i), t)
  | some _, none => (.error (unknownUser n), t)
  | some _, some _ => (.ok .deleted, t.setUsers c i (Dict.erase (t.usersOf c i) n))

/-- What an admitted request does to the tables. -/
def Tables.apply : Request → Except Error Response × Tables
  | .create_server u => t.create_server c u
  | .describe_server i => t.describe_server c i
  | .create_user role i n => t.create_user c role i n
  | .list_users i => t.list_users c i
  | .delete_user i n => t.delete_user c i n

end Requests

def Tables.handle (cfg : Config Nat) (r : RequestContext × Request) (t : Tables) :
    Except Error Response × Tables :=
  match precheck cfg r.1 r.2.server_id with
  | .error e => (.error e, t)
  | .ok () => t.apply r.1 r.2

/-- A computation ends with a result and with these tables. -/
structure Yields (x : Tx α) (st : State) (o : Except Error α) (t : Tables) : Prop where
  outcome : outcome x st = o
  good : Good (after x st)
  tables : (after x st).tables = t

theorem yields_ok {x : Tx α} {a : α} {st' : State} {t : Tables} (h : x.run st = .ok a st')
    (hg : Good st') (ht : st'.tables = t) : Yields x st (.ok a) t :=
  ⟨outcome_ok h, by rwa [after_ok h], by rw [after_ok h, ht]⟩

theorem yields_error {x : Tx α} {e : Error} {st' : State} {t : Tables}
    (h : x.run st = .error e st') (hg : Good st') (ht : st'.tables = t) :
    Yields x st (.error e) t :=
  ⟨outcome_error h, by rwa [after_error h], by rw [after_error h, ht]⟩

theorem yields_bind {x : Tx α} {f : α → Tx β} {a : α} {st' : State} {o : Except Error β}
    {t : Tables} (h : x.run st = .ok a st') (hf : Yields (f a) st' o t) :
    Yields (x >>= f) st o t := by
  have hrun : (x >>= f).run st = (f a).run st' := bind_ok h
  constructor
  · rw [Stateful.outcome, hrun]
    exact hf.outcome
  · rw [after, hrun]
    exact hf.good
  · rw [after, hrun]
    exact hf.tables

theorem tables_of_keyed {w : World Nat} (h : w.keyed = st.stores.keyed) :
    ({ st with stores := w } : State).tables = st.tables := by
  have hheld : w.held = st.stores.held := congrArg Keyed.held h
  rw [State.tables, State.tables, hheld]

theorem good_of_keyed (hg : Good st) {w : World Nat} (hi : Inv TransferStore w)
    (h : w.keyed = st.stores.keyed) : Good { st with stores := w } := by
  refine ⟨hi, h ▸ hg.distinct, ?_⟩
  have hcalls : w.calls = st.stores.calls := congrArg Keyed.calls h
  intro i hle
  exact hg.empty i (hcalls ▸ hle)

theorem getStore_ok (hc : cfg.store = TransferStore) (hg : Good st)
    (ha : cfg.validAccount c.account_id = true) (hr : cfg.validRegion c.region = true) :
    ∃ store st', (getStore cfg c).run st = .ok store st' ∧ Opened st' c store ∧
      st'.tables = st.tables := by
  obtain ⟨b, s, w, hrun, hi, hl, hk, -⟩ :=
    path_run (hc ▸ transferStore_ordinary) (hc ▸ hg.inv) ha hr
  exact ⟨s, _, onStores_ok hrun, ⟨good_of_keyed hg (hc ▸ hi) hk, ⟨b, hl⟩⟩, tables_of_keyed hk⟩

theorem getStore_error (hc : cfg.store = TransferStore) (hg : Good st) {e : Error}
    (h : precheck cfg c none = .error e) :
    ∃ st', (getStore cfg c).run st = .error e st' ∧ Good st' ∧ st'.tables = st.tables := by
  cases ha : cfg.validAccount c.account_id with
  | false =>
    simp only [precheck, ha, Option.any_none, Bool.false_eq_true, ↓reduceIte, Bool.not_false,
      Except.error.injEq] at h
    subst h
    exact ⟨_, onStores_error (path_invalid_account ha), hg, rfl⟩
  | true =>
    cases hr : cfg.validRegion c.region with
    | false =>
      simp only [precheck, ha, hr, Option.any_none, Bool.false_eq_true, ↓reduceIte, Bool.not_false,
        Bool.not_true, Except.error.injEq] at h
      subst h
      obtain ⟨w, hrun, hi, hk⟩ := path_invalid_region (hc ▸ hg.inv) ha hr
      exact ⟨_, onStores_error hrun, good_of_keyed hg (hc ▸ hi) hk, tables_of_keyed hk⟩
    | true => simp [precheck, ha, hr] at h

theorem precheck_ok {i : Option Str} (h : precheck cfg c i = .ok ()) :
    (∀ j, i = some j → (serverIdPattern.match_ j).isSome) ∧
      cfg.validAccount c.account_id = true ∧ cfg.validRegion c.region = true := by
  unfold precheck at h
  split at h
  · cases h
  · rename_i hid
    split at h
    · cases h
    · rename_i ha
      split at h
      · cases h
      · rename_i hr
        refine ⟨?_, by simpa using ha, by simpa using hr⟩
        rintro j rfl
        simpa [Option.isSome_iff_ne_none] using hid

theorem precheck_some {i : Str} {e : Error} (h : precheck cfg c (some i) = .error e) :
    (serverIdPattern.match_ i).isNone ∧
        e = .CommonServiceException "ValidationException".toList validationMessage ∨
      (serverIdPattern.match_ i).isSome ∧ precheck cfg c none = .error e := by
  cases hm : serverIdPattern.match_ i with
  | none =>
    rw [precheck, if_pos (by simp [hm]), Except.error.injEq] at h
    exact Or.inl ⟨rfl, h.symm⟩
  | some m =>
    rw [precheck, if_neg (by simp [hm])] at h
    exact Or.inr ⟨rfl, by rw [precheck, if_neg (by simp)]; exact h⟩

theorem validate_ok {i : Str} (h : (serverIdPattern.match_ i).isSome) :
    (_validate_server_id i).run st = .ok () st := by
  rw [_validate_server_id, if_pos h]
  rfl

/-- What all operations on an existing server begin with. -/
theorem yields_request (hc : cfg.store = TransferStore) (hg : Good st) {i : Str}
    {body : Nat → Tx Response} {o : Except Error Response} {t : Tables}
    (hbody : ∀ store st', Opened st' c store → st'.tables = st.tables →
      Yields (body store) st' o t) :
    Yields (do
        _validate_server_id i
        let store ← getStore cfg c
        body store) st
      (match precheck cfg c (some i) with
        | .error e => .error e
        | .ok () => o)
      (match precheck cfg c (some i) with
        | .error _ => st.tables
        | .ok () => t) := by
  cases ha : precheck cfg c (some i) with
  | error e =>
    rcases precheck_some ha with ⟨hid, rfl⟩ | ⟨hid, he⟩
    · have hrun : (_validate_server_id i).run st =
          .error (.CommonServiceException "ValidationException".toList validationMessage) st := by
        rw [_validate_server_id, if_neg (by simpa [Option.isSome_iff_ne_none] using hid)]
        rfl
      exact yields_error (bind_error hrun) hg rfl
    · obtain ⟨st', hrun, hg', ht⟩ := getStore_error hc hg he
      refine yields_bind (validate_ok hid) ?_
      exact yields_error (bind_error hrun) hg' ht
  | ok _ =>
    obtain ⟨hid, hacc, hreg⟩ := precheck_ok ha
    obtain ⟨store, st', hrun, hopen, ht⟩ := getStore_ok hc hg hacc hreg
    exact yields_bind (validate_ok (hid i rfl)) (yields_bind hrun (hbody store st' hopen ht))

theorem checkServer_ok (hc : cfg.store = TransferStore) (h : Opened st c store) {i : Str}
    (hs : (Dict.get (st.tables.servers c) i).isSome) :
    ∃ st', (checkServer cfg store i).run st = .ok () st' ∧ Opened st' c store ∧
      st'.tables = st.tables := by
  obtain ⟨st', hrun, hopen, ht⟩ := servers_run hc h
  refine ⟨st', ?_, hopen, ht⟩
  rw [checkServer, bind_ok hrun, if_pos hs]
  rfl

theorem checkServer_missing (hc : cfg.store = TransferStore) (h : Opened st c store) {i : Str}
    (hs : Dict.get (st.tables.servers c) i = none) (f : Unit → Tx α) :
    Yields (checkServer cfg store i >>= f) st (.error (unknownServer i)) st.tables := by
  obtain ⟨st', hrun, hopen, ht⟩ := servers_run hc h
  have hcheck : (checkServer cfg store i).run st = .error (unknownServer i) st' := by
    rw [checkServer, bind_ok hrun, if_neg (by simp [hs])]
    rfl
  exact yields_error (bind_error hcheck) hopen.good ht

theorem usersOf_some (hc : cfg.store = TransferStore) (h : Opened st c store) {i : Str}
    {d : Dict Str UserInstance} (hd : Dict.get (st.tables.users c) i = some d) :
    ∃ st', (usersOf cfg store i).run st = .ok d st' ∧ Opened st' c store ∧
      st'.tables = st.tables := by
  obtain ⟨st', hrun, hopen, ht⟩ := users_run hc h
  refine ⟨st', ?_, hopen, ht⟩
  rw [usersOf, bind_ok hrun, hd]
  rfl

theorem changeUsers_some (hc : cfg.store = TransferStore) (h : Opened st c store) {i : Str}
    {d d' : Dict Str UserInstance} (f : Dict Str UserInstance → Option (Dict Str UserInstance))
    (hd : Dict.get (st.tables.users c) i = some d) (hf : f d = some d') :
    ∃ st', (changeUsers cfg store i f).run st = .ok () st' ∧ Opened st' c store ∧
      st'.tables = st.tables.setUsers c i d' := by
  obtain ⟨st₁, hrun, hopen, ht⟩ := usersOf_some hc h hd
  obtain ⟨st₂, hrun₂, hopen₂, ht₂⟩ := setUsers_run hc hopen i d'
  refine ⟨st₂, ?_, hopen₂, ?_⟩
  · rw [changeUsers, bind_ok hrun, hf, hrun₂]
  · rw [ht₂, ht]

/-! ## Each operation -/

theorem create_server_yields (hc : cfg.store = TransferStore) (hg : Good st) (u : Uuid) :
    Yields (create_server cfg c u) st (st.tables.handle cfg (c, .create_server u)).1
      (st.tables.handle cfg (c, .create_server u)).2 := by
  unfold Tables.handle create_server
  cases ha : precheck cfg c none with
  | error e =>
    obtain ⟨st', hrun, hg', ht⟩ := getStore_error hc hg ha
    simp only [Request.server_id, ha]
    exact yields_error (bind_error hrun) hg' ht
  | ok _ =>
    obtain ⟨-, hacc, hreg⟩ := precheck_ok ha
    obtain ⟨store, st₁, hrun, hopen, ht⟩ := getStore_ok hc hg hacc hreg
    obtain ⟨st₂, hrun₂, hg₂, ht₂⟩ := setServer_run hc hopen (_generate_server_id u)
      ⟨_generate_server_id u, serverArn c (_generate_server_id u), ONLINE⟩
    simp only [Request.server_id, ha]
    refine yields_bind hrun (yields_bind hrun₂ (yields_ok rfl hg₂ ?_))
    rw [ht₂, ht]
    rfl

theorem describe_server_yields (hc : cfg.store = TransferStore) (h : Opened st c store)
    (i : Str) :
    Yields (do
        checkServer cfg store i
        match Dict.get (← servers cfg store) i with
        | some server => return .DescribeServerResponse server.server_id server.arn server.state
        | none => throw (.python .keyError)) st
      (st.tables.describe_server c i).1 (st.tables.describe_server c i).2 := by
  cases hs : Dict.get (st.tables.servers c) i with
  | none =>
    rw [Tables.describe_server, hs]
    exact checkServer_missing hc h hs _
  | some server =>
    obtain ⟨st₁, hrun, hopen, ht⟩ := checkServer_ok hc h (by rw [hs]; rfl)
    obtain ⟨st₂, hrun₂, hopen₂, ht₂⟩ := servers_run hc hopen
    rw [Tables.describe_server, hs]
    refine yields_bind hrun (yields_bind hrun₂ ?_)
    rw [ht, hs]
    exact yields_ok rfl hopen₂.good (ht₂.trans ht)

theorem list_users_yields (hc : cfg.store = TransferStore) (h : Opened st c store) (i : Str) :
    Yields (do
        checkServer cfg store i
        let users := (Dict.get (← users cfg store) i).getD []
        let listed_users := users.map fun p => ⟨p.2.arn, p.2.user_name, p.2.role⟩
        return .ListUsersResponse i listed_users) st
      (st.tables.list_users c i).1 (st.tables.list_users c i).2 := by
  cases hs : Dict.get (st.tables.servers c) i with
  | none =>
    rw [Tables.list_users, hs]
    exact checkServer_missing hc h hs _
  | some server =>
    obtain ⟨st₁, hrun, hopen, ht⟩ := checkServer_ok hc h (by rw [hs]; rfl)
    obtain ⟨st₂, hrun₂, hopen₂, ht₂⟩ := users_run hc hopen
    rw [Tables.list_users, hs]
    refine yields_bind hrun (yields_bind hrun₂ ?_)
    rw [ht]
    exact yields_ok rfl hopen₂.good (ht₂.trans ht)

/-- The dictionary that `create_user` goes on with. -/
theorem Tables.usersOf_of_some {t : Tables} {d : Dict Str UserInstance} {i : Str}
    (h : Dict.get (t.users c) i = some d) : t.usersOf c i = d := by
  rw [Tables.usersOf, h]
  rfl

theorem Tables.usersOf_of_none {t : Tables} {i : Str} (h : Dict.get (t.users c) i = none) :
    t.usersOf c i = [] := by
  rw [Tables.usersOf, h]
  rfl

theorem ensureUsers_run (hc : cfg.store = TransferStore) (h : Opened st c store) (i : Str) :
    ∃ st', (ensureUsers cfg store i).run st = .ok () st' ∧ Opened st' c store ∧
      Dict.get (st'.tables.users c) i = some (st.tables.usersOf c i) ∧
      (st'.tables = st.tables ∨
        st.tables.usersOf c i = [] ∧ st'.tables = st.tables.setUsers c i []) := by
  obtain ⟨st₁, hrun, hopen, ht⟩ := users_run hc h
  cases hd : Dict.get (st.tables.users c) i with
  | some d =>
    refine ⟨st₁, ?_, hopen, ?_, Or.inl ht⟩
    · rw [ensureUsers, bind_ok hrun, hd]
      rfl
    · rw [ht, hd, Tables.usersOf_of_some hd]
  | none =>
    obtain ⟨st₂, hrun₂, hopen₂, ht₂⟩ := setUsers_run hc hopen i []
    have hempty := Tables.usersOf_of_none hd
    refine ⟨st₂, ?_, hopen₂, ?_, Or.inr ⟨hempty, by rw [ht₂, ht]⟩⟩
    · rw [ensureUsers, bind_ok hrun, hd, if_neg (by simp), hrun₂]
    · rw [ht₂, hempty]
      simp [Tables.setUsers]

theorem create_user_yields (hc : cfg.store = TransferStore) (h : Opened st c store)
    (role i n : Str) :
    Yields (do
        checkServer cfg store i
        ensureUsers cfg store i
        checkNewUser cfg store i n
        changeUsers cfg store i (some <| Dict.set · n ⟨n, i, role, userArn c i n⟩)
        return .CreateUserResponse i n) st
      (st.tables.create_user c role i n).1 (st.tables.create_user c role i n).2 := by
  cases hs : Dict.get (st.tables.servers c) i with
  | none =>
    rw [Tables.create_user, hs]
    exact checkServer_missing hc h hs _
  | some server =>
    obtain ⟨st₁, hrun, hopen, ht⟩ := checkServer_ok hc h (by rw [hs]; rfl)
    obtain ⟨st₂, hrun₂, hopen₂, hd, ht₂⟩ := ensureUsers_run hc hopen i
    obtain ⟨st₃, hrun₃, hopen₃, ht₃⟩ := usersOf_some hc hopen₂ hd
    rw [ht] at hd ht₂ hrun₃
    cases hn : Dict.get (st.tables.usersOf c i) n with
    | some user =>
      have hsame : st₂.tables = st.tables := by
        rcases ht₂ with ht₂ | ⟨hempty, -⟩
        · exact ht₂
        · rw [hempty] at hn
          cases hn
      have hcheck : (checkNewUser cfg store i n).run st₂ = .error (userExists i n) st₃ := by
        rw [checkNewUser, bind_ok hrun₃, hn]
        rfl
      simp only [Tables.create_user, hs, hn]
      refine yields_bind hrun (yields_bind hrun₂ ?_)
      exact yields_error (bind_error hcheck) hopen₃.good (ht₃.trans hsame)
    | none =>
      have hcheck : (checkNewUser cfg store i n).run st₂ = .ok () st₃ := by
        rw [checkNewUser, bind_ok hrun₃, hn]
        rfl
      rw [← ht₃] at hd
      obtain ⟨st₄, hrun₄, hopen₄, ht₄⟩ := changeUsers_some hc hopen₃
        (some <| Dict.set · n ⟨n, i, role, userArn c i n⟩) hd rfl
      simp only [Tables.create_user, hs, hn]
      refine yields_bind hrun (yields_bind hrun₂ (yields_bind hcheck (yields_bind hrun₄ ?_)))
      refine yields_ok rfl hopen₄.good ?_
      rw [ht₄, ht₃]
      rcases ht₂ with ht₂ | ⟨-, ht₂⟩
      · rw [ht₂]
      · rw [ht₂]
        simp [Tables.setUsers, Dict.set_set]

theorem checkUser_missing (hc : cfg.store = TransferStore) (h : Opened st c store) {i n : Str}
    (hn : Dict.get (st.tables.usersOf c i) n = none) :
    ∃ st', (checkUser cfg store i n).run st = .error (unknownUser n) st' ∧
      Opened st' c store ∧ st'.tables = st.tables := by
  obtain ⟨st₁, hrun, hopen, ht⟩ := users_run hc h
  cases hd : Dict.get (st.tables.users c) i with
  | none =>
    refine ⟨st₁, ?_, hopen, ht⟩
    rw [checkUser, bind_ok hrun, hd]
    rfl
  | some d =>
    rw [Tables.usersOf_of_some hd] at hn
    obtain ⟨st₂, hrun₂, hopen₂, ht₂⟩ := usersOf_some hc hopen (by rw [ht, hd])
    refine ⟨st₂, ?_, hopen₂, ht₂.trans ht⟩
    rw [checkUser, bind_ok hrun, hd, if_neg (by simp), bind_ok hrun₂, hn]
    rfl

theorem checkUser_ok (hc : cfg.store = TransferStore) (h : Opened st c store) {i n : Str}
    {d : Dict Str UserInstance} {user : UserInstance} (hd : Dict.get (st.tables.users c) i = some d)
    (hn : Dict.get d n = some user) :
    ∃ st', (checkUser cfg store i n).run st = .ok () st' ∧ Opened st' c store ∧
      st'.tables = st.tables := by
  obtain ⟨st₁, hrun, hopen, ht⟩ := users_run hc h
  obtain ⟨st₂, hrun₂, hopen₂, ht₂⟩ := usersOf_some hc hopen (by rw [ht, hd])
  refine ⟨st₂, ?_, hopen₂, ht₂.trans ht⟩
  rw [checkUser, bind_ok hrun, hd, if_neg (by simp), bind_ok hrun₂, hn]
  rfl

theorem delete_user_yields (hc : cfg.store = TransferStore) (h : Opened st c store)
    (i n : Str) :
    Yields (do
        checkServer cfg store i
        checkUser cfg store i n
        changeUsers cfg store i (delKey · n)
        return .deleted) st
      (st.tables.delete_user c i n).1 (st.tables.delete_user c i n).2 := by
  cases hs : Dict.get (st.tables.servers c) i with
  | none =>
    rw [Tables.delete_user, hs]
    exact checkServer_missing hc h hs _
  | some server =>
    obtain ⟨st₁, hrun, hopen, ht⟩ := checkServer_ok hc h (by rw [hs]; rfl)
    refine yields_bind hrun ?_
    cases hn : Dict.get (st.tables.usersOf c i) n with
    | none =>
      obtain ⟨st₂, hcheck, hopen₂, ht₂⟩ := checkUser_missing hc hopen (n := n) (by rw [ht, hn])
      simp only [Tables.delete_user, hs, hn]
      exact yields_error (bind_error hcheck) hopen₂.good (ht₂.trans ht)
    | some user =>
      obtain ⟨d, hd⟩ : ∃ d, Dict.get (st.tables.users c) i = some d := by
        by_contra hnone
        have hd := Option.eq_none_iff_forall_ne_some.mpr (not_exists.mp hnone)
        rw [Tables.usersOf_of_none hd] at hn
        cases hn
      rw [Tables.usersOf_of_some hd] at hn
      obtain ⟨st₂, hcheck, hopen₂, ht₂⟩ := checkUser_ok hc hopen (by rw [ht, hd]) hn
      have hdel : delKey d n = some (Dict.erase d n) := by
        rw [delKey, hn]
        rfl
      obtain ⟨st₃, hrun₃, hopen₃, ht₃⟩ := changeUsers_some hc hopen₂ (delKey · n)
        (by rw [ht₂, ht, hd]) hdel
      simp only [Tables.delete_user, hs, Tables.usersOf_of_some hd, hn]
      refine yields_bind hcheck (yields_bind hrun₃ (yields_ok rfl hopen₃.good ?_))
      rw [ht₃, ht₂, ht]

/-- **Tables.** A request on the heap is a request on the tables of its account and
region. -/
theorem handle_tables (hc : cfg.store = TransferStore) (hg : Good st)
    (r : RequestContext × Request) :
    Yields (handle cfg r) st (st.tables.handle cfg r).1 (st.tables.handle cfg r).2 := by
  obtain ⟨c, req⟩ := r
  have hbody : ∀ {i : Str} {body : Nat → Tx Response}, req.server_id = some i →
      (∀ store st', Opened st' c store →
        Yields (body store) st' (st'.tables.apply c req).1 (st'.tables.apply c req).2) →
      Yields (do
        _validate_server_id i
        let store ← getStore cfg c
        body store) st (st.tables.handle cfg (c, req)).1 (st.tables.handle cfg (c, req)).2 := by
    intro i body hi h
    have hrequest := @yields_request _ _ c hc hg i body _ _
      fun store st' hopen ht => ht ▸ h store st' hopen
    unfold Tables.handle
    rw [hi]
    cases ha : precheck cfg c (some i) with
    | error e =>
      rw [ha] at hrequest
      exact hrequest
    | ok _ =>
      rw [ha] at hrequest
      exact hrequest
  cases req with
  | create_server u => exact create_server_yields hc hg u
  | describe_server i => exact hbody rfl fun _ _ h => describe_server_yields hc h i
  | create_user role i n => exact hbody rfl fun _ _ h => create_user_yields hc h role i n
  | list_users i => exact hbody rfl fun _ _ h => list_users_yields hc h i
  | delete_user i n => exact hbody rfl fun _ _ h => delete_user_yields hc h i n

end LocalStack.Services.Transfer
