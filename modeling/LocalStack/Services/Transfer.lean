import LocalStack.Services.StoreSharing

/-! The Transfer provider: `services/transfer/provider.py` and `models.py`. Its two
tables are dictionaries that a `TransferStore` refers to by its local attributes
`servers` and `users`, so the state is the heap of the stores and the contents of
those dictionaries. -/

namespace LocalStack.Services.Transfer
open LocalStack.OrderedDict LocalStack.Text LocalStack.Regex LocalStack.Stateful
open LocalStack.Services.Stores

variable {α : Type}

/-! ## Records -/

structure ServerInstance where
  server_id : Str
  arn : Str
  state : Str
  deriving DecidableEq, Repr

structure UserInstance where
  user_name : Str
  server_id : Str
  role : Str
  arn : Str
  deriving DecidableEq, Repr

/-- `State.ONLINE`. -/
def ONLINE : Str := "ONLINE".toList

/-- `default=dict`: every call makes a new dictionary, and dictionaries are numbered. -/
def TransferStore : StoreClass Nat where
  name := "TransferStore".toList
  attributes := [("servers".toList, ⟨.localAttribute, .callable id⟩),
    ("users".toList, ⟨.localAttribute, .callable id⟩)]
  no_special_names := by decide

def serversAttr : TransferStore.Attr := ⟨"servers".toList, by decide⟩

def usersAttr : TransferStore.Attr := ⟨"users".toList, by decide⟩

/-- `transfer_stores`. The regions are what boto3 knows for the service. -/
def transfer_stores (ALLOW_NONSTANDARD_REGIONS : Bool) (valid_regions : List Str) :
    Config Nat where
  service_name := "transfer".toList
  store := TransferStore
  validate := true
  ALLOW_NONSTANDARD_REGIONS := ALLOW_NONSTANDARD_REGIONS
  valid_regions := valid_regions

/-- A dictionary of servers holds `ServerInstance`s, a dictionary of users one
dictionary of `UserInstance`s for each server. -/
structure State where
  stores : World Nat
  servers : Nat → Dict Str ServerInstance
  users : Nat → Dict Str (Dict Str UserInstance)

def start : State := ⟨initial, fun _ => [], fun _ => []⟩

inductive Error
  | python (e : PyError)
  | CommonServiceException (code message : Str)
  | ResourceNotFoundException (message Resource ResourceType : Str)
  | ResourceExistsException (message Resource ResourceType : Str)
  deriving DecidableEq, Repr

abbrev Tx (α : Type) := EStateM Error State α

/-- A computation on the stores. -/
def onStores (x : Py Nat α) : Tx α := fun st =>
  match x.run st.stores with
  | .ok a w => .ok a { st with stores := w }
  | .error e w => .error (.python e) { st with stores := w }

/-- The account and the region of a request. -/
structure RequestContext where
  account_id : Str
  region : Str
  deriving DecidableEq, Repr

/-! ## Tables of a store -/

section Tables

variable (cfg : Config Nat) (store : Nat)

/-- The dictionary that an attribute refers to. -/
def dictionary (n : Str) : Tx Nat := do
  match ← onStores (readAttr cfg.store store n) with
  | .user i => return i
  | _ => throw (.python .typeError)

/-- `store.servers`. -/
def servers : Tx (Dict Str ServerInstance) := do
  let i ← dictionary cfg store serversAttr.1
  return (← get).servers i

/-- `store.servers[server_id] = server`. -/
def setServer (server_id : Str) (server : ServerInstance) : Tx Unit := do
  let i ← dictionary cfg store serversAttr.1
  modify fun st => { st with
    servers := Function.update st.servers i (Dict.set (st.servers i) server_id server) }

/-- `store.users`. -/
def users : Tx (Dict Str (Dict Str UserInstance)) := do
  let i ← dictionary cfg store usersAttr.1
  return (← get).users i

/-- `store.users[server_id] = d`. -/
def setUsers (server_id : Str) (d : Dict Str UserInstance) : Tx Unit := do
  let i ← dictionary cfg store usersAttr.1
  modify fun st => { st with
    users := Function.update st.users i (Dict.set (st.users i) server_id d) }

/-- `store.users[server_id]`. -/
def usersOf (server_id : Str) : Tx (Dict Str UserInstance) := do
  match Dict.get (← users cfg store) server_id with
  | some d => return d
  | none => throw (.python .keyError)

/-- A change of the dictionary `store.users[server_id]` in place, or `none` for a
`KeyError`. Nothing but the table of users refers to that dictionary. -/
def changeUsers (server_id : Str) (f : Dict Str UserInstance → Option (Dict Str UserInstance)) :
    Tx Unit := do
  match f (← usersOf cfg store server_id) with
  | some d => setUsers cfg store server_id d
  | none => throw (.python .keyError)

end Tables

/-! ## Server ids -/

/-- `[0-9a-f]`. -/
def lowerHex (c : Char) : Bool := ('0' ≤ c ∧ c ≤ '9') ∨ ('a' ≤ c ∧ c ≤ 'f')

/-- `r"^s-[0-9a-f]{17}$"`; a match starts at the start of the text anyway. -/
def serverIdPattern : Pattern :=
  .seq (.lit "s-".toList) (.seq (.chars lowerHex 17 (some 17)) .endOfText)

def validationMessage : Str :=
  ("1 validation error detected: Value at 'serverId' failed to satisfy constraint: " ++
    "Member must satisfy regular expression pattern: s-([0-9a-f]\x7b17\x7d)").toList

def _validate_server_id (server_id : Str) : Tx Unit :=
  if (serverIdPattern.match_ server_id).isSome then return ()
  else throw (.CommonServiceException "ValidationException".toList validationMessage)

/-- A UUID: 32 lower-case hexadecimal digits. -/
structure Uuid where
  digits : Str
  length_eq : digits.length = 32
  hex : ∀ c ∈ digits, lowerHex c = true

/-- `str(uuid)`. -/
def Uuid.toStr (u : Uuid) : Str :=
  u.digits.take 8 ++ '-' :: (u.digits.drop 8).take 4 ++ '-' :: (u.digits.drop 12).take 4 ++
    '-' :: (u.digits.drop 16).take 4 ++ '-' :: u.digits.drop 20

/-- The id that is made of the UUID that `long_uid` returns. -/
def _generate_server_id (long_uid : Uuid) : Str :=
  "s-".toList ++ (replace "-".toList [] long_uid.toStr).take 17

def serverArn (context : RequestContext) (server_id : Str) : Str :=
  "arn:aws:transfer:".toList ++ context.region ++ ":".toList ++ context.account_id ++
    ":server/".toList ++ server_id

def userArn (context : RequestContext) (server_id user_name : Str) : Str :=
  "arn:aws:transfer:".toList ++ context.region ++ ":".toList ++ context.account_id ++
    ":user/".toList ++ server_id ++ "/".toList ++ user_name

def unknownServer (server_id : Str) : Error :=
  .ResourceNotFoundException "Unknown server".toList server_id "Server".toList

def unknownUser (user_name : Str) : Error :=
  .ResourceNotFoundException "Unknown user".toList user_name "User".toList

def userExists (server_id user_name : Str) : Error :=
  .ResourceExistsException "User already exists".toList (user_name ++ "@".toList ++ server_id)
    "User".toList

/-! ## Operations -/

structure ListedUser where
  Arn : Str
  UserName : Str
  Role : Str
  deriving DecidableEq, Repr

inductive Response
  | CreateServerResponse (ServerId : Str)
  | DescribeServerResponse (ServerId Arn State : Str)
  | CreateUserResponse (ServerId UserName : Str)
  | ListUsersResponse (ServerId : Str) (Users : List ListedUser)
  | deleted
  deriving DecidableEq, Repr

section Operations

variable (cfg : Config Nat) (context : RequestContext)

/-- `transfer_stores[context.account_id][context.region]`. -/
def getStore : Tx Nat := onStores (path cfg context.account_id context.region)

/-- `if server_id not in store.servers: raise`. -/
def checkServer (store : Nat) (server_id : Str) : Tx Unit := do
  if (Dict.get (← servers cfg store) server_id).isSome then return ()
  else throw (unknownServer server_id)

def create_server (long_uid : Uuid) : Tx Response := do
  let store ← getStore cfg context
  let server_id := _generate_server_id long_uid
  let arn := serverArn context server_id
  setServer cfg store server_id ⟨server_id, arn, ONLINE⟩
  return .CreateServerResponse server_id

def describe_server (server_id : Str) : Tx Response := do
  _validate_server_id server_id
  let store ← getStore cfg context
  checkServer cfg store server_id
  match Dict.get (← servers cfg store) server_id with
  | some server => return .DescribeServerResponse server.server_id server.arn server.state
  | none => throw (.python .keyError)

/-- `if server_id not in store.users: store.users[server_id] = {}`. -/
def ensureUsers (store : Nat) (server_id : Str) : Tx Unit := do
  if (Dict.get (← users cfg store) server_id).isSome then return ()
  else setUsers cfg store server_id []

/-- `if user_name in store.users[server_id]: raise`. -/
def checkNewUser (store : Nat) (server_id user_name : Str) : Tx Unit := do
  if (Dict.get (← usersOf cfg store server_id) user_name).isSome then
    throw (userExists server_id user_name)
  else return ()

def create_user (role server_id user_name : Str) : Tx Response := do
  _validate_server_id server_id
  let store ← getStore cfg context
  checkServer cfg store server_id
  ensureUsers cfg store server_id
  checkNewUser cfg store server_id user_name
  changeUsers cfg store server_id
    (some <| Dict.set · user_name
      ⟨user_name, server_id, role, userArn context server_id user_name⟩)
  return .CreateUserResponse server_id user_name

def list_users (server_id : Str) : Tx Response := do
  _validate_server_id server_id
  let store ← getStore cfg context
  checkServer cfg store server_id
  let users := (Dict.get (← users cfg store) server_id).getD []
  let listed_users := users.map fun p => ⟨p.2.arn, p.2.user_name, p.2.role⟩
  return .ListUsersResponse server_id listed_users

/-- `server_id not in store.users or user_name not in store.users[server_id]`. -/
def checkUser (store : Nat) (server_id user_name : Str) : Tx Unit := do
  if (Dict.get (← users cfg store) server_id).isNone then throw (unknownUser user_name)
  else if (Dict.get (← usersOf cfg store server_id) user_name).isNone then
    throw (unknownUser user_name)
  else return ()

/-- `del d[k]`. -/
def delKey (d : Dict Str UserInstance) (k : Str) : Option (Dict Str UserInstance) :=
  if (Dict.get d k).isSome then some (Dict.erase d k) else none

def delete_user (server_id user_name : Str) : Tx Response := do
  _validate_server_id server_id
  let store ← getStore cfg context
  checkServer cfg store server_id
  checkUser cfg store server_id user_name
  changeUsers cfg store server_id (delKey · user_name)
  return .deleted

end Operations

inductive Request
  | create_server (long_uid : Uuid)
  | describe_server (server_id : Str)
  | create_user (role server_id user_name : Str)
  | list_users (server_id : Str)
  | delete_user (server_id user_name : Str)

/-- One request. -/
def handle (cfg : Config Nat) (r : RequestContext × Request) : Tx Response :=
  match r.2 with
  | .create_server u => create_server cfg r.1 u
  | .describe_server i => describe_server cfg r.1 i
  | .create_user role i n => create_user cfg r.1 role i n
  | .list_users i => list_users cfg r.1 i
  | .delete_user i n => delete_user cfg r.1 i n

end LocalStack.Services.Transfer
