import Safeos.Auth.Authority
import Safeos.Asset
import Safeos.Lib.Run

/-!
# Accounts, permissions and links (`chain/eosio_contract.cpp`, `chain/authorization_manager.cpp`)

The native actions `newaccount`, `updateauth`, `deleteauth`, `linkauth` and `unlinkauth` of the
system account, over the three tables they write: accounts, the `permission_index` and the
`permission_link_index`. A permission is a node of a tree: its `parent` is the id of another
permission of the same account, and `0` (the id of the dummy permission the chain creates first)
for an account's `owner`. Ids are chainbase's, handed out in order and never reused.

`permission_object::satisfies` walks the parent pointers of the permission index; its `while`
loop has no bound of its own, so the walk here takes `fuel` and returns `none` when the fuel
runs out or a parent id is missing (where the code would dereference `end()`).
-/

namespace Safeos

namespace Native

/-- `account_object`: the fields the native actions read. -/
structure AccountObject where
  name : Name
  privileged : Bool
deriving DecidableEq, Repr

/-- `permission_object` without its usage record and timestamps. -/
structure PermissionObject (K : Type) where
  id : Nat
  parent : Nat
  owner : Name
  name : Name
  auth : Authority K
deriving DecidableEq, Repr

/-- `permission_link_object`. -/
structure PermissionLink where
  account : Name
  code : Name
  messageType : Name
  requiredPermission : Name
deriving DecidableEq, Repr

/-- The tables of the native actions. `permissions` is the `permission_index` in id order and
`nextPermissionId` the id the next `create` hands out. -/
structure State (K : Type) where
  accounts : List AccountObject
  permissions : List (PermissionObject K)
  nextPermissionId : Nat
  links : List PermissionLink

/-- The chain configuration the actions read. -/
structure Env where
  maxTransactionDelay : Nat

/-- `updateauth::get_name()` and the other native action names. -/
def updateauthName : Name := stringToName "updateauth".toList
/-- `deleteauth::get_name()`. -/
def deleteauthName : Name := stringToName "deleteauth".toList
/-- `linkauth::get_name()`. -/
def linkauthName : Name := stringToName "linkauth".toList
/-- `unlinkauth::get_name()`. -/
def unlinkauthName : Name := stringToName "unlinkauth".toList
/-- `canceldelay::get_name()`. -/
def canceldelayName : Name := stringToName "canceldelay".toList

variable {K : Type}

/-- `apply_context::require_authorization`: some declared authorization has `account` as
actor. -/
def requireAuthorization (auths : List PermissionLevel) (account : Name) : Except String Unit :=
  eosioAssert (auths.any (·.actor == account)) "missing authority of ${account}"

/-- `db.find<account_object, by_name>`. -/
def findAccount (s : State K) (n : Name) : Option AccountObject :=
  s.accounts.find? (·.name == n)

/-- `db.get<account_object, by_name>`. -/
def getAccount (s : State K) (n : Name) : Except String AccountObject :=
  match findAccount s n with
  | some a => pure a
  | none => throw "unknown key"

/-- `authorization_manager::find_permission`: the `by_owner` lookup. -/
def findPermission (s : State K) (level : PermissionLevel) :
    Except String (Option (PermissionObject K)) := do
  eosioAssert (!level.actor.empty && !level.permission.empty) "Invalid permission"
  pure (s.permissions.find? fun p => p.owner == level.actor && p.name == level.permission)

/-- `authorization_manager::get_permission`. -/
def getPermission (s : State K) (level : PermissionLevel) : Except String (PermissionObject K) := do
  match ← findPermission s level with
  | some p => pure p
  | none => throw "Failed to retrieve permission: ${level}"

/-- `authorization_manager::create_permission`: the new permission takes the next id. -/
def createPermission (s : State K) (account name : Name) (parent : Nat) (auth : Authority K) :
    State K × PermissionObject K :=
  let p : PermissionObject K := ⟨s.nextPermissionId, parent, account, name, auth⟩
  ({ s with permissions := s.permissions ++ [p], nextPermissionId := s.nextPermissionId + 1 }, p)

/-- `authorization_manager::modify_permission`. -/
def modifyPermission (s : State K) (permission : PermissionObject K) (auth : Authority K) :
    State K :=
  let permissions := s.permissions.map fun p =>
    if p.id = permission.id then { p with auth := auth } else p
  { s with permissions := permissions }

/-- `authorization_manager::remove_permission`: refused while a permission has children (the
`by_parent` range of its id). -/
def removePermission (s : State K) (permission : PermissionObject K) : Except String (State K) := do
  eosioAssert (!s.permissions.any (·.parent == permission.id))
    "Cannot remove a permission which has children. Remove the children first."
  pure { s with permissions := s.permissions.filter (·.id != permission.id) }

/-- `validate_authority_precondition`: every account entry names an existing account, and an
existing permission unless it is `owner`, `active` or the virtual `eosio.code`. -/
def validateAuthorityPrecondition (s : State K) (auth : Authority K) : Except String Unit :=
  auth.accounts.forM fun a => do
    eosioAssert (findAccount s a.permission.actor).isSome "account '${account}' does not exist"
    if a.permission.permission = Config.ownerName ∨ a.permission.permission = Config.activeName ∨
        a.permission.permission = Config.eosioCodeName then
      pure ()
    else
      match getPermission s a.permission with
      | .ok _ => pure ()
      | .error _ => throw "permission '${perm}' does not exist"

/-- `apply_eosio_newaccount`. The creator must exist; only a privileged creator may take an
`eosio.` name. -/
def newaccount [LT K] [DecidableRel (α := K) (· < ·)] (s : State K) (auths : List PermissionLevel)
    (creator name : Name) (owner active : Authority K) : Except String (State K) := do
  requireAuthorization auths creator
  eosioAssert owner.validate "Invalid owner authority"
  eosioAssert active.validate "Invalid active authority"
  eosioAssert (!name.empty) "account name cannot be empty"
  eosioAssert (name.toString.length ≤ 12) "account names can only be 12 chars long"
  let creatorAccount ← getAccount s creator
  -- `if( !creator.privileged ) EOS_ASSERT( name_str.find( "eosio." ) != 0, ... )`
  eosioAssert (creatorAccount.privileged || !name.startsWith "eosio.".toList)
    "only privileged accounts can have names that start with 'eosio.'"
  eosioAssert (findAccount s name).isNone
    "Cannot create account named ${name}, as that name is already taken"
  let s := { s with accounts := s.accounts ++ [⟨name, false⟩] }
  validateAuthorityPrecondition s owner
  validateAuthorityPrecondition s active
  let (s, ownerPermission) := createPermission s name Config.ownerName 0 owner
  pure (createPermission s name Config.activeName ownerPermission.id active).1

/-- `apply_eosio_updateauth`: create the permission under its parent, or replace the authority
of an existing one, whose parent may not change. -/
def updateauth [LT K] [DecidableRel (α := K) (· < ·)] (env : Env) (s : State K)
    (auths : List PermissionLevel) (account permission parent : Name) (auth : Authority K) :
    Except String (State K) := do
  requireAuthorization auths account
  eosioAssert (!permission.empty) "Cannot create authority with empty name"
  eosioAssert (!permission.startsWith "eosio.".toList)
    "Permission names that start with 'eosio.' are reserved"
  eosioAssert (permission != parent) "Cannot set an authority as its own parent"
  let _ ← getAccount s account
  eosioAssert auth.validate "Invalid authority: ${auth}"
  eosioAssert (permission != Config.activeName || parent == Config.ownerName)
    "Cannot change active authority's parent from owner"
  (if permission = Config.ownerName then
    eosioAssert parent.empty "Cannot change owner authority's parent"
  else
    eosioAssert (!parent.empty) "Only owner permission can have empty parent")
  eosioAssert (match auth.waits.getLast? with
      | some w => decide (w.waitSec ≤ env.maxTransactionDelay)
      | none => true)
    "Cannot set delay longer than max_transacton_delay, which is ${max_delay} seconds"
  validateAuthorityPrecondition s auth
  let existing ← findPermission s ⟨account, permission⟩
  let parentId ← (if permission = Config.ownerName then pure 0 else do
    let p ← getPermission s ⟨account, parent⟩
    pure p.id)
  match existing with
  | some p => do
    eosioAssert (parentId == p.parent) "Changing parent authority is not currently supported"
    pure (modifyPermission s p auth)
  | none => pure (createPermission s account permission parentId auth).1

/-- `apply_eosio_deleteauth`: neither `owner` nor `active`, not linked, and without children. -/
def deleteauth (s : State K) (auths : List PermissionLevel) (account permission : Name) :
    Except String (State K) := do
  requireAuthorization auths account
  eosioAssert (permission != Config.activeName) "Cannot delete active authority"
  eosioAssert (permission != Config.ownerName) "Cannot delete owner authority"
  -- the `by_permission_name` range of `(account, permission)`
  eosioAssert (!s.links.any fun l => l.account == account && l.requiredPermission == permission)
    "Cannot delete a linked authority. Unlink the authority first. This authority is linked to ${code}::${type}."
  let p ← getPermission s ⟨account, permission⟩
  removePermission s p

/-- The `by_action_name` key of a link. -/
def linkKey (account code type : Name) (l : PermissionLink) : Bool :=
  l.account == account && l.code == code && l.messageType == type

/-- `apply_eosio_linkauth`. The required permission is looked up in the `by_name` index, that
is among the permissions of every account. -/
def linkauth (s : State K) (auths : List PermissionLevel) (account code type requirement : Name) :
    Except String (State K) := do
  eosioAssert (!requirement.empty) "Required permission cannot be empty"
  requireAuthorization auths account
  eosioAssert (findAccount s account).isSome "Failed to retrieve account: ${account}"
  eosioAssert (findAccount s code).isSome "Failed to retrieve code for account: ${account}"
  eosioAssert (requirement == Config.eosioAnyName || s.permissions.any (·.name == requirement))
    "Failed to retrieve permission: ${permission}"
  match s.links.find? (linkKey account code type) with
  | some link => do
    eosioAssert (link.requiredPermission != requirement)
      "Attempting to update required authority, but new requirement is same as old"
    let links := s.links.map fun l =>
      if linkKey account code type l then { l with requiredPermission := requirement } else l
    pure { s with links := links }
  | none => pure { s with links := s.links ++ [⟨account, code, type, requirement⟩] }

/-- `apply_eosio_unlinkauth`. -/
def unlinkauth (s : State K) (auths : List PermissionLevel) (account code type : Name) :
    Except String (State K) := do
  requireAuthorization auths account
  match s.links.find? (linkKey account code type) with
  | some _ => pure { s with links := s.links.filter fun l => !linkKey account code type l }
  | none => throw "Attempting to unlink authority, but no link found"

/-- `authorization_manager::lookup_linked_permission`: the link for the action, else the
contract-wide default link (empty action name). -/
def lookupLinkedPermission (s : State K) (authorizerAccount scope actName : Name) : Option Name :=
  match s.links.find? (linkKey authorizerAccount scope actName) with
  | some l => some l.requiredPermission
  | none => (s.links.find? (linkKey authorizerAccount scope ⟨0⟩)).map (·.requiredPermission)

/-- `authorization_manager::lookup_minimum_permission`: `active` when nothing is linked, none
for `eosio.any`. -/
def lookupMinimumPermission (s : State K) (authorizerAccount scope actName : Name) :
    Except String (Option Name) := do
  eosioAssert (scope != Config.systemAccountName ||
      (actName != updateauthName && actName != deleteauthName && actName != linkauthName &&
        actName != unlinkauthName && actName != canceldelayName))
    "cannot call lookup_minimum_permission on native actions that are not allowed to be linked to minimum permissions"
  match lookupLinkedPermission s authorizerAccount scope actName with
  | none => pure (some Config.activeName)
  | some p => pure (if p = Config.eosioAnyName then none else some p)

/-- The dummy permission the chain creates first, reserving id `0`. -/
def dummyPermission : PermissionObject K := ⟨0, 0, ⟨0⟩, ⟨0⟩, ⟨0, [], [], []⟩⟩

/-- `authority( initial_key )`. -/
def keyAuthority (key : K) : Authority K := ⟨1, [⟨key, 1⟩], [], []⟩

/-- The tables at genesis: the dummy permission, and the system account with its `owner` and
`active` permissions. -/
def State.init (initialKey : K) : State K where
  accounts := [⟨Config.systemAccountName, true⟩]
  permissions := [dummyPermission,
    ⟨1, 0, Config.systemAccountName, Config.ownerName, keyAuthority initialKey⟩,
    ⟨2, 1, Config.systemAccountName, Config.activeName, keyAuthority initialKey⟩]
  nextPermissionId := 3
  links := []

/-- The native actions on accounts, permissions and links. -/
inductive Action (K : Type) where
  | newaccount (creator name : Name) (owner active : Authority K)
  | updateauth (account permission parent : Name) (auth : Authority K)
  | deleteauth (account permission : Name)
  | linkauth (account code type requirement : Name)
  | unlinkauth (account code type : Name)

/-- An action with its declared authorizations. -/
structure Request (K : Type) where
  auths : List PermissionLevel
  act : Action K

/-- One native action; a failed action leaves the tables as they were. -/
def step [LT K] [DecidableRel (α := K) (· < ·)] (env : Env) (s : State K) (r : Request K) :
    Except String (State K) :=
  match r.act with
  | .newaccount creator name owner active => newaccount s r.auths creator name owner active
  | .updateauth account permission parent auth => updateauth env s r.auths account permission parent auth
  | .deleteauth account permission => deleteauth s r.auths account permission
  | .linkauth account code type requirement => linkauth s r.auths account code type requirement
  | .unlinkauth account code type => unlinkauth s r.auths account code type

/-! ## A link to another account's permission

`linkauth` checks the required permission in the `by_name` index, which holds the permissions
of every account. `bob` creates a permission `foo`; `alice`, who has none of that name, links
`eosio::transfer` to `foo`. Her minimum permission for that action is now a permission she
does not have. -/

/-- The account names `alice` and `bob`, the permission name `foo`, the action name `transfer`. -/
def aliceName : Name := stringToName "alice".toList
/-- `bob`. -/
def bobName : Name := stringToName "bob".toList
/-- `foo`. -/
def fooName : Name := stringToName "foo".toList
/-- `transfer`. -/
def transferName : Name := stringToName "transfer".toList

/-- `alice` and `bob` are created by the system account; `bob` adds `foo` under `active`;
`alice` links `eosio::transfer` to `foo`. -/
def foreignLinkRequests : List (Request Nat) :=
  let system : List PermissionLevel := [⟨Config.systemAccountName, Config.activeName⟩]
  [⟨system, .newaccount Config.systemAccountName aliceName (keyAuthority 1) (keyAuthority 1)⟩,
   ⟨system, .newaccount Config.systemAccountName bobName (keyAuthority 1) (keyAuthority 1)⟩,
   ⟨[⟨bobName, Config.activeName⟩], .updateauth bobName fooName Config.activeName (keyAuthority 1)⟩,
   ⟨[⟨aliceName, Config.activeName⟩],
     .linkauth aliceName Config.systemAccountName transferName fooName⟩]

theorem linkauth_foreign_requirement :
    (⟨aliceName, Config.systemAccountName, transferName, fooName⟩ : PermissionLink) ∈
      (Transition.run (step ⟨3888000⟩) (State.init 1) foreignLinkRequests).links ∧
    (∀ p ∈ (Transition.run (step ⟨3888000⟩) (State.init 1) foreignLinkRequests).permissions,
      ¬(p.owner = aliceName ∧ p.name = fooName)) ∧
    lookupMinimumPermission (Transition.run (step ⟨3888000⟩) (State.init 1) foreignLinkRequests)
      aliceName Config.systemAccountName transferName = .ok (some fooName) := by
  decide

/-- `find` in the `by_id` index. -/
def findById (index : List (PermissionObject K)) (id : Nat) : Option (PermissionObject K) :=
  index.find? (·.id == id)

/-- The loop of `permission_object::satisfies`, from the permission `parent` up: `id` is found
as the parent of a permission on the way, or the walk stops at a permission whose parent is
`0`. -/
def satisfiesWalk (index : List (PermissionObject K)) (id : Nat) :
    Nat → Option (PermissionObject K) → Option Bool
  | _, none => none
  | 0, some _ => none
  | fuel + 1, some parent =>
    if id == parent.parent then some true
    else if parent.parent == 0 then some false
    else satisfiesWalk index id fuel (findById index parent.parent)

/-- `permission_object::satisfies`: the same account, and `self` is `other` or one of its
ancestors. -/
def satisfies (index : List (PermissionObject K)) (fuel : Nat) (self other : PermissionObject K) :
    Option Bool :=
  if self.owner != other.owner then some false
  else if self.id == other.id || self.id == other.parent then some true
  else satisfiesWalk index self.id fuel (findById index other.parent)

end Native

end Safeos
