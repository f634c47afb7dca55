import Mathlib.Data.List.Nodup
import Swazz.Validation

/-! The tables behind a project's roles, and the reads and writes of the repository on
them. A batch of statements is atomic: it fails as a whole on a violated constraint. -/
namespace Swazz.Rbac

/-- The keys of `PERMISSIONS`. -/
def PERMISSIONS : List String := [
  "get:/api/projects/:id",
  "patch:/api/projects/:id",
  "delete:/api/projects/:id",
  "get:/api/projects/:id/config",
  "post:/api/projects/:id/config",
  "get:/api/projects/:id/members",
  "post:/api/projects/:id/invitations",
  "delete:/api/projects/:id/members/:user_id",
  "put:/api/projects/:id/members/:user_id",
  "post:/api/projects/:id/members/create",
  "get:/api/projects/:id/roles",
  "post:/api/projects/:id/roles",
  "put:/api/projects/:id/roles/:role_id",
  "delete:/api/projects/:id/roles/:role_id",
  "post:/api/projects/:id/scans",
  "get:/api/projects/:id/scans",
  "post:/api/projects/:id/schedule",
  "get:/api/projects/:id/members/:user_id/login-history",
  "get:/api/projects/:id/audit-logs",
  "get:/api/projects/:id/webhooks",
  "post:/api/projects/:id/webhooks",
  "put:/api/projects/:id/webhooks/:webhook_id",
  "delete:/api/projects/:id/webhooks/:webhook_id",
  "post:/api/projects/:id/webhooks/:webhook_id/test"]

/-- The permissions of `DEFAULT_ROLES`. -/
def DEFAULT_ROLES : List (String × List String) := [
  ("owner", PERMISSIONS),
  ("editor", [
    "get:/api/projects/:id",
    "patch:/api/projects/:id",
    "get:/api/projects/:id/config",
    "post:/api/projects/:id/config",
    "post:/api/projects/:id/schedule",
    "get:/api/projects/:id/members",
    "post:/api/projects/:id/invitations",
    "delete:/api/projects/:id/members/:user_id",
    "put:/api/projects/:id/members/:user_id",
    "post:/api/projects/:id/members/create",
    "get:/api/projects/:id/roles",
    "post:/api/projects/:id/roles",
    "put:/api/projects/:id/roles/:role_id",
    "delete:/api/projects/:id/roles/:role_id",
    "post:/api/projects/:id/scans",
    "get:/api/projects/:id/scans",
    "get:/api/projects/:id/members/:user_id/login-history",
    "get:/api/projects/:id/audit-logs",
    "get:/api/projects/:id/webhooks",
    "post:/api/projects/:id/webhooks",
    "put:/api/projects/:id/webhooks/:webhook_id",
    "delete:/api/projects/:id/webhooks/:webhook_id",
    "post:/api/projects/:id/webhooks/:webhook_id/test"]),
  ("viewer", [
    "get:/api/projects/:id",
    "get:/api/projects/:id/config",
    "get:/api/projects/:id/members",
    "get:/api/projects/:id/roles",
    "get:/api/projects/:id/scans"])]

def isBuiltInRole (roleId : String) : Bool := DEFAULT_ROLES.any fun r => r.1 == roleId

/-- The built-in roles plus `runner`, a retired pseudo-role. -/
def isReservedRoleId (roleId : String) : Bool := isBuiltInRole roleId || roleId == "runner"

def defaultPermissions (roleId : String) : List String :=
  (DEFAULT_ROLES.lookup roleId).getD []

structure CustomRole where
  id : String
  projectId : String
  name : String
  deriving DecidableEq

inductive InvitationStatus where
  | pending
  | accepted
  | expired
  | revoked
  deriving DecidableEq

/-- A row of `project_invitations`; `expiresAt` in seconds. -/
structure Invitation where
  id : String
  projectId : String
  email : Option String
  username : Option String
  targetRoleIds : List String
  status : InvitationStatus
  token : String
  expiresAt : ℕ
  deriving DecidableEq

/-- The rows authorization reads. A role's id is a primary key. -/
structure Db where
  customRoles : List CustomRole
  rolePermissions : List (String × String)
  roleInheritance : List (String × String)
  memberRoles : List (String × String × String)
  invitations : List Invitation
  guests : List String
  role_id_unique : (customRoles.map CustomRole.id).Nodup

/-- Insert rows into a table whose primary key is the whole row. -/
def insertAll {α : Type*} [DecidableEq α] (table : List α) : List α → Option (List α)
  | [] => some table
  | row :: rows => if row ∈ table then none else insertAll (table ++ [row]) rows

theorem insertAll_eq_some {α : Type*} [DecidableEq α] {table rows result : List α}
    (h : insertAll table rows = some result) : result = table ++ rows := by
  induction rows generalizing table with
  | nil =>
    have heq : table = result := by simpa [insertAll] using h
    rw [List.append_nil, heq]
  | cons row rows ih =>
    rw [insertAll] at h
    split_ifs at h
    rw [ih h, List.append_assoc, List.singleton_append]

namespace Db

def isGuestUser (db : Db) (userId : String) : Bool := db.guests.contains userId

/-- The role is a custom role of the project. -/
def hasRole (db : Db) (projectId roleId : String) : Bool :=
  db.customRoles.any fun r => r.id == roleId && r.projectId == projectId

def checkCustomRolesExist (db : Db) (projectId : String) (roleIds : List String) :
    List String :=
  roleIds.filter (db.hasRole projectId)

def checkRoleNameExists (db : Db) (projectId name : String)
    (excludeRoleId : Option String) : Bool :=
  db.customRoles.any fun r =>
    r.projectId == projectId && r.name == name && excludeRoleId.all fun id => r.id != id

/-- One round of the recursive query: what the project's custom roles among `roleIds`
include. -/
def includedRoles (db : Db) (projectId : String) (roleIds : List String) : List String :=
  (db.roleInheritance.filter fun (parent, _) =>
    roleIds.contains parent && db.hasRole projectId parent).map Prod.snd

/-- `role_hierarchy` down to a depth. -/
def roleHierarchy (db : Db) (projectId : String) : ℕ → List String → List String
  | 0, roleIds => roleIds
  | depth+1, roleIds =>
    roleIds ++ db.roleHierarchy projectId depth (db.includedRoles projectId roleIds)

def permissionsForRoleIds (db : Db) (projectId : String) (roleIds : List String) :
    List String :=
  let customRoleIds := roleIds.filter fun rid => !isBuiltInRole rid
  (roleIds.flatMap defaultPermissions ++
    (db.rolePermissions.filter fun (role, _) =>
      customRoleIds.contains role && db.hasRole projectId role).map Prod.snd).eraseDups

def getMemberRoles (db : Db) (projectId userId : String) : List String :=
  (db.memberRoles.filter fun (project, user, _) =>
    project == projectId && user == userId).map fun (_, _, role) => role

def MAX_DEPTH : ℕ := 3

/-- `getEffectivePermissions` as read from the database. -/
def getEffectivePermissions (db : Db) (userId projectId : String) : List String :=
  if isValidId projectId && isValidId userId then
    db.permissionsForRoleIds projectId
      (db.roleHierarchy projectId MAX_DEPTH (db.getMemberRoles projectId userId))
  else []

def resolveRolePermissions (db : Db) (projectId : String) (roleIds : List String) :
    List String :=
  if isValidId projectId && !roleIds.isEmpty then
    db.permissionsForRoleIds projectId (db.roleHierarchy projectId MAX_DEPTH roleIds)
  else []

def isProjectMember (db : Db) (projectId userId : String) : Bool :=
  !(db.getMemberRoles projectId userId).isEmpty

def getProjectOwnersCount (db : Db) (projectId : String) : ℕ :=
  ((db.memberRoles.filter fun (project, _, role) =>
    project == projectId && role == "owner").map fun (_, user, _) => user).eraseDups.length

def getRoleHolders (db : Db) (projectId roleId : String) : List String :=
  ((db.memberRoles.filter fun (project, _, role) =>
    project == projectId && role == roleId).map fun (_, user, _) => user).eraseDups

def checkInvitationExists (db : Db) (id projectId : String) : Bool :=
  db.invitations.any fun i => i.id == id && i.projectId == projectId

def getInvitationRoles (db : Db) (id projectId : String) : List String :=
  ((db.invitations.find? fun i => i.id == id && i.projectId == projectId).map
    Invitation.targetRoleIds).getD []

/-- `none` when a constraint fails. -/
def createCustomRole (db : Db) (roleId projectId name : String)
    (permissions included : List String) : Option Db :=
  if h : roleId ∈ db.customRoles.map CustomRole.id then none
  else if db.checkRoleNameExists projectId name none then none
  else do
    let rolePermissions ← insertAll db.rolePermissions (permissions.map fun p => (roleId, p))
    let roleInheritance ← insertAll db.roleInheritance (included.map fun c => (roleId, c))
    some { db with
      customRoles := db.customRoles ++ [⟨roleId, projectId, name⟩]
      rolePermissions := rolePermissions
      roleInheritance := roleInheritance
      role_id_unique := by
        rw [List.map_append, List.map_singleton, ← List.concat_eq_append]
        exact List.Nodup.concat h db.role_id_unique }

/-- `none` when a constraint fails, else whether the role was found. -/
def updateCustomRole (db : Db) (projectId roleId name : String)
    (permissions included : List String) : Option (Db × Bool) :=
  if db.hasRole projectId roleId then
    if db.checkRoleNameExists projectId name (some roleId) then none
    else do
      let rolePermissions ← insertAll (db.rolePermissions.filter fun r => r.1 != roleId)
        (permissions.map fun p => (roleId, p))
      let roleInheritance ← insertAll (db.roleInheritance.filter fun r => r.1 != roleId)
        (included.map fun c => (roleId, c))
      some ({ db with
        customRoles := db.customRoles.map fun r =>
          if r.id == roleId && r.projectId == projectId then { r with name := name } else r
        rolePermissions := rolePermissions
        roleInheritance := roleInheritance
        role_id_unique := by
          have hid : db.customRoles.map (CustomRole.id ∘ fun r =>
              if r.id == roleId && r.projectId == projectId then { r with name := name }
              else r) = db.customRoles.map CustomRole.id := by
            apply List.map_congr_left
            intro r _
            simp only [Function.comp_apply]
            split_ifs <;> rfl
          rw [List.map_map, hid]
          exact db.role_id_unique }, true)
  else some (db, false)

/-- Whether the role was found comes with the rows left. -/
def deleteCustomRole (db : Db) (projectId roleId : String) : Db × Bool :=
  let owned := db.hasRole projectId roleId
  ({ db with
    rolePermissions := db.rolePermissions.filter fun r => !(owned && r.1 == roleId)
    roleInheritance := db.roleInheritance.filter fun r =>
      !(owned && (r.1 == roleId || r.2 == roleId))
    memberRoles := db.memberRoles.filter fun (project, _, role) =>
      !(role == roleId && project == projectId)
    customRoles := db.customRoles.filter fun r =>
      !(r.id == roleId && r.projectId == projectId)
    role_id_unique := (List.filter_sublist.map _).nodup db.role_id_unique }, owned)

def updateMemberRoles (db : Db) (projectId userId : String) (roles : List String) :
    Option Db := do
  let memberRoles ← insertAll
    (db.memberRoles.filter fun (project, user, _) => !(project == projectId && user == userId))
    (roles.map fun r => (projectId, userId, r))
  some { db with memberRoles := memberRoles }

def updateInvitationRoles (db : Db) (id : String) (roles : List String) : Db :=
  { db with
    invitations := db.invitations.map fun i =>
      if i.id == id then { i with targetRoleIds := roles } else i }

def revokeInvitation (db : Db) (id : String) : Db :=
  { db with
    invitations := db.invitations.map fun i =>
      if i.id == id then { i with status := .revoked } else i }

def removeProjectMember (db : Db) (projectId userId : String) : Db :=
  { db with
    memberRoles := db.memberRoles.filter fun (project, user, _) =>
      !(project == projectId && user == userId) }

/-- `none` when an invitation has the id already. -/
def createInvitation (db : Db) (id projectId : String) (email username : Option String)
    (roles : List String) (token : String) (expiresAt : ℕ) : Option Db :=
  if db.invitations.any fun i => i.id == id then none
  else some { db with
    invitations := db.invitations ++ [{
      id := id, projectId := projectId, email := email, username := username,
      targetRoleIds := roles, status := .pending, token := token, expiresAt := expiresAt }] }

/-- Whether the user may accept the invitation by its token now. -/
def acceptable (token username : String) (email : Option String) (emailVerified : Bool)
    (now : ℕ) (i : Invitation) : Bool :=
  i.token == token && i.status == .pending && decide (now < i.expiresAt) &&
    i.username.all (fun u => u == username) &&
    i.email.all fun e => emailVerified && email.any fun v =>
      e.map Char.toLower == v.map Char.toLower

/-- The accepted invitation and the database with the user's new role rows. -/
def acceptInvitation (db : Db) (token username : String) (email : Option String)
    (emailVerified : Bool) (userId : String) (now : ℕ) : Option (Invitation × Db) :=
  (db.invitations.find? (acceptable token username email emailVerified now)).map fun inv =>
    (inv, { db with
      invitations := db.invitations.map fun i =>
        if acceptable token username email emailVerified now i then
          { i with status := .accepted }
        else i
      memberRoles := db.memberRoles ++
        ((inv.targetRoleIds.map fun r => (inv.projectId, userId, r)).filter fun row =>
          !db.memberRoles.contains row).eraseDups })

/-- Whether the user may decline the invitation by its token: its time may be over. -/
def declinable (token username : String) (email : Option String) (emailVerified : Bool)
    (i : Invitation) : Bool :=
  i.token == token && i.status == .pending && i.username.all (fun u => u == username) &&
    i.email.all fun e => emailVerified && email.any fun v =>
      e.map Char.toLower == v.map Char.toLower

/-- Whether an invitation was declined comes with the rows left. -/
def declineInvitation (db : Db) (token username : String) (email : Option String)
    (emailVerified : Bool) : Db × Bool :=
  ({ db with
    invitations := db.invitations.map fun i =>
      if declinable token username email emailVerified i then { i with status := .revoked }
      else i },
    db.invitations.any (declinable token username email emailVerified))

end Db

end Swazz.Rbac
