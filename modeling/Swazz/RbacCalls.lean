import Swazz.AtomicCalls
import Swazz.RbacService

/-! The role repository and service as the calls they make, each atomic: a statement or
batch of D1, an operation of KV, or a synchronous block on the memory of the isolate. -/
namespace Swazz.RbacCalls

open AtomicCalls
open Rbac (Db Failure isBuiltInRole isReservedRoleId defaultPermissions)

/-- The bindings a request runs with, and the isolate whose memory it shares. -/
structure Env where
  SESSION_CACHE : Bool
  isolate : ℕ
  deriving DecidableEq

/-- What the calls of requests share. The times are in milliseconds, and
`negativeRbacCache` is a map in the order of its insertions for each isolate. -/
structure Backend where
  db : Db
  projectMembers : List (String × String)
  kv : String → Option (List String × ℕ)
  negativeRbacCache : ℕ → List (String × ℕ)
  now : ℕ

def NEGATIVE_RBAC_TTL_MS : ℕ := 60000

def MAX_NEGATIVE_RBAC_ENTRIES : ℕ := 1000

def KV_TTL_MS : ℕ := 86400 * 1000

def rbacCachePrefix (projectId : String) : String := "rbac:v2:" ++ projectId ++ ":"

def rbacCacheKey (projectId userId : String) : String := rbacCachePrefix projectId ++ userId

inductive Op where
  | isGuestUser (userId : String)
  | checkCustomRolesExist (projectId : String) (roleIds : List String)
  | checkInvitationExists (id projectId : String)
  | getInvitationRoles (id projectId : String)
  | isProjectMember (projectId userId : String)
  | getMemberRoles (projectId userId : String)
  | getProjectOwnersCount (projectId : String)
  | memberRoleHierarchy (projectId userId : String)
  | roleHierarchy (projectId : String) (roleIds : List String)
  | customRolePermissions (projectId : String) (roleIds : List String)
  | projectUsers (projectId : String)
  | updateInvitationRoles (id : String) (roles : List String)
  | revokeInvitation (id : String)
  | updateMemberRoles (projectId userId : String) (roles : List String)
  | removeProjectMember (projectId userId : String)
  | createCustomRole (roleId projectId name : String) (permissions included : List String)
  | updateCustomRole (projectId roleId name : String) (permissions included : List String)
  | deleteCustomRole (projectId roleId : String)
  | acceptInvitation (token username : String) (email : Option String) (emailVerified : Bool)
  | insertMemberRoles (projectId userId : String) (roles : List String)
  | kvGet (key : String)
  | kvPut (key : String) (permissions : List String)
  | kvDelete (key : String)
  | negativeHit (isolate : ℕ) (key : String)
  | negativeSet (isolate : ℕ) (key : String)
  | negativeDelete (isolate : ℕ) (key : String)
  | clearNegativeProjectRbac (isolate : ℕ) (projectId : String)
  deriving DecidableEq

/-- What a call answers. A batch answers whether its constraints held, and the writes of
a custom role whether the role was found, or that a constraint failed. -/
@[reducible] def Answer : Op → Type
  | .isGuestUser _ | .checkInvitationExists _ _ | .isProjectMember _ _ => Bool
  | .checkCustomRolesExist _ _ | .getInvitationRoles _ _ | .getMemberRoles _ _ => List String
  | .getProjectOwnersCount _ => ℕ
  | .memberRoleHierarchy _ _ | .roleHierarchy _ _ | .customRolePermissions _ _ => List String
  | .projectUsers _ => List String
  | .updateInvitationRoles _ _ | .revokeInvitation _ | .removeProjectMember _ _ => Unit
  | .updateMemberRoles _ _ _ | .createCustomRole _ _ _ _ _ => Bool
  | .updateCustomRole _ _ _ _ _ => Option Bool
  | .deleteCustomRole _ _ => Bool
  | .acceptInvitation _ _ _ _ => Option (String × List String)
  | .insertMemberRoles _ _ _ => Unit
  | .kvGet _ => Option (List String)
  | .kvPut _ _ | .kvDelete _ => Unit
  | .negativeHit _ _ => Bool
  | .negativeSet _ _ | .negativeDelete _ _ | .clearNegativeProjectRbac _ _ => Unit

/-- `map.set(key, value)`: a key that is there keeps its place. -/
def setEntry (entries : List (String × ℕ)) (key : String) (value : ℕ) : List (String × ℕ) :=
  if entries.any fun e => e.1 == key then
    entries.map fun e => if e.1 == key then (key, value) else e
  else entries ++ [(key, value)]

def deleteEntry (entries : List (String × ℕ)) (key : String) : List (String × ℕ) :=
  entries.filter fun e => e.1 != key

namespace Backend

def putDb (b : Backend) (db : Db) : Backend := { b with db := db }

def setNegative (b : Backend) (isolate : ℕ) (entries : List (String × ℕ)) : Backend :=
  { b with negativeRbacCache := Function.update b.negativeRbacCache isolate entries }

/-- What KV answers for a key now: an entry is gone when its time is up. -/
def kvGet (b : Backend) (key : String) : Option (List String) :=
  (b.kv key).bind fun (permissions, expiry) =>
    if b.now < expiry then some permissions else none

/-- The users with rows of either membership table. -/
def projectUsers (b : Backend) (projectId : String) : List String :=
  let withRole := (b.db.memberRoles.filter fun (project, _, _) => project == projectId).map
    fun (_, user, _) => user
  let members := (b.projectMembers.filter fun (project, _) => project == projectId).map
    Prod.snd
  (withRole ++ members).eraseDups

/-- The answer of a call and what it leaves. -/
def exec (b : Backend) : (op : Op) → Answer op × Backend
  | .isGuestUser userId => (b.db.isGuestUser userId, b)
  | .checkCustomRolesExist projectId roleIds =>
    (((b.db.customRoles.filter fun r => r.projectId == projectId && roleIds.contains r.id).map
      Rbac.CustomRole.id), b)
  | .checkInvitationExists id projectId => (b.db.checkInvitationExists id projectId, b)
  | .getInvitationRoles id projectId => (b.db.getInvitationRoles id projectId, b)
  | .isProjectMember projectId userId => (b.db.isProjectMember projectId userId, b)
  | .getMemberRoles projectId userId => (b.db.getMemberRoles projectId userId, b)
  | .getProjectOwnersCount projectId => (b.db.getProjectOwnersCount projectId, b)
  | .memberRoleHierarchy projectId userId =>
    ((b.db.roleHierarchy projectId Db.MAX_DEPTH
      (b.db.getMemberRoles projectId userId)).eraseDups, b)
  | .roleHierarchy projectId roleIds =>
    ((b.db.roleHierarchy projectId Db.MAX_DEPTH roleIds).eraseDups, b)
  | .customRolePermissions projectId roleIds =>
    ((b.db.rolePermissions.filter fun (role, _) =>
      roleIds.contains role && b.db.hasRole projectId role).map Prod.snd, b)
  | .projectUsers projectId => (b.projectUsers projectId, b)
  | .updateInvitationRoles id roles => ((), b.putDb (b.db.updateInvitationRoles id roles))
  | .revokeInvitation id => ((), b.putDb (b.db.revokeInvitation id))
  | .updateMemberRoles projectId userId roles =>
    match b.db.updateMemberRoles projectId userId roles with
    | some db => (true, b.putDb db)
    | none => (false, b)
  | .removeProjectMember projectId userId =>
    ((), { b with
      db := b.db.removeProjectMember projectId userId
      projectMembers := b.projectMembers.filter fun m => m != (projectId, userId) })
  | .createCustomRole roleId projectId name permissions included =>
    match b.db.createCustomRole roleId projectId name permissions included with
    | some db => (true, b.putDb db)
    | none => (false, b)
  | .updateCustomRole projectId roleId name permissions included =>
    match b.db.updateCustomRole projectId roleId name permissions included with
    | some (db, found) => (some found, b.putDb db)
    | none => (none, b)
  | .deleteCustomRole projectId roleId =>
    let (db, found) := b.db.deleteCustomRole projectId roleId
    (found, b.putDb db)
  | .acceptInvitation token username email emailVerified =>
    let acceptable := Db.acceptable token username email emailVerified (b.now / 1000)
    match b.db.invitations.find? acceptable with
    | some inv => (some (inv.projectId, inv.targetRoleIds), b.putDb { b.db with
        invitations := b.db.invitations.map fun i =>
          if acceptable i then { i with status := .accepted } else i })
    | none => (none, b)
  | .insertMemberRoles projectId userId roles =>
    ((), { b with
      db := { b.db with
        memberRoles := b.db.memberRoles ++
          ((roles.map fun r => (projectId, userId, r)).filter fun row =>
            !b.db.memberRoles.contains row).eraseDups }
      projectMembers :=
        if b.projectMembers.contains (projectId, userId) then b.projectMembers
        else b.projectMembers ++ [(projectId, userId)] })
  | .kvGet key => (b.kvGet key, b)
  | .kvPut key permissions =>
    ((), { b with kv := Function.update b.kv key (some (permissions, b.now + KV_TTL_MS)) })
  | .kvDelete key => ((), { b with kv := Function.update b.kv key none })
  | .negativeHit isolate key =>
    match (b.negativeRbacCache isolate).lookup key with
    | some expiry =>
      if b.now < expiry then (true, b)
      else (false, b.setNegative isolate (deleteEntry (b.negativeRbacCache isolate) key))
    | none => (false, b)
  | .negativeSet isolate key =>
    let entries := b.negativeRbacCache isolate
    -- A full map makes room by its oldest entry.
    let entries := if MAX_NEGATIVE_RBAC_ENTRIES ≤ entries.length then entries.tail else entries
    ((), b.setNegative isolate (setEntry entries key (b.now + NEGATIVE_RBAC_TTL_MS)))
  | .negativeDelete isolate key =>
    ((), b.setNegative isolate (deleteEntry (b.negativeRbacCache isolate) key))
  | .clearNegativeProjectRbac isolate projectId =>
    ((), b.setNegative isolate ((b.negativeRbacCache isolate).filter fun e =>
      !(rbacCachePrefix projectId).toList.isPrefixOf e.1.toList))

end Backend

/-- A program that may throw. -/
abbrev Service (α : Type) : Type := ExceptT Failure (Calls Answer) α

def perform (op : Op) : Calls Answer (Answer op) := Calls.perform op

def refuseIf (cond : Bool) (message : String) : Service Unit :=
  if cond then throw (.refused message) else pure ()

namespace RbacRepository

def invalidateProjectRBAC (env : Env) (projectId : String) : Calls Answer Unit := do
  if isValidId projectId then
    perform (.clearNegativeProjectRbac env.isolate projectId)
    if env.SESSION_CACHE then
      let users ← perform (.projectUsers projectId)
      let _ ← Calls.parAll (users.map fun u => perform (.kvDelete (rbacCacheKey projectId u)))

def invalidateUserRBAC (env : Env) (projectId userId : String) : Calls Answer Unit := do
  if isValidId projectId && isValidId userId then
    perform (.negativeDelete env.isolate (rbacCacheKey projectId userId))
    if env.SESSION_CACHE then
      perform (.kvDelete (rbacCacheKey projectId userId))

def permissionsForRoleIds (projectId : String) (roleIds : List String) :
    Calls Answer (List String) := do
  let permissions := roleIds.flatMap defaultPermissions
  let customRoleIds := roleIds.filter fun rid => !isBuiltInRole rid
  if customRoleIds.isEmpty then return permissions.eraseDups
  else do
    let keys ← perform (.customRolePermissions projectId customRoleIds)
    return (permissions ++ keys).eraseDups

/-- The end of `getEffectivePermissions`: the answer goes into the cache. -/
def cachePermissions (env : Env) (cacheKey : String) (permsArray : List String) :
    Calls Answer (List String) := do
  perform (.negativeDelete env.isolate cacheKey)
  if env.SESSION_CACHE then
    perform (.kvPut cacheKey permsArray)
  return permsArray

/-- `getEffectivePermissions` from its first query on. -/
def loadPermissions (env : Env) (userId projectId : String) : Calls Answer (List String) := do
  let cacheKey := rbacCacheKey projectId userId
  let roleIds ← perform (.memberRoleHierarchy projectId userId)
  if roleIds.isEmpty then
    perform (.negativeSet env.isolate cacheKey)
    return []
  else do
    let permsArray ← permissionsForRoleIds projectId roleIds
    cachePermissions env cacheKey permsArray

/-- `getEffectivePermissions` after the negative cache had nothing to say. -/
def cachedPermissions (env : Env) (userId projectId : String) :
    Calls Answer (List String) := do
  if env.SESSION_CACHE then
    let cached ← perform (.kvGet (rbacCacheKey projectId userId))
    match cached with
    | some permissions => return permissions
    | none => loadPermissions env userId projectId
  else loadPermissions env userId projectId

def getEffectivePermissions (env : Env) (userId projectId : String) :
    Calls Answer (List String) := do
  if isValidId projectId && isValidId userId then
    let hit ← perform (.negativeHit env.isolate (rbacCacheKey projectId userId))
    if hit then return [] else cachedPermissions env userId projectId
  else return []

def resolveRolePermissions (projectId : String) (roleIds : List String) :
    Calls Answer (List String) := do
  if isValidId projectId && !roleIds.isEmpty then
    let roleIds ← perform (.roleHierarchy projectId roleIds)
    permissionsForRoleIds projectId roleIds
  else return []

def updateMemberRoles (env : Env) (projectId userId : String) (roles : List String) :
    Service Unit := do
  let done ← perform (.updateMemberRoles projectId userId roles)
  if done then
    perform (.negativeDelete env.isolate (rbacCacheKey projectId userId))
  else throw .constraint

def removeProjectMember (env : Env) (projectId userId : String) : Service Unit := do
  perform (.removeProjectMember projectId userId)
  perform (.negativeDelete env.isolate (rbacCacheKey projectId userId))

def createCustomRole (roleId projectId name : String) (permissions included : List String) :
    Service Unit := do
  let done ← perform (.createCustomRole roleId projectId name permissions included)
  if done then return () else throw .constraint

def updateCustomRole (projectId roleId name : String) (permissions included : List String) :
    Service Bool := do
  match ← perform (.updateCustomRole projectId roleId name permissions included) with
  | some found => return found
  | none => throw .constraint

def deleteCustomRole (projectId roleId : String) : Service Bool :=
  perform (.deleteCustomRole projectId roleId)

def acceptInvitation (env : Env) (token username : String) (email : Option String)
    (emailVerified : Bool) (userId : String) : Service (Option String) := do
  match ← perform (.acceptInvitation token username email emailVerified) with
  | some (projectId, roles) =>
    perform (.insertMemberRoles projectId userId roles)
    perform (.negativeDelete env.isolate (rbacCacheKey projectId userId))
    return some projectId
  | none => return none

end RbacRepository

def assertCallerCovers (env : Env) (projectId : String) (callerId : Option String)
    (roles permissions members : List String) : Service Unit :=
  match callerId.filter fun id => !id.isEmpty with
  | none => throw (.refused "Unauthorized|401")
  | some caller => do
    let answers ← Calls.parAll
      (RbacRepository.getEffectivePermissions env caller projectId ::
        RbacRepository.resolveRolePermissions projectId roles ::
        (members.filter fun m => m != caller).map fun m =>
          RbacRepository.getEffectivePermissions env m projectId)
    match answers with
    | held :: rolePermissions :: memberPermissions =>
      refuseIf ((rolePermissions ++ permissions).any fun p => !held.contains p)
        "Forbidden: You cannot grant permissions you do not hold|403"
      refuseIf (memberPermissions.any fun perms => perms.any fun p => !held.contains p)
        "Forbidden: You cannot change a member who holds permissions you do not|403"
    | _ => return ()

namespace RbacService

def assertNotGuest (userId : Option String) : Service Unit :=
  match userId.filter fun id => !id.isEmpty with
  | none => return ()
  | some userId => do
    let isGuest ← perform (.isGuestUser userId)
    refuseIf isGuest "Forbidden: Guest accounts cannot modify members or roles.|403"

def assertRolesExist (projectId : String) (roles : List String) : Service Unit := do
  let customRoles := roles.filter fun r => !isBuiltInRole r
  if customRoles.isEmpty then return ()
  else do
    let foundIds ← perform (.checkCustomRolesExist projectId customRoles)
    let missing := customRoles.filter fun r => !foundIds.contains r
    refuseIf (!missing.isEmpty) ("Invalid role(s): " ++ ", ".intercalate missing ++ "|400")

/-- The write of `updateMemberRoles` and its invalidation. -/
def writeMemberRoles (env : Env) (projectId memberId : String) (roles : List String) :
    Service String := do
  RbacRepository.updateMemberRoles env projectId memberId roles
  RbacRepository.invalidateUserRBAC env projectId memberId
  return "updated"

def updateMemberRoles (env : Env) (projectId : String) (userId : Option String)
    (memberId : String) (roles : List String) : Service String := do
  refuseIf (isBlank projectId) "Invalid project ID|400"
  refuseIf (isBlank memberId) "Invalid member ID|400"
  assertNotGuest userId
  refuseIf (userId == some memberId) "You cannot modify your own roles|400"
  refuseIf roles.isEmpty "At least one role must be specified|400"
  assertRolesExist projectId roles
  let isInvite ← perform (.checkInvitationExists memberId projectId)
  if isInvite then
    let currentRoles ← perform (.getInvitationRoles memberId projectId)
    assertCallerCovers env projectId userId (currentRoles ++ roles) [] []
    perform (.updateInvitationRoles memberId roles)
    return "updated"
  else
    let isMember ← perform (.isProjectMember projectId memberId)
    refuseIf (!isMember) "Member not found|404"
    assertCallerCovers env projectId userId roles [] [memberId]
    let currentRoles ← perform (.getMemberRoles projectId memberId)
    if currentRoles.contains "owner" && !roles.contains "owner" then
      let count ← perform (.getProjectOwnersCount projectId)
      refuseIf (decide (count ≤ 1)) "Cannot remove the owner role from the last owner|400"
    writeMemberRoles env projectId memberId roles

/-- The write of `removeMember` and its invalidation. -/
def dropMember (env : Env) (projectId memberId : String) : Service String := do
  RbacRepository.removeProjectMember env projectId memberId
  RbacRepository.invalidateUserRBAC env projectId memberId
  return "removed"

def removeMember (env : Env) (projectId : String) (userId : Option String)
    (memberId : String) : Service String := do
  refuseIf (isBlank projectId) "Invalid project ID|400"
  refuseIf (isBlank memberId) "Invalid member ID|400"
  assertNotGuest userId
  refuseIf (userId == some memberId) "You cannot remove yourself from the project|400"
  let isInvite ← perform (.checkInvitationExists memberId projectId)
  if isInvite then
    let invitedRoles ← perform (.getInvitationRoles memberId projectId)
    assertCallerCovers env projectId userId invitedRoles [] []
    perform (.revokeInvitation memberId)
    return "revoked"
  else
    assertCallerCovers env projectId userId [] [] [memberId]
    let currentRoles ← perform (.getMemberRoles projectId memberId)
    if currentRoles.contains "owner" then
      let count ← perform (.getProjectOwnersCount projectId)
      refuseIf (decide (count ≤ 1)) "Cannot remove the last owner of the project|400"
    dropMember env projectId memberId

/-- The end of `createCustomRole`. -/
def writeNewRole (env : Env) (roleId projectId name : String)
    (permissions included : List String) : Service String := do
  RbacRepository.createCustomRole roleId projectId name permissions included
  RbacRepository.invalidateProjectRBAC env projectId
  return "created"

/-- `updateCustomRole` without the reads that its checks make. -/
def writeRole (env : Env) (projectId roleId name : String)
    (permissions included : List String) : Service String := do
  refuseIf (isReservedRoleId roleId) "Default roles cannot be edited|400"
  let found ← RbacRepository.updateCustomRole projectId roleId name permissions included
  refuseIf (!found) "Role not found|404"
  RbacRepository.invalidateProjectRBAC env projectId
  return "updated"

/-- `deleteCustomRole` without the reads that its checks make. -/
def dropRole (env : Env) (projectId roleId : String) : Service String := do
  refuseIf (isReservedRoleId roleId) "Default roles cannot be deleted|400"
  let found ← RbacRepository.deleteCustomRole projectId roleId
  refuseIf (!found) "Role not found|404"
  RbacRepository.invalidateProjectRBAC env projectId
  return "deleted"

/-- `acceptInvitation` of a user whose details were read; a refusal has the general
message. -/
def joinProject (env : Env) (userId token username : String) (email : Option String)
    (emailVerified : Bool) : Service String := do
  let inv ← RbacRepository.acceptInvitation env token username email emailVerified userId
  match inv with
  | some projectId =>
    RbacRepository.invalidateUserRBAC env projectId userId
    return "accepted"
  | none => throw (.refused "Invalid or expired invitation|400")

end RbacService

end Swazz.RbacCalls
