import Swazz.AccountCleanup
import Swazz.RbacCalls

/-! The three deletions of projects, two of them with users, beside the requests that read
permissions or take them away. D1 enforces no foreign keys: what no statement deletes stays. -/
namespace Swazz.ProjectDeletion

open AtomicCalls
open AccountCleanup (Db)
open LegacyRoles (Member Tables)
open RbacCalls (Backend RbacRepository.getEffectivePermissions RbacService.dropMember
  RbacService.dropRole)
open ScanDeletion (purgeScanChildren)

/-- The database, the KV cache, and the negative cache of each isolate. The time is in
milliseconds. -/
structure Store where
  db : Db
  kv : String → Option (List String × ℕ)
  negativeRbacCache : ℕ → List (String × ℕ)
  now : ℕ

/-- The batch of `deleteProject`. -/
def deleteProjectRows (db : Db) (projectId : String) : Db :=
  (db.deleteScansWhere ⟨[], [projectId]⟩).deleteAccounts [] [projectId]

/-- The calls on roles, those of the clean-ups, and two more. -/
inductive Op where
  | rbac (op : RbacCalls.Op)
  | account (op : AccountCleanup.Op)
  | deleteProject (projectId : String)
  | declineInvitation (token username : String) (email : Option String) (emailVerified : Bool)

@[reducible] def Answer : Op → Type
  | .rbac op => RbacCalls.Answer op
  | .account op => AccountCleanup.Answer op
  | .deleteProject _ => Unit
  | .declineInvitation .. => Bool

namespace Store

/-- What the calls on roles see of the store. -/
def backend (s : Store) : Backend where
  db := s.db.rbac
  projectMembers := s.db.members.map Member.key
  kv := s.kv
  negativeRbacCache := s.negativeRbacCache
  now := s.now

/-- A member that a call on roles adds is a viewer in the older table. -/
def withMembers (db : Db) (projectMembers : List (String × String)) : Db :=
  let kept := { db.toTables with
    members := db.members.filter fun m => projectMembers.contains m.key
    member_unique := (List.filter_sublist.map _).nodup db.member_unique }
  let insert (tables : Tables) (key : String × String) :=
    tables.insertMemberOrIgnore ⟨key.1, key.2, "viewer"⟩
  { db with toTables := projectMembers.foldl insert kept }

def putBackend (s : Store) (b : Backend) : Store where
  db := { withMembers s.db b.projectMembers with rbac := b.db }
  kv := b.kv
  negativeRbacCache := b.negativeRbacCache
  now := b.now

def exec (s : Store) : (op : Op) → Answer op × Store
  | .rbac op => ((s.backend.exec op).1, s.putBackend (s.backend.exec op).2)
  | .account op =>
    let left := AccountCleanup.Store.exec ⟨s.db, [], [], []⟩ op
    (left.1, { s with db := left.2.db })
  | .deleteProject projectId => ((), { s with db := deleteProjectRows s.db projectId })
  | .declineInvitation token username email emailVerified =>
    let left := s.db.rbac.declineInvitation token username email emailVerified
    (left.2, { s with db := { s.db with rbac := left.1 } })

end Store

def perform (op : Op) : Calls Answer (Answer op) := Calls.perform op

def onRoles {α : Type} (p : Calls RbacCalls.Answer α) : Calls Answer α := p.embed .rbac fun _ a => a

def onAccounts {α : Type} (p : Calls AccountCleanup.Answer α) : Calls Answer α :=
  p.embed .account fun _ a => a

def deleteProject (projectId : String) : Calls Answer Unit :=
  (purgeScanChildren fun table =>
    perform (.account (.purgeChunk table ⟨[], [projectId]⟩))).bind fun _ =>
      perform (.deleteProject projectId)

inductive Deletion where
  | deleteProject (projectId : String)
  | deleteGuestUserData (userId : String) (projectIds : List String)
  | deleteUsersData (userIds projectIds : List String)

namespace Deletion

/-- The projects that it deletes: without users `deleteUsersData` deletes nothing. -/
def projects : Deletion → List String
  | .deleteProject projectId => [projectId]
  | .deleteGuestUserData _ projectIds => projectIds
  | .deleteUsersData userIds projectIds => if userIds.isEmpty then [] else projectIds

def users : Deletion → List String
  | .deleteProject _ => []
  | .deleteGuestUserData userId _ => [userId]
  | .deleteUsersData userIds _ => userIds

def run : Deletion → Calls Answer Unit
  | .deleteProject projectId => ProjectDeletion.deleteProject projectId
  | .deleteGuestUserData userId projectIds =>
    onAccounts (AccountCleanup.deleteGuestUserData userId projectIds)
  | .deleteUsersData userIds projectIds =>
    onAccounts (AccountCleanup.deleteUsersData userIds projectIds)

end Deletion

/-- Deletions, reads of permissions, and requests that only take roles or invitations away. -/
inductive Request where
  | delete (deletion : Deletion)
  | getEffectivePermissions (isolate : ℕ) (userId projectId : String)
  | removeMember (isolate : ℕ) (projectId memberId : String)
  | deleteCustomRole (isolate : ℕ) (projectId roleId : String)
  | revokeInvitation (id : String)
  | declineInvitation (token username : String) (email : Option String) (emailVerified : Bool)

def getEffectivePermissions (sessionCache : Bool) (isolate : ℕ) (userId projectId : String) :
    Calls Answer (List String) :=
  onRoles (RbacRepository.getEffectivePermissions ⟨sessionCache, isolate⟩ userId projectId)

/-- Only a read has something to answer. -/
def serve (sessionCache : Bool) : Request → Calls Answer (Option (List String))
  | .delete deletion => deletion.run.bind fun _ => .ret none
  | .getEffectivePermissions isolate userId projectId =>
    (getEffectivePermissions sessionCache isolate userId projectId).bind fun permissions =>
      .ret (some permissions)
  | .removeMember isolate projectId memberId =>
    (onRoles (RbacService.dropMember ⟨sessionCache, isolate⟩ projectId memberId).run).bind
      fun _ => .ret none
  | .deleteCustomRole isolate projectId roleId =>
    (onRoles (RbacService.dropRole ⟨sessionCache, isolate⟩ projectId roleId).run).bind
      fun _ => .ret none
  | .revokeInvitation id => (perform (.rbac (.revokeInvitation id))).bind fun _ => .ret none
  | .declineInvitation token username email emailVerified =>
    (perform (.declineInvitation token username email emailVerified)).bind fun _ => .ret none

/-- Time passes, and an isolate makes room for a new one. -/
inductive Event where
  | elapse (ms : ℕ)
  | newIsolate (isolate : ℕ)

def happen (s : Store) : Event → Store
  | .elapse ms => { s with db := { s.db with now := (s.now + ms) / 1000 }, now := s.now + ms }
  | .newIsolate isolate =>
    { s with negativeRbacCache := Function.update s.negativeRbacCache isolate [] }

/-- Any number of these requests at once. -/
def requests (sessionCache : Bool) :
    System Answer Store Request Event (Option (List String)) where
  exec _ _ op s := s.exec op
  body := serve sessionCache
  world e s := happen s e

end Swazz.ProjectDeletion
