import Mathlib
import Swazz.LegacyRoles
import Swazz.ScanDeletion

/-! The clean-up of accounts: expired guests, and users who asked to be deleted, with the
projects they own. -/
namespace Swazz.AccountCleanup

open AtomicCalls
open LegacyRoles (Tables User Member)
open Rbac (insertAll)
open ScanDeletion (ChildTable Where purgeScanChildren SCAN_CHILD_DELETE_CHUNK)

structure Scan where
  id : String
  userId : Option String
  projectId : Option String
  reportUrl : Option String

/-- The tables of roles and members with the other columns of `users`, the scans, and for each
table of child rows the scan of each row. Times are in seconds. -/
structure Db extends Tables where
  deleteRequestedAt : String → Option ℕ
  expiresAt : String → Option ℕ
  apiKeys : String → Option String
  scans : List Scan
  children : ChildTable → List String
  now : ℕ

def GRACE_SECONDS : ℕ := 7 * 24 * 60 * 60

/-- `LIMIT` of the guests cleaned up at once. -/
def GUEST_LIMIT : ℕ := 20

def reportKeyForScan (id : String) : String := "reports/" ++ id ++ ".enc"

namespace Db

def isExpiredGuest (db : Db) (userId : String) : Bool :=
  db.rbac.isGuestUser userId && (db.expiresAt userId).any fun t => decide (t < db.now)

def deletionDue (db : Db) (userId : String) : Bool :=
  (db.deleteRequestedAt userId).any fun t => decide (t + GRACE_SECONDS < db.now)

/-- The ids and the names of users. -/
def named (users : List User) : List (String × String) := users.map fun u => (u.id, u.username)

def getExpiredGuestUsers (db : Db) : List (String × String) :=
  named ((db.users.filter fun u => db.isExpiredGuest u.id).take GUEST_LIMIT)

def getExpiredScheduledDeletions (db : Db) : List (String × String) :=
  named (db.users.filter fun u => db.deletionDue u.id)

def scansWhere (db : Db) (w : Where) : List String :=
  (db.scans.filter fun s => w.matches s.userId s.projectId).map Scan.id

/-- The reports that are where a scan's own report is. -/
def getScanReportUrls (db : Db) (userIds projectIds : List String) : List String :=
  if userIds.isEmpty then []
  else (db.scans.filter fun s => Where.matches ⟨userIds, projectIds⟩ s.userId s.projectId &&
    s.reportUrl == some (reportKeyForScan s.id)).map fun s => reportKeyForScan s.id

def getUserApiKeys (db : Db) (userIds : List String) : List String :=
  (db.users.filter fun u => userIds.contains u.id).filterMap fun u => db.apiKeys u.id

/-- The rows of a chunk are the first ones of the table. -/
def purgeChunk (db : Db) (table : ChildTable) (w : Where) : ℕ × Db :=
  let doomed := (db.children table).filter (db.scansWhere w).contains
  let left := doomed.drop SCAN_CHILD_DELETE_CHUNK ++
    (db.children table).filter fun id => !(db.scansWhere w).contains id
  (min doomed.length SCAN_CHILD_DELETE_CHUNK,
    { db with children := Function.update db.children table left })

def deleteScansWhere (db : Db) (w : Where) : Db :=
  { db with
    children := fun table =>
      (db.children table).filter fun id => !(db.scansWhere w).contains id
    scans := db.scans.filter fun s => !w.matches s.userId s.projectId }

/-- Users with their rows in the older table, and the projects with theirs. -/
def deleteAccounts (db : Db) (userIds projectIds : List String) : Db :=
  { db with
    projects := db.projects.filter fun p => !projectIds.contains p
    users := db.users.filter fun u => !userIds.contains u.id
    rbac := { db.rbac with guests := db.rbac.guests.filter fun id => !userIds.contains id }
    members := db.members.filter fun m =>
      !(projectIds.contains m.projectId || userIds.contains m.userId)
    member_unique := (List.filter_sublist.map _).nodup db.member_unique }

/-- The batch of `deleteGuestUserData`. -/
def deleteGuestUserData (db : Db) (userId : String) (projectIds : List String) : Db :=
  (db.deleteScansWhere ⟨[userId], projectIds⟩).deleteAccounts [userId] projectIds

/-- The batch of `deleteUsersData`. -/
def deleteUsersData (db : Db) (userIds projectIds : List String) : Db :=
  (db.deleteScansWhere ⟨userIds, projectIds⟩).deleteAccounts userIds projectIds

/-- `UPDATE users SET delete_requested_at = ?` -/
def setDeleteRequestedAt (db : Db) (userId : String) (t : Option ℕ) : Db :=
  if db.hasUser userId then
    { db with deleteRequestedAt := Function.update db.deleteRequestedAt userId t }
  else db

end Db

/-- The calls of the clean-ups to the database, the store of reports, the coordinator and the
cache; what the last three answer is only logged. -/
inductive Op where
  | cleanupSecurityTables
  | getExpiredGuestUsers
  | getProjectsOwnedByUser (userId : String)
  | getExpiredScheduledDeletions
  | getProjectsOwnedByUsers (userIds : List String)
  | getScanReportUrls (userIds projectIds : List String)
  | deleteReport (url : String)
  | revokeUser (userId : String)
  | getUserApiKeys (userIds : List String)
  | purgeChunk (table : ChildTable) (w : Where)
  | deleteGuestUserData (userId : String) (projectIds : List String)
  | deleteUsersData (userIds projectIds : List String)
  | deleteCachedKey (apiKey : String)
  deriving DecidableEq

@[reducible] def Answer : Op → Type
  | .getExpiredGuestUsers => List (String × String)
  | .getProjectsOwnedByUser _ => List String
  | .getExpiredScheduledDeletions => List (String × String)
  | .getProjectsOwnedByUsers _ => List String
  | .getScanReportUrls .. => List String
  | .getUserApiKeys _ => List String
  | .purgeChunk .. => ℕ
  | _ => Unit

/-- The database, and what happened so far: the ids that users ever had, the users that the
clean-ups have read, and the projects with the users among whom they looked for an owner. -/
structure Store where
  db : Db
  issued : List String
  listed : List String
  claimed : List (String × List String)

namespace Store

def list (s : Store) (users : List (String × String)) : List (String × String) × Store :=
  (users, { s with listed := s.listed ++ users.map Prod.fst })

def claim (s : Store) (projectIds userIds : List String) : List String × Store :=
  (projectIds, { s with claimed := s.claimed ++ projectIds.map fun p => (p, userIds) })

def exec (s : Store) : (op : Op) → Answer op × Store
  | .cleanupSecurityTables => ((), s)
  | .getExpiredGuestUsers => s.list s.db.getExpiredGuestUsers
  | .getProjectsOwnedByUser userId => s.claim (s.db.getProjectsOwnedByUser userId) [userId]
  | .getExpiredScheduledDeletions => s.list s.db.getExpiredScheduledDeletions
  | .getProjectsOwnedByUsers userIds => s.claim (s.db.getProjectsOwnedByUsers userIds) userIds
  | .getScanReportUrls userIds projectIds => (s.db.getScanReportUrls userIds projectIds, s)
  | .deleteReport _ => ((), s)
  | .revokeUser _ => ((), s)
  | .getUserApiKeys userIds => (s.db.getUserApiKeys userIds, s)
  | .purgeChunk table w =>
    ((s.db.purgeChunk table w).1, { s with db := (s.db.purgeChunk table w).2 })
  | .deleteGuestUserData userId projectIds =>
    ((), { s with db := s.db.deleteGuestUserData userId projectIds })
  | .deleteUsersData userIds projectIds =>
    ((), { s with db := s.db.deleteUsersData userIds projectIds })
  | .deleteCachedKey _ => ((), s)

end Store

def perform (op : Op) : Calls Answer (Answer op) := Calls.perform op

def deleteGuestUserData (userId : String) (projectIds : List String) : Calls Answer Unit :=
  (purgeScanChildren fun table => perform (.purgeChunk table ⟨[userId], projectIds⟩)).bind fun _ =>
    perform (.deleteGuestUserData userId projectIds)

def cleanGuests : List (String × String) → Calls Answer Unit
  | [] => .ret ()
  | (userId, _) :: guests =>
    (perform (.getProjectsOwnedByUser userId)).bind fun projectIds =>
      (deleteGuestUserData userId projectIds).bind fun _ => cleanGuests guests

def cleanupExpiredGuests : Calls Answer Unit :=
  (perform .cleanupSecurityTables).bind fun _ =>
    (perform .getExpiredGuestUsers).bind cleanGuests

def deleteUsersData (userIds projectIds : List String) : Calls Answer Unit :=
  if userIds.isEmpty then .ret ()
  else (purgeScanChildren fun table =>
    perform (.purgeChunk table ⟨userIds, projectIds⟩)).bind fun _ =>
      perform (.deleteUsersData userIds projectIds)

/-- One call for each of a list, one after the other. -/
def forEach (call : String → Op) : List String → Calls Answer Unit
  | [] => .ret ()
  | x :: rest => (perform (call x)).bind fun _ => forEach call rest

/-- From the projects on. -/
def deleteOwned (userIds ownedProjectIds : List String) : Calls Answer Unit :=
  (perform (.getScanReportUrls userIds ownedProjectIds)).bind fun reportUrls =>
    (forEach .deleteReport reportUrls).bind fun _ =>
      (Calls.parAll (userIds.map fun userId => perform (.revokeUser userId))).bind fun _ =>
        (perform (.getUserApiKeys userIds)).bind fun apiKeys =>
          (deleteUsersData userIds ownedProjectIds).bind fun _ =>
            forEach .deleteCachedKey apiKeys

def cleanupScheduledDeletions : Calls Answer Unit :=
  (perform .getExpiredScheduledDeletions).bind fun expiredDeletions =>
    let userIds := expiredDeletions.map Prod.fst
    if userIds.isEmpty then .ret ()
    else (perform (.getProjectsOwnedByUsers userIds)).bind (deleteOwned userIds)

inductive Cleanup where
  | expiredGuests
  | scheduledDeletions
  deriving DecidableEq

def run : Cleanup → Calls Answer Unit
  | .expiredGuests => cleanupExpiredGuests
  | .scheduledDeletions => cleanupScheduledDeletions

/-- What a request on roles or members writes, whatever it read before; a write that fails
changes nothing. The ids of users and projects that are made are new: no row has them. -/
inductive Write where
  | createProject (userId id : String)
  | createUser (id projectId username usernameHash : String) (email : Option String)
  | createGuestUser (id projectId username : String)
  | createProjectMemberAccount (projectId : String) (user : User) (roles : List String)
  | updateMemberRoles (projectId userId : String) (roles : List String)
  | removeProjectMember (projectId userId : String)
  | acceptInvitation (projectId userId : String) (roles : List String)

/-- The batch with which an invitation is accepted. -/
def acceptRows (db : Tables) (projectId userId : String) (roles : List String) : Tables :=
  let db := db.insertMemberOrIgnore ⟨projectId, userId, "viewer"⟩
  { db with rbac := { db.rbac with
      memberRoles := db.rbac.memberRoles ++
        ((roles.map fun r => (projectId, userId, r)).filter fun row =>
          !db.rbac.memberRoles.contains row).eraseDups } }

def isNewUser (db : Tables) (issued : List String) (userId : String) : Bool :=
  !issued.contains userId && db.rbac.memberRoles.all fun row => row.2.1 != userId

def isNewProject (db : Tables) (projectId : String) : Bool :=
  db.rbac.memberRoles.all fun row => row.1 != projectId

def write (db : Tables) (issued : List String) : Write → Option Tables
  | .createProject userId id =>
    if isNewProject db id then db.createProject userId id else none
  | .createUser id projectId username usernameHash email =>
    if isNewUser db issued id && isNewProject db projectId then
      db.createUser id projectId username usernameHash email
    else none
  | .createGuestUser id projectId username =>
    if isNewUser db issued id && isNewProject db projectId then
      db.createGuestUser id projectId username
    else none
  | .createProjectMemberAccount projectId user roles =>
    if isNewUser db issued user.id then do
      let db ← db.insertUser user
      let db ← db.insertMember ⟨projectId, user.id, roles.headD ""⟩
      db.insertMemberRoles projectId user.id roles
    else none
  | .updateMemberRoles projectId userId roles => do
    let rbac ← db.rbac.updateMemberRoles projectId userId roles
    some { db.setRole projectId userId (Tables.legacyRole roles) with rbac := rbac }
  | .removeProjectMember projectId userId =>
    some { db.deleteMember projectId userId with
      rbac := db.rbac.removeProjectMember projectId userId }
  | .acceptInvitation projectId userId roles => some (acceptRows db projectId userId roles)

/-- The user that a write makes. -/
def Write.newUser : Write → Option String
  | .createUser id .. => some id
  | .createGuestUser id .. => some id
  | .createProjectMemberAccount _ user _ => some user.id
  | _ => none

/-- The project that a write makes. -/
def Write.newProject : Write → Option String
  | .createProject _ id => some id
  | .createUser _ projectId .. => some projectId
  | .createGuestUser _ projectId _ => some projectId
  | _ => none

/-- A guest expires a day after it was made. -/
def GUEST_SECONDS : ℕ := 24 * 60 * 60

inductive Event where
  | elapse (seconds : ℕ)
  | scheduleUserDeletion (userId : String)
  | cancelUserDeletion (userId : String)
  | write (w : Write)

/-- The columns of a user that a write makes. -/
def newColumns (db : Db) (w : Write) : Db :=
  match w.newUser with
  | none => db
  | some id =>
    let expiresAt := match w with
      | .createGuestUser .. => some (db.now + GUEST_SECONDS)
      | _ => none
    { db with
      deleteRequestedAt := Function.update db.deleteRequestedAt id none
      expiresAt := Function.update db.expiresAt id expiresAt }

def happen (s : Store) : Event → Store
  | .elapse seconds => { s with db := { s.db with now := s.db.now + seconds } }
  | .scheduleUserDeletion userId =>
    { s with db := s.db.setDeleteRequestedAt userId (some s.db.now) }
  | .cancelUserDeletion userId => { s with db := s.db.setDeleteRequestedAt userId none }
  | .write w =>
    match write s.db.toTables s.issued w with
    | none => s
    | some tables => { s with
        db := { newColumns s.db w with toTables := tables }
        issued := s.issued ++ w.newUser.toList }

/-- Any number of clean-ups, and requests of the users meanwhile. -/
def cleanups : System Answer Store Cleanup Event Unit where
  exec _ _ op s := s.exec op
  body := run
  world e s := happen s e

def start (db : Db) : Store := ⟨db, db.users.map User.id, [], []⟩

end Swazz.AccountCleanup
