import Swazz.RbacService
import Swazz.StepSystem

/-! `project_members`, which is older than the roles of a project and has one role for each
member: the requests that write it or the role rows, and the reads that still go to it. -/
namespace Swazz.LegacyRoles

open Rbac (Failure refuseIf orConstraint insertAll isBuiltInRole)

structure User where
  id : String
  username : String
  email : Option String
  emailVerified : Bool
  publicKey : Option String
  plan : Option String

/-- A row of `project_members`. -/
structure Member where
  projectId : String
  userId : String
  role : String
  deriving DecidableEq

def Member.key (m : Member) : String × String := (m.projectId, m.userId)

/-- A project and a user have at most one row in `project_members`. -/
structure Tables where
  rbac : Rbac.Db
  projects : List String
  users : List User
  usernameRegistry : List String
  members : List Member
  member_unique : (members.map Member.key).Nodup

namespace Tables

def hasUser (db : Tables) (userId : String) : Bool := db.users.any fun u => u.id == userId

/-- `none` when the user is a member of the project already. -/
def insertMember (db : Tables) (m : Member) : Option Tables :=
  if h : m.key ∈ db.members.map Member.key then none
  else some { db with
    members := db.members ++ [m]
    member_unique := by
      rw [List.map_append, List.map_singleton, ← List.concat_eq_append]
      exact List.Nodup.concat h db.member_unique }

/-- `INSERT OR IGNORE` -/
def insertMemberOrIgnore (db : Tables) (m : Member) : Tables := (db.insertMember m).getD db

def insertMemberRoles (db : Tables) (projectId userId : String) (roles : List String) :
    Option Tables := do
  let memberRoles ← insertAll db.rbac.memberRoles (roles.map fun r => (projectId, userId, r))
  some { db with rbac := { db.rbac with memberRoles := memberRoles } }

/-- `none` when the id or the name is taken. -/
def insertUser (db : Tables) (user : User) : Option Tables :=
  if db.users.any fun u => u.id == user.id || u.username == user.username then none
  else some { db with users := db.users ++ [user] }

def registerUsername (db : Tables) (usernameHash : String) : Option Tables :=
  if usernameHash ∈ db.usernameRegistry then none
  else some { db with usernameRegistry := db.usernameRegistry ++ [usernameHash] }

/-- The row of a project and the two rows of the user that owns it. -/
def insertProject (db : Tables) (projectId userId : String) : Option Tables :=
  if projectId ∈ db.projects then none
  else do
    let db ← { db with projects := db.projects ++ [projectId] }.insertMember
      ⟨projectId, userId, "owner"⟩
    db.insertMemberRoles projectId userId ["owner"]

def createProject (db : Tables) (userId id : String) : Option Tables := db.insertProject id userId

/-- A user without a project gets a default one. -/
def getProjects (db : Tables) (userId projectId : String) : Option Tables :=
  if db.members.any fun m => m.userId == userId && db.projects.contains m.projectId then some db
  else db.insertProject projectId userId

/-- A user, the name of the account and its default project. -/
def insertAccount (db : Tables) (user : User) (usernameHash projectId : String) :
    Option Tables := do
  let db ← db.registerUsername usernameHash
  let db ← db.insertUser user
  db.insertProject projectId user.id

def createUser (db : Tables) (id projectId username usernameHash : String)
    (email : Option String) : Option Tables :=
  db.insertAccount ⟨id, username, email, false, none, some "Free"⟩ usernameHash projectId

def createGithubUser (db : Tables) (id projectId username usernameHash : String)
    (email : Option String) : Option Tables :=
  db.insertAccount ⟨id, username, email, email.any fun e => !e.isEmpty, none, some "Free"⟩
    usernameHash projectId

def createGitlabUser (db : Tables) (id projectId username usernameHash : String)
    (email : Option String) : Option Tables :=
  db.insertAccount ⟨id, username, email, email.any fun e => !e.isEmpty, none, some "Free"⟩
    usernameHash projectId

/-- A guest's name is not registered. -/
def createGuestUser (db : Tables) (id projectId username : String) : Option Tables := do
  let db ← db.insertUser ⟨id, username, none, false, none, some "Free"⟩
  let db := { db with rbac := { db.rbac with guests := db.rbac.guests ++ [id] } }
  db.insertProject projectId id

/-- The role that `updateMemberRoles` leaves in the older table. -/
def legacyRole (roles : List String) : String :=
  if roles.contains "owner" then "owner"
  else if roles.contains "editor" then "editor"
  else "viewer"

/-- `UPDATE project_members SET role = ?` -/
def setRole (db : Tables) (projectId userId role : String) : Tables :=
  { db with
    members := db.members.map fun m =>
      if m.projectId == projectId && m.userId == userId then { m with role := role } else m
    member_unique := by
      have hkey : db.members.map (Member.key ∘ fun m =>
          if m.projectId == projectId && m.userId == userId then { m with role := role }
          else m) = db.members.map Member.key := by
        apply List.map_congr_left
        intro m _
        simp only [Function.comp_apply]
        split_ifs <;> rfl
      rw [List.map_map, hkey]
      exact db.member_unique }

def deleteMember (db : Tables) (projectId userId : String) : Tables :=
  { db with
    members := db.members.filter fun m => !(m.projectId == projectId && m.userId == userId)
    member_unique := (List.filter_sublist.map _).nodup db.member_unique }

/-- The first owner on the paid plan, else the first: the id, the public key and the plan. -/
def getProjectOwnerForScan (db : Tables) (projectId : String) :
    Option (String × Option String × Option String) :=
  let owners := (db.members.filter fun m =>
      m.projectId == projectId && m.role == "owner").flatMap fun m =>
    db.users.filter fun u => u.id == m.userId
  ((owners.find? fun o => o.plan == some "Supporter Plan").or owners.head?).map fun o =>
    (o.id, o.publicKey, o.plan)

/-- What the clean-up of accounts deletes with the users. -/
def getProjectsOwnedByUsers (db : Tables) (userIds : List String) : List String :=
  (db.members.filter fun m => m.role == "owner" && userIds.contains m.userId).map
    Member.projectId

def getProjectsOwnedByUser (db : Tables) (userId : String) : List String :=
  (db.members.filter fun m => m.userId == userId && m.role == "owner").map Member.projectId

end Tables

/-- What a request on the roles and the members of a project does to the older table. -/
def writeMembers (db : Tables) (projectId : String) : Rbac.Request → Tables
  | .updateMemberRoles memberId roles =>
    if db.rbac.checkInvitationExists memberId projectId then db
    else db.setRole projectId memberId (Tables.legacyRole roles)
  | .removeMember memberId =>
    if db.rbac.checkInvitationExists memberId projectId then db
    else db.deleteMember projectId memberId
  | _ => db

/-- The requests of the service that ask for a permission first. -/
def perform (db : Tables) (projectId : String) (userId : Option String)
    (request : Rbac.Request) : Except Failure Tables := do
  let (rbac, _) ← Rbac.perform db.rbac projectId userId request
  return { writeMembers db projectId request with rbac := rbac }

/-- Why an invitation could not be accepted, from the pending one with the token. -/
def refusalOf (existing : Option Rbac.Invitation) (user : User) : String :=
  match existing with
  | none => "Invalid or expired invitation|400"
  | some existing =>
    let email := existing.email.filter fun e => !e.isEmpty
    if existing.username.any fun u => !u.isEmpty && u != user.username then
      "Invitation is for a different username|403"
    else if email.any fun e =>
        e.map Char.toLower != (user.email.getD "").map Char.toLower then
      "Invitation is for a different email|403"
    else if email.isSome && !user.emailVerified then
      "Verify your email address to accept this invitation|403"
    else "Invalid or expired invitation|400"

def getInvitationByToken (db : Tables) (token : String) : Option Rbac.Invitation :=
  db.rbac.invitations.find? fun i => i.token == token && i.status == .pending

/-- Why an invitation could not be accepted. -/
def refusal (db : Tables) (token : String) (user : User) : String :=
  refusalOf (getInvitationByToken db token) user

def acceptInvitation (db : Tables) (userId : Option String) (token : String) (now : ℕ) :
    Except Failure Tables := do
  refuseIf (isBlank token) "Invalid invitation token|400"
  match userId.filter fun id => !id.isEmpty with
  | none => .error (.refused "Unauthorized|401")
  | some userId =>
    match db.users.find? fun u => u.id == userId with
    | none => .error (.refused "User not found|404")
    | some user =>
      match db.rbac.acceptInvitation token user.username user.email user.emailVerified userId
          now with
      | none => .error (.refused (refusal db token user))
      | some (inv, rbac) =>
        return { db.insertMemberOrIgnore ⟨inv.projectId, userId, "viewer"⟩ with rbac := rbac }

/-- `^[a-zA-Z0-9_\-]{3,20}$` -/
def usernameRegex (s : String) : Bool := matchesId 20 s && decide (3 ≤ s.length)

/-- `^[^@\s]+@[^@\s]+\.[^@\s]+$` -/
def emailRegex (s : String) : Bool :=
  !s.toList.any isSpace &&
    match s.toList.splitOn '@' with
    | [name, domain] => !name.isEmpty && domain.tail.dropLast.contains '.'
    | _ => false

/-- `username` is `none` where it is no string, `email` where it is left out. -/
structure AccountBody where
  username : Option String
  email : Option String
  roles : List String

/-- A member's account with an id from `ulid`; `hashUsername` is the hash of the registry. -/
def createProjectMemberAccount (hashUsername : String → String) (db : Tables)
    (projectId userId : String) (callerId : Option String) (body : AccountBody) :
    Except Failure Tables :=
  match body.username with
  | none => .error (.refused "Username is required|400")
  | some username => do
    let cleanUsername := trim username
    refuseIf (!usernameRegex cleanUsername) ("Username must be 3-20 characters long and " ++
      "contain only letters, numbers, underscores, or hyphens|400")
    let cleanEmail := (body.email.filter fun e => !e.isEmpty).map trim
    refuseIf (cleanEmail.any fun e => !emailRegex e) "Invalid email format|400"
    refuseIf (cleanEmail.any fun e => db.users.any fun u => u.email == some e)
      "Email already exists|400"
    refuseIf body.roles.isEmpty "At least one role must be assigned|400"
    let uniqueRoles := body.roles.eraseDups
    let customRoles := uniqueRoles.filter fun r => !isBuiltInRole r
    refuseIf ((db.rbac.checkCustomRolesExist projectId customRoles).length != customRoles.length)
      "One or more custom roles are invalid|400"
    Rbac.assertCanGrant db.rbac projectId callerId uniqueRoles []
    let usernameHash := hashUsername cleanUsername
    refuseIf (db.usernameRegistry.contains usernameHash) "Username already exists|400"
    orConstraint do
      let db ← db.registerUsername usernameHash
      let db ← db.insertUser ⟨userId, cleanUsername, cleanEmail, false, none, some "Free"⟩
      let db ← db.insertMember ⟨projectId, userId, uniqueRoles.headD ""⟩
      db.insertMemberRoles projectId userId uniqueRoles

/-- A request that makes a project or an account, or changes who is a member of what. The ids
come from `ulid`, the caller of a request is logged in. -/
inductive Op where
  | createProject (userId id : String)
  | getProjects (userId projectId : String)
  | createUser (id projectId username : String) (email : Option String)
  | createGithubUser (id projectId username : String) (email : Option String)
  | createGitlabUser (id projectId username : String) (email : Option String)
  | createGuestUser (id projectId username : String)
  | createProjectMemberAccount (projectId userId : String) (callerId : Option String)
      (body : AccountBody)
  | request (projectId : String) (userId : Option String) (request : Rbac.Request)
  | acceptInvitation (userId : Option String) (token : String) (now : ℕ)

/-- `none` when the request is refused or fails: nothing is written then. -/
def step (hashUsername : String → String) (db : Tables) : Op → Option Tables
  | .createProject userId id => if db.hasUser userId then db.createProject userId id else none
  | .getProjects userId projectId =>
    if db.hasUser userId then db.getProjects userId projectId else none
  | .createUser id projectId username email =>
    db.createUser id projectId username (hashUsername username) email
  | .createGithubUser id projectId username email =>
    db.createGithubUser id projectId username (hashUsername username) email
  | .createGitlabUser id projectId username email =>
    db.createGitlabUser id projectId username (hashUsername username) email
  | .createGuestUser id projectId username => db.createGuestUser id projectId username
  | .createProjectMemberAccount projectId userId callerId body =>
    (createProjectMemberAccount hashUsername db projectId userId callerId body).toOption
  | .request projectId userId request => (perform db projectId userId request).toOption
  | .acceptInvitation userId token now => (acceptInvitation db userId token now).toOption

def emptyTables : Tables where
  rbac := {
    customRoles := [], rolePermissions := [], roleInheritance := [], memberRoles := [],
    invitations := [], guests := [], role_id_unique := List.nodup_nil }
  projects := []
  users := []
  usernameRegistry := []
  members := []
  member_unique := List.nodup_nil

end Swazz.LegacyRoles
