import Swazz.AccountCleanup

/-! Invitations that are accepted, declined and revoked at once, where each call to the
database may fail. Accepting is two calls: one spends the invitation, a batch grants. -/
namespace Swazz.InvitationCalls

open AtomicCalls
open LegacyRoles (Tables User getInvitationByToken refusalOf)
open Rbac (Invitation)

/-- While `failing` every call fails and changes nothing. Beside the tables: who has spent an
invitation, by the number of the request, and to whom its roles were granted. -/
structure Store where
  tables : Tables
  now : ℕ
  failing : Bool
  spent : List (String × ℕ × String)
  granted : List (String × String)

inductive Op where
  | getUserDetails (userId : String)
  | acceptInvitation (token username : String) (email : Option String) (emailVerified : Bool)
      (userId : String)
  | insertMemberRoles (inv : Invitation) (userId : String)
  | getInvitationByToken (token : String)
  | invalidateUserRBAC (projectId userId : String)
  | declineInvitation (token username : String) (email : Option String) (emailVerified : Bool)
  | revokeInvitation (id : String)

/-- What a call answers that does not fail. -/
@[reducible] def Value : Op → Type
  | .getUserDetails _ => Option User
  | .acceptInvitation .. => Option Invitation
  | .getInvitationByToken _ => Option Invitation
  | .declineInvitation .. => Bool
  | _ => Unit

abbrev Answer (op : Op) : Type := Option (Value op)

namespace Store

def putRbac (s : Store) (rbac : Rbac.Db) : Store :=
  { s with tables := { s.tables with rbac := rbac } }

/-- `UPDATE … SET status = 'Accepted' … RETURNING *` -/
def accept (s : Store) (who : ℕ) (acceptable : Invitation → Bool) (userId : String) :
    Option Invitation × Store :=
  match s.tables.rbac.invitations.find? acceptable with
  | none => (none, s)
  | some inv =>
    (some inv, { s.putRbac { s.tables.rbac with
        invitations := s.tables.rbac.invitations.map fun i =>
          if acceptable i then { i with status := .accepted } else i } with
      spent := s.spent ++ [(inv.id, who, userId)] })

def run (s : Store) (who : ℕ) : (op : Op) → Value op × Store
  | .getUserDetails userId => (s.tables.users.find? fun u => u.id == userId, s)
  | .acceptInvitation token username email emailVerified userId =>
    s.accept who (Rbac.Db.acceptable token username email emailVerified s.now) userId
  | .insertMemberRoles inv userId =>
    ((), { s with
      tables := AccountCleanup.acceptRows s.tables inv.projectId userId inv.targetRoleIds
      granted := s.granted ++ [(inv.id, userId)] })
  | .getInvitationByToken token => (getInvitationByToken s.tables token, s)
  | .invalidateUserRBAC _ _ => ((), s)
  | .declineInvitation token username email emailVerified =>
    let left := s.tables.rbac.declineInvitation token username email emailVerified
    (left.2, s.putRbac left.1)
  | .revokeInvitation id => ((), s.putRbac (s.tables.rbac.revokeInvitation id))

def exec (s : Store) (who : ℕ) (op : Op) : Answer op × Store :=
  if s.failing then (none, s) else (some (s.run who op).1, (s.run who op).2)

end Store

inductive Outcome where
  | accepted (projectId : String)
  | declined
  | revoked
  | refused (message : String)
  | thrown

/-- A call, and how to go on unless it fails. -/
def perform (op : Op) (next : Value op → Calls Answer Outcome) : Calls Answer Outcome :=
  .call op fun a =>
    match a with
    | none => .ret .thrown
    | some value => next value

/-- The user of a request about a token, from which point it goes on. -/
def withUser (userId : Option String) (token : String)
    (next : String → User → Calls Answer Outcome) : Calls Answer Outcome :=
  if isBlank token then .ret (.refused "Invalid invitation token|400")
  else
    match userId.filter fun id => !id.isEmpty with
    | none => .ret (.refused "Unauthorized|401")
    | some userId => perform (.getUserDetails userId) fun user =>
        match user with
        | none => .ret (.refused "User not found|404")
        | some user => next userId user

def refuse (token : String) (user : User) : Calls Answer Outcome :=
  perform (.getInvitationByToken token) fun existing => .ret (.refused (refusalOf existing user))

def grant (inv : Invitation) (userId : String) : Calls Answer Outcome :=
  perform (.insertMemberRoles inv userId) fun _ =>
    perform (.invalidateUserRBAC inv.projectId userId) fun _ => .ret (.accepted inv.projectId)

def acceptAs (token userId : String) (user : User) : Calls Answer Outcome :=
  perform (.acceptInvitation token user.username user.email user.emailVerified userId) fun inv =>
    match inv with
    | none => refuse token user
    | some inv => grant inv userId

def acceptInvitation (userId : Option String) (token : String) : Calls Answer Outcome :=
  withUser userId token (acceptAs token)

def declineAs (token : String) (user : User) : Calls Answer Outcome :=
  perform (.declineInvitation token user.username user.email user.emailVerified) fun success =>
    if success then .ret .declined else .ret (.refused "Invalid or expired invitation|400")

def declineInvitation (userId : Option String) (token : String) : Calls Answer Outcome :=
  withUser userId token fun _ => declineAs token

def revokeInvitation (id : String) : Calls Answer Outcome :=
  perform (.revokeInvitation id) fun _ => .ret .revoked

inductive Request where
  | acceptInvitation (userId : Option String) (token : String)
  | declineInvitation (userId : Option String) (token : String)
  | revokeInvitation (id : String)

def serve : Request → Calls Answer Outcome
  | .acceptInvitation userId token => acceptInvitation userId token
  | .declineInvitation userId token => declineInvitation userId token
  | .revokeInvitation id => revokeInvitation id

/-- Time passes, and calls begin or cease to fail. -/
inductive Event where
  | elapse (seconds : ℕ)
  | setFailing (failing : Bool)

def happen (s : Store) : Event → Store
  | .elapse seconds => { s with now := s.now + seconds }
  | .setFailing failing => { s with failing := failing }

/-- Any number of these requests at once. -/
def requests : System Answer Store Request Event Outcome where
  exec who _ op s := s.exec who op
  body := serve
  world e s := happen s e

def start (tables : Tables) (now : ℕ) : Store := ⟨tables, now, false, [], []⟩

end Swazz.InvitationCalls
