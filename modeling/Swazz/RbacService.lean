import Swazz.RbacStore

/-! The service behind the role, member and invitation routes. Each request reads the
database and writes it atomically; a refused request leaves it as it is. -/
namespace Swazz.Rbac

/-- Why a request fails: refused by a check, with its message, or by the database. -/
inductive Failure where
  | refused (message : String)
  | constraint
  deriving DecidableEq

def refuseIf (cond : Bool) (message : String) : Except Failure Unit :=
  if cond then .error (.refused message) else .ok ()

def orConstraint {α : Type*} : Option α → Except Failure α
  | some a => .ok a
  | none => .error .constraint

structure RoleBody where
  name : Option String
  permissions : List String
  includedRoles : List String

structure InvitationBody where
  email : Option String
  username : Option String
  roles : List String

/-- What stands between a request and an invitation by email. -/
structure EmailChecks where
  turnstileSecret : Bool
  turnstileToken : Option String
  verifyTurnstile : String → Bool
  activeCooldown : Bool

/-- The one check behind every role change. -/
def assertCallerCovers (db : Db) (projectId : String) (callerId : Option String)
    (roles permissions members : List String) : Except Failure Unit :=
  match callerId.filter fun id => !id.isEmpty with
  | none => .error (.refused "Unauthorized|401")
  | some caller => do
    let held := db.getEffectivePermissions caller projectId
    let granted := db.resolveRolePermissions projectId roles ++ permissions
    refuseIf (granted.any fun p => !held.contains p)
      "Forbidden: You cannot grant permissions you do not hold|403"
    refuseIf ((members.filter fun m => m != caller).any fun m =>
        (db.getEffectivePermissions m projectId).any fun p => !held.contains p)
      "Forbidden: You cannot change a member who holds permissions you do not|403"

def assertCanGrant (db : Db) (projectId : String) (callerId : Option String)
    (roles permissions : List String) : Except Failure Unit :=
  assertCallerCovers db projectId callerId roles permissions []

def assertOutranks (db : Db) (projectId : String) (callerId : Option String)
    (targetUserId : String) : Except Failure Unit :=
  assertCallerCovers db projectId callerId [] [] [targetUserId]

def assertNotGuest (db : Db) (userId : Option String) : Except Failure Unit :=
  refuseIf (userId.any fun id => !id.isEmpty && db.isGuestUser id)
    "Forbidden: Guest accounts cannot modify members or roles.|403"

def assertCustomRoleInProject (db : Db) (projectId roleId : String) : Except Failure Unit :=
  refuseIf (!(db.checkCustomRolesExist projectId [roleId]).contains roleId)
    "Role not found|404"

/-- The ids among `roles` that name no built-in role and no role of the project. -/
def missingRoles (db : Db) (projectId : String) (roles : List String) : List String :=
  let customRoles := roles.filter fun r => !isBuiltInRole r
  customRoles.filter fun r => !(db.checkCustomRolesExist projectId customRoles).contains r

def assertRolesExist (db : Db) (projectId : String) (roles : List String) :
    Except Failure Unit :=
  let missing := missingRoles db projectId roles
  refuseIf (!missing.isEmpty) ("Invalid role(s): " ++ ", ".intercalate missing ++ "|400")

/-- The checks that creating and editing a custom role share. -/
def assertRoleBody (db : Db) (projectId roleId : String) (body : RoleBody) :
    Except Failure Unit := do
  let invalid := body.permissions.filter fun p => !PERMISSIONS.contains p
  refuseIf (!invalid.isEmpty)
    ("Unknown permission keys: " ++ ", ".intercalate invalid ++ "|400")
  let missing := missingRoles db projectId body.includedRoles
  refuseIf (!missing.isEmpty) ("Unknown role IDs: " ++ ", ".intercalate missing ++ "|400")
  refuseIf (body.includedRoles.contains roleId) "A role cannot include itself|400"

/-- `body.name`, trimmed. -/
def assertRoleName (body : RoleBody) : Except Failure String :=
  match body.name with
  | some name =>
    if isBlank name then
      .error (.refused "Role name is required and must be a non-empty string|400")
    else .ok (trim name)
  | none => .error (.refused "Role name is required and must be a non-empty string|400")

/-- The new role's id comes from `ulid`. -/
def createCustomRole (db : Db) (ulid projectId : String) (userId : Option String)
    (body : RoleBody) : Except Failure (Db × String) := do
  refuseIf (isBlank projectId) "Invalid project ID|400"
  assertNotGuest db userId
  let roleId := "c_" ++ ulid
  let roleName ← assertRoleName body
  assertRoleBody db projectId roleId body
  assertCanGrant db projectId userId body.includedRoles body.permissions
  refuseIf (db.checkRoleNameExists projectId roleName none)
    "A role with this name already exists|400"
  let db ← orConstraint
    (db.createCustomRole roleId projectId roleName body.permissions body.includedRoles)
  return (db, "created")

def updateCustomRole (db : Db) (projectId : String) (userId : Option String)
    (roleId : String) (body : RoleBody) : Except Failure (Db × String) := do
  refuseIf (isBlank projectId) "Invalid project ID|400"
  refuseIf (isBlank roleId) "Invalid role ID|400"
  assertNotGuest db userId
  refuseIf (isReservedRoleId roleId) "Default roles cannot be edited|400"
  assertCustomRoleInProject db projectId roleId
  let roleName ← assertRoleName body
  refuseIf (db.checkRoleNameExists projectId roleName (some roleId))
    "A role with this name already exists|400"
  assertRoleBody db projectId roleId body
  assertCallerCovers db projectId userId body.includedRoles body.permissions
    (db.getRoleHolders projectId roleId)
  let (db, found) ← orConstraint
    (db.updateCustomRole projectId roleId roleName body.permissions body.includedRoles)
  refuseIf (!found) "Role not found|404"
  return (db, "updated")

def deleteCustomRole (db : Db) (projectId : String) (userId : Option String)
    (roleId : String) : Except Failure (Db × String) := do
  refuseIf (isBlank projectId) "Invalid project ID|400"
  refuseIf (isBlank roleId) "Invalid role ID|400"
  assertNotGuest db userId
  refuseIf (isReservedRoleId roleId) "Default roles cannot be deleted|400"
  assertCustomRoleInProject db projectId roleId
  assertCallerCovers db projectId userId [] [] (db.getRoleHolders projectId roleId)
  let (db, found) := db.deleteCustomRole projectId roleId
  refuseIf (!found) "Role not found|404"
  return (db, "deleted")

def updateMemberRoles (db : Db) (projectId : String) (userId : Option String)
    (memberId : String) (roles : List String) : Except Failure (Db × String) := do
  refuseIf (isBlank projectId) "Invalid project ID|400"
  refuseIf (isBlank memberId) "Invalid member ID|400"
  assertNotGuest db userId
  refuseIf (userId == some memberId) "You cannot modify your own roles|400"
  refuseIf roles.isEmpty "At least one role must be specified|400"
  assertRolesExist db projectId roles
  if db.checkInvitationExists memberId projectId then
    -- What the invitation grants now must be covered too, not only what it will grant.
    let currentRoles := db.getInvitationRoles memberId projectId
    assertCanGrant db projectId userId (currentRoles ++ roles) []
    return (db.updateInvitationRoles memberId roles, "updated")
  else
    refuseIf (!db.isProjectMember projectId memberId) "Member not found|404"
    assertCallerCovers db projectId userId roles [] [memberId]
    refuseIf ((db.getMemberRoles projectId memberId).contains "owner" &&
        !roles.contains "owner" && decide (db.getProjectOwnersCount projectId ≤ 1))
      "Cannot remove the owner role from the last owner|400"
    let db ← orConstraint (db.updateMemberRoles projectId memberId roles)
    return (db, "updated")

def removeMember (db : Db) (projectId : String) (userId : Option String)
    (memberId : String) : Except Failure (Db × String) := do
  refuseIf (isBlank projectId) "Invalid project ID|400"
  refuseIf (isBlank memberId) "Invalid member ID|400"
  assertNotGuest db userId
  refuseIf (userId == some memberId) "You cannot remove yourself from the project|400"
  if db.checkInvitationExists memberId projectId then
    let invitedRoles := db.getInvitationRoles memberId projectId
    assertCanGrant db projectId userId invitedRoles []
    return (db.revokeInvitation memberId, "revoked")
  else
    assertOutranks db projectId userId memberId
    refuseIf ((db.getMemberRoles projectId memberId).contains "owner" &&
        decide (db.getProjectOwnersCount projectId ≤ 1))
      "Cannot remove the last owner of the project|400"
    return (db.removeProjectMember projectId memberId, "removed")

def createInvitation (db : Db) (id token : String) (expiresAt : ℕ) (projectId : String)
    (userId : Option String) (body : InvitationBody) (checks : EmailChecks) :
    Except Failure (Db × String) := do
  refuseIf (isBlank projectId) "Invalid project ID|400"
  assertNotGuest db userId
  refuseIf (body.email.all isBlank && body.username.all isBlank)
    "Either email or username must be specified|400"
  refuseIf body.roles.isEmpty "At least one role must be specified|400"
  let email := body.email.filter fun e => !e.isEmpty
  let guarded := email.isSome && checks.turnstileSecret
  let turnstileToken := checks.turnstileToken.filter fun t => !t.isEmpty
  refuseIf (guarded && turnstileToken.isNone) "Missing Turnstile token|403"
  refuseIf (guarded && !turnstileToken.all checks.verifyTurnstile)
    "Turnstile verification failed|403"
  refuseIf (email.isSome && checks.activeCooldown)
    "An invitation was recently sent to this email address. Please try again later.|429"
  assertRolesExist db projectId body.roles
  assertCanGrant db projectId userId body.roles []
  let db ← orConstraint (db.createInvitation id projectId email
    (body.username.filter fun u => !u.isEmpty) body.roles token expiresAt)
  return (db, "created")

/-- A request to change what users may do in a project. -/
inductive Request where
  | createCustomRole (ulid : String) (body : RoleBody)
  | updateCustomRole (roleId : String) (body : RoleBody)
  | deleteCustomRole (roleId : String)
  | updateMemberRoles (memberId : String) (roles : List String)
  | removeMember (memberId : String)
  | createInvitation (id token : String) (expiresAt : ℕ) (body : InvitationBody)
      (checks : EmailChecks)

def perform (db : Db) (projectId : String) (userId : Option String) :
    Request → Except Failure (Db × String)
  | .createCustomRole ulid body => createCustomRole db ulid projectId userId body
  | .updateCustomRole roleId body => updateCustomRole db projectId userId roleId body
  | .deleteCustomRole roleId => deleteCustomRole db projectId userId roleId
  | .updateMemberRoles memberId roles => updateMemberRoles db projectId userId memberId roles
  | .removeMember memberId => removeMember db projectId userId memberId
  | .createInvitation id token expiresAt body checks =>
    createInvitation db id token expiresAt projectId userId body checks

/-- The caller holds what is handed out and everything each of the members holds. -/
structure Covers (db : Db) (projectId caller : String)
    (roles permissions members : List String) : Prop where
  roles : ∀ p ∈ db.resolveRolePermissions projectId roles,
    p ∈ db.getEffectivePermissions caller projectId
  permissions : ∀ p ∈ permissions, p ∈ db.getEffectivePermissions caller projectId
  members : ∀ m ∈ members, m ≠ caller → ∀ p ∈ db.getEffectivePermissions m projectId,
    p ∈ db.getEffectivePermissions caller projectId

theorem refuseIf_ok {cond : Bool} {message : String} :
    refuseIf cond message = .ok () ↔ cond = false := by
  cases cond <;> simp [refuseIf]

theorem refuseIf_bind {α : Type} {cond : Bool} {message : String}
    {f : Unit → Except Failure α} {a : α} :
    (refuseIf cond message >>= f) = .ok a ↔ cond = false ∧ f () = .ok a := by
  cases cond <;> simp [refuseIf, bind, Except.bind]

theorem orConstraint_bind {α β : Type} {o : Option α} {f : α → Except Failure β} {b : β} :
    (orConstraint o >>= f) = .ok b ↔ ∃ a, o = some a ∧ f a = .ok b := by
  cases o <;> simp [orConstraint, bind, Except.bind]

theorem bind_ok {α β : Type} {x : Except Failure α} {f : α → Except Failure β} {b : β} :
    (x >>= f) = .ok b ↔ ∃ a, x = .ok a ∧ f a = .ok b := by
  cases x <;> simp [bind, Except.bind]

theorem covers_of_assert {db : Db} {projectId : String} {callerId : Option String}
    {roles permissions members : List String}
    (h : assertCallerCovers db projectId callerId roles permissions members = .ok ()) :
    ∃ caller, callerId = some caller ∧
      Covers db projectId caller roles permissions members := by
  unfold assertCallerCovers at h
  split at h
  · cases h
  · rename_i caller hcaller
    obtain ⟨hsome, -⟩ := Option.filter_eq_some_iff.mp hcaller
    obtain ⟨hgrant, h⟩ := refuseIf_bind.mp h
    have hmembers := refuseIf_ok.mp h
    simp only [List.any_eq_false, List.mem_append, Bool.not_eq_true, Bool.not_eq_false',
      List.contains_eq_mem, decide_eq_true_eq] at hgrant
    simp only [List.any_eq_false, List.mem_filter, bne_iff_ne, Bool.not_eq_true,
      Bool.not_eq_false', List.contains_eq_mem, decide_eq_true_eq] at hmembers
    refine ⟨caller, hsome, ?_, ?_, ?_⟩
    · exact fun p hp => hgrant p (Or.inl hp)
    · exact fun p hp => hgrant p (Or.inr hp)
    · exact fun m hm hne p hp => hmembers m ⟨hm, hne⟩ p hp

theorem createCustomRole_ok {db db' : Db} {ulid projectId status : String}
    {userId : Option String} {body : RoleBody}
    (h : createCustomRole db ulid projectId userId body = .ok (db', status)) :
    ∃ caller name, userId = some caller ∧
      Covers db projectId caller body.includedRoles body.permissions [] ∧
      db.createCustomRole ("c_" ++ ulid) projectId name body.permissions
        body.includedRoles = some db' := by
  unfold createCustomRole assertNotGuest at h
  obtain ⟨-, h⟩ := refuseIf_bind.mp h
  obtain ⟨-, h⟩ := refuseIf_bind.mp h
  obtain ⟨name, -, h⟩ := bind_ok.mp h
  obtain ⟨-, -, h⟩ := bind_ok.mp h
  obtain ⟨_, hassert, h⟩ := bind_ok.mp h
  obtain ⟨-, h⟩ := refuseIf_bind.mp h
  obtain ⟨new, hnew, h⟩ := orConstraint_bind.mp h
  obtain ⟨caller, hcaller, hcovers⟩ := covers_of_assert hassert
  obtain ⟨rfl, -⟩ := Prod.mk.inj (Except.ok.inj h)
  exact ⟨caller, name, hcaller, hcovers, hnew⟩

theorem updateCustomRole_ok {db db' : Db} {projectId roleId status : String}
    {userId : Option String} {body : RoleBody}
    (h : updateCustomRole db projectId userId roleId body = .ok (db', status)) :
    ∃ caller name, userId = some caller ∧ isReservedRoleId roleId = false ∧
      Covers db projectId caller body.includedRoles body.permissions
        (db.getRoleHolders projectId roleId) ∧
      db.updateCustomRole projectId roleId name body.permissions
        body.includedRoles = some (db', true) := by
  unfold updateCustomRole assertNotGuest at h
  obtain ⟨-, h⟩ := refuseIf_bind.mp h
  obtain ⟨-, h⟩ := refuseIf_bind.mp h
  obtain ⟨-, h⟩ := refuseIf_bind.mp h
  obtain ⟨hreserved, h⟩ := refuseIf_bind.mp h
  obtain ⟨-, h⟩ := refuseIf_bind.mp h
  obtain ⟨name, -, h⟩ := bind_ok.mp h
  obtain ⟨-, h⟩ := refuseIf_bind.mp h
  obtain ⟨-, -, h⟩ := bind_ok.mp h
  obtain ⟨_, hassert, h⟩ := bind_ok.mp h
  obtain ⟨⟨new, found⟩, hnew, h⟩ := orConstraint_bind.mp h
  obtain ⟨hfound, h⟩ := refuseIf_bind.mp h
  obtain ⟨caller, hcaller, hcovers⟩ := covers_of_assert hassert
  obtain ⟨rfl, -⟩ := Prod.mk.inj (Except.ok.inj h)
  have htrue : found = true := by simpa using hfound
  rw [htrue] at hnew
  exact ⟨caller, name, hcaller, hreserved, hcovers, hnew⟩

theorem deleteCustomRole_ok {db db' : Db} {projectId roleId status : String}
    {userId : Option String}
    (h : deleteCustomRole db projectId userId roleId = .ok (db', status)) :
    ∃ caller, userId = some caller ∧ isReservedRoleId roleId = false ∧
      Covers db projectId caller [] [] (db.getRoleHolders projectId roleId) ∧
      db.deleteCustomRole projectId roleId = (db', true) := by
  unfold deleteCustomRole assertNotGuest at h
  obtain ⟨-, h⟩ := refuseIf_bind.mp h
  obtain ⟨-, h⟩ := refuseIf_bind.mp h
  obtain ⟨-, h⟩ := refuseIf_bind.mp h
  obtain ⟨hreserved, h⟩ := refuseIf_bind.mp h
  obtain ⟨-, h⟩ := refuseIf_bind.mp h
  obtain ⟨_, hassert, h⟩ := bind_ok.mp h
  obtain ⟨hfound, h⟩ := refuseIf_bind.mp h
  obtain ⟨caller, hcaller, hcovers⟩ := covers_of_assert hassert
  obtain ⟨rfl, -⟩ := Prod.mk.inj (Except.ok.inj h)
  have htrue : (db.deleteCustomRole projectId roleId).2 = true :=
    Bool.not_eq_eq_eq_not.mp hfound
  exact ⟨caller, hcaller, hreserved, hcovers, Prod.ext rfl htrue⟩

/-- Editing what an invitation grants, or the roles of a member. -/
theorem updateMemberRoles_ok {db db' : Db} {projectId memberId status : String}
    {userId : Option String} {roles : List String}
    (h : updateMemberRoles db projectId userId memberId roles = .ok (db', status)) :
    ∃ caller, userId = some caller ∧ memberId ≠ caller ∧
      (db.checkInvitationExists memberId projectId = true ∧
        Covers db projectId caller
          (db.getInvitationRoles memberId projectId ++ roles) [] [] ∧
        db' = db.updateInvitationRoles memberId roles ∨
      db.checkInvitationExists memberId projectId = false ∧
        db.isProjectMember projectId memberId = true ∧
        Covers db projectId caller roles [] [memberId] ∧
        db.updateMemberRoles projectId memberId roles = some db') := by
  unfold updateMemberRoles assertNotGuest assertRolesExist at h
  obtain ⟨-, h⟩ := refuseIf_bind.mp h
  obtain ⟨-, h⟩ := refuseIf_bind.mp h
  obtain ⟨-, h⟩ := refuseIf_bind.mp h
  obtain ⟨hself, h⟩ := refuseIf_bind.mp h
  obtain ⟨-, h⟩ := refuseIf_bind.mp h
  obtain ⟨-, h⟩ := refuseIf_bind.mp h
  split_ifs at h with hinvite
  · obtain ⟨_, hassert, h⟩ := bind_ok.mp h
    obtain ⟨caller, hcaller, hcovers⟩ := covers_of_assert hassert
    have hne : memberId ≠ caller := fun heq => by simp [hcaller, heq] at hself
    obtain ⟨rfl, -⟩ := Prod.mk.inj (Except.ok.inj h)
    exact ⟨caller, hcaller, hne, Or.inl ⟨hinvite, hcovers, rfl⟩⟩
  · obtain ⟨hmember, h⟩ := refuseIf_bind.mp h
    obtain ⟨_, hassert, h⟩ := bind_ok.mp h
    obtain ⟨-, h⟩ := refuseIf_bind.mp h
    obtain ⟨new, hnew, h⟩ := orConstraint_bind.mp h
    obtain ⟨caller, hcaller, hcovers⟩ := covers_of_assert hassert
    have hne : memberId ≠ caller := fun heq => by simp [hcaller, heq] at hself
    obtain ⟨rfl, -⟩ := Prod.mk.inj (Except.ok.inj h)
    exact ⟨caller, hcaller, hne, Or.inr ⟨by simpa using hinvite, by simpa using hmember,
      hcovers, hnew⟩⟩

theorem removeMember_ok {db db' : Db} {projectId memberId status : String}
    {userId : Option String}
    (h : removeMember db projectId userId memberId = .ok (db', status)) :
    ∃ caller, userId = some caller ∧ memberId ≠ caller ∧
      (db.checkInvitationExists memberId projectId = true ∧
        db' = db.revokeInvitation memberId ∨
      db.checkInvitationExists memberId projectId = false ∧
        Covers db projectId caller [] [] [memberId] ∧
        db' = db.removeProjectMember projectId memberId) := by
  unfold removeMember assertNotGuest at h
  obtain ⟨-, h⟩ := refuseIf_bind.mp h
  obtain ⟨-, h⟩ := refuseIf_bind.mp h
  obtain ⟨-, h⟩ := refuseIf_bind.mp h
  obtain ⟨hself, h⟩ := refuseIf_bind.mp h
  split_ifs at h with hinvite
  · obtain ⟨_, hassert, h⟩ := bind_ok.mp h
    obtain ⟨caller, hcaller, -⟩ := covers_of_assert hassert
    have hne : memberId ≠ caller := fun heq => by simp [hcaller, heq] at hself
    obtain ⟨rfl, -⟩ := Prod.mk.inj (Except.ok.inj h)
    exact ⟨caller, hcaller, hne, Or.inl ⟨hinvite, rfl⟩⟩
  · obtain ⟨_, hassert, h⟩ := bind_ok.mp h
    obtain ⟨-, h⟩ := refuseIf_bind.mp h
    obtain ⟨caller, hcaller, hcovers⟩ := covers_of_assert hassert
    have hne : memberId ≠ caller := fun heq => by simp [hcaller, heq] at hself
    obtain ⟨rfl, -⟩ := Prod.mk.inj (Except.ok.inj h)
    exact ⟨caller, hcaller, hne, Or.inr ⟨by simpa using hinvite, hcovers, rfl⟩⟩

theorem createInvitation_ok {db db' : Db} {id token projectId status : String}
    {expiresAt : ℕ} {userId : Option String} {body : InvitationBody} {checks : EmailChecks}
    (h : createInvitation db id token expiresAt projectId userId body checks =
      .ok (db', status)) :
    ∃ caller email username, userId = some caller ∧
      Covers db projectId caller body.roles [] [] ∧
      db.createInvitation id projectId email username body.roles token expiresAt =
        some db' := by
  unfold createInvitation assertNotGuest assertRolesExist at h
  obtain ⟨-, h⟩ := refuseIf_bind.mp h
  obtain ⟨-, h⟩ := refuseIf_bind.mp h
  obtain ⟨-, h⟩ := refuseIf_bind.mp h
  obtain ⟨-, h⟩ := refuseIf_bind.mp h
  obtain ⟨-, h⟩ := refuseIf_bind.mp h
  obtain ⟨-, h⟩ := refuseIf_bind.mp h
  obtain ⟨-, h⟩ := refuseIf_bind.mp h
  obtain ⟨-, h⟩ := refuseIf_bind.mp h
  obtain ⟨_, hassert, h⟩ := bind_ok.mp h
  obtain ⟨new, hnew, h⟩ := orConstraint_bind.mp h
  obtain ⟨caller, hcaller, hcovers⟩ := covers_of_assert hassert
  obtain ⟨rfl, -⟩ := Prod.mk.inj (Except.ok.inj h)
  exact ⟨caller, _, _, hcaller, hcovers, hnew⟩

end Swazz.Rbac
