import Swazz.RbacGrants

/-! Who is affected by a change of roles, against whom the service checks. -/
namespace Swazz.Rbac

open DepthBounded

/-- The user has the permission without passing through `r`. -/
def HeldBeside (db : Db) (projectId r user p : String) : Prop :=
  ∃ role, (projectId, user, role) ∈ db.memberRoles ∧
    db.GrantsBeside projectId r Db.MAX_DEPTH role p

/-- The user has the permission through `r`, if `r` gives what `gives` says to each depth. -/
def HeldThrough (db : Db) (projectId r : String) (gives : ℕ → String → Prop)
    (user p : String) : Prop :=
  ∃ role, (projectId, user, role) ∈ db.memberRoles ∧ ∃ i ≤ Db.MAX_DEPTH,
    Within (Avoiding (db.Includes projectId) r) i role r ∧ gives (Db.MAX_DEPTH-i) p

/-- What a new definition of `r` gives to a depth. -/
def GivesAs (db : Db) (projectId r : String) (body : RoleBody) (depth : ℕ) (p : String) :
    Prop :=
  p ∈ body.permissions ∨ ∃ child ∈ body.includedRoles, 0 < depth ∧
    db.GrantsBeside projectId r (depth-1) child p

/-- The user holds something that the caller does not. -/
def Exceeds (db : Db) (projectId user caller : String) : Prop :=
  ∃ p ∈ db.getEffectivePermissions user projectId,
    p ∉ db.getEffectivePermissions caller projectId

/-- The members who reach `r` only through another role, and exceed the caller, have what
they do not hold beside `r` through the old definition of `r` just if through the new. -/
def HiddenKept (db : Db) (projectId caller r : String) (gives : ℕ → String → Prop) : Prop :=
  ∀ user, user ≠ caller → (projectId, user, r) ∉ db.memberRoles →
    Exceeds db projectId user caller → ∀ p, ¬ HeldBeside db projectId r user p →
      (HeldThrough db projectId r (db.Gives projectId r) user p ↔
        HeldThrough db projectId r gives user p)

/-- The operation changes no other member's permissions who exceeds the caller. -/
def OutranksKept (db db' : Db) (projectId caller : String) : Prop :=
  ∀ user, user ≠ caller →
    (∃ p, ¬ (p ∈ db'.getEffectivePermissions user projectId ↔
      p ∈ db.getEffectivePermissions user projectId)) →
    ∀ p ∈ db.getEffectivePermissions user projectId,
      p ∈ db.getEffectivePermissions caller projectId

theorem effective_iff_through {db : Db} {projectId user p : String} (r : String) :
    p ∈ db.getEffectivePermissions user projectId ↔
      isValidId projectId = true ∧ isValidId user = true ∧
        (HeldBeside db projectId r user p ∨
          HeldThrough db projectId r (db.Gives projectId r) user p) := by
  rw [Db.mem_getEffectivePermissions]
  have hsplit : (∃ role, (projectId, user, role) ∈ db.memberRoles ∧
      db.Grants projectId Db.MAX_DEPTH role p) ↔ HeldBeside db projectId r user p ∨
        HeldThrough db projectId r (db.Gives projectId r) user p := by
    simp only [Db.grants_iff r, HeldBeside, HeldThrough, and_or_left, exists_or]
  rw [hsplit]

theorem effective_update {db db' : Db} {projectId r : String} {body : RoleBody}
    (h : RoleRewritten db db' projectId r body.permissions body.includedRoles)
    {user p : String} : p ∈ db'.getEffectivePermissions user projectId ↔
      isValidId projectId = true ∧ isValidId user = true ∧
        (HeldBeside db projectId r user p ∨
          HeldThrough db projectId r (GivesAs db projectId r body) user p) := by
  rw [effective_iff_through r]
  have hbeside : HeldBeside db' projectId r user p ↔ HeldBeside db projectId r user p := by
    simp only [HeldBeside, h.members, h.beside]
  have hthrough : HeldThrough db' projectId r (db'.Gives projectId r) user p ↔
      HeldThrough db projectId r (GivesAs db projectId r body) user p := by
    simp only [HeldThrough, h.members, h.avoiding, h.gives, GivesAs]
  rw [hbeside, hthrough]

/-- Without the role, a member who does not hold it has what they have beside it. -/
theorem effective_deleted {db : Db} {projectId r : String}
    (hcustom : isBuiltInRole r = false) (howned : db.hasRole projectId r = true)
    {user p : String} (hholder : (projectId, user, r) ∉ db.memberRoles) :
    p ∈ (db.deleteCustomRole projectId r).1.getEffectivePermissions user projectId ↔
      isValidId projectId = true ∧ isValidId user = true ∧
        HeldBeside db projectId r user p := by
  set db' := (db.deleteCustomRole projectId r).1 with hdb'
  have hrole (a : String) : db'.hasRole projectId a = true ↔
      db.hasRole projectId a = true ∧ a ≠ r := by
    rw [Db.hasRole_iff, Db.hasRole_iff]
    constructor
    · rintro ⟨c, hc, hid, hproject⟩
      obtain ⟨hc, hkept⟩ := List.mem_filter.mp hc
      refine ⟨⟨c, hc, hid, hproject⟩, ?_⟩
      intro har
      simp [hid, hproject, har] at hkept
    · rintro ⟨⟨c, hc, hid, hproject⟩, har⟩
      exact ⟨c, List.mem_filter.mpr ⟨hc, by simp [hid, har]⟩, hid, hproject⟩
  have hincludes : db'.Includes projectId =
      fun a b => Avoiding (db.Includes projectId) r a b ∧ b ≠ r := by
    funext a b
    apply propext
    have hrow : (a, b) ∈ db'.roleInheritance ↔
        (a, b) ∈ db.roleInheritance ∧ a ≠ r ∧ b ≠ r := by
      simp [hdb', Db.deleteCustomRole, howned]
    simp only [Db.Includes, Avoiding, hrow, hrole]
    tauto
  have hcarries (x : String) : db'.Carries projectId x p ↔
      x ≠ r ∧ db.Carries projectId x p := by
    by_cases hx : x = r
    · subst hx
      simp [Db.carries_custom hcustom, hrole]
    · have hrow : (x, p) ∈ db'.rolePermissions ↔ (x, p) ∈ db.rolePermissions := by
        simp [hdb', Db.deleteCustomRole, hx]
      simp [Db.Carries, hrole, hrow, hx]
  have hmember (role : String) : (projectId, user, role) ∈ db'.memberRoles ↔
      (projectId, user, role) ∈ db.memberRoles := by
    simp only [hdb', Db.deleteCustomRole, List.mem_filter]
    constructor
    · exact And.left
    · intro hrow
      refine ⟨hrow, ?_⟩
      have hne : role ≠ r := fun heq => hholder (heq ▸ hrow)
      simp [hne]
  rw [Db.mem_getEffectivePermissions]
  simp only [Db.Grants, HeldBeside, Db.GrantsBeside, hmember, hcarries, hincludes]
  have hpath (role x : String) (hx : x ≠ r) :
      Within (fun a b => Avoiding (db.Includes projectId) r a b ∧ b ≠ r) Db.MAX_DEPTH role x ↔
        Within (Avoiding (db.Includes projectId) r) Db.MAX_DEPTH role x :=
    ⟨Within.mono fun _ _ h => h.1, fun h => h.never_enters hx⟩
  constructor
  · rintro ⟨hvalid, huser, role, hmem, x, hwithin, hx, hc⟩
    exact ⟨hvalid, huser, role, hmem, x, hx, (hpath role x hx).mp hwithin, hc⟩
  · rintro ⟨hvalid, huser, role, hmem, x, hx, hwithin, hc⟩
    exact ⟨hvalid, huser, role, hmem, x, (hpath role x hx).mpr hwithin, hx, hc⟩

/-- The check on the direct holders leaves the members who reach the role otherwise. -/
theorem outranksKept_iff {db db' : Db} {projectId caller r : String}
    {roles permissions : List String} {gives : ℕ → String → Prop}
    (hcovers : Covers db projectId caller roles permissions (db.getRoleHolders projectId r))
    (heffective : ∀ user p, (projectId, user, r) ∉ db.memberRoles →
      (p ∈ db'.getEffectivePermissions user projectId ↔
        isValidId projectId = true ∧ isValidId user = true ∧
          (HeldBeside db projectId r user p ∨ HeldThrough db projectId r gives user p))) :
    OutranksKept db db' projectId caller ↔ HiddenKept db projectId caller r gives := by
  constructor
  · intro hkept user hne hholder ⟨p₀, hp₀, hnot⟩ p hbeside
    have hvalid := (effective_iff_through r).mp hp₀
    have hsame : p ∈ db'.getEffectivePermissions user projectId ↔
        p ∈ db.getEffectivePermissions user projectId := by
      by_contra hchange
      exact hnot (hkept user hne ⟨p, hchange⟩ p₀ hp₀)
    rw [heffective user p hholder, effective_iff_through r] at hsame
    simpa [hvalid.1, hvalid.2.1, hbeside, iff_comm] using hsame
  · intro hhidden user hne ⟨p₀, hchange⟩ p hp
    by_cases hholder : (projectId, user, r) ∈ db.memberRoles
    · have hmem : user ∈ db.getRoleHolders projectId r := by
        simp [Db.getRoleHolders, hholder]
      exact hcovers.members user hmem hne p hp
    · by_contra hnot
      apply hchange
      rw [heffective user p₀ hholder, effective_iff_through r]
      by_cases hbeside : HeldBeside db projectId r user p₀
      · simp [hbeside]
      · have hiff := hhidden user hne hholder ⟨p, hp, hnot⟩ p₀ hbeside
        simp [hbeside, hiff]

/-- A request that edits the access of existing members. -/
def Request.Edits : Request → Prop
  | .updateCustomRole _ _ | .deleteCustomRole _ | .updateMemberRoles _ _ | .removeMember _ =>
    True
  | _ => False

/-- The change of a custom role leaves what members who exceed the caller have through it,
unless they hold it directly. -/
def Request.HiddenKept (db : Db) (projectId caller : String) : Request → Prop
  | .updateCustomRole roleId body =>
    Rbac.HiddenKept db projectId caller roleId (GivesAs db projectId roleId body)
  | .deleteCustomRole roleId =>
    Rbac.HiddenKept db projectId caller roleId fun _ _ => False
  | _ => True

/-- A write to one member's rows that the service checked against that member. -/
theorem outranksKept_of_member {db db' : Db} {projectId caller memberId : String}
    {roles permissions : List String}
    (hcovers : Covers db projectId caller roles permissions [memberId])
    (hother : ∀ user role, user ≠ memberId →
      ((projectId, user, role) ∈ db'.memberRoles ↔ (projectId, user, role) ∈ db.memberRoles))
    (hsame : ∀ depth role p, db'.Grants projectId depth role p ↔
      db.Grants projectId depth role p) : OutranksKept db db' projectId caller := by
  intro user hne ⟨p₀, hchange⟩ p hp
  by_cases huser : user = memberId
  · exact hcovers.members user (by simp [huser]) hne p hp
  · apply absurd _ hchange
    rw [Db.mem_getEffectivePermissions, Db.mem_getEffectivePermissions]
    simp only [hother user _ huser, hsame]

/-- Exactly which changes leave alone the members who exceed the caller. -/
theorem outranks_kept_iff {db db' : Db} {projectId status : String} {userId : Option String}
    {req : Request} (hedits : req.Edits)
    (h : perform db projectId userId req = .ok (db', status)) :
    ∃ caller, userId = some caller ∧
      (OutranksKept db db' projectId caller ↔ req.HiddenKept db projectId caller) := by
  cases req with
  | updateCustomRole roleId body =>
    obtain ⟨caller, name, hcaller, hreserved, hcovers, hdb⟩ := updateCustomRole_ok h
    have hcustom : isBuiltInRole roleId = false := (Bool.or_eq_false_iff.mp hreserved).1
    have hrewritten := rewritten_of_rows hcustom (rows_of_update hdb)
    refine ⟨caller, hcaller, outranksKept_iff hcovers ?_⟩
    exact fun user p _ => effective_update hrewritten
  | deleteCustomRole roleId =>
    obtain ⟨caller, hcaller, hreserved, hcovers, hdb⟩ := deleteCustomRole_ok h
    have hcustom : isBuiltInRole roleId = false := (Bool.or_eq_false_iff.mp hreserved).1
    have hdb' : (db.deleteCustomRole projectId roleId).1 = db' := by rw [hdb]
    have howned : db.hasRole projectId roleId = true := congrArg Prod.snd hdb
    subst hdb'
    refine ⟨caller, hcaller, outranksKept_iff hcovers ?_⟩
    intro user p hholder
    rw [effective_deleted hcustom howned hholder]
    simp [HeldThrough]
  | updateMemberRoles memberId roles =>
    obtain ⟨caller, hcaller, -, hcase⟩ := updateMemberRoles_ok h
    refine ⟨caller, hcaller, iff_of_true ?_ trivial⟩
    rcases hcase with ⟨-, -, rfl⟩ | ⟨-, -, hcovers, hdb⟩
    · intro user _ ⟨p, hchange⟩
      exact absurd Iff.rfl hchange
    · obtain ⟨rows, hrows, hdb⟩ := Option.bind_eq_some_iff.mp hdb
      have hrows := insertAll_eq_some hrows
      obtain rfl := Option.some.inj hdb
      apply outranksKept_of_member hcovers
      · intro user role huser
        simp [hrows, huser, Ne.symm huser]
      · exact fun _ _ _ => Iff.rfl
  | removeMember memberId =>
    obtain ⟨caller, hcaller, -, hcase⟩ := removeMember_ok h
    refine ⟨caller, hcaller, iff_of_true ?_ trivial⟩
    rcases hcase with ⟨-, rfl⟩ | ⟨-, hcovers, rfl⟩
    · intro user _ ⟨p, hchange⟩
      exact absurd Iff.rfl hchange
    · apply outranksKept_of_member hcovers
      · intro user role huser
        simp [Db.removeProjectMember, huser]
      · exact fun _ _ _ => Iff.rfl
  | _ => exact hedits.elim

/-- An editor, and a member whose custom role includes another one. -/
def nested : Db where
  customRoles := [⟨"c_in", "p", "Inner"⟩, ⟨"c_out", "p", "Outer"⟩]
  rolePermissions := [("c_in", "get:/api/projects/:id"), ("c_out", "delete:/api/projects/:id")]
  roleInheritance := [("c_out", "c_in")]
  memberRoles := [("p", "ed", "editor"), ("p", "boss", "c_out")]
  invitations := []
  guests := []
  role_id_unique := by decide

theorem outranks_kept_iff_nested : ∃ db',
    perform nested "p" (some "ed") (.deleteCustomRole "c_in") = .ok (db', "deleted") ∧
    (OutranksKept nested db' "p" "ed" ↔
      HiddenKept nested "p" "ed" "c_in" fun _ _ => False) := by
  have hok : ∃ db', perform nested "p" (some "ed") (.deleteCustomRole "c_in") =
      .ok (db', "deleted") := ⟨_, rfl⟩
  obtain ⟨db', hok⟩ := hok
  have hedits : (Request.deleteCustomRole "c_in").Edits := trivial
  obtain ⟨caller, hcaller, hiff⟩ := outranks_kept_iff hedits hok
  obtain rfl := Option.some.inj hcaller
  exact ⟨db', hok, hiff⟩

/-- The editor takes a permission from a member who may delete the project. -/
theorem outranks_broken_nested : ∃ db',
    perform nested "p" (some "ed") (.deleteCustomRole "c_in") = .ok (db', "deleted") ∧
    ¬ OutranksKept nested db' "p" "ed" := by
  refine ⟨_, rfl, ?_⟩
  intro hkept
  have hcaller := hkept "boss" (by decide) ⟨"get:/api/projects/:id", by decide⟩
    "delete:/api/projects/:id" (by decide)
  exact absurd hcaller (by decide)

end Swazz.Rbac
