import Swazz.LegacyRoles
import Swazz.RbacGrants

/-! The owners in `project_members` beside the owners in `project_member_roles`. -/
namespace Swazz.LegacyRoles

open Rbac (refuseIf refuseIf_bind orConstraint_bind bind_ok insertAll insertAll_eq_some)
open StepSystem (ReachesUnder)

variable {db t : Tables} {p u : String} {m : Member}

/-- The two tables name the same owners. -/
def RowsAgree (db : Tables) : Prop :=
  ∀ p u, ⟨p, u, "owner"⟩ ∈ db.members ↔ (p, u, "owner") ∈ db.rbac.memberRoles

/-- Who has a role in a project is in the older table too, and is a user. -/
structure Base (db : Tables) : Prop where
  covered : ∀ p u r, (p, u, r) ∈ db.rbac.memberRoles → (p, u) ∈ db.members.map Member.key
  known : ∀ m ∈ db.members, db.hasUser m.userId = true

/-- The invitation that a token stands for, when the user accepts it now. -/
def taken (db : Tables) (userId token : String) (now : ℕ) : Option Rbac.Invitation :=
  (db.users.find? fun u => u.id == userId).bind fun user =>
    db.rbac.invitations.find?
      (Rbac.Db.acceptable token user.username user.email user.emailVerified now)

/-- An account with the role has it first in its list; an invitation gives it to nobody but
those the older table has as owners already. -/
def KeepsOwners (db : Tables) : Op → Prop
  | .createProjectMemberAccount _ _ _ body =>
    "owner" ∈ body.roles → body.roles.head? = some "owner"
  | .acceptInvitation userId token now => ∀ id ∈ userId, ∀ inv ∈ taken db id token now,
    "owner" ∈ inv.targetRoleIds → ⟨inv.projectId, id, "owner"⟩ ∈ db.members
  | _ => True

theorem insertMember_spec (h : db.insertMember m = some t) :
    m.key ∉ db.members.map Member.key ∧ t.members = db.members ++ [m] ∧ t.rbac = db.rbac ∧
      t.users = db.users := by
  unfold Tables.insertMember at h
  split at h
  case isTrue => cases h
  case isFalse hkey =>
    injection h with h
    subst h
    exact ⟨hkey, rfl, rfl, rfl⟩

theorem insertMemberRoles_spec {roles : List String}
    (h : db.insertMemberRoles p u roles = some t) :
    t.members = db.members ∧ t.users = db.users ∧
      t.rbac.memberRoles = db.rbac.memberRoles ++ roles.map fun r => (p, u, r) := by
  obtain ⟨rows, hrows, h⟩ := Option.bind_eq_some_iff.mp h
  injection h with h
  subst h
  exact ⟨rfl, rfl, insertAll_eq_some hrows⟩

theorem insertProject_spec (h : db.insertProject p u = some t) :
    (p, u) ∉ db.members.map Member.key ∧ t.members = db.members ++ [⟨p, u, "owner"⟩] ∧
      t.users = db.users ∧
      t.rbac.memberRoles = db.rbac.memberRoles ++ ["owner"].map fun r => (p, u, r) := by
  obtain ⟨-, h⟩ := Option.ite_none_left_eq_some.mp h
  obtain ⟨s, hs, h⟩ := Option.bind_eq_some_iff.mp h
  obtain ⟨hnew, hmembers, hrbac, husers⟩ := insertMember_spec hs
  obtain ⟨hmembers', husers', hroles⟩ := insertMemberRoles_spec h
  exact ⟨hnew, hmembers'.trans hmembers, husers'.trans husers, by rw [hroles, hrbac]⟩

/-- Requests that leave both tables and the users as they are. -/
theorem Base.of_eq (h : Base db) (hmembers : t.members = db.members)
    (hroles : t.rbac.memberRoles = db.rbac.memberRoles) (husers : t.users = db.users) :
    Base t := by
  refine ⟨fun p u r hr => ?_, fun m hm => ?_⟩
  · rw [hmembers]
    exact h.covered p u r (hroles ▸ hr)
  · rw [Tables.hasUser, husers]
    exact h.known m (hmembers ▸ hm)

theorem rowsAgree_of_eq (hmembers : t.members = db.members)
    (hroles : t.rbac.memberRoles = db.rbac.memberRoles) : RowsAgree t ↔ RowsAgree db := by
  rw [RowsAgree, RowsAgree, hmembers, hroles]

/-- A user who was no member gets a row in the older table, and one for each role. -/
structure Joins (db t : Tables) (p u role : String) (roles : List String) : Prop where
  new : (p, u) ∉ db.members.map Member.key
  user : t.hasUser u = true
  users : ∀ v, db.hasUser v = true → t.hasUser v = true
  members : t.members = db.members ++ [⟨p, u, role⟩]
  memberRoles : ∀ row, row ∈ t.rbac.memberRoles ↔
    row ∈ db.rbac.memberRoles ∨ ∃ r ∈ roles, row = (p, u, r)

theorem Joins.base {role : String} {roles : List String} (hjoins : Joins db t p u role roles)
    (h : Base db) : Base t := by
  refine ⟨fun p' u' r hr => ?_, fun m hm => ?_⟩
  · rw [hjoins.members, List.map_append, List.mem_append]
    rcases (hjoins.memberRoles _).mp hr with hold | ⟨r', -, heq⟩
    · exact Or.inl (h.covered p' u' r hold)
    · injection heq with hp heq
      injection heq with hu
      exact Or.inr (by simp [Member.key, hp, hu])
  · rw [hjoins.members] at hm
    rcases List.mem_append.mp hm with hold | hnew
    · exact hjoins.users _ (h.known m hold)
    · rw [List.mem_singleton.mp hnew]
      exact hjoins.user

/-- Nobody else's rows change; the user's agree if one of the roles is the owner's exactly
when the one role is. -/
theorem Joins.rowsAgree {role : String} {roles : List String}
    (hjoins : Joins db t p u role roles) (h : Base db) (hagree : RowsAgree db) :
    RowsAgree t ↔ ("owner" ∈ roles ↔ role = "owner") := by
  have hnone : (p, u, "owner") ∉ db.rbac.memberRoles := fun hrow =>
    hjoins.new (h.covered p u _ hrow)
  have hmember (p' u' : String) : (⟨p', u', "owner"⟩ : Member) ∈ t.members ↔
      ⟨p', u', "owner"⟩ ∈ db.members ∨ p' = p ∧ u' = u ∧ role = "owner" := by
    rw [hjoins.members, List.mem_append, List.mem_singleton, Member.mk.injEq, eq_comm (b := role)]
  have hrole (p' u' : String) : (p', u', "owner") ∈ t.rbac.memberRoles ↔
      (p', u', "owner") ∈ db.rbac.memberRoles ∨ p' = p ∧ u' = u ∧ "owner" ∈ roles := by
    rw [hjoins.memberRoles]
    refine or_congr Iff.rfl ⟨?_, ?_⟩
    · rintro ⟨r, hr, heq⟩
      injection heq with hp heq
      injection heq with hu howner
      exact ⟨hp, hu, howner ▸ hr⟩
    · rintro ⟨rfl, rfl, hr⟩
      exact ⟨"owner", hr, rfl⟩
  constructor
  · intro ht
    have hself := ht p u
    rw [hmember, hrole, hagree p u] at hself
    simpa [hnone, eq_comm] using hself.symm
  · intro hiff p' u'
    rw [hmember, hrole, hagree p' u', hiff]

theorem hasUser_of_insertUser {user : User} (h : db.insertUser user = some t) :
    t.hasUser user.id = true ∧ (∀ v, db.hasUser v = true → t.hasUser v = true) ∧
      t.members = db.members ∧ t.rbac = db.rbac := by
  obtain ⟨-, h⟩ := Option.ite_none_left_eq_some.mp h
  injection h with h
  subst h
  refine ⟨by simp [Tables.hasUser], fun v hv => ?_, rfl, rfl⟩
  simp only [Tables.hasUser, List.any_append, Bool.or_eq_true]
  exact Or.inl hv

theorem hasUser_congr (h : t.users = db.users) (v : String) : t.hasUser v = db.hasUser v := by
  rw [Tables.hasUser, Tables.hasUser, h]

theorem joins_of_insertProject {s : Tables} (h : s.insertProject p u = some t)
    (hmembers : s.members = db.members) (hroles : s.rbac.memberRoles = db.rbac.memberRoles)
    (huser : s.hasUser u = true) (husers : ∀ v, db.hasUser v = true → s.hasUser v = true) :
    Joins db t p u "owner" ["owner"] := by
  obtain ⟨hnew, htmembers, htusers, htroles⟩ := insertProject_spec h
  refine ⟨hmembers ▸ hnew, (hasUser_congr htusers u).trans huser,
    fun v hv => (hasUser_congr htusers v).trans (husers v hv), by rw [htmembers, hmembers],
    fun row => ?_⟩
  rw [htroles, hroles]
  simp

/-- The account is new, so that it has no rows; then it owns its default project. -/
theorem joins_of_insertAccount {user : User} {usernameHash projectId : String}
    (h : db.insertAccount user usernameHash projectId = some t) :
    Joins db t projectId user.id "owner" ["owner"] := by
  obtain ⟨s, hregister, h⟩ := Option.bind_eq_some_iff.mp h
  obtain ⟨r, hr, hproject⟩ := Option.bind_eq_some_iff.mp h
  obtain ⟨-, hregister⟩ := Option.ite_none_left_eq_some.mp hregister
  injection hregister with hs
  subst hs
  obtain ⟨huser, husers, hmembers, hrbac⟩ := hasUser_of_insertUser hr
  exact joins_of_insertProject hproject hmembers (by rw [hrbac]) huser husers

theorem joins_of_guest {id projectId username : String}
    (h : db.createGuestUser id projectId username = some t) :
    Joins db t projectId id "owner" ["owner"] := by
  obtain ⟨r, hr, hproject⟩ := Option.bind_eq_some_iff.mp h
  obtain ⟨huser, husers, hmembers, hrbac⟩ := hasUser_of_insertUser hr
  dsimp only at hproject
  exact joins_of_insertProject hproject hmembers (by rw [← hrbac]) huser husers

theorem orConstraint_ok {α : Type*} {o : Option α} {a : α} :
    Rbac.orConstraint o = .ok a ↔ o = some a := by
  cases o <;> simp [Rbac.orConstraint]

theorem head?_eraseDups {α : Type*} [BEq α] (l : List α) : l.eraseDups.head? = l.head? := by
  cases l with
  | nil => rfl
  | cons a l => rw [List.eraseDups_cons, List.head?_cons, List.head?_cons]

/-- The new account joins the project with the first role of its list. -/
theorem joins_of_memberAccount {hashUsername : String → String} {projectId userId : String}
    {callerId : Option String} {body : AccountBody}
    (h : createProjectMemberAccount hashUsername db projectId userId callerId body = .ok t) :
    ∃ first, body.roles.head? = some first ∧
      Joins db t projectId userId first body.roles.eraseDups := by
  unfold createProjectMemberAccount at h
  split at h
  case h_1 => cases h
  case h_2 username =>
    obtain ⟨-, h⟩ := refuseIf_bind.mp h
    obtain ⟨-, h⟩ := refuseIf_bind.mp h
    obtain ⟨-, h⟩ := refuseIf_bind.mp h
    obtain ⟨hroles, h⟩ := refuseIf_bind.mp h
    obtain ⟨-, h⟩ := refuseIf_bind.mp h
    obtain ⟨-, -, h⟩ := bind_ok.mp h
    obtain ⟨-, h⟩ := refuseIf_bind.mp h
    obtain ⟨first, hfirst⟩ : ∃ first, body.roles.head? = some first := by
      cases hlist : body.roles with
      | nil => simp [hlist] at hroles
      | cons first rest => exact ⟨first, rfl⟩
    have hhead : body.roles.eraseDups.headD "" = first := by
      rw [List.headD_eq_head?_getD, head?_eraseDups, hfirst, Option.getD_some]
    obtain ⟨s, hregister, h⟩ := Option.bind_eq_some_iff.mp (orConstraint_ok.mp h)
    obtain ⟨r, hr, h⟩ := Option.bind_eq_some_iff.mp h
    obtain ⟨q, hq, hlast⟩ := Option.bind_eq_some_iff.mp h
    obtain ⟨-, hregister⟩ := Option.ite_none_left_eq_some.mp hregister
    injection hregister with hs
    subst hs
    obtain ⟨huser, husers, hmembers, hrbac⟩ := hasUser_of_insertUser hr
    obtain ⟨hnew, hqmembers, hqrbac, hqusers⟩ := insertMember_spec hq
    obtain ⟨htmembers, htusers, htroles⟩ := insertMemberRoles_spec hlast
    have hall (v : String) : t.hasUser v = r.hasUser v :=
      (hasUser_congr htusers v).trans (hasUser_congr hqusers v)
    refine ⟨first, hfirst, hmembers ▸ hnew, (hall userId).trans huser,
      fun v hv => (hall v).trans (husers v hv), ?_, fun row => ?_⟩
    · rw [htmembers, hqmembers, hmembers, hhead]
    · rw [htroles, hqrbac, hrbac, List.mem_append, List.mem_map]
      simp only [eq_comm (b := row)]

/-- Both tables lose rows, and the same owners. -/
theorem agree_of_filter (h : Base db) (hagree : RowsAgree db) {K : String → String → Prop}
    (husers : t.users = db.users)
    (hmembers : ∀ m, m ∈ t.members ↔ m ∈ db.members ∧ K m.projectId m.userId)
    (hroles : ∀ p u r, (p, u, r) ∈ t.rbac.memberRoles → (p, u, r) ∈ db.rbac.memberRoles ∧ K p u)
    (howners : ∀ p u, K p u → (p, u, "owner") ∈ db.rbac.memberRoles →
      (p, u, "owner") ∈ t.rbac.memberRoles) : Base t ∧ RowsAgree t := by
  refine ⟨⟨fun p u r hr => ?_, fun m hm => ?_⟩, fun p u => ?_⟩
  · obtain ⟨hold, hkept⟩ := hroles p u r hr
    obtain ⟨m, hm, hkey⟩ := List.mem_map.mp (h.covered p u r hold)
    injection hkey with hp hu
    exact List.mem_map.mpr ⟨m, (hmembers m).mpr ⟨hm, hp ▸ hu ▸ hkept⟩, Prod.ext hp hu⟩
  · exact (hasUser_congr husers m.userId).trans (h.known m ((hmembers m).mp hm).1)
  · rw [hmembers, hagree p u]
    exact ⟨fun hrow => howners p u hrow.2 hrow.1, fun hrow => hroles p u _ hrow⟩

theorem mem_setRole {role : String} :
    m ∈ (db.setRole p u role).members ↔ m ∈ db.members ∧ m.key ≠ (p, u) ∨
      m = ⟨p, u, role⟩ ∧ (p, u) ∈ db.members.map Member.key := by
  have hrow (x : Member) : (x.projectId == p && x.userId == u) = true ↔ x.key = (p, u) := by
    simp [Member.key]
  simp only [Tables.setRole, List.mem_map]
  constructor
  · rintro ⟨x, hx, rfl⟩
    by_cases hkey : x.key = (p, u)
    · rw [if_pos ((hrow x).mpr hkey)]
      injection hkey with hp hu
      exact Or.inr ⟨by rw [hp, hu], x, hx, Prod.ext hp hu⟩
    · rw [if_neg (fun h => hkey ((hrow x).mp h))]
      exact Or.inl ⟨hx, hkey⟩
  · rintro (⟨hm, hkey⟩ | ⟨rfl, x, hx, hkey⟩)
    · exact ⟨m, hm, if_neg fun h => hkey ((hrow m).mp h)⟩
    · refine ⟨x, hx, ?_⟩
      rw [if_pos ((hrow x).mpr hkey)]
      injection hkey with hp hu
      rw [hp, hu]

theorem legacyRole_eq_owner {roles : List String} :
    Tables.legacyRole roles = "owner" ↔ "owner" ∈ roles := by
  unfold Tables.legacyRole
  split
  case isTrue h => exact iff_of_true rfl (by simpa using h)
  case isFalse h =>
    refine iff_of_false ?_ (by simpa using h)
    split <;> decide

/-- All roles of one member are replaced, with the one role that stands for them. -/
theorem agree_of_setRole (h : Base db) (hagree : RowsAgree db) (roles : List String)
    (hmember : (p, u) ∈ db.members.map Member.key) (husers : t.users = db.users)
    (hmembers : t.members = (db.setRole p u (Tables.legacyRole roles)).members)
    (hroles : ∀ p' u' r, (p', u', r) ∈ t.rbac.memberRoles ↔
      (p', u', r) ∈ db.rbac.memberRoles ∧ (p', u') ≠ (p, u) ∨ (p', u') = (p, u) ∧ r ∈ roles) :
    Base t ∧ RowsAgree t := by
  have hmem (m : Member) : m ∈ t.members ↔ m ∈ db.members ∧ m.key ≠ (p, u) ∨
      m = ⟨p, u, Tables.legacyRole roles⟩ := by
    rw [hmembers, mem_setRole]
    exact or_congr_right (and_iff_left hmember)
  refine ⟨⟨fun p' u' r hr => ?_, fun m hm => ?_⟩, fun p' u' => ?_⟩
  · by_cases hkey : (p', u') = (p, u)
    · rw [hkey]
      exact List.mem_map.mpr ⟨_, (hmem _).mpr (Or.inr rfl), rfl⟩
    · rcases (hroles p' u' r).mp hr with ⟨hold, -⟩ | ⟨hself, -⟩
      · obtain ⟨m, hm, hmkey⟩ := List.mem_map.mp (h.covered p' u' r hold)
        exact List.mem_map.mpr ⟨m, (hmem m).mpr (Or.inl ⟨hm, hmkey ▸ hkey⟩), hmkey⟩
      · exact absurd hself hkey
  · rw [hasUser_congr husers]
    rcases (hmem m).mp hm with ⟨hold, -⟩ | rfl
    · exact h.known m hold
    · obtain ⟨x, hx, hkey⟩ := List.mem_map.mp hmember
      injection hkey with hp hu
      exact hu ▸ h.known x hx
  · rw [hmem, hroles, hagree p' u', Member.mk.injEq, Prod.mk.injEq, eq_comm (a := "owner"),
      legacyRole_eq_owner, and_assoc]
    rfl

/-- A request on roles, members and invitations. -/
theorem agree_request {projectId : String} {userId : Option String} {request : Rbac.Request}
    (h : Base db) (hagree : RowsAgree db)
    (hstep : perform db projectId userId request = .ok t) : Base t ∧ RowsAgree t := by
  obtain ⟨⟨rbac, status⟩, hrbac, hstep⟩ := bind_ok.mp hstep
  injection hstep with hstep
  subst hstep
  have hsame {s : Tables} (hmembers : s.members = db.members) (husers : s.users = db.users)
      (hroles : s.rbac.memberRoles = db.rbac.memberRoles) : Base s ∧ RowsAgree s :=
    ⟨h.of_eq hmembers hroles husers, (rowsAgree_of_eq hmembers hroles).mpr hagree⟩
  cases request with
  | createCustomRole ulid body =>
    obtain ⟨caller, name, -, -, hdb⟩ := Rbac.createCustomRole_ok hrbac
    refine hsame rfl rfl ?_
    unfold Rbac.Db.createCustomRole at hdb
    split_ifs at hdb
    obtain ⟨perms, -, hdb⟩ := Option.bind_eq_some_iff.mp hdb
    obtain ⟨inh, -, hdb⟩ := Option.bind_eq_some_iff.mp hdb
    exact (Option.some.inj hdb) ▸ rfl
  | updateCustomRole roleId body =>
    obtain ⟨caller, name, -, -, -, hdb⟩ := Rbac.updateCustomRole_ok hrbac
    exact hsame rfl rfl (Rbac.rows_of_update hdb).members
  | deleteCustomRole roleId =>
    obtain ⟨caller, -, hreserved, -, hdb⟩ := Rbac.deleteCustomRole_ok hrbac
    have howner : roleId ≠ "owner" := by
      rintro rfl
      exact absurd hreserved (by decide)
    have hrows : rbac.memberRoles = db.rbac.memberRoles.filter fun row =>
        !(row.2.2 == roleId && row.1 == projectId) := by
      have hfirst : (db.rbac.deleteCustomRole projectId roleId).1 = rbac := congrArg Prod.fst hdb
      rw [← hfirst]
      rfl
    refine agree_of_filter h hagree (K := fun _ _ => True) rfl
      (fun m => (and_iff_left trivial).symm) (fun p u r hr => ⟨?_, trivial⟩) fun p u _ hr => ?_
    · exact (List.mem_filter.mp (hrows ▸ hr)).1
    · exact hrows ▸ List.mem_filter.mpr ⟨hr, by simp [Ne.symm howner]⟩
  | updateMemberRoles memberId roles =>
    obtain ⟨caller, -, -, hcase⟩ := Rbac.updateMemberRoles_ok hrbac
    rcases hcase with ⟨hinvite, -, rfl⟩ | ⟨hinvite, hmember, -, hdb⟩
    · refine hsame ?_ ?_ rfl <;> simp [writeMembers, hinvite]
    · obtain ⟨rows, hrows, hdb⟩ := Option.bind_eq_some_iff.mp hdb
      have hrows := insertAll_eq_some hrows
      obtain rfl := Option.some.inj hdb
      obtain ⟨role, hrole⟩ : ∃ role, (projectId, memberId, role) ∈ db.rbac.memberRoles := by
        simp only [Rbac.Db.isProjectMember, Bool.not_eq_true', List.isEmpty_eq_false_iff_exists_mem]
          at hmember
        obtain ⟨role, hrole⟩ := hmember
        exact ⟨role, Rbac.Db.mem_getMemberRoles.mp hrole⟩
      refine agree_of_setRole (p := projectId) (u := memberId) h hagree roles
        (h.covered _ _ _ hrole) ?_ ?_ fun p' u' r => ?_
      · simp [writeMembers, hinvite, Tables.setRole]
      · simp [writeMembers, hinvite]
      · simp only [hrows, List.mem_append, List.mem_filter, List.mem_map]
        refine or_congr (and_congr_right fun _ => by simp [imp_iff_not_or]) ⟨?_, ?_⟩
        · rintro ⟨a, ha, heq⟩
          injection heq with hp heq
          injection heq with hu hr
          exact ⟨by rw [hp, hu], hr ▸ ha⟩
        · rintro ⟨heq, hr⟩
          injection heq with hp hu
          exact ⟨r, hr, by rw [hp, hu]⟩
  | removeMember memberId =>
    obtain ⟨caller, -, -, hcase⟩ := Rbac.removeMember_ok hrbac
    rcases hcase with ⟨hinvite, rfl⟩ | ⟨hinvite, -, rfl⟩
    · refine hsame ?_ ?_ rfl <;> simp [writeMembers, hinvite]
    · refine agree_of_filter h hagree (K := fun p u => ¬p = projectId ∨ ¬u = memberId) ?_
        (fun m => ?_) (fun p u r hr => ?_) fun p u hkept hr => ?_
      · simp [writeMembers, hinvite, Tables.deleteMember]
      · simp [writeMembers, hinvite, Tables.deleteMember]
      · simpa [Rbac.Db.removeProjectMember] using hr
      · simpa [Rbac.Db.removeProjectMember] using And.intro hr hkept
  | createInvitation id token expiresAt body checks =>
    obtain ⟨caller, email, username, -, -, hdb⟩ := Rbac.createInvitation_ok hrbac
    obtain ⟨-, hdb⟩ := Option.ite_none_left_eq_some.mp hdb
    exact hsame rfl rfl ((Option.some.inj hdb) ▸ rfl)

/-- What the acceptance of an invitation writes. -/
structure Accepts (db t : Tables) (userId : String) (inv : Rbac.Invitation) : Prop where
  user : db.hasUser userId = true
  users : t.users = db.users
  members : t.members =
    (db.insertMemberOrIgnore ⟨inv.projectId, userId, "viewer"⟩).members
  memberRoles : ∀ row, row ∈ t.rbac.memberRoles ↔ row ∈ db.rbac.memberRoles ∨
    ∃ r ∈ inv.targetRoleIds, row = (inv.projectId, userId, r)

theorem insertMemberOrIgnore_users : (db.insertMemberOrIgnore m).users = db.users := by
  unfold Tables.insertMemberOrIgnore Tables.insertMember
  split <;> rfl

theorem accepts_of_ok {userId : Option String} {token : String} {now : ℕ}
    (h : acceptInvitation db userId token now = .ok t) :
    ∃ id inv, userId = some id ∧ taken db id token now = some inv ∧ Accepts db t id inv := by
  obtain ⟨-, h⟩ := refuseIf_bind.mp h
  split at h
  case h_1 => cases h
  case h_2 id hid =>
    split at h
    case h_1 => cases h
    case h_2 user huser =>
      split at h
      case h_1 => cases h
      case h_2 inv rbac hinv =>
        injection h with h
        subst h
        obtain ⟨x, hx, heq⟩ := Option.map_eq_some_iff.mp hinv
        injection heq with hxinv hrbac
        subst hxinv hrbac
        refine ⟨id, x, (Option.filter_eq_some_iff.mp hid).1, ?_, ?_, insertMemberOrIgnore_users,
          rfl, fun row => ?_⟩
        · rw [taken, huser, Option.bind_some, hx]
        · exact List.any_eq_true.mpr ⟨user, List.mem_of_find?_eq_some huser,
            by simpa using List.find?_some huser⟩
        · simp only [List.mem_append, List.mem_eraseDups, List.mem_filter, List.mem_map,
            eq_comm (b := row)]
          by_cases hold : row ∈ db.rbac.memberRoles <;> simp [hold]

/-- Who is no member yet becomes a viewer in the older table; the row of a member stays. -/
theorem agree_accept {userId : String} {inv : Rbac.Invitation} (h : Base db)
    (hagree : RowsAgree db) (haccepts : Accepts db t userId inv) :
    Base t ∧ (RowsAgree t ↔
      ("owner" ∈ inv.targetRoleIds → ⟨inv.projectId, userId, "owner"⟩ ∈ db.members)) := by
  obtain ⟨huser, husers, hmembers, hroles⟩ := haccepts
  by_cases hkey : (inv.projectId, userId) ∈ db.members.map Member.key
  · have hsame : t.members = db.members := by
      rw [hmembers]
      simp [Tables.insertMemberOrIgnore, Tables.insertMember, Member.key, hkey]
    refine ⟨⟨fun p u r hr => ?_, fun m hm => ?_⟩, ?_, ?_⟩
    · rw [hsame]
      rcases (hroles _).mp hr with hold | ⟨r', -, heq⟩
      · exact h.covered p u r hold
      · injection heq with hp heq
        injection heq with hu
        exact hp ▸ hu ▸ hkey
    · exact (hasUser_congr husers m.userId).trans (h.known m (hsame ▸ hm))
    · intro ht howner
      have hrow := (ht inv.projectId userId).mpr ((hroles _).mpr (Or.inr ⟨"owner", howner, rfl⟩))
      exact hsame ▸ hrow
    · intro hkept p u
      rw [hsame, hroles, hagree p u]
      refine ⟨Or.inl, fun hrow => hrow.elim id ?_⟩
      rintro ⟨r, hr, heq⟩
      injection heq with hp heq
      injection heq with hu howner
      rw [hp, hu, ← hagree]
      exact hkept (howner ▸ hr)
  · have hjoins : Joins db t inv.projectId userId "viewer" inv.targetRoleIds := by
      refine ⟨hkey, (hasUser_congr husers userId).trans huser,
        fun v hv => (hasUser_congr husers v).trans hv, ?_, hroles⟩
      rw [hmembers]
      simp [Tables.insertMemberOrIgnore, Tables.insertMember, Member.key, hkey]
    refine ⟨hjoins.base h, (hjoins.rowsAgree h hagree).trans ?_⟩
    have hnone : (⟨inv.projectId, userId, "owner"⟩ : Member) ∉ db.members := fun hmem =>
      hkey (List.mem_map_of_mem (f := Member.key) hmem)
    simp [hnone]

/-- One request keeps the tables in agreement exactly when it meets the condition. -/
theorem agree_step {hashUsername : String → String} {op : Op} (h : Base db)
    (hagree : RowsAgree db) (hstep : step hashUsername db op = some t) :
    Base t ∧ (RowsAgree t ↔ KeepsOwners db op) := by
  have howner {p u : String} (hjoins : Joins db t p u "owner" ["owner"]) :
      Base t ∧ (RowsAgree t ↔ True) :=
    ⟨hjoins.base h, (hjoins.rowsAgree h hagree).trans (by simp)⟩
  have hok {x : Except Rbac.Failure Tables} (hx : x.toOption = some t) : x = .ok t := by
    cases x with
    | error e => cases hx
    | ok a => rw [Option.some.inj hx]
  cases op with
  | createProject userId id =>
    obtain ⟨huser, hstep⟩ := Option.ite_none_right_eq_some.mp hstep
    exact howner (joins_of_insertProject hstep rfl rfl huser fun _ hv => hv)
  | getProjects userId projectId =>
    obtain ⟨huser, hstep⟩ := Option.ite_none_right_eq_some.mp hstep
    unfold Tables.getProjects at hstep
    split at hstep
    case isTrue =>
      obtain rfl := Option.some.inj hstep
      exact ⟨h, iff_of_true hagree trivial⟩
    case isFalse => exact howner (joins_of_insertProject hstep rfl rfl huser fun _ hv => hv)
  | createUser id projectId username email => exact howner (joins_of_insertAccount hstep)
  | createGithubUser id projectId username email => exact howner (joins_of_insertAccount hstep)
  | createGitlabUser id projectId username email => exact howner (joins_of_insertAccount hstep)
  | createGuestUser id projectId username => exact howner (joins_of_guest hstep)
  | createProjectMemberAccount projectId userId callerId body =>
    obtain ⟨first, hfirst, hjoins⟩ := joins_of_memberAccount (hok hstep)
    refine ⟨hjoins.base h, (hjoins.rowsAgree h hagree).trans ?_⟩
    simp only [KeepsOwners, List.mem_eraseDups, hfirst, Option.some.injEq]
    -- The first role of the list is one of its roles.
    exact ⟨Iff.mp, fun hkept => ⟨hkept, fun heq => heq ▸ List.mem_of_head? hfirst⟩⟩
  | request projectId userId request =>
    obtain ⟨hbase, ht⟩ := agree_request h hagree (hok hstep)
    exact ⟨hbase, iff_of_true ht trivial⟩
  | acceptInvitation userId token now =>
    obtain ⟨id, inv, rfl, htaken, haccepts⟩ := accepts_of_ok (hok hstep)
    obtain ⟨hbase, hiff⟩ := agree_accept h hagree haccepts
    refine ⟨hbase, hiff.trans ?_⟩
    simp [KeepsOwners, htaken]

/-- The two records of who owns a project, and who reads the older one. -/
structure OwnersAgree (db : Tables) : Prop where
  rows : RowsAgree db
  scan : ∀ p, (db.getProjectOwnerForScan p).isSome ↔ 0 < db.rbac.getProjectOwnersCount p
  cleanup : ∀ p u, p ∈ db.getProjectsOwnedByUser u ↔ (p, u, "owner") ∈ db.rbac.memberRoles
  cleanups : ∀ p users, p ∈ db.getProjectsOwnedByUsers users ↔
    ∃ u ∈ users, (p, u, "owner") ∈ db.rbac.memberRoles

theorem ownersCount_pos : 0 < db.rbac.getProjectOwnersCount p ↔
    ∃ u, (p, u, "owner") ∈ db.rbac.memberRoles := by
  rw [Rbac.Db.getProjectOwnersCount, List.length_pos_iff_exists_mem]
  simp

/-- A schedule finds an owner for its scan exactly when the older table has one. -/
theorem ownerForScan_isSome (h : Base db) : (db.getProjectOwnerForScan p).isSome ↔
    ∃ u, ⟨p, u, "owner"⟩ ∈ db.members := by
  have hsome (owners : List User) (q : User → Bool) :
      ((owners.find? q).or owners.head?).isSome ↔ ∃ o, o ∈ owners := by
    cases owners <;> simp
  simp only [Tables.getProjectOwnerForScan, Option.isSome_map]
  rw [hsome]
  simp only [List.mem_flatMap, List.mem_filter, Bool.and_eq_true, beq_iff_eq]
  constructor
  · rintro ⟨o, m, ⟨hm, hp, howner⟩, -⟩
    exact ⟨m.userId, hp ▸ howner ▸ hm⟩
  · rintro ⟨u, hm⟩
    obtain ⟨o, ho, hid⟩ := List.any_eq_true.mp (h.known _ hm)
    exact ⟨o, ⟨p, u, "owner"⟩, ⟨hm, rfl, rfl⟩, ho, by simpa using hid⟩

theorem mem_ownedByUser : p ∈ db.getProjectsOwnedByUser u ↔ ⟨p, u, "owner"⟩ ∈ db.members := by
  simp only [Tables.getProjectsOwnedByUser, List.mem_map, List.mem_filter, Bool.and_eq_true,
    beq_iff_eq]
  constructor
  · rintro ⟨m, ⟨hm, rfl, howner⟩, rfl⟩
    exact howner ▸ hm
  · exact fun hm => ⟨_, ⟨hm, rfl, rfl⟩, rfl⟩

theorem mem_ownedByUsers {users : List String} : p ∈ db.getProjectsOwnedByUsers users ↔
    ∃ u ∈ users, ⟨p, u, "owner"⟩ ∈ db.members := by
  simp only [Tables.getProjectsOwnedByUsers, List.mem_map, List.mem_filter, Bool.and_eq_true,
    beq_iff_eq, List.contains_eq_mem, decide_eq_true_eq]
  constructor
  · rintro ⟨m, ⟨hm, howner, hu⟩, rfl⟩
    exact ⟨m.userId, hu, howner ▸ hm⟩
  · rintro ⟨u, hu, hm⟩
    exact ⟨_, ⟨hm, rfl, hu⟩, rfl⟩

theorem ownersAgree_of_rows (h : Base db) (hrows : RowsAgree db) : OwnersAgree db := by
  refine ⟨hrows, fun p => ?_, fun p u => ?_, fun p users => ?_⟩
  · rw [ownersCount_pos, ownerForScan_isSome h]
    exact exists_congr fun u => hrows p u
  · rw [mem_ownedByUser, hrows p u]
  · rw [mem_ownedByUsers]
    exact exists_congr fun u => and_congr_right fun _ => hrows p u

theorem owners_agree (hashUsername : String → String) :
    (∀ db, ReachesUnder (step hashUsername) KeepsOwners emptyTables db → OwnersAgree db) ∧
    ∀ db op t, ReachesUnder (step hashUsername) KeepsOwners emptyTables db →
      step hashUsername db op = some t → ¬KeepsOwners db op → ¬OwnersAgree t := by
  have hinv {db : Tables} (hreach : ReachesUnder (step hashUsername) KeepsOwners emptyTables db) :
      Base db ∧ RowsAgree db := by
    refine hreach.invariant (I := fun db => Base db ∧ RowsAgree db) ?_ ?_
    · exact ⟨⟨fun _ _ _ hr => (List.not_mem_nil hr).elim, fun _ hm => (List.not_mem_nil hm).elim⟩,
        fun _ _ => iff_of_false List.not_mem_nil List.not_mem_nil⟩
    · intro db op t ⟨hbase, hagree⟩ hkeeps hstep
      obtain ⟨hbase, hiff⟩ := agree_step hbase hagree hstep
      exact ⟨hbase, hiff.mpr hkeeps⟩
  refine ⟨fun db hreach => ownersAgree_of_rows (hinv hreach).1 (hinv hreach).2, ?_⟩
  intro db op t hreach hstep hnot hagree
  obtain ⟨hbase, hrows⟩ := hinv hreach
  exact hnot ((agree_step hbase hrows hstep).2.mp hagree.rows)

instance (db : Tables) : ∀ op : Op, Decidable (KeepsOwners db op)
  | .createProjectMemberAccount _ _ _ body =>
    inferInstanceAs (Decidable ("owner" ∈ body.roles → body.roles.head? = some "owner"))
  | .acceptInvitation userId token now =>
    inferInstanceAs (Decidable (∀ id ∈ userId, ∀ inv ∈ taken db id token now,
      "owner" ∈ inv.targetRoleIds → ⟨inv.projectId, id, "owner"⟩ ∈ db.members))
  | .createProject .. | .getProjects .. | .createUser .. | .createGithubUser ..
  | .createGitlabUser .. | .createGuestUser .. | .request .. => .isTrue trivial

def inviteBob (roles : List String) : Rbac.Request :=
  .createInvitation "i1" "t1" 100 ⟨none, some "bob", roles⟩ ⟨false, none, fun _ => true, false⟩

/-- Alice adds a service account that owns the project with her, and makes Bob one more owner. -/
def sharedProject : List Op :=
  [.createUser "alice" "p1" "alice" none, .createUser "bob" "p2" "bob" none,
    .createProjectMemberAccount "p1" "robot" (some "alice")
      ⟨some "robot", none, ["owner", "viewer"]⟩,
    .request "p1" (some "alice") (inviteBob ["viewer"]), .acceptInvitation (some "bob") "t1" 50,
    .request "p1" (some "alice") (.updateMemberRoles "bob" ["owner"])]

/-- Bob accepts to be an owner, and Alice leaves him the project. -/
def inheritedProject : List Op :=
  [.createUser "alice" "p1" "alice" none, .createUser "bob" "p2" "bob" none,
    .request "p1" (some "alice") (inviteBob ["owner"]), .acceptInvitation (some "bob") "t1" 50,
    .request "p1" (some "bob") (.removeMember "alice")]

theorem owners_agree_shared : ∃ db, ReachesUnder (step id) KeepsOwners emptyTables db ∧
    ("p1", "robot", "owner") ∈ db.rbac.memberRoles ∧ ("p1", "bob", "owner") ∈ db.rbac.memberRoles ∧
    "p1" ∈ db.getProjectsOwnedByUser "bob" := by
  obtain ⟨db, hreach, htest⟩ := StepSystem.reachesUnder_of_test (step id) KeepsOwners emptyTables
    sharedProject (fun db => db.rbac.memberRoles.contains ("p1", "robot", "owner") &&
      db.rbac.memberRoles.contains ("p1", "bob", "owner")) (by decide)
  simp only [Bool.and_eq_true, List.contains_eq_mem, decide_eq_true_eq] at htest
  have hagree := (owners_agree id).1 db hreach
  exact ⟨db, hreach, htest.1, htest.2, (hagree.cleanup "p1" "bob").mpr htest.2⟩

/-- No scan of the project starts by its schedule any more, though it has an owner. -/
theorem owners_agree_fails : ∃ db, StepSystem.Reaches (step id) emptyTables db ∧
    ("p1", "bob", "owner") ∈ db.rbac.memberRoles ∧ ⟨"p1", "bob", "owner"⟩ ∉ db.members ∧
    db.rbac.getProjectOwnersCount "p1" = 1 ∧ db.getProjectOwnerForScan "p1" = none := by
  obtain ⟨db, hreach, htest⟩ := StepSystem.reachesUnder_of_test (step id) (fun _ _ => True)
    emptyTables inheritedProject (fun db =>
      db.rbac.memberRoles.contains ("p1", "bob", "owner") &&
      !db.members.contains ⟨"p1", "bob", "owner"⟩ &&
      db.rbac.getProjectOwnersCount "p1" == 1 && (db.getProjectOwnerForScan "p1").isNone)
    (by decide)
  simp only [Bool.and_eq_true, Bool.not_eq_true', List.contains_eq_mem, decide_eq_true_eq,
    decide_eq_false_iff_not, beq_iff_eq, Option.isNone_iff_eq_none] at htest
  exact ⟨db, hreach, htest.1.1.1, htest.1.1.2, htest.1.2, htest.2⟩

end Swazz.LegacyRoles
