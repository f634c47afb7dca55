import Mathlib.Data.Set.Basic
import Swazz.AccountCleanup
import Swazz.LegacyOwners

/-! What the clean-ups of accounts delete, while users go on. -/
namespace Swazz.AccountCleanup

open AtomicCalls
open AtomicCalls.Calls (Knows Uses knows_bind knows_of_uses)
open LegacyRoles (Tables User Member insertMember_spec insertMemberRoles_spec insertProject_spec
  hasUser_of_insertUser)
open ScanDeletion (uses_purgeScanChildren)
open StepSystem (Reaches ReachesUnder)

/-- The deletion is still requested and its time is over, or the user is an expired guest. -/
def Due (db : Db) (userId : String) : Prop :=
  db.deletionDue userId = true ∨ db.isExpiredGuest userId = true

/-- All users that own the project are among these. -/
def OwnersAmong (db : Tables) (projectId : String) (userIds : List String) : Prop :=
  ∀ v, db.hasUser v = true → (projectId, v, "owner") ∈ db.rbac.memberRoles → v ∈ userIds

/-- What a batch deletes is due in the database it runs in. -/
def OnlyDue (db : Db) (userIds projectIds : List String) : Prop :=
  (∀ u ∈ userIds, db.hasUser u = true → Due db u) ∧
    ∀ p ∈ projectIds, p ∈ db.projects → OwnersAmong db.toTables p userIds

def DeletesDue (db : Db) : Op → Prop
  | .deleteGuestUserData userId projectIds => OnlyDue db [userId] projectIds
  | .deleteUsersData userIds projectIds => OnlyDue db userIds projectIds
  | _ => True

/-- The call reads projects whose owners are all among the users it asks for. -/
def ReadsOwned (db : Db) : Op → Prop
  | .getProjectsOwnedByUser userId =>
    ∀ p ∈ db.getProjectsOwnedByUser userId, p ∈ db.projects → OwnersAmong db.toTables p [userId]
  | .getProjectsOwnedByUsers userIds =>
    ∀ p ∈ db.getProjectsOwnedByUsers userIds, p ∈ db.projects →
      OwnersAmong db.toTables p userIds
  | _ => True

/-- A write makes the user an owner of the project. -/
def Write.GivesOwner (projectId userId : String) : Write → Prop
  | .createProject user id => projectId = id ∧ userId = user
  | .createUser id project .. => projectId = project ∧ userId = id
  | .createGuestUser id project _ => projectId = project ∧ userId = id
  | .createProjectMemberAccount project user roles =>
    projectId = project ∧ userId = user.id ∧ "owner" ∈ roles
  | .updateMemberRoles project user roles =>
    projectId = project ∧ userId = user ∧ "owner" ∈ roles
  | .removeProjectMember .. => False
  | .acceptInvitation project user roles =>
    projectId = project ∧ userId = user ∧ "owner" ∈ roles

/-- Nobody whom a clean-up has read cancels or renews a request, nobody else becomes an owner of
a project that it has read, and it reads no project that somebody else owns too. -/
def Undisturbed (w : Pool Answer Store Cleanup Unit) : Move Cleanup Event → Prop
  | .world (.scheduleUserDeletion userId) | .world (.cancelUserDeletion userId) =>
    w.store.db.hasUser userId = true → userId ∉ w.store.listed
  | .world (.write x) => ∀ c ∈ w.store.claimed,
    c.1 ∈ w.store.db.projects ∨ x.newProject = some c.1 → ∀ v, x.GivesOwner c.1 v → v ∈ c.2
  | .next i _ => ∀ c ∈ System.nextCall w i, ReadsOwned w.store.db c.2
  | _ => True

/-- What the clean-ups have read stays true. -/
structure Inv (s : Store) : Prop where
  due : ∀ u ∈ s.listed, s.db.hasUser u = true → Due s.db u
  owners : ∀ c ∈ s.claimed, c.1 ∈ s.db.projects → OwnersAmong s.db.toTables c.1 c.2
  issued : ∀ u, s.db.hasUser u = true → u ∈ s.issued
  listed : ∀ u ∈ s.listed, u ∈ s.issued

/-- The users that were read, and the projects with the users they were read for. -/
def know (s : Store) : Set String × Set (String × List String) :=
  ({u | u ∈ s.listed}, {c | c ∈ s.claimed})

/-- A batch deletes what was read. -/
def Allowed : Op → Set String × Set (String × List String) → Prop
  | .deleteGuestUserData userId projectIds, k =>
    userId ∈ k.1 ∧ ∀ p ∈ projectIds, (p, [userId]) ∈ k.2
  | .deleteUsersData userIds projectIds, k =>
    (∀ u ∈ userIds, u ∈ k.1) ∧ ∀ p ∈ projectIds, (p, userIds) ∈ k.2
  | _, _ => True

def Learns (_ : ℕ) : (op : Op) → Answer op → Set String × Set (String × List String) → Prop
  | .getExpiredGuestUsers, users, k => ∀ x ∈ users, x.1 ∈ k.1
  | .getExpiredScheduledDeletions, users, k => ∀ x ∈ users, x.1 ∈ k.1
  | .getProjectsOwnedByUser userId, projectIds, k => ∀ p ∈ projectIds, (p, [userId]) ∈ k.2
  | .getProjectsOwnedByUsers userIds, projectIds, k => ∀ p ∈ projectIds, (p, userIds) ∈ k.2
  | _, _, _ => True

variable {s t : Store} {db db' : Db} {k k' : Set String × Set (String × List String)}

theorem allowed_mono (op : Op) (k k' : Set String × Set (String × List String)) (hle : k ≤ k')
    (h : Allowed op k) : Allowed op k' := by
  cases op with
  | deleteGuestUserData userId projectIds => exact ⟨hle.1 h.1, fun p hp => hle.2 (h.2 p hp)⟩
  | deleteUsersData userIds projectIds =>
    exact ⟨fun u hu => hle.1 (h.1 u hu), fun p hp => hle.2 (h.2 p hp)⟩
  | _ => exact trivial

/-- Neither reads accounts nor deletes them. -/
def Quiet : Op → Prop
  | .deleteGuestUserData .. => False
  | .deleteUsersData .. => False
  | _ => True

theorem allowed_of_quiet (op : Op) (k : Set String × Set (String × List String)) (h : Quiet op) :
    Allowed op k := by
  cases op with
  | deleteGuestUserData | deleteUsersData => exact h.elim
  | _ => exact trivial

/-- After calls that neither read nor delete, all that was known still is. -/
theorem knows_quiet_bind {α β : Type} {Post : β → Set String × Set (String × List String) → Prop}
    {i : ℕ} {p : Calls Answer α} {f : α → Calls Answer β} (hp : Uses Quiet p)
    (hf : ∀ a k', k ≤ k' → Knows Allowed (Learns i) Post (f a) k') :
    Knows Allowed (Learns i) Post (p.bind f) k :=
  knows_bind ((knows_of_uses allowed_of_quiet hp k).imp fun a k' _ hle => hf a k' hle)

theorem knows_call_bind {β : Type} {Post : β → Set String × Set (String × List String) → Prop}
    {i : ℕ} {op : Op} {f : Answer op → Calls Answer β} (hop : Allowed op k)
    (hf : ∀ a k', k ≤ k' → Learns i op a k' → Knows Allowed (Learns i) Post (f a) k') :
    Knows Allowed (Learns i) Post ((perform op).bind f) k :=
  ⟨hop, hf⟩

theorem knows_deleteGuestUserData {i : ℕ} {userId : String} {projectIds : List String}
    (hallowed : Allowed (.deleteGuestUserData userId projectIds) k) :
    Knows Allowed (Learns i) (fun _ k' => k ≤ k') (deleteGuestUserData userId projectIds) k := by
  refine knows_quiet_bind (uses_purgeScanChildren fun _ => ⟨trivial, fun _ => trivial⟩) ?_
  intro _ k' hle
  exact ⟨allowed_mono _ _ _ hle hallowed, fun _ k'' hle' _ => hle.trans hle'⟩

theorem knows_cleanGuests {i : ℕ} {guests : List (String × String)}
    (hguests : ∀ x ∈ guests, x.1 ∈ k.1) :
    Knows Allowed (Learns i) (fun _ _ => True) (cleanGuests guests) k := by
  induction guests generalizing k with
  | nil => exact trivial
  | cons guest guests ih =>
    obtain ⟨userId, username⟩ := guest
    refine knows_call_bind trivial fun projectIds k' hle hlearns => ?_
    have hallowed : Allowed (.deleteGuestUserData userId projectIds) k' :=
      ⟨hle.1 (hguests _ (List.mem_cons_self ..)), hlearns⟩
    refine knows_bind ((knows_deleteGuestUserData hallowed).imp fun _ k'' _ hle' => ?_)
    exact ih fun x hx => hle'.1 (hle.1 (hguests x (List.mem_cons_of_mem _ hx)))

theorem uses_forEach (call : String → Op) (hcall : ∀ x, Quiet (call x)) (xs : List String) :
    Uses Quiet (forEach call xs) := by
  induction xs with
  | nil => exact trivial
  | cons x xs ih => exact ⟨hcall x, fun _ => ih⟩

theorem knows_deleteOwned {i : ℕ} {userIds projectIds : List String}
    (hallowed : Allowed (.deleteUsersData userIds projectIds) k) :
    Knows Allowed (Learns i) (fun _ _ => True) (deleteOwned userIds projectIds) k := by
  refine knows_call_bind trivial fun reportUrls k₁ hle₁ _ => ?_
  refine knows_quiet_bind (uses_forEach .deleteReport (fun _ => trivial) reportUrls)
    fun _ k₂ hle₂ => ?_
  refine knows_quiet_bind (Calls.uses_parAll ?_) fun _ k₃ hle₃ => ?_
  · intro p hp
    obtain ⟨userId, -, rfl⟩ := List.mem_map.mp hp
    exact ⟨trivial, fun _ => trivial⟩
  refine knows_call_bind trivial fun apiKeys k₄ hle₄ _ => ?_
  have hlater : k ≤ k₄ := ((hle₁.trans hle₂).trans hle₃).trans hle₄
  have hkeys (k₅ : Set String × Set (String × List String)) : Knows Allowed (Learns i)
      (fun _ _ => True) (forEach .deleteCachedKey apiKeys) k₅ :=
    (knows_of_uses allowed_of_quiet (uses_forEach .deleteCachedKey (fun _ => trivial) apiKeys)
      k₅).imp fun _ _ _ _ => trivial
  unfold deleteUsersData
  split
  · exact hkeys k₄
  · apply knows_bind
    refine knows_quiet_bind (uses_purgeScanChildren fun _ => ⟨trivial, fun _ => trivial⟩) ?_
    intro _ k₅ hle₅
    exact ⟨allowed_mono _ _ _ (hlater.trans hle₅) hallowed, fun _ k₆ _ _ => hkeys k₆⟩

/-- A clean-up deletes what it has read. -/
theorem knows_run (i : ℕ) (r : Cleanup) (k : Set String × Set (String × List String)) :
    Knows Allowed (Learns i) (fun _ _ => True) (run r) k := by
  cases r with
  | expiredGuests =>
    exact knows_call_bind trivial fun _ _ _ _ => knows_call_bind trivial
      fun guests k' _ hlearns => knows_cleanGuests hlearns
  | scheduledDeletions =>
    refine knows_call_bind trivial fun users k' _ hlearns => ?_
    dsimp only
    split
    · exact trivial
    · refine knows_call_bind trivial fun projectIds k'' hle howned =>
        knows_deleteOwned ⟨fun u hu => ?_, howned⟩
      obtain ⟨x, hx, rfl⟩ := List.mem_map.mp hu
      exact hle.1 (hlearns x hx)

theorem due_of_read {limited : List User} (hsub : limited ⊆ db.users)
    (hdue : ∀ u ∈ limited, Due db u.id) {x : String × String} (hx : x ∈ Db.named limited) :
    db.hasUser x.1 = true ∧ Due db x.1 := by
  obtain ⟨u, hu, rfl⟩ := List.mem_map.mp hx
  exact ⟨List.any_eq_true.mpr ⟨u, hsub hu, beq_self_eq_true _⟩, hdue u hu⟩

/-- The users that a clean-up reads are due when it reads them. -/
theorem inv_list (h : Inv s) {users : List (String × String)}
    (husers : ∀ x ∈ users, s.db.hasUser x.1 = true ∧ Due s.db x.1) :
    Inv (s.list users).2 ∧ know s ≤ know (s.list users).2 ∧
      ∀ x ∈ users, x.1 ∈ (know (s.list users).2).1 := by
  have hmember {u : String} (hu : u ∈ s.listed ++ users.map Prod.fst) :
      u ∈ s.listed ∨ ∃ x ∈ users, x.1 = u := (List.mem_append.mp hu).imp_right List.mem_map.mp
  refine ⟨⟨fun u hu huser => ?_, h.owners, h.issued, fun u hu => ?_⟩,
    ⟨fun u hu => List.mem_append_left _ hu, fun c hc => hc⟩, fun x hx =>
      List.mem_append_right _ (List.mem_map_of_mem hx)⟩
  · rcases hmember hu with hold | ⟨x, hx, rfl⟩
    · exact h.due u hold huser
    · exact (husers x hx).2
  · rcases hmember hu with hold | ⟨x, hx, rfl⟩
    · exact h.listed u hold
    · exact h.issued x.1 (husers x hx).1

theorem inv_claim (h : Inv s) {projectIds userIds : List String}
    (howners : ∀ p ∈ projectIds, p ∈ s.db.projects → OwnersAmong s.db.toTables p userIds) :
    Inv (s.claim projectIds userIds).2 ∧ know s ≤ know (s.claim projectIds userIds).2 ∧
      ∀ p ∈ projectIds, (p, userIds) ∈ (know (s.claim projectIds userIds).2).2 := by
  refine ⟨⟨h.due, fun c hc hproject => ?_, h.issued, h.listed⟩,
    ⟨fun u hu => hu, fun c hc => List.mem_append_left _ hc⟩, fun p hp =>
      List.mem_append_right _ (List.mem_map_of_mem hp)⟩
  rcases List.mem_append.mp hc with hold | hnew
  · exact h.owners c hold hproject
  · obtain ⟨p, hp, rfl⟩ := List.mem_map.mp hnew
    exact howners p hp hproject

/-- Accounts and projects are deleted. -/
theorem inv_delete (h : Inv s) (w : ScanDeletion.Where) (userIds projectIds : List String) :
    Inv { s with db := (s.db.deleteScansWhere w).deleteAccounts userIds projectIds } := by
  have huser {u : String} (hu : (s.db.users.filter fun x => !userIds.contains x.id).any
      (fun x => x.id == u) = true) : s.db.hasUser u = true ∧ u ∉ userIds := by
    obtain ⟨x, hx, hid⟩ := List.any_eq_true.mp hu
    obtain ⟨hmem, hkept⟩ := List.mem_filter.mp hx
    have hxu : x.id = u := by simpa using hid
    exact ⟨List.any_eq_true.mpr ⟨x, hmem, hid⟩, by simpa [hxu] using hkept⟩
  refine ⟨fun u hu hleft => ?_, fun c hc hproject v hv hrow => ?_, fun u hu => ?_, h.listed⟩
  · obtain ⟨hold, hkept⟩ := huser hleft
    refine (h.due u hu hold).imp id fun hguest => ?_
    simp only [Db.isExpiredGuest, Rbac.Db.isGuestUser, Bool.and_eq_true, List.contains_eq_mem,
      decide_eq_true_eq] at hguest ⊢
    exact ⟨List.mem_filter.mpr ⟨hguest.1, by simpa using hkept⟩, hguest.2⟩
  · exact h.owners c hc (List.mem_filter.mp hproject).1 v (huser hv).1 hrow
  · exact h.issued u (huser hu).1

theorem inv_exec {i : ℕ} {op : Op} (h : Inv s) (hreads : ReadsOwned s.db op) :
    Inv (s.exec op).2 ∧ know s ≤ know (s.exec op).2 ∧
      Learns i op (s.exec op).1 (know (s.exec op).2) := by
  cases op with
  | getExpiredGuestUsers =>
    refine inv_list h fun x hx => due_of_read ?_ (fun u hu => Or.inr ?_) hx
    · exact fun u hu => (List.mem_filter.mp (List.mem_of_mem_take hu)).1
    · exact (List.mem_filter.mp (List.mem_of_mem_take hu)).2
  | getExpiredScheduledDeletions =>
    refine inv_list h fun x hx => due_of_read ?_ (fun u hu => Or.inl ?_) hx
    · exact fun u hu => (List.mem_filter.mp hu).1
    · exact (List.mem_filter.mp hu).2
  | getProjectsOwnedByUser userId => exact inv_claim h hreads
  | getProjectsOwnedByUsers userIds => exact inv_claim h hreads
  | deleteGuestUserData userId projectIds => exact ⟨inv_delete h _ _ _, le_refl _, trivial⟩
  | deleteUsersData userIds projectIds => exact ⟨inv_delete h _ _ _, le_refl _, trivial⟩
  | purgeChunk table w =>
    exact ⟨⟨h.due, h.owners, h.issued, h.listed⟩, le_refl _, trivial⟩
  | _ => exact ⟨h, le_refl _, trivial⟩

/-- What a write adds: owners, a user and a project without rows, and perhaps a guest. -/
structure Adds (db t : Tables) (issued : List String) (w : Write) : Prop where
  owners : ∀ p v, (p, v, "owner") ∈ t.rbac.memberRoles →
    (p, v, "owner") ∈ db.rbac.memberRoles ∨ w.GivesOwner p v
  users : ∀ v, t.hasUser v = true → db.hasUser v = true ∨ w.newUser = some v
  newUser : ∀ v, w.newUser = some v → v ∉ issued ∧ ∀ p r, (p, v, r) ∉ db.rbac.memberRoles
  projects : ∀ p ∈ t.projects, p ∈ db.projects ∨
    w.newProject = some p ∧ ∀ v r, (p, v, r) ∉ db.rbac.memberRoles
  guests : ∀ v, db.rbac.isGuestUser v = true → t.rbac.isGuestUser v = true

section

variable {t r : Tables} {tables : Tables} {issued : List String} {p u : String}

theorem isNewUser_spec (h : isNewUser tables issued u = true) :
    u ∉ issued ∧ ∀ p r, (p, u, r) ∉ tables.rbac.memberRoles := by
  simp only [isNewUser, Bool.and_eq_true, Bool.not_eq_true', List.contains_eq_mem,
    decide_eq_false_iff_not, List.all_eq_true, bne_iff_ne, ne_eq] at h
  exact ⟨h.1, fun p r hrow => h.2 _ hrow rfl⟩

theorem isNewProject_spec (h : isNewProject tables p = true) (v role : String) :
    (p, v, role) ∉ tables.rbac.memberRoles := by
  simp only [isNewProject, List.all_eq_true, bne_iff_ne, ne_eq] at h
  exact fun hrow => h _ hrow rfl

theorem projects_of_insertMember {m : Member} (h : tables.insertMember m = some t) :
    t.projects = tables.projects := by
  unfold Tables.insertMember at h
  split at h
  case isTrue => cases h
  case isFalse =>
    injection h with h
    exact h ▸ rfl

theorem projects_of_insertMemberRoles {roles : List String}
    (h : tables.insertMemberRoles p u roles = some t) :
    t.projects = tables.projects ∧ t.rbac.guests = tables.rbac.guests := by
  obtain ⟨rows, -, h⟩ := Option.bind_eq_some_iff.mp h
  injection h with h
  exact h ▸ ⟨rfl, rfl⟩

theorem projects_of_insertProject (h : tables.insertProject p u = some t) :
    t.projects = tables.projects ++ [p] ∧ t.rbac.guests = tables.rbac.guests := by
  obtain ⟨-, h⟩ := Option.ite_none_left_eq_some.mp h
  obtain ⟨s, hs, h⟩ := Option.bind_eq_some_iff.mp h
  obtain ⟨hprojects, hguests⟩ := projects_of_insertMemberRoles h
  obtain ⟨-, -, hrbac, -⟩ := insertMember_spec hs
  exact ⟨hprojects.trans (projects_of_insertMember hs), by rw [hguests, hrbac]⟩

/-- A project is made for a user whom `s` has and `tables` has or the write makes. -/
theorem adds_of_insertProject {s : Tables} {w : Write} (h : s.insertProject p u = some t)
    (hproject : w.newProject = some p) (hgives : w.GivesOwner p u)
    (hfresh : isNewProject tables p = true) (hprojects : s.projects = tables.projects)
    (hroles : s.rbac.memberRoles = tables.rbac.memberRoles)
    (husers : ∀ v, s.hasUser v = true → tables.hasUser v = true ∨ w.newUser = some v)
    (hnew : ∀ v, w.newUser = some v →
      v ∉ issued ∧ ∀ p r, (p, v, r) ∉ tables.rbac.memberRoles)
    (hguests : ∀ v, tables.rbac.isGuestUser v = true → s.rbac.isGuestUser v = true) :
    Adds tables t issued w := by
  obtain ⟨-, -, htusers, htroles⟩ := insertProject_spec h
  obtain ⟨htprojects, htguests⟩ := projects_of_insertProject h
  refine ⟨fun p' v hrow => ?_, fun v hv => husers v ?_, hnew, fun p' hp => ?_, fun v hv => ?_⟩
  · rw [htroles, hroles] at hrow
    refine (List.mem_append.mp hrow).imp_right fun hown => ?_
    obtain ⟨rfl, rfl⟩ : p' = p ∧ v = u := by simpa using hown
    exact hgives
  · rwa [← LegacyRoles.hasUser_congr htusers]
  · rw [htprojects, hprojects] at hp
    refine (List.mem_append.mp hp).imp_right fun hown => ?_
    rw [List.mem_singleton.mp hown]
    exact ⟨hproject, isNewProject_spec hfresh⟩
  · rw [Rbac.Db.isGuestUser, htguests]
    exact hguests v hv

theorem insertUser_spec {user : User} (h : tables.insertUser user = some t) :
    (∀ v, t.hasUser v = true → tables.hasUser v = true ∨ user.id = v) ∧
      t.projects = tables.projects ∧ t.rbac = tables.rbac := by
  obtain ⟨-, h⟩ := Option.ite_none_left_eq_some.mp h
  injection h with h
  subst h
  refine ⟨fun v hv => ?_, rfl, rfl⟩
  simpa [Tables.hasUser] using hv

theorem insertMemberOrIgnore_keeps (tables : Tables) (m : Member) :
    (tables.insertMemberOrIgnore m).users = tables.users ∧
      (tables.insertMemberOrIgnore m).projects = tables.projects ∧
      (tables.insertMemberOrIgnore m).rbac = tables.rbac := by
  unfold Tables.insertMemberOrIgnore Tables.insertMember
  split <;> exact ⟨rfl, rfl, rfl⟩

/-- A write that makes no user and no project adds the owners it is asked to add. -/
theorem adds_of_rows {w : Write} (hnewUser : w.newUser = none) (husers : t.users = tables.users)
    (hprojects : t.projects = tables.projects) (hguests : t.rbac.guests = tables.rbac.guests)
    (howners : ∀ p v, (p, v, "owner") ∈ t.rbac.memberRoles →
      (p, v, "owner") ∈ tables.rbac.memberRoles ∨ w.GivesOwner p v) :
    Adds tables t issued w := by
  refine ⟨howners, fun v hv => Or.inl ?_, fun v hv => ?_, fun p hp => Or.inl (hprojects ▸ hp),
    fun v hv => ?_⟩
  · rwa [← LegacyRoles.hasUser_congr husers]
  · rw [hnewUser] at hv
    cases hv
  · rwa [Rbac.Db.isGuestUser, hguests]

theorem adds_of_account {w : Write} {user : User} {usernameHash : String}
    (h : tables.insertAccount user usernameHash p = some t) (hfresh : isNewProject tables p = true)
    (huser : isNewUser tables issued user.id = true) (hnewUser : w.newUser = some user.id)
    (hproject : w.newProject = some p) (hgives : w.GivesOwner p user.id) :
    Adds tables t issued w := by
  obtain ⟨s, hregister, h⟩ := Option.bind_eq_some_iff.mp h
  obtain ⟨r, hr, hlast⟩ := Option.bind_eq_some_iff.mp h
  obtain ⟨-, hregister⟩ := Option.ite_none_left_eq_some.mp hregister
  injection hregister with hs
  subst hs
  obtain ⟨husers, hprojects, hrbac⟩ := insertUser_spec hr
  refine adds_of_insertProject hlast hproject hgives hfresh hprojects (by rw [hrbac])
    (fun v hv => (husers v hv).imp_right fun (hid : user.id = v) => hid ▸ hnewUser) (fun v hv => ?_)
    fun v hv => by rwa [hrbac]
  obtain rfl : user.id = v := Option.some.inj (hnewUser.symm.trans hv)
  exact isNewUser_spec huser

theorem adds_of_write {w : Write} (h : write tables issued w = some t) :
    Adds tables t issued w := by
  cases w with
  | createProject userId id =>
    obtain ⟨hfresh, h⟩ := Option.ite_none_right_eq_some.mp h
    exact adds_of_insertProject h rfl ⟨rfl, rfl⟩ hfresh rfl rfl (fun v hv => Or.inl hv) nofun
      fun v hv => hv
  | createUser id projectId username usernameHash email =>
    obtain ⟨hfresh, h⟩ := Option.ite_none_right_eq_some.mp h
    obtain ⟨huser, hproject⟩ := Bool.and_eq_true_iff.mp hfresh
    exact adds_of_account h hproject huser rfl rfl ⟨rfl, rfl⟩
  | createGuestUser id projectId username =>
    obtain ⟨hfresh, h⟩ := Option.ite_none_right_eq_some.mp h
    obtain ⟨huser, hproject⟩ := Bool.and_eq_true_iff.mp hfresh
    obtain ⟨r, hr, hlast⟩ := Option.bind_eq_some_iff.mp h
    obtain ⟨husers, hprojects, hrbac⟩ := insertUser_spec hr
    dsimp only at hlast
    refine adds_of_insertProject hlast rfl ⟨rfl, rfl⟩ hproject hprojects (by rw [← hrbac])
      (fun v hv => (husers v hv).imp_right fun hid => congrArg some hid) (fun v hv => ?_)
      fun v hv => ?_
    · obtain rfl := Option.some.inj hv
      exact isNewUser_spec huser
    · simp only [Rbac.Db.isGuestUser, hrbac, List.contains_eq_mem, List.mem_append,
        decide_eq_true_eq] at hv ⊢
      exact Or.inl hv
  | createProjectMemberAccount projectId user roles =>
    obtain ⟨huser, h⟩ := Option.ite_none_right_eq_some.mp h
    obtain ⟨r, hr, h⟩ := Option.bind_eq_some_iff.mp h
    obtain ⟨q, hq, hlast⟩ := Option.bind_eq_some_iff.mp h
    obtain ⟨husers, hprojects, hrbac⟩ := insertUser_spec hr
    obtain ⟨-, -, hqrbac, hqusers⟩ := insertMember_spec hq
    obtain ⟨-, htusers, htroles⟩ := insertMemberRoles_spec hlast
    obtain ⟨htprojects, htguests⟩ := projects_of_insertMemberRoles hlast
    refine ⟨fun p v hrow => ?_, fun v hv => ?_, fun v hv => ?_, fun p hp => Or.inl ?_,
      fun v hv => ?_⟩
    · rw [htroles, hqrbac, hrbac] at hrow
      refine (List.mem_append.mp hrow).imp_right fun hnew => ?_
      obtain ⟨role, hrole, heq⟩ := List.mem_map.mp hnew
      injection heq with hp heq
      injection heq with hv howner
      exact ⟨hp.symm, hv.symm, howner ▸ hrole⟩
    · rw [LegacyRoles.hasUser_congr htusers, LegacyRoles.hasUser_congr hqusers] at hv
      exact (husers v hv).imp_right fun hid => congrArg some hid
    · obtain rfl := Option.some.inj hv
      exact isNewUser_spec huser
    · rwa [htprojects, projects_of_insertMember hq, hprojects] at hp
    · rwa [Rbac.Db.isGuestUser, htguests, hqrbac, hrbac]
  | updateMemberRoles projectId userId roles =>
    obtain ⟨rbac, hrbac, h⟩ := Option.bind_eq_some_iff.mp h
    obtain ⟨rows, hrows, hdb⟩ := Option.bind_eq_some_iff.mp hrbac
    have hrows := Rbac.insertAll_eq_some hrows
    obtain rfl := Option.some.inj hdb
    obtain rfl := Option.some.inj h
    refine adds_of_rows rfl rfl rfl rfl fun p v hrow => ?_
    rw [hrows] at hrow
    rcases List.mem_append.mp hrow with hold | hnew
    · exact Or.inl (List.mem_filter.mp hold).1
    · obtain ⟨role, hrole, heq⟩ := List.mem_map.mp hnew
      injection heq with hp heq
      injection heq with hv howner
      exact Or.inr ⟨hp.symm, hv.symm, howner ▸ hrole⟩
  | removeProjectMember projectId userId =>
    obtain rfl := Option.some.inj h
    exact adds_of_rows rfl rfl rfl rfl fun p v hrow => Or.inl (List.mem_filter.mp hrow).1
  | acceptInvitation projectId userId roles =>
    obtain rfl := Option.some.inj h
    obtain ⟨husers, hprojects, hrbac⟩ :=
      insertMemberOrIgnore_keeps tables ⟨projectId, userId, "viewer"⟩
    refine adds_of_rows rfl husers hprojects (by rw [← hrbac]; rfl) fun p v hrow => ?_
    simp only [acceptRows, hrbac] at hrow
    rcases List.mem_append.mp hrow with hold | hnew
    · exact Or.inl hold
    · obtain ⟨role, hrole, heq⟩ :=
        List.mem_map.mp (List.mem_filter.mp (List.mem_eraseDups.mp hnew)).1
      injection heq with hp heq
      injection heq with hv howner
      exact Or.inr ⟨hp.symm, hv.symm, howner ▸ hrole⟩

end

theorem Due.later {u : String} {seconds : ℕ} (h : Due db u) :
    Due { db with now := db.now + seconds } u := by
  refine h.imp (fun hdue => ?_) fun hguest => ?_
  · simp only [Db.deletionDue, Option.any_eq_true, decide_eq_true_eq] at hdue ⊢
    obtain ⟨t, ht, hlt⟩ := hdue
    exact ⟨t, ht, by omega⟩
  · simp only [Db.isExpiredGuest, Bool.and_eq_true, Option.any_eq_true, decide_eq_true_eq]
      at hguest ⊢
    obtain ⟨hmember, t, ht, hlt⟩ := hguest
    exact ⟨hmember, t, ht, by omega⟩

/-- A request of a user that no clean-up has read changes nothing that was read. -/
theorem inv_setDeleteRequestedAt (h : Inv s) {userId : String} {t : Option ℕ}
    (hnot : s.db.hasUser userId = true → userId ∉ s.listed) :
    Inv { s with db := s.db.setDeleteRequestedAt userId t } := by
  unfold Db.setDeleteRequestedAt
  split
  case isFalse => exact h
  case isTrue huser =>
    refine ⟨fun u hu hold => ?_, h.owners, h.issued, h.listed⟩
    have hne : u ≠ userId := fun heq => hnot huser (heq ▸ hu)
    refine (h.due u hu hold).imp (fun hdue => ?_) id
    simpa [Db.deletionDue, Function.update_of_ne hne] using hdue

theorem due_newColumns {w : Write} {tables : Tables} {u : String} (h : Due db u)
    (hold : w.newUser ≠ some u)
    (hguests : db.rbac.isGuestUser u = true → tables.rbac.isGuestUser u = true) :
    Due { newColumns db w with toTables := tables } u := by
  have hcolumns : (newColumns db w).deleteRequestedAt u = db.deleteRequestedAt u ∧
      (newColumns db w).expiresAt u = db.expiresAt u ∧ (newColumns db w).now = db.now := by
    unfold newColumns
    split
    case h_1 => exact ⟨rfl, rfl, rfl⟩
    case h_2 id hid =>
      have hne : u ≠ id := fun heq => hold (heq ▸ hid)
      exact ⟨Function.update_of_ne hne .., Function.update_of_ne hne .., rfl⟩
  obtain ⟨hrequested, hexpires, hnow⟩ := hcolumns
  refine h.imp (fun hdue => ?_) fun hguest => ?_
  · simpa only [Db.deletionDue, hrequested, hnow] using hdue
  · simp only [Db.isExpiredGuest, Bool.and_eq_true] at hguest ⊢
    exact ⟨hguests hguest.1, by simpa only [hexpires, hnow] using hguest.2⟩

theorem inv_write (h : Inv s) {w : Write} {tables : Tables}
    (hwrite : write s.db.toTables s.issued w = some tables)
    (hguard : ∀ c ∈ s.claimed, c.1 ∈ s.db.projects ∨ w.newProject = some c.1 →
      ∀ v, w.GivesOwner c.1 v → v ∈ c.2) :
    Inv { s with
      db := { newColumns s.db w with toTables := tables }
      issued := s.issued ++ w.newUser.toList } := by
  have hadds := adds_of_write hwrite
  refine ⟨fun u hu hleft => ?_, fun c hc hproject v hv hrow => ?_, fun u hu => ?_, fun u hu =>
    List.mem_append_left _ (h.listed u hu)⟩
  · have hold : w.newUser ≠ some u := fun hnew => (hadds.newUser u hnew).1 (h.listed u hu)
    have huser := (hadds.users u hleft).resolve_right hold
    exact due_newColumns (h.due u hu huser) hold (hadds.guests u)
  · rcases hadds.owners c.1 v hrow with hrow | hgives
    · -- Neither the owner nor the project is new: new ones have no rows.
      have huser := (hadds.users v hv).resolve_right fun hnew => (hadds.newUser v hnew).2 _ _ hrow
      have hold := (hadds.projects c.1 hproject).resolve_right fun hnew => hnew.2 _ _ hrow
      exact h.owners c hc hold v huser hrow
    · exact hguard c hc ((hadds.projects c.1 hproject).imp_right And.left) v hgives
  · rcases hadds.users u hu with hold | hnew
    · exact List.mem_append_left _ (h.issued u hold)
    · exact List.mem_append_right _ (by simp [hnew])

theorem inv_happen {w : Pool Answer Store Cleanup Unit} (e : Event) (h : Inv w.store)
    (hguard : Undisturbed w (.world e)) :
    Inv (happen w.store e) ∧ know w.store ≤ know (happen w.store e) := by
  cases e with
  | elapse seconds =>
    exact ⟨⟨fun u hu huser => (h.due u hu huser).later, h.owners, h.issued, h.listed⟩, le_refl _⟩
  | scheduleUserDeletion userId => exact ⟨inv_setDeleteRequestedAt h hguard, le_refl _⟩
  | cancelUserDeletion userId => exact ⟨inv_setDeleteRequestedAt h hguard, le_refl _⟩
  | write x =>
    simp only [happen]
    cases hwrite : write w.store.db.toTables w.store.issued x with
    | none => exact ⟨h, le_refl _⟩
    | some tables => exact ⟨inv_write h hwrite hguard, le_refl _⟩

/-- Every clean-up that is about to delete deletes what is due now. -/
def AllDue (w : Pool Answer Store Cleanup Unit) : Prop :=
  ∀ i, ∀ c ∈ System.nextCall w i, DeletesDue w.store.db c.2

theorem deletesDue_of_allowed {op : Op} (h : Inv s) (hallowed : Allowed op (know s)) :
    DeletesDue s.db op := by
  cases op with
  | deleteGuestUserData userId projectIds =>
    refine ⟨fun u hu huser => ?_, fun p hp hproject => h.owners _ (hallowed.2 p hp) hproject⟩
    exact h.due u (List.mem_singleton.mp hu ▸ hallowed.1) huser
  | deleteUsersData userIds projectIds =>
    exact ⟨fun u hu huser => h.due u (hallowed.1 u hu) huser,
      fun p hp hproject => h.owners _ (hallowed.2 p hp) hproject⟩
  | _ => exact trivial

theorem cleanups_delete_due (db : Db) {w : Pool Answer Store Cleanup Unit}
    (h : ReachesUnder cleanups.step Undisturbed ⟨start db, []⟩ w) : AllDue w := by
  have hinformed : System.Informed Inv know Allowed Learns (fun _ _ _ _ => True) w := by
    refine h.invariant (I := System.Informed Inv know Allowed Learns fun _ _ _ _ => True) ?_ ?_
    · refine ⟨⟨nofun, nofun, fun u hu => ?_, nofun⟩, fun i r p hi => by simp at hi⟩
      obtain ⟨x, hx, hid⟩ := List.any_eq_true.mp hu
      exact List.mem_map.mpr ⟨x, hx, by simpa using hid⟩
    · intro w m w' hw hguard hstep
      apply System.informed_step_under allowed_mono (fun _ _ _ _ _ _ _ => trivial) ?_ ?_
        (fun i r k => knows_run i r k) ?_ hw hstep
      · exact fun _ _ op => ReadsOwned w.store.db op
      · rintro i r op s hreads rfl hinv -
        exact inv_exec hinv hreads
      · rintro e rfl hinv
        exact inv_happen e hinv hguard
      · rintro i left rfl
        exact hguard
  intro i c hc
  unfold System.nextCall at hc
  split at hc
  case h_1 r op next hi =>
    obtain rfl := Option.some.inj hc
    exact deletesDue_of_allowed hinformed.inv (hinformed.knows i r _ hi).1
  case h_2 => cases hc

instance (db : Tables) (projectId : String) (userIds : List String) :
    Decidable (OwnersAmong db projectId userIds) :=
  decidable_of_iff (∀ row ∈ db.rbac.memberRoles, row.1 = projectId → row.2.2 = "owner" →
      db.hasUser row.2.1 = true → row.2.1 ∈ userIds)
    ⟨fun h _ hv hrow => h _ hrow rfl rfl hv, fun h row hrow hp howner hv =>
      h row.2.1 hv (hp ▸ howner ▸ hrow)⟩

instance (db : Db) : ∀ op : Op, Decidable (ReadsOwned db op)
  | .getProjectsOwnedByUser userId => inferInstanceAs (Decidable (∀ p ∈
      db.getProjectsOwnedByUser userId, p ∈ db.projects → OwnersAmong db.toTables p [userId]))
  | .getProjectsOwnedByUsers userIds => inferInstanceAs (Decidable (∀ p ∈
      db.getProjectsOwnedByUsers userIds, p ∈ db.projects → OwnersAmong db.toTables p userIds))
  | .cleanupSecurityTables | .getExpiredGuestUsers | .getExpiredScheduledDeletions
  | .getScanReportUrls .. | .deleteReport _ | .revokeUser _ | .getUserApiKeys _
  | .purgeChunk .. | .deleteGuestUserData .. | .deleteUsersData .. | .deleteCachedKey _ =>
    .isTrue trivial

/-- The clean-ups run with nobody about. -/
def Quietly (w : Pool Answer Store Cleanup Unit) : Move Cleanup Event → Prop
  | .next i _ => ∀ c ∈ System.nextCall w i, ReadsOwned w.store.db c.2
  | .start _ => True
  | .world _ => False

instance (w : Pool Answer Store Cleanup Unit) : ∀ m, Decidable (Quietly w m)
  | .next i _ => inferInstanceAs (Decidable (∀ c ∈ System.nextCall w i, ReadsOwned w.store.db c.2))
  | .start _ => .isTrue trivial
  | .world _ => .isFalse id

/-- Alice asked to be deleted more than a week ago; she and Bob own a project. -/
def sharedProject : Db where
  rbac := {
    customRoles := [], rolePermissions := [], roleInheritance := [],
    memberRoles := [("p", "alice", "owner"), ("p", "bob", "owner")],
    invitations := [], guests := [], role_id_unique := List.nodup_nil }
  projects := ["p"]
  users := [⟨"alice", "alice", none, false, none, none⟩, ⟨"bob", "bob", none, false, none, none⟩]
  usernameRegistry := []
  members := [⟨"p", "alice", "owner"⟩, ⟨"p", "bob", "owner"⟩]
  member_unique := by decide
  deleteRequestedAt userId := if userId = "alice" then some 0 else none
  expiresAt _ := none
  apiKeys _ := none
  scans := [⟨"s", some "alice", some "p", none⟩]
  children _ := ["s"]
  now := 1000000

/-- Bob has left the project. -/
def ownProject : Db :=
  { sharedProject with
    rbac := { sharedProject.rbac with memberRoles := [("p", "alice", "owner")] }
    members := [⟨"p", "alice", "owner"⟩]
    member_unique := by decide }

theorem cleanups_delete_due_alone : ∃ w userIds projectIds,
    ReachesUnder cleanups.step Undisturbed ⟨start ownProject, []⟩ w ∧
    System.nextCall w 0 = some (.scheduledDeletions, .deleteUsersData userIds projectIds) ∧
    "alice" ∈ userIds ∧ "p" ∈ projectIds ∧ OnlyDue w.store.db userIds projectIds := by
  obtain ⟨w, hreach, htest⟩ := StepSystem.reachesUnder_of_test cleanups.step Quietly
    ⟨start ownProject, []⟩ (.start .scheduledDeletions :: List.replicate 8 (.next 0 true))
    (fun w => decide (System.nextCall w 0 =
      some (.scheduledDeletions, .deleteUsersData ["alice"] ["p"]))) (by decide)
  have hnext := of_decide_eq_true htest
  have hundisturbed : ReachesUnder cleanups.step Undisturbed ⟨start ownProject, []⟩ w := by
    refine hreach.mono fun w m hm => ?_
    cases m with
    | next i left => exact hm
    | start r => trivial
    | world e => exact hm.elim
  have hdue := cleanups_delete_due ownProject hundisturbed 0 _ hnext
  exact ⟨w, ["alice"], ["p"], hundisturbed, hnext, by simp, by simp, hdue⟩

/-- Alice cancels while her runners are being told. -/
def cancelledTooLate : List (Move Cleanup Event) :=
  [.start .scheduledDeletions, .next 0 true, .next 0 true, .next 0 true,
    .world (.cancelUserDeletion "alice"), .next 0 true, .next 0 true, .next 0 true, .next 0 true,
    .next 0 true]

theorem cleanups_delete_due_fails : ∃ w, Reaches cleanups.step ⟨start sharedProject, []⟩ w ∧
    w.store.db.deleteRequestedAt "alice" = none ∧ w.store.db.isExpiredGuest "alice" = false ∧
    w.store.db.hasUser "alice" = true ∧ w.store.db.hasUser "bob" = true ∧
    ("p", "bob", "owner") ∈ w.store.db.rbac.memberRoles ∧ "p" ∈ w.store.db.projects ∧
    ∃ w', cleanups.step w (.next 0 true) = some w' ∧ w'.store.db.hasUser "alice" = false ∧
      w'.store.db.hasUser "bob" = true ∧ "p" ∉ w'.store.db.projects := by
  obtain ⟨w, hreach, htest⟩ := StepSystem.reachesUnder_of_test cleanups.step (fun _ _ => True)
    ⟨start sharedProject, []⟩ cancelledTooLate (fun w =>
      (w.store.db.deleteRequestedAt "alice").isNone && !w.store.db.isExpiredGuest "alice" &&
      w.store.db.hasUser "alice" && w.store.db.hasUser "bob" &&
      w.store.db.rbac.memberRoles.contains ("p", "bob", "owner") &&
      w.store.db.projects.contains "p" &&
      (cleanups.step w (.next 0 true)).any fun w' =>
        !w'.store.db.hasUser "alice" && w'.store.db.hasUser "bob" &&
          !w'.store.db.projects.contains "p") (by decide)
  simp only [Bool.and_eq_true, Bool.not_eq_true', List.contains_eq_mem, decide_eq_true_eq,
    decide_eq_false_iff_not, Option.isNone_iff_eq_none, Option.any_eq_true] at htest
  obtain ⟨⟨⟨⟨⟨⟨hcancelled, hguest⟩, halice⟩, hbob⟩, howner⟩, hproject⟩, w', hstep, hafter⟩ := htest
  exact ⟨w, hreach, hcancelled, hguest, halice, hbob, howner, hproject, w', hstep,
    hafter.1.1, hafter.1.2, hafter.2⟩

end Swazz.AccountCleanup
