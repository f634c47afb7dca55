import Mathlib.Data.Set.Basic
import Swazz.ProjectDeletion
import Swazz.RbacRevocation

/-! Access to a deleted project, and of a deleted user: there is none exactly if there was
nothing to take away before. -/
namespace Swazz.ProjectDeletion

open AtomicCalls
open Rbac (isBuiltInRole defaultPermissions)
open RbacCalls (Backend rbacCacheKey rbacCacheKey_inj RbacRepository.permissionsForRoleIds
  RbacRepository.loadPermissions RbacRepository.cachedPermissions
  RbacRepository.cachePermissions RbacRepository.getEffectivePermissions
  RbacService.dropMember RbacService.dropRole)
open StepSystem (Reaches ReachesUnder)

/-- The deletion is of the project or of the user. -/
def Deletion.Touches (d : Deletion) (userId projectId : String) : Prop :=
  projectId ∈ d.projects ∨ userId ∈ d.users

/-- What a read of permissions answers that runs alone. -/
def permissions (sessionCache : Bool) (s : Store) (isolate : ℕ) (userId projectId : String) :
    List String :=
  (Calls.eval (fun op s => s.exec op)
    (getEffectivePermissions sessionCache isolate userId projectId) s).1

structure NoAccess (sessionCache : Bool) (d : Deletion) (s : Store) : Prop where
  project : ∀ projectId ∈ d.projects, ∀ isolate userId,
    permissions sessionCache s isolate userId projectId = []
  user : ∀ userId ∈ d.users, ∀ isolate projectId,
    permissions sessionCache s isolate userId projectId = []
  invitation : ∀ i ∈ s.db.rbac.invitations, i.projectId ∈ d.projects →
    ∀ token username email emailVerified,
      Rbac.Db.acceptable token username email emailVerified (s.now / 1000) i = false

/-- No role row of the project or the user leads to a permission, the cache holds none for
them, and no invitation to the project is pending. -/
structure NothingLeft (sessionCache : Bool) (d : Deletion) (s : Store) : Prop where
  roles : ∀ userId projectId role p, d.Touches userId projectId →
    isValidId projectId = true → isValidId userId = true →
    (projectId, userId, role) ∈ s.db.rbac.memberRoles →
    ¬s.db.rbac.Grants projectId Rbac.Db.MAX_DEPTH role p
  cached : sessionCache = true → ∀ userId projectId permissions expiry,
    d.Touches userId projectId → isValidId projectId = true → isValidId userId = true →
    s.kv (rbacCacheKey projectId userId) = some (permissions, expiry) → s.now < expiry →
    permissions = []
  invited : ∀ i ∈ s.db.rbac.invitations, i.projectId ∈ d.projects → i.status = .pending →
    i.expiresAt ≤ s.now / 1000

/-- The rows give no more than before, and no more invitations are pending. -/
structure Fewer (db db' : Rbac.Db) : Prop where
  members : ∀ row ∈ db'.memberRoles, row ∈ db.memberRoles
  includes : ∀ q a b, db'.Includes q a b → db.Includes q a b
  carries : ∀ q a p, db'.Carries q a p → db.Carries q a p
  invitations : ∀ i ∈ db'.invitations, i.status = .pending → i ∈ db.invitations

namespace Fewer

theorem refl (db : Rbac.Db) : Fewer db db :=
  ⟨fun _ h => h, fun _ _ _ h => h, fun _ _ _ h => h, fun _ h _ => h⟩

theorem grants {db db' : Rbac.Db} (h : Fewer db db') {projectId role p : String} {depth : ℕ}
    (hp : db'.Grants projectId depth role p) : db.Grants projectId depth role p := by
  obtain ⟨x, hpath, hx⟩ := hp
  exact ⟨x, hpath.mono fun a b hab => h.includes projectId a b hab, h.carries projectId x p hx⟩

end Fewer

theorem fewer_deleteCustomRole (db : Rbac.Db) (projectId roleId : String) :
    Fewer db (db.deleteCustomRole projectId roleId).1 := by
  have hrole (q a : String) (h : (db.deleteCustomRole projectId roleId).1.hasRole q a = true) :
      db.hasRole q a = true := by
    obtain ⟨r, hr, hid⟩ := Rbac.Db.hasRole_iff.mp h
    exact Rbac.Db.hasRole_iff.mpr ⟨r, (List.mem_filter.mp hr).1, hid⟩
  refine ⟨fun row h => (List.mem_filter.mp h).1, ?_, ?_, fun i hi _ => hi⟩
  · intro q a b h
    exact ⟨(List.mem_filter.mp h.1).1, hrole q a h.2⟩
  · intro q a p h
    exact h.imp_right fun ⟨hcustom, hhas, hrow⟩ =>
      ⟨hcustom, hrole q a hhas, (List.mem_filter.mp hrow).1⟩

theorem pending_of_rewritten {db : Rbac.Db} {test : Rbac.Invitation → Bool}
    {status : Rbac.InvitationStatus} (hstatus : status ≠ .pending) :
    Fewer db { db with
      invitations := db.invitations.map fun i =>
        if test i then { i with status := status } else i } := by
  refine ⟨fun _ h => h, fun _ _ _ h => h, fun _ _ _ h => h, fun i hi hpending => ?_⟩
  obtain ⟨old, hold, rfl⟩ := List.mem_map.mp hi
  split at hpending
  · exact absurd hpending hstatus
  · rename_i htest
    rwa [if_neg htest]

/-- The calls on roles that give nobody anything, but for what is put into the cache. -/
def Takes : RbacCalls.Op → Prop
  | .createCustomRole .. | .updateCustomRole .. | .updateMemberRoles .. => False
  | .insertMemberRoles .. | .updateInvitationRoles .. | .kvPut .. => False
  | .acceptInvitation .. => False
  | _ => True

theorem fewer_of_takes {b : Backend} {op : RbacCalls.Op} (h : Takes op) :
    Fewer b.db (b.exec op).2.db ∧
      (∀ key entry, (b.exec op).2.kv key = some entry → b.kv key = some entry) ∧
      (b.exec op).2.now = b.now := by
  cases op with
  | createCustomRole | updateCustomRole | updateMemberRoles => exact False.elim h
  | insertMemberRoles | updateInvitationRoles | kvPut | acceptInvitation => exact False.elim h
  | removeProjectMember projectId userId =>
    refine ⟨?_, fun _ _ hkv => hkv, rfl⟩
    exact ⟨fun row hrow => (List.mem_filter.mp hrow).1, fun _ _ _ h => h, fun _ _ _ h => h,
      fun _ hi _ => hi⟩
  | deleteCustomRole projectId roleId =>
    exact ⟨fewer_deleteCustomRole b.db projectId roleId, fun _ _ hkv => hkv, rfl⟩
  | revokeInvitation id =>
    have hrevoked : Rbac.InvitationStatus.revoked ≠ .pending := nofun
    exact ⟨pending_of_rewritten hrevoked, fun _ _ hkv => hkv, rfl⟩
  | kvDelete key =>
    refine ⟨Fewer.refl b.db, fun key' entry hkv => ?_, rfl⟩
    change Function.update b.kv key none key' = some entry at hkv
    by_cases hkey : key' = key
    · rw [hkey, Function.update_self] at hkv
      cases hkv
    · rwa [Function.update_of_ne hkey] at hkv
  | negativeHit isolate key =>
    have hsame : (b.exec (.negativeHit isolate key)).2.db = b.db ∧
        (b.exec (.negativeHit isolate key)).2.kv = b.kv ∧
        (b.exec (.negativeHit isolate key)).2.now = b.now := by
      simp only [Backend.exec]
      split
      · split <;> exact ⟨rfl, rfl, rfl⟩
      · exact ⟨rfl, rfl, rfl⟩
    obtain ⟨hdb, hkv, hnow⟩ := hsame
    rw [hdb, hkv]
    exact ⟨Fewer.refl b.db, fun _ _ h => h, hnow⟩
  | _ => exact ⟨Fewer.refl b.db, fun _ _ h => h, rfl⟩

theorem fewer_of_account (s : Store) (op : AccountCleanup.Op) :
    Fewer s.db.rbac (s.exec (.account op)).2.db.rbac := by
  have hsame : (s.exec (.account op)).2.db.rbac = { s.db.rbac with
      guests := (s.exec (.account op)).2.db.rbac.guests } := by
    cases op <;> rfl
  rw [hsame]
  exact ⟨fun _ h => h, fun _ _ _ h => h, fun _ _ _ h => h, fun _ h _ => h⟩

/-- The roles of a project that carry nothing. -/
def barren (s : Store) : Set (String × String) :=
  {x | ∀ p, ¬s.db.rbac.Carries x.1 x.2 p}

section

variable {sessionCache : Bool} {d : Deletion}

theorem NothingLeft.fewer {s : Store} (hs : NothingLeft sessionCache d s) (s' : Store)
    (hrbac : Fewer s.db.rbac s'.db.rbac)
    (hkv : ∀ key entry, s'.kv key = some entry → s.kv key = some entry)
    (hnow : s.now ≤ s'.now) : NothingLeft sessionCache d s' ∧ barren s ≤ barren s' := by
  refine ⟨⟨?_, ?_, ?_⟩, ?_⟩
  · intro userId projectId role p htouch hp hu hrow hgrants
    exact hs.roles userId projectId role p htouch hp hu (hrbac.members _ hrow)
      (hrbac.grants hgrants)
  · intro hcache userId projectId permissions expiry htouch hp hu hentry hlive
    exact hs.cached hcache userId projectId permissions expiry htouch hp hu
      (hkv _ _ hentry) (by omega)
  · intro i hi hproject hpending
    have hold := hs.invited i (hrbac.invitations i hi hpending) hproject hpending
    exact hold.trans (Nat.div_le_div_right hnow)
  · intro x hx p hcarries
    exact hx p (hrbac.carries x.1 x.2 p hcarries)

/-- Nothing but emptiness is put into the cache for whom the deletion is of. -/
def Allowed (d : Deletion) : Op → Set (String × String) → Prop
  | .rbac (.kvPut key permissions), _ => ∀ userId projectId, d.Touches userId projectId →
      isValidId projectId = true → isValidId userId = true →
      key = rbacCacheKey projectId userId → permissions = []
  | .rbac op, _ => Takes op
  | _, _ => True

/-- The roles of those whom the deletion is of are barren, and so is what was cached. -/
def Learns (sessionCache : Bool) (d : Deletion) :
    (op : Op) → Answer op → Set (String × String) → Prop
  | .rbac (.memberRoleHierarchy projectId userId), roleIds, k => d.Touches userId projectId →
      isValidId projectId = true → isValidId userId = true →
      ∀ r ∈ roleIds, defaultPermissions r = [] ∧ (projectId, r) ∈ k
  | .rbac (.customRolePermissions projectId roleIds), keys, k =>
      (∀ r ∈ roleIds, isBuiltInRole r = false ∧ (projectId, r) ∈ k) → keys = []
  | .rbac (.kvGet key), cached, _ => sessionCache = true → ∀ userId projectId,
      d.Touches userId projectId → isValidId projectId = true → isValidId userId = true →
      key = rbacCacheKey projectId userId → ∀ permissions, cached = some permissions →
      permissions = []
  | _, _, _ => True

/-- What a request answers: a read of whom the deletion is of, nothing. -/
def Post (d : Deletion) : Request → Option (List String) → Set (String × String) → Prop
  | .getEffectivePermissions _ userId projectId, answer, _ =>
      d.Touches userId projectId → answer = some []
  | _, _, _ => True

theorem barren_of_nothingLeft {s : Store} (hs : NothingLeft sessionCache d s)
    {userId projectId r : String} (htouch : d.Touches userId projectId)
    (hp : isValidId projectId = true) (hu : isValidId userId = true)
    (hr : r ∈ s.db.rbac.roleHierarchy projectId Rbac.Db.MAX_DEPTH
      (s.db.rbac.getMemberRoles projectId userId)) (p : String) :
    ¬s.db.rbac.Carries projectId r p := by
  intro hcarries
  obtain ⟨role, hrole, hpath⟩ := Rbac.Db.mem_roleHierarchy.mp hr
  exact hs.roles userId projectId role p htouch hp hu (Rbac.Db.mem_getMemberRoles.mp hrole)
    ⟨r, hpath, hcarries⟩

/-- What a read finds in the cache is there and its time is not over. -/
theorem kvGet_eq_some {b : Backend} {key : String} {permissions : List String}
    (h : b.kvGet key = some permissions) :
    ∃ expiry, b.kv key = some (permissions, expiry) ∧ b.now < expiry := by
  obtain ⟨⟨found, expiry⟩, hentry, hlive⟩ := Option.bind_eq_some_iff.mp h
  obtain ⟨hnow, hfound⟩ := Option.ite_none_right_eq_some.mp hlive
  obtain rfl := Option.some.inj hfound
  exact ⟨expiry, hentry, hnow⟩

theorem inv_kvPut {s : Store} {key : String} {permissions : List String}
    (hs : NothingLeft sessionCache d s)
    (hallowed : Allowed d (.rbac (.kvPut key permissions)) (barren s)) :
    NothingLeft sessionCache d (s.exec (.rbac (.kvPut key permissions))).2 := by
  refine ⟨hs.roles, ?_, hs.invited⟩
  intro hcache userId projectId found expiry htouch hp hu hentry hlive
  by_cases hkey : rbacCacheKey projectId userId = key
  · have hput : Function.update s.kv key
        (some (permissions, s.now + RbacCalls.KV_TTL_MS)) (rbacCacheKey projectId userId) =
        some (found, expiry) := hentry
    rw [hkey, Function.update_self] at hput
    obtain ⟨rfl, -⟩ := Prod.mk.inj (Option.some.inj hput)
    exact hallowed userId projectId htouch hp hu hkey.symm
  · have hold : Function.update s.kv key
        (some (permissions, s.now + RbacCalls.KV_TTL_MS)) (rbacCacheKey projectId userId) =
        some (found, expiry) := hentry
    rw [Function.update_of_ne hkey] at hold
    exact hs.cached hcache userId projectId found expiry htouch hp hu hold hlive

theorem inv_exec {op : Op} {s : Store} (hs : NothingLeft sessionCache d s)
    (hallowed : Allowed d op (barren s)) :
    NothingLeft sessionCache d (s.exec op).2 ∧ barren s ≤ barren (s.exec op).2 ∧
      Learns sessionCache d op (s.exec op).1 (barren (s.exec op).2) := by
  cases op with
  | account op =>
    have hkeep := hs.fewer _ (fewer_of_account s op) (fun _ _ h => h) (Nat.le_refl _)
    exact ⟨hkeep.1, hkeep.2, trivial⟩
  | deleteProject projectId =>
    have hkeep := hs.fewer (s.exec (.deleteProject projectId)).2
      ⟨fun _ h => h, fun _ _ _ h => h, fun _ _ _ h => h, fun _ h _ => h⟩ (fun _ _ h => h)
      (Nat.le_refl _)
    exact ⟨hkeep.1, hkeep.2, trivial⟩
  | declineInvitation token username email emailVerified =>
    have hrevoked : Rbac.InvitationStatus.revoked ≠ .pending := nofun
    have hkeep := hs.fewer (s.exec (.declineInvitation token username email
      emailVerified)).2 (pending_of_rewritten hrevoked) (fun _ _ h => h) (Nat.le_refl _)
    exact ⟨hkeep.1, hkeep.2, trivial⟩
  | rbac op =>
    by_cases htakes : Takes op
    · obtain ⟨hfewer, hkv, hnow⟩ := fewer_of_takes (b := s.backend) htakes
      have hkeep := hs.fewer (s.exec (.rbac op)).2 hfewer hkv (Nat.le_of_eq hnow.symm)
      refine ⟨hkeep.1, hkeep.2, ?_⟩
      cases op with
      | memberRoleHierarchy projectId userId =>
        intro htouch hp hu r hr
        have hbarren := barren_of_nothingLeft hs htouch hp hu (List.mem_eraseDups.mp hr)
        refine ⟨List.eq_nil_iff_forall_not_mem.mpr fun p hp => ?_, hkeep.2 hbarren⟩
        exact hbarren p (Or.inl hp)
      | customRolePermissions projectId roleIds =>
        intro hroles
        refine List.eq_nil_iff_forall_not_mem.mpr fun p hp => ?_
        obtain ⟨⟨role, p'⟩, hrow, rfl⟩ := List.mem_map.mp hp
        obtain ⟨hmem, hasked⟩ := List.mem_filter.mp hrow
        obtain ⟨hrole, hhas⟩ := Bool.and_eq_true_iff.mp hasked
        obtain ⟨hcustom, hbarren⟩ := hroles role (List.contains_iff_mem.mp hrole)
        exact hbarren p' (Or.inr ⟨hcustom, hhas, hmem⟩)
      | kvGet key =>
        intro hcache userId projectId htouch hp hu hkey permissions hanswer
        obtain ⟨expiry, hentry, hlive⟩ := kvGet_eq_some hanswer
        rw [hkey] at hentry
        exact hs.cached hcache userId projectId permissions expiry htouch hp hu hentry hlive
      | _ => trivial
    · cases op with
      | kvPut key permissions =>
        exact ⟨inv_kvPut hs hallowed, fun x hx => hx, trivial⟩
      | _ => exact absurd hallowed htakes

section programs

variable {env : RbacCalls.Env} {userId projectId : String}

/-- A read of whom the deletion is of comes to nothing. -/
abbrev ReadsNothing (sessionCache : Bool) (d : Deletion) (userId projectId : String)
    (p : Calls RbacCalls.Answer (List String)) (k : Set (String × String)) : Prop :=
  Calls.Knows (fun op k => Allowed d (.rbac op) k)
    (fun op a k => Learns sessionCache d (.rbac op) a k)
    (fun a _ => d.Touches userId projectId → a = []) p k

theorem knows_cachePermissions {k : Set (String × String)} {permsArray : List String}
    (hp : isValidId projectId = true) (h : d.Touches userId projectId → permsArray = []) :
    ReadsNothing sessionCache d userId projectId
      (RbacRepository.cachePermissions env (rbacCacheKey projectId userId) permsArray) k := by
  unfold RbacRepository.cachePermissions
  refine ⟨trivial, fun _ k' _ _ => ?_⟩
  cases env.SESSION_CACHE with
  | false => exact h
  | true =>
    refine ⟨fun u q htouch hq _ hkey => ?_, fun _ _ _ _ => h⟩
    obtain ⟨rfl, rfl⟩ := rbacCacheKey_inj hp hq hkey
    exact h htouch

theorem knows_loadPermissions {k : Set (String × String)} (hp : isValidId projectId = true)
    (hu : isValidId userId = true) : ReadsNothing sessionCache d userId projectId
      (RbacRepository.loadPermissions env userId projectId) k := by
  unfold RbacRepository.loadPermissions
  refine ⟨trivial, fun roleIds k' _ hroles => ?_⟩
  have hdefault (htouch : d.Touches userId projectId) :
      roleIds.flatMap defaultPermissions = [] := by
    refine List.flatMap_eq_nil_iff.mpr fun r hr => ?_
    exact (hroles htouch hp hu r hr).1
  change Calls.Knows _ _ _ (if _ then _ else _) _
  split_ifs
  · exact ⟨trivial, fun _ _ _ _ _ => rfl⟩
  · unfold RbacRepository.permissionsForRoleIds
    simp only
    split_ifs
    · refine knows_cachePermissions hp fun htouch => ?_
      rw [hdefault htouch]
      rfl
    · refine ⟨trivial, fun keys k'' hle hkeys => ?_⟩
      refine knows_cachePermissions hp fun htouch => ?_
      have hnone : keys = [] := by
        refine hkeys fun r hr => ?_
        obtain ⟨hrole, hcustom⟩ := List.mem_filter.mp hr
        exact ⟨by simpa using hcustom, hle (hroles htouch hp hu r hrole).2⟩
      rw [hdefault htouch, hnone]
      rfl

theorem knows_read {k : Set (String × String)} (hcache : env.SESSION_CACHE = sessionCache) :
    ReadsNothing sessionCache d userId projectId
      (RbacRepository.getEffectivePermissions env userId projectId) k := by
  unfold RbacRepository.getEffectivePermissions
  split_ifs with hvalid
  · obtain ⟨hp, hu⟩ := Bool.and_eq_true_iff.mp hvalid
    refine ⟨trivial, fun hit k' _ _ => ?_⟩
    cases hit with
    | true => exact fun _ => rfl
    | false =>
      unfold RbacRepository.cachedPermissions
      change Calls.Knows _ _ _ (if _ then _ else _) _
      split_ifs with henv
      · refine ⟨trivial, fun cached k'' _ hcached => ?_⟩
        cases cached with
        | none => exact knows_loadPermissions hp hu
        | some permissions =>
          intro htouch
          exact hcached (hcache ▸ henv) userId projectId htouch hp hu rfl permissions rfl
      · exact knows_loadPermissions hp hu
  · exact fun _ => rfl

theorem knows_getEffectivePermissions {isolate : ℕ} {k : Set (String × String)} :
    Calls.Knows (Allowed d) (Learns sessionCache d)
      (fun a _ => d.Touches userId projectId → a = [])
      (getEffectivePermissions sessionCache isolate userId projectId) k := by
  have hread : ReadsNothing sessionCache d userId projectId
      (RbacRepository.getEffectivePermissions ⟨sessionCache, isolate⟩ userId projectId) k :=
    knows_read rfl
  refine Calls.knows_embed ?_ ?_ hread
  · exact fun _ _ h => h
  · exact fun _ _ _ h => h

end programs

theorem uses_deletion (deletion : Deletion) :
    deletion.run.Uses fun op => (∃ op', op = .account op') ∨ ∃ p, op = .deleteProject p := by
  cases deletion with
  | deleteProject projectId =>
    refine Calls.uses_bind (ScanDeletion.uses_purgeScanChildren fun table => ?_) fun _ => ?_
    · exact ⟨Or.inl ⟨_, rfl⟩, fun _ => trivial⟩
    · exact ⟨Or.inr ⟨projectId, rfl⟩, fun _ => trivial⟩
  | deleteGuestUserData userId projectIds =>
    exact Calls.uses_embed (Calls.uses_of_forall (fun op => Or.inl ⟨op, rfl⟩) _)
  | deleteUsersData userIds projectIds =>
    exact Calls.uses_embed (Calls.uses_of_forall (fun op => Or.inl ⟨op, rfl⟩) _)

theorem takes_of_house {op : RbacCalls.Op} (h : RbacCalls.HouseOp op) : Takes op := by
  cases op <;> first | exact trivial | exact False.elim h

theorem takes_dropMember {env : RbacCalls.Env} {projectId memberId : String} :
    (RbacService.dropMember env projectId memberId).run.Uses Takes := by
  unfold RbacService.dropMember RbacCalls.RbacRepository.removeProjectMember
  refine Calls.uses_run_bind (Calls.uses_run_bind (Calls.uses_run_lift ?_) fun _ => ?_) fun _ => ?_
  · exact RbacCalls.uses_perform trivial
  · exact Calls.uses_run_lift (RbacCalls.uses_perform trivial)
  · refine Calls.uses_run_bind (Calls.uses_run_lift ?_) fun _ => trivial
    exact Calls.Uses.mono RbacCalls.house_invalidateUserRBAC fun _ => takes_of_house

theorem takes_dropRole {env : RbacCalls.Env} {projectId roleId : String} :
    (RbacService.dropRole env projectId roleId).run.Uses Takes := by
  unfold RbacService.dropRole RbacCalls.RbacRepository.deleteCustomRole
  refine Calls.uses_run_bind RbacCalls.uses_refuseIf fun _ => ?_
  refine Calls.uses_run_bind (Calls.uses_run_lift (RbacCalls.uses_perform trivial)) fun _ => ?_
  refine Calls.uses_run_bind RbacCalls.uses_refuseIf fun _ => ?_
  refine Calls.uses_run_bind (Calls.uses_run_lift ?_) fun _ => trivial
  exact Calls.Uses.mono RbacCalls.house_invalidateProjectRBAC fun _ => takes_of_house

/-- The calls that are allowed whatever is known. -/
def Harmless : Op → Prop
  | .rbac op => Takes op
  | _ => True

theorem allowed_of_harmless {op : Op} (k : Set (String × String)) (h : Harmless op) :
    Allowed d op k := by
  cases op with
  | rbac op => cases op <;> first | exact h | exact False.elim h
  | _ => trivial

theorem knows_serve (r : Request) (k : Set (String × String)) :
    Calls.Knows (Allowed d) (Learns sessionCache d) (Post d r) (serve sessionCache r) k := by
  have hquiet {p : Calls Answer (Option (List String))} (hr : ∀ a k, Post d r a k)
      (hp : p.Uses Harmless) : Calls.Knows (Allowed d) (Learns sessionCache d) (Post d r) p k :=
    (Calls.knows_of_uses (fun op k => allowed_of_harmless k) hp k).imp fun a k' _ _ => hr a k'
  cases r with
  | delete deletion =>
    refine hquiet (fun _ _ => trivial) (Calls.uses_bind ?_ fun _ => trivial)
    refine Calls.Uses.mono (uses_deletion deletion) ?_
    rintro op (⟨op', rfl⟩ | ⟨p, rfl⟩) <;> trivial
  | getEffectivePermissions isolate userId projectId =>
    apply Calls.knows_bind
    refine Calls.Knows.imp knows_getEffectivePermissions fun a k' _ ha htouch => ?_
    exact congrArg some (ha htouch)
  | removeMember isolate projectId memberId =>
    refine hquiet (fun _ _ => trivial) (Calls.uses_bind ?_ fun _ => trivial)
    exact Calls.uses_embed takes_dropMember
  | deleteCustomRole isolate projectId roleId =>
    refine hquiet (fun _ _ => trivial) (Calls.uses_bind ?_ fun _ => trivial)
    exact Calls.uses_embed takes_dropRole
  | revokeInvitation id => exact hquiet (fun _ _ => trivial) ⟨trivial, fun _ => trivial⟩
  | declineInvitation => exact hquiet (fun _ _ => trivial) ⟨trivial, fun _ => trivial⟩

theorem inv_happen {s : Store} (hs : NothingLeft sessionCache d s) (e : Event) :
    NothingLeft sessionCache d (happen s e) ∧ barren s ≤ barren (happen s e) := by
  cases e with
  | elapse ms => exact hs.fewer _ (Fewer.refl s.db.rbac) (fun _ _ h => h) (Nat.le_add_right _ _)
  | newIsolate isolate => exact hs.fewer _ (Fewer.refl s.db.rbac) (fun _ _ h => h) (Nat.le_refl _)

theorem allowed_mono (op : Op) (k k' : Set (String × String)) (_ : k ≤ k')
    (h : Allowed d op k) : Allowed d op k' := by
  cases op with
  | rbac op => cases op <;> exact h
  | _ => trivial

theorem nothingLeft_of_reaches {s : Store} (hs : NothingLeft sessionCache d s) (r : Request)
    {w : Pool Answer Store Request (Option (List String))}
    (h : Reaches (requests sessionCache).step ⟨s, [(r, serve sessionCache r)]⟩ w) :
    NothingLeft sessionCache d w.store := by
  have hinformed : System.Informed (NothingLeft sessionCache d) barren (Allowed d)
      (fun _ => Learns sessionCache d) (fun _ => Post d) w := by
    refine ReachesUnder.invariant ?_ (fun t m u ht _ hu => ?_) h
    · refine ⟨hs, fun i r' p hi => ?_⟩
      obtain ⟨rfl, rfl⟩ : r = r' ∧ serve sessionCache r = p := by
        cases i with
        | zero => simpa using hi
        | succ i => simp at hi
      exact knows_serve r _
    · refine System.informed_step allowed_mono (fun _ r a k k' _ hpost => ?_)
        (fun _ _ op s hinv hallowed => inv_exec hinv hallowed) (fun e s hinv => inv_happen hinv e)
        (fun _ r k => knows_serve r k) ht hu
      cases r <;> exact hpost
  exact hinformed.inv

/-- A read that runs alone comes to nothing for whom the deletion is of. -/
theorem permissions_eq_nil {s : Store} (hs : NothingLeft sessionCache d s) (isolate : ℕ)
    {userId projectId : String} (htouch : d.Touches userId projectId) :
    permissions sessionCache s isolate userId projectId = [] := by
  have hexec (op : Op) (s : Store) (hinv : NothingLeft sessionCache d s)
      (hallowed : Allowed d op (barren s)) : NothingLeft sessionCache d (s.exec op).2 ∧
        barren s ≤ barren (s.exec op).2 ∧
        Learns sessionCache d op (s.exec op).1 (barren (s.exec op).2) := inv_exec hinv hallowed
  exact (Calls.eval_of_knows hexec hs knows_getEffectivePermissions).2 htouch

theorem noAccess_of_nothingLeft {s : Store} (hs : NothingLeft sessionCache d s) :
    NoAccess sessionCache d s where
  project _ hp isolate _ := permissions_eq_nil hs isolate (Or.inl hp)
  user _ hu isolate _ := permissions_eq_nil hs isolate (Or.inr hu)
  invitation i hi hp token username email emailVerified := by
    rw [← Bool.not_eq_true]
    intro hacceptable
    simp only [Rbac.Db.acceptable, Bool.and_eq_true, beq_iff_eq, decide_eq_true_eq] at hacceptable
    have hover := hs.invited i hi hp hacceptable.1.1.1.2
    omega

end

/-- A deletion leaves the rows that permissions are read from, and the caches. -/
structure SameAccess (s s' : Store) : Prop where
  rbac : ∃ guests, s'.db.rbac = { s.db.rbac with guests := guests }
  kv : s'.kv = s.kv
  now : s'.now = s.now

theorem sameAccess_deletion (s : Store) (deletion : Deletion) :
    SameAccess s (deletion.run.eval (fun op s => s.exec op) s).2 := by
  refine Calls.eval_of_uses (I := SameAccess s) ?_ (uses_deletion deletion)
    ⟨⟨s.db.rbac.guests, rfl⟩, rfl, rfl⟩
  rintro op s' (⟨op, rfl⟩ | ⟨projectId, rfl⟩) ⟨⟨guests, hrbac⟩, hkv, hnow⟩
  · refine ⟨⟨(s'.exec (.account op)).2.db.rbac.guests, ?_⟩, hkv, hnow⟩
    have hop : (s'.exec (.account op)).2.db.rbac = { s'.db.rbac with
        guests := (s'.exec (.account op)).2.db.rbac.guests } := by
      cases op <;> rfl
    rw [hop, hrbac]
  · refine ⟨⟨(s'.exec (.deleteProject projectId)).2.db.rbac.guests, ?_⟩, hkv, hnow⟩
    have hop : (s'.exec (.deleteProject projectId)).2.db.rbac = { s'.db.rbac with
        guests := (s'.exec (.deleteProject projectId)).2.db.rbac.guests } := rfl
    rw [hop, hrbac]

theorem negative_newIsolate (s : Store) (isolate : ℕ) :
    (happen s (.newIsolate isolate)).negativeRbacCache isolate = [] := by
  change Function.update s.negativeRbacCache isolate [] isolate = []
  rw [Function.update_self]

/-- The deletion runs to its end, then time passes, and an isolate is new. -/
theorem reaches_rested (sessionCache : Bool) (d : Deletion) (s : Store) (ms : ℕ) :
    ∃ w, Reaches (requests sessionCache).step
        ⟨s, [(.delete d, serve sessionCache (.delete d))]⟩ w ∧
      w.running[0]? = some (.delete d, .ret none) ∧
      (∃ guests, w.store.db.rbac = { s.db.rbac with guests := guests }) ∧
      w.store.kv = s.kv ∧ w.store.now = s.now + ms ∧ w.store.negativeRbacCache 0 = [] := by
  have hsame := sameAccess_deletion s d
  have hrun : Reaches (requests sessionCache).step
      ⟨s, [(.delete d, serve sessionCache (.delete d))]⟩
      ⟨(d.run.eval (fun op s => s.exec op) s).2, [(.delete d, .ret none)]⟩ := by
    have hserve : (serve sessionCache (.delete d)).eval
        ((requests sessionCache).exec 0 (.delete d)) s =
        (none, (d.run.eval (fun op s => s.exec op) s).2) := by
      rw [serve, Calls.eval_bind]
      rfl
    have hend := System.reaches_eval (S := requests sessionCache) (i := 0)
      (w := ⟨s, [(.delete d, serve sessionCache (.delete d))]⟩) rfl
    simp only [hserve] at hend
    exact hend
  have helapsed := hrun.tail (a := .world (.elapse ms)) trivial rfl
  have hnew := helapsed.tail (a := .world (.newIsolate 0)) trivial rfl
  refine ⟨_, hnew, rfl, hsame.rbac, hsame.kv, congrArg (· + ms) hsame.now, ?_⟩
  exact negative_newIsolate (happen _ (.elapse ms)) 0

section reading

variable {sessionCache : Bool} {s : Store} {userId projectId p : String}

theorem onRoles_bind {α β : Type} (p : Calls RbacCalls.Answer α)
    (f : α → Calls RbacCalls.Answer β) :
    onRoles (p.bind f) = (onRoles p).bind fun a => onRoles (f a) := Calls.embed_bind ..

theorem eval_perform (op : RbacCalls.Op) :
    Calls.eval (fun op s => Store.exec s op) (onRoles (RbacCalls.perform op)) s =
      s.exec (.rbac op) := rfl

theorem negativeHit_of_empty {b : Backend} {isolate : ℕ} (key : String)
    (h : b.negativeRbacCache isolate = []) : b.exec (.negativeHit isolate key) = (false, b) := by
  rw [Backend.exec, h]
  rfl

theorem eval_cachePermissions (env : RbacCalls.Env) (key : String) (permsArray : List String) :
    (Calls.eval (fun op s => s.exec op)
      (onRoles (RbacRepository.cachePermissions env key permsArray)) s).1 = permsArray := by
  obtain ⟨cache, isolate⟩ := env
  cases cache <;> rfl

theorem mem_eval_permissionsForRoleIds {roleIds : List String} {r : String} (hr : r ∈ roleIds)
    (hp : s.db.rbac.Carries projectId r p) : p ∈ (Calls.eval (fun op s => s.exec op)
      (onRoles (RbacRepository.permissionsForRoleIds projectId roleIds)) s).1 := by
  unfold RbacRepository.permissionsForRoleIds
  simp only
  split_ifs with hnone
  · have hdefault : p ∈ defaultPermissions r := by
      rcases hp with hp | ⟨hcustom, -, -⟩
      · exact hp
      · have hmem : r ∈ roleIds.filter fun rid => !isBuiltInRole rid :=
          List.mem_filter.mpr ⟨hr, by simpa using hcustom⟩
        rw [List.isEmpty_iff.mp hnone] at hmem
        cases hmem
    exact List.mem_eraseDups.mpr (List.mem_flatMap.mpr ⟨r, hr, hdefault⟩)
  · refine List.mem_eraseDups.mpr (List.mem_append.mpr ?_)
    rcases hp with hp | ⟨hcustom, hhas, hrow⟩
    · exact Or.inl (List.mem_flatMap.mpr ⟨r, hr, hp⟩)
    · refine Or.inr (List.mem_map.mpr ⟨(r, p), List.mem_filter.mpr ⟨hrow, ?_⟩, rfl⟩)
      have hmem : r ∈ roleIds.filter fun rid => !isBuiltInRole rid :=
        List.mem_filter.mpr ⟨hr, by simpa using hcustom⟩
      exact Bool.and_eq_true_iff.mpr ⟨List.contains_iff_mem.mpr hmem, hhas⟩

/-- A read that finds nothing in the caches answers what the rows give. -/
theorem mem_eval_loadPermissions {env : RbacCalls.Env}
    (hp : p ∈ s.db.rbac.getEffectivePermissions userId projectId) :
    p ∈ (Calls.eval (fun op s => s.exec op)
      (onRoles (RbacRepository.loadPermissions env userId projectId)) s).1 := by
  obtain ⟨-, -, role, hrow, hgrants⟩ := Rbac.Db.mem_getEffectivePermissions.mp hp
  have hgiven := Rbac.Db.mem_permissions_iff.mpr
    ⟨role, Rbac.Db.mem_getMemberRoles.mpr hrow, hgrants⟩
  obtain ⟨r, hr, hcarries⟩ := Rbac.Db.mem_permissionsForRoleIds.mp hgiven
  have hmem := List.mem_eraseDups.mpr hr
  have hsome : ((s.db.rbac.roleHierarchy projectId Rbac.Db.MAX_DEPTH
      (s.db.rbac.getMemberRoles projectId userId)).eraseDups).isEmpty = false := by
    rw [Bool.eq_false_iff]
    intro hnone
    rw [List.isEmpty_iff.mp hnone] at hmem
    cases hmem
  unfold RbacRepository.loadPermissions
  change p ∈ (Calls.eval _ (onRoles (if _ then _ else _)) _).1
  rw [if_neg (by rw [Bool.not_eq_true]; exact hsome)]
  change p ∈ (Calls.eval _ (onRoles (Calls.bind _ _)) _).1
  rw [onRoles_bind, Calls.eval_bind, eval_cachePermissions]
  exact mem_eval_permissionsForRoleIds hmem hcarries

theorem permissions_of_empty (hneg : s.negativeRbacCache 0 = [])
    (hvalid : isValidId projectId = true ∧ isValidId userId = true) :
    permissions sessionCache s 0 userId projectId = (Calls.eval (fun op s => s.exec op)
      (onRoles (RbacRepository.cachedPermissions ⟨sessionCache, 0⟩ userId projectId))
      (s.putBackend s.backend)).1 := by
  have hhit := negativeHit_of_empty (b := s.backend) (rbacCacheKey projectId userId) hneg
  have hexec : s.exec (.rbac (.negativeHit 0 (rbacCacheKey projectId userId))) =
      (false, s.putBackend s.backend) := by
    rw [Store.exec, hhit]
  unfold permissions getEffectivePermissions RbacRepository.getEffectivePermissions
  rw [if_pos (Bool.and_eq_true_iff.mpr hvalid)]
  change (Calls.eval _ (onRoles (Calls.bind _ _)) _).1 = _
  rw [onRoles_bind, Calls.eval_bind, eval_perform, hexec]
  rfl

theorem permissions_of_cached (hneg : s.negativeRbacCache 0 = [])
    (hvalid : isValidId projectId = true ∧ isValidId userId = true)
    {found : List String} {expiry : ℕ}
    (hentry : s.kv (rbacCacheKey projectId userId) = some (found, expiry))
    (hlive : s.now < expiry) : permissions true s 0 userId projectId = found := by
  have hget : ((s.putBackend s.backend).exec (.rbac (.kvGet
      (rbacCacheKey projectId userId)))).1 = some found := by
    change (s.kv (rbacCacheKey projectId userId)).bind _ = _
    rw [hentry]
    exact if_pos hlive
  rw [permissions_of_empty hneg hvalid]
  unfold RbacRepository.cachedPermissions
  change (Calls.eval _ (onRoles (Calls.bind _ _)) _).1 = _
  rw [onRoles_bind, Calls.eval_bind, eval_perform, hget]
  rfl

theorem permissions_of_rows (hneg : s.negativeRbacCache 0 = [])
    (hcold : ∀ entry, s.kv (rbacCacheKey projectId userId) = some entry → entry.2 ≤ s.now)
    (hp : p ∈ s.db.rbac.getEffectivePermissions userId projectId) :
    p ∈ permissions sessionCache s 0 userId projectId := by
  obtain ⟨hproject, huser, -⟩ := Rbac.Db.mem_getEffectivePermissions.mp hp
  have hget : ((s.putBackend s.backend).exec (.rbac (.kvGet
      (rbacCacheKey projectId userId)))).1 = none := by
    change (s.kv (rbacCacheKey projectId userId)).bind _ = _
    cases hentry : s.kv (rbacCacheKey projectId userId) with
    | none => rfl
    | some entry => exact if_neg (Nat.not_lt.mpr (hcold entry hentry))
  rw [permissions_of_empty hneg ⟨hproject, huser⟩]
  unfold RbacRepository.cachedPermissions
  cases sessionCache with
  | false => exact mem_eval_loadPermissions hp
  | true =>
    change p ∈ (Calls.eval _ (onRoles (Calls.bind _ _)) _).1
    rw [onRoles_bind, Calls.eval_bind, eval_perform, hget]
    exact mem_eval_loadPermissions hp

end reading

theorem NoAccess.permissions_eq {sessionCache : Bool} {d : Deletion} {s : Store}
    (h : NoAccess sessionCache d s) {userId projectId : String} (htouch : d.Touches userId projectId)
    (isolate : ℕ) : permissions sessionCache s isolate userId projectId = [] := by
  rcases htouch with hp | hu
  · exact h.project projectId hp isolate userId
  · exact h.user userId hu isolate projectId

/-- Whoever has the token and is whom the invitation is for may accept it in time. -/
theorem acceptable_self {i : Rbac.Invitation} {now : ℕ} (hpending : i.status = .pending)
    (hnow : now < i.expiresAt) :
    Rbac.Db.acceptable i.token (i.username.getD "") i.email true now i = true := by
  cases husername : i.username <;> cases hemail : i.email <;>
    simp [Rbac.Db.acceptable, hpending, hnow, husername, hemail]

/-- In every state after a deletion that runs beside any other requests nothing is accessible
that it was of, exactly if nothing gave access before it. -/
theorem no_access_left_iff (sessionCache : Bool) (d : Deletion) (s : Store) :
    (∀ w, Reaches (requests sessionCache).step
        ⟨s, [(.delete d, serve sessionCache (.delete d))]⟩ w →
      w.running[0]? = some (.delete d, .ret none) → NoAccess sessionCache d w.store) ↔
      NothingLeft sessionCache d s := by
  constructor
  · intro h
    refine ⟨?_, ?_, ?_⟩
    · intro userId projectId role p htouch hp hu hrow hgrants
      -- Once the entry in the cache is old, the rows are read.
      obtain ⟨w, hreach, hdone, ⟨guests, hrbac⟩, hkv, hnow, hneg⟩ := reaches_rested sessionCache d s
        ((s.kv (rbacCacheKey projectId userId)).elim 0 Prod.snd)
      have hempty := (h w hreach hdone).permissions_eq htouch 0
      have hgiven : p ∈ w.store.db.rbac.getEffectivePermissions userId projectId := by
        rw [hrbac]
        exact Rbac.Db.mem_getEffectivePermissions.mpr ⟨hp, hu, role, hrow, hgrants⟩
      have hread : p ∈ permissions sessionCache w.store 0 userId projectId := by
        refine permissions_of_rows hneg (fun entry hentry => ?_) hgiven
        rw [hkv] at hentry
        rw [hnow, hentry]
        exact Nat.le_add_left _ _
      rw [hempty] at hread
      cases hread
    · intro hcache userId projectId found expiry htouch hp hu hentry hlive
      obtain ⟨w, hreach, hdone, -, hkv, hnow, hneg⟩ := reaches_rested sessionCache d s 0
      have hempty := (h w hreach hdone).permissions_eq htouch 0
      subst hcache
      rw [← hkv] at hentry
      have hread := permissions_of_cached hneg ⟨hp, hu⟩ hentry (by omega)
      exact hread.symm.trans hempty
    · intro i hi hproject hpending
      obtain ⟨w, hreach, hdone, ⟨guests, hrbac⟩, -, hnow, -⟩ := reaches_rested sessionCache d s 0
      have hrefused := (h w hreach hdone).invitation i (by rw [hrbac]; exact hi) hproject
        i.token (i.username.getD "") i.email true
      by_contra hover
      have haccepted := acceptable_self hpending (Nat.lt_of_not_le hover)
      rw [hnow, Nat.add_zero, haccepted] at hrefused
      cases hrefused
  · intro hs w hreach _
    exact noAccess_of_nothingLeft (nothingLeft_of_reaches hs (.delete d) hreach)

/-- Alice owns a project that Bob is invited to. -/
def invitedStore : Store where
  db := {
    rbac := {
      customRoles := []
      rolePermissions := []
      roleInheritance := []
      memberRoles := [("project", "alice", "owner")]
      invitations := [⟨"i", "project", none, some "bob", ["editor"], .pending, "token", 3600⟩]
      guests := []
      role_id_unique := List.nodup_nil }
    projects := ["project"]
    users := [⟨"alice", "alice", none, false, none, some "Free"⟩]
    usernameRegistry := []
    members := [⟨"project", "alice", "owner"⟩]
    member_unique := by decide
    deleteRequestedAt := fun _ => none
    expiresAt := fun _ => none
    apiKeys := fun _ => none
    scans := []
    children := fun _ => []
    now := 0 }
  kv := fun _ => none
  negativeRbacCache := fun _ => []
  now := 0

theorem no_access_left_fails : ∃ w,
    Reaches (requests true).step ⟨invitedStore, [(.delete (.deleteProject "project"),
      serve true (.delete (.deleteProject "project")))]⟩ w ∧
    w.running[0]? = some (.delete (.deleteProject "project"), .ret none) ∧
    "delete:/api/projects/:id" ∈ permissions true w.store 0 "alice" "project" ∧
    ∃ i ∈ w.store.db.rbac.invitations, i.projectId = "project" ∧
      Rbac.Db.acceptable "token" "bob" none false (w.store.now / 1000) i = true := by
  obtain ⟨w, hreach, hdone, ⟨guests, hrbac⟩, hkv, hnow, hneg⟩ :=
    reaches_rested true (.deleteProject "project") invitedStore 0
  refine ⟨w, hreach, hdone, ?_, ?_⟩
  · refine permissions_of_rows hneg (fun entry hentry => ?_) ?_
    · rw [hkv] at hentry
      cases hentry
    · rw [hrbac]
      refine Rbac.Db.mem_getEffectivePermissions.mpr ⟨by decide, by decide, "owner", ?_, ?_⟩
      · exact List.mem_singleton_self _
      · exact ⟨"owner", .here _ _, Or.inl (by decide)⟩
  · rw [hrbac, hnow]
    exact ⟨_, List.mem_cons_self, rfl, by decide⟩

end Swazz.ProjectDeletion
