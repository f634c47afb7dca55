import Swazz.RbacEffects
import Swazz.RbacOwners

/-! Readers of the permission cache interleaved with changes and their invalidations. The
audit beside the backend records whose answers a change overtook. -/
namespace Swazz.RbacCalls

open AtomicCalls
open Rbac (Db SameFor isBuiltInRole defaultPermissions isReservedRoleId)
open StepSystem (Reaches ReachesUnder)

attribute [local irreducible] isBlank

/-- A read of what a user may do, or a change with its invalidation. -/
inductive CacheRequest where
  | getEffectivePermissions (isolate : ℕ) (userId projectId : String)
  | updateMemberRoles (isolate : ℕ) (projectId memberId : String) (roles : List String)
  | removeMember (isolate : ℕ) (projectId memberId : String)
  | createCustomRole (isolate : ℕ) (roleId projectId name : String)
      (permissions included : List String)
  | updateCustomRole (isolate : ℕ) (projectId roleId name : String)
      (permissions included : List String)
  | deleteCustomRole (isolate : ℕ) (projectId roleId : String)
  | acceptInvitation (isolate : ℕ) (userId token username : String) (email : Option String)
      (emailVerified : Bool)

/-- What a request answers: permissions, or how the change went. -/
abbrev CacheAnswer : Type := List String ⊕ Except Rbac.Failure String

/-- The program of a change from its write on. -/
def applyChange (p : Service String) : Calls Answer CacheAnswer :=
  p.run.bind fun status => .ret (.inr status)

def serveCache (sessionCache : Bool) : CacheRequest → Calls Answer CacheAnswer
  | .getEffectivePermissions isolate userId projectId =>
    (RbacRepository.getEffectivePermissions ⟨sessionCache, isolate⟩ userId projectId).bind
      fun permissions => .ret (.inl permissions)
  | .updateMemberRoles isolate projectId memberId roles =>
    applyChange (RbacService.writeMemberRoles ⟨sessionCache, isolate⟩ projectId memberId roles)
  | .removeMember isolate projectId memberId =>
    applyChange (RbacService.dropMember ⟨sessionCache, isolate⟩ projectId memberId)
  | .createCustomRole isolate roleId projectId name permissions included =>
    applyChange (RbacService.writeNewRole ⟨sessionCache, isolate⟩ roleId projectId name
      permissions included)
  | .updateCustomRole isolate projectId roleId name permissions included =>
    applyChange (RbacService.writeRole ⟨sessionCache, isolate⟩ projectId roleId name
      permissions included)
  | .deleteCustomRole isolate projectId roleId =>
    applyChange (RbacService.dropRole ⟨sessionCache, isolate⟩ projectId roleId)
  | .acceptInvitation isolate userId token username email emailVerified =>
    applyChange (RbacService.joinProject ⟨sessionCache, isolate⟩ userId token username email
      emailVerified)

/-- The backend, and of the calls made so far: which reads have asked for a member's
roles, which of these a change then overtook by taking a permission from that member,
whom each change took one from, and the keys it deleted since. -/
structure Audited where
  backend : Backend
  loaded : List (ℕ × String × String)
  overtaken : List (ℕ × ℕ)
  took : List (ℕ × String × String)
  deleted : List (ℕ × String)

/-- The member of the project has lost a permission. -/
def takes (db db' : Db) (member : String × String) : Bool :=
  (db.getEffectivePermissions member.2 member.1).any fun p =>
    !(db'.getEffectivePermissions member.2 member.1).contains p

def takenFrom (db db' : Db) : List (String × String) :=
  (db.memberRoles.map fun (project, user, _) => (project, user)).filter (takes db db')

namespace Audited

def loadedBy (s : Audited) (who : ℕ) : Op → List (ℕ × String × String)
  | .memberRoleHierarchy projectId userId => (who, projectId, userId) :: s.loaded
  | _ => s.loaded

def deletedBy (s : Audited) (who : ℕ) (taken : List (String × String)) :
    Op → List (ℕ × String)
  | .kvDelete key => (who, key) :: s.deleted
  | _ => s.deleted.filter fun d =>
      !(d.1 == who && taken.any fun m => rbacCacheKey m.1 m.2 == d.2)

def exec (who : ℕ) (op : Op) (s : Audited) : Answer op × Audited :=
  let backend := (s.backend.exec op).2
  let taken := takenFrom s.backend.db backend.db
  let behind := s.loaded.filter fun l => takes s.backend.db backend.db l.2
  ((s.backend.exec op).1, {
    backend := backend
    loaded := s.loadedBy who op
    overtaken := s.overtaken ++ behind.map fun l => (l.1, who)
    took := s.took ++ taken.map fun m => (who, m)
    deleted := s.deletedBy who taken op })

end Audited

def cacheRequests (sessionCache : Bool) :
    System Answer Audited CacheRequest ℕ CacheAnswer where
  exec who _ op s := s.exec who op
  body := serveCache sessionCache
  world ms s := { s with backend := { s.backend with now := s.backend.now + ms } }

abbrev CachePool := Pool Answer Audited CacheRequest CacheAnswer

/-- What the cache answers a call of `getEffectivePermissions` that starts now. -/
def fromCache (sessionCache : Bool) (b : Backend) (userId projectId : String) :
    Option (List String) :=
  if sessionCache then b.kvGet (rbacCacheKey projectId userId) else none

/-- The request at an index has answered. -/
def Completed (w : CachePool) (i : ℕ) : Prop :=
  ∃ r answer, w.running[i]? = some (r, .ret answer)

def MayDo (s : Audited) (userId projectId p : String) : Prop :=
  p ∈ s.backend.db.getEffectivePermissions userId projectId

/-- Nothing that an invalidated change overtook goes into the cache: a read puts its answer
only while each change that took a permission from the member since it asked for the
roles has yet to delete the key, asks for the permissions of custom roles the member
still holds, and an invalidation still finds everyone the change took one from. -/
def CallInOrder (s : Audited) (i : ℕ) (r : CacheRequest) : Op → Prop
  | .kvPut key _ => ∀ l ∈ s.overtaken, l.1 = i → (l.2, key) ∉ s.deleted
  | .customRolePermissions projectId roleIds =>
    match r with
    | .getEffectivePermissions _ userId project => project = projectId →
      ∀ id ∈ roleIds, id ∈ s.backend.db.roleHierarchy projectId Db.MAX_DEPTH
        (s.backend.db.getMemberRoles projectId userId)
    | _ => True
  | .projectUsers projectId => ∀ t ∈ s.took, t.1 = i → t.2.1 = projectId →
      t.2.2 ∈ s.backend.projectUsers projectId
  | _ => True

def InOrder (w : CachePool) : Move CacheRequest ℕ → Prop
  | .next i _ => ∀ c ∈ System.nextCall w i, CallInOrder w.store i c.1 c.2
  | _ => True

local instance instLawfulBEqKey : LawfulBEq (ℕ × String) := inferInstance

instance (s : Audited) (i : ℕ) (r : CacheRequest) (op : Op) :
    Decidable (CallInOrder s i r op) := by
  cases op <;> cases r <;> dsimp only [CallInOrder] <;> infer_instance

instance (w : CachePool) (m : Move CacheRequest ℕ) : Decidable (InOrder w m) := by
  cases m <;> dsimp only [InOrder] <;> infer_instance

instance (s : Audited) (userId projectId p : String) :
    Decidable (MayDo s userId projectId p) :=
  inferInstanceAs (Decidable (p ∈ s.backend.db.getEffectivePermissions userId projectId))

/-- The call is a change of what the user may do in the project, and it went through. -/
def TakesFrom : (op : Op) → Answer op → String → String → Prop
  | .updateMemberRoles project user _, done, projectId, userId =>
    done = true ∧ project = projectId ∧ user = userId
  | .removeProjectMember project user, _, projectId, userId =>
    project = projectId ∧ user = userId
  | .insertMemberRoles project user _, _, projectId, userId =>
    project = projectId ∧ user = userId
  | .createCustomRole _ project _ _ _, done, projectId, _ => done = true ∧ project = projectId
  | .updateCustomRole project _ _ _ _, found, projectId, _ =>
    found = some true ∧ project = projectId
  | .deleteCustomRole project _, found, projectId, _ => found = true ∧ project = projectId
  | _, _, _, _ => False

/-- A custom role is deleted by its own id. -/
def OfCustomRole : Op → Prop
  | .deleteCustomRole _ roleId => isBuiltInRole roleId = false
  | _ => True

theorem exec_sameFor {b : Backend} {op : Op} {projectId userId : String}
    (hop : OfCustomRole op) (h : ¬TakesFrom op (b.exec op).1 projectId userId) :
    SameFor b.db (b.exec op).2.db projectId userId := by
  have hmembers (db' : Db) (hdb : (b.exec op).2.db = db')
      (hsame : SameFor b.db db' projectId userId) :
      SameFor b.db (b.exec op).2.db projectId userId := hdb ▸ hsame
  cases op with
  | updateMemberRoles project user roles =>
    cases hdb : b.db.updateMemberRoles project user roles with
    | none =>
      exact hmembers b.db (by simp [Backend.exec, hdb]) (SameFor.refl b.db projectId userId)
    | some db =>
      refine hmembers db (by simp [Backend.exec, hdb, putDb_db]) ?_
      refine Rbac.sameFor_updateMemberRoles hdb ?_
      simpa [TakesFrom, Backend.exec, hdb] using h
  | removeProjectMember project user => exact Rbac.sameFor_removeProjectMember h
  | insertMemberRoles project user roles =>
    refine SameFor.of_members rfl rfl rfl fun role => ?_
    have hne : ¬(project = projectId ∧ user = userId) := h
    simp only [Backend.exec, List.mem_append, List.mem_eraseDups, List.mem_filter,
      List.mem_map, Prod.mk.injEq]
    grind
  | createCustomRole roleId project name permissions included =>
    cases hdb : b.db.createCustomRole roleId project name permissions included with
    | none =>
      exact hmembers b.db (by simp [Backend.exec, hdb]) (SameFor.refl b.db projectId userId)
    | some db =>
      refine hmembers db (by simp [Backend.exec, hdb, putDb_db]) ?_
      refine Rbac.sameFor_createCustomRole hdb ?_
      simpa [TakesFrom, Backend.exec, hdb] using h
  | updateCustomRole project roleId name permissions included =>
    cases hdb : b.db.updateCustomRole project roleId name permissions included with
    | none =>
      exact hmembers b.db (by simp [Backend.exec, hdb]) (SameFor.refl b.db projectId userId)
    | some result =>
      obtain ⟨db, found⟩ := result
      refine hmembers db (by simp [Backend.exec, hdb, putDb_db]) ?_
      refine Rbac.sameFor_updateCustomRole hdb ?_
      simpa [TakesFrom, Backend.exec, hdb] using h
  | deleteCustomRole project roleId =>
    refine Rbac.sameFor_deleteCustomRole hop ?_
    simpa [TakesFrom, Backend.exec] using h
  | acceptInvitation token username email emailVerified =>
    simp only [Backend.exec]
    split <;> exact SameFor.of_members rfl rfl rfl fun _ => Iff.rfl
  | negativeHit isolate key =>
    refine hmembers b.db ?_ (SameFor.refl b.db projectId userId)
    simp only [Backend.exec]
    split
    · split <;> rfl
    · rfl
  | _ => exact SameFor.of_members rfl rfl rfl fun _ => Iff.rfl

end Swazz.RbacCalls
