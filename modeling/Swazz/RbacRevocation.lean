import Swazz.RbacCache

/-! Once a change that took a permission and its invalidation are done, the cache does
not give that permission out again. -/
namespace Swazz.RbacCalls

open AtomicCalls
open Rbac (Db SameFor isBuiltInRole defaultPermissions isReservedRoleId)
open StepSystem (Reaches ReachesUnder)

attribute [local irreducible] isBlank

theorem append_cons_inj_left {α : Type} {c : α} {l l' m m' : List α} (h : c ∉ l)
    (h' : c ∉ l') (heq : l ++ c :: m = l' ++ c :: m') : l = l' ∧ m = m' := by
  induction l generalizing l' with
  | nil =>
    cases l' with
    | nil => exact ⟨rfl, (List.cons.inj heq).2⟩
    | cons y l' => exact absurd ((List.cons.inj heq).1 ▸ List.mem_cons_self) h'
  | cons x l ih =>
    cases l' with
    | nil => exact absurd ((List.cons.inj heq).1 ▸ List.mem_cons_self) h
    | cons y l' =>
      obtain ⟨rfl, htail⟩ := List.cons.inj heq
      have hrest := ih (fun hc => h (List.mem_cons_of_mem x hc))
        (fun hc => h' (List.mem_cons_of_mem x hc)) htail
      exact ⟨congrArg (x :: ·) hrest.1, hrest.2⟩

theorem colon_notMem {s : String} (h : isValidId s = true) : ':' ∉ s.toList := by
  intro hin
  have hall : s.toList.all isIdChar = true := by
    simp only [isValidId, matchesId, Bool.and_eq_true] at h
    exact h.2
  exact absurd (List.all_eq_true.mp hall ':' hin) (by decide)

/-- Of valid ids, a key is of one project and user. -/
theorem rbacCacheKey_inj {p q u v : String} (hp : isValidId p = true)
    (hq : isValidId q = true) (h : rbacCacheKey p u = rbacCacheKey q v) : p = q ∧ u = v := by
  have hlist := congrArg String.toList h
  simp only [rbacCacheKey, rbacCachePrefix, String.toList_append, List.append_assoc,
    List.append_cancel_left_eq] at hlist
  have hparts := append_cons_inj_left (colon_notMem hp) (colon_notMem hq) hlist
  exact ⟨String.toList_inj.mp hparts.1, String.toList_inj.mp hparts.2⟩

/-- An invalidation finds the user among those of the project. -/
def Lists (projectId userId : String) : (op : Op) → Answer op → Prop
  | .projectUsers project, users => project = projectId → userId ∈ users
  | _, _ => True

def Deletes (projectId userId : String) (op : Op) : Prop :=
  op = .kvDelete (rbacCacheKey projectId userId)

/-- The answers of the queries do not carry the permission. -/
def Without (p : String) : (op : Op) → Answer op → Prop
  | .memberRoleHierarchy _ _, roleIds => ∀ r ∈ roleIds, p ∉ defaultPermissions r
  | .customRolePermissions _ _, keys => p ∉ keys
  | _, _ => True

def PutsWithout (p : String) : Op → Prop
  | .kvPut _ permissions => p ∉ permissions
  | _ => True

/-- The roles have not been asked for. -/
def Unasked : (op : Op) → Answer op → Prop
  | .memberRoleHierarchy _ _, _ => False
  | _, _ => True

def AsksNoCustom : Op → Prop
  | .customRolePermissions _ _ => False
  | _ => True

/-- What a call of a request may be, and what follows a change. -/
structure CallOk (sessionCache : Bool) (r : CacheRequest) (op : Op)
    (next : Answer op → Calls Answer CacheAnswer) : Prop where
  put : ∀ key permissions, op = .kvPut key permissions →
    ∃ isolate u p, r = .getEffectivePermissions isolate u p ∧ isValidId p = true ∧
      key = rbacCacheKey p u
  query : ∀ p u, op = .memberRoleHierarchy p u →
    ∃ isolate, r = .getEffectivePermissions isolate u p
  custom : ∀ p roleIds, op = .customRolePermissions p roleIds →
    (∃ isolate u, r = .getEffectivePermissions isolate u p) ∧
      ∀ id ∈ roleIds, isBuiltInRole id = false
  ofCustomRole : OfCustomRole op
  invalidates : ∀ a p u, TakesFrom op a p u → sessionCache = true → isValidId p = true →
    isValidId u = true → (next a).Certain (Lists p u) (Deletes p u)

section programs

variable {env : Env} {projectId userId : String}

theorem certain_perform {op : Op} {A : (op : Op) → Answer op → Prop} {P : Op → Prop}
    (h : P op) : (perform op).Certain A P := Or.inl h

theorem certain_invalidateUserRBAC (hcache : env.SESSION_CACHE = true)
    (hp : isValidId projectId = true) (hu : isValidId userId = true) :
    (RbacRepository.invalidateUserRBAC env projectId userId).Certain
      (Lists projectId userId) (Deletes projectId userId) := by
  rw [RbacRepository.invalidateUserRBAC, hp, hu, hcache]
  exact Or.inr fun _ _ => certain_perform rfl

/-- The invalidation of a project deletes the key of everyone it lists. -/
theorem certain_invalidateProjectRBAC (hcache : env.SESSION_CACHE = true)
    (hp : isValidId projectId = true) :
    (RbacRepository.invalidateProjectRBAC env projectId).Certain
      (Lists projectId userId) (Deletes projectId userId) := by
  rw [RbacRepository.invalidateProjectRBAC, hp, hcache]
  refine Or.inr fun _ _ => Or.inr fun users hlists => ?_
  have hdelete : (perform (.kvDelete (rbacCacheKey projectId userId))).Certain
      (Lists projectId userId) (Deletes projectId userId) := certain_perform rfl
  have hmem : perform (.kvDelete (rbacCacheKey projectId userId)) ∈
      users.map fun u => perform (.kvDelete (rbacCacheKey projectId u)) :=
    List.mem_map.mpr ⟨userId, hlists rfl, rfl⟩
  change Calls.Certain _ _ ((Calls.parAll (users.map fun u =>
    perform (.kvDelete (rbacCacheKey projectId u)))).bind _)
  exact Calls.certain_bind (Calls.certain_parAll hmem hdelete)

theorem certain_lift_bind {α β : Type} {A : (op : Op) → Answer op → Prop} {P : Op → Prop}
    {x : Calls Answer α} {f : α → Service β} (h : x.Certain A P) :
    (liftM x >>= f : Service β).run.Certain A P :=
  Calls.certain_bind (Calls.certain_bind h)

/-- Calls that only keep the caches, after a change. -/
def HouseOp : Op → Prop
  | .negativeDelete .. | .clearNegativeProjectRbac .. | .projectUsers .. => True
  | .kvDelete .. => True
  | _ => False

theorem HouseOp.callOk {sessionCache : Bool} {r : CacheRequest} {op : Op}
    (h : HouseOp op) (next : Answer op → Calls Answer CacheAnswer) :
    CallOk sessionCache r op next := by
  cases op <;> first
    | exact False.elim h
    | exact ⟨nofun, nofun, nofun, trivial, fun _ _ _ h => False.elim h⟩

theorem house_invalidateUserRBAC :
    (RbacRepository.invalidateUserRBAC env projectId userId).Uses HouseOp := by
  unfold RbacRepository.invalidateUserRBAC
  split_ifs
  · exact Calls.uses_bind (uses_perform trivial) fun _ => uses_perform trivial
  · exact uses_perform trivial
  · exact trivial

theorem house_invalidateProjectRBAC :
    (RbacRepository.invalidateProjectRBAC env projectId).Uses HouseOp := by
  unfold RbacRepository.invalidateProjectRBAC
  split_ifs
  · refine Calls.uses_bind (uses_perform trivial) fun _ => ?_
    refine Calls.uses_bind (uses_perform trivial) fun users => ?_
    refine Calls.uses_bind (Calls.uses_parAll fun p hp => ?_) fun _ => trivial
    obtain ⟨u, -, rfl⟩ := List.mem_map.mp hp
    exact uses_perform trivial
  · exact uses_perform trivial
  · exact trivial

end programs

section requests

variable {sessionCache : Bool} {r : CacheRequest} {α : Type}

/-- A change is one call, and what follows it keeps the caches. -/
theorem callOk_change {op : Op} {f : Answer op → Service α} {g : α → Service String}
    (hchange : ∀ a, (f a).run.Uses HouseOp) (hrest : ∀ a, (g a).run.Uses HouseOp)
    (hop : ∀ next, (∀ a p u, TakesFrom op a p u → sessionCache = true →
      isValidId p = true → isValidId u = true → (next a).Certain (Lists p u) (Deletes p u)) →
      CallOk sessionCache r op next)
    (hcertain : ∀ a p u, TakesFrom op a p u → sessionCache = true → isValidId p = true →
      isValidId u = true → (f a >>= g).run.Certain (Lists p u) (Deletes p u)) :
    (applyChange (liftM (perform op) >>= f >>= g)).Every (CallOk sessionCache r) := by
  refine ⟨hop _ fun a p u htakes hcache hp hu => ?_, fun a => ?_⟩
  · exact Calls.certain_bind (hcertain a p u htakes hcache hp hu)
  · refine Calls.every_of_uses (Calls.uses_bind (Calls.uses_run_bind (hchange a) hrest)
      fun _ => trivial) fun _ next h => h.callOk next

theorem callOk_updateMemberRoles {env : Env} {projectId memberId : String}
    {roles : List String} (henv : env.SESSION_CACHE = sessionCache) :
    (applyChange (RbacService.writeMemberRoles env projectId memberId roles)).Every
      (CallOk sessionCache r) := by
  unfold RbacService.writeMemberRoles RbacRepository.updateMemberRoles
  apply callOk_change
  · intro done
    cases done with
    | true => exact Calls.uses_run_lift (uses_perform trivial)
    | false => exact trivial
  · exact fun _ => Calls.uses_run_bind (Calls.uses_run_lift house_invalidateUserRBAC) fun _ => trivial
  · exact fun next h => ⟨nofun, nofun, nofun, trivial, h⟩
  · rintro done p u ⟨rfl, rfl, rfl⟩ hcache hp hu
    refine Or.inr fun _ _ => ?_
    exact certain_lift_bind (certain_invalidateUserRBAC (henv.trans hcache) hp hu)

theorem callOk_removeMember {env : Env} {projectId memberId : String}
    (henv : env.SESSION_CACHE = sessionCache) :
    (applyChange (RbacService.dropMember env projectId memberId)).Every
      (CallOk sessionCache r) := by
  unfold RbacService.dropMember RbacRepository.removeProjectMember
  apply callOk_change
  · exact fun _ => Calls.uses_run_lift (uses_perform trivial)
  · exact fun _ => Calls.uses_run_bind (Calls.uses_run_lift house_invalidateUserRBAC) fun _ => trivial
  · exact fun next h => ⟨nofun, nofun, nofun, trivial, h⟩
  · rintro _ p u ⟨rfl, rfl⟩ hcache hp hu
    refine Or.inr fun _ _ => ?_
    exact certain_lift_bind (certain_invalidateUserRBAC (henv.trans hcache) hp hu)

theorem callOk_createCustomRole {env : Env} {roleId projectId name : String}
    {permissions included : List String} (henv : env.SESSION_CACHE = sessionCache) :
    (applyChange (RbacService.writeNewRole env roleId projectId name permissions
      included)).Every (CallOk sessionCache r) := by
  unfold RbacService.writeNewRole RbacRepository.createCustomRole
  apply callOk_change
  · intro done
    cases done <;> exact trivial
  · exact fun _ => Calls.uses_run_bind (Calls.uses_run_lift house_invalidateProjectRBAC) fun _ => trivial
  · exact fun next h => ⟨nofun, nofun, nofun, trivial, h⟩
  · rintro done p u ⟨rfl, rfl⟩ hcache hp hu
    exact certain_lift_bind (certain_invalidateProjectRBAC (henv.trans hcache) hp)

theorem callOk_updateCustomRole {env : Env} {projectId roleId name : String}
    {permissions included : List String} (henv : env.SESSION_CACHE = sessionCache) :
    (applyChange (RbacService.writeRole env projectId roleId name permissions
      included)).Every (CallOk sessionCache r) := by
  unfold RbacService.writeRole RbacRepository.updateCustomRole
  cases hreserved : isReservedRoleId roleId with
  | true => exact trivial
  | false =>
    apply callOk_change
    · intro found
      cases found <;> exact trivial
    · exact fun _ => Calls.uses_run_bind uses_refuseIf fun _ =>
        Calls.uses_run_bind (Calls.uses_run_lift house_invalidateProjectRBAC) fun _ => trivial
    · exact fun next h => ⟨nofun, nofun, nofun, trivial, h⟩
    · rintro found p u ⟨rfl, rfl⟩ hcache hp hu
      exact certain_lift_bind (certain_invalidateProjectRBAC (henv.trans hcache) hp)

theorem callOk_deleteCustomRole {env : Env} {projectId roleId : String}
    (henv : env.SESSION_CACHE = sessionCache) :
    (applyChange (RbacService.dropRole env projectId roleId)).Every
      (CallOk sessionCache r) := by
  unfold RbacService.dropRole RbacRepository.deleteCustomRole
  cases hreserved : isReservedRoleId roleId with
  | true => exact trivial
  | false =>
    have hcustom : isBuiltInRole roleId = false :=
      (Bool.or_eq_false_iff.mp hreserved).1
    refine ⟨⟨nofun, nofun, nofun, hcustom, ?_⟩, fun found => ?_⟩
    · rintro found p u ⟨rfl, rfl⟩ hcache hp hu
      exact Calls.certain_bind
        (certain_lift_bind (certain_invalidateProjectRBAC (henv.trans hcache) hp))
    · have hrest : (refuseIf (!found) "Role not found|404" >>= fun _ =>
          liftM (RbacRepository.invalidateProjectRBAC env projectId) >>= fun _ =>
          pure "deleted" : Service String).run.Uses HouseOp :=
        Calls.uses_run_bind uses_refuseIf fun _ =>
          Calls.uses_run_bind (Calls.uses_run_lift house_invalidateProjectRBAC) fun _ => trivial
      exact Calls.every_of_uses (Calls.uses_bind hrest fun _ => trivial) fun _ next h =>
        HouseOp.callOk h next

/-- Joining a project marks the invitation before it writes the rows. -/
theorem callOk_acceptInvitation {env : Env} {userId token username : String}
    {email : Option String} {emailVerified : Bool} (henv : env.SESSION_CACHE = sessionCache) :
    (applyChange (RbacService.joinProject env userId token username email
      emailVerified)).Every (CallOk sessionCache r) := by
  unfold RbacService.joinProject RbacRepository.acceptInvitation
  refine ⟨⟨nofun, nofun, nofun, trivial, fun _ _ _ h => False.elim h⟩, fun inv => ?_⟩
  cases inv with
  | none => exact trivial
  | some inv =>
    obtain ⟨projectId, roles⟩ := inv
    refine ⟨⟨nofun, nofun, nofun, trivial, ?_⟩, fun _ => ?_⟩
    · rintro _ p u ⟨rfl, rfl⟩ hcache hp hu
      refine Or.inr fun _ _ => ?_
      exact Calls.certain_bind
        (certain_lift_bind (certain_invalidateUserRBAC (henv.trans hcache) hp hu))
    · refine ⟨HouseOp.callOk (by exact trivial) _, fun _ => ?_⟩
      have hrest : (liftM (RbacRepository.invalidateUserRBAC env projectId userId) >>=
          fun _ => pure "accepted" : Service String).run.Uses HouseOp :=
        Calls.uses_run_bind (Calls.uses_run_lift house_invalidateUserRBAC) fun _ => trivial
      exact Calls.every_of_uses (Calls.uses_bind hrest fun _ => trivial) fun _ next h =>
        HouseOp.callOk h next

/-- What a read of a user's permissions may call. -/
def ReaderOp (projectId userId : String) : Op → Prop
  | .kvPut key _ => isValidId projectId = true ∧ key = rbacCacheKey projectId userId
  | .memberRoleHierarchy project user => project = projectId ∧ user = userId
  | .customRolePermissions project roleIds =>
    project = projectId ∧ ∀ id ∈ roleIds, isBuiltInRole id = false
  | .kvGet .. | .negativeHit .. | .negativeSet .. | .negativeDelete .. => True
  | _ => False

theorem ReaderOp.callOk {isolate : ℕ} {projectId userId : String} {op : Op}
    (h : ReaderOp projectId userId op) (next : Answer op → Calls Answer CacheAnswer) :
    CallOk sessionCache (.getEffectivePermissions isolate userId projectId) op next := by
  cases op with
  | kvPut key permissions =>
    obtain ⟨hp, rfl⟩ := h
    refine ⟨?_, nofun, nofun, trivial, fun _ _ _ h => False.elim h⟩
    rintro _ _ ⟨rfl, rfl⟩
    exact ⟨isolate, userId, projectId, rfl, hp, rfl⟩
  | memberRoleHierarchy project user =>
    obtain ⟨rfl, rfl⟩ := h
    refine ⟨nofun, ?_, nofun, trivial, fun _ _ _ h => False.elim h⟩
    rintro _ _ ⟨rfl, rfl⟩
    exact ⟨isolate, rfl⟩
  | customRolePermissions project roleIds =>
    obtain ⟨rfl, hids⟩ := h
    refine ⟨nofun, nofun, ?_, trivial, fun _ _ _ h => False.elim h⟩
    rintro _ _ ⟨rfl, rfl⟩
    exact ⟨⟨isolate, userId, rfl⟩, hids⟩
  | kvGet | negativeHit | negativeSet | negativeDelete =>
    exact ⟨nofun, nofun, nofun, trivial, fun _ _ _ h => False.elim h⟩
  | _ => exact False.elim h

theorem reader_permissionsForRoleIds {projectId userId : String} {roleIds : List String} :
    (RbacRepository.permissionsForRoleIds projectId roleIds).Uses
      (ReaderOp projectId userId) := by
  unfold RbacRepository.permissionsForRoleIds
  simp only
  split_ifs
  · exact trivial
  · refine Calls.uses_bind (uses_perform ⟨rfl, fun id hid => ?_⟩) fun _ => trivial
    exact Bool.not_eq_true' _ ▸ (List.mem_filter.mp hid).2

theorem reader_loadPermissions {env : Env} {projectId userId : String}
    (hp : isValidId projectId = true) :
    (RbacRepository.loadPermissions env userId projectId).Uses
      (ReaderOp projectId userId) := by
  refine Calls.uses_bind (uses_perform ⟨rfl, rfl⟩) fun roleIds => ?_
  split_ifs
  · exact Calls.uses_bind (uses_perform trivial) fun _ => trivial
  · refine Calls.uses_bind reader_permissionsForRoleIds fun permsArray => ?_
    refine Calls.uses_bind (uses_perform trivial) fun _ => ?_
    split_ifs
    · exact Calls.uses_bind (uses_perform ⟨hp, rfl⟩) fun _ => trivial
    · exact trivial

theorem reader_getEffectivePermissions {env : Env} {projectId userId : String} :
    (RbacRepository.getEffectivePermissions env userId projectId).Uses
      (ReaderOp projectId userId) := by
  unfold RbacRepository.getEffectivePermissions
  split_ifs with hvalid
  · have hp : isValidId projectId = true := (Bool.and_eq_true_iff.mp hvalid).1
    refine Calls.uses_bind (uses_perform trivial) fun hit => ?_
    split_ifs
    · exact trivial
    · unfold RbacRepository.cachedPermissions
      split_ifs
      · refine Calls.uses_bind (uses_perform trivial) fun cached => ?_
        cases cached with
        | some permissions => exact trivial
        | none => exact reader_loadPermissions hp
      · exact reader_loadPermissions hp
  · exact trivial

theorem callOk_serveCache (r : CacheRequest) :
    (serveCache sessionCache r).Every (CallOk sessionCache r) := by
  cases r with
  | getEffectivePermissions isolate userId projectId =>
    refine Calls.every_of_uses (Calls.uses_bind reader_getEffectivePermissions
      fun _ => trivial) fun _ next h => ReaderOp.callOk h next
  | updateMemberRoles => exact callOk_updateMemberRoles rfl
  | removeMember => exact callOk_removeMember rfl
  | createCustomRole => exact callOk_createCustomRole rfl
  | updateCustomRole => exact callOk_updateCustomRole rfl
  | deleteCustomRole => exact callOk_deleteCustomRole rfl
  | acceptInvitation => exact callOk_acceptInvitation rfl

end requests

section answers

variable {env : Env} {projectId userId p : String}

theorem given_cachePermissions {cacheKey : String} {permsArray : List String}
    (h : p ∉ permsArray) : (RbacRepository.cachePermissions env cacheKey permsArray).Given
      (Without p) (PutsWithout p) := by
  unfold RbacRepository.cachePermissions
  refine ⟨trivial, fun _ _ => ?_⟩
  cases env.SESSION_CACHE with
  | true => exact ⟨h, fun _ _ => trivial⟩
  | false => exact trivial

/-- What a read caches comes from the answers of its queries. -/
theorem given_loadPermissions : (RbacRepository.loadPermissions env userId projectId).Given
    (Without p) (PutsWithout p) := by
  unfold RbacRepository.loadPermissions
  refine ⟨trivial, fun roleIds hroles => ?_⟩
  have hdefault : p ∉ roleIds.flatMap defaultPermissions := by
    intro hin
    obtain ⟨r, hr, hp⟩ := List.mem_flatMap.mp hin
    exact hroles r hr hp
  change Calls.Given _ _ (if _ then _ else _)
  split_ifs
  · exact ⟨trivial, fun _ _ => trivial⟩
  · unfold RbacRepository.permissionsForRoleIds
    simp only
    split_ifs
    · exact given_cachePermissions fun hin => hdefault (List.mem_eraseDups.mp hin)
    · refine ⟨trivial, fun keys hkeys => ?_⟩
      apply given_cachePermissions
      rw [List.mem_eraseDups, List.mem_append]
      exact fun hin => hin.elim hdefault hkeys

theorem given_getEffectivePermissions :
    (RbacRepository.getEffectivePermissions env userId projectId).Given
      (Without p) (PutsWithout p) := by
  unfold RbacRepository.getEffectivePermissions
  split_ifs
  · refine ⟨trivial, fun hit _ => ?_⟩
    cases hit with
    | true => exact trivial
    | false =>
      unfold RbacRepository.cachedPermissions
      change Calls.Given _ _ (if _ then _ else _)
      split_ifs
      · refine ⟨trivial, fun cached _ => ?_⟩
        cases cached with
        | some permissions => exact trivial
        | none => exact given_loadPermissions
      · exact given_loadPermissions
  · exact trivial

/-- The roles come first. -/
theorem given_unasked : (RbacRepository.getEffectivePermissions env userId projectId).Given
    Unasked AsksNoCustom := by
  unfold RbacRepository.getEffectivePermissions
  split_ifs
  · refine ⟨trivial, fun hit _ => ?_⟩
    cases hit with
    | true => exact trivial
    | false =>
      unfold RbacRepository.cachedPermissions
      change Calls.Given _ _ (if _ then _ else _)
      split_ifs
      · refine ⟨trivial, fun cached _ => ?_⟩
        cases cached with
        | some permissions => exact trivial
        | none => exact ⟨trivial, fun _ h => False.elim h⟩
      · exact ⟨trivial, fun _ h => False.elim h⟩
  · exact trivial

end answers

/-- A read that has not asked for the roles yet caches only what it will be told. -/
def NotAskedYet (q : Calls Answer CacheAnswer) : Prop :=
  q.Given Unasked AsksNoCustom ∧ ∀ p, q.Given (Without p) (PutsWithout p)

/-- What holds of every pool of reads and changes: a call is one that its request may
make, and a read has asked for the roles or is still to be told. -/
structure Tracked (sessionCache : Bool) (w : CachePool) : Prop where
  calls : ∀ (i : ℕ) (r : CacheRequest) (q : Calls Answer CacheAnswer),
    w.running[i]? = some (r, q) → q.Every (CallOk sessionCache r)
  unloaded : ∀ (i : ℕ) (r : CacheRequest) (q : Calls Answer CacheAnswer),
    w.running[i]? = some (r, q) →
    ∀ isolate u p, r = .getEffectivePermissions isolate u p →
      (i, p, u) ∈ w.store.loaded ∨ NotAskedYet q

theorem loaded_subset {s : Audited} {who : ℕ} {op : Op} {l : ℕ × String × String}
    (h : l ∈ s.loaded) : l ∈ (s.exec who op).2.loaded := by
  change l ∈ s.loadedBy who op
  unfold Audited.loadedBy
  split
  · exact List.mem_cons_of_mem _ h
  · exact h

/-- Only the answer to the roles query decides whether a read has loaded. -/
theorem unloaded_call {sessionCache : Bool} {i : ℕ} {r : CacheRequest} {op : Op}
    {next : Answer op → Calls Answer CacheAnswer} {s : Audited}
    (hok : CallOk sessionCache r op next) {isolate : ℕ} {u p : String}
    (hr : r = .getEffectivePermissions isolate u p)
    (h : (i, p, u) ∈ s.loaded ∨ NotAskedYet (.call op next)) :
    (i, p, u) ∈ (s.exec i op).2.loaded ∨ NotAskedYet (next (s.exec i op).1) := by
  rcases h with h | ⟨hunasked, hwithout⟩
  · exact Or.inl (loaded_subset h)
  · cases op with
    | memberRoleHierarchy project user =>
      obtain ⟨isolate', hquery⟩ := hok.query project user rfl
      obtain ⟨-, rfl, rfl⟩ := CacheRequest.getEffectivePermissions.inj (hr.symm.trans hquery)
      exact Or.inl List.mem_cons_self
    | customRolePermissions project roleIds => exact False.elim hunasked.1
    | _ => exact Or.inr ⟨hunasked.2 _ trivial, fun p => (hwithout p).2 _ trivial⟩

theorem not_asked_serve {sessionCache : Bool} {isolate : ℕ} {u p : String} :
    NotAskedYet (serveCache sessionCache (.getEffectivePermissions isolate u p)) :=
  ⟨Calls.given_bind given_unasked fun _ => trivial,
    fun _ => Calls.given_bind given_getEffectivePermissions fun _ => trivial⟩

theorem NotAskedYet.choose {next : Bool → Calls Answer CacheAnswer}
    (h : NotAskedYet (.choose next)) (b : Bool) : NotAskedYet (next b) :=
  ⟨h.1 b, fun p => h.2 p b⟩

variable {sessionCache : Bool} {w w' : CachePool}

theorem loaded_step {m : Move CacheRequest ℕ}
    (hstep : (cacheRequests sessionCache).step w m = some w') {l : ℕ × String × String}
    (h : l ∈ w.store.loaded) : l ∈ w'.store.loaded := by
  cases System.step_cases hstep with
  | call i left r op next hi => exact loaded_subset h
  | _ => exact h

theorem tracked_step {m : Move CacheRequest ℕ} (hw : Tracked sessionCache w)
    (hstep : (cacheRequests sessionCache).step w m = some w') : Tracked sessionCache w' where
  calls := System.running_step hw.calls (fun _ _ _ _ hq => hq) callOk_serveCache
    (fun i _ r _ _ _ hi _ => (hw.calls i r _ hi).2 _) (fun _ left _ _ _ _ hq => hq left) hstep
  unloaded := by
    refine System.running_step hw.unloaded ?_ ?_ ?_ ?_ hstep
    · exact fun i r q _ hq isolate u p hr =>
        (hq isolate u p hr).imp_left (loaded_step hstep)
    · rintro _ isolate u p rfl
      exact Or.inr not_asked_serve
    · intro i left r op next _ hi hstore isolate u p hr
      rw [hstore]
      exact unloaded_call (hw.calls i r _ hi).1 hr (hw.unloaded i r _ hi isolate u p hr)
    · intro i left r next _ _ hq isolate u p hr
      exact (hq isolate u p hr).imp (loaded_step hstep) fun h => h.choose left

theorem tracked_of_reaches {w₀ : CachePool} (hstart : w₀.running = [])
    (h : Reaches (cacheRequests sessionCache).step w₀ w) : Tracked sessionCache w := by
  refine ReachesUnder.invariant (I := Tracked sessionCache)
    ⟨by simp [hstart], by simp [hstart]⟩ (fun t m u ht _ hu => tracked_step ht hu) h

/-- After a change of the request at `i` took the permission from the user: the reads that
hold it were overtaken, the change still owes the cache key its deletion, and once that
is done the cache is clear of the permission. -/
structure Revoked (i : ℕ) (u p perm : String) (w : CachePool) : Prop where
  present : i < w.running.length
  stale : ∀ (j : ℕ) (r : CacheRequest) (q : Calls Answer CacheAnswer),
    w.running[j]? = some (r, q) → ∀ isolate, r = .getEffectivePermissions isolate u p →
      (j, i) ∈ w.store.overtaken ∨ q.Given (Without perm) (PutsWithout perm)
  owes : ∀ (j : ℕ) (r : CacheRequest) (q : Calls Answer CacheAnswer),
    w.running[j]? = some (r, q) → j = i →
      (i, rbacCacheKey p u) ∈ w.store.deleted ∨ q.Certain (Lists p u) (Deletes p u)
  took : (i, p, u) ∈ w.store.took
  cache : (i, rbacCacheKey p u) ∈ w.store.deleted → ∀ permissions expiry,
    w.store.backend.kv (rbacCacheKey p u) = some (permissions, expiry) → perm ∉ permissions

section audit

variable {s : Audited} {who i : ℕ} {op : Op} {u p perm : String}

theorem takes_iff {db db' : Db} {member : String × String} : takes db db' member = true ↔
    ∃ perm ∈ db.getEffectivePermissions member.2 member.1,
      perm ∉ db'.getEffectivePermissions member.2 member.1 := by
  simp [takes]

/-- Who loses a permission had a role. -/
theorem mem_takenFrom {db db' : Db} (hp : perm ∈ db.getEffectivePermissions u p)
    (hnot : perm ∉ db'.getEffectivePermissions u p) : (p, u) ∈ takenFrom db db' := by
  obtain ⟨-, -, role, hrow, -⟩ := Db.mem_getEffectivePermissions.mp hp
  refine List.mem_filter.mpr ⟨List.mem_map.mpr ⟨(p, u, role), hrow, rfl⟩, ?_⟩
  exact takes_iff.mpr ⟨perm, hp, hnot⟩

/-- A member loses a permission only by a change that names them or their project. -/
theorem takesFrom_of_takes (hop : OfCustomRole op)
    (h : takes s.backend.db (s.backend.exec op).2.db (p, u) = true) :
    TakesFrom op (s.backend.exec op).1 p u := by
  by_contra hnot
  obtain ⟨perm, hp, hlost⟩ := takes_iff.mp h
  exact hlost ((exec_sameFor hop hnot).effective_of hp)

theorem valid_of_takes {db db' : Db} {member : String × String}
    (h : takes db db' member = true) :
    isValidId member.1 = true ∧ isValidId member.2 = true := by
  obtain ⟨perm, hp, -⟩ := takes_iff.mp h
  obtain ⟨hproject, huser, -⟩ := Db.mem_getEffectivePermissions.mp hp
  exact ⟨hproject, huser⟩

theorem overtaken_subset {l : ℕ × ℕ} (h : l ∈ s.overtaken) :
    l ∈ (s.exec who op).2.overtaken := List.mem_append_left _ h

/-- A read that asked for the roles is overtaken by the change that takes one. -/
theorem overtaken_of_loaded (hl : (i, p, u) ∈ s.loaded)
    (h : takes s.backend.db (s.backend.exec op).2.db (p, u) = true) :
    (i, who) ∈ (s.exec who op).2.overtaken :=
  List.mem_append_right _ (List.mem_map.mpr ⟨(i, p, u), List.mem_filter.mpr ⟨hl, h⟩, rfl⟩)

theorem deleted_of_exec {d : ℕ × String} (h : d ∈ (s.exec who op).2.deleted) :
    op = .kvDelete d.2 ∧ d.1 = who ∨ d ∈ s.deleted := by
  change d ∈ s.deletedBy who _ op at h
  unfold Audited.deletedBy at h
  split at h
  · rcases List.mem_cons.mp h with rfl | h
    · exact Or.inl ⟨rfl, rfl⟩
    · exact Or.inr h
  · exact Or.inr (List.mem_filter.mp h).1

theorem deleted_kept {d : ℕ × String} (h : d ∈ s.deleted)
    (hother : d.1 = who → ∀ m ∈ takenFrom s.backend.db (s.backend.exec op).2.db,
      rbacCacheKey m.1 m.2 ≠ d.2) : d ∈ (s.exec who op).2.deleted := by
  change d ∈ s.deletedBy who (takenFrom s.backend.db (s.backend.exec op).2.db) op
  unfold Audited.deletedBy
  split
  · exact List.mem_cons_of_mem _ h
  · refine List.mem_filter.mpr ⟨h, ?_⟩
    by_cases hwho : d.1 = who
    · simpa [hwho] using hother hwho
    · simp [hwho]

/-- What a call does to one key of the cache. -/
theorem exec_kv (b : Backend) (op : Op) (key : String) :
    (∃ permissions, op = .kvPut key permissions ∧
      (b.exec op).2.kv key = some (permissions, b.now + KV_TTL_MS)) ∨
    op = .kvDelete key ∧ (b.exec op).2.kv key = none ∨
    op ≠ .kvDelete key ∧ (b.exec op).2.kv key = b.kv key := by
  cases op with
  | kvPut key' permissions =>
    by_cases hkey : key = key'
    · subst hkey
      exact Or.inl ⟨permissions, rfl, Function.update_self ..⟩
    · exact Or.inr (Or.inr ⟨by simp, Function.update_of_ne hkey ..⟩)
  | kvDelete key' =>
    by_cases hkey : key = key'
    · subst hkey
      exact Or.inr (Or.inl ⟨rfl, Function.update_self ..⟩)
    · exact Or.inr (Or.inr ⟨fun h => hkey (Op.kvDelete.inj h).symm,
        Function.update_of_ne hkey ..⟩)
  | negativeHit isolate key' =>
    refine Or.inr (Or.inr ⟨by simp, ?_⟩)
    simp only [Backend.exec]
    split
    · split <;> rfl
    · rfl
  | updateMemberRoles | createCustomRole | updateCustomRole | acceptInvitation =>
    refine Or.inr (Or.inr ⟨by simp, ?_⟩)
    simp only [Backend.exec]
    split <;> rfl
  | _ => exact Or.inr (Or.inr ⟨by simp, rfl⟩)

/-- A change is no query. -/
theorem without_of_takesFrom {a : Answer op} (h : TakesFrom op a p u) : Without perm op a := by
  cases op <;> first
    | exact trivial
    | exact False.elim h

/-- What the queries answer while the user does not have the permission. -/
theorem without_of_answer (hp : isValidId p = true) (hu : isValidId u = true)
    (hnot : ¬MayDo s u p perm)
    (hquery : ∀ project user, op = .memberRoleHierarchy project user → project = p ∧ user = u)
    (hcustom : ∀ project roleIds, op = .customRolePermissions project roleIds →
      project = p ∧ ∀ id ∈ roleIds, isBuiltInRole id = false ∧
        id ∈ s.backend.db.roleHierarchy p Db.MAX_DEPTH (s.backend.db.getMemberRoles p u)) :
    Without perm op (s.exec who op).1 := by
  have hnone : ∀ r ∈ s.backend.db.roleHierarchy p Db.MAX_DEPTH
      (s.backend.db.getMemberRoles p u), ¬s.backend.db.Carries p r perm := by
    intro r hr hcarries
    apply hnot
    rw [MayDo, Db.getEffectivePermissions, hp, hu]
    exact Db.mem_permissionsForRoleIds.mpr ⟨r, hr, hcarries⟩
  cases op with
  | memberRoleHierarchy project user =>
    obtain ⟨rfl, rfl⟩ := hquery project user rfl
    intro r hr hdefault
    exact hnone r (List.mem_eraseDups.mp hr) (Or.inl hdefault)
  | customRolePermissions project roleIds =>
    obtain ⟨rfl, hids⟩ := hcustom project roleIds rfl
    intro hin
    obtain ⟨⟨r, perm'⟩, hrow, rfl⟩ := List.mem_map.mp hin
    obtain ⟨hrow, hasked⟩ := List.mem_filter.mp hrow
    obtain ⟨hmem, hhas⟩ := Bool.and_eq_true_iff.mp hasked
    have hid := hids r (List.contains_iff_mem.mp hmem)
    exact hnone r hid.2 (Or.inr ⟨hid.1, hhas, hrow⟩)
  | _ => exact trivial

end audit

section phase

variable {m : Move CacheRequest ℕ} {i : ℕ} {u p perm : String}

/-- The step of the change itself. -/
theorem revoked_start {left : Bool} (hcache : sessionCache = true)
    (hw : Tracked sessionCache w)
    (hstep : (cacheRequests sessionCache).step w (.next i left) = some w')
    (hhad : MayDo w.store u p perm) (hlost : ¬MayDo w'.store u p perm) :
    Revoked i u p perm w' := by
  obtain ⟨hp, hu, -⟩ := Db.mem_getEffectivePermissions.mp hhad
  cases System.step_cases hstep with
  | choose i left r next hi => exact absurd hhad hlost
  | call i left r op next hi =>
    have hok := (hw.calls i r _ hi).1
    have htakes : takes w.store.backend.db (w.store.backend.exec op).2.db (p, u) = true :=
      takes_iff.mpr ⟨perm, hhad, hlost⟩
    have hfrom : TakesFrom op (w.store.exec i op).1 p u := takesFrom_of_takes hok.ofCustomRole htakes
    have hmem : (p, u) ∈ takenFrom w.store.backend.db (w.store.backend.exec op).2.db :=
      mem_takenFrom hhad hlost
    have hlt : i < w.running.length := (List.getElem?_eq_some_iff.mp hi).1
    -- The change is not itself a deletion of a key, and it forgets its earlier ones.
    have hfresh : (i, rbacCacheKey p u) ∉ (w.store.exec i op).2.deleted := by
      intro hin
      change _ ∈ w.store.deletedBy i _ op at hin
      unfold Audited.deletedBy at hin
      split at hin
      · exact hfrom
      · have hkept := (List.mem_filter.mp hin).2
        simp only [BEq.rfl, Bool.true_and, Bool.not_eq_true', List.any_eq_false] at hkept
        exact hkept (p, u) hmem BEq.rfl
    refine ⟨by simpa using hlt, ?_, ?_, ?_, fun h => absurd h hfresh⟩
    · -- A read in flight holds its answer, and is overtaken, or has not asked yet.
      intro j r' q hj isolate hr
      have hreader {j : ℕ} {q : Calls Answer CacheAnswer}
          (h : (j, p, u) ∈ w.store.loaded ∨ NotAskedYet q) :
          (j, i) ∈ (w.store.exec i op).2.overtaken ∨
            q.Given (Without perm) (PutsWithout perm) :=
        h.imp (fun hl => overtaken_of_loaded hl htakes) fun h => h.2 perm
      rcases System.running_set hi hj with ⟨rfl, rfl, rfl⟩ | ⟨-, hold⟩
      · exact (hreader (hw.unloaded j r' _ hi isolate u p hr)).imp_right fun h =>
          h.2 _ (without_of_takesFrom hfrom)
      · exact hreader (hw.unloaded j r' q hold isolate u p hr)
    · intro j r' q hj heq
      rcases System.running_set hi hj with ⟨rfl, rfl, rfl⟩ | ⟨hne, -⟩
      · exact Or.inr (hok.invalidates _ p u hfrom hcache hp hu)
      · exact absurd heq hne
    · exact List.mem_append_right _ (List.mem_map.mpr ⟨(p, u), hmem, rfl⟩)

theorem deleted_step (hother : ∀ left, m ≠ .next i left)
    (hstep : (cacheRequests sessionCache).step w m = some w') {key : String}
    (h : (i, key) ∈ w.store.deleted) : (i, key) ∈ w'.store.deleted := by
  cases System.step_cases hstep with
  | call j left r op next hi =>
    refine deleted_kept h fun heq => ?_
    exact absurd (congrArg (Move.next · left) heq.symm) (hother left)
  | _ => exact h

theorem overtaken_step (hstep : (cacheRequests sessionCache).step w m = some w')
    {l : ℕ × ℕ} (h : l ∈ w.store.overtaken) : l ∈ w'.store.overtaken := by
  cases System.step_cases hstep with
  | call j left r op next hi => exact overtaken_subset h
  | _ => exact h

/-- A read that was not overtaken is told nothing of the permission. -/
theorem stale_call (hp : isValidId p = true) (hu : isValidId u = true)
    (hw : Tracked sessionCache w) (horder : InOrder w m) (hnot : ¬MayDo w.store u p perm)
    {j isolate : ℕ} {left : Bool} {r : CacheRequest} {op : Op}
    {next : Answer op → Calls Answer CacheAnswer} (hm : m = .next j left)
    (hj : w.running[j]? = some (r, .call op next))
    (hr : r = .getEffectivePermissions isolate u p)
    (h : (Calls.call op next).Given (Without perm) (PutsWithout perm)) :
    (next (w.store.exec j op).1).Given (Without perm) (PutsWithout perm) := by
  subst hm
  have hok := (hw.calls j r _ hj).1
  refine h.2 _ (without_of_answer hp hu hnot ?_ ?_)
  · rintro project user rfl
    obtain ⟨isolate', hquery⟩ := hok.query project user rfl
    obtain ⟨-, rfl, rfl⟩ := CacheRequest.getEffectivePermissions.inj (hr.symm.trans hquery)
    exact ⟨rfl, rfl⟩
  · rintro project roleIds rfl
    obtain ⟨⟨isolate', user, hcustom⟩, hids⟩ := hok.custom project roleIds rfl
    obtain ⟨-, rfl, rfl⟩ := CacheRequest.getEffectivePermissions.inj (hr.symm.trans hcustom)
    have hheld := horder _ (System.nextCall_eq hj)
    subst hr
    exact ⟨rfl, fun id hid => ⟨hids id hid, hheld rfl id hid⟩⟩

/-- The change deletes the key, or has it still to do. -/
theorem owes_call (hcache : sessionCache = true) (hw : Tracked sessionCache w)
    (hrev : Revoked i u p perm w) (horder : InOrder w m) {left : Bool} {r : CacheRequest}
    {op : Op} {next : Answer op → Calls Answer CacheAnswer} (hm : m = .next i left)
    (hi : w.running[i]? = some (r, .call op next)) (hp : isValidId p = true) :
    (i, rbacCacheKey p u) ∈ (w.store.exec i op).2.deleted ∨
      (next (w.store.exec i op).1).Certain (Lists p u) (Deletes p u) := by
  subst hm
  have hok := (hw.calls i r _ hi).1
  rcases hrev.owes i r _ hi rfl with hdeleted | hcertain
  · -- Another change of the same request may owe the key anew.
    by_cases htaken : ∃ member ∈ takenFrom w.store.backend.db (w.store.backend.exec op).2.db,
        rbacCacheKey member.1 member.2 = rbacCacheKey p u
    · obtain ⟨member, hmem, hkey⟩ := htaken
      have htakes := (List.mem_filter.mp hmem).2
      have hvalid := valid_of_takes htakes
      obtain ⟨hproject, huser⟩ := rbacCacheKey_inj hvalid.1 hp hkey
      obtain ⟨project, user⟩ := member
      subst hproject huser
      have hfrom := takesFrom_of_takes hok.ofCustomRole htakes
      exact Or.inr (hok.invalidates _ _ _ hfrom hcache hvalid.1 hvalid.2)
    · exact Or.inl (deleted_kept hdeleted fun _ member hmem hkey => htaken ⟨member, hmem, hkey⟩)
  · rcases hcertain with rfl | hcertain
    · exact Or.inl List.mem_cons_self
    · refine Or.inr (hcertain _ ?_)
      cases op with
      | projectUsers project =>
        rintro rfl
        exact horder _ (System.nextCall_eq hi) _ hrev.took rfl rfl
      | _ => exact trivial

/-- A step in order keeps the cache clear of the permission. -/
theorem cache_step (hw : Tracked sessionCache w) (hrev : Revoked i u p perm w)
    (hp : isValidId p = true) (horder : InOrder w m)
    (hstep : (cacheRequests sessionCache).step w m = some w')
    (hdeleted : (i, rbacCacheKey p u) ∈ w'.store.deleted) (permissions : List String)
    (expiry : ℕ)
    (hkv : w'.store.backend.kv (rbacCacheKey p u) = some (permissions, expiry)) :
    perm ∉ permissions := by
  cases System.step_cases hstep with
  | call j left r op next hj =>
    have hok := (hw.calls j r _ hj).1
    have hbefore (hop : op ≠ .kvDelete (rbacCacheKey p u)) :
        (i, rbacCacheKey p u) ∈ w.store.deleted :=
      (deleted_of_exec hdeleted).resolve_left fun h => hop h.1
    rcases exec_kv w.store.backend op (rbacCacheKey p u) with
      ⟨value, hop, hvalue⟩ | ⟨hop, hvalue⟩ | ⟨hop, hvalue⟩
    · -- Only a read that was not overtaken may put now, and it does not hold the permission.
      have heq : value = permissions := by
        have h := hvalue.symm.trans hkv
        exact (Prod.mk.inj (Option.some.inj h)).1
      obtain ⟨isolate, u', p', hr, hp', hkey⟩ := hok.put _ _ hop
      obtain ⟨rfl, rfl⟩ := rbacCacheKey_inj hp hp' hkey
      subst hop
      rcases hrev.stale j r _ hj isolate hr with hstale | hgiven
      · exact absurd (hbefore (by simp)) (horder _ (System.nextCall_eq hj) _ hstale rfl)
      · exact heq ▸ hgiven.1
    · exact absurd (hvalue.symm.trans hkv) (by simp)
    · exact hrev.cache (hbefore hop) permissions expiry (hvalue.symm.trans hkv)
  | _ => exact hrev.cache hdeleted permissions expiry hkv

theorem revoked_step (hcache : sessionCache = true) (hw : Tracked sessionCache w)
    (hrev : Revoked i u p perm w) (hp : isValidId p = true) (hu : isValidId u = true)
    (horder : InOrder w m) (hnot : ¬MayDo w.store u p perm)
    (hstep : (cacheRequests sessionCache).step w m = some w') : Revoked i u p perm w' where
  present := lt_of_lt_of_le hrev.present (System.length_step hstep)
  stale := by
    refine System.running_step hrev.stale ?_ ?_ ?_ ?_ hstep
    · exact fun j r q _ hq isolate hr => (hq isolate hr).imp_left (overtaken_step hstep)
    · rintro _ isolate rfl
      exact Or.inr (not_asked_serve.2 perm)
    · intro j left r op next hm hj _ isolate hr
      exact (hrev.stale j r _ hj isolate hr).imp (overtaken_step hstep)
        (stale_call hp hu hw horder hnot hm hj hr)
    · intro j left r next _ _ hq isolate hr
      exact (hq isolate hr).imp (overtaken_step hstep) fun h => h left
  owes := by
    refine System.running_step hrev.owes ?_ ?_ ?_ ?_ hstep
    · rintro j r q hother hq rfl
      exact (hq rfl).imp_left (deleted_step hother hstep)
    · exact fun r heq => absurd heq (Nat.ne_of_gt hrev.present)
    · rintro j left r op next hm hj hstore rfl
      rw [hstore]
      exact owes_call hcache hw hrev horder hm hj hp
    · rintro j left r next _ hstore hq rfl
      rw [hstore]
      exact (hq rfl).imp_right fun h => h left
  took := by
    cases System.step_cases hstep with
    | call => exact List.mem_append_left _ hrev.took
    | _ => exact hrev.took
  cache := cache_step hw hrev hp horder hstep

end phase

/-- A project whose only other member, `u`, is a viewer. -/
def viewerOfProject : CachePool where
  store := {
    backend := {
      db := {
        customRoles := [], rolePermissions := [], roleInheritance := []
        memberRoles := [("p", "u", "viewer")]
        invitations := [], guests := [], role_id_unique := List.nodup_nil }
      projectMembers := [("p", "u")]
      kv := fun _ => none
      negativeRbacCache := fun _ => []
      now := 0 }
    loaded := [], overtaken := [], took := [], deleted := [] }
  running := []

def isDone (w : CachePool) (i : ℕ) : Bool :=
  match w.running[i]? with
  | some (_, .ret _) => true
  | _ => false

theorem completed_of_isDone {w : CachePool} {i : ℕ} (h : isDone w i = true) :
    Completed w i := by
  unfold isDone at h
  split at h
  · rename_i r answer hi
    exact ⟨r, answer, hi⟩
  · cases h

end Swazz.RbacCalls
