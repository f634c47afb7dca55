import Swazz.RbacCalls

/-! Role edits and removals of members, interleaved at their calls, and the last owner of
a project. -/
namespace Swazz.RbacCalls

open AtomicCalls
open Rbac (Db)
open StepSystem (Reaches ReachesUnder)

-- The unifier must not run the checks on strings when it compares programs.
attribute [local irreducible] isBlank

/-- A request on the members of a project. -/
inductive MemberRequest where
  | updateMemberRoles (isolate : ℕ) (projectId : String) (userId : Option String)
      (memberId : String) (roles : List String)
  | removeMember (isolate : ℕ) (projectId : String) (userId : Option String)
      (memberId : String)

def serveMember (sessionCache : Bool) :
    MemberRequest → Calls Answer (Except Rbac.Failure String)
  | .updateMemberRoles isolate projectId userId memberId roles =>
    (RbacService.updateMemberRoles ⟨sessionCache, isolate⟩ projectId userId memberId
      roles).run
  | .removeMember isolate projectId userId memberId =>
    (RbacService.removeMember ⟨sessionCache, isolate⟩ projectId userId memberId).run

/-- Any number of requests; the world lets time pass. -/
def memberRequests (sessionCache : Bool) :
    System Answer Backend MemberRequest ℕ (Except Rbac.Failure String) where
  exec _ _ op b := b.exec op
  body := serveMember sessionCache
  world ms b := { b with now := b.now + ms }

abbrev MemberPool := Pool Answer Backend MemberRequest (Except Rbac.Failure String)

def IsOwner (db : Db) (projectId userId : String) : Prop :=
  (projectId, userId, "owner") ∈ db.memberRoles

def HasOwner (b : Backend) (projectId : String) : Prop :=
  ∃ userId, IsOwner b.db projectId userId

/-- The test behind "Cannot remove the owner role from the last owner", for what the
member is left with. -/
def lastOwnerLeaves (db : Db) (projectId memberId : String) (roles : List String) : Bool :=
  (db.getMemberRoles projectId memberId).contains "owner" && !roles.contains "owner" &&
    decide (db.getProjectOwnersCount projectId ≤ 1)

/-- The write a call makes passes the test made on the rows as they are now. -/
def PassesNow (projectId : String) : Op → Backend → Prop
  | .updateMemberRoles project member roles, b =>
    project = projectId → (b.db.updateMemberRoles projectId member roles).isSome →
      lastOwnerLeaves b.db projectId member roles = false
  | .removeProjectMember project member, b =>
    project = projectId → lastOwnerLeaves b.db projectId member [] = false
  | _, _ => True

/-- The test a request made before its write still passes when it writes. -/
def CheckStands (projectId : String) (w : MemberPool) : Move MemberRequest ℕ → Prop
  | .next i _ => ∀ r op, System.nextCall w i = some (r, op) → PassesNow projectId op w.store
  | _ => True

/-- What the requests on members may call. -/
def MemberOp : Op → Prop
  | .createCustomRole .. | .updateCustomRole .. | .deleteCustomRole .. => False
  | .acceptInvitation .. | .insertMemberRoles .. => False
  | _ => True

theorem eraseDups_length_le_one {α : Type} [BEq α] [LawfulBEq α] {l : List α} :
    l.eraseDups.length ≤ 1 ↔ ∀ a ∈ l, ∀ b ∈ l, a = b := by
  cases l with
  | nil => simp
  | cons x l =>
    have hrest : ((x :: l).eraseDups.length ≤ 1) ↔ ∀ a ∈ l, a = x := by
      rw [List.eraseDups_cons, List.length_cons]
      constructor
      · intro h a ha
        have hnil : (l.filter fun b => !b == x).eraseDups = [] :=
          List.length_eq_zero_iff.mp (by omega)
        by_contra hne
        have hmem : a ∈ (l.filter fun b => !b == x).eraseDups := by simp [ha, hne]
        rw [hnil] at hmem
        cases hmem
      · intro h
        have hnil : (l.filter fun b => !b == x) = [] := by
          apply List.filter_eq_nil_iff.mpr
          intro a ha
          simp [h a ha]
        rw [hnil]
        simp
    rw [hrest]
    constructor
    · intro h a ha b hb
      have hax : a = x := (List.mem_cons.mp ha).elim id (h a)
      have hbx : b = x := (List.mem_cons.mp hb).elim id (h b)
      rw [hax, hbx]
    · exact fun h a ha => h a (List.mem_cons_of_mem x ha) x List.mem_cons_self

theorem getProjectOwnersCount_le_one {db : Db} {projectId : String} :
    db.getProjectOwnersCount projectId ≤ 1 ↔
      ∀ u v, IsOwner db projectId u → IsOwner db projectId v → u = v := by
  obtain ⟨owners, howners, hmem⟩ : ∃ owners : List String,
      db.getProjectOwnersCount projectId = owners.eraseDups.length ∧
        ∀ u, u ∈ owners ↔ IsOwner db projectId u := by
    refine ⟨_, rfl, fun u => ?_⟩
    simp only [List.mem_map, List.mem_filter, Bool.and_eq_true, beq_iff_eq, Prod.exists,
      IsOwner]
    constructor
    · rintro ⟨_, _, _, ⟨hrow, rfl, rfl⟩, rfl⟩
      exact hrow
    · exact fun h => ⟨projectId, u, "owner", ⟨h, rfl, rfl⟩, rfl⟩
  rw [howners, eraseDups_length_le_one]
  simp only [hmem]
  exact ⟨fun h u v hu hv => h u hu v hv, fun h u hu v hv => h u v hu hv⟩

theorem getMemberRoles_contains_owner {db : Db} {projectId userId : String} :
    (db.getMemberRoles projectId userId).contains "owner" = true ↔
      IsOwner db projectId userId := by
  simp only [Db.getMemberRoles, List.contains_eq_mem, decide_eq_true_eq, List.mem_map,
    List.mem_filter, Bool.and_eq_true, beq_iff_eq, Prod.exists, IsOwner]
  constructor
  · rintro ⟨_, _, _, ⟨hrow, rfl, rfl⟩, rfl⟩
    exact hrow
  · exact fun h => ⟨projectId, userId, "owner", ⟨h, rfl, rfl⟩, rfl⟩

/-- The test fails exactly when the member is the only owner and keeps no owner role. -/
theorem lastOwnerLeaves_iff {db : Db} {projectId memberId : String} {roles : List String} :
    lastOwnerLeaves db projectId memberId roles = true ↔
      IsOwner db projectId memberId ∧ "owner" ∉ roles ∧
        ∀ u, IsOwner db projectId u → u = memberId := by
  rw [lastOwnerLeaves, Bool.and_eq_true, Bool.and_eq_true, getMemberRoles_contains_owner,
    decide_eq_true_eq, getProjectOwnersCount_le_one]
  have hroles : (!roles.contains "owner") = true ↔ "owner" ∉ roles := by simp
  rw [hroles]
  constructor
  · rintro ⟨⟨howner, hnot⟩, hone⟩
    exact ⟨howner, hnot, fun u hu => hone u memberId hu howner⟩
  · rintro ⟨howner, hnot, hall⟩
    exact ⟨⟨howner, hnot⟩, fun u v hu hv => (hall u hu).trans (hall v hv).symm⟩

/-- When a member's rows give way to others, an owner is left exactly when the test
passes. -/
theorem owner_left_iff {db : Db} {projectId memberId : String} {roles : List String}
    {left : String → Prop} (h : ∃ u, IsOwner db projectId u)
    (hleft : ∀ u, left u ↔ IsOwner db projectId u ∧ u ≠ memberId ∨
      u = memberId ∧ "owner" ∈ roles) :
    (∃ u, left u) ↔ lastOwnerLeaves db projectId memberId roles = false := by
  rw [← Bool.not_eq_true, lastOwnerLeaves_iff]
  constructor
  · rintro ⟨u, hu⟩ ⟨-, hnot, hall⟩
    rcases (hleft u).mp hu with ⟨howner, hne⟩ | ⟨-, hin⟩
    · exact hne (hall u howner)
    · exact hnot hin
  · intro hnot
    by_contra hnone
    have hothers : ∀ u, IsOwner db projectId u → u = memberId := by
      intro u hu
      by_contra hne
      exact hnone ⟨u, (hleft u).mpr (Or.inl ⟨hu, hne⟩)⟩
    have hroles : "owner" ∉ roles := fun hin =>
      hnone ⟨memberId, (hleft memberId).mpr (Or.inr ⟨rfl, hin⟩)⟩
    obtain ⟨u, hu⟩ := h
    exact hnot ⟨hothers u hu ▸ hu, hroles, hothers⟩

theorem isOwner_updateMemberRoles {db db' : Db} {projectId memberId u : String}
    {roles : List String} (h : db.updateMemberRoles projectId memberId roles = some db') :
    IsOwner db' projectId u ↔ IsOwner db projectId u ∧ u ≠ memberId ∨
      u = memberId ∧ "owner" ∈ roles := by
  obtain ⟨rows, hrows, h⟩ := Option.bind_eq_some_iff.mp h
  obtain rfl := Option.some.inj h
  have heq := Rbac.insertAll_eq_some hrows
  simp only [IsOwner, heq, List.mem_append, List.mem_filter, List.mem_map, Prod.mk.injEq]
  grind

theorem isOwner_removeProjectMember (db : Db) (projectId memberId u : String) :
    IsOwner (db.removeProjectMember projectId memberId) projectId u ↔
      IsOwner db projectId u ∧ u ≠ memberId ∨ u = memberId ∧ "owner" ∈ ([] : List String) := by
  simp [IsOwner, Db.removeProjectMember]

/-- Writes to a project leave the owners of another as they are. -/
theorem isOwner_other (db : Db) {projectId project : String} (memberId u : String)
    (roles : List String) (hne : project ≠ projectId) :
    (∀ db', db.updateMemberRoles project memberId roles = some db' →
      (IsOwner db' projectId u ↔ IsOwner db projectId u)) ∧
    (IsOwner (db.removeProjectMember project memberId) projectId u ↔
      IsOwner db projectId u) := by
  constructor
  · intro db' h
    obtain ⟨rows, hrows, h⟩ := Option.bind_eq_some_iff.mp h
    obtain rfl := Option.some.inj h
    have heq := Rbac.insertAll_eq_some hrows
    simp only [IsOwner, heq, List.mem_append, List.mem_filter, List.mem_map, Prod.mk.injEq]
    grind
  · simp only [IsOwner, Db.removeProjectMember, List.mem_filter]
    grind

theorem putDb_db (b : Backend) (db : Db) : (b.putDb db).db = db := rfl

/-- Of the calls of the requests on members, those that leave an owner are the ones whose
test passes now. -/
theorem exec_keeps_owner_iff {b : Backend} {projectId : String} {op : Op} (hop : MemberOp op)
    (h : HasOwner b projectId) :
    HasOwner (b.exec op).2 projectId ↔ PassesNow projectId op b := by
  cases op with
  | updateMemberRoles project member roles =>
    cases hdb : b.db.updateMemberRoles project member roles with
    | none =>
      have hpasses : PassesNow projectId (.updateMemberRoles project member roles) b := by
        rintro rfl hsome
        simp [hdb] at hsome
      simp [Backend.exec, hdb, h, hpasses]
    | some db =>
      have hexec : (b.exec (.updateMemberRoles project member roles)).2.db = db := by
        simp [Backend.exec, hdb, putDb_db]
      rw [HasOwner, hexec]
      by_cases hproject : project = projectId
      · subst hproject
        rw [owner_left_iff h fun u => isOwner_updateMemberRoles hdb]
        simp [PassesNow, hdb]
      · have hother : (∃ u, IsOwner db projectId u) ↔ HasOwner b projectId :=
          exists_congr fun u => (isOwner_other b.db member u roles hproject).1 db hdb
        simp [hother, h, PassesNow, hproject]
  | removeProjectMember project member =>
    by_cases hproject : project = projectId
    · subst hproject
      have hleft := owner_left_iff h fun u =>
        isOwner_removeProjectMember b.db project member u
      exact hleft.trans (by simp [PassesNow])
    · have hother : HasOwner (b.exec (.removeProjectMember project member)).2 projectId ↔
          HasOwner b projectId :=
        exists_congr fun u => (isOwner_other b.db member u [] hproject).2
      simp [hother, h, PassesNow, hproject]
  | createCustomRole | updateCustomRole | deleteCustomRole => exact False.elim hop
  | acceptInvitation | insertMemberRoles => exact False.elim hop
  | negativeHit isolate key =>
    simp only [Backend.exec, PassesNow, iff_true]
    split
    · split <;> exact h
    · exact h
  | _ => exact iff_of_true h trivial

theorem uses_perform {P : Op → Prop} {op : Op} (h : P op) : Calls.Uses P (perform op) :=
  ⟨h, fun _ => trivial⟩

theorem uses_refuseIf {P : Op → Prop} {cond : Bool} {message : String} :
    Calls.Uses P (refuseIf cond message).run := by
  cases cond <;> exact trivial

/-- What a request calls before it writes, and to keep the caches. -/
def ReadOp : Op → Prop
  | .updateInvitationRoles .. | .revokeInvitation .. => False
  | .updateMemberRoles .. | .removeProjectMember .. => False
  | op => MemberOp op

theorem uses_permissionsForRoleIds {projectId : String} {roleIds : List String} :
    Calls.Uses ReadOp (RbacRepository.permissionsForRoleIds projectId roleIds) := by
  unfold RbacRepository.permissionsForRoleIds
  simp only
  split_ifs
  · exact trivial
  · exact Calls.uses_bind (uses_perform trivial) fun _ => trivial

theorem uses_cachePermissions {env : Env} {cacheKey : String} {permsArray : List String} :
    Calls.Uses ReadOp (RbacRepository.cachePermissions env cacheKey permsArray) := by
  unfold RbacRepository.cachePermissions
  refine Calls.uses_bind (uses_perform trivial) fun _ => ?_
  split_ifs
  · exact Calls.uses_bind (uses_perform trivial) fun _ => trivial
  · exact trivial

theorem uses_loadPermissions {env : Env} {userId projectId : String} :
    Calls.Uses ReadOp (RbacRepository.loadPermissions env userId projectId) := by
  refine Calls.uses_bind (uses_perform trivial) fun roleIds => ?_
  split_ifs
  · exact Calls.uses_bind (uses_perform trivial) fun _ => trivial
  · exact Calls.uses_bind uses_permissionsForRoleIds fun _ => uses_cachePermissions

theorem uses_getEffectivePermissions {env : Env} {userId projectId : String} :
    Calls.Uses ReadOp (RbacRepository.getEffectivePermissions env userId projectId) := by
  unfold RbacRepository.getEffectivePermissions
  split_ifs
  · refine Calls.uses_bind (uses_perform trivial) fun hit => ?_
    split_ifs
    · exact trivial
    · unfold RbacRepository.cachedPermissions
      split_ifs
      · refine Calls.uses_bind (uses_perform trivial) fun cached => ?_
        cases cached with
        | some permissions => exact trivial
        | none => exact uses_loadPermissions
      · exact uses_loadPermissions
  · exact trivial

theorem uses_resolveRolePermissions {projectId : String} {roleIds : List String} :
    Calls.Uses ReadOp (RbacRepository.resolveRolePermissions projectId roleIds) := by
  unfold RbacRepository.resolveRolePermissions
  split_ifs
  · exact Calls.uses_bind (uses_perform trivial) fun _ => uses_permissionsForRoleIds
  · exact trivial

theorem uses_assertCallerCovers {env : Env} {projectId : String} {callerId : Option String}
    {roles permissions members : List String} :
    Calls.Uses ReadOp
      (assertCallerCovers env projectId callerId roles permissions members).run := by
  unfold assertCallerCovers
  split
  · exact trivial
  · refine Calls.uses_run_bind (Calls.uses_run_lift (Calls.uses_parAll ?_)) fun answers => ?_
    · intro p hp
      rcases List.mem_cons.mp hp with rfl | hp
      · exact uses_getEffectivePermissions
      rcases List.mem_cons.mp hp with rfl | hp
      · exact uses_resolveRolePermissions
      obtain ⟨m, -, rfl⟩ := List.mem_map.mp hp
      exact uses_getEffectivePermissions
    · split
      · exact Calls.uses_run_bind uses_refuseIf fun _ => uses_refuseIf
      · exact trivial

theorem uses_assertNotGuest {userId : Option String} :
    Calls.Uses ReadOp (RbacService.assertNotGuest userId).run := by
  unfold RbacService.assertNotGuest
  split
  · exact trivial
  · exact Calls.uses_run_bind (Calls.uses_run_lift (uses_perform trivial)) fun _ => uses_refuseIf

theorem uses_assertRolesExist {projectId : String} {roles : List String} :
    Calls.Uses ReadOp (RbacService.assertRolesExist projectId roles).run := by
  unfold RbacService.assertRolesExist
  simp only
  split_ifs
  · exact trivial
  · exact Calls.uses_run_bind (Calls.uses_run_lift (uses_perform trivial)) fun _ => uses_refuseIf

theorem uses_invalidateUserRBAC (env : Env) (projectId userId : String) :
    Calls.Uses ReadOp (RbacRepository.invalidateUserRBAC env projectId userId) := by
  unfold RbacRepository.invalidateUserRBAC
  split_ifs
  · exact Calls.uses_bind (uses_perform trivial) fun _ => uses_perform trivial
  · exact uses_perform trivial
  · exact trivial

theorem ReadOp.member {op : Op} (h : ReadOp op) : MemberOp op := by
  cases op <;> first | exact h | exact False.elim h

theorem uses_writeMemberRoles {env : Env} {projectId memberId : String}
    {roles : List String} :
    Calls.Uses MemberOp (RbacService.writeMemberRoles env projectId memberId roles).run := by
  refine Calls.uses_run_bind ?_ fun _ => ?_
  · refine Calls.uses_run_bind (Calls.uses_run_lift (uses_perform trivial)) fun done => ?_
    split_ifs
    · exact Calls.uses_run_lift (uses_perform trivial)
    · exact trivial
  · have hcache := uses_invalidateUserRBAC env projectId memberId
    exact Calls.uses_run_bind (Calls.uses_run_lift (hcache.mono fun _ h => h.member)) fun _ => trivial

theorem uses_dropMember {env : Env} {projectId memberId : String} :
    Calls.Uses MemberOp (RbacService.dropMember env projectId memberId).run := by
  refine Calls.uses_run_bind ?_ fun _ => ?_
  · exact Calls.uses_run_bind (Calls.uses_run_lift (uses_perform trivial)) fun _ =>
      Calls.uses_run_lift (uses_perform trivial)
  · have hcache := uses_invalidateUserRBAC env projectId memberId
    exact Calls.uses_run_bind (Calls.uses_run_lift (hcache.mono fun _ h => h.member)) fun _ => trivial

theorem uses_updateMemberRoles {env : Env} {projectId memberId : String}
    {userId : Option String} {roles : List String} :
    Calls.Uses MemberOp
      (RbacService.updateMemberRoles env projectId userId memberId roles).run := by
  unfold RbacService.updateMemberRoles
  refine Calls.uses_run_bind uses_refuseIf fun _ => ?_
  refine Calls.uses_run_bind uses_refuseIf fun _ => ?_
  refine Calls.uses_run_bind (uses_assertNotGuest.mono fun _ h => h.member) fun _ => ?_
  refine Calls.uses_run_bind uses_refuseIf fun _ => ?_
  refine Calls.uses_run_bind uses_refuseIf fun _ => ?_
  refine Calls.uses_run_bind (uses_assertRolesExist.mono fun _ h => h.member) fun _ => ?_
  refine Calls.uses_run_bind (Calls.uses_run_lift (uses_perform trivial)) fun isInvite => ?_
  split_ifs
  · refine Calls.uses_run_bind (Calls.uses_run_lift (uses_perform trivial)) fun _ => ?_
    refine Calls.uses_run_bind (uses_assertCallerCovers.mono fun _ h => h.member) fun _ => ?_
    exact Calls.uses_run_bind (Calls.uses_run_lift (uses_perform trivial)) fun _ => trivial
  · refine Calls.uses_run_bind (Calls.uses_run_lift (uses_perform trivial)) fun _ => ?_
    refine Calls.uses_run_bind uses_refuseIf fun _ => ?_
    refine Calls.uses_run_bind (uses_assertCallerCovers.mono fun _ h => h.member) fun _ => ?_
    refine Calls.uses_run_bind (Calls.uses_run_lift (uses_perform trivial)) fun _ => ?_
    split_ifs
    · refine Calls.uses_run_bind (Calls.uses_run_lift (uses_perform trivial)) fun _ => ?_
      exact Calls.uses_run_bind uses_refuseIf fun _ => uses_writeMemberRoles
    · exact uses_writeMemberRoles

theorem uses_removeMember {env : Env} {projectId memberId : String}
    {userId : Option String} :
    Calls.Uses MemberOp (RbacService.removeMember env projectId userId memberId).run := by
  unfold RbacService.removeMember
  refine Calls.uses_run_bind uses_refuseIf fun _ => ?_
  refine Calls.uses_run_bind uses_refuseIf fun _ => ?_
  refine Calls.uses_run_bind (uses_assertNotGuest.mono fun _ h => h.member) fun _ => ?_
  refine Calls.uses_run_bind uses_refuseIf fun _ => ?_
  refine Calls.uses_run_bind (Calls.uses_run_lift (uses_perform trivial)) fun isInvite => ?_
  split_ifs
  · refine Calls.uses_run_bind (Calls.uses_run_lift (uses_perform trivial)) fun _ => ?_
    refine Calls.uses_run_bind (uses_assertCallerCovers.mono fun _ h => h.member) fun _ => ?_
    exact Calls.uses_run_bind (Calls.uses_run_lift (uses_perform trivial)) fun _ => trivial
  · refine Calls.uses_run_bind (uses_assertCallerCovers.mono fun _ h => h.member) fun _ => ?_
    refine Calls.uses_run_bind (Calls.uses_run_lift (uses_perform trivial)) fun _ => ?_
    split_ifs
    · refine Calls.uses_run_bind (Calls.uses_run_lift (uses_perform trivial)) fun _ => ?_
      exact Calls.uses_run_bind uses_refuseIf fun _ => uses_dropMember
    · exact uses_dropMember

theorem uses_serveMember (sessionCache : Bool) (r : MemberRequest) :
    Calls.Uses MemberOp (serveMember sessionCache r) := by
  cases r with
  | updateMemberRoles => exact uses_updateMemberRoles
  | removeMember => exact uses_removeMember

section

variable {sessionCache : Bool} {projectId : String} {w₀ w : MemberPool}

/-- All that runs are calls of requests on members. -/
def MemberOps (w : MemberPool) : Prop :=
  ∀ (i : ℕ) (r : MemberRequest) (p : Calls Answer (Except Rbac.Failure String)),
    w.running[i]? = some (r, p) → Calls.Uses MemberOp p

theorem memberOps_of_reaches (hstart : w₀.running = [])
    (h : Reaches (memberRequests sessionCache).step w₀ w) : MemberOps w := by
  refine ReachesUnder.invariant (I := MemberOps) ?_ (fun w m w' hw _ hstep => ?_) h
  · simp [MemberOps, hstart]
  · exact System.running_step hw (fun _ _ _ _ hp => hp) (uses_serveMember sessionCache)
      (fun i _ r _ _ _ hi _ => (hw i r _ hi).2 _) (fun _ left _ _ _ _ hp => hp left) hstep

/-- A step leaves an owner exactly when the test behind its write, if it makes one, still
passes. -/
theorem owner_after_step {m : Move MemberRequest ℕ} {w' : MemberPool}
    (hops : MemberOps w) (h : HasOwner w.store projectId)
    (hstep : (memberRequests sessionCache).step w m = some w') :
    HasOwner w'.store projectId ↔ CheckStands projectId w m := by
  cases System.step_cases hstep with
  | start r => exact iff_of_true h trivial
  | world ms => exact iff_of_true h trivial
  | choose i left r next hi =>
    refine iff_of_true h fun r' op hcall => ?_
    simp [System.nextCall, hi] at hcall
  | call i left r op next hi =>
    have hop : MemberOp op := (hops i r _ hi).1
    have hstands : CheckStands projectId w (.next i left) ↔
        PassesNow projectId op w.store := by
      simp [CheckStands, System.nextCall_eq hi]
    rw [hstands]
    exact exec_keeps_owner_iff hop h

end

/-- A project of two owners, `a` and `b`. -/
def twoOwners : MemberPool where
  store := {
    db := {
      customRoles := [], rolePermissions := [], roleInheritance := []
      memberRoles := [("p", "a", "owner"), ("p", "b", "owner")]
      invitations := [], guests := [], role_id_unique := List.nodup_nil }
    projectMembers := [("p", "a"), ("p", "b")]
    kv := fun _ => none
    negativeRbacCache := fun _ => []
    now := 0 }
  running := []

/-- Each owner asks to remove the other, and both count two owners before either
removes. -/
def removeEachOther : List (Move MemberRequest ℕ) :=
  [.start (.removeMember 0 "p" (some "a") "b"), .start (.removeMember 0 "p" (some "b") "a")] ++
    List.replicate 13 (.next 0 true) ++ List.replicate 13 (.next 1 true) ++
    [.next 0 true, .next 1 true]

end Swazz.RbacCalls
