import Swazz.RbacGrants

/-! Which rows decide what a user may do in a project, and which operations leave them
as they are. -/
namespace Swazz.Rbac

open DepthBounded

namespace Db

/-- The role can give anything in the project at all. -/
def Live (db : Db) (projectId role : String) : Prop :=
  isBuiltInRole role = true ∨ db.hasRole projectId role = true

theorem live_of_carries {db : Db} {projectId role p : String}
    (h : db.Carries projectId role p) : db.Live projectId role := by
  rcases h with h | ⟨-, h, -⟩
  · by_contra hdead
    have hcustom : isBuiltInRole role = false := by
      rw [Bool.eq_false_iff]
      exact fun hin => hdead (Or.inl hin)
    rw [defaultPermissions_custom hcustom] at h
    cases h
  · exact Or.inr h

/-- A role that gives a permission is live itself. -/
theorem live_of_grants {db : Db} {projectId role p : String} {depth : ℕ}
    (h : db.Grants projectId depth role p) : db.Live projectId role := by
  obtain ⟨x, hpath, hcarries⟩ := h
  cases hpath with
  | here => exact live_of_carries hcarries
  | step hab _ => exact Or.inr hab.2

end Db

/-- The rows that decide what `user` may do in the project are the same. -/
structure SameFor (db db' : Db) (projectId user : String) : Prop where
  roles : ∀ a, db'.hasRole projectId a = db.hasRole projectId a
  permissions : ∀ a p, db.hasRole projectId a = true →
    ((a, p) ∈ db'.rolePermissions ↔ (a, p) ∈ db.rolePermissions)
  inheritance : ∀ a b, db.hasRole projectId a = true → db.Live projectId b →
    ((a, b) ∈ db'.roleInheritance ↔ (a, b) ∈ db.roleInheritance)
  members : ∀ role, db.Live projectId role →
    ((projectId, user, role) ∈ db'.memberRoles ↔ (projectId, user, role) ∈ db.memberRoles)

namespace SameFor

variable {db db' : Db} {projectId user : String}

theorem carries (h : SameFor db db' projectId user) {role p : String}
    (hp : db.Carries projectId role p) : db'.Carries projectId role p := by
  rcases hp with hp | ⟨hcustom, hhas, hrow⟩
  · exact Or.inl hp
  · exact Or.inr ⟨hcustom, (h.roles role).trans hhas, (h.permissions role p hhas).mpr hrow⟩

/-- A path to what carries a permission only passes through live roles. -/
theorem grants (h : SameFor db db' projectId user) {depth : ℕ} {role p : String}
    (hp : db.Grants projectId depth role p) : db'.Grants projectId depth role p := by
  obtain ⟨x, hpath, hcarries⟩ := hp
  refine ⟨x, ?_, h.carries hcarries⟩
  induction hpath with
  | here n a => exact .here n a
  | step hab hbc ih =>
    have hlive : db.Live projectId _ := Db.live_of_grants ⟨_, hbc, hcarries⟩
    refine .step ⟨(h.inheritance _ _ hab.2 hlive).mpr hab.1, ?_⟩ (ih hcarries)
    exact (h.roles _).trans hab.2

theorem effective_of (h : SameFor db db' projectId user) {p : String}
    (hp : p ∈ db.getEffectivePermissions user projectId) :
    p ∈ db'.getEffectivePermissions user projectId := by
  obtain ⟨hproject, huser, role, hrow, hgrants⟩ := Db.mem_getEffectivePermissions.mp hp
  have hrow' := (h.members role (Db.live_of_grants hgrants)).mpr hrow
  exact Db.mem_getEffectivePermissions.mpr ⟨hproject, huser, role, hrow', h.grants hgrants⟩

theorem of_members (hroles : db'.customRoles = db.customRoles)
    (hpermissions : db'.rolePermissions = db.rolePermissions)
    (hinheritance : db'.roleInheritance = db.roleInheritance)
    (hmembers : ∀ role, (projectId, user, role) ∈ db'.memberRoles ↔
      (projectId, user, role) ∈ db.memberRoles) : SameFor db db' projectId user where
  roles a := by simp only [Db.hasRole, hroles]
  permissions a p _ := by rw [hpermissions]
  inheritance a b _ _ := by rw [hinheritance]
  members role _ := hmembers role

theorem refl (db : Db) (projectId user : String) : SameFor db db projectId user :=
  of_members rfl rfl rfl fun _ => Iff.rfl

end SameFor

/-- Writing the roles of one member leaves the others as they are. -/
theorem sameFor_updateMemberRoles {db db' : Db} {projectId memberId q user : String}
    {roles : List String} (h : db.updateMemberRoles projectId memberId roles = some db')
    (hne : ¬(projectId = q ∧ memberId = user)) : SameFor db db' q user := by
  obtain ⟨rows, hrows, h⟩ := Option.bind_eq_some_iff.mp h
  obtain rfl := Option.some.inj h
  have heq := insertAll_eq_some hrows
  refine SameFor.of_members rfl rfl rfl fun role => ?_
  simp only [heq, List.mem_append, List.mem_filter, List.mem_map, Prod.mk.injEq]
  grind

theorem sameFor_removeProjectMember {db : Db} {projectId memberId q user : String}
    (hne : ¬(projectId = q ∧ memberId = user)) :
    SameFor db (db.removeProjectMember projectId memberId) q user := by
  refine SameFor.of_members rfl rfl rfl fun role => ?_
  simp only [Db.removeProjectMember, List.mem_filter]
  grind

/-- A new role is of one project. -/
theorem sameFor_createCustomRole {db db' : Db} {roleId projectId name q user : String}
    {permissions included : List String}
    (h : db.createCustomRole roleId projectId name permissions included = some db')
    (hne : projectId ≠ q) : SameFor db db' q user := by
  unfold Db.createCustomRole at h
  split_ifs at h with hid hname
  obtain ⟨rows, hrows, h⟩ := Option.bind_eq_some_iff.mp h
  obtain ⟨edges, hedges, h⟩ := Option.bind_eq_some_iff.mp h
  obtain rfl := Option.some.inj h
  have hfresh : ∀ a, db.hasRole q a = true → a ≠ roleId := by
    rintro a ha rfl
    obtain ⟨r, hr, hra, -⟩ := Db.hasRole_iff.mp ha
    exact hid (List.mem_map.mpr ⟨r, hr, hra⟩)
  refine { roles := ?_, permissions := ?_, inheritance := ?_, members := fun _ _ => Iff.rfl }
  · intro a
    simp [Db.hasRole, List.any_append, hne]
  · intro a p ha
    have hne' := hfresh a ha
    simp [insertAll_eq_some hrows, hne'.symm]
  · intro a b ha _
    have hne' := hfresh a ha
    simp [insertAll_eq_some hedges, hne'.symm]

theorem sameFor_updateCustomRole {db db' : Db} {projectId roleId name q user : String}
    {permissions included : List String} {found : Bool}
    (h : db.updateCustomRole projectId roleId name permissions included = some (db', found))
    (hne : found = true → projectId ≠ q) : SameFor db db' q user := by
  unfold Db.updateCustomRole at h
  split_ifs at h with howned hname
  · obtain ⟨rows, hrows, h⟩ := Option.bind_eq_some_iff.mp h
    obtain ⟨edges, hedges, h⟩ := Option.bind_eq_some_iff.mp h
    obtain ⟨rfl, rfl⟩ := Prod.mk.inj (Option.some.inj h)
    have hother : ∀ a, db.hasRole q a = true → a ≠ roleId := by
      rintro a ha rfl
      exact hne rfl (Db.hasRole_unique howned ha)
    refine { roles := ?_, permissions := ?_, inheritance := ?_, members := fun _ _ => Iff.rfl }
    · intro a
      simp only [Db.hasRole, List.any_map, Function.comp_def]
      congr 1
      funext r
      split_ifs <;> rfl
    · intro a p ha
      have hne' := hother a ha
      simp [insertAll_eq_some hrows, hne', hne'.symm]
    · intro a b ha _
      have hne' := hother a ha
      simp [insertAll_eq_some hedges, hne', hne'.symm]
  · obtain ⟨rfl, rfl⟩ := Prod.mk.inj (Option.some.inj h)
    exact SameFor.refl db q user

/-- Deleting a role of another project, or one that is not there, takes nothing. -/
theorem sameFor_deleteCustomRole {db : Db} {projectId roleId q user : String}
    (hcustom : isBuiltInRole roleId = false)
    (hne : (db.deleteCustomRole projectId roleId).2 = true → projectId ≠ q) :
    SameFor db (db.deleteCustomRole projectId roleId).1 q user := by
  have hother : db.hasRole projectId roleId = true → projectId ≠ q := hne
  have hlive : db.Live q roleId → db.hasRole q roleId = true := by
    rintro (h | h)
    · exact absurd (hcustom.symm.trans h) (by simp)
    · exact h
  have hunowned : db.hasRole projectId roleId = true → db.hasRole q roleId = false := by
    intro howned
    rw [Bool.eq_false_iff]
    exact fun hq => hother howned (Db.hasRole_unique howned hq)
  refine { roles := ?_, permissions := ?_, inheritance := ?_, members := ?_ }
  · intro a
    rw [Bool.eq_iff_iff]
    simp only [Db.deleteCustomRole, Db.hasRole_iff, List.mem_filter]
    constructor
    · rintro ⟨r, ⟨hr, -⟩, hid, hproject⟩
      exact ⟨r, hr, hid, hproject⟩
    · rintro ⟨r, hr, rfl, rfl⟩
      refine ⟨r, ⟨hr, ?_⟩, rfl, rfl⟩
      by_contra hgone
      obtain ⟨hid, hproject⟩ : r.id = roleId ∧ r.projectId = projectId := by
        simpa using hgone
      exact hother (Db.hasRole_iff.mpr ⟨r, hr, hid, hproject⟩) hproject.symm
  · intro a p ha
    simp only [Db.deleteCustomRole, List.mem_filter]
    grind
  · intro a b ha hb
    have hparent : db.hasRole projectId roleId = true → a ≠ roleId := by
      rintro howned rfl
      exact absurd ((hunowned howned).symm.trans ha) (by simp)
    have hchild : db.hasRole projectId roleId = true → b ≠ roleId := by
      rintro howned rfl
      exact absurd ((hunowned howned).symm.trans (hlive hb)) (by simp)
    simp only [Db.deleteCustomRole, List.mem_filter]
    by_cases howned : db.hasRole projectId roleId = true
    · simp [hparent howned, hchild howned]
    · simp [howned]
  · intro role hrole
    simp only [Db.deleteCustomRole, List.mem_filter]
    grind

end Swazz.Rbac
