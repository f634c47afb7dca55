import Swazz.DepthBounded
import Swazz.RbacService

/-! What a role gives in a project, and what an operation adds to it. -/
namespace Swazz.Rbac

open DepthBounded

namespace Db

/-- The role itself, without what it includes, has the permission. -/
def Carries (db : Db) (projectId role p : String) : Prop :=
  p ∈ defaultPermissions role ∨
    isBuiltInRole role = false ∧ db.hasRole projectId role = true ∧
      (role, p) ∈ db.rolePermissions

/-- The role is a custom role of the project that includes the other one. -/
def Includes (db : Db) (projectId parent child : String) : Prop :=
  (parent, child) ∈ db.roleInheritance ∧ db.hasRole projectId parent = true

/-- The role gives the permission through its inclusions down to a depth. -/
def Grants (db : Db) (projectId : String) (depth : ℕ) (role p : String) : Prop :=
  ∃ x, Within (db.Includes projectId) depth role x ∧ db.Carries projectId x p

theorem mem_permissionsForRoleIds {db : Db} {projectId : String} {roleIds : List String}
    {p : String} : p ∈ db.permissionsForRoleIds projectId roleIds ↔
      ∃ role ∈ roleIds, db.Carries projectId role p := by
  simp only [permissionsForRoleIds, Carries, List.mem_eraseDups, List.mem_append,
    List.mem_flatMap, List.mem_map, List.mem_filter, Bool.and_eq_true, List.contains_eq_mem,
    decide_eq_true_eq, Bool.not_eq_true', Prod.exists, exists_eq_right]
  constructor
  · intro h
    rcases h with ⟨role, hrole, hp⟩ | ⟨role, hp, ⟨hrole, hcustom⟩, hhas⟩
    · exact ⟨role, hrole, Or.inl hp⟩
    · exact ⟨role, hrole, Or.inr ⟨hcustom, hhas, hp⟩⟩
  · intro ⟨role, hrole, h⟩
    rcases h with hp | ⟨hcustom, hhas, hp⟩
    · exact Or.inl ⟨role, hrole, hp⟩
    · exact Or.inr ⟨role, hp, ⟨hrole, hcustom⟩, hhas⟩

theorem mem_includedRoles {db : Db} {projectId : String} {roleIds : List String}
    {child : String} : child ∈ db.includedRoles projectId roleIds ↔
      ∃ parent ∈ roleIds, db.Includes projectId parent child := by
  simp only [includedRoles, Includes, List.mem_map, List.mem_filter, Bool.and_eq_true,
    List.contains_eq_mem, decide_eq_true_eq, Prod.exists, exists_eq_right]
  constructor
  · intro ⟨parent, hrow, hmem, hhas⟩
    exact ⟨parent, hmem, hrow, hhas⟩
  · intro ⟨parent, hmem, hrow, hhas⟩
    exact ⟨parent, hrow, hmem, hhas⟩

/-- The recursive query finds the roles reached within its depth. -/
theorem mem_roleHierarchy {db : Db} {projectId : String} {depth : ℕ} {roleIds : List String}
    {x : String} : x ∈ db.roleHierarchy projectId depth roleIds ↔
      ∃ role ∈ roleIds, Within (db.Includes projectId) depth role x := by
  induction depth generalizing roleIds with
  | zero => simp [roleHierarchy, within_zero]
  | succ depth ih =>
    rw [roleHierarchy, List.mem_append, ih]
    constructor
    · intro h
      rcases h with hx | ⟨child, hchild, hpath⟩
      · exact ⟨x, hx, .here _ x⟩
      · obtain ⟨parent, hparent, hincl⟩ := mem_includedRoles.mp hchild
        exact ⟨parent, hparent, .step hincl hpath⟩
    · intro ⟨role, hrole, hpath⟩
      rcases within_succ.mp hpath with heq | ⟨child, hincl, hpath⟩
      · exact Or.inl (heq ▸ hrole)
      · exact Or.inr ⟨child, mem_includedRoles.mpr ⟨role, hrole, hincl⟩, hpath⟩

theorem mem_permissions_iff {db : Db} {projectId : String} {roleIds : List String}
    {p : String} :
    p ∈ db.permissionsForRoleIds projectId (db.roleHierarchy projectId MAX_DEPTH roleIds) ↔
      ∃ role ∈ roleIds, db.Grants projectId MAX_DEPTH role p := by
  rw [mem_permissionsForRoleIds]
  constructor
  · intro ⟨x, hx, hcarries⟩
    obtain ⟨role, hrole, hpath⟩ := mem_roleHierarchy.mp hx
    exact ⟨role, hrole, x, hpath, hcarries⟩
  · intro ⟨role, hrole, x, hpath, hcarries⟩
    exact ⟨x, mem_roleHierarchy.mpr ⟨role, hrole, hpath⟩, hcarries⟩

theorem mem_getMemberRoles {db : Db} {projectId userId role : String} :
    role ∈ db.getMemberRoles projectId userId ↔
      (projectId, userId, role) ∈ db.memberRoles := by
  simp [getMemberRoles]

theorem mem_getEffectivePermissions {db : Db} {userId projectId p : String} :
    p ∈ db.getEffectivePermissions userId projectId ↔
      isValidId projectId = true ∧ isValidId userId = true ∧
        ∃ role, (projectId, userId, role) ∈ db.memberRoles ∧
          db.Grants projectId MAX_DEPTH role p := by
  unfold getEffectivePermissions
  split_ifs with hvalid
  · rw [mem_permissions_iff]
    simp only [Bool.and_eq_true] at hvalid
    simp [hvalid, mem_getMemberRoles]
  · simp only [List.not_mem_nil, false_iff]
    rintro ⟨hproject, huser, -⟩
    simp [hproject, huser] at hvalid

theorem mem_resolveRolePermissions {db : Db} {projectId : String} {roleIds : List String}
    {p : String} : p ∈ db.resolveRolePermissions projectId roleIds ↔
      isValidId projectId = true ∧ ∃ role ∈ roleIds, db.Grants projectId MAX_DEPTH role p := by
  unfold resolveRolePermissions
  split_ifs with hvalid
  · rw [mem_permissions_iff]
    simp only [Bool.and_eq_true] at hvalid
    simp [hvalid]
  · simp only [List.not_mem_nil, false_iff]
    rintro ⟨hproject, role, hrole, -⟩
    cases roleIds <;> simp_all

/-- A role other than `r` gives the permission without passing through `r`. -/
def GrantsBeside (db : Db) (projectId r : String) (depth : ℕ) (role p : String) : Prop :=
  ∃ x, x ≠ r ∧ Within (Avoiding (db.Includes projectId) r) depth role x ∧
    db.Carries projectId x p

/-- What `r` gives to a depth: its own permissions, and what the roles it includes
give beside it. -/
def Gives (db : Db) (projectId r : String) (depth : ℕ) (p : String) : Prop :=
  db.Carries projectId r p ∨
    ∃ child, db.Includes projectId r child ∧ 0 < depth ∧
      db.GrantsBeside projectId r (depth-1) child p

/-- What a role gives comes beside `r` or through it. -/
theorem grants_iff {db : Db} {projectId : String} {depth : ℕ} {role p : String}
    (r : String) : db.Grants projectId depth role p ↔
      db.GrantsBeside projectId r depth role p ∨
      ∃ i ≤ depth, Within (Avoiding (db.Includes projectId) r) i role r ∧
        db.Gives projectId r (depth-i) p := by
  constructor
  · intro ⟨x, hpath, hcarries⟩
    by_cases hxr : x = r
    · subst hxr
      rcases (within_iff_avoiding x).mp hpath with hpath | ⟨i, j, c, hpath, -, -, hij⟩
      · exact Or.inr ⟨depth, le_rfl, hpath, Or.inl hcarries⟩
      · exact Or.inr ⟨i, by omega, hpath, Or.inl hcarries⟩
    · rcases (within_iff_avoiding r).mp hpath with hpath | ⟨i, j, c, hpath, hrc, hcx, hij⟩
      · exact Or.inl ⟨x, hxr, hpath, hcarries⟩
      · have hdeep : Within (Avoiding (db.Includes projectId) r) (depth-i-1) c x :=
          hcx.mono_depth (by omega)
        exact Or.inr ⟨i, by omega, hpath, Or.inr ⟨c, hrc, by omega, x, hxr, hdeep, hcarries⟩⟩
  · have hsub : ∀ a b, Avoiding (db.Includes projectId) r a b → db.Includes projectId a b :=
      fun _ _ h => h.1
    intro h
    rcases h with ⟨x, -, hpath, hcarries⟩ | ⟨i, hi, hpath, hcarries | hthrough⟩
    · exact ⟨x, hpath.mono hsub, hcarries⟩
    · exact ⟨r, (hpath.mono hsub).mono_depth hi, hcarries⟩
    · obtain ⟨c, hrc, hpos, x, -, hcx, hcarries⟩ := hthrough
      have hlong := (hpath.mono hsub).trans (.step hrc (hcx.mono hsub))
      exact ⟨x, hlong.mono_depth (by omega), hcarries⟩

theorem Grants.of_beside {db : Db} {projectId r : String} {depth : ℕ} {role p : String}
    (h : db.GrantsBeside projectId r depth role p) : db.Grants projectId depth role p :=
  (grants_iff r).mpr (Or.inl h)

theorem Grants.mono_depth {db : Db} {projectId : String} {m n : ℕ} {role p : String}
    (h : db.Grants projectId m role p) (hmn : m ≤ n) : db.Grants projectId n role p := by
  obtain ⟨x, hpath, hcarries⟩ := h
  exact ⟨x, hpath.mono_depth hmn, hcarries⟩

end Db

/-- The custom role `r` of the project now has the permissions and inclusions given;
every other role is as before. -/
structure RoleRewritten (db db' : Db) (projectId r : String)
    (permissions included : List String) : Prop where
  members : db'.memberRoles = db.memberRoles
  otherRole : ∀ q a b, a ≠ r → (db'.Includes q a b ↔ db.Includes q a b)
  otherCarries : ∀ q a p, a ≠ r → (db'.Carries q a p ↔ db.Carries q a p)
  includes : ∀ b, db'.Includes projectId r b ↔ b ∈ included
  carries : ∀ p, db'.Carries projectId r p ↔ p ∈ permissions
  elsewhere : ∀ q, q ≠ projectId → (∀ b, db'.Includes q r b ↔ db.Includes q r b) ∧
    ∀ p, db'.Carries q r p ↔ db.Carries q r p

namespace RoleRewritten

variable {db db' : Db} {projectId r : String} {permissions included : List String}

theorem avoiding (h : RoleRewritten db db' projectId r permissions included) :
    Avoiding (db'.Includes projectId) r = Avoiding (db.Includes projectId) r :=
  avoiding_congr fun a b ha => h.otherRole projectId a b ha

theorem beside (h : RoleRewritten db db' projectId r permissions included) {depth : ℕ}
    {role p : String} : db'.GrantsBeside projectId r depth role p ↔
      db.GrantsBeside projectId r depth role p := by
  unfold Db.GrantsBeside
  rw [h.avoiding]
  constructor
  · intro ⟨x, hx, hpath, hcarries⟩
    exact ⟨x, hx, hpath, (h.otherCarries projectId x p hx).mp hcarries⟩
  · intro ⟨x, hx, hpath, hcarries⟩
    exact ⟨x, hx, hpath, (h.otherCarries projectId x p hx).mpr hcarries⟩

/-- What the rewritten role gives is what its new definition says. -/
theorem gives (h : RoleRewritten db db' projectId r permissions included) {depth : ℕ}
    {p : String} : db'.Gives projectId r depth p ↔ p ∈ permissions ∨
      ∃ child ∈ included, 0 < depth ∧ db.GrantsBeside projectId r (depth-1) child p := by
  unfold Db.Gives
  simp only [h.carries, h.includes, h.beside]

/-- Roles of other projects give what they gave. -/
theorem grants_elsewhere (h : RoleRewritten db db' projectId r permissions included)
    {q : String} (hq : q ≠ projectId) {depth : ℕ} {role p : String} :
    db'.Grants q depth role p ↔ db.Grants q depth role p := by
  have hincl : db'.Includes q = db.Includes q := by
    funext a b
    apply propext
    by_cases ha : a = r
    · subst ha
      exact (h.elsewhere q hq).1 b
    · exact h.otherRole q a b ha
  have hcarries (x : String) : db'.Carries q x p ↔ db.Carries q x p := by
    by_cases hx : x = r
    · subst hx
      exact (h.elsewhere q hq).2 p
    · exact h.otherCarries q x p hx
  unfold Db.Grants
  simp only [hincl, hcarries]

/-- What a member has after the role was rewritten, they had, or the caller has. -/
theorem gains (h : RoleRewritten db db' projectId r permissions included)
    {caller : String} {members : List String}
    (hcovers : Covers db projectId caller included permissions members) {q user p : String}
    (hp : p ∈ db'.getEffectivePermissions user q) :
    p ∈ db.getEffectivePermissions user q ∨
      q = projectId ∧ p ∈ db.getEffectivePermissions caller projectId := by
  obtain ⟨hvalid, huser, role, hrole, hgrants⟩ := Db.mem_getEffectivePermissions.mp hp
  rw [h.members] at hrole
  by_cases hq : q = projectId
  · subst hq
    rcases (Db.grants_iff r).mp hgrants with hbeside | ⟨i, hi, -, hgives⟩
    · have hold := Db.Grants.of_beside (h.beside.mp hbeside)
      exact Or.inl (Db.mem_getEffectivePermissions.mpr ⟨hvalid, huser, role, hrole, hold⟩)
    · refine Or.inr ⟨rfl, ?_⟩
      rcases h.gives.mp hgives with hperm | ⟨child, hchild, hpos, hbeside⟩
      · exact hcovers.permissions p hperm
      · have hgrant : db.Grants q Db.MAX_DEPTH child p :=
          (Db.Grants.of_beside hbeside).mono_depth (by omega)
        exact hcovers.roles p
          (Db.mem_resolveRolePermissions.mpr ⟨hvalid, child, hchild, hgrant⟩)
  · have hold := (h.grants_elsewhere hq).mp hgrants
    exact Or.inl (Db.mem_getEffectivePermissions.mpr ⟨hvalid, huser, role, hrole, hold⟩)

end RoleRewritten

namespace Db

theorem hasRole_iff {db : Db} {projectId roleId : String} :
    db.hasRole projectId roleId = true ↔
      ∃ r ∈ db.customRoles, r.id = roleId ∧ r.projectId = projectId := by
  simp [hasRole]

/-- A custom role belongs to one project. -/
theorem hasRole_unique {db : Db} {p q roleId : String} (hp : db.hasRole p roleId = true)
    (hq : db.hasRole q roleId = true) : p = q := by
  obtain ⟨a, ha, haid, hap⟩ := hasRole_iff.mp hp
  obtain ⟨b, hb, hbid, hbq⟩ := hasRole_iff.mp hq
  have hab : a = b := List.inj_on_of_nodup_map db.role_id_unique ha hb (haid.trans hbid.symm)
  rw [← hap, ← hbq, hab]

theorem not_builtIn_of_custom (ulid : String) : isBuiltInRole ("c_" ++ ulid) = false := by
  have hne (s : String) (hs : s.toList.head? ≠ some 'c') : s ≠ "c_" ++ ulid := by
    intro heq
    apply hs
    rw [heq, String.toList_append]
    rfl
  simp only [isBuiltInRole, DEFAULT_ROLES, List.any_cons, List.any_nil, Bool.or_false,
    Bool.or_eq_false_iff, beq_eq_false_iff_ne]
  exact ⟨hne _ (by decide), hne _ (by decide), hne _ (by decide)⟩

theorem defaultPermissions_custom {roleId : String} (h : isBuiltInRole roleId = false) :
    defaultPermissions roleId = [] := by
  simp only [isBuiltInRole, DEFAULT_ROLES, List.any_cons, List.any_nil, Bool.or_false,
    Bool.or_eq_false_iff, beq_eq_false_iff_ne] at h
  obtain ⟨howner, heditor, hviewer⟩ := h
  have hfalse {s : String} (hs : s ≠ roleId) : (roleId == s) = false := by
    simpa using fun heq : roleId = s => hs heq.symm
  simp [defaultPermissions, DEFAULT_ROLES, List.lookup_cons, hfalse howner, hfalse heditor,
    hfalse hviewer]

theorem carries_custom {db : Db} {projectId roleId p : String}
    (h : isBuiltInRole roleId = false) : db.Carries projectId roleId p ↔
      db.hasRole projectId roleId = true ∧ (roleId, p) ∈ db.rolePermissions := by
  simp [Carries, defaultPermissions_custom h, h]

end Db

/-- No row names the role: it was never given out. -/
def Unused (db : Db) (roleId : String) : Prop :=
  (∀ p, (roleId, p) ∉ db.rolePermissions) ∧ ∀ c, (roleId, c) ∉ db.roleInheritance

/-- The rows after a custom role's definition was written anew. -/
structure RowsRewritten (db db' : Db) (projectId r : String)
    (permissions included : List String) : Prop where
  members : db'.memberRoles = db.memberRoles
  roles : ∀ q a, db'.hasRole q a = true ↔ db.hasRole q a = true ∨ q = projectId ∧ a = r
  permissions : ∀ a p, (a, p) ∈ db'.rolePermissions ↔
    (a, p) ∈ db.rolePermissions ∧ a ≠ r ∨ a = r ∧ p ∈ permissions
  inheritance : ∀ a b, (a, b) ∈ db'.roleInheritance ↔
    (a, b) ∈ db.roleInheritance ∧ a ≠ r ∨ a = r ∧ b ∈ included
  alone : ∀ q, db.hasRole q r = true → q = projectId

theorem rewritten_of_rows {db db' : Db} {projectId r : String}
    {permissions included : List String} (hcustom : isBuiltInRole r = false)
    (h : RowsRewritten db db' projectId r permissions included) :
    RoleRewritten db db' projectId r permissions included where
  members := h.members
  otherRole := by
    intro q a b ha
    simp [Db.Includes, h.inheritance, h.roles, ha]
  otherCarries := by
    intro q a p ha
    simp [Db.Carries, h.permissions, h.roles, ha]
  includes := by
    intro b
    simp [Db.Includes, h.inheritance, h.roles]
  carries := by
    intro p
    rw [Db.carries_custom hcustom]
    simp [h.permissions, h.roles]
  elsewhere := by
    intro q hq
    have hold : db.hasRole q r = false := by
      rw [Bool.eq_false_iff]
      exact fun htrue => hq (h.alone q htrue)
    have hnew : db'.hasRole q r = false := by
      rw [Bool.eq_false_iff]
      intro htrue
      rcases (h.roles q r).mp htrue with hrole | ⟨heq, -⟩
      · simp [hold] at hrole
      · exact hq heq
    refine ⟨?_, ?_⟩
    · intro b
      simp [Db.Includes, hold, hnew]
    · intro p
      rw [Db.carries_custom hcustom, Db.carries_custom hcustom]
      simp [hold, hnew]

theorem rows_of_create {db db' : Db} {roleId projectId name : String}
    {permissions included : List String} (hunused : Unused db roleId)
    (h : db.createCustomRole roleId projectId name permissions included = some db') :
    RowsRewritten db db' projectId roleId permissions included := by
  unfold Db.createCustomRole at h
  split_ifs at h with hid hname
  obtain ⟨perms, hperms, h⟩ := Option.bind_eq_some_iff.mp h
  obtain ⟨inh, hinh, h⟩ := Option.bind_eq_some_iff.mp h
  have hperms := insertAll_eq_some hperms
  have hinh := insertAll_eq_some hinh
  obtain rfl := Option.some.inj h
  constructor
  · rfl
  · intro q a
    rw [Db.hasRole_iff, Db.hasRole_iff]
    constructor
    · intro ⟨r, hr, hid, hproject⟩
      rcases List.mem_append.mp hr with hr | hr
      · exact Or.inl ⟨r, hr, hid, hproject⟩
      · rw [List.mem_singleton.mp hr] at hid hproject
        exact Or.inr ⟨hproject.symm, hid.symm⟩
    · intro h
      rcases h with ⟨r, hr, hid, hproject⟩ | ⟨hq, ha⟩
      · exact ⟨r, List.mem_append_left _ hr, hid, hproject⟩
      · exact ⟨_, List.mem_append_right _ (List.mem_singleton.mpr rfl), ha.symm, hq.symm⟩
  · intro a p
    rw [hperms]
    by_cases ha : a = roleId
    · subst ha
      simp [hunused.1 p]
    · simp [ha, Ne.symm ha]
  · intro a b
    rw [hinh]
    by_cases ha : a = roleId
    · subst ha
      simp [hunused.2 b]
    · simp [ha, Ne.symm ha]
  · intro q htrue
    obtain ⟨r, hr, hrid, -⟩ := Db.hasRole_iff.mp htrue
    exact absurd (List.mem_map.mpr ⟨r, hr, hrid⟩) hid

theorem rows_of_update {db db' : Db} {projectId roleId name : String}
    {permissions included : List String}
    (h : db.updateCustomRole projectId roleId name permissions included = some (db', true)) :
    RowsRewritten db db' projectId roleId permissions included := by
  unfold Db.updateCustomRole at h
  split_ifs at h with hrole hname
  · obtain ⟨perms, hperms, h⟩ := Option.bind_eq_some_iff.mp h
    obtain ⟨inh, hinh, h⟩ := Option.bind_eq_some_iff.mp h
    have hperms := insertAll_eq_some hperms
    have hinh := insertAll_eq_some hinh
    obtain ⟨rfl, -⟩ := Prod.mk.inj (Option.some.inj h)
    constructor
    · rfl
    · intro q a
      have hsame : (db.customRoles.map fun r =>
          if r.id == roleId && r.projectId == projectId then { r with name := name } else r).any
            (fun r => r.id == a && r.projectId == q) = db.hasRole q a := by
        rw [List.any_map]
        congr 1
        funext r
        simp only [Function.comp_apply]
        split_ifs <;> rfl
      rw [show db.hasRole q a = true ∨ q = projectId ∧ a = roleId ↔ db.hasRole q a = true by
        constructor
        · intro h
          rcases h with h | ⟨rfl, rfl⟩
          · exact h
          · exact hrole
        · exact Or.inl]
      rw [← hsame]
      rfl
    · intro a p
      rw [hperms]
      by_cases ha : a = roleId
      · simp [ha]
      · simp [ha, Ne.symm ha]
    · intro a b
      rw [hinh]
      by_cases ha : a = roleId
      · simp [ha]
      · simp [ha, Ne.symm ha]
    · intro q htrue
      exact Db.hasRole_unique htrue hrole
  · simp at h

/-- Fewer rows give no one more. -/
theorem effective_mono {db db' : Db} (hmembers : ∀ row ∈ db'.memberRoles, row ∈ db.memberRoles)
    (hincludes : ∀ q a b, db'.Includes q a b → db.Includes q a b)
    (hcarries : ∀ q a p, db'.Carries q a p → db.Carries q a p) {user q p : String}
    (hp : p ∈ db'.getEffectivePermissions user q) : p ∈ db.getEffectivePermissions user q := by
  obtain ⟨hvalid, huser, role, hrole, x, hpath, hx⟩ := Db.mem_getEffectivePermissions.mp hp
  have hold : db.Grants q Db.MAX_DEPTH role p :=
    ⟨x, hpath.mono (hincludes q), hcarries q x p hx⟩
  exact Db.mem_getEffectivePermissions.mpr ⟨hvalid, huser, role, hmembers _ hrole, hold⟩

theorem effective_delete {db : Db} {projectId roleId user q p : String}
    (hp : p ∈ (db.deleteCustomRole projectId roleId).1.getEffectivePermissions user q) :
    p ∈ db.getEffectivePermissions user q := by
  have hrole (q a : String) (h : (db.deleteCustomRole projectId roleId).1.hasRole q a = true) :
      db.hasRole q a = true := by
    obtain ⟨r, hr, hid⟩ := Db.hasRole_iff.mp h
    exact Db.hasRole_iff.mpr ⟨r, (List.mem_filter.mp hr).1, hid⟩
  apply effective_mono _ _ _ hp
  · exact fun row h => (List.mem_filter.mp h).1
  · exact fun q a b h => ⟨(List.mem_filter.mp h.1).1, hrole q a h.2⟩
  · exact fun q a p h =>
      h.imp_right fun ⟨hc, hr, hrow⟩ => ⟨hc, hrole q a hr, (List.mem_filter.mp hrow).1⟩

theorem effective_remove {db : Db} {projectId memberId user q p : String}
    (hp : p ∈ (db.removeProjectMember projectId memberId).getEffectivePermissions user q) :
    p ∈ db.getEffectivePermissions user q := by
  apply effective_mono _ _ _ hp
  · exact fun _ h => (List.mem_filter.mp h).1
  · exact fun _ _ _ h => h
  · exact fun _ _ _ h => h

/-- Adding rows that give out roles the caller covers. -/
theorem effective_add {db db' : Db} {projectId caller : String} {roles permissions : List String}
    {members : List String} (hcovers : Covers db projectId caller roles permissions members)
    (hsame : ∀ q depth role p, db'.Grants q depth role p ↔ db.Grants q depth role p)
    (hrows : ∀ q user role, (q, user, role) ∈ db'.memberRoles →
      (q, user, role) ∈ db.memberRoles ∨ q = projectId ∧ role ∈ roles) {user q p : String}
    (hp : p ∈ db'.getEffectivePermissions user q) :
    p ∈ db.getEffectivePermissions user q ∨
      q = projectId ∧ p ∈ db.getEffectivePermissions caller projectId := by
  obtain ⟨hvalid, huser, role, hrole, hgrants⟩ := Db.mem_getEffectivePermissions.mp hp
  have hold := (hsame q Db.MAX_DEPTH role p).mp hgrants
  rcases hrows q user role hrole with hrole | ⟨rfl, hrole⟩
  · exact Or.inl (Db.mem_getEffectivePermissions.mpr ⟨hvalid, huser, role, hrole, hold⟩)
  · refine Or.inr ⟨rfl, hcovers.roles p ?_⟩
    exact Db.mem_resolveRolePermissions.mpr ⟨hvalid, role, hrole, hold⟩

theorem effective_updateMember {db db' : Db} {projectId caller memberId : String}
    {roles permissions members : List String}
    (hcovers : Covers db projectId caller roles permissions members)
    (h : db.updateMemberRoles projectId memberId roles = some db') {user q p : String}
    (hp : p ∈ db'.getEffectivePermissions user q) :
    p ∈ db.getEffectivePermissions user q ∨
      q = projectId ∧ p ∈ db.getEffectivePermissions caller projectId := by
  obtain ⟨rows, hrows, h⟩ := Option.bind_eq_some_iff.mp h
  have hrows := insertAll_eq_some hrows
  obtain rfl := Option.some.inj h
  apply effective_add hcovers _ _ hp
  · exact fun _ _ _ _ => Iff.rfl
  · intro q user role hrole
    rw [hrows] at hrole
    rcases List.mem_append.mp hrole with hrole | hrole
    · exact Or.inl (List.mem_filter.mp hrole).1
    · obtain ⟨r, hr, heq⟩ := List.mem_map.mp hrole
      obtain ⟨rfl, rfl, rfl⟩ : projectId = q ∧ memberId = user ∧ r = role := by
        simpa using heq
      exact Or.inr ⟨rfl, hr⟩

/-- Accepting an invitation whose roles the caller covers, or one to another project. -/
theorem effective_accept {db₀ db db' : Db} {projectId caller : String} {roles : List String}
    (hcovers : Covers db₀ projectId caller roles [] [])
    (hsame : ∀ q depth role p, db.Grants q depth role p ↔ db₀.Grants q depth role p)
    {token username userId : String} {email : Option String} {emailVerified : Bool} {now : ℕ}
    {inv : Invitation}
    (h : db.acceptInvitation token username email emailVerified userId now = some (inv, db'))
    (hinv : inv.projectId = projectId → ∀ r ∈ inv.targetRoleIds, r ∈ roles)
    {user p : String} (hp : p ∈ db'.getEffectivePermissions user projectId) :
    p ∈ db.getEffectivePermissions user projectId ∨
      p ∈ db₀.getEffectivePermissions caller projectId := by
  obtain ⟨inv', -, heq⟩ := Option.map_eq_some_iff.mp h
  obtain ⟨hinv', hdb⟩ := Prod.mk.inj heq
  subst hinv' hdb
  obtain ⟨hvalid, huser, role, hrole, hgrants⟩ := Db.mem_getEffectivePermissions.mp hp
  have hold : db.Grants projectId Db.MAX_DEPTH role p := hgrants
  rcases List.mem_append.mp hrole with hrole | hrole
  · exact Or.inl (Db.mem_getEffectivePermissions.mpr ⟨hvalid, huser, role, hrole, hold⟩)
  · have hrole := (List.mem_filter.mp (List.mem_eraseDups.mp hrole)).1
    obtain ⟨r, hr, heq⟩ := List.mem_map.mp hrole
    obtain ⟨hproject, -, rfl⟩ : inv'.projectId = projectId ∧ userId = user ∧ r = role := by
      simpa using heq
    refine Or.inr (hcovers.roles p (Db.mem_resolveRolePermissions.mpr ?_))
    exact ⟨hvalid, r, hinv hproject r hr, (hsame _ _ _ _).mp hold⟩

/-- The id a request creates a role with was never given out. -/
def Request.Fresh (db : Db) : Request → Prop
  | .createCustomRole ulid _ => Unused db ("c_" ++ ulid)
  | _ => True

/-- The request decides what the invitation grants. -/
def Request.Writes (id : String) : Request → Prop
  | .updateMemberRoles memberId _ => id = memberId
  | .createInvitation id' _ _ _ _ => id = id'
  | _ => False

theorem mem_of_accept {db db' : Db} {token username userId : String} {email : Option String}
    {emailVerified : Bool} {now : ℕ} {inv : Invitation}
    (h : db.acceptInvitation token username email emailVerified userId now = some (inv, db')) :
    inv ∈ db.invitations := by
  obtain ⟨inv', hfind, heq⟩ := Option.map_eq_some_iff.mp h
  obtain ⟨hinv', -⟩ := Prod.mk.inj heq
  subst hinv'
  exact List.mem_of_find?_eq_some hfind

/-- What a user gains by a granted request, or by accepting an invitation as the request
left it, the caller had in the project before. -/
theorem gains_held_by_caller {db db' : Db} {projectId status : String}
    {userId : Option String} {req : Request} (hfresh : req.Fresh db)
    (h : perform db projectId userId req = .ok (db', status)) :
    ∃ caller, userId = some caller ∧
      (∀ user q p, p ∈ db'.getEffectivePermissions user q →
        p ∈ db.getEffectivePermissions user q ∨
          q = projectId ∧ p ∈ db.getEffectivePermissions caller projectId) ∧
      ∀ token username email emailVerified acceptor now inv db'',
        db'.acceptInvitation token username email emailVerified acceptor now =
          some (inv, db'') → req.Writes inv.id →
        ∀ user p, p ∈ db''.getEffectivePermissions user projectId →
          p ∈ db'.getEffectivePermissions user projectId ∨
            p ∈ db.getEffectivePermissions caller projectId := by
  cases req with
  | createCustomRole ulid body =>
    obtain ⟨caller, name, hcaller, hcovers, hdb⟩ := createCustomRole_ok h
    have hrewritten := rewritten_of_rows (Db.not_builtIn_of_custom ulid)
      (rows_of_create hfresh hdb)
    refine ⟨caller, hcaller, fun user q p hp => hrewritten.gains hcovers hp, ?_⟩
    exact fun _ _ _ _ _ _ _ _ _ hwrites => hwrites.elim
  | updateCustomRole roleId body =>
    obtain ⟨caller, name, hcaller, hreserved, hcovers, hdb⟩ := updateCustomRole_ok h
    have hcustom : isBuiltInRole roleId = false := (Bool.or_eq_false_iff.mp hreserved).1
    have hrewritten := rewritten_of_rows hcustom (rows_of_update hdb)
    refine ⟨caller, hcaller, fun user q p hp => hrewritten.gains hcovers hp, ?_⟩
    exact fun _ _ _ _ _ _ _ _ _ hwrites => hwrites.elim
  | deleteCustomRole roleId =>
    obtain ⟨caller, hcaller, -, -, hdb⟩ := deleteCustomRole_ok h
    have hdb' : (db.deleteCustomRole projectId roleId).1 = db' := by rw [hdb]
    subst hdb'
    refine ⟨caller, hcaller, fun user q p hp => Or.inl (effective_delete hp), ?_⟩
    exact fun _ _ _ _ _ _ _ _ _ hwrites => hwrites.elim
  | updateMemberRoles memberId roles =>
    obtain ⟨caller, hcaller, -, hcase⟩ := updateMemberRoles_ok h
    rcases hcase with ⟨-, hcovers, rfl⟩ | ⟨hnone, -, hcovers, hdb⟩
    · refine ⟨caller, hcaller, fun _ _ _ hp => Or.inl hp, ?_⟩
      intro token username email emailVerified acceptor now inv db'' haccept hwrites user p hp
      refine effective_accept hcovers ?_ haccept ?_ hp
      · exact fun _ _ _ _ => Iff.rfl
      -- The accepted row is one the request rewrote.
      obtain ⟨row, -, heq⟩ := List.mem_map.mp (mem_of_accept haccept)
      have hroles : inv.targetRoleIds = roles := by
        by_cases hid : row.id = memberId
        · rw [← heq]
          simp [hid]
        · have hinv : row = inv := by simpa [hid] using heq
          rw [hinv] at hid
          exact absurd hwrites hid
      intro _ r hr
      exact List.mem_append_right _ (hroles ▸ hr)
    · refine ⟨caller, hcaller, fun user q p hp => effective_updateMember hcovers hdb hp, ?_⟩
      intro token username email emailVerified acceptor now inv db'' haccept hwrites user p hp
      obtain ⟨rows, -, hdb⟩ := Option.bind_eq_some_iff.mp hdb
      obtain rfl := Option.some.inj hdb
      have hcovers' : Covers db projectId caller roles [] [] :=
        ⟨hcovers.roles, by simp, by simp⟩
      refine effective_accept hcovers' ?_ haccept ?_ hp
      · exact fun _ _ _ _ => Iff.rfl
      intro hproject
      have hmem := mem_of_accept haccept
      simp only [Db.checkInvitationExists, List.any_eq_false, Bool.and_eq_true, beq_iff_eq]
        at hnone
      exact absurd ⟨hwrites, hproject⟩ (hnone inv hmem)
  | removeMember memberId =>
    obtain ⟨caller, hcaller, -, hcase⟩ := removeMember_ok h
    rcases hcase with ⟨-, rfl⟩ | ⟨-, -, rfl⟩
    · refine ⟨caller, hcaller, fun _ _ _ hp => Or.inl hp, ?_⟩
      exact fun _ _ _ _ _ _ _ _ _ hwrites => hwrites.elim
    · refine ⟨caller, hcaller, fun _ _ _ hp => Or.inl (effective_remove hp), ?_⟩
      exact fun _ _ _ _ _ _ _ _ _ hwrites => hwrites.elim
  | createInvitation id token expiresAt body checks =>
    obtain ⟨caller, email, username, hcaller, hcovers, hdb⟩ := createInvitation_ok h
    unfold Db.createInvitation at hdb
    split_ifs at hdb with hid
    obtain rfl := Option.some.inj hdb
    refine ⟨caller, hcaller, fun _ _ _ hp => Or.inl hp, ?_⟩
    intro token username email emailVerified acceptor now inv db'' haccept hwrites user p hp
    refine effective_accept hcovers ?_ haccept ?_ hp
    · exact fun _ _ _ _ => Iff.rfl
    intro _ r hr
    rcases List.mem_append.mp (mem_of_accept haccept) with hmem | hmem
    · simp only [Bool.not_eq_true, List.any_eq_false, beq_iff_eq] at hid
      exact absurd hwrites (hid inv hmem)
    · rw [List.mem_singleton.mp hmem] at hr
      exact hr

/-- An owner who creates a role that includes the viewer's. -/
theorem gains_held_by_caller_create : ∃ db db' : Db, ∃ req : Request, req.Fresh db ∧
    perform db "p" (some "alice") req = .ok (db', "created") ∧
    ∀ user q p, p ∈ db'.getEffectivePermissions user q →
      p ∈ db.getEffectivePermissions user q ∨
        q = "p" ∧ p ∈ db.getEffectivePermissions "alice" "p" := by
  let db : Db := {
    customRoles := [], rolePermissions := [], roleInheritance := [],
    memberRoles := [("p", "alice", "owner")], invitations := [], guests := [],
    role_id_unique := List.nodup_nil }
  let req : Request := .createCustomRole "1"
    { name := some "Auditor", permissions := ["get:/api/projects/:id/audit-logs"],
      includedRoles := ["viewer"] }
  have hfresh : req.Fresh db := by simp [Request.Fresh, Unused, req, db]
  have hok : ∃ db', perform db "p" (some "alice") req = .ok (db', "created") := ⟨_, by rfl⟩
  obtain ⟨db', hok⟩ := hok
  obtain ⟨caller, hcaller, hgains, -⟩ := gains_held_by_caller hfresh hok
  obtain rfl := Option.some.inj hcaller
  exact ⟨db, db', req, hfresh, hok, hgains⟩

end Swazz.Rbac
