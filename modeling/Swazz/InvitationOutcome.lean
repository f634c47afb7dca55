import Mathlib.Data.Set.Basic
import Swazz.InvitationCalls

/-! Accepting an invitation is all or nothing as long as the roles can be granted once it is
spent, and nobody revokes it then. -/
namespace Swazz.InvitationCalls

open AtomicCalls
open LegacyRoles (Tables User getInvitationByToken refusalOf Member)
open Rbac (Invitation InvitationStatus)
open StepSystem (Reaches ReachesUnder)

/-- What never changes of an invitation. -/
def erase (inv : Invitation) : Invitation := { inv with status := .pending }

/-- An id is a primary key, and tokens are drawn at random. -/
structure Keyed (tables : Tables) : Prop where
  ids : (tables.rbac.invitations.map (·.id)).Nodup
  tokens : (tables.rbac.invitations.map (·.token)).Nodup

/-- The user is a member of the invitation's project, with every role of it. -/
def HasRoles (tables : Tables) (inv : Invitation) (userId : String) : Prop :=
  (∀ r ∈ inv.targetRoleIds, (inv.projectId, userId, r) ∈ tables.rbac.memberRoles) ∧
    ∃ m ∈ tables.members, m.key = (inv.projectId, userId)

/-- What is known of who has spent an invitation. -/
def Store.spentBy (s : Store) : Set (String × ℕ × String) := {e | e ∈ s.spent}

/-! ### Statuses -/

section

variable {l : List Invitation} {p : Invitation → Bool} {st : InvitationStatus} {i j : Invitation}

/-- `UPDATE … SET status = … WHERE …` -/
def mark (p : Invitation → Bool) (st : InvitationStatus) (l : List Invitation) :
    List Invitation :=
  l.map fun i => if p i then { i with status := st } else i

theorem erase_mark (p : Invitation → Bool) (st : InvitationStatus) (l : List Invitation) :
    (mark p st l).map erase = l.map erase := by
  rw [mark, List.map_map]
  refine List.map_congr_left fun i _ => ?_
  show erase (if p i then { i with status := st } else i) = erase i
  split_ifs <;> rfl

theorem mem_mark (h : j ∈ mark p st l) :
    ∃ i ∈ l, erase j = erase i ∧ (p i = true ∧ j.status = st ∨ p i = false ∧ j = i) := by
  obtain ⟨i, hi, rfl⟩ := List.mem_map.mp h
  refine ⟨i, hi, ?_⟩
  by_cases hp : p i = true
  · rw [if_pos hp]
    exact ⟨rfl, Or.inl ⟨hp, rfl⟩⟩
  · rw [if_neg hp]
    exact ⟨rfl, Or.inr ⟨Bool.eq_false_iff.mpr hp, rfl⟩⟩

theorem id_of_erase (h : erase i = erase j) : i.id = j.id :=
  (congrArg Invitation.id h : (erase i).id = (erase j).id)

theorem token_of_erase (h : erase i = erase j) : i.token = j.token :=
  (congrArg Invitation.token h : (erase i).token = (erase j).token)

theorem grants_of_erase (h : erase i = erase j) :
    i.projectId = j.projectId ∧ i.targetRoleIds = j.targetRoleIds :=
  ⟨(congrArg Invitation.projectId h : (erase i).projectId = (erase j).projectId),
    (congrArg Invitation.targetRoleIds h : (erase i).targetRoleIds = (erase j).targetRoleIds)⟩

theorem HasRoles.of_erase {tables : Tables} {userId : String} (h : HasRoles tables i userId)
    (heq : erase i = erase j) : HasRoles tables j userId := by
  obtain ⟨hproject, hroles⟩ := grants_of_erase heq
  unfold HasRoles
  rw [← hproject, ← hroles]
  exact h

end

/-! ### The rows of an acceptance -/

section

variable (tables : Tables) (projectId userId : String) (roles : List String)

theorem insertMemberOrIgnore_spec (m : Member) :
    (tables.insertMemberOrIgnore m).rbac = tables.rbac ∧
      (∀ m' ∈ tables.members, m' ∈ (tables.insertMemberOrIgnore m).members) ∧
      ∃ m' ∈ (tables.insertMemberOrIgnore m).members, m'.key = m.key := by
  unfold Tables.insertMemberOrIgnore Tables.insertMember
  split
  case isTrue hkey =>
    obtain ⟨m', hm', heq⟩ := List.mem_map.mp hkey
    exact ⟨rfl, fun _ hm => hm, m', hm', heq⟩
  case isFalse =>
    exact ⟨rfl, fun _ hm => List.mem_append_left _ hm, m,
      List.mem_append_right _ (List.mem_singleton_self m), rfl⟩

theorem acceptRows_invitations :
    (AccountCleanup.acceptRows tables projectId userId roles).rbac.invitations =
      tables.rbac.invitations := by
  show (tables.insertMemberOrIgnore ⟨projectId, userId, "viewer"⟩).rbac.invitations = _
  rw [(insertMemberOrIgnore_spec tables _).1]

theorem acceptRows_memberRoles {row : String × String × String} :
    row ∈ (AccountCleanup.acceptRows tables projectId userId roles).rbac.memberRoles ↔
      row ∈ tables.rbac.memberRoles ∨ ∃ r ∈ roles, row = (projectId, userId, r) := by
  have hrbac := (insertMemberOrIgnore_spec tables ⟨projectId, userId, "viewer"⟩).1
  simp only [AccountCleanup.acceptRows, hrbac, List.mem_append, List.mem_eraseDups,
    List.mem_filter, List.mem_map]
  constructor
  · rintro (hold | ⟨⟨r, hr, rfl⟩, -⟩)
    · exact Or.inl hold
    · exact Or.inr ⟨r, hr, rfl⟩
  · rintro (hold | ⟨r, hr, rfl⟩)
    · exact Or.inl hold
    · by_cases hin : (projectId, userId, r) ∈ tables.rbac.memberRoles
      · exact Or.inl hin
      · exact Or.inr ⟨⟨r, hr, rfl⟩, by simpa using hin⟩

/-- Nobody loses a role, and the user gets those of the invitation. -/
theorem hasRoles_acceptRows {tables : Tables} {inv : Invitation} {u : String}
    (h : HasRoles tables inv u ∨
      inv.projectId = projectId ∧ u = userId ∧ inv.targetRoleIds = roles) :
    HasRoles (AccountCleanup.acceptRows tables projectId userId roles) inv u := by
  obtain ⟨-, hkeep, hnew⟩ := insertMemberOrIgnore_spec tables ⟨projectId, userId, "viewer"⟩
  rcases h with ⟨hroles, m, hm, hkey⟩ | ⟨rfl, rfl, rfl⟩
  · exact ⟨fun r hr => (acceptRows_memberRoles _ _ _ _).mpr (Or.inl (hroles r hr)),
      m, hkeep m hm, hkey⟩
  · exact ⟨fun r hr => (acceptRows_memberRoles _ _ _ _).mpr (Or.inr ⟨r, hr, rfl⟩), hnew⟩

end

/-! ### Every run -/

/-- What holds whatever fails and whoever revokes: an invitation that was spent is pending no more,
so that it is spent once. -/
structure Sound (T : Tables) (s : Store) : Prop where
  same : s.tables.rbac.invitations.map erase = T.rbac.invitations.map erase
  closed : ∀ e ∈ s.spent, ∀ inv ∈ s.tables.rbac.invitations, inv.id = e.1 →
    inv.status ≠ .pending
  once : ∀ e ∈ s.spent, ∀ e' ∈ s.spent, e.1 = e'.1 → e = e'
  taken : ∀ inv ∈ s.tables.rbac.invitations, inv.status = .accepted →
    (∃ old ∈ T.rbac.invitations, old.id = inv.id ∧ old.status = .accepted) ∨
      ∃ e ∈ s.spent, e.1 = inv.id
  given : ∀ g ∈ s.granted, (∃ e ∈ s.spent, e.1 = g.1 ∧ e.2.2 = g.2) ∧
    ∀ inv ∈ s.tables.rbac.invitations, inv.id = g.1 → HasRoles s.tables inv g.2

section

variable {T : Tables} {s : Store} {i j : Invitation}

theorem Sound.origin (h : Sound T s) (hi : i ∈ s.tables.rbac.invitations) :
    ∃ old ∈ T.rbac.invitations, erase old = erase i := by
  have hmem : erase i ∈ T.rbac.invitations.map erase := h.same ▸ List.mem_map_of_mem hi
  obtain ⟨old, hold, heq⟩ := List.mem_map.mp hmem
  exact ⟨old, hold, heq⟩

theorem Keyed.of_same (hT : Keyed T)
    (h : s.tables.rbac.invitations.map erase = T.rbac.invitations.map erase) :
    Keyed s.tables := by
  have hmap {β : Type} (f : Invitation → β) (hf : ∀ i, f (erase i) = f i) :
      s.tables.rbac.invitations.map f = T.rbac.invitations.map f := by
    have hcomp (l : List Invitation) : (l.map erase).map f = l.map f := by
      rw [List.map_map]
      exact List.map_congr_left fun i _ => hf i
    rw [← hcomp s.tables.rbac.invitations, h, hcomp]
  refine ⟨?_, ?_⟩
  · rw [hmap (·.id) fun _ => rfl]
    exact hT.ids
  · rw [hmap (·.token) fun _ => rfl]
    exact hT.tokens

theorem Keyed.eq_of_id {T : Tables} (hT : Keyed T) (hi : i ∈ T.rbac.invitations)
    (hj : j ∈ T.rbac.invitations) (h : i.id = j.id) : i = j :=
  List.inj_on_of_nodup_map hT.ids hi hj h

theorem Keyed.eq_of_token {T : Tables} (hT : Keyed T) (hi : i ∈ T.rbac.invitations)
    (hj : j ∈ T.rbac.invitations) (h : i.token = j.token) : i = j :=
  List.inj_on_of_nodup_map hT.tokens hi hj h

theorem of_acceptable {token username : String} {email : Option String} {emailVerified : Bool}
    {now : ℕ} (h : Rbac.Db.acceptable token username email emailVerified now i = true) :
    i.token = token ∧ i.status = .pending := by
  simp only [Rbac.Db.acceptable, Bool.and_eq_true, beq_iff_eq] at h
  exact ⟨h.1.1.1.1, h.1.1.1.2⟩

/-- An invitation is declined or revoked. -/
theorem Sound.revoke (h : Sound T s) (p : Invitation → Bool) :
    Sound T (s.putRbac { s.tables.rbac with
      invitations := mark p .revoked s.tables.rbac.invitations }) := by
  refine ⟨(erase_mark _ _ _).trans h.same, ?_, h.once, ?_, ?_⟩
  · intro e he inv hinv hid
    obtain ⟨old, hold, -, ⟨-, hstatus⟩ | ⟨-, rfl⟩⟩ := mem_mark hinv
    · rw [hstatus]
      decide
    · exact h.closed e he inv hold hid
  · intro inv hinv haccepted
    obtain ⟨old, hold, -, ⟨-, hstatus⟩ | ⟨-, rfl⟩⟩ := mem_mark hinv
    · rw [hstatus] at haccepted
      cases haccepted
    · exact h.taken inv hold haccepted
  · intro g hg
    refine ⟨(h.given g hg).1, fun inv hinv hid => ?_⟩
    obtain ⟨old, hold, heq, -⟩ := mem_mark hinv
    exact ((h.given g hg).2 old hold ((id_of_erase heq).symm.trans hid)).of_erase heq.symm

theorem Sound.accept (h : Sound T s) (hT : Keyed T) {p : Invitation → Bool} {token : String}
    (hp : ∀ i, p i = true → i.token = token ∧ i.status = .pending) (who : ℕ) (userId : String) :
    Sound T (s.accept who p userId).2 := by
  unfold Store.accept
  split
  · exact h
  · rename_i inv hfind
    have hkeyed := hT.of_same h.same
    have hmem : inv ∈ s.tables.rbac.invitations := List.mem_of_find?_eq_some hfind
    have hinv : p inv = true := List.find?_some hfind
    refine ⟨(erase_mark _ _ _).trans h.same, ?_, ?_, ?_, ?_⟩
    · intro e he i hi hid
      obtain ⟨old, hold, -, ⟨-, hstatus⟩ | ⟨hnot, rfl⟩⟩ := mem_mark hi
      · rw [hstatus]
        decide
      · rcases List.mem_append.mp he with he | he
        · exact h.closed e he i hold hid
        · obtain rfl := List.mem_singleton.mp he
          rw [hkeyed.eq_of_id hold hmem hid, hinv] at hnot
          cases hnot
    · -- the invitation was pending, so that nobody had spent it
      have hfresh : ∀ e ∈ s.spent, e.1 ≠ inv.id := fun e he hid =>
        h.closed e he inv hmem hid.symm (hp inv hinv).2
      intro e he e' he' hid
      rcases List.mem_append.mp he with he | he
      · rcases List.mem_append.mp he' with he' | he'
        · exact h.once e he e' he' hid
        · obtain rfl := List.mem_singleton.mp he'
          exact absurd hid (hfresh e he)
      · obtain rfl := List.mem_singleton.mp he
        rcases List.mem_append.mp he' with he' | he'
        · exact absurd hid.symm (hfresh e' he')
        · exact (List.mem_singleton.mp he').symm
    · intro i hi haccepted
      obtain ⟨old, hold, heq, ⟨htrue, -⟩ | ⟨-, rfl⟩⟩ := mem_mark hi
      · have hsame : old = inv :=
          hkeyed.eq_of_token hold hmem ((hp old htrue).1.trans (hp inv hinv).1.symm)
        refine Or.inr ⟨_, List.mem_append_right _ (List.mem_singleton_self _), ?_⟩
        rw [id_of_erase heq, hsame]
      · refine (h.taken i hold haccepted).imp_right ?_
        rintro ⟨e, he, hid⟩
        exact ⟨e, List.mem_append_left _ he, hid⟩
    · intro g hg
      obtain ⟨⟨e, he, hid⟩, hroles⟩ := h.given g hg
      refine ⟨⟨e, List.mem_append_left _ he, hid⟩, fun i hi hid => ?_⟩
      obtain ⟨old, hold, heq, -⟩ := mem_mark hi
      exact (hroles old hold ((id_of_erase heq).symm.trans hid)).of_erase heq.symm

theorem Sound.grant (h : Sound T s) (hT : Keyed T) {inv : Invitation} {userId : String}
    (horigin : ∃ old ∈ T.rbac.invitations, erase old = erase inv)
    (hspent : ∃ e ∈ s.spent, e.1 = inv.id ∧ e.2.2 = userId) :
    Sound T { s with
      tables := AccountCleanup.acceptRows s.tables inv.projectId userId inv.targetRoleIds
      granted := s.granted ++ [(inv.id, userId)] } := by
  have hinvs := acceptRows_invitations s.tables inv.projectId userId inv.targetRoleIds
  refine ⟨?_, ?_, h.once, ?_, ?_⟩
  · rw [hinvs]
    exact h.same
  · rw [hinvs]
    exact h.closed
  · rw [hinvs]
    exact h.taken
  · rw [hinvs]
    intro g hg
    rcases List.mem_append.mp hg with hg | hg
    · refine ⟨(h.given g hg).1, fun i hi hid => hasRoles_acceptRows _ _ _ ?_⟩
      exact Or.inl ((h.given g hg).2 i hi hid)
    · obtain rfl := List.mem_singleton.mp hg
      refine ⟨hspent, fun i hi hid => hasRoles_acceptRows _ _ _ (Or.inr ?_)⟩
      obtain ⟨old, hold, heq⟩ := horigin
      obtain ⟨old', hold', heq'⟩ := h.origin hi
      have hids : old'.id = old.id :=
        (id_of_erase heq').trans (hid.trans (id_of_erase heq).symm)
      have hboth : erase i = erase inv := by
        rw [← heq', hT.eq_of_id hold' hold hids, heq]
      obtain ⟨hproject, hroles⟩ := grants_of_erase hboth
      exact ⟨hproject, rfl, hroles⟩

end

/-! ### What the programs know -/

section

-- Otherwise each look at a program tries to evaluate the test of its token.
attribute [local irreducible] isBlank

/-- The roles of an invitation are inserted by who has spent it. -/
def Allowed (T : Tables) : Op → Set (String × ℕ × String) → Prop
  | .insertMemberRoles inv userId, k =>
    (∃ old ∈ T.rbac.invitations, erase old = erase inv) ∧ ∃ who, (inv.id, who, userId) ∈ k
  | _, _ => True

def Learns (T : Tables) (i : ℕ) : (op : Op) → Answer op → Set (String × ℕ × String) → Prop
  | .acceptInvitation token _ _ _ userId, some (some inv), k =>
    (inv.id, i, userId) ∈ k ∧ inv.token = token ∧
      ∃ old ∈ T.rbac.invitations, erase old = erase inv
  | _, _, _ => True

/-- A request that accepts has spent an invitation with its token. -/
def Post (T : Tables) (i : ℕ) (r : Request) : Outcome → Set (String × ℕ × String) → Prop
  | .accepted _, k => ∃ userId, ∃ old ∈ T.rbac.invitations,
      r = .acceptInvitation (some userId) old.token ∧ (old.id, i, userId) ∈ k
  | _, _ => True

section

variable {T : Tables} {i : ℕ} {r : Request} {k : Set (String × ℕ × String)}

/-- A call that fails ends its request. -/
theorem knows_perform {op : Op} {next : Value op → Calls Answer Outcome} (hop : Allowed T op k)
    (h : ∀ v k', k ≤ k' → Learns T i op (some v) k' →
      Calls.Knows (Allowed T) (Learns T i) (Post T i r) (next v) k') :
    Calls.Knows (Allowed T) (Learns T i) (Post T i r) (perform op next) k := by
  refine ⟨hop, fun a k' hle hlearns => ?_⟩
  cases a with
  | none => trivial
  | some v => exact h v k' hle hlearns

theorem knows_withUser {userId : Option String} {token : String}
    {next : String → User → Calls Answer Outcome}
    (h : ∀ id user k, userId = some id →
      Calls.Knows (Allowed T) (Learns T i) (Post T i r) (next id user) k) :
    Calls.Knows (Allowed T) (Learns T i) (Post T i r) (withUser userId token next) k := by
  unfold withUser
  split_ifs
  · trivial
  · split
    · trivial
    · rename_i id hid
      refine knows_perform trivial fun user k' _ _ => ?_
      cases user with
      | none => trivial
      | some user => exact h id user k' (Option.filter_eq_some_iff.mp hid).1

theorem knows_grant {inv : Invitation} {userId : String}
    (horigin : ∃ old ∈ T.rbac.invitations, erase old = erase inv)
    (hspent : (inv.id, i, userId) ∈ k) (hr : r = .acceptInvitation (some userId) inv.token) :
    Calls.Knows (Allowed T) (Learns T i) (Post T i r) (grant inv userId) k := by
  refine knows_perform ⟨horigin, i, hspent⟩ fun _ k₁ hle _ => ?_
  refine knows_perform trivial fun _ k₂ hle' _ => ?_
  obtain ⟨old, hold, heq⟩ := horigin
  refine ⟨userId, old, hold, ?_, ?_⟩
  · rw [hr, token_of_erase heq]
  · rw [id_of_erase heq]
    exact hle' (hle hspent)

theorem knows_acceptAs {token userId : String} {user : User}
    (hr : r = .acceptInvitation (some userId) token) :
    Calls.Knows (Allowed T) (Learns T i) (Post T i r) (acceptAs token userId user) k := by
  refine knows_perform trivial fun inv k' _ hlearns => ?_
  cases inv with
  | none => exact knows_perform trivial fun _ _ _ _ => trivial
  | some inv =>
    obtain ⟨hspent, htoken, horigin⟩ := hlearns
    exact knows_grant horigin hspent (by rw [hr, htoken])

theorem knows_declineAs {token : String} {user : User} :
    Calls.Knows (Allowed T) (Learns T i) (Post T i r) (declineAs token user) k := by
  refine knows_perform trivial fun success _ _ _ => ?_
  split_ifs <;> trivial

end

theorem knows_serve (T : Tables) (i : ℕ) (r : Request) (k : Set (String × ℕ × String)) :
    Calls.Knows (Allowed T) (Learns T i) (Post T i r) (serve r) k := by
  cases r with
  | acceptInvitation userId token =>
    rw [serve, acceptInvitation]
    exact knows_withUser fun id user k hid => knows_acceptAs (by rw [hid])
  | declineInvitation userId token =>
    rw [serve, declineInvitation]
    exact knows_withUser fun _ _ _ _ => knows_declineAs
  | revokeInvitation id =>
    rw [serve, revokeInvitation]
    exact knows_perform trivial fun _ _ _ _ => trivial

theorem sound_exec {T : Tables} {s : Store} (hT : Keyed T) (h : Sound T s) (who : ℕ) (op : Op)
    (hop : Allowed T op s.spentBy) :
    Sound T (s.exec who op).2 ∧ s.spentBy ≤ (s.exec who op).2.spentBy ∧
      Learns T who op (s.exec who op).1 (s.exec who op).2.spentBy := by
  unfold Store.exec
  split_ifs
  · refine ⟨h, le_refl _, ?_⟩
    cases op <;> trivial
  · cases op with
    | acceptInvitation token username email emailVerified userId =>
      refine ⟨h.accept hT (fun i hi => of_acceptable hi) who userId, ?_⟩
      simp only [Store.run, Store.accept]
      cases hfind : s.tables.rbac.invitations.find?
          (Rbac.Db.acceptable token username email emailVerified s.now) with
      | none => exact ⟨le_refl _, trivial⟩
      | some inv =>
        refine ⟨fun e he => List.mem_append_left _ he,
          List.mem_append_right _ (List.mem_singleton_self _),
          (of_acceptable (List.find?_some hfind)).1, h.origin (List.mem_of_find?_eq_some hfind)⟩
    | insertMemberRoles inv userId =>
      obtain ⟨horigin, who', hspent⟩ := hop
      exact ⟨h.grant hT horigin ⟨_, hspent, rfl, rfl⟩, le_refl _, trivial⟩
    | declineInvitation token username email emailVerified =>
      exact ⟨h.revoke _, le_refl _, trivial⟩
    | revokeInvitation id => exact ⟨h.revoke _, le_refl _, trivial⟩
    | getUserDetails userId => exact ⟨h, le_refl _, trivial⟩
    | getInvitationByToken token => exact ⟨h, le_refl _, trivial⟩
    | invalidateUserRBAC projectId userId => exact ⟨h, le_refl _, trivial⟩

abbrev RequestPool := Pool Answer Store Request Outcome

abbrev Informed (T : Tables) : RequestPool → Prop :=
  System.Informed (Sound T) Store.spentBy (Allowed T) (Learns T) (Post T)

theorem sound_start (T : Tables) (now : ℕ) : Sound T (start T now) where
  same := rfl
  closed _ he := absurd he List.not_mem_nil
  once _ he := absurd he List.not_mem_nil
  taken inv hinv haccepted := Or.inl ⟨inv, hinv, rfl, haccepted⟩
  given _ hg := absurd hg List.not_mem_nil

theorem informed_start (T : Tables) (now : ℕ) : Informed T ⟨start T now, []⟩ :=
  ⟨sound_start T now, fun _ _ _ hi => absurd hi (by simp)⟩

theorem informed_step {T : Tables} (hT : Keyed T) {w w' : RequestPool} {m : Move Request Event}
    (hw : Informed T w) (h : requests.step w m = some w') : Informed T w' := by
  refine System.informed_step ?_ ?_ (fun i r op s hs hop => sound_exec hT hs i op hop) ?_
    (fun i r k => knows_serve T i r k) hw h
  · intro op k k' hle hop
    cases op with
    | insertMemberRoles inv userId =>
      obtain ⟨horigin, who, hspent⟩ := hop
      exact ⟨horigin, who, hle hspent⟩
    | _ => trivial
  · intro i r out k k' hle hpost
    cases out with
    | accepted projectId =>
      obtain ⟨userId, old, hold, hr, hspent⟩ := hpost
      exact ⟨userId, old, hold, hr, hle hspent⟩
    | _ => trivial
  · intro e s hs
    cases e with
    | elapse seconds => exact ⟨⟨hs.same, hs.closed, hs.once, hs.taken, hs.given⟩, le_refl _⟩
    | setFailing failing => exact ⟨⟨hs.same, hs.closed, hs.once, hs.taken, hs.given⟩, le_refl _⟩

/-- Two requests that accept with one token are one request. -/
theorem one_accepts {T : Tables} (hT : Keyed T) {w : RequestPool} (hw : Informed T w)
    {i j : ℕ} {token projectId projectId' : String} {userId userId' : Option String}
    (hi : w.running[i]? = some (.acceptInvitation userId token, .ret (.accepted projectId)))
    (hj : w.running[j]? = some (.acceptInvitation userId' token, .ret (.accepted projectId'))) :
    i = j := by
  obtain ⟨u, old, hold, hr, hspent⟩ := hw.knows i _ _ hi
  obtain ⟨u', old', hold', hr', hspent'⟩ := hw.knows j _ _ hj
  injection hr with _ htoken
  injection hr' with _ htoken'
  have hsame : old = old' := hT.eq_of_token hold hold' (htoken.symm.trans htoken')
  have hentry := hw.inv.once _ hspent _ hspent' (by rw [hsame])
  injection hentry with _ hrest
  injection hrest

/-! ### Runs in which the roles are granted -/

/-- A batch that grants does not fail, and nobody revokes an invitation that was accepted. -/
def CanGrant (s : Store) : Op → Prop
  | .insertMemberRoles _ _ => s.failing = false
  | .revokeInvitation id => s.failing = true ∨
      ∀ inv ∈ s.tables.rbac.invitations, inv.id = id → inv.status ≠ .accepted
  | _ => True

def Grantable (w : RequestPool) : Move Request Event → Prop
  | .next i _ => ∀ c ∈ System.nextCall w i, CanGrant w.store c.2
  | _ => True

/-- Who spends an invitation goes on to grant it. -/
def Goes (r : Request) : (op : Op) → (Answer op → Calls Answer Outcome) → Prop
  | .acceptInvitation token _ _ _ userId, next =>
    r = .acceptInvitation (some userId) token ∧ ∀ inv, next (some (some inv)) = grant inv userId
  | _, _ => True

/-- Whoever has spent an invitation has granted it, or is about to. -/
def Holder (T : Tables) (w : RequestPool) (e : String × ℕ × String) : Prop :=
  ∃ old ∈ T.rbac.invitations, old.id = e.1 ∧
    ∃ p, w.running[e.2.1]? = some (.acceptInvitation (some e.2.2) old.token, p) ∧
      ((e.1, e.2.2) ∈ w.store.granted ∨ ∃ inv, inv.id = e.1 ∧ p = grant inv e.2.2)

structure Kept (T : Tables) (w : RequestPool) : Prop where
  informed : Informed T w
  goes : ∀ (i : ℕ) r p, w.running[i]? = some (r, p) → Calls.Every (Goes r) p
  stays : ∀ e ∈ w.store.spent, ∀ inv ∈ w.store.tables.rbac.invitations, inv.id = e.1 →
    inv.status = .accepted
  holder : ∀ e ∈ w.store.spent, Holder T w e

section

variable {r : Request}

theorem goes_perform {op : Op} {next : Value op → Calls Answer Outcome}
    (hop : Goes r op fun a =>
      match a with
      | none => .ret .thrown
      | some value => next value)
    (h : ∀ v, Calls.Every (Goes r) (next v)) : Calls.Every (Goes r) (perform op next) := by
  refine ⟨hop, fun a => ?_⟩
  cases a with
  | none => trivial
  | some v => exact h v

theorem goes_withUser {userId : Option String} {token : String}
    {next : String → User → Calls Answer Outcome}
    (h : ∀ id user, userId = some id → Calls.Every (Goes r) (next id user)) :
    Calls.Every (Goes r) (withUser userId token next) := by
  unfold withUser
  split_ifs
  · trivial
  · split
    · trivial
    · rename_i id hid
      refine goes_perform trivial fun user => ?_
      cases user with
      | none => trivial
      | some user => exact h id user (Option.filter_eq_some_iff.mp hid).1

theorem goes_acceptAs {token userId : String} {user : User}
    (hr : r = .acceptInvitation (some userId) token) :
    Calls.Every (Goes r) (acceptAs token userId user) := by
  refine goes_perform ⟨hr, fun inv => rfl⟩ fun inv => ?_
  cases inv with
  | none => exact goes_perform trivial fun _ => trivial
  | some inv => exact goes_perform trivial fun _ => goes_perform trivial fun _ => trivial

theorem goes_declineAs {token : String} {user : User} :
    Calls.Every (Goes r) (declineAs token user) := by
  refine goes_perform trivial fun success => ?_
  split_ifs <;> trivial

end

theorem goes_serve (r : Request) : Calls.Every (Goes r) (serve r) := by
  cases r with
  | acceptInvitation userId token =>
    rw [serve, acceptInvitation]
    exact goes_withUser fun id user hid => goes_acceptAs (by rw [hid])
  | declineInvitation userId token =>
    rw [serve, declineInvitation]
    exact goes_withUser fun _ _ _ => goes_declineAs
  | revokeInvitation id =>
    rw [serve, revokeInvitation]
    exact goes_perform trivial fun _ => trivial

/-- An invitation that was spent stays accepted. -/
theorem stays_exec {T : Tables} {s : Store} (hT : Keyed T) (h : Sound T s)
    (hstays : ∀ e ∈ s.spent, ∀ inv ∈ s.tables.rbac.invitations, inv.id = e.1 →
      inv.status = .accepted) (who : ℕ) {op : Op} (hop : CanGrant s op) :
    ∀ e ∈ (s.exec who op).2.spent, ∀ inv ∈ (s.exec who op).2.tables.rbac.invitations,
      inv.id = e.1 → inv.status = .accepted := by
  unfold Store.exec
  split_ifs with hfailing
  · exact hstays
  · cases op with
    | acceptInvitation token username email emailVerified userId =>
      simp only [Store.run, Store.accept]
      cases hfind : s.tables.rbac.invitations.find?
          (Rbac.Db.acceptable token username email emailVerified s.now) with
      | none => exact hstays
      | some inv =>
        intro e he i hi hid
        obtain ⟨old, hold, -, ⟨-, hstatus⟩ | ⟨hnot, rfl⟩⟩ := mem_mark hi
        · exact hstatus
        · rcases List.mem_append.mp he with he | he
          · exact hstays e he i hold hid
          · obtain rfl := List.mem_singleton.mp he
            have hsame : i = inv :=
              (hT.of_same h.same).eq_of_id hold (List.mem_of_find?_eq_some hfind) hid
            rw [hsame, List.find?_some hfind] at hnot
            cases hnot
    | insertMemberRoles inv userId =>
      intro e he i hi hid
      have hinvs := acceptRows_invitations s.tables inv.projectId userId inv.targetRoleIds
      exact hstays e he i (hinvs ▸ hi) hid
    | declineInvitation token username email emailVerified =>
      intro e he i hi hid
      obtain ⟨old, hold, heq, ⟨htrue, -⟩ | ⟨-, rfl⟩⟩ := mem_mark hi
      · have haccepted := hstays e he old hold ((id_of_erase heq).symm.trans hid)
        simp [Rbac.Db.declinable, haccepted] at htrue
      · exact hstays e he i hold hid
    | revokeInvitation id =>
      intro e he i hi hid
      obtain ⟨old, hold, heq, ⟨htrue, -⟩ | ⟨-, rfl⟩⟩ := mem_mark hi
      · have haccepted := hstays e he old hold ((id_of_erase heq).symm.trans hid)
        exact absurd haccepted (hop.resolve_left hfailing old hold (beq_iff_eq.mp htrue))
      · exact hstays e he i hold hid
    | getUserDetails userId => exact hstays
    | getInvitationByToken token => exact hstays
    | invalidateUserRBAC projectId userId => exact hstays

/-- A grant stays recorded. -/
theorem granted_exec (s : Store) (who : ℕ) (op : Op) {g : String × String}
    (h : g ∈ s.granted) : g ∈ (s.exec who op).2.granted := by
  unfold Store.exec
  split_ifs
  · exact h
  · cases op with
    | acceptInvitation token username email emailVerified userId =>
      simp only [Store.run, Store.accept]
      split <;> exact h
    | insertMemberRoles inv userId => exact List.mem_append_left _ h
    | _ => exact h

/-- The entry that a call adds to those that were spent. -/
theorem spent_exec {T : Tables} {s : Store} (h : Sound T s) {r : Request} {who : ℕ} {op : Op}
    {next : Answer op → Calls Answer Outcome} (hgoes : Goes r op next)
    {e : String × ℕ × String} (he : e ∈ (s.exec who op).2.spent) :
    e ∈ s.spent ∨ e.2.1 = who ∧ ∃ old ∈ T.rbac.invitations, old.id = e.1 ∧
      r = .acceptInvitation (some e.2.2) old.token ∧
        ∃ inv, inv.id = e.1 ∧ next (s.exec who op).1 = grant inv e.2.2 := by
  by_cases hfailing : s.failing = true
  · rw [Store.exec, if_pos hfailing] at he
    exact Or.inl he
  · have hexec : s.exec who op = (some (s.run who op).1, (s.run who op).2) := if_neg hfailing
    rw [hexec] at he ⊢
    cases op with
    | acceptInvitation token username email emailVerified userId =>
      simp only [Store.run, Store.accept] at he ⊢
      cases hfind : s.tables.rbac.invitations.find?
          (Rbac.Db.acceptable token username email emailVerified s.now) with
      | none =>
        rw [hfind] at he
        exact Or.inl he
      | some inv =>
        rw [hfind] at he
        rcases List.mem_append.mp he with he | he
        · exact Or.inl he
        · obtain rfl := List.mem_singleton.mp he
          obtain ⟨old, hold, heq⟩ := h.origin (List.mem_of_find?_eq_some hfind)
          refine Or.inr ⟨rfl, old, hold, id_of_erase heq, ?_, inv, rfl, hgoes.2 inv⟩
          rw [hgoes.1, token_of_erase heq, (of_acceptable (List.find?_some hfind)).1]
    | _ => exact Or.inl he

section

variable {T : Tables} {w w' : RequestPool} {e : String × ℕ × String}

theorem Holder.keep (h : Holder T w e) (hrunning : w'.running[e.2.1]? = w.running[e.2.1]?)
    (hgranted : ∀ g ∈ w.store.granted, g ∈ w'.store.granted) : Holder T w' e := by
  obtain ⟨old, hold, hid, p, hp, hdone⟩ := h
  exact ⟨old, hold, hid, p, hrunning.trans hp, hdone.imp_left (hgranted _)⟩

theorem lt_of_running {i : ℕ} {r : Request} {p : Calls Answer Outcome}
    (hi : w.running[i]? = some (r, p)) : i < w.running.length :=
  (List.getElem?_eq_some_iff.mp hi).1

theorem holder_step {m : Move Request Event} (hw : Kept T w) (hguard : Grantable w m)
    (h : requests.step w m = some w') : ∀ e ∈ w'.store.spent, Holder T w' e := by
  cases System.step_cases h with
  | start r =>
    intro e he
    obtain ⟨old, hold, hid, p, hp, hdone⟩ := hw.holder e he
    exact (hw.holder e he).keep (List.getElem?_append_left (lt_of_running hp)) fun _ hg => hg
  | world event =>
    intro e he
    cases event with
    | elapse seconds => exact (hw.holder e he).keep rfl fun _ hg => hg
    | setFailing failing => exact (hw.holder e he).keep rfl fun _ hg => hg
  | choose i left r next hi =>
    intro e he
    by_cases hwho : e.2.1 = i
    · obtain ⟨old, hold, hid, p, hp, hdone⟩ := hw.holder e he
      rw [hwho, hi] at hp
      obtain ⟨rfl, rfl⟩ := Prod.mk.inj (Option.some.inj hp)
      refine ⟨old, hold, hid, next left, ?_, hdone.imp_right ?_⟩
      · rw [hwho]
        exact List.getElem?_set_self (lt_of_running hi)
      · rintro ⟨inv, -, hgrant⟩
        cases hgrant
    · exact (hw.holder e he).keep (List.getElem?_set_ne (Ne.symm hwho)) fun _ hg => hg
  | call i left r op next hi =>
    intro e he
    rcases spent_exec hw.informed.inv (hw.goes i r _ hi).1 he with
      he | ⟨hwho, old, hold, hid, hr, inv, hinv, hnext⟩
    · by_cases hwho : e.2.1 = i
      · obtain ⟨old, hold, hid, p, hp, hdone⟩ := hw.holder e he
        rw [hwho, hi] at hp
        obtain ⟨rfl, rfl⟩ := Prod.mk.inj (Option.some.inj hp)
        refine ⟨old, hold, hid, next (w.store.exec i op).1, ?_, Or.inl ?_⟩
        · rw [hwho]
          exact List.getElem?_set_self (lt_of_running hi)
        · rcases hdone with hgranted | ⟨inv, hinv, hgrant⟩
          · exact granted_exec _ _ _ hgranted
          · -- the batch that grants is made now, and does not fail
            injection hgrant with hop
            subst hop
            have hfailing : w.store.failing = false :=
              hguard _ (System.nextCall_eq hi)
            show (e.1, e.2.2) ∈ (w.store.exec i (.insertMemberRoles inv e.2.2)).2.granted
            rw [Store.exec, hfailing, ← hinv]
            exact List.mem_append_right _ (List.mem_singleton_self _)
      · exact (hw.holder e he).keep (List.getElem?_set_ne (Ne.symm hwho)) fun _ hg =>
          granted_exec _ _ _ hg
    · refine ⟨old, hold, hid, next (w.store.exec i op).1, ?_, Or.inr ⟨inv, hinv, hnext⟩⟩
      rw [hwho, ← hr]
      exact List.getElem?_set_self (lt_of_running hi)

theorem kept_step {m : Move Request Event} (hT : Keyed T) (hw : Kept T w) (hguard : Grantable w m)
    (h : requests.step w m = some w') : Kept T w' := by
  refine ⟨informed_step hT hw.informed h, ?_, ?_, holder_step hw hguard h⟩
  · refine System.running_step hw.goes (fun _ _ _ _ hp => hp) goes_serve ?_ ?_ h
    · intro i left r op next _ hi _
      exact (hw.goes i r _ hi).2 _
    · intro i left r next _ _ hp
      exact hp left
  · cases System.step_cases h with
    | start r => exact hw.stays
    | choose i left r next hi => exact hw.stays
    | world event => cases event <;> exact hw.stays
    | call i left r op next hi =>
      exact stays_exec hT hw.informed.inv hw.stays i (hguard _ (System.nextCall_eq hi))

theorem kept_start (T : Tables) (now : ℕ) : Kept T ⟨start T now, []⟩ :=
  ⟨informed_start T now, fun _ _ _ hi => absurd hi (by simp),
    fun _ he => absurd he List.not_mem_nil, fun _ he => absurd he List.not_mem_nil⟩

end

/-- Every call has returned. -/
def AllReturned (w : RequestPool) : Prop :=
  ∀ (i : ℕ) r p, w.running[i]? = some (r, p) → ∃ out, p = .ret out

/-- The invitation is accepted, and a user who asked to accept it has all of its roles; or it is
not, and nobody got a role through it. -/
def AllOrNothing (w : RequestPool) (inv : Invitation) : Prop :=
  (inv.status = .accepted ∧ ∃ (i : ℕ) (userId : String) (out : Outcome),
      w.running[i]? = some (.acceptInvitation (some userId) inv.token, .ret out) ∧
      HasRoles w.store.tables inv userId ∧ ∀ u, (inv.id, u) ∈ w.store.granted → u = userId) ∨
    inv.status ≠ .accepted ∧ ∀ u, (inv.id, u) ∉ w.store.granted

/-- The invitation had not been accepted before. -/
def WasOpen (T : Tables) (inv : Invitation) : Prop :=
  ∀ old ∈ T.rbac.invitations, old.id = inv.id → old.status ≠ .accepted

/-- At most one request accepts with a token, whatever fails; and where each batch that grants
comes through and nobody revokes what was accepted, accepting is all or nothing. -/
theorem accepts_all_or_nothing {T : Tables} {now : ℕ} (hT : Keyed T) {w : RequestPool}
    (h : Reaches requests.step ⟨start T now, []⟩ w) :
    (∀ (i j : ℕ) token projectId projectId' userId userId',
      w.running[i]? = some (.acceptInvitation userId token, .ret (.accepted projectId)) →
      w.running[j]? = some (.acceptInvitation userId' token, .ret (.accepted projectId')) →
      i = j) ∧
    (ReachesUnder requests.step Grantable ⟨start T now, []⟩ w → AllReturned w →
      ∀ inv ∈ w.store.tables.rbac.invitations, WasOpen T inv → AllOrNothing w inv) := by
  constructor
  · have hinformed : Informed T w :=
      ReachesUnder.invariant (informed_start T now)
        (fun _ _ _ ht _ hstep => informed_step hT ht hstep) h
    intro i j token projectId projectId' userId userId' hi hj
    exact one_accepts hT hinformed hi hj
  · intro hrun hdone inv hinv hopen
    have hkept : Kept T w :=
      ReachesUnder.invariant (kept_start T now) (fun _ _ _ ht hG hstep => kept_step hT ht hG hstep)
        hrun
    have hsound := hkept.informed.inv
    by_cases haccepted : inv.status = .accepted
    · -- whoever spent it has granted it, for a batch to come would be a call that has not returned
      rcases hsound.taken inv hinv haccepted with ⟨old, hold, hid, hstatus⟩ | ⟨e, he, hid⟩
      · exact absurd hstatus (hopen old hold hid)
      · obtain ⟨old, hold, hid', p, hp, hgranted⟩ := hkept.holder e he
        obtain ⟨out, rfl⟩ := hdone _ _ _ hp
        have hgranted : (e.1, e.2.2) ∈ w.store.granted := by
          refine hgranted.resolve_right ?_
          rintro ⟨i, -, hgrant⟩
          cases hgrant
        have htoken : old.token = inv.token := by
          obtain ⟨old', hold', heq⟩ := hsound.origin hinv
          have hsame : old = old' :=
            hT.eq_of_id hold hold' (hid'.trans (hid.trans (id_of_erase heq).symm))
          rw [hsame, token_of_erase heq]
        refine Or.inl ⟨haccepted, e.2.1, e.2.2, out, htoken ▸ hp,
          (hsound.given _ hgranted).2 inv hinv hid.symm, fun u hu => ?_⟩
        obtain ⟨e', he', hid₁, hu'⟩ := (hsound.given _ hu).1
        have hsame : e' = e := hsound.once e' he' e he (hid₁.trans hid.symm)
        exact hu'.symm.trans (congrArg (fun e => e.2.2) hsame)
    · refine Or.inr ⟨haccepted, fun u hu => ?_⟩
      obtain ⟨e, he, hid, -⟩ := (hsound.given _ hu).1
      exact haccepted (hkept.stays e he inv hinv hid.symm)

end

/-- An invitation of a user to a project. -/
def bobs (status : InvitationStatus) : Invitation :=
  ⟨"i", "p", none, some "bob", ["viewer"], status, "t", 9⟩

theorem nodup_no_roles : (([] : List Rbac.CustomRole).map Rbac.CustomRole.id).Nodup :=
  List.nodup_nil

theorem nodup_no_members : (([] : List Member).map Member.key).Nodup := List.nodup_nil

def invited : Tables where
  rbac := ⟨[], [], [], [], [bobs .pending], [], nodup_no_roles⟩
  projects := ["p"]
  users := [⟨"b", "bob", none, false, none, none⟩]
  usernameRegistry := ["bob"]
  members := []
  member_unique := nodup_no_members

theorem keyed_invited : Keyed invited := ⟨by decide, by decide⟩

/-- Bob accepts, and the database fails once the invitation is spent. -/
def failsOnceSpent : List (Move Request Event) :=
  [.start (.acceptInvitation (some "b") "t"), .next 0 true, .next 0 true,
    .world (.setFailing true), .next 0 true]

/-- Bob accepts, and the invitation is revoked later. -/
def revokedOnceAccepted : List (Move Request Event) :=
  [.start (.acceptInvitation (some "b") "t"), .start (.revokeInvitation "i"), .next 0 true,
    .next 0 true, .next 0 true, .next 0 true, .next 1 true]

/-- What can be seen of the invitation, of who was granted it and of the answers. -/
def seen (w : RequestPool) : List Invitation × List (String × String) × List Bool :=
  (w.store.tables.rbac.invitations, w.store.granted, w.running.map fun (_, p) =>
    match p with
    | .ret _ => true
    | _ => false)

theorem allReturned_of_seen {w : RequestPool} (h : ∀ b ∈ (seen w).2.2, b = true) :
    AllReturned w := by
  intro i r p hi
  have hb := h _ (List.mem_map_of_mem (List.mem_of_getElem? hi))
  cases p with
  | ret out => exact ⟨out, rfl⟩
  | _ => cases hb

/-- An invitation is spent with nobody in the project; and one is not accepted though its roles
were given. -/
theorem accepted_in_part :
    (∃ w, Reaches requests.step ⟨start invited 0, []⟩ w ∧ AllReturned w ∧
      ∃ inv ∈ w.store.tables.rbac.invitations, WasOpen invited inv ∧
        inv.status = .accepted ∧ ¬AllOrNothing w inv) ∧
    ∃ w, Reaches requests.step ⟨start invited 0, []⟩ w ∧ AllReturned w ∧
      ∃ inv ∈ w.store.tables.rbac.invitations, WasOpen invited inv ∧
        inv.status = .revoked ∧ ¬AllOrNothing w inv := by
  have hopen (inv : Invitation) : WasOpen invited inv := by
    intro old hold _
    obtain rfl := List.mem_singleton.mp hold
    decide
  constructor
  · obtain ⟨w, hrun, hw⟩ := StepSystem.reachesUnder_of_test requests.step (fun _ _ => True)
      ⟨start invited 0, []⟩ failsOnceSpent
      (fun w => decide (seen w = ([bobs .accepted], [], [true])) &&
        w.store.tables.rbac.memberRoles.isEmpty) (by decide)
    obtain ⟨hseen, hroles⟩ := Bool.and_eq_true_iff.mp hw
    have hseen := of_decide_eq_true hseen
    have hinvs : w.store.tables.rbac.invitations = [bobs .accepted] := congrArg Prod.fst hseen
    refine ⟨w, hrun, allReturned_of_seen (by rw [hseen]; decide), bobs .accepted,
      by rw [hinvs]; exact List.mem_singleton_self _, hopen _, rfl, ?_⟩
    rintro (⟨-, i, userId, out, -, ⟨hhas, -⟩, -⟩ | ⟨hnot, -⟩)
    · have hin := hhas "viewer" (List.mem_singleton_self _)
      rw [List.isEmpty_iff.mp hroles] at hin
      cases hin
    · exact hnot rfl
  · obtain ⟨w, hrun, hw⟩ := StepSystem.reachesUnder_of_test requests.step (fun _ _ => True)
      ⟨start invited 0, []⟩ revokedOnceAccepted
      (fun w => decide (seen w = ([bobs .revoked], [("i", "b")], [true, true]))) (by decide)
    have hseen := of_decide_eq_true hw
    have hinvs : w.store.tables.rbac.invitations = [bobs .revoked] := congrArg Prod.fst hseen
    refine ⟨w, hrun, allReturned_of_seen (by rw [hseen]; decide), bobs .revoked,
      by rw [hinvs]; exact List.mem_singleton_self _, hopen _, rfl, ?_⟩
    have hgranted : w.store.granted = [("i", "b")] := congrArg (fun x => x.2.1) hseen
    rintro (⟨haccepted, -⟩ | ⟨-, hnobody⟩)
    · cases haccepted
    · refine hnobody "b" ?_
      rw [hgranted]
      exact List.mem_singleton_self _

/-- Bob accepts and nothing fails. -/
theorem accepts_all_or_nothing_bob :
    ∃ w, ReachesUnder requests.step Grantable ⟨start invited 0, []⟩ w ∧
      ∃ inv ∈ w.store.tables.rbac.invitations, inv.status = .accepted ∧ AllOrNothing w inv := by
  have hstarted : ReachesUnder requests.step Grantable ⟨start invited 0, []⟩ _ :=
    StepSystem.ReachesUnder.tail (a := .start (.acceptInvitation (some "b") "t"))
      Relation.ReflTransGen.refl trivial rfl
  have hcalls (w w' : RequestPool)
      (hw : ReachesUnder requests.step Grantable ⟨start invited 0, []⟩ w)
      (hfailing : w.store.failing = false)
      (hop : ∀ c ∈ System.nextCall w 0, ∀ id, c.2 ≠ .revokeInvitation id)
      (hstep : requests.step w (.next 0 true) = some w') :
      ReachesUnder requests.step Grantable ⟨start invited 0, []⟩ w' := by
    refine hw.tail (fun c hc => ?_) hstep
    obtain ⟨r, op⟩ := c
    cases op with
    | insertMemberRoles inv userId => exact hfailing
    | revokeInvitation id => exact absurd rfl (hop _ hc id)
    | _ => trivial
  have hasked := hcalls _ _ hstarted rfl (by rintro c ⟨rfl⟩ id ⟨⟩) rfl
  have hspent := hcalls _ _ hasked rfl (by rintro c ⟨rfl⟩ id ⟨⟩) rfl
  have hgranted := hcalls _ _ hspent rfl (by rintro c ⟨rfl⟩ id ⟨⟩) rfl
  have hdone := hcalls _ _ hgranted rfl (by rintro c ⟨rfl⟩ id ⟨⟩) rfl
  refine ⟨_, hdone, _, List.mem_singleton_self _, rfl, ?_⟩
  refine (accepts_all_or_nothing keyed_invited hdone.reaches).2 hdone
    (allReturned_of_seen (by decide)) _ (List.mem_singleton_self _) ?_
  intro old hold _
  obtain rfl := List.mem_singleton.mp hold
  decide

end Swazz.InvitationCalls
