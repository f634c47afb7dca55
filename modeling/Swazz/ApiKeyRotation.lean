import Swazz.ApiKeys

/-! A regenerated API key is dead: what the requests that start after a rotation get for the
old key and for the new one. -/
namespace Swazz.ApiKeys

open AtomicCalls
open StepSystem (Reaches ReachesUnder)

/-- The digest of the key that a user has. -/
def KeyStore.digestOf (env : Env) (s : KeyStore) (userId : String) : Option String :=
  if userId ∈ s.users then (s.apiKey userId).map env.digest else none

/-- The stores, the digests that were looked for, and with their users those that were ever in
use, those that a rotation made, those that one replaced, those of them that are gone from the
cache as well, and for each rotation by its index what it replaced. -/
structure KeyHistory where
  db : KeyStore
  asked : List String
  owned : List (String × String)
  made : List (String × String)
  former : List (String × String)
  buried : List (String × String)
  replaced : List (ℕ × String)

namespace KeyHistory

/-- What the call at an index adds to the history. -/
def note (env : Env) (i : ℕ) (s : KeyHistory) : Op → KeyHistory
  | .checkNegative _ cacheKey => { s with asked := cacheKey :: s.asked }
  | .updateUserApiKey userId hashedApiKey =>
    if (s.db.updateApiKey userId hashedApiKey).1 then
      { s with
        owned := (userId, hashedApiKey) :: s.owned
        made := (userId, hashedApiKey) :: s.made
        former := (s.db.digestOf env userId).toList.map (userId, ·) ++ s.former
        replaced := (s.db.digestOf env userId).toList.map (i, ·) ++ s.replaced }
    else s
  | .kvDelete cacheKey =>
    { s with buried := s.former.filter (fun entry => entry.2 = cacheKey) ++ s.buried }
  | _ => s

def exec (env : Env) (i : ℕ) (op : Op) (s : KeyHistory) : Answer op × KeyHistory :=
  ((s.db.exec op).1, { s.note env i op with db := (s.db.exec op).2 })

/-- Nothing has happened yet. -/
def start (env : Env) (db : KeyStore) : KeyHistory where
  db := db
  asked := []
  owned := db.users.filterMap fun userId => (db.digestOf env userId).map (userId, ·)
  made := []
  former := []
  buried := []
  replaced := []

end KeyHistory

abbrev KeyPool := Pool Answer KeyHistory KeyRequest KeyAnswer

def keyCalls (env : Env) : System Answer KeyHistory KeyRequest World KeyAnswer where
  exec i _ op s := s.exec env i op
  body := serve env
  world e s := { s with db := s.db.pass e }

/-- A digest that has never been in use, nor been looked for. -/
structure Fresh (digest : String) (s : KeyHistory) : Prop where
  unasked : digest ∉ s.asked
  unowned : ∀ userId, (userId, digest) ∉ s.owned
  uncached : s.db.kv digest = none
  unrefused : ∀ isolate, s.db.negExpiry isolate digest = none

/-- A call comes in time: an answer is cached before the rotation that replaces its key has
deleted the entry, a key is migrated while it is the user's, a key is replaced by a fresh one
while no other rotation is about to replace it, and the deletion of an entry succeeds. -/
def InTime (env : Env) (w : KeyPool) (i : ℕ) : Op → Prop
  | .kvPut cacheKey userId => (userId, cacheKey) ∉ w.store.buried
  | .migrateKey hashedToken userId => w.store.db.digestOf env userId = some hashedToken
  | .updateUserApiKey userId hashedApiKey => Fresh hashedApiKey w.store ∧
      ∀ j, j ≠ i → ∀ c ∈ System.nextCall w j, ∀ other, c.2 ≠ .updateUserApiKey userId other
  | .kvDelete cacheKey => w.store.db.kvUp = true ∨ w.store.db.kv cacheKey = none
  | _ => True

def InOrder (env : Env) (w : KeyPool) : Move KeyRequest World → Prop
  | .next i _ => ∀ c ∈ System.nextCall w i, InTime env w i c.2
  | _ => True

/-- The key that a rotation made is the user's, and no cache says otherwise. -/
structure Live (userId digest : String) (s : KeyHistory) : Prop where
  member : userId ∈ s.db.users
  text : s.db.apiKey userId = some digest
  sole : ∀ other, (other, digest) ∈ s.owned → other = userId
  accepted : ∀ isolate, s.db.negExpiry isolate digest = none
  cached : ∀ other, s.db.kv digest = some other → other = userId

structure KeyInv (env : Env) (s : KeyHistory) : Prop where
  owns : ∀ u h, s.db.digestOf env u = some h → (u, h) ∈ s.owned
  made_owned : ∀ u h, (u, h) ∈ s.made → (u, h) ∈ s.owned
  made_digest : ∀ u h, (u, h) ∈ s.made → isPlain h = false
  former_owned : ∀ u h, (u, h) ∈ s.former → (u, h) ∈ s.owned
  gone : ∀ u h, (u, h) ∈ s.former → s.db.digestOf env u ≠ some h
  buried_former : ∀ u h, (u, h) ∈ s.buried → (u, h) ∈ s.former
  dead : ∀ u h, (u, h) ∈ s.buried → s.db.kv h ≠ some u
  live : ∀ u h, (u, h) ∈ s.made → (u, h) ∈ s.former ∨ Live u h s

/-- What a program can rely on once it has learned it: `hopeless` are the digests that were
looked for and will never be in use again. -/
structure Known where
  member : String → Prop
  asked : String → Prop
  hopeless : String → Prop
  owned : String → String → Prop
  made : String → String → Prop

instance : Preorder Known where
  le k k' := (∀ u, k.member u → k'.member u) ∧ (∀ h, k.asked h → k'.asked h) ∧
    (∀ h, k.hopeless h → k'.hopeless h) ∧ (∀ u h, k.owned u h → k'.owned u h) ∧
    ∀ u h, k.made u h → k'.made u h
  le_refl _ := ⟨fun _ h => h, fun _ h => h, fun _ h => h, fun _ _ h => h, fun _ _ h => h⟩
  le_trans _ _ _ h h' := ⟨fun u hu => h'.1 u (h.1 u hu), fun a ha => h'.2.1 a (h.2.1 a ha),
    fun a ha => h'.2.2.1 a (h.2.2.1 a ha), fun u a ha => h'.2.2.2.1 u a (h.2.2.2.1 u a ha),
    fun u a ha => h'.2.2.2.2 u a (h.2.2.2.2 u a ha)⟩

def know (s : KeyHistory) : Known where
  member u := u ∈ s.db.users
  asked h := h ∈ s.asked
  hopeless h := h ∈ s.asked ∧ ((∀ u, (u, h) ∉ s.made) ∨ ∃ u, (u, h) ∈ s.former)
  owned u h := (u, h) ∈ s.owned
  made u h := (u, h) ∈ s.made

/-- What a call needs to be known. -/
def Allowed : Op → Known → Prop
  | .kvPut cacheKey userId, k => k.owned userId cacheKey
  | .setNegative _ cacheKey, k => k.hopeless cacheKey
  | .migrateKey hashedToken _, _ => isPlain hashedToken = false
  | .updateUserApiKey userId hashedApiKey, k => isPlain hashedApiKey = false ∧ k.member userId
  | _, _ => True

/-- What an answer tells. -/
def Learns (env : Env) : (op : Op) → Answer op → Known → Prop
  | .checkNegative _ cacheKey, _, k => k.asked cacheKey
  | .selectByKey apiKey, some userId, k => k.owned userId (env.digest apiKey)
  | .selectByKey apiKey, none, k => k.asked apiKey → k.hopeless apiKey
  | .getUserById userId, some _, k => k.member userId
  | .updateUserApiKey userId hashedApiKey, true, k =>
    k.owned userId hashedApiKey ∧ k.made userId hashedApiKey
  | _, _, _ => True

/-- A rotation that succeeds has made the key that it returns. -/
def Post (env : Env) : KeyRequest → KeyAnswer → Known → Prop
  | .regenerate userId uuid, .key (.ok apiKey), k =>
    apiKey = newKey uuid ∧ k.made userId (env.hashApiKey apiKey)
  | _, _, _ => True

variable {env : Env}

theorem isPlain_hash (key : String) : isPlain (env.hashApiKey key) = false := by
  obtain ⟨-, hdigits⟩ := env.hex key
  by_contra hplain
  have hprefix : "swazz_live_".toList <+: (env.hashApiKey key).toList := by
    simpa [isPlain, startsWith] using hplain
  have hs : 's' ∈ (env.hashApiKey key).toList := hprefix.subset (by decide)
  exact absurd (hdigits 's' hs) (by decide)

theorem digest_of_not_plain {key : String} (h : isPlain key = false) : env.digest key = key := by
  simp [Env.digest, h]

theorem hash_ne_empty (key : String) : env.hashApiKey key ≠ "" := by
  intro h
  have hlength := (env.hex key).1
  rw [h] at hlength
  exact absurd hlength (by decide)

section Store

variable {db : KeyStore} {u v h : String}

theorem digestOf_eq_some : db.digestOf env u = some h ↔
    u ∈ db.users ∧ ∃ stored, db.apiKey u = some stored ∧ env.digest stored = h := by
  rw [KeyStore.digestOf]
  split_ifs with hmember
  · simp [hmember]
  · simp [hmember]

theorem hasKey_iff {apiKey : String} : db.hasKey apiKey u = true ↔
    u ∈ db.users ∧ db.apiKey u = some apiKey := by
  simp [KeyStore.hasKey]

theorem digestOf_of_hasKey {apiKey : String} (hkey : db.hasKey apiKey u = true) :
    db.digestOf env u = some (env.digest apiKey) := by
  obtain ⟨hmember, hstored⟩ := hasKey_iff.mp hkey
  exact digestOf_eq_some.mpr ⟨hmember, apiKey, hstored, rfl⟩

theorem setKv_kv {k : String} {entry : Option String} :
    (db.setKv k entry).kv h = if h = k then entry else db.kv h :=
  Function.update_apply _ _ _ _

theorem negExpiry_drop {isolate isolate' k : String} (hnone : db.negExpiry isolate' h = none) :
    (db.dropNegative isolate k).negExpiry isolate' h = none := by
  simp only [KeyStore.negExpiry, Option.map_eq_none_iff, List.find?_eq_none] at hnone ⊢
  simp only [KeyStore.dropNegative, KeyStore.setNegatives]
  by_cases heq : isolate' = isolate
  · subst heq
    rw [Function.update_self]
    exact fun entry hentry => hnone entry (List.mem_of_mem_filter hentry)
  · rw [Function.update_of_ne heq]
    exact hnone

theorem refuse_keys {entries : List (String × ℕ)} {k : String} {expiry : ℕ}
    {entry : String × ℕ} (hentry : entry ∈ KeyStore.refuse entries k expiry) :
    entry.1 = k ∨ entry ∈ entries := by
  have hkept {e : String × ℕ}
      (he : e ∈ if entries.length ≥ KeyStore.MAX_NEGATIVE_API_KEY_ENTRIES then entries.tail
        else entries) : e ∈ entries := by
    split_ifs at he
    · exact List.mem_of_mem_tail he
    · exact he
  simp only [KeyStore.refuse] at hentry
  generalize (if entries.length ≥ KeyStore.MAX_NEGATIVE_API_KEY_ENTRIES then entries.tail
    else entries) = kept at hkept hentry
  split_ifs at hentry
  · obtain ⟨e, he, hmap⟩ := List.mem_map.mp hentry
    by_cases hk : e.1 = k
    · rw [if_pos hk] at hmap
      exact Or.inl (hmap ▸ rfl)
    · rw [if_neg hk] at hmap
      exact Or.inr (hmap ▸ hkept he)
  · rcases List.mem_append.mp hentry with he | he
    · exact Or.inr (hkept he)
    · exact Or.inl (List.mem_singleton.mp he ▸ rfl)

theorem negExpiry_set {isolate isolate' k : String} (hne : k ≠ h)
    (hnone : db.negExpiry isolate' h = none) :
    ((db.exec (.setNegative isolate k)).2).negExpiry isolate' h = none := by
  simp only [KeyStore.negExpiry, Option.map_eq_none_iff, List.find?_eq_none,
    decide_eq_true_eq] at hnone ⊢
  simp only [KeyStore.exec, KeyStore.setNegatives]
  by_cases heq : isolate' = isolate
  · subst heq
    rw [Function.update_self]
    intro entry hentry
    rcases refuse_keys hentry with hkey | hold
    · exact fun hh => hne (hkey.symm.trans hh)
    · exact hnone entry hold
  · rw [Function.update_of_ne heq]
    exact hnone

end Store

/-! ## What a call keeps -/

section Inv

variable {s t : KeyHistory} {i : ℕ}

/-- Only the caches change, and what was looked for. -/
structure SameKeys (s t : KeyHistory) : Prop where
  users : t.db.users = s.db.users
  apiKey : t.db.apiKey = s.db.apiKey
  owned : t.owned = s.owned
  made : t.made = s.made
  former : t.former = s.former
  buried : t.buried = s.buried

/-- The caches forget, or they keep an answer that is known to be right. -/
theorem keyInv_of_caches (hinv : KeyInv env s) (hsame : SameKeys s t)
    (hdead : ∀ u h, (u, h) ∈ s.buried → s.db.kv h ≠ some u → t.db.kv h ≠ some u)
    (hlive : ∀ u h, (u, h) ∈ s.made → Live u h s → (u, h) ∈ s.former ∨
      (∀ isolate, t.db.negExpiry isolate h = none) ∧
        ∀ other, t.db.kv h = some other → other = u) : KeyInv env t := by
  have hdigest (u : String) : t.db.digestOf env u = s.db.digestOf env u := by
    simp only [KeyStore.digestOf, hsame.users, hsame.apiKey]
  constructor
  · intro u h hu
    rw [hsame.owned]
    exact hinv.owns u h (hdigest u ▸ hu)
  · rw [hsame.made, hsame.owned]
    exact hinv.made_owned
  · rw [hsame.made]
    exact hinv.made_digest
  · rw [hsame.former, hsame.owned]
    exact hinv.former_owned
  · intro u h hu
    rw [hdigest]
    exact hinv.gone u h (hsame.former ▸ hu)
  · rw [hsame.buried, hsame.former]
    exact hinv.buried_former
  · intro u h hu
    rw [hsame.buried] at hu
    exact hdead u h hu (hinv.dead u h hu)
  · intro u h hu
    rw [hsame.made] at hu
    rw [hsame.former]
    rcases hinv.live u h hu with hgone | hlives
    · exact Or.inl hgone
    · apply (hlive u h hu hlives).imp_right
      rintro ⟨haccepted, hcached⟩
      exact ⟨hsame.users ▸ hlives.member, hsame.apiKey ▸ hlives.text,
        hsame.owned ▸ hlives.sole, haccepted, hcached⟩

/-- What is known stays known. -/
theorem know_le (husers : t.db.users = s.db.users) (hasked : ∀ h ∈ s.asked, h ∈ t.asked)
    (howned : ∀ e ∈ s.owned, e ∈ t.owned) (hmade : ∀ e ∈ s.made, e ∈ t.made)
    (hformer : ∀ e ∈ s.former, e ∈ t.former)
    (hnew : ∀ u h, (u, h) ∈ t.made → h ∈ s.asked → (u, h) ∈ s.made) : know s ≤ know t := by
  refine ⟨?_, hasked, ?_, fun u h => howned (u, h), fun u h => hmade (u, h)⟩
  · intro u hu
    change u ∈ t.db.users
    rw [husers]
    exact hu
  · rintro h ⟨hlooked, hhopeless⟩
    refine ⟨hasked h hlooked, ?_⟩
    rcases hhopeless with hnever | ⟨u, hgone⟩
    · exact Or.inl fun u hu => hnever u (hnew u h hu hlooked)
    · exact Or.inr ⟨u, hformer _ hgone⟩

/-- What a call has to do to the history. -/
def Keeps (env : Env) (i : ℕ) (op : Op) (s : KeyHistory) : Prop :=
  KeyInv env (s.exec env i op).2 ∧ know s ≤ know (s.exec env i op).2 ∧
    Learns env op (s.exec env i op).1 (know (s.exec env i op).2)

theorem checkNegative_spec (db : KeyStore) (isolate k : String) :
    let db' := (db.exec (.checkNegative isolate k)).2
    db'.users = db.users ∧ db'.apiKey = db.apiKey ∧ db'.kv = db.kv ∧
      ∀ isolate' h, db.negExpiry isolate' h = none → db'.negExpiry isolate' h = none := by
  simp only [KeyStore.exec]
  split
  · exact ⟨rfl, rfl, rfl, fun _ _ h => h⟩
  · split_ifs
    · exact ⟨rfl, rfl, rfl, fun _ _ h => h⟩
    · exact ⟨rfl, rfl, rfl, fun _ _ h => negExpiry_drop h⟩

theorem keeps_checkNegative (hinv : KeyInv env s) (isolate k : String) :
    Keeps env i (.checkNegative isolate k) s := by
  obtain ⟨husers, hkeys, hkv, hneg⟩ := checkNegative_spec s.db isolate k
  refine ⟨?_, know_le husers ?_ ?_ ?_ ?_ ?_, List.mem_cons_self⟩
  · apply keyInv_of_caches hinv
    · exact ⟨husers, hkeys, rfl, rfl, rfl, rfl⟩
    · intro u h _ hdead
      change (s.db.exec (.checkNegative isolate k)).2.kv h ≠ some u
      rw [hkv]
      exact hdead
    · intro u h _ hlive
      refine Or.inr ⟨fun isolate' => hneg isolate' h (hlive.accepted isolate'), ?_⟩
      change ∀ other, (s.db.exec (.checkNegative isolate k)).2.kv h = some other → other = u
      rw [hkv]
      exact hlive.cached
  · exact fun h hh => List.mem_cons_of_mem k hh
  · exact fun _ h => h
  · exact fun _ h => h
  · exact fun _ h => h
  · exact fun _ _ h _ => h

/-- A call that only forgets, and tells nothing. -/
theorem keeps_of_forget (hinv : KeyInv env s) {op : Op}
    (hsame : SameKeys s (s.exec env i op).2) (hasked : (s.exec env i op).2.asked = s.asked)
    (hkv : ∀ h v, (s.exec env i op).2.db.kv h = some v → s.db.kv h = some v)
    (hneg : ∀ isolate h, s.db.negExpiry isolate h = none →
      (s.exec env i op).2.db.negExpiry isolate h = none)
    (hlearns : ∀ k, Learns env op (s.exec env i op).1 k) : Keeps env i op s := by
  refine ⟨?_, know_le hsame.users ?_ ?_ ?_ ?_ ?_, hlearns _⟩
  · apply keyInv_of_caches hinv hsame
    · exact fun u h _ hdead hnew => hdead (hkv h u hnew)
    · exact fun u h _ hlive => Or.inr
        ⟨fun isolate => hneg isolate h (hlive.accepted isolate),
          fun other hnew => hlive.cached other (hkv h other hnew)⟩
  · rw [hasked]
    exact fun _ h => h
  · rw [hsame.owned]
    exact fun _ h => h
  · rw [hsame.made]
    exact fun _ h => h
  · rw [hsame.former]
    exact fun _ h => h
  · rw [hsame.made]
    exact fun _ _ h _ => h

theorem keeps_kvGet (hinv : KeyInv env s) (k : String) : Keeps env i (.kvGet k) s :=
  keeps_of_forget hinv ⟨rfl, rfl, rfl, rfl, rfl, rfl⟩ rfl (fun _ _ h => h) (fun _ _ h => h)
    fun _ => trivial

theorem keeps_dropNegative (hinv : KeyInv env s) (isolate k : String) :
    Keeps env i (.dropNegative isolate k) s :=
  keeps_of_forget hinv ⟨rfl, rfl, rfl, rfl, rfl, rfl⟩ rfl (fun _ _ h => h)
    (fun _ _ h => negExpiry_drop h) fun _ => trivial

theorem keeps_getUserById (hinv : KeyInv env s) (u : String) :
    Keeps env i (.getUserById u) s := by
  refine ⟨hinv, le_refl _, ?_⟩
  by_cases hmember : u ∈ s.db.users
  · have hanswer : (s.exec env i (.getUserById u)).1 = some (s.db.apiKey u) := if_pos hmember
    rw [hanswer]
    exact hmember
  · have hanswer : (s.exec env i (.getUserById u)).1 = none := if_neg hmember
    rw [hanswer]
    exact trivial

/-- A digest that a rotation made is found as long as it was not replaced. -/
theorem former_of_not_found (hinv : KeyInv env s) {u k : String} (hmade : (u, k) ∈ s.made)
    (hnone : (s.db.users.find? fun v => s.db.hasKey k v) = none) : (u, k) ∈ s.former := by
  rcases hinv.live u k hmade with hgone | hlive
  · exact hgone
  · have hkey : s.db.hasKey k u = true := hasKey_iff.mpr ⟨hlive.member, hlive.text⟩
    exact absurd hkey (List.find?_eq_none.mp hnone u hlive.member)

theorem keeps_selectByKey (hinv : KeyInv env s) (k : String) :
    Keeps env i (.selectByKey k) s := by
  refine ⟨hinv, le_refl _, ?_⟩
  change Learns env (.selectByKey k) (s.db.users.find? fun v => s.db.hasKey k v) (know s)
  cases hfound : s.db.users.find? fun v => s.db.hasKey k v with
  | some v => exact hinv.owns v _ (digestOf_of_hasKey (List.find?_some hfound))
  | none =>
    intro hasked
    refine ⟨hasked, ?_⟩
    by_cases hmade : ∃ u, (u, k) ∈ s.made
    · obtain ⟨u, hu⟩ := hmade
      exact Or.inr ⟨u, former_of_not_found hinv hu hfound⟩
    · exact Or.inl fun u hu => hmade ⟨u, hu⟩

theorem keeps_setNegative (hinv : KeyInv env s) {isolate k : String}
    (hhopeless : (know s).hopeless k) : Keeps env i (.setNegative isolate k) s := by
  refine ⟨?_, know_le rfl (fun _ h => h) (fun _ h => h) (fun _ h => h) (fun _ h => h)
    fun _ _ h _ => h, trivial⟩
  apply keyInv_of_caches hinv
  · exact ⟨rfl, rfl, rfl, rfl, rfl, rfl⟩
  · exact fun _ _ _ hdead => hdead
  · intro u h hmade hlive
    by_cases heq : k = h
    · subst heq
      obtain ⟨v, hgone⟩ := hhopeless.2.resolve_left fun hnever => hnever u hmade
      have hsame : v = u := hlive.sole v (hinv.former_owned v k hgone)
      exact Or.inl (hsame ▸ hgone)
    · exact Or.inr ⟨fun isolate' => negExpiry_set heq (hlive.accepted isolate'),
        hlive.cached⟩

theorem keeps_kvPut (hinv : KeyInv env s) {k u : String} (howned : (u, k) ∈ s.owned)
    (hlate : (u, k) ∉ s.buried) : Keeps env i (.kvPut k u) s := by
  by_cases hup : s.db.kvUp = true
  · have hexec : s.exec env i (.kvPut k u) = (true, { s with db := s.db.setKv k (some u) }) := by
      simp [KeyHistory.exec, KeyStore.exec, hup, KeyHistory.note]
    rw [Keeps, hexec]
    refine ⟨?_, know_le rfl (fun _ h => h) (fun _ h => h) (fun _ h => h) (fun _ h => h)
      fun _ _ h _ => h, trivial⟩
    apply keyInv_of_caches hinv
    · exact ⟨rfl, rfl, rfl, rfl, rfl, rfl⟩
    · intro v h hburied hdead
      change (s.db.setKv k (some u)).kv h ≠ some v
      rw [setKv_kv]
      split_ifs with heq
      · intro hsame
        obtain rfl := Option.some.inj hsame
        exact hlate (heq ▸ hburied)
      · exact hdead
    · intro v h _ hlive
      refine Or.inr ⟨hlive.accepted, fun other hother => ?_⟩
      change (s.db.setKv k (some u)).kv h = some other at hother
      rw [setKv_kv] at hother
      split_ifs at hother with heq
      · obtain rfl := Option.some.inj hother
        exact hlive.sole u (heq ▸ howned)
      · exact hlive.cached other hother
  · have hexec : s.exec env i (.kvPut k u) = (false, s) := by
      simp [KeyHistory.exec, KeyStore.exec, hup, KeyHistory.note]
    rw [Keeps, hexec]
    exact ⟨hinv, le_refl _, trivial⟩

/-- The entry of a key is gone, and so is the key of everyone who had it. -/
theorem keyInv_bury {db : KeyStore} {k : String} (hinv : KeyInv env s)
    (husers : db.users = s.db.users) (hkeys : db.apiKey = s.db.apiKey)
    (hneg : db.negativeApiKeyCache = s.db.negativeApiKeyCache)
    (hkv : ∀ h, db.kv h = if h = k then none else s.db.kv h) :
    KeyInv env { s with
      buried := s.former.filter (fun entry => entry.2 = k) ++ s.buried
      db := db } := by
  have hforget : KeyInv env { s with db := db } := by
    apply keyInv_of_caches hinv
    · exact ⟨husers, hkeys, rfl, rfl, rfl, rfl⟩
    · intro u h _ hdead
      change db.kv h ≠ some u
      rw [hkv]
      split_ifs
      · exact nofun
      · exact hdead
    · intro u h _ hlive
      refine Or.inr ⟨fun isolate => ?_, fun other hother => ?_⟩
      · have hsame : db.negExpiry isolate h = s.db.negExpiry isolate h := by
          simp only [KeyStore.negExpiry, hneg]
        exact hsame.trans (hlive.accepted isolate)
      · change db.kv h = some other at hother
        rw [hkv] at hother
        split_ifs at hother
        exact hlive.cached other hother
  have hcases {u h : String}
      (hu : (u, h) ∈ s.former.filter (fun entry => entry.2 = k) ++ s.buried) :
      (u, h) ∈ s.former ∧ h = k ∨ (u, h) ∈ s.buried := by
    simpa using hu
  constructor
  · exact hforget.owns
  · exact hforget.made_owned
  · exact hforget.made_digest
  · exact hforget.former_owned
  · exact hforget.gone
  · intro u h hu
    rcases hcases hu with ⟨hformer, -⟩ | hburied
    · exact hformer
    · exact hinv.buried_former u h hburied
  · intro u h hu
    rcases hcases hu with ⟨-, rfl⟩ | hburied
    · change db.kv h ≠ some u
      simp [hkv]
    · exact hforget.dead u h hburied
  · intro u h hu
    exact (hforget.live u h hu).imp_right fun hlive =>
      ⟨hlive.member, hlive.text, hlive.sole, hlive.accepted, hlive.cached⟩

theorem keeps_kvDelete (hinv : KeyInv env s) {k : String}
    (hgone : s.db.kvUp = true ∨ s.db.kv k = none) : Keeps env i (.kvDelete k) s := by
  have hkv (h : String) :
      (s.db.exec (.kvDelete k)).2.kv h = if h = k then none else s.db.kv h := by
    simp only [KeyStore.exec]
    split_ifs with hup heq heq
    · simp [setKv_kv, heq]
    · simp [setKv_kv, heq]
    · subst heq
      exact hgone.resolve_left hup
    · rfl
  have hsame : (s.db.exec (.kvDelete k)).2.users = s.db.users ∧
      (s.db.exec (.kvDelete k)).2.apiKey = s.db.apiKey ∧
      (s.db.exec (.kvDelete k)).2.negativeApiKeyCache = s.db.negativeApiKeyCache := by
    simp only [KeyStore.exec]
    split_ifs
    · exact ⟨rfl, rfl, rfl⟩
    · exact ⟨rfl, rfl, rfl⟩
  obtain ⟨husers, hkeys, hneg⟩ := hsame
  exact ⟨keyInv_bury hinv husers hkeys hneg hkv, know_le husers (fun _ h => h) (fun _ h => h)
    (fun _ h => h) (fun _ h => h) fun _ _ h _ => h, trivial⟩

theorem updateApiKey_cases (db : KeyStore) (u k : String) :
    (db.updateApiKey u k).2 = db ∨
      u ∈ db.users ∧ (db.updateApiKey u k).2 =
        { db with apiKey := Function.update db.apiKey u (some k) } := by
  rw [KeyStore.updateApiKey]
  split_ifs with hunique hmember
  · exact Or.inl rfl
  · exact Or.inr ⟨hmember, rfl⟩
  · exact Or.inl rfl

theorem digestOf_update {db : KeyStore} {u k : String} (hdigest : isPlain k = false)
    (hmember : u ∈ db.users) (v : String) :
    KeyStore.digestOf env { db with apiKey := Function.update db.apiKey u (some k) } v =
      if v = u then some k else db.digestOf env v := by
  split_ifs with hv
  · subst hv
    exact digestOf_eq_some.mpr
      ⟨hmember, k, Function.update_self _ _ _, digest_of_not_plain hdigest⟩
  · simp only [KeyStore.digestOf, Function.update_of_ne hv]

/-- A migrated key has the digest it had. -/
theorem digestOf_migrate {db : KeyStore} {u k : String} (hdigest : isPlain k = false)
    (htheirs : db.digestOf env u = some k) (v : String) :
    (db.updateApiKey u k).2.digestOf env v = db.digestOf env v := by
  rcases updateApiKey_cases db u k with hkept | ⟨hmember, hset⟩
  · rw [hkept]
  · rw [hset, digestOf_update hdigest hmember]
    split_ifs with hv
    · rw [hv, htheirs]
    · rfl

theorem keeps_migrateKey (hinv : KeyInv env s) {k u : String} (hdigest : isPlain k = false)
    (htheirs : s.db.digestOf env u = some k) : Keeps env i (.migrateKey k u) s := by
  rcases updateApiKey_cases s.db u k with hkept | ⟨hmember, hset⟩
  · have hexec : s.exec env i (.migrateKey k u) = ((), s) := by
      simp only [KeyHistory.exec, KeyStore.exec, hkept, KeyHistory.note]
    rw [Keeps, hexec]
    exact ⟨hinv, le_refl _, trivial⟩
  · have hexec : s.exec env i (.migrateKey k u) =
        ((), { s with db := { s.db with apiKey := Function.update s.db.apiKey u (some k) } }) := by
      simp only [KeyHistory.exec, KeyStore.exec, hset, KeyHistory.note]
    have hsame (v : String) : KeyStore.digestOf env
        { s.db with apiKey := Function.update s.db.apiKey u (some k) } v =
          s.db.digestOf env v := by
      rw [← hset]
      exact digestOf_migrate hdigest htheirs v
    rw [Keeps, hexec]
    refine ⟨?_, know_le rfl (fun _ h => h) (fun _ h => h) (fun _ h => h) (fun _ h => h)
      fun _ _ h _ => h, trivial⟩
    constructor
    · exact fun v h hv => hinv.owns v h ((hsame v).symm.trans hv)
    · exact hinv.made_owned
    · exact hinv.made_digest
    · exact hinv.former_owned
    · exact fun v h hv hnow => hinv.gone v h hv ((hsame v).symm.trans hnow)
    · exact hinv.buried_former
    · exact hinv.dead
    · intro v h hmade
      apply (hinv.live v h hmade).imp_right
      rintro ⟨hin, htext, hsole, haccepted, hcached⟩
      refine ⟨hin, ?_, hsole, haccepted, hcached⟩
      by_cases hv : v = u
      · -- a key that a rotation made is a digest already
        subst hv
        have hold : s.db.digestOf env v = some h :=
          digestOf_eq_some.mpr
            ⟨hin, h, htext, digest_of_not_plain (hinv.made_digest v h hmade)⟩
        obtain rfl := Option.some.inj (htheirs.symm.trans hold)
        exact Function.update_self _ _ _
      · exact (Function.update_of_ne hv _ _).trans htext

/-- Nobody has a fresh key. -/
theorem updateApiKey_of_fresh (hinv : KeyInv env s) {k u : String} (hdigest : isPlain k = false)
    (hmember : u ∈ s.db.users) (hfresh : Fresh k s) :
    s.db.updateApiKey u k =
      (true, { s.db with apiKey := Function.update s.db.apiKey u (some k) }) := by
  have hunique : (s.db.users.any fun v => decide (v ≠ u) && s.db.hasKey k v) = false := by
    rw [List.any_eq_false]
    intro v _ hv
    have hkey : s.db.hasKey k v = true := (Bool.and_eq_true_iff.mp hv).2
    have htheirs : s.db.digestOf env v = some (env.digest k) := digestOf_of_hasKey hkey
    rw [digest_of_not_plain hdigest] at htheirs
    exact hfresh.unowned v (hinv.owns v k htheirs)
  rw [KeyStore.updateApiKey, hunique, if_neg (by decide), if_pos hmember]

theorem keeps_updateUserApiKey (hinv : KeyInv env s) {k u : String} (hdigest : isPlain k = false)
    (hmember : u ∈ s.db.users) (hfresh : Fresh k s) :
    Keeps env i (.updateUserApiKey u k) s := by
  have hupdate := updateApiKey_of_fresh hinv hdigest hmember hfresh
  have hexec : s.exec env i (.updateUserApiKey u k) = (true,
      { db := { s.db with apiKey := Function.update s.db.apiKey u (some k) }
        asked := s.asked
        owned := (u, k) :: s.owned
        made := (u, k) :: s.made
        former := (s.db.digestOf env u).toList.map (u, ·) ++ s.former
        buried := s.buried
        replaced := (s.db.digestOf env u).toList.map (i, ·) ++ s.replaced }) := by
    simp only [KeyHistory.exec, KeyStore.exec, KeyHistory.note, hupdate, if_true]
  have hnow (v : String) : KeyStore.digestOf env
      { s.db with apiKey := Function.update s.db.apiKey u (some k) } v =
        if v = u then some k else s.db.digestOf env v := digestOf_update hdigest hmember v
  have hother {v h : String} (hv : (v, h) ∈ s.owned) : h ≠ k :=
    fun heq => hfresh.unowned v (heq ▸ hv)
  have hformer {v h : String}
      (hv : (v, h) ∈ (s.db.digestOf env u).toList.map (u, ·) ++ s.former) :
      (v = u ∧ s.db.digestOf env u = some h) ∨ (v, h) ∈ s.former := by
    rcases List.mem_append.mp hv with hnew | hold
    · obtain ⟨h', hh', heq⟩ := List.mem_map.mp hnew
      obtain ⟨rfl, rfl⟩ := Prod.mk.inj heq
      exact Or.inl ⟨rfl, by simpa using hh'⟩
    · exact Or.inr hold
  rw [Keeps, hexec]
  refine ⟨?_, know_le rfl ?_ ?_ ?_ ?_ ?_, List.mem_cons_self, List.mem_cons_self⟩
  · constructor
    · intro v h hv
      rw [hnow] at hv
      split_ifs at hv with heq
      · obtain rfl := Option.some.inj hv
        exact heq ▸ List.mem_cons_self
      · exact List.mem_cons_of_mem _ (hinv.owns v h hv)
    · intro v h hv
      rcases List.mem_cons.mp hv with heq | hold
      · exact heq ▸ List.mem_cons_self
      · exact List.mem_cons_of_mem _ (hinv.made_owned v h hold)
    · intro v h hv
      rcases List.mem_cons.mp hv with heq | hold
      · obtain ⟨rfl, rfl⟩ := Prod.mk.inj heq
        exact hdigest
      · exact hinv.made_digest v h hold
    · intro v h hv
      rcases hformer hv with ⟨rfl, hold⟩ | hold
      · exact List.mem_cons_of_mem _ (hinv.owns v h hold)
      · exact List.mem_cons_of_mem _ (hinv.former_owned v h hold)
    · intro v h hv
      rw [hnow]
      rcases hformer hv with ⟨rfl, hold⟩ | hold
      · rw [if_pos rfl]
        exact fun heq => hother (hinv.owns v h hold) (Option.some.inj heq).symm
      · split_ifs
        · exact fun heq => hother (hinv.former_owned v h hold) (Option.some.inj heq).symm
        · exact hinv.gone v h hold
    · exact fun v h hv => List.mem_append_right _ (hinv.buried_former v h hv)
    · exact hinv.dead
    · intro v h hv
      rcases List.mem_cons.mp hv with heq | hold
      · obtain ⟨rfl, rfl⟩ := Prod.mk.inj heq
        refine Or.inr ⟨hmember, Function.update_self _ _ _, fun other howns => ?_,
          hfresh.unrefused, fun other hcached => ?_⟩
        · rcases List.mem_cons.mp howns with heq | howned
          · exact (Prod.mk.inj heq).1
          · exact absurd howned (hfresh.unowned other)
        · exact absurd (hfresh.uncached.symm.trans hcached) nofun
      · rcases hinv.live v h hold with hgone | hlive
        · exact Or.inl (List.mem_append_right _ hgone)
        · by_cases hvu : v = u
          · -- this rotation is what replaces it
            subst hvu
            have htheirs : s.db.digestOf env v = some h := digestOf_eq_some.mpr
              ⟨hmember, h, hlive.text, digest_of_not_plain (hinv.made_digest v h hold)⟩
            exact Or.inl (List.mem_append_left _
              (List.mem_map.mpr ⟨h, by simp [htheirs], rfl⟩))
          · refine Or.inr ⟨hlive.member, ?_, fun other howns => ?_, hlive.accepted,
              hlive.cached⟩
            · exact (Function.update_of_ne hvu _ _).trans hlive.text
            · rcases List.mem_cons.mp howns with heq | howned
              · exact absurd (Prod.mk.inj heq).2 (hother (hinv.made_owned v h hold))
              · exact hlive.sole other howned
  · exact fun _ h => h
  · exact fun e he => List.mem_cons_of_mem _ he
  · exact fun e he => List.mem_cons_of_mem _ he
  · exact fun e he => List.mem_append_right _ he
  · intro v h hv hasked
    rcases List.mem_cons.mp hv with heq | hold
    · obtain ⟨rfl, rfl⟩ := Prod.mk.inj heq
      exact absurd hasked hfresh.unasked
    · exact hold

theorem keeps_of_allowed {w : KeyPool} {op : Op} (hinv : KeyInv env w.store)
    (htime : InTime env w i op) (hallowed : Allowed op (know w.store)) :
    Keeps env i op w.store := by
  cases op with
  | checkNegative isolate k => exact keeps_checkNegative hinv isolate k
  | kvGet k => exact keeps_kvGet hinv k
  | selectByKey k => exact keeps_selectByKey hinv k
  | migrateKey k u => exact keeps_migrateKey hinv hallowed htime
  | dropNegative isolate k => exact keeps_dropNegative hinv isolate k
  | kvPut k u => exact keeps_kvPut hinv hallowed htime
  | setNegative isolate k => exact keeps_setNegative hinv hallowed
  | getUserById u => exact keeps_getUserById hinv u
  | updateUserApiKey u k => exact keeps_updateUserApiKey hinv hallowed.1 hallowed.2 htime.1
  | kvDelete k => exact keeps_kvDelete hinv htime

theorem keeps_world (hinv : KeyInv env s) (e : World) :
    KeyInv env { s with db := s.db.pass e } ∧ know s ≤ know { s with db := s.db.pass e } := by
  have hforget (hsame : SameKeys s { s with db := s.db.pass e })
      (hkv : ∀ h v, (s.db.pass e).kv h = some v → s.db.kv h = some v)
      (hneg : ∀ isolate h, s.db.negExpiry isolate h = none →
        (s.db.pass e).negExpiry isolate h = none) :
      KeyInv env { s with db := s.db.pass e } ∧ know s ≤ know { s with db := s.db.pass e } := by
    constructor
    · apply keyInv_of_caches hinv hsame
      · exact fun u h _ hdead hnew => hdead (hkv h u hnew)
      · exact fun u h _ hlive => Or.inr
          ⟨fun isolate => hneg isolate h (hlive.accepted isolate),
            fun other hnew => hlive.cached other (hkv h other hnew)⟩
    · exact know_le hsame.users (fun _ h => h) (fun _ h => h) (fun _ h => h) (fun _ h => h)
        fun _ _ h _ => h
  cases e with
  | tick ms => exact hforget ⟨rfl, rfl, rfl, rfl, rfl, rfl⟩ (fun _ _ h => h) fun _ _ h => h
  | setKvUp up => exact hforget ⟨rfl, rfl, rfl, rfl, rfl, rfl⟩ (fun _ _ h => h) fun _ _ h => h
  | expire k =>
    apply hforget ⟨rfl, rfl, rfl, rfl, rfl, rfl⟩
    · intro h v hv
      change (s.db.setKv k none).kv h = some v at hv
      rw [setKv_kv] at hv
      split_ifs at hv
      exact hv
    · exact fun _ _ h => h
  | restart isolate =>
    apply hforget ⟨rfl, rfl, rfl, rfl, rfl, rfl⟩ (fun _ _ h => h)
    intro isolate' h hnone
    simp only [KeyStore.negExpiry, KeyStore.pass, KeyStore.setNegatives, Function.update_apply]
    split_ifs
    · rfl
    · exact hnone

end Inv

/-! ## What the programs know -/

section Programs

variable {k : Known} {i : ℕ}

theorem allowed_mono (op : Op) (k k' : Known) (hle : k ≤ k') (h : Allowed op k) :
    Allowed op k' := by
  cases op with
  | kvPut cacheKey userId => exact hle.2.2.2.1 _ _ h
  | setNegative isolate cacheKey => exact hle.2.2.1 _ h
  | updateUserApiKey userId hashedApiKey => exact ⟨h.1, hle.1 _ h.2⟩
  | migrateKey hashedToken userId => exact h
  | checkNegative | kvGet | selectByKey | dropNegative | getUserById | kvDelete => exact trivial

theorem post_mono (r : KeyRequest) (a : KeyAnswer) (k k' : Known) (hle : k ≤ k')
    (h : Post env r a k) : Post env r a k' := by
  cases r with
  | lookUp r => exact trivial
  | regenerate userId uuid =>
    cases a with
    | user userId => exact trivial
    | key apiKey =>
      cases apiKey with
      | error message => exact trivial
      | ok apiKey => exact ⟨h.1, hle.2.2.2.2 _ _ h.2⟩

/-- A program of a request knows what its calls need. -/
abbrev KnowsKeys {α : Type} (env : Env) (Q : α → Known → Prop) (p : Calls Answer α) (k : Known) :
    Prop := p.Knows Allowed (Learns env) Q k

/-- What a query for a key says. -/
def Verified (env : Env) (token : String) : Option String → Known → Prop
  | some userId, k => k.owned userId (env.hashApiKey token)
  | none, k => k.hopeless (env.hashApiKey token)

theorem knows_verifyApiKey {token : String} (hplain : isPlain token = true)
    (hasked : k.asked (env.hashApiKey token)) :
    KnowsKeys env (Verified env token)
      (AuthRepository.verifyApiKey (env.hashApiKey token) token) k := by
  refine ⟨trivial, fun user k' hle hlearns => ?_⟩
  cases user with
  | some userId =>
    have howned : k'.owned userId (env.digest (env.hashApiKey token)) := hlearns
    rw [digest_of_not_plain (isPlain_hash token)] at howned
    exact howned
  | none =>
    have hhopeless := hlearns (hle.2.1 _ hasked)
    refine ⟨trivial, fun user k'' hle' hlearns' => ?_⟩
    cases user with
    | none => exact hle'.2.2.1 _ hhopeless
    | some userId =>
      have howned : k''.owned userId (env.digest token) := hlearns'
      have hdigest : env.digest token = env.hashApiKey token := by simp [Env.digest, hplain]
      rw [hdigest] at howned
      exact ⟨isPlain_hash token, fun _ _ hle'' _ => hle''.2.2.2.1 _ _ howned⟩

theorem knows_remember {isolate token : String} {userId : Option String}
    (h : Verified env token userId k) :
    KnowsKeys env (fun _ _ => True) (remember env isolate (env.hashApiKey token) userId) k := by
  cases userId with
  | none => exact ⟨h, fun _ _ _ _ => trivial⟩
  | some userId =>
    refine ⟨trivial, fun _ k' hle _ => ?_⟩
    have howned : k'.owned userId (env.hashApiKey token) := hle.2.2.2.1 _ _ h
    cases hcache : env.SESSION_CACHE with
    | false => exact trivial
    | true => exact ⟨howned, fun _ _ _ _ => trivial⟩

theorem knows_queryKey {isolate token : String} (hplain : isPlain token = true)
    (hasked : k.asked (env.hashApiKey token)) :
    KnowsKeys env (fun _ _ => True) (queryKey env isolate token) k := by
  apply Calls.knows_bind
  apply (knows_verifyApiKey hplain hasked).imp
  exact fun userId k' _ hverified => knows_remember hverified

theorem knows_lookUpKey {isolate token : String} (hplain : isPlain token = true) (k : Known) :
    KnowsKeys env (fun _ _ => True) (lookUpKey env isolate token) k := by
  refine ⟨trivial, fun refused k' hle hasked => ?_⟩
  cases refused with
  | true => exact trivial
  | false =>
    cases hcache : env.SESSION_CACHE with
    | false => exact knows_queryKey hplain hasked
    | true =>
      refine ⟨trivial, fun cached k'' hle' _ => ?_⟩
      cases cached with
      | some userId => exact trivial
      | none => exact knows_queryKey hplain (hle'.2.1 _ hasked)

theorem knows_getUserIdFromRequest (r : KeyLookup) (k : Known) :
    KnowsKeys env (fun _ _ => True) (getUserIdFromRequest env r) k := by
  rw [getUserIdFromRequest]
  split
  · exact trivial
  · split
    · exact trivial
    · split_ifs with hplain
      · exact knows_lookUpKey hplain k
      · exact trivial

/-- A rotation that succeeds has made its key. -/
def Made (env : Env) (userId uuid : String) : Except String String → Known → Prop
  | .ok apiKey, k => apiKey = newKey uuid ∧ k.made userId (env.hashApiKey apiKey)
  | .error _, _ => True

theorem knows_recache {userId hashed : String} (howned : k.owned userId hashed)
    (oldKey : Option String) :
    KnowsKeys env (fun _ k' => k ≤ k') (recache env userId hashed oldKey) k := by
  rw [recache]
  cases oldKey.filter fun key => !key.isEmpty with
  | none => exact ⟨howned, fun _ _ hle _ => hle⟩
  | some stored =>
    refine ⟨trivial, fun deleted k' hle _ => ?_⟩
    cases deleted with
    | false => exact hle
    | true => exact ⟨hle.2.2.2.1 _ _ howned, fun _ _ hle' _ => le_trans hle hle'⟩

theorem knows_announceKey {userId uuid : String}
    (howned : k.owned userId (env.hashApiKey (newKey uuid)))
    (hmade : k.made userId (env.hashApiKey (newKey uuid))) (oldKey : Option String) :
    KnowsKeys env (Made env userId uuid) (announceKey env userId uuid oldKey) k := by
  rw [announceKey]
  split_ifs
  · apply Calls.knows_bind
    apply (knows_recache howned oldKey).imp
    exact fun _ k' _ hle => ⟨rfl, hle.2.2.2.2 _ _ hmade⟩
  · exact ⟨rfl, hmade⟩

theorem knows_replaceKey {userId uuid : String} (hmember : k.member userId)
    (oldKey : Option String) :
    KnowsKeys env (Made env userId uuid) (replaceKey env userId uuid oldKey) k := by
  refine ⟨⟨isPlain_hash _, hmember⟩, fun unique k' hle hlearns => ?_⟩
  cases unique with
  | false => exact trivial
  | true =>
    obtain ⟨howned, hmade⟩ := hlearns
    exact knows_announceKey howned hmade oldKey

theorem knows_serve (r : KeyRequest) (k : Known) :
    KnowsKeys env (Post env r) (serve env r) k := by
  cases r with
  | lookUp r =>
    apply Calls.knows_bind
    apply (knows_getUserIdFromRequest r k).imp
    exact fun _ _ _ _ => trivial
  | regenerate userId uuid =>
    have hregenerate : KnowsKeys env (Made env userId uuid) (regenerateApiKey env userId uuid) k := by
      refine ⟨trivial, fun oldUser k' _ hlearns => ?_⟩
      cases oldUser with
      | none => exact trivial
      | some oldKey => exact knows_replaceKey hlearns oldKey
    apply Calls.knows_bind
    apply hregenerate.imp
    intro apiKey k' _ hmade
    cases apiKey with
    | ok apiKey => exact hmade
    | error message => exact trivial

end Programs

/-! ## Rotations, from the reading of the old key to the deletion of its entry -/

/-- The calls after the new key is stored. -/
def NotUpdate : Op → Prop
  | .updateUserApiKey _ _ => False
  | _ => True

/-- How far a request has come. -/
def Stage (env : Env) (s : KeyHistory) (i : ℕ) : KeyRequest → Calls Answer KeyAnswer → Prop
  | .lookUp _, p => p.Uses NotUpdate
  | .regenerate userId uuid, p =>
    (p = serve env (.regenerate userId uuid) ∧ ∀ h, (i, h) ∉ s.replaced) ∨
    (∃ oldKey, p = (replaceKey env userId uuid oldKey).bind (fun key => .ret (.key key)) ∧
      (∀ h, (i, h) ∉ s.replaced) ∧
      ∀ h, s.db.digestOf env userId = some h → oldKey.map env.digest = some h) ∨
    (p.Uses NotUpdate ∧ ∀ h, (i, h) ∈ s.replaced → (userId, h) ∈ s.former ∧
      (env.SESSION_CACHE = true → h ≠ "" → (userId, h) ∈ s.buried ∨
        p.Certain (fun _ _ => True) fun op => op = .kvDelete h))

/-- What holds in every run whose calls come in time. -/
structure Ordered (env : Env) (w : KeyPool) : Prop where
  informed : System.Informed (KeyInv env) know Allowed (fun _ => Learns env)
    (fun _ => Post env) w
  stage : ∀ i r p, w.running[i]? = some (r, p) → Stage env w.store i r p
  bounded : ∀ i h, (i, h) ∈ w.store.replaced → i < w.running.length

section Order

variable {w w' : KeyPool} {m : Move KeyRequest World} {s t : KeyHistory} {i j : ℕ}

theorem uses_notUpdate_lookUp (r : KeyLookup) :
    (serve env (.lookUp r)).Uses NotUpdate := by
  have hverify (token : String) : (AuthRepository.verifyApiKey (env.hashApiKey token) token).Uses
      NotUpdate := by
    refine ⟨trivial, fun user => ?_⟩
    cases user with
    | some userId => exact trivial
    | none =>
      refine ⟨trivial, fun user => ?_⟩
      cases user with
      | some userId => exact ⟨trivial, fun _ => trivial⟩
      | none => exact trivial
  have hremember (isolate cacheKey : String) (userId : Option String) :
      (remember env isolate cacheKey userId).Uses NotUpdate := by
    cases userId with
    | none => exact ⟨trivial, fun _ => trivial⟩
    | some userId =>
      refine ⟨trivial, fun _ => ?_⟩
      cases env.SESSION_CACHE with
      | false => exact trivial
      | true => exact ⟨trivial, fun _ => trivial⟩
  have hquery (isolate token : String) : (queryKey env isolate token).Uses NotUpdate :=
    Calls.uses_bind (hverify token) fun userId => hremember isolate _ userId
  change ((getUserIdFromRequest env r).bind fun userId => .ret (KeyAnswer.user userId)).Uses
    NotUpdate
  refine Calls.uses_bind ?_ fun _ => trivial
  rw [getUserIdFromRequest]
  split
  · exact trivial
  · split
    · exact trivial
    · split_ifs
      · refine ⟨trivial, fun refused => ?_⟩
        cases refused with
        | true => exact trivial
        | false =>
          cases env.SESSION_CACHE with
          | false => exact hquery _ _
          | true =>
            refine ⟨trivial, fun cached => ?_⟩
            cases cached with
            | some userId => exact trivial
            | none => exact hquery _ _
      · exact trivial

theorem digest_empty : env.digest "" = "" := digest_of_not_plain rfl

/-- After the new key is stored, the entry of the old one is deleted. -/
theorem certain_recache {userId hashed h : String} {oldKey : Option String}
    (hold : oldKey.map env.digest = some h) (hne : h ≠ "") :
    (recache env userId hashed oldKey).Certain (fun _ _ => True) fun op => op = .kvDelete h := by
  obtain ⟨stored, rfl, rfl⟩ := Option.map_eq_some_iff.mp hold
  have hfilter : (some stored).filter (fun key => !key.isEmpty) = some stored := by
    have hstored : stored ≠ "" := fun heq => hne (by rw [heq, digest_empty])
    simpa using hstored
  rw [recache, hfilter]
  exact Or.inl rfl

theorem uses_notUpdate_recache (userId hashed : String) (oldKey : Option String) :
    (recache env userId hashed oldKey).Uses NotUpdate := by
  rw [recache]
  cases oldKey.filter fun key => !key.isEmpty with
  | none => exact ⟨trivial, fun _ => trivial⟩
  | some stored =>
    refine ⟨trivial, fun deleted => ?_⟩
    cases deleted with
    | false => exact trivial
    | true => exact ⟨trivial, fun _ => trivial⟩

theorem uses_notUpdate_announceKey (userId uuid : String) (oldKey : Option String) :
    (announceKey env userId uuid oldKey).Uses NotUpdate := by
  rw [announceKey]
  split_ifs
  · exact Calls.uses_bind (uses_notUpdate_recache _ _ _) fun _ => trivial
  · exact trivial

theorem certain_announceKey {userId uuid h : String} {oldKey : Option String}
    (hcache : env.SESSION_CACHE = true) (hold : oldKey.map env.digest = some h) (hne : h ≠ "") :
    (announceKey env userId uuid oldKey).Certain (fun _ _ => True)
      fun op => op = .kvDelete h := by
  rw [announceKey, if_pos hcache]
  exact Calls.certain_bind (certain_recache hold hne)

/-- What a call adds to the history stays, and is about its own rotation. -/
structure Grows (i : ℕ) (s t : KeyHistory) : Prop where
  made : ∀ e ∈ s.made, e ∈ t.made
  former : ∀ e ∈ s.former, e ∈ t.former
  buried : ∀ e ∈ s.buried, e ∈ t.buried
  replaced : ∀ j h, j ≠ i → (j, h) ∈ t.replaced → (j, h) ∈ s.replaced

theorem grows_exec (op : Op) (s : KeyHistory) : Grows i s (s.exec env i op).2 := by
  cases op with
  | updateUserApiKey u k =>
    simp only [KeyHistory.exec, KeyHistory.note]
    split_ifs
    · refine ⟨fun e he => List.mem_cons_of_mem _ he, fun e he => List.mem_append_right _ he,
        fun _ h => h, fun j h hne hj => ?_⟩
      rcases List.mem_append.mp hj with hnew | hold
      · obtain ⟨h', -, heq⟩ := List.mem_map.mp hnew
        exact absurd (Prod.mk.inj heq).1.symm hne
      · exact hold
    · exact ⟨fun _ h => h, fun _ h => h, fun _ h => h, fun _ _ _ h => h⟩
  | kvDelete k =>
    exact ⟨fun _ h => h, fun _ h => h, fun e he => List.mem_append_right _ he, fun _ _ _ h => h⟩
  | checkNegative | kvGet | selectByKey | migrateKey | dropNegative | kvPut | setNegative
    | getUserById => exact ⟨fun _ h => h, fun _ h => h, fun _ h => h, fun _ _ _ h => h⟩

/-- Only a rotation of the user changes what digest its key has. -/
theorem digestOf_exec {op : Op} (hinv : KeyInv env w.store) (htime : InTime env w i op)
    (hallowed : Allowed op (know w.store)) {u : String}
    (hother : ∀ k, op ≠ .updateUserApiKey u k) :
    (w.store.exec env i op).2.db.digestOf env u = w.store.db.digestOf env u := by
  have hframe {db : KeyStore} (husers : db.users = w.store.db.users)
      (hkeys : db.apiKey = w.store.db.apiKey) :
      db.digestOf env u = w.store.db.digestOf env u := by
    simp only [KeyStore.digestOf, husers, hkeys]
  cases op with
  | checkNegative isolate k =>
    obtain ⟨husers, hkeys, -, -⟩ := checkNegative_spec w.store.db isolate k
    exact hframe husers hkeys
  | migrateKey k v => exact digestOf_migrate hallowed htime u
  | updateUserApiKey v k =>
    have hne : u ≠ v := fun heq => hother k (heq ▸ rfl)
    have hupdate := updateApiKey_of_fresh hinv hallowed.1 hallowed.2 htime.1
    change (w.store.db.updateApiKey v k).2.digestOf env u = _
    rw [hupdate, digestOf_update hallowed.1 hallowed.2, if_neg hne]
  | kvPut k v =>
    simp only [KeyHistory.exec, KeyStore.exec]
    split_ifs <;> exact hframe rfl rfl
  | kvDelete k =>
    simp only [KeyHistory.exec, KeyStore.exec]
    split_ifs <;> exact hframe rfl rfl
  | kvGet | selectByKey | dropNegative | setNegative | getUserById => exact hframe rfl rfl

/-- A request that another one's call does not touch. -/
theorem stage_other (hgrows : Grows i s t) (hne : j ≠ i) {r : KeyRequest}
    {p : Calls Answer KeyAnswer} (h : Stage env s j r p)
    (hdigest : ∀ userId uuid oldKey, r = .regenerate userId uuid →
      p = (replaceKey env userId uuid oldKey).bind (fun key => .ret (.key key)) →
      t.db.digestOf env userId = s.db.digestOf env userId) : Stage env t j r p := by
  cases r with
  | lookUp r => exact h
  | regenerate userId uuid =>
    rcases h with ⟨hp, hnone⟩ | ⟨oldKey, hp, hnone, hold⟩ | ⟨huses, hdone⟩
    · exact Or.inl ⟨hp, fun h hh => hnone h (hgrows.replaced j h hne hh)⟩
    · refine Or.inr (Or.inl ⟨oldKey, hp, fun h hh => hnone h (hgrows.replaced j h hne hh), ?_⟩)
      intro h hh
      exact hold h ((hdigest userId uuid oldKey rfl hp).symm.trans hh)
    · refine Or.inr (Or.inr ⟨huses, fun h hh => ?_⟩)
      obtain ⟨hformer, hburied⟩ := hdone h (hgrows.replaced j h hne hh)
      exact ⟨hgrows.former _ hformer,
        fun hcache hnonempty => (hburied hcache hnonempty).imp_left (hgrows.buried _)⟩

/-- A rotation on its way from the new key to its return. -/
theorem stage_done {op : Op} {next : Answer op → Calls Answer KeyAnswer} {userId : String}
    (huses : (Calls.call op next).Uses NotUpdate)
    (hdone : ∀ h, (i, h) ∈ s.replaced → (userId, h) ∈ s.former ∧
      (env.SESSION_CACHE = true → h ≠ "" → (userId, h) ∈ s.buried ∨
        (Calls.call op next).Certain (fun _ _ => True) fun op => op = .kvDelete h))
    (a : Answer op) : ∀ h, (i, h) ∈ (s.exec env i op).2.replaced →
      (userId, h) ∈ (s.exec env i op).2.former ∧
      (env.SESSION_CACHE = true → h ≠ "" → (userId, h) ∈ (s.exec env i op).2.buried ∨
        (next a).Certain (fun _ _ => True) fun op => op = .kvDelete h) := by
  have hsame : (s.exec env i op).2.replaced = s.replaced := by
    cases op with
    | updateUserApiKey => exact huses.1.elim
    | checkNegative | kvGet | selectByKey | migrateKey | dropNegative | kvPut | setNegative
      | getUserById | kvDelete => rfl
  intro h hh
  rw [hsame] at hh
  obtain ⟨hformer, hburied⟩ := hdone h hh
  have hgrows : Grows i s (s.exec env i op).2 := grows_exec op s
  refine ⟨hgrows.former _ hformer, fun hcache hnonempty => ?_⟩
  rcases hburied hcache hnonempty with hgone | hdelete | hlater
  · exact Or.inl (hgrows.buried _ hgone)
  · -- the entry goes with this call
    subst hdelete
    exact Or.inl (List.mem_append_left _ (List.mem_filter.mpr ⟨hformer, by simp⟩))
  · exact Or.inr (hlater a trivial)

theorem stage_exec {op : Op} {next : Answer op → Calls Answer KeyAnswer} {r : KeyRequest}
    (h : Stage env s i r (.call op next)) :
    Stage env (s.exec env i op).2 i r (next (s.exec env i op).1) := by
  cases r with
  | lookUp r => exact h.2 _
  | regenerate userId uuid =>
    rcases h with ⟨hp, hnone⟩ | ⟨oldKey, hp, hnone, hold⟩ | ⟨huses, hdone⟩
    · -- the user is read
      obtain ⟨rfl, hnext⟩ := Calls.call.inj hp
      obtain rfl := eq_of_heq hnext
      change Stage env s i _ (Calls.bind (Calls.bind (.ret
        (if userId ∈ s.db.users then some (s.db.apiKey userId) else none)) _) _)
      split_ifs with hmember
      · refine Or.inr (Or.inl ⟨s.db.apiKey userId, rfl, hnone, fun h hh => ?_⟩)
        obtain ⟨-, stored, hstored, hdigest⟩ := digestOf_eq_some.mp hh
        rw [hstored, Option.map_some, hdigest]
      · exact Or.inr (Or.inr ⟨trivial, fun h hh => absurd hh (hnone h)⟩)
    · -- the new key is stored
      obtain ⟨rfl, hnext⟩ := Calls.call.inj hp
      obtain rfl := eq_of_heq hnext
      refine Or.inr (Or.inr ?_)
      cases hunique : (s.db.updateApiKey userId (env.hashApiKey (newKey uuid))).1 with
      | false =>
        have hexec : s.exec env i (.updateUserApiKey userId (env.hashApiKey (newKey uuid))) =
            (false, { s with
              db := (s.db.updateApiKey userId (env.hashApiKey (newKey uuid))).2 }) := by
          simp [KeyHistory.exec, KeyStore.exec, KeyHistory.note, hunique]
        rw [hexec]
        exact ⟨trivial, fun h hh => absurd hh (hnone h)⟩
      | true =>
        have hexec : (s.exec env i (.updateUserApiKey userId (env.hashApiKey (newKey uuid)))).1 =
            true := hunique
        have hreplaced {h : String} (hh : (i, h) ∈ (s.exec env i
            (.updateUserApiKey userId (env.hashApiKey (newKey uuid)))).2.replaced) :
            s.db.digestOf env userId = some h := by
          simp only [KeyHistory.exec, KeyHistory.note, hunique, if_true] at hh
          rcases List.mem_append.mp hh with hnew | hbefore
          · obtain ⟨h', hh', heq⟩ := List.mem_map.mp hnew
            obtain ⟨-, rfl⟩ := Prod.mk.inj heq
            simpa using hh'
          · exact absurd hbefore (hnone h)
        have hformer {h : String} (hh : s.db.digestOf env userId = some h) :
            (userId, h) ∈ (s.exec env i
              (.updateUserApiKey userId (env.hashApiKey (newKey uuid)))).2.former := by
          simp only [KeyHistory.exec, KeyHistory.note, hunique, if_true]
          exact List.mem_append_left _ (List.mem_map.mpr ⟨h, by simp [hh], rfl⟩)
        rw [hexec]
        change ((announceKey env userId uuid oldKey).bind _).Uses NotUpdate ∧ _
        refine ⟨Calls.uses_bind (uses_notUpdate_announceKey _ _ _) fun _ => trivial, ?_⟩
        intro h hh
        refine ⟨hformer (hreplaced hh), fun hcache hne => Or.inr ?_⟩
        exact Calls.certain_bind (certain_announceKey hcache (hold h (hreplaced hh)) hne)
    · exact Or.inr (Or.inr ⟨huses.2 _, stage_done huses hdone _⟩)

theorem stage_step (hw : Ordered env w) (hG : InOrder env w m)
    (hstep : (keyCalls env).step w m = some w') :
    (∀ j h, (j, h) ∈ w'.store.replaced → j < w.running.length) ∧
      ∀ j r p, w'.running[j]? = some (r, p) → Stage env w'.store j r p := by
  have hbounded : ∀ j h, (j, h) ∈ w'.store.replaced → j < w.running.length := by
    intro j h hj
    cases System.step_cases hstep with
    | start r => exact hw.bounded j h hj
    | choose i left r next hi => exact hw.bounded j h hj
    | world e => exact hw.bounded j h hj
    | call i left r op next hi =>
      by_cases hji : j = i
      · exact hji ▸ (List.getElem?_eq_some_iff.mp hi).1
      · exact hw.bounded j h ((grows_exec op w.store).replaced j h hji hj)
  refine ⟨hbounded, ?_⟩
  have hpair : ∀ j r p, w.running[j]? = some (r, p) →
      w.running[j]? = some (r, p) ∧ Stage env w.store j r p :=
    fun j r p hj => ⟨hj, hw.stage j r p hj⟩
  refine System.running_step hpair ?_ ?_ ?_ ?_ hstep
  · rintro j r p hother ⟨hj, hstage⟩
    cases System.step_cases hstep with
    | start r => exact hstage
    | choose i left r next hi => exact hstage
    | world e =>
      have hgrows : Grows (j + 1) w.store { w.store with db := w.store.db.pass e } :=
        ⟨fun _ h => h, fun _ h => h, fun _ h => h, fun _ _ _ h => h⟩
      apply stage_other hgrows (Nat.succ_ne_self j).symm hstage
      intro userId _ _ _ _
      cases e with
      | tick | expire | setKvUp | restart => rfl
    | call i left r' op next hi =>
      have hne : j ≠ i := fun heq => hother left (heq ▸ rfl)
      have htime := hG (r', op) (System.nextCall_eq hi)
      apply stage_other (grows_exec op w.store) hne hstage
      rintro userId uuid oldKey rfl rfl
      apply digestOf_exec hw.informed.inv htime (hw.informed.knows i r' _ hi).1
      -- no other rotation of the user is about to store its key
      rintro k rfl
      exact htime.2 j hne _ (System.nextCall_eq hj) _ rfl
  · intro r
    cases r with
    | lookUp r => exact uses_notUpdate_lookUp r
    | regenerate userId uuid =>
      exact Or.inl ⟨rfl, fun h hh => absurd (hbounded _ h hh) (Nat.lt_irrefl _)⟩
  · intro i left r op next _ hi hstore
    rw [hstore]
    exact stage_exec (hw.stage i r _ hi)
  · rintro i left r next - hstore ⟨-, hstage⟩
    rw [hstore]
    cases r with
    | lookUp r => exact hstage left
    | regenerate userId uuid =>
      rcases hstage with ⟨hp, -⟩ | ⟨oldKey, hp, -⟩ | ⟨huses, hdone⟩
      · cases hp
      · cases hp
      · refine Or.inr (Or.inr ⟨huses left, fun h hh => ?_⟩)
        obtain ⟨hformer, hburied⟩ := hdone h hh
        exact ⟨hformer, fun hcache hne => (hburied hcache hne).imp_right fun hlater => hlater left⟩

theorem ordered_step (hw : Ordered env w) (hG : InOrder env w m)
    (hstep : (keyCalls env).step w m = some w') : Ordered env w' := by
  obtain ⟨hbounded, hstage⟩ := stage_step hw hG hstep
  refine ⟨?_, hstage, fun j h hj =>
    Nat.lt_of_lt_of_le (hbounded j h hj) (System.length_step hstep)⟩
  apply System.informed_step_under allowed_mono (fun _ => post_mono) ?_ ?_ ?_ ?_ hw.informed hstep
  · exact fun i _ op => InTime env w i op
  · rintro i r op s htime rfl hinv hallowed
    exact keeps_of_allowed hinv htime hallowed
  · exact fun e _ hinv => keeps_world hinv e
  · exact fun _ => knows_serve
  · rintro i left rfl c hc
    exact hG c hc

theorem ordered_start (env : Env) (db : KeyStore) :
    Ordered env ⟨KeyHistory.start env db, []⟩ := by
  refine ⟨⟨?_, fun i r p hi => by simp at hi⟩, fun i r p hi => by simp at hi, nofun⟩
  constructor
  · intro u h hu
    have hstored : db.digestOf env u = some h := hu
    obtain ⟨hmember, -⟩ := digestOf_eq_some.mp hstored
    exact List.mem_filterMap.mpr ⟨u, hmember, by rw [hstored]; rfl⟩
  · exact nofun
  · exact nofun
  · exact nofun
  · exact nofun
  · exact nofun
  · exact nofun
  · exact nofun

theorem ordered_of_reaches {db : KeyStore} (hrun : ReachesUnder (keyCalls env).step (InOrder env)
    ⟨KeyHistory.start env db, []⟩ w) : Ordered env w :=
  hrun.invariant (ordered_start env db) fun _ _ _ hw hG hstep => ordered_step hw hG hstep

end Order

/-! ## Requests that start after a rotation -/

/-- Answers that do not name the user for the digest. -/
def Never (env : Env) (userId digest : String) : (op : Op) → Answer op → Prop
  | .kvGet cacheKey, a => env.SESSION_CACHE = true → cacheKey = digest → a ≠ some userId
  | .selectByKey apiKey, a => env.digest apiKey = digest → a ≠ some userId
  | _, _ => True

/-- Answers that name the user for the digest, or nobody where only a cache is asked. -/
def Always (userId digest : String) : (op : Op) → Answer op → Prop
  | .checkNegative _ cacheKey, a => cacheKey = digest → a = false
  | .kvGet cacheKey, a => cacheKey = digest → ∀ other, a = some other → other = userId
  | .selectByKey apiKey, a => apiKey = digest → a = some userId
  | _, _ => True

section Later

variable {s : KeyHistory} {userId token : String} {i : ℕ}

theorem never_of_buried (hinv : KeyInv env s) {h : String} (hformer : (userId, h) ∈ s.former)
    (hburied : env.SESSION_CACHE = true → (userId, h) ∈ s.buried) (op : Op) :
    Never env userId h op (s.exec env i op).1 := by
  cases op with
  | kvGet k =>
    rintro hcache rfl
    simp only [KeyHistory.exec, KeyStore.exec]
    split_ifs
    · exact hinv.dead userId k (hburied hcache)
    · exact nofun
  | selectByKey k =>
    rintro rfl hfound
    have hkey : s.db.hasKey k userId = true := List.find?_some hfound
    exact hinv.gone userId _ hformer (digestOf_of_hasKey hkey)
  | checkNegative | migrateKey | dropNegative | kvPut | setNegative | getUserById
    | updateUserApiKey | kvDelete => exact trivial

theorem always_of_live (hinv : KeyInv env s) {h : String} (hlive : Live userId h s)
    (hdigest : isPlain h = false) (op : Op) : Always userId h op (s.exec env i op).1 := by
  cases op with
  | checkNegative isolate k =>
    rintro rfl
    simp only [KeyHistory.exec, KeyStore.exec, hlive.accepted isolate]
  | kvGet k =>
    rintro rfl other hother
    simp only [KeyHistory.exec, KeyStore.exec] at hother
    split_ifs at hother
    exact hlive.cached other hother
  | selectByKey k =>
    rintro rfl
    change (s.db.users.find? fun v => s.db.hasKey k v) = some userId
    cases hfound : s.db.users.find? fun v => s.db.hasKey k v with
    | none =>
      have hkey : s.db.hasKey k userId = true := hasKey_iff.mpr ⟨hlive.member, hlive.text⟩
      exact absurd hkey (List.find?_eq_none.mp hfound userId hlive.member)
    | some v =>
      have howns := hinv.owns v _ (digestOf_of_hasKey (List.find?_some hfound))
      rw [digest_of_not_plain hdigest] at howns
      rw [hlive.sole v howns]
  | migrateKey | dropNegative | kvPut | setNegative | getUserById | updateUserApiKey | kvDelete =>
    exact trivial

theorem yields_remember {A : (op : Op) → Answer op → Prop} (isolate cacheKey : String)
    (found : Option String) :
    (remember env isolate cacheKey found).Yields A fun res => res = found := by
  cases found with
  | none => exact fun _ _ => rfl
  | some userId =>
    intro _ _
    cases env.SESSION_CACHE with
    | false => exact rfl
    | true => exact fun _ _ => rfl

theorem never_lookUpKey (isolate : String) (hplain : isPlain token = true) :
    (lookUpKey env isolate token).Yields (Never env userId (env.hashApiKey token))
      fun res => res ≠ some userId := by
  have hverify : (AuthRepository.verifyApiKey (env.hashApiKey token) token).Yields
      (Never env userId (env.hashApiKey token)) fun res => res ≠ some userId := by
    intro user huser
    have hnot : user ≠ some userId := huser (digest_of_not_plain (isPlain_hash token))
    cases user with
    | some other => exact hnot
    | none =>
      intro user huser'
      have hdigest : env.digest token = env.hashApiKey token := by simp [Env.digest, hplain]
      have hnot' : user ≠ some userId := huser' hdigest
      cases user with
      | none => exact nofun
      | some other => exact fun _ _ => hnot'
  have hquery : (queryKey env isolate token).Yields (Never env userId (env.hashApiKey token))
      fun res => res ≠ some userId := by
    apply Calls.yields_bind hverify
    intro found hfound
    apply (yields_remember isolate _ found).imp
    rintro res rfl
    exact hfound
  intro refused _
  cases refused with
  | true => exact nofun
  | false =>
    cases hcache : env.SESSION_CACHE with
    | false => exact hquery
    | true =>
      intro cached hcached
      have hnot : cached ≠ some userId := hcached hcache rfl
      cases cached with
      | some other => exact hnot
      | none => exact hquery

theorem always_lookUpKey (isolate token : String) :
    (lookUpKey env isolate token).Yields (Always userId (env.hashApiKey token))
      fun res => res = some userId := by
  have hquery : (queryKey env isolate token).Yields (Always userId (env.hashApiKey token))
      fun res => res = some userId := by
    have hverify : (AuthRepository.verifyApiKey (env.hashApiKey token) token).Yields
        (Always userId (env.hashApiKey token)) fun res => res = some userId := by
      intro user huser
      obtain rfl : user = some userId := huser rfl
      exact rfl
    apply Calls.yields_bind hverify
    rintro found rfl
    exact yields_remember isolate _ _
  intro refused hrefused
  obtain rfl : refused = false := hrefused rfl
  cases env.SESSION_CACHE with
  | false => exact hquery
  | true =>
    intro cached hcached
    cases cached with
    | some other =>
      obtain rfl := hcached rfl other rfl
      exact rfl
    | none => exact hquery

/-- The requests that carry the key, and nothing that goes before it. -/
def Carries (token : String) : KeyRequest → Prop
  | .lookUp r => r.streamTicketUser = none ∧ r.token = some token
  | .regenerate _ _ => False

/-- What a request answers. -/
def Names (P : Option String → Prop) : KeyAnswer → Prop
  | .user userId => P userId
  | .key _ => True

theorem yields_serve {A : (op : Op) → Answer op → Prop} {P : Option String → Prop}
    (hplain : isPlain token = true)
    (hlook : ∀ isolate, (lookUpKey env isolate token).Yields A P) (r : KeyRequest)
    (hr : Carries token r) : (serve env r).Yields A (Names P) := by
  cases r with
  | regenerate userId uuid => exact hr.elim
  | lookUp r =>
    obtain ⟨isolate, ticket, token', subject⟩ := r
    obtain ⟨rfl, rfl⟩ : ticket = none ∧ token' = some token := hr
    have hnonempty : token.isEmpty = false := by
      by_contra hempty
      have heq : token = "" := by simpa using hempty
      rw [heq] at hplain
      exact absurd hplain (by decide)
    have hbody : getUserIdFromRequest env ⟨isolate, none, some token, subject⟩ =
        lookUpKey env isolate token := by
      have hfilter : (some token).filter (fun t => !t.isEmpty) = some token := by
        simp [hnonempty]
      simp only [getUserIdFromRequest, hfilter, Option.filter_none, hplain, if_true]
    change ((getUserIdFromRequest env _).bind fun userId => .ret (KeyAnswer.user userId)).Yields
      A (Names P)
    rw [hbody]
    exact Calls.yields_bind (hlook isolate) fun _ h => h

variable {w w' : KeyPool} {m : Move KeyRequest World}

theorem history_step (hstep : (keyCalls env).step w m = some w') :
    (∀ e ∈ w.store.made, e ∈ w'.store.made) ∧ (∀ e ∈ w.store.former, e ∈ w'.store.former) ∧
      ∀ e ∈ w.store.buried, e ∈ w'.store.buried := by
  cases System.step_cases hstep with
  | start r => exact ⟨fun _ h => h, fun _ h => h, fun _ h => h⟩
  | choose i left r next hi => exact ⟨fun _ h => h, fun _ h => h, fun _ h => h⟩
  | world e => exact ⟨fun _ h => h, fun _ h => h, fun _ h => h⟩
  | call i left r op next hi =>
    have hgrows : Grows i w.store (w.store.exec env i op).2 := grows_exec op w.store
    exact ⟨hgrows.made, hgrows.former, hgrows.buried⟩

/-- The key is gone from the database and the cache, and no request that started later than the
first `n` will have its user. -/
structure Dead (env : Env) (n : ℕ) (userId token : String) (w : KeyPool) : Prop where
  former : (userId, env.hashApiKey token) ∈ w.store.former
  buried : env.SESSION_CACHE = true → (userId, env.hashApiKey token) ∈ w.store.buried
  later : ∀ j r p, w.running[j]? = some (r, p) → n ≤ j → Carries token r →
    p.Yields (Never env userId (env.hashApiKey token)) (Names fun res => res ≠ some userId)

theorem dead_step {n : ℕ} (hplain : isPlain token = true) (hw : Ordered env w)
    (h : Dead env n userId token w) (hstep : (keyCalls env).step w m = some w') :
    Dead env n userId token w' := by
  obtain ⟨-, hformer, hburied⟩ := history_step hstep
  refine ⟨hformer _ h.former, fun hcache => hburied _ (h.buried hcache), ?_⟩
  refine System.yields_step ?_ ?_ h.later hstep
  · exact yields_serve hplain fun isolate => never_lookUpKey isolate hplain
  · exact fun i _ op => never_of_buried hw.informed.inv h.former h.buried op

/-- The key was made, and until it is replaced the requests that started later than the first
`n` will have its user. -/
structure Alive (n : ℕ) (env : Env) (userId token : String) (w : KeyPool) : Prop where
  made : (userId, env.hashApiKey token) ∈ w.store.made
  later : (userId, env.hashApiKey token) ∈ w.store.former ∨
    ∀ j r p, w.running[j]? = some (r, p) → n ≤ j → Carries token r →
      p.Yields (Always userId (env.hashApiKey token)) (Names fun res => res = some userId)

theorem alive_step {n : ℕ} (hplain : isPlain token = true) (hw : Ordered env w)
    (h : Alive n env userId token w) (hstep : (keyCalls env).step w m = some w') :
    Alive n env userId token w' := by
  obtain ⟨hmade, hformer, -⟩ := history_step hstep
  refine ⟨hmade _ h.made, ?_⟩
  rcases h.later with hgone | hlater
  · exact Or.inl (hformer _ hgone)
  · rcases hw.informed.inv.live _ _ h.made with hgone | hlive
    · exact Or.inl (hformer _ hgone)
    · refine Or.inr (System.yields_step ?_ ?_ hlater hstep)
      · exact yields_serve hplain fun isolate => always_lookUpKey isolate token
      · exact fun i _ op => always_of_live hw.informed.inv hlive (isPlain_hash token) op

/-- Nobody started later than all of them. -/
theorem no_later {Q : Calls Answer KeyAnswer → Prop} {j : ℕ} {r : KeyRequest}
    {p : Calls Answer KeyAnswer} (hj : w.running[j]? = some (r, p))
    (hlater : w.running.length ≤ j) : Q p :=
  absurd (List.getElem?_eq_some_iff.mp hj).1 (Nat.not_lt.mpr hlater)

/-- What is left of a rotation that returned. -/
theorem dead_of_done {i : ℕ} {uuid apiKey : String} (hw : Ordered env w)
    (hdone : w.running[i]? = some (.regenerate userId uuid, .ret (.key (.ok apiKey))))
    (hold : (i, env.hashApiKey token) ∈ w.store.replaced) :
    Dead env w.running.length userId token w := by
  rcases hw.stage i _ _ hdone with ⟨hp, -⟩ | ⟨oldKey, hp, -⟩ | ⟨-, hgone⟩
  · cases hp
  · cases hp
  · obtain ⟨hformer, hburied⟩ := hgone _ hold
    refine ⟨hformer, fun hcache => ?_, fun j r p hj hlater _ => no_later hj hlater⟩
    exact (hburied hcache (hash_ne_empty token)).resolve_right id

theorem alive_of_done {i : ℕ} {uuid apiKey : String} (hw : Ordered env w)
    (hdone : w.running[i]? = some (.regenerate userId uuid, .ret (.key (.ok apiKey)))) :
    apiKey = newKey uuid ∧ Alive w.running.length env userId apiKey w := by
  obtain ⟨heq, hmade⟩ := hw.informed.knows i _ _ hdone
  exact ⟨heq, hmade, Or.inr fun j r p hj hlater _ => no_later hj hlater⟩

/-- Once a rotation has returned, no request that starts afterwards has the user by the key that
it replaced, and as long as its own key is the user's every such request has the user by it. -/
theorem regenerated_key_is_dead (env : Env) (db : KeyStore) {w₁ w₂ : KeyPool} {i j : ℕ}
    {userId uuid apiKey token : String} {r : KeyLookup} {res : Option String}
    (hrun₁ : ReachesUnder (keyCalls env).step (InOrder env) ⟨KeyHistory.start env db, []⟩ w₁)
    (hdone : w₁.running[i]? = some (.regenerate userId uuid, .ret (.key (.ok apiKey))))
    (hrun₂ : ReachesUnder (keyCalls env).step (InOrder env) w₁ w₂)
    (hlater : w₁.running.length ≤ j)
    (hlookup : w₂.running[j]? = some (.lookUp r, .ret (.user res)))
    (hticket : r.streamTicketUser = none) (htoken : r.token = some token) :
    ((i, env.hashApiKey token) ∈ w₁.store.replaced → isPlain token = true →
        res ≠ some userId) ∧
      (token = apiKey → w₂.store.db.digestOf env userId = some (env.hashApiKey apiKey) →
        res = some userId) := by
  have hw₁ := ordered_of_reaches hrun₁
  constructor
  · intro hold hplain
    have hboth : Ordered env w₂ ∧ Dead env w₁.running.length userId token w₂ := by
      apply hrun₂.invariant (I := fun w => Ordered env w ∧
        Dead env w₁.running.length userId token w) ⟨hw₁, dead_of_done hw₁ hdone hold⟩
      rintro t m u ⟨ht, hdead⟩ hG hstep
      exact ⟨ordered_step ht hG hstep, dead_step hplain ht hdead hstep⟩
    exact hboth.2.later j _ _ hlookup hlater ⟨hticket, htoken⟩
  · rintro rfl hcurrent
    obtain ⟨heq, halive⟩ := alive_of_done hw₁ hdone
    have hplain : isPlain token = true := by
      rw [heq, isPlain, startsWith, newKey, String.toList_append, List.isPrefixOf_iff_prefix]
      exact List.prefix_append _ _
    have hboth : Ordered env w₂ ∧ Alive w₁.running.length env userId token w₂ := by
      apply hrun₂.invariant (I := fun w => Ordered env w ∧
        Alive w₁.running.length env userId token w) ⟨hw₁, halive⟩
      rintro t m u ⟨ht, halive⟩ hG hstep
      exact ⟨ordered_step ht hG hstep, alive_step hplain ht halive hstep⟩
    obtain ⟨hw₂, -, hgone | hlives⟩ := hboth
    · exact absurd hcurrent (hw₂.informed.inv.gone _ _ hgone)
    · exact hlives j _ _ hlookup hlater ⟨hticket, htoken⟩

end Later

theorem hex_of_all {s : String} (hlength : s.toList.length = 64)
    (hall : s.toList.all (· ∈ "0123456789abcdef".toList)) :
    s.toList.length = 64 ∧ ∀ c ∈ s.toList, c ∈ "0123456789abcdef".toList :=
  ⟨hlength, fun c hc => of_decide_eq_true (List.all_eq_true.mp hall c hc)⟩

/-- A deployment, and the digests of two keys. -/
def twoKeys : Env where
  SESSION_CACHE := true
  hashApiKey key :=
    if key = "swazz_live_a" then "07e4d2839cc6293b4f474fc16faff0eee6669782f47d6c14f07f4dae36d99693"
    else "b4185723adb3b99d21604216e6fe10bba8caf7d947ec02df260f62c866c8e295"
  hex key := by
    split
    · exact hex_of_all (by decide) (by decide)
    · exact hex_of_all (by decide) (by decide)

/-- One account, with its key as it is stored. -/
def oneUser (stored : String) : KeyPool where
  store := KeyHistory.start twoKeys
    { users := ["u"]
      apiKey := fun _ => some stored
      kv := fun _ => none
      kvUp := true
      negativeApiKeyCache := fun _ => []
      now := 0 }
  running := []

def withKey (token : String) : KeyRequest := .lookUp ⟨"isolate", none, some token, none⟩

def steps (i n : ℕ) : List (Move KeyRequest World) := List.replicate n (.next i false)

/-- The request at an index was answered with the user. -/
def hasUser (w : KeyPool) (j : ℕ) (userId : String) : Bool :=
  match w.running[j]? with
  | some (_, .ret (.user (some found))) => decide (found = userId)
  | _ => false

/-- The rotation at an index has returned. -/
def rotated (w : KeyPool) (i : ℕ) : Bool :=
  match w.running[i]? with
  | some (.regenerate _ _, .ret (.key (.ok _))) => true
  | _ => false

/-- The rotation at 1 has returned, and the request at 2, which starts later, still has the
user by the key that it replaced. -/
structure Revived (w₁ w₂ : KeyPool) : Prop where
  done : rotated w₁ 1 = true
  old : (1, twoKeys.hashApiKey "swazz_live_a") ∈ w₁.store.replaced
  later : w₁.running.length ≤ 2
  found : hasUser w₂ 2 "u" = true

instance (w₁ w₂ : KeyPool) : Decidable (Revived w₁ w₂) :=
  decidable_of_iff (rotated w₁ 1 = true ∧ (1, twoKeys.hashApiKey "swazz_live_a") ∈
      w₁.store.replaced ∧ w₁.running.length ≤ 2 ∧ hasUser w₂ 2 "u" = true)
    ⟨fun h => ⟨h.1, h.2.1, h.2.2.1, h.2.2.2⟩, fun h => ⟨h.done, h.old, h.later, h.found⟩⟩

theorem runs_of_test (stored : String) (moves moves' : List (Move KeyRequest World))
    (P : KeyPool → KeyPool → Bool)
    (h : (StepSystem.runUnder (keyCalls twoKeys).step (fun _ _ => True) (oneUser stored)
      moves).any (fun w₁ => (StepSystem.runUnder (keyCalls twoKeys).step (fun _ _ => True) w₁
        moves').any (P w₁)) = true) :
    ∃ w₁ w₂, Reaches (keyCalls twoKeys).step (oneUser stored) w₁ ∧
      Reaches (keyCalls twoKeys).step w₁ w₂ ∧ P w₁ w₂ = true := by
  obtain ⟨w₁, hw₁, h⟩ := (Option.any_eq_true _ _).mp h
  obtain ⟨w₂, hw₂, h⟩ := (Option.any_eq_true _ _).mp h
  exact ⟨w₁, w₂, StepSystem.reachesUnder_of_run hw₁, StepSystem.reachesUnder_of_run hw₂, h⟩

/-- A request has found the account when its key is replaced, and what it caches then serves one
that starts after the rotation. Where the key is still in plain text, the digest that the request
stores takes the place of the new key. -/
theorem regenerated_key_lives :
    (∃ w₁ w₂, Reaches (keyCalls twoKeys).step
        (oneUser (twoKeys.hashApiKey "swazz_live_a")) w₁ ∧
      Reaches (keyCalls twoKeys).step w₁ w₂ ∧ Revived w₁ w₂) ∧
    ∃ w₁ w₂, Reaches (keyCalls twoKeys).step (oneUser "swazz_live_a") w₁ ∧
      Reaches (keyCalls twoKeys).step w₁ w₂ ∧ Revived w₁ w₂ ∧
      w₂.store.db.apiKey "u" = some (twoKeys.hashApiKey "swazz_live_a") := by
  constructor
  · obtain ⟨w₁, w₂, hw₁, hw₂, h⟩ := runs_of_test (twoKeys.hashApiKey "swazz_live_a")
      (.start (withKey "swazz_live_a") :: steps 0 3 ++ .start (.regenerate "u" "b") :: steps 1 4)
      (steps 0 2 ++ .start (withKey "swazz_live_a") :: steps 2 2)
      (fun w₁ w₂ => decide (Revived w₁ w₂)) (by decide)
    exact ⟨w₁, w₂, hw₁, hw₂, of_decide_eq_true h⟩
  · obtain ⟨w₁, w₂, hw₁, hw₂, h⟩ := runs_of_test "swazz_live_a"
      (.start (withKey "swazz_live_a") :: steps 0 4 ++ .start (.regenerate "u" "b") :: steps 1 4)
      (steps 0 3 ++ .start (withKey "swazz_live_a") :: steps 2 2)
      (fun w₁ w₂ => decide (Revived w₁ w₂ ∧ w₂.store.db.apiKey "u" =
        some (twoKeys.hashApiKey "swazz_live_a"))) (by decide)
    obtain ⟨hrevived, hstored⟩ := of_decide_eq_true h
    exact ⟨w₁, w₂, hw₁, hw₂, hrevived, hstored⟩

/-- The history after some calls, each with the index of its request. -/
def after (calls : List (ℕ × Op)) : KeyHistory :=
  calls.foldl (fun s call => (s.exec twoKeys call.1 call.2).2)
    (oneUser (twoKeys.hashApiKey "swazz_live_a")).store

/-- The calls of a rotation that is alone. -/
def rotationCalls : List (ℕ × Op) :=
  [(0, .getUserById "u"), (0, .updateUserApiKey "u" (twoKeys.hashApiKey "swazz_live_b")),
    (0, .kvDelete (twoKeys.hashApiKey "swazz_live_a")),
    (0, .kvPut (twoKeys.hashApiKey "swazz_live_b") "u")]

abbrev RunsAlone (w : KeyPool) : Prop :=
  ReachesUnder (keyCalls twoKeys).step (InOrder twoKeys)
    (oneUser (twoKeys.hashApiKey "swazz_live_a")) w

/-- A rotation that is alone comes in time. -/
theorem rotation_alone : RunsAlone
    ⟨after rotationCalls, [(.regenerate "u" "b", .ret (.key (.ok "swazz_live_b")))]⟩ := by
  have hother : twoKeys.hashApiKey "swazz_live_b" ≠ twoKeys.hashApiKey "swazz_live_a" := by
    decide
  have hstarted : RunsAlone ⟨after [], [(.regenerate "u" "b",
      serve twoKeys (.regenerate "u" "b"))]⟩ :=
    StepSystem.ReachesUnder.tail (a := .start (.regenerate "u" "b"))
      Relation.ReflTransGen.refl trivial rfl
  have hread : RunsAlone ⟨after (rotationCalls.take 1), [(.regenerate "u" "b",
      (replaceKey twoKeys "u" "b" (some (twoKeys.hashApiKey "swazz_live_a"))).bind
        fun key => .ret (.key key))]⟩ := by
    apply StepSystem.ReachesUnder.tail (a := .next 0 false) hstarted ?_ rfl
    rintro c ⟨rfl⟩
    exact trivial
  have hstored : RunsAlone ⟨after (rotationCalls.take 2), [(.regenerate "u" "b",
      (announceKey twoKeys "u" "b" (some (twoKeys.hashApiKey "swazz_live_a"))).bind
        fun key => .ret (.key key))]⟩ := by
    apply StepSystem.ReachesUnder.tail (a := .next 0 false) hread ?_ rfl
    rintro c ⟨rfl⟩
    refine ⟨⟨nofun, ?_, rfl, fun _ => rfl⟩, ?_⟩
    · intro userId howned
      exact hother (Prod.mk.inj (List.mem_singleton.mp howned)).2
    · intro j hne c hc
      cases j with
      | zero => exact absurd rfl hne
      | succ j => cases hc
  have hdeleted : RunsAlone ⟨after (rotationCalls.take 3), [(.regenerate "u" "b",
      (perform (.kvPut (twoKeys.hashApiKey "swazz_live_b") "u")).bind
        fun _ => .ret (.key (.ok "swazz_live_b")))]⟩ := by
    apply StepSystem.ReachesUnder.tail (a := .next 0 false) hstored ?_ rfl
    rintro c ⟨rfl⟩
    exact Or.inl rfl
  apply StepSystem.ReachesUnder.tail (a := .next 0 false) hdeleted ?_ rfl
  rintro c ⟨rfl⟩
  exact fun hburied => hother (Prod.mk.inj (List.mem_singleton.mp hburied)).2

/-- The calls that always come in time. -/
def onTime : Op → Bool
  | .checkNegative _ _ | .kvGet _ | .selectByKey _ | .setNegative _ _ => true
  | _ => false

def OnTime (w : KeyPool) : Move KeyRequest World → Prop
  | .next i _ => (System.nextCall w i).all (fun c => onTime c.2) = true
  | _ => True

instance (w : KeyPool) (m : Move KeyRequest World) : Decidable (OnTime w m) := by
  cases m with
  | start | world => exact .isTrue trivial
  | next i left => exact inferInstanceAs (Decidable (_ = true))

theorem inOrder_of_onTime (w : KeyPool) (m : Move KeyRequest World) (h : OnTime w m) :
    InOrder twoKeys w m := by
  cases m with
  | start | world => exact trivial
  | next i left =>
    rintro ⟨r, op⟩ hc
    have htime : onTime op = true := by
      rw [OnTime, Option.all_eq_true] at h
      exact h (r, op) hc
    cases op with
    | checkNegative | kvGet | selectByKey | setNegative => exact trivial
    | migrateKey | dropNegative | kvPut | getUserById | updateUserApiKey | kvDelete => cases htime

/-- The request at an index has the old key, and was answered. -/
def answered (j : ℕ) (w : KeyPool) : Bool :=
  match w.running[j]? with
  | some (.lookUp r, .ret (.user _)) =>
    decide (r = ⟨"isolate", none, some "swazz_live_a", none⟩)
  | _ => false

/-- After the rotation, a request with the key that it replaced. -/
theorem regenerated_key_is_dead_alone : ∃ (w₂ : KeyPool) (res : Option String),
    w₂.running[1]? = some (withKey "swazz_live_a", .ret (.user res)) ∧ res ≠ some "u" := by
  obtain ⟨w₂, hrun₂, hanswered⟩ := StepSystem.reachesUnder_of_test (keyCalls twoKeys).step OnTime
    ⟨after rotationCalls, [(.regenerate "u" "b", .ret (.key (.ok "swazz_live_b")))]⟩
    (.start (withKey "swazz_live_a") :: steps 1 5) (answered 1) (by decide)
  rw [answered] at hanswered
  split at hanswered
  · rename_i r res hlookup
    obtain rfl := of_decide_eq_true hanswered
    refine ⟨w₂, res, hlookup, ?_⟩
    exact (regenerated_key_is_dead twoKeys _ rotation_alone rfl (hrun₂.mono inOrder_of_onTime)
      (Nat.le_refl 1) hlookup rfl rfl).1 (List.mem_singleton_self _) rfl
  · cases hanswered

end Swazz.ApiKeys
