import Swazz.KeyStorage

/-! When the entries that are stored belong together. -/
namespace Swazz.Encryption

open AtomicCalls StepSystem
open RunnerAccess (JsString js)

variable {c : Crypto} {s : Store c} {w w' : Pool (Answer c) (Store c) Request Outcome}

/-- The two halves of one key pair: the public key is what the private key exports. -/
def Halves (privateKey : c.PrivateKey) (publicKey : c.PublicKey) : Prop :=
  c.importPublic (c.exportX privateKey) = some publicKey

/-- Where both keys are stored they are one key pair, which a stored phrase derives. -/
def BelongTogether (s : Store c) : Prop :=
  ∀ privateKey publicKey, s.privateKey = some privateKey → s.publicKey = some publicKey →
    Halves privateKey publicKey ∧ ∀ mnemonic, s.mnemonic = some mnemonic → mnemonic ≠ [] →
      deriveKeyFromMnemonic c mnemonic = some (privateKey, publicKey)

/-- Keys that belong together by themselves. -/
structure Genuine (keys : Keys c) : Prop where
  halves : Halves keys.privateKey keys.publicKey
  derived : keys.mnemonic ≠ [] →
    deriveKeyFromMnemonic c keys.mnemonic = some (keys.privateKey, keys.publicKey)

/-- The private key that is stored, if any, is that of `keys`. -/
def PrivateFits (s : Store c) (keys : Keys c) : Prop :=
  ∀ privateKey ∈ s.privateKey, privateKey = keys.privateKey

def PublicFits (s : Store c) (keys : Keys c) : Prop :=
  ∀ publicKey ∈ s.publicKey, publicKey = keys.publicKey

def MnemonicFits (s : Store c) (keys : Keys c) : Prop :=
  ∀ mnemonic ∈ s.mnemonic, mnemonic = [] ∨
    deriveKeyFromMnemonic c mnemonic = some (keys.privateKey, keys.publicKey)

/-- An entry is written while the other entries are those of the same keys, or are not there. -/
def CallInTurn (s : Store c) : Op c → Prop
  | .savePrivateKey keys => PublicFits s keys ∧ MnemonicFits s keys
  | .savePublicKey keys => PrivateFits s keys ∧ MnemonicFits s keys
  | .saveMnemonic keys => PrivateFits s keys ∧ PublicFits s keys
  | _ => True

/-- The backup of a key has the public half of its own private key. -/
def OwnX (c : Crypto) : Request → Prop
  | .importFromJwk (some d) x => ∀ privateKey ∈ c.importPrivate d x, c.exportX privateKey = x
  | _ => True

/-- Only backups of whole keys are imported, and every write that is carried out is in turn. -/
def InTurn (w : Pool (Answer c) (Store c) Request Outcome) : Move Request Fate → Prop
  | .start r => OwnX c r
  | .next i _ => w.store.fate = .done → ∀ call ∈ System.nextCall w i, CallInTurn w.store call.2
  | .world _ => True

section

variable [DecidableEq c.PrivateKey] [DecidableEq c.PublicKey]

instance (op : Op c) : Decidable (CallInTurn s op) := by
  cases op <;> unfold CallInTurn <;> (try unfold PrivateFits) <;> (try unfold PublicFits) <;>
    (try unfold MnemonicFits) <;> infer_instance

instance (r : Request) : Decidable (OwnX c r) := by
  rcases r with _ | _ | _ | ⟨_ | d, x⟩ <;> unfold OwnX <;> infer_instance

instance (m : Move Request Fate) : Decidable (InTurn w m) := by
  cases m <;> unfold InTurn <;> infer_instance

end

/-- The program saves only keys that belong together. -/
def SavesGenuine : Op c → Prop
  | .savePrivateKey keys => Genuine keys
  | .savePublicKey keys => Genuine keys
  | .saveMnemonic keys => Genuine keys
  | _ => True

theorem genuine_of_derive {mnemonic : JsString} {privateKey : c.PrivateKey}
    {publicKey : c.PublicKey}
    (h : deriveKeyFromMnemonic c mnemonic = some (privateKey, publicKey)) :
    Genuine (c := c) ⟨privateKey, publicKey, mnemonic⟩ := by
  refine ⟨?_, fun _ => h⟩
  obtain ⟨k, -, hpublic⟩ := Option.bind_eq_some_iff.mp h
  obtain ⟨p, himport, heq⟩ := Option.map_eq_some_iff.mp hpublic
  obtain ⟨rfl, rfl⟩ := Prod.mk.inj heq
  exact himport

theorem uses_saveKeys {keys : Keys c} {caught : Calls (Answer c) Outcome} (h : Genuine keys)
    (hcaught : caught.Uses SavesGenuine) : (saveKeys keys caught).Uses SavesGenuine := by
  refine ⟨h, fun saved => ?_⟩
  cases saved with
  | none => exact hcaught
  | some _ =>
    refine ⟨h, fun saved => ?_⟩
    cases saved with
    | none => exact hcaught
    | some _ =>
      refine ⟨h, fun saved => ?_⟩
      cases saved with
      | none => exact hcaught
      | some _ => exact trivial

theorem uses_deriveAndSave {mnemonicPhrase : JsString} {caught : Calls (Answer c) Outcome}
    (hcaught : caught.Uses SavesGenuine) :
    (deriveAndSave mnemonicPhrase caught).Uses SavesGenuine := by
  rw [deriveAndSave]
  split
  · exact hcaught
  · rename_i privateKey publicKey hderive
    exact uses_saveKeys (genuine_of_derive hderive) hcaught

theorem uses_restore (mnemonicPhrase : JsString) :
    (restore (c := c) mnemonicPhrase).Uses SavesGenuine := by
  have hcaught : (deleteAfterFailure (c := c)).Uses SavesGenuine := ⟨trivial, fun _ => trivial⟩
  intro cancelled
  cases cancelled with
  | true => exact trivial
  | false =>
    intro isSupported
    cases isSupported with
    | false => exact trivial
    | true =>
      refine ⟨trivial, fun privateKey => ?_⟩
      cases privateKey with
      | none => exact hcaught
      | some privateKey =>
        refine ⟨trivial, fun publicKey => ?_⟩
        cases publicKey with
        | none => exact hcaught
        | some publicKey =>
          refine ⟨trivial, fun mnemonic => ?_⟩
          cases mnemonic with
          | none => exact hcaught
          | some _ =>
            dsimp only
            split
            · exact trivial
            · intro cancelled
              cases cancelled with
              | true => exact trivial
              | false => exact uses_deriveAndSave hcaught

theorem uses_ifSupported {next : Calls (Answer c) Outcome} (h : next.Uses SavesGenuine) :
    (ifSupported next).Uses SavesGenuine := by
  intro isSupported
  cases isSupported with
  | false => exact trivial
  | true => exact h

theorem uses_serve {r : Request} (hr : OwnX c r) : (serve c r).Uses SavesGenuine := by
  cases r with
  | restore mnemonicPhrase => exact uses_restore mnemonicPhrase
  | generateKeyPair mnemonicPhrase => exact uses_ifSupported (uses_deriveAndSave trivial)
  | importFromMnemonic mnemonicPhrase =>
    refine uses_ifSupported ?_
    split
    · exact uses_deriveAndSave trivial
    · exact trivial
  | importFromJwk d x =>
    refine uses_ifSupported ?_
    cases d with
    | none => exact trivial
    | some d =>
      dsimp only
      split
      · rename_i privateKey publicKey hprivate hpublic
        have hx : c.exportX privateKey = x := hr privateKey hprivate
        have hhalves : Halves privateKey publicKey := by
          rw [Halves, hx]
          exact hpublic
        exact uses_saveKeys ⟨hhalves, fun hne => absurd rfl hne⟩ trivial
      · exact trivial

theorem BelongTogether.of_fits {keys : Keys c} (hkeys : Genuine keys)
    (hprivate : PrivateFits s keys) (hpublic : PublicFits s keys) (hmnemonic : MnemonicFits s keys) :
    BelongTogether s := by
  intro privateKey publicKey hk hp
  obtain rfl := hprivate privateKey hk
  obtain rfl := hpublic publicKey hp
  refine ⟨hkeys.halves, fun mnemonic hm hne => ?_⟩
  exact (hmnemonic mnemonic hm).resolve_left hne

theorem belong_exec {op : Op c} (h : BelongTogether s) (hop : SavesGenuine op)
    (hturn : s.fate = .done → CallInTurn s op) : BelongTogether (s.exec op).2 := by
  cases hfate : s.fate with
  | refused => cases op <;> simpa [Store.exec, Store.read, Store.write, hfate] using h
  | lost => cases op <;> simpa [Store.exec, Store.read, Store.write, hfate] using h
  | done =>
    have hcall := hturn hfate
    have hself {α : Type} {a : α} : ∀ b ∈ some a, b = a := fun b hb => (Option.some.inj hb).symm
    cases op with
    | savePrivateKey keys =>
      simp only [Store.exec, Store.write, hfate]
      exact .of_fits hop hself hcall.1 hcall.2
    | savePublicKey keys =>
      simp only [Store.exec, Store.write, hfate]
      exact .of_fits hop hcall.1 hself hcall.2
    | saveMnemonic keys =>
      simp only [Store.exec, Store.write, hfate]
      refine .of_fits hop hcall.1 hcall.2 fun mnemonic hm => ?_
      obtain rfl := Option.some.inj hm
      by_cases hempty : keys.mnemonic = []
      · exact Or.inl hempty
      · exact Or.inr (hop.derived hempty)
    | deleteKeys =>
      simp only [Store.exec, hfate]
      exact fun privateKey publicKey hk => absurd hk nofun
    | _ => simpa [Store.exec, Store.read, hfate] using h

/-- Every phrase is a key, and every key is its own half. -/
def plainCrypto : Crypto where
  PrivateKey := JsString
  PublicKey := JsString
  derive := some
  exportX := id
  importPublic := some
  importPrivate := fun d _ => some d
  WORDLIST := []
  checksum := fun _ => true
  isFinal := fun _ _ => false

instance : DecidableEq plainCrypto.PrivateKey := inferInstanceAs (DecidableEq JsString)

instance : DecidableEq plainCrypto.PublicKey := inferInstanceAs (DecidableEq JsString)

def plainPrivate (mnemonic : String) : plainCrypto.PrivateKey := js mnemonic

def plainPublic (mnemonic : String) : plainCrypto.PublicKey := js mnemonic

def empty : Store plainCrypto := ⟨none, none, none, .done⟩

def generateOnce : List (Move Request Fate) :=
  [.start (.restore (js "one")), .next 0 false, .next 0 true, .next 0 true, .next 0 true,
    .next 0 true, .next 0 false, .next 0 true, .next 0 true, .next 0 true]

/-- Two tabs find no keys, and each saves its own. -/
def generateTwice : List (Move Request Fate) :=
  [.start (.restore (js "one")), .next 0 false, .next 0 true, .next 0 true, .next 0 true,
    .next 0 true, .next 0 false,
    .start (.restore (js "two")), .next 1 false, .next 1 true, .next 1 true, .next 1 true,
    .next 1 true, .next 1 false,
    .next 0 true, .next 1 true, .next 1 true, .next 1 true, .next 0 true, .next 0 true]

end Swazz.Encryption
