import Swazz.AtomicCalls
import Swazz.LicenseTokens

/-! The browser's storage of the encryption keys of a project: three entries, each written in a
transaction of its own, and the hooks of any tabs that write them. -/
namespace Swazz.Encryption

open AtomicCalls
open RunnerAccess (JsString toLowerCase)
open License (trim jsSpace)

/-- The cryptography of the browser, and the word list. An import or a derivation that throws
is `none`. -/
structure Crypto where
  PrivateKey : Type
  PublicKey : Type
  /-- The key of a normalized phrase. -/
  derive : JsString → Option PrivateKey
  /-- The `x` of a private key that is exported as a JWK. -/
  exportX : PrivateKey → JsString
  importPublic : JsString → Option PublicKey
  /-- The import of a JWK with the components `d` and `x`. -/
  importPrivate : JsString → JsString → Option PrivateKey
  WORDLIST : List JsString
  /-- The checksum of the words' indices is that of their entropy. -/
  checksum : List ℕ → Bool
  isFinal : JsString → ℕ → Bool

variable (c : Crypto)

/-- What is saved together: a key pair and its phrase, which is empty for an imported key. -/
structure Keys where
  privateKey : c.PrivateKey
  publicKey : c.PublicKey
  mnemonic : JsString

/-- The words of a phrase, at runs of blanks. -/
def words : JsString → List JsString
  | [] => [[]]
  | a :: s =>
    if jsSpace a then
      match s with
      | b :: _ => if jsSpace b then words s else [] :: words s
      | [] => [[], []]
    else (words s).modifyHead (a :: ·)

/-- `trim().toLowerCase().replace(/\s+/g, ' ')` -/
def normalized (mnemonic : JsString) : JsString :=
  [32].intercalate (words (toLowerCase c.isFinal (trim jsSpace mnemonic)))

/-- The public key is imported from the exported private key. -/
def deriveKeyFromMnemonic (mnemonic : JsString) : Option (c.PrivateKey × c.PublicKey) :=
  (c.derive (normalized c mnemonic)).bind fun privateKey =>
    (c.importPublic (c.exportX privateKey)).map fun publicKey => (privateKey, publicKey)

def validateMnemonicChecksum (mnemonic : JsString) : Bool :=
  let lower := words (toLowerCase c.isFinal (trim jsSpace mnemonic))
  lower.length = 12 && lower.all (c.WORDLIST.contains ·) &&
    c.checksum (lower.map (c.WORDLIST.idxOf ·))

/-- The checks of a phrase before it is imported. -/
def validMnemonic (mnemonic : JsString) : Bool :=
  let ws := words (trim jsSpace mnemonic)
  ws.length = 12 && ws.all (fun word => c.WORDLIST.contains (toLowerCase c.isFinal word)) &&
    validateMnemonicChecksum c mnemonic

inductive Op where
  | getPrivateKey
  | getPublicKey
  | getMnemonic
  | savePrivateKey (keys : Keys c)
  | savePublicKey (keys : Keys c)
  | saveMnemonic (keys : Keys c)
  | deleteKeys

@[reducible] def Value : Op c → Type
  | .getPrivateKey => Option c.PrivateKey
  | .getPublicKey => Option c.PublicKey
  | .getMnemonic => Option JsString
  | _ => Unit

/-- `none` where the transaction fails. -/
@[reducible] def Answer (op : Op c) : Type := Option (Value c op)

/-- How transactions end at the moment: a put whose request succeeds resolves before its
transaction has ended, and may still be lost. -/
inductive Fate where
  | done
  | refused
  | lost
  deriving DecidableEq

structure Store where
  privateKey : Option c.PrivateKey
  publicKey : Option c.PublicKey
  mnemonic : Option JsString
  fate : Fate

variable {c}

/-- A transaction that writes. -/
def Store.write (s s' : Store c) : Option Unit × Store c :=
  match s.fate with
  | .done => (some (), s')
  | .refused => (none, s)
  | .lost => (some (), s)

def Store.read {β : Type} (s : Store c) (value : β) : Option β × Store c :=
  match s.fate with
  | .refused => (none, s)
  | _ => (some value, s)

/-- A deletion resolves when its transaction has ended, so it is done or fails. -/
def Store.exec (s : Store c) : (op : Op c) → Answer c op × Store c
  | .getPrivateKey => s.read s.privateKey
  | .getPublicKey => s.read s.publicKey
  | .getMnemonic => s.read s.mnemonic
  | .savePrivateKey keys => s.write { s with privateKey := some keys.privateKey }
  | .savePublicKey keys => s.write { s with publicKey := some keys.publicKey }
  | .saveMnemonic keys => s.write { s with mnemonic := some keys.mnemonic }
  | .deleteKeys =>
    match s.fate with
    | .done => (some (), { s with privateKey := none, publicKey := none, mnemonic := none })
    | _ => (none, s)

inductive Outcome where
  | unsupported
  | unmounted
  | invalid
  | failed
  | hasKeyPair
  deriving DecidableEq

/-- A transaction, and where to go on if it fails. -/
def orElse (op : Op c) (caught : Calls (Answer c) Outcome)
    (next : Value c op → Calls (Answer c) Outcome) : Calls (Answer c) Outcome :=
  .call op fun answer =>
    match answer with
    | none => caught
    | some value => next value

/-- The three transactions that save keys. -/
def saveKeys (keys : Keys c) (caught : Calls (Answer c) Outcome) : Calls (Answer c) Outcome :=
  orElse (.savePrivateKey keys) caught fun _ =>
    orElse (.savePublicKey keys) caught fun _ =>
      orElse (.saveMnemonic keys) caught fun _ => .ret .hasKeyPair

/-- Keys of a phrase are derived and saved. -/
def deriveAndSave (mnemonicPhrase : JsString) (caught : Calls (Answer c) Outcome) :
    Calls (Answer c) Outcome :=
  match deriveKeyFromMnemonic c mnemonicPhrase with
  | none => caught
  | some (privateKey, publicKey) => saveKeys ⟨privateKey, publicKey, mnemonicPhrase⟩ caught

/-- Go on if the browser supports the keys. -/
def ifSupported (next : Calls (Answer c) Outcome) : Calls (Answer c) Outcome :=
  .choose fun isSupported => if isSupported then next else .ret .unsupported

/-- Go on unless the hook is unmounted. -/
def ifMounted (next : Calls (Answer c) Outcome) : Calls (Answer c) Outcome :=
  .choose fun cancelled => if cancelled then .ret .unmounted else next

/-- The `catch` of the restoration. -/
def deleteAfterFailure : Calls (Answer c) Outcome :=
  .call .deleteKeys fun _ => .ret .failed

/-- The restoration, which generates keys of the phrase when none are found. -/
def restore (mnemonicPhrase : JsString) : Calls (Answer c) Outcome :=
  ifMounted <| ifSupported <|
    orElse .getPrivateKey deleteAfterFailure fun privateKey =>
      orElse .getPublicKey deleteAfterFailure fun publicKey =>
        orElse .getMnemonic deleteAfterFailure fun _ =>
          if privateKey.isSome && publicKey.isSome then .ret .hasKeyPair
          else ifMounted (deriveAndSave mnemonicPhrase deleteAfterFailure)

/-- The phrase is what `generateMnemonic` comes to. -/
def generateKeyPair (mnemonicPhrase : JsString) : Calls (Answer c) Outcome :=
  ifSupported (deriveAndSave mnemonicPhrase (.ret .failed))

def importFromMnemonic (mnemonicPhrase : JsString) : Calls (Answer c) Outcome :=
  ifSupported <|
    if validMnemonic c mnemonicPhrase then deriveAndSave mnemonicPhrase (.ret .failed)
    else .ret .invalid

/-- A JWK without a `d` is refused. -/
def importFromJwk (d : Option JsString) (x : JsString) : Calls (Answer c) Outcome :=
  ifSupported <|
    match d with
    | none => .ret .invalid
    | some d =>
      match c.importPrivate d x, c.importPublic x with
      | some privateKey, some publicKey => saveKeys ⟨privateKey, publicKey, []⟩ (.ret .failed)
      | _, _ => .ret .failed

inductive Request where
  | restore (mnemonicPhrase : JsString)
  | generateKeyPair (mnemonicPhrase : JsString)
  | importFromMnemonic (mnemonicPhrase : JsString)
  | importFromJwk (d : Option JsString) (x : JsString)
  deriving DecidableEq

def serve (c : Crypto) : Request → Calls (Answer c) Outcome
  | .restore mnemonicPhrase => restore mnemonicPhrase
  | .generateKeyPair mnemonicPhrase => generateKeyPair mnemonicPhrase
  | .importFromMnemonic mnemonicPhrase => importFromMnemonic mnemonicPhrase
  | .importFromJwk d x => importFromJwk d x

/-- Any number of hooks of any tabs, while transactions come to end otherwise. -/
def hooks (c : Crypto) : System (Answer c) (Store c) Request Fate Outcome where
  exec _ _ op s := s.exec op
  body := serve c
  world fate s := { s with fate := fate }

end Swazz.Encryption
