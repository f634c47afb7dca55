import Swazz.LicenseTokens
import Swazz.JsonText
import Swazz.Utf8

/-! The coordinator's base64url without padding, and the platform's encoders of text. Bytes are
numbers below 256, strings are UTF-16 units. -/
namespace Swazz.Base64Url

open License RunnerAccess JsonText

/-- The letter of a digit in base 64 whose last two letters are `c62` and `c63`. -/
def letter (c62 c63 d : ℕ) : ℕ :=
  if d < 26 then 65 + d
  else if d < 52 then 97 + (d - 26)
  else if d < 62 then 48 + (d - 52)
  else if d = 62 then c62
  else c63

/-- Bytes in digits of six bits; the last digit is filled with zeros. -/
def sextets : List ℕ → List ℕ
  | [] => []
  | [a] => [a / 4, a % 4 * 16]
  | [a, b] => [a / 4, a % 4 * 16 + b / 16, b % 16 * 4]
  | a :: b :: c :: rest =>
    a / 4 :: (a % 4 * 16 + b / 16) :: (b % 16 * 4 + c / 64) :: c % 64 :: sextets rest

def btoa (binary : List ℕ) : JsString :=
  (sextets binary).map (letter 43 47) ++ List.replicate ((3 - binary.length % 3) % 3) 61

def bytesToBase64Url (bytes : List ℕ) : JsString :=
  (((btoa bytes).map fun c => if c = 43 then 45 else c).map
    fun c => if c = 47 then 95 else c).rdropWhile (· = 61)

/-- White space of ASCII, which `atob` passes over. -/
def isAsciiBlank (c : ℕ) : Bool := c = 9 || c = 10 || c = 12 || c = 13 || c = 32

/-- `none` is the error it throws. -/
def atob (s : JsString) : Option (List ℕ) :=
  let s := s.filter fun c => !isAsciiBlank c
  rawDecode stdDigit (if s.length % 4 = 0 then dropPadding s else s)

def base64UrlToBytes (s : JsString) : Option (List ℕ) :=
  -- `^[A-Za-z0-9_-]*$`
  if s.all fun c => (urlDigit c).isSome then
    atob ((s.map fun c => if c = 45 then 43 else c).map fun c => if c = 95 then 47 else c)
  else none

/-! ### Text in UTF-8 -/

/-- The code points of a string; a half of a pair that stands alone is replaced. -/
def points : JsString → List ℕ
  | [] => []
  | [c] => [goRune c]
  | c :: d :: rest =>
    if isHigh c && isLow d then
      (0x10000 + (c - 0xD800) * 0x400 + (d - 0xDC00)) :: points rest
    else goRune c :: points (d :: rest)

def pointBytes (c : ℕ) : List ℕ :=
  if c < 0x80 then [c]
  else if c < 0x800 then [0xC0 + c / 64, 0x80 + c % 64]
  else if c < 0x10000 then [0xE0 + c / 4096, 0x80 + c / 64 % 64, 0x80 + c % 64]
  else [0xF0 + c / 262144, 0x80 + c / 4096 % 64, 0x80 + c / 64 % 64, 0x80 + c % 64]

def pointUnits (c : ℕ) : JsString :=
  if c < 0x10000 then [c]
  else [0xD800 + (c - 0x10000) / 0x400, 0xDC00 + (c - 0x10000) % 0x400]

/-- `new TextEncoder().encode` -/
def encode (s : JsString) : List ℕ := (points s).flatMap pointBytes

def dropMark (ps : List ℕ) : List ℕ := if ps.head? = some 0xFEFF then ps.tail else ps

/-- `decode` of a `TextDecoder` that is fatal and takes a byte order mark away. -/
def decode (bytes : List ℕ) : Option JsString :=
  ((Utf8.runes (bytes.map (Fin.ofNat 256))).mapM id).map fun ps => (dropMark ps).flatMap pointUnits

/-! ### Round trips -/

variable {c62 c63 d : ℕ} {bs : List ℕ} {s : JsString}

theorem digit_letter (h62 : digit c62 c63 c62 = some 62) (h63 : digit c62 c63 c63 = some 63)
    (hd : d < 64) : digit c62 c63 (letter c62 c63 d) = some d := by
  rw [letter]
  split_ifs with hupper hlower hnumber hlast
  · rw [digit, if_pos (by omega)]
    congr 1
    omega
  · rw [digit, if_neg (by omega), if_pos (by omega)]
    congr 1
    omega
  · rw [digit, if_neg (by omega), if_neg (by omega), if_pos (by omega)]
    congr 1
    omega
  · rw [h62, hlast]
  · rw [h63]
    congr 1
    omega

theorem lt_of_mem_sextets (hbs : ∀ b ∈ bs, b < 256) : ∀ d ∈ sextets bs, d < 64 := by
  induction bs using sextets.induct with
  | case1 => simp [sextets]
  | case2 a =>
    have ha := hbs a (by simp)
    intro d hd
    simp only [sextets, List.mem_cons, List.not_mem_nil, or_false] at hd
    omega
  | case3 a b =>
    have ha := hbs a (by simp)
    have hb := hbs b (by simp)
    intro d hd
    simp only [sextets, List.mem_cons, List.not_mem_nil, or_false] at hd
    omega
  | case4 a b c rest ih =>
    have ha := hbs a (by simp)
    have hb := hbs b (by simp)
    have hc := hbs c (by simp)
    intro d hd
    simp only [sextets, List.mem_cons] at hd
    rcases hd with hd | hd | hd | hd | hd
    · omega
    · omega
    · omega
    · omega
    · exact ih (fun b hb => hbs b (by simp [hb])) d hd

theorem bytes_sextets (hbs : ∀ b ∈ bs, b < 256) : bytes (sextets bs) = some bs := by
  induction bs using sextets.induct with
  | case1 => rfl
  | case2 a =>
    have ha := hbs a (by simp)
    have hfirst : a / 4 * 4 + a % 4 * 16 / 16 = a := by omega
    rw [sextets, bytes, hfirst]
  | case3 a b =>
    have ha := hbs a (by simp)
    have hb := hbs b (by simp)
    have hfirst : a / 4 * 4 + (a % 4 * 16 + b / 16) / 16 = a := by omega
    have hsecond : (a % 4 * 16 + b / 16) % 16 * 16 + b % 16 * 4 / 4 = b := by omega
    rw [sextets, bytes, hfirst, hsecond]
  | case4 a b c rest ih =>
    have ha := hbs a (by simp)
    have hb := hbs b (by simp)
    have hc := hbs c (by simp)
    have hfirst : a / 4 * 4 + (a % 4 * 16 + b / 16) / 16 = a := by omega
    have hsecond : (a % 4 * 16 + b / 16) % 16 * 16 + (b % 16 * 4 + c / 64) / 4 = b := by omega
    have hthird : (b % 16 * 4 + c / 64) % 4 * 64 + c % 64 = c := by omega
    rw [sextets, bytes, ih fun b hb => hbs b (by simp [hb]), hfirst, hsecond, hthird]
    rfl

theorem mapM_digit (h62 : digit c62 c63 c62 = some 62) (h63 : digit c62 c63 c63 = some 63)
    {ds : List ℕ} (hds : ∀ d ∈ ds, d < 64) :
    (ds.map (letter c62 c63)).mapM (digit c62 c63) = some ds := by
  induction ds with
  | nil => rfl
  | cons d ds ih =>
    rw [List.map_cons, List.mapM_cons, digit_letter h62 h63 (hds d List.mem_cons_self),
      ih fun d' hd' => hds d' (List.mem_cons_of_mem d hd')]
    rfl

/-- What a letter of the standard alphabet becomes. -/
theorem letter_replaced : ∀ d < 64,
    (if (if letter 43 47 d = 43 then 45 else letter 43 47 d) = 47 then 95
      else if letter 43 47 d = 43 then 45 else letter 43 47 d) = letter 45 95 d := by
  decide

theorem letter_restored : ∀ d < 64,
    (if (if letter 45 95 d = 45 then 43 else letter 45 95 d) = 95 then 47
      else if letter 45 95 d = 45 then 43 else letter 45 95 d) = letter 43 47 d := by
  decide

/-- No letter is the padding, or a blank. -/
theorem letter_ne : ∀ d < 64, letter 43 47 d ≠ 61 ∧ letter 45 95 d ≠ 61 ∧
    isAsciiBlank (letter 43 47 d) = false := by
  decide

theorem bytesToBase64Url_eq (hbs : ∀ b ∈ bs, b < 256) :
    bytesToBase64Url bs = (sextets bs).map (letter 45 95) := by
  have hlt := lt_of_mem_sextets hbs
  have hletters : (((sextets bs).map (letter 43 47)).map fun c => if c = 43 then 45 else c).map
      (fun c => if c = 47 then 95 else c) = (sextets bs).map (letter 45 95) := by
    simp only [List.map_map]
    exact List.map_congr_left fun d hd => letter_replaced d (hlt d hd)
  have hpadding (n : ℕ) : ((List.replicate n 61).map fun c => if c = 43 then 45 else c).map
      (fun c => if c = 47 then 95 else c) = List.replicate n 61 := by
    simp
  rw [bytesToBase64Url, btoa, List.map_append, List.map_append, hletters, hpadding]
  generalize (3 - bs.length % 3) % 3 = n
  induction n with
  | zero =>
    rw [List.replicate_zero, List.append_nil]
    rw [List.rdropWhile_eq_self_iff]
    intro hne hpad
    obtain ⟨d, hd, hlast⟩ := List.mem_map.mp (List.getLast_mem hne)
    exact (letter_ne d (hlt d hd)).2.1 (hlast.trans (of_decide_eq_true hpad))
  | succ n ih =>
    rw [List.replicate_succ', ← List.append_assoc, List.rdropWhile_concat_pos _ _ _ (by simp), ih]

/-- What is written is read back. -/
theorem base64UrlToBytes_bytesToBase64Url (hbs : ∀ b ∈ bs, b < 256) :
    base64UrlToBytes (bytesToBase64Url bs) = some bs := by
  have hlt := lt_of_mem_sextets hbs
  have hdigits : ∀ c ∈ (sextets bs).map (letter 45 95), (urlDigit c).isSome = true := by
    intro c hc
    obtain ⟨d, hd, rfl⟩ := List.mem_map.mp hc
    rw [urlDigit, digit_letter rfl rfl (hlt d hd)]
    rfl
  have hletters : (((sextets bs).map (letter 45 95)).map fun c => if c = 45 then 43 else c).map
      (fun c => if c = 95 then 47 else c) = (sextets bs).map (letter 43 47) := by
    simp only [List.map_map]
    exact List.map_congr_left fun d hd => letter_restored d (hlt d hd)
  have hblank : ((sextets bs).map (letter 43 47)).filter (fun c => !isAsciiBlank c) =
      (sextets bs).map (letter 43 47) := by
    rw [List.filter_eq_self]
    intro c hc
    obtain ⟨d, hd, rfl⟩ := List.mem_map.mp hc
    rw [(letter_ne d (hlt d hd)).2.2]
    rfl
  have hpadding : dropPadding ((sextets bs).map (letter 43 47)) =
      (sextets bs).map (letter 43 47) := by
    rw [dropPadding, if_neg]
    intro hlast
    obtain ⟨d, hd, hd61⟩ := List.mem_map.mp (List.mem_of_getLast? hlast)
    exact (letter_ne d (hlt d hd)).1 hd61
  rw [bytesToBase64Url_eq hbs, base64UrlToBytes, if_pos (List.all_eq_true.mpr hdigits), hletters,
    atob, hblank, hpadding, ite_self, rawDecode, stdDigit, mapM_digit rfl rfl hlt]
  exact bytes_sextets hbs

theorem length_bytesToBase64Url (hbs : ∀ b ∈ bs, b < 256) :
    (bytesToBase64Url bs).length = (bs.length * 4 + 2) / 3 := by
  rw [bytesToBase64Url_eq hbs, List.length_map]
  clear hbs
  induction bs using sextets.induct with
  | case1 => simp [sextets]
  | case2 a => simp [sextets]
  | case3 a b => simp [sextets]
  | case4 a b c rest ih =>
    simp only [sextets, List.length_cons, ih]
    omega

/-- Any bytes are read back from their text, which has four letters for three bytes. -/
theorem base64Url_exact (bytes : List (Fin 256)) :
    base64UrlToBytes (bytesToBase64Url (bytes.map (·.val))) = some (bytes.map (·.val)) ∧
      (bytesToBase64Url (bytes.map (·.val))).length = (bytes.length * 4 + 2) / 3 := by
  have hbytes : ∀ b ∈ bytes.map (·.val), b < 256 := by simp
  refine ⟨base64UrlToBytes_bytesToBase64Url hbytes, ?_⟩
  rw [length_bytesToBase64Url hbytes, List.length_map]

theorem points_ascii (hs : ∀ c ∈ s, c < 0x80) : points s = s := by
  induction s using points.induct with
  | case1 => rfl
  | case2 c =>
    have hc := hs c (by simp)
    rw [points, goRune, if_neg (by omega)]
  | case3 c d rest hpair ih =>
    have hc := hs c (by simp)
    simp only [isHigh, Bool.and_eq_true, decide_eq_true_eq] at hpair
    omega
  | case4 c d rest hpair ih =>
    have hc := hs c (by simp)
    rw [points, if_neg hpair, ih fun e he => hs e (List.mem_cons_of_mem c he), goRune,
      if_neg (by omega)]

theorem encode_ascii (hs : ∀ c ∈ s, c < 0x80) : encode s = s := by
  rw [encode, points_ascii hs]
  induction s with
  | nil => rfl
  | cons c s ih =>
    rw [List.flatMap_cons, ih fun d hd => hs d (List.mem_cons_of_mem c hd), pointBytes,
      if_pos (hs c List.mem_cons_self)]
    rfl

theorem runesFrom_ascii (hs : ∀ c ∈ s, c < 0x80) :
    Utf8.runesFrom s.length (s.map (Fin.ofNat 256)) = s.map some := by
  induction s with
  | nil => rfl
  | cons c s ih =>
    have hc := hs c List.mem_cons_self
    have hval : (Fin.ofNat 256 c).val = c := Nat.mod_eq_of_lt (by omega)
    have hnext : Utf8.next (Fin.ofNat 256 c) (s.map (Fin.ofNat 256)) =
        (some c, s.map (Fin.ofNat 256)) := by
      rw [Utf8.next.eq_def, if_pos, hval]
      rw [Fin.lt_def, hval]
      exact hc
    rw [List.length_cons, List.map_cons, Utf8.runesFrom, hnext,
      ih fun d hd => hs d (List.mem_cons_of_mem c hd), List.map_cons]

/-- The bytes of an ASCII text are read as that text. -/
theorem decode_ascii (hs : ∀ c ∈ s, c < 0x80) : decode s = some s := by
  have hpoints : (Utf8.runes (s.map (Fin.ofNat 256))).mapM id = some s := by
    rw [Utf8.runes, List.length_map, runesFrom_ascii hs]
    clear hs
    induction s with
    | nil => rfl
    | cons c s ih =>
      rw [List.map_cons, List.mapM_cons, ih]
      rfl
  have hmark : dropMark s = s := by
    rw [dropMark, if_neg]
    intro hhead
    have := hs 0xFEFF (List.mem_of_head? hhead)
    omega
  rw [decode, hpoints, Option.map_some, hmark]
  congr 1
  clear hpoints hmark
  induction s with
  | nil => rfl
  | cons c s ih =>
    have hc := hs c List.mem_cons_self
    rw [List.flatMap_cons, ih fun d hd => hs d (List.mem_cons_of_mem c hd), pointUnits,
      if_pos (by omega)]
    rfl

end Swazz.Base64Url
