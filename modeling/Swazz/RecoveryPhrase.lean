import Swazz.BitGroups
import Swazz.KeyStorage
import Swazz.SharedRunnerGuard

/-! The twelve words of a recovery phrase: sixteen bytes and four bits of their digest, in groups of
eleven bits. -/
namespace Swazz.Encryption

open BitGroups UnicodeCase
open RunnerAccess (JsString toLowerCase)
open License (trim jsSpace)

/-- What `getRandomValues` fills. -/
structure Entropy where
  bytes : List (BitVec 8)
  length_bytes : bytes.length = 16

theorem Entropy.ext_bytes {e e' : Entropy} (h : e.bytes = e'.bytes) : e = e' := by
  cases e
  cases e'
  cases h
  rfl

def digits (bytes : List (BitVec 8)) : List Bool := bytes.flatMap fun b => toBits 8 b.toNat

section

-- the first argument stands for SHA-256
variable (digest : List (BitVec 8) → List (BitVec 8)) (WORDLIST : List JsString)

/-- `hashArray[0] >> 4` -/
def checksumOf (bytes : List (BitVec 8)) : ℕ := ((digest bytes).headD 0).toNat >>> 4

/-- The binary text, a digit for each bit. -/
def binary (bytes : List (BitVec 8)) : List Bool :=
  digits bytes ++ toBits 4 (checksumOf digest bytes)

def mnemonicWords (entropy : Entropy) : List JsString :=
  (groups 11 (binary digest entropy.bytes)).map fun i => WORDLIST.getD i []

def generateMnemonic (entropy : Entropy) : JsString :=
  [32].intercalate (mnemonicWords digest WORDLIST entropy)

/-- The bytes that the words of these indices stand for. -/
def entropyBytes (indices : List ℕ) : List (BitVec 8) :=
  (groups 8 ((indices.flatMap (toBits 11)).take 128)).map (BitVec.ofNat 8)

/-- What `validateMnemonicChecksum` does once it has the indices of the words. -/
def checksumMatches (indices : List ℕ) : Bool :=
  ofBits ((indices.flatMap (toBits 11)).drop 128) = checksumOf digest (entropyBytes indices)

end

variable (c : Crypto)

/-- The checksum of the phrases is that of a digest. -/
def Crypto.withDigest (digest : List (BitVec 8) → List (BitVec 8)) : Crypto :=
  { c with checksum := checksumMatches digest }

/-- The words of a phrase as they are looked up. -/
def spelledWords (mnemonic : JsString) : List JsString :=
  words (toLowerCase c.isFinal (trim jsSpace mnemonic))

/-- The bytes that `validateMnemonicChecksum` reads in a phrase. -/
def bytesRead (mnemonic : JsString) : List (BitVec 8) :=
  entropyBytes ((spelledWords c mnemonic).map (c.WORDLIST.idxOf ·))

/-- A list of words of letters from `a` to `z`, one for each eleven bits. -/
structure Wordlist (WORDLIST : List JsString) : Prop where
  length : WORDLIST.length = 2 ^ 11
  nodup : WORDLIST.Nodup
  nonempty : ∀ w ∈ WORDLIST, w ≠ []
  letters : ∀ w ∈ WORDLIST, ∀ a ∈ w, 97 ≤ a ∧ a ≤ 122

/-! ### Bits and bytes -/

section

variable {digest : List (BitVec 8) → List (BitVec 8)} {WORDLIST : List JsString}

theorem length_digits (bytes : List (BitVec 8)) : (digits bytes).length = 8 * bytes.length := by
  induction bytes with
  | nil => rfl
  | cons b bytes ih =>
    rw [digits, List.flatMap_cons, List.length_append, length_toBits]
    rw [digits] at ih
    rw [ih, List.length_cons]
    omega

theorem groups_digits (bytes : List (BitVec 8)) :
    (groups 8 (digits bytes)).map (BitVec.ofNat 8) = bytes := by
  have hbits : digits bytes = (bytes.map BitVec.toNat).flatMap (toBits 8) ++ [] := by
    rw [List.append_nil, List.flatMap_map]
    rfl
  have hlt : ∀ n ∈ bytes.map BitVec.toNat, n < 2 ^ 8 := by
    intro n hn
    obtain ⟨b, -, rfl⟩ := List.mem_map.mp hn
    exact b.isLt
  rw [hbits, groups_toBits (by decide) hlt (by decide), List.map_map]
  have hcancel : ∀ b : BitVec 8, (BitVec.ofNat 8 ∘ BitVec.toNat) b = b := fun b => by
    rw [Function.comp_apply, BitVec.ofNat_toNat, BitVec.setWidth_eq]
  exact (List.map_congr_left fun b _ => hcancel b).trans (List.map_id _)

theorem digits_groups {l : List Bool} (h : 8 ∣ l.length) :
    digits ((groups 8 l).map (BitVec.ofNat 8)) = l := by
  have hread : ∀ n ∈ groups 8 l, toBits 8 (BitVec.ofNat 8 n).toNat = toBits 8 n := by
    intro n hn
    rw [BitVec.toNat_ofNat, Nat.mod_eq_of_lt (lt_of_mem_groups hn)]
  rw [digits, List.flatMap_map, List.flatMap_congr hread, flatMap_groups (by decide) h]

theorem length_binary (e : Entropy) : (binary digest e.bytes).length = 132 := by
  rw [binary, List.length_append, length_digits, length_toBits, e.length_bytes]

theorem length_mnemonicWords (e : Entropy) : (mnemonicWords digest WORDLIST e).length = 12 := by
  rw [mnemonicWords, List.length_map, length_groups (by decide), length_binary]

theorem mnemonicWords_ne_nil (e : Entropy) : mnemonicWords digest WORDLIST e ≠ [] := by
  intro hnil
  have hlen : (mnemonicWords digest WORDLIST e).length = 12 := length_mnemonicWords e
  rw [hnil] at hlen
  cases hlen

theorem mem_wordlist {e : Entropy} (hW : Wordlist WORDLIST) {w : JsString}
    (hw : w ∈ mnemonicWords digest WORDLIST e) : w ∈ WORDLIST := by
  obtain ⟨i, hi, rfl⟩ := List.mem_map.mp hw
  have hlt : i < WORDLIST.length := hW.length ▸ lt_of_mem_groups hi
  rw [← List.getElem_eq_getD (h := hlt) []]
  exact List.getElem_mem hlt

/-! ### Words and indices -/

theorem idxOf_mnemonicWords (hW : Wordlist WORDLIST) (e : Entropy) :
    (mnemonicWords digest WORDLIST e).map (WORDLIST.idxOf ·) =
      groups 11 (binary digest e.bytes) := by
  have hidx : ∀ i ∈ groups 11 (binary digest e.bytes), WORDLIST.idxOf (WORDLIST.getD i []) = i := by
    intro i hi
    have hlt : i < WORDLIST.length := hW.length ▸ lt_of_mem_groups hi
    rw [← List.getElem_eq_getD (h := hlt) []]
    exact hW.nodup.idxOf_getElem i hlt
  rw [mnemonicWords, List.map_map]
  exact (List.map_congr_left hidx).trans (List.map_id _)

/-- The validator puts the bits together again that the words were cut from. -/
theorem bits_of_mnemonicWords (hW : Wordlist WORDLIST) (e : Entropy) :
    ((mnemonicWords digest WORDLIST e).map (WORDLIST.idxOf ·)).flatMap (toBits 11) =
      binary digest e.bytes := by
  rw [idxOf_mnemonicWords hW]
  refine flatMap_groups (by decide) ?_
  rw [length_binary]
  decide

theorem entropyBytes_mnemonicWords (hW : Wordlist WORDLIST) (e : Entropy) :
    entropyBytes ((mnemonicWords digest WORDLIST e).map (WORDLIST.idxOf ·)) = e.bytes := by
  have hlen : 128 = (digits e.bytes).length := by rw [length_digits, e.length_bytes]
  rw [entropyBytes, bits_of_mnemonicWords hW, binary, hlen, List.take_left, groups_digits]

theorem checksumMatches_mnemonicWords (hW : Wordlist WORDLIST) (e : Entropy) :
    checksumMatches digest ((mnemonicWords digest WORDLIST e).map (WORDLIST.idxOf ·)) = true := by
  have hlen : 128 = (digits e.bytes).length := by rw [length_digits, e.length_bytes]
  have hlt : checksumOf digest e.bytes < 2 ^ 4 := by
    rw [checksumOf, Nat.shiftRight_eq_div_pow]
    exact Nat.div_lt_of_lt_mul ((digest e.bytes).headD 0).isLt
  refine decide_eq_true ?_
  rw [entropyBytes_mnemonicWords hW, bits_of_mnemonicWords hW, binary, hlen, List.drop_left,
    ofBits_toBits, Nat.mod_eq_of_lt hlt]

/-- Twelve indices whose checksum is right are those of the words of an entropy. -/
theorem exists_entropy {indices : List ℕ} (hlen : indices.length = 12)
    (hlt : ∀ i ∈ indices, i < 2 ^ 11) (hsum : checksumMatches digest indices = true) :
    ∃ e : Entropy, e.bytes = entropyBytes indices ∧
      groups 11 (binary digest e.bytes) = indices := by
  let l := indices.flatMap (toBits 11)
  have hl : l.length = 132 := by
    rw [List.length_flatMap, List.map_congr_left fun i _ => length_toBits 11 i, List.map_const',
      List.sum_replicate, hlen]
    rfl
  have htake : (l.take 128).length = 128 := List.length_take_of_le (by omega)
  have hbytes : (entropyBytes indices).length = 16 := by
    rw [entropyBytes, List.length_map, length_groups (by decide), htake]
  refine ⟨⟨entropyBytes indices, hbytes⟩, rfl, ?_⟩
  have hdigits : digits (entropyBytes indices) = l.take 128 :=
    digits_groups (by rw [htake]; decide)
  have hdrop : (l.drop 128).length = 4 := by rw [List.length_drop, hl]
  have hchecksum : toBits 4 (checksumOf digest (entropyBytes indices)) = l.drop 128 := by
    rw [← of_decide_eq_true hsum, ← hdrop, toBits_ofBits]
  have hbinary : binary digest (entropyBytes indices) = l := by
    rw [binary, hdigits, hchecksum, List.take_append_drop]
  have hgroups := groups_toBits (m := []) (by decide) hlt (by decide)
  rw [List.append_nil] at hgroups
  rw [hbinary, hgroups]

end

/-! ### Spellings -/

/-- A word with its letters in either case. -/
abbrev LetterCase (v w : JsString) : Prop := List.Forall₂ (fun b a => b = a ∨ b + 32 = a) v w

abbrev Blanks (blanks : JsString) : Prop := ∀ b ∈ blanks, jsSpace b = true

/-- The words in any case, with blanks between them. -/
inductive Spelled : List JsString → JsString → Prop
  | last {v w : JsString} (hv : LetterCase v w) : Spelled [w] v
  | more {v w blanks s : JsString} {ws : List JsString} (hv : LetterCase v w) (hne : blanks ≠ [])
    (hb : Blanks blanks) (hs : Spelled ws s) : Spelled (w :: ws) (v ++ (blanks ++ s))

/-- A word of a word list. -/
structure Word (w : JsString) : Prop where
  nonempty : w ≠ []
  letters : ∀ a ∈ w, 97 ≤ a ∧ a ≤ 122

def IsLetter (b : ℕ) : Prop := 65 ≤ b ∧ b ≤ 90 ∨ 97 ≤ b ∧ b ≤ 122

theorem Wordlist.word {WORDLIST : List JsString} (hW : Wordlist WORDLIST) {w : JsString}
    (hw : w ∈ WORDLIST) : Word w := ⟨hW.nonempty w hw, hW.letters w hw⟩

theorem IsLetter.not_space {b : ℕ} (h : IsLetter b) : jsSpace b = false := by
  have hascii : ∀ b < 128, (65 ≤ b ∧ b ≤ 90 ∨ 97 ≤ b ∧ b ≤ 122) → jsSpace b = false := by decide
  exact hascii b (by rcases h with h | h <;> omega) h

theorem lower_letter {a b : ℕ} (ha : 97 ≤ a ∧ a ≤ 122) (h : b = a ∨ b + 32 = a) :
    lower b = [a] := by
  have hascii : ∀ b < 128, (97 ≤ b ∧ b ≤ 122 → lower b = [b]) ∧
      (65 ≤ b ∧ b ≤ 90 → lower b = [b + 32]) := by decide
  rcases h with rfl | rfl
  · exact (hascii b (by omega)).1 ha
  · exact (hascii b (by omega)).2 (by omega)

theorem IsLetter.lower_eq {b : ℕ} (h : IsLetter b) : ∃ a, lower b = [a] ∧ IsLetter a := by
  rcases h with h | h
  · exact ⟨b + 32, lower_letter (by omega) (Or.inr rfl), Or.inr (by omega)⟩
  · exact ⟨b, lower_letter h (Or.inl rfl), Or.inr h⟩

theorem lower_space {b : ℕ} (h : jsSpace b = true) : lower b = [b] := by
  have hall : ∀ b ∈ [9, 10, 11, 12, 13, 32, 0xA0, 0x1680, 0x2000, 0x2001, 0x2002, 0x2003, 0x2004,
      0x2005, 0x2006, 0x2007, 0x2008, 0x2009, 0x200A, 0x2028, 0x2029, 0x202F, 0x205F, 0x3000,
      0xFEFF], lower b = [b] := by decide
  apply hall
  simp only [jsSpace, License.isSpace, Bool.or_eq_true, Bool.and_eq_true, decide_eq_true_eq] at h
  simp only [List.mem_cons, List.not_mem_nil, or_false]
  omega

variable {v w blanks s : JsString} {ws : List JsString}

theorem LetterCase.isLetter (h : LetterCase v w) (hw : ∀ a ∈ w, 97 ≤ a ∧ a ≤ 122) :
    ∀ b ∈ v, IsLetter b := by
  induction h with
  | nil => exact fun b hb => absurd hb List.not_mem_nil
  | cons hab _ ih =>
    intro b hb
    rcases List.mem_cons.mp hb with rfl | hb
    · have ha := hw _ List.mem_cons_self
      rcases hab with rfl | hab
      · exact Or.inr ha
      · exact Or.inl (by omega)
    · exact ih (fun a ha => hw a (List.mem_cons_of_mem _ ha)) b hb

theorem LetterCase.lower_eq (h : LetterCase v w) (hw : ∀ a ∈ w, 97 ≤ a ∧ a ≤ 122) :
    v.flatMap lower = w := by
  induction h with
  | nil => rfl
  | cons hab _ ih =>
    rw [List.flatMap_cons, lower_letter (hw _ List.mem_cons_self) hab,
      ih fun a ha => hw a (List.mem_cons_of_mem _ ha), List.singleton_append]

theorem LetterCase.nonempty (h : LetterCase v w) (hw : w ≠ []) : v ≠ [] := by
  rintro rfl
  exact hw (List.forall₂_nil_left_iff.mp h)

theorem lower_blanks (h : Blanks blanks) : blanks.flatMap lower = blanks := by
  rw [List.flatMap_congr fun b hb => lower_space (h b hb)]
  exact List.flatMap_singleton' blanks

/-! ### Words and blanks -/

theorem words_ne_nil (s : JsString) : words s ≠ [] := by
  fun_induction words s with
  | case1 => exact List.cons_ne_nil _ _
  | case2 _ _ _ _ _ ih => exact ih
  | case3 => exact List.cons_ne_nil _ _
  | case4 => exact List.cons_ne_nil _ _
  | case5 _ _ _ ih => exact fun h => ih (List.modifyHead_eq_nil_iff.mp h)

theorem spaceless_of_mem_words (s : JsString) : ∀ w ∈ words s, ∀ a ∈ w, jsSpace a = false := by
  fun_induction words s with
  | case1 => simp
  | case2 _ _ _ _ _ ih => exact ih
  | case3 _ _ _ _ _ ih =>
    intro w hw
    rcases List.mem_cons.mp hw with rfl | hw
    · exact fun a ha => absurd ha List.not_mem_nil
    · exact ih w hw
  | case4 => simp
  | case5 a s ha ih =>
    cases hs : words s with
    | nil => exact absurd hs (words_ne_nil s)
    | cons u us =>
      rw [hs] at ih
      intro w hw
      rw [List.modifyHead_cons] at hw
      rcases List.mem_cons.mp hw with rfl | hw
      · intro b hb
        rcases List.mem_cons.mp hb with rfl | hb
        · exact Bool.eq_false_iff.mpr ha
        · exact ih u List.mem_cons_self b hb
      · exact ih w (List.mem_cons_of_mem u hw)

theorem words_cons {a : ℕ} (ha : jsSpace a = false) (s : JsString) :
    words (a :: s) = (words s).modifyHead (a :: ·) := by
  cases s <;> simp [words, ha]

theorem words_append (hw : ∀ a ∈ w, jsSpace a = false) (s : JsString) :
    words (w ++ s) = (words s).modifyHead (w ++ ·) := by
  induction w with
  | nil => exact (List.modifyHead_id).symm ▸ rfl
  | cons a w ih =>
    rw [List.cons_append, words_cons (hw a List.mem_cons_self),
      ih fun b hb => hw b (List.mem_cons_of_mem a hb), List.modifyHead_modifyHead]
    rfl

/-- A run of blanks ends a word. -/
theorem words_blanks (hne : blanks ≠ []) (hb : Blanks blanks) {b : ℕ}
    (hspace : jsSpace b = false) : words (blanks ++ b :: s) = [] :: words (b :: s) := by
  induction blanks with
  | nil => exact absurd rfl hne
  | cons a blanks ih =>
    have ha := hb a List.mem_cons_self
    cases blanks with
    | nil =>
      rw [List.singleton_append, words.eq_2, if_pos ha]
      exact if_neg (Bool.eq_false_iff.mp hspace)
    | cons a' blanks =>
      have ha' := hb a' (List.mem_cons_of_mem a List.mem_cons_self)
      have hskip : words (a :: a' :: (blanks ++ b :: s)) = words (a' :: (blanks ++ b :: s)) := by
        rw [words.eq_2, if_pos ha, if_pos ha']
      rw [List.cons_append, List.cons_append, hskip]
      exact ih (List.cons_ne_nil _ _) fun b hb' => hb b (List.mem_cons_of_mem a hb')

/-! ### Reading a spelling -/

theorem Spelled.head (h : Spelled ws s) (hws : ∀ w ∈ ws, Word w) :
    ∃ b t, s = b :: t ∧ IsLetter b := by
  have hletter {v w : JsString} (hv : LetterCase v w) (hw : Word w) :
      ∃ b t, v = b :: t ∧ IsLetter b := by
    obtain ⟨b, t, rfl⟩ := List.exists_cons_of_ne_nil (hv.nonempty hw.nonempty)
    exact ⟨b, t, rfl, hv.isLetter hw.letters b List.mem_cons_self⟩
  cases h with
  | last hv => exact hletter hv (hws _ List.mem_cons_self)
  | more hv =>
    obtain ⟨b, t, rfl, hb⟩ := hletter hv (hws _ List.mem_cons_self)
    exact ⟨b, _, List.cons_append, hb⟩

theorem Spelled.last_letter (h : Spelled ws s) (hws : ∀ w ∈ ws, Word w) :
    ∃ t b, s = t ++ [b] ∧ IsLetter b := by
  induction h with
  | last hv =>
    rename_i v w
    have hw := hws w List.mem_cons_self
    have hlast := List.getLast_mem (hv.nonempty hw.nonempty)
    exact ⟨v.dropLast, _, (List.dropLast_append_getLast _).symm, hv.isLetter hw.letters _ hlast⟩
  | more hv _ _ _ ih =>
    obtain ⟨t, b, rfl, hb⟩ := ih fun w hw => hws w (List.mem_cons_of_mem _ hw)
    exact ⟨_, b, by rw [← List.append_assoc, ← List.append_assoc], hb⟩

theorem Spelled.no_sigma (h : Spelled ws s) (hws : ∀ w ∈ ws, Word w) : 0x3A3 ∉ s := by
  have hletters {v w : JsString} (hv : LetterCase v w) (hw : Word w) : 0x3A3 ∉ v := by
    intro hmem
    rcases hv.isLetter hw.letters _ hmem with h | h <;> omega
  induction h with
  | last hv => exact hletters hv (hws _ List.mem_cons_self)
  | more hv _ hb _ ih =>
    intro hmem
    rcases List.mem_append.mp hmem with hmem | hmem
    · exact hletters hv (hws _ List.mem_cons_self) hmem
    · rcases List.mem_append.mp hmem with hmem | hmem
      · exact absurd (hb _ hmem) (by decide)
      · exact ih (fun w hw => hws w (List.mem_cons_of_mem _ hw)) hmem

/-- In lower case a spelling has the words between its blanks. -/
theorem Spelled.words_lower (h : Spelled ws s) (hws : ∀ w ∈ ws, Word w) :
    words (s.flatMap lower) = ws := by
  have hspaceless {w : JsString} (hw : Word w) : ∀ a ∈ w, jsSpace a = false := fun a ha =>
    IsLetter.not_space (Or.inr (hw.letters a ha))
  induction h with
  | last hv =>
    rename_i v w
    have hw := hws w List.mem_cons_self
    have hsplit := words_append (hspaceless hw) []
    rw [List.append_nil] at hsplit
    rw [hv.lower_eq hw.letters, hsplit]
    exact congrArg (· :: []) (List.append_nil w)
  | more hv hne hb hs ih =>
    rename_i v w blanks s ws
    have hw := hws w List.mem_cons_self
    have htail : ∀ w ∈ ws, Word w := fun w hw => hws w (List.mem_cons_of_mem _ hw)
    obtain ⟨b, t, rfl, hb'⟩ := hs.head htail
    obtain ⟨a, hlower, ha⟩ := hb'.lower_eq
    have hsplit := words_blanks (s := t.flatMap lower) hne hb ha.not_space
    rw [List.flatMap_cons, hlower, List.singleton_append] at ih
    rw [List.flatMap_append, List.flatMap_append, hv.lower_eq hw.letters, lower_blanks hb,
      words_append (hspaceless hw), List.flatMap_cons, hlower, List.singleton_append, hsplit,
      ih htail, List.modifyHead_cons, List.append_nil]

theorem trim_spelled {lead trail : JsString} (hlead : Blanks lead) (htrail : Blanks trail)
    (h : Spelled ws s) (hws : ∀ w ∈ ws, Word w) : trim jsSpace (lead ++ (s ++ trail)) = s := by
  have hfirst : (lead ++ (s ++ trail)).dropWhile jsSpace = s ++ trail := by
    obtain ⟨b, t, rfl, hb⟩ := h.head hws
    rw [List.dropWhile_append_of_pos hlead, List.cons_append,
      List.dropWhile_cons_of_neg (Bool.eq_false_iff.mp hb.not_space)]
  have hlast : (s ++ trail).rdropWhile jsSpace = s := by
    obtain ⟨t, b, rfl, hb⟩ := h.last_letter hws
    have hrev : ∀ a ∈ trail.reverse, jsSpace a = true := fun a ha =>
      htrail a (List.mem_reverse.mp ha)
    rw [List.rdropWhile, List.reverse_append, List.dropWhile_append_of_pos hrev,
      List.reverse_append, List.reverse_singleton, List.singleton_append,
      List.dropWhile_cons_of_neg (Bool.eq_false_iff.mp hb.not_space), List.reverse_cons,
      List.reverse_reverse]
  rw [trim, hfirst, hlast]

theorem spelledWords_of_spelled {lead trail : JsString} (hlead : Blanks lead)
    (htrail : Blanks trail) (h : Spelled ws s) (hws : ∀ w ∈ ws, Word w) :
    spelledWords c (lead ++ (s ++ trail)) = ws := by
  rw [spelledWords, trim_spelled hlead htrail h hws,
    RunnerAccess.toLowerCase_of_no_sigma (h.no_sigma hws), h.words_lower hws]

/-- The words of a phrase with one space between them are a spelling. -/
theorem spelled_intercalate : ∀ {ws : List JsString}, ws ≠ [] → Spelled ws ([32].intercalate ws)
  | [], h => absurd rfl h
  | [w], _ => by
    rw [List.intercalate_singleton]
    exact .last (List.forall₂_same.mpr fun _ _ => Or.inl rfl)
  | w :: w' :: ws, _ => by
    rw [List.intercalate_cons_cons, List.append_assoc]
    refine .more (List.forall₂_same.mpr fun _ _ => Or.inl rfl) (List.cons_ne_nil 32 []) ?_
      (spelled_intercalate (List.cons_ne_nil w' ws))
    exact fun b hb => by rw [List.mem_singleton.mp hb]; rfl

theorem intercalate_inj {ws ws' : List JsString} (hne : ws ≠ []) (hne' : ws' ≠ [])
    (h : ∀ w ∈ ws, ∀ a ∈ w, jsSpace a = false) (h' : ∀ w ∈ ws', ∀ a ∈ w, jsSpace a = false)
    (heq : [32].intercalate ws = [32].intercalate ws') : ws = ws' := by
  have hspace {w : JsString} (hw : ∀ a ∈ w, jsSpace a = false) : 32 ∉ w := fun hmem =>
    absurd (hw 32 hmem) (by decide)
  rw [← List.splitOn_intercalate 32 (fun w hw => hspace (h w hw)) hne, heq,
    List.splitOn_intercalate 32 (fun w hw => hspace (h' w hw)) hne']

/-! ### Phrases -/

section

variable (digest : List (BitVec 8) → List (BitVec 8))

/-- The words that are looked up are the only ones that make the normalized text. -/
theorem spelledWords_eq {mnemonic : JsString} (hW : Wordlist c.WORDLIST) (e : Entropy)
    (h : normalized c mnemonic = generateMnemonic digest c.WORDLIST e) :
    spelledWords c mnemonic = mnemonicWords digest c.WORDLIST e := by
  refine intercalate_inj (words_ne_nil _) (mnemonicWords_ne_nil e) (spaceless_of_mem_words _) ?_ h
  exact fun w hw a ha => IsLetter.not_space (Or.inr (hW.letters w (mem_wordlist hW hw) a ha))

theorem validate_of_spelledWords {mnemonic : JsString} (hW : Wordlist c.WORDLIST) {e : Entropy}
    (h : spelledWords c mnemonic = mnemonicWords digest c.WORDLIST e) :
    validateMnemonicChecksum (c.withDigest digest) mnemonic = true := by
  have hmem : (spelledWords c mnemonic).all (c.WORDLIST.contains ·) = true := by
    rw [h, List.all_eq_true]
    exact fun w hw => List.contains_iff_mem.mpr (mem_wordlist hW hw)
  have hsum : checksumMatches digest ((spelledWords c mnemonic).map (c.WORDLIST.idxOf ·)) = true :=
    h ▸ checksumMatches_mnemonicWords hW e
  have hlen : (spelledWords c mnemonic).length = 12 := h ▸ length_mnemonicWords e
  exact Bool.and_eq_true_iff.mpr ⟨Bool.and_eq_true_iff.mpr ⟨decide_eq_true hlen, hmem⟩, hsum⟩

/-- What is accepted are the words of the entropy that was read. -/
theorem exists_of_validate {mnemonic : JsString} (hW : Wordlist c.WORDLIST)
    (h : validateMnemonicChecksum (c.withDigest digest) mnemonic = true) :
    ∃ e : Entropy, e.bytes = bytesRead c mnemonic ∧
      spelledWords c mnemonic = mnemonicWords digest c.WORDLIST e := by
  obtain ⟨hwords, hsum⟩ := Bool.and_eq_true_iff.mp h
  obtain ⟨hlen, hmem⟩ := Bool.and_eq_true_iff.mp hwords
  have hmem' : ∀ w ∈ spelledWords c mnemonic, w ∈ c.WORDLIST := fun w hw =>
    List.contains_iff_mem.mp (List.all_eq_true.mp hmem w hw)
  let indices := (spelledWords c mnemonic).map (c.WORDLIST.idxOf ·)
  have hindices : indices.length = 12 := (List.length_map _).trans (of_decide_eq_true hlen)
  have hlt : ∀ i ∈ indices, i < 2 ^ 11 := by
    intro i hi
    obtain ⟨w, hw, rfl⟩ := List.mem_map.mp hi
    exact hW.length ▸ List.idxOf_lt_length_of_mem (hmem' w hw)
  obtain ⟨e, hbytes, hgroups⟩ := exists_entropy hindices hlt hsum
  refine ⟨e, hbytes, ?_⟩
  have hback : ∀ w ∈ spelledWords c mnemonic, c.WORDLIST.getD (c.WORDLIST.idxOf w) [] = w := by
    intro w hw
    have hidx := List.idxOf_lt_length_of_mem (hmem' w hw)
    rw [← List.getElem_eq_getD (h := hidx) [], List.getElem_idxOf hidx]
  rw [mnemonicWords, hgroups, List.map_map]
  exact ((List.map_congr_left hback).trans (List.map_id _)).symm

theorem generateMnemonic_inj (hW : Wordlist c.WORDLIST) {e e' : Entropy}
    (h : mnemonicWords digest c.WORDLIST e = mnemonicWords digest c.WORDLIST e') : e = e' := by
  have hbytes : entropyBytes ((mnemonicWords digest c.WORDLIST e).map (c.WORDLIST.idxOf ·)) =
      e.bytes := entropyBytes_mnemonicWords hW e
  rw [h, entropyBytes_mnemonicWords hW e'] at hbytes
  exact Entropy.ext_bytes hbytes.symm

/-- What a recovery phrase is good for. -/
structure FaithfulCopy : Prop where
  /-- A phrase has twelve words of the list and is accepted. -/
  generated : ∀ e, (mnemonicWords digest c.WORDLIST e).length = 12 ∧
    (∀ w ∈ mnemonicWords digest c.WORDLIST e, w ∈ c.WORDLIST) ∧
    validateMnemonicChecksum (c.withDigest digest) (generateMnemonic digest c.WORDLIST e) = true
  accepted_iff : ∀ s, validateMnemonicChecksum (c.withDigest digest) s = true ↔
    ∃! e, normalized c s = generateMnemonic digest c.WORDLIST e
  /-- Letter case and blanks make no difference. -/
  spelled : ∀ e lead s trail, Blanks lead → Blanks trail →
    Spelled (mnemonicWords digest c.WORDLIST e) s →
    validateMnemonicChecksum (c.withDigest digest) (lead ++ (s ++ trail)) = true ∧
      normalized c (lead ++ (s ++ trail)) = generateMnemonic digest c.WORDLIST e
  /-- Spellings that are read as the same bytes derive their key from the same text. -/
  derived : ∀ s t, validateMnemonicChecksum (c.withDigest digest) s = true →
    validateMnemonicChecksum (c.withDigest digest) t = true → bytesRead c s = bytesRead c t →
    normalized c s = normalized c t ∧ deriveKeyFromMnemonic c s = deriveKeyFromMnemonic c t

theorem recovery_phrase_faithful (hW : Wordlist c.WORDLIST) : FaithfulCopy c digest := by
  have hword (e : Entropy) : ∀ w ∈ mnemonicWords digest c.WORDLIST e, Word w := fun w hw =>
    hW.word (mem_wordlist hW hw)
  have hspelled : ∀ e lead s trail, Blanks lead → Blanks trail →
      Spelled (mnemonicWords digest c.WORDLIST e) s →
      validateMnemonicChecksum (c.withDigest digest) (lead ++ (s ++ trail)) = true ∧
        normalized c (lead ++ (s ++ trail)) = generateMnemonic digest c.WORDLIST e := by
    intro e lead s trail hlead htrail hs
    have hread := spelledWords_of_spelled c hlead htrail hs (hword e)
    exact ⟨validate_of_spelledWords c digest hW hread, congrArg [32].intercalate hread⟩
  refine ⟨fun e => ⟨length_mnemonicWords e, fun w => mem_wordlist hW, ?_⟩, fun s => ?_, hspelled,
    fun s t hs ht hbytes => ?_⟩
  · have hnone : Blanks [] := fun b hb => absurd hb List.not_mem_nil
    have hself := hspelled e [] _ [] hnone hnone (spelled_intercalate (mnemonicWords_ne_nil e))
    rw [List.append_nil, List.nil_append] at hself
    exact hself.1
  · constructor
    · intro hs
      obtain ⟨e, -, hwords⟩ := exists_of_validate c digest hW hs
      refine ⟨e, congrArg [32].intercalate hwords, fun e' he' => ?_⟩
      exact generateMnemonic_inj c digest hW
        ((spelledWords_eq c digest hW e' he').symm.trans hwords)
    · rintro ⟨e, he, -⟩
      exact validate_of_spelledWords c digest hW (spelledWords_eq c digest hW e he)
  · obtain ⟨e, he, hwords⟩ := exists_of_validate c digest hW hs
    obtain ⟨e', he', hwords'⟩ := exists_of_validate c digest hW ht
    have hsame : e = e' := Entropy.ext_bytes (he.trans (hbytes.trans he'.symm))
    have htext : normalized c s = normalized c t := by
      rw [normalized, normalized]
      exact congrArg [32].intercalate (hwords.trans (hsame ▸ hwords'.symm))
    refine ⟨htext, ?_⟩
    rw [deriveKeyFromMnemonic, deriveKeyFromMnemonic, htext]

end

/-- A word of three letters for each number. -/
def threeLetters (i : ℕ) : JsString := [97 + i / 676, 97 + i / 26 % 26, 97 + i % 26]

def threeLetterWords : List JsString := (List.range (2 ^ 11)).map threeLetters

theorem threeLetterWords_wordlist : Wordlist threeLetterWords where
  length := by rw [threeLetterWords, List.length_map, List.length_range]
  nodup := by
    refine List.Nodup.map_on (fun i _ j _ h => ?_) List.nodup_range
    simp only [threeLetters, List.cons.injEq, and_true] at h
    omega
  nonempty := fun w hw => by
    obtain ⟨i, -, rfl⟩ := List.mem_map.mp hw
    exact List.cons_ne_nil _ _
  letters := fun w hw a ha => by
    obtain ⟨i, hi, rfl⟩ := List.mem_map.mp hw
    have hlt : i < 2 ^ 11 := List.mem_range.mp hi
    simp only [threeLetters, List.mem_cons, List.not_mem_nil, or_false] at ha
    omega

/-- Cryptography whose keys are the texts that they come from. -/
def textCrypto (WORDLIST : List JsString) : Crypto where
  PrivateKey := JsString
  PublicKey := JsString
  derive := some
  exportX := id
  importPublic := some
  importPrivate := fun d _ => some d
  WORDLIST := WORDLIST
  checksum := fun _ => true
  isFinal := fun _ _ => false

theorem textCrypto_WORDLIST (WORDLIST : List JsString) :
    (textCrypto WORDLIST).WORDLIST = WORDLIST := rfl

theorem recovery_phrase_faithful_plain : FaithfulCopy (textCrypto threeLetterWords) id := by
  refine recovery_phrase_faithful (textCrypto threeLetterWords) id ?_
  rw [textCrypto_WORDLIST]
  exact threeLetterWords_wordlist

end Swazz.Encryption
