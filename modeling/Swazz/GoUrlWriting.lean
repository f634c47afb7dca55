import Mathlib.Data.List.TakeWhile
import Swazz.GoUrl

/-! What escapes keep, and the scheme and host of a URL that is written and read again. -/
namespace GoUrl

open Utf8

variable {mode : Encoding} {a b s t x y : Text}

/-! Escapes. -/

theorem unhex_hexDigit : ∀ n < 16, unhex (hexDigit n) = some n := by
  decide

theorem shouldEscape_percent (mode : Encoding) : shouldEscape percent mode = true := by
  cases mode <;> rfl

theorem unescape_escapeByte (mode : Encoding) (c : Byte) (rest : Text) :
    unescape .path (escapeByte mode c ++ rest) = (unescape .path rest).map (c :: ·) := by
  rw [escapeByte]
  split
  · have hhigh : c.val / 16 < 16 := by omega
    have hlow : c.val % 16 < 16 := by omega
    have hbyte : Fin.ofNat 256 (16 * (c.val / 16) + c.val % 16) = c := by
      rw [Nat.div_add_mod]
      exact Fin.ofNat_val_eq_self c
    simp only [List.cons_append, List.nil_append, unescape, if_true, unhex_hexDigit _ hhigh,
      unhex_hexDigit _ hlow, hbyte, admits]
  · rename_i hc
    have hne : c ≠ percent := by
      rintro rfl
      exact hc (shouldEscape_percent mode)
    rw [List.singleton_append, unescape.eq_def]
    simp only [hne, if_false, literal, if_true]

/-- Every escaped text is decoded to the text. -/
theorem unescape_escape (mode : Encoding) (s : Text) : unescape .path (escape mode s) = some s := by
  induction s with
  | nil => rfl
  | cons c s ih =>
    rw [escape, List.flatMap_cons, unescape_escapeByte]
    rw [escape] at ih
    rw [ih]
    rfl

/-- One byte at a time: an escape or the byte itself. -/
theorem unescape_cons {c : Byte} (h : unescape mode (c :: s) = some x) :
    (∃ high low rest hi lo y, s = high :: low :: rest ∧ c = percent ∧ unhex high = some hi ∧
        unhex low = some lo ∧ admits mode (Fin.ofNat 256 (16 * hi + lo)) = true ∧
        unescape mode rest = some y ∧ x = Fin.ofNat 256 (16 * hi + lo) :: y) ∨
      c ≠ percent ∧ literal mode c = true ∧ ∃ y, unescape mode s = some y ∧ x = c :: y := by
  rw [unescape.eq_def] at h
  simp only at h
  split at h
  · rename_i hc
    left
    split at h
    · rename_i high low rest
      split at h
      · rename_i hi lo hhigh hlow
        split at h
        · rename_i hadmits
          obtain ⟨y, hy, rfl⟩ := Option.map_eq_some_iff.mp h
          exact ⟨high, low, rest, hi, lo, y, rfl, hc, hhigh, hlow, hadmits, hy, rfl⟩
        · cases h
      · cases h
    · cases h
  · rename_i hc
    right
    split at h
    · rename_i hliteral
      obtain ⟨y, hy, rfl⟩ := Option.map_eq_some_iff.mp h
      exact ⟨hc, hliteral, y, hy, rfl⟩
    · cases h

theorem unescape_escaped {high low : Byte} {hi lo : ℕ} (rest : Text) (hhigh : unhex high = some hi)
    (hlow : unhex low = some lo) (hadmits : admits mode (Fin.ofNat 256 (16 * hi + lo)) = true) :
    unescape mode (percent :: high :: low :: rest) =
      (unescape mode rest).map (Fin.ofNat 256 (16 * hi + lo) :: ·) := by
  simp only [unescape, if_true, hhigh, hlow, hadmits]

theorem unescape_literal {c : Byte} (hc : c ≠ percent) (hliteral : literal mode c = true)
    (rest : Text) : unescape mode (c :: rest) = (unescape mode rest).map (c :: ·) := by
  rw [unescape.eq_def]
  simp only [hc, if_false, hliteral, if_true]

/-- What a part admits is decoded as in a path, which admits all. -/
theorem unescape_path (h : unescape mode s = some x) : unescape .path s = some x := by
  fun_induction unescape mode s generalizing x with
  | case1 => exact h
  | case2 high low rest hi lo hlow hhigh _ ih =>
    obtain ⟨y, hy, rfl⟩ := Option.map_eq_some_iff.mp h
    rw [unescape_escaped rest hhigh hlow rfl, ih hy]
    rfl
  | case6 c rest hc hliteral ih =>
    obtain ⟨y, hy, rfl⟩ := Option.map_eq_some_iff.mp h
    rw [unescape_literal hc rfl, ih hy]
    rfl
  | _ => cases h

theorem unescape_append (h : unescape .path a = some x) (b : Text) :
    unescape .path (a ++ b) = (unescape .path b).map (x ++ ·) := by
  induction hlen : a.length using Nat.strong_induction_on generalizing a x with
  | _ n ih =>
    cases a with
    | nil =>
      cases h
      rw [List.nil_append]
      exact Option.map_id'.symm
    | cons c s =>
      rcases unescape_cons h with
        ⟨high, low, rest, hi, lo, y, rfl, rfl, hhigh, hlow, -, hy, rfl⟩ | ⟨hc, -, y, hy, rfl⟩
      · have hrest := ih rest.length (by simp at hlen; omega) hy rfl
        rw [List.cons_append, List.cons_append, List.cons_append,
          unescape_escaped _ hhigh hlow rfl, hrest, Option.map_map]
        rfl
      · have hrest := ih s.length (by simp at hlen; omega) hy rfl
        rw [List.cons_append, unescape_literal hc rfl, hrest, Option.map_map]
        rfl

/-- A text is decoded on both sides of a byte that is no hexadecimal digit. -/
theorem unescape_split {c : Byte} (hhex : unhex c = none) :
    ∀ {a x : Text}, unescape mode (a ++ c :: b) = some x → ∃ y z, unescape mode a = some y ∧
      unescape mode (c :: b) = some z ∧ x = y ++ z := by
  intro a
  induction hlen : a.length using Nat.strong_induction_on generalizing a with
  | _ n ih =>
    intro x h
    cases a with
    | nil => exact ⟨[], x, rfl, h, rfl⟩
    | cons d s =>
      have hs : s.length < n := by
        rw [← hlen]
        exact Nat.lt_succ_self _
      rw [List.cons_append] at h
      rcases unescape_cons h with
        ⟨high, low, rest, hi, lo, y, hsplit, rfl, hhigh, hlow, hadmits, hy, rfl⟩ |
          ⟨hd, hliteral, y, hy, rfl⟩
      · -- the two digits stand before `c`, which is none
        cases s with
        | nil =>
          cases hsplit
          rw [hhex] at hhigh
          cases hhigh
        | cons d₁ s =>
          cases s with
          | nil =>
            cases hsplit
            rw [hhex] at hlow
            cases hlow
          | cons d₂ s =>
            cases hsplit
            obtain ⟨y', z, hy', hz, rfl⟩ := ih s.length (by simp at hs; omega) rfl hy
            refine ⟨_ :: y', z, ?_, hz, rfl⟩
            rw [unescape_escaped s hhigh hlow hadmits, hy']
            rfl
      · obtain ⟨y', z, hy', hz, rfl⟩ := ih s.length hs rfl hy
        refine ⟨d :: y', z, ?_, hz, rfl⟩
        rw [unescape_literal hd hliteral, hy']
        rfl

/-- What holds of the bytes that need no escape, of the percent sign and of the hexadecimal
digits holds of every escaped text. -/
theorem forall_escape {p : Byte → Prop} (h : ∀ c, ∀ d ∈ escapeByte mode c, p d) (s : Text) :
    ∀ d ∈ escape mode s, p d := by
  intro d hd
  obtain ⟨c, -, hmem⟩ := List.mem_flatMap.mp hd
  exact h c d hmem

/-! Hosts. -/

section Parse

variable (isIPv6 : Text → Bool)

theorem unescape_parseLiteral (h : parseLiteral s = some x) : unescape .path s = some x := by
  rw [parseLiteral] at h
  split at h
  · rename_i i _
    obtain ⟨hostPart, hhost, h⟩ := Option.bind_eq_some_iff.mp h
    obtain ⟨zonePart, hzone, h⟩ := Option.bind_eq_some_iff.mp h
    cases h
    rw [← List.take_append_drop i s, unescape_append (unescape_path hhost),
      unescape_path hzone]
    rfl
  · exact unescape_path h

theorem eq_of_cutLast {sep : Byte} (h : cutLast sep s = some (a, b)) : s = a ++ sep :: b := by
  rw [cutLast] at h
  split at h
  · rename_i hmem
    cases h
    have hne : s.reverse.dropWhile (· ≠ sep) ≠ [] := by
      intro hnil
      have hall := List.dropWhile_eq_nil_iff.mp hnil sep (List.mem_reverse.mpr hmem)
      simp at hall
    have hhead : (s.reverse.dropWhile (· ≠ sep)).head hne = sep := by
      have h := List.head_dropWhile_not (p := fun c => decide (c ≠ sep)) hne
      simpa using h
    have hsplit := List.takeWhile_append_dropWhile (p := (· ≠ sep)) (l := s.reverse)
    rw [← List.cons_head_tail hne, hhead] at hsplit
    have hrev := congrArg List.reverse hsplit
    rw [List.reverse_reverse, List.reverse_append, List.reverse_cons, List.append_assoc,
      List.singleton_append] at hrev
    exact hrev.symm
  · cases h

theorem cutLast_of_not_mem {sep : Byte} (h : sep ∉ s) : cutLast sep s = none := if_neg h

/-- The last separator of a text is the one with none behind it. -/
theorem cutLast_append {sep : Byte} (a : Text) (h : sep ∉ b) :
    cutLast sep (a ++ sep :: b) = some (a, b) := by
  have hall : ∀ c ∈ b.reverse, decide (c ≠ sep) = true :=
    fun c hc => decide_eq_true (ne_of_mem_of_not_mem (List.mem_reverse.mp hc) h)
  rw [cutLast, if_pos (by simp), List.reverse_append, List.reverse_cons, List.append_assoc,
    List.singleton_append, List.dropWhile_append_of_pos hall, List.takeWhile_append_of_pos hall,
    List.dropWhile_cons_of_neg (by simp), List.takeWhile_cons_of_neg (by simp), List.append_nil,
    List.tail_cons, List.reverse_reverse, List.reverse_reverse]

/-- A host is the decoding of its text. -/
theorem unescape_parseHost (h : parseHost isIPv6 s = some x) : unescape .path s = some x := by
  rw [parseHost] at h
  split at h
  · rename_i inside hopen
    split at h
    · cases h
    · rename_i hostname colonPort hclose
      split at h
      · obtain ⟨port, hport, h⟩ := Option.bind_eq_some_iff.mp h
        obtain ⟨name, hname, h⟩ := Option.bind_eq_some_iff.mp h
        split at h
        · cases h
          rw [eq_of_cutLast hopen, eq_of_cutLast hclose, List.nil_append,
            unescape_literal (by decide) rfl, unescape_append (unescape_parseLiteral hname),
            unescape_literal (by decide) rfl, unescape_path hport]
          rfl
        · cases h
      · cases h
  · cases h
  · split at h
    · cases h
    · exact unescape_path h

/-- A host that is escaped and read again. -/
theorem parseHost_escape (h : parseHost isIPv6 (escape .host s) = some x) : x = s := by
  have hdecoded := unescape_parseHost isIPv6 h
  rw [unescape_escape] at hdecoded
  cases hdecoded
  rfl

/-- The bytes of a host are those of its text, apart from what may stand escaped. -/
theorem mem_unescape (h : unescape .host s = some x) {c : Byte} (hc : c ∈ x) :
    c ∈ s ∨ admits .host c = true := by
  fun_induction unescape .host s generalizing x with
  | case1 =>
    cases h
    cases hc
  | case2 high low rest hi lo hlow hhigh hadmits ih =>
    obtain ⟨y, hy, rfl⟩ := Option.map_eq_some_iff.mp h
    rcases List.mem_cons.mp hc with rfl | hc
    · exact Or.inr hadmits
    · rcases ih hy hc with hmem | hadmits
      · exact Or.inl (List.mem_cons_of_mem _ (List.mem_cons_of_mem _ (List.mem_cons_of_mem _ hmem)))
      · exact Or.inr hadmits
  | case6 d rest hd hliteral ih =>
    obtain ⟨y, hy, rfl⟩ := Option.map_eq_some_iff.mp h
    rcases List.mem_cons.mp hc with rfl | hc
    · exact Or.inl List.mem_cons_self
    · rcases ih hy hc with hmem | hadmits
      · exact Or.inl (List.mem_cons_of_mem _ hmem)
      · exact Or.inr hadmits
  | _ => cases h

theorem unescape_digits (mode : Encoding) (h : s.all isDigit) : unescape mode s = some s := by
  have hdigit : ∀ c : Byte, isDigit c → c ≠ percent ∧ literal mode c = true := by
    cases mode <;> decide +kernel
  induction s with
  | nil => rfl
  | cons c s ih =>
    rw [List.all_cons, Bool.and_eq_true] at h
    obtain ⟨hne, hliteral⟩ := hdigit c h.1
    rw [unescape_literal hne hliteral, ih h.2]
    rfl

/-- Only a host without another colon ends in one, or one with brackets before it. -/
def HostShape (host : Text) : Prop :=
  ∀ g, host = g ++ [colon] → colon ∉ g ∨ g.getLast? = some 93

theorem hostShape_nil : HostShape [] := by
  intro g h
  cases List.append_eq_nil_iff.mp h.symm |>.2

/-- A port and its colon stay as they are. -/
theorem unescape_port (h : validOptionalPort s) (hx : unescape .host s = some x) :
    x = s ∧ ∀ g, x = g ++ [colon] → g = [] := by
  cases s with
  | nil =>
    cases hx
    refine ⟨rfl, fun g hg => ?_⟩
    cases List.append_eq_nil_iff.mp hg.symm |>.2
  | cons c digits =>
    rw [validOptionalPort, Bool.and_eq_true, decide_eq_true_eq] at h
    obtain ⟨rfl, hdigits⟩ := h
    have hport : unescape .host (colon :: digits) = some (colon :: digits) := by
      rw [unescape_literal (by decide) (by decide), unescape_digits .host hdigits]
      rfl
    rw [hport] at hx
    cases hx
    refine ⟨rfl, fun g hg => ?_⟩
    cases g with
    | nil => rfl
    | cons d g =>
      rw [List.cons_append, List.cons.injEq] at hg
      rw [hg.2, List.all_append, Bool.and_eq_true] at hdigits
      exact absurd hdigits.2 (by decide)

theorem hostShape_parseHost (h : parseHost isIPv6 s = some x) : HostShape x := by
  intro g hg
  rw [parseHost] at h
  split at h
  · split at h
    · cases h
    · rename_i hostname colonPort hclose
      split at h
      · rename_i hvalid
        obtain ⟨port, hport, h⟩ := Option.bind_eq_some_iff.mp h
        obtain ⟨name, -, h⟩ := Option.bind_eq_some_iff.mp h
        split at h
        · cases h
          right
          obtain ⟨hporteq, hend⟩ := unescape_port hvalid hport
          rcases List.eq_nil_or_concat' port with rfl | ⟨init, last, rfl⟩
          · have hlast := (List.append_inj' hg rfl).2
            exact absurd hlast (by decide)
          · have hsplit : 91 :: name ++ 93 :: init ++ [last] = g ++ [colon] := by
              rw [← hg]
              simp
            obtain ⟨hinit, hcolon⟩ := List.append_inj' hsplit rfl
            cases hcolon
            rw [hend init rfl] at hinit
            rw [← hinit]
            exact List.getLast?_concat
        · cases h
      · cases h
  · cases h
  · rename_i hopen
    left
    split at h
    · cases h
    · rename_i hport
      by_cases hcolon : colon ∈ s
      · have hvalid : validOptionalPort (s.dropWhile (· ≠ colon)) = true := by
          by_contra hnot
          exact hport ⟨hcolon, hnot⟩
        -- the text is split at its first colon, and both halves are decoded
        obtain ⟨name, digits, rfl, hname⟩ := List.eq_append_cons_of_mem hcolon
        have hall : ∀ c ∈ name, decide (c ≠ colon) = true :=
          fun c hc => decide_eq_true (ne_of_mem_of_not_mem hc hname)
        rw [List.dropWhile_append_of_pos hall, List.dropWhile_cons_of_neg (by simp)] at hvalid
        obtain ⟨y, z, hy, hz, rfl⟩ := unescape_split (by decide) h
        have hnocolon : colon ∉ y := by
          intro hmem
          rcases mem_unescape hy hmem with hmem | hadmits
          · exact hname hmem
          · exact absurd hadmits (by decide)
        obtain ⟨rfl, hend⟩ := unescape_port hvalid hz
        rcases List.eq_nil_or_concat' digits with rfl | ⟨init, last, rfl⟩
        · obtain ⟨rfl, -⟩ := List.append_inj' hg rfl
          exact hnocolon
        · have hsplit : y ++ colon :: init ++ [last] = g ++ [colon] := by
            rw [← hg]
            simp
          obtain ⟨-, hlast⟩ := List.append_inj' hsplit rfl
          cases hlast
          cases hend (colon :: init) rfl
      · intro hmem
        have hx : colon ∈ x := by
          rw [hg]
          exact List.mem_append_left _ hmem
        rcases mem_unescape h hx with hmem | hadmits
        · exact hcolon hmem
        · exact absurd hadmits (by decide)

end Parse

/-! Schemes. -/

/-- The schemes that `Parse` finds: lower case, a letter first. -/
structure ValidScheme (s : Text) : Prop where
  starts : ∃ c ∈ s.head?, isLetter c
  bytes : ∀ c ∈ s, isSchemeByte c
  lower : toLower s = s

theorem ValidScheme.ne_nil (h : ValidScheme s) : s ≠ [] := by
  rintro rfl
  obtain ⟨c, hc, -⟩ := h.starts
  cases hc

theorem getScheme_append (h : ValidScheme s) (rest : Text) :
    getScheme (s ++ colon :: rest) = some (s, rest) := by
  obtain ⟨c, hc, hletter⟩ := h.starts
  have hbytes : ∀ c ∈ s, isSchemeByte c = true := h.bytes
  rw [getScheme, List.takeWhile_append_of_pos hbytes, List.dropWhile_append_of_pos hbytes,
    List.takeWhile_cons_of_neg (by decide), List.dropWhile_cons_of_neg (by decide), List.append_nil]
  cases s with
  | nil => cases hc
  | cons d s =>
    cases hc
    exact if_pos hletter

theorem isLetter_lower : ∀ c : Byte, isLetter c →
    isLetter (if 65 ≤ c ∧ c ≤ 90 then c + 32 else c) := by
  decide +kernel

theorem isSchemeByte_lower : ∀ c : Byte, isSchemeByte c →
    isSchemeByte (if 65 ≤ c ∧ c ≤ 90 then c + 32 else c) := by
  decide +kernel

theorem lower_lower : ∀ c : Byte, (fun c : Byte => if 65 ≤ c ∧ c ≤ 90 then c + 32 else c)
      (if 65 ≤ c ∧ c ≤ 90 then c + 32 else c) =
    if 65 ≤ c ∧ c ≤ 90 then c + 32 else c := by
  decide +kernel

theorem validScheme_getScheme {rest : Text} (h : getScheme t = some (s, rest)) :
    toLower s = [] ∨ ValidScheme (toLower s) := by
  rw [getScheme] at h
  split at h
  · rename_i c after _
    split at h
    · split at h
      · cases h
      · rename_i first tail hscheme
        split at h
        · rename_i hletter
          cases h
          right
          constructor
          · rw [hscheme]
            exact ⟨_, rfl, isLetter_lower first hletter⟩
          · intro d hd
            obtain ⟨e, he, rfl⟩ := List.mem_map.mp hd
            exact isSchemeByte_lower e (List.mem_takeWhile_imp he)
          · rw [toLower, toLower, List.map_map]
            exact List.map_congr_left fun e _ => lower_lower e
        · cases h
          exact Or.inl rfl
    · cases h
      exact Or.inl rfl
  · cases h
    exact Or.inl rfl

/-! What follows the authority. -/

/-- A text is empty or begins with one of some bytes. -/
def Follows (seps : List Byte) (t : Text) : Prop := ∀ c ∈ t.head?, c ∈ seps

theorem follows_cut {seps : List Byte} (h : Follows seps t) (sep : Byte) :
    Follows (seps.filter (· ≠ sep)) (cut sep t).1 := by
  intro c hc
  cases t with
  | nil => cases hc
  | cons d t =>
    rw [cut, List.takeWhile_cons] at hc
    split at hc
    · rename_i hne
      cases hc
      exact List.mem_filter.mpr ⟨h _ rfl, hne⟩
    · cases hc

theorem cut_append {sep : Byte} (h : sep ∉ s) (t : Text) :
    (cut sep (s ++ t)).1 = s ++ (cut sep t).1 := by
  apply List.takeWhile_append_of_pos
  intro c hc
  exact decide_eq_true (ne_of_mem_of_not_mem hc h)

theorem splitQuery_fst (rest : Text) : (splitQuery rest).1 = (cut question rest).1 := by
  rw [splitQuery]
  split
  · rename_i h
    obtain ⟨hlast, hcount⟩ := h
    obtain ⟨x, rfl⟩ := List.getLast?_eq_some_iff.mp hlast
    have hx : question ∉ x := by
      rw [List.count_append, List.count_singleton_self] at hcount
      exact List.count_eq_zero.mp (by omega)
    rw [cut_append hx, List.dropLast_concat]
    exact (List.append_nil x).symm
  · rfl

/-- The bytes that end an authority, and the sign behind the user information. -/
def delimits (d : Byte) : Bool := d = slash || d = question || d = hash || d = atSign

theorem not_delimits {d : Byte} (h : delimits d = false) :
    d ≠ slash ∧ d ≠ question ∧ d ≠ hash ∧ d ≠ atSign := by
  simpa [delimits, and_assoc] using h

theorem hexDigit_plain : ∀ n < 16, delimits (hexDigit n) = false := by
  decide

theorem escapeByte_plain {c : Byte} (hescape : shouldEscape c mode = false → delimits c = false) :
    ∀ d ∈ escapeByte mode c, d ≠ slash ∧ d ≠ question ∧ d ≠ hash ∧ d ≠ atSign := by
  intro d hd
  apply not_delimits
  rw [escapeByte] at hd
  split at hd
  · rcases List.mem_cons.mp hd with rfl | hd
    · decide
    · rcases List.mem_cons.mp hd with rfl | hd
      · exact hexDigit_plain _ (by omega)
      · rw [List.mem_singleton.mp hd]
        exact hexDigit_plain _ (by omega)
  · rename_i hc
    rw [List.mem_singleton.mp hd]
    exact hescape ((Bool.not_eq_true _).mp hc)

theorem authority_bytes (hmode : mode = .host ∨ mode = .userPassword) (c : Byte) :
    ∀ d ∈ escapeByte mode c, d ≠ slash ∧ d ≠ question ∧ d ≠ hash ∧ d ≠ atSign := by
  have hescape : ∀ c : Byte, shouldEscape c mode = false → delimits c = false := by
    rcases hmode with rfl | rfl <;> decide +kernel
  exact escapeByte_plain (hescape c)

/-- The user information and the sign behind it. -/
def userText (user : Option Userinfo) : Text :=
  match user with
  | some ui => ui.String ++ [atSign]
  | none => []

theorem not_mem_userText (user : Option Userinfo) :
    ∀ d ∈ userText user, d ≠ slash ∧ d ≠ question ∧ d ≠ hash := by
  have hplain (s : Text) : ∀ d ∈ escape .userPassword s, d ≠ slash ∧ d ≠ question ∧ d ≠ hash := by
    intro d hd
    obtain ⟨hslash, hquestion, hhash, -⟩ := forall_escape (authority_bytes (Or.inr rfl)) s d hd
    exact ⟨hslash, hquestion, hhash⟩
  cases user with
  | none => simp [userText]
  | some ui =>
    rw [userText, Userinfo.String, List.forall_mem_append, List.forall_mem_append]
    refine ⟨⟨hplain _, ?_⟩, List.forall_mem_singleton.mpr (by decide)⟩
    cases ui.password with
    | none => simp
    | some password => exact List.forall_mem_cons.mpr ⟨by decide, hplain password⟩

/-- The text of a URL with a host. -/
theorem string_eq {u : URL} (hscheme : u.Scheme ≠ []) (hplain : u.Opaque = [])
    (hhost : u.Host ≠ []) : ∃ t, Follows [slash, question, hash] t ∧
      u.String = u.Scheme ++ colon :: slash :: slash :: (userText u.User ++ escape .host u.Host) ++
        t := by
  have hauthority : u.authority =
      slash :: slash :: (userText u.User ++ escape .host u.Host) := by
    rw [URL.authority, if_pos ⟨Or.inl hscheme, fun h => hhost h.2.1⟩, if_pos (Or.inl hhost)]
    rfl
  have hquery : Follows [slash, question, hash]
      ((if u.ForceQuery ∨ u.RawQuery ≠ [] then question :: u.RawQuery else []) ++
        (if u.Fragment ≠ [] then hash :: u.EscapedFragment else [])) := by
    intro c hc
    split at hc
    · cases hc
      simp
    · split at hc
      · cases hc
        simp
      · cases hc
  refine ⟨(if u.EscapedPath ≠ [] ∧ u.EscapedPath.head? ≠ some slash ∧ u.Host ≠ [] then [slash]
    else []) ++ u.EscapedPath ++
    ((if u.ForceQuery ∨ u.RawQuery ≠ [] then question :: u.RawQuery else []) ++
      (if u.Fragment ≠ [] then hash :: u.EscapedFragment else [])), ?_, ?_⟩
  · cases hpath : u.EscapedPath with
    | nil => simpa using hquery
    | cons d path =>
      intro c hc
      by_cases hd : d = slash
      · subst hd
        simp at hc
        simp [← hc]
      · simp [hd, hhost] at hc
        simp [← hc]
  · simp only [URL.String, hscheme, hplain, ne_eq, not_false_eq_true, not_true_eq_false, if_true,
      if_false, hauthority]
    simp

section Parse

variable (isIPv6 : Text → Bool)

/-- The user information is read up to the last at sign. -/
theorem host_parseAuthority {user user' : Option Userinfo} {host : Text}
    (h : parseAuthority isIPv6 (userText user ++ escape .host s) = some (user', host)) :
    host = s := by
  have hat : atSign ∉ escape .host s :=
    fun hmem => (forall_escape (authority_bytes (Or.inl rfl)) s _ hmem).2.2.2 rfl
  rw [parseAuthority] at h
  cases user with
  | none =>
    rw [userText, List.nil_append, cutLast_of_not_mem hat] at h
    obtain ⟨host', hhost, heq⟩ := Option.map_eq_some_iff.mp h
    cases heq
    exact parseHost_escape isIPv6 hhost
  | some ui =>
    rw [userText, List.append_assoc, List.singleton_append, cutLast_append _ hat] at h
    obtain ⟨host', hhost, h⟩ := Option.bind_eq_some_iff.mp h
    obtain ⟨user'', -, h⟩ := Option.bind_eq_some_iff.mp h
    cases h
    exact parseHost_escape isIPv6 hhost

theorem setPath_eq {u v : URL} {p : Text} (h : u.setPath p = some v) :
    v.Scheme = u.Scheme ∧ v.Host = u.Host ∧ v.Opaque = u.Opaque := by
  obtain ⟨path, -, rfl⟩ := Option.map_eq_some_iff.mp h
  exact ⟨rfl, rfl, rfl⟩

theorem withPath_eq (u : URL) (p : Text) :
    (u.withPath p).Scheme = u.Scheme ∧ (u.withPath p).Host = u.Host ∧
      (u.withPath p).Opaque = u.Opaque := by
  rw [URL.withPath]
  cases h : u.setPath p with
  | none => exact ⟨rfl, rfl, rfl⟩
  | some v => exact setPath_eq h

theorem setFragment_eq {u v : URL} {f : Text} (h : u.setFragment f = some v) :
    v.Scheme = u.Scheme ∧ v.Host = u.Host ∧ v.Opaque = u.Opaque := by
  obtain ⟨frag, -, rfl⟩ := Option.map_eq_some_iff.mp h
  exact ⟨rfl, rfl, rfl⟩

/-- Up to its fragment a URL is read by `parse`. -/
theorem eq_of_Parse {v : URL} (h : Parse isIPv6 t = some v) :
    ∃ u, parse isIPv6 (cut hash t).1 = some u ∧ v.Scheme = u.Scheme ∧ v.Host = u.Host ∧
      v.Opaque = u.Opaque := by
  obtain ⟨u, hu, h⟩ := Option.bind_eq_some_iff.mp h
  refine ⟨u, hu, ?_⟩
  split at h
  · cases h
    exact ⟨rfl, rfl, rfl⟩
  · exact setFragment_eq h

/-- A URL with a scheme and a rooted rest. -/
theorem parse_rooted {w : URL} {rest : Text} (hscheme : ValidScheme s)
    (h : parse isIPv6 (s ++ colon :: slash :: rest) = some w) :
    ∃ u : URL, u.Scheme = s ∧ parseHier isIPv6 u (cut question (slash :: rest)).1 = some w := by
  have hfst := splitQuery_fst (slash :: rest)
  rw [parse] at h
  split at h
  · cases h
  · split at h
    · rename_i hstar
      have hlen := congrArg List.length hstar
      have hone : (ascii "*").length = 1 := rfl
      rw [hone, List.length_append, List.length_cons, List.length_cons] at hlen
      omega
    · rw [getScheme_append hscheme, Option.bind_eq_bind, Option.bind_some] at h
      simp only [hfst, hscheme.lower] at h
      have hhead : (cut question (slash :: rest)).1.head? = some slash := rfl
      rw [if_pos hhead] at h
      exact ⟨_, rfl, h⟩

theorem parseHier_authority {u w : URL} {authority t : Text} (hscheme : u.Scheme ≠ [])
    (hslash : slash ∉ authority) (ht : Follows [slash] t)
    (h : parseHier isIPv6 u (slash :: slash :: authority ++ t) = some w) :
    w.Scheme = u.Scheme ∧ ∃ user, parseAuthority isIPv6 authority = some (user, w.Host) := by
  have hall : ∀ c ∈ authority, decide (c ≠ slash) = true :=
    fun c hc => decide_eq_true (ne_of_mem_of_not_mem hc hslash)
  have hend : t.takeWhile (· ≠ slash) = [] := by
    cases t with
    | nil => rfl
    | cons d t =>
      rw [List.mem_singleton.mp (ht d rfl)]
      exact List.takeWhile_cons_of_neg (by simp)
  rw [parseHier, if_pos ⟨Or.inl hscheme, rfl⟩] at h
  simp only [List.cons_append, List.drop_succ_cons, List.drop_zero] at h
  rw [List.takeWhile_append_of_pos hall, hend, List.append_nil] at h
  obtain ⟨⟨user, host⟩, hauthority, h⟩ := Option.bind_eq_some_iff.mp h
  obtain ⟨hwscheme, hwhost, -⟩ := setPath_eq h
  exact ⟨hwscheme, user, by rw [hwhost, hauthority]⟩

/-- A URL with a host keeps scheme and host when it is written and read again. -/
theorem host_of_string {u v : URL} (hscheme : ValidScheme u.Scheme) (hplain : u.Opaque = [])
    (hhost : u.Host ≠ []) (h : Parse isIPv6 u.String = some v) :
    v.Scheme = u.Scheme ∧ v.Host = u.Host := by
  obtain ⟨t, ht, htext⟩ := string_eq hscheme.ne_nil hplain hhost
  have hbytes : ∀ d ∈ userText u.User ++ escape .host u.Host,
      d ≠ slash ∧ d ≠ question ∧ d ≠ hash := by
    intro d hd
    rcases List.mem_append.mp hd with hd | hd
    · exact not_mem_userText u.User d hd
    · obtain ⟨hslash, hquestion, hhash, -⟩ := forall_escape (authority_bytes (Or.inl rfl)) _ d hd
      exact ⟨hslash, hquestion, hhash⟩
  set authority := userText u.User ++ escape .host u.Host with hauthority
  have hnohash : hash ∉ u.Scheme ++ colon :: slash :: slash :: authority := by
    intro hmem
    rcases List.mem_append.mp hmem with hmem | hmem
    · exact absurd (hscheme.bytes _ hmem) (by decide)
    · have hmem : hash ∈ [colon, slash, slash] ++ authority := hmem
      rcases List.mem_append.mp hmem with hmem | hmem
      · exact absurd hmem (by decide)
      · exact (hbytes _ hmem).2.2 rfl
  have hnoquestion : question ∉ slash :: slash :: authority := by
    intro hmem
    have hmem : question ∈ [slash, slash] ++ authority := hmem
    rcases List.mem_append.mp hmem with hmem | hmem
    · exact absurd hmem (by decide)
    · exact (hbytes _ hmem).2.1 rfl
  obtain ⟨w, hw, hvscheme, hvhost, -⟩ := eq_of_Parse isIPv6 h
  -- first the fragment is cut off, then the query: what is left follows the authority
  rw [htext, cut_append hnohash, List.append_assoc] at hw
  obtain ⟨u', hu', hhier⟩ := parse_rooted isIPv6 hscheme hw
  have hcut : (cut question (slash :: (slash :: authority).append (cut hash t).1)).1 =
      slash :: slash :: authority ++ (cut question (cut hash t).1).1 :=
    cut_append hnoquestion _
  rw [hcut] at hhier
  have hfollows : Follows [slash] (cut question (cut hash t).1).1 :=
    follows_cut (follows_cut ht hash) question
  obtain ⟨hwscheme, user, hhost'⟩ := parseHier_authority isIPv6
    (by rw [hu']; exact hscheme.ne_nil) (fun hmem => (hbytes _ hmem).1 rfl) hfollows hhier
  refine ⟨by rw [hvscheme, hwscheme, hu'], ?_⟩
  rw [hvhost]
  exact host_parseAuthority isIPv6 hhost'

/-! URLs that are parsed and resolved. -/

/-- A URL without a host or without an opaque part, with a scheme and a host that were parsed. -/
structure Proper (u : URL) : Prop where
  opaque_nil : u.Host ≠ [] → u.Opaque = []
  scheme : u.Scheme = [] ∨ ValidScheme u.Scheme
  host : HostShape u.Host

theorem hostShape_parseAuthority {user : Option Userinfo} {host : Text}
    (h : parseAuthority isIPv6 t = some (user, host)) : HostShape host := by
  rw [parseAuthority] at h
  split at h
  · obtain ⟨host', hhost, heq⟩ := Option.map_eq_some_iff.mp h
    cases heq
    exact hostShape_parseHost isIPv6 hhost
  · obtain ⟨host', hhost, h⟩ := Option.bind_eq_some_iff.mp h
    obtain ⟨user', -, h⟩ := Option.bind_eq_some_iff.mp h
    cases h
    exact hostShape_parseHost isIPv6 hhost

theorem Proper.of_same {u v : URL} (h : Proper u)
    (hsame : v.Scheme = u.Scheme ∧ v.Host = u.Host ∧ v.Opaque = u.Opaque) : Proper v := by
  obtain ⟨hscheme, hhost, hplain⟩ := hsame
  refine ⟨?_, ?_, ?_⟩
  · rw [hhost, hplain]
    exact h.opaque_nil
  · rw [hscheme]
    exact h.scheme
  · rw [hhost]
    exact h.host

theorem proper_parse {u : URL} (h : parse isIPv6 t = some u) : Proper u := by
  rw [parse] at h
  split at h
  · cases h
  · split at h
    · cases h
      exact ⟨fun _ => rfl, Or.inl rfl, hostShape_nil⟩
    · obtain ⟨⟨scheme, rest⟩, hget, h⟩ := Option.bind_eq_some_iff.mp h
      have hscheme := validScheme_getScheme hget
      have hhier : ∀ (u₀ w : URL) (rest : Text), u₀.Scheme = toLower scheme → u₀.Opaque = [] →
          u₀.Host = [] → parseHier isIPv6 u₀ rest = some w → Proper w := by
        intro u₀ w rest hu₀ hplain hhost hw
        rw [← hu₀] at hscheme
        rw [parseHier] at hw
        split at hw
        · obtain ⟨⟨user, host⟩, hauthority, hw⟩ := Option.bind_eq_some_iff.mp hw
          refine Proper.of_same ?_ (setPath_eq hw)
          exact ⟨fun _ => hplain, hscheme, hostShape_parseAuthority isIPv6 hauthority⟩
        · refine Proper.of_same ?_ (setPath_eq hw)
          exact ⟨fun _ => hplain, hscheme, hhost.symm ▸ hostShape_nil⟩
      simp only at h
      split at h
      · exact hhier _ _ _ rfl rfl rfl h
      · split at h
        · cases h
          exact ⟨fun hhost => absurd rfl hhost, hscheme, hostShape_nil⟩
        · split at h
          · cases h
          · exact hhier _ _ _ rfl rfl rfl h

theorem proper_Parse {u : URL} (h : Parse isIPv6 t = some u) : Proper u := by
  obtain ⟨w, hw, hsame⟩ := eq_of_Parse isIPv6 h
  exact (proper_parse isIPv6 hw).of_same hsame

theorem Proper.withPath {u : URL} (h : Proper u) (p : Text) : Proper (u.withPath p) :=
  h.of_same (withPath_eq u p)

theorem Proper.resolveReference {u ref : URL} (hu : Proper u) (href : Proper ref) :
    Proper (u.ResolveReference ref) := by
  have hscheme : (if ref.Scheme = [] then u.Scheme else ref.Scheme) = [] ∨
      ValidScheme (if ref.Scheme = [] then u.Scheme else ref.Scheme) := by
    split
    · exact hu.scheme
    · exact href.scheme
  rw [URL.ResolveReference]
  split
  · apply Proper.withPath
    exact ⟨href.opaque_nil, hscheme, href.host⟩
  · split
    · exact ⟨fun hne => absurd rfl hne, hscheme, hostShape_nil⟩
    · rename_i hplain
      have hplain := not_not.mp hplain
      simp only
      split
      · split
        · exact ⟨fun hne => absurd rfl hne, hscheme, hostShape_nil⟩
        · exact ⟨fun hne => absurd rfl hne, hscheme, hostShape_nil⟩
      · apply Proper.withPath
        split
        · exact ⟨fun _ => hplain, hscheme, hu.host⟩
        · exact ⟨fun _ => hplain, hscheme, hu.host⟩

end Parse

end GoUrl
