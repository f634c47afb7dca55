import Swazz.RunnerMessages

/-! Runner messages show of a URL no more than its scheme and its host, where no escape sequence
stands inside its scheme. -/
namespace Swazz.RunnerMessages

open TextRewriting
open RunnerAccess (js)
open License (jsSpace trim)

/-! ### Bodies of URLs -/

theorem mem_userinfo {authority : Text} {c : ℕ} :
    c ∈ userinfo authority ↔ ∃ pre post, authority = pre ++ 64 :: post ∧ c ∈ pre := by
  have concat (xs : Text) (x : ℕ) (pre post : Text) (h : xs ++ [x] = pre ++ 64 :: post) :
      (post = [] ∧ xs = pre ∧ x = 64) ∨ ∃ post', xs = pre ++ 64 :: post' := by
    rcases List.eq_nil_or_concat post with rfl | ⟨post, z, rfl⟩
    · obtain ⟨hx, h64⟩ := List.append_inj' h rfl
      exact Or.inl ⟨rfl, hx, (List.cons.inj h64).1⟩
    · rw [List.concat_eq_append, ← List.cons_append, ← List.append_assoc] at h
      exact Or.inr ⟨post, (List.append_inj' h rfl).1⟩
  rw [userinfo]
  induction authority using List.reverseRecOn with
  | nil => simp
  | append_singleton xs x ih =>
    by_cases hx : x = 64
    · rw [List.rdropWhile_concat_neg _ _ _ (by simpa using hx), List.dropLast_concat]
      constructor
      · intro hc
        exact ⟨xs, [], by rw [hx], hc⟩
      · rintro ⟨pre, post, h, hc⟩
        rcases concat xs x pre post h with ⟨-, rfl, -⟩ | ⟨post, rfl⟩
        · exact hc
        · exact List.mem_append_left _ hc
    · rw [List.rdropWhile_concat_pos _ _ _ (by simpa using hx)]
      refine ih.trans ⟨?_, ?_⟩
      · rintro ⟨pre, post, rfl, hc⟩
        exact ⟨pre, post ++ [x], List.append_assoc _ _ _, hc⟩
      · rintro ⟨pre, post, h, hc⟩
        rcases concat xs x pre post h with ⟨-, -, h64⟩ | ⟨post, rfl⟩
        · exact absurd h64 hx
        · exact ⟨pre, post, rfl, hc⟩

/-- A body that shows the host alone is an authority with no other userinfo than marks, and
marks. -/
theorem hostOnly_iff {body : Text} : HostOnly body ↔ ∃ authority rest, body = authority ++ rest ∧
    (∀ c ∈ authority, isAuthorityUnit c) ∧ (∀ c ∈ rest, c ∈ [47, 63, 35, mark]) ∧
    ∀ pre post, authority = pre ++ 64 :: post → ∀ c ∈ pre, c = mark := by
  constructor
  · rintro ⟨hu, hr⟩
    refine ⟨_, _, List.takeWhile_append_dropWhile.symm, ?_, hr, ?_⟩
    · intro c hc
      exact List.mem_takeWhile_imp hc
    · intro pre post h c hc
      exact hu c (mem_userinfo.mpr ⟨pre, post, h, hc⟩)
  · rintro ⟨authority, rest, rfl, ha, hr, hu⟩
    constructor
    · intro c hc
      rw [List.takeWhile_append_of_pos ha] at hc
      obtain ⟨pre, post, h, hc⟩ := mem_userinfo.mp hc
      -- no mark is an at sign, so the last one stands in the authority
      have hat : 64 ∉ rest.takeWhile isAuthorityUnit := by
        intro h64
        have := hr 64 ((List.takeWhile_prefix _).subset h64)
        simp [mark] at this
      rcases List.append_eq_append_iff.mp h with ⟨x, rfl, h'⟩ | ⟨x, h, h'⟩
      · rw [h'] at hat
        simp at hat
      · cases x with
        | nil =>
          rw [← show 64 :: post = rest.takeWhile isAuthorityUnit from h'] at hat
          simp at hat
        | cons d x =>
          obtain ⟨rfl, -⟩ := List.cons.inj h'
          exact hu pre x h c hc
    · intro c hc
      rw [List.dropWhile_append_of_pos ha] at hc
      exact hr c ((List.dropWhile_suffix _).subset hc)

theorem HostOnly.left {body b : Text} (h : HostOnly (body ++ b)) : HostOnly body := by
  obtain ⟨authority, rest, he, ha, hr, hu⟩ := hostOnly_iff.mp h
  rw [hostOnly_iff]
  rcases List.append_eq_append_iff.mp he with ⟨x, rfl, -⟩ | ⟨x, rfl, rfl⟩
  · refine ⟨body, [], by simp, fun c hc => ha c (List.mem_append_left _ hc), by simp, ?_⟩
    rintro pre post rfl c hc
    exact hu pre (post ++ x) (by simp) c hc
  · exact ⟨authority, x, rfl, ha, fun c hc => hr c (List.mem_append_left _ hc), hu⟩

theorem HostOnly.concat_mark {body : Text} (h : HostOnly body) : HostOnly (body ++ [mark]) := by
  obtain ⟨authority, rest, rfl, ha, hr, hu⟩ := hostOnly_iff.mp h
  refine hostOnly_iff.mpr ⟨authority, rest ++ [mark], by simp, ha, ?_, hu⟩
  intro c hc
  rcases List.mem_append.mp hc with hc | hc
  · exact hr c hc
  · rw [List.mem_singleton.mp hc]
    simp

/-! ### Parts of texts -/

section UrlsAre

variable {P : Text → Prop} {s t : Text}

theorem UrlsAre.part (h : UrlsAre P t) (hs : s <:+: t) : UrlsAre P s := by
  obtain ⟨x, y, rfl⟩ := hs
  rintro a c scheme body b rfl hu
  exact h (x ++ a) c scheme body (b ++ y) (by simp) hu

end UrlsAre

/-! ### `URL_IN_TEXT` -/

theorem colonSlashes_eq : colonSlashes = [58, 47, 47] := rfl

theorem isUrlUnit_of_scheme {c : ℕ} (h : isSchemeUnit c) : isUrlUnit c := by
  simp only [isSchemeUnit, isLetter, isDigit, Bool.or_eq_true, Bool.and_eq_true,
    decide_eq_true_eq] at h
  simp only [isUrlUnit, jsSpace, License.isSpace, Bool.and_eq_true, Bool.not_eq_true',
    Bool.or_eq_false_iff, Bool.and_eq_false_iff, decide_eq_true_eq, decide_eq_false_iff_not]
  omega

theorem isSchemeUnit_of_letter {c : ℕ} (h : isLetter c) : isSchemeUnit c := by
  simp [isSchemeUnit, h]

theorem IsUrl.all {c : ℕ} {scheme body : Text} (h : IsUrl c scheme body) :
    ∀ x ∈ url c scheme body, isUrlUnit x := by
  intro x hx
  rcases List.mem_cons.mp hx with rfl | hx
  · exact isUrlUnit_of_scheme (isSchemeUnit_of_letter h.letter)
  rcases List.mem_append.mp hx with hx | hx
  · exact isUrlUnit_of_scheme (h.units x hx)
  rcases List.mem_append.mp hx with hx | hx
  · exact (by decide : ∀ x ∈ colonSlashes, isUrlUnit x) x hx
  · exact h.body_units x hx

theorem urlInText_append {c : ℕ} {scheme : Text} (hc : isLetter c)
    (hs : ∀ x ∈ scheme, isSchemeUnit x) (s : Text) :
    urlInText (c :: (scheme ++ (colonSlashes ++ s))) =
      if s.takeWhile isUrlUnit ≠ [] then (url c scheme (s.takeWhile isUrlUnit)).length else 0 := by
  have ht : (scheme ++ (colonSlashes ++ s)).takeWhile isSchemeUnit = scheme := by
    rw [List.takeWhile_append_of_pos hs, colonSlashes_eq]
    exact List.append_nil scheme
  have hd : (scheme ++ (colonSlashes ++ s)).dropWhile isSchemeUnit = colonSlashes ++ s := by
    rw [List.dropWhile_append_of_pos hs, colonSlashes_eq]
    rfl
  have hp : colonSlashes.isPrefixOf (colonSlashes ++ s) = true :=
    List.isPrefixOf_iff_prefix.mpr (List.prefix_append _ _)
  have h3 : (colonSlashes ++ s).drop 3 = s := rfl
  simp only [urlInText, ht, hd, hp, h3, hc, Bool.true_and, decide_eq_true_eq, url,
    List.length_cons, List.length_append]
  split
  · rw [colonSlashes_eq]
    simp only [List.length_cons, List.length_nil]
    omega
  · rfl

theorem urlInText_ne_zero {c : ℕ} {scheme body : Text} (h : IsUrl c scheme body) (b : Text) :
    urlInText (url c scheme body ++ b) ≠ 0 := by
  have he : url c scheme body ++ b = c :: (scheme ++ (colonSlashes ++ (body ++ b))) := by
    simp [url]
  rw [he, urlInText_append h.letter h.units, if_pos]
  · simp [url]
  · rw [List.takeWhile_append_of_pos h.body_units]
    simp [h.nonempty]

theorem urlInText_spec {s : Text} (h : urlInText s ≠ 0) : ∃ c scheme body rest,
    IsUrl c scheme body ∧ s = url c scheme body ++ rest ∧ (∀ x ∈ rest.head?, ¬ isUrlUnit x) ∧
      urlInText s = (url c scheme body).length := by
  cases s with
  | nil => exact absurd rfl h
  | cons c s =>
    by_cases hm : isLetter c ∧ colonSlashes <+: s.dropWhile isSchemeUnit
    · obtain ⟨hc, s', hs'⟩ := hm
      have hs : s = s.takeWhile isSchemeUnit ++ (colonSlashes ++ s') := by
        rw [hs', List.takeWhile_append_dropWhile]
      have hunits : ∀ x ∈ s.takeWhile isSchemeUnit, isSchemeUnit x :=
        fun x hx => List.mem_takeWhile_imp hx
      rw [hs, urlInText_append hc hunits] at h ⊢
      have hb : s'.takeWhile isUrlUnit ≠ [] := by
        intro hb
        rw [if_neg (by simpa using hb)] at h
        exact h rfl
      rw [if_pos hb]
      refine ⟨c, s.takeWhile isSchemeUnit, s'.takeWhile isUrlUnit, s'.dropWhile isUrlUnit,
        ⟨hc, hunits, hb, fun x hx => List.mem_takeWhile_imp hx⟩, ?_, ?_, rfl⟩
      · simp [url]
      · intro x hx
        have := List.head?_dropWhile_not isUrlUnit s'
        rw [Option.mem_def] at hx
        rw [hx] at this
        simpa using this
    · refine absurd ?_ h
      rw [urlInText]
      refine if_neg ?_
      rw [Bool.and_eq_true, Bool.and_eq_true, List.isPrefixOf_iff_prefix]
      exact fun h => hm h.1

theorem urlInText_le (s : Text) : urlInText s ≤ s.length := by
  by_cases h : urlInText s = 0
  · rw [h]
    exact Nat.zero_le _
  · obtain ⟨c, scheme, body, rest, -, hs, -, hl⟩ := urlInText_spec h
    rw [hl, hs, List.length_append]
    exact Nat.le_add_right _ _

/-- A match is a URL with the longest body. -/
theorem hit_spec {w s : Text} (hw : w ≠ []) (h : urlInText (w ++ s) = w.length) :
    (∃ c scheme body, IsUrl c scheme body ∧ w = url c scheme body) ∧
      ∀ x ∈ s.head?, ¬ isUrlUnit x := by
  obtain ⟨c, scheme, body, rest, hu, hs, hr, hl⟩ : ∃ c scheme body rest, IsUrl c scheme body ∧
      w ++ s = url c scheme body ++ rest ∧ (∀ x ∈ rest.head?, ¬ isUrlUnit x) ∧
        urlInText (w ++ s) = (url c scheme body).length := by
    refine urlInText_spec ?_
    rw [h]
    simpa using hw
  obtain ⟨rfl, rfl⟩ := List.append_inj hs (h.symm.trans hl)
  exact ⟨⟨c, scheme, body, hu, rfl⟩, hr⟩

theorem UrlsAre.concat_mark {t : Text} (h : UrlsAre HostOnly t) :
    UrlsAre HostOnly (t ++ [mark]) := by
  intro a c scheme body b ht hu
  rcases List.eq_nil_or_concat b with rfl | ⟨b, z, rfl⟩
  · rcases List.eq_nil_or_concat body with rfl | ⟨body, z, rfl⟩
    · exact absurd rfl hu.nonempty
    · have ht' : t ++ [mark] = (a ++ url c scheme body) ++ [z] := by
        rw [ht]
        simp [url]
      obtain ⟨ht, hz⟩ := List.append_inj' ht' rfl
      rw [List.concat_eq_append, ← hz]
      by_cases hbody : body = []
      · subst hbody
        decide
      · have hu' : IsUrl c scheme body :=
          ⟨hu.letter, hu.units, hbody, fun x hx => hu.body_units x (by simp [hx])⟩
        exact (h a c scheme body [] (by rw [ht]; simp) hu').concat_mark
  · have ht' : t ++ [mark] = (a ++ (url c scheme body ++ b)) ++ [z] := by
      rw [ht]
      simp
    exact h a c scheme body b (List.append_inj' ht' rfl).1 hu

/-- Runs became blanks, and no URL has one. -/
theorem UrlsAre.foldRuns {p : ℕ → Bool} {P : Text → Prop} {t : Text} (h : UrlsAre P t) :
    UrlsAre P (foldRuns p t) := by
  have hscan : Scan (runOf p) t (pieces (runOf p) t) :=
    scan_pieces (fun s => (List.takeWhile_prefix p).length_le) t
  intro a c scheme body b ht hurl
  obtain ⟨l, r, hlr, -, hr⟩ := exists_split (f := fun _ => [32]) (fun _ => Nat.le_refl 1) ht
  rcases plains_or_hit hr with ⟨r', rfl, -⟩ | ⟨u₁, u₂, w, r', hu, hu₂, -, hr'⟩
  · rw [hlr] at hscan
    refine h (text l) c scheme body (text r') ?_ hurl
    rw [← hscan.text_eq]
    simp
  · have h32 : 32 ∈ url c scheme body := by
      rw [hu]
      cases u₂ with
      | nil => exact absurd rfl hu₂
      | cons x u₂ =>
        rw [← (List.cons.inj hr').1]
        simp
    exact absurd (hurl.all 32 h32) (by decide)

/-! ### Redacted URLs -/

/-- What is left of a URL: its host alone, and no escape sequence. -/
def Kept (body : Text) : Prop := HostOnly body ∧ escape ∉ body

section

variable {newURL : Text → Option Url}

theorem redactUrl_cons (h : ParsesUrls newURL) (raw : Text) :
    ∃ c t, redactUrl newURL raw = c :: t ∧ c ≠ 47 := by
  rw [redactUrl]
  cases hu : newURL raw with
  | none => exact ⟨40, js "URL)", rfl, by decide⟩
  | some u =>
    obtain ⟨c, scheme, hp, hc, -⟩ := h.protocol raw u hu
    have hne : c ≠ 47 := by
      rintro rfl
      exact absurd hc (by decide)
    simp only [hp]
    split
    · exact ⟨c, _, rfl, hne⟩
    · exact ⟨c, _, rfl, hne⟩

theorem kept_of_parts {user host rest : Text}
    (hhost : ∀ c ∈ host, isAuthorityUnit c ∧ c ≠ 64 ∧ ¬ isControl c)
    (huser : user = [mark, 64] ∨ user = []) (hrest : ∀ c ∈ rest, c ∈ [47, 63, 35, mark]) :
    Kept (user ++ host ++ rest) := by
  have h64 : 64 ∉ host := fun h => (hhost 64 h).2.1 rfl
  constructor
  · refine hostOnly_iff.mpr ⟨user ++ host, rest, rfl, ?_, hrest, ?_⟩
    · intro c hc
      rcases List.mem_append.mp hc with hc | hc
      · rcases huser with rfl | rfl
        · exact (by decide : ∀ c ∈ [mark, 64], isAuthorityUnit c) c hc
        · simp at hc
      · exact (hhost c hc).1
    · intro pre post hpre c hc
      rcases huser with rfl | rfl
      · -- the only at sign is that after the mark
        match pre, hpre, hc with
        | [d], hpre, hc =>
          rw [List.mem_singleton.mp hc]
          exact (List.cons.inj hpre).1.symm
        | _ :: _ :: pre, hpre, _ =>
          have hhost : host = pre ++ 64 :: post := (List.cons.inj (List.cons.inj hpre).2).2
          rw [hhost] at h64
          simp at h64
      · rw [show host = pre ++ 64 :: post from hpre] at h64
        simp at h64
  · intro hesc
    rcases List.mem_append.mp hesc with hesc | hesc
    · rcases List.mem_append.mp hesc with hesc | hesc
      · rcases huser with rfl | rfl
        · exact absurd hesc (by decide)
        · simp at hesc
      · exact (hhost _ hesc).2.2 (by decide)
    · exact absurd (hrest _ hesc) (by decide)

theorem shown_kept {raw : Text} {u : Url}
    (hhost : ∀ c ∈ u.host, isAuthorityUnit c ∧ c ≠ 64 ∧ ¬ isControl c) : Kept (shown raw u) := by
  refine kept_of_parts hhost ?_ ?_
  · split
    · exact Or.inl rfl
    · exact Or.inr rfl
  · intro x hx
    simp only [List.mem_append, List.mem_ite_nil_right] at hx
    rcases hx with (⟨-, hx⟩ | ⟨-, hx⟩) | ⟨-, hx⟩
    · exact (by decide : ∀ x ∈ [47, mark], x ∈ [47, 63, 35, mark]) x hx
    · exact (by decide : ∀ x ∈ [63, mark], x ∈ [47, 63, 35, mark]) x hx
    · exact (by decide : ∀ x ∈ [35, mark], x ∈ [47, 63, 35, mark]) x hx

theorem shown_count {raw : Text} {u : Url}
    (hhost : ∀ c ∈ u.host, isAuthorityUnit c ∧ c ≠ 64 ∧ ¬ isControl c) :
    (shown raw u).count 47 ≤ 1 := by
  have h47 : u.host.count 47 = 0 := by
    rw [List.count_eq_zero]
    intro h47
    exact absurd (hhost 47 h47).1 (by decide)
  simp only [shown, List.count_append, h47]
  split <;> split <;> split <;> split <;> decide

/-- A redacted URL has one slash at most after its scheme, or none at all. -/
theorem redactUrl_shape (h : ParsesUrls newURL) (raw : Text) :
    (∃ scheme shown, redactUrl newURL raw = scheme ++ (colonSlashes ++ shown) ∧
      (∀ x ∈ scheme, isSchemeUnit x) ∧ shown.count 47 ≤ 1 ∧ Kept shown) ∨
      47 ∉ redactUrl newURL raw := by
  rw [redactUrl]
  cases hu : newURL raw with
  | none => exact Or.inr (by decide : 47 ∉ js "(URL)")
  | some u =>
    obtain ⟨c, scheme, hp, hc, hs⟩ := h.protocol raw u hu
    have hscheme : ∀ x ∈ c :: scheme, isSchemeUnit x := by
      intro x hx
      rcases List.mem_cons.mp hx with rfl | hx
      · exact isSchemeUnit_of_letter hc
      · exact hs x hx
    have hhost := h.host raw u hu
    simp only [hp]
    split
    · refine Or.inr ?_
      intro h47
      simp only [List.mem_append, List.mem_singleton] at h47
      rcases h47 with (h47 | h47) | h47
      · exact absurd (hscheme 47 h47) (by decide)
      · exact absurd h47 (by decide)
      · exact absurd h47 (by decide)
    · refine Or.inl ⟨c :: scheme, shown raw u, ?_, hscheme, shown_count hhost, shown_kept hhost⟩
      exact (List.append_assoc (c :: scheme ++ [58]) (js "//") _).trans
        (List.append_assoc (c :: scheme) [58] _)

/-- What follows a redacted URL is no unit of one. -/
theorem head_not_url {s : Text} {ps : List (Piece ℕ)} {f : Text → Text} (h : Scan urlInText s ps)
    (hs : ∀ x ∈ s.head?, ¬ isUrlUnit x) : ∀ x ∈ (render f ps).head?, ¬ isUrlUnit x := by
  cases h with
  | nil => simp
  | plain none rest => simpa using hs
  | hit nonempty here rest =>
    obtain ⟨⟨c, scheme, body, hu, rfl⟩, -⟩ := hit_spec nonempty here
    have hc := hs c (by simp [url])
    exact absurd (isUrlUnit_of_scheme (isSchemeUnit_of_letter hu.letter)) hc

theorem split_slashes {x : ℕ} {y u : Text} (h : colonSlashes ++ [x] = y ++ u) (hu : u ≠ []) :
    y = [] ∨ u.head? = some 47 ∨ (y = colonSlashes ∧ u = [x]) := by
  rw [colonSlashes_eq] at h ⊢
  match y, h with
  | [], _ => exact Or.inl rfl
  | [_], h =>
    simp only [List.cons_append, List.nil_append, List.cons.injEq] at h
    exact Or.inr (Or.inl (by rw [← h.2]; rfl))
  | [_, _], h =>
    simp only [List.cons_append, List.nil_append, List.cons.injEq] at h
    exact Or.inr (Or.inl (by rw [← h.2.2]; rfl))
  | [_, _, _], h =>
    simp only [List.cons_append, List.nil_append, List.cons.injEq] at h
    obtain ⟨rfl, rfl, rfl, rfl⟩ := h
    exact Or.inr (Or.inr ⟨rfl, rfl⟩)
  | _ :: _ :: _ :: _ :: y, h =>
    have := congrArg List.length h
    simp at this
    exact absurd this.2 hu

/-- Where a scheme could go on in the result, it could go on in the text it came from. -/
theorem source_of_result (h : ParsesUrls newURL) {s : Text} {ps : List (Piece ℕ)}
    (hscan : Scan urlInText s ps) {mid : Text} {x : ℕ} {b : Text}
    (hmid : ∀ y ∈ mid, isSchemeUnit y) (hx : isUrlUnit x)
    (hr : render (redactUrl newURL) ps = mid ++ (colonSlashes ++ x :: b)) :
    ∃ mid' x' b', s = mid' ++ (colonSlashes ++ x' :: b') ∧ (∀ y ∈ mid', isSchemeUnit y) ∧
      isUrlUnit x' := by
  have hr' : render (redactUrl newURL) ps = (mid ++ (colonSlashes ++ [x])) ++ b := by
    rw [hr]
    simp
  rcases plains_or_hit hr' with ⟨r, rfl, -⟩ | ⟨u₁, u₂, w, r, hu, hu₂, rfl, hw⟩
  · refine ⟨mid, x, text r, ?_, hmid, hx⟩
    rw [← hscan.text_eq]
    simp
  · have hs : s = u₁ ++ (w ++ text r) := by
      rw [← hscan.text_eq]
      simp
    -- the first match stands before the end of `://`
    obtain ⟨c, scheme, body, hurl, rfl⟩ : ∃ c scheme body, IsUrl c scheme body ∧
        w = url c scheme body := by
      obtain ⟨nonempty, here⟩ := hscan.tail.hit_here
      exact (hit_spec nonempty here).1
    have h47 : u₂.head? ≠ some 47 := by
      obtain ⟨d, t, hd, hne⟩ := redactUrl_cons h (url c scheme body)
      cases u₂ with
      | nil => exact absurd rfl hu₂
      | cons e u₂ =>
        rw [hd] at hw
        intro he
        rw [← (List.cons.inj hw).1, List.head?_cons, Option.some.injEq] at he
        exact hne he
    obtain ⟨d, body, rfl⟩ := List.exists_cons_of_ne_nil hurl.nonempty
    have inScheme (hu₁ : ∀ y ∈ u₁, isSchemeUnit y) : ∃ mid' x' b',
        s = mid' ++ (colonSlashes ++ x' :: b') ∧ (∀ y ∈ mid', isSchemeUnit y) ∧ isUrlUnit x' := by
      refine ⟨u₁ ++ c :: scheme, d, body ++ text r, by rw [hs]; simp [url], ?_,
        hurl.body_units d (by simp)⟩
      intro y hy
      rcases List.mem_append.mp hy with hy | hy
      · exact hu₁ y hy
      rcases List.mem_cons.mp hy with rfl | hy
      · exact isSchemeUnit_of_letter hurl.letter
      · exact hurl.units y hy
    rcases List.append_eq_append_iff.mp hu with ⟨y, rfl, hy⟩ | ⟨y, rfl, hy⟩
    · -- between the slashes of the result no redacted URL begins
      rcases split_slashes hy hu₂ with rfl | hy | ⟨rfl, -⟩
      · exact inScheme (by simpa using hmid)
      · exact absurd hy h47
      · exact ⟨mid, c, scheme ++ (colonSlashes ++ d :: body) ++ text r, by rw [hs]; simp [url],
          hmid, isUrlUnit_of_scheme (isSchemeUnit_of_letter hurl.letter)⟩
    · exact inScheme fun y hy => hmid y (List.mem_append_left _ hy)

/-- Where one `://` follows a scheme and the rest has one slash at most, another scheme ends with
it. -/
theorem scheme_unique {scheme a : Text} {shown rest tail : Text} {c : ℕ}
    (hs : ∀ x ∈ scheme, isSchemeUnit x) (hone : shown.count 47 ≤ 1) (hc : isLetter c)
    (htail : ∀ x ∈ tail, isSchemeUnit x)
    (h : a ++ (c :: tail ++ (colonSlashes ++ rest)) = scheme ++ (colonSlashes ++ shown)) :
    rest = shown := by
  rw [← List.append_assoc] at h
  rcases List.append_eq_append_iff.mp h with ⟨y, hy, h'⟩ | ⟨y, hy, h'⟩
  · -- the other scheme ends first, so that its colon would be in this one
    cases y with
    | nil => exact List.append_cancel_left h'
    | cons x y =>
      obtain ⟨rfl, -⟩ := List.cons.inj (colonSlashes_eq ▸ h' : [58, 47, 47] ++ rest = _)
      exact absurd (hs 58 (by rw [hy]; simp)) (by decide)
  · have hlast : ∀ x ∈ y.getLast?, isSchemeUnit x := by
      intro x hx
      have hx' : (a ++ c :: tail).getLast? = some x := by
        rw [hy, List.getLast?_append, Option.mem_def.mp hx]
        rfl
      obtain ⟨z, hz⟩ : ∃ z, (c :: tail).getLast? = some z := ⟨_, List.getLast?_cons⟩
      rw [List.getLast?_append, hz, Option.some_or, Option.some.injEq] at hx'
      rw [← hx']
      rcases List.mem_cons.mp (List.mem_of_getLast? hz) with rfl | hmem
      · exact isSchemeUnit_of_letter hc
      · exact htail z hmem
    match y, h', hlast with
    | [], h', _ => exact (List.append_cancel_left h').symm
    | [x], h', hlast =>
      have hx : x = 58 := (List.cons.inj h').1.symm
      exact absurd (hlast x rfl) (by rw [hx]; decide)
    | [_, x], h', hlast =>
      have hx : x = 47 := (List.cons.inj (List.cons.inj h').2).1.symm
      exact absurd (hlast x rfl) (by rw [hx]; decide)
    | _ :: _ :: _ :: y, h', _ =>
      -- these are the three units of `://`, and two slashes are still to come
      have hshown : shown = y ++ (colonSlashes ++ rest) :=
        (List.cons.inj (List.cons.inj (List.cons.inj h').2).2).2
      have htwo : colonSlashes.count 47 = 2 := by decide
      rw [hshown, List.count_append, List.count_append, htwo] at hone
      omega

/-- After the redaction the URLs of the text are those that it left. -/
theorem redactUrls_kept (h : ParsesUrls newURL) (s : Text) :
    UrlsAre Kept (redactUrls newURL s) := by
  have hscan := scan_pieces urlInText_le s
  rw [redactUrls, replaceAll]
  generalize pieces urlInText s = ps at hscan ⊢
  induction hscan with
  | nil =>
    intro a c scheme body b ht
    simp [url] at ht
  | @plain d s ps none rest ih =>
    intro a c scheme body b ht hu
    cases a with
    | cons e a =>
      rw [render_plain, List.cons_append, List.cons.injEq] at ht
      exact ih a c scheme body b ht.2 hu
    | nil =>
      rw [render_plain, List.nil_append, url, List.cons_append, List.cons.injEq] at ht
      obtain ⟨rfl, ht⟩ := ht
      obtain ⟨x, body, rfl⟩ := List.exists_cons_of_ne_nil hu.nonempty
      obtain ⟨mid, x', b', rfl, hmid, hx'⟩ := source_of_result h rest hu.units
        (hu.body_units x (by simp)) (b := body ++ b) (by rw [ht]; simp)
      have hurl : IsUrl d mid [x'] := ⟨hu.letter, hmid, by simp, by simpa using hx'⟩
      refine absurd none ?_
      simpa [url] using urlInText_ne_zero hurl b'
  | @hit w s ps nonempty here rest ih =>
    intro a c scheme body b ht hu
    obtain ⟨-, hnext⟩ := hit_spec nonempty here
    rw [render_hit] at ht
    rcases List.append_eq_append_iff.mp ht with ⟨y, rfl, hy⟩ | ⟨y, hF, hy⟩
    · exact ih y c scheme body b hy hu
    -- the URL begins in the redacted one, and ends there too
    obtain ⟨z, rfl⟩ : ∃ z, y = url c scheme body ++ z := by
      rcases List.append_eq_append_iff.mp hy with ⟨z, hz, -⟩ | ⟨z, hz, hr⟩
      · exact ⟨z, hz⟩
      · cases z with
        | nil => exact ⟨[], by rw [hz]; simp⟩
        | cons x z =>
          refine absurd (hu.all x (by rw [hz]; simp)) ?_
          exact head_not_url rest hnext x (by rw [hr]; rfl)
    rcases redactUrl_shape h w with ⟨scheme', shown, hF', hs', hone, hkept⟩ | hno
    · rw [hF] at hF'
      have he : a ++ (c :: scheme ++ (colonSlashes ++ (body ++ z))) =
          scheme' ++ (colonSlashes ++ shown) := by
        rw [← hF']
        simp [url]
      have hbody := scheme_unique hs' hone hu.letter hu.units he
      rw [← hbody] at hkept
      exact ⟨hkept.1.left, fun hesc => hkept.2 (List.mem_append_left _ hesc)⟩
    · refine absurd ?_ hno
      rw [hF]
      simp [url, colonSlashes_eq]

end

/-! ### Escape sequences -/

theorem ansiEscape_ne_zero {s : Text} (h : ansiEscape s ≠ 0) : s.head? = some escape := by
  rw [ansiEscape] at h
  split at h
  · rename_i hp
    obtain ⟨t, rfl⟩ := List.isPrefixOf_iff_prefix.mp hp
    rfl
  · exact absurd rfl h

theorem ansiEscape_le (s : Text) : ansiEscape s ≤ s.length := by
  rw [ansiEscape]
  split
  · rename_i hp
    obtain ⟨t, rfl⟩ := List.isPrefixOf_iff_prefix.mp hp
    rw [show ([escape, 91] ++ t).drop 2 = t from rfl]
    simp only
    split
    · rename_i hfinal
      have h1 := congrArg List.length
        (List.takeWhile_append_dropWhile (p := isAnsiParameter) (l := t))
      have h2 := congrArg List.length (List.takeWhile_append_dropWhile (p := isAnsiIntermediate)
        (l := t.dropWhile isAnsiParameter))
      have h3 : ((t.dropWhile isAnsiParameter).dropWhile isAnsiIntermediate).length ≠ 0 := by
        intro h0
        rw [List.length_eq_zero_iff.mp h0] at hfinal
        exact absurd hfinal (by decide)
      simp only [List.length_append, List.length_cons, List.length_nil] at h1 h2 ⊢
      omega
    · exact Nat.zero_le _
  · exact Nat.zero_le _

theorem scan_escapes (t : Text) : Scan ansiEscape t (pieces ansiEscape t) :=
  scan_pieces ansiEscape_le t

/-- Escape sequences taken out of a redacted text leave the URLs redacted, unless the parts of a
scheme and `://` come together. -/
theorem removeEscapes_iff {t : Text} (h : UrlsAre Kept t) :
    Redacted (removeEscapes t) ↔ Unsplit t := by
  have hscan := scan_escapes t
  constructor
  · intro hred l w r hps a c u v scheme body b hl hr hv huv hurl
    refine hred a c scheme body b ?_ hurl
    have huv' : u ++ (v ++ (body ++ b)) = scheme ++ (colonSlashes ++ (body ++ b)) := by
      rw [← List.append_assoc, huv, List.append_assoc]
    rw [removeEscapes, replaceAll, hps, render_append, render_hit]
    change kept l ++ kept r = _
    rw [hl, hr, List.append_assoc, List.cons_append, huv']
    simp [url]
  · intro hun a c scheme body b ht hurl
    have ht' : removeEscapes t = a ++ c :: ((scheme ++ colonSlashes) ++ (body ++ b)) := by
      rw [ht]
      simp [url]
    obtain ⟨l, r, hps, hl, hr⟩ := exists_plain ht'
    rw [hps] at hscan
    rcases plains_or_hit hr with ⟨r', rfl, hr'⟩ | ⟨u, v, w, r', huv, hv, rfl, hr'⟩
    · -- the scheme and `://` stood together already, so nothing was taken out of the body
      have htext (ps : List (Piece ℕ)) (hr'' : r' = ps) : t =
          text l ++ c :: (scheme ++ (colonSlashes ++ text ps)) := by
        rw [← hscan.text_eq, hr'']
        simp
      rcases plains_or_hit hr' with ⟨r'', hr'', -⟩ | ⟨u, v, w, r'', rfl, -, hr'', -⟩
      · refine (h (text l) c scheme body (text r'') ?_ hurl).1
        rw [htext _ hr'']
        simp [url]
      · rw [hr''] at hscan
        have hw : w.head? = some escape := by
          have hscan' : Scan ansiEscape t ((l ++ .plain c ::
              ((scheme ++ colonSlashes).map Piece.plain ++ u.map Piece.plain)) ++
                .hit w :: r'') := by
            simpa using hscan
          obtain ⟨hne, hw⟩ := hscan'.tail.hit_here
          have := ansiEscape_ne_zero (s := w ++ text r'') (by rw [hw]; simpa using hne)
          rwa [List.head?_append_of_ne_nil _ hne] at this
        obtain ⟨w', rfl⟩ : ∃ w', w = escape :: w' := by
          cases w with
          | nil => simp at hw
          | cons x w => exact ⟨w, by simpa using hw⟩
        refine absurd ?_ (h (text l) c scheme (u ++ [escape]) (w' ++ text r'') ?_
          ⟨hurl.letter, hurl.units, by simp, ?_⟩).2
        · simp
        · rw [htext _ hr'']
          simp [url]
        · intro x hx
          rcases List.mem_append.mp hx with hx | hx
          · exact hurl.body_units x (List.mem_append_left _ hx)
          · rw [List.mem_singleton.mp hx]
            decide
    · refine hun (l ++ .plain c :: u.map Piece.plain) w r' ?_ a c u v scheme body b ?_ hr' hv
        huv.symm hurl
      · rw [hps]
        simp
      · rw [kept, render_append, render_plain, render_plains]
        rw [hl]

/-! ### Line breaks and runs -/

theorem urlInText_stop (s b : Text) : urlInText (s ++ 10 :: b) = urlInText s := by
  cases s with
  | nil => rfl
  | cons c s =>
    have ht := takeWhile_append_stop s b (p := isSchemeUnit) (c := 10) (by decide)
    have hd := dropWhile_append_stop s b (p := isSchemeUnit) (c := 10) (by decide)
    have hp := isPrefixOf_append_stop (s.dropWhile isSchemeUnit) b (c := 10) (w := colonSlashes)
      (by decide)
    simp only [List.cons_append, urlInText, ht, hd, hp]
    by_cases hpre : colonSlashes.isPrefixOf (s.dropWhile isSchemeUnit)
    · obtain ⟨s', hs'⟩ := List.isPrefixOf_iff_prefix.mp hpre
      have h3 (x : Text) : (colonSlashes ++ x).drop 3 = x := rfl
      rw [← hs', List.append_assoc, h3, h3, takeWhile_append_stop s' b (by decide)]
    · simp only [hpre, Bool.and_false, Bool.false_and]
      rfl

theorem ansiEscape_stop (s b : Text) : ansiEscape (s ++ 10 :: b) = ansiEscape s := by
  have hp := isPrefixOf_append_stop s b (c := 10) (w := [escape, 91]) (by decide)
  simp only [ansiEscape, hp]
  by_cases hpre : [escape, 91].isPrefixOf s
  · obtain ⟨t, rfl⟩ := List.isPrefixOf_iff_prefix.mp hpre
    have h2 (x : Text) : ([escape, 91] ++ x).drop 2 = x := rfl
    rw [List.append_assoc, h2, h2, takeWhile_append_stop t b (by decide),
      dropWhile_append_stop t b (by decide), takeWhile_append_stop _ b (by decide),
      dropWhile_append_stop _ b (by decide)]
    cases (t.dropWhile isAnsiParameter).dropWhile isAnsiIntermediate with
    | nil => rfl
    | cons x _ => rfl
  · simp only [hpre]
    rfl

theorem removeEscapes_redactUrls_append (newURL : Text → Option Url) (a b : Text) :
    removeEscapes (redactUrls newURL (a ++ 10 :: b)) =
      removeEscapes (redactUrls newURL a) ++ 10 :: removeEscapes (redactUrls newURL b) := by
  rw [redactUrls, replaceAll_append urlInText_le (fun s => urlInText_stop s b) rfl]
  exact replaceAll_append ansiEscape_le (fun s => ansiEscape_stop s _) rfl

/-- A trace is cut off at a line break, or with all of the text. -/
theorem cutTrace_spec (text : Text) :
    cutTrace text = [] ∨ cutTrace text = text ∨ ∃ b, text = cutTrace text ++ 10 :: b := by
  have before (t : Text) : beforeTrace t = t ∨ ∃ b, t = beforeTrace t ++ 10 :: b := by
    induction t with
    | nil => exact Or.inl rfl
    | cons c t ih =>
      rw [beforeTrace]
      split
      · rename_i h
        rw [Bool.and_eq_true, decide_eq_true_eq] at h
        exact Or.inr ⟨t, by rw [h.1]; rfl⟩
      · rcases ih with ih | ⟨b, ih⟩
        · exact Or.inl (by rw [ih])
        · exact Or.inr ⟨b, by rw [List.cons_append, ← ih]⟩
  rw [cutTrace]
  split
  · exact Or.inl rfl
  · exact Or.inr (before text)

theorem mem_foldRuns {p : ℕ → Bool} {t : Text} {c : ℕ} (h : c ∈ foldRuns p t) :
    c = 32 ∨ (c ∈ t ∧ ¬ p c) := by
  have hscan : Scan (runOf p) t (pieces (runOf p) t) :=
    scan_pieces (fun s => (List.takeWhile_prefix p).length_le) t
  rw [foldRuns, replaceAll] at h
  generalize pieces (runOf p) t = ps at hscan h
  induction hscan with
  | nil => simp at h
  | @plain d s ps none _ ih =>
    rw [render_plain, List.mem_cons] at h
    rcases h with rfl | h
    · refine Or.inr ⟨by simp, ?_⟩
      intro hc
      rw [runOf, List.takeWhile_cons_of_pos hc] at none
      exact absurd none (by simp)
    · exact (ih h).imp_right (And.imp_left (List.mem_cons_of_mem _))
  | hit _ _ _ ih =>
    rw [render_hit, List.singleton_append, List.mem_cons] at h
    rcases h with rfl | h
    · exact Or.inl rfl
    · exact (ih h).imp_right (And.imp_left (List.mem_append_right _))

section

variable {newURL : Text → Option Url}

theorem oneLine_printable (text : Text) : ∀ c ∈ oneLine newURL text, ¬ isControl c := by
  intro c hc
  have hc' := (List.dropWhile_suffix _).subset ((List.rdropWhile_prefix _ _).subset hc)
  rcases mem_foldRuns hc' with rfl | ⟨hc', -⟩
  · decide
  rcases mem_foldRuns hc' with rfl | ⟨-, h⟩
  · decide
  · exact h

theorem oneLine_redacted {s : Text} (h : Redacted (removeEscapes (redactUrls newURL s))) :
    Redacted (oneLine newURL s) := by
  have hcut : Redacted (removeEscapes (redactUrls newURL (cutTrace s))) := by
    rcases cutTrace_spec s with he | he | ⟨b, he⟩
    · rw [he]
      intro a c scheme body b hb
      have : ([] : Text) = _ := hb
      simp [url] at this
    · rwa [he]
    · rw [he, removeEscapes_redactUrls_append] at h
      exact h.part (List.prefix_append _ _).isInfix
  have htrim (t : Text) : trim jsSpace t <:+: t :=
    (List.rdropWhile_prefix _ _).isInfix.trans (List.dropWhile_suffix _).isInfix
  exact (hcut.foldRuns.foldRuns).part (htrim _)

theorem sliceTo_start (text : Text) (stop : ℤ) : sliceTo text stop <+: text :=
  List.take_prefix _ _

theorem redactRunnerLogText_str (newURL : Text → Option Url) (s : Text) (max : ℤ) :
    ∃ t, t <+: removeEscapes (redactUrls newURL s) ∧
      (redactRunnerLogText newURL (.str s) max = t ∨
        redactRunnerLogText newURL (.str s) max = t ++ [mark]) := by
  rw [redactRunnerLogText]
  by_cases hmax : max < (removeEscapes (redactUrls newURL s)).length
  · exact ⟨_, sliceTo_start _ _, Or.inr (if_pos hmax)⟩
  · exact ⟨_, List.prefix_refl _, Or.inl (if_neg hmax)⟩

theorem sanitizeRunnerText_str (newURL : Text → Option Url) (s : Text) (max : ℤ) :
    ∃ t, t <+: oneLine newURL s ∧
      (sanitizeRunnerText newURL (.str s) max = t ∨
        sanitizeRunnerText newURL (.str s) max = t ++ [mark]) := by
  rw [sanitizeRunnerText, Raw.text]
  by_cases hmax : max < (oneLine newURL s).length
  · exact ⟨_, (List.rdropWhile_prefix _ _).trans (sliceTo_start _ _), Or.inr (if_pos hmax)⟩
  · exact ⟨_, List.prefix_refl _, Or.inl (if_neg hmax)⟩

theorem Redacted.cut {text t out : Text} (h : Redacted text) (ht : t <+: text)
    (hout : out = t ∨ out = t ++ [mark]) : Redacted out := by
  have h' : Redacted t := h.part ht.isInfix
  rcases hout with rfl | rfl
  · exact h'
  · exact h'.concat_mark

theorem sanitizeRunnerText_length (raw : Raw) {max : ℤ} (hmax : 1 ≤ max) :
    (sanitizeRunnerText newURL raw max).length ≤ max := by
  rw [sanitizeRunnerText]
  by_cases hlong : max < (oneLine newURL raw.text).length
  · rw [if_pos hlong]
    have h₁ : (sliceTo (oneLine newURL raw.text) (max - 1)).length ≤ (max - 1).toNat := by
      rw [sliceTo, if_neg (by omega)]
      exact List.length_take_le _ _
    have h₂ := (List.rdropWhile_prefix jsSpace
      (sliceTo (oneLine newURL raw.text) (max - 1))).length_le
    rw [trimEnd, List.length_append, List.length_singleton]
    omega
  · rw [if_neg hlong]
    omega

theorem sanitizeRunnerText_printable (s : Text) (max : ℤ) :
    ∀ c ∈ sanitizeRunnerText newURL (.str s) max, ¬ isControl c := by
  obtain ⟨t, ht, hout⟩ := sanitizeRunnerText_str newURL s max
  have h : ∀ c ∈ t, ¬ isControl c := fun c hc => oneLine_printable s c (ht.subset hc)
  intro c hc
  rcases hout with hout | hout
  · rw [hout] at hc
    exact h c hc
  · rw [hout] at hc
    rcases List.mem_append.mp hc with hc | hc
    · exact h c hc
    · rw [List.mem_singleton.mp hc]
      decide

variable (newURL)

/-- Users are shown no more of the URLs in a string than scheme and host, however long it may be,
exactly where no escape sequence stands inside the scheme of a URL with more than that. -/
theorem showsHostsOnly_iff (h : ParsesUrls newURL) (s : Text) :
    ShowsHostsOnly newURL s ↔ Unsplit (redactUrls newURL s) := by
  rw [← removeEscapes_iff (redactUrls_kept h s)]
  constructor
  · intro hs
    have := hs.log (removeEscapes (redactUrls newURL s)).length
    rwa [redactRunnerLogText, if_neg (lt_irrefl _)] at this
  · intro hs
    refine ⟨fun max => ?_, fun max => ?_, sanitizeRunnerText_printable s, fun max i => ?_,
      fun max => sanitizeRunnerText_length _⟩
    · obtain ⟨t, ht, hout⟩ := redactRunnerLogText_str newURL s max
      exact hs.cut ht hout
    · obtain ⟨t, ht, hout⟩ := sanitizeRunnerText_str newURL s max
      exact (oneLine_redacted hs).cut ht hout
    · by_contra hne
      have hmem := (List.drop_suffix i _).subset (List.mem_of_head? (ansiEscape_ne_zero hne))
      exact sanitizeRunnerText_printable s max escape hmem (by decide)

end

/-- The URLs that the example below needs. -/
def exampleURL (raw : Text) : Option Url :=
  if raw = js "https://u:p@h.example/a?k=v" then
    some ⟨js "https:", js "u", js "p", js "h.example", js "/a", js "?k=v", []⟩
  else none

theorem exampleURL_parses : ParsesUrls exampleURL := by
  constructor
  · intro raw u hu
    rw [exampleURL] at hu
    split at hu
    · obtain rfl := Option.some.inj hu
      exact ⟨104, js "ttps", rfl, rfl, by decide⟩
    · cases hu
  · intro raw u hu
    rw [exampleURL] at hu
    split at hu
    · obtain rfl := Option.some.inj hu
      exact (by decide : ∀ c ∈ js "h.example", isAuthorityUnit c ∧ c ≠ 64 ∧ ¬ isControl c)
    · cases hu

/-- A colored line with a URL. -/
theorem colored_showsHostsOnly :
    ShowsHostsOnly exampleURL (js "\x1b[31mGet https://u:p@h.example/a?k=v failed") := by
  refine (showsHostsOnly_iff exampleURL exampleURL_parses _).mpr ?_
  intro l w r hps a c u v scheme body b hl _ _ _ _
  have hpieces : pieces ansiEscape (redactUrls exampleURL
      (js "\x1b[31mGet https://u:p@h.example/a?k=v failed")) = .hit (js "\x1b[31m") ::
        (js "Get https://…@h.example/…?… failed").map Piece.plain := by decide
  rw [hpieces] at hps
  cases l with
  | nil => simp [kept] at hl
  | cons p l =>
    have hmem : .hit w ∈ (js "Get https://…@h.example/…?… failed").map Piece.plain := by
      rw [(List.cons.inj hps).2]
      simp
    simp at hmem

/-- A color inside a scheme: the URL is whole again once the sequence is taken out. -/
theorem color_in_scheme_shows : ¬ ShowsHostsOnly (fun _ => none)
    (js "https:\x1b[0m//user:pw@host/secret") := by
  intro h
  have hlog : redactRunnerLogText (fun _ => none) (.str (js "https:\x1b[0m//user:pw@host/secret"))
      MAX_RUNNER_LOG_LENGTH = [] ++ (url 104 (js "ttps") (js "user:pw@host/secret") ++ []) := by
    decide
  have := h.log MAX_RUNNER_LOG_LENGTH [] 104 (js "ttps") (js "user:pw@host/secret") [] hlog
    ⟨rfl, by decide, by decide, by decide⟩
  exact absurd this (by decide)

end Swazz.RunnerMessages
