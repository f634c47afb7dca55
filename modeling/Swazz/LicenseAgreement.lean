import Swazz.LicenseText

/-! Where the edge and the runner read a license text the same way. -/
namespace Swazz.License

open RunnerAccess UnicodeCase

variable {w : World}

inductive Verdict where
  | accepted
  | expired
  | rejected
  deriving DecidableEq

def edgeVerdict : Except LicenseError LicenseInfo → Verdict
  | .ok _ => .accepted
  | .error .licenseExpired => .expired
  | .error _ => .rejected

def goVerdict : Option GoLicense × Option LicenseError → Verdict
  | (_, none) => .accepted
  | (_, some .licenseExpired) => .expired
  | (_, some _) => .rejected

/-- The two verifiers agree on a text at a time, and on a feature. -/
structure Agree (w : World) (tokenStr : JsString) (now : ℤ) (feature : String) : Prop where
  verdict : edgeVerdict (w.verifyToken tokenStr now false) = goVerdict (w.VerifyToken tokenStr now)
  readings : ∀ info lic, w.verifyToken tokenStr now false = .ok info →
    w.VerifyToken tokenStr now = (some lic, none) →
      w.hasFeatureIn info (js feature) = lic.HasFeature now (js feature) ∧
        (info.kind = .trial ↔ lic.IsTrial = true) ∧
        info.max_concurrency = lic.ConcurrencyCeiling now

/-! ### The condition -/

/-- `new Date` reads the date, or there is none to read. -/
def World.EdgeReads (w : World) (p : Payload) : Prop :=
  p.expires_at = .other [] ∨ (w.readDate p.expires_at).isSome = true

/-- The date is in RFC 3339, and the limits are whole numbers of 64 bits. -/
def GoReads (p : Payload) : Prop :=
  (∃ instant, p.expires_at = .rfc3339 instant) ∧
    (decodeInt p.max_users).isSome = true ∧ (decodeInt p.max_concurrency).isSome = true

/-- At `now`, the date is past or not to both: the zero time is none, and milliseconds do not
tell apart what nanoseconds do. -/
def SameExpiry (p : Payload) (now : ℤ) : Prop :=
  ∀ instant, p.expires_at = .rfc3339 instant →
    (milliseconds instant < milliseconds now ↔ instant ≠ zeroTime ∧ instant < now)

def Expired (p : Payload) (now : ℤ) : Prop :=
  ∀ instant, p.expires_at = .rfc3339 instant → instant ≠ zeroTime ∧ instant < now

/-- A kind that is none of the two goes with a company that is no trial by its name. -/
def SameKind (p : Payload) : Prop :=
  ∀ kind, p.kind = some kind → kind ≠ [] → kind ≠ js "trial" → kind ≠ js "commercial" →
    isLegacyTrialCompany p.company = false

def Payload.featureList (p : Payload) : List JsString := p.features.getD []

def Wildcard (p : Payload) : Prop :=
  ∃ f ∈ p.featureList, goLower (goString f) = js "*" ∨ goLower (goString f) = js "all"

/-- The feature is among those listed in the lower case of both languages, or in none. -/
def World.SameCase (w : World) (p : Payload) (feature : JsString) : Prop :=
  (∃ f ∈ p.featureList, w.lower f = w.lower feature) ↔
    ∃ f ∈ p.featureList, goLower (goString f) = goLower feature

/-- There is a limit of its own. -/
def Limited (p : Payload) : Prop := ∃ n, decodeInt p.max_concurrency = some n ∧ 0 < n

/-- What makes the two verifiers agree. -/
structure ReadAlike (w : World) (tokenStr : JsString) (now : ℤ) (feature : String) : Prop where
  readable : (w.Shows (edgeText tokenStr) base64UrlDecode ∧ w.EdgeReads w.token.payload) ↔
    (w.Shows (goText tokenStr) base64Decode ∧ GoReads w.token.payload)
  expiry : w.Shows (goText tokenStr) base64Decode → GoReads w.token.payload →
    SameExpiry w.token.payload now
  readings : w.Shows (goText tokenStr) base64Decode → GoReads w.token.payload →
    ¬Expired w.token.payload now → SameKind w.token.payload ∧
      (Wildcard w.token.payload ∨ w.SameCase w.token.payload (js feature)) ∧
      (Limited w.token.payload ∨ Wildcard w.token.payload ∨
        w.SameCase w.token.payload (js "unlimited_scans"))

/-! ### Lower case -/

/-- Text that both languages put in lower case alike. -/
def Plain (s : JsString) : Prop := ∀ c ∈ s, c ≠ 0x130 ∧ c ≠ 0x3A3 ∧ goRune c = c

theorem lower_of_ne {c : ℕ} (h : c ≠ 0x130) : lower c = [mapped lowerRuns c] := by
  have hlookup : lowerSeveral.lookup c = none := by
    simp only [lowerSeveral, List.lookup_cons]
    split
    · rename_i heq
      exact absurd (beq_iff_eq.mp heq) h
    · rfl
  rw [lower, hlookup]
  rfl

theorem toLowerCase_of_no_sigma {isFinal : JsString → ℕ → Bool} {s : JsString}
    (h : ∀ c ∈ s, c ≠ 0x3A3) : toLowerCase isFinal s = s.flatMap lower := by
  have hbody : ∀ p ∈ s.zipIdx,
      (if p.1 = 0x3A3 ∧ isFinal s p.2 then [0x3C2] else lower p.1) = lower p.1 := by
    intro p hp
    rw [if_neg fun hsigma => h p.1 (List.fst_mem_of_mem_zipIdx hp) hsigma.1]
  calc toLowerCase isFinal s = s.zipIdx.flatMap fun p => lower p.1 :=
        List.flatMap_congr hbody
    _ = (s.zipIdx.map Prod.fst).flatMap lower := (List.flatMap_map ..).symm
    _ = s.flatMap lower := by rw [List.zipIdx_map_fst]

theorem lower_plain {s : JsString} (h : Plain s) : w.lower s = goLower (goString s) := by
  have hgo : goString s = s := by
    refine (List.map_congr_left fun c hc => (h c hc).2.2).trans ?_
    simp
  rw [hgo, World.lower, toLowerCase_of_no_sigma fun c hc => (h c hc).2.1, goLower]
  rw [List.map_eq_flatMap]
  refine List.flatMap_congr fun c hc => ?_
  rw [lower_of_ne (h c hc).1, if_neg (h c hc).1]

theorem exists_mem_zipIdx {s : JsString} {c : ℕ} (hc : c ∈ s) : ∃ i, (c, i) ∈ s.zipIdx := by
  rw [← List.zipIdx_map_fst 0 s] at hc
  obtain ⟨⟨c, i⟩, hi, rfl⟩ := List.mem_map.mp hc
  exact ⟨i, hi⟩

theorem mem_lower {s : JsString} {c d : ℕ} (hc : c ∈ s) (hsigma : c ≠ 0x3A3) (hd : d ∈ lower c) :
    d ∈ w.lower s := by
  obtain ⟨i, hi⟩ := exists_mem_zipIdx hc
  refine List.mem_flatMap.mpr ⟨(c, i), hi, ?_⟩
  change d ∈ if c = 0x3A3 ∧ w.isFinal s i = true then [0x3C2] else lower c
  rwa [if_neg fun h => hsigma h.1]

theorem sigma_mem_lower {s : JsString} (hc : 0x3A3 ∈ s) :
    0x3C2 ∈ w.lower s ∨ 0x3C3 ∈ w.lower s := by
  obtain ⟨i, hi⟩ := exists_mem_zipIdx hc
  have hlower : lower 0x3A3 = [0x3C3] := by decide
  by_cases hfinal : w.isFinal s i = true
  · exact Or.inl (List.mem_flatMap.mpr ⟨(0x3A3, i), hi, by simp [hfinal]⟩)
  · exact Or.inr (List.mem_flatMap.mpr ⟨(0x3A3, i), hi, by simp [hfinal, hlower]⟩)

/-- A surrogate has no lower case of its own. -/
theorem mapped_surrogate {c : ℕ} (h : goRune c ≠ c) : mapped lowerRuns c = c := by
  have hrange : 0xD800 ≤ c ∧ c ≤ 0xDFFF := by
    by_contra hno
    exact h (if_neg hno)
  have hruns : ∀ r ∈ lowerRuns, r.last < 0xD800 ∨ 0xDFFF < r.first := by decide +kernel
  rcases mapped_cases lowerRuns c with hself | ⟨r, hr, hfirst, hlast, -⟩
  · exact hself
  · have := hruns r hr
    omega

/-- Text in small letters other than the i, so that nothing but plain text is put into it. -/
def Target (x : JsString) : Prop := ∀ c ∈ x, c < 0x80 ∧ c ≠ 0x69

theorem plain_of_lower {s : JsString} (h : Target (w.lower s)) : Plain s := by
  intro c hc
  have hsigma : c ≠ 0x3A3 := by
    rintro rfl
    rcases sigma_mem_lower (w := w) hc with hmem | hmem
    · exact absurd (h _ hmem).1 (by decide)
    · exact absurd (h _ hmem).1 (by decide)
  have hdotted : c ≠ 0x130 := by
    rintro rfl
    have hlower : 0x69 ∈ lower 0x130 := by decide
    exact (h _ (mem_lower hc hsigma hlower)).2 rfl
  refine ⟨hdotted, hsigma, ?_⟩
  by_contra hsurrogate
  have hlower : c ∈ lower c := by
    rw [lower_of_ne hdotted, mapped_surrogate hsurrogate]
    exact List.mem_singleton_self c
  have hsmall := (h _ (mem_lower hc hsigma hlower)).1
  have hplain : goRune c = c := if_neg (by omega)
  exact hsurrogate hplain

theorem plain_of_goLower {s : JsString} (h : Target (goLower (goString s))) : Plain s := by
  intro c hc
  have hmem : (if goRune c = 0x130 then 0x69 else mapped lowerRuns (goRune c)) ∈
      goLower (goString s) := by
    exact List.mem_map.mpr ⟨goRune c, List.mem_map.mpr ⟨c, hc, rfl⟩, rfl⟩
  have hdotted : goRune c ≠ 0x130 := by
    intro hrune
    rw [if_pos hrune] at hmem
    exact (h _ hmem).2 rfl
  rw [if_neg hdotted] at hmem
  have hsmall := (h _ hmem).1
  have hrune : goRune c = c := by
    by_contra hsurrogate
    have hreplaced : goRune c = 0xFFFD := by
      by_contra hother
      by_cases hrange : 0xD800 ≤ c ∧ c ≤ 0xDFFF
      · exact hother (if_pos hrange)
      · exact hsurrogate (if_neg hrange)
    have hbig : mapped lowerRuns 0xFFFD = 0xFFFD := by decide
    rw [hreplaced, hbig] at hsmall
    omega
  refine ⟨hrune ▸ hdotted, ?_, hrune⟩
  rintro rfl
  have hbig : mapped lowerRuns 0x3A3 = 0x3C3 := by decide
  rw [hrune, hbig] at hsmall
  omega

theorem lower_eq_iff {s x : JsString} (hx : Target x) :
    w.lower s = x ↔ goLower (goString s) = x := by
  constructor
  · intro h
    rw [← lower_plain (plain_of_lower (h ▸ hx)), h]
  · intro h
    rw [lower_plain (plain_of_goLower (h ▸ hx)), h]

theorem target_star : Target (js "*") := by
  unfold Target
  decide

theorem target_all : Target (js "all") := by
  unfold Target
  decide

theorem wildcard_iff {p : Payload} : Wildcard p ↔
    ∃ f ∈ p.featureList, w.lower f = js "*" ∨ w.lower f = js "all" := by
  simp only [Wildcard, lower_eq_iff target_star, lower_eq_iff target_all]

/-! ### What is read of a payload -/

theorem goString_eq_iff {s x : JsString} (hx : ∀ c ∈ x, c < 0x80) : goString s = x ↔ s = x := by
  have hsmall : ∀ c, goRune c < 0x80 → goRune c = c := by
    intro c hc
    by_cases hrange : 0xD800 ≤ c ∧ c ≤ 0xDFFF
    · rw [goRune, if_pos hrange] at hc
      omega
    · exact if_neg hrange
  constructor
  · rintro rfl
    refine ((List.map_congr_left fun c hc => ?_).trans s.map_id).symm
    exact hsmall c (hx _ (List.mem_map_of_mem hc))
  · rintro rfl
    refine (List.map_congr_left fun c hc => ?_).trans s.map_id
    have := hx c hc
    exact if_neg (by omega)

theorem isLegacyTrialCompany_goString (s : JsString) :
    isLegacyTrialCompany (goString s) = isLegacyTrialCompany s := by
  have hname : goString s = js "Swazz Trial User" ↔ s = js "Swazz Trial User" :=
    goString_eq_iff (by decide)
  have hsuffix : js "(14-Day Trial)" <:+ goString s ↔ js "(14-Day Trial)" <:+ s := by
    constructor
    · intro h
      obtain ⟨rest, hrest, heq⟩ := List.suffix_map_iff.mp h
      rwa [(goString_eq_iff (by decide)).mp heq.symm] at hrest
    · intro h
      have hself : goString (js "(14-Day Trial)") = js "(14-Day Trial)" :=
        (goString_eq_iff (by decide)).mpr rfl
      rw [← hself]
      exact h.map goRune
  rw [Bool.eq_iff_iff]
  simp only [isLegacyTrialCompany, Bool.or_eq_true, List.isSuffixOf_iff_suffix, decide_eq_true_eq,
    hname, hsuffix]

theorem listed_iff {l : List JsString} {A B C : JsString → Prop} :
    (∃ f ∈ l, A f ∨ B f ∨ C f) ↔ (∃ f ∈ l, A f ∨ B f) ∨ ∃ f ∈ l, C f := by
  simp only [← or_assoc, and_or_left, exists_or]

theorem hasFeatureIn_iff {p : Payload} {feature : JsString} :
    w.hasFeatureIn (w.licenseInfo p) feature = true ↔
      Wildcard p ∨ ∃ f ∈ p.featureList, w.lower f = w.lower feature := by
  rw [wildcard_iff (w := w), ← listed_iff]
  simp only [World.hasFeatureIn, hasFeatureIn, World.licenseInfo, List.any_eq_true,
    decide_eq_true_eq, Payload.featureList, World.lower]

/-- The license that the runner decodes. -/
def goLicense (p : Payload) (instant users concurrency : ℤ) : GoLicense :=
  ⟨goString p.company, instant, p.featureList.map goString, goString (p.kind.getD []), users,
    concurrency⟩

theorem expired_iff {lic : GoLicense} {now : ℤ} :
    lic.expired now = true ↔ lic.ExpiresAt ≠ zeroTime ∧ lic.ExpiresAt < now :=
  decide_eq_true_iff

theorem HasFeature_iff {p : Payload} {instant users concurrency now : ℤ} {feature : JsString}
    (hnow : (goLicense p instant users concurrency).expired now = false) :
    (goLicense p instant users concurrency).HasFeature now feature = true ↔
      Wildcard p ∨ ∃ f ∈ p.featureList, goLower (goString f) = goLower feature := by
  rw [GoLicense.HasFeature, hnow, Wildcard, ← listed_iff]
  simp only [goLicense, Bool.false_eq_true, if_false, List.any_eq_true, decide_eq_true_eq,
    List.mem_map, exists_exists_and_eq_and]

/-- A feature is granted by both or by neither. -/
theorem hasFeature_eq_iff {p : Payload} {instant users concurrency now : ℤ} (feature : JsString)
    (hnow : (goLicense p instant users concurrency).expired now = false) :
    w.hasFeatureIn (w.licenseInfo p) feature =
        (goLicense p instant users concurrency).HasFeature now feature ↔
      Wildcard p ∨ w.SameCase p feature := by
  rw [Bool.eq_iff_iff, hasFeatureIn_iff, HasFeature_iff hnow]
  by_cases hwild : Wildcard p
  · simp only [hwild, true_or]
  · simp only [hwild, false_or, World.SameCase]

theorem kind_iff (p : Payload) (instant users concurrency : ℤ) :
    ((w.licenseInfo p).kind = .trial ↔
        (goLicense p instant users concurrency).IsTrial = true) ↔ SameKind p := by
  have hempty : goString [] = [] := rfl
  have htrial (k : JsString) : goString k = js "trial" ↔ k = js "trial" :=
    goString_eq_iff (by decide)
  have hnil (k : JsString) : goString k = [] ↔ k = [] := goString_eq_iff (by simp)
  have hne : js "commercial" ≠ js "trial" := by decide
  have hcommercial : js "commercial" ≠ [] := by decide
  have htext : js "trial" ≠ [] := by decide
  cases hkind : p.kind with
  | none =>
    cases hlegacy : isLegacyTrialCompany p.company with
    | true => simp [World.licenseInfo, GoLicense.IsTrial, goLicense, SameKind, hkind, hempty,
        isLegacyTrialCompany_goString, hlegacy]
    | false => simp [World.licenseInfo, GoLicense.IsTrial, goLicense, SameKind, hkind, hempty,
        isLegacyTrialCompany_goString, hlegacy]
  | some k =>
    by_cases hk : k = js "trial"
    · simp [World.licenseInfo, GoLicense.IsTrial, goLicense, SameKind, hkind, htrial, hnil, hk,
        htext]
    · by_cases hc : k = js "commercial"
      · simp [World.licenseInfo, GoLicense.IsTrial, goLicense, SameKind, hkind, htrial, hnil, hc,
          hne, hcommercial]
      · by_cases he : k = []
        · cases hlegacy : isLegacyTrialCompany p.company <;>
            simp [World.licenseInfo, GoLicense.IsTrial, goLicense, SameKind, hkind, he, hempty,
              isLegacyTrialCompany_goString, hlegacy, htext.symm, hcommercial.symm]
        · cases hlegacy : isLegacyTrialCompany p.company <;>
            simp [World.licenseInfo, GoLicense.IsTrial, goLicense, SameKind, hkind, htrial, hnil,
              hk, hc, he, hlegacy]

theorem lower_unlimited : w.lower (js "unlimited_scans") = js "unlimited_scans" ∧
    goLower (js "unlimited_scans") = js "unlimited_scans" := by
  have hplain : Plain (js "unlimited_scans") := by
    unfold Plain
    decide
  have hgo : goLower (goString (js "unlimited_scans")) = js "unlimited_scans" := by
    decide
  have hself : goString (js "unlimited_scans") = js "unlimited_scans" := by decide
  exact ⟨(lower_plain hplain).trans hgo, hself ▸ hgo⟩

/-- Without a limit of its own a license is clamped by its features. -/
theorem ceiling_iff {p : Payload} {instant users concurrency now : ℤ}
    (hlimit : decodeInt p.max_concurrency = some concurrency)
    (hnow : (goLicense p instant users concurrency).expired now = false) :
    (w.licenseInfo p).max_concurrency =
        (goLicense p instant users concurrency).ConcurrencyCeiling now ↔
      Limited p ∨ Wildcard p ∨ w.SameCase p (js "unlimited_scans") := by
  have hlower := lower_unlimited (w := w)
  have hinfo : (w.licenseInfo p).max_concurrency = clampConcurrency p.max_concurrency
      (w.hasFeatureIn (w.licenseInfo p) (js "unlimited_scans")) := by
    simp only [World.lower] at hlower
    simp only [World.licenseInfo, World.hasFeatureIn, hasFeatureIn, World.lower, hlower.1]
    rfl
  have hgo : (goLicense p instant users concurrency).MaxConcurrency = concurrency := rfl
  rw [hinfo, GoLicense.ConcurrencyCeiling, hgo, ← hasFeature_eq_iff _ hnow]
  by_cases hpos : 0 < concurrency
  · have hlimited : Limited p := ⟨concurrency, hlimit, hpos⟩
    have hvalue : p.max_concurrency.bind Numeral.value = some (concurrency : ℚ) := by
      cases hmax : p.max_concurrency with
      | none => simp [hmax, decodeInt] at hlimit; omega
      | some m =>
        cases m with
        | null => simp [hmax, decodeInt] at hlimit; omega
        | whole n =>
          simp only [hmax, decodeInt, Option.ite_none_right_eq_some] at hlimit
          rw [← Option.some.inj hlimit.2]
          rfl
        | decimal q => simp [hmax, decodeInt] at hlimit
    have hq : ¬(concurrency : ℚ) ≤ 0 := by exact_mod_cast not_le.mpr hpos
    have hceiling : ((MaxConcurrencyCeiling : ℤ) : ℚ) = 1000 := rfl
    simp only [hlimited, true_or, iff_true, clampConcurrency, hvalue, if_pos hpos, if_neg hq]
    by_cases hbig : MaxConcurrencyCeiling < concurrency
    · have hbigq : (1000 : ℚ) < concurrency := by
        rw [← hceiling]
        exact_mod_cast hbig
      rw [if_pos hbig, if_pos hbigq, hceiling]
    · have hbigq : ¬(1000 : ℚ) < concurrency := by
        rw [← hceiling]
        exact_mod_cast hbig
      rw [if_neg hbig, if_neg hbigq]
  · have hlimited : ¬Limited p := by
      rintro ⟨n, hn, hnpos⟩
      rw [hlimit] at hn
      exact hpos (Option.some.inj hn ▸ hnpos)
    have hclamp (b : Bool) :
        clampConcurrency p.max_concurrency b = if b = true then 1000 else 5 := by
      cases hmax : p.max_concurrency with
      | none => rfl
      | some m =>
        cases m with
        | null => rfl
        | whole n =>
          simp only [hmax, decodeInt, Option.ite_none_right_eq_some] at hlimit
          have hn : n ≤ 0 := by
            rw [Option.some.inj hlimit.2]
            omega
          have hq : (n : ℚ) ≤ 0 := by exact_mod_cast hn
          simp only [clampConcurrency, Numeral.value, Option.bind_some, if_pos hq]
        | decimal q => simp [hmax, decodeInt] at hlimit
    simp only [hlimited, false_or, hclamp, if_neg hpos, MaxConcurrencyCeiling,
      FreeConcurrencyCeiling]
    cases w.hasFeatureIn (w.licenseInfo p) (js "unlimited_scans") <;>
      cases (goLicense p instant users concurrency).HasFeature now (js "unlimited_scans") <;>
        norm_num

/-! ### Verdicts -/

theorem edge_of_shows {text : JsString} {now : ℤ}
    (h : w.Shows (edgeText text) base64UrlDecode) :
    w.verifyToken text now false = w.readPayload w.token.payload now false := by
  obtain ⟨sigB64, hparts, hsig⟩ := h
  have hverify : w.verify w.token.headerB64 w.token.payloadB64 w.token.signature = true := by
    simp [World.verify]
  simp [World.verifyToken, hparts, hsig, w.token.length_signature, hverify]

theorem go_of_shows {text : JsString} {now : ℤ} (h : w.Shows (goText text) base64Decode) :
    w.VerifyToken text now = match unmarshal w.token.payload with
      | none => (none, some .invalidTokenFormat)
      | some lic =>
        if lic.expired now then (some lic, some .licenseExpired) else (some lic, none) := by
  obtain ⟨sigB64, hparts, hsig⟩ := h
  have hverify : w.verify w.token.headerB64 w.token.payloadB64 w.token.signature = true := by
    simp [World.verify]
  cases hlicense : unmarshal w.token.payload <;>
    simp [World.VerifyToken, hparts, hsig, w.token.length_signature, hverify, hlicense]

theorem edge_of_not_shows {text : JsString} {now : ℤ}
    (h : ¬w.Shows (edgeText text) base64UrlDecode) :
    edgeVerdict (w.verifyToken text now false) = .rejected := by
  rw [World.verifyToken]
  split
  case h_2 => rfl
  case h_1 headerB64 payloadB64 sigB64 hparts =>
    cases hsig : base64UrlDecode sigB64 with
    | none => rfl
    | some sig =>
      have hverify : w.verify headerB64 payloadB64 sig = false := by
        by_contra hyes
        have hall := Bool.eq_true_of_not_eq_false hyes
        simp only [World.verify, decide_eq_true_eq] at hall
        obtain ⟨rfl, rfl, rfl⟩ := hall
        exact h ⟨sigB64, hparts, hsig⟩
      simp only [hverify]
      split <;> rfl

theorem go_of_not_shows {text : JsString} {now : ℤ} (h : ¬w.Shows (goText text) base64Decode) :
    goVerdict (w.VerifyToken text now) = .rejected := by
  rw [World.VerifyToken]
  split
  case h_2 => rfl
  case h_1 headerB64 payloadB64 sigB64 hparts =>
    cases hsig : base64Decode sigB64 with
    | none => rfl
    | some sig =>
      have hverify : w.verify headerB64 payloadB64 sig = false := by
        by_contra hyes
        have hall := Bool.eq_true_of_not_eq_false hyes
        simp only [World.verify, decide_eq_true_eq] at hall
        obtain ⟨rfl, rfl, rfl⟩ := hall
        exact h ⟨sigB64, hparts, hsig⟩
      simp only [hverify]
      split <;> rfl

theorem unmarshal_eq_none_iff {p : Payload} : unmarshal p = none ↔ ¬GoReads p := by
  rw [GoReads]
  cases hdate : p.expires_at with
  | other text => simp [unmarshal, hdate, decodeTime]
  | rfc3339 instant =>
    cases husers : decodeInt p.max_users with
    | none => simp [unmarshal, hdate, decodeTime, husers]
    | some users =>
      cases hlimit : decodeInt p.max_concurrency with
      | none => simp [unmarshal, hdate, decodeTime, husers, hlimit]
      | some limit => simp [unmarshal, hdate, decodeTime, husers, hlimit]

theorem unmarshal_of_goReads {p : Payload} (h : GoReads p) :
    ∃ instant users concurrency, p.expires_at = .rfc3339 instant ∧
      decodeInt p.max_concurrency = some concurrency ∧
      unmarshal p = some (goLicense p instant users concurrency) := by
  obtain ⟨⟨instant, hdate⟩, husers, hlimit⟩ := h
  obtain ⟨users, husers⟩ := Option.isSome_iff_exists.mp husers
  obtain ⟨concurrency, hlimit⟩ := Option.isSome_iff_exists.mp hlimit
  refine ⟨instant, users, concurrency, hdate, hlimit, ?_⟩
  simp [unmarshal, hdate, decodeTime, husers, hlimit, goLicense, Payload.featureList]

theorem edge_rejects {text : JsString} (now : ℤ)
    (h : ¬(w.Shows (edgeText text) base64UrlDecode ∧ w.EdgeReads w.token.payload)) :
    edgeVerdict (w.verifyToken text now false) = .rejected := by
  by_cases hshows : w.Shows (edgeText text) base64UrlDecode
  · have hreads : ¬w.EdgeReads w.token.payload := fun hreads => h ⟨hshows, hreads⟩
    simp only [World.EdgeReads, not_or, Option.not_isSome_iff_eq_none] at hreads
    rw [edge_of_shows hshows, World.readPayload, if_neg hreads.1, hreads.2]
    rfl
  · exact edge_of_not_shows hshows

theorem edge_accepts {text : JsString} {now : ℤ}
    (h : w.Shows (edgeText text) base64UrlDecode ∧ w.EdgeReads w.token.payload) :
    edgeVerdict (w.verifyToken text now false) ≠ .rejected := by
  obtain ⟨hshows, hempty | hdate⟩ := h
  · rw [edge_of_shows hshows, World.readPayload, if_pos hempty]
    exact nofun
  · obtain ⟨expires, hexpires⟩ := Option.isSome_iff_exists.mp hdate
    rw [edge_of_shows hshows, World.readPayload, hexpires]
    dsimp only
    split
    · exact nofun
    · split
      · exact nofun
      · exact nofun

theorem go_rejects {text : JsString} {now : ℤ}
    (h : ¬(w.Shows (goText text) base64Decode ∧ GoReads w.token.payload)) :
    goVerdict (w.VerifyToken text now) = .rejected := by
  by_cases hshows : w.Shows (goText text) base64Decode
  · rw [go_of_shows hshows, unmarshal_eq_none_iff.mpr fun hreads => h ⟨hshows, hreads⟩]
    rfl
  · exact go_of_not_shows hshows

theorem go_accepts {text : JsString} {now : ℤ}
    (h : w.Shows (goText text) base64Decode ∧ GoReads w.token.payload) :
    goVerdict (w.VerifyToken text now) ≠ .rejected := by
  obtain ⟨instant, users, concurrency, -, -, hlic⟩ := unmarshal_of_goReads h.2
  rw [go_of_shows h.1, hlic]
  dsimp only
  split
  · exact nofun
  · exact nofun

/-- A token that both read, with a date in RFC 3339. -/
theorem agree_of_shown {text : JsString} {now : ℤ} {feature : String}
    (hedge : w.Shows (edgeText text) base64UrlDecode) (hgo : w.Shows (goText text) base64Decode)
    (hreads : GoReads w.token.payload) :
    Agree w text now feature ↔ SameExpiry w.token.payload now ∧
      (¬Expired w.token.payload now → SameKind w.token.payload ∧
        (Wildcard w.token.payload ∨ w.SameCase w.token.payload (js feature)) ∧
        (Limited w.token.payload ∨ Wildcard w.token.payload ∨
          w.SameCase w.token.payload (js "unlimited_scans"))) := by
  obtain ⟨instant, users, concurrency, hdate, hlimit, hlic⟩ := unmarshal_of_goReads hreads
  have hne : w.token.payload.expires_at ≠ .other [] := by
    rw [hdate]
    exact nofun
  have hverify : w.verifyToken text now false =
      if milliseconds instant < milliseconds now then .error .licenseExpired
      else .ok (w.licenseInfo w.token.payload) := by
    rw [edge_of_shows hedge, World.readPayload, if_neg hne, hdate]
    change (if false = false ∧ milliseconds instant < milliseconds now then _ else _) = _
    by_cases hms : milliseconds instant < milliseconds now
    · rw [if_pos hms, if_pos ⟨rfl, hms⟩]
    · rw [if_neg hms, if_neg fun h => hms h.2]
  have hgoVerify : w.VerifyToken text now =
      if (goLicense w.token.payload instant users concurrency).expired now then
        (some (goLicense w.token.payload instant users concurrency), some .licenseExpired)
      else (some (goLicense w.token.payload instant users concurrency), none) := by
    rw [go_of_shows hgo, hlic]
  have hpast : Expired w.token.payload now ↔
      (goLicense w.token.payload instant users concurrency).expired now = true := by
    rw [expired_iff]
    simp [Expired, hdate, goLicense]
  have hsame : SameExpiry w.token.payload now ↔ (milliseconds instant < milliseconds now ↔
      (goLicense w.token.payload instant users concurrency).expired now = true) := by
    rw [expired_iff]
    simp [SameExpiry, hdate, goLicense]
  rw [hsame, hpast]
  by_cases hms : milliseconds instant < milliseconds now
  · rw [if_pos hms] at hverify
    cases hnow : (goLicense w.token.payload instant users concurrency).expired now with
    | true =>
      rw [hnow, if_pos rfl] at hgoVerify
      simp only [hms, not_true, false_implies, and_true, iff_true]
      refine ⟨?_, ?_⟩
      · rw [hverify, hgoVerify]
        rfl
      · rw [hverify]
        exact nofun
    | false =>
      rw [hnow, if_neg Bool.false_ne_true] at hgoVerify
      simp only [hms, Bool.false_eq_true, iff_false, not_true, false_and]
      intro h
      have := h.verdict
      rw [hverify, hgoVerify] at this
      exact absurd this nofun
  · rw [if_neg hms] at hverify
    cases hnow : (goLicense w.token.payload instant users concurrency).expired now with
    | true =>
      rw [hnow, if_pos rfl] at hgoVerify
      simp only [hms, iff_true, false_and, iff_false]
      intro h
      have := h.verdict
      rw [hverify, hgoVerify] at this
      exact absurd this nofun
    | false =>
      rw [hnow, if_neg Bool.false_ne_true] at hgoVerify
      simp only [hms, Bool.false_eq_true, not_false_eq_true, true_implies, iff_self, true_and]
      have hfeature := hasFeature_eq_iff (w := w) (js feature) hnow
      have hkind := kind_iff (w := w) w.token.payload instant users concurrency
      have hceiling := ceiling_iff (w := w) hlimit hnow
      constructor
      · intro h
        obtain ⟨hread, htrial, hmax⟩ := h.readings _ _ hverify hgoVerify
        exact ⟨hkind.mp htrial, hfeature.mp hread, hceiling.mp hmax⟩
      · rintro ⟨htrial, hread, hmax⟩
        refine ⟨?_, ?_⟩
        · rw [hverify, hgoVerify]
          rfl
        · intro info lic hinfo hlicense
          cases hverify.symm.trans hinfo
          cases hgoVerify.symm.trans hlicense
          exact ⟨hfeature.mpr hread, hkind.mpr htrial, hceiling.mpr hmax⟩

/-- What a license of the Go issuer without an expiry is written as; the letters of the
signature do not matter. -/
def perpetualSigner : Signer where
  headerB64 := js "eyJhbGciOiJFZERTQSIsInR5cCI6IkpXVCJ9"
  payloadB64 := fun _ => js ("eyJjb21wYW55IjoiUGVycGV0dWFsIiwiZXhwaXJlc19hdCI6IjAwMDEtMDEt" ++
    "MDFUMDA6MDA6MDBaIiwiZmVhdHVyZXMiOlsiKiJdfQ")
  sign := fun _ _ => List.replicate 64 0
  length_sign := fun _ _ => List.length_replicate

/-- What a license of the edge's issuer without an expiry is written as. -/
def undatedSigner : Signer where
  headerB64 := js "eyJhbGciOiJFZERTQSIsInR5cCI6IkpXVCJ9"
  payloadB64 := fun _ => js ("eyJjb21wYW55IjoiUGVycGV0dWFsIiwiZXhwaXJlc19hdCI6IiIsImZlYXR1" ++
    "cmVzIjpbIioiXX0")
  sign := fun _ _ => List.replicate 64 0
  length_sign := fun _ _ => List.length_replicate

def Token.text (token : Token) : JsString :=
  token.headerB64 ++ [46] ++ token.payloadB64 ++ [46] ++ List.replicate 86 65

def Token.world (token : Token) : World := ⟨token, fun _ => none, fun _ _ => true⟩

def perpetualToken : Token :=
  perpetualSigner.token ⟨js "Perpetual", .rfc3339 zeroTime, some [js "*"], none, none, none⟩

def undatedToken : Token :=
  signLicenseToken undatedSigner ⟨js "Perpetual", .other [], [js "*"], none, none, none⟩

end Swazz.License
