import Swazz.BolaHarvest
import Swazz.GoUrlWriting

/-! Where the requests of an MCP client over SSE go to, whatever its server redirects to and
announces. -/
namespace Swazz.McpOrigin

open Utf8 hiding runes
open GoUrl
open Bola (equalFold)

/-! ### Origins -/

def portOrDefault (u : URL) : Text :=
  if u.Port ≠ [] then u.Port
  else if toLower u.Scheme = ascii "https" then ascii "443"
  else if toLower u.Scheme = ascii "http" then ascii "80"
  else []

def sameOrigin (a b : URL) : Bool :=
  equalFold a.Scheme b.Scheme && equalFold a.Hostname b.Hostname &&
    portOrDefault a = portOrDefault b

/-- From `http` to `https`, at the same service. -/
def upgrade (first u : URL) : Bool :=
  equalFold first.Scheme (ascii "http") && equalFold u.Scheme (ascii "https") &&
    equalFold first.Hostname u.Hostname &&
    (u.Port = first.Port || (portOrDefault first = ascii "80" && portOrDefault u = ascii "443"))

/-- Whether a redirect to `u` is followed. -/
def checkSameOriginRedirect (u : URL) (via : List URL) : Bool :=
  via.length < 10 && via.head?.any fun first => upgrade first u || sameOrigin u first

/-! ### Requests -/

/-- A colon with no port behind it is dropped. -/
def removeEmptyPort (host : Text) : Text :=
  if host.getLast? = some colon then host.dropLast else host

/-- The transport refuses other schemes, and URLs without a host. -/
def sends (u : URL) : Bool :=
  (u.Scheme = ascii "http" || u.Scheme = ascii "https") && u.Host ≠ []

section

variable (isIPv6 : Text → Bool)

def NewRequest (rawURL : Text) : Option URL :=
  (Parse isIPv6 rawURL).map fun u => { u with Host := removeEmptyPort u.Host }

/-- The URLs that requests went to, and the last if it was answered by no redirect, when the
servers redirect to `locations`. -/
def Do (via : List URL) (u : URL) : List Text → List URL × Option URL
  | [] => if sends u then (via ++ [u], some u) else (via, none)
  | location :: locations =>
    if sends u then
      match Parse isIPv6 location with
      | none => (via ++ [u], none)
      | some ref =>
        let next := u.ResolveReference ref
        if checkSameOriginRedirect next (via ++ [u]) then Do (via ++ [u]) next locations
        else (via ++ [u], none)
    else (via, none)

def sameOriginEndpoint (sseURL : URL) (endpoint : Text) : Option Text := do
  let epURL ← Parse isIPv6 endpoint
  let resolved := sseURL.ResolveReference epURL
  if sameOrigin resolved sseURL then return resolved.String else none

def defaultWriteURL (sseURL : URL) : Text :=
  let path := if sseURL.Path.getLast? = some slash then sseURL.Path.dropLast else sseURL.Path
  { sseURL with Path := path ++ ascii "/message", RawQuery := [] }.String

/-- What a server does: its redirects of the stream, the endpoint that it announces in time, and
its redirects of each request that is posted there. -/
structure Server where
  redirects : List Text
  endpoint : Option Text
  posts : List (List Text)

def writeURL (sseURL : URL) (endpoint : Option Text) : Option Text :=
  match endpoint with
  | some ep => sameOriginEndpoint isIPv6 sseURL ep
  | none => some (defaultWriteURL sseURL)

/-- The URLs that the client sends its headers to: for the stream, and to post requests. -/
def requests (url : Text) (server : Server) : List URL × List URL :=
  match NewRequest isIPv6 url with
  | none => ([], [])
  | some first =>
    match Do isIPv6 [] first server.redirects with
    | (gets, none) => (gets, [])
    | (gets, some sseURL) =>
      match (writeURL isIPv6 sseURL server.endpoint).bind (NewRequest isIPv6) with
      | none => (gets, [])
      | some u => (gets, server.posts.flatMap fun locations => (Do isIPv6 [] u locations).1)

end

/-! ### The origin is kept -/

variable {isIPv6 : Text → Bool} {first u v : URL}

/-- The same host; the same scheme and port, or `https` for `http`. -/
def AtOrigin (first u : URL) : Prop :=
  equalFold u.Hostname first.Hostname ∧
    (u.Scheme = first.Scheme ∧ portOrDefault u = portOrDefault first ∨
      first.Scheme = ascii "http" ∧ u.Scheme = ascii "https" ∧
        (portOrDefault u = portOrDefault first ∨
          portOrDefault first = ascii "80" ∧ portOrDefault u = ascii "443"))

theorem equalFold_refl (s : Text) : equalFold s s = true := decide_eq_true rfl

theorem equalFold_symm {s t : Text} (h : equalFold s t = true) : equalFold t s = true :=
  decide_eq_true (of_decide_eq_true h).symm

theorem equalFold_trans {s t r : Text} (h : equalFold s t = true) (h' : equalFold t r = true) :
    equalFold s r = true :=
  decide_eq_true ((of_decide_eq_true h).trans (of_decide_eq_true h'))

theorem ne_nil_of_equalFold {s t : Text} (h : equalFold s t = true) (ht : t ≠ []) : s ≠ [] := by
  rintro rfl
  cases t with
  | nil => exact ht rfl
  | cons b rest => exact List.cons_ne_nil _ _ (of_decide_eq_true h).symm

theorem AtOrigin.refl (u : URL) : AtOrigin u u :=
  ⟨equalFold_refl _, Or.inl ⟨rfl, rfl⟩⟩

theorem AtOrigin.trans (h : AtOrigin first u) (h' : AtOrigin u v) : AtOrigin first v := by
  obtain ⟨hname, hsame | ⟨hhttp, hhttps, hport⟩⟩ := h
  · obtain ⟨hname', hsame' | ⟨hhttp', hhttps', hport'⟩⟩ := h'
    · exact ⟨equalFold_trans hname' hname, Or.inl ⟨hsame'.1.trans hsame.1, hsame'.2.trans hsame.2⟩⟩
    · rw [hsame.2] at hport'
      exact ⟨equalFold_trans hname' hname, Or.inr ⟨hsame.1 ▸ hhttp', hhttps', hport'⟩⟩
  · obtain ⟨hname', hsame' | ⟨hhttp', -, -⟩⟩ := h'
    · rw [← hsame'.2] at hport
      exact ⟨equalFold_trans hname' hname, Or.inr ⟨hhttp, hsame'.1.trans hhttps, hport⟩⟩
    -- There is no upgrade from `https`.
    · rw [hhttps] at hhttp'
      exact absurd hhttp' (by decide)

theorem scheme_of_sends (h : sends u) : u.Scheme = ascii "http" ∨ u.Scheme = ascii "https" := by
  rw [sends, Bool.and_eq_true, Bool.or_eq_true, decide_eq_true_eq, decide_eq_true_eq] at h
  exact h.1

/-- Of the schemes that are sent, those that are equal under folding are equal. -/
theorem scheme_eq (hfirst : sends first) (hu : sends u)
    (h : equalFold u.Scheme first.Scheme = true) : u.Scheme = first.Scheme := by
  rcases scheme_of_sends hfirst with hf | hf <;> rcases scheme_of_sends hu with hs | hs <;>
    rw [hf, hs] at h ⊢
  · exact absurd h (by decide +kernel)
  · exact absurd h (by decide +kernel)

theorem atOrigin_of_sameOrigin (hfirst : sends first) (hu : sends u)
    (h : sameOrigin u first = true) : AtOrigin first u := by
  rw [sameOrigin, Bool.and_eq_true, Bool.and_eq_true, decide_eq_true_eq] at h
  exact ⟨h.1.2, Or.inl ⟨scheme_eq hfirst hu h.1.1, h.2⟩⟩

theorem atOrigin_of_upgrade (hfirst : sends first) (hu : sends u) (h : upgrade first u = true) :
    AtOrigin first u := by
  rw [upgrade, Bool.and_eq_true, Bool.and_eq_true, Bool.and_eq_true, Bool.or_eq_true,
    Bool.and_eq_true, decide_eq_true_eq, decide_eq_true_eq, decide_eq_true_eq] at h
  obtain ⟨⟨⟨hhttp, hhttps⟩, hname⟩, hport⟩ := h
  have hf : first.Scheme = ascii "http" := by
    rcases scheme_of_sends hfirst with hf | hf
    · exact hf
    · rw [hf] at hhttp
      exact absurd hhttp (by decide +kernel)
  have hs : u.Scheme = ascii "https" := by
    rcases scheme_of_sends hu with hs | hs
    · rw [hs] at hhttps
      exact absurd hhttps (by decide +kernel)
    · exact hs
  refine ⟨equalFold_symm hname, Or.inr ⟨hf, hs, ?_⟩⟩
  rcases hport with hport | hport
  · by_cases hnone : first.Port = []
    · right
      rw [portOrDefault, portOrDefault, hport, hnone, hf, hs]
      decide
    · left
      rw [portOrDefault, portOrDefault, hport, if_pos hnone, if_pos hnone]
  · exact Or.inr hport

theorem atOrigin_of_check {via : List URL} (hfirst : sends first) (hu : sends u)
    (hvia : via.head? = some first) (h : checkSameOriginRedirect u via = true) :
    AtOrigin first u := by
  rw [checkSameOriginRedirect, hvia, Option.any_some, Bool.and_eq_true, Bool.or_eq_true] at h
  rcases h.2 with h | h
  · exact atOrigin_of_upgrade hfirst hu h
  · exact atOrigin_of_sameOrigin hfirst hu h

/-- One exchange with its redirects stays at the origin of its first request. -/
theorem do_at_origin (hfirst : sends first) (locations : List Text) : ∀ (via : List URL) (u : URL),
    (via ++ [u]).head? = some first → Proper u → (sends u → AtOrigin first u) →
      (∀ v ∈ via, AtOrigin first v) →
      (∀ v ∈ (Do isIPv6 via u locations).1, AtOrigin first v) ∧
        ∀ v, (Do isIPv6 via u locations).2 = some v → Proper v ∧ sends v ∧ AtOrigin first v := by
  induction locations with
  | nil =>
    intro via u hhead hproper hu hvia
    rw [Do]
    split
    · rename_i hsends
      refine ⟨?_, ?_⟩
      · simpa [or_imp, forall_and] using ⟨hvia, hu hsends⟩
      · rintro v ⟨⟩
        exact ⟨hproper, hsends, hu hsends⟩
    · exact ⟨hvia, by simp⟩
  | cons location locations ih =>
    intro via u hhead hproper hu hvia
    rw [Do]
    split
    · rename_i hsends
      have hvia' : ∀ v ∈ via ++ [u], AtOrigin first v := by
        simpa [or_imp, forall_and] using ⟨hvia, hu hsends⟩
      split
      · exact ⟨hvia', by simp⟩
      · rename_i ref href
        dsimp only
        split
        · rename_i hcheck
          -- A redirect is held against the first request, not the last.
          refine ih (via ++ [u]) _ ?_ ?_ ?_ hvia'
          · rw [List.head?_append, hhead]
            rfl
          · exact hproper.resolveReference (proper_Parse isIPv6 href)
          · exact fun hnext => atOrigin_of_check hfirst hnext hhead hcheck
        · exact ⟨hvia', by simp⟩
    · exact ⟨hvia, by simp⟩

theorem do_refused {via : List URL} (h : ¬sends u) (locations : List Text) :
    Do isIPv6 via u locations = (via, none) := by
  cases locations with
  | nil => rw [Do, if_neg h]
  | cons location locations => rw [Do, if_neg h]

theorem do_within (hproper : Proper first) (locations : List Text) :
    (∀ v ∈ (Do isIPv6 [] first locations).1, AtOrigin first v) ∧
      ∀ v, (Do isIPv6 [] first locations).2 = some v → Proper v ∧ sends v ∧ AtOrigin first v := by
  have hnone : ∀ v ∈ ([] : List URL), AtOrigin first v := by
    intro v hv
    cases hv
  by_cases hfirst : sends first
  · exact do_at_origin hfirst locations [] first rfl hproper (fun _ => AtOrigin.refl first) hnone
  · rw [do_refused hfirst]
    refine ⟨hnone, ?_⟩
    intro v hv
    cases hv

/-! ### A URL that is written for a request -/

/-- Without the colon of an empty port a host has the same name and port. -/
theorem splitHostPort_removeEmptyPort {host : Text} (h : HostShape host) :
    splitHostPort (removeEmptyPort host) = splitHostPort host := by
  rw [removeEmptyPort]
  split
  · rename_i hlast
    obtain ⟨g, rfl⟩ := List.getLast?_eq_some_iff.mp hlast
    rw [List.dropLast_concat]
    have hsplit : cutLast colon (g ++ [colon]) = some (g, []) :=
      cutLast_append g List.not_mem_nil
    rw [splitHostPort, splitHostPort, hsplit]
    cases hcut : cutLast colon g with
    | none => rfl
    | some p =>
      obtain ⟨before, port⟩ := p
      have hdigits : port.all isDigit = false := by
        have hg := eq_of_cutLast hcut
        have hend : g.getLast? = some 93 := by
          rcases h g rfl with hnot | hend
          · rw [hg] at hnot
            simp at hnot
          · exact hend
        rw [hg, List.getLast?_append_cons, List.getLast?_cons] at hend
        cases hport : port.getLast? with
        | none =>
          rw [hport] at hend
          exact absurd hend (by decide)
        | some c =>
          rw [hport] at hend
          cases hend
          exact List.all_eq_false.mpr ⟨93, List.mem_of_getLast? hport, by decide⟩
      simp [hdigits]
  · rfl

theorem hostShape_removeEmptyPort {host : Text} (h : HostShape host) :
    HostShape (removeEmptyPort host) := by
  rw [removeEmptyPort]
  split
  · rename_i hlast
    obtain ⟨g, rfl⟩ := List.getLast?_eq_some_iff.mp hlast
    rw [List.dropLast_concat]
    rintro g' rfl
    rcases h _ rfl with hnot | hend
    · simp at hnot
    · exact absurd hend (by simp [colon])
  · exact h

/-- A URL that is written and requested keeps its scheme, its host and its port. -/
theorem newRequest_string (hscheme : ValidScheme u.Scheme) (hplain : u.Opaque = [])
    (hhost : u.Host ≠ []) (h : NewRequest isIPv6 u.String = some v) :
    v.Scheme = u.Scheme ∧ v.Hostname = u.Hostname ∧ v.Port = u.Port := by
  obtain ⟨w, hw, rfl⟩ := Option.map_eq_some_iff.mp h
  obtain ⟨hwscheme, hwhost⟩ := host_of_string isIPv6 hscheme hplain hhost hw
  have hsplit := splitHostPort_removeEmptyPort (proper_Parse isIPv6 hw).host
  refine ⟨hwscheme, ?_, ?_⟩
  · rw [URL.Hostname, URL.Hostname, hsplit, hwhost]
  · rw [URL.Port, URL.Port, hsplit, hwhost]

theorem proper_newRequest {rawURL : Text} (h : NewRequest isIPv6 rawURL = some u) : Proper u := by
  obtain ⟨w, hw, rfl⟩ := Option.map_eq_some_iff.mp h
  have hproper := proper_Parse isIPv6 hw
  refine ⟨fun hne => hproper.opaque_nil ?_, hproper.scheme, ?_⟩
  · rintro hnil
    rw [hnil] at hne
    exact hne rfl
  · exact hostShape_removeEmptyPort hproper.host

theorem host_ne_nil (h : u.Hostname ≠ []) : u.Host ≠ [] := by
  intro hnil
  rw [URL.Hostname, hnil] at h
  exact h rfl

/-- The requests that are posted stay at the origin of the stream. -/
theorem write_at_origin {sseURL : URL} {endpoint : Option Text} (hproper : Proper sseURL)
    (hsends : sends sseURL) (hname : sseURL.Hostname ≠ [])
    (h : (writeURL isIPv6 sseURL endpoint).bind (NewRequest isIPv6) = some u) (hu : sends u) :
    AtOrigin sseURL u := by
  have hscheme : sseURL.Scheme ≠ [] := by
    rcases scheme_of_sends hsends with hs | hs <;> rw [hs] <;> decide
  obtain ⟨w, hw, hnew⟩ := Option.bind_eq_some_iff.mp h
  cases endpoint with
  | none =>
    cases hw
    rw [defaultWriteURL] at hnew
    generalize (if sseURL.Path.getLast? = some slash then sseURL.Path.dropLast
      else sseURL.Path) ++ ascii "/message" = path at hnew
    obtain ⟨hs, hn, hp⟩ := newRequest_string (u := { sseURL with Path := path, RawQuery := [] })
      (hproper.scheme.resolve_left hscheme) (hproper.opaque_nil (host_ne_nil hname))
      (host_ne_nil hname) hnew
    have hport : portOrDefault u = portOrDefault sseURL := by
      rw [portOrDefault, portOrDefault, hs, hp]
      rfl
    have hfold : equalFold u.Hostname sseURL.Hostname = true := by
      rw [hn]
      exact equalFold_refl sseURL.Hostname
    exact ⟨hfold, Or.inl ⟨hs, hport⟩⟩
  | some ep =>
    obtain ⟨epURL, hep, hw⟩ := Option.bind_eq_some_iff.mp hw
    dsimp only at hw
    split at hw
    · rename_i hsame
      cases hw
      have hresolved := hproper.resolveReference (proper_Parse isIPv6 hep)
      generalize sseURL.ResolveReference epURL = resolved at *
      rw [sameOrigin, Bool.and_eq_true, Bool.and_eq_true, decide_eq_true_eq] at hsame
      have hhost := host_ne_nil (ne_nil_of_equalFold hsame.1.2 hname)
      have hvalid := hresolved.scheme.resolve_left (ne_nil_of_equalFold hsame.1.1 hscheme)
      obtain ⟨hs, hn, hp⟩ := newRequest_string hvalid (hresolved.opaque_nil hhost) hhost hnew
      apply atOrigin_of_sameOrigin hsends hu
      rw [sameOrigin, hn, hs, hsame.1.1, hsame.1.2, portOrDefault, hs, hp, ← portOrDefault, hsame.2]
      simp
    · cases hw

/-- Whatever a server redirects to and announces, the client sends its headers to the host of the
URL that it was made with and to no other, never in cleartext when that URL is an `https` one; and
it posts to the origin that the stream ended up at, or from `http` to `https` there. -/
theorem requests_at_origin {url : Text} (hfirst : NewRequest isIPv6 url = some first)
    (hname : first.Hostname ≠ []) (server : Server) :
    (∀ u ∈ (requests isIPv6 url server).1, AtOrigin first u) ∧
      ∀ u ∈ (requests isIPv6 url server).2, AtOrigin first u ∧
        ∃ sseURL, (Do isIPv6 [] first server.redirects).2 = some sseURL ∧ AtOrigin sseURL u := by
  rw [requests, hfirst]
  dsimp only
  obtain ⟨hgets, hend⟩ := @do_within isIPv6 first (proper_newRequest hfirst) server.redirects
  cases hdo : Do isIPv6 [] first server.redirects with
  | mk gets last =>
    rw [hdo] at hgets hend
    cases last with
    | none => exact ⟨hgets, by simp⟩
    | some sseURL =>
      obtain ⟨hproper, hsends, horigin⟩ := hend sseURL rfl
      have hsse : sseURL.Hostname ≠ [] := ne_nil_of_equalFold horigin.1 hname
      dsimp only
      cases hwrite : (writeURL isIPv6 sseURL server.endpoint).bind (NewRequest isIPv6) with
      | none => exact ⟨hgets, by simp⟩
      | some w =>
        refine ⟨hgets, fun u hu => ?_⟩
        obtain ⟨locations, -, hu⟩ := List.mem_flatMap.mp hu
        obtain ⟨s, -, hnew⟩ := Option.bind_eq_some_iff.mp hwrite
        by_cases hw : sends w
        · have hposted := (do_within (proper_newRequest hnew) locations).1 u hu
          have hstream := (write_at_origin hproper hsends hsse hwrite hw).trans hposted
          exact ⟨horigin.trans hstream, sseURL, rfl, hstream⟩
        · rw [do_refused hw] at hu
          cases hu

/-- A stream that is moved to another path, and two requests at the endpoint that it announces. -/
def exampleServer : Server :=
  ⟨[ascii "/events/"], some (ascii "messages?session=1"), [[], [ascii "//mcp.example:443/m"]]⟩

theorem exampleServer_at_origin : AtOrigin
    { URL.empty with
      Scheme := ascii "https", Host := ascii "mcp.example", Path := ascii "/sse" }
    { URL.empty with
      Scheme := ascii "https", Host := ascii "mcp.example:443", Path := ascii "/m" } :=
  ((@requests_at_origin (fun _ => false) _ (ascii "https://mcp.example/sse") (by decide +kernel)
    (by decide +kernel) exampleServer).2 _ (by decide +kernel)).1

end Swazz.McpOrigin
