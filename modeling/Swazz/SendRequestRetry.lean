import Swazz.SendRequest

/-! The request that is sent after a renewal of the session, against the one that a new call
would send. -/
namespace Swazz.SendRequest

open Utf8 hiding runes
open EntryMap

variable (libs : Libs) (before first now : World) (settings : Settings) (random : Text) (c : Call)
  (headers cookies newHeaders newCookies : Headers)

/-- The request after a renewal: assembled `before`, attempted `first`, and sent again `now`. -/
def retriedRequest : Request :=
  let sent := (attempt libs first c cookies (build libs before settings random c headers)).2
  (attempt libs now c newCookies (rebuild libs now c newHeaders sent)).1

/-- The request of a new call with the same arguments and the renewed session. -/
def freshRequest : Request :=
  (attempt libs now c newCookies (build libs now settings random c newHeaders)).1

/-- The generated headers or the renewed ones name the client. -/
def HasUserAgent : Prop := hasHeader (mergeHeaders now c newHeaders) (ascii "user-agent") = true

/-- The payload as the first attempt left it gives the body that the payload of the call gives. -/
def SameBody : Prop :=
  bodyOf libs c (csrfPayload now c (csrfPayload first c (before.subStateVarsAny c.payload))) =
    bodyOf libs c (csrfPayload now c (now.subStateVarsAny c.payload))

/-! ### The names of the headers -/

section Names

variable {now c cookies} {m : Headers} {k : Text}

theorem mem_keys_addContentType (hk : k ≠ ascii "Content-Type") :
    k ∈ keys (addContentType c m) ↔ k ∈ keys m := by
  rw [addContentType]
  split_ifs
  · rw [mem_keys_set]
    exact or_iff_right hk
  · rfl

theorem mem_keys_csrfHeaders (hk : k ≠ ascii "X-CSRF-Token") :
    k ∈ keys (csrfHeaders now c m) ↔ k ∈ keys m := by
  rw [csrfHeaders, injectHeaders]
  split_ifs
  · rw [keys_replaceAt]
  · rw [mem_keys_set]
    exact or_iff_right hk
  · rfl

theorem mem_keys_withCookies (hk : k ≠ ascii "Cookie") :
    k ∈ keys (withCookies cookies m) ↔ k ∈ keys m := by
  rw [withCookies]
  split_ifs
  · rfl
  · rw [mem_keys_set]
    exact or_iff_right hk

theorem mem_keys_filter {p : Text → Bool} (hk : p k = true) :
    k ∈ keys (m.filter fun e => p e.1) ↔ k ∈ keys m := by
  simp only [keys, List.mem_map, List.mem_filter]
  constructor
  · rintro ⟨e, ⟨he, -⟩, rfl⟩
    exact ⟨e, he, rfl⟩
  · rintro ⟨e, he, rfl⟩
    exact ⟨e, ⟨he, hk⟩, rfl⟩

/-- The client is named in a request if it is in what is assembled. -/
theorem mem_keys_attempt (b : Built) :
    ascii "User-Agent" ∈ keys (attempt libs now c cookies b).1.headers ↔
      ascii "User-Agent" ∈ keys b.mergedHeaders := by
  rw [attempt]
  dsimp only
  rw [mem_keys_filter (p := fun k => !equalFold k (ascii "Host") &&
      (!equalFold k (ascii "Cookie") || decide (cookies = []))) (by
        rw [show equalFold (ascii "User-Agent") (ascii "Host") = false by decide,
          show equalFold (ascii "User-Agent") (ascii "Cookie") = false by decide]
        rfl),
    mem_keys_withCookies (by decide), mem_keys_csrfHeaders (by decide)]

end Names

/-- Where nothing names the client, only the new call does. -/
theorem hasUserAgent_of_eq {random' : Text}
    (h : retriedRequest libs before first now settings random c headers cookies newHeaders
        newCookies = freshRequest libs now settings random' c newHeaders newCookies) :
    HasUserAgent now c newHeaders := by
  by_contra hnone
  have hkeys := congrArg (fun q => ascii "User-Agent" ∈ keys q.headers) h
  dsimp only [retriedRequest, freshRequest] at hkeys
  rw [mem_keys_attempt, mem_keys_attempt] at hkeys
  dsimp only [rebuild, build] at hkeys
  rw [HasUserAgent] at hnone
  rw [mem_keys_addContentType (by decide), mem_keys_addContentType (by decide), addUserAgent,
    if_neg hnone, mem_keys_set] at hkeys
  have hmem : ascii "User-Agent" ∈ keys (mergeHeaders now c newHeaders) := by
    rw [hkeys]
    exact Or.inl rfl
  exact hnone (hasHeader_of_mem hmem (by decide))

section Body

variable {before first now c} {libs}

end Body

end Swazz.SendRequest
