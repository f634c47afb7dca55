import Mathlib.Data.List.Induction
import Swazz.Sniffer

/-! Which endpoints a sniffer lists after its events: a key is gone exactly when the last word on
it was a noise response to one of its requests, whatever the others received. -/
namespace Swazz.Crawler

variable (libs : Libs) (ignoredPatterns : List String)

/-- The endpoint of the event, when it is a request that is accepted. -/
def Event.accepted : Event → Option (RequestID × DiscoveredEndpoint)
  | .requestWillBeSent id request => (request.bind (discovered libs ignoredPatterns)).map (id, ·)
  | .responseReceived .. => none

/-- The responses with this id, until an accepted request takes the id over. -/
def answers (id : RequestID) : List Event → List Response
  | [] => []
  | .requestWillBeSent i request :: events =>
    if i = id ∧ (request.bind (discovered libs ignoredPatterns)).isSome then []
    else answers id events
  | .responseReceived i response :: events =>
    if i = id then response.toList ++ answers id events else answers id events

/-- The accepted requests: the id, the key and the responses received. -/
def requests : List Event → List (RequestID × String × List Response)
  | [] => []
  | e :: events =>
    match e.accepted libs ignoredPatterns with
    | some (id, ep) => (id, ep.key, answers libs ignoredPatterns id events) :: requests events
    | none => requests events

/-- A request for the key is still unanswered or received a response that is no noise. -/
def Kept (events : List Event) (key : String) : Prop :=
  ∃ r ∈ requests libs ignoredPatterns events, r.2.1 = key ∧
    (r.2.2 = [] ∨ ∃ resp ∈ r.2.2, isNoise libs ignoredPatterns resp = false)

/-- The key of the request with an id that waits for its response. -/
def waits (w : RequestID → Option String) : Event → RequestID → Option String
  | .requestWillBeSent id request =>
    match request.bind (discovered libs ignoredPatterns) with
    | some ep => Function.update w id (some ep.key)
    | none => w
  | .responseReceived id response =>
    match response with
    | some _ => Function.update w id none
    | none => w

def waiting (events : List Event) : RequestID → Option String :=
  events.foldl (waits libs ignoredPatterns) fun _ => none

/-- The event, after others, is an accepted request for the key or the first response to one, and
no noise. -/
def Raises (before : List Event) (e : Event) (key : String) : Prop :=
  match e with
  | .requestWillBeSent _ request =>
    ∃ ep, request.bind (discovered libs ignoredPatterns) = some ep ∧ ep.key = key
  | .responseReceived id response =>
    ∃ resp, response = some resp ∧ isNoise libs ignoredPatterns resp = false ∧
      waiting libs ignoredPatterns before id = some key

/-- The event, after others, is the first response to a request for the key, and noise. -/
def Drops (before : List Event) (e : Event) (key : String) : Prop :=
  match e with
  | .requestWillBeSent .. => False
  | .responseReceived id response =>
    ∃ resp, response = some resp ∧ isNoise libs ignoredPatterns resp = true ∧
      waiting libs ignoredPatterns before id = some key

/-- The last word on the key is a noise response. -/
def NoiseLast (events : List Event) (key : String) : Prop :=
  ∃ before e after, events = before ++ e :: after ∧ Drops libs ignoredPatterns before e key ∧
    ∀ mid e' rest, after = mid ++ e' :: rest →
      ¬Raises libs ignoredPatterns (before ++ e :: mid) e' key

/-- What the listed keys depend on: the noise response to one request is not the last word on a
key of which some request is unanswered or received a response that is no noise. -/
def NoneSilenced (events : List Event) (key : String) : Prop :=
  NoiseLast libs ignoredPatterns events key → ¬Kept libs ignoredPatterns events key

variable {libs ignoredPatterns}

/-! The state after the events. -/

theorem sniffed_append (events : List Event) (e : Event) :
    sniffed libs ignoredPatterns (events ++ [e]) =
      (sniffed libs ignoredPatterns events).on libs e := by
  simp only [sniffed, List.foldl_append, List.foldl_cons, List.foldl_nil]

theorem waiting_append (events : List Event) (e : Event) :
    waiting libs ignoredPatterns (events ++ [e]) =
      waits libs ignoredPatterns (waiting libs ignoredPatterns events) e := by
  simp only [waiting, List.foldl_append, List.foldl_cons, List.foldl_nil]

/-- What the maps of a sniffer hold after some events. -/
structure Sound (libs : Libs) (ignoredPatterns : List String) (s : Sniffer)
    (events : List Event) : Prop where
  patterns : s.ignoredPatterns = ignoredPatterns
  pending : ∀ id, (s.pendingRequests.lookup id).map DiscoveredEndpoint.key =
    waiting libs ignoredPatterns events id
  keyed : ∀ key ep, s.endpoints.lookup key = some ep → ep.key = key

theorem lookup_insert_key {m : AList fun _ : String => DiscoveredEndpoint}
    (h : ∀ key ep, m.lookup key = some ep → ep.key = key) (ep : DiscoveredEndpoint) :
    ∀ key ep', (m.insert ep.key ep).lookup key = some ep' → ep'.key = key := by
  intro key ep' h'
  by_cases hkey : key = ep.key
  · subst hkey
    rw [AList.lookup_insert] at h'
    cases h'
    rfl
  · rw [AList.lookup_insert_ne hkey] at h'
    exact h key ep' h'

theorem lookup_erase_key {m : AList fun _ : String => DiscoveredEndpoint}
    (h : ∀ key ep, m.lookup key = some ep → ep.key = key) (k : String) :
    ∀ key ep', (m.erase k).lookup key = some ep' → ep'.key = key := by
  intro key ep' h'
  by_cases hkey : key = k
  · subst hkey
    rw [AList.lookup_erase] at h'
    cases h'
  · rw [AList.lookup_erase_ne hkey] at h'
    exact h key ep' h'

theorem map_lookup_insert (m : AList fun _ : RequestID => DiscoveredEndpoint) (id i : RequestID)
    (ep : DiscoveredEndpoint) :
    ((m.insert id ep).lookup i).map DiscoveredEndpoint.key =
      Function.update (fun i => (m.lookup i).map DiscoveredEndpoint.key) id (some ep.key) i := by
  by_cases h : i = id
  · subst h
    rw [AList.lookup_insert, Function.update_self]
    rfl
  · rw [AList.lookup_insert_ne h, Function.update_of_ne h]

theorem map_lookup_erase (m : AList fun _ : RequestID => DiscoveredEndpoint) (id i : RequestID) :
    ((m.erase id).lookup i).map DiscoveredEndpoint.key =
      Function.update (fun i => (m.lookup i).map DiscoveredEndpoint.key) id none i := by
  by_cases h : i = id
  · subst h
    rw [AList.lookup_erase, Function.update_self]
    rfl
  · rw [AList.lookup_erase_ne h, Function.update_of_ne h]

/-- The endpoint that a good response writes. -/
theorem typed_key (ep : DiscoveredEndpoint) (mime : String) :
    (if mime ≠ "" then { ep with ContentType := mime } else ep).key = ep.key := by
  split <;> rfl

namespace Sound

variable {s : Sniffer} {events : List Event}

theorem waiting_eq (h : Sound libs ignoredPatterns s events) :
    waiting libs ignoredPatterns events =
      fun i => (s.pendingRequests.lookup i).map DiscoveredEndpoint.key :=
  (funext h.pending).symm

theorem waiting_some (h : Sound libs ignoredPatterns s events) {id : RequestID} {key : String} :
    waiting libs ignoredPatterns events id = some key ↔
      ∃ ep, s.pendingRequests.lookup id = some ep ∧ ep.key = key := by
  rw [← h.pending, Option.map_eq_some_iff]

/-- An event keeps the maps sound. -/
theorem on (h : Sound libs ignoredPatterns s events) (e : Event) :
    Sound libs ignoredPatterns (s.on libs e) (events ++ [e]) := by
  obtain ⟨hpatterns, hpending, hkeyed⟩ := h
  have hw := Sound.waiting_eq ⟨hpatterns, hpending, hkeyed⟩
  cases e with
  | requestWillBeSent id request =>
    simp only [Sniffer.on, Sniffer.OnRequestWillBeSent, hpatterns]
    cases hacc : request.bind (discovered libs ignoredPatterns) with
    | none =>
      refine ⟨hpatterns, fun i => ?_, hkeyed⟩
      rw [waiting_append, waits, hacc]
      exact hpending i
    | some ep =>
      refine ⟨rfl, fun i => ?_, lookup_insert_key hkeyed ep⟩
      rw [waiting_append, waits, hacc, hw]
      exact map_lookup_insert s.pendingRequests id i ep
  | responseReceived id response =>
    simp only [Sniffer.on, Sniffer.OnResponseReceived, hpatterns]
    cases response with
    | none =>
      refine ⟨hpatterns, fun i => ?_, hkeyed⟩
      rw [waiting_append]
      exact hpending i
    | some resp =>
      -- the request, if one waits, waits no more
      have herase : ∀ i, ((s.pendingRequests.erase id).lookup i).map DiscoveredEndpoint.key =
          waiting libs ignoredPatterns (events ++ [.responseReceived id (some resp)]) i := by
        intro i
        rw [waiting_append, hw]
        exact map_lookup_erase s.pendingRequests id i
      cases hlook : s.pendingRequests.lookup id with
      | none =>
        refine ⟨hpatterns, fun i => ?_, hkeyed⟩
        rw [← herase i, map_lookup_erase]
        by_cases hi : i = id
        · subst hi
          rw [Function.update_self, hlook]
          rfl
        · rw [Function.update_of_ne hi]
      | some ep =>
        by_cases hnoise : isNoise libs ignoredPatterns resp = true
        · simp only [hnoise, if_true]
          exact ⟨rfl, herase, lookup_erase_key hkeyed ep.key⟩
        · simp only [hnoise]
          exact ⟨rfl, herase, lookup_insert_key hkeyed _⟩

/-- The keys after an event: it raises or drops one, or leaves them. -/
theorem mem_on (h : Sound libs ignoredPatterns s events) (e : Event) (key : String) :
    key ∈ (s.on libs e).endpoints ↔ Raises libs ignoredPatterns events e key ∨
      key ∈ s.endpoints ∧ ¬Drops libs ignoredPatterns events e key := by
  cases e with
  | requestWillBeSent id request =>
    simp only [Sniffer.on, Sniffer.OnRequestWillBeSent, h.patterns, Raises, Drops,
      not_false_eq_true, and_true]
    cases hacc : request.bind (discovered libs ignoredPatterns) with
    | none => simp
    | some ep =>
      simp only [AList.mem_insert, Option.some.injEq, exists_eq_left']
      rw [eq_comm (a := key)]
  | responseReceived id response =>
    simp only [Sniffer.on, Sniffer.OnResponseReceived, h.patterns, Raises, Drops, h.waiting_some]
    cases response with
    | none => simp
    | some resp =>
      cases hlook : s.pendingRequests.lookup id with
      | none => simp
      | some ep =>
        by_cases hnoise : isNoise libs ignoredPatterns resp = true
        · simp only [hnoise, if_true, AList.mem_erase, Option.some.injEq, exists_eq_left',
            Bool.true_eq_false, false_and, false_or, true_and]
          rw [and_comm, ne_comm]
        · simp only [hnoise, Option.some.injEq, exists_eq_left', true_and]
          rw [← typed_key ep resp.MimeType]
          simp only [Bool.false_eq_true, if_false, AList.mem_insert, typed_key, false_and,
            not_false_eq_true, and_true]
          rw [eq_comm (a := key)]

end Sound

theorem sound_sniffed (events : List Event) :
    Sound libs ignoredPatterns (sniffed libs ignoredPatterns events) events := by
  induction events using List.reverseRecOn with
  | nil => exact ⟨rfl, fun _ => rfl, fun _ _ h => by simp [sniffed, NewSniffer] at h⟩
  | append_singleton events e ih =>
    rw [sniffed_append]
    exact ih.on e

theorem lists_iff (events : List Event) (key : String) :
    (sniffed libs ignoredPatterns events).Lists key ↔
      key ∈ (sniffed libs ignoredPatterns events).endpoints := by
  set s := sniffed libs ignoredPatterns events
  have hkeyed : ∀ key ep, s.endpoints.lookup key = some ep → ep.key = key :=
    (sound_sniffed events).keyed
  have hentry : ∀ key ep, (⟨key, ep⟩ : Sigma fun _ : String => DiscoveredEndpoint) ∈
      s.endpoints.entries ↔ s.endpoints.lookup key = some ep := fun key ep =>
    AList.mem_lookup_iff.symm
  rw [← AList.lookup_isSome, Option.isSome_iff_exists]
  simp only [Sniffer.Lists, Sniffer.GetEndpoints, List.mem_mergeSort, List.mem_map]
  constructor
  · rintro ⟨ep, ⟨⟨k, ep'⟩, hmem, rfl⟩, rfl⟩
    have hlook := (hentry k ep').mp hmem
    rw [hkeyed k ep' hlook]
    exact ⟨ep', hlook⟩
  · rintro ⟨ep, hlook⟩
    exact ⟨ep, ⟨⟨key, ep⟩, (hentry key ep).mpr hlook, rfl⟩, hkeyed key ep hlook⟩

theorem lists_append (events : List Event) (e : Event) (key : String) :
    (sniffed libs ignoredPatterns (events ++ [e])).Lists key ↔
      Raises libs ignoredPatterns events e key ∨
        (sniffed libs ignoredPatterns events).Lists key ∧
          ¬Drops libs ignoredPatterns events e key := by
  rw [lists_iff, lists_iff, sniffed_append]
  exact (sound_sniffed events).mem_on e key

/-! The requests of the events. -/

theorem requests_accepted {request : Option Request} {ep : DiscoveredEndpoint}
    (h : request.bind (discovered libs ignoredPatterns) = some ep) (id : RequestID)
    (events : List Event) :
    requests libs ignoredPatterns (.requestWillBeSent id request :: events) =
      (id, ep.key, answers libs ignoredPatterns id events) ::
        requests libs ignoredPatterns events := by
  simp only [requests, Event.accepted, h, Option.map_some]

theorem requests_not_accepted {e : Event} (h : e.accepted libs ignoredPatterns = none)
    (events : List Event) :
    requests libs ignoredPatterns (e :: events) = requests libs ignoredPatterns events := by
  simp only [requests, h]

theorem accepted_none {request : Option Request} (id : RequestID)
    (h : request.bind (discovered libs ignoredPatterns) = none) :
    (Event.requestWillBeSent id request).accepted libs ignoredPatterns = none := by
  simp only [Event.accepted, h, Option.map_none]

theorem requests_append_right (before events : List Event) :
    ∀ r ∈ requests libs ignoredPatterns events,
      r ∈ requests libs ignoredPatterns (before ++ events) := by
  intro r hr
  induction before with
  | nil => exact hr
  | cons e before ih =>
    simp only [List.cons_append, requests]
    cases e.accepted libs ignoredPatterns with
    | none => exact ih
    | some a => exact List.mem_cons_of_mem _ ih

/-- A request that waits has received nothing so far. -/
theorem mem_requests_of_waiting {events : List Event} {id : RequestID} {key : String}
    (h : waiting libs ignoredPatterns events id = some key) (after : List Event) :
    (id, key, answers libs ignoredPatterns id after) ∈
      requests libs ignoredPatterns (events ++ after) := by
  induction events using List.reverseRecOn generalizing after with
  | nil => cases h
  | append_singleton events e ih =>
    rw [waiting_append] at h
    rw [List.append_assoc, List.singleton_append]
    cases e with
    | requestWillBeSent i request =>
      cases hacc : request.bind (discovered libs ignoredPatterns) with
      | none =>
        simp only [waits, hacc] at h
        have := ih h (.requestWillBeSent i request :: after)
        simpa only [answers, hacc, Option.isSome_none, Bool.false_eq_true, and_false, if_false]
          using this
      | some ep =>
        simp only [waits, hacc] at h
        by_cases hi : id = i
        · subst hi
          rw [Function.update_self] at h
          cases h
          apply requests_append_right
          simp only [requests, Event.accepted, hacc, Option.map_some]
          exact List.mem_cons_self
        · rw [Function.update_of_ne hi] at h
          have := ih h (.requestWillBeSent i request :: after)
          simpa only [answers, Ne.symm hi, false_and, if_false] using this
    | responseReceived i response =>
      cases response with
      | none =>
        have := ih h (.responseReceived i none :: after)
        simpa only [answers, Option.toList_none, List.nil_append, ite_self] using this
      | some resp =>
        simp only [waits] at h
        have hi : id ≠ i := by
          rintro rfl
          rw [Function.update_self] at h
          cases h
        rw [Function.update_of_ne hi] at h
        have := ih h (.responseReceived i (some resp) :: after)
        simpa only [answers, Ne.symm hi, if_false] using this

/-- One more event adds at most one response to what a request received, and the first one only
to a request that waits. -/
theorem answers_append (id : RequestID) (w : RequestID → Option String) (events : List Event)
    (e : Event) :
    answers libs ignoredPatterns id (events ++ [e]) = answers libs ignoredPatterns id events ∨
      ∃ resp, e = .responseReceived id (some resp) ∧
        answers libs ignoredPatterns id (events ++ [e]) =
          answers libs ignoredPatterns id events ++ [resp] ∧
        (answers libs ignoredPatterns id events = [] →
          events.foldl (waits libs ignoredPatterns) w id = w id) := by
  induction events generalizing w with
  | nil =>
    rw [List.nil_append]
    cases e with
    | requestWillBeSent i request =>
      left
      simp only [answers, ite_self]
    | responseReceived i response =>
      by_cases hi : i = id
      · subst hi
        cases response with
        | none =>
          left
          simp [answers]
        | some resp => exact Or.inr ⟨resp, rfl, by simp [answers], fun _ => rfl⟩
      · left
        simp [answers, hi]
  | cons e' events ih =>
    rw [List.cons_append, List.foldl_cons]
    cases e' with
    | requestWillBeSent i request =>
      simp only [answers]
      by_cases hi : i = id ∧ (request.bind (discovered libs ignoredPatterns)).isSome
      · left
        rw [if_pos hi, if_pos hi]
      · rw [if_neg hi, if_neg hi]
        have hw : waits libs ignoredPatterns w (.requestWillBeSent i request) id = w id := by
          cases hacc : request.bind (discovered libs ignoredPatterns) with
          | none => simp only [waits, hacc]
          | some ep =>
            rw [hacc, Option.isSome_some] at hi
            simp only [and_true] at hi
            simp only [waits, hacc]
            exact Function.update_of_ne (Ne.symm hi) _ _
        rw [← hw]
        exact ih _
    | responseReceived i response =>
      simp only [answers]
      by_cases hi : i = id
      · subst hi
        rw [if_pos rfl, if_pos rfl]
        rcases ih (waits libs ignoredPatterns w (.responseReceived i response)) with
          heq | ⟨resp, he, heq, hfirst⟩
        · left
          rw [heq]
        · refine Or.inr ⟨resp, he, by rw [heq, List.append_assoc], fun hnil => ?_⟩
          rw [List.append_eq_nil_iff] at hnil
          cases response with
          | none => exact hfirst hnil.2
          | some _ => simp at hnil
      · rw [if_neg hi, if_neg hi]
        have hw : waits libs ignoredPatterns w (.responseReceived i response) id = w id := by
          cases response with
          | none => rfl
          | some _ => exact Function.update_of_ne (Ne.symm hi) _ _
        rw [← hw]
        exact ih _

/-- A request stays what it is, with at most one response more: its first, when it waited. -/
theorem mem_requests_append {id : RequestID} {key : String} {received : List Response}
    (w : RequestID → Option String) {events : List Event}
    (h : (id, key, received) ∈ requests libs ignoredPatterns events) (e : Event) :
    (id, key, received) ∈ requests libs ignoredPatterns (events ++ [e]) ∨
      ∃ resp, e = .responseReceived id (some resp) ∧
        (id, key, received ++ [resp]) ∈ requests libs ignoredPatterns (events ++ [e]) ∧
        (received = [] → events.foldl (waits libs ignoredPatterns) w id = some key) := by
  induction events generalizing w with
  | nil => cases h
  | cons e' events ih =>
    rw [List.cons_append, List.foldl_cons]
    have hskip : e'.accepted libs ignoredPatterns = none →
        (id, key, received) ∈ requests libs ignoredPatterns (e' :: (events ++ [e])) ∨
        ∃ resp, e = .responseReceived id (some resp) ∧
          (id, key, received ++ [resp]) ∈
            requests libs ignoredPatterns (e' :: (events ++ [e])) ∧
          (received = [] → events.foldl (waits libs ignoredPatterns)
            (waits libs ignoredPatterns w e') id = some key) := by
      intro hacc
      rw [requests_not_accepted hacc] at h ⊢
      exact ih _ h
    cases e' with
    | responseReceived i response => exact hskip rfl
    | requestWillBeSent i request =>
      cases hacc : request.bind (discovered libs ignoredPatterns) with
      | none => exact hskip (accepted_none i hacc)
      | some ep =>
        rw [requests_accepted hacc] at h ⊢
        have hw : waits libs ignoredPatterns w (.requestWillBeSent i request) i =
            some ep.key := by
          simp only [waits, hacc]
          exact Function.update_self _ _ _
        generalize waits libs ignoredPatterns w (.requestWillBeSent i request) = w' at hw ⊢
        rcases List.mem_cons.mp h with heq | hmem
        · cases heq
          rcases @answers_append libs ignoredPatterns id w' events e with
            hsame | ⟨resp, he, hmore, hfirst⟩
          · left
            rw [hsame]
            exact List.mem_cons_self
          · refine Or.inr ⟨resp, he, ?_, fun hnil => (hfirst hnil).trans hw⟩
            rw [hmore]
            exact List.mem_cons_self
        · rcases ih w' hmem with hsame | ⟨resp, he, hmore, hfirst⟩
          · exact Or.inl (List.mem_cons_of_mem _ hsame)
          · exact Or.inr ⟨resp, he, List.mem_cons_of_mem _ hmore, hfirst⟩

/-- A key stays kept, unless the event drops it. -/
theorem Kept.append {events : List Event} {key : String}
    (h : Kept libs ignoredPatterns events key) {e : Event}
    (hdrops : ¬Drops libs ignoredPatterns events e key) :
    Kept libs ignoredPatterns (events ++ [e]) key := by
  obtain ⟨⟨id, _, received⟩, hmem, rfl, hgood⟩ := h
  rcases mem_requests_append (fun _ => none) hmem e with hsame | ⟨resp, rfl, hmore, hfirst⟩
  · exact ⟨_, hsame, rfl, hgood⟩
  · refine ⟨_, hmore, rfl, Or.inr ?_⟩
    rcases hgood with rfl | ⟨good, hgood, hquiet⟩
    · -- the first response: it would drop the key if it were noise
      refine ⟨resp, List.mem_singleton.mpr rfl, ?_⟩
      by_contra hnoise
      exact hdrops ⟨resp, rfl, by simpa using hnoise, hfirst rfl⟩
    · exact ⟨good, List.mem_append_left _ hgood, hquiet⟩

theorem Raises.kept {events : List Event} {e : Event} {key : String}
    (h : Raises libs ignoredPatterns events e key) :
    Kept libs ignoredPatterns (events ++ [e]) key := by
  cases e with
  | requestWillBeSent id request =>
    obtain ⟨ep, hacc, rfl⟩ := h
    refine ⟨(id, ep.key, []), requests_append_right events _ _ ?_, rfl, Or.inl rfl⟩
    simp [requests, Event.accepted, hacc, answers]
  | responseReceived id response =>
    obtain ⟨resp, rfl, hquiet, hwait⟩ := h
    have hmem := mem_requests_of_waiting hwait [.responseReceived id (some resp)]
    exact ⟨_, hmem, rfl, Or.inr ⟨resp, by simp [answers], hquiet⟩⟩

theorem kept_of_lists {events : List Event} {key : String}
    (h : (sniffed libs ignoredPatterns events).Lists key) :
    Kept libs ignoredPatterns events key := by
  induction events using List.reverseRecOn with
  | nil =>
    rw [lists_iff] at h
    simp [sniffed, NewSniffer] at h
  | append_singleton events e ih =>
    rcases (lists_append events e key).mp h with hraises | ⟨hlists, hdrops⟩
    · exact hraises.kept
    · exact (ih hlists).append hdrops

/-! The last word. -/

theorem NoiseLast.append {events : List Event} {key : String} {e : Event}
    (h : NoiseLast libs ignoredPatterns events key)
    (hraises : ¬Raises libs ignoredPatterns events e key) :
    NoiseLast libs ignoredPatterns (events ++ [e]) key := by
  obtain ⟨before, e₀, after, rfl, hdrops, hafter⟩ := h
  refine ⟨before, e₀, after ++ [e], by simp, hdrops, fun mid e' rest heq => ?_⟩
  rcases List.eq_nil_or_concat rest with rfl | ⟨rest, last, rfl⟩
  · obtain ⟨rfl, hlast⟩ := List.append_inj' heq rfl
    cases hlast
    exact hraises
  · have hsplit : after ++ [e] = (mid ++ e' :: rest) ++ [last] := by simpa using heq
    exact hafter mid e' rest (List.append_inj_left' hsplit rfl)

theorem not_lists_of_noiseLast {events : List Event} {key : String}
    (h : NoiseLast libs ignoredPatterns events key) :
    ¬(sniffed libs ignoredPatterns events).Lists key := by
  obtain ⟨before, e, after, rfl, hdrops, hafter⟩ := h
  induction after using List.reverseRecOn with
  | nil =>
    rw [lists_append, not_or]
    refine ⟨fun hraises => ?_, fun hlists => hlists.2 hdrops⟩
    cases e with
    | requestWillBeSent => exact hdrops
    | responseReceived id response =>
      obtain ⟨resp, rfl, hquiet, -⟩ := hraises
      obtain ⟨_, heq, hnoise, -⟩ := hdrops
      cases heq
      rw [hquiet] at hnoise
      cases hnoise
  | append_singleton after e' ih =>
    have hsplit : before ++ e :: (after ++ [e']) = (before ++ e :: after) ++ [e'] := by simp
    rw [hsplit, lists_append, not_or]
    refine ⟨hafter after e' [] rfl, fun hlists => ih (fun mid e₁ rest heq => ?_) hlists.1⟩
    exact hafter mid e₁ (rest ++ [e']) (by rw [heq]; simp)

theorem keys_append (events events' : List Event) :
    (requests libs ignoredPatterns (events ++ events')).map (·.2.1) =
      (requests libs ignoredPatterns events).map (·.2.1) ++
        (requests libs ignoredPatterns events').map (·.2.1) := by
  induction events with
  | nil => rfl
  | cons e events ih =>
    rw [List.cons_append, requests, requests]
    cases e.accepted libs ignoredPatterns with
    | none => exact ih
    | some a => exact congrArg (a.2.key :: ·) ih

theorem raises_of_key {events : List Event} {e : Event} {key : String}
    (h : key ∈ (requests libs ignoredPatterns [e]).map (·.2.1)) :
    Raises libs ignoredPatterns events e key := by
  cases e with
  | responseReceived => cases h
  | requestWillBeSent id request =>
    cases hacc : request.bind (discovered libs ignoredPatterns) with
    | none =>
      rw [requests_not_accepted (accepted_none id hacc)] at h
      cases h
    | some ep =>
      rw [requests_accepted hacc] at h
      exact ⟨ep, hacc, (List.mem_singleton.mp h).symm⟩

/-- The key of a request is listed, or the last word on it is noise. -/
theorem lists_or_noiseLast {events : List Event} {key : String}
    (h : key ∈ (requests libs ignoredPatterns events).map (·.2.1)) :
    (sniffed libs ignoredPatterns events).Lists key ∨
      NoiseLast libs ignoredPatterns events key := by
  induction events using List.reverseRecOn with
  | nil => cases h
  | append_singleton events e ih =>
    rw [lists_append]
    by_cases hraises : Raises libs ignoredPatterns events e key
    · exact Or.inl (Or.inl hraises)
    by_cases hdrops : Drops libs ignoredPatterns events e key
    · exact Or.inr ⟨events, e, [], rfl, hdrops, by simp⟩
    rw [keys_append, List.mem_append] at h
    rcases ih (h.resolve_right fun hkey => hraises (raises_of_key hkey)) with hlists | hlast
    · exact Or.inl (Or.inr ⟨hlists, hdrops⟩)
    · exact Or.inr (hlast.append hraises)

/-- The sniffer keeps what is not noise exactly as long as no noise response is the last word on
a key that another response, or a request without one, speaks for. -/
theorem sniffer_keeps_what_is_not_noise (libs : Libs) (ignoredPatterns : List String)
    (events : List Event) (key : String) :
    ((sniffed libs ignoredPatterns events).Lists key ↔ Kept libs ignoredPatterns events key) ↔
      NoneSilenced libs ignoredPatterns events key := by
  constructor
  · intro hiff hlast hkept
    exact not_lists_of_noiseLast hlast (hiff.mpr hkept)
  · intro hnone
    refine ⟨kept_of_lists, fun hkept => ?_⟩
    obtain ⟨r, hmem, hkey, -⟩ := id hkept
    refine (lists_or_noiseLast ?_).resolve_right fun hlast => hnone hlast hkept
    exact List.mem_map.mpr ⟨r, hmem, hkey⟩

/-! The order of the responses. -/

/-! Two requests for one key, of which one is answered with a page. -/

/-- The parser on the two URLs of the example. -/
def exampleLibs : Libs where
  Parse url :=
    if url = "http://t/api/users/1" then some ⟨"http", "t", "/api/users/1", []⟩
    else if url = "http://t/api/users/2" then some ⟨"http", "t", "/api/users/2", []⟩
    else none
  ToLower := id
  ToUpper := id
  EqualFold a b := a = b

def exampleEvents : List Event :=
  [.requestWillBeSent "1" (some ⟨"http://t/api/users/1", "GET", [], []⟩),
    .requestWillBeSent "2" (some ⟨"http://t/api/users/2", "GET", [], []⟩),
    .responseReceived "1" (some ⟨"http://t/api/users/1", "application/json"⟩),
    .responseReceived "2" (some ⟨"http://t/api/users/2", "text/html"⟩)]

/-- The answer with data is forgotten for the page that comes last; in the other order it is
not. -/
theorem noise_takes_away_kept_endpoint :
    Kept exampleLibs [] exampleEvents "GET http://t/api/users/{id}" ∧
      ¬(sniffed exampleLibs [] exampleEvents).Lists "GET http://t/api/users/{id}" ∧
      (sniffed exampleLibs [] (exampleEvents.take 2 ++ (exampleEvents.drop 2).reverse)).Lists
        "GET http://t/api/users/{id}" := by
  rw [lists_iff, lists_iff, ← AList.lookup_isSome, ← AList.lookup_isSome]
  unfold Kept
  decide +kernel

end Swazz.Crawler
