import Swazz.McpStreams

/-! Which streams both readers find the response in. -/
namespace Swazz.Mcp

open JsonTokens EventStream
open TrustedProxy (TrimSpace isSpace)

/-! Lines of the grammar. -/

/-- What a reader that splits at line feeds sees of a line. -/
def lineRaw (l : Line) : EventStream.Text := l.text ++ if l.ending = .crlf then ['\r'] else []

def Fits (l : Line) : Prop := size (lineRaw l) < maxTokenSize
  deriving Decidable

/-- All lines of a stream. -/
def linesOf (stream : List Event) : List Line := stream.flatMap Event.all

/-- The values of the event's lines that begin with `event:`, as the SSE client reads them. -/
def eventNames (lines : List Line) : List EventStream.Text :=
  (lines.filter fun l => "event:".toList.isPrefixOf l.text).map fun l => TrimSpace (l.text.drop 6)

/-- The event names the type `message`. -/
def NamesMessage (e : Event) : Prop := (eventNames e.lines).getLastD [] = "message".toList
  deriving Decidable

/-- A field whose name is `data` behind white space: not a data line. -/
def Indented (l : Line) : Prop :=
  ¬"data:".toList <+: l.text ∧ "data:".toList <+: TrimSpace l.text
  deriving Decidable

/-- The stream's messages are notifications and the response `r` to the request `id`, which is
the message of `e`. -/
structure Answers (json : Json) (id : ℕ) (r : Response) (before : List Event) (e : Event)
    (after : List Event) : Prop where
  lines : ∀ e' ∈ before ++ e :: after, ∀ l ∈ e'.lines, l.WellFormed
  types : ∀ e' ∈ before ++ e :: after, e'.data ≠ [] →
    e'.type = [] ∨ e'.type = "message".toList
  response : json.Unmarshal e.message = some r
  key : idToKey r.id = idToKey (.uint64 id)
  notifications : ∀ e' ∈ before ++ after, e'.data ≠ [] →
    ∃ m, json.Unmarshal e'.message = some m ∧ m.id = .null

/-- Both readers find the response: the loop hands it to the call, among any pending ones, and
the POST's body is read as it. -/
def Found (json : Json) (ids : List ℕ) (id : ℕ) (r : Response) (stream : List Event) : Prop :=
  (idToKey (.uint64 id), r) ∈
      readSSELoop json (ids.map fun i => idToKey (.uint64 i)) (render stream) ∧
    readResponse json 200 "text/event-stream".toList (render stream) = .ok r

/-- The streams that both readers can read. -/
structure Readable (before : List Event) (e : Event) (after : List Event) : Prop where
  ends : ∀ l ∈ linesOf (before ++ e :: after), l.ending ≠ .cr
  fits : ∀ l ∈ linesOf (before ++ [e]), Fits l
  small : size (render (before ++ e :: after)) ≤ maxResponseBytes
  names : NamesMessage e
  alone : ∀ e' ∈ before ++ after, e'.data = []
  indented : ∀ l ∈ linesOf (before ++ e :: after), ¬Indented l

/-! White space and tokens. -/

theorem isSpace_cases {c : Char} (h : isSpace c = true) :
    c ∈ [' ', '\t', '\n', '\r', '\x0b', '\x0c', '\u0085', '\u00a0', '\u1680', '\u2028', '\u2029',
      '\u202f', '\u205f', '\u3000'] ∨ ∃ n < 11, c = Char.ofNat (8192 + n) := by
  simp only [isSpace, Char.isWhitespace, Bool.or_eq_true, Bool.and_eq_true, beq_iff_eq,
    decide_eq_true_eq] at h
  by_cases hrange : '\u2000' ≤ c ∧ c ≤ '\u200a'
  · right
    obtain ⟨hlow, hhigh⟩ := hrange
    rw [Char.le_def, UInt32.le_iff_toNat_le] at hlow hhigh
    have hlow' : 8192 ≤ c.toNat := hlow
    have hhigh' : c.toNat ≤ 8202 := hhigh
    refine ⟨c.toNat - 8192, by omega, ?_⟩
    rw [Nat.add_sub_cancel' hlow', Char.ofNat_toNat]
  · left
    simp only [hrange, or_false] at h
    simp only [List.mem_cons, List.not_mem_nil, or_false]
    tauto

theorem isSpace_blank {c : Char} (h : isSpace c = true) : isBlank c = true ∨ opens c = none := by
  have hlist : [' ', '\t', '\n', '\r', '\x0b', '\x0c', '\u0085', '\u00a0', '\u1680',
      '\u2028', '\u2029', '\u202f', '\u205f', '\u3000'].all fun c =>
        isBlank c = true ∨ (opens c).isNone = true := by decide
  have hrange : ∀ n < 11, isBlank (Char.ofNat (8192 + n)) = true ∨
      (opens (Char.ofNat (8192 + n))).isNone = true := by decide
  rw [← Option.isNone_iff_eq_none]
  rcases isSpace_cases h with hmem | ⟨n, hn, rfl⟩
  · exact of_decide_eq_true (List.all_eq_true.mp hlist c hmem)
  · exact hrange n hn

theorem lex_TrimSpace {s : EventStream.Text} {ts : List Token} (h : lex s = some ts) :
    lex (TrimSpace s) = some ts := lex_trim (fun _ => isSpace_blank) h

/-- The tokens of some lines, one after the other. -/
def tokensOf (values : List EventStream.Text) : Option (List Token) :=
  values.foldr (fun v ts => joined (lex v) ts) (some [])

theorem lex_intercalate (values : List EventStream.Text) :
    lex (['\n'].intercalate values) = tokensOf values := by
  induction values with
  | nil => rfl
  | cons v values ih =>
    cases values with
    | nil => simp [List.intercalate, tokensOf]
    | cons w values =>
      have hcons : ['\n'].intercalate (v :: w :: values) =
          v ++ '\n' :: ['\n'].intercalate (w :: values) := by
        simp [List.intercalate, List.intersperse]
      rw [hcons, lex_lineEnd (Or.inl rfl), ih]
      rfl

theorem tokensOf_append (u v : List EventStream.Text) :
    tokensOf (u ++ v) = joined (tokensOf u) (tokensOf v) := by
  induction u with
  | nil => simp [tokensOf]
  | cons x u ih =>
    simp only [List.cons_append, tokensOf, List.foldr_cons] at ih ⊢
    rw [ih]
    cases lex x with
    | none => rfl
    | some ts => exact map_append_joined ts _ _

/-! The event of the SSE client's loop. -/

theorem readLine_Event (e : SSEEvent) (lines : List Line) :
    (lines.foldl (fun e l => e.readLine l.text) e).Event = (eventNames lines).getLastD e.Event := by
  induction lines generalizing e with
  | nil => rfl
  | cons l lines ih =>
    rw [List.foldl_cons, ih, eventNames, eventNames]
    by_cases hp : "event:".toList.isPrefixOf l.text = true
    · rw [List.filter_cons, if_pos hp, List.map_cons, SSEEvent.readLine, if_pos hp,
        List.getLastD_cons]
    · rw [List.filter_cons, if_neg hp, SSEEvent.readLine, if_neg hp]
      split
      · dsimp only
        split <;> rfl
      · rfl

/-- The value of a data line has the tokens of what follows the colon. -/
theorem lex_value {l : Line} (hp : "data:".toList <+: l.text) :
    lex l.field.2 = lex (l.text.drop 5) := by
  have hfield := @field_of_begins "data".toList (by decide) l hp
  rw [hfield]
  change lex (if (l.text.drop 5).head? = some ' ' then (l.text.drop 5).tail else l.text.drop 5) = _
  split
  · rename_i hhead
    cases hdrop : l.text.drop 5 with
    | nil => rfl
    | cons c s =>
      rw [hdrop] at hhead
      cases hhead
      have hblank : lex (' ' :: s) = (lex s).map ([] ++ ·) := rfl
      rw [hblank]
      simp
  · rfl

theorem field_data {l : Line} (hp : "data:".toList <+: l.text) : l.field.1 = "data".toList := by
  rw [@field_of_begins "data".toList (by decide) l hp]

/-- A line of no data has no tokens in it for either reader. -/
theorem field_data_of_not_prefix {l : Line} (hp : ¬"data:".toList <+: l.text)
    (h : l.field.1 = "data".toList) : l.field.2 = [] := by
  rcases text_of_field h with ⟨-, hvalue⟩ | hbegins
  · exact hvalue
  · exact absurd hbegins hp

/-- The data that the loop puts together has the tokens of the message. -/
theorem readLine_Data {e : SSEEvent} {lines : List Line} {ts us : List Token}
    (he : lex e.Data = some ts)
    (h : tokensOf ((lines.filter (·.field.1 = "data".toList)).map (·.field.2)) = some us) :
    lex (lines.foldl (fun e l => e.readLine l.text) e).Data = some (ts ++ us) := by
  induction lines generalizing e ts us with
  | nil =>
    cases h
    rw [List.append_nil]
    exact he
  | cons l lines ih =>
    rw [List.foldl_cons]
    by_cases hdata : "data:".toList <+: l.text
    · have hfield := field_data hdata
      rw [List.filter_cons, if_pos (by simpa using hfield), List.map_cons, tokensOf,
        List.foldr_cons, joined_eq_some] at h
      obtain ⟨x, y, hx, hy, rfl⟩ := h
      rw [lex_value hdata] at hx
      have hval := lex_TrimSpace hx
      have hnot : ¬"event:".toList.isPrefixOf l.text = true := by
        obtain ⟨s, hs⟩ := hdata
        rw [← hs]
        exact Bool.false_ne_true
      rw [← List.append_assoc]
      refine ih ?_ hy
      rw [SSEEvent.readLine, if_neg hnot, if_pos (List.isPrefixOf_iff_prefix.mpr hdata)]
      by_cases hempty : e.Data = []
      · rw [hempty] at he
        cases he
        simp only [hempty, if_true]
        exact hval
      · simp only [hempty, if_false]
        rw [lex_lineEnd (Or.inl rfl), he, hval]
        rfl
    · have hsame : (e.readLine l.text).Data = e.Data := by
        unfold SSEEvent.readLine
        split
        · rfl
        · rw [if_neg (fun hp => hdata (List.isPrefixOf_iff_prefix.mp hp))]
      apply ih (by rw [hsame]; exact he)
      rw [List.filter_cons] at h
      split at h
      · rename_i hfield
        rw [List.map_cons, field_data_of_not_prefix hdata (by simpa using hfield)] at h
        simpa [tokensOf, joined, lex, lexFrom, ending] using h
      · exact h

/-- The loop's event at the end of an event of the stream. -/
def codeEvent (e : Event) : SSEEvent :=
  e.lines.foldl (fun e l => e.readLine l.text) ⟨[], []⟩

theorem Unmarshal_eq_some {json : Json} {text : Text} {r : Response} :
    json.Unmarshal text = some r ↔ ∃ ts, lex text = some ts ∧ json.decode ts = some r := by
  simp [Json.Unmarshal, Option.bind_eq_some_iff]

theorem Unmarshal_codeEvent {json : Json} {e : Event} {r : Response}
    (h : json.Unmarshal e.message = some r) : json.Unmarshal (codeEvent e).Data = some r := by
  obtain ⟨ts, hlex, hdecode⟩ := Unmarshal_eq_some.mp h
  rw [Event.message, lex_intercalate] at hlex
  exact Unmarshal_eq_some.mpr ⟨ts, @readLine_Data ⟨[], []⟩ e.lines [] ts rfl hlex, hdecode⟩

theorem Unmarshal_codeEvent_none {json : Json} {e : Event} (h : e.data = []) :
    json.Unmarshal (codeEvent e).Data = none := by
  have hnone : tokensOf e.data = some [] := by
    rw [h]
    rfl
  have hlex := @readLine_Data ⟨[], []⟩ e.lines [] [] rfl hnone
  rw [Json.Unmarshal, codeEvent, hlex]
  exact json.empty

/-! The loop. -/

theorem readLine_blank (json : Json) (s : Loop) :
    s.readLine json [] =
      { s.handleSSEEvent json s.currentEvent with currentEvent := ⟨[], []⟩ } := by
  rw [Loop.readLine, if_pos rfl]
  dsimp only
  split
  · rfl
  · rename_i h
    rw [not_or, not_not, not_not] at h
    obtain ⟨⟨ev, data⟩, pending, handed⟩ := s
    obtain ⟨rfl, rfl⟩ := h
    rfl

def runLines (json : Json) (s : Loop) (lines : List Line) : Loop :=
  lines.foldl (fun s l => s.readLine json l.text) s

theorem runLines_append (json : Json) (s : Loop) (u v : List Line) :
    runLines json s (u ++ v) = runLines json (runLines json s u) v := List.foldl_append

/-- Lines that are not empty only change the event that is being read. -/
theorem runLines_inside (json : Json) {lines : List Line} (h : ∀ l ∈ lines, l.text ≠ [])
    (s : Loop) : runLines json s lines =
      { s with currentEvent := lines.foldl (fun e l => e.readLine l.text) s.currentEvent } := by
  induction lines generalizing s with
  | nil => rfl
  | cons l lines ih =>
    rw [runLines, List.foldl_cons, ← runLines, ih fun m hm => h m (List.mem_cons_of_mem l hm),
      Loop.readLine, if_neg (h l List.mem_cons_self)]
    rfl

/-- A whole event: what it hands over is that of its code event. -/
theorem runLines_event (json : Json) {e : Event} (h : ∀ l ∈ e.lines, l.text ≠ []) {s : Loop}
    (hs : s.currentEvent = ⟨[], []⟩) :
    runLines json s e.all =
      { s.handleSSEEvent json (codeEvent e) with currentEvent := ⟨[], []⟩ } := by
  rw [Event.all, runLines_append, runLines_inside json h, hs]
  change Loop.readLine json _ [] = _
  rw [readLine_blank]
  change { Loop.handleSSEEvent json { s with currentEvent := codeEvent e } (codeEvent e) with
    currentEvent := ⟨[], []⟩ } = _
  unfold Loop.handleSSEEvent
  split
  · rfl
  · split
    · split
      · rfl
      · dsimp only
        split <;> rfl
    · rfl

/-- An event that hands nothing to the calls. -/
def Silent (json : Json) (pending : List String) (e : Event) : Prop :=
  (∀ l ∈ e.lines, l.text ≠ []) ∧ ∀ s : Loop, s.pending = pending →
    s.handleSSEEvent json (codeEvent e) = s

theorem runLines_silent {json : Json} {pending : List String} {events : List Event}
    (h : ∀ e ∈ events, Silent json pending e) {s : Loop} (hs : s.currentEvent = ⟨[], []⟩)
    (hp : s.pending = pending) : runLines json s (linesOf events) = s := by
  induction events with
  | nil => rfl
  | cons e events ih =>
    obtain ⟨hlines, hhandle⟩ := h e List.mem_cons_self
    rw [linesOf, List.flatMap_cons, runLines_append, runLines_event json hlines hs, hhandle s hp,
      ← hs]
    exact ih fun e' he' => h e' (List.mem_cons_of_mem e he')

theorem fits_blank (ending : LineEnd) : Fits ⟨[], ending⟩ := by
  cases ending <;> decide

/-- A reader that stops at a line that does not fit stops inside an event. -/
theorem takeWhile_all {e : Event} (h : ¬∀ l ∈ e.all, Fits l) (lines : List Line) :
    (e.all ++ lines).takeWhile (fun l => Fits l) = e.lines.takeWhile fun l => Fits l := by
  have hinner : ¬∀ l ∈ e.lines, decide (Fits l) = true := by
    intro hall
    refine h fun l hl => ?_
    rcases List.mem_append.mp hl with hl | hl
    · exact of_decide_eq_true (hall l hl)
    · rw [List.mem_singleton.mp hl]
      exact fits_blank e.ending
  rw [Event.all, List.append_assoc, List.takeWhile_append, if_neg]
  intro hlen
  apply hinner
  exact List.takeWhile_eq_self_iff.mp ((List.takeWhile_prefix _).eq_of_length hlen)

/-- However far a reader comes in silent events, it hands nothing over. -/
theorem handed_silent {json : Json} {pending : List String} {events : List Event}
    (h : ∀ e ∈ events, Silent json pending e) {s : Loop} (hs : s.currentEvent = ⟨[], []⟩)
    (hp : s.pending = pending) :
    (runLines json s ((linesOf events).takeWhile fun l => Fits l)).handed = s.handed := by
  induction events with
  | nil => rfl
  | cons e events ih =>
    obtain ⟨hlines, hhandle⟩ := h e List.mem_cons_self
    rw [linesOf, List.flatMap_cons]
    by_cases hfits : ∀ l ∈ e.all, Fits l
    · rw [List.takeWhile_append_of_pos (fun l hl => decide_eq_true (hfits l hl)), runLines_append,
        runLines_event json hlines hs, hhandle s hp, ← hs]
      exact ih fun e' he' => h e' (List.mem_cons_of_mem e he')
    · rw [takeWhile_all hfits, runLines_inside json fun l hl =>
        hlines l ((List.takeWhile_sublist _).subset hl)]

theorem handed_mono (json : Json) (lines : List Line) (s : Loop) :
    s.handed <+: (runLines json s lines).handed := by
  induction lines generalizing s with
  | nil => exact List.prefix_rfl
  | cons l lines ih =>
    refine List.IsPrefix.trans ?_ (ih _)
    change s.handed <+: (Loop.readLine json s l.text).handed
    unfold Loop.readLine
    split
    · dsimp only
      split
      · unfold Loop.handleSSEEvent
        split
        · exact List.prefix_rfl
        · split
          · split
            · exact List.prefix_rfl
            · dsimp only
              split
              · exact List.prefix_append _ _
              · exact List.prefix_rfl
          · exact List.prefix_rfl
      · exact List.prefix_rfl
    · exact List.prefix_rfl

theorem silent_of_notification {json : Json} {pending : List String} (hp : "" ∉ pending)
    {e : Event} (hlines : ∀ l ∈ e.lines, l.text ≠ [])
    (h : e.data ≠ [] → ∃ m, json.Unmarshal e.message = some m ∧ m.id = .null) :
    Silent json pending e := by
  refine ⟨hlines, fun s hs => ?_⟩
  unfold Loop.handleSSEEvent
  split
  · rfl
  · split
    · by_cases hdata : e.data = []
      · rw [Unmarshal_codeEvent_none hdata]
      · obtain ⟨m, hm, hid⟩ := h hdata
        rw [Unmarshal_codeEvent hm]
        have hkey : idToKey m.id ∉ s.pending := by
          rw [hid, hs]
          exact hp
        exact if_neg hkey
    · rfl

theorem silent_of_unnamed {json : Json} {pending : List String} {e : Event}
    (hlines : ∀ l ∈ e.lines, l.text ≠ []) (h : ¬NamesMessage e) : Silent json pending e := by
  refine ⟨hlines, fun s _ => ?_⟩
  have hname : (codeEvent e).Event ≠ "message".toList := by
    rw [codeEvent, readLine_Event]
    exact h
  unfold Loop.handleSSEEvent
  split
  · rfl
  · rfl

/-- The event of the response hands it over. -/
theorem handed_response {json : Json} {e : Event} {r : Response} {s : Loop}
    (hlines : ∀ l ∈ e.lines, l.text ≠ []) (hs : s.currentEvent = ⟨[], []⟩) (hname : NamesMessage e)
    (hr : json.Unmarshal e.message = some r) (hkey : idToKey r.id ∈ s.pending) :
    (idToKey r.id, r) ∈ (runLines json s e.all).handed := by
  have hevent : (codeEvent e).Event = "message".toList := by
    rw [codeEvent, readLine_Event]
    exact hname
  rw [runLines_event json hlines hs]
  unfold Loop.handleSSEEvent
  rw [if_neg (by rw [hevent]; decide), if_pos hevent, Unmarshal_codeEvent hr]
  dsimp only
  rw [if_pos hkey]
  exact List.mem_append_right _ List.mem_cons_self

/-! The lines of a body. -/

theorem lineRaw_render {l : Line} (h : l.ending ≠ .cr) : l.render = lineRaw l ++ ['\n'] := by
  unfold Line.render lineRaw
  cases hl : l.ending with
  | lf => simp [LineEnd.text]
  | crlf => simp [LineEnd.text]
  | cr => exact absurd hl h

theorem lineRaw_lf {l : Line} (h : '\n' ∉ l.text) : '\n' ∉ lineRaw l := by
  unfold lineRaw
  split
  · simpa using h
  · simpa using h

theorem dropCR_lineRaw {l : Line} (h : '\r' ∉ l.text) : dropCR (lineRaw l) = l.text := by
  unfold lineRaw dropCR
  split
  · simp
  · rw [List.append_nil, if_neg]
    intro hlast
    exact h (List.mem_of_getLast? hlast)

theorem splitOn_lines {lines : List Line} (hends : ∀ l ∈ lines, l.ending ≠ .cr)
    (hlf : ∀ l ∈ lines, '\n' ∉ l.text) :
    (lines.flatMap Line.render).splitOn '\n' = lines.map lineRaw ++ [[]] := by
  induction lines with
  | nil => rfl
  | cons l lines ih =>
    have hrest := ih (fun m hm => hends m (List.mem_cons_of_mem l hm))
      fun m hm => hlf m (List.mem_cons_of_mem l hm)
    rw [List.flatMap_cons, lineRaw_render (hends l List.mem_cons_self), List.append_assoc,
      List.singleton_append, List.splitOn_append_cons_self,
      List.splitOn_eq_singleton (lineRaw_lf (hlf l List.mem_cons_self)), hrest]
    rfl

theorem scanLines_lines {lines : List Line} (hends : ∀ l ∈ lines, l.ending ≠ .cr)
    (hlf : ∀ l ∈ lines, '\n' ∉ l.text) (hcr : ∀ l ∈ lines, '\r' ∉ l.text) :
    scanLines (lines.flatMap Line.render) =
      (lines.takeWhile fun l => Fits l).map Line.text := by
  rw [scanLines, splitOn_lines hends hlf]
  simp only [List.getLast?_concat, if_true, List.dropLast_concat, List.takeWhile_map, List.map_map]
  refine List.map_congr_left fun l hl => ?_
  exact dropCR_lineRaw (hcr l ((List.takeWhile_sublist _).subset hl))

/-! The SSE client. -/

section Answered

variable {json : Json} {id : ℕ} {r : Response} {before after : List Event} {e : Event}

theorem Answers.line (h : Answers json id r before e after) {l : Line}
    (hl : l ∈ linesOf (before ++ e :: after)) : '\n' ∉ l.text ∧ '\r' ∉ l.text := by
  obtain ⟨e', he', hmem⟩ := List.mem_flatMap.mp hl
  rcases List.mem_append.mp hmem with hmem | hmem
  · exact (h.lines e' he' l hmem).2
  · rw [List.mem_singleton.mp hmem]
    simp

theorem Answers.nonempty (h : Answers json id r before e after) {e' : Event}
    (he' : e' ∈ before ++ e :: after) : ∀ l ∈ e'.lines, l.text ≠ [] :=
  fun l hl => (h.lines e' he' l hl).1

theorem empty_not_mem (ids : List ℕ) : "" ∉ ids.map fun i => idToKey (.uint64 i) := by
  intro hmem
  obtain ⟨i, -, hi⟩ := List.mem_map.mp hmem
  have hlen := congrArg String.toList hi
  simp [idToKey] at hlen

theorem Answers.silent (h : Answers json id r before e after) (ids : List ℕ) {e' : Event}
    (he' : e' ∈ before ++ after) : Silent json (ids.map fun i => idToKey (.uint64 i)) e' := by
  refine silent_of_notification (empty_not_mem ids) (h.nonempty ?_) (h.notifications e' he')
  rcases List.mem_append.mp he' with hmem | hmem
  · exact List.mem_append_left _ hmem
  · exact List.mem_append_right _ (List.mem_cons_of_mem e hmem)

theorem render_eq (stream : List Event) : render stream = (linesOf stream).flatMap Line.render := by
  rw [linesOf, List.flatMap_assoc]
  rfl

/-- The SSE client without bare carriage returns: the lines up to the response's event fit and
the event names its type. -/
theorem handed_iff (h : Answers json id r before e after) {ids : List ℕ} (hid : id ∈ ids)
    (hends : ∀ l ∈ linesOf (before ++ e :: after), l.ending ≠ .cr) :
    (idToKey (.uint64 id), r) ∈ readSSELoop json (ids.map fun i => idToKey (.uint64 i))
        (render (before ++ e :: after)) ↔
      (∀ l ∈ linesOf (before ++ [e]), Fits l) ∧ NamesMessage e := by
  set pending := ids.map fun i => idToKey (.uint64 i) with hpending
  set s₀ : Loop := ⟨⟨[], []⟩, pending, []⟩ with hs₀
  have hbefore : ∀ e' ∈ before, Silent json pending e' :=
    fun e' he' => h.silent ids (List.mem_append_left _ he')
  have hafter : ∀ e' ∈ after, Silent json pending e' :=
    fun e' he' => h.silent ids (List.mem_append_right _ he')
  have hloop : readSSELoop json pending (render (before ++ e :: after)) =
      (runLines json s₀ ((linesOf (before ++ e :: after)).takeWhile fun l => Fits l)).handed := by
    rw [readSSELoop, render_eq, scanLines_lines hends (fun l hl => (h.line hl).1)
      (fun l hl => (h.line hl).2), List.foldl_map]
    rfl
  have hsplit : linesOf (before ++ e :: after) = linesOf before ++ (e.all ++ linesOf after) := by
    simp only [linesOf, List.flatMap_append, List.flatMap_cons]
  have hfitsIff : (∀ l ∈ linesOf (before ++ [e]), Fits l) ↔
      (∀ l ∈ linesOf before, Fits l) ∧ ∀ l ∈ e.all, Fits l := by
    simp only [linesOf, List.flatMap_append, List.forall_mem_append, List.flatMap_cons,
      List.flatMap_nil, List.append_nil]
  have hlines : ∀ l ∈ e.lines, l.text ≠ [] := h.nonempty (by simp)
  rw [hloop, hsplit, hfitsIff]
  by_cases hfits : ∀ l ∈ linesOf before, Fits l
  swap
  · -- the reader stops in an event before that of the response
    have hstop : (linesOf before ++ (e.all ++ linesOf after)).takeWhile (fun l => Fits l) =
        (linesOf before).takeWhile fun l => Fits l := by
      rw [List.takeWhile_append, if_neg]
      intro hlen
      apply hfits
      have hall := List.takeWhile_eq_self_iff.mp ((List.takeWhile_prefix _).eq_of_length hlen)
      exact fun l hl => of_decide_eq_true (hall l hl)
    rw [hstop, handed_silent hbefore rfl rfl]
    exact ⟨fun hmem => absurd hmem (List.not_mem_nil), fun hall => absurd hall.1.1 hfits⟩
  rw [List.takeWhile_append_of_pos (fun l hl => decide_eq_true (hfits l hl)), runLines_append,
    runLines_silent hbefore rfl rfl]
  by_cases hall : ∀ l ∈ e.all, Fits l
  swap
  · rw [takeWhile_all hall, runLines_inside json fun l hl =>
      hlines l ((List.takeWhile_sublist _).subset hl)]
    exact ⟨fun hmem => absurd hmem (List.not_mem_nil), fun hc => absurd hc.1.2 hall⟩
  rw [List.takeWhile_append_of_pos (fun l hl => decide_eq_true (hall l hl)), runLines_append]
  by_cases hname : NamesMessage e
  · have hpend : idToKey r.id ∈ s₀.pending := by
      rw [h.key]
      exact List.mem_map_of_mem hid
    have hresponse := handed_response hlines rfl hname h.response hpend
    rw [h.key] at hresponse
    exact ⟨fun _ => ⟨⟨hfits, hall⟩, hname⟩,
      fun _ => (handed_mono json _ _).subset hresponse⟩
  · have hsilent : Silent json pending e := silent_of_unnamed hlines hname
    have hsame : runLines json s₀ e.all = s₀ := by
      have := @runLines_silent json pending [e] (by simpa using hsilent) s₀ rfl rfl
      simpa [linesOf] using this
    rw [hsame, handed_silent hafter rfl rfl]
    exact ⟨fun hmem => absurd hmem (List.not_mem_nil), fun hc => absurd hc.2 hname⟩

/-- With carriage returns as the only line ends the whole stream is one line. -/
theorem handed_cr (json : Json) (pending : List String) {stream : List Event}
    (hends : ∀ l ∈ linesOf stream, l.ending = .cr) (hlf : ∀ l ∈ linesOf stream, '\n' ∉ l.text) :
    readSSELoop json pending (render stream) = [] := by
  have hbody : '\n' ∉ render stream := by
    rw [render_eq, List.mem_flatMap]
    rintro ⟨l, hl, hmem⟩
    rw [Line.render, hends l hl, List.mem_append] at hmem
    rcases hmem with hmem | hmem
    · exact hlf l hl hmem
    · simp [LineEnd.text] at hmem
  have hone : scanLines (render stream) = [] ∨ ∃ x, scanLines (render stream) = [x] := by
    rw [scanLines, List.splitOn_eq_singleton hbody]
    split
    · exact Or.inl rfl
    · rw [List.takeWhile_cons]
      split
      · exact Or.inr ⟨_, rfl⟩
      · exact Or.inl rfl
  rw [readSSELoop]
  rcases hone with hnil | ⟨x, hx⟩
  · rw [hnil]
    rfl
  · rw [hx, List.foldl_cons, List.foldl_nil, Loop.readLine]
    split
    · rfl
    · rfl

/-! The HTTP client. -/

/-- The data of a line for the HTTP client. -/
def lineData (l : Line) : Option EventStream.Text :=
  if "data:".toList.isPrefixOf (TrimSpace (lineRaw l)) then
    some (TrimSpace ((TrimSpace (lineRaw l)).drop 5)) else none

theorem dataPayload_lines {lines : List Line} (hends : ∀ l ∈ lines, l.ending ≠ .cr)
    (hlf : ∀ l ∈ lines, '\n' ∉ l.text) :
    dataPayload (lines.flatMap Line.render) = lines.filterMap lineData := by
  rw [dataPayload, splitOn_lines hends hlf, List.filterMap_append, List.filterMap_map]
  exact List.append_nil _

theorem trim_lineRaw (l : Line) : TrimSpace (lineRaw l) = TrimSpace l.text := by
  unfold lineRaw
  split
  · unfold TrimSpace
    by_cases hall : ∀ c ∈ l.text, isSpace c = true
    · rw [List.dropWhile_append_of_pos hall,
        List.dropWhile_eq_nil_iff.mpr hall]
      rfl
    · have hne : l.text.dropWhile isSpace ≠ [] := fun hnil =>
        hall (List.dropWhile_eq_nil_iff.mp hnil)
      rw [List.dropWhile_append, if_neg (by simpa using hne), List.reverse_append,
        List.reverse_singleton, List.singleton_append, List.dropWhile_cons_of_pos (by decide)]
  · rw [List.append_nil]

/-- A data line keeps its name when it is trimmed, and the tokens of its value. -/
theorem trim_data {l : Line} (hp : "data:".toList <+: l.text) :
    "data:".toList <+: TrimSpace l.text ∧ ∀ ts, lex (l.text.drop 5) = some ts →
      lex (TrimSpace ((TrimSpace l.text).drop 5)) = some ts := by
  obtain ⟨value, hvalue⟩ := hp
  have htrim : TrimSpace l.text =
      "data:".toList ++ (value.reverse.dropWhile isSpace).reverse := by
    have hleft : l.text.dropWhile isSpace = l.text := by
      rw [← hvalue]
      rfl
    rw [TrimSpace, hleft, ← hvalue, List.reverse_append, List.dropWhile_append]
    split
    · rename_i hnil
      rw [List.isEmpty_iff] at hnil
      rw [hnil]
      rfl
    · rw [List.reverse_append, List.reverse_reverse]
  have hdrop : l.text.drop 5 = value := by
    rw [← hvalue]
    rfl
  refine ⟨⟨_, htrim.symm⟩, fun ts hts => lex_TrimSpace ?_⟩
  rw [hdrop] at hts
  rw [htrim]
  exact lex_trimRight (fun _ => isSpace_blank) hts

theorem tokensOf_lineData {lines : List Line} (h : ∀ l ∈ lines, ¬Indented l) {ts : List Token}
    (hts : tokensOf ((lines.filter (·.field.1 = "data".toList)).map (·.field.2)) = some ts) :
    tokensOf (lines.filterMap lineData) = some ts := by
  induction lines generalizing ts with
  | nil => exact hts
  | cons l lines ih =>
    have hrest := fun us => @ih (fun m hm => h m (List.mem_cons_of_mem l hm)) us
    by_cases hdata : "data:".toList <+: l.text
    · rw [List.filter_cons, if_pos (by simpa using field_data hdata), List.map_cons, tokensOf,
        List.foldr_cons, joined_eq_some] at hts
      obtain ⟨x, y, hx, hy, rfl⟩ := hts
      rw [lex_value hdata] at hx
      obtain ⟨hbegins, hlex⟩ := trim_data hdata
      have hsome : lineData l = some (TrimSpace ((TrimSpace l.text).drop 5)) := by
        rw [lineData, trim_lineRaw]
        exact if_pos (List.isPrefixOf_iff_prefix.mpr hbegins)
      rw [List.filterMap_cons_some hsome, tokensOf, List.foldr_cons, hlex x hx]
      have hy' := hrest y hy
      rw [tokensOf] at hy'
      rw [hy']
      rfl
    · have hnone : lineData l = none := by
        rw [lineData, trim_lineRaw]
        refine if_neg fun hp => h l List.mem_cons_self ⟨hdata, ?_⟩
        exact List.isPrefixOf_iff_prefix.mp hp
      rw [List.filterMap_cons_none hnone]
      apply hrest
      rw [List.filter_cons] at hts
      split at hts
      · rename_i hfield
        rw [List.map_cons, field_data_of_not_prefix hdata (by simpa using hfield)] at hts
        simpa [tokensOf, joined, lex, lexFrom, ending] using hts
      · exact hts

theorem values_linesOf (stream : List Event) :
    ((linesOf stream).filter (·.field.1 = "data".toList)).map (·.field.2) =
      stream.flatMap Event.data := by
  induction stream with
  | nil => rfl
  | cons e stream ih =>
    rw [linesOf, List.flatMap_cons, List.filter_append, List.map_append, List.flatMap_cons, ← ih,
      Event.all, List.filter_append, List.map_append]
    have hblank : [Line.mk [] e.ending].filter (·.field.1 = "data".toList) = [] := rfl
    rw [hblank, List.map_nil, List.append_nil]
    rfl

/-- When the data of all messages together is a value, it is the data of one message. -/
theorem alone_of_decode {json : Json} {events : List Event}
    (h : ∀ e ∈ events, e.data ≠ [] → ∃ m, json.Unmarshal e.message = some m) :
    ∃ ts, tokensOf (events.flatMap Event.data) = some ts ∧
      (ts = [] → ∀ e ∈ events, e.data = []) ∧
      ∀ r, json.decode ts = some r → ∀ a e b, events = a ++ e :: b → e.data ≠ [] →
        ∀ e' ∈ a ++ b, e'.data = [] := by
  induction events with
  | nil => exact ⟨[], rfl, by simp, fun r _ a e b hsplit => by simp at hsplit⟩
  | cons e₁ events ih =>
    obtain ⟨ts, hts, hnil, halone⟩ := ih fun e he => h e (List.mem_cons_of_mem e₁ he)
    rw [List.flatMap_cons, tokensOf_append, hts]
    by_cases hdata : e₁.data = []
    · refine ⟨ts, by rw [hdata]; simp [tokensOf], fun hn e he => ?_, fun r hr a e b hsplit hne => ?_⟩
      · rcases List.mem_cons.mp he with rfl | he
        · exact hdata
        · exact hnil hn e he
      · cases a with
        | nil =>
          cases hsplit
          exact absurd hdata hne
        | cons e₂ a =>
          cases hsplit
          intro e' he'
          rcases List.mem_cons.mp he' with rfl | he'
          · exact hdata
          · exact halone r hr a e b rfl hne e' he'
    · obtain ⟨m, hm⟩ := h e₁ List.mem_cons_self hdata
      obtain ⟨us, hus, hdecode⟩ := Unmarshal_eq_some.mp hm
      rw [Event.message, lex_intercalate] at hus
      have husne : us ≠ [] := by
        rintro rfl
        rw [json.empty] at hdecode
        cases hdecode
      refine ⟨us ++ ts, by rw [hus]; rfl, fun hn => ?_, fun r hr a e b hsplit hne => ?_⟩
      · exact absurd (List.append_eq_nil_iff.mp hn).1 husne
      · -- the first message is a value already: nothing may follow it
        have hempty : ts = [] := by
          by_contra hts'
          rw [json.complete us ts m hdecode hts'] at hr
          cases hr
        cases a with
        | nil =>
          cases hsplit
          exact hnil hempty
        | cons e₂ a =>
          cases hsplit
          exact absurd (hnil hempty e (by simp)) hne

theorem readResponse_stream (json : Json) (body : Text) {payload : List Text}
    (hp : dataPayload body = payload) (hne : payload ≠ []) (r : Response) :
    readResponse json 200 "text/event-stream".toList body = .ok r ↔
      size body ≤ maxResponseBytes ∧
        json.Unmarshal (['\n'].intercalate payload) = some r := by
  have htype : "text/event-stream".toList <:+: "text/event-stream".toList := List.infix_rfl
  unfold readResponse
  rw [if_neg (by decide)]
  by_cases hsize : maxResponseBytes < size body
  · rw [if_pos hsize]
    constructor
    · intro h
      cases h
    · intro h
      exact absurd hsize (Nat.not_lt.mpr h.1)
  · rw [if_neg hsize, if_pos htype, hp]
    simp only [hne, ne_eq, not_false_eq_true, if_true]
    cases json.Unmarshal (['\n'].intercalate payload) with
    | none => simp
    | some m => simp [Nat.not_lt.mp hsize]

/-- The HTTP client without bare carriage returns: the body is not too large and no other event
has data. -/
theorem read_iff (h : Answers json id r before e after)
    (hends : ∀ l ∈ linesOf (before ++ e :: after), l.ending ≠ .cr)
    (hindent : ∀ l ∈ linesOf (before ++ e :: after), ¬Indented l) :
    readResponse json 200 "text/event-stream".toList (render (before ++ e :: after)) = .ok r ↔
      size (render (before ++ e :: after)) ≤ maxResponseBytes ∧
        ∀ e' ∈ before ++ after, e'.data = [] := by
  have hdecode : ∀ e' ∈ before ++ e :: after, e'.data ≠ [] →
      ∃ m, json.Unmarshal e'.message = some m := by
    intro e' he' hdata
    rcases List.mem_append.mp he' with hmem | hmem
    · obtain ⟨m, hm, -⟩ := h.notifications e' (List.mem_append_left _ hmem) hdata
      exact ⟨m, hm⟩
    · rcases List.mem_cons.mp hmem with rfl | hmem
      · exact ⟨r, h.response⟩
      · obtain ⟨m, hm, -⟩ := h.notifications e' (List.mem_append_right _ hmem) hdata
        exact ⟨m, hm⟩
  have hdata : e.data ≠ [] := by
    intro hnil
    obtain ⟨ts, hts, hr⟩ := Unmarshal_eq_some.mp h.response
    rw [Event.message, hnil] at hts
    cases hts
    rw [json.empty] at hr
    cases hr
  obtain ⟨ts, hts, hnil, halone⟩ := alone_of_decode hdecode
  have hpayload : dataPayload (render (before ++ e :: after)) =
      (linesOf (before ++ e :: after)).filterMap lineData := by
    rw [render_eq]
    exact dataPayload_lines hends fun l hl => (h.line hl).1
  have htokens := tokensOf_lineData hindent (by rw [values_linesOf]; exact hts)
  have hne : (linesOf (before ++ e :: after)).filterMap lineData ≠ [] := by
    intro hempty
    rw [hempty] at htokens
    cases htokens
    exact hdata (hnil rfl e (by simp))
  rw [readResponse_stream json _ hpayload hne]
  refine and_congr_right fun _ => ?_
  rw [Json.Unmarshal, lex_intercalate, htokens, Option.bind_some]
  constructor
  · exact fun hr => halone r hr before e after rfl hdata
  · intro hall
    have hbefore : before.flatMap Event.data = [] :=
      List.flatMap_eq_nil_iff.mpr fun e' he' => hall e' (List.mem_append_left _ he')
    have hafter : after.flatMap Event.data = [] :=
      List.flatMap_eq_nil_iff.mpr fun e' he' => hall e' (List.mem_append_right _ he')
    rw [List.flatMap_append, List.flatMap_cons, hbefore, hafter, List.append_nil,
      List.nil_append] at hts
    obtain ⟨us, hus, hr⟩ := Unmarshal_eq_some.mp h.response
    rw [Event.message, lex_intercalate, hts] at hus
    cases hus
    exact hr

/-- Both readers find the response in a readable stream; and they find it in no other one whose
lines end all alike, in carriage returns or not, and are not indented data. -/
theorem both_readers_find_response (h : Answers json id r before e after) {ids : List ℕ}
    (hid : id ∈ ids) :
    (Readable before e after → Found json ids id r (before ++ e :: after)) ∧
      (((∀ l ∈ linesOf (before ++ e :: after), l.ending = .cr) ∨
          ∀ l ∈ linesOf (before ++ e :: after), l.ending ≠ .cr) →
        (∀ l ∈ linesOf (before ++ e :: after), ¬Indented l) →
        Found json ids id r (before ++ e :: after) → Readable before e after) := by
  constructor
  · intro hreadable
    exact ⟨(handed_iff h hid hreadable.ends).mpr ⟨hreadable.fits, hreadable.names⟩,
      (read_iff h hreadable.ends hreadable.indented).mpr ⟨hreadable.small, hreadable.alone⟩⟩
  · rintro (hcr | hends) hindent ⟨hhanded, hread⟩
    · rw [handed_cr json _ hcr fun l hl => (h.line hl).1] at hhanded
      cases hhanded
    · obtain ⟨hfits, hnames⟩ := (handed_iff h hid hends).mp hhanded
      obtain ⟨hsmall, halone⟩ := (read_iff h hends hindent).mp hread
      exact ⟨hends, hfits, hsmall, hnames, halone, hindent⟩

end Answered

/-! A notification and a response. -/

def exampleResponse : Response := ⟨.float64 (FloatText.ofNat 1), "", by simp⟩

def exampleNotification : Response := ⟨.null, "", by simp⟩

def responseText : EventStream.Text := "\x7b\"id\":1\x7d".toList

def notificationText : EventStream.Text := "\x7b\"method\":\"n\"\x7d".toList

def responseTokens : List Token :=
  [.punctuator '\x7b', .string "id".toList, .punctuator ':', .word ['1'], .punctuator '\x7d']

def notificationTokens : List Token :=
  [.punctuator '\x7b', .string "method".toList, .punctuator ':', .string "n".toList,
    .punctuator '\x7d']

/-- The decoder on these two texts. -/
def exampleJson : Json where
  decode ts :=
    if ts = responseTokens then some exampleResponse
    else if ts = notificationTokens then some exampleNotification
    else none
  empty := rfl
  complete ts ts' r h hne := by
    have hlen : ts.length = 5 := by
      split at h
      · rename_i heq
        rw [heq]
        rfl
      · split at h
        · rename_i heq
          rw [heq]
          rfl
        · cases h
    have hpos : 0 < ts'.length := List.length_pos_iff.mpr hne
    have hlonger : ∀ us : List Token, us.length = 5 → ts ++ ts' ≠ us := by
      rintro us hus rfl
      rw [List.length_append] at hus
      omega
    rw [if_neg (hlonger _ rfl), if_neg (hlonger _ rfl)]

/-- One data line, of an event with or without its type. -/
def exampleEvent (named : Bool) (text : EventStream.Text) : Event :=
  ⟨(if named then [⟨"event: message".toList, .lf⟩] else []) ++ [⟨"data: ".toList ++ text, .lf⟩], .lf⟩

theorem wellFormed_exampleEvent {named : Bool} {text : EventStream.Text}
    (hlf : '\n' ∉ text) (hcr : '\r' ∉ text) :
    ∀ l ∈ (exampleEvent named text).lines, l.WellFormed := by
  intro l hl
  rcases List.mem_append.mp hl with hl | hl
  · cases named with
    | false => cases hl
    | true =>
      rw [List.mem_singleton.mp hl]
      exact ⟨by decide, by decide, by decide⟩
  · rw [List.mem_singleton.mp hl]
    refine ⟨by simp, ?_, ?_⟩
    · simp [hlf]
    · simp [hcr]

theorem unmarshal_response (named : Bool) :
    exampleJson.Unmarshal (exampleEvent named responseText).message = some exampleResponse := by
  cases named with
  | false => rfl
  | true => rfl

theorem unmarshal_notification :
    exampleJson.Unmarshal (exampleEvent false notificationText).message =
      some exampleNotification := by
  rfl

theorem both_readers_find_named :
    Found exampleJson [1] 1 exampleResponse [exampleEvent true responseText] := by
  have hanswers : Answers exampleJson 1 exampleResponse [] (exampleEvent true responseText) [] := by
    constructor
    · intro e' he'
      rw [List.mem_singleton.mp he']
      exact wellFormed_exampleEvent (by decide) (by decide)
    · intro e' he' _
      rw [List.mem_singleton.mp he']
      exact Or.inr (by decide)
    · exact unmarshal_response true
    · rfl
    · intro e' he'
      cases he'
  refine (both_readers_find_response hanswers (List.mem_singleton.mpr rfl)).1 ?_
  constructor
  · decide
  · decide
  · decide
  · decide
  · decide
  · decide

/-- A notification in front of the response, and no event types. -/
theorem response_not_found :
    Answers exampleJson 1 exampleResponse [exampleEvent false notificationText]
        (exampleEvent false responseText) [] ∧
      (idToKey (.uint64 1), exampleResponse) ∉ readSSELoop exampleJson [idToKey (.uint64 1)]
        (render [exampleEvent false notificationText, exampleEvent false responseText]) ∧
      readResponse exampleJson 200 "text/event-stream".toList
        (render [exampleEvent false notificationText, exampleEvent false responseText]) ≠
          .ok exampleResponse := by
  have hanswers : Answers exampleJson 1 exampleResponse [exampleEvent false notificationText]
      (exampleEvent false responseText) [] := by
    constructor
    · intro e' he'
      rcases List.mem_cons.mp he' with rfl | he'
      · exact wellFormed_exampleEvent (by decide) (by decide)
      · rw [List.mem_singleton.mp he']
        exact wellFormed_exampleEvent (by decide) (by decide)
    · intro e' he' _
      left
      rcases List.mem_cons.mp he' with rfl | he'
      · decide
      · rw [List.mem_singleton.mp he']
        decide
    · exact unmarshal_response false
    · rfl
    · intro e' he' _
      rw [List.mem_singleton.mp he']
      exact ⟨exampleNotification, unmarshal_notification, rfl⟩
  refine ⟨hanswers, ?_, ?_⟩
  · intro hmem
    obtain ⟨-, hnames⟩ := (handed_iff hanswers (List.mem_singleton.mpr rfl) (by decide)).mp hmem
    exact absurd hnames (by decide)
  · intro hread
    obtain ⟨-, halone⟩ := (read_iff hanswers (by decide) (by decide)).mp hread
    exact absurd (halone _ (List.mem_singleton.mpr rfl)) (by decide)

end Swazz.Mcp
