import Swazz.EventStream
import Swazz.JsonTokens
import Swazz.Mcp
import Swazz.TrustedProxy

/-! The two readers of an event stream that answers MCP requests: the loop of the SSE client and
the body of a POST of the HTTP client. -/
namespace Swazz.Mcp

open JsonTokens
open TrustedProxy (TrimSpace)

abbrev Text := List Char

/-- `json.Unmarshal` into a `Response`: what it makes of the tokens of a text. -/
structure Json where
  decode : List Token → Option Response
  empty : decode [] = none
  /-- Nothing follows a value. -/
  complete : ∀ ts ts' r, decode ts = some r → ts' ≠ [] → decode (ts ++ ts') = none

def Json.Unmarshal (json : Json) (text : Text) : Option Response :=
  (lex text).bind json.decode

/-- The bytes of a text. -/
def size (s : Text) : ℕ := (s.map Char.utf8Size).sum

/-! `bufio.Scanner` over lines. -/

def maxTokenSize : ℕ := 1024 * 1024

def dropCR (line : Text) : Text := if line.getLast? = some '\r' then line.dropLast else line

/-- The lines of a body, up to the first that does not fit into the buffer with its end. What
follows the last line end is a line when it is not empty. -/
def scanLines (body : Text) : List Text :=
  let lines := body.splitOn '\n'
  let lines := if lines.getLast? = some [] then lines.dropLast else lines
  (lines.takeWhile fun line => size line < maxTokenSize).map dropCR

/-! The SSE client. -/

structure SSEEvent where
  Event : Text
  Data : Text
  deriving DecidableEq

def SSEEvent.readLine (e : SSEEvent) (line : Text) : SSEEvent :=
  if "event:".toList.isPrefixOf line then { e with Event := TrimSpace (line.drop 6) }
  else if "data:".toList.isPrefixOf line then
    let dataVal := TrimSpace (line.drop 5)
    if e.Data = [] then { e with Data := dataVal }
    else { e with Data := e.Data ++ '\n' :: dataVal }
  else e

/-- The loop's event, the pending keys, and the responses handed to their calls. -/
structure Loop where
  currentEvent : SSEEvent
  pending : List String
  handed : List (String × Response)

/-- An endpoint goes to `Connect`; the response to a pending call goes to that call. -/
def Loop.handleSSEEvent (json : Json) (s : Loop) (event : SSEEvent) : Loop :=
  if event.Event = "endpoint".toList then s
  else if event.Event = "message".toList then
    match json.Unmarshal event.Data with
    | none => s
    | some resp =>
      let key := idToKey resp.id
      if key ∈ s.pending then
        { s with pending := s.pending.filter (· ≠ key), handed := s.handed ++ [(key, resp)] }
      else s
  else s

def Loop.readLine (json : Json) (s : Loop) (line : Text) : Loop :=
  if line = [] then
    let s' := if s.currentEvent.Event ≠ [] ∨ s.currentEvent.Data ≠ [] then
      s.handleSSEEvent json s.currentEvent else s
    { s' with currentEvent := ⟨[], []⟩ }
  else { s with currentEvent := s.currentEvent.readLine line }

/-- The responses that the loop hands to the pending calls. -/
def readSSELoop (json : Json) (pending : List String) (body : Text) : List (String × Response) :=
  ((scanLines body).foldl (Loop.readLine json) ⟨⟨[], []⟩, pending, []⟩).handed

/-! The HTTP client. -/

def maxResponseBytes : ℕ := 10 * 2 ^ 20

def dataPayload (body : Text) : List Text :=
  (body.splitOn '\n').filterMap fun line =>
    let line := TrimSpace line
    if "data:".toList.isPrefixOf line then some (TrimSpace (line.drop 5)) else none

/-- The response in the answer to a POST. -/
def readResponse (json : Json) (statusCode : ℕ) (contentType body : Text) :
    Except String Response :=
  if statusCode ≠ 200 then
    .error ("HTTP request failed with status " ++ toString statusCode)
  else if maxResponseBytes < size body then
    .error ("HTTP response is larger than " ++ toString maxResponseBytes ++ " bytes")
  else
    let payload := if "text/event-stream".toList <:+: contentType then dataPayload body else []
    let respBytes := if payload ≠ [] then ['\n'].intercalate payload else body
    match json.Unmarshal respBytes with
    | none => .error "json: cannot unmarshal"
    | some resp => .ok resp

end Swazz.Mcp
