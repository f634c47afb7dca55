import Swazz.FloatText
import Swazz.StepSystem

/-! JSON-RPC calls to an MCP server, over an SSE stream with HTTP POSTs or over the standard
input and output of a process. A call is registered under the key of its id, with a channel of
its own on which the reader of the stream sends it its response. -/
namespace Swazz.Mcp

open FloatText

/-- Ids as `any`: those of requests are `uint64`, those of responses are decoded from JSON. What
is neither a number nor a text stands as `%v` prints it. -/
inductive Id where
  | null
  | string (v : String)
  | uint64 (v : ℕ)
  | float64 (v : Float64)
  | other (printed : String)

def idToKey : Id → String
  | .null => ""
  | .string v => "s:" ++ v
  | .uint64 v => "f:" ++ String.ofList (formatFloat (ofNat v))
  | .float64 v => "f:" ++ String.ofList (formatFloat v)
  | .other printed => "v:" ++ printed

/-- `any` as JSON decodes it is never a `uint64`. -/
structure Response where
  id : Id
  payload : String
  decoded : ∀ v, id ≠ .uint64 v

/-- `SSEClient` or `StdioClient`. -/
inductive Transport where
  | sse
  | stdio
  deriving DecidableEq

/-- A channel with room for one response, and the number it arrived under. -/
structure Chan where
  buffer : Option (ℕ × Response)
  closed : Bool

/-- Where a goroutine stands in `sendRequest`; `failing` is about to delete its entry. -/
inductive Pc where
  | entered
  | registered
  | checking
  | sending
  | waiting
  | failing (message : String)
  | returned (result : Except String (ℕ × Response))

/-- A call of `sendRequest`; `ctxDone` once its deadline has passed or it was cancelled. -/
structure Call where
  pc : Pc
  id : ℕ
  chan : Chan
  ctxDone : Bool

def Call.key (c : Call) : String := idToKey (.uint64 c.id)

/-- The loop that reads responses; `holding` has taken a channel out of the map. -/
inductive Reader where
  | scanning
  | holding (i n : ℕ) (resp : Response)
  | ended

/-- The one `Close` that goes on after its first look at `isClosed`. -/
inductive Closing where
  | idle
  | marked
  | swept
  deriving DecidableEq

/-- A client and its goroutines. The channel of a call is named by the index of the call.
`exitSwept` once `waitProcess` has returned, `received` counts the responses, and `panicked` is
a send on a closed channel or the close of one. -/
structure Client where
  pending : List (String × ℕ)
  nextID : ℕ
  isClosed : Bool
  streamEnded : Bool
  processDone : Bool
  exitSwept : Bool
  closing : Closing
  calls : List Call
  reader : Reader
  received : ℕ
  panicked : Bool

def newClient : Client where
  pending := []
  nextID := 0
  isClosed := false
  streamEnded := false
  processDone := false
  exitSwept := false
  closing := .idle
  calls := []
  reader := .scanning
  received := 0
  panicked := false

def errClosedPipe : String := "io: read/write on closed pipe"

def errStreamEnded : String :=
  "the MCP server closed the SSE stream, so no response can arrive (it is not reopened): " ++
    errClosedPipe

def errChannelClosed : Transport → String
  | .sse => "SSE connection closed while waiting for response"
  | .stdio => "channel closed, process likely terminated"

namespace Client

def setCall (s : Client) (i : ℕ) (c : Call) : Client := { s with calls := s.calls.set i c }

def delete (s : Client) (key : String) : Client :=
  { s with pending := s.pending.filter fun entry => entry.1 ≠ key }

def lookup (s : Client) (key : String) : Option ℕ :=
  (s.pending.find? fun entry => entry.1 = key).map Prod.snd

/-- `close(ch)`. -/
def closeChan (s : Client) (i : ℕ) : Client :=
  match s.calls[i]? with
  | none => s
  | some c =>
    if c.chan.closed then { s with panicked := true }
    else s.setCall i { c with chan := { c.chan with closed := true } }

/-- Every pending channel is closed and deleted. -/
def sweep (s : Client) : Client :=
  { s.pending.foldl (fun s entry => s.closeChan entry.2) s with pending := [] }

/-- The section under the lock with which a call starts. -/
def register (transport : Transport) (s : Client) (i : ℕ) (c : Call) : Client :=
  if s.isClosed then s.setCall i { c with pc := .returned (.error errClosedPipe) }
  else if transport = .sse ∧ s.streamEnded = true then
    s.setCall i { c with pc := .returned (.error errStreamEnded) }
  else
    let id := s.nextID + 1
    let key := idToKey (.uint64 id)
    { s with
      nextID := id
      pending := (key, i) :: s.pending.filter fun entry => entry.1 ≠ key
      calls := s.calls.set i { c with pc := .registered, id := id, chan := ⟨none, false⟩ } }

/-- `<-ch`, if it does not block. -/
def receive (transport : Transport) (s : Client) (i : ℕ) (c : Call) : Option Client :=
  match c.chan.buffer, c.chan.closed with
  | some (n, resp), closed =>
    some (s.setCall i { c with pc := .returned (.ok (n, resp)), chan := ⟨none, closed⟩ })
  | none, true =>
    some (s.setCall i { c with pc := .returned (.error (errChannelClosed transport)) })
  | none, false => none

/-- `ch <- &resp`, if it does not block. -/
def send (s : Client) (i n : ℕ) (resp : Response) : Option Client :=
  match s.calls[i]? with
  | none => none
  | some c =>
    if c.chan.closed then some { s with panicked := true }
    else if c.chan.buffer.isSome then none
    else some (s.setCall i { c with chan := { c.chan with buffer := some (n, resp) } })

end Client

/-- `next i` is the goroutine of a call at work; at its choice `expire` and `exited` take the
other cases of its select, and `abort` is a POST that its deadline ends. `sent` is the end of
the POST or of the write, by the server or the process. -/
inductive Move where
  | sendRequest
  | next (i : ℕ) (marshals : Bool)
  | expire (i : ℕ)
  | exited (i : ℕ)
  | abort (i : ℕ)
  | sent (i : ℕ) (ok : Bool)
  | deadline (i : ℕ)
  | respond (resp : Response)
  | deliver
  | endStream
  | close
  | sweepClose
  | exit
  | sweepExit

/-- The next step of `sendRequest` that does not wait for anyone. -/
def advance (transport : Transport) (s : Client) (i : ℕ) (marshals : Bool) (c : Call) :
    Option Client :=
  match c.pc with
  | .entered => some (s.register transport i c)
  | .registered =>
    if marshals then
      match transport with
      | .sse => some (s.setCall i { c with pc := .sending })
      | .stdio => some (s.setCall i { c with pc := .checking })
    else some (s.setCall i { c with pc := .failing "json: error" })
  | .checking =>
    if s.isClosed then some (s.setCall i { c with pc := .failing errClosedPipe })
    else some (s.setCall i { c with pc := .sending })
  | .sending => none
  | .waiting => s.receive transport i c
  | .failing message =>
    some ((s.delete c.key).setCall i { c with pc := .returned (.error message) })
  | .returned _ => none

/-- What a call does in one of its cases. -/
def withCall (s : Client) (i : ℕ) (f : Call → Option Client) : Option Client :=
  match s.calls[i]? with
  | none => none
  | some c => f c

def expire (s : Client) (i : ℕ) (c : Call) : Option Client :=
  match c.pc with
  | .waiting =>
    if c.ctxDone then some (s.setCall i { c with pc := .failing "context deadline exceeded" })
    else none
  | _ => none

def exited (transport : Transport) (s : Client) (i : ℕ) (c : Call) : Option Client :=
  match c.pc, transport with
  | .waiting, .stdio =>
    if s.processDone then
      some (s.setCall i { c with pc := .returned (.error "process terminated") })
    else none
  | _, _ => none

def abort (transport : Transport) (s : Client) (i : ℕ) (c : Call) : Option Client :=
  match c.pc, transport with
  | .sending, .sse =>
    if c.ctxDone then some (s.setCall i { c with pc := .failing "POST request failed" })
    else none
  | _, _ => none

/-- Before the process is reported as done, its standard input is closed. -/
def sent (transport : Transport) (s : Client) (i : ℕ) (ok : Bool) (c : Call) : Option Client :=
  match c.pc with
  | .sending =>
    if ok then
      if transport = .stdio ∧ s.processDone = true then none
      else some (s.setCall i { c with pc := .waiting })
    else some (s.setCall i { c with pc := .failing "request failed" })
  | _ => none

/-- The reader takes the channel of a response out of the map. -/
def respond (s : Client) (resp : Response) : Option Client :=
  match s.reader with
  | .scanning =>
    match s.lookup (idToKey resp.id) with
    | none => some { s with received := s.received + 1 }
    | some i => some { s.delete (idToKey resp.id) with
        reader := .holding i s.received resp
        received := s.received + 1 }
  | _ => none

def step (transport : Transport) (s : Client) : Move → Option Client
  | .sendRequest => some { s with calls := s.calls ++ [⟨.entered, 0, ⟨none, false⟩, false⟩] }
  | .next i marshals => withCall s i (advance transport s i marshals)
  | .expire i => withCall s i (expire s i)
  | .exited i => withCall s i (exited transport s i)
  | .abort i => withCall s i (abort transport s i)
  | .sent i ok => withCall s i (sent transport s i ok)
  | .deadline i => withCall s i fun c => some (s.setCall i { c with ctxDone := true })
  | .respond resp => respond s resp
  | .deliver =>
    match s.reader with
    | .holding i n resp => (s.send i n resp).map fun t => { t with reader := .scanning }
    | _ => none
  | .endStream =>
    match s.reader, transport with
    | .scanning, .sse => some { s.sweep with streamEnded := true, reader := .ended }
    | .scanning, .stdio => some { s with reader := .ended }
    | _, _ => none
  | .close =>
    if s.isClosed then some s else some { s with isClosed := true, closing := .marked }
  | .sweepClose =>
    if transport = .sse ∧ s.closing = .marked then some { s.sweep with closing := .swept }
    else none
  | .exit =>
    if transport = .stdio ∧ s.processDone = false then some { s with processDone := true }
    else none
  | .sweepExit =>
    if transport = .stdio ∧ s.processDone = true ∧ s.exitSwept = false then
      some { s.sweep with exitSwept := true }
    else none

end Swazz.Mcp
