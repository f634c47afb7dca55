import Swazz.GuardedDial

/-! The client for requests sent through the proxies of a run. -/
namespace Swazz.TrustedProxy

open AtomicCalls BlockedAddresses NetAddress GuardedDial

structure AddrPort where
  addr : IP
  zone : List Char
  port : ℕ

/-- The parts of a URL that choose where a request goes. -/
structure URL where
  Scheme : String
  Host : List Char
  deriving DecidableEq

/-- What lies outside the repository: the parsers of `net` and `net/url`, the lookup profile of
`idna` and `idna.ToASCII`, which maps nothing. -/
structure Libs where
  ParseIP : List Char → Option IP
  ParseAddrPort : List Char → Option AddrPort
  ParseURL : List Char → Option URL
  LookupToASCII : List Char → Option (List Char)
  ToASCII : List Char → Option (List Char)

/-! The trusted proxies of the operator. -/

/-- `parseProxyAddr`: no host name, no zone, no port 0; a mapped address becomes IPv4. -/
def parseProxyAddr (libs : Libs) (s : List Char) : Option (IP × ℕ) :=
  match libs.ParseAddrPort s with
  | none => none
  | some ap =>
    if ap.port = 0 ∨ ap.zone ≠ [] then none else some (ap.addr.To4.getD ap.addr, ap.port)

def isSpace (c : Char) : Bool :=
  c.isWhitespace || c == '\x0b' || c == '\x0c' || c == '\u0085' || c == '\u00a0' ||
    c == '\u1680' || ('\u2000' ≤ c && c ≤ '\u200a') || c == '\u2028' || c == '\u2029' ||
    c == '\u202f' || c == '\u205f' || c == '\u3000'

def TrimSpace (s : List Char) : List Char :=
  ((s.dropWhile isSpace).reverse.dropWhile isSpace).reverse

/-- Each entry may be a list with commas. -/
def rawEntries (entries : List (List Char)) : List (List Char) :=
  (entries.flatMap fun entry => (entry.splitOn ',').map TrimSpace).filter (· ≠ [])

/-- The trusted addresses, or the first entry that is not one. -/
def TrustProxies (libs : Libs) (entries : List (List Char)) :
    Except (List Char) (List (IP × ℕ)) :=
  (rawEntries entries).mapM fun raw =>
    match parseProxyAddr libs raw with
    | some ap => .ok ap
    | none => .error raw

def IsTrustedProxy (libs : Libs) (trustedProxies : List (IP × ℕ)) (addr : List Char) : Bool :=
  match parseProxyAddr libs addr with
  | some ap => decide (ap ∈ trustedProxies)
  | none => false

/-! URLs. -/

/-- The host and the port of the `Host` of a URL. -/
def splitHost (hostPort : List Char) : List Char × List Char :=
  let (host, port) :=
    match lastColon hostPort with
    | some (before, port) => if port.all Char.isDigit then (before, port) else (hostPort, [])
    | none => (hostPort, [])
  if host.head? = some '[' ∧ host.getLast? = some ']' then (host.tail.dropLast, port)
  else (host, port)

def URL.Hostname (u : URL) : List Char := (splitHost u.Host).1

def URL.Port (u : URL) : List Char := (splitHost u.Host).2

/-- The address a transport dials for a proxy. -/
def proxyDialAddr (u : URL) : List Char :=
  let port :=
    if u.Port = [] then
      if u.Scheme = "https" then "443".toList
      else if u.Scheme = "socks5" ∨ u.Scheme = "socks5h" then "1080".toList
      else "80".toList
    else u.Port
  JoinHostPort u.Hostname port

/-- Its errors name the proxy by its position only. -/
def parseProxyURL (libs : Libs) (raw : List Char) (index : ℕ) : Except String URL :=
  match libs.ParseURL raw with
  | none => .error ("proxy #" ++ toString (index + 1) ++ " is not a valid URL")
  | some u =>
    if u.Scheme ∉ ["http", "https", "socks5", "socks5h"] then
      .error ("proxy #" ++ toString (index + 1) ++ " needs an http, https or socks5 scheme")
    else if u.Host = [] then .error ("proxy #" ++ toString (index + 1) ++ " has no host")
    else .ok u

def parseProxyList (libs : Libs) (raw : List (List Char)) : Except String (List URL) :=
  if raw = [] then .error "no proxy configured"
  else raw.zipIdx.mapM fun (p, i) => parseProxyURL libs p i

/-! The proxied client. -/

/-- The client as it is built, once: its proxies and the addresses it trusts among them. -/
structure Client where
  libs : Libs
  proxies : Except String (List URL)
  trusted : List (List Char)
  allowPrivate : Bool

def proxiedClient (libs : Libs) (trustedProxies : List (IP × ℕ)) (ProxyList : List (List Char))
    (allowPrivate : Bool) : Client where
  libs := libs
  proxies := parseProxyList libs ProxyList
  trusted :=
    match parseProxyList libs ProxyList with
    | .ok proxies => (proxies.map proxyDialAddr).filter (IsTrustedProxy libs trustedProxies ·)
    | .error _ => []
  allowPrivate := allowPrivate

/-- What the transport looks at of a request: its URL and its Host header, empty when unset.
A request of a pooled connection dials nothing. -/
structure Request where
  url : URL
  Host : List Char
  pooled : Bool
  deriving DecidableEq

/-- A minute, in milliseconds. -/
def targetCheckTTL : ℕ := 60000

def maxCheckedTargets : ℕ := 1024

def isASCII (s : List Char) : Bool := s.all fun c => c.toNat < 128

/-- The name that `checkHost` looks up. -/
def asciiHost (libs : Libs) (host : List Char) : Option (List Char) :=
  if isASCII host then some host else libs.LookupToASCII host

def checkHost (libs : Libs) (host : List Char) : Dial Unit := do
  match asciiHost libs host with
  | none => throw "request blocked by SSRF policy: invalid host name"
  | some ascii =>
    let now ← attempt (perform .now)
    let c ← attempt (perform (.getChecked ascii))
    match c.filter fun c => now < c.untilTime with
    | some c => resultOf (c.err.elim (.ok ()) .error)
    | none =>
      match ← attempt (ResolvePublic libs.ParseIP ascii).run with
      | .error err =>
        -- A request that was cancelled says nothing about the host.
        if ← attempt (perform .ctxErr) then throw err
        else
          attempt (perform (.setChecked ascii ⟨now + targetCheckTTL, some err⟩))
          throw err
      | .ok _ => attempt (perform (.setChecked ascii ⟨now + targetCheckTTL, none⟩))

/-- The hosts that the proxy is to connect to. -/
def targetHosts (req : Request) (proxy : URL) : List (List Char) :=
  let host := req.url.Hostname
  if req.Host ≠ [] ∧ req.url.Scheme = "http" ∧
      (proxy.Scheme = "http" ∨ proxy.Scheme = "https") then
    let h := (URL.mk "" req.Host).Hostname
    if h ≠ host then [host, h] else [host]
  else [host]

def checkHosts (libs : Libs) : List (List Char) → Dial Unit
  | [] => return ()
  | host :: hosts => do
    match ← attempt (checkHost libs host).run with
    | .error err =>
      throw ("target " ++ String.ofList host ++ " through trusted proxy: " ++ err)
    | .ok () => checkHosts libs hosts

local instance instLawfulBEqAddress : LawfulBEq (List Char) := inferInstance

/-- The proxy of a request: the next one of the rotation. -/
def Proxy (c : Client) (req : Request) : Dial URL := do
  match c.proxies with
  | .error err => throw err
  | .ok proxies =>
    let turn ← attempt (perform .nextProxyTurn)
    match proxies[turn % proxies.length]? with
    | none => throw "no proxy configured"
    | some proxy =>
      if !c.allowPrivate && decide (proxyDialAddr proxy ∈ c.trusted) then
        checkHosts c.libs (targetHosts req proxy)
      return proxy

def trustedProxyDial (c : Client) (addr : List Char) : Dial Unit :=
  if addr ∈ c.trusted ∨ c.allowPrivate = true then perform (.dial "tcp" addr)
  else guardDial c.libs.ParseIP "tcp" addr

/-- A request until it is handed to its proxy. -/
def roundTrip (c : Client) (req : Request) : Dial URL := do
  let proxy ← Proxy c req
  if !req.pooled then trustedProxyDial c (proxyDialAddr proxy)
  return proxy

/-! What `net/http` writes. -/

/-- An address with a port, its host in punycode. -/
def PunycodeHostPort (libs : Libs) (v : List Char) : Option (List Char) :=
  if isASCII v then some v
  else
    match SplitHostPort v with
    | .error _ => libs.ToASCII v
    | .ok (host, port) =>
      (libs.ToASCII host).map fun host => if port = [] then host else JoinHostPort host port

/-- The zone of an IPv6 address is not sent. -/
def removeZone (host : List Char) : List Char :=
  match host with
  | '[' :: _ =>
    let close := host.reverse.dropWhile (· != ']')
    let bare := close.tail.reverse
    if close = [] ∨ !bare.contains '%' then host
    else (bare.reverse.dropWhile (· != '%')).tail.reverse ++ host.drop bare.length
  | _ => host

/-- The host that a proxy is told to connect to: of the request line for plain HTTP through an
HTTP proxy, else of the tunnel. -/
def toldHost (libs : Libs) (req : Request) (proxy : URL) : Option (List Char) :=
  if req.url.Scheme = "http" ∧ (proxy.Scheme = "http" ∨ proxy.Scheme = "https") then
    (PunycodeHostPort libs (if req.Host = [] then req.url.Host else req.Host)).map fun host =>
      (URL.mk "" (removeZone host)).Hostname
  else
    let addr := req.url.Hostname
    some (if isASCII addr then addr else (libs.LookupToASCII addr).getD addr)

end Swazz.TrustedProxy
