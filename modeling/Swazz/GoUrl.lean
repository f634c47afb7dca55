import Swazz.Utf8

/-! URLs as Go's `net/url` reads, writes and resolves them. -/
namespace GoUrl

open Utf8

/-! Escaping. -/

inductive Encoding where
  | path | pathSegment | host | zone | userPassword | fragment
  deriving DecidableEq

def isLetter (c : Byte) : Bool := (97 ≤ c && c ≤ 122) || (65 ≤ c && c ≤ 90)

def isDigit (c : Byte) : Bool := 48 ≤ c && c ≤ 57

def shouldEscape (c : Byte) (mode : Encoding) : Bool :=
  if isLetter c || isDigit c then false
  else if (mode = .host ∨ mode = .zone) ∧ c ∈ ascii "!$&'()*+,;=:[]<>\"" then false
  else if c ∈ ascii "-_.~" then false
  else if c ∈ ascii "$&+,/:;=?@" then
    match mode with
    | .path => c ∈ ascii "?"
    | .pathSegment => c ∈ ascii "/;,?"
    | .userPassword => c ∈ ascii "@/?:"
    | .host | .zone => true
    | .fragment => false
  else if mode = .fragment ∧ c ∈ ascii "!()*" then false
  else true

def percent : Byte := 37
def slash : Byte := 47
def colon : Byte := 58
def hash : Byte := 35
def question : Byte := 63
def atSign : Byte := 64

/-- The capital digit of a value below 16. -/
def hexDigit (n : ℕ) : Byte := if n < 10 then Fin.ofNat 256 (48 + n) else Fin.ofNat 256 (55 + n)

def unhex (c : Byte) : Option ℕ :=
  if isDigit c then some (c.val - 48)
  else if 97 ≤ c ∧ c ≤ 102 then some (c.val - 87)
  else if 65 ≤ c ∧ c ≤ 70 then some (c.val - 55)
  else none

def escapeByte (mode : Encoding) (c : Byte) : Text :=
  if shouldEscape c mode then [percent, hexDigit (c.val / 16), hexDigit (c.val % 16)] else [c]

def escape (mode : Encoding) (s : Text) : Text := s.flatMap (escapeByte mode)

/-- The bytes that may stand escaped: in a host those that are not ASCII and the percent sign, in
a zone also those that need no escape in a host, and the blank. -/
def admits (mode : Encoding) (v : Byte) : Bool :=
  match mode with
  | .host => 128 ≤ v || v = percent
  | .zone => v = percent || v = 32 || !shouldEscape v .host
  | _ => true

/-- The bytes that may stand as they are. -/
def literal (mode : Encoding) (c : Byte) : Bool :=
  match mode with
  | .host | .zone => 128 ≤ c || !shouldEscape c mode
  | _ => true

def unescape (mode : Encoding) : Text → Option Text
  | [] => some []
  | c :: rest =>
    if c = percent then
      match rest with
      | high :: low :: rest =>
        match unhex high, unhex low with
        | some h, some l =>
          if admits mode (Fin.ofNat 256 (16 * h + l)) then
            (unescape mode rest).map (Fin.ofNat 256 (16 * h + l) :: ·)
          else none
        | _, _ => none
      | _ => none
    else if literal mode c then (unescape mode rest).map (c :: ·)
    else none

def PathEscape (s : Text) : Text := escape .pathSegment s

/-! URLs. -/

structure Userinfo where
  username : Text
  password : Option Text
  deriving DecidableEq

structure URL where
  Scheme : Text
  Opaque : Text
  User : Option Userinfo
  Host : Text
  Path : Text
  RawPath : Text
  OmitHost : Bool
  ForceQuery : Bool
  RawQuery : Text
  Fragment : Text
  RawFragment : Text
  deriving DecidableEq

def URL.empty : URL := ⟨[], [], none, [], [], [], false, false, [], [], []⟩

def validEncoded (s : Text) (mode : Encoding) : Bool :=
  s.all fun c => c ∈ ascii "!$&'()*+,;=:@[]%" || !shouldEscape c mode

/-- The encoded text of a part: the raw one while it is an encoding of the part. -/
def encoded (mode : Encoding) (s raw : Text) : Text :=
  if raw ≠ [] ∧ validEncoded raw mode ∧ unescape mode raw = some s then raw
  else if mode = .path ∧ s = ascii "*" then s
  else escape mode s

def URL.EscapedPath (u : URL) : Text := encoded .path u.Path u.RawPath

def URL.EscapedFragment (u : URL) : Text := encoded .fragment u.Fragment u.RawFragment

/-- What is kept of a raw text beside its decoding. -/
def rawOf (mode : Encoding) (s raw : Text) : Text := if raw = escape mode s then [] else raw

/-- `setPath`, which fails on a bad escape. -/
def URL.setPath (u : URL) (p : Text) : Option URL :=
  (unescape .path p).map fun path => { u with Path := path, RawPath := rawOf .path path p }

def URL.setFragment (u : URL) (f : Text) : Option URL :=
  (unescape .fragment f).map fun frag =>
    { u with Fragment := frag, RawFragment := rawOf .fragment frag f }

/-- `strings.Cut` at a byte: before it and after it. -/
def cut (sep : Byte) (s : Text) : Text × Text := (s.takeWhile (· ≠ sep), (s.dropWhile (· ≠ sep)).tail)

/-- Before and after the last of a byte, if there is one. -/
def cutLast (sep : Byte) (s : Text) : Option (Text × Text) :=
  if sep ∈ s then
    some (((s.reverse.dropWhile (· ≠ sep)).tail).reverse, (s.reverse.takeWhile (· ≠ sep)).reverse)
  else none

/-! Parsing. -/

def isSchemeByte (c : Byte) : Bool := isLetter c || isDigit c || c ∈ ascii "+-."

/-- The scheme and the rest; none for an empty scheme. -/
def getScheme (rawURL : Text) : Option (Text × Text) :=
  let scheme := rawURL.takeWhile isSchemeByte
  match rawURL.dropWhile isSchemeByte with
  | c :: rest =>
    if c = colon then
      match scheme with
      | [] => none
      | first :: _ => if isLetter first then some (scheme, rest) else some ([], rawURL)
    else some ([], rawURL)
  | [] => some ([], rawURL)

/-- `strings.ToLower` of an ASCII text. -/
def toLower (s : Text) : Text := s.map fun c => if 65 ≤ c ∧ c ≤ 90 then c + 32 else c

def isCTL (c : Byte) : Bool := c < 32 || c = 127

def validOptionalPort (port : Text) : Bool :=
  match port with
  | [] => true
  | c :: digits => c = colon && digits.all isDigit

def validUserinfo (s : Text) : Bool :=
  s.all fun c => isLetter c || isDigit c || c ∈ ascii "-._:~!$&'()*+,;=%@"

/-- The place of the first `%25`. -/
def zoneIndex : Text → Option ℕ
  | [] => none
  | c :: rest =>
    if (ascii "%25").isPrefixOf (c :: rest) then some 0 else (zoneIndex rest).map (· + 1)

section Parse

-- whether `netip.ParseAddr` reads the text as an IPv6 address
variable (isIPv6 : Text → Bool)

/-- The inside of the brackets: a zone follows the first `%25`. -/
def parseLiteral (hostname : Text) : Option Text :=
  match zoneIndex hostname with
  | some i => do
    let hostPart ← unescape .host (hostname.take i)
    let zonePart ← unescape .zone (hostname.drop i)
    return hostPart ++ zonePart
  | none => unescape .host hostname

def parseHost (host : Text) : Option Text :=
  match cutLast 91 host with
  | some ([], inside) =>
    match cutLast 93 inside with
    | none => none
    | some (hostname, colonPort) =>
      if validOptionalPort colonPort then do
        let port ← unescape .host colonPort
        let name ← parseLiteral hostname
        if isIPv6 name then return 91 :: name ++ 93 :: port else none
      else none
  | some (_ :: _, _) => none
  | none =>
    -- one colon at most, and a port behind it
    if colon ∈ host ∧ ¬validOptionalPort (host.dropWhile (· ≠ colon)) then none
    else unescape .host host

def parseUserinfo (userinfo : Text) : Option Userinfo :=
  if !validUserinfo userinfo then none
  else if colon ∈ userinfo then do
    let username ← unescape .userPassword (cut colon userinfo).1
    let password ← unescape .userPassword (cut colon userinfo).2
    return ⟨username, some password⟩
  else (unescape .userPassword userinfo).map fun username => ⟨username, none⟩

def parseAuthority (authority : Text) : Option (Option Userinfo × Text) :=
  match cutLast atSign authority with
  | none => (parseHost isIPv6 authority).map fun host => (none, host)
  | some (userinfo, rest) => do
    let host ← parseHost isIPv6 rest
    let user ← parseUserinfo userinfo
    return (some user, host)

/-- The query of a reference without its fragment, and what stands before it. -/
def splitQuery (rest : Text) : Text × Bool × Text :=
  if rest.getLast? = some question ∧ rest.count question = 1 then (rest.dropLast, true, [])
  else ((cut question rest).1, false, (cut question rest).2)

/-- The authority and the path behind it. -/
def parseHier (u : URL) (rest : Text) : Option URL :=
  if (u.Scheme ≠ [] ∨ ¬(ascii "///").isPrefixOf rest) ∧ (ascii "//").isPrefixOf rest then do
    let authority := (rest.drop 2).takeWhile (· ≠ slash)
    let (user, host) ← parseAuthority isIPv6 authority
    { u with User := user, Host := host }.setPath ((rest.drop 2).dropWhile (· ≠ slash))
  else
    { u with OmitHost := u.Scheme ≠ [] && rest.head? = some slash }.setPath rest

/-- `parse`, of a text without its fragment. -/
def parse (rawURL : Text) : Option URL :=
  if rawURL.any isCTL then none
  else if rawURL = ascii "*" then some { URL.empty with Path := ascii "*" }
  else do
    let (scheme, rest) ← getScheme rawURL
    let (rest, force, query) := splitQuery rest
    let u := { URL.empty with Scheme := toLower scheme, ForceQuery := force, RawQuery := query }
    if rest.head? = some slash then parseHier isIPv6 u rest
    else if u.Scheme ≠ [] then return { u with Opaque := rest }
    else if colon ∈ (cut slash rest).1 then none
    else parseHier isIPv6 u rest

def Parse (rawURL : Text) : Option URL := do
  let u ← parse isIPv6 (cut hash rawURL).1
  if (cut hash rawURL).2 = [] then return u else u.setFragment (cut hash rawURL).2

end Parse

/-! Writing. -/

def Userinfo.String (ui : Userinfo) : Text :=
  escape .userPassword ui.username ++
    (match ui.password with
    | some password => colon :: escape .userPassword password
    | none => [])

/-- What stands between the scheme and the path. -/
def URL.authority (u : URL) : Text :=
  if (u.Scheme ≠ [] ∨ u.Host ≠ [] ∨ u.User ≠ none) ∧
      ¬(u.OmitHost ∧ u.Host = [] ∧ u.User = none) then
    (if u.Host ≠ [] ∨ u.Path ≠ [] ∨ u.User ≠ none then ascii "//" else []) ++
      (match u.User with
      | some ui => ui.String ++ [atSign]
      | none => []) ++ escape .host u.Host
  else []

def URL.String (u : URL) : Text :=
  let start := if u.Scheme ≠ [] then u.Scheme ++ [colon] else []
  let body :=
    if u.Opaque ≠ [] then u.Opaque
    else
      let path := u.EscapedPath
      let before := u.authority
      before ++
        (if path ≠ [] ∧ path.head? ≠ some slash ∧ u.Host ≠ [] then [slash]
        else if start ++ before = [] ∧ colon ∈ (cut slash path).1 then ascii "./"
        else []) ++ path
  start ++ body ++ (if u.ForceQuery ∨ u.RawQuery ≠ [] then question :: u.RawQuery else []) ++
    (if u.Fragment ≠ [] then hash :: u.EscapedFragment else [])

/-! The host and its port. -/

/-- The name and the port of a `Host`. -/
def splitHostPort (hostPort : Text) : Text × Text :=
  let (host, port) :=
    match cutLast colon hostPort with
    | some (before, port) => if port.all isDigit then (before, port) else (hostPort, [])
    | none => (hostPort, [])
  if host.head? = some 91 ∧ host.getLast? = some 93 then (host.tail.dropLast, port)
  else (host, port)

def URL.Hostname (u : URL) : Text := (splitHostPort u.Host).1

def URL.Port (u : URL) : Text := (splitHostPort u.Host).2

/-! References. -/

/-- What was written of a path so far, behind its leading slash, and whether nothing was. -/
structure Resolved where
  written : Text
  first : Bool

def Resolved.add (r : Resolved) (elem : Text) : Resolved :=
  if elem = ascii "." then { r with first := false }
  else if elem = ascii ".." then
    match cutLast slash r.written with
    | some (before, _) => ⟨before, false⟩
    | none => ⟨[], true⟩
  else ⟨r.written ++ (if r.first then [] else [slash]) ++ elem, false⟩

def resolvePath (base ref : Text) : Text :=
  let full :=
    match ref with
    | [] => base
    | c :: _ => if c = slash then ref else (cutLast slash base).elim [] (·.1 ++ [slash]) ++ ref
  if full = [] then []
  else
    let elems := full.splitOn slash
    let written := (elems.foldl Resolved.add ⟨[], true⟩).written
    let last := elems.getLast?
    let r := written ++ (if last = some (ascii ".") ∨ last = some (ascii "..") then [slash] else [])
    if r.head? = some slash then r else slash :: r

/-- The path of a reference is encoded, so that setting it does not fail. -/
def URL.withPath (u : URL) (p : Text) : URL := (u.setPath p).getD u

def URL.ResolveReference (u ref : URL) : URL :=
  let url := { ref with Scheme := if ref.Scheme = [] then u.Scheme else ref.Scheme }
  if ref.Scheme ≠ [] ∨ ref.Host ≠ [] ∨ ref.User ≠ none then
    url.withPath (resolvePath ref.EscapedPath [])
  else if ref.Opaque ≠ [] then { url with User := none, Host := [], Path := [] }
  else
    let url :=
      if ref.Path = [] ∧ ¬ref.ForceQuery ∧ ref.RawQuery = [] then
        { url with
          RawQuery := u.RawQuery
          Fragment := if ref.Fragment = [] then u.Fragment else url.Fragment
          RawFragment := if ref.Fragment = [] then u.RawFragment else url.RawFragment }
      else url
    if ref.Path = [] ∧ u.Opaque ≠ [] then
      { url with Opaque := u.Opaque, User := none, Host := [], Path := [] }
    else
      { url with Host := u.Host, User := u.User }.withPath
        (resolvePath u.EscapedPath ref.EscapedPath)

end GoUrl
