import Mathlib.Data.List.Infix
import Mathlib.Data.List.AList
import Mathlib.Data.List.Basic

/-! The sniffer of the headless crawler: which of the requests that a page sends are kept as
endpoints of an API. -/
namespace Swazz.Crawler

/-- The parts of a parsed URL. -/
structure URL where
  Scheme : String
  Host : String
  Path : String
  Query : List (String × List String)

/-- What Go's standard library brings: `url.Parse` and the case mappings of `strings`. -/
structure Libs where
  Parse : String → Option URL
  ToLower : String → String
  ToUpper : String → String
  EqualFold : String → String → Bool

structure DiscoveredEndpoint where
  URL : String
  Method : String
  Headers : List (String × String)
  QueryParams : List (String × String)
  BodySample : String
  ContentType : String
  deriving DecidableEq

def DiscoveredEndpoint.key (ep : DiscoveredEndpoint) : String := ep.Method ++ " " ++ ep.URL

structure Request where
  URL : String
  Method : String
  Headers : List (String × String)
  /-- The bytes of each entry, empty for an entry that is nil. -/
  PostDataEntries : List String

structure Response where
  URL : String
  MimeType : String
  deriving DecidableEq

abbrev RequestID := String

/-- The events of the network domain, in the order in which the sniffer's lock takes them. -/
inductive Event where
  | requestWillBeSent (id : RequestID) (request : Option Request)
  | responseReceived (id : RequestID) (response : Option Response)

structure Sniffer where
  endpoints : AList fun _ : String => DiscoveredEndpoint
  pendingRequests : AList fun _ : RequestID => DiscoveredEndpoint
  ignoredPatterns : List String

def NewSniffer (ignorePatterns : List String) : Sniffer := ⟨∅, ∅, ignorePatterns⟩

/-! Routes. -/

def isHex (c : Char) : Bool :=
  c.isDigit || ('a' ≤ c && c ≤ 'f') || ('A' ≤ c && c ≤ 'F')

def matchNumeric (part : List Char) : Bool := part ≠ [] && part.all Char.isDigit

def matchUuid (part : List Char) : Bool :=
  (part.splitOn '-').map List.length = [8, 4, 4, 4, 12] &&
    part.all fun c => isHex c || c = '-'

def matchMongoID (part : List Char) : Bool := part.length = 24 && part.all isHex

def ParameterizeRoute (path : String) : String :=
  if path = "" ∨ path = "/" then path
  else
    String.ofList (['/'].intercalate ((path.toList.splitOn '/').map fun part =>
      if part = [] then part
      else if matchNumeric part || matchUuid part || matchMongoID part then "\x7bid\x7d".toList
      else part))

/-! Noise. -/

def staticExtensions : List String :=
  [".js", ".css", ".png", ".jpg", ".jpeg", ".svg", ".ico", ".woff2", ".woff", ".ttf", ".map",
    ".pdf", ".gif", ".webp", ".eot", ".mp4", ".mp3"]

def analyticsDomains : List String :=
  ["sentry.io", "google-analytics.com", "googletagmanager.com", "hotjar.com", "intercom.io",
    "mixpanel.com", "segment.io", "segment.com", "amplitude.com", "logrocket.com", "clarity.ms",
    "facebook.net", "analytics.twitter.com", "posthog.com", "datadoghq.com", "nr-data.net",
    "newrelic.com"]

def allowedTypes : List String :=
  ["application/json", "application/xml", "text/xml", "application/graphql", "form-data",
    "multipart/form-data", "application/x-www-form-urlencoded"]

def refusedTypes : List String :=
  ["text/html", "text/css", "image/", "font/", "audio/", "video/", "application/javascript",
    "application/x-javascript", "text/javascript"]

def HasSuffix (s suffix : String) : Bool := suffix.toList.isSuffixOf s.toList

def Contains (s sub : String) : Bool := decide (sub.toList <:+: s.toList)

variable (libs : Libs) (ignoredPatterns : List String)

def IsStaticBlacklist (urlStr : String) : Bool :=
  match libs.Parse urlStr with
  | none => false
  | some u => staticExtensions.any fun ext => HasSuffix (libs.ToLower u.Path) ext

def IsAnalyticsDomain (urlStr : String) : Bool :=
  match libs.Parse urlStr with
  | none => false
  | some u =>
    let host := libs.ToLower u.Host
    analyticsDomains.any fun domain => host = domain || HasSuffix host ("." ++ domain)

/-- What neither list names is allowed. -/
def IsAllowedContentType (contentType : String) : Bool :=
  if contentType = "" then true
  else
    let ct := libs.ToLower contentType
    if allowedTypes.any (Contains ct ·) then true
    else if refusedTypes.any (Contains ct ·) then false
    else true

/-- The method is not looked at. -/
def IsNoise (urlStr contentType _method : String) : Bool :=
  IsStaticBlacklist libs urlStr || IsAnalyticsDomain libs urlStr ||
    !IsAllowedContentType libs contentType ||
    ignoredPatterns.any fun pattern => pattern ≠ "" && Contains urlStr pattern

/-! The events. -/

/-- The endpoint of a request that is accepted: it is no noise and its URL has a host. The last
header of the name gives the content type, and each parameter its first value. -/
def discovered (req : Request) : Option DiscoveredEndpoint :=
  if IsNoise libs ignoredPatterns req.URL "" req.Method then none
  else
    match libs.Parse req.URL with
    | none => none
    | some u =>
      if u.Host = "" then none
      else
        some {
          URL := u.Scheme ++ "://" ++ u.Host ++ ParameterizeRoute u.Path
          Method := libs.ToUpper req.Method
          Headers := req.Headers
          QueryParams := u.Query.filterMap fun (k, v) => v.head?.map (k, ·)
          BodySample := String.join req.PostDataEntries
          ContentType := ((req.Headers.filter fun (k, _) =>
            libs.EqualFold k "Content-Type").map (·.2)).getLastD "" }

def isNoise (resp : Response) : Bool := IsNoise libs ignoredPatterns resp.URL resp.MimeType ""

namespace Sniffer

def OnRequestWillBeSent (s : Sniffer) (id : RequestID) (request : Option Request) : Sniffer :=
  match request.bind (discovered libs s.ignoredPatterns) with
  | none => s
  | some ep => { s with
      pendingRequests := s.pendingRequests.insert id ep
      endpoints := s.endpoints.insert ep.key ep }

/-- A noise response takes away the endpoint, which other requests may share. -/
def OnResponseReceived (s : Sniffer) (id : RequestID) (response : Option Response) : Sniffer :=
  match response with
  | none => s
  | some resp =>
    match s.pendingRequests.lookup id with
    | none => s
    | some ep =>
      if isNoise libs s.ignoredPatterns resp then
        { s with
          endpoints := s.endpoints.erase ep.key
          pendingRequests := s.pendingRequests.erase id }
      else
        let ep := if resp.MimeType ≠ "" then { ep with ContentType := resp.MimeType } else ep
        { s with
          endpoints := s.endpoints.insert ep.key ep
          pendingRequests := s.pendingRequests.erase id }

def on (s : Sniffer) : Event → Sniffer
  | .requestWillBeSent id request => s.OnRequestWillBeSent libs id request
  | .responseReceived id response => s.OnResponseReceived libs id response

/-- Sorted by URL, then by method. -/
def GetEndpoints (s : Sniffer) : List DiscoveredEndpoint :=
  (s.endpoints.entries.map (·.2)).mergeSort fun a b =>
    if a.URL = b.URL then decide (a.Method ≤ b.Method) else decide (a.URL < b.URL)

/-- An endpoint with this key is listed. -/
def Lists (s : Sniffer) (key : String) : Prop := ∃ ep ∈ s.GetEndpoints, ep.key = key

end Sniffer

/-- A new sniffer after these events. -/
def sniffed (events : List Event) : Sniffer :=
  events.foldl (Sniffer.on libs) (NewSniffer ignoredPatterns)

end Swazz.Crawler
