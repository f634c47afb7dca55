import Swazz.GoUrl
import Swazz.EntryMap

/-! Paths as Go's `path` cleans and joins them, a path joined to a URL, and the values of a
query. -/
namespace GoUrl

open Utf8

/-! Paths. -/

/-- The elements of a path that are kept, last first, with one more. -/
def cleanElem (rooted : Bool) (kept : List Text) (elem : Text) : List Text :=
  if elem = [] ∨ elem = ascii "." then kept
  else if elem = ascii ".." then
    match kept with
    | top :: below => if top = ascii ".." then elem :: kept else below
    | [] => if rooted then [] else [elem]
  else elem :: kept

def cleanElems (rooted : Bool) (elems : List Text) : List Text :=
  (elems.foldl (cleanElem rooted) []).reverse

/-- `path.Clean` -/
def Clean (p : Text) : Text :=
  let rooted := p.head? = some slash
  let body := [slash].intercalate (cleanElems rooted (p.splitOn slash))
  if rooted then slash :: body else if body = [] then ascii "." else body

/-- `path.Join` -/
def Join (elems : List Text) : Text :=
  let given := elems.dropWhile (· = [])
  if given = [] then [] else Clean ([slash].intercalate given)

/-- The path that `JoinPath` sets: the end of the last element keeps its slash. -/
def joinedPath (base elem : Text) : Text :=
  let p := if base.head? = some slash then Join [base, elem] else (Join [slash :: base, elem]).tail
  if elem.getLast? = some slash ∧ p.getLast? ≠ some slash then p ++ [slash] else p

/-- `JoinPath` of one element; a path that cannot be set leaves the one there is. -/
def URL.JoinPath (u : URL) (elem : Text) : URL := u.withPath (joinedPath u.EscapedPath elem)

/-! Queries. -/

def QueryEscape (s : Text) : Text :=
  s.flatMap fun c =>
    if isLetter c || isDigit c || c ∈ ascii "-_.~" then [c]
    else if c = 32 then ascii "+"
    else [percent, hexDigit (c.val / 16), hexDigit (c.val % 16)]

def QueryUnescape (s : Text) : Option Text := unescape .path (s.map fun c => if c = 43 then 32 else c)

/-- `url.Values`: the values of a key in their order. -/
abbrev Values := List (Text × List Text)

def Values.Add (vs : Values) (key value : Text) : Values :=
  EntryMap.set vs key ((EntryMap.get? vs key).getD [] ++ [value])

def Values.Set (vs : Values) (key value : Text) : Values := EntryMap.set vs key [value]

/-- `URL.Query`; what does not parse is left out. -/
def ParseQuery (query : Text) : Values :=
  (query.splitOn 38).foldl (fun vs part =>
    if part = [] ∨ 59 ∈ part then vs
    else
      match QueryUnescape (cut 61 part).1, QueryUnescape (cut 61 part).2 with
      | some key, some value => vs.Add key value
      | _, _ => vs) []

/-- The order of strings. -/
def textLess : Text → Text → Bool
  | _, [] => false
  | [], _ :: _ => true
  | a :: as, b :: bs => decide (a < b) || (decide (a = b) && textLess as bs)

/-- The values, sorted by key. -/
def Values.Encode (vs : Values) : Text :=
  [38].intercalate ((vs.mergeSort fun a b => !textLess b.1 a.1).flatMap fun e =>
    e.2.map fun value => QueryEscape e.1 ++ 61 :: QueryEscape value)

end GoUrl
