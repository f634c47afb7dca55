import Swazz.LicenseTokens
import Swazz.Utf8

/-! Go's strings: bytes that are ranged over as runes. -/
namespace GoStrings

open Utf8

/-- What Go ranges over in a string. -/
def runes (s : Text) : List ℕ := (Utf8.runes s).map (·.getD 0xFFFD)

/-- `unicode.ToLower` -/
def lowerRune (c : ℕ) : ℕ :=
  if c = 0x130 then 0x69 else UnicodeCase.mapped UnicodeCase.lowerRuns c

def chunksFrom : ℕ → Text → List (Option ℕ × Text)
  | 0, _ => []
  | _ + 1, [] => []
  | fuel + 1, b :: s =>
    let r := next b s
    (r.1, b :: s.take (s.length - r.2.length)) :: chunksFrom fuel r.2

/-- The runes of a string, each with its bytes. -/
def chunks (s : Text) : List (Option ℕ × Text) := chunksFrom s.length s

/-- `strings.TrimSpace` -/
def trimSpace (s : Text) : Text :=
  let isSpace (chunk : Option ℕ × Text) := chunk.1.any Swazz.License.goSpace
  (((chunks s).dropWhile isSpace).rdropWhile isSpace).flatMap (·.2)

end GoStrings
