import Swazz.ConfigForRunner
import Swazz.Lexing

/-! The tokens of SQLite scripts: string literals, quoted identifiers, numbers, words and operators,
with white space and comments between them. -/
namespace Swazz.Sql

open Lexing
open RunnerAccess (JsString)

/-- How far the lexeme has been read. -/
inductive Reading where
  | space
  | lineComment
  | lineEnd
  | blockComment
  /-- A star in a block comment. -/
  | blockStar
  | blockEnd
  /-- In a string literal or a quoted identifier. -/
  | quoted (quote : ℕ)
  /-- At a closing quote, or the first one of two. -/
  | quoteMark (quote : ℕ)
  | word
  /-- An `x`, which begins a blob literal when a quote follows. -/
  | wordX
  | zero
  | digits
  | hexMark
  | hex
  | fraction
  | exponentMark
  | exponentSign
  | exponent
  | dot
  | minus
  | arrow
  | slash
  | bar
  | less
  | greater
  | equals
  | bang
  | semicolon
  | operator
  /-- No token begins so. -/
  | bad
  deriving DecidableEq

def isSpace (c : ℕ) : Bool := (9 ≤ c && c ≤ 13) || c = 32

def isDigit (c : ℕ) : Bool := 48 ≤ c && c ≤ 57

def isHexDigit (c : ℕ) : Bool := isDigit c || (65 ≤ c && c ≤ 70) || (97 ≤ c && c ≤ 102)

def isLetter (c : ℕ) : Bool := (65 ≤ c && c ≤ 90) || (97 ≤ c && c ≤ 122)

/-- Words begin with these; all that is not ASCII counts, but for a byte order mark. -/
def isWordStart (c : ℕ) : Bool := isLetter c || c = 95 || (128 ≤ c && c ≠ 0xFEFF)

/-- Words go on with these: digits and the dollar sign as well. -/
def isWordPart (c : ℕ) : Bool := isWordStart c || isDigit c || c = 36

def isX (c : ℕ) : Bool := c = 88 || c = 120

def isE (c : ℕ) : Bool := c = 69 || c = 101

/-- Operators, quotes and semicolons, by their first units. -/
def marks : List (ℕ × Reading) :=
  [(33, .bang), (34, .quoted 34), (37, .operator), (38, .operator), (39, .quoted 39),
    (40, .operator), (41, .operator), (42, .operator), (43, .operator), (44, .operator),
    (45, .minus), (46, .dot), (47, .slash), (59, .semicolon), (60, .less), (61, .equals),
    (62, .greater), (124, .bar), (126, .operator)]

def firstReading (c : ℕ) : Option Reading :=
  if isSpace c then if c = 11 then none else some .space
  else if isX c then some .wordX
  else if isWordStart c then some .word
  else if c = 48 then some .zero
  else if isDigit c then some .digits
  else marks.lookup c

/-- What a number goes on with when it has had its digits. -/
def afterDigits (c : ℕ) : Option Reading :=
  if isE c then some .exponentMark else if isWordPart c then some .bad else none

def nextReading (q : Reading) (c : ℕ) : Option Reading :=
  match q with
  | .space => if isSpace c then some .space else none
  | .lineComment => if c = 10 then some .lineEnd else some .lineComment
  | .blockComment => if c = 42 then some .blockStar else some .blockComment
  | .blockStar =>
    if c = 47 then some .blockEnd else if c = 42 then some .blockStar else some .blockComment
  | .quoted quote => if c = quote then some (.quoteMark quote) else some (.quoted quote)
  | .quoteMark quote => if c = quote then some (.quoted quote) else none
  | .word => if isWordPart c then some .word else none
  | .wordX => if c = 39 then some .bad else if isWordPart c then some .word else none
  | .zero =>
    if isX c then some .hexMark
    else if isDigit c then some .digits
    else if c = 46 then some .fraction
    else afterDigits c
  | .digits =>
    if isDigit c then some .digits else if c = 46 then some .fraction else afterDigits c
  | .hexMark | .hex =>
    if isHexDigit c then some .hex else if isWordPart c then some .bad else none
  | .fraction => if isDigit c then some .fraction else afterDigits c
  | .exponentMark =>
    if isDigit c then some .exponent
    else if c = 43 ∨ c = 45 then some .exponentSign
    else if isWordPart c then some .bad
    else none
  | .exponentSign => if isDigit c then some .exponent else none
  | .exponent => if isDigit c then some .exponent else if isWordPart c then some .bad else none
  | .dot => if isDigit c then some .fraction else none
  | .minus => if c = 45 then some .lineComment else if c = 62 then some .arrow else none
  | .arrow => if c = 62 then some .operator else none
  | .slash => if c = 42 then some .blockComment else none
  | .bar => if c = 124 then some .operator else none
  | .less => if c = 60 ∨ c = 61 ∨ c = 62 then some .operator else none
  | .greater => if c = 61 ∨ c = 62 then some .operator else none
  | .equals | .bang => if c = 61 then some .operator else none
  | .lineEnd | .blockEnd | .semicolon | .operator | .bad => none

/-- A lexeme may end here. -/
def Reading.complete : Reading → Bool
  | .blockComment | .blockStar | .quoted _ | .hexMark | .exponentMark | .exponentSign |
    .bang | .bad => false
  | _ => true

def sqlite : Lexer ℕ Reading := ⟨firstReading, nextReading, Reading.complete⟩

abbrev Lexeme := Lexing.Lexeme ℕ Reading

/-- A line comment goes up to the end of its line. -/
def Reading.isComment : Reading → Bool
  | .lineComment | .lineEnd | .blockComment | .blockStar | .blockEnd => true
  | _ => false

def Reading.isToken (q : Reading) : Bool := q ≠ .space && !q.isComment

/-- The tokens of lexemes: white space and comments are passed over. -/
def tokensOf (xs : List Lexeme) : List JsString :=
  (xs.filter fun x => x.state.isToken).map Lexeme.text

/-- The tokens of a text, if it is made of tokens. -/
def tokens (s : JsString) : Option (List JsString) := (sqlite.scan s).map tokensOf

/-- The statements of a script, without the semicolons that end them. -/
def statements (xs : List Lexeme) : List (List Lexeme) := xs.splitOnP fun x => x.state = .semicolon

end Swazz.Sql
