import Mathlib.Data.Nat.Notation

/-! The removal of comments from JSON: that of the runner, on bytes, and that of the dashboard, on
UTF-16 units. -/
namespace Swazz.JsonComments

/-- What stands before the place that is read. -/
inductive State where
  | normal
  | string
  | stringEscape
  | slash
  | lineComment
  | blockComment
  | blockCommentStar
  deriving DecidableEq

/-- The runner's loop at place `i`: the state and the buffer of the result. -/
def stepBytes (st : State) (res : List ℕ) (i b : ℕ) : State × List ℕ :=
  match st with
  | .normal =>
    if b = 34 then (.string, res.set i b)
    else if b = 47 then (.slash, res.set i 32)
    else (.normal, res.set i b)
  | .string =>
    if b = 92 then (.stringEscape, res.set i b)
    else if b = 34 then (.normal, res.set i b)
    else (.string, res.set i b)
  | .stringEscape => (.string, res.set i b)
  | .slash =>
    if b = 47 then (.lineComment, res.set i 32)
    else if b = 42 then (.blockComment, res.set i 32)
    -- the slash is put back
    else (.normal, (res.set (i - 1) 47).set i b)
  | .lineComment =>
    if b = 10 then (.normal, res.set i 10)
    else if b = 13 then (.lineComment, res.set i 13)
    else (.lineComment, res.set i 32)
  | .blockComment =>
    if b = 42 then (.blockCommentStar, res.set i 32)
    else if b = 10 then (.blockComment, res.set i 10)
    else if b = 13 then (.blockComment, res.set i 13)
    else (.blockComment, res.set i 32)
  | .blockCommentStar =>
    if b = 47 then (.normal, res.set i 32)
    else if b = 42 then (.blockCommentStar, res.set i 32)
    else if b = 10 then (.blockComment, res.set i 10)
    else if b = 13 then (.blockComment, res.set i 13)
    else (.blockComment, res.set i 32)

/-- The runner's `StripJSONC`. -/
def StripJSONC (data : List ℕ) : List ℕ :=
  let (st, res) := data.zipIdx.foldl (fun (st, res) (b, i) => stepBytes st res i b)
    (.normal, List.replicate data.length 0)
  -- a slash at the end
  if st = .slash then res.set (data.length - 1) 47 else res

/-- The dashboard's loop: the state and the result so far. -/
def stepUnits (st : State) (result : List ℕ) (char : ℕ) : State × List ℕ :=
  match st with
  | .normal =>
    if char = 34 then (.string, result ++ [char])
    else if char = 47 then (.slash, result ++ [32])
    else (.normal, result ++ [char])
  | .string =>
    if char = 92 then (.stringEscape, result ++ [char])
    else if char = 34 then (.normal, result ++ [char])
    else (.string, result ++ [char])
  | .stringEscape => (.string, result ++ [char])
  | .slash =>
    if char = 47 then (.lineComment, result ++ [32])
    else if char = 42 then (.blockComment, result ++ [32])
    else (.normal, result.dropLast ++ [47] ++ [char])
  | .lineComment =>
    if char = 10 then (.normal, result ++ [10])
    else if char = 13 then (.lineComment, result ++ [13])
    else (.lineComment, result ++ [32])
  | .blockComment =>
    if char = 42 then (.blockCommentStar, result ++ [32])
    else if char = 10 then (.blockComment, result ++ [10])
    else if char = 13 then (.blockComment, result ++ [13])
    else (.blockComment, result ++ [32])
  | .blockCommentStar =>
    if char = 47 then (.normal, result ++ [32])
    else if char = 42 then (.blockCommentStar, result ++ [32])
    else if char = 10 then (.blockComment, result ++ [10])
    else if char = 13 then (.blockComment, result ++ [13])
    else (.blockComment, result ++ [32])

/-- The dashboard's `stripJSONC`. -/
def stripJSONC (text : List ℕ) : List ℕ :=
  let (st, result) := text.foldl (fun (st, result) char => stepUnits st result char) (.normal, [])
  if st = .slash then result.dropLast ++ [47] else result

end Swazz.JsonComments
