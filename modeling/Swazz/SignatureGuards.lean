import Swazz.AnchoredSearch

/-! The analyzers that look for signatures, each behind texts of which the body must hold one. -/
namespace Swazz.Analyzer

open Utf8 Regexes GoRegexp

structure AnalysisFinding where
  RuleID : String
  Level : String
  Message : Text
  Evidence : Text
  OWASPAPICategory : List String := []
  OWASPCategory : List String := []
  CWEIDs : List String := []

/-- The question whether a body holds one of the guards. -/
abbrev Check := AnalysisInput → List Text → Bool × AnalysisInput

/-- The code's own question. -/
def guarded (pools : AnalysisInput → Pools) : Check := fun input guards =>
  input.containsAnyLower (pools input) guards

/-- Every signature is let through. -/
def unguarded : Check := fun input _ => (true, input)

def slice (body : Text) (loc : ℕ × ℕ) : Text := (body.take loc.2).drop loc.1

/-- What surrounds a match, up to a length. -/
def contextSnippet (body : Text) (loc : ℕ × ℕ) (before behind limit : ℕ) : Text :=
  (slice body (loc.1 - before, min (loc.2 + behind) body.length)).take limit

/-! ### Stack traces -/

structure stackSignature where
  language : String
  guards : List Text
  pattern : Regex RuneClass

/-- `\s+` -/
def spaces : Regex RuneClass := plus space

def stackSignatures : List stackSignature :=
  [{ language := "Java"
     guards := ["at java.", "at sun.", "at org.spring", ".java:", "org.apache.catalina",
       "at spring."].map ascii
     pattern := (lit "at" ++ spaces ++ lit "java.") ||| (lit "at" ++ spaces ++ lit "sun.") |||
       (lit "at" ++ spaces ++ lit "org.springframework.") |||
       (plus dot ++ lit ".java:" ++ plus digit ++ lit ")") ||| lit "org.apache.catalina" |||
       (lit "at" ++ spaces ++ lit "spring.") },
   { language := "Python"
     guards := ["traceback (most recent", "file \"", "django.core", "flask/app.py"].map ascii
     pattern := (lit "Traceback" ++ spaces ++ lit "(most" ++ spaces ++ lit "recent" ++ spaces ++
         lit "call" ++ spaces ++ lit "last)") |||
       (lit "File" ++ spaces ++ lit "\"" ++ plus dot ++ lit "\"," ++ spaces ++ lit "line" ++
         spaces ++ plus digit) |||
       lit "django.core." ||| lit "flask/app.py" },
   { language := "Go"
     guards := ["goroutine ", "panic:", "runtime error:"].map ascii
     pattern := (lit "goroutine" ++ spaces ++ plus digit ++ spaces ++ lit "[") ||| lit "panic:" |||
       (lit "runtime" ++ spaces ++ lit "error:") },
   { language := "NodeJS"
     guards := ["at object.<anonymous>", "at module._compile", "node_modules/", "@nestjs/core",
       "express/lib/router"].map ascii
     pattern := (lit "at" ++ spaces ++ lit "Object.<anonymous>") |||
       (lit "at" ++ spaces ++ lit "Module._compile") ||| lit "node_modules/" |||
       lit "@nestjs/core" ||| lit "express/lib/router" },
   { language := ".NET"
     guards := ["at system.", "exception:", "server error in "].map ascii
     pattern := (lit "at" ++ spaces ++ lit "System." ++ plus dot ++ .one space ++ lit "in" ++
         .one space ++ plus dot ++ lit ":" ++ plus word ++ .one space ++ plus digit) |||
       (lit "System." ++ plus word ++ lit "Exception:") |||
       (lit "Server" ++ spaces ++ lit "Error" ++ spaces ++ lit "in" ++ spaces) },
   { language := "PHP"
     guards := ["fatal error:", "stack trace:", "/var/www/", "laravel\\framework",
       "illuminate\\routing"].map ascii
     pattern := (lit "Fatal" ++ spaces ++ lit "error:") |||
       (lit "Stack" ++ spaces ++ lit "trace:") |||
       (lit "in" ++ spaces ++ lit "/var/www/") ||| lit "Laravel\\Framework" |||
       lit "Illuminate\\Routing" },
   { language := "Ruby"
     guards := ["actionpack", "active_record", "action_controller", "bin/rails", "/gems/",
       ".rb:"].map ascii
     pattern := lit "actionpack" ||| lit "active_record" ||| lit "action_controller" |||
       lit "bin/rails" ||| lit "/gems/" |||
       (lit "at" ++ spaces ++ plus dot ++ lit ".rb:" ++ plus digit) }]

def nullPointerSignatures : List stackSignature :=
  [{ language := ".NET"
     guards := ["nullreferenceexception"].map ascii
     pattern := foldLit "System.NullReferenceException" },
   { language := "Java"
     guards := ["nullpointerexception", "is null"].map ascii
     pattern := foldLit "java.lang.NullPointerException" ||| foldLit "NullPointerException" |||
       (foldLit "Cannot invoke \"" ++ plus dot ++ foldLit "\" because \"" ++ plus dot ++
         foldLit "\" is null") },
   { language := "Go"
     guards := ["nil pointer dereference"].map ascii
     pattern := foldLit "nil pointer dereference" },
   { language := "Python"
     guards := ["'nonetype' object"].map ascii
     pattern := foldLit "AttributeError: 'NoneType' object" |||
       foldLit "TypeError: 'NoneType' object" },
   { language := "NodeJS"
     guards := ["cannot read propert"].map ascii
     pattern := foldLit "Cannot read propert" ++ (foldLit "y" ||| foldLit "ies") ++
       foldLit " of " ++ (foldLit "null" ||| foldLit "undefined") },
   { language := "PHP"
     guards := ["on null"].map ascii
     pattern := (foldLit "Call to a member function " ++ plus dot ++ foldLit "() on null") |||
       (foldLit "Attempt to read property " ++ plus dot ++ spaces ++ foldLit "on null") |||
       foldLit "member function on null" },
   { language := "Ruby"
     guards := ["nil:nilclass"].map ascii
     pattern := foldLit "undefined method " ++ star dot ++ foldLit " for nil:NilClass" }]

def nullPointerFinding (quote : Text → Text) (body : Text) (sig : stackSignature)
    (loc : ℕ × ℕ) : AnalysisFinding where
  RuleID := "swazz/null-pointer-exception"
  Level := "error"
  Message := ascii ("Null Reference / Pointer Exception (" ++ sig.language ++
    ") detected in the response body.")
  Evidence := ascii "Match: " ++ quote (slice body loc) ++ ascii " | Snippet: ..." ++
    contextSnippet body loc 20 100 150 ++ ascii "..."

def stackTraceFinding (quote : Text → Text) (body : Text) (sig : stackSignature)
    (loc : ℕ × ℕ) : AnalysisFinding where
  RuleID := "swazz/stack-trace-leak"
  Level := "warning"
  Message := ascii ("Server stack trace traceback (" ++ sig.language ++
    ") leaked in the response body.")
  Evidence := ascii "Match: " ++ quote (slice body loc) ++ ascii " | Traceback snippet: ..." ++
    contextSnippet body loc 20 100 150 ++ ascii "..."

/-- The first signature that is let through and found. -/
def firstMatch (check : Check) : List stackSignature → AnalysisInput →
    Option (stackSignature × ℕ × ℕ) × AnalysisInput
  | [], input => (none, input)
  | sig :: sigs, input =>
    let (found, input) := check input sig.guards
    if !found then firstMatch check sigs input
    else
      match FindIndex sig.pattern input.ResponseBody with
      | some loc => (some (sig, loc), input)
      | none => firstMatch check sigs input

/-- The text that `%q` prints is left open here, and for the other analyzers. -/
def StackTraceAnalyzer.Analyze (quote : Text → Text) (check : Check) (input : AnalysisInput) :
    List AnalysisFinding × AnalysisInput :=
  if input.ResponseBody.length = 0 then ([], input)
  else
    match firstMatch check nullPointerSignatures input with
    | (some (sig, loc), input) =>
      ([nullPointerFinding quote input.ResponseBody sig loc], input)
    | (none, input) =>
      match firstMatch check stackSignatures input with
      | (some (sig, loc), input) => ([stackTraceFinding quote input.ResponseBody sig loc], input)
      | (none, input) => ([], input)

/-! ### Database errors -/

structure dbSignature where
  name : String
  patterns : List Text

def dbSignatures : List dbSignature :=
  [⟨"MySQL", ["You have an error in your SQL syntax", "mysql_fetch", "MySQLSyntaxErrorException",
      "com.mysql.jdbc", "mysql.connector"].map ascii⟩,
   ⟨"PostgreSQL", ["ERROR:  syntax error at or near", "ERROR: syntax error at or near",
      "pg_query", "PSQLException", "PG::SyntaxError", "npgsql.postgres"].map ascii⟩,
   ⟨"SQLite", ["SQLITE_ERROR", "near ", "sqlite3.OperationalError", "syntax error"].map ascii⟩,
   ⟨"MSSQL", ["Unclosed quotation mark", "Microsoft OLE DB", "ODBC SQL Server Driver",
      "SQLServerException"].map ascii⟩,
   ⟨"Oracle", ["ORA-", "quoted string not properly terminated"].map ascii⟩,
   ⟨"Generic", ["SQLSTATE", "java.sql.SQLException", "System.Data.SqlClient"].map ascii⟩]

/-- The guards of a signature, where its name has some. -/
def dbGuards : String → Option (List Text)
  | "MySQL" => some (["syntax", "mysql"].map ascii)
  | "PostgreSQL" => some (["syntax", "pg_", "psql", "pg::", "npgsql"].map ascii)
  | "SQLite" => some (["sqlite", "syntax"].map ascii)
  | "MSSQL" => some (["quotation", "oledb", "sql server", "sqlserver"].map ascii)
  | "Oracle" => some (["ora-", "quoted string"].map ascii)
  | "Generic" => some (["sqlstate", "sqlexception", "sqlclient"].map ascii)
  | _ => none

def checked (check : Check) (input : AnalysisInput) : Option (List Text) → Bool × AnalysisInput
  | some guards => check input guards
  | none => (true, input)

def indexFoldASCII (haystack needle : Text) : Option ℕ :=
  if needle.length = 0 then some 0
  else if haystack.length < needle.length then none
  else
    let first := needle.getD 0 0
    let firstUpper := if isLowerASCII first then first - 32 else first
    let firstLower := if isUpperASCII first then first + 32 else first
    (List.range (haystack.length - needle.length + 1)).find? fun i =>
      (haystack.getD i 0 == firstLower || haystack.getD i 0 == firstUpper) &&
        (List.range' 1 (needle.length - 1)).all fun j =>
          equalFold (haystack.getD (i + j) 0) (needle.getD j 0)

def sqlFinding (quote : Text → Text) (body : Text) (sig : dbSignature) (loc : ℕ × ℕ) :
    AnalysisFinding where
  RuleID := "swazz/sql-error-leak"
  Level := "error"
  Message := ascii ("SQL injection vulnerability: " ++ sig.name ++
    " database error leaked in the response.")
  Evidence := ascii "Match: " ++ quote (slice body loc) ++ ascii " | Context: ..." ++
    contextSnippet body loc 50 50 200 ++ ascii "..."
  OWASPAPICategory := ["API8:2023 Security Misconfiguration"]
  OWASPCategory := ["A05:2025 Injection", "A02:2025 Security Misconfiguration"]
  CWEIDs := ["CWE-89", "CWE-209"]

/-- The first text of a signature in a body. -/
def firstPattern (body : Text) (patterns : List Text) : Option (ℕ × ℕ) :=
  patterns.findSome? fun pattern =>
    (indexFoldASCII body pattern).map fun idx => (idx, idx + pattern.length)

def sqlFindings (quote : Text → Text) (check : Check) : List dbSignature → AnalysisInput →
    List AnalysisFinding × AnalysisInput
  | [], input => ([], input)
  | sig :: sigs, input =>
    let (found, input) := checked check input (dbGuards sig.name)
    if !found then sqlFindings quote check sigs input
    else
      match firstPattern input.ResponseBody sig.patterns with
      | some loc => ([sqlFinding quote input.ResponseBody sig loc], input)
      | none => sqlFindings quote check sigs input

def SQLiAnalyzer.Analyze (quote : Text → Text) (check : Check) (input : AnalysisInput) :
    List AnalysisFinding × AnalysisInput :=
  if input.ResponseBody.length = 0 then ([], input)
  else sqlFindings quote check dbSignatures input

/-! ### Secrets -/

structure secretSignature where
  category : String
  pattern : Regex RuneClass

/-- `[A-Za-z0-9-_]` -/
def tokenRanges : List (ℕ × ℕ) := [(65, 90), (97, 122), (48, 57), (45, 45), (95, 95)]

/-- `[_-]?` -/
def joint : Regex RuneClass := (Regex.one (.set [(95, 95), (45, 45)])).opt

/-- `["']?` -/
def quoteMark : Regex RuneClass := (Regex.one (.set [(34, 34), (39, 39)])).opt

def genericSecret : Regex RuneClass :=
  ((foldLit "api" ++ joint ++ foldLit "key") ||| foldLit "apikey" |||
    (foldLit "secret" ++ joint ++ foldLit "key") |||
    (foldLit "access" ++ joint ++ foldLit "token")) ++
  star space ++ .one (.set [(58, 58), (61, 61)]) ++ star space ++ quoteMark ++
  .many (.foldSet tokenRanges) 20 none ++ quoteMark

def secretSignatures : List secretSignature :=
  [⟨"AWS Access Key",
      .boundary ++ (lit "AKIA" ++ .many (.set [(48, 57), (65, 90)]) 16 (some 16) ++ .boundary)⟩,
   ⟨"Google Cloud API Key",
      .boundary ++ (lit "AIza" ++ .many (.set tokenRanges) 35 (some 35) ++ .boundary)⟩,
   ⟨"Slack Token",
      .boundary ++ (lit "xox" ++
        .one (.set [(98, 98), (97, 97), (112, 112), (114, 114), (115, 115)]) ++ lit "-" ++
        .many (.set [(48, 57), (97, 122), (65, 90)]) 10 none ++ .boundary)⟩,
   ⟨"Stripe Standard API Key",
      .boundary ++ (lit "sk_live_" ++ .many (.set [(48, 57), (97, 122), (65, 90)]) 24 none ++
        .boundary)⟩,
   ⟨"Private Key Block",
      lit "-----BEGIN " ++ (lit "RSA " ||| lit "EC " ||| lit "DSA ").opt ++
        lit "PRIVATE KEY-----"⟩,
   ⟨"JWT Token",
      .boundary ++ (lit "eyJ" ++ plus (.set tokenRanges) ++ lit ".eyJ" ++
        plus (.set tokenRanges) ++ lit "." ++
        plus (.set (tokenRanges ++ [(46, 46), (43, 43), (47, 47), (61, 61)])) ++ .boundary)⟩,
   ⟨"Internal IP", internalIPPattern⟩,
   ⟨"Generic Secret/Key", genericSecret⟩]

def secretGuards : String → Option (List Text)
  | "AWS Access Key" => some (["akia"].map ascii)
  | "Google Cloud API Key" => some (["aiza"].map ascii)
  | "Slack Token" => some (["xox"].map ascii)
  | "Stripe Standard API Key" => some (["sk_live"].map ascii)
  | "Private Key Block" => some (["-----begin"].map ascii)
  | "JWT Token" => some (["eyj"].map ascii)
  | "Internal IP" => some (["10.", "172.", "192.168."].map ascii)
  | "Generic Secret/Key" => some (["key", "secret", "token"].map ascii)
  | _ => none

def redacted (matchText : Text) : Text :=
  if 8 < matchText.length then
    matchText.take 4 ++ ascii "..." ++ matchText.drop (matchText.length - 4)
  else matchText

def secretFinding (body : Text) (sig : secretSignature) (loc : ℕ × ℕ) : AnalysisFinding where
  RuleID := "swazz/sensitive-data-leak"
  Level := "warning"
  Message := ascii ("Sensitive data/secret (" ++ sig.category ++
    ") leaked in the response body.")
  Evidence := ascii "Leaked credential indicator: " ++ redacted (slice body loc)
  OWASPAPICategory := ["API3:2023 Broken Object Property Level Authorization"]
  OWASPCategory := ["A04:2025 Cryptographic Failures"]
  CWEIDs := ["CWE-200", "CWE-312"]

def secretFindings (check : Check) : List secretSignature → AnalysisInput →
    List AnalysisFinding × AnalysisInput
  | [], input => ([], input)
  | sig :: sigs, input =>
    let (found, input) := checked check input (secretGuards sig.category)
    if !found then secretFindings check sigs input
    else
      let loc :=
        if sig.category = "Internal IP" then findInternalIP input.ResponseBody
        else FindIndex sig.pattern input.ResponseBody
      let finding := (loc.map (secretFinding input.ResponseBody sig)).toList
      let (findings, input) := secretFindings check sigs input
      (finding ++ findings, input)

def SensitiveAnalyzer.Analyze (check : Check) (input : AnalysisInput) :
    List AnalysisFinding × AnalysisInput :=
  if input.ResponseBody.length = 0 then ([], input)
  else secretFindings check secretSignatures input

end Swazz.Analyzer
