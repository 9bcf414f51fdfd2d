/-
  LoxLexer.Command.Run — what the command writes, and its exit code.

  The command reads one file, makes its line ends one, scans it, and lists the tokens,
  as log lines or as a table. Each diagnostic is written on the standard error stream as
  it arises; all are counted, and if there are any, their number follows the tokens and
  the exit code is 1 (`lexText`). A file that is not there is an ordinary outcome; any
  other trouble with it ends the command (`Abort`), with nothing written.

  How a path is read is a parameter (`run`), so the command is the same over any files.
-/

import LoxLexer.Command.Arguments
import LoxLexer.File.Tree
import LoxLexer.Scan.Session
import LoxLexer.Text.LineEnd
import LoxLexer.Text.Utf8
import LoxLexer.Token.Display

namespace LoxLexer

structure Outcome where
  exit : Nat
  stdout : String
  stderr : String
  deriving DecidableEq, Repr

/-- Why the command ends without an outcome. -/
inductive Abort where
  | opening (e : OpenError) (path : Path)
  | decoding (f : Utf8.Fault)
  deriving DecidableEq, Repr

def Abort.message : Abort → String
  | opening .notFound path => "[Errno 2] No such file or directory: " ++ quoted path.text
  | opening .isDirectory path => "[Errno 21] Is a directory: " ++ quoted path.text
  | opening .notDirectory path => "[Errno 20] Not a directory: " ++ quoted path.text
  | opening .nameTooLong path => "[Errno 36] File name too long: " ++ quoted path.text
  | opening .nullCharacter _ => "embedded null byte"
  | decoding f => f.message

namespace Command

/-! ## Fixed text -/

def usageLine : String := "usage: lox-lex [-h] [--table] path"

def helpLines : List String :=
  [usageLine,
   "",
   "Scan a Lox source file and print its tokens",
   "",
   "positional arguments:",
   "  path        Path to Lox source (.lox)",
   "",
   "options:",
   "  -h, --help  show this help message and exit",
   "  --table     Print a type/value table instead of one log line per token"]

/-- The line above a table. -/
def tableTop : String := String.ofList (List.replicate 43 '=')

def joinLines (lines : List String) : String := String.join (lines.map (· ++ "\n"))

/-! ## Lexing -/

def errorLine (message : String) : String := "[lox-lex:error] " ++ message

def tokenLines (table : Bool) (tokens : List Token) : List String :=
  if table then tableTop :: Table.lines (tokens.map Token.row) else tokens.map Token.logLine

def errorLines (path : Path) (diagnostics : Nat) : List String :=
  if diagnostics = 0 then []
  else [errorLine (toString diagnostics ++ " lexical error(s) in " ++ path.text)]

/-- List the tokens of a text. -/
def lexText (path : Path) (table : Bool) (text : List Char) : Outcome :=
  let sink := Chain.collecting #[] (.console (.fresh .standardError))
  let s := (Session.fresh text sink).scan.1
  { exit := if s.sink.hadError then 1 else 0
    stdout := joinLines (tokenLines table s.scanner.tokens.toList ++ errorLines path s.sink.kept.size)
    stderr := s.sink.standardError }

def lexBytes (path : Path) (table : Bool) (bytes : List UInt8) : Except Abort Outcome :=
  match Utf8.decode bytes with
  | .ok text => .ok (lexText path table (unifyLineEnds text))
  | .error f => .error (.decoding f)

/-- Lex what reading the path gave. -/
def lex (path : Path) (table : Bool) : Except OpenError (List UInt8) → Except Abort Outcome
  | .ok bytes => lexBytes path table bytes
  | .error .notFound => .ok ⟨1, joinLines [errorLine ("file not found: " ++ path.text)], ""⟩
  | .error e => .error (.opening e path)

/-! ## Running -/

def helpOutcome : Outcome := ⟨0, joinLines helpLines, ""⟩

def usageOutcome (e : UsageError) : Outcome :=
  ⟨2, "", joinLines [usageLine, "lox-lex: error: " ++ e.message]⟩

def run (read : Path → Except OpenError (List UInt8)) (arguments : List String) : Except Abort Outcome :=
  match Request.ofArguments arguments with
  | .error e => .ok (usageOutcome e)
  | .ok .help => .ok helpOutcome
  | .ok (.lex path table) => lex path table (read path)

end Command

end LoxLexer
