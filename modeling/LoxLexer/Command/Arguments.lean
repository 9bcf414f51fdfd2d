/-
  LoxLexer.Command.Arguments — what the arguments of the command ask for.

  Each argument is read by itself first (`Argument`). Up to the mark `--`, an argument
  that begins with a dash and is longer than it is a switch, in full or shortened to a
  beginning that no other long switch has, or it is unknown; one that looks like a
  negative number, or holds a space, is an operand all the same. Behind the mark
  everything is an operand.

  The arguments are then taken in order (`collect`). The first operand is the path; the
  mark is taken with it if it stands right before or right behind it. What nothing
  takes is kept, and refused in the end (`finish`), but only after a path is there. Help is
  given, and a switch with a value refused, as soon as it is met.
-/

import LoxLexer.File.Path
import LoxLexer.Text.Numeral
import LoxLexer.Text.Quoted

namespace LoxLexer

inductive Switch where
  | help
  | table
  deriving DecidableEq, Repr

def Switch.longName : Switch → List Char
  | help => "help".toList
  | table => "table".toList

/-- All the ways to write the switch. -/
def Switch.display : Switch → String
  | help => "-h/--help"
  | table => "--table"

/-- The switches whose long name begins like this. -/
def Switch.beginning (s : List Char) : List Switch := [help, table].filter (s.isPrefixOf ·.longName)

/-! ## One argument -/

inductive Argument where
  | operand (text : String)
  | endMark
  | switch (s : Switch)
  | valued (s : Switch) (value : String)
  | ambiguous (text : String)
  | unknown (text : String)
  deriving DecidableEq, Repr

namespace Argument

/-- An argument with a dash in front that is no switch. -/
def ofLoose (text : String) : Argument :=
  if looksNegative text.toList || text.contains ' ' then operand text else unknown text

/-- An argument with two dashes in front of `name`. -/
def ofLong (text : String) (name : List Char) : Argument :=
  match Switch.beginning (name.takeWhile (· != '=')) with
  | [s] =>
    match name.dropWhile (· != '=') with
    | _ :: value => valued s (String.ofList value)
    | [] => switch s
  | [] => ofLoose text
  | _ => ambiguous text

/-- The letters of a group that begins with `-h`: only `h` may follow, and the first
    other character begins the value that help does not take. This is the rule of argparse
    up to 3.11.8 and 3.12.2; its later releases take a group letter by letter, and `-hx` is
    help there. -/
def ofHelpGroup (letters : List Char) : Argument :=
  match letters.dropWhile (· == 'h') with
  | [] => switch .help
  | rest => valued .help (String.ofList rest)

/-- What `-h` is with these characters right behind it. An equals sign in front is
    dropped, and what follows it is a group like any other, but must not be empty. The
    later releases do not drop it, and refuse `-h=h`. -/
def ofShortHelp : List Char → Argument
  | ['='] => valued .help ""
  | '=' :: letters => ofHelpGroup letters
  | letters => ofHelpGroup letters

def ofText (text : String) : Argument :=
  match text.toList with
  | '-' :: '-' :: name => if name.isEmpty then endMark else ofLong text name
  | '-' :: 'h' :: tail => ofShortHelp tail
  | '-' :: _ :: _ => ofLoose text
  | _ => operand text

/-- Read the arguments; behind the mark, all are operands. -/
def readAll : List String → List Argument
  | [] => []
  | text :: rest =>
    match ofText text with
    | endMark => endMark :: rest.map operand
    | a => a :: readAll rest

end Argument

/-! ## All arguments -/

inductive UsageError where
  | ambiguous (text : String)
  | ignoredValue (s : Switch) (value : String)
  | pathMissing
  | unrecognized (texts : List String)
  deriving DecidableEq, Repr

def UsageError.message : UsageError → String
  | ambiguous text => "ambiguous option: " ++ text ++ " could match --help, --table"
  | ignoredValue s value => "argument " ++ s.display ++ ": ignored explicit argument " ++ quoted value
  | pathMissing => "the following arguments are required: path"
  | unrecognized texts => "unrecognized arguments: " ++ " ".intercalate texts

inductive Request where
  | help
  | lex (path : Path) (table : Bool)
  deriving DecidableEq, Repr

namespace Request

/-- What the arguments up to some place have given. -/
structure Given where
  path : Option String
  table : Bool
  left : List String
  deriving DecidableEq, Repr

def finish (g : Given) : Except UsageError Request :=
  match g.path with
  | none => .error .pathMissing
  | some path => if g.left.isEmpty then .ok (.lex (.ofText path) g.table) else .error (.unrecognized g.left)

def collect (g : Given) : List Argument → Except UsageError Request
  | [] => finish g
  | .operand text :: .endMark :: rest =>
    match g.path with
    | none => collect { g with path := some text } rest
    | some _ => collect { g with left := g.left ++ [text, "--"] } rest
  | .endMark :: .operand text :: rest =>
    match g.path with
    | none => collect { g with path := some text } rest
    | some _ => collect { g with left := g.left ++ ["--", text] } rest
  | .operand text :: rest =>
    match g.path with
    | none => collect { g with path := some text } rest
    | some _ => collect { g with left := g.left ++ [text] } rest
  | .endMark :: rest => collect { g with left := g.left ++ ["--"] } rest
  | .switch .help :: _ => .ok .help
  | .switch .table :: rest => collect { g with table := true } rest
  | .valued s value :: _ => .error (.ignoredValue s value)
  | .ambiguous text :: _ => .error (.ambiguous text)
  | .unknown text :: rest => collect { g with left := g.left ++ [text] } rest

def ofArguments (arguments : List String) : Except UsageError Request :=
  let read := Argument.readAll arguments
  match read.find? fun a => match a with | .ambiguous _ => true | _ => false with
  | some (.ambiguous text) => .error (.ambiguous text)
  | _ => collect ⟨none, false, []⟩ read

end Request

end LoxLexer
