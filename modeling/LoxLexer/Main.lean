/-
  LoxLexer.Main — the command on the files of the system.
-/

import LoxLexer.Command.Run

namespace LoxLexer.Command

/-- Read a file of the system. A directory can be opened and fails only when it is read,
    so that its failure has no file name. Trouble of any other kind is thrown. -/
def readFile (path : Path) : IO (Except OpenError (List UInt8)) := do
  if path.text.contains '\x00' then return .error .nullCharacter
  try
    let bytes ← IO.FS.readBinFile path.text
    return .ok bytes.toList
  catch
    | .noFileOrDirectory .. => return .error .notFound
    | .inappropriateType none .. => return .error .isDirectory
    | .inappropriateType (some _) .. => return .error .notDirectory
    | .invalidArgument (some _) .. => return .error .nameTooLong
    | e => throw e

def write (o : Outcome) : IO UInt32 := do
  IO.print o.stdout
  IO.eprint o.stderr
  return UInt32.ofNat o.exit

def runOnSystem (arguments : List String) : IO UInt32 := do
  match Request.ofArguments arguments with
  | .error e => write (usageOutcome e)
  | .ok .help => write helpOutcome
  | .ok (.lex path table) =>
    match lex path table (← readFile path) with
    | .ok o => write o
    | .error a =>
      IO.eprintln a.message
      return 1

end LoxLexer.Command

def main (arguments : List String) : IO UInt32 := LoxLexer.Command.runOnSystem arguments
