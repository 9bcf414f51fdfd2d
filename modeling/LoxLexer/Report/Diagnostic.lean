/-
  LoxLexer.Report.Diagnostic — a message about the source, with or without a line.

  The text of a diagnostic names the line in front of the message. Line 0 stands for
  no line; any other line is named, a negative one too.
-/

namespace LoxLexer

structure Diagnostic where
  message : String
  line : Option Int
  deriving DecidableEq, Repr

def Diagnostic.place : Option Int → String
  | none => ""
  | some n => if n = 0 then "" else "[Line " ++ toString n ++ "]: "

def Diagnostic.text (d : Diagnostic) : String := Diagnostic.place d.line ++ d.message

end LoxLexer
