/-
  LoxLexer.File.Path — the path of a file.

  A path is written with slashes between its components. Slashes that follow each other
  are one, a slash at the end and a component `.` mean nothing, and `..` is kept as it
  is; the path without components is written `.`. A path that begins with a slash is
  absolute; with exactly two, it is kept apart from one that begins with one, or with
  more than two.
-/

namespace LoxLexer

inductive Root where
  | relative
  | slash
  | twoSlashes
  deriving DecidableEq, Repr

structure Path where
  root : Root
  parts : List String
  deriving DecidableEq, Repr

def Root.ofText (s : List Char) : Root :=
  match (s.takeWhile (· == '/')).length with
  | 0 => relative
  | 2 => twoSlashes
  | _ => slash

def Root.text : Root → String
  | relative => ""
  | slash => "/"
  | twoSlashes => "//"

namespace Path

def ofText (s : String) : Path :=
  let parts := (s.toList.splitOn '/').map String.ofList
  ⟨Root.ofText s.toList, parts.filter fun p => !(p == "" || p == ".")⟩

def text (p : Path) : String :=
  let s := p.root.text ++ "/".intercalate p.parts
  if s == "" then "." else s

end Path

end LoxLexer
