/-
  LoxLexer.File.Tree — opening a path in a tree of files.

  A tree lists the files and directories below a working directory by their components;
  a directory that something lies below need not be listed. Above the working directory
  there are directories only, and none of them has a name that can be given.

  A path is resolved component by component (`resolve`). Each component is looked up in
  what was reached so far, which must be a directory, and its name must not be too long;
  `..` leads to the directory above. Only a file can be opened in the end.
-/

import LoxLexer.File.Path

namespace LoxLexer

inductive OpenError where
  | notFound
  | isDirectory
  | notDirectory
  | nameTooLong
  /-- The path holds a null character. -/
  | nullCharacter
  deriving DecidableEq, Repr

inductive Node where
  | file (bytes : List UInt8)
  | directory
  deriving DecidableEq, Repr

structure Tree where
  entries : List (List String × Node)
  deriving DecidableEq, Repr

/-- What a path leads to: a file, a directory below the working directory, or one above it. -/
inductive Place where
  | file (bytes : List UInt8)
  | directory (path : List String)
  | above
  deriving DecidableEq, Repr

/-- The greatest length of a component, in bytes. -/
def maxName : Nat := 255

/-- The greatest length of a path, in bytes. -/
def maxPath : Nat := 4095

namespace Tree

/-- What lies in the tree under these components. -/
def get? (t : Tree) (path : List String) : Option Place :=
  match t.entries.find? (·.1 == path) with
  | some (_, .file bytes) => some (.file bytes)
  | some (_, .directory) => some (.directory path)
  | none => if t.entries.any (path.isPrefixOf ·.1) then some (.directory path) else none

/-- Look up one component. -/
def enter (t : Tree) (name : String) : Place → Except OpenError Place
  | .file _ => .error .notDirectory
  | .above =>
    if maxName < name.utf8ByteSize then .error .nameTooLong
    else if name == ".." then .ok .above
    else .error .notFound
  | .directory path =>
    if maxName < name.utf8ByteSize then .error .nameTooLong
    else if name == ".." then .ok (if path.isEmpty then .above else .directory path.dropLast)
    else
      match t.get? (path ++ [name]) with
      | some place => .ok place
      | none => .error .notFound

def resolve (t : Tree) (p : Path) : Except OpenError Place :=
  let start := match p.root with
    | .relative => Place.directory []
    | _ => Place.above
  p.parts.foldlM (fun place name => t.enter name place) start

/-- The bytes of the file at a path. -/
def read (t : Tree) (p : Path) : Except OpenError (List UInt8) := do
  if p.text.contains '\x00' then throw .nullCharacter
  if maxPath < p.text.utf8ByteSize then throw .nameTooLong
  match ← t.resolve p with
  | .file bytes => return bytes
  | _ => throw .isDirectory

end Tree

end LoxLexer
