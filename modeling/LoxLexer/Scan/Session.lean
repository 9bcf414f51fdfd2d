/-
  LoxLexer.Scan.Session — a scanner that reports to a sink, driven one operation at a
  time.

  `scan` reads pieces to the end of the source, adds the token for the end, and is
  done; a scan that is done changes nothing. When the sink refuses a diagnostic the
  scan stops there, with the piece read: nothing is undone, and a later scan goes on
  behind it. `step` reads one piece, done or not. `string` and `identifier` read the
  inside of a string or word from wherever the position is.

  Every operation leaves a session that every operation can go on from (`exec`); a
  failure is an answer beside it (`Failure`).
-/

import LoxLexer.Report.Sink
import LoxLexer.Scan.Scanner

namespace LoxLexer

structure Session (σ : Type) where
  scanner : Scanner
  sink : σ

inductive Failure where
  /-- The position is not before any character. -/
  | pastEnd
  /-- The position is not before any character, and is greater than an index can be. -/
  | beyondIndex
  /-- The sink refused a diagnostic. -/
  | refused
  deriving DecidableEq, Repr

def Failure.message : Failure → String
  | pastEnd => "string index out of range"
  | beyondIndex => "cannot fit 'int' into an index-sized integer"
  | refused => ""

/-- The greatest index of a character, `2 ^ 63 - 1`. -/
def maxIndex : Nat := 0x7FFFFFFFFFFFFFFF

/-- How reading a character fails at a position that is before none. -/
def Failure.ofPosition (n : Nat) : Failure := if n ≤ maxIndex then pastEnd else beyondIndex

inductive Answer where
  | nothing
  | flag (b : Bool)
  | char (c : Char)
  | count (n : Nat)
  deriving DecidableEq, Repr

inductive Op where
  | scan
  | step
  | advance
  | peek
  | peekNext
  | atEnd
  | accept (expected : String)
  | mark
  | seek (n : Nat)
  | setLine (line : Int)
  | add (kind : Kind) (literal : Option Literal)
  | string
  | identifier
  deriving DecidableEq, Repr

namespace Session

variable {σ : Type} [Sink σ]

def fresh (source : List Char) (sink : σ) : Session σ := ⟨.fresh source, sink⟩

/-! ## Reading with reports -/

/-- Hand on the diagnostic of an operation, if it has one. -/
def deliver (r : Scanner × Option Diagnostic) (sink : σ) : Session σ × Verdict :=
  match r with
  | (scanner, none) => (⟨scanner, sink⟩, .accepted)
  | (scanner, some d) =>
    match Sink.report sink d with
    | (sink, v) => (⟨scanner, sink⟩, v)

/-- Read one piece. -/
def read : Session σ → Piece → Session σ × Verdict
  | ⟨scanner, sink⟩, p => deliver (scanner.read p) sink

/-- Read pieces until the sink refuses one; after the last of them, finish. -/
def readAll (s : Session σ) : List Piece → Session σ × Verdict
  | [] =>
    match s with
    | ⟨scanner, sink⟩ => (⟨scanner.finish, sink⟩, .accepted)
  | p :: ps =>
    match s.read p with
    | (s, .accepted) => s.readAll ps
    | (s, .refused) => (s, .refused)

def scan (s : Session σ) : Session σ × Verdict :=
  if s.scanner.done then (s, .accepted) else s.readAll (Piece.pieces s.scanner.rest)

/-! ## Operations -/

def answer (r : Session σ × Verdict) (a : Session σ → Answer) : Session σ × Except Failure Answer :=
  match r with
  | (s, .accepted) => (s, .ok (a s))
  | (s, .refused) => (s, .error .refused)

def step (s : Session σ) : Session σ × Except Failure Answer :=
  match s.scanner.rest with
  | [] => (⟨s.scanner.mark, s.sink⟩, .error (.ofPosition s.scanner.current))
  | c :: r => answer (s.read (Piece.first c r).1) fun _ => .nothing

def exec (s : Session σ) : Op → Session σ × Except Failure Answer
  | .scan => answer s.scan fun s => .count s.scanner.tokens.size
  | .step => s.step
  | .advance =>
    match s.scanner.advance? with
    | some (c, scanner) => (⟨scanner, s.sink⟩, .ok (.char c))
    | none => (s, .error (.ofPosition s.scanner.current))
  | .peek => (s, .ok (.char s.scanner.peek))
  | .peekNext => (s, .ok (.char s.scanner.peekNext))
  | .atEnd => (s, .ok (.flag s.scanner.atEnd))
  | .accept expected =>
    match s.scanner.accept expected with
    | (scanner, b) => (⟨scanner, s.sink⟩, .ok (.flag b))
  | .mark => (⟨s.scanner.mark, s.sink⟩, .ok .nothing)
  | .seek n => (⟨s.scanner.seek n, s.sink⟩, .ok .nothing)
  | .setLine line => (⟨s.scanner.setLine line, s.sink⟩, .ok .nothing)
  | .add kind literal => (⟨s.scanner.add kind literal, s.sink⟩, .ok .nothing)
  | .string => answer (deliver s.scanner.string s.sink) fun _ => .nothing
  | .identifier => (⟨s.scanner.identifier, s.sink⟩, .ok .nothing)

/-- Run operations one after the other, whether they succeed or fail. -/
def run (s : Session σ) (ops : List Op) : Session σ := ops.foldl (fun s op => (s.exec op).1) s

end Session

/-! ## Scanning a text -/

/-- The tokens and the diagnostics of a source text. -/
def scan (source : String) : Array Token × Array Diagnostic :=
  match (Session.fresh source.toList (Chain.collecting #[] .silent)).scan with
  | (s, _) => (s.scanner.tokens, s.sink.kept)

end LoxLexer
