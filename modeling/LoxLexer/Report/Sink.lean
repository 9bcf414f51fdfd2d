/-
  LoxLexer.Report.Sink — where diagnostics go.

  A sink is anything that takes a diagnostic and answers whether it accepted it
  (`Sink`). A refusal is an answer, not the end of the sink: its state after a refusal
  is as good as after an acceptance, and it may accept the next report.

  `Chain` is the family of sinks that are built from parts. Collecting sinks stand in
  front, each keeping what it is given before it passes it on; a chain ends in nothing,
  in a sink that refuses everything, or in a console. A console counts a diagnostic
  and then writes its text and a line end, on a stream of its own or on the standard
  error stream.
-/

import LoxLexer.Report.Diagnostic

namespace LoxLexer

inductive Verdict where
  | accepted
  | refused
  deriving DecidableEq, Repr

class Sink (σ : Type) where
  report : σ → Diagnostic → σ × Verdict

/-! ## Consoles -/

inductive Stream where
  | own
  | standardError
  deriving DecidableEq, Repr

structure Console where
  stream : Stream
  count : Nat
  written : String
  deriving DecidableEq, Repr

def Console.fresh (s : Stream) : Console := ⟨s, 0, ""⟩

def Console.report : Console → Diagnostic → Console
  | ⟨stream, count, written⟩, d => ⟨stream, count + 1, written ++ d.text ++ "\n"⟩

/-! ## Chains -/

inductive Chain where
  | silent
  | refusing
  | console (c : Console)
  | collecting (kept : Array Diagnostic) (next : Chain)
  deriving DecidableEq, Repr

namespace Chain

def report : Chain → Diagnostic → Chain × Verdict
  | silent, _ => (silent, .accepted)
  | refusing, _ => (refusing, .refused)
  | console c, d => (console (c.report d), .accepted)
  | collecting kept next, d =>
    match next.report d with
    | (next, v) => (collecting (kept.push d) next, v)

instance : Sink Chain := ⟨report⟩

/-- Whether the first sink of the chain has kept anything. -/
def hadError : Chain → Bool
  | collecting kept _ => !kept.isEmpty
  | _ => false

/-- What the first sink of the chain has kept. -/
def kept : Chain → Array Diagnostic
  | collecting kept _ => kept
  | _ => #[]

/-- Everything the chain has written on the standard error stream. -/
def standardError : Chain → String
  | console ⟨.standardError, _, written⟩ => written
  | collecting _ next => next.standardError
  | _ => ""

end Chain

end LoxLexer
