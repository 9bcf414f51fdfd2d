/-
  LoxLexer.Proofs.Chains — what a chain of sinks keeps, writes and answers.

  A chain is a number of collecting sinks (`Chain.layers`) and an end behind them, which is
  nothing, a sink that refuses everything, or a console (`Chain.End`). A collecting sink
  keeps a diagnostic before it passes it on and hands back what the sink behind it
  answers. So the end alone decides the answer, and when it refuses, every sink in front
  of it has kept the diagnostic already.

  Proved:
  - `text_eq_place_iff`, `text_eq_message_iff`: which line the text of a diagnostic names.
  - `after_stack`: a chain after any sequence of reports.
  - `verdict_stack`: what a chain answers, whatever was reported and refused before.
  - `chain_keeps_all`: all of a chain's parts after any sequence of reports.
-/

import LoxLexer.Proofs.Delimited
import LoxLexer.Proofs.Reports

namespace LoxLexer

/-! ## The text of a diagnostic -/

namespace Diagnostic

theorem place_some {n : Int} (h : n ≠ 0) : place (some n) = "[Line " ++ toString n ++ "]: " := by
  simp [place, h]

theorem place_eq_empty_iff {line : Option Int} : place line = "" ↔ line = none ∨ line = some 0 := by
  cases line with
  | none => simp [place]
  | some n =>
    by_cases h : n = 0
    · simp [place, h]
    · simp [place_some h, h]

theorem place_eq_iff {line : Option Int} {n : Int} :
    place line = "[Line " ++ toString n ++ "]: " ↔ line = some n ∧ n ≠ 0 := by
  constructor
  · intro h
    by_cases hempty : line = none ∨ line = some 0
    · rw [place_eq_empty_iff.mpr hempty] at h
      simp at h
    · obtain ⟨m, rfl⟩ : ∃ m, line = some m := Option.ne_none_iff_exists'.mp fun he => hempty (Or.inl he)
      have hm : m ≠ 0 := fun he => hempty (Or.inr (congrArg some he))
      rw [place_some hm, String.append_left_inj, String.append_right_inj] at h
      rw [← toString_int_injective h]
      exact ⟨rfl, hm⟩
  · intro h
    obtain ⟨rfl, hn⟩ := h
    exact place_some hn

/-- The text of a diagnostic is its message alone if it has no line, or line 0. -/
theorem text_eq_message_iff (d : Diagnostic) : d.text = d.message ↔ d.line = none ∨ d.line = some 0 := by
  rw [← place_eq_empty_iff, text]
  simp

/-- The text of a diagnostic names a line if it is the diagnostic's, and not 0. -/
theorem text_eq_place_iff (d : Diagnostic) (n : Int) :
    d.text = "[Line " ++ toString n ++ "]: " ++ d.message ↔ d.line = some n ∧ n ≠ 0 := by
  rw [text, String.append_left_inj, place_eq_iff]

end Diagnostic

/-! ## Sinks that always answer alike -/

namespace Sink

variable {σ : Type} [Sink σ]

/-- What the sink answers to each of these reports, one after the other. -/
def answers (sink : σ) : List Diagnostic → List Verdict
  | [] => []
  | d :: ds => (report sink d).2 :: answers (report sink d).1 ds

theorem answers_of_always {sink : σ} {v : Verdict} (h : ∀ ds d, (report (after sink ds) d).2 = v)
    (ds : List Diagnostic) : answers sink ds = ds.map fun _ => v := by
  induction ds generalizing sink with
  | nil => rfl
  | cons d ds ih =>
    have hrest : answers (report sink d).1 ds = ds.map fun _ => v := ih fun es e => h (d :: es) e
    have hfirst : (report sink d).2 = v := h [] d
    rw [answers, hrest, hfirst, List.map_cons]

end Sink

/-! ## Chains -/

namespace Chain

/-- What may stand at the end of a chain. -/
inductive End where
  | silent
  | refusing
  | console (s : Stream)
  deriving DecidableEq, Repr

/-- The end of a chain before any report. -/
def End.fresh : End → Chain
  | silent => .silent
  | refusing => .refusing
  | console s => .console (.fresh s)

/-- The end of a chain after these reports. -/
def End.after (ds : List Diagnostic) : End → Chain
  | silent => .silent
  | refusing => .refusing
  | console s => .console ⟨s, ds.length, String.join (ds.map fun d => d.text ++ "\n")⟩

def End.verdict : End → Verdict
  | refusing => .refused
  | silent | console _ => .accepted

/-- `k` collecting sinks with the same diagnostics kept, in front of an end. -/
def layers (kept : Array Diagnostic) (c : Chain) : Nat → Chain
  | 0 => c
  | k + 1 => collecting kept (layers kept c k)

/-- `k` collecting sinks in front of an end, before any report. -/
def stack (e : End) (k : Nat) : Chain := layers #[] e.fresh k

/-- The collecting sinks of a chain, each with what is behind it. -/
def collectors : Chain → List Chain
  | collecting kept next => collecting kept next :: next.collectors
  | _ => []

/-- What stands at the end of a chain. -/
def last : Chain → Chain
  | collecting _ next => next.last
  | c => c

theorem last_layers (kept : Array Diagnostic) (c : Chain) (k : Nat) : (layers kept c k).last = c.last := by
  induction k with
  | zero => rfl
  | succ k ih => rw [layers, last, ih]

theorem standardError_layers (kept : Array Diagnostic) (c : Chain) (k : Nat) :
    (layers kept c k).standardError = c.standardError := by
  induction k with
  | zero => rfl
  | succ k ih => rw [layers, standardError, ih]

theorem collectors_layers (kept : Array Diagnostic) {c : Chain} (hc : c.collectors = []) (k : Nat) :
    (layers kept c k).collectors.length = k ∧ ∀ r ∈ (layers kept c k).collectors, ∃ next, r = collecting kept next := by
  induction k with
  | zero => simp [layers, hc]
  | succ k ih =>
    obtain ⟨hlength, hall⟩ := ih
    refine ⟨by simp [layers, collectors, hlength], ?_⟩
    intro r hr
    rcases List.mem_cons.mp hr with hr | hr
    · exact ⟨_, hr⟩
    · exact hall r hr

/-- All collecting sinks of a chain keep the same reports, and the end is given them all. -/
theorem after_layers (kept : Array Diagnostic) (c : Chain) (k : Nat) (ds : List Diagnostic) :
    Sink.after (layers kept c k) ds = layers (kept ++ ds.toArray) (Sink.after c ds) k := by
  induction k with
  | zero => rfl
  | succ k ih => rw [layers, after_collecting, ih, layers]

theorem answer_layers (kept : Array Diagnostic) (c : Chain) (k : Nat) (d : Diagnostic) :
    (Sink.report (layers kept c k) d).2 = (Sink.report c d).2 := by
  induction k with
  | zero => rfl
  | succ k ih => rw [layers, report_collecting, ih]

theorem report_end (e : End) (ds : List Diagnostic) (d : Diagnostic) :
    Sink.report (e.after ds) d = (e.after (ds ++ [d]), e.verdict) := by
  cases e with
  | silent => rfl
  | refusing => rfl
  | console s =>
    show (console (Console.report _ d), _) = _
    simp [Console.report, End.after, End.verdict, String.append_assoc]

/-- An end counts and writes every report behind those before it. -/
theorem after_end (e : End) (ds es : List Diagnostic) : Sink.after (e.after ds) es = e.after (ds ++ es) := by
  induction es generalizing ds with
  | nil => rw [List.append_nil, Sink.after_nil]
  | cons d es ih => rw [Sink.after_cons, report_end, ih, ← List.append_cons]

theorem after_stack (e : End) (k : Nat) (ds : List Diagnostic) :
    Sink.after (stack e k) ds = layers ds.toArray (e.after ds) k := by
  have hfresh : e.fresh = e.after [] := by cases e <;> rfl
  rw [stack, after_layers, hfresh, after_end]
  simp

/-- A chain answers as its end does, also after it has refused. -/
theorem verdict_stack (e : End) (k : Nat) (ds : List Diagnostic) (d : Diagnostic) :
    (Sink.report (Sink.after (stack e k) ds) d).2 = e.verdict := by
  rw [after_stack, answer_layers, report_end]

theorem accepting_stack {e : End} (h : e ≠ .refusing) (k : Nat) : Sink.Accepting (stack e k) := by
  intro ds d
  rw [verdict_stack]
  cases e with
  | refusing => exact absurd rfl h
  | _ => rfl

theorem collectors_end (e : End) (ds : List Diagnostic) : (e.after ds).collectors = [] := by
  cases e <;> rfl

theorem last_end (e : End) (ds : List Diagnostic) : (e.after ds).last = e.after ds := by
  cases e <;> rfl

end Chain

/-- After any sequence of reports, refused or not, each collecting sink of a chain holds all
    the diagnostics in the order of the reports, and knows whether there were any; a report
    is refused if and only if the chain ends in a sink that refuses; and a console at the end
    has counted the reports and written the text of each on a line. The text of a diagnostic
    names its line unless there is none, or it is line 0. -/
theorem chain_keeps_all (e : Chain.End) (k : Nat) (ds : List Diagnostic) :
    let c := Sink.after (Chain.stack e k) ds
    c.collectors.length = k ∧
      (∀ r ∈ c.collectors, r.kept.toList = ds ∧ (r.hadError = true ↔ ds ≠ [])) ∧
      Sink.answers (Chain.stack e k) ds = ds.map (fun _ => if e = .refusing then .refused else .accepted) ∧
      c.last = (match e with
        | .silent => .silent
        | .refusing => .refusing
        | .console s => .console ⟨s, ds.length, String.join (ds.map fun d => d.text ++ "\n")⟩) ∧
      ∀ d : Diagnostic, (d.text = d.message ↔ d.line = none ∨ d.line = some 0) ∧
        ∀ n : Int, d.text = "[Line " ++ toString n ++ "]: " ++ d.message ↔ d.line = some n ∧ n ≠ 0 := by
  intro c
  have hc : c = Chain.layers ds.toArray (e.after ds) k := Chain.after_stack e k ds
  obtain ⟨hlength, hall⟩ := Chain.collectors_layers ds.toArray (Chain.collectors_end e ds) k
  rw [hc]
  refine ⟨hlength, ?_, ?_, ?_, fun d => ⟨d.text_eq_message_iff, d.text_eq_place_iff⟩⟩
  · intro r hr
    obtain ⟨next, rfl⟩ := hall r hr
    simp [Chain.kept, Chain.hadError]
  · rw [Sink.answers_of_always (Chain.verdict_stack e k)]
    cases e <;> rfl
  · rw [Chain.last_layers, Chain.last_end]
    cases e <;> rfl

/-- Two collecting sinks in front of one that refuses keep both of two reports. -/
example :
    let ds : List Diagnostic := [⟨"a", some 2⟩, ⟨"b", none⟩]
    (Sink.after (Chain.stack .refusing 2) ds).collectors.map Chain.kept = [ds.toArray, ds.toArray] := by decide

end LoxLexer
