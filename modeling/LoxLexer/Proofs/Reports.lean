/-
  LoxLexer.Proofs.Reports — a sink over a whole sequence of reports.

  A sink is left by a sequence of reports in a state that depends on the reports alone
  (`Sink.after`): a refusal is part of its state, not the end of it. What was reported to
  a sink over a run is therefore said by naming the sequence that leaves it so, and this
  holds of every sink at once, the ones that keep all they are given among them
  (`after_collecting`), so no other sequence would do (`eq_of_after_eq`).
-/

import LoxLexer.Report.Sink

namespace LoxLexer

namespace Sink

variable {σ : Type} [Sink σ]

/-- The sink after these reports, whatever it answered to each. -/
def after (sink : σ) (ds : List Diagnostic) : σ := ds.foldl (fun k d => (report k d).1) sink

/-- The sink accepts every report, whatever was reported before. -/
def Accepting (sink : σ) : Prop := ∀ ds d, (report (after sink ds) d).2 = .accepted

@[simp] theorem after_nil (sink : σ) : after sink [] = sink := rfl

@[simp] theorem after_cons (sink : σ) (d : Diagnostic) (ds : List Diagnostic) :
    after sink (d :: ds) = after (report sink d).1 ds := rfl

theorem after_append (sink : σ) (ds es : List Diagnostic) : after sink (ds ++ es) = after (after sink ds) es :=
  List.foldl_append

end Sink

namespace Chain

theorem report_collecting (kept : Array Diagnostic) (next : Chain) (d : Diagnostic) :
    Sink.report (collecting kept next) d = (collecting (kept.push d) (Sink.report next d).1, (Sink.report next d).2) := rfl

/-- A collecting sink keeps every report, and passes every report on. -/
theorem after_collecting (kept : Array Diagnostic) (next : Chain) (ds : List Diagnostic) :
    Sink.after (collecting kept next) ds = collecting (kept ++ ds.toArray) (Sink.after next ds) := by
  induction ds generalizing kept next with
  | nil => simp
  | cons d ds ih => rw [Sink.after_cons, report_collecting, ih]; simp

/-- No two sequences of reports leave every sink alike. -/
theorem eq_of_after_eq {ds es : List Diagnostic} (h : ∀ sink : Chain, Sink.after sink ds = Sink.after sink es) :
    ds = es := by
  have := h (collecting #[] silent)
  rw [after_collecting, after_collecting] at this
  injection this with hk
  simpa using hk

theorem after_silent (ds : List Diagnostic) : Sink.after silent ds = silent := by
  induction ds with
  | nil => rfl
  | cons d ds ih => exact ih

theorem accepting_silent : Sink.Accepting silent := fun ds d => by rw [after_silent]; rfl

theorem accepting_collecting {next : Chain} (h : Sink.Accepting next) (kept : Array Diagnostic) :
    Sink.Accepting (collecting kept next) := fun ds d => by
  rw [after_collecting, report_collecting]
  exact h ds d

end Chain

end LoxLexer
