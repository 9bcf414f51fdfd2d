/-
  LoxLexer.Proofs.Resumption — a scan that is stopped loses nothing.

  A sink may refuse any report, and each refusal stops a scan where it stands. Steps and
  looks may come between the scans, in any order. Once a scan gets to the end, the tokens
  and all that was reported on the way are what one scan that was never stopped gives:
  nothing is lost, nothing is given twice (`scan_resumes`). A scan is stopped only by a
  diagnostic that is never reported again, so scans are stopped at most once for each
  diagnostic of the source (`stops_le`). After the end nothing moves but the mark that a
  step sets (`run_of_done`).
-/

import LoxLexer.Proofs.Reading

namespace LoxLexer

open Piece

namespace Session

variable {σ : Type} [Sink σ]

/-- Whether an operation is a scan that fails. -/
def stopped (s : Session σ) (op : Op) : Bool := op == .scan && !(s.exec op).2.isOk

/-- How many of these operations are scans that fail. -/
def stops (s : Session σ) : List Op → Nat
  | [] => 0
  | op :: ops => (if s.stopped op then 1 else 0) + (s.exec op).1.stops ops

theorem exec_scan_of_accepted {s : Session σ} (h : s.scan.2 = .accepted) :
    s.exec .scan = (s.scan.1, .ok (.count s.scan.1.scanner.tokens.size)) := by
  show answer s.scan _ = _
  unfold answer; split <;> simp_all

theorem exec_scan_of_refused {s : Session σ} (h : s.scan.2 = .refused) : s.exec .scan = (s.scan.1, .error .refused) := by
  show answer s.scan _ = _
  unfold answer; split <;> simp_all

theorem isOk_scan {s : Session σ} : (s.exec .scan).2.isOk = true ↔ s.scan.2 = .accepted := by
  cases h : s.scan.2 with
  | accepted => rw [exec_scan_of_accepted h]; exact iff_of_true rfl rfl
  | refused => rw [exec_scan_of_refused h]; exact iff_of_false Bool.false_ne_true (fun h => by cases h)

/-! ## After the end -/

/-- A session that is done only moves its mark. -/
theorem run_of_done {s : Session σ} (hd : s.scanner.done = true) (hr : s.scanner.rest = []) {ops : List Op}
    (ho : ∀ op ∈ ops, op.reads = true) : ∃ n, s.run ops = ⟨{ s.scanner with start := n }, s.sink⟩ := by
  induction ops generalizing s with
  | nil => exact ⟨s.scanner.start, rfl⟩
  | cons op ops ih =>
    have hops : ∀ o ∈ ops, o.reads = true := fun o h => ho o (List.mem_cons_of_mem _ h)
    have hop := ho op (List.mem_cons_self ..)
    show ∃ n, (s.exec op).1.run ops = _
    cases op with
    | scan => rw [exec_scan, scan_of_done hd]; exact ih hd hr hops
    | step => rw [exec_step_nil hr]; exact ih (s := ⟨s.scanner.mark, s.sink⟩) hd hr hops
    | peek | peekNext | atEnd => exact ih hd hr hops
    | _ => cases hop

end Session

/-! ## Scans that are stopped -/

theorem diagnostics_le {ps qs : List Piece} {line : Int} :
    (diagnostics line ps).length ≤ (diagnostics line (ps ++ qs)).length := by
  rw [diagnostics, collect_append, List.length_append]; omega

namespace HasRead

variable {σ : Type} [Sink σ] {source : List Char} {sink : σ} {ps : List Piece} {s : Session σ}

/-- A scan that is stopped has reported something. -/
theorem exec_stopped (h : HasRead source sink ps s) {op : Op} (ho : op.reads = true) :
    ∃ qs, HasRead source sink (ps ++ qs) (s.exec op).1 ∧
      (if s.stopped op then 1 else 0) + (diagnostics 1 ps).length ≤ (diagnostics 1 (ps ++ qs)).length := by
  by_cases hs : s.stopped op = true
  · rw [if_pos hs]
    obtain ⟨ho, hf⟩ := Bool.and_eq_true_iff.mp hs
    obtain rfl := eq_of_beq ho
    have hv : s.scan.2 = .refused := by
      cases hv : s.scan.2 with
      | refused => rfl
      | accepted => rw [Session.isOk_scan.mpr hv] at hf; cases hf
    obtain ⟨qs, hq, _, href⟩ := h.scan
    obtain ⟨ds, d, hds, _⟩ := href hv
    refine ⟨qs, by rw [Session.exec_scan]; exact hq, ?_⟩
    rw [hds]
    simp only [List.length_append, List.length_singleton]
    omega
  · rw [if_neg hs]
    obtain ⟨qs, hq⟩ := h.exec ho
    exact ⟨qs, hq, by rw [Nat.zero_add]; exact diagnostics_le⟩

theorem run_stops (h : HasRead source sink ps s) {ops : List Op} (ho : ∀ op ∈ ops, op.reads = true) :
    ∃ qs, HasRead source sink (ps ++ qs) (s.run ops) ∧
      s.stops ops + (diagnostics 1 ps).length ≤ (diagnostics 1 (ps ++ qs)).length := by
  induction ops generalizing ps s with
  | nil => exact ⟨[], by rwa [List.append_nil], by rw [Session.stops, List.append_nil]; omega⟩
  | cons op ops ih =>
    obtain ⟨qs, hq, h1⟩ := h.exec_stopped (ho op (List.mem_cons_self ..))
    obtain ⟨rs, hr, h2⟩ := ih hq fun o h => ho o (List.mem_cons_of_mem _ h)
    rw [List.append_assoc] at hr h2
    exact ⟨qs ++ rs, hr, by rw [Session.stops]; omega⟩

/-- Scans of a session are stopped at most once for each diagnostic of the source. -/
theorem stops_le (h : HasRead source sink [] s) {ops : List Op} (ho : ∀ op ∈ ops, op.reads = true) :
    s.stops ops ≤ (diagnostics 1 (pieces source)).length := by
  obtain ⟨qs, hq, hs⟩ := h.run_stops ho
  rw [hq.pieces_eq]
  exact Nat.le_trans (Nat.le_trans (Nat.le_add_right ..) hs) diagnostics_le

end HasRead

/-! ## Resumption -/

/-- However a source is read, by scans that the sink stops anywhere, with steps and looks
    between them: once a scan gets to the end, the tokens and the reports are those of a
    scan that nothing stopped, and nothing is added to either afterwards. A step at the
    end fails and sets the mark. -/
theorem scan_resumes {σ : Type} [Sink σ] (sink : σ) (source : String) (ops : List Op)
    (ho : ∀ op ∈ ops, op.reads = true)
    (hlast : (((Session.fresh source.toList sink).run ops).exec .scan).2.isOk = true) :
    let start := Session.fresh source.toList sink
    let s := ((start.run ops).exec .scan).1
    s.scanner.tokens = (scan source).1 ∧ s.sink = Sink.after sink (scan source).2.toList ∧
      start.stops (ops ++ [.scan]) ≤ (scan source).2.size ∧
      (∀ more : List Op, (∀ op ∈ more, op.reads = true) →
        ∃ n, s.run more = ⟨{ s.scanner with start := n }, s.sink⟩ ∧
          (s.run more).exec .scan = (s.run more, .ok (.count s.scanner.tokens.size))) ∧
      ∀ t : Session σ, t.scanner.atEnd = true → t.exec .step =
        (⟨{ t.scanner with start := t.scanner.current }, t.sink⟩, .error (.ofPosition t.scanner.current)) := by
  intro start s
  obtain ⟨ht, hds⟩ := toList_scan source
  obtain ⟨ps, hps⟩ := HasRead.run_fresh source.toList sink ho
  obtain ⟨qs, h, hacc, _⟩ := hps.scan
  have hd := hacc (Session.isOk_scan.mp hlast)
  rw [← Session.exec_scan] at h hd
  rw [h.all_of_done hd] at h
  have htokens := h.tokens_eq
  rw [hd, if_pos rfl, ← ht] at htokens
  have hall : ∀ op ∈ ops ++ [Op.scan], op.reads = true := by
    intro op hop
    rcases List.mem_append.mp hop with hop | hop
    · exact ho op hop
    · rw [List.mem_singleton.mp hop]; rfl
  have hstops := (HasRead.fresh source.toList sink).stops_le hall
  refine ⟨Array.ext' htokens, by rw [hds]; exact h.sink_eq, ?_, fun more hm => ?_, fun t hend => ?_⟩
  · rw [← hds, Array.length_toList] at hstops
    exact hstops
  · obtain ⟨n, hn⟩ := Session.run_of_done hd (h.rest_of_done hd) hm
    refine ⟨n, hn, ?_⟩
    have hscan : (s.run more).scan = (s.run more, .accepted) := Session.scan_of_done (by rw [hn]; exact hd)
    rw [Session.exec_scan_of_accepted (by rw [hscan]), hscan, hn]
  · refine Session.exec_step_nil (List.drop_eq_nil_of_le ?_)
    simpa [Scanner.atEnd] using hend

/-- A sink that keeps and refuses everything stops two scans; a step stands between them. -/
theorem scan_resumes_after_two_stops :
    let start := Session.fresh "a@\n\"x".toList (Chain.collecting #[] .refusing)
    let ops := [Op.scan, .step, .scan]
    (∀ op ∈ ops, op.reads = true) ∧ ((start.run ops).exec .scan).2.isOk = true ∧ start.stops (ops ++ [.scan]) = 2 ∧
      ((start.run ops).exec .scan).1.scanner.tokens = (scan "a@\n\"x").1 := by
  have ho : ∀ op ∈ [Op.scan, .step, .scan], op.reads = true := by decide
  have hlast : (((Session.fresh "a@\n\"x".toList (Chain.collecting #[] .refusing)).run
      [Op.scan, .step, .scan]).exec .scan).2.isOk = true := by decide +kernel
  exact ⟨ho, hlast, by decide +kernel, (scan_resumes (Chain.collecting #[] .refusing) _ _ ho hlast).1⟩

end LoxLexer
