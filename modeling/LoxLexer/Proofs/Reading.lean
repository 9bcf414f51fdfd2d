/-
  LoxLexer.Proofs.Reading — how far a session has read.

  A session that only scans, steps and looks (`Op.reads`) is never anywhere but behind
  some of the pieces of its source, with their tokens added and their diagnostics handed
  to the sink, whatever the sink answered (`HasRead`). The pieces it has read are all it
  remembers, so a scan that was stopped and begun again has read what a scan that was
  never stopped has.

  Proved:
  - `scan_of_accepted`, `scan_of_refused`: a scan that is not at the end reads one piece,
    and then is the scan of what is left, or is over if the sink refuses the piece.
  - `HasRead.read`, `HasRead.scan`: reading one piece, and a scan, stopped or not, lead
    from a session that has read some pieces to one that has read more.
  - `HasRead.run`: so does every run of operations that read.
  - `scan_of_all_accepted`: only the sink stops a scan.
-/

import LoxLexer.Proofs.Reports
import LoxLexer.Proofs.Yield
import LoxLexer.Scan.Session

namespace LoxLexer

open Piece

/-! ## One piece -/

namespace Scanner

theorem read_eq (s : Scanner) (p : Piece) :
    s.read p = (⟨s.source, s.current, s.current + p.text.length, s.line + p.newlines,
      s.tokens ++ (p.token? s.line).toArray, s.done⟩, p.diagnostic? s.line) := by
  cases h : p.outcome <;> simp [read, token?, diagnostic?, h]

end Scanner

namespace Session

variable {σ : Type} [Sink σ]

theorem read_eq (s : Session σ) (p : Piece) :
    (s.read p).1 = ⟨(s.scanner.read p).1, Sink.after s.sink (p.diagnostic? s.scanner.line).toList⟩ := by
  cases h : p.diagnostic? s.scanner.line <;> simp [read, deliver, Scanner.read_eq, h]

/-- Reading a piece fails only if the sink refuses its diagnostic. -/
theorem read_refused {s : Session σ} {p : Piece} (h : (s.read p).2 = .refused) :
    ∃ d, p.diagnostic? s.scanner.line = some d ∧ (Sink.report s.sink d).2 = .refused := by
  cases hd : p.diagnostic? s.scanner.line with
  | none => simp [read, deliver, Scanner.read_eq, hd] at h
  | some d => exact ⟨d, rfl, by simpa [read, deliver, Scanner.read_eq, hd] using h⟩

theorem done_read (s : Session σ) (p : Piece) : (s.read p).1.scanner.done = s.scanner.done := by
  rw [read_eq, Scanner.read_eq]

theorem rest_read {s : Session σ} {c : Char} {r : List Char} (h : s.scanner.rest = c :: r) :
    (s.read (first c r).1).1.scanner.rest = (first c r).2 := by
  rw [read_eq, Scanner.read_eq]
  show s.scanner.source.drop (s.scanner.current + (first c r).1.text.length) = (first c r).2
  rw [← List.drop_drop, show s.scanner.source.drop s.scanner.current = c :: r from h, ← text_append_first c r,
    List.drop_left]

/-! ## The loop of a scan -/

theorem scan_of_done {s : Session σ} (h : s.scanner.done = true) : s.scan = (s, .accepted) := by
  rw [scan, if_pos h]

theorem scan_of_rest_nil {s : Session σ} (hd : s.scanner.done = false) (hr : s.scanner.rest = []) :
    s.scan = (⟨s.scanner.finish, s.sink⟩, .accepted) := by
  rw [scan, hd, hr, pieces_nil]; rfl

/-- A scan that is not at the end reads one piece, and then is the scan of what is left. -/
theorem scan_of_accepted {s : Session σ} {c : Char} {r : List Char} (hd : s.scanner.done = false)
    (hr : s.scanner.rest = c :: r) (hv : (s.read (first c r).1).2 = .accepted) :
    s.scan = (s.read (first c r).1).1.scan := by
  have hd' := done_read s (first c r).1
  rw [hd] at hd'
  rw [scan, hd, if_neg Bool.false_ne_true, hr, pieces_cons, readAll, scan, hd', if_neg Bool.false_ne_true, rest_read hr]
  cases h : s.read (first c r).1 with
  | mk s' v =>
    rw [h] at hv
    cases hv
    rfl

/-- A scan whose sink refuses the next diagnostic has read the piece all the same. -/
theorem scan_of_refused {s : Session σ} {c : Char} {r : List Char} (hd : s.scanner.done = false)
    (hr : s.scanner.rest = c :: r) (hv : (s.read (first c r).1).2 = .refused) : s.scan = s.read (first c r).1 := by
  rw [scan, hd, if_neg Bool.false_ne_true, hr, pieces_cons, readAll]
  cases h : s.read (first c r).1 with
  | mk s' v =>
    rw [h] at hv
    cases hv
    rfl

/-! ## Operations -/

theorem exec_scan (s : Session σ) : (s.exec .scan).1 = s.scan.1 := by
  show (answer s.scan _).1 = s.scan.1
  unfold answer; split <;> simp_all

theorem exec_step_nil {s : Session σ} (hr : s.scanner.rest = []) :
    s.exec .step = (⟨s.scanner.mark, s.sink⟩, .error (.ofPosition s.scanner.current)) := by
  show s.step = _
  rw [step, hr]

theorem exec_step_cons {s : Session σ} {c : Char} {r : List Char} (hr : s.scanner.rest = c :: r) :
    (s.exec .step).1 = (s.read (first c r).1).1 := by
  show s.step.1 = _
  rw [step, hr]
  show (answer (s.read (first c r).1) _).1 = _
  unfold answer; split <;> simp_all

end Session

/-- Whether an operation only scans, steps or looks. -/
def Op.reads : Op → Bool
  | scan | step | peek | peekNext | atEnd => true
  | _ => false

/-! ## What has been read -/

/-- The session has read these pieces of the source and reported to the sink what they
    cause, and has done nothing else. -/
structure HasRead {σ : Type} [Sink σ] (source : List Char) (sink : σ) (ps : List Piece) (s : Session σ) : Prop where
  source_eq : s.scanner.source = source
  pieces_eq : pieces source = ps ++ pieces s.scanner.rest
  current_eq : s.scanner.current = (ps.flatMap text).length
  line_eq : s.scanner.line = lineAfter 1 ps
  tokens_eq : s.scanner.tokens.toList = tokens 1 ps ++ if s.scanner.done then [endToken (lineAfter 1 ps)] else []
  sink_eq : s.sink = Sink.after sink (diagnostics 1 ps)
  rest_of_done : s.scanner.done = true → s.scanner.rest = []

namespace HasRead

variable {σ : Type} [Sink σ] {source : List Char} {sink : σ} {ps : List Piece} {s : Session σ}

theorem fresh (source : List Char) (sink : σ) : HasRead source sink [] (Session.fresh source sink) where
  source_eq := rfl
  pieces_eq := rfl
  current_eq := rfl
  line_eq := rfl
  tokens_eq := rfl
  sink_eq := rfl
  rest_of_done := fun h => by cases h

/-- What has been read and what is left are the source. -/
theorem text_append_rest (h : HasRead source sink ps s) : ps.flatMap text ++ s.scanner.rest = source := by
  have := congrArg (List.flatMap text) h.pieces_eq
  rw [List.flatMap_append, flatMap_text_pieces, flatMap_text_pieces] at this
  exact this.symm

theorem take_current (h : HasRead source sink ps s) : source.take s.scanner.current = ps.flatMap text := by
  rw [h.current_eq, ← h.text_append_rest, List.take_left]

theorem read (h : HasRead source sink ps s) {c : Char} {r : List Char} (hr : s.scanner.rest = c :: r) :
    HasRead source sink (ps ++ [(first c r).1]) (s.read (first c r).1).1 := by
  have hnot : s.scanner.done = false := by
    cases hd : s.scanner.done with
    | false => rfl
    | true => rw [h.rest_of_done hd] at hr; cases hr
  have htokens := h.tokens_eq
  rw [hnot] at htokens
  refine ⟨?_, ?_, ?_, ?_, ?_, ?_, fun hd => ?_⟩
  · rw [Session.read_eq, Scanner.read_eq]; exact h.source_eq
  · rw [Session.rest_read hr, h.pieces_eq, hr, pieces_cons, List.append_assoc]; rfl
  · rw [Session.read_eq, Scanner.read_eq, List.flatMap_append, List.length_append, ← h.current_eq]
    simp
  · rw [Session.read_eq, Scanner.read_eq, lineAfter_append, ← h.line_eq]
    simp
  · rw [Session.done_read, hnot, Session.read_eq, Scanner.read_eq, tokens, collect_append, collect_singleton,
      ← h.line_eq]
    simp [htokens, tokens]
  · rw [Session.read_eq, h.sink_eq, h.line_eq, ← Sink.after_append, diagnostics, collect_append, collect_singleton]
  · rw [Session.done_read, hnot] at hd; cases hd

theorem finish (h : HasRead source sink ps s) (hd : s.scanner.done = false) (hr : s.scanner.rest = []) :
    HasRead source sink ps ⟨s.scanner.finish, s.sink⟩ := by
  have htokens := h.tokens_eq
  rw [hd] at htokens
  refine ⟨h.source_eq, h.pieces_eq, h.current_eq, h.line_eq, ?_, h.sink_eq, fun _ => hr⟩
  show (s.scanner.tokens.push (endToken s.scanner.line)).toList = tokens 1 ps ++ [endToken (lineAfter 1 ps)]
  rw [Array.toList_push, htokens, h.line_eq]
  simp

/-- A scan reads on. It is done unless the sink refused the last diagnostic it was given. -/
theorem scan (h : HasRead source sink ps s) : ∃ qs, HasRead source sink (ps ++ qs) s.scan.1 ∧
    (s.scan.2 = .accepted → s.scan.1.scanner.done = true) ∧
    (s.scan.2 = .refused → ∃ ds d, diagnostics 1 (ps ++ qs) = diagnostics 1 ps ++ ds ++ [d] ∧
      (Sink.report (Sink.after sink (diagnostics 1 ps ++ ds)) d).2 = .refused) := by
  cases hd : s.scanner.done with
  | true =>
    rw [Session.scan_of_done hd]
    exact ⟨[], by rwa [List.append_nil], fun _ => hd, fun h => by cases h⟩
  | false =>
  -- by induction on what is left, along the loop of the scan
  induction hn : s.scanner.rest.length using Nat.strongRecOn generalizing ps s with
  | ind n ih =>
    cases hr : s.scanner.rest with
    | nil =>
      rw [Session.scan_of_rest_nil hd hr]
      exact ⟨[], by rw [List.append_nil]; exact h.finish hd hr, fun _ => rfl, fun h => by cases h⟩
    | cons c r =>
      have h' := h.read hr
      have hsplit : diagnostics 1 (ps ++ [(first c r).1]) =
          diagnostics 1 ps ++ ((first c r).1.diagnostic? (lineAfter 1 ps)).toList := by
        rw [diagnostics, collect_append, collect_singleton]
      cases hv : (s.read (first c r).1).2 with
      | accepted =>
        have hlt : (s.read (first c r).1).1.scanner.rest.length < n := by
          rw [Session.rest_read hr, ← hn, hr]; exact length_first_lt c r
        obtain ⟨qs, hq, hacc, href⟩ := ih _ hlt h' (by rw [Session.done_read, hd]) rfl
        rw [Session.scan_of_accepted hd hr hv]
        refine ⟨(first c r).1 :: qs, by rw [List.append_cons]; exact hq, hacc, fun hv => ?_⟩
        obtain ⟨ds, d, hds, hrep⟩ := href hv
        rw [hsplit] at hds
        rw [hsplit, List.append_assoc] at hrep
        exact ⟨_, d, by rw [List.append_cons, hds, List.append_assoc (diagnostics 1 ps)], hrep⟩
      | refused =>
        rw [Session.scan_of_refused hd hr hv]
        refine ⟨[(first c r).1], h', fun ha => ?_, fun _ => ?_⟩
        · rw [hv] at ha; cases ha
        · obtain ⟨d, hp, hrep⟩ := Session.read_refused hv
          rw [h.line_eq] at hp
          refine ⟨[], d, ?_, ?_⟩
          · rw [hsplit, hp, List.append_nil]; rfl
          · rw [List.append_nil, ← h.sink_eq]; exact hrep

/-! ## Runs of operations -/

theorem mark (h : HasRead source sink ps s) : HasRead source sink ps ⟨s.scanner.mark, s.sink⟩ :=
  ⟨h.source_eq, h.pieces_eq, h.current_eq, h.line_eq, h.tokens_eq, h.sink_eq, h.rest_of_done⟩

theorem exec (h : HasRead source sink ps s) {op : Op} (ho : op.reads = true) :
    ∃ qs, HasRead source sink (ps ++ qs) (s.exec op).1 := by
  have same : ∃ qs, HasRead source sink (ps ++ qs) s := ⟨[], by rwa [List.append_nil]⟩
  cases op with
  | scan =>
    obtain ⟨qs, hq, _⟩ := h.scan
    exact ⟨qs, by rw [Session.exec_scan]; exact hq⟩
  | step =>
    cases hr : s.scanner.rest with
    | nil => exact ⟨[], by rw [List.append_nil, Session.exec_step_nil hr]; exact h.mark⟩
    | cons c r => exact ⟨[(first c r).1], by rw [Session.exec_step_cons hr]; exact h.read hr⟩
  | peek | peekNext | atEnd => exact same
  | _ => cases ho

theorem run (h : HasRead source sink ps s) {ops : List Op} (ho : ∀ op ∈ ops, op.reads = true) :
    ∃ qs, HasRead source sink (ps ++ qs) (s.run ops) := by
  induction ops generalizing ps s with
  | nil => exact ⟨[], by rwa [List.append_nil]⟩
  | cons op ops ih =>
    obtain ⟨qs, hq⟩ := h.exec (ho op (List.mem_cons_self ..))
    obtain ⟨rs, hr⟩ := ih hq fun o h => ho o (List.mem_cons_of_mem _ h)
    exact ⟨qs ++ rs, by rw [← List.append_assoc]; exact hr⟩

theorem run_fresh (source : List Char) (sink : σ) {ops : List Op} (ho : ∀ op ∈ ops, op.reads = true) :
    ∃ ps, HasRead source sink ps ((Session.fresh source sink).run ops) :=
  (fresh source sink).run ho

/-- A session that is done has read all the pieces of its source. -/
theorem all_of_done (h : HasRead source sink ps s) (hd : s.scanner.done = true) : ps = pieces source := by
  rw [h.pieces_eq, h.rest_of_done hd, pieces_nil, List.append_nil]

end HasRead

/-! ## Scanning a text -/

/-- Only the sink stops a scan: if it accepts what the source causes, report after
    report, the scan reads the whole source. -/
theorem scan_of_all_accepted {σ : Type} [Sink σ] {sink : σ} {source : List Char}
    (ha : ∀ ds d es, diagnostics 1 (pieces source) = ds ++ d :: es →
      (Sink.report (Sink.after sink ds) d).2 = .accepted) :
    ((Session.fresh source sink).scan).2 = .accepted ∧ ((Session.fresh source sink).scan).1.scanner.done = true ∧
      HasRead source sink (pieces source) ((Session.fresh source sink).scan).1 := by
  obtain ⟨ps, h, hacc, href⟩ := (HasRead.fresh source sink).scan
  cases hv : ((Session.fresh source sink).scan).2 with
  | accepted =>
    have hd := hacc hv
    have hp := h.all_of_done hd
    exact ⟨rfl, hd, by rwa [hp] at h⟩
  | refused =>
    obtain ⟨ds, d, hds, hrep⟩ := href hv
    have hall : diagnostics 1 (pieces source) =
        ds ++ d :: collect diagnostic? (lineAfter 1 ps) (pieces (Session.fresh source sink).scan.1.scanner.rest) := by
      rw [h.pieces_eq, diagnostics, collect_append]
      rw [diagnostics] at hds
      rw [List.nil_append] at hds ⊢
      rw [hds, ← List.append_cons]; rfl
    have hacc := ha ds d _ hall
    rw [show Sink.after sink (diagnostics 1 [] ++ ds) = Sink.after sink ds from rfl, hacc] at hrep
    cases hrep

theorem scan_of_accepting {σ : Type} [Sink σ] {sink : σ} (ha : Sink.Accepting sink) (source : List Char) :
    ((Session.fresh source sink).scan).2 = .accepted ∧ ((Session.fresh source sink).scan).1.scanner.done = true ∧
      HasRead source sink (pieces source) ((Session.fresh source sink).scan).1 :=
  scan_of_all_accepted fun ds d _ _ => ha ds d

/-- A source that causes no diagnostic is read to the end, whatever the sink. -/
theorem scan_of_no_diagnostics {σ : Type} [Sink σ] (sink : σ) {source : List Char}
    (h : diagnostics 1 (pieces source) = []) :
    ((Session.fresh source sink).scan).2 = .accepted ∧ ((Session.fresh source sink).scan).1.scanner.done = true ∧
      HasRead source sink (pieces source) ((Session.fresh source sink).scan).1 := by
  refine scan_of_all_accepted fun ds d es hds => ?_
  rw [h] at hds
  simp at hds

theorem scan_eq (source : String) : LoxLexer.scan source =
    (((Session.fresh source.toList (Chain.collecting #[] .silent)).scan).1.scanner.tokens,
      ((Session.fresh source.toList (Chain.collecting #[] .silent)).scan).1.sink.kept) := rfl

/-- The tokens and diagnostics of a text are those of its pieces. -/
theorem toList_scan (source : String) :
    (scan source).1.toList = tokens 1 (pieces source.toList) ++ [endToken (lineAfter 1 (pieces source.toList))] ∧
      (scan source).2.toList = diagnostics 1 (pieces source.toList) := by
  obtain ⟨_, hd, h⟩ := scan_of_accepting (Chain.accepting_collecting Chain.accepting_silent #[]) source.toList
  have ht := h.tokens_eq
  rw [hd] at ht
  rw [scan_eq, h.sink_eq, Chain.after_collecting]
  exact ⟨ht, by simp [Chain.kept]⟩

end LoxLexer
