/-
  LoxLexer.Proofs.Listing — what lexing a file writes, by what a scan of its text gives.

  The scan reports to two sinks, one behind the other. The first keeps the diagnostics, and
  the exit code and the last line come from it; the second writes each of them as it
  arises. Both are given the same reports, so code, count and lines agree.

  The text of a diagnostic names a line and goes on with the message, and neither has a
  line feed in it: a line feed is a blank and never a stray character. So every diagnostic
  is one line of what is written, and all of them can be read from it.

  Proved:
  - `lexText_eq`: the outcome, by the tokens and diagnostics of a scan.
  - `eq_of_text_lines_eq`: the lines of diagnostics tell them.
  - `run_lexes`: what the command does when it is asked to lex a file, and what one more
    `--table` changes.
-/

import LoxLexer.Proofs.Chains
import LoxLexer.Proofs.Lines
import LoxLexer.Proofs.LogReading
import LoxLexer.Proofs.Switches

namespace LoxLexer

open Piece

/-! ## Diagnostics as lines -/

/-- A diagnostic as a scan makes it. -/
structure Reported (d : Diagnostic) : Prop where
  named : ∃ n : Int, 1 ≤ n ∧ d.line = some n ∧ d.text = "[Line " ++ toString n ++ "]: " ++ d.message
  newline : '\n' ∉ d.message.toList

theorem newline_not_mem_message {line : Int} {p : Piece} {d : Diagnostic} (hf : p.Formed)
    (h : p.diagnostic? line = some d) : '\n' ∉ d.message.toList := by
  cases p with
  | stray c =>
    cases h
    have hc : c ≠ '\n' := stray_ne_blank hf (by decide)
    simp [hc.symm]
  | openString body =>
    cases h
    show '\n' ∉ "Unterminated string literal".toList
    decide
  | _ => cases h

theorem reported_of_mem_scan {source : String} {d : Diagnostic} (h : d ∈ (scan source).2.toList) : Reported d := by
  rw [(toList_scan source).2] at h
  obtain ⟨p, hp, line, hd⟩ := mem_collect h
  exact ⟨text_of_line ((diagnostics_sorted 1 _).2 d h),
    newline_not_mem_message ((cut_pieces source.toList).formed p hp) hd⟩

namespace Reported

variable {d e : Diagnostic}

theorem text_eq (h : Reported d) : d.text = "[Line " ++ toString (d.line.getD 0) ++ "]: " ++ d.message := by
  obtain ⟨n, _, hline, htext⟩ := h.named
  rw [htext, hline]
  rfl

theorem text_toList (h : Reported d) : ∃ n : Int, d.line = some n ∧
    d.text.toList = "[Line ".toList ++ ((toString n).toList ++ ']' :: ':' :: ' ' :: d.message.toList) := by
  obtain ⟨n, _, hline, htext⟩ := h.named
  refine ⟨n, hline, ?_⟩
  rw [htext]
  simp

theorem newline_not_mem_text (h : Reported d) : '\n' ∉ d.text.toList := by
  obtain ⟨n, _, htext⟩ := h.text_toList
  have hn : '\n' ∉ (toString n).toList := not_mem_toString_int n (by decide) (by decide)
  rw [htext, List.mem_append, List.mem_append, not_or, not_or]
  exact ⟨by decide, hn, by simp [h.newline]⟩

theorem eq_of_text_eq (hd : Reported d) (he : Reported e) (h : d.text = e.text) : d = e := by
  obtain ⟨m, hdl, hdt⟩ := hd.text_toList
  obtain ⟨n, hel, het⟩ := he.text_toList
  have hbracket : ∀ n : Int, ']' ∉ (toString n).toList := fun n => not_mem_toString_int n (by decide) (by decide)
  rw [h, het] at hdt
  obtain ⟨hline, hrest⟩ := append_cons_inj (hbracket n) (hbracket m) (List.append_cancel_left hdt)
  have hmessage : e.message = d.message := String.toList_inj.mp (List.cons.inj (List.cons.inj hrest).2).2
  have hlines : d.line = e.line := by rw [hdl, hel, toString_int_injective (String.toList_inj.mp hline)]
  cases d
  cases e
  simp only [Diagnostic.mk.injEq]
  exact ⟨hmessage.symm, hlines⟩

end Reported

/-- The lines of diagnostics tell the diagnostics. -/
theorem eq_of_text_lines_eq {ds es : List Diagnostic} (hd : ∀ d ∈ ds, Reported d) (he : ∀ e ∈ es, Reported e)
    (h : Command.joinLines (ds.map Diagnostic.text) = Command.joinLines (es.map Diagnostic.text)) : ds = es := by
  refine eq_of_joinLines_eq ?_ hd he h
  intro d e hd he r r' hread
  obtain ⟨htext, hrest⟩ := append_cons_inj hd.newline_not_mem_text he.newline_not_mem_text hread
  exact ⟨hd.eq_of_text_eq he (String.toList_inj.mp htext), hrest⟩

theorem count_text_lines {ds : List Diagnostic} (hd : ∀ d ∈ ds, Reported d) :
    (Command.joinLines (ds.map Diagnostic.text)).toList.count '\n' = ds.length := by
  rw [toList_joinLines, List.flatMap_map]
  induction ds with
  | nil => rfl
  | cons d ds ih =>
    rw [List.forall_mem_cons] at hd
    have hline : d.text.toList.count '\n' = 0 := List.count_eq_zero.mpr hd.1.newline_not_mem_text
    rw [List.flatMap_cons, List.count_append, List.count_append, ih hd.2, hline, List.length_cons]
    simp
    omega

/-! ## The outcome -/

theorem joinLines_append (as bs : List String) :
    Command.joinLines (as ++ bs) = Command.joinLines as ++ Command.joinLines bs := by
  apply String.toList_inj.mp
  rw [String.toList_append, toList_joinLines, toList_joinLines, toList_joinLines, List.flatMap_append]

theorem joinLines_errorLines (path : Path) (n : Nat) : Command.joinLines (Command.errorLines path n) =
    if n = 0 then "" else "[lox-lex:error] " ++ toString n ++ " lexical error(s) in " ++ path.text ++ "\n" := by
  by_cases h : n = 0
  · rw [Command.errorLines, if_pos h, if_pos h]
    rfl
  · have hone : ∀ a b c d : String, Command.joinLines [a ++ (b ++ c ++ d)] = a ++ b ++ c ++ d ++ "\n" := by
      intro a b c d
      simp [Command.joinLines, String.append_assoc]
    rw [Command.errorLines, if_neg h, if_neg h]
    exact hone ..

/-- What lexing a text writes, by the tokens and diagnostics of a scan of it. -/
theorem lexText_eq (path : Path) (table : Bool) (source : String) :
    let ts := (scan source).1.toList
    let ds := (scan source).2.toList
    let listed := Command.joinLines <|
      if table then String.ofList (List.replicate 43 '=') :: Table.lines (ts.map Token.row) else ts.map Token.logLine
    let counted := if ds = [] then "" else
      "[lox-lex:error] " ++ toString ds.length ++ " lexical error(s) in " ++ path.text ++ "\n"
    Command.lexText path table source.toList =
      ⟨if ds = [] then 0 else 1, listed ++ counted, Command.joinLines (ds.map Diagnostic.text)⟩ := by
  intro ts ds listed counted
  obtain ⟨hts, hds⟩ := toList_scan source
  have haccepting := Chain.accepting_stack (e := .console .standardError) (by decide) 1
  obtain ⟨_, hdone, h⟩ := scan_of_accepting haccepting source.toList
  set s := (Session.fresh source.toList (Chain.stack (.console .standardError) 1)).scan.1
  have htokens : s.scanner.tokens.toList = ts := by
    rw [h.tokens_eq, hdone, if_pos rfl]
    exact hts.symm
  have hsink : s.sink = Chain.layers ds.toArray (Chain.End.after ds (.console .standardError)) 1 := by
    rw [h.sink_eq, ← hds, Chain.after_stack]
  have hexit : s.sink.hadError = true ↔ ds ≠ [] := by
    rw [hsink]
    simp [Chain.layers, Chain.hadError, ds]
  have hkept : s.sink.kept.size = ds.length := by
    rw [hsink]
    simp [Chain.layers, Chain.kept, ds]
  have herrors : s.sink.standardError = Command.joinLines (ds.map Diagnostic.text) := by
    rw [hsink, Chain.standardError_layers, Command.joinLines, List.map_map]
    rfl
  have houtput : Command.joinLines (Command.tokenLines table ts ++ Command.errorLines path ds.length) =
      listed ++ counted := by
    rw [joinLines_append, joinLines_errorLines]
    show listed ++ _ = listed ++ if ds = [] then _ else _
    simp only [List.length_eq_zero_iff]
  show (⟨if s.sink.hadError then 1 else 0,
    Command.joinLines (Command.tokenLines table s.scanner.tokens.toList ++ Command.errorLines path s.sink.kept.size),
    s.sink.standardError⟩ : Outcome) = _
  rw [htokens, hkept, herrors, houtput]
  by_cases hnone : ds = []
  · rw [if_pos hnone, if_neg fun hm => hexit.mp hm hnone]
  · rw [if_neg hnone, if_pos (hexit.mpr hnone)]

/-! ## The command -/

theorem run_of_bytes {read : Path → Except OpenError (List UInt8)} {arguments : List String} {path : Path}
    {table : Bool} {bytes : List UInt8} (hrequest : Request.ofArguments arguments = .ok (.lex path table))
    (hread : read path = .ok bytes) : Command.run read arguments = Command.lexBytes path table bytes := by
  rw [Command.run, hrequest]
  show Command.lex path table (read path) = _
  rw [hread, Command.lex]

/-- What the command does when it is asked to lex a file that is there and decodes to a
    text. It ends with an outcome: the code is 1 if there are diagnostics and 0 if not; on
    the standard error stream is each diagnostic on one line, behind the line it names,
    and all of them can be read from it; the output is the tokens, one by one or as a
    table, and then, if there are diagnostics, how many. The tokens are a table if one of
    the names of the switch stands in front of the mark. With one more switch anywhere in
    front of the mark they are a table and all else is the same; only between the path and
    the mark right behind it the switch is in the way, and the mark is refused. -/
theorem run_lexes (read : Path → Except OpenError (List UInt8)) {arguments : List String} {path : Path} {table : Bool}
    {bytes : List UInt8} {text : List Char} (hrequest : Request.ofArguments arguments = .ok (.lex path table))
    (hread : read path = .ok bytes) (htext : Utf8.decode bytes = .ok text) :
    let source := String.ofList (unifyLineEnds text)
    let ts := (scan source).1.toList
    let ds := (scan source).2.toList
    let listed := fun table : Bool => Command.joinLines <|
      if table then String.ofList (List.replicate 43 '=') :: Table.lines (ts.map Token.row) else ts.map Token.logLine
    let counted := if ds = [] then "" else
      "[lox-lex:error] " ++ toString ds.length ++ " lexical error(s) in " ++ path.text ++ "\n"
    let errors := Command.joinLines (ds.map Diagnostic.text)
    let outcome := fun table : Bool => (⟨if ds = [] then 0 else 1, listed table ++ counted, errors⟩ : Outcome)
    Command.run read arguments = .ok (outcome table) ∧
      (∀ d ∈ ds, ∃ n : Int, 1 ≤ n ∧ d.line = some n ∧ d.text = "[Line " ++ toString n ++ "]: " ++ d.message) ∧
      errors.toList.count '\n' = ds.length ∧
      (∀ other : String, Command.joinLines ((scan other).2.toList.map Diagnostic.text) = errors →
        (scan other).2.toList = ds) ∧
      (table = true ↔ ∃ name ∈ arguments.takeWhile (· != "--"), name ∈ Argument.tableNames) ∧
      ∀ before behind, arguments = before ++ behind → "--" ∉ before →
        (¬ Request.Meets before behind → Command.run read (before ++ "--table" :: behind) = .ok (outcome true)) ∧
        (Request.Meets before behind → behind = ["--"] ∧
          Command.run read (before ++ "--table" :: behind) = .ok (Command.usageOutcome (.unrecognized ["--"]))) := by
  intro source ts ds listed counted errors outcome
  have hreported : ∀ d ∈ ds, Reported d := fun d hd => reported_of_mem_scan hd
  have hrun : ∀ arguments table, Request.ofArguments arguments = .ok (.lex path table) →
      Command.run read arguments = .ok (outcome table) := by
    intro arguments table h
    have hsource : unifyLineEnds text = source.toList := String.toList_ofList.symm
    rw [run_of_bytes h hread, Command.lexBytes, htext]
    show Except.ok (Command.lexText path table (unifyLineEnds text)) = _
    rw [hsource, lexText_eq]
  refine ⟨hrun _ _ hrequest, fun d hd => (hreported d hd).named, count_text_lines hreported, ?_,
    Request.table_iff hrequest, ?_⟩
  · intro other hother
    exact eq_of_text_lines_eq (fun d hd => reported_of_mem_scan hd) hreported hother
  · intro before behind harguments hmark
    rw [harguments] at hrequest
    constructor
    · intro hplace
      apply hrun
      rw [Request.ofArguments_insert hmark hplace, hrequest]
      rfl
    · intro hplace
      obtain ⟨hbehind, hrefused⟩ := Request.ofArguments_insert_behind_path hmark hplace hrequest
      refine ⟨hbehind, ?_⟩
      rw [Command.run, hrefused]

/-- A stray character and a semicolon, listed without and with the switch. -/
theorem run_lexes_stray :
    let read : Path → Except OpenError (List UInt8) := fun _ => .ok [0x40, 0x0D, 0x0A, 0x3B]
    Request.ofArguments ["x", "--"] = .ok (.lex (.ofText "x") false) ∧
      Utf8.decode [0x40, 0x0D, 0x0A, 0x3B] = .ok ['@', '\r', '\n', ';'] ∧
      (∃ stdout, Command.run read ["x", "--"] =
        .ok ⟨1, stdout ++ "[lox-lex:error] 1 lexical error(s) in x\n", "[Line 1]: Unrecognized character \"@\"\n"⟩) ∧
      (∃ stdout, Command.run read ["--table", "x", "--"] =
        .ok ⟨1, stdout ++ "[lox-lex:error] 1 lexical error(s) in x\n", "[Line 1]: Unrecognized character \"@\"\n"⟩) ∧
      Command.run read ["x", "--table", "--"] = .ok (Command.usageOutcome (.unrecognized ["--"])) := by
  intro read
  have hrequest : Request.ofArguments ["x", "--"] = .ok (.lex (.ofText "x") false) := by decide +kernel
  have htext : Utf8.decode [0x40, 0x0D, 0x0A, 0x3B] = .ok ['@', '\r', '\n', ';'] := by decide +kernel
  have hds : (scan (String.ofList (unifyLineEnds ['@', '\r', '\n', ';']))).2.toList =
      [⟨"Unrecognized character \"@\"", some 1⟩] := by decide +kernel
  obtain ⟨hrun, _, _, _, _, hinsert⟩ := run_lexes read hrequest rfl htext
  rw [hds] at hrun hinsert
  refine ⟨hrequest, htext, ⟨_, hrun⟩, ⟨_, (hinsert [] ["x", "--"] rfl (by decide)).1 ?_⟩,
    ((hinsert ["x"] ["--"] rfl (by decide)).2 ?_).2⟩
  · intro h
    exact absurd h.2 (by decide)
  · exact ⟨⟨"x", rfl, by decide⟩, rfl⟩

/-- One more switch between the path and the mark is not one that changes nothing. -/
theorem table_behind_path_refused :
    let read : Path → Except OpenError (List UInt8) := fun _ => .ok []
    Request.ofArguments (["x"] ++ ["--"]) = .ok (.lex (.ofText "x") false) ∧ "--" ∉ ["x"] ∧
      Command.run read (["x"] ++ ["--"]) = .ok ⟨0, "Token [EOF]\t\t\"\" on line 1.\n", ""⟩ ∧
      Command.run read (["x"] ++ "--table" :: ["--"]) = .ok ⟨2, "",
        "usage: lox-lex [-h] [--table] path\nlox-lex: error: unrecognized arguments: --\n"⟩ := by
  decide +kernel

end LoxLexer
