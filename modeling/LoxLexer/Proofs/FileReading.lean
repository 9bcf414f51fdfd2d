/-
  LoxLexer.Proofs.FileReading — from the bytes of a file to what is written of it.

  There are two kinds of files. Bytes that encode a text encode no other, and what is
  written is a line for every token and every diagnostic that a scan of the text gives, with
  its line ends made one; a byte order mark is in the text. Bytes that encode none end the
  command, and all that is left is where they fail and why: an abort has no output.

  Proved:
  - `run_reads`: both, for every file.
-/

import LoxLexer.Proofs.Encoding
import LoxLexer.Proofs.LineEnds
import LoxLexer.Proofs.Listing

namespace LoxLexer

/-- What the command makes of the bytes of a file. If they encode a text, it is the only
    one; each carriage return and line feed that stand together, and each other carriage
    return, become a line feed, and that is scanned. The output is a line for each token,
    or a line of 43 equals signs and the table of the tokens, and then, if there are
    diagnostics, one line with their number; on the standard error stream is a line for each
    diagnostic; and nothing else is written. If they encode none, the command ends with
    nothing but a fault, which says how far the bytes are good, and why no further. -/
theorem run_reads (read : Path → Except OpenError (List UInt8)) {arguments : List String} {path : Path} {table : Bool}
    {bytes : List UInt8} (hrequest : Request.ofArguments arguments = .ok (.lex path table))
    (hread : read path = .ok bytes) :
    (∃ t, Utf8.encode t = bytes ∧ (∀ u, Utf8.encode u = bytes → u = t) ∧
      let source := (joinLineEnds t).map fun c => if c = '\r' then '\n' else c
      let ts := (scan (String.ofList source)).1.toList
      let ds := (scan (String.ofList source)).2.toList
      let joined := fun lines : List String => String.join (lines.map (· ++ "\n"))
      let listed := joined <|
        if table then String.ofList (List.replicate 43 '=') :: Table.lines (ts.map Token.row) else ts.map Token.logLine
      let counted := if ds = [] then "" else
        "[lox-lex:error] " ++ toString ds.length ++ " lexical error(s) in " ++ path.text ++ "\n"
      let errors := joined <| ds.map fun d => "[Line " ++ toString (d.line.getD 0) ++ "]: " ++ d.message
      '\r' ∉ source ∧
        Command.run read arguments = .ok ⟨if ds = [] then 0 else 1, listed ++ counted, errors⟩) ∨
    ((∀ t, Utf8.encode t ≠ bytes) ∧
      ∃ f, Command.run read arguments = .error (.decoding f) ∧ Utf8.FaultOf bytes f) := by
  rw [run_of_bytes hrequest hread, Command.lexBytes]
  by_cases h : ∃ t, Utf8.encode t = bytes
  · obtain ⟨t, rfl⟩ := h
    refine Or.inl ⟨t, rfl, fun u hu => Utf8.encode_injective hu, ?_⟩
    rw [← unifyLineEnds_eq]
    intro source ts ds joined listed counted errors
    have herrors : Command.joinLines (ds.map Diagnostic.text) = errors :=
      congrArg joined (List.map_congr_left fun d hd => (reported_of_mem_scan hd).text_eq)
    have hlex := lexText_eq path table (String.ofList source)
    rw [String.toList_ofList] at hlex
    refine ⟨not_mem_unifyLineEnds t, ?_⟩
    rw [Utf8.decode_encode, ← herrors]
    exact congrArg Except.ok hlex
  · have hnone : ∀ t, Utf8.encode t ≠ bytes := fun t ht => h ⟨t, ht⟩
    obtain ⟨f, hdecode, hfault⟩ := Utf8.faultOf_decode hnone
    refine Or.inr ⟨hnone, f, ?_, hfault⟩
    rw [hdecode]

/-- A byte order mark, a carriage return and a semicolon, listed without and with the
    switch; and a semicolon, and a character that is cut off. -/
theorem run_reads_mark_and_cut :
    let marked : List UInt8 := [0xEF, 0xBB, 0xBF, 0x0D, 0x3B]
    let cut : List UInt8 := [0x3B, 0xE2, 0x82]
    let counted := "[lox-lex:error] 1 lexical error(s) in x\n"
    let errors := "[Line 1]: Unrecognized character \"" ++ String.singleton (Char.ofNat 0xFEFF) ++ "\"\n"
    Request.ofArguments ["x"] = .ok (.lex (.ofText "x") false) ∧
      Request.ofArguments ["--table", "x"] = .ok (.lex (.ofText "x") true) ∧
      Utf8.encode [Char.ofNat 0xFEFF, '\r', ';'] = marked ∧
      Command.run (fun _ => .ok marked) ["x"] =
        .ok ⟨1, "Token [SEMICOLON]\t\t\";\" on line 2.\nToken [EOF]\t\t\"\" on line 2.\n" ++ counted, errors⟩ ∧
      Command.run (fun _ => .ok marked) ["--table", "x"] =
        .ok ⟨1, "===========================================\ntype      | value\n----------+------\n" ++
          "SEMICOLON | ;\nEOF       | \n" ++ counted, errors⟩ ∧
      (∀ t, Utf8.encode t ≠ cut) ∧ Command.run (fun _ => .ok cut) ["x"] = .error (.decoding ⟨1, 0xE2, 1, .endOfData⟩) ∧
      Utf8.FaultOf cut ⟨1, 0xE2, 1, .endOfData⟩ := by
  intro marked cut counted errors
  have hrequest : Request.ofArguments ["x"] = .ok (.lex (.ofText "x") false) := by decide +kernel
  have htable : Request.ofArguments ["--table", "x"] = .ok (.lex (.ofText "x") true) := by decide +kernel
  have hmarked : Utf8.encode [Char.ofNat 0xFEFF, '\r', ';'] = marked := by decide +kernel
  have hcut : Command.run (fun _ => .ok cut) ["x"] = .error (.decoding ⟨1, 0xE2, 1, .endOfData⟩) := by decide +kernel
  refine ⟨hrequest, htable, hmarked, ?_, ?_, ?_⟩
  · rcases run_reads (fun _ => .ok marked) hrequest rfl with ⟨t, _, hunique, _, hrun⟩ | ⟨hnone, _⟩
    · rw [← hunique _ hmarked] at hrun
      exact hrun.trans (by decide +kernel)
    · exact absurd hmarked (hnone _)
  · rcases run_reads (fun _ => .ok marked) htable rfl with ⟨t, _, hunique, _, hrun⟩ | ⟨hnone, _⟩
    · rw [← hunique _ hmarked] at hrun
      exact hrun.trans (by decide +kernel)
    · exact absurd hmarked (hnone _)
  · rcases run_reads (fun _ => .ok cut) hrequest rfl with ⟨t, _, _, _, hrun⟩ | ⟨hnone, f, hrun, hfault⟩
    · rw [hcut] at hrun
      cases hrun
    · rw [hcut] at hrun
      cases hrun
      exact ⟨hnone, hcut, hfault⟩

end LoxLexer
