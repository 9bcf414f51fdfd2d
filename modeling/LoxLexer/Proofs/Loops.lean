/-
  LoxLexer.Proofs.Loops — operations that read on, and the loops they stand for.

  `Scanner.string`, `Scanner.identifier`, `Scanner.read` and `Session.scan` take at once
  what the loops take one character after the other. They may be begun in any state, with
  the mark behind the position, the position past the end, and the line anywhere, and in
  every one of them they come to what the loops come to. So what holds of the operations
  is true of the loops.

  The loops pass a line feed in two places, between pieces and within a string, and both
  count it; the others stop in front of one. So the line goes up with every turn by the
  line feeds that are passed, and by nothing else (`ReadsOn`).

  Proved:
  - `string_ends`, `identifier_ends`, `read_ends`, `Session.scan_ends`: each operation, and
    where its loops end.
  - `readsOn_turn`, `Leads.readsOn`, `Walk.readsOn`: what a turn passes is counted, and so
    is what any number of turns pass.
  - `walk_lines`: the line of every state that the loops of a scan come to.
-/

import LoxLexer.Proofs.Lines
import LoxLexer.Proofs.Progress

namespace LoxLexer

open Piece

namespace Scanner

variable {s t u : Scanner} {l l' k : Loop} {m n : Nat}

/-! ## Turns within a piece -/

theorem Leads.one (h : s.turn l = .ok (t, .goOn k)) (hk : k ≠ .pieces) : Leads l s (s.passes l) k t := by
  have hlead := Leads.start.turn h hk
  rwa [Nat.zero_add] at hlead

theorem Leads.trans (h : Leads l s n l' t) (h' : Leads l' t m k u) : Leads l s (n + m) k u := by
  induction h' with
  | start => exact h
  | turn _ hturn hk ih =>
    rw [← Nat.add_assoc]
    exact ih.turn hturn hk

/-- A loop that is within a piece takes character after character. -/
theorem leads_takes {w r : List Char} (hl : l ≠ .pieces) (h : s.rest = w ++ r) (hw : ∀ c ∈ w, l.takes c = true) :
    Leads l s w.length l (s.past w) := by
  induction w generalizing s with
  | nil =>
    rw [past_nil]
    exact .start
  | cons c w ih =>
    rw [List.forall_mem_cons] at hw
    obtain ⟨hturn, hpasses⟩ := turn_takes h hw.1
    have hone := Leads.one (hturn.trans (pass_takes hl h hw.1)) hl
    rw [hpasses] at hone
    rw [List.length_cons, Nat.add_comm, show c :: w = [c] ++ w from rfl, past_append]
    exact hone.trans (ih (rest_past h) hw.2)

/-! ## Strings and words -/

/-- Reading a string to its end comes to what the loop comes to. -/
theorem string_ends (s : Scanner) :
    ∃ n t, Leads .string s n .string t ∧ t.turn .string = .ok (ofRead s.string) := by
  have hsplit := (List.takeWhile_append_dropWhile (p := (· != '\"')) (l := s.rest)).symm
  have hlead := leads_takes (l := .string) (by decide) hsplit fun c hc => of_mem_takeWhile hc
  refine ⟨_, _, hlead, ?_⟩
  have hclear : Clear Loop.string.takes (s.past (s.rest.takeWhile (· != '\"'))).rest := by
    rw [rest_past hsplit]
    exact clear_dropWhile _ s.rest
  have hstring : ofRead s.string = ofRead (let t := s.past (s.rest.takeWhile (· != '\"'))
    if t.atEnd then (t, some ⟨"Unterminated string literal", some t.line⟩)
    else
      let t := t.seek (t.current + 1)
      (t.add .string (some (.text (String.ofList (t.slice (t.start + 1) (t.current - 1))))), none)) := rfl
  rw [(turn_clear hclear).1, hstring]
  generalize s.past (s.rest.takeWhile (· != '\"')) = t
  dsimp only
  cases hend : t.atEnd with
  | true =>
    rw [leave, hend]
    rfl
  | false =>
    have hne : t.rest ≠ [] := by
      rw [atEnd_eq] at hend
      exact List.isEmpty_eq_false_iff.mp hend
    obtain ⟨c, r, hr⟩ := List.exists_cons_of_ne_nil hne
    rw [leave, hend, next_cons hr]
    rfl

/-- Reading a word to its end comes to what the loop comes to. -/
theorem identifier_ends (s : Scanner) :
    ∃ n t, Leads .word s n .word t ∧ t.turn .word = .ok (s.identifier, .goOn .pieces) := by
  have hsplit := (List.takeWhile_append_dropWhile (p := isWordChar) (l := s.rest)).symm
  have hlead := leads_takes (l := .word) (by decide) hsplit fun c hc => of_mem_takeWhile hc
  refine ⟨_, _, hlead, ?_⟩
  have hclear : Clear Loop.word.takes (s.past (s.rest.takeWhile isWordChar)).rest := by
    rw [rest_past hsplit]
    exact clear_dropWhile _ s.rest
  have hnewlines : (s.rest.takeWhile isWordChar).count '\n' = 0 :=
    List.count_eq_zero.mpr fun hn => absurd (of_mem_takeWhile hn) (by decide)
  have hpast : s.past (s.rest.takeWhile isWordChar) =
      { s with current := s.current + (s.rest.takeWhile isWordChar).length } := by
    rw [past, hnewlines]
    simp
  rw [(turn_clear hclear).1, leave, hpast]
  rfl

/-! ## Pieces -/

variable {p : Piece} {r w run tail : List Char}

/-- From within a piece the loop comes to its end, which completes the piece, but for the
    fraction of a number. -/
theorem leads_run (h : s.rest = p.text ++ r) (hf : p.Formed) (he : p.Ends r) (hl : Loop.Within l p w run tail) :
    ∃ n t, Leads l (s.behind w) n l t ∧ (t.turn l = .ok (ofRead (s.read p)) ∨
      ∃ d f, l = .digits ∧ t.turn l = .ok (s.behind (w ++ run ++ ['.']), .goOn .fraction) ∧
        Loop.Within .fraction p (w ++ run ++ ['.']) (d :: f) []) := by
  have hrest : (s.behind w).rest = run ++ (tail ++ r) := rest_behind (by rw [h, hl.text_eq]; simp)
  have hlead := leads_takes hl.ne_pieces hrest hl.takes_run
  rw [← behind_append] at hlead
  rw [← List.append_nil run] at hl
  have hend := (turn_end h hf he hl.take).1
  refine ⟨_, _, hlead, ?_⟩
  rw [hend]
  exact leave_end h hf he hl.take

/-- Reading a piece comes to what the loops come to. -/
theorem read_ends {c : Char} (h : s.rest = c :: r) :
    ∃ n l t, Leads .pieces s n l t ∧ t.turn l = .ok (ofRead (s.read (first c r).1)) := by
  obtain ⟨hf, he⟩ := first_cut c r
  have hrest : s.rest = (first c r).1.text ++ (first c r).2 := h.trans (text_append_first c r).symm
  have hturn := (turn_pieces hrest hf).1
  rcases pass_pieces hrest hf he with hpass | ⟨l, w, run, tail, hpass, _, hl⟩
  · exact ⟨_, _, _, .start, hturn.trans hpass⟩
  · have hone := Leads.one (hturn.trans hpass) hl.ne_pieces
    obtain ⟨n, t, hlead, hend | ⟨d, f, rfl, hpoint, hfraction⟩⟩ := leads_run hrest hf he hl
    · exact ⟨_, _, _, hone.trans hlead, hend⟩
    · -- the digits behind the point have a loop of their own, and behind it none follows
      obtain ⟨m, u, hlead', hend | ⟨_, _, hdigits, _⟩⟩ := leads_run hrest hf he hfraction
      · exact ⟨_, _, _, ((hone.trans hlead).turn hpoint (by decide)).trans hlead', hend⟩
      · cases hdigits

/-! ## Line feeds -/

/-- `t` has read on from `s`, and its line has gone up by the line feeds that it passed. -/
structure ReadsOn (s t : Scanner) : Prop where
  source_eq : t.source = s.source
  passed : ∃ w, s.rest = w ++ t.rest ∧ t.current = s.current + w.length ∧ t.line = s.line + (w.count '\n' : Nat)

namespace ReadsOn

theorem refl (s : Scanner) : s.ReadsOn s := ⟨rfl, [], by simp⟩

theorem of_past {w r : List Char} (h : s.rest = w ++ r) : s.ReadsOn (s.past w) :=
  ⟨rfl, w, by rw [rest_past h, h], rfl, rfl⟩

theorem trans (h : s.ReadsOn t) (h' : t.ReadsOn u) : s.ReadsOn u := by
  obtain ⟨v, hv, hcurrent, hline⟩ := h.passed
  obtain ⟨w, hw, hcurrent', hline'⟩ := h'.passed
  refine ⟨h'.source_eq.trans h.source_eq, v ++ w, by rw [hv, hw, List.append_assoc], ?_, ?_⟩
  · rw [hcurrent', hcurrent, List.length_append, Nat.add_assoc]
  · rw [hline', hline, List.count_append]
    omega

/-- Adding tokens is no reading. -/
theorem add (h : s.ReadsOn t) (kind : Kind) (literal : Option Literal) : s.ReadsOn (t.add kind literal) :=
  ⟨h.source_eq, h.passed⟩

theorem line_eq_lineAt {source : List Char} (h : s.ReadsOn t) (hs : s.source = source)
    (hline : s.line = lineAt source s.current) : t.line = lineAt source t.current := by
  subst hs
  obtain ⟨w, hw, hcurrent, hcount⟩ := h.passed
  rw [hcount, hcurrent, lineAt_add hw, hline]

end ReadsOn

variable {next : Turn}

theorem readsOn_ofRead (h : s.rest = p.text ++ r) (hread : ofRead (s.read p) = (t, next)) : s.ReadsOn t := by
  have ht : (s.read p).1 = t := by
    rw [← show (ofRead (s.read p)).1 = t by rw [hread]]
    cases s.read p with
    | mk v d => cases d <;> rfl
  obtain ⟨hsource, hpassed⟩ := ReadsOn.of_past h
  rw [← ht, read_eq]
  exact ⟨hsource, hpassed⟩

theorem readsOn_addNumber (h : (do return (← s.addNumber, Turn.goOn .pieces)) = Except.ok (t, next)) :
    s.ReadsOn t := by
  cases hadd : Binary64.ofNumeral? (s.slice s.start s.current) with
  | none =>
    rw [addNumber, hadd] at h
    cases h
  | some x =>
    rw [addNumber, hadd] at h
    cases h
    exact (ReadsOn.refl s).add _ _

/-- A pass counts the line feed that it passes, if it passes one. -/
theorem readsOn_pass {c : Char} (h : s.rest = c :: r) (hc : l.takes c = true) (hpass : s.pass l = .ok (t, next)) :
    s.ReadsOn t := by
  by_cases hl : l = .pieces
  · obtain ⟨hf, he⟩ := first_cut c r
    have hrest : s.rest = (first c r).1.text ++ (first c r).2 := h.trans (text_append_first c r).symm
    rw [hl] at hpass
    rcases pass_pieces hrest hf he with hread | ⟨_, w, run, tail, hread, _, hwithin⟩
    · rw [hread] at hpass
      exact readsOn_ofRead hrest (Except.ok.inj hpass)
    · rw [hread] at hpass
      cases hpass
      rw [hwithin.text_eq, List.append_assoc] at hrest
      obtain ⟨hsource, hpassed⟩ := ReadsOn.of_past hrest
      exact ⟨hsource, hpassed⟩
  · rw [pass_takes hl h hc] at hpass
    cases hpass
    exact .of_past (w := [c]) h

/-- What is done behind a loop passes no line feed. -/
theorem readsOn_leave (h : Clear l.takes s.rest) (hleave : s.leave l = .ok (t, next)) : s.ReadsOn t := by
  cases l with
  | pieces =>
    cases hleave
    exact ⟨rfl, (ReadsOn.refl s).passed⟩
  | comment =>
    cases hleave
    exact .refl s
  | string =>
    rw [leave, atEnd_eq] at hleave
    cases hr : s.rest with
    | nil =>
      rw [hr] at hleave
      cases hleave
      exact .refl s
    | cons c r =>
      have hc : c = '\"' := by
        rw [hr, clear_cons_iff] at h
        simpa [Loop.takes] using h
      rw [hr, next_of_ne hr (by rw [hc]; decide)] at hleave
      cases hleave
      exact (ReadsOn.of_past (w := [c]) hr).add _ _
  | digits =>
    by_cases hpoint : ∃ d t, s.rest = '.' :: d :: t ∧ d.isDigit = true
    · obtain ⟨d, r, hr, hd⟩ := hpoint
      rw [leave_digits_of_point hr hd, ← past_of_ne (c := '.') (by decide)] at hleave
      cases hleave
      exact .of_past (w := ['.']) hr
    · rw [leave_digits_of_no_point fun d t hr => by simpa using fun hd => hpoint ⟨d, t, hr, hd⟩] at hleave
      exact readsOn_addNumber hleave
  | fraction => exact readsOn_addNumber hleave
  | word =>
    cases hleave
    exact (ReadsOn.refl s).add _ _

/-- Whatever a turn passes, the line goes up by the line feeds in it. -/
theorem readsOn_turn (hturn : s.turn l = .ok (t, next)) : s.ReadsOn t := by
  by_cases h : Clear l.takes s.rest
  · rw [(turn_clear h).1] at hturn
    exact readsOn_leave h hturn
  · cases hr : s.rest with
    | nil =>
      rw [hr] at h
      exact absurd (fun c hc => by cases hc) h
    | cons c r =>
      rw [hr, clear_cons_iff, Bool.not_eq_false] at h
      rw [(turn_takes hr h).1] at hturn
      exact readsOn_pass hr h hturn

theorem Leads.readsOn (h : Leads l s n l' t) : s.ReadsOn t := by
  induction h with
  | start => exact .refl s
  | turn _ hturn _ ih => exact ih.trans (readsOn_turn hturn)

end Scanner

/-! ## Walks -/

section Walk

variable {σ : Type} [Sink σ] {s t u : Session σ} {l k : Loop} {m n : Nat}

theorem Walk.leads {v : Scanner} (h : Walk s n l t) (hlead : Scanner.Leads l t.scanner m k v) :
    Walk s (n + m) k ⟨v, t.sink⟩ := by
  induction hlead with
  | start => exact h
  | turn _ hturn _ ih =>
    rw [← Nat.add_assoc]
    exact ih.turn hturn (.goOn _)

theorem Walk.trans (h : Walk s n .pieces t) (h' : Walk t m k u) : Walk s (n + m) k u := by
  induction h' with
  | start _ => exact h
  | turn _ hturn hfollows ih =>
    rw [← Nat.add_assoc]
    exact ih.turn hturn hfollows

theorem Walk.readsOn (h : Walk s n l t) : s.scanner.ReadsOn t.scanner := by
  induction h with
  | start _ => exact .refl _
  | turn _ hturn _ ih => exact ih.trans (Scanner.readsOn_turn hturn)

/-- A scan comes to what the loops come to, from whatever state. -/
theorem Session.scan_ends (hd : s.scanner.done = false) :
    ∃ n l t v next, Walk s n l t ∧ t.scanner.turn l = .ok (v, next) ∧ Concludes s t.sink v next := by
  cases hr : s.scanner.rest with
  | nil => exact ⟨0, _, s, _, _, .start hd, (Scanner.turn_finish hr).1, .finished (scan_of_rest_nil hd hr)⟩
  | cons c r =>
    obtain ⟨n, l, q, hlead, hturn⟩ := Scanner.read_ends hr
    have hwalk := (Walk.start hd).leads hlead
    have hacc := scan_of_accepted hd hr
    have href := scan_of_refused hd hr
    obtain ⟨v, next, hread, hv, hcases⟩ := s.read_cases (first c r).1
    rw [hread] at hturn
    rcases hcases with ⟨sink, hfollows, hdeliver⟩ | ⟨d, rfl, hrefused, hdeliver⟩
    · -- behind a piece the marks are in bounds, wherever they were
      have hb := inBounds_read rfl hr
      have hdone := done_read s (first c r).1
      rw [hdeliver] at hacc hb hdone
      rw [← hb.source_eq] at hb
      obtain ⟨m, l', t, w, next', hwalk', hturn', hend⟩ := (Walk.start (hdone.trans hd)).concludes hb
      exact ⟨_, _, _, _, _, (hwalk.turn hturn hfollows).trans hwalk', hturn', hend.of_scan_eq (hacc rfl)⟩
    · rw [hdeliver] at href
      exact ⟨_, _, _, _, _, hwalk, hturn, .refused hrefused (href rfl)⟩

end Walk

/-- However far a source has been read by scans, steps and looks: wherever the loops of a
    scan from there come to, and behind each of their turns, the line is that of the place. -/
theorem walk_lines {σ : Type} [Sink σ] (sink : σ) (source : String) (ops : List Op)
    (ho : ∀ op ∈ ops, op.reads = true) {n : Nat} {l : Loop} {t : Session σ}
    (h : Walk ((Session.fresh source.toList sink).run ops) n l t) :
    t.scanner.line = lineAt source.toList t.scanner.current ∧
      ∀ v next, t.scanner.turn l = .ok (v, next) → v.line = lineAt source.toList v.current := by
  obtain ⟨ps, hread⟩ := HasRead.run_fresh source.toList sink ho
  have hline := h.readsOn.line_eq_lineAt hread.source_eq hread.line_eq_lineAt
  refine ⟨hline, fun v next hturn => ?_⟩
  exact (Scanner.readsOn_turn hturn).line_eq_lineAt (h.readsOn.source_eq.trans hread.source_eq) hline

end LoxLexer
