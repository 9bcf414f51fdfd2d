/-
  LoxLexer.Proofs.Progress — a scan never fails, and always gets on.

  The invariant of a walk (`Reached`) says which piece the scanner is in and which loop
  goes through it, and that what is left of the scan is the scan from the front of that
  piece. It needs nothing of the text: whatever stands in front of the scanner, a null
  character too, is the beginning of some piece, and the loops ask for no more than the
  piece has.

  Proved:
  - `Session.inBounds_run`: scans, steps and looks keep the marks in order and inside the
    source.
  - `Session.read_cases`: when a piece has been read the scan goes on, or the sink has
    refused what the piece causes.
  - `Reached.turn`: the next turn does not fail; it reads one character with a pass and
    takes the walk to where a walk can be, or ends the scan as `Session.scan` ends it.
  - `Walk.reached`: every walk is where a walk can be.
  - `Reached.concludes`: every walk can be followed to the end of the scan.
  - `scan_never_faults`: what this comes to for a source and a sink.
-/

import LoxLexer.Proofs.Passes

namespace LoxLexer

open Piece

/-! ## Bounds -/

/-- The scanner is in this source, with its marks in order. -/
structure Scanner.InBounds (source : List Char) (s : Scanner) : Prop where
  source_eq : s.source = source
  start_le : s.start ≤ s.current
  current_le : s.current ≤ source.length

namespace Scanner

variable {s : Scanner}

theorem length_rest {w r : List Char} (h : s.rest = w ++ r) (hw : w ≠ []) :
    s.current + w.length + r.length = s.source.length := by
  have hlen := congrArg List.length h
  have hpos := List.length_pos_iff.mpr hw
  rw [rest, List.length_drop, List.length_append] at hlen
  omega

theorem inBounds_behind {w r : List Char} (h : s.rest = w ++ r) (hw : w ≠ []) :
    InBounds s.source (s.behind w) := by
  have hlen := length_rest h hw
  exact ⟨rfl, Nat.le_add_right .., show s.current + w.length ≤ s.source.length by omega⟩

/-- Wherever the marks were, they are in bounds when a piece has been read. -/
theorem inBounds_read {p : Piece} {r : List Char} (h : s.rest = p.text ++ r) (hf : p.Formed) :
    InBounds s.source (s.read p).1 := by
  obtain ⟨h1, h2, h3⟩ := inBounds_behind h (text_ne_nil hf)
  rw [read_eq]
  exact ⟨h1, h2, h3⟩

end Scanner

section Progress

variable {σ : Type} [Sink σ]

namespace Session

variable {source : List Char} {s : Session σ}

theorem inBounds_read (hs : s.scanner.source = source) {c : Char} {r : List Char} (h : s.scanner.rest = c :: r) :
    Scanner.InBounds source (s.read (first c r).1).1.scanner := by
  rw [read_eq, ← hs]
  exact Scanner.inBounds_read (h.trans (text_append_first c r).symm) (first_cut c r).1

theorem inBounds_scan (h : Scanner.InBounds source s.scanner) : Scanner.InBounds source s.scan.1.scanner := by
  cases hd : s.scanner.done with
  | true => rwa [scan_of_done hd]
  | false =>
  -- by induction on what is left, along the loop of the scan
  induction hn : s.scanner.rest.length using Nat.strongRecOn generalizing s with
  | ind n ih =>
    cases hr : s.scanner.rest with
    | nil =>
      rw [scan_of_rest_nil hd hr]
      exact ⟨h.source_eq, h.start_le, h.current_le⟩
    | cons c r =>
      have hb := inBounds_read h.source_eq hr
      cases hv : (s.read (first c r).1).2 with
      | accepted =>
        have hlt : (s.read (first c r).1).1.scanner.rest.length < n := by
          rw [rest_read hr, ← hn, hr]
          exact length_first_lt c r
        rw [scan_of_accepted hd hr hv]
        exact ih _ hlt hb (by rw [done_read, hd]) rfl
      | refused =>
        rw [scan_of_refused hd hr hv]
        exact hb

theorem inBounds_exec (h : Scanner.InBounds source s.scanner) {op : Op} (ho : op.reads = true) :
    Scanner.InBounds source (s.exec op).1.scanner := by
  cases op with
  | scan =>
    rw [exec_scan]
    exact inBounds_scan h
  | step =>
    cases hr : s.scanner.rest with
    | nil =>
      rw [exec_step_nil hr]
      exact ⟨h.source_eq, Nat.le_refl _, h.current_le⟩
    | cons c r =>
      rw [exec_step_cons hr]
      exact inBounds_read h.source_eq hr
  | peek | peekNext | atEnd => exact h
  | _ => cases ho

/-- Scans, steps and looks keep the marks in order and inside the source. -/
theorem inBounds_run (h : Scanner.InBounds source s.scanner) {ops : List Op} (ho : ∀ op ∈ ops, op.reads = true) :
    Scanner.InBounds source (s.run ops).scanner := by
  induction ops generalizing s with
  | nil => exact h
  | cons op ops ih =>
    exact ih (inBounds_exec h (ho op (List.mem_cons_self ..))) fun o h => ho o (List.mem_cons_of_mem _ h)

end Session

/-! ## Where a walk ends -/

/-- The turn has ended the scan from `s` as `Session.scan` ends it: at the end of the
    source, or with a report that the sink refused. -/
inductive Concludes (s : Session σ) (sink : σ) (v : Scanner) : Turn → Prop
  | finished : s.scan = (⟨v, sink⟩, .accepted) → Concludes s sink v .finished
  | refused {d : Diagnostic} : (Sink.report sink d).2 = .refused →
      s.scan = (⟨v, (Sink.report sink d).1⟩, .refused) → Concludes s sink v (.report d)

theorem Concludes.of_scan_eq {s s' : Session σ} {sink : σ} {v : Scanner} {next : Turn} (h : Concludes s' sink v next)
    (hs : s.scan = s'.scan) : Concludes s sink v next := by
  cases h with
  | finished h => exact .finished (hs.trans h)
  | refused hr h => exact .refused hr (hs.trans h)

theorem Concludes.inBounds {source : List Char} {s : Session σ} {sink : σ} {v : Scanner} {next : Turn}
    (h : Concludes s sink v next) (hb : Scanner.InBounds source s.scanner) : Scanner.InBounds source v := by
  have hscan := Session.inBounds_scan hb
  cases h with
  | finished h | refused _ h => rwa [h] at hscan

/-- Where a scan ends, no loop follows. -/
theorem Concludes.not_follows {s : Session σ} {sink sink' : σ} {v : Scanner} {next : Turn} {l : Loop}
    (h : Concludes s sink v next) : ¬ Follows sink next l sink' := by
  intro hf
  cases h with
  | finished => cases hf
  | refused hr _ =>
    cases hf with
    | report ha =>
      rw [hr] at ha
      cases ha

theorem Follows.unique {sink sink₁ sink₂ : σ} {next : Turn} {l₁ l₂ : Loop} (h₁ : Follows sink next l₁ sink₁)
    (h₂ : Follows sink next l₂ sink₂) : l₁ = l₂ ∧ sink₁ = sink₂ := by
  cases h₁ <;> cases h₂ <;> exact ⟨rfl, rfl⟩

/-! ## Where a walk can be -/

/-- What is left of the scan from `s` is the scan from `u`, and `u` is in front of the
    piece `p`. -/
structure Before (s u : Session σ) (p : Piece) (r : List Char) : Prop where
  not_done : u.scanner.done = false
  source_eq : u.scanner.source = s.scanner.source
  scan_eq : s.scan = u.scan
  rest_eq : u.scanner.rest = p.text ++ r
  formed : p.Formed
  ends : p.Ends r

/-- After `n` passes a walk from `s` is between two pieces, or in a loop within one. -/
inductive Reached (s : Session σ) (n : Nat) : Loop → Session σ → Prop
  | between {t : Session σ} : t.scanner.done = false → Scanner.InBounds s.scanner.source t.scanner →
      s.scan = t.scan → s.scanner.current + n ≤ t.scanner.current → Reached s n .pieces t
  | within {u : Session σ} {p : Piece} {r : List Char} {l : Loop} {w run tail : List Char} : Before s u p r →
      w ≠ [] → l.Within p w run tail → s.scanner.current + n ≤ u.scanner.current + w.length →
      Reached s n l ⟨u.scanner.behind w, u.sink⟩

/-- How far the loop is from the loop from piece to piece. -/
def Loop.depth : Loop → Nat
  | pieces => 0
  | digits => 2
  | comment | string | fraction | word => 1

/-- What is left to be done: first of all characters to be read. -/
def left (l : Loop) (s : Scanner) : Nat := 3 * (s.source.length - s.current) + l.depth

/-- The turn does not fail. It reads a character with a pass, and leads to where a walk
    can be, with less left to be done, or concludes the scan. -/
def Turns (s : Session σ) (n : Nat) (l : Loop) (t : Session σ) : Prop :=
  ∃ v next, t.scanner.turn l = .ok (v, next) ∧ t.scanner.current + t.scanner.passes l ≤ v.current ∧
    (Concludes s t.sink v next ∨ ∃ l' sink, Follows t.sink next l' sink ∧
      Reached s (n + t.scanner.passes l) l' ⟨v, sink⟩ ∧ left l' v < left l t.scanner)

section Turn

variable {s t u : Session σ} {n k : Nat} {l l' : Loop} {p : Piece} {r w run tail : List Char}

theorem Reached.inBounds (h : Reached s n l t) : Scanner.InBounds s.scanner.source t.scanner := by
  cases h with
  | between _ h => exact h
  | within h hw hl =>
    have hrest := h.rest_eq
    rw [hl.text_eq, List.append_assoc] at hrest
    rw [← h.source_eq]
    exact Scanner.inBounds_behind hrest hw

theorem Reached.passes_le (h : Reached s n l t) : s.scanner.current + n ≤ t.scanner.current := by
  cases h with
  | between _ _ _ h | within _ _ _ h => exact h

/-! ## One turn -/

theorem Turns.of_follows {v : Scanner} {next : Turn} {sink : σ} (hturn : t.scanner.turn l = .ok (v, next))
    (hpasses : t.scanner.passes l = k) (hfollows : Follows t.sink next l' sink)
    (hreached : Reached s (n + k) l' ⟨v, sink⟩) (hsource : t.scanner.source = s.scanner.source)
    (hle : t.scanner.current + k ≤ v.current) (hlt : t.scanner.current < v.current ∨ l'.depth < l.depth) :
    Turns s n l t := by
  subst hpasses
  refine ⟨v, next, hturn, hle, Or.inr ⟨l', sink, hfollows, hreached, ?_⟩⟩
  obtain ⟨hv, -, hcurrent⟩ := hreached.inBounds
  have hdepth : l'.depth ≤ 2 := by cases l' <;> decide
  simp only at hv hcurrent
  rw [left, left, hsource, hv]
  omega

/-- When a piece has been read, the walk goes on between two pieces, or the sink has
    refused what the piece causes. -/
theorem Session.read_cases (s : Session σ) (p : Piece) :
    ∃ v next, Scanner.ofRead (s.scanner.read p) = (v, next) ∧ v = (s.scanner.read p).1 ∧
      ((∃ sink, Follows s.sink next .pieces sink ∧ s.read p = (⟨v, sink⟩, .accepted)) ∨
        ∃ d, next = .report d ∧ (Sink.report s.sink d).2 = .refused ∧
          s.read p = (⟨v, (Sink.report s.sink d).1⟩, .refused)) := by
  have hread : s.read p = deliver (s.scanner.read p) s.sink := rfl
  rw [hread]
  cases s.scanner.read p with
  | mk v d =>
    cases d with
    | none => exact ⟨v, _, rfl, rfl, Or.inl ⟨s.sink, .goOn .pieces, rfl⟩⟩
    | some d =>
      refine ⟨v, _, rfl, rfl, ?_⟩
      cases hr : (Sink.report s.sink d).2 with
      | accepted => exact Or.inl ⟨_, .report hr, by rw [← hr]; rfl⟩
      | refused => exact Or.inr ⟨d, rfl, hr, by rw [← hr]; rfl⟩

/-- Where the turn that completes a piece leads to. -/
theorem Before.turns_of_read (h : Before s u p r) {q : Scanner}
    (hturn : q.turn l = .ok (Scanner.ofRead (u.scanner.read p))) (hpasses : q.passes l = k)
    (hsource : q.source = s.scanner.source) (hn : s.scanner.current + n ≤ q.current)
    (hle : q.current + k ≤ u.scanner.current + p.text.length)
    (hlt : q.current < u.scanner.current + p.text.length ∨ 0 < l.depth) : Turns s n l ⟨q, u.sink⟩ := by
  obtain ⟨c, t, hc⟩ := List.exists_cons_of_ne_nil (text_ne_nil h.formed)
  have hrest : u.scanner.rest = c :: (t ++ r) := by rw [h.rest_eq, hc]; rfl
  have hfirst := first_of_ends h.formed h.ends (h.rest_eq.symm.trans hrest)
  have hacc := Session.scan_of_accepted h.not_done hrest
  have href := Session.scan_of_refused h.not_done hrest
  rw [hfirst, ← h.scan_eq] at hacc href
  obtain ⟨v, next, hread, hv, hcases⟩ := u.read_cases p
  have hcurrent : v.current = u.scanner.current + p.text.length := by rw [hv, Scanner.read_eq]
  rw [hread] at hturn
  rw [← hcurrent] at hle hlt
  rcases hcases with ⟨sink, hfollows, hdeliver⟩ | ⟨d, rfl, hrefused, hdeliver⟩
  · have hb := Scanner.inBounds_read h.rest_eq h.formed
    rw [h.source_eq, ← hv] at hb
    have hdone : v.done = false := by
      rw [hv, Scanner.read_eq]
      exact h.not_done
    rw [hdeliver] at hacc
    exact .of_follows hturn hpasses hfollows (.between hdone hb (hacc rfl) (by simp only; omega)) hsource hle hlt
  · rw [hdeliver] at href
    exact ⟨v, _, hturn, by rw [hpasses]; exact hle, Or.inl (.refused hrefused (href rfl))⟩

/-- Between two pieces. -/
theorem turns_between (hd : t.scanner.done = false) (hb : Scanner.InBounds s.scanner.source t.scanner)
    (hs : s.scan = t.scan) (hn : s.scanner.current + n ≤ t.scanner.current) : Turns s n .pieces t := by
  cases hr : t.scanner.rest with
  | nil =>
    obtain ⟨hturn, hpasses⟩ := Scanner.turn_finish hr
    refine ⟨_, _, hturn, ?_, Or.inl (.finished (hs.trans (Session.scan_of_rest_nil hd hr)))⟩
    rw [hpasses]
    exact Nat.le_refl _
  | cons c r =>
    obtain ⟨hf, he⟩ := first_cut c r
    have h : Before s t (first c r).1 (first c r).2 :=
      ⟨hd, hb.source_eq, hs, hr.trans (text_append_first c r).symm, hf, he⟩
    obtain ⟨hturn, hpasses⟩ := Scanner.turn_pieces h.rest_eq hf
    rcases Scanner.pass_pieces h.rest_eq hf he with hpass | ⟨l, w, run, tail, hpass, hw, hl⟩
    · have hlen := List.length_pos_iff.mpr (text_ne_nil hf)
      exact h.turns_of_read (hturn.trans hpass) hpasses hb.source_eq hn (by omega) (by left; omega)
    · have hlen := List.length_pos_iff.mpr hw
      have hcurrent : (t.scanner.behind w).current = t.scanner.current + w.length := rfl
      exact .of_follows (hturn.trans hpass) hpasses (.goOn l) (.within h hw hl (by omega)) hb.source_eq (by omega)
        (by left; omega)

/-- Within a piece, where the loop makes another pass. -/
theorem Before.turns_of_run (h : Before s u p r) {c : Char} (hl : l.Within p w (c :: run) tail)
    (hn : s.scanner.current + n ≤ u.scanner.current + w.length) : Turns s n l ⟨u.scanner.behind w, u.sink⟩ := by
  obtain ⟨hturn, hpasses⟩ := Scanner.turn_run h.rest_eq hl
  have hlen : (w ++ [c]).length = w.length + 1 := List.length_append
  exact .of_follows hturn hpasses (.goOn l) (.within h (by simp) hl.take (by omega))
    h.source_eq (by simp only [Scanner.behind]; omega) (by left; simp only [Scanner.behind]; omega)

/-- Within a piece, behind the loop. -/
theorem Before.turns_of_end (h : Before s u p r) (hl : l.Within p w [] tail)
    (hn : s.scanner.current + n ≤ u.scanner.current + w.length) : Turns s n l ⟨u.scanner.behind w, u.sink⟩ := by
  obtain ⟨hturn, hpasses⟩ := Scanner.turn_end h.rest_eq h.formed h.ends hl
  rcases Scanner.leave_end h.rest_eq h.formed h.ends hl with hleave | ⟨d, f, rfl, hleave, hfraction⟩
  · have hlen : w.length ≤ p.text.length := by rw [hl.text_eq, List.length_append]; omega
    have hdepth : 0 < l.depth := by
      cases l with
      | pieces => cases hl.tail_eq
      | _ => decide
    exact h.turns_of_read (hturn.trans hleave) hpasses h.source_eq hn (by simp only [Scanner.behind]; omega)
      (Or.inr hdepth)
  · have hlen : (w ++ ['.']).length = w.length + 1 := List.length_append
    exact .of_follows (hturn.trans hleave) hpasses (.goOn .fraction) (.within h (by simp) hfraction (by omega))
      h.source_eq (by simp only [Scanner.behind]; omega) (by left; simp only [Scanner.behind]; omega)

theorem Reached.turn (h : Reached s n l t) : Turns s n l t := by
  cases h with
  | between hd hb hs hn => exact turns_between hd hb hs hn
  | @within _ _ _ _ _ run _ h _ hl hn =>
    cases run with
    | nil => exact h.turns_of_end hl hn
    | cons c run => exact h.turns_of_run hl hn

/-! ## All turns -/

/-- Every walk is where a walk can be. -/
theorem Walk.reached (hb : Scanner.InBounds s.scanner.source s.scanner) (h : Walk s n l t) : Reached s n l t := by
  induction h with
  | start hd => exact .between hd hb rfl (Nat.le_refl _)
  | turn _ hturn hfollows ih =>
    obtain ⟨v, next, hv, -, hend⟩ := ih.turn
    rw [hturn] at hv
    injection hv with hv
    injection hv with hv hnext
    subst hv hnext
    rcases hend with hend | ⟨l', sink, hfollows', hreached, -⟩
    · exact absurd hfollows hend.not_follows
    · obtain ⟨rfl, rfl⟩ := hfollows.unique hfollows'
      exact hreached

/-- Every walk can be followed to the end of the scan. -/
theorem Walk.concludes (hb : Scanner.InBounds s.scanner.source s.scanner) (h : Walk s n l t) :
    ∃ m l' t' v next, Walk s m l' t' ∧ t'.scanner.turn l' = .ok (v, next) ∧ Concludes s t'.sink v next := by
  -- by induction on what is left to be done
  induction hm : left l t.scanner using Nat.strongRecOn generalizing n l t with
  | ind m ih =>
    obtain ⟨v, next, hturn, -, hend⟩ := (h.reached hb).turn
    rcases hend with hend | ⟨l', sink, hfollows, -, hlt⟩
    · exact ⟨n, l, t, v, next, h, hturn, hend⟩
    · exact ih _ (hm ▸ hlt) (h.turn hturn hfollows) rfl

end Turn

/-! ## A source and a sink -/

/-- A walk from `s` has come this far without failing, with the marks in order and inside
    the source and with a character read for each pass, and the next turn does not fail
    either: it keeps the marks so, reads on with a pass, and leads to the head of a loop or
    concludes the scan. -/
structure Sound (s : Session σ) (n : Nat) (l : Loop) (t : Session σ) : Prop where
  inBounds : Scanner.InBounds s.scanner.source t.scanner
  passes_le : s.scanner.current + n ≤ t.scanner.current
  turn : ∃ v next, t.scanner.turn l = .ok (v, next) ∧ Scanner.InBounds s.scanner.source v ∧
    t.scanner.current ≤ v.current ∧ (t.scanner.goesOn l = .ok true → t.scanner.current < v.current) ∧
    ((∃ l' sink, Follows t.sink next l' sink) ∨ Concludes s t.sink v next)

theorem Walk.sound {s t : Session σ} {n : Nat} {l : Loop} (hb : Scanner.InBounds s.scanner.source s.scanner)
    (h : Walk s n l t) : Sound s n l t := by
  have hreached := h.reached hb
  obtain ⟨v, next, hturn, hcurrent, hend⟩ := hreached.turn
  refine ⟨hreached.inBounds, hreached.passes_le, v, next, hturn, ?_, by omega, fun hgoes => ?_, ?_⟩
  · rcases hend with hend | ⟨l', sink, _, hreached', _⟩
    · exact hend.inBounds hb
    · exact hreached'.inBounds
  · rw [Scanner.passes, hgoes] at hcurrent
    exact hcurrent
  · rcases hend with hend | ⟨l', sink, hfollows, _⟩
    · exact Or.inr hend
    · exact Or.inl ⟨l', sink, hfollows⟩

end Progress

/-- However far a source has been read by scans, steps and looks, a scan from there does
    not fail in any state it comes to: no character is looked up outside the source, and
    what is read as a number is one. It ends, unless it is done already, at the end of the
    source or with a report that the sink refuses; if the sink accepts every report, then
    at the end, after no more passes than the source has characters, and with no more
    tokens and diagnostics than those and one. -/
theorem scan_never_faults {σ : Type} [Sink σ] (sink : σ) (source : String) (ops : List Op)
    (ho : ∀ op ∈ ops, op.reads = true) :
    let s := (Session.fresh source.toList sink).run ops
    s.scanner.source = source.toList ∧ (∀ n l t, Walk s n l t → Sound s n l t) ∧
      (∀ text, (Binary64.ofNumeral? text).isSome = true ↔ IsUnit text (.token .number)) ∧
      (s.scanner.done = true → s.scan = (s, .accepted)) ∧
      (s.scanner.done = false → ∃ n l t v next, Walk s n l t ∧ t.scanner.turn l = .ok (v, next) ∧
        Concludes s t.sink v next ∧
        (Sink.Accepting sink → next = .finished ∧ n ≤ source.length ∧
          s.scan = (⟨v, Sink.after sink (scan source).2.toList⟩, .accepted) ∧ v.tokens = (scan source).1 ∧
          v.tokens.size + (scan source).2.size ≤ source.length + 1)) := by
  intro s
  have hfresh : Scanner.InBounds source.toList (Session.fresh source.toList sink).scanner :=
    ⟨rfl, Nat.zero_le _, Nat.zero_le _⟩
  have hb : Scanner.InBounds source.toList s.scanner := Session.inBounds_run hfresh ho
  have hsource := hb.source_eq
  rw [← hsource] at hb
  refine ⟨hsource, fun n l t h => h.sound hb, fun text => Scanner.isSome_ofNumeral?_iff, Session.scan_of_done,
    fun hd => ?_⟩
  obtain ⟨n, l, t, v, next, hwalk, hturn, hend⟩ := (Walk.start hd).concludes hb
  refine ⟨n, l, t, v, next, hwalk, hturn, hend, fun ha => ?_⟩
  obtain ⟨ps, hps⟩ := HasRead.run_fresh source.toList sink ho
  obtain ⟨qs, h, hacc, href⟩ := hps.scan
  cases hend with
  | refused _ hscan =>
    obtain ⟨ds, d, _, hrep⟩ := href (by rw [hscan])
    rw [ha] at hrep
    cases hrep
  | finished hscan =>
    rw [hscan] at h hacc
    rw [h.all_of_done (hacc rfl)] at h
    have htokens := h.tokens_eq
    rw [hacc rfl, if_pos rfl] at htokens
    obtain ⟨ht, hds⟩ := toList_scan source
    have hpasses := (hwalk.reached hb).passes_le
    have hcurrent := (hwalk.reached hb).inBounds.current_le
    have hyield := length_yield_le 1 (pieces source.toList)
    have hpieces := (cut_pieces source.toList).length_le
    rw [hsource, String.length_toList] at hcurrent
    rw [String.length_toList] at hpieces
    refine ⟨rfl, by omega, ?_, Array.ext' (htokens.trans ht.symm), ?_⟩
    · rw [hscan, hds, ← h.sink_eq]
    · rw [← Array.length_toList, ← Array.length_toList, htokens, hds, List.length_append]
      simp only [List.length_cons, List.length_nil]
      omega

/-- A scan begun behind a number, in front of a null character, a string over two lines and
    a comment. -/
theorem scan_never_faults_behind_number :
    let source := "1.5\x00\"\n\"//"
    let s := (Session.fresh source.toList (Chain.collecting #[] .silent)).run [.step]
    (∀ op ∈ [Op.step], op.reads = true) ∧ s.scanner.current = 3 ∧ s.scanner.done = false ∧
      ∃ n l t v, Walk s n l t ∧ Sound s n l t ∧ t.scanner.turn l = .ok (v, .finished) ∧ n ≤ 9 ∧
        v.tokens = (scan source).1 ∧ v.tokens.size = 3 ∧ (scan source).2.size = 1 := by
  have ho : ∀ op ∈ [Op.step], op.reads = true := by decide
  obtain ⟨-, hsound, -, -, hend⟩ := scan_never_faults (Chain.collecting #[] .silent) "1.5\x00\"\n\"//" [.step] ho
  have hd : ((Session.fresh "1.5\x00\"\n\"//".toList (Chain.collecting #[] .silent)).run
      [.step]).scanner.done = false := by decide +kernel
  obtain ⟨n, l, t, v, next, hwalk, hturn, -, hfinished⟩ := hend hd
  obtain ⟨rfl, hn, -, hv, -⟩ := hfinished (Chain.accepting_collecting Chain.accepting_silent #[])
  refine ⟨ho, by decide +kernel, hd, n, l, t, v, hwalk, hsound n l t hwalk, hturn, hn, hv, ?_, by decide +kernel⟩
  rw [hv]
  decide +kernel

end LoxLexer
