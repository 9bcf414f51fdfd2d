/-
  LoxLexer.Proofs.Conduct — what each operation may change, from any state.

  Operations may come in any order, so the mark may stand behind the position, the
  position past the end of the source, and the line anywhere. From every such state, and
  whether the operation succeeds or fails:
  - tokens are only added behind those that are there, as many as the operation may add
    (`Op.Adds`), each cut from the source between the marks;
  - only `seek` moves the position back or away past the end;
  - the mark moves only where a lexeme is begun, the line only by the line feeds that are
    passed;
  - a scan that gets to the end is what makes a scanner done, and nothing undoes that.
  `Conduct` says all of this of one operation.

  Proved:
  - `Session.scan_shape`: what a scan leaves, from any state, is told by the pieces it read.
  - `Session.conduct_exec`: every operation conducts itself so, from every state.
  - `operations_conduct`: hence in every run, over the whole of which the tokens only grow.
-/

import LoxLexer.Proofs.Resumption
import LoxLexer.Proofs.Segmentation

namespace LoxLexer

open Piece

/-- The text between two places of a source; what lies past its end is left out. -/
def between (source : List Char) (i j : Nat) : List Char := (source.take j).drop i

/-- How many tokens an operation may add. -/
def Op.Adds : Op → Nat → Prop
  | scan, _ => True
  | step, n | string, n => n ≤ 1
  | add _ _, n | identifier, n => n = 1
  | _, n => n = 0

/-- Whether the tokens that an operation adds are all for the text between the marks. -/
def Op.cuts : Op → Bool
  | step | string | add _ _ | identifier => true
  | _ => false

/-- Whether an operation counts the line feeds that it passes. -/
def Op.counts : Op → Bool
  | scan | step | string => true
  | _ => false

/-- What an operation on the scanner `s` that leaves the scanner `t` may have changed.
    `ok` says whether it succeeded. -/
structure Conduct (s : Scanner) (op : Op) (ok : Bool) (t : Scanner) : Prop where
  source_eq : t.source = s.source
  adds : ∃ ts, t.tokens.toList = s.tokens.toList ++ ts ∧ op.Adds ts.length ∧
    (op.cuts = true → ∀ u ∈ ts, u.lexeme = String.ofList (between s.source t.start t.current) ∧ u.line = t.line)
  moves : (∀ n, op ≠ .seek n) → s.current ≤ t.current ∧ t.current ≤ max s.source.length s.current
  marks : op ≠ .mark → op ≠ .step → ¬ (op = .scan ∧ s.done = false) → t.start = s.start
  passes : op.counts = true → t.line = s.line + ((between s.source s.current t.current).count '\n' : Nat)
  keeps_line : op.counts = false → (∀ n, op ≠ .setLine n) → t.line = s.line
  done_iff : t.done = true ↔ s.done = true ∨ op = .scan ∧ ok = true
  of_done : op = .scan → s.done = true → t = s
  of_scan : op = .scan → s.done = false → ∃ ts, (∀ u ∈ ts, u.kind ≠ .eof) ∧ (ok = true → t.atEnd = true) ∧
    t.tokens.toList = s.tokens.toList ++ ts ++ if ok then [endToken t.line] else []

/-! ## Places in a source -/

theorem between_eq (source : List Char) (i j : Nat) : between source i j = (source.drop i).take (j - i) :=
  List.drop_take

theorem between_self (source : List Char) (i : Nat) : between source i i = [] := by
  rw [between_eq, Nat.sub_self, List.take_zero]

theorem between_of_drop {source w r : List Char} {i : Nat} (h : source.drop i = w ++ r) :
    between source i (i + w.length) = w := by
  rw [between_eq, Nat.add_sub_cancel_left, h, List.take_left]

/-- What is read on from a place ends in the source, or the place is past its end already. -/
theorem add_length_le {source w r : List Char} {i : Nat} (h : source.drop i = w ++ r) :
    i + w.length ≤ max source.length i := by
  have hlen := congrArg List.length h
  rw [List.length_drop, List.length_append] at hlen
  omega

namespace Scanner

theorem lexeme_eq (s : Scanner) : s.lexeme = String.ofList (between s.source s.start s.current) := by
  rw [lexeme, slice, between_eq]

variable {s t : Scanner}

/-! ## Operations that add nothing -/

/-- An operation that only moves the marks, and these as it may. -/
theorem conduct_of_moved {op : Op} {ok : Bool} (start current : Nat) (h0 : op.Adds 0) (hc : op.counts = false)
    (hmoves : (∀ n, op ≠ .seek n) → s.current ≤ current ∧ current ≤ max s.source.length s.current)
    (hmarks : op ≠ .mark → start = s.start) : Conduct s op ok { s with start := start, current := current } := by
  have hscan : op ≠ .scan := by
    rintro rfl
    cases hc
  refine ⟨rfl, ⟨[], by simp, h0, fun _ u hu => by cases hu⟩, hmoves, fun hm _ _ => hmarks hm, fun h => ?_,
    fun _ _ => rfl, ?_, fun h => absurd h hscan, fun h => absurd h hscan⟩
  · rw [hc] at h
    cases h
  · simp [hscan]

/-- One character is in front of the position, so it may be passed. -/
theorem moves_one {c : Char} (h : s.source[s.current]? = some c) :
    s.current ≤ s.current + 1 ∧ s.current + 1 ≤ max s.source.length s.current := by
  obtain ⟨hlt, _⟩ := List.getElem?_eq_some_iff.mp h
  omega

theorem conduct_advance (h : s.advance? = some (c, t)) (ok : Bool) : Conduct s .advance ok t := by
  unfold advance? at h
  obtain ⟨d, hd, he⟩ := Option.map_eq_some_iff.mp h
  cases he
  exact conduct_of_moved s.start (s.current + 1) rfl rfl (fun _ => moves_one hd) fun _ => rfl

theorem conduct_same {op : Op} (h0 : op.Adds 0) (hc : op.counts = false) (ok : Bool) : Conduct s op ok s :=
  conduct_of_moved s.start s.current h0 hc (fun _ => ⟨Nat.le_refl _, Nat.le_max_right ..⟩) fun _ => rfl

/-- A scan of a scanner that is done is a look. -/
theorem conduct_scan_of_done (hd : s.done = true) (ok : Bool) : Conduct s .scan ok s where
  source_eq := rfl
  adds := ⟨[], (List.append_nil _).symm, trivial, fun _ u hu => by cases hu⟩
  moves _ := ⟨Nat.le_refl _, Nat.le_max_right ..⟩
  marks _ _ _ := rfl
  passes _ := by
    rw [between_self]
    exact (Int.add_zero _).symm
  keeps_line _ _ := rfl
  done_iff := by simp [hd]
  of_done _ _ := rfl
  of_scan _ h := by
    rw [hd] at h
    cases h

theorem conduct_accept (expected : String) (ok : Bool) : Conduct s (.accept expected) ok (s.accept expected).1 := by
  have hsame : Conduct s (.accept expected) ok s := conduct_same (by rfl) rfl ok
  unfold accept
  split
  · rename_i c hc
    split
    · exact conduct_of_moved s.start (s.current + 1) (by rfl) rfl (fun _ => moves_one hc) fun _ => rfl
    · exact hsame
  · exact hsame

theorem conduct_setLine (line : Int) (ok : Bool) : Conduct s (.setLine line) ok (s.setLine line) where
  source_eq := rfl
  adds := ⟨[], by simp [setLine], rfl, fun h => by cases h⟩
  moves _ := ⟨Nat.le_refl _, Nat.le_max_right ..⟩
  marks _ _ _ := rfl
  passes h := by cases h
  keeps_line _ h := absurd rfl (h line)
  done_iff := by simp [setLine]
  of_done h := by cases h
  of_scan h := by cases h

/-! ## Operations that add a token -/

/-- A token added for the text between the marks, behind a move of the position. -/
theorem conduct_of_added {op : Op} {ok : Bool} {kind : Kind} {literal : Option Literal} {w r : List Char}
    (h : s.rest = w ++ r) (h1 : op.Adds 1) (hc : op.counts = false) :
    Conduct s op ok ({ s with current := s.current + w.length }.add kind literal) := by
  have hscan : op ≠ .scan := by
    rintro rfl
    cases hc
  refine ⟨rfl, ⟨[_], Array.toList_push, h1, fun _ u hu => ?_⟩, fun _ => ⟨Nat.le_add_right .., add_length_le h⟩,
    fun _ _ _ => rfl, fun hcount => ?_, fun _ _ => rfl, ?_, fun h => absurd h hscan, fun h => absurd h hscan⟩
  · rw [List.mem_singleton.mp hu]
    exact ⟨lexeme_eq _, rfl⟩
  · rw [hc] at hcount
    cases hcount
  · simp [hscan, add]

theorem conduct_add (kind : Kind) (literal : Option Literal) (ok : Bool) :
    Conduct s (.add kind literal) ok (s.add kind literal) :=
  conduct_of_added (w := []) rfl (by rfl) rfl

theorem conduct_identifier (ok : Bool) : Conduct s .identifier ok s.identifier :=
  conduct_of_added (List.takeWhile_append_dropWhile (p := isWordChar)).symm (by rfl) rfl

/-! ## Operations that read on over lines -/

/-- A text is read, with its line feeds counted, and at most one token added for what is
    then between the marks. -/
theorem conduct_of_read {op : Op} {ok : Bool} {w r : List Char} (hop : op = .step ∨ op = .string ∧ t.start = s.start)
    (hs : t.source = s.source) (hw : s.rest = w ++ r) (hc : t.current = s.current + w.length)
    (hl : t.line = s.line + (w.count '\n' : Nat)) (hd : t.done = s.done)
    (ht : ∃ ts, t.tokens.toList = s.tokens.toList ++ ts ∧ ts.length ≤ 1 ∧
      ∀ u ∈ ts, u.lexeme = String.ofList (between s.source t.start t.current) ∧ u.line = t.line) :
    Conduct s op ok t := by
  obtain ⟨ts, h1, h2, h3⟩ := ht
  have hscan : op ≠ .scan := by
    rcases hop with rfl | ⟨rfl, _⟩ <;> simp
  have hcount : op.counts = true := by
    rcases hop with rfl | ⟨rfl, _⟩ <;> rfl
  have hadds : op.Adds ts.length := by
    rcases hop with rfl | ⟨rfl, _⟩ <;> exact h2
  refine ⟨hs, ⟨ts, h1, hadds, fun _ => h3⟩, fun _ => ?_, fun _ hstep _ => ?_, fun _ => ?_, fun h => ?_, ?_,
    fun h => absurd h hscan, fun h => absurd h hscan⟩
  · rw [hc]
    exact ⟨Nat.le_add_right .., add_length_le hw⟩
  · rcases hop with rfl | ⟨_, hstart⟩
    · exact absurd rfl hstep
    · exact hstart
  · rw [hl, hc, between_of_drop hw]
  · rw [hcount] at h
    cases h
  · simp [hd, hscan]

/-- What is left behind the body of a string begins with a quote, or is nothing. -/
theorem rest_behind_body (s : Scanner) : s.rest = s.rest.takeWhile (· != '\"') ∨
    ∃ r, s.rest = s.rest.takeWhile (· != '\"') ++ ['\"'] ++ r := by
  have hw := (List.takeWhile_append_dropWhile (p := (· != '\"')) (l := s.rest)).symm
  have hq := List.head?_dropWhile_not (· != '\"') s.rest
  cases hd : s.rest.dropWhile (· != '\"') with
  | nil =>
    rw [hd, List.append_nil] at hw
    exact Or.inl hw
  | cons c r =>
    rw [hd] at hw hq
    have hc : c = '\"' := by simpa using hq
    rw [hc, List.append_cons] at hw
    exact Or.inr ⟨r, hw⟩

theorem conduct_string (ok : Bool) : Conduct s .string ok s.string.1 := by
  have hbehind := rest_behind_body s
  unfold string
  generalize s.rest.takeWhile (· != '\"') = body at hbehind ⊢
  dsimp only
  split
  · rename_i hend
    rcases hbehind with hw | ⟨r, hw⟩
    · rw [← List.append_nil body] at hw
      exact conduct_of_read (Or.inr ⟨rfl, rfl⟩) rfl hw rfl rfl rfl
        ⟨[], (List.append_nil _).symm, Nat.zero_le 1, fun u hu => by cases hu⟩
    · -- the quote is in the source, behind the position
      exfalso
      have h := congrArg List.length hw
      simp only [rest, List.length_drop, List.length_append, List.length_singleton] at h
      simp only [atEnd, decide_eq_true_eq] at hend
      omega
  · rename_i hend
    rcases hbehind with hw | ⟨r, hw⟩
    · exfalso
      have h := congrArg List.length hw
      simp only [rest, List.length_drop] at h
      simp only [atEnd, decide_eq_true_eq] at hend
      omega
    · refine conduct_of_read (Or.inr ⟨rfl, rfl⟩) rfl hw ?_ ?_ rfl ⟨[_], Array.toList_push, Nat.le_refl 1, fun u hu => ?_⟩
      · simp [add, Nat.add_assoc]
      · simp [add, List.count_append]
      · rw [List.mem_singleton.mp hu]
        exact ⟨lexeme_eq _, rfl⟩

end Scanner

/-! ## Operations that read pieces -/

namespace Session

theorem answer_fst {σ : Type} (r : Session σ × Verdict) (a : Session σ → Answer) : (answer r a).1 = r.1 := by
  unfold answer
  split <;> rfl

variable {σ : Type} [Sink σ]

/-- What a scan leaves, from any state: the pieces it read lie in front of the position,
    with their tokens added and their line feeds counted. -/
theorem scan_shape {s : Session σ} (hd : s.scanner.done = false) : ∃ ps,
    let t := s.scan.1.scanner
    t.source = s.scanner.source ∧ s.scanner.rest = ps.flatMap text ++ t.rest ∧
      t.current = s.scanner.current + (ps.flatMap text).length ∧ t.line = lineAfter s.scanner.line ps ∧
      t.tokens.toList = s.scanner.tokens.toList ++ tokens s.scanner.line ps ++
        (if s.scan.2 = .accepted then [endToken t.line] else []) ∧
      (t.done = true ↔ s.scan.2 = .accepted) ∧ (s.scan.2 = .accepted → t.rest = []) := by
  -- by induction on what is left, along the loop of the scan
  induction hn : s.scanner.rest.length using Nat.strongRecOn generalizing s with
  | ind n ih =>
    cases hr : s.scanner.rest with
    | nil =>
      rw [scan_of_rest_nil hd hr]
      refine ⟨[], rfl, hr.symm, rfl, (lineAfter_nil _).symm, ?_, iff_of_true rfl rfl, fun _ => hr⟩
      simp [Scanner.finish, endToken, tokens, collect]
    | cons c r =>
      have hsplit := text_append_first c r
      have hread : (s.read (first c r).1).1.scanner = (s.scanner.read (first c r).1).1 := by rw [read_eq]
      cases hv : (s.read (first c r).1).2 with
      | accepted =>
        have hlt : (s.read (first c r).1).1.scanner.rest.length < n := by
          rw [rest_read hr, ← hn, hr]
          exact length_first_lt c r
        obtain ⟨ps, h1, h2, h3, h4, h5, h6, h7⟩ := ih _ hlt (by rw [done_read, hd]) rfl
        rw [scan_of_accepted hd hr hv]
        rw [rest_read hr] at h2
        rw [hread, Scanner.read_eq] at h1 h3 h4 h5
        refine ⟨(first c r).1 :: ps, h1, ?_, ?_, ?_, ?_, h6, h7⟩
        · rw [List.flatMap_cons, List.append_assoc, ← h2, hsplit]
        · rw [h3, List.flatMap_cons, List.length_append, Nat.add_assoc]
        · rw [h4, lineAfter_cons]
        · rw [h5]
          simp [tokens, collect]
      | refused =>
        rw [scan_of_refused hd hr hv, hv, hread]
        refine ⟨[(first c r).1], ?_, ?_, ?_, ?_, ?_, ?_, fun h => by cases h⟩
        · rw [Scanner.read_eq]
        · rw [← hread, rest_read hr, List.flatMap_singleton, hsplit]
        · rw [Scanner.read_eq, List.flatMap_singleton]
        · rw [Scanner.read_eq, lineAfter_cons, lineAfter_nil]
        · rw [Scanner.read_eq, tokens, collect_singleton]
          simp
        · rw [Scanner.read_eq, hd]
          simp

theorem conduct_scan (s : Session σ) : Conduct s.scanner .scan (s.exec .scan).2.isOk (s.exec .scan).1.scanner := by
  rw [exec_scan]
  cases hd : s.scanner.done with
  | true =>
    rw [scan_of_done hd]
    exact Scanner.conduct_scan_of_done hd _
  | false =>
    obtain ⟨ps, hs, hrest, hc, hl, ht, hdone, hend⟩ := scan_shape hd
    have hok : (s.exec .scan).2.isOk = true ↔ s.scan.2 = .accepted := isOk_scan
    refine ⟨hs, ⟨_, by rw [ht, List.append_assoc], trivial, fun h => by cases h⟩, fun _ => ?_,
      fun _ _ h => absurd ⟨rfl, hd⟩ h, fun _ => ?_, fun h => (by cases h), ?_, fun _ h => ?_,
      fun _ _ => ⟨tokens s.scanner.line ps, fun u hu => kind_ne_eof hu, fun h => ?_, ?_⟩⟩
    · rw [hc]
      exact ⟨Nat.le_add_right .., add_length_le hrest⟩
    · rw [hl, hc, between_of_drop hrest, lineAfter]
    · rw [hdone, hok, hd]
      simp
    · rw [hd] at h
      cases h
    · rw [Scanner.atEnd, decide_eq_true_iff]
      exact List.drop_eq_nil_iff.mp (hend (hok.mp h))
    · simp only [ht, hok]

theorem conduct_step (s : Session σ) (ok : Bool) : Conduct s.scanner .step ok (s.exec .step).1.scanner := by
  cases hr : s.scanner.rest with
  | nil =>
    rw [exec_step_nil hr]
    exact Scanner.conduct_of_read (w := []) (Or.inl rfl) rfl rfl rfl (Int.add_zero _).symm rfl
      ⟨[], (List.append_nil _).symm, Nat.zero_le 1, fun u hu => by cases hu⟩
  | cons c r =>
    have hw : s.scanner.rest = (first c r).1.text ++ (first c r).2 := by rw [text_append_first, hr]
    rw [exec_step_cons hr, read_eq, Scanner.read_eq]
    refine Scanner.conduct_of_read (Or.inl rfl) rfl hw rfl rfl rfl
      ⟨((first c r).1.token? s.scanner.line).toList, by simp, ?_, fun u hu => ?_⟩
    · cases (first c r).1.token? s.scanner.line <;> simp
    · have hu := Option.mem_toList.mp hu
      rw [between_of_drop hw]
      exact ⟨lexeme_token? hu, line_token? hu⟩

theorem scanner_deliver (r : Scanner × Option Diagnostic) (sink : σ) : (deliver r sink).1.scanner = r.1 := by
  unfold deliver
  split <;> rfl

/-- Every operation conducts itself so, from every state, whether it succeeds or fails. -/
theorem conduct_exec (s : Session σ) (op : Op) :
    Conduct s.scanner op (s.exec op).2.isOk (s.exec op).1.scanner := by
  cases op with
  | scan => exact conduct_scan s
  | step => exact conduct_step s _
  | advance =>
    unfold exec
    cases h : s.scanner.advance? with
    | none => exact Scanner.conduct_same (by rfl) rfl _
    | some r => exact Scanner.conduct_advance h _
  | peek | peekNext | atEnd => exact Scanner.conduct_same (by rfl) rfl _
  | accept expected => exact Scanner.conduct_accept expected _
  | mark =>
    exact Scanner.conduct_of_moved s.scanner.current s.scanner.current (by rfl) rfl
      (fun _ => ⟨Nat.le_refl _, Nat.le_max_right ..⟩) fun h => absurd rfl h
  | seek n =>
    exact Scanner.conduct_of_moved s.scanner.start n (by rfl) rfl (fun h => absurd rfl (h n)) fun _ => rfl
  | setLine line => exact Scanner.conduct_setLine line _
  | add kind literal => exact Scanner.conduct_add kind literal _
  | identifier => exact Scanner.conduct_identifier _
  | string =>
    have h : (s.exec .string).1.scanner = s.scanner.string.1 := by
      show (answer (deliver s.scanner.string s.sink) _).1.scanner = _
      rw [answer_fst, scanner_deliver]
    rw [h]
    exact Scanner.conduct_string _

/-! ## Runs -/

/-- Over a run of any operations, tokens are only added, what is done stays done, and the
    source stays what it is. -/
theorem grows_run (s : Session σ) (ops : List Op) :
    s.scanner.tokens.toList <+: (s.run ops).scanner.tokens.toList ∧
      (s.scanner.done = true → (s.run ops).scanner.done = true) ∧
      (s.run ops).scanner.source = s.scanner.source := by
  induction ops generalizing s with
  | nil => exact ⟨List.prefix_refl _, id, rfl⟩
  | cons op ops ih =>
    have h := conduct_exec s op
    obtain ⟨hp, hd, hs⟩ := ih (s.exec op).1
    obtain ⟨ts, ht, _⟩ := h.adds
    refine ⟨List.IsPrefix.trans ?_ hp, fun hdone => hd (h.done_iff.mpr (Or.inl hdone)), hs.trans h.source_eq⟩
    rw [ht]
    exact List.prefix_append _ _

end Session

/-- However a scanner has been driven, over whatever source and with whatever sink: the
    next operation conducts itself as `Conduct` says, and from then on the tokens that are
    there stay there, in front of all that come. -/
theorem operations_conduct {σ : Type} [Sink σ] (sink : σ) (source : String) (ops : List Op) (op : Op) :
    let s := (Session.fresh source.toList sink).run ops
    s.scanner.source = source.toList ∧ Conduct s.scanner op (s.exec op).2.isOk (s.exec op).1.scanner ∧
      ∀ more : List Op, s.scanner.tokens.toList <+: (s.run more).scanner.tokens.toList ∧
        (s.scanner.done = true → (s.run more).scanner.done = true) := by
  intro s
  obtain ⟨_, _, hsource⟩ := (Session.fresh source.toList sink).grows_run ops
  refine ⟨hsource, s.conduct_exec op, fun more => ?_⟩
  obtain ⟨hp, hd, _⟩ := s.grows_run more
  exact ⟨hp, hd⟩

end LoxLexer
