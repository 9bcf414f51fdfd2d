/-
  LoxLexer.Proofs.LogReading — reading the log of a scan.

  A log line shows a kind, a lexeme and a line, and puts the lexeme between quotes as it
  is, but for its first line end of two characters (`LineEndShown`). Whatever the lexeme,
  one line by itself can be read: the kind from the front, up to the first bracket, and
  the line number from the back, down to the last blank.

  A whole log has to be read from the front, and a string may contain the very text of
  log lines. What tells where the lexeme ends is its kind: only a string contains quotes,
  one at each end.

  Proved:
  - `lineEndShown_iff`: `showLineEnd` shows the first line end and nothing else.
  - `logLine_inj`: one line tells its kind, its line number and its lexeme as shown.
  - `Scanned.logLine_append_inj`: a line of a scanned token ends where it does, whatever
    the lines behind it.
  - `log_determines_tokens`: logs of texts without carriage returns are equal only if the
    tokens are.
-/

import LoxLexer.Command.Run
import LoxLexer.Proofs.Delimited

namespace LoxLexer

open Piece

/-! ## The first line end -/

/-- The second text is the first one with its first line end of two characters, if it has
    any, shown by letters. -/
inductive LineEndShown : List Char → List Char → Prop
  | none {l : List Char} : ¬ ['\r', '\n'] <:+: l → LineEndShown l l
  | first {a b : List Char} : ¬ ['\r', '\n'] <:+: a →
      LineEndShown (a ++ '\r' :: '\n' :: b) (a ++ '\\' :: 'r' :: '\\' :: 'n' :: b)

theorem LineEndShown.cons {c : Char} {l m : List Char} (h : LineEndShown l m)
    (hc : ¬ ['\r', '\n'] <+: c :: l) : LineEndShown (c :: l) (c :: m) := by
  cases h with
  | none h =>
    refine .none fun hpair => ?_
    rcases List.infix_cons_iff.mp hpair with hp | hi
    · exact hc hp
    · exact h hi
  | @first a b h =>
    refine LineEndShown.first (a := c :: a) fun hpair => ?_
    rcases List.infix_cons_iff.mp hpair with hp | hi
    · exact hc (hp.trans (List.prefix_append (c :: a) _))
    · exact h hi

theorem lineEndShown_showLineEnd (l : List Char) : LineEndShown l (showLineEnd l) := by
  fun_induction showLineEnd l with
  | case1 r => exact LineEndShown.first (a := []) (by simp)
  | case2 c r hc ih =>
    refine ih.cons fun ⟨s, hs⟩ => ?_
    cases hs
    exact hc s rfl rfl
  | case3 => exact .none (by simp)

theorem showLineEnd_eq_self {l : List Char} (h : ¬ ['\r', '\n'] <:+: l) : showLineEnd l = l := by
  fun_induction showLineEnd l with
  | case1 r => exact absurd (List.prefix_append ['\r', '\n'] r).isInfix h
  | case2 c r hc ih => rw [ih fun hi => h (hi.trans (List.suffix_cons c r).isInfix)]
  | case3 => rfl

theorem showLineEnd_append {a : List Char} (b : List Char) (h : ¬ ['\r', '\n'] <:+: a) :
    showLineEnd (a ++ '\r' :: '\n' :: b) = a ++ '\\' :: 'r' :: '\\' :: 'n' :: b := by
  induction a with
  | nil => rfl
  | cons c a ih =>
    have htail := ih fun hi => h (hi.trans (List.suffix_cons c a).isInfix)
    rw [List.cons_append, showLineEnd, htail, List.cons_append]
    -- `c` and what follows are no line end: there is none in `a`, and `a` is followed by `\r`
    rintro r rfl hr
    cases a with
    | nil => cases hr
    | cons d a =>
      cases hr
      exact h (List.prefix_append ['\r', '\n'] a).isInfix

theorem lineEndShown_iff {l m : List Char} : LineEndShown l m ↔ m = showLineEnd l := by
  constructor
  · rintro (h | h)
    · exact (showLineEnd_eq_self h).symm
    · exact (showLineEnd_append _ h).symm
  · rintro rfl
    exact lineEndShown_showLineEnd l

theorem showLineEnd_of_not_mem {l : List Char} (h : '\r' ∉ l) : showLineEnd l = l :=
  showLineEnd_eq_self fun hpair => h (hpair.subset (List.mem_cons_self ..))

/-! ## One line -/

namespace Token

/-- What stands behind the lexeme in a log line. -/
def logEnd (t : Token) : List Char := '\"' :: (" on line ".toList ++ ((toString t.line).toList ++ ['.']))

theorem toList_logLine (t : Token) : t.logLine.toList =
    "Token [".toList ++ (t.kind.name.toList ++ ']' :: ("\t\t\"".toList ++
      (showLineEnd t.lexeme.toList ++ t.logEnd))) := by
  have hclose : ("]\t\t\"" : String).toList = ']' :: "\t\t\"".toList := rfl
  have hline : ("\" on line " : String).toList = '\"' :: " on line ".toList := rfl
  have hpoint : ("." : String).toList = ['.'] := rfl
  simp only [logLine, logEnd, String.toList_append, String.toList_ofList, hclose, hline, hpoint, List.append_assoc,
    List.cons_append]

/-- The last blank is the one in front of the line number. -/
theorem logEnd_eq (t : Token) :
    t.logEnd = ('\"' :: " on line".toList) ++ ' ' :: ((toString t.line).toList ++ ['.']) := by
  have hblank : " on line ".toList = " on line".toList ++ [' '] := rfl
  rw [logEnd, hblank, List.append_assoc]
  rfl

variable {t u : Token}

/-- The kind is what stands in front of the first bracket that is closed. -/
theorem kind_of_logLine {r r' : List Char} (h : t.logLine.toList ++ r = u.logLine.toList ++ r') : t.kind = u.kind ∧
    showLineEnd t.lexeme.toList ++ (t.logEnd ++ r) = showLineEnd u.lexeme.toList ++ (u.logEnd ++ r') := by
  simp only [toList_logLine, List.append_assoc, List.cons_append] at h
  obtain ⟨hname, hrest⟩ := append_cons_inj t.kind.name_chars.1 u.kind.name_chars.1 (List.append_cancel_left h)
  exact ⟨Kind.name_injective (String.toList_inj.mp hname), List.append_cancel_left hrest⟩

theorem logLine_inj : t.logLine = u.logLine ↔
    t.kind = u.kind ∧ t.line = u.line ∧ showLineEnd t.lexeme.toList = showLineEnd u.lexeme.toList := by
  constructor
  · intro h
    obtain ⟨hkind, hrest⟩ := kind_of_logLine (congrArg (·.toList ++ []) h)
    have hno : ∀ n : Int, ' ' ∉ (toString n).toList ++ ['.'] := by
      intro n hm
      rcases List.mem_append.mp hm with hm | hm
      · exact not_mem_toString_int n (by decide) (by decide) hm
      · cases List.mem_singleton.mp hm
    rw [List.append_nil, List.append_nil, logEnd_eq, logEnd_eq, ← List.append_assoc, ← List.append_assoc] at hrest
    obtain ⟨hlexeme, hline⟩ := cons_append_inj (hno t.line) (hno u.line) hrest
    exact ⟨hkind, toString_int_injective (String.toList_inj.mp (List.append_cancel_right hline)),
      List.append_cancel_right hlexeme⟩
  · rintro ⟨hkind, hline, hlexeme⟩
    rw [logLine, logLine, hkind, hline, hlexeme]

end Token

/-! ## A whole log -/

/-- The line of a scanned token without carriage returns can be read in front of anything. -/
theorem Scanned.logLine_append_inj {t u : Token} (ht : Scanned t) (hu : Scanned u) (hrt : '\r' ∉ t.lexeme.toList)
    (hru : '\r' ∉ u.lexeme.toList) {r r' : List Char} (h : t.logLine.toList ++ r = u.logLine.toList ++ r') :
    t = u ∧ r = r' := by
  obtain ⟨hkind, hrest⟩ := Token.kind_of_logLine h
  rw [showLineEnd_of_not_mem hrt, showLineEnd_of_not_mem hru] at hrest
  simp only [Token.logEnd, List.append_assoc, List.cons_append, List.nil_append] at hrest
  obtain ⟨hlexeme, hrest⟩ := ht.lexeme_inj hu hkind (Or.inl rfl) hrest
  have hpoint : ∀ n : Int, '.' ∉ (toString n).toList := fun n => not_mem_toString_int n (by decide) (by decide)
  obtain ⟨hline, hrest⟩ := append_cons_inj (hpoint t.line) (hpoint u.line) (List.append_cancel_left hrest)
  have hliteral := ht.literal_eq hu hkind hlexeme
  have heq : t = u := by
    cases t
    cases u
    simp only [Token.mk.injEq]
    exact ⟨hkind, hlexeme, hliteral, toString_int_injective (String.toList_inj.mp hline)⟩
  exact ⟨heq, hrest⟩

theorem toList_joinLines (lines : List String) :
    (Command.joinLines lines).toList = lines.flatMap fun l => l.toList ++ ['\n'] := by
  rw [Command.joinLines, String.toList_join, List.flatMap_map]
  exact List.flatMap_congr fun l _ => by rw [String.toList_append]; rfl

/-- What can be read from its line, whatever is on the lines behind it, can be read from all
    lines. -/
theorem eq_of_joinLines_eq {α : Type} {f : α → String} {p : α → Prop}
    (hread : ∀ {a b}, p a → p b → ∀ {r r' : List Char}, (f a).toList ++ '\n' :: r = (f b).toList ++ '\n' :: r' →
      a = b ∧ r = r')
    {as bs : List α} (ha : ∀ a ∈ as, p a) (hb : ∀ b ∈ bs, p b)
    (h : Command.joinLines (as.map f) = Command.joinLines (bs.map f)) : as = bs := by
  have htexts := congrArg String.toList h
  rw [toList_joinLines, toList_joinLines, List.flatMap_map, List.flatMap_map] at htexts
  have hall : List.Forall₂ Eq as bs := by
    refine forall₂_of_flatMap_eq (by simp) ?_ ha hb htexts
    intro a b ha hb r r' h
    rw [List.append_assoc, List.append_assoc] at h
    exact hread ha hb h
  rwa [List.forall₂_eq_eq_eq] at hall

/-- A scan puts nothing into a lexeme but characters of its source. -/
theorem mem_of_mem_lexeme {source : String} {t : Token} (ht : t ∈ (scan source).1.toList) {c : Char}
    (hc : c ∈ t.lexeme.toList) : c ∈ source.toList := by
  rw [(toList_scan source).1, List.mem_append] at ht
  rcases ht with ht | ht
  · obtain ⟨p, hp, line, htoken⟩ := mem_collect ht
    rw [lexeme_token? htoken, String.toList_ofList] at hc
    rw [← flatMap_text_pieces source.toList]
    exact List.mem_flatMap.mpr ⟨p, hp, hc⟩
  · rw [List.mem_singleton.mp ht] at hc
    cases hc

/-- Tokens that can be read line by line can be read from their log. -/
theorem eq_of_log_eq {ts us : List Token} (ht : ∀ t ∈ ts, Scanned t ∧ '\r' ∉ t.lexeme.toList)
    (hu : ∀ u ∈ us, Scanned u ∧ '\r' ∉ u.lexeme.toList)
    (h : Command.joinLines (Command.tokenLines false ts) = Command.joinLines (Command.tokenLines false us)) :
    ts = us := by
  refine eq_of_joinLines_eq ?_ ht hu h
  intro t u ht hu r r' hread
  obtain ⟨htu, hrest⟩ := ht.1.logLine_append_inj hu.1 ht.2 hu.2 hread
  exact ⟨htu, (List.cons.inj hrest).2⟩

/-- The log of the tokens of a text without carriage returns tells the tokens, with their
    literals and lines. One line tells of any token all but what of its first line end is
    a line end and what is letters. -/
theorem log_determines_tokens :
    (∀ a b : String, '\r' ∉ a.toList → '\r' ∉ b.toList →
      Command.joinLines (Command.tokenLines false (scan a).1.toList) =
        Command.joinLines (Command.tokenLines false (scan b).1.toList) → (scan a).1 = (scan b).1) ∧
    ∀ t u : Token, t.logLine = u.logLine ↔
      t.kind = u.kind ∧ t.line = u.line ∧ ∃ l, LineEndShown t.lexeme.toList l ∧ LineEndShown u.lexeme.toList l := by
  constructor
  · intro a b ha hb h
    have hread : ∀ s : String, '\r' ∉ s.toList → ∀ t ∈ (scan s).1.toList, Scanned t ∧ '\r' ∉ t.lexeme.toList := by
      intro s hs t ht
      exact ⟨scanned_of_mem_scan ht, fun hm => hs (mem_of_mem_lexeme ht hm)⟩
    exact Array.toList_inj.mp (eq_of_log_eq (hread a ha) (hread b hb) h)
  · intro t u
    rw [Token.logLine_inj]
    refine and_congr_right fun _ => and_congr_right fun _ => ?_
    simp only [lineEndShown_iff, exists_eq_left]

/-- Texts that differ in blanks alone have one log, and so the same tokens. -/
theorem log_determines_tokens_blanks :
    '\r' ∉ "1 +\t2".toList ∧ '\r' ∉ "1\t\t+ 2".toList ∧ (scan "1 +\t2").1 = (scan "1\t\t+ 2").1 := by
  have ha : '\r' ∉ "1 +\t2".toList := by decide
  have hb : '\r' ∉ "1\t\t+ 2".toList := by decide
  exact ⟨ha, hb, log_determines_tokens.1 _ _ ha hb (by decide +kernel)⟩

end LoxLexer
