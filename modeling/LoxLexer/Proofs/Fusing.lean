/-
  LoxLexer.Proofs.Fusing — lexemes written one behind the other, and which of them fuse.

  Lexemes are written one behind the other, each with a gap of blanks behind it that may
  be empty (`Written`, `written`). Some of them are not read as they were written where
  nothing stands between them (`Fused`):
  - a word in front of a word or a number, and a number in front of a number;
  - `!`, `=`, `<` or `>` in front of `=` or `==`, and `/` in front of `/`;
  - a number without a point in front of a point in front of a number.

  Proved:
  - `longest_written_iff`: a lexeme is the longest unit at its place unless it is the
    first of such lexemes. All that decides this is the first character behind it, or
    the first two behind a number.
  - `apart_iff`: lexemes are not fused exactly when each is the longest unit at its place
    (`Apart`).
-/

import LoxLexer.Proofs.Grammar

namespace LoxLexer

open Piece

/-! ## Writing -/

/-- Blanks, or nothing. -/
structure Gap where
  chars : List Char
  blank : ∀ c ∈ chars, Blank c

/-- A lexeme of the grammar, with its kind and the gap behind it. -/
structure Written where
  kind : Kind
  text : List Char
  isUnit : IsUnit text (.token kind)
  gap : Gap

/-- The lexemes with their gaps, one behind the other. -/
def written (ws : List Written) : List Char := ws.flatMap fun w => w.text ++ w.gap.chars

@[simp] theorem written_nil : written [] = [] := rfl

@[simp] theorem written_cons (w : Written) (ws : List Written) :
    written (w :: ws) = w.text ++ (w.gap.chars ++ written ws) := by simp [written]

/-! ## Lexemes that fuse -/

def IsWord (k : Kind) : Prop := k = .identifier ∨ ∃ w : Keyword, k = .keyword w

theorem isWord_ofWord (s : String) : IsWord (Kind.ofWord s) := by
  rcases ofWord_cases s with ⟨k, _, hk⟩ | ⟨_, hk⟩
  · exact Or.inr ⟨k, hk⟩
  · exact Or.inl hk

/-- Lexemes of these kinds are read as something else where nothing stands between them. -/
def Joins (a b : Kind) : Prop :=
  (IsWord a ∧ (IsWord b ∨ b = .number)) ∨ (a = .number ∧ b = .number) ∨
    ((a = .symbol .bang ∨ a = .symbol .equal ∨ a = .symbol .less ∨ a = .symbol .greater) ∧
      (b = .symbol .equal ∨ b = .symbol .equalEqual)) ∨
    (a = .symbol .slash ∧ b = .symbol .slash)

/-- Somewhere lexemes stand without a gap that are not read as they were written. -/
inductive Fused : List Written → Prop
  | pair {a b : Written} {ws : List Written} : a.gap.chars = [] → Joins a.kind b.kind → Fused (a :: b :: ws)
  | fraction {a b c : Written} {ws : List Written} : a.gap.chars = [] → b.gap.chars = [] → a.kind = .number →
      '.' ∉ a.text → b.kind = .symbol .dot → c.kind = .number → Fused (a :: b :: c :: ws)
  | later {a : Written} {ws : List Written} : Fused ws → Fused (a :: ws)

/-- Each lexeme is the longest unit at its place. -/
def Apart : List Written → Prop
  | [] => True
  | w :: ws => Longest (written (w :: ws)) w.text (.token w.kind) ∧ Apart ws

/-! ## How lexemes begin and end -/

/-- What the first character of a lexeme of this kind says about the kind. -/
structure Heads (c : Char) (k : Kind) : Prop where
  not_blank : ¬ Blank c
  digit : c.isDigit = true ↔ k = .number
  word : isWordStart c = true ↔ IsWord k
  equal : c = '=' ↔ k = .symbol .equal ∨ k = .symbol .equalEqual
  slash : c = '/' ↔ k = .symbol .slash
  point : c = '.' ↔ k = .symbol .dot

theorem heads_symbol {s : Symbol} {c : Char} {t : List Char} (h : s.chars = c :: t) : Heads c (.symbol s) := by
  have hc : ¬ Blank c ∧ c.isDigit = false ∧ isWordStart c = false ∧ (c = '=' ↔ s = .equal ∨ s = .equalEqual) ∧
      (c = '/' ↔ s = .slash) ∧ (c = '.' ↔ s = .dot) := by
    rw [blank_iff]
    cases s <;> cases h <;> decide
  obtain ⟨hb, hd, hw, he, hs, hp⟩ := hc
  exact ⟨hb, by simp [hd], by simp [hw, IsWord], by simp [he], by simp [hs], by simp [hp]⟩

theorem heads_string : Heads '\"' .string :=
  ⟨by simp [Blank], by simp, by simp [isWordStart, IsWord], by simp, by simp, by simp⟩

theorem heads_number {c : Char} (h : c.isDigit = true) : Heads c .number := by
  obtain ⟨hb, hs, _⟩ := digit_apart h
  have hw : isWordStart c ≠ true := fun hw => by rw [(wordStart_apart hw).2.2.2] at h; cases h
  have he : c ≠ '=' := fun he => by rw [he] at h; cases h
  have hp : c ≠ '.' := fun hp => by rw [hp] at h; cases h
  exact ⟨by simp [blank_iff, hb], by simp [h], by simp [hw, IsWord], by simp [he], by simp [hs], by simp [hp]⟩

theorem heads_word {c : Char} {k : Kind} (hk : IsWord k) (h : isWordStart c = true) : Heads c k := by
  obtain ⟨hb, hs, _, hd⟩ := wordStart_apart h
  have he : c ≠ '=' := fun he => by rw [he] at h; revert h; decide
  have hp : c ≠ '.' := fun hp => by rw [hp] at h; revert h; decide
  refine ⟨by simp [blank_iff, hb], ?_, iff_of_true h hk, ?_, ?_, ?_⟩ <;>
    rcases hk with hk | ⟨w, hk⟩ <;> simp [hk, hd, he, hs, hp]

namespace Written

theorem begins (w : Written) : ∃ c t, w.text = c :: t ∧ Heads c w.kind := by
  obtain ⟨p, hf, ht, hr⟩ := formed_of_isUnit w.isUnit
  rw [← ht]
  cases p with
  | blank | comment | stray | openString => cases hr
  | symbol s =>
    obtain ⟨c, t, hs⟩ := List.exists_cons_of_ne_nil (symbol_chars_ne_nil s)
    exact ⟨c, t, hs, by rw [← Role.token.inj hr]; exact heads_symbol hs⟩
  | string body => exact ⟨_, _, rfl, by rw [← Role.token.inj hr]; exact heads_string⟩
  | number whole fraction =>
    obtain ⟨c, t, rfl⟩ := List.exists_cons_of_ne_nil hf.1
    exact ⟨c, _, rfl, by rw [← Role.token.inj hr]; exact heads_number (hf.2.1 c (List.mem_cons_self ..))⟩
  | word letters =>
    obtain ⟨c, t, rfl, hc, _⟩ := hf
    exact ⟨c, t, rfl, by rw [← Role.token.inj hr]; exact heads_word (isWord_ofWord _) hc⟩

theorem text_of_symbol {w : Written} {s : Symbol} (h : w.kind = .symbol s) : w.text = s.chars := by
  obtain ⟨p, _, ht, hr⟩ := formed_of_isUnit w.isUnit
  rw [← ht]
  rw [h] at hr
  cases p with
  | symbol s' => cases hr; rfl
  | word letters =>
    have hk := Role.token.inj hr
    rcases ofWord_cases (String.ofList letters) with ⟨k, _, hk'⟩ | ⟨_, hk'⟩ <;> rw [hk'] at hk <;> cases hk
  | _ => cases hr

end Written

/-! ## Lexemes that meet -/

/-- The lexeme directly behind the gap, which is empty, is of such a kind. -/
def Gap.Meets (g : Gap) (P : Kind → Prop) (ws : List Written) : Prop := g.chars = [] ∧ ∃ b bs, ws = b :: bs ∧ P b.kind

/-- The lexemes directly behind the gap, which is empty, are a point and a number. -/
def Gap.MeetsFraction (g : Gap) (ws : List Written) : Prop :=
  g.chars = [] ∧ ∃ b bs, ws = b :: bs ∧ b.kind = .symbol .dot ∧ b.gap.Meets (· = .number) bs

theorem fused_nil : ¬ Fused [] := fun h => by cases h

theorem fused_cons_iff {w : Written} {ws : List Written} :
    Fused (w :: ws) ↔ w.gap.Meets (Joins w.kind) ws ∨ (w.kind = .number ∧ '.' ∉ w.text ∧ w.gap.MeetsFraction ws) ∨
      Fused ws := by
  constructor
  · intro h
    cases h with
    | pair hg hj => exact Or.inl ⟨hg, _, _, rfl, hj⟩
    | fraction hg hg' h1 h2 h3 h4 => exact Or.inr (Or.inl ⟨h1, h2, hg, _, _, rfl, h3, hg', _, _, rfl, h4⟩)
    | later h => exact Or.inr (Or.inr h)
  · intro h
    rcases h with ⟨hg, b, bs, hb, hj⟩ | ⟨h1, h2, hg, b, bs, hb, h3, hg', c, cs, hc, h4⟩ | h
    · rw [hb]; exact .pair hg hj
    · rw [hb, hc]; exact .fraction hg hg' h1 h2 h3 h4
    · exact .later h

/-! ## Where lexemes end -/

/-- If the lexemes that begin with a character of the class `q`, which has no blank in it,
    are those of the kinds `P`, then a text that is written behind a gap begins so exactly
    if the gap meets one of them. -/
theorem clear_behind_iff {q : Char → Bool} {P : Kind → Prop} (hp : ∀ b : Written, Clear q b.text ↔ ¬ P b.kind)
    (hq : ∀ c, Blank c → q c = false) (g : Gap) (ws : List Written) :
    Clear q (g.chars ++ written ws) ↔ ¬ g.Meets P ws := by
  cases hg : g.chars with
  | cons c t =>
    have hc : q c = false := hq c (g.blank c (by rw [hg]; exact List.mem_cons_self ..))
    refine ⟨fun _ h => ?_, fun _ => clear_cons_iff.mpr hc⟩
    rw [h.1] at hg
    cases hg
  | nil =>
    cases ws with
    | nil =>
      refine ⟨fun _ h => ?_, fun _ c h => by cases h⟩
      obtain ⟨_, b, bs, hb, _⟩ := h
      cases hb
    | cons b bs =>
      obtain ⟨c, t, hb, _⟩ := b.begins
      have hclear : Clear q (b.text ++ (b.gap.chars ++ written bs)) ↔ Clear q b.text := by
        rw [hb, List.cons_append, clear_cons_iff, clear_cons_iff]
      rw [List.nil_append, written_cons, hclear, hp]
      constructor
      · intro h hm
        obtain ⟨_, b', bs', he, hk⟩ := hm
        cases he
        exact h hk
      · intro h hk
        exact h ⟨hg, b, bs, rfl, hk⟩

theorem joins_word {a b : Kind} (h : IsWord a) : Joins a b ↔ IsWord b ∨ b = .number := by
  rcases h with rfl | ⟨k, rfl⟩ <;> simp [Joins, IsWord]

theorem joins_number {b : Kind} : Joins .number b ↔ b = .number := by simp [Joins, IsWord]

theorem not_joins_string {b : Kind} : ¬ Joins .string b := by simp [Joins, IsWord]

theorem joins_symbol {s : Symbol} {b : Kind} : Joins (.symbol s) b ↔
    (s.joinsWith = some '=' ∧ (b = .symbol .equal ∨ b = .symbol .equalEqual)) ∨
      (s.joinsWith = some '/' ∧ b = .symbol .slash) := by
  cases s <;> simp [Joins, IsWord, Symbol.joinsWith]

/-! ## Classes of characters and kinds of lexemes -/

theorem clear_digit_iff (b : Written) : Clear Char.isDigit b.text ↔ ¬ b.kind = .number := by
  obtain ⟨c, t, hb, hc⟩ := b.begins
  rw [hb, clear_cons_iff, ← hc.digit, Bool.not_eq_true]

theorem clear_wordChar_iff (b : Written) : Clear isWordChar b.text ↔ ¬ (IsWord b.kind ∨ b.kind = .number) := by
  obtain ⟨c, t, hb, hc⟩ := b.begins
  rw [hb, clear_cons_iff, ← hc.digit, ← hc.word, ← Bool.or_eq_true, Bool.not_eq_true]
  rfl

theorem clear_equal_iff (b : Written) :
    Clear (· == '=') b.text ↔ ¬ (b.kind = .symbol .equal ∨ b.kind = .symbol .equalEqual) := by
  obtain ⟨c, t, hb, hc⟩ := b.begins
  rw [hb, clear_cons_iff, ← hc.equal, beq_eq_false_iff_ne]

theorem clear_slash_iff (b : Written) : Clear (· == '/') b.text ↔ ¬ b.kind = .symbol .slash := by
  obtain ⟨c, t, hb, hc⟩ := b.begins
  rw [hb, clear_cons_iff, ← hc.slash, beq_eq_false_iff_ne]

theorem not_digit_of_blank {c : Char} (h : Blank c) : c.isDigit = false := by
  rcases h with h | h | h | h <;> rw [h] <;> rfl

theorem not_wordChar_of_blank {c : Char} (h : Blank c) : isWordChar c = false := by
  rcases h with h | h | h | h <;> rw [h] <;> decide

theorem ne_of_blank {c d : Char} (hd : ¬ Blank d) (h : Blank c) : (c == d) = false := by
  have : c ≠ d := fun e => hd (e ▸ h)
  simpa using this

/-! ## Each kind of lexeme -/

section Kinds

variable (g : Gap) (ws : List Written)

theorem meets_congr {P Q : Kind → Prop} (h : ∀ k, P k ↔ Q k) : g.Meets P ws ↔ g.Meets Q ws := by
  simp only [Gap.Meets, h]

theorem ends_symbol_iff (s : Symbol) :
    (symbol s).Ends (g.chars ++ written ws) ↔ ¬ g.Meets (Joins (.symbol s)) ws := by
  rw [meets_congr g ws fun k => joins_symbol]
  have hcases : s.joinsWith = none ∨ s.joinsWith = some '=' ∨ s.joinsWith = some '/' := by
    cases s <;> simp [Symbol.joinsWith]
  rcases hcases with h | h | h
  · simp [Ends, h, Gap.Meets]
  · have hq : ∀ c, Blank c → (c == '=') = false := fun c => ne_of_blank (by simp [Blank])
    have hm : Clear (· == '=') (g.chars ++ written ws) ↔
        ¬ g.Meets (fun k => k = .symbol .equal ∨ k = .symbol .equalEqual) ws := clear_behind_iff clear_equal_iff hq g ws
    simpa [Ends, h] using hm
  · have hq : ∀ c, Blank c → (c == '/') = false := fun c => ne_of_blank (by simp [Blank])
    have hm : Clear (· == '/') (g.chars ++ written ws) ↔ ¬ g.Meets (· = .symbol .slash) ws :=
      clear_behind_iff clear_slash_iff hq g ws
    simpa [Ends, h] using hm

theorem ends_word_iff {letters : List Char} {k : Kind} (hk : IsWord k) :
    (word letters).Ends (g.chars ++ written ws) ↔ ¬ g.Meets (Joins k) ws := by
  rw [meets_congr g ws fun _ => joins_word hk]
  exact clear_behind_iff clear_wordChar_iff (fun c => not_wordChar_of_blank) g ws

theorem clear_digit_behind_iff : Clear Char.isDigit (g.chars ++ written ws) ↔ ¬ g.Meets (· = .number) ws :=
  clear_behind_iff clear_digit_iff (fun _ => not_digit_of_blank) g ws

/-- No digit stands behind a point that stands directly behind the gap. -/
theorem point_behind_iff :
    (∀ d t, g.chars ++ written ws = '.' :: d :: t → d.isDigit = false) ↔ ¬ g.MeetsFraction ws := by
  constructor
  · intro h hm
    obtain ⟨hg, b, bs, rfl, hdot, hg', c, cs, rfl, hnumber⟩ := hm
    obtain ⟨d, t, hc, hd⟩ := c.begins
    have hnot := h d (t ++ (c.gap.chars ++ written cs)) (by
      rw [hg, written_cons, Written.text_of_symbol hdot, hg', written_cons, hc]; rfl)
    rw [hd.digit.mpr hnumber] at hnot
    cases hnot
  · intro h d t hr
    cases hg : g.chars with
    | cons c u =>
      have hc : Blank c := g.blank c (by rw [hg]; exact List.mem_cons_self ..)
      rw [hg, List.cons_append] at hr
      rw [(List.cons.inj hr).1] at hc
      simp [Blank] at hc
    | nil =>
      cases ws with
      | nil => rw [hg] at hr; cases hr
      | cons b bs =>
        obtain ⟨c, u, hb, hhead⟩ := b.begins
        rw [hg, List.nil_append, written_cons, hb, List.cons_append] at hr
        obtain ⟨hc, hr⟩ := List.cons.inj hr
        have hdot := hhead.point.mp hc
        have hu : u = [] := by
          rw [Written.text_of_symbol hdot] at hb
          exact (List.cons.inj hb).2.symm
        rw [hu, List.nil_append] at hr
        have hclear := (clear_digit_behind_iff b.gap bs).mpr fun hm => h ⟨hg, b, bs, rfl, hdot, hm⟩
        rw [hr] at hclear
        exact clear_cons_iff.mp hclear

theorem ends_number_iff {whole fraction : List Char} (hf : (number whole fraction).Formed) :
    (number whole fraction).Ends (g.chars ++ written ws) ↔
      ¬ g.Meets (Joins .number) ws ∧ ¬ ('.' ∉ (number whole fraction).text ∧ g.MeetsFraction ws) := by
  rw [meets_congr _ _ fun _ => joins_number]
  cases fraction with
  | nil =>
    have hpoint : '.' ∉ (number whole []).text := by
      rw [text, point, List.append_nil]
      intro hm
      have hd := hf.2.1 _ hm
      cases hd
    rw [Ends, clear_digit_behind_iff, point_behind_iff, and_iff_right hpoint]
  | cons d f =>
    have hpoint : '.' ∈ (number whole (d :: f)).text := by simp [text, point]
    have hno : ¬ ('.' ∉ (number whole (d :: f)).text ∧ g.MeetsFraction ws) := fun h => h.1 hpoint
    rw [Ends, clear_digit_behind_iff, and_iff_left hno]

end Kinds

/-- A lexeme is the longest unit at its place unless it meets one that it joins with. -/
theorem longest_written_iff (w : Written) (ws : List Written) : Longest (written (w :: ws)) w.text (.token w.kind) ↔
    ¬ w.gap.Meets (Joins w.kind) ws ∧ ¬ (w.kind = .number ∧ '.' ∉ w.text ∧ w.gap.MeetsFraction ws) := by
  obtain ⟨p, hf, ht, hr⟩ := formed_of_isUnit w.isUnit
  rw [written_cons, ← ht, ← hr, longest_text_append_iff hf]
  have hno : w.kind ≠ .number → ¬ (w.kind = .number ∧ '.' ∉ p.text ∧ w.gap.MeetsFraction ws) := fun h hm => h hm.1
  cases p with
  | blank | comment | stray | openString => cases hr
  | symbol s =>
    have hk : w.kind = .symbol s := (Role.token.inj hr).symm
    rw [ends_symbol_iff, and_iff_left (hno (by simp [hk])), hk]
  | string body =>
    have hk : w.kind = .string := (Role.token.inj hr).symm
    rw [and_iff_left (hno (by simp [hk])), hk, meets_congr _ _ fun _ => iff_false_intro not_joins_string]
    simp [Ends, Gap.Meets]
  | word letters =>
    have hk : IsWord w.kind := by
      rw [← Role.token.inj hr]
      exact isWord_ofWord _
    have hn : w.kind ≠ .number := by
      rcases hk with hk | ⟨k, hk⟩ <;> rw [hk] <;> simp
    rw [ends_word_iff _ _ hk, and_iff_left (hno hn)]
  | number whole fraction =>
    have hk : w.kind = .number := (Role.token.inj hr).symm
    rw [ends_number_iff _ _ hf, hk, and_iff_right rfl]

/-- Each lexeme is the longest unit at its place exactly if no lexemes are fused. -/
theorem apart_iff (ws : List Written) : Apart ws ↔ ¬ Fused ws := by
  induction ws with
  | nil => exact ⟨fun _ => fused_nil, fun _ => trivial⟩
  | cons w ws ih => rw [Apart, longest_written_iff, ih, fused_cons_iff, not_or, not_or, and_assoc]

end LoxLexer
