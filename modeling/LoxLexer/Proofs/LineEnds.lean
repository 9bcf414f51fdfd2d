/-
  LoxLexer.Proofs.LineEnds — a source with line ends of two characters, and with line ends of one.

  A text is paired if each of its carriage returns has a line feed right behind it
  (`Paired`). Then to make one character of each line end (`joinLineEnds`) is to leave out
  the carriage returns (`dropReturns`), and this can be done piece by piece: a carriage
  return is a blank of its own, or the last character of a comment, or lies inside a
  string. No piece ends elsewhere for it, since what is read behind a piece is now the
  line feed, and no piece takes a line feed that would not take a carriage return.

  Proved:
  - `unifyLineEnds_eq`: to unify line ends is to join them, and then to make a line feed of
    each carriage return that is left.
  - `pieces_dropReturns`: the pieces of a paired text without its carriage returns.
  - `scan_joined`: a scan of a paired source adds the same tokens as one of the source with
    its line ends joined, up to the line ends in them, and reports the same.
-/

import LoxLexer.Proofs.Lookahead
import LoxLexer.Proofs.Reading
import LoxLexer.Text.LineEnd

namespace LoxLexer

open Piece

/-! ## Texts -/

/-- Make a line feed of each carriage return and line feed that stand together. -/
def joinLineEnds : List Char → List Char
  | '\r' :: '\n' :: r => '\n' :: joinLineEnds r
  | c :: r => c :: joinLineEnds r
  | [] => []

/-- The text with its line ends joined. -/
def joined (s : String) : String := String.ofList (joinLineEnds s.toList)

def Literal.joined : Literal → Literal
  | .number x => .number x
  | .text s => .text (LoxLexer.joined s)

/-- The token with the line ends in its lexeme and its text joined. -/
def Token.joined (t : Token) : Token :=
  { t with lexeme := LoxLexer.joined t.lexeme, literal := t.literal.map Literal.joined }

def dropReturns (s : List Char) : List Char := s.filter (· != '\r')

/-- Each carriage return has a line feed right behind it. -/
def Paired (s : List Char) : Prop := ∀ i, s[i]? = some '\r' → s[i + 1]? = some '\n'

instance (s : List Char) : Decidable (Paired s) :=
  decidable_of_iff (∀ i < s.length, s[i]? = some '\r' → s[i + 1]? = some '\n')
    ⟨fun h i hi => h i (List.getElem?_eq_some_iff.mp hi).1 hi, fun h i _ => h i⟩

theorem unifyLineEnds_eq (s : List Char) :
    unifyLineEnds s = (joinLineEnds s).map fun c => if c = '\r' then '\n' else c := by
  fun_induction unifyLineEnds s with
  | case1 r ih => simp [joinLineEnds, ih]
  | case2 r hr ih =>
    rw [joinLineEnds]
    · simp [ih]
    · intro t _ ht
      exact hr t ht
  | case3 c r _ hc ih =>
    have hne : c ≠ '\r' := hc
    rw [joinLineEnds]
    · simp [ih, hne]
    · intro t h _
      exact hne h
  | case4 => rfl

theorem not_mem_unifyLineEnds (s : List Char) : '\r' ∉ unifyLineEnds s := by
  rw [unifyLineEnds_eq]
  intro h
  obtain ⟨c, _, hc⟩ := List.mem_map.mp h
  by_cases hr : c = '\r' <;> simp [hr] at hc

theorem paired_cons_iff {c : Char} {s : List Char} :
    Paired (c :: s) ↔ (c = '\r' → s.head? = some '\n') ∧ Paired s := by
  constructor
  · intro h
    refine ⟨fun hc => ?_, fun i hi => h (i + 1) hi⟩
    have := h 0 (by rw [hc]; rfl)
    rwa [List.getElem?_cons_succ, ← List.head?_eq_getElem?] at this
  · intro h i hi
    cases i with
    | zero =>
      rw [List.getElem?_cons_succ, ← List.head?_eq_getElem?]
      exact h.1 (Option.some.inj hi)
    | succ i => exact h.2 i hi

theorem Paired.of_append {a b : List Char} (h : Paired (a ++ b)) : Paired b := by
  induction a with
  | nil => exact h
  | cons c a ih => exact ih (paired_cons_iff.mp h).2

theorem Paired.append {a b : List Char} (ha : Paired a) (hb : Paired b) : Paired (a ++ b) := by
  induction a with
  | nil => exact hb
  | cons c a ih =>
    obtain ⟨hc, ha⟩ := paired_cons_iff.mp ha
    refine paired_cons_iff.mpr ⟨fun hr => ?_, ih ha⟩
    have hhead : (a ++ b).head? = some '\n' := by rw [List.head?_append, hc hr]; rfl
    exact hhead

/-- What stands in front of a character that is no line feed is paired by itself. -/
theorem Paired.before {w r : List Char} {c : Char} (hc : c ≠ '\n') (h : Paired (w ++ c :: r)) : Paired w := by
  induction w with
  | nil => intro i hi; cases hi
  | cons d w ih =>
    obtain ⟨hd, hw⟩ := paired_cons_iff.mp h
    refine paired_cons_iff.mpr ⟨fun hr => ?_, ih hw⟩
    have hhead := hd hr
    cases w with
    | nil => exact absurd (Option.some.inj hhead) hc
    | cons e w => exact hhead

theorem paired_of_not_mem {s : List Char} (h : '\r' ∉ s) : Paired s := by
  intro i hi
  exact absurd (List.mem_of_getElem? hi) h

theorem dropReturns_of_not_mem {s : List Char} (h : '\r' ∉ s) : dropReturns s = s :=
  List.filter_eq_self.mpr (bne_of_not_mem h)

theorem not_mem_dropReturns (s : List Char) : '\r' ∉ dropReturns s := by
  simp [dropReturns]

theorem count_dropReturns (s : List Char) : (dropReturns s).count '\n' = s.count '\n' :=
  List.count_filter rfl

/-- In a paired text, to join the line ends is to leave out the carriage returns. -/
theorem Paired.joinLineEnds_eq {s : List Char} (h : Paired s) : joinLineEnds s = dropReturns s := by
  fun_induction joinLineEnds s with
  | case1 r ih =>
    rw [ih (paired_cons_iff.mp (paired_cons_iff.mp h).2).2]
    rfl
  | case2 c r hc ih =>
    obtain ⟨hr, hp⟩ := paired_cons_iff.mp h
    have hne : c ≠ '\r' := by
      intro he
      obtain ⟨t, ht⟩ := List.head?_eq_some_iff.mp (hr he)
      exact hc t he ht
    rw [ih hp, dropReturns, dropReturns, List.filter_cons_of_pos (by simpa using hne)]
  | case3 => rfl

theorem joinLineEnds_of_not_mem {s : List Char} (h : '\r' ∉ s) : joinLineEnds s = s :=
  (paired_of_not_mem h).joinLineEnds_eq.trans (dropReturns_of_not_mem h)

theorem Paired.unifyLineEnds_eq {s : List Char} (h : Paired s) : unifyLineEnds s = joinLineEnds s := by
  have hsame : (dropReturns s).map (fun c => if c = '\r' then '\n' else c) = (dropReturns s).map id := by
    refine List.map_congr_left fun c hc => if_neg fun he => ?_
    exact not_mem_dropReturns s (he ▸ hc)
  rw [LoxLexer.unifyLineEnds_eq, h.joinLineEnds_eq, hsame, List.map_id]

/-! ## Pieces -/

namespace Piece

/-- The pieces that are cut where a piece was, once the carriage returns are left out. -/
def unreturned : Piece → List Piece
  | blank c => if c = '\r' then [] else [blank c]
  | comment body => [comment (dropReturns body)]
  | string body => [string (dropReturns body)]
  | openString body => [openString (dropReturns body)]
  | p => [p]

theorem return_not_mem_number {whole fraction : List Char} (hf : (number whole fraction).Formed) :
    '\r' ∉ (number whole fraction).text := by
  intro hm
  rcases chars_number hf _ hm with h | h <;> cases h

theorem return_not_mem_word {letters : List Char} (hf : (word letters).Formed) : '\r' ∉ (word letters).text := by
  obtain ⟨c, r, rfl, hc, hr⟩ := hf
  intro hm
  rcases List.mem_cons.mp hm with rfl | hm
  · revert hc
    decide
  · have := hr _ hm
    revert this
    decide

/-- A carriage return by itself vanishes, and of every other piece there is one with the
    carriage returns left out, which ends wherever the piece does. -/
theorem unreturned_cases {p : Piece} (hf : p.Formed) : p = blank '\r' ∧ p.unreturned = [] ∨
    ∃ q, p.unreturned = [q] ∧ q.Formed ∧ q.text = dropReturns p.text ∧ ∀ r, p.Ends r → q.Ends r := by
  have same : '\r' ∉ p.text → p.unreturned = [p] → ∃ q, p.unreturned = [q] ∧ q.Formed ∧
      q.text = dropReturns p.text ∧ ∀ r, p.Ends r → q.Ends r := by
    intro hm hp
    exact ⟨p, hp, hf, (dropReturns_of_not_mem hm).symm, fun r h => h⟩
  have mem : ∀ {c : Char} {body : List Char}, c ∈ dropReturns body → c ∈ body := List.mem_of_mem_filter
  cases p with
  | blank c =>
    by_cases hc : c = '\r'
    · subst hc
      exact Or.inl ⟨rfl, rfl⟩
    · exact Or.inr (same (by simpa [text] using Ne.symm hc) (by simp [unreturned, hc]))
  | comment body => exact Or.inr ⟨_, rfl, fun hm => hf (mem hm), rfl, fun r h => h⟩
  | string body => exact Or.inr ⟨_, rfl, fun hm => hf (mem hm), by simp [text, dropReturns], fun r h => h⟩
  | openString body => exact Or.inr ⟨_, rfl, fun hm => hf (mem hm), rfl, fun r h => h⟩
  | symbol s => exact Or.inr (same (by cases s <;> simp [text, Symbol.chars]) rfl)
  | number whole fraction => exact Or.inr (same (return_not_mem_number hf) rfl)
  | word letters => exact Or.inr (same (return_not_mem_word hf) rfl)
  | stray c =>
    have hc : c ≠ '\r' := stray_ne_blank hf (by decide)
    exact Or.inr (same (by simpa [text] using hc.symm) rfl)

theorem flatMap_text_unreturned {p : Piece} (hf : p.Formed) : p.unreturned.flatMap text = dropReturns p.text := by
  rcases unreturned_cases hf with ⟨rfl, hp⟩ | ⟨q, hp, _, ht, _⟩
  · rfl
  · rw [hp, List.flatMap_singleton, ht]

/-- A piece that ends before a paired text ends before it without its carriage returns. -/
theorem Ends.dropReturns {p : Piece} {r : List Char} (h : p.Ends r) (hr : Paired r) : p.Ends (dropReturns r) := by
  -- what is read behind the piece is what was, or the line feed behind a carriage return
  have hhead : ∀ {r : List Char}, Paired r → ∀ c t, LoxLexer.dropReturns r = c :: t →
      c = '\n' ∨ ∃ u, r = c :: u ∧ t = LoxLexer.dropReturns u := by
    intro r hr c t ht
    cases r with
    | nil => cases ht
    | cons d u =>
      by_cases hd : d = '\r'
      · obtain ⟨v, rfl⟩ := List.head?_eq_some_iff.mp ((paired_cons_iff.mp hr).1 hd)
        subst hd
        cases ht
        exact Or.inl rfl
      · rw [LoxLexer.dropReturns, List.filter_cons_of_pos (by simpa using hd)] at ht
        obtain ⟨rfl, rfl⟩ := List.cons.inj ht
        exact Or.inr ⟨u, rfl, rfl⟩
  refine h.transfer (fun c hc => ?_) (fun w _ d t ht => ?_) (fun body hp => ?_)
  · obtain ⟨t, ht⟩ := List.head?_eq_some_iff.mp hc
    rcases hhead hr c t ht with hc | ⟨u, rfl, _⟩
    · exact Or.inr (Or.inl hc)
    · exact Or.inl rfl
  · rcases hhead hr '.' (d :: t) ht with hdot | ⟨u, rfl, hu⟩
    · cases hdot
    · rcases hhead (paired_cons_iff.mp hr).2 d t hu.symm with rfl | ⟨v, rfl, _⟩
      · exact Or.inl rfl
      · exact Or.inr ⟨v, rfl⟩
  · rw [hp] at h
    have hnil : r = [] := h
    rw [hnil]
    rfl

/-- A paired text without its carriage returns is cut where the text is. -/
theorem pieces_dropReturns {s : List Char} {ps : List Piece} (h : Cut s ps) (hs : Paired s) :
    pieces (dropReturns s) = ps.flatMap unreturned := by
  induction h with
  | nil => exact pieces_nil
  | @cons p r ps hf he _ ih =>
    have hr : Paired r := hs.of_append
    rw [List.flatMap_cons, ← ih hr, LoxLexer.dropReturns, List.filter_append]
    rcases unreturned_cases hf with ⟨rfl, hp⟩ | ⟨q, hp, hq, ht, hends⟩
    · rw [hp]
      rfl
    · have hcut := pieces_text_append hq (hends _ (he.dropReturns hr))
      rw [ht] at hcut
      rw [hp]
      exact hcut

/-! ## What the text yields -/

/-- The text of a string is paired if the source is. -/
theorem Cut.paired_body {s : List Char} {ps : List Piece} (h : Cut s ps) (hs : Paired s) {body : List Char}
    (hb : string body ∈ ps) : Paired body := by
  induction h with
  | nil => cases hb
  | @cons p r ps _ _ _ ih =>
    rcases List.mem_cons.mp hb with rfl | hb
    · have htext : (string body).text ++ r = ['\"'] ++ (body ++ '\"' :: r) := by simp [text]
      rw [htext] at hs
      exact hs.of_append.before (by decide)
    · exact ih hs.of_append hb

theorem newlines_of_text {p q : Piece} (h : q.text = dropReturns p.text) : q.newlines = p.newlines := by
  rw [newlines, h, count_dropReturns, newlines]

theorem lineAfter_unreturned {p : Piece} (hf : p.Formed) (line : Int) :
    lineAfter line p.unreturned = line + p.newlines := by
  rw [lineAfter, flatMap_text_unreturned hf, count_dropReturns, newlines]

theorem tokens_unreturned {p : Piece} (hf : p.Formed) (hp : ∀ body, p = string body → Paired body) (line : Int) :
    collect token? line p.unreturned = ((p.token? line).map Token.joined).toList := by
  have same : ∀ {kind : Kind} {literal : Option Literal} {n : Int}, '\r' ∉ p.text →
      p.token? line = some ⟨kind, String.ofList p.text, literal, n⟩ → literal.map Literal.joined = literal →
      p.unreturned = [p] → collect token? line p.unreturned = ((p.token? line).map Token.joined).toList := by
    intro kind literal n hm ht hl hu
    rw [hu, collect_singleton, ht]
    simp [Token.joined, LoxLexer.joined, joinLineEnds_of_not_mem hm, hl]
  cases p with
  | blank c => by_cases hc : c = '\r' <;> simp [unreturned, hc, collect, token?, outcome]
  | comment | openString | stray => rfl
  | symbol s => exact same (by cases s <;> simp [text, Symbol.chars]) rfl rfl rfl
  | number whole fraction => exact same (return_not_mem_number hf) rfl rfl rfl
  | word letters => exact same (return_not_mem_word hf) rfl rfl rfl
  | string body =>
    have hbody : Paired body := hp body rfl
    have hquote : Paired ['\"'] := paired_of_not_mem (by decide)
    have hpaired : Paired (string body).text := hquote.append (hbody.append hquote)
    have htext : joinLineEnds (string body).text = (string (dropReturns body)).text := by
      rw [hpaired.joinLineEnds_eq]
      simp [text, dropReturns]
    have hlines : (string (dropReturns body)).newlines = (string body).newlines :=
      newlines_of_text (by simp [text, dropReturns])
    show [_] = [_]
    simp [Token.joined, LoxLexer.joined, Literal.joined, htext, hbody.joinLineEnds_eq, hlines]

theorem diagnostics_unreturned {p : Piece} (line : Int) :
    collect diagnostic? line p.unreturned = (p.diagnostic? line).toList := by
  cases p with
  | blank c => by_cases hc : c = '\r' <;> simp [unreturned, hc, collect, diagnostic?, outcome]
  | openString body =>
    have hlines : (openString (dropReturns body)).newlines = (openString body).newlines :=
      newlines_of_text rfl
    simp [unreturned, collect, diagnostic?, outcome, hlines]
  | _ => rfl

section Dropped

variable {s : List Char} (hs : Paired s) (line : Int)

include hs

theorem tokens_dropReturns :
    tokens line (pieces (dropReturns s)) = (tokens line (pieces s)).map Token.joined := by
  have hcut := cut_pieces s
  have hpiece : ∀ p ∈ pieces s, ∀ line, collect token? line p.unreturned = ((p.token? line).map Token.joined).toList ∧
      lineAfter line p.unreturned = line + p.newlines := by
    intro p hp line
    have hf := hcut.formed p hp
    refine ⟨tokens_unreturned hf (fun body hb => hcut.paired_body hs (hb ▸ hp)) line, lineAfter_unreturned hf line⟩
  rw [pieces_dropReturns hcut hs, tokens, collect_flatMap hpiece, collect_map]

theorem diagnostics_dropReturns : diagnostics line (pieces (dropReturns s)) = diagnostics line (pieces s) := by
  have hcut := cut_pieces s
  have hpiece : ∀ p ∈ pieces s, ∀ line, collect diagnostic? line p.unreturned = (p.diagnostic? line).toList ∧
      lineAfter line p.unreturned = line + p.newlines := by
    intro p hp line
    exact ⟨diagnostics_unreturned line, lineAfter_unreturned (hcut.formed p hp) line⟩
  rw [pieces_dropReturns hcut hs, diagnostics, collect_flatMap hpiece]

end Dropped

theorem lineAfter_dropReturns (line : Int) (s : List Char) :
    lineAfter line (pieces (dropReturns s)) = lineAfter line (pieces s) := by
  rw [lineAfter, lineAfter, flatMap_text_pieces, flatMap_text_pieces, count_dropReturns]

end Piece

/-! ## Scanning -/

/-- A source in which every carriage return stands in front of a line feed has the same
    tokens as the source with its line ends joined, up to the line ends in them, on the
    same lines and with the same reports; and to unify its line ends is to join them. -/
theorem scan_joined (source : String) (h : Paired source.toList) :
    unifyLineEnds source.toList = joinLineEnds source.toList ∧
      (scan (joined source)).1.toList = (scan source).1.toList.map Token.joined ∧
      (scan (joined source)).2 = (scan source).2 := by
  obtain ⟨hts, hds⟩ := toList_scan source
  obtain ⟨ht, hd⟩ := toList_scan (joined source)
  have htext : (joined source).toList = dropReturns source.toList := by
    rw [joined, String.toList_ofList, h.joinLineEnds_eq]
  rw [htext] at ht hd
  refine ⟨h.unifyLineEnds_eq, ?_, ?_⟩
  · rw [ht, hts, tokens_dropReturns h, lineAfter_dropReturns, List.map_append]
    rfl
  · apply Array.ext'
    rw [hd, hds, diagnostics_dropReturns h]

/-- Line ends behind a point, at the end of a comment, inside a string, between two signs,
    and in a string that is never closed. -/
theorem scan_joined_everywhere :
    let source := "1.\r\n5 // x\r\n\"a\r\n\" =\r\n= \"\r\n"
    Paired source.toList ∧ joined source = "1.\n5 // x\n\"a\n\" =\n= \"\n" ∧
      (scan (joined source)).1.toList = (scan source).1.toList.map Token.joined := by
  intro source
  have h : Paired source.toList := by decide +kernel
  exact ⟨h, by decide +kernel, (scan_joined source h).2.1⟩

/-- A carriage return by itself ends no comment, but the line feed that it is unified to does. -/
example : (scan "//\ra").1.size = 1 ∧ (scan (String.ofList (unifyLineEnds "//\ra".toList))).1.size = 2 := by
  decide +kernel

end LoxLexer
