/-
  LoxLexer.Proofs.Comments — a comment written behind a source.

  Two slashes and a text without a line feed, written behind a source, are a comment of
  their own, or go on with the comment that the source ends in (`andComment`). Nothing in
  front of them is cut differently: of all that a piece may look for behind it, a slash is
  wanted only by a slash, and a string that is never closed takes all there is. The comment
  ends before the next line feed, whatever is written in it.

  Proved:
  - `Ends.append_slash`: where a piece also ends before a slash.
  - `Cut.append_comment`: the pieces of a source with a comment behind it, and of what
    follows on the next line.
  - `scan_comment`: a scan adds the same tokens and reports the same as without the
    comment, on the same lines.
-/

import LoxLexer.Proofs.Concatenation

namespace LoxLexer

open Piece

namespace Piece

/-- The last piece of a text, once a comment is written behind it. -/
def andComment (body : List Char) : Piece → List Piece
  | comment c => [comment (c ++ '/' :: '/' :: body)]
  | p => [p, comment body]

/-- The pieces of a text, once a comment is written behind it. -/
def commented (body : List Char) : List Piece → List Piece
  | [] => [comment body]
  | [p] => p.andComment body
  | p :: q :: ps => p :: commented body (q :: ps)

/-! ## In front of a comment -/

theorem ends_slash {p : Piece} (hcomment : ∀ c, p ≠ comment c) (hopen : ∀ c, p ≠ openString c)
    (hslash : p ≠ symbol .slash) (t : List Char) : p.Ends ('/' :: t) := by
  cases p with
  | blank | string | stray => trivial
  | comment c => exact absurd rfl (hcomment c)
  | openString c => exact absurd rfl (hopen c)
  | word letters => exact clear_cons_iff.mpr (by decide)
  | symbol s =>
    intro c hc
    rcases joinsWith_cases hc with rfl | rfl
    · cases s <;> cases hc
      exact absurd rfl hslash
    · exact clear_cons_iff.mpr rfl
  | number whole fraction => exact ends_number (clear_cons_iff.mpr rfl) (clear_cons_iff.mpr rfl)

/-- A piece that is not the last also ends before its rest with a slash behind it. -/
theorem Ends.append_slash {p : Piece} {r : List Char} (h : p.Ends r) (hr : r ≠ []) (t : List Char) :
    p.Ends (r ++ '/' :: t) := by
  obtain ⟨e, r, rfl⟩ := List.exists_cons_of_ne_nil hr
  refine h.transfer (fun c hc => Or.inl hc) (fun w hw d u hu => ?_) (fun body hp => ?_)
  · cases r with
    | nil =>
      cases hu
      exact Or.inl rfl
    | cons e' r =>
      cases hu
      exact Or.inr ⟨r, rfl⟩
  · rw [hp] at h
    exact absurd h hr

section Commented

variable {body rest : List Char} (hbody : '\n' ∉ body) (hrest : Clear (· != '\n') rest)
include hbody hrest

/-- The last piece of a text, if the text leaves no string open and does not end in a slash. -/
theorem Cut.last_comment {p : Piece} (hf : p.Formed) (hopen : ∀ c, p ≠ openString c)
    (hslash : p.text.getLast? ≠ some '/') :
    Cut (p.text ++ '/' :: '/' :: (body ++ rest)) (p.andComment body ++ pieces rest) := by
  by_cases hp : ∃ c, p = comment c
  · obtain ⟨c, rfl⟩ := hp
    have hlong : (comment (c ++ '/' :: '/' :: body)).Formed := by
      intro hm
      rcases List.mem_append.mp hm with hm | hm
      · exact hf hm
      · exact hbody (by simpa using hm)
    have htext : (comment c).text ++ '/' :: '/' :: (body ++ rest) = (comment (c ++ '/' :: '/' :: body)).text ++ rest := by
      simp [text]
    rw [htext]
    exact .cons hlong hrest (cut_pieces rest)
  · have hcomment : ∀ c, p ≠ comment c := fun c hc => hp ⟨c, hc⟩
    have hsymbol : p ≠ symbol .slash := by
      rintro rfl
      exact hslash rfl
    have hand : p.andComment body = [p, comment body] := by
      cases p with
      | comment c => exact absurd rfl (hcomment c)
      | _ => rfl
    rw [hand]
    exact .cons hf (ends_slash hcomment hopen hsymbol _) (.cons (p := comment body) hbody hrest (cut_pieces rest))

theorem Cut.append_comment {s : List Char} {ps : List Piece} (h : Cut s ps)
    (hopen : ∀ p ∈ ps, ∀ c, p ≠ openString c) (hslash : s.getLast? ≠ some '/') :
    Cut (s ++ '/' :: '/' :: (body ++ rest)) (commented body ps ++ pieces rest) := by
  induction h with
  | nil => exact .cons (p := comment body) hbody hrest (cut_pieces rest)
  | @cons p r ps hf he h ih =>
    have hp := hopen p (List.mem_cons_self ..)
    cases ps with
    | nil =>
      cases h
      rw [List.append_nil] at hslash ⊢
      exact Cut.last_comment hbody hrest hf hp hslash
    | cons q ps =>
      have hr : r ≠ [] := by
        obtain ⟨r', rfl, hq, _⟩ := h.uncons
        simp [text_ne_nil hq]
      rw [List.getLast?_append_of_ne_nil _ hr] at hslash
      rw [List.append_assoc]
      exact .cons hf (he.append_slash hr _) (ih (fun q hq => hopen q (List.mem_cons_of_mem _ hq)) hslash)

end Commented

/-! ## What a comment yields -/

/-- A comment yields nothing, so what is gathered is the same without it. -/
theorem collect_commented {α : Type} {f : Int → Piece → Option α} (hf : ∀ line c, f line (comment c) = none)
    (body : List Char) (line : Int) (ps : List Piece) : collect f line (commented body ps) = collect f line ps := by
  induction ps generalizing line with
  | nil => simp [commented, collect, hf]
  | cons p ps ih =>
    cases ps with
    | nil => cases p <;> simp [commented, andComment, collect, hf]
    | cons q ps => rw [commented, collect, ih, ← collect]

theorem lineAfter_commented {body : List Char} (hbody : '\n' ∉ body) (line : Int) (ps : List Piece) :
    lineAfter line (commented body ps) = lineAfter line ps := by
  have hcount : body.count '\n' = 0 := List.count_eq_zero.mpr hbody
  induction ps generalizing line with
  | nil => simp [commented, newlines, text, hcount]
  | cons p ps ih =>
    cases ps with
    | nil => cases p <;> simp [commented, andComment, newlines, text, hcount]
    | cons q ps => rw [commented, lineAfter_cons, ih, ← lineAfter_cons]

/-- A comment and anything behind it, as if the comment were not there. -/
theorem collect_commented_append {α : Type} {f : Int → Piece → Option α} (hf : ∀ line c, f line (comment c) = none)
    {body : List Char} (hbody : '\n' ∉ body) (line : Int) (ps qs : List Piece) :
    collect f line (commented body ps ++ qs) = collect f line (ps ++ qs) := by
  rw [collect_append, collect_append, collect_commented hf, lineAfter_commented hbody]

end Piece

/-! ## Scanning -/

/-- What a scan gives hangs on what the pieces of its source yield. -/
theorem scan_eq_scan {a b : String} {ps qs : List Piece} (ha : pieces a.toList = ps) (hb : pieces b.toList = qs)
    (htokens : tokens 1 ps = tokens 1 qs) (hdiagnostics : diagnostics 1 ps = diagnostics 1 qs)
    (hline : lineAfter 1 ps = lineAfter 1 qs) : scan a = scan b := by
  obtain ⟨hta, hda⟩ := toList_scan a
  obtain ⟨htb, hdb⟩ := toList_scan b
  rw [ha] at hta hda
  rw [hb] at htb hdb
  refine Prod.ext (Array.ext' ?_) (Array.ext' ?_)
  · rw [hta, htb, htokens, hline]
  · rw [hda, hdb, hdiagnostics]

/-- A comment behind a source that leaves no string open and does not end in a slash is
    passed over, with whatever is written in it, at the end as well as in front of a line
    feed and more. -/
theorem scan_comment (a x b : String) (hopen : ∀ d ∈ (scan a).2.toList, d.message ≠ unterminated)
    (hslash : a.toList.getLast? ≠ some '/') (hx : '\n' ∉ x.toList) :
    scan (a ++ "//" ++ x ++ "\n" ++ b) = scan (a ++ "\n" ++ b) ∧ scan (a ++ "//" ++ x) = scan a := by
  rw [(toList_scan a).2] at hopen
  have hno : ∀ p ∈ pieces a.toList, ∀ c, p ≠ openString c := by
    rintro p hp c rfl
    obtain ⟨d, hd, hmsg⟩ := unterminated_of_mem 1 hp
    exact hopen d hd hmsg
  have hcut : ∀ {rest}, Clear (· != '\n') rest →
      pieces (a.toList ++ '/' :: '/' :: (x.toList ++ rest)) = commented x.toList (pieces a.toList) ++ pieces rest :=
    fun hrest => pieces_eq_iff.mpr ((cut_pieces _).append_comment hx hrest hno hslash)
  have hyield : ∀ {rest : List Char} {s t : String}, Clear (· != '\n') rest →
      s.toList = a.toList ++ '/' :: '/' :: (x.toList ++ rest) → pieces t.toList = pieces a.toList ++ pieces rest →
      scan s = scan t := by
    intro rest s t hrest hs ht
    refine scan_eq_scan (by rw [hs, hcut hrest]) ht ?_ ?_ ?_
    · exact collect_commented_append (fun _ _ => rfl) hx 1 _ _
    · exact collect_commented_append (fun _ _ => rfl) hx 1 _ _
    · rw [lineAfter_append, lineAfter_append, lineAfter_commented hx]
  constructor
  · have hfeed : Clear (· != '\n') ('\n' :: b.toList) := clear_cons_iff.mpr rfl
    refine hyield hfeed (by simp) ?_
    have htext : (a ++ "\n" ++ b).toList = a.toList ++ '\n' :: b.toList := by simp
    rw [htext, pieces_append_newline hopen]
    exact congrArg _ (pieces_text_append (p := blank '\n') rfl trivial).symm
  · have hend : Clear (· != '\n') [] := fun c hc => by cases hc
    exact hyield hend (by simp) (by simp)

/-- A number in front of a point, a comment that is gone on with, quotes and a null
    character in it, and behind it a string that is never closed. -/
theorem scan_comment_keeps_quotes_out :
    (∀ d ∈ (scan "@ 1. // \"").2.toList, d.message ≠ unterminated) ∧ ("@ 1. // \"").toList.getLast? ≠ some '/' ∧
      '\n' ∉ "\x00\"//@".toList ∧
      scan ("@ 1. // \"" ++ "//" ++ "\x00\"//@" ++ "\n" ++ "5\"") = scan ("@ 1. // \"" ++ "\n" ++ "5\"") ∧
      scan ("@ 1. // \"" ++ "//" ++ "\x00\"//@") = scan "@ 1. // \"" := by
  have hopen : ∀ d ∈ (scan "@ 1. // \"").2.toList, d.message ≠ unterminated := by decide +kernel
  have hslash : ("@ 1. // \"").toList.getLast? ≠ some '/' := by decide
  have hx : '\n' ∉ "\x00\"//@".toList := by decide
  exact ⟨hopen, hslash, hx, scan_comment _ _ "5\"" hopen hslash hx⟩

end LoxLexer
