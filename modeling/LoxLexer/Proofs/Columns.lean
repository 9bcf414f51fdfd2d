/-
  LoxLexer.Proofs.Columns — the columns of a table, read back from its lines.

  The first column is as wide as it must be and no wider (`width_le_iff`), so every type
  fits into it and the bar stands at one place in all lines. That place is read off the
  rule, and then it does not matter what the cells contain: a row is cut at the bar's
  place, not at something that looks like a bar (`readBack`). Only the blanks at the end of
  a type cannot be told from those that fill up the column.

  Rows with missing cells are looked through twice, for types and then for values, so a
  missing type anywhere is reported before any missing value.

  Proved:
  - `readBack_lines`: every row is read back, its type up to blanks at the end.
  - `lines_eq_iff`: which rows have the same table.
  - `draw_eq_ok_iff`, `draw_eq_type_iff`, `draw_eq_value_iff`: what comes of rows with
    missing cells.
  - `table_lossless`: all of it together.
-/

import LoxLexer.Proofs.TableReading
import Mathlib.Data.List.DropRight
import Mathlib.Order.Bounds.Defs

namespace LoxLexer

/-- A text without the blanks at its end. -/
def trimmed (s : String) : String := String.ofList (s.toList.rdropWhile (· == ' '))

/-- The row, its type without the blanks at the end. -/
def Row.trimmed (r : Row) : Row := ⟨LoxLexer.trimmed r.type, r.value⟩

/-- A row with no cell missing. -/
def Row.draft (r : Row) : Table.Draft := ⟨some r.type, some r.value⟩

namespace Table

/-! ## Reading lines -/

/-- Whether these characters stand at this place of a line. -/
def HasAt (n : ℕ) (bar line : String) : Prop := (line.toList.drop n).take bar.length = bar.toList

/-- Where the bars of a table stand, by its rule. -/
def barPlace (rule : String) : ℕ := rule.length - "-+------".length

/-- The cells of a line, if its bar stands at this place. -/
def readRow (n : ℕ) (line : String) : Row :=
  ⟨trimmed (String.ofList (line.toList.take n)), String.ofList (line.toList.drop (n + " | ".length))⟩

/-- The rows of a table, by its lines alone. -/
def readBack : List String → List Row
  | _ :: rule :: body => body.map (readRow (barPlace rule))
  | _ => []

/-! ## The width of the first column -/

theorem foldl_max_le_iff (rows : List Row) (k n : ℕ) :
    rows.foldl (fun w r => max w r.type.length) k ≤ n ↔ k ≤ n ∧ ∀ r ∈ rows, r.type.length ≤ n := by
  induction rows generalizing k with
  | nil => simp
  | cons r rows ih => rw [List.foldl_cons, ih, List.forall_mem_cons, max_le_iff, and_assoc]

theorem width_le_iff {rows : List Row} {n : ℕ} : width rows ≤ n ↔ 4 ≤ n ∧ ∀ r ∈ rows, r.type.length ≤ n :=
  foldl_max_le_iff rows 4 n

theorem four_le_width (rows : List Row) : 4 ≤ width rows := (width_le_iff.mp (Nat.le_refl _)).1

theorem length_type_le_width {rows : List Row} {r : Row} (h : r ∈ rows) : r.type.length ≤ width rows :=
  (width_le_iff.mp (Nat.le_refl _)).2 r h

/-! ## Filling up -/

theorem rdropWhile_append_replicate (s : List Char) (n : ℕ) :
    (s ++ List.replicate n ' ').rdropWhile (· == ' ') = s.rdropWhile (· == ' ') := by
  induction n with
  | zero => rw [List.replicate_zero, List.append_nil]
  | succ n ih => rw [List.replicate_succ', ← List.append_assoc, List.rdropWhile_concat_pos _ _ _ rfl, ih]

theorem toList_pad (w : ℕ) (s : String) : (pad w s).toList = s.toList ++ List.replicate (w - s.length) ' ' := by
  rw [pad, String.toList_append, String.toList_ofList]

theorem length_pad {w : ℕ} {s : String} (h : s.length ≤ w) : (pad w s).toList.length = w := by
  rw [toList_pad, List.length_append, List.length_replicate, String.length_toList]
  omega

theorem trimmed_pad (w : ℕ) (s : String) : trimmed (pad w s) = trimmed s := by
  rw [trimmed, toList_pad, rdropWhile_append_replicate, trimmed]

/-- What is filled up may as well have lost its blanks at the end. -/
theorem pad_trimmed {w : ℕ} {s : String} (h : s.length ≤ w) : pad w (trimmed s) = pad w s := by
  have hblank : ∀ c ∈ s.toList.rtakeWhile (· == ' '), c = ' ' := fun c hc =>
    eq_of_beq (List.mem_rtakeWhile_imp (p := (· == ' ')) hc)
  have hsplit := List.rdropWhile_append_rtakeWhile (p := (· == ' ')) (l := s.toList)
  rw [List.eq_replicate_of_mem hblank] at hsplit
  generalize (s.toList.rtakeWhile (· == ' ')).length = n at hsplit
  have hlength := congrArg List.length hsplit
  rw [List.length_append, List.length_replicate, String.length_toList] at hlength
  have hcount : w - (s.toList.rdropWhile (· == ' ')).length = n + (w - s.length) := by omega
  rw [← String.toList_inj, toList_pad, toList_pad, trimmed, String.toList_ofList, String.length_ofList, hcount,
    ← List.replicate_append_replicate, ← List.append_assoc, hsplit]

/-! ## One line -/

section Line

variable {w : ℕ} {r : Row}

theorem toList_line_pad (w : ℕ) (r : Row) :
    (line w r).toList = (pad w r.type).toList ++ (" | ".toList ++ r.value.toList) := by
  rw [line, String.toList_append, String.toList_append, List.append_assoc]

theorem hasAt_line (h : r.type.length ≤ w) : HasAt w " | " (line w r) := by
  rw [HasAt, toList_line_pad, List.drop_left' (length_pad h)]
  exact List.take_left' rfl

theorem hasAt_rule (w : ℕ) : HasAt w "-+-" (rule w) := by
  rw [HasAt, toList_rule, List.drop_left' List.length_replicate]
  rfl

theorem barPlace_rule (w : ℕ) : barPlace (rule w) = w := by
  rw [barPlace, ← String.length_toList, toList_rule, List.length_append, List.length_replicate, String.length_toList,
    Nat.add_sub_cancel]

theorem readRow_line (h : r.type.length ≤ w) : readRow w (line w r) = r.trimmed := by
  have htype : (line w r).toList.take w = (pad w r.type).toList := by
    rw [toList_line_pad, List.take_left' (length_pad h)]
  have hvalue : (line w r).toList.drop (w + " | ".length) = r.value.toList := by
    rw [← List.drop_drop, toList_line_pad, List.drop_left' (length_pad h)]
    exact List.drop_left' rfl
  rw [readRow, htype, hvalue, String.ofList_toList, String.ofList_toList, trimmed_pad, Row.trimmed]

theorem line_trimmed (h : r.type.length ≤ w) : line w r.trimmed = line w r := by
  rw [line, Row.trimmed, pad_trimmed h, line]

end Line

/-! ## All lines -/

/-- Every row is read back from the lines, its type up to blanks at the end. -/
theorem readBack_lines (rows : List Row) : readBack (lines rows) = rows.map Row.trimmed := by
  rw [lines, readBack, barPlace_rule, List.map_map]
  exact List.map_congr_left fun r hr => readRow_line (length_type_le_width hr)

/-- Rows have the same table if the column is as wide and they differ only in blanks at the
    end of their types, and only then. -/
theorem lines_eq_iff {rows rows' : List Row} : lines rows = lines rows' ↔
    width rows = width rows' ∧ rows.map Row.trimmed = rows'.map Row.trimmed := by
  constructor
  · intro h
    have hrule := congrArg (fun ls => (ls.drop 1).head?.map barPlace) h
    simp only [lines, List.drop_one, List.tail_cons, List.head?_cons, Option.map_some, barPlace_rule,
      Option.some.injEq] at hrule
    exact ⟨hrule, by rw [← readBack_lines, ← readBack_lines, h]⟩
  · rintro ⟨hwidth, hrows⟩
    have hbody : ∀ rows : List Row, rows.map (line (width rows)) = (rows.map Row.trimmed).map (line (width rows)) := by
      intro rows
      rw [List.map_map]
      exact List.map_congr_left fun r hr => (line_trimmed (length_type_le_width hr)).symm
    rw [lines, lines, hbody rows, hbody rows', hwidth, hrows]

/-! ## Rows with missing cells -/

/-- The cells of one column are all there, or the column misses one. -/
theorem mapM_cell (c : Column) (f : Draft → Option String) (drafts : List Draft) :
    (∃ ss, drafts.mapM (fun d => cell c (f d)) = .ok ss ∧ drafts.map f = ss.map some) ∨
      drafts.mapM (fun d => cell c (f d)) = .error c ∧ ∃ d ∈ drafts, f d = none := by
  induction drafts with
  | nil => exact Or.inl ⟨[], rfl, rfl⟩
  | cons d drafts ih =>
    rw [List.mapM_cons, List.exists_mem_cons_iff, List.map_cons]
    cases hd : f d with
    | none => exact Or.inr ⟨rfl, Or.inl rfl⟩
    | some s =>
      rcases ih with ⟨ss, hss, hmap⟩ | ⟨herror, hmissing⟩
      · rw [hss, hmap]
        exact Or.inl ⟨s :: ss, rfl, rfl⟩
      · rw [herror]
        exact Or.inr ⟨rfl, Or.inr hmissing⟩

theorem eq_map_draft {drafts : List Draft} {types values : List String} (ht : drafts.map Draft.type = types.map some)
    (hv : drafts.map Draft.value = values.map some) : drafts = (List.zipWith Row.mk types values).map Row.draft := by
  induction drafts generalizing types values with
  | nil =>
    cases types with
    | nil => rfl
    | cons t types => cases ht
  | cons d drafts ih =>
    cases types with
    | nil => cases ht
    | cons t types =>
      cases values with
      | nil => cases hv
      | cons v values =>
        obtain ⟨htype, ht⟩ := List.cons.inj ht
        obtain ⟨hvalue, hv⟩ := List.cons.inj hv
        rw [List.zipWith_cons_cons, List.map_cons, ← ih ht hv, Row.draft, ← htype, ← hvalue]

/-- What comes of rows with missing cells: the lines of the rows, if there are none, and
    else the first of the two columns that misses one. -/
theorem draw_cases (drafts : List Draft) :
    (∃ rows, draw drafts = .ok (lines rows) ∧ drafts = rows.map Row.draft) ∨
      (draw drafts = .error .type ∧ ∃ d ∈ drafts, d.type = none) ∨
      draw drafts = .error .value ∧ (∀ d ∈ drafts, d.type ≠ none) ∧ ∃ d ∈ drafts, d.value = none := by
  unfold draw complete
  rcases mapM_cell .type Draft.type drafts with ⟨types, htypes, ht⟩ | ⟨herror, hmissing⟩
  · have hall : ∀ d ∈ drafts, d.type ≠ none := by
      intro d hd hnone
      have hm : none ∈ drafts.map Draft.type := hnone ▸ List.mem_map_of_mem hd
      rw [ht] at hm
      simp at hm
    rw [htypes]
    rcases mapM_cell .value Draft.value drafts with ⟨values, hvalues, hv⟩ | ⟨herror, hmissing⟩
    · rw [hvalues]
      exact Or.inl ⟨_, rfl, eq_map_draft ht hv⟩
    · rw [herror]
      exact Or.inr (Or.inr ⟨rfl, hall, hmissing⟩)
  · rw [herror]
    exact Or.inr (Or.inl ⟨rfl, hmissing⟩)

theorem draft_cells (rows : List Row) : ∀ d ∈ rows.map Row.draft, d.type ≠ none ∧ d.value ≠ none := by
  intro d hd
  obtain ⟨r, -, rfl⟩ := List.mem_map.mp hd
  simp [Row.draft]

section Draw

variable {drafts : List Draft}

theorem draw_eq_type_iff : draw drafts = .error .type ↔ ∃ d ∈ drafts, d.type = none := by
  rcases draw_cases drafts with ⟨rows, hok, rfl⟩ | ⟨herror, h⟩ | ⟨herror, hall, -⟩
  · rw [hok]
    refine iff_of_false (by simp) ?_
    rintro ⟨d, hd, hnone⟩
    exact (draft_cells rows d hd).1 hnone
  · exact iff_of_true herror h
  · rw [herror]
    refine iff_of_false (by simp) ?_
    rintro ⟨d, hd, hnone⟩
    exact hall d hd hnone

theorem draw_eq_value_iff :
    draw drafts = .error .value ↔ (∀ d ∈ drafts, d.type ≠ none) ∧ ∃ d ∈ drafts, d.value = none := by
  rcases draw_cases drafts with ⟨rows, hok, rfl⟩ | ⟨herror, d, hd, hnone⟩ | ⟨herror, h⟩
  · rw [hok]
    refine iff_of_false (by simp) ?_
    rintro ⟨-, d, hd, hnone⟩
    exact (draft_cells rows d hd).2 hnone
  · rw [herror]
    exact iff_of_false (by simp) fun h => h.1 d hd hnone
  · exact iff_of_true herror h

theorem draw_eq_ok_iff : (∃ rows, draw drafts = .ok (lines rows) ∧ drafts = rows.map Row.draft) ↔
    ∀ d ∈ drafts, d.type ≠ none ∧ d.value ≠ none := by
  rcases draw_cases drafts with h | ⟨herror, d, hd, hnone⟩ | ⟨herror, -, d, hd, hnone⟩
  · refine iff_of_true h ?_
    obtain ⟨rows, -, rfl⟩ := h
    exact draft_cells rows
  · rw [herror]
    exact iff_of_false (by simp) fun h => (h d hd).1 hnone
  · rw [herror]
    exact iff_of_false (by simp) fun h => (h d hd).2 hnone

end Draw

/-- The bars of all lines stand at one place, as far to the left as the longest type and the
    heading allow; the lines tell every value, and every type but for the blanks at its end;
    and of rows with missing cells, a missing type is reported first, then a missing value,
    and if no cell is missing the rows are drawn. -/
theorem table_lossless (rows : List Row) :
    IsLeast {n | 4 ≤ n ∧ ∀ r ∈ rows, r.type.length ≤ n} (width rows) ∧
      (∃ heading rule body, lines rows = heading :: rule :: body ∧ body.length = rows.length ∧
        HasAt (width rows) "-+-" rule ∧ ∀ l ∈ heading :: body, HasAt (width rows) " | " l) ∧
      readBack (lines rows) = rows.map Row.trimmed ∧
      (∀ rows', lines rows = lines rows' ↔ width rows = width rows' ∧
        List.Forall₂ (fun r s => r.value = s.value ∧ trimmed r.type = trimmed s.type) rows rows') ∧
      ∀ drafts : List Draft,
        (draw drafts = .error .type ↔ ∃ d ∈ drafts, d.type = none) ∧
        (draw drafts = .error .value ↔ (∀ d ∈ drafts, d.type ≠ none) ∧ ∃ d ∈ drafts, d.value = none) ∧
        ((∃ rows, draw drafts = .ok (lines rows) ∧ drafts = rows.map Row.draft) ↔
          ∀ d ∈ drafts, d.type ≠ none ∧ d.value ≠ none) := by
  refine ⟨⟨width_le_iff.mp (Nat.le_refl _), fun n hn => width_le_iff.mpr hn⟩, ⟨_, _, _, rfl, List.length_map _,
    hasAt_rule _, ?_⟩, readBack_lines rows, fun rows' => ?_,
    fun drafts => ⟨draw_eq_type_iff, draw_eq_value_iff, draw_eq_ok_iff⟩⟩
  · rw [List.forall_mem_cons, List.forall_mem_map]
    exact ⟨hasAt_line (four_le_width rows), fun r hr => hasAt_line (length_type_le_width hr)⟩
  · have hsame : ∀ r s : Row, r.trimmed = s.trimmed ↔ r.value = s.value ∧ trimmed r.type = trimmed s.type := by
      intro r s
      rw [Row.trimmed, Row.trimmed, Row.mk.injEq, and_comm]
    rw [lines_eq_iff, ← List.forall₂_eq_eq_eq, List.forall₂_map_left_iff, List.forall₂_map_right_iff]
    simp only [hsame]

/-- A type with a bar in it and one with blanks at its end, and a value of two lines that
    looks like a row of its own. -/
example : readBack (lines [⟨"a | b", "c\nd | e"⟩, ⟨"x  ", " | y"⟩]) = [⟨"a | b", "c\nd | e"⟩, ⟨"x", " | y"⟩] := by decide

end Table

end LoxLexer
