/-
  LoxLexer.Table — rows of a type and a value, as aligned lines.

  The first column is as wide as the longest type, and at least as wide as its
  heading. The values follow behind a bar and are never cut or padded, so a line may
  end in a blank. Lengths count characters.

  Rows may come with cells missing (`Draft`). A table is drawn (`draw`) only when every
  type is there and then every value: a missing type is reported before any missing value,
  wherever the two are.
-/

namespace LoxLexer

structure Row where
  type : String
  value : String
  deriving DecidableEq, Repr

namespace Table

/-! ## Lines -/

def width (rows : List Row) : Nat := rows.foldl (fun w r => max w r.type.length) 4

def pad (width : Nat) (s : String) : String :=
  s ++ String.ofList (List.replicate (width - s.length) ' ')

def line (width : Nat) (r : Row) : String := pad width r.type ++ " | " ++ r.value

def heading (width : Nat) : String := line width ⟨"type", "value"⟩

def rule (width : Nat) : String := String.ofList (List.replicate width '-') ++ "-+-" ++ "-----"

def lines (rows : List Row) : List String :=
  heading (width rows) :: rule (width rows) :: rows.map (line (width rows))

/-! ## Rows with missing cells -/

structure Draft where
  type : Option String
  value : Option String
  deriving DecidableEq, Repr

inductive Column where
  | type
  | value
  deriving DecidableEq, Repr

def Column.name : Column → String
  | type => "type"
  | value => "value"

/-- A cell, or the column it is missing from. -/
def cell (c : Column) : Option String → Except Column String
  | some s => .ok s
  | none => .error c

/-- The rows of a table without missing cells, or the column that misses one. -/
def complete (drafts : List Draft) : Except Column (List Row) := do
  let types ← drafts.mapM fun d => cell .type d.type
  let values ← drafts.mapM fun d => cell .value d.value
  return List.zipWith Row.mk types values

/-- The lines of a table, or the column that misses a cell. -/
def draw (drafts : List Draft) : Except Column (List String) := do
  return lines (← complete drafts)

end Table

end LoxLexer
