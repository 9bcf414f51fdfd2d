/-
  LoxLexer.Token.Kind — the vocabulary of Lox.

  A token is a symbol, a keyword, an identifier, a string, a number, or the end of
  the input (`Kind`). Symbols and keywords are spelled in one way only
  (`Symbol.text`, `Keyword.text`); `Keyword.ofText?` reads a keyword back and is
  exact: no other text, and no other case of a letter, is a keyword.

  Every kind has a name (`Kind.name`) and a number, counted from 1 in the order of
  `Kind.all`; both read back (`Kind.ofName?`, `Kind.ofNumber?`), and nothing else is a name
  or a number (`Kind.ofName?_eq_some_iff`, `Kind.ofNumber?_eq_some_iff`).
-/

namespace LoxLexer

inductive Symbol where
  | leftParen
  | rightParen
  | leftBrace
  | rightBrace
  | comma
  | dot
  | minus
  | plus
  | semicolon
  | slash
  | star
  | bang
  | bangEqual
  | equal
  | equalEqual
  | greater
  | greaterEqual
  | less
  | lessEqual
  deriving DecidableEq, Repr

inductive Keyword where
  | kwAnd
  | kwClass
  | kwElse
  | kwFalse
  | kwFun
  | kwFor
  | kwIf
  | kwNil
  | kwOr
  | kwPrint
  | kwReturn
  | kwSuper
  | kwThis
  | kwTrue
  | kwVar
  | kwWhile
  deriving DecidableEq, Repr

inductive Kind where
  | symbol (s : Symbol)
  | identifier
  | string
  | number
  | keyword (k : Keyword)
  | eof
  deriving DecidableEq, Repr

/-! ## Spelling -/

def Symbol.chars : Symbol → List Char
  | leftParen => ['(']
  | rightParen => [')']
  | leftBrace => ['\x7b']
  | rightBrace => ['\x7d']
  | comma => [',']
  | dot => ['.']
  | minus => ['-']
  | plus => ['+']
  | semicolon => [';']
  | slash => ['/']
  | star => ['*']
  | bang => ['!']
  | bangEqual => ['!', '=']
  | equal => ['=']
  | equalEqual => ['=', '=']
  | greater => ['>']
  | greaterEqual => ['>', '=']
  | less => ['<']
  | lessEqual => ['<', '=']

def Symbol.text (s : Symbol) : String := String.ofList s.chars

def Keyword.text : Keyword → String
  | kwAnd => "and"
  | kwClass => "class"
  | kwElse => "else"
  | kwFalse => "false"
  | kwFun => "fun"
  | kwFor => "for"
  | kwIf => "if"
  | kwNil => "nil"
  | kwOr => "or"
  | kwPrint => "print"
  | kwReturn => "return"
  | kwSuper => "super"
  | kwThis => "this"
  | kwTrue => "true"
  | kwVar => "var"
  | kwWhile => "while"

/-! ## Order -/

def Symbol.all : List Symbol :=
  [leftParen, rightParen, leftBrace, rightBrace, comma, dot, minus, plus, semicolon, slash, star,
   bang, bangEqual, equal, equalEqual, greater, greaterEqual, less, lessEqual]

def Keyword.all : List Keyword :=
  [kwAnd, kwClass, kwElse, kwFalse, kwFun, kwFor, kwIf, kwNil, kwOr, kwPrint, kwReturn, kwSuper,
   kwThis, kwTrue, kwVar, kwWhile]

def Kind.all : List Kind :=
  Symbol.all.map .symbol ++ [.identifier, .string, .number] ++ Keyword.all.map .keyword ++ [.eof]

def Keyword.ofText? (s : String) : Option Keyword := Keyword.all.find? (·.text == s)

/-- The keywords in the order of their spelling. -/
def Keyword.sorted : List Keyword := Keyword.all.mergeSort fun a b => decide (a.text ≤ b.text)

theorem Keyword.sorted_perm : Keyword.sorted.Perm Keyword.all := List.mergeSort_perm _ _

theorem Keyword.pairwise_sorted : Keyword.sorted.Pairwise (·.text ≤ ·.text) := by
  have htrans (a b c : Keyword) (hab : decide (a.text ≤ b.text) = true) (hbc : decide (b.text ≤ c.text) = true) :
      decide (a.text ≤ c.text) = true :=
    decide_eq_true (String.le_trans (of_decide_eq_true hab) (of_decide_eq_true hbc))
  have htotal (a b : Keyword) : (decide (a.text ≤ b.text) || decide (b.text ≤ a.text)) = true := by
    simpa using String.le_total a.text b.text
  exact (List.pairwise_mergeSort htrans htotal all).imp of_decide_eq_true

/-- What a whole word is: a keyword if it is spelled like one, else an identifier. -/
def Kind.ofWord (s : String) : Kind :=
  match Keyword.ofText? s with
  | some k => .keyword k
  | none => .identifier

/-! ## Names and numbers -/

def Symbol.name : Symbol → String
  | leftParen => "LEFT_PAREN"
  | rightParen => "RIGHT_PAREN"
  | leftBrace => "LEFT_BRACE"
  | rightBrace => "RIGHT_BRACE"
  | comma => "COMMA"
  | dot => "DOT"
  | minus => "MINUS"
  | plus => "PLUS"
  | semicolon => "SEMICOLON"
  | slash => "SLASH"
  | star => "STAR"
  | bang => "BANG"
  | bangEqual => "BANG_EQUAL"
  | equal => "EQUAL"
  | equalEqual => "EQUAL_EQUAL"
  | greater => "GREATER"
  | greaterEqual => "GREATER_EQUAL"
  | less => "LESS"
  | lessEqual => "LESS_EQUAL"

def Keyword.name : Keyword → String
  | kwAnd => "AND"
  | kwClass => "CLASS"
  | kwElse => "ELSE"
  | kwFalse => "FALSE"
  | kwFun => "FUN"
  | kwFor => "FOR"
  | kwIf => "IF"
  | kwNil => "NIL"
  | kwOr => "OR"
  | kwPrint => "PRINT"
  | kwReturn => "RETURN"
  | kwSuper => "SUPER"
  | kwThis => "THIS"
  | kwTrue => "TRUE"
  | kwVar => "VAR"
  | kwWhile => "WHILE"

def Kind.name : Kind → String
  | symbol s => s.name
  | identifier => "IDENTIFIER"
  | string => "STRING"
  | number => "NUMBER"
  | keyword k => k.name
  | eof => "EOF"

def Kind.ofName? (n : String) : Option Kind := Kind.all.find? (·.name == n)

/-- The place of a kind in `Kind.all`, counted from 1. -/
def Kind.toNumber (k : Kind) : Nat := Kind.all.idxOf k + 1

def Kind.ofNumber? : Int → Option Kind
  | .ofNat (n + 1) => Kind.all[n]?
  | _ => none

/-! ## Reading back -/

theorem Keyword.mem_all (k : Keyword) : k ∈ Keyword.all := by cases k <;> decide

theorem Symbol.mem_all (s : Symbol) : s ∈ Symbol.all := by cases s <;> decide

theorem Kind.mem_all (k : Kind) : k ∈ Kind.all := by
  cases k with
  | symbol s => simp [Kind.all, Symbol.mem_all]
  | keyword k => simp [Kind.all, Keyword.mem_all]
  | _ => simp [Kind.all]

namespace Kind

theorem ofName?_name (k : Kind) : ofName? k.name = some k := by
  have h : ∀ k ∈ all, ofName? k.name = some k := by decide +kernel
  exact h k k.mem_all

theorem ofName?_eq_some_iff {n : String} {k : Kind} : ofName? n = some k ↔ k.name = n := by
  constructor
  · intro h
    rw [ofName?] at h
    have hname := List.find?_some h
    exact eq_of_beq hname
  · rintro rfl
    exact ofName?_name k

theorem getElem?_toNumber (k : Kind) : all[k.toNumber - 1]? = some k := by
  have h : all.idxOf k < all.length := List.idxOf_lt_length_of_mem k.mem_all
  rw [toNumber, Nat.add_sub_cancel, List.getElem?_eq_getElem h, List.getElem_idxOf]

theorem ofNumber?_toNumber (k : Kind) : ofNumber? k.toNumber = some k := k.getElem?_toNumber

theorem ofNumber?_eq_some_iff {n : Int} {k : Kind} : ofNumber? n = some k ↔ (k.toNumber : Int) = n := by
  constructor
  · intro h
    unfold ofNumber? at h
    split at h
    · rename_i m
      have hm : m < all.length := (List.getElem?_eq_some_iff.mp h).1
      have hnodup : all.Nodup := by decide +kernel
      have hplace : m = k.toNumber - 1 := (List.getElem?_inj hm hnodup).mp (h.trans k.getElem?_toNumber.symm)
      have hpos : 0 < k.toNumber := Nat.succ_pos _
      show (k.toNumber : Int) = ((m + 1 : Nat) : Int)
      omega
    · cases h
  · rintro rfl
    exact k.ofNumber?_toNumber

end Kind

end LoxLexer
