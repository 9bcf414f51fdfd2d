/-
  LoxLexer.Proofs.Walk — scanning one character at a time.

  `Scanner.read` takes a piece at once. Here the same is done character by character, by
  operations that can fail (`Fault`): a character is looked up at an index (`charAt`), and
  a text is read as a number (`Binary64.ofNumeral?`). Nothing keeps a look-up inside the
  source but what is asked before it.

  The work is done in loops (`Loop`): one goes from piece to piece, the others go through
  the rest of a comment, of a string, of the digits of a number before and behind the
  point, and of a word. At the head of a loop the scanner asks whether it goes on
  (`goesOn`), and then makes one pass (`pass`) or does what is done behind the loop
  (`leave`). Either comes to the head of a loop, to a report, or to the end (`Turn`).

  Within a piece turns follow each other from head to head (`Leads`), until one of them has
  something to report or comes back to the loop from piece to piece. A walk (`Walk`) is a
  whole scan that is followed in this way, and on behind every report that its sink
  accepts. Both count the passes of all loops together.
-/

import LoxLexer.Proofs.Reading

namespace LoxLexer

/-! ## What can fail -/

inductive Fault where
  /-- A character is looked up where the source has none. -/
  | outside (index : Nat)
  /-- A text is read as a number that is not written as one. -/
  | noNumeral (text : List Char)
  deriving DecidableEq, Repr

/-- The value of digits, or of digits, a point and digits; no other text has one. -/
def Binary64.ofNumeral? (text : List Char) : Option Binary64 :=
  let whole := text.takeWhile Char.isDigit
  match text.dropWhile Char.isDigit with
  | [] => if whole ≠ [] then some (.ofDecimal whole 0) else none
  | '.' :: fraction =>
    if whole ≠ [] ∧ fraction ≠ [] ∧ fraction.all Char.isDigit then
      some (.ofDecimal (whole ++ fraction) fraction.length)
    else none
  | _ => none

inductive Loop where
  | pieces
  | comment
  | string
  | digits
  | fraction
  | word
  deriving DecidableEq, Repr

/-- What a pass, or what is done behind a loop, comes to. -/
inductive Turn where
  | goOn (l : Loop)
  /-- A report, and then the head of the loop from piece to piece. -/
  | report (d : Diagnostic)
  | finished
  deriving DecidableEq, Repr

namespace Scanner

/-! ## One character -/

def charAt (s : Scanner) (i : Nat) : Except Fault Char :=
  match s.source[i]? with
  | some c => .ok c
  | none => .error (.outside i)

/-- Read a character without asking whether there is one. -/
def next (s : Scanner) : Except Fault (Char × Scanner) := do
  let c ← s.charAt s.current
  return (c, s.seek (s.current + 1))

/-- Read a character if there is one and it is `c`. -/
def nextIs (s : Scanner) (c : Char) : Except Fault (Bool × Scanner) := do
  if s.atEnd then return (false, s)
  let d ← s.charAt s.current
  if d = c then return (true, s.seek (s.current + 1))
  return (false, s)

def look (s : Scanner) : Except Fault Char :=
  if s.atEnd then .ok '\x00' else s.charAt s.current

def lookNext (s : Scanner) : Except Fault Char :=
  if s.source.length ≤ s.current + 1 then .ok '\x00' else s.charAt (s.current + 1)

def addNumber (s : Scanner) : Except Fault Scanner :=
  let text := s.slice s.start s.current
  match Binary64.ofNumeral? text with
  | some x => .ok (s.add .number (some (.number x)))
  | none => .error (.noNumeral text)

/-! ## Where a look-up succeeds -/

theorem atEnd_eq (s : Scanner) : s.atEnd = s.rest.isEmpty := by
  rw [Bool.eq_iff_iff]
  simp [atEnd, rest]

theorem charAt_current {s : Scanner} {c : Char} {r : List Char} (h : s.rest = c :: r) :
    s.charAt s.current = .ok c ∧ s.source[s.current]? = some c := by
  have hc : s.source[s.current]? = some c := by
    rw [← List.head?_drop, show s.source.drop s.current = c :: r from h]
    rfl
  exact ⟨by rw [charAt, hc], hc⟩

theorem peek_nil {s : Scanner} (h : s.rest = []) : s.peek = '\x00' := by
  rw [rest, List.drop_eq_nil_iff] at h
  rw [peek, List.getElem?_eq_none h]
  rfl

theorem peek_cons {s : Scanner} {c : Char} {r : List Char} (h : s.rest = c :: r) : s.peek = c := by
  rw [peek, (charAt_current h).2]
  rfl

theorem peekNext_cons {s : Scanner} {c : Char} {r : List Char} (h : s.rest = c :: r) :
    s.peekNext = r.head?.getD '\x00' := by
  have hr : s.source.drop (s.current + 1) = r := by
    rw [← List.drop_drop, show s.source.drop s.current = c :: r from h]
    rfl
  rw [peekNext, ← List.head?_drop, hr]

/-- Looking never fails, in whatever state. -/
theorem look_eq (s : Scanner) : s.look = .ok s.peek := by
  rw [look, peek, atEnd_eq]
  cases h : s.rest with
  | nil =>
    rw [rest, List.drop_eq_nil_iff] at h
    rw [List.getElem?_eq_none h]
    rfl
  | cons c r =>
    obtain ⟨h1, h2⟩ := charAt_current h
    rw [h1, h2]
    rfl

theorem lookNext_eq (s : Scanner) : s.lookNext = .ok s.peekNext := by
  rw [lookNext, peekNext]
  by_cases h : s.source.length ≤ s.current + 1
  · rw [if_pos h, List.getElem?_eq_none h]
    rfl
  · rw [if_neg h, charAt, List.getElem?_eq_getElem (by omega)]
    rfl

theorem nextIs_of_cons {s : Scanner} {c : Char} {r : List Char} (h : s.rest = c :: r) :
    s.nextIs c = .ok (true, s.seek (s.current + 1)) := by
  rw [nextIs, atEnd_eq, h, (charAt_current h).1]
  simp [bind, Except.bind, pure, Except.pure]

theorem nextIs_of_clear {s : Scanner} {c : Char} (h : Clear (· == c) s.rest) : s.nextIs c = .ok (false, s) := by
  rw [nextIs, atEnd_eq]
  cases hr : s.rest with
  | nil => rfl
  | cons d r =>
    rw [hr, clear_cons_iff] at h
    have hd : d ≠ c := by simpa using h
    rw [(charAt_current hr).1]
    simp [bind, Except.bind, pure, Except.pure, hd]

theorem nextIs_eq (s : Scanner) (c : Char) :
    s.nextIs c = .ok ((s.accept (String.singleton c)).2, (s.accept (String.singleton c)).1) := by
  rw [nextIs, accept, atEnd_eq]
  cases h : s.rest with
  | nil =>
    rw [rest, List.drop_eq_nil_iff] at h
    rw [List.getElem?_eq_none h]
    rfl
  | cons d r =>
    obtain ⟨h1, h2⟩ := charAt_current h
    rw [h1, h2]
    by_cases hd : d = c
    · subst hd
      simp [seek, bind, Except.bind, pure, Except.pure]
    · simp [bind, Except.bind, pure, Except.pure, hd, Ne.symm hd]

/-- Reading a character fails only where there is none. -/
theorem next_eq (s : Scanner) : s.next =
    match s.advance? with
    | some r => .ok r
    | none => .error (.outside s.current) := by
  rw [next, advance?, charAt]
  cases s.source[s.current]? <;> rfl

example : (Scanner.fresh []).next = .error (.outside 0) := rfl

theorem next_cons {s : Scanner} {c : Char} {r : List Char} (h : s.rest = c :: r) :
    s.next = .ok (c, s.seek (s.current + 1)) := by
  rw [next, (charAt_current h).1]
  rfl

/-! ## The loops -/

/-- What is done about the first character of a piece when it has been read. -/
def dispatch (s : Scanner) (c : Char) : Except Fault (Scanner × Turn) :=
  match Symbol.single? c with
  | some k => return (s.add (.symbol k) none, .goOn .pieces)
  | none =>
    match Symbol.joining? c with
    | some (joined, alone) => do
      let (b, s) ← s.nextIs '='
      return (s.add (.symbol (if b then joined else alone)) none, .goOn .pieces)
    | none =>
      if c = '/' then do
        let (b, s) ← s.nextIs '/'
        return if b then (s, .goOn .comment) else (s.add (.symbol .slash) none, .goOn .pieces)
      else if c = ' ' ∨ c = '\t' ∨ c = '\r' then return (s, .goOn .pieces)
      else if c = '\n' then return (s.setLine (s.line + 1), .goOn .pieces)
      else if c = '\"' then return (s, .goOn .string)
      else if c.isDigit then return (s, .goOn .digits)
      else if isWordStart c then return (s, .goOn .word)
      else return (s, .report ⟨"Unrecognized character \"" ++ String.singleton c ++ "\"", some s.line⟩)

/-- Whether the loop makes another pass. -/
def goesOn (s : Scanner) : Loop → Except Fault Bool
  | .pieces => return !s.atEnd
  | .comment => return (← s.look) != '\n' && !s.atEnd
  | .string => return (← s.look) != '\"' && !s.atEnd
  | .digits | .fraction => return (← s.look).isDigit
  | .word => return isWordChar (← s.look)

/-- One pass of the loop. -/
def pass (s : Scanner) : Loop → Except Fault (Scanner × Turn)
  | .pieces => do
    let (c, s) ← s.mark.next
    s.dispatch c
  | .string => do
    let s := if (← s.look) = '\n' then s.setLine (s.line + 1) else s
    let (_, s) ← s.next
    return (s, .goOn .string)
  | l => do
    let (_, s) ← s.next
    return (s, .goOn l)

/-- What is done behind the loop. -/
def leave (s : Scanner) : Loop → Except Fault (Scanner × Turn)
  | .pieces => return (s.finish, .finished)
  | .comment => return (s, .goOn .pieces)
  | .string =>
    if s.atEnd then return (s, .report ⟨"Unterminated string literal", some s.line⟩)
    else do
      let (_, s) ← s.next
      let value := String.ofList (s.slice (s.start + 1) (s.current - 1))
      return (s.add .string (some (.text value)), .goOn .pieces)
  | .digits => do
    if (← s.look) = '.' then
      if (← s.lookNext).isDigit then
        let (_, s) ← s.next
        return (s, .goOn .fraction)
    return (← s.addNumber, .goOn .pieces)
  | .fraction => return (← s.addNumber, .goOn .pieces)
  | .word => return (s.add (.ofWord s.lexeme) none, .goOn .pieces)

/-- From the head of the loop to what comes next. -/
def turn (s : Scanner) (l : Loop) : Except Fault (Scanner × Turn) := do
  if ← s.goesOn l then s.pass l else s.leave l

/-- How many passes that is. -/
def passes (s : Scanner) (l : Loop) : Nat :=
  match s.goesOn l with
  | .ok true => 1
  | _ => 0

/-- From the head of the loop `l` in `s`, turns that do not come to the loop from piece to
    piece lead, in `n` passes, to the head of this loop in this state. -/
inductive Leads (l : Loop) (s : Scanner) : Nat → Loop → Scanner → Prop
  | start : Leads l s 0 l s
  | turn {n : Nat} {k k' : Loop} {t u : Scanner} : Leads l s n k t → t.turn k = .ok (u, .goOn k') → k' ≠ .pieces →
      Leads l s (n + t.passes k) k' u

end Scanner

/-! ## Walks -/

section Walk

variable {σ : Type} [Sink σ]

/-- Where a turn leads to, if it does not end the scan: a report must be accepted. -/
inductive Follows (sink : σ) : Turn → Loop → σ → Prop
  | goOn (l : Loop) : Follows sink (.goOn l) l sink
  | report {d : Diagnostic} : (Sink.report sink d).2 = .accepted →
      Follows sink (.report d) .pieces (Sink.report sink d).1

/-- A scan from `s` has come, in `n` passes, to the head of this loop in this state. A
    scan that is done has no loop. -/
inductive Walk (s : Session σ) : Nat → Loop → Session σ → Prop
  | start : s.scanner.done = false → Walk s 0 .pieces s
  | turn {n : Nat} {l l' : Loop} {t : Session σ} {u : Scanner} {next : Turn} {sink : σ} : Walk s n l t →
      t.scanner.turn l = .ok (u, next) → Follows t.sink next l' sink →
      Walk s (n + t.scanner.passes l) l' ⟨u, sink⟩

end Walk

end LoxLexer
