/-
  LoxLexer.Text.Utf8 — reading UTF-8.

  The first byte of a character fixes how many bytes follow it, and which values each
  of them may have (`lead?`): a following byte is 80 to BF, but the second byte of a
  character is held to less where the character could be written shorter, would be a
  surrogate, or would lie above 10FFFF. Nothing else is accepted.

  Reading stops at the first place that cannot be read (`Fault`). The fault holds the
  bytes of the character as far as they were good, or the one byte that begins no
  character, and where they stand in the input. A byte order mark is a character like
  any other.
-/

namespace LoxLexer

namespace Utf8

/-! ## Bytes of one character -/

/-- The least and the greatest value that a byte may have. -/
structure Range where
  low : Nat
  high : Nat
  deriving DecidableEq, Repr

def tail : Range := ⟨0x80, 0xBF⟩

/-- What the first byte of a character adds to its code point, and the bytes that follow. -/
def lead? (b : Nat) : Option (Nat × List Range) :=
  if b < 0x80 then some (b, [])
  else if b < 0xC2 then none
  else if b < 0xE0 then some (b - 0xC0, [tail])
  else if b = 0xE0 then some (0, [⟨0xA0, 0xBF⟩, tail])
  else if b = 0xED then some (0xD, [⟨0x80, 0x9F⟩, tail])
  else if b < 0xF0 then some (b - 0xE0, [tail, tail])
  else if b = 0xF0 then some (0, [⟨0x90, 0xBF⟩, tail, tail])
  else if b < 0xF4 then some (b - 0xF0, [tail, tail, tail])
  else if b = 0xF4 then some (4, [⟨0x80, 0x8F⟩, tail, tail])
  else none

/-! ## Faults -/

inductive Reason where
  | invalidStart
  | invalidContinuation
  | endOfData
  deriving DecidableEq, Repr

def Reason.text : Reason → String
  | invalidStart => "invalid start byte"
  | invalidContinuation => "invalid continuation byte"
  | endOfData => "unexpected end of data"

structure Fault where
  start : Nat
  first : UInt8
  /-- How many good bytes follow the first. -/
  more : Nat
  reason : Reason
  deriving DecidableEq, Repr

def hexByte (b : UInt8) : String :=
  String.ofList [Nat.digitChar (b.toNat / 16), Nat.digitChar (b.toNat % 16)]

def Fault.place (f : Fault) : String :=
  if f.more = 0 then "byte 0x" ++ hexByte f.first ++ " in position " ++ toString f.start
  else "bytes in position " ++ toString f.start ++ "-" ++ toString (f.start + f.more)

def Fault.message (f : Fault) : String :=
  "'utf-8' codec can't decode " ++ f.place ++ ": " ++ f.reason.text

/-! ## Reading -/

inductive State where
  | between
  /-- Inside a character: its first byte, how many bytes were read after it, its code
      point so far, and the bytes that are due. -/
  | inside (first : UInt8) (more value : Nat) (next : Range) (later : List Range)
  deriving DecidableEq, Repr

/-- Read `b`, which stands at `pos`: the character it completes, and the state behind it. -/
def step (pos : Nat) : State → UInt8 → Except Fault (Option Char × State)
  | .between, b =>
    match lead? b.toNat with
    | none => .error ⟨pos, b, 0, .invalidStart⟩
    | some (value, []) => .ok (some (Char.ofNat value), .between)
    | some (value, next :: later) => .ok (none, .inside b 0 value next later)
  | .inside first more value next later, b =>
    if next.low ≤ b.toNat ∧ b.toNat ≤ next.high then
      let value := 64 * value + (b.toNat - 0x80)
      match later with
      | [] => .ok (some (Char.ofNat value), .between)
      | next :: later => .ok (none, .inside first (more + 1) value next later)
    else .error ⟨pos - more - 1, first, more, .invalidContinuation⟩

/-- Read the bytes from `pos` on, behind the characters `out`. -/
def decodeFrom (out : Array Char) (pos : Nat) (s : State) : List UInt8 → Except Fault (Array Char)
  | [] =>
    match s with
    | .between => .ok out
    | .inside first more _ _ _ => .error ⟨pos - more - 1, first, more, .endOfData⟩
  | b :: bs =>
    match step pos s b with
    | .ok (some c, s) => decodeFrom (out.push c) (pos + 1) s bs
    | .ok (none, s) => decodeFrom out (pos + 1) s bs
    | .error f => .error f

def decode (bytes : List UInt8) : Except Fault (List Char) :=
  (decodeFrom #[] 0 .between bytes).map Array.toList

end Utf8

end LoxLexer
