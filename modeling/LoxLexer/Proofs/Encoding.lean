/-
  LoxLexer.Proofs.Encoding — the bytes that encode a text, and those that encode none.

  The encoding of a text puts the bytes of its characters one behind the other (`encode`).
  Reading follows a table, which says of the first byte of a character what the bytes
  behind it may be (`lead?`). Bytes that fit the table are the beginning of the bytes of
  some character, and all of them if as many are there as the table asks for (`Fits`).

  Reading goes through the characters of the longest part in front that is an encoding,
  and then meets bytes that no character begins with. Of these it takes as many as still
  fit, and fails (`Broken`).

  Proved:
  - `code_of_fits`, `completable_iff`: the bytes of a character, and their beginnings, by
    the table.
  - `encode_or_broken`: any bytes are an encoding, or one and then bytes at which reading fails.
  - `decode_encode`, `encode_injective`: an encoding is read back.
  - `faultOf_decode`: what is known of the failure where there is no encoding.
-/

import Mathlib.Data.List.Basic
import Mathlib.Order.Bounds.Basic
import LoxLexer.Text.Utf8

namespace LoxLexer

namespace Utf8

/-- The bytes of a text. -/
def encode (t : List Char) : List UInt8 := t.flatMap String.utf8EncodeChar

/-- The bytes are those of a character, or the beginning of them. -/
def Completable (bs : List UInt8) : Prop := ∃ c : Char, bs <+: String.utf8EncodeChar c

/-! ## The table of first bytes -/

theorem lead_one {b : Nat} (h : b < 0x80) : lead? b = some (b, []) := by simp [lead?, h]

theorem lead_two {b : Nat} (h : 0xC2 ≤ b ∧ b < 0xE0) : lead? b = some (b - 0xC0, [tail]) := by
  unfold lead?
  rw [if_neg (by omega), if_neg (by omega), if_pos (by omega)]

/-- What the second byte of a character of three bytes may be. -/
def secondOfThree (b : Nat) : Range := ⟨if b = 0xE0 then 0xA0 else 0x80, if b = 0xED then 0x9F else 0xBF⟩

/-- What the second byte of a character of four bytes may be. -/
def secondOfFour (b : Nat) : Range := ⟨if b = 0xF0 then 0x90 else 0x80, if b = 0xF4 then 0x8F else 0xBF⟩

theorem lead_three {b : Nat} (h : 0xE0 ≤ b ∧ b < 0xF0) : lead? b = some (b - 0xE0, [secondOfThree b, tail]) := by
  by_cases h0 : b = 0xE0
  · rw [h0]; rfl
  by_cases hd : b = 0xED
  · rw [hd]; rfl
  unfold lead?
  rw [if_neg (by omega), if_neg (by omega), if_neg (by omega), if_neg h0, if_neg hd, if_pos (by omega), secondOfThree,
    if_neg h0, if_neg hd]
  rfl

theorem lead_four {b : Nat} (h : 0xF0 ≤ b ∧ b ≤ 0xF4) :
    lead? b = some (b - 0xF0, [secondOfFour b, tail, tail]) := by
  by_cases h0 : b = 0xF0
  · rw [h0]; rfl
  by_cases h4 : b = 0xF4
  · rw [h4]; rfl
  unfold lead?
  rw [if_neg (by omega), if_neg (by omega), if_neg (by omega), if_neg (by omega), if_neg (by omega), if_neg (by omega),
    if_neg h0, if_pos (by omega), secondOfFour, if_neg h0, if_neg h4]
  rfl

theorem lead_none {b : Nat} (h : 0x80 ≤ b ∧ b < 0xC2 ∨ 0xF4 < b) : lead? b = none := by
  unfold lead?
  repeat' split
  all_goals first | omega | rfl

/-- A first byte stands for one byte, two, three or four. -/
theorem lead_cases {b v : Nat} {rs : List Range} (h : lead? b = some (v, rs)) :
    b < 0x80 ∧ v = b ∧ rs = [] ∨
      (0xC2 ≤ b ∧ b < 0xE0) ∧ v = b - 0xC0 ∧ rs = [tail] ∨
      (0xE0 ≤ b ∧ b < 0xF0) ∧ v = b - 0xE0 ∧ rs = [secondOfThree b, tail] ∨
      (0xF0 ≤ b ∧ b ≤ 0xF4) ∧ v = b - 0xF0 ∧ rs = [secondOfFour b, tail, tail] := by
  have same : ∀ {w : Nat} {ss : List Range}, lead? b = some (w, ss) → v = w ∧ rs = ss := by
    intro w ss hw
    rw [h] at hw
    exact Prod.mk.inj (Option.some.inj hw)
  by_cases h1 : b < 0x80
  · exact Or.inl ⟨h1, same (lead_one h1)⟩
  by_cases h2 : 0xC2 ≤ b ∧ b < 0xE0
  · exact Or.inr (Or.inl ⟨h2, same (lead_two h2)⟩)
  by_cases h3 : 0xE0 ≤ b ∧ b < 0xF0
  · exact Or.inr (Or.inr (Or.inl ⟨h3, same (lead_three h3)⟩))
  by_cases h4 : 0xF0 ≤ b ∧ b ≤ 0xF4
  · exact Or.inr (Or.inr (Or.inr ⟨h4, same (lead_four h4)⟩))
  · rw [lead_none (by omega)] at h
    cases h

/-! ## Bytes behind the first -/

def Range.Holds (r : Range) (b : UInt8) : Prop := r.low ≤ b.toNat ∧ b.toNat ≤ r.high

instance (r : Range) (b : UInt8) : Decidable (r.Holds b) := inferInstanceAs (Decidable (_ ∧ _))

/-- The bytes are in these ranges, one byte in each, as far as there are bytes. -/
inductive Fits : List Range → List UInt8 → Prop
  | nil (rs : List Range) : Fits rs []
  | cons {r : Range} {b : UInt8} {rs : List Range} {bs : List UInt8} : r.Holds b → Fits rs bs → Fits (r :: rs) (b :: bs)

theorem fits_cons_iff {r : Range} {rs : List Range} {b : UInt8} {bs : List UInt8} :
    Fits (r :: rs) (b :: bs) ↔ r.Holds b ∧ Fits rs bs := by
  constructor
  · intro h
    cases h with
    | cons hb hf => exact ⟨hb, hf⟩
  · intro h
    exact .cons h.1 h.2

theorem Fits.of_prefix {rs : List Range} {bs cs : List UInt8} (h : Fits rs cs) (hp : bs <+: cs) : Fits rs bs := by
  induction h generalizing bs with
  | nil rs =>
    rw [List.prefix_nil.mp hp]
    exact .nil rs
  | cons hb _ ih =>
    cases bs with
    | nil => exact .nil _
    | cons c bs =>
      obtain ⟨rfl, htail⟩ := List.cons_prefix_cons.mp hp
      exact .cons hb (ih htail)

theorem Fits.length_le {rs : List Range} {bs : List UInt8} (h : Fits rs bs) : bs.length ≤ rs.length := by
  induction h with
  | nil rs => exact Nat.zero_le _
  | cons _ _ ih => exact Nat.succ_le_succ ih

/-- The code point that the bytes behind a first byte complete. -/
def readOn (value : Nat) (bs : List UInt8) : Nat := bs.foldl (fun v b => 64 * v + (b.toNat - 0x80)) value

/-- Of any bytes, some in front fit: as many as there are ranges, or all that do. -/
theorem exists_fits (rs : List Range) (bs : List UInt8) : ∃ ds r, bs = ds ++ r ∧ Fits rs ds ∧
    (ds.length = rs.length ∨ ds.length < rs.length ∧ ∀ c ∈ r.head?, ¬ Fits rs (ds ++ [c])) := by
  induction rs generalizing bs with
  | nil => exact ⟨[], bs, rfl, .nil _, Or.inl rfl⟩
  | cons s rs ih =>
    have none : (∀ c ∈ bs.head?, ¬ s.Holds c) → ∃ ds r, bs = ds ++ r ∧ Fits (s :: rs) ds ∧ (ds.length = (s :: rs).length ∨
        ds.length < (s :: rs).length ∧ ∀ c ∈ r.head?, ¬ Fits (s :: rs) (ds ++ [c])) := by
      intro h
      exact ⟨[], bs, rfl, .nil _, Or.inr ⟨Nat.succ_pos _, fun c hc hfit => h c hc (fits_cons_iff.mp hfit).1⟩⟩
    cases bs with
    | nil => exact none fun c hc => nomatch hc
    | cons b bs =>
      by_cases hb : s.Holds b
      · obtain ⟨ds, r, rfl, hf, hl⟩ := ih bs
        refine ⟨b :: ds, r, rfl, .cons hb hf, ?_⟩
        rcases hl with hl | ⟨hl, hr⟩
        · exact Or.inl (congrArg Nat.succ hl)
        · exact Or.inr ⟨Nat.succ_lt_succ hl, fun c hc hfit => hr c hc (fits_cons_iff.mp hfit).2⟩
      · exact none fun c hc => Option.some.inj hc ▸ hb

theorem secondOfThree_holds {b : Nat} {x : UInt8} : (secondOfThree b).Holds x ↔
    0x80 ≤ x.toNat ∧ x.toNat ≤ 0xBF ∧ (b = 0xE0 → 0xA0 ≤ x.toNat) ∧ (b = 0xED → x.toNat ≤ 0x9F) := by
  simp only [Range.Holds, secondOfThree]
  split <;> split <;> omega

theorem secondOfFour_holds {b : Nat} {x : UInt8} : (secondOfFour b).Holds x ↔
    0x80 ≤ x.toNat ∧ x.toNat ≤ 0xBF ∧ (b = 0xF0 → 0x90 ≤ x.toNat) ∧ (b = 0xF4 → x.toNat ≤ 0x8F) := by
  simp only [Range.Holds, secondOfFour]
  split <;> split <;> omega

theorem tail_holds {x : UInt8} : tail.Holds x ↔ 0x80 ≤ x.toNat ∧ x.toNat ≤ 0xBF := Iff.rfl

/-! ## The bytes of one character -/

/-- The bytes of a character fit the table, and complete its code point. -/
theorem code_fits (c : Char) : ∃ (b : UInt8) (bs : List UInt8) (v : Nat) (rs : List Range),
    String.utf8EncodeChar c = b :: bs ∧ lead? b.toNat = some (v, rs) ∧ Fits rs bs ∧ bs.length = rs.length ∧
      readOn v bs = c.toNat := by
  have hvalid : c.toNat < 0xD800 ∨ 0xDFFF < c.toNat ∧ c.toNat < 0x110000 := c.valid
  have hval : c.val.toNat = c.toNat := rfl
  unfold String.utf8EncodeChar
  simp only [hval]
  split
  · refine ⟨_, _, _, _, rfl, lead_one ?_, .nil _, rfl, ?_⟩
    · rw [UInt8.toNat_ofNat']; omega
    · simp only [readOn, UInt8.toNat_ofNat', List.foldl_nil]; omega
  split
  · refine ⟨_, _, _, _, rfl, lead_two ?_, .cons ?_ (.nil _), rfl, ?_⟩
    · rw [UInt8.toNat_ofNat']; omega
    · rw [tail_holds, UInt8.toNat_ofNat']; omega
    · simp only [readOn, UInt8.toNat_ofNat', List.foldl_nil, List.foldl_cons]; omega
  split
  · refine ⟨_, _, _, _, rfl, lead_three ?_, .cons ?_ (.cons ?_ (.nil _)), rfl, ?_⟩
    · rw [UInt8.toNat_ofNat']; omega
    · rw [secondOfThree_holds, UInt8.toNat_ofNat', UInt8.toNat_ofNat']; omega
    · rw [tail_holds, UInt8.toNat_ofNat']; omega
    · simp only [readOn, UInt8.toNat_ofNat', List.foldl_nil, List.foldl_cons]; omega
  · refine ⟨_, _, _, _, rfl, lead_four ?_, .cons ?_ (.cons ?_ (.cons ?_ (.nil _))), rfl, ?_⟩
    · rw [UInt8.toNat_ofNat']; omega
    · rw [secondOfFour_holds, UInt8.toNat_ofNat', UInt8.toNat_ofNat']; omega
    · rw [tail_holds, UInt8.toNat_ofNat']; omega
    · rw [tail_holds, UInt8.toNat_ofNat']; omega
    · simp only [readOn, UInt8.toNat_ofNat', List.foldl_nil, List.foldl_cons]; omega

theorem val_ofNat {n : Nat} (h : n < 0xD800 ∨ 0xDFFF < n ∧ n < 0x110000) : (Char.ofNat n).val.toNat = n := by
  rw [Char.ofNat, dif_pos h]
  rfl

theorem eq_ofNat {n : Nat} (b : UInt8) (h : n = b.toNat) : UInt8.ofNat n = b := by
  rw [h, UInt8.ofNat_toNat]

section Codes

variable {b x y z : UInt8} {n : Nat}

theorem code_one (hb : b.toNat < 0x80) (hn : b.toNat = n) : String.utf8EncodeChar (Char.ofNat n) = [b] := by
  have hval : (Char.ofNat n).val.toNat = n := val_ofNat (by omega)
  simp only [String.utf8EncodeChar, hval]
  rw [if_pos (by omega), eq_ofNat b (by omega)]

theorem code_two (hb : 0xC2 ≤ b.toNat ∧ b.toNat < 0xE0) (hx : tail.Holds x)
    (hn : 64 * (b.toNat - 0xC0) + (x.toNat - 0x80) = n) : String.utf8EncodeChar (Char.ofNat n) = [b, x] := by
  rw [tail_holds] at hx
  have hval : (Char.ofNat n).val.toNat = n := val_ofNat (by omega)
  simp only [String.utf8EncodeChar, hval]
  rw [if_neg (by omega), if_pos (by omega), eq_ofNat b (by omega), eq_ofNat x (by omega)]

theorem code_three (hb : 0xE0 ≤ b.toNat ∧ b.toNat < 0xF0) (hx : (secondOfThree b.toNat).Holds x) (hy : tail.Holds y)
    (hn : 64 * (64 * (b.toNat - 0xE0) + (x.toNat - 0x80)) + (y.toNat - 0x80) = n) :
    String.utf8EncodeChar (Char.ofNat n) = [b, x, y] := by
  rw [secondOfThree_holds] at hx
  rw [tail_holds] at hy
  have hval : (Char.ofNat n).val.toNat = n := val_ofNat (by omega)
  simp only [String.utf8EncodeChar, hval]
  rw [if_neg (by omega), if_neg (by omega), if_pos (by omega), eq_ofNat b (by omega), eq_ofNat x (by omega),
    eq_ofNat y (by omega)]

theorem code_four (hb : 0xF0 ≤ b.toNat ∧ b.toNat ≤ 0xF4) (hx : (secondOfFour b.toNat).Holds x) (hy : tail.Holds y)
    (hz : tail.Holds z)
    (hn : 64 * (64 * (64 * (b.toNat - 0xF0) + (x.toNat - 0x80)) + (y.toNat - 0x80)) + (z.toNat - 0x80) = n) :
    String.utf8EncodeChar (Char.ofNat n) = [b, x, y, z] := by
  rw [secondOfFour_holds] at hx
  rw [tail_holds] at hy hz
  have hval : (Char.ofNat n).val.toNat = n := val_ofNat (by omega)
  simp only [String.utf8EncodeChar, hval]
  rw [if_neg (by omega), if_neg (by omega), if_neg (by omega), eq_ofNat b (by omega), eq_ofNat x (by omega),
    eq_ofNat y (by omega), eq_ofNat z (by omega)]

end Codes

/-- Bytes that fit the table, as many as it asks for, are those of the character they complete. -/
theorem code_of_fits {b : UInt8} {bs : List UInt8} {v : Nat} {rs : List Range} (h : lead? b.toNat = some (v, rs))
    (hf : Fits rs bs) (hl : bs.length = rs.length) : String.utf8EncodeChar (Char.ofNat (readOn v bs)) = b :: bs := by
  rcases lead_cases h with ⟨hb, hv, hr⟩ | ⟨hb, hv, hr⟩ | ⟨hb, hv, hr⟩ | ⟨hb, hv, hr⟩ <;> rw [hr] at hf hl <;> rw [hv]
  · obtain rfl := List.length_eq_zero_iff.mp hl
    exact code_one hb rfl
  · obtain ⟨x, rfl⟩ := List.length_eq_one_iff.mp hl
    rw [fits_cons_iff] at hf
    exact code_two hb hf.1 rfl
  · obtain ⟨x, y, rfl⟩ := List.length_eq_two.mp hl
    rw [fits_cons_iff, fits_cons_iff] at hf
    exact code_three hb hf.1 hf.2.1 rfl
  · obtain ⟨x, y, z, rfl⟩ := List.length_eq_three.mp hl
    rw [fits_cons_iff, fits_cons_iff, fits_cons_iff] at hf
    exact code_four hb hf.1 hf.2.1 hf.2.2.1 rfl

/-- No range of the table is empty. -/
theorem exists_holds {b v : Nat} {rs : List Range} (h : lead? b = some (v, rs)) : ∀ r ∈ rs, ∃ x, r.Holds x := by
  have htail : ∃ x, tail.Holds x := ⟨0x80, by decide⟩
  have hthree : ∃ x, (secondOfThree b).Holds x := by
    by_cases h0 : b = 0xE0
    · exact ⟨0xA0, by rw [h0]; decide⟩
    · exact ⟨0x80, secondOfThree_holds.mpr ⟨by decide, by decide, fun he => absurd he h0, fun _ => by decide⟩⟩
  have hfour : ∃ x, (secondOfFour b).Holds x := by
    by_cases h0 : b = 0xF0
    · exact ⟨0x90, by rw [h0]; decide⟩
    · exact ⟨0x80, secondOfFour_holds.mpr ⟨by decide, by decide, fun he => absurd he h0, fun _ => by decide⟩⟩
  rcases lead_cases h with ⟨_, _, hr⟩ | ⟨_, _, hr⟩ | ⟨_, _, hr⟩ | ⟨_, _, hr⟩ <;>
    simp [hr, htail, hthree, hfour]

theorem fits_complete {rs : List Range} {bs : List UInt8} (h : Fits rs bs)
    (hr : ∀ r ∈ rs, ∃ b, r.Holds b) : ∃ cs, Fits rs (bs ++ cs) ∧ (bs ++ cs).length = rs.length := by
  induction rs generalizing bs with
  | nil =>
    have hl := h.length_le
    obtain rfl := List.length_eq_zero_iff.mp (Nat.le_zero.mp hl)
    exact ⟨[], .nil _, rfl⟩
  | cons r rs ih =>
    have hrs : ∀ s ∈ rs, ∃ b, s.Holds b := fun s hs => hr s (List.mem_cons_of_mem _ hs)
    cases h with
    | nil =>
      obtain ⟨b, hb⟩ := hr r (List.mem_cons_self ..)
      obtain ⟨cs, hf, hl⟩ := ih (.nil rs) hrs
      exact ⟨b :: cs, .cons hb hf, congrArg Nat.succ hl⟩
    | cons hb hf =>
      obtain ⟨cs, hf, hl⟩ := ih hf hrs
      exact ⟨cs, .cons hb hf, congrArg Nat.succ hl⟩

/-- Bytes are the beginning of those of a character if and only if they fit the table. -/
theorem completable_iff {b : UInt8} {bs : List UInt8} :
    Completable (b :: bs) ↔ ∃ v rs, lead? b.toNat = some (v, rs) ∧ Fits rs bs := by
  constructor
  · intro ⟨c, hc⟩
    obtain ⟨b', bs', v, rs, hcode, hlead, hfits, _⟩ := code_fits c
    rw [hcode] at hc
    obtain ⟨rfl, htail⟩ := List.cons_prefix_cons.mp hc
    exact ⟨v, rs, hlead, hfits.of_prefix htail⟩
  · intro ⟨v, rs, hlead, hfits⟩
    obtain ⟨cs, hf, hl⟩ := fits_complete hfits (exists_holds hlead)
    refine ⟨Char.ofNat (readOn v (bs ++ cs)), ?_⟩
    rw [code_of_fits hlead hf hl]
    exact List.prefix_append (b :: bs) cs

/-! ## Reading -/

theorem encode_cons (c : Char) (t : List Char) : encode (c :: t) = String.utf8EncodeChar c ++ encode t :=
  List.flatMap_cons

theorem readOn_cons (v : Nat) (b : UInt8) (bs : List UInt8) :
    readOn v (b :: bs) = readOn (64 * v + (b.toNat - 0x80)) bs := by
  rw [readOn, List.foldl_cons, readOn]

theorem step_of_holds {next : Range} {b : UInt8} (h : next.Holds b) (pos : Nat) (first : UInt8) (more v : Nat)
    (later : List Range) : step pos (.inside first more v next later) b =
      .ok (match later with
        | [] => (some (Char.ofNat (64 * v + (b.toNat - 0x80))), .between)
        | next :: later => (none, .inside first (more + 1) (64 * v + (b.toNat - 0x80)) next later)) := by
  rw [step, if_pos (show next.low ≤ b.toNat ∧ b.toNat ≤ next.high from h)]
  cases later <;> rfl

theorem step_of_not_holds {next : Range} {b : UInt8} (h : ¬ next.Holds b) (pos : Nat) (first : UInt8) (more v : Nat)
    (later : List Range) : step pos (.inside first more v next later) b =
      .error ⟨pos - more - 1, first, more, .invalidContinuation⟩ := by
  rw [step, if_neg (show ¬ (next.low ≤ b.toNat ∧ b.toNat ≤ next.high) from h)]

/-- Behind a first byte, reading goes on to the last of the bytes that the table asks for. -/
theorem decodeFrom_of_full {next : Range} {later : List Range} {ds : List UInt8} (hf : Fits (next :: later) ds)
    (hl : ds.length = later.length + 1) (out : Array Char) (pos : Nat) (first : UInt8) (more v : Nat) (r : List UInt8) :
    decodeFrom out pos (.inside first more v next later) (ds ++ r) =
      decodeFrom (out.push (Char.ofNat (readOn v ds))) (pos + ds.length) .between r := by
  induction ds generalizing pos more v next later with
  | nil => cases hl
  | cons b ds ih =>
    obtain ⟨hb, hf⟩ := fits_cons_iff.mp hf
    rw [List.cons_append, decodeFrom, step_of_holds hb, readOn_cons]
    cases later with
    | nil =>
      obtain rfl := List.length_eq_zero_iff.mp (Nat.succ.inj hl)
      rfl
    | cons next later =>
      have hpos : pos + 1 + ds.length = pos + (b :: ds).length := by rw [List.length_cons]; omega
      simp only
      rw [ih hf (Nat.succ.inj hl), hpos]

/-- Behind a first byte, reading fails where fewer bytes fit than the table asks for. -/
theorem decodeFrom_of_stuck {next : Range} {later : List Range} {ds r : List UInt8} (hf : Fits (next :: later) ds)
    (hl : ds.length < later.length + 1) (hr : ∀ c ∈ r.head?, ¬ Fits (next :: later) (ds ++ [c])) (out : Array Char)
    (pos : Nat) (first : UInt8) (more v : Nat) :
    decodeFrom out pos (.inside first more v next later) (ds ++ r) =
      .error ⟨pos - more - 1, first, more + ds.length, if r = [] then .endOfData else .invalidContinuation⟩ := by
  induction ds generalizing pos more v next later with
  | nil =>
    cases r with
    | nil => rfl
    | cons c r =>
      have hc : ¬ next.Holds c := fun hc => hr c rfl (.cons hc (.nil _))
      rw [List.nil_append, decodeFrom, step_of_not_holds hc, if_neg (List.cons_ne_nil c r)]
      rfl
  | cons b ds ih =>
    obtain ⟨hb, hf⟩ := fits_cons_iff.mp hf
    rw [List.cons_append, decodeFrom, step_of_holds hb]
    cases later with
    | nil => exact absurd (Nat.lt_of_succ_lt_succ hl) (Nat.not_lt_zero _)
    | cons next later =>
      have hstart : pos + 1 - (more + 1) - 1 = pos - more - 1 := by omega
      have hmore : more + 1 + ds.length = more + (b :: ds).length := by rw [List.length_cons]; omega
      simp only
      rw [ih hf (Nat.lt_of_succ_lt_succ hl) fun c hc hfit => hr c hc (.cons hb hfit), hstart, hmore]

/-- Reading fails with `f` at `pos`, in front of these bytes. -/
structure Broken (pos : Nat) (bs : List UInt8) (f : Fault) : Prop where
  start_eq : f.start = pos
  first_eq : bs.head? = some f.first
  cause : ¬ Completable [f.first] ∧ f.more = 0 ∧ f.reason = .invalidStart ∨
    Completable [f.first] ∧ IsGreatest {n | n ≤ bs.length ∧ Completable (bs.take n)} (f.more + 1) ∧
      f.reason = if f.more + 1 = bs.length then .endOfData else .invalidContinuation

/-- The longest of the bytes in front that a character may begin with. -/
theorem isGreatest_completable {b : UInt8} {ds r : List UInt8} {v : Nat} {rs : List Range}
    (h : lead? b.toNat = some (v, rs)) (hf : Fits rs ds) (hr : ∀ c ∈ r.head?, ¬ Fits rs (ds ++ [c])) :
    IsGreatest {n | n ≤ (b :: (ds ++ r)).length ∧ Completable ((b :: (ds ++ r)).take n)} (ds.length + 1) := by
  constructor
  · refine ⟨by simp, ?_⟩
    rw [List.take_succ_cons, List.take_left, completable_iff]
    exact ⟨v, rs, h, hf⟩
  · intro n hn
    obtain ⟨hlength, hcomplete⟩ := hn
    cases n with
    | zero => exact Nat.zero_le _
    | succ n =>
      rw [List.take_succ_cons, completable_iff] at hcomplete
      obtain ⟨v', rs', h', hfits⟩ := hcomplete
      rw [h] at h'
      obtain ⟨-, rfl⟩ := Prod.mk.inj (Option.some.inj h')
      refine Nat.succ_le_succ (Nat.le_of_not_lt fun hlt => ?_)
      cases r with
      | nil => simp at hlength; omega
      | cons c r =>
        have hprefix : ds ++ [c] <+: (ds ++ c :: r).take n := by
          refine List.prefix_take_iff.mpr ⟨⟨r, by simp⟩, by simp; omega⟩
        exact hr c rfl (hfits.of_prefix hprefix)

/-- Reading goes through the bytes of a character. -/
theorem decodeFrom_code (out : Array Char) (pos : Nat) (c : Char) (r : List UInt8) :
    decodeFrom out pos .between (String.utf8EncodeChar c ++ r) =
      decodeFrom (out.push c) (pos + (String.utf8EncodeChar c).length) .between r := by
  obtain ⟨b, ds, v, rs, hcode, hlead, hfits, hlength, hvalue⟩ := code_fits c
  rw [hcode, List.cons_append, decodeFrom, step, hlead]
  cases rs with
  | nil =>
    obtain rfl := List.length_eq_zero_iff.mp hlength
    rw [← c.ofNat_toNat, ← hvalue]
    rfl
  | cons next later =>
    have hpos : pos + 1 + ds.length = pos + (b :: ds).length := by rw [List.length_cons]; omega
    simp only
    rw [decodeFrom_of_full hfits hlength, hvalue, c.ofNat_toNat, hpos]

theorem decodeFrom_encode (out : Array Char) (pos : Nat) (t : List Char) (r : List UInt8) :
    decodeFrom out pos .between (encode t ++ r) = decodeFrom (out ++ t.toArray) (pos + (encode t).length) .between r := by
  induction t generalizing out pos with
  | nil => simp [encode]
  | cons c t ih =>
    rw [encode_cons, List.append_assoc, decodeFrom_code, ih, List.length_append, Nat.add_assoc]
    simp

/-- Bytes begin with those of a character, or reading them fails. -/
theorem code_or_broken (out : Array Char) (pos : Nat) (b : UInt8) (bs : List UInt8) :
    (∃ c r, b :: bs = String.utf8EncodeChar c ++ r) ∨
      ∃ f, decodeFrom out pos .between (b :: bs) = .error f ∧ Broken pos (b :: bs) f := by
  cases h : lead? b.toNat with
  | none =>
    refine Or.inr ⟨_, by rw [decodeFrom, step, h], rfl, rfl, Or.inl ⟨fun hc => ?_, rfl, rfl⟩⟩
    obtain ⟨v, rs, hlead, _⟩ := completable_iff.mp hc
    rw [h] at hlead
    cases hlead
  | some entry =>
    obtain ⟨v, rs⟩ := entry
    obtain ⟨ds, r, rfl, hfits, hlength | ⟨hlength, hr⟩⟩ := exists_fits rs bs
    · refine Or.inl ⟨Char.ofNat (readOn v ds), r, ?_⟩
      rw [code_of_fits h hfits hlength]
      rfl
    · cases rs with
      | nil => exact absurd hlength (Nat.not_lt_zero _)
      | cons next later =>
        have hread := decodeFrom_of_stuck hfits hlength hr out (pos + 1) b 0 v
        refine Or.inr ⟨_, by rw [decodeFrom, step, h]; exact hread, ?_, rfl,
          Or.inr ⟨completable_iff.mpr ⟨v, _, h, .nil _⟩, ?_, ?_⟩⟩
        · show pos + 1 - 0 - 1 = pos
          omega
        · show IsGreatest _ (0 + ds.length + 1)
          rw [Nat.zero_add]
          exact isGreatest_completable h hfits hr
        · have hend : r = [] ↔ 0 + ds.length + 1 = (b :: (ds ++ r)).length := by
            rw [← List.length_eq_zero_iff]
            simp
          simp only [hend]

/-- Any bytes are an encoding, or reading fails behind an encoding. -/
theorem encode_or_broken (bs : List UInt8) : (∃ t, bs = encode t) ∨
    ∃ t r, bs = encode t ++ r ∧ ∀ out pos, ∃ f, decodeFrom out pos .between r = .error f ∧ Broken pos r f := by
  induction hn : bs.length using Nat.strongRecOn generalizing bs with
  | ind n ih =>
    cases bs with
    | nil => exact Or.inl ⟨[], rfl⟩
    | cons b bs =>
      by_cases hc : ∃ c r, b :: bs = String.utf8EncodeChar c ++ r
      · obtain ⟨c, r, hcr⟩ := hc
        have hpos := List.length_pos_iff.mpr (String.utf8EncodeChar_ne_nil (c := c))
        have hlength := congrArg List.length hcr
        rw [List.length_append] at hlength
        rw [hcr]
        rcases ih r.length (by omega) r rfl with ⟨t, rfl⟩ | ⟨t, r', rfl, hr⟩
        · exact Or.inl ⟨c :: t, rfl⟩
        · exact Or.inr ⟨c :: t, r', by rw [encode_cons, List.append_assoc], hr⟩
      · refine Or.inr ⟨[], b :: bs, rfl, fun out pos => ?_⟩
        exact (code_or_broken out pos b bs).resolve_left hc

/-- Where reading fails is not in front of where it began. -/
theorem le_start_of_error {out : Array Char} {pos : Nat} {bs : List UInt8} {f : Fault}
    (h : decodeFrom out pos .between bs = .error f) : pos ≤ f.start := by
  rcases encode_or_broken bs with ⟨t, rfl⟩ | ⟨t, r, rfl, hr⟩
  · have hread := decodeFrom_encode out pos t []
    rw [List.append_nil, h] at hread
    cases hread
  · obtain ⟨g, hg, hbroken⟩ := hr (out ++ t.toArray) (pos + (encode t).length)
    rw [decodeFrom_encode, hg] at h
    cases h
    rw [hbroken.start_eq]
    omega

/-! ## Encodings and failures -/

/-- An encoding is read back. -/
theorem decode_encode (t : List Char) : decode (encode t) = .ok t := by
  have hread := decodeFrom_encode #[] 0 t []
  rw [List.append_nil] at hread
  rw [decode, hread, decodeFrom]
  simp [Except.map]

theorem encode_injective {t u : List Char} (h : encode t = encode u) : t = u := by
  have hread := decode_encode t
  rw [h, decode_encode] at hread
  exact (Except.ok.inj hread).symm

/-- The place behind the bytes of a fault. -/
def Fault.stop (f : Fault) : Nat := f.start + f.more + 1

/-- What a fault says of the bytes in which it is found: it begins behind the longest part
    in front that is an encoding, and covers the one byte there if no character begins with
    it, and otherwise the longest of the bytes there that a character may begin with. -/
structure FaultOf (bytes : List UInt8) (f : Fault) : Prop where
  start : IsGreatest {n | n ≤ bytes.length ∧ ∃ t, encode t = bytes.take n} f.start
  first : bytes[f.start]? = some f.first
  cause : ¬ Completable [f.first] ∧ f.stop = f.start + 1 ∧ f.reason.text = "invalid start byte" ∨
    Completable [f.first] ∧
      IsGreatest {n | f.start < n ∧ n ≤ bytes.length ∧ Completable ((bytes.take n).drop f.start)} f.stop ∧
      f.reason.text = if f.stop = bytes.length then "unexpected end of data" else "invalid continuation byte"

/-- Reading bytes that are no encoding fails, and says where and why. -/
theorem faultOf_decode {bytes : List UInt8} (h : ∀ t, encode t ≠ bytes) :
    ∃ f, decode bytes = .error f ∧ FaultOf bytes f := by
  obtain ⟨t, r, rfl, hr⟩ := (encode_or_broken bytes).resolve_left fun ⟨t, ht⟩ => h t ht.symm
  obtain ⟨f, hf, hbroken⟩ := hr (#[] ++ t.toArray) (0 + (encode t).length)
  have hread : decodeFrom #[] 0 .between (encode t ++ r) = .error f := by rw [decodeFrom_encode, hf]
  have hstart : f.start = (encode t).length := by rw [hbroken.start_eq, Nat.zero_add]
  have hdrop : (encode t ++ r).drop f.start = r := by rw [hstart, List.drop_left]
  have hstop : f.stop = f.start + (f.more + 1) := rfl
  refine ⟨f, by rw [decode, hread]; rfl, ⟨?_, ?_⟩, ?_, ?_⟩
  · exact ⟨by rw [hstart]; simp, t, by rw [hstart, List.take_left]⟩
  · intro n hn
    obtain ⟨hlength, u, hu⟩ := hn
    -- reading the shorter encoding and then the rest is reading the whole
    have hsplit := List.take_append_drop n (encode t ++ r)
    rw [← hu] at hsplit
    rw [← hsplit, decodeFrom_encode, Nat.zero_add] at hread
    have hle := le_start_of_error hread
    rwa [hu, List.length_take_of_le hlength] at hle
  · rw [← hdrop] at hbroken
    have := hbroken.first_eq
    rwa [List.head?_drop] at this
  · have hlength : (encode t ++ r).length = f.start + r.length := by rw [List.length_append, hstart]
    rcases hbroken.cause with ⟨hno, hmore, hreason⟩ | ⟨hyes, ⟨hmem, hmax⟩, hreason⟩
    · exact Or.inl ⟨hno, by rw [hstop, hmore], by rw [hreason]; rfl⟩
    · have hbytes : ∀ n, ((encode t ++ r).take n).drop f.start = r.take (n - f.start) := by
        intro n
        rw [List.drop_take, hdrop]
      refine Or.inr ⟨hyes, ⟨⟨by omega, ?_, ?_⟩, ?_⟩, ?_⟩
      · have := hmem.1
        omega
      · rw [hbytes, hstop, Nat.add_sub_cancel_left]
        exact hmem.2
      · intro n hn
        obtain ⟨hlt, hle, hcomplete⟩ := hn
        rw [hbytes] at hcomplete
        have hin : n - f.start ≤ r.length ∧ Completable (r.take (n - f.start)) := ⟨by omega, hcomplete⟩
        have := hmax hin
        omega
      · rw [hreason, hlength, hstop]
        simp only [Nat.add_left_cancel_iff]
        split <;> rfl

end Utf8

end LoxLexer
