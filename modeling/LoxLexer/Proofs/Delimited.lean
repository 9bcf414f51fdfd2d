/-
  LoxLexer.Proofs.Delimited — texts of which it can be seen where they end.

  A text that is written in front of a character it does not contain can be read back, and
  so can what stands behind. Names of kinds contain no bracket and no blank, and lines no
  blank and no point. A lexeme can contain a quote or a line feed only if its token is a
  string, and then it has one quote at each end and none between, so it can be read back
  in front of either (`Scanned.lexeme_inj`).
-/

import LoxLexer.Proofs.Literals

namespace LoxLexer

open Piece

/-! ## Delimiters -/

section Delimiters

variable {c : Char} {w w' r r' : List Char}

theorem append_cons_inj (hw : c ∉ w) (hw' : c ∉ w') (h : w ++ c :: r = w' ++ c :: r') : w = w' ∧ r = r' := by
  have hclear : ∀ t, Clear (· != c) (c :: t) := fun t => clear_cons_iff.mpr (by simp)
  have htake := congrArg (List.takeWhile (· != c)) h
  rw [takeWhile_append_clear (bne_of_not_mem hw) (hclear r),
    takeWhile_append_clear (bne_of_not_mem hw') (hclear r')] at htake
  subst htake
  exact ⟨rfl, (List.cons.inj (List.append_cancel_left h)).2⟩

/-- The same with the text behind the character. -/
theorem cons_append_inj (hw : c ∉ w) (hw' : c ∉ w') (h : r ++ c :: w = r' ++ c :: w') : r = r' ∧ w = w' := by
  have hrev := congrArg List.reverse h
  simp only [List.reverse_append, List.reverse_cons, List.append_assoc] at hrev
  obtain ⟨h1, h2⟩ := append_cons_inj (by simpa using hw) (by simpa using hw') hrev
  exact ⟨List.reverse_injective h2, List.reverse_injective h1⟩

/-- A text in quotes, with no quote inside, ends at its second quote. -/
theorem quotes_append_inj {s s' : List Char} (hw : '\"' ∉ w) (hw' : '\"' ∉ w')
    (h : '\"' :: (w ++ ['\"']) ++ s = '\"' :: (w' ++ ['\"']) ++ s') : w = w' ∧ s = s' := by
  simp only [List.cons_append, List.append_assoc, List.cons.injEq, true_and] at h
  exact append_cons_inj hw hw' h

end Delimiters

/-- Texts put one behind the other can be read back one by one, if each of them can be
    read in front of anything (up to `r`, which may be less than being equal). -/
theorem forall₂_of_flatMap_eq {α : Type} {f : α → List Char} {p : α → Prop} {r : α → α → Prop} (hne : ∀ a, f a ≠ [])
    (hread : ∀ {a b}, p a → p b → ∀ {s s' : List Char}, f a ++ s = f b ++ s' → r a b ∧ s = s') {as bs : List α}
    (ha : ∀ a ∈ as, p a) (hb : ∀ b ∈ bs, p b) (h : as.flatMap f = bs.flatMap f) : List.Forall₂ r as bs := by
  induction as generalizing bs with
  | nil =>
    cases bs with
    | nil => exact .nil
    | cons b bs => exact absurd (List.append_eq_nil_iff.mp h.symm).1 (hne b)
  | cons a as ih =>
    cases bs with
    | nil => exact absurd (List.append_eq_nil_iff.mp h).1 (hne a)
    | cons b bs =>
      rw [List.forall_mem_cons] at ha hb
      obtain ⟨hab, hrest⟩ := hread ha.1 hb.1 h
      exact .cons hab (ih ha.2 hb.2 hrest)

/-! ## Names and lines -/

theorem Kind.name_chars (k : Kind) : ']' ∉ k.name.toList ∧ ' ' ∉ k.name.toList := by
  have h : ∀ k ∈ Kind.all, ']' ∉ k.name.toList ∧ ' ' ∉ k.name.toList := by decide +kernel
  exact h k k.mem_all

theorem Kind.name_injective : Function.Injective Kind.name := by
  intro k l h
  rw [← Option.some_inj, ← k.ofName?_name, h, l.ofName?_name]

theorem isDigit_of_mem_repr {n : Nat} {c : Char} (h : c ∈ n.repr.toList) : c.isDigit = true := by
  rw [Nat.toList_repr] at h
  exact isDigit_of_mem_toDigits c h

theorem repr_nat_injective : Function.Injective Nat.repr := by
  intro m n h
  have hdigits := congrArg (fun s : String => digitsValue s.toList) h
  simpa only [Nat.toList_repr, digitsValue_toDigits] using hdigits

/-- A line is written in digits, behind a sign if it is negative. -/
theorem toString_int_chars (n : Int) : ∀ c ∈ (toString n).toList, c = '-' ∨ c.isDigit = true := by
  intro c hc
  rw [Int.toString_eq_repr, Int.repr_eq_if] at hc
  split at hc
  · exact Or.inr (isDigit_of_mem_repr hc)
  · rw [String.toList_append, List.mem_append] at hc
    rcases hc with hc | hc
    · exact Or.inl (List.mem_singleton.mp hc)
    · exact Or.inr (isDigit_of_mem_repr hc)

theorem not_mem_toString_int (n : Int) {c : Char} (hc : c ≠ '-') (hd : c.isDigit = false) :
    c ∉ (toString n).toList := by
  intro h
  rcases toString_int_chars n c h with rfl | h
  · exact hc rfl
  · rw [hd] at h
    cases h

theorem toString_int_injective {m n : Int} (h : toString m = toString n) : m = n := by
  rw [Int.toString_eq_repr, Int.toString_eq_repr, Int.repr_eq_if, Int.repr_eq_if] at h
  have hsign : ∀ k l : Nat, k.repr ≠ "-" ++ l.repr := by
    intro k l h
    have hmem : '-' ∈ k.repr.toList := by
      rw [h, String.toList_append]
      exact List.mem_cons_self ..
    cases isDigit_of_mem_repr hmem
  split at h <;> split at h
  · have := repr_nat_injective h
    omega
  · exact absurd h (hsign _ _)
  · exact absurd h.symm (hsign _ _)
  · have := repr_nat_injective (String.append_right_inj _ |>.mp h)
    omega

/-! ## Lexemes -/

/-- The lexeme of a token that is no string contains no quote and no line feed. -/
theorem Scanned.lexeme_plain {t : Token} (h : Scanned t) (hk : t.kind ≠ .string) :
    ∀ c ∈ t.lexeme.toList, c ≠ '\"' ∧ c ≠ '\n' := by
  have hword : ∀ c : Char, isWordChar c = true → c ≠ '\"' ∧ c ≠ '\n' := by
    rintro c hc
    constructor <;> rintro rfl <;> revert hc <;> decide
  have hdigit : ∀ c : Char, c.isDigit = true → c ≠ '\"' ∧ c ≠ '\n' := fun c hc =>
    hword c (by rw [isWordChar, hc, Bool.or_true])
  cases h with
  | eof line => exact fun c hc => by cases hc
  | @piece p line _ hf ht =>
    rw [lexeme_token? ht, String.toList_ofList]
    cases p with
    | blank | comment | stray | openString => cases ht
    | string body =>
      cases ht
      exact absurd rfl hk
    | symbol s =>
      have hs : ∀ c ∈ s.chars, c ≠ '\"' ∧ c ≠ '\n' := by cases s <;> simp [Symbol.chars]
      exact hs
    | number whole fraction =>
      intro c hc
      rcases chars_number hf c hc with hd | rfl
      · exact hdigit c hd
      · decide
    | word letters =>
      obtain ⟨d, w, rfl, hd, hw⟩ := hf
      intro c hc
      rcases List.mem_cons.mp hc with rfl | hc
      · exact hword c (by rw [isWordChar, hd, Bool.true_or])
      · exact hword c (hw c hc)

/-- In front of a quote or a line feed, the lexeme of a token of a known kind can be read
    back. -/
theorem Scanned.lexeme_inj {t u : Token} (ht : Scanned t) (hu : Scanned u) (hk : t.kind = u.kind) {c : Char}
    (hc : c = '\"' ∨ c = '\n') {r r' : List Char} (h : t.lexeme.toList ++ c :: r = u.lexeme.toList ++ c :: r') :
    t.lexeme = u.lexeme ∧ r = r' := by
  by_cases hs : t.kind = .string
  · obtain ⟨body, hb, hq, _⟩ := ht.hasLiteral.string hs
    obtain ⟨body', hb', hq', _⟩ := hu.hasLiteral.string (hk ▸ hs)
    rw [hb, hb'] at h
    obtain ⟨rfl, hr⟩ := quotes_append_inj hq hq' h
    exact ⟨String.toList_inj.mp (hb.trans hb'.symm), (List.cons.inj hr).2⟩
  · have hplain : ∀ {v : Token}, Scanned v → v.kind ≠ .string → c ∉ v.lexeme.toList := by
      intro v hv hvk hm
      have := hv.lexeme_plain hvk c hm
      rcases hc with rfl | rfl
      · exact this.1 rfl
      · exact this.2 rfl
    obtain ⟨hl, hr⟩ := append_cons_inj (hplain ht hs) (hplain hu (hk ▸ hs)) h
    exact ⟨String.toList_inj.mp hl, hr⟩

end LoxLexer
