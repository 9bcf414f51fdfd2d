/-
  LoxLexer.Proofs.Cutting — where the pieces of a text begin and end.

  A piece is formed (`Formed`) when its text is spelled as its kind demands, and it ends
  before a text (`Ends`) when nothing in front there would still belong to it. The two
  together fix the first piece of a text, whatever stands behind it, so a proof about
  cutting needs neither `first` nor the functions it is made of.

  Proved:
  - `first_eq_iff`: the first piece of a text, and what is left after it, are the one way
    to put a formed piece in front of a text before which it ends.
  - `pieces_eq_iff`: the pieces of a text are the one list that is cut so all the way
    (`Cut`).
  - `length_text_le_first`: no formed piece in front of a text is longer than the first.
-/

import LoxLexer.Scan.Piece

namespace LoxLexer

/-! ## Runs of characters -/

/-- The text does not begin with a character of the class `q`. -/
def Clear (q : Char → Bool) (r : List Char) : Prop := ∀ c ∈ r.head?, q c = false

section Runs

variable {q : Char → Bool} {w r : List Char}

theorem clear_dropWhile (q : Char → Bool) (r : List Char) : Clear q (r.dropWhile q) := by
  intro c hc
  have := List.head?_dropWhile_not q r
  rw [Option.mem_def.mp hc] at this
  simpa using this

theorem takeWhile_of_clear (h : Clear q r) : r.takeWhile q = [] := by
  cases r with
  | nil => rfl
  | cons c r => rw [List.takeWhile_cons, h c rfl]; rfl

theorem dropWhile_of_clear (h : Clear q r) : r.dropWhile q = r := by
  cases r with
  | nil => rfl
  | cons c r => rw [List.dropWhile_cons, h c rfl]; rfl

theorem takeWhile_append_clear (hw : ∀ c ∈ w, q c = true) (h : Clear q r) : (w ++ r).takeWhile q = w := by
  rw [List.takeWhile_append_of_pos hw, takeWhile_of_clear h, List.append_nil]

theorem dropWhile_append_clear (hw : ∀ c ∈ w, q c = true) (h : Clear q r) : (w ++ r).dropWhile q = r := by
  rw [List.dropWhile_append_of_pos hw, dropWhile_of_clear h]

theorem of_mem_takeWhile {c : Char} (h : c ∈ r.takeWhile q) : q c = true :=
  List.all_eq_true.mp List.all_takeWhile c h

theorem bne_of_not_mem {x : Char} (h : x ∉ w) : ∀ c ∈ w, (c != x) = true := by
  intro c hc
  have : c ≠ x := fun e => h (e ▸ hc)
  simpa using this

theorem clear_cons_iff {c : Char} : Clear q (c :: r) ↔ q c = false :=
  ⟨fun h => h c rfl, fun h d hd => by cases hd; exact h⟩

end Runs

/-! ## What begins a piece -/

/-- The character that a symbol would be read together with. -/
def Symbol.joinsWith : Symbol → Option Char
  | slash => some '/'
  | bang | equal | less | greater => some '='
  | _ => none

theorem isBlank_cases {c : Char} (h : isBlank c = true) : c = ' ' ∨ c = '\t' ∨ c = '\r' ∨ c = '\n' := by
  simpa [isBlank, or_assoc] using h

theorem isDigit_iff {c : Char} : c.isDigit = true ↔ '0' ≤ c ∧ c ≤ '9' := by
  show (decide ('0'.val ≤ c.val) && decide (c.val ≤ '9'.val)) = true ↔ _
  rw [Bool.and_eq_true, decide_eq_true_iff, decide_eq_true_iff]
  exact Iff.rfl

theorem isWordStart_iff {c : Char} :
    isWordStart c = true ↔ ('a' ≤ c ∧ c ≤ 'z') ∨ ('A' ≤ c ∧ c ≤ 'Z') ∨ c = '_' := by
  have hupper : c.isUpper = true ↔ 'A' ≤ c ∧ c ≤ 'Z' := by
    show decide ('A'.val ≤ c.val ∧ c.val ≤ 'Z'.val) = true ↔ _
    exact decide_eq_true_iff
  have hlower : c.isLower = true ↔ 'a' ≤ c ∧ c ≤ 'z' := by
    show (decide ('a'.val ≤ c.val) && decide (c.val ≤ 'z'.val)) = true ↔ _
    rw [Bool.and_eq_true, decide_eq_true_iff, decide_eq_true_iff]
    exact Iff.rfl
  show ((c.isUpper || c.isLower) || c == '_') = true ↔ _
  rw [Bool.or_eq_true, Bool.or_eq_true, hupper, hlower, beq_iff_eq, or_assoc, or_left_comm]

/-- A digit begins no piece but a number. -/
theorem digit_apart {c : Char} (h : c.isDigit = true) : isBlank c = false ∧ c ≠ '/' ∧ c ≠ '\"' := by
  have hblank : isBlank c ≠ true := by
    intro hb
    rcases isBlank_cases hb with hc | hc | hc | hc <;> rw [hc] at h <;> cases h
  refine ⟨Bool.eq_false_iff.mpr hblank, fun hc => ?_, fun hc => ?_⟩
  · rw [hc] at h; cases h
  · rw [hc] at h; cases h

/-- A letter begins no piece but a word. -/
theorem wordStart_apart {c : Char} (h : isWordStart c = true) :
    isBlank c = false ∧ c ≠ '/' ∧ c ≠ '\"' ∧ c.isDigit = false := by
  have hblank : isBlank c ≠ true := by
    intro hb
    rcases isBlank_cases hb with hc | hc | hc | hc <;> rw [hc] at h <;> revert h <;> decide
  have hdigit : c.isDigit ≠ true := by
    intro hd
    have hle : c.val.toNat ≤ 57 := UInt32.le_iff_toNat_le.mp (isDigit_iff.mp hd).2
    rcases isWordStart_iff.mp h with h | h | h
    · have hge : 97 ≤ c.val.toNat := UInt32.le_iff_toNat_le.mp h.1
      omega
    · have hge : 65 ≤ c.val.toNat := UInt32.le_iff_toNat_le.mp h.1
      omega
    · rw [h] at hd; cases hd
  refine ⟨Bool.eq_false_iff.mpr hblank, fun hc => ?_, fun hc => ?_, Bool.eq_false_iff.mpr hdigit⟩
  · rw [hc] at h; revert h; decide
  · rw [hc] at h; revert h; decide

namespace Piece

/-! ## Formed pieces, and where they end -/

/-- Whether the text of a piece is spelled as its kind demands. -/
def Formed : Piece → Prop
  | blank c => isBlank c = true
  | comment body => '\n' ∉ body
  | symbol _ => True
  | string body => '\"' ∉ body
  | number whole fraction => whole ≠ [] ∧ (∀ d ∈ whole, d.isDigit = true) ∧ ∀ d ∈ fraction, d.isDigit = true
  | word letters => ∃ c r, letters = c :: r ∧ isWordStart c = true ∧ ∀ d ∈ r, isWordChar d = true
  | stray c => isBlank c = false ∧ c ≠ '/' ∧ c ≠ '\"' ∧ c.isDigit = false ∧ isWordStart c = false ∧
      Symbol.single? c = none ∧ Symbol.joining? c = none
  | openString body => '\"' ∉ body

/-- Whether a piece ends where the text behind it begins. -/
def Ends : Piece → List Char → Prop
  | comment _, r => Clear (· != '\n') r
  | symbol s, r => ∀ c ∈ s.joinsWith, Clear (· == c) r
  | number _ [], r => Clear Char.isDigit r ∧ ∀ d t, r = '.' :: d :: t → d.isDigit = false
  | number _ (_ :: _), r => Clear Char.isDigit r
  | word _, r => Clear isWordChar r
  | openString _, r => r = []
  | blank _, _ | string _, _ | stray _, _ => True

theorem text_ne_nil {p : Piece} (hf : p.Formed) : p.text ≠ [] := by
  cases p with
  | symbol s => exact symbol_chars_ne_nil s
  | number whole fraction => simp [text, hf.1]
  | word letters =>
    obtain ⟨d, w, rfl, _⟩ := hf
    simp [text]
  | _ => simp [text]

/-- The characters of a number. -/
theorem chars_number {whole fraction : List Char} (hf : (number whole fraction).Formed) :
    ∀ c ∈ (number whole fraction).text, c.isDigit = true ∨ c = '.' := by
  intro c hc
  rw [text, List.mem_append] at hc
  rcases hc with hc | hc
  · exact Or.inl (hf.2.1 c hc)
  cases fraction with
  | nil => cases hc
  | cons d f =>
    rcases List.mem_cons.mp hc with rfl | hc
    · exact Or.inr rfl
    · exact Or.inl (hf.2.2 c hc)

/-- A stray character is no blank. -/
theorem stray_ne_blank {c b : Char} (hf : (stray c).Formed) (hb : isBlank b = true) : c ≠ b := by
  intro h
  rw [← h, hf.1] at hb
  cases hb

/-! ## The first piece is formed and ends -/

theorem firstSlash_cut (r : List Char) : (firstSlash r).1.Formed ∧ (firstSlash r).1.Ends (firstSlash r).2 := by
  unfold firstSlash
  split
  · rename_i r
    refine ⟨fun h => ?_, clear_dropWhile _ r⟩
    simpa using of_mem_takeWhile h
  · rename_i hne
    refine ⟨trivial, fun c hc d hd => ?_⟩
    obtain rfl : '/' = c := by simpa [Symbol.joinsWith] using hc
    cases r with
    | nil => cases hd
    | cons e r =>
      obtain rfl : e = d := by simpa using hd
      simpa using fun he => hne r (by rw [he])

theorem firstString_cut (r : List Char) : (firstString r).1.Formed ∧ (firstString r).1.Ends (firstString r).2 := by
  unfold firstString
  split
  · exact ⟨fun h => by simpa using of_mem_takeWhile h, trivial⟩
  · rename_i he
    refine ⟨fun h => ?_, rfl⟩
    have hr := List.takeWhile_append_dropWhile (p := (· != '\"')) (l := r)
    rw [he, List.append_nil] at hr
    rw [← hr] at h
    simpa using of_mem_takeWhile h

theorem firstFraction_cut {whole r : List Char} (hne : whole ≠ []) (hw : ∀ d ∈ whole, d.isDigit = true)
    (hr : Clear Char.isDigit r) :
    (firstFraction whole r).1.Formed ∧ (firstFraction whole r).1.Ends (firstFraction whole r).2 := by
  unfold firstFraction
  split
  · rename_i d r
    split
    · rename_i hd
      refine ⟨⟨hne, hw, fun e he => ?_⟩, clear_dropWhile _ r⟩
      rcases List.mem_cons.mp he with rfl | he
      · exact hd
      · exact of_mem_takeWhile he
    · rename_i hd
      refine ⟨⟨hne, hw, fun e he => by cases he⟩, hr, fun e t he => ?_⟩
      cases he
      exact Bool.eq_false_iff.mpr hd
  · rename_i hnot
    exact ⟨⟨hne, hw, fun e he => by cases he⟩, hr, fun e t he => absurd he (hnot e t)⟩

theorem joinsWith_joining {c : Char} {j a : Symbol} (h : Symbol.joining? c = some (j, a)) :
    j.joinsWith = none ∧ a.joinsWith = some '=' := by
  unfold Symbol.joining? at h
  split at h <;> cases h <;> exact ⟨rfl, rfl⟩

theorem joinsWith_single {c : Char} {s : Symbol} (h : Symbol.single? c = some s) : s.joinsWith = none := by
  unfold Symbol.single? at h
  split at h <;> cases h <;> rfl

theorem firstJoining_cut {c : Char} {j a : Symbol} (h : Symbol.joining? c = some (j, a)) (r : List Char) :
    (firstJoining j a r).1.Formed ∧ (firstJoining j a r).1.Ends (firstJoining j a r).2 := by
  obtain ⟨hj, ha⟩ := joinsWith_joining h
  unfold firstJoining
  split
  · exact ⟨trivial, fun c hc => by rw [hj] at hc; cases hc⟩
  · rename_i hne
    refine ⟨trivial, fun c hc d hd => ?_⟩
    obtain rfl : '=' = c := by simpa [ha] using hc
    cases r with
    | nil => cases hd
    | cons e r =>
      obtain rfl : e = d := by simpa using hd
      simpa using fun he => hne r (by rw [he])

theorem first_cut (c : Char) (r : List Char) : (first c r).1.Formed ∧ (first c r).1.Ends (first c r).2 := by
  unfold first
  split
  · exact ⟨‹_›, trivial⟩
  rename_i hb
  split
  · exact firstSlash_cut r
  rename_i hs
  split
  · exact firstString_cut r
  rename_i hq
  split
  · rename_i hd
    refine firstFraction_cut (List.cons_ne_nil _ _) (fun d hd' => ?_) (clear_dropWhile _ r)
    rcases List.mem_cons.mp hd' with rfl | hd'
    · exact hd
    · exact of_mem_takeWhile hd'
  rename_i hd
  split
  · exact ⟨⟨c, _, rfl, ‹_›, fun d hd' => of_mem_takeWhile hd'⟩, clear_dropWhile _ r⟩
  rename_i hw
  split
  · rename_i s h
    exact ⟨trivial, fun c hc => by rw [joinsWith_single h] at hc; cases hc⟩
  rename_i h1
  split
  · exact firstJoining_cut ‹_› r
  · rename_i h2
    exact ⟨⟨Bool.eq_false_iff.mpr hb, hs, hq, Bool.eq_false_iff.mpr hd, Bool.eq_false_iff.mpr hw, h1, h2⟩, trivial⟩

/-! ## A formed piece that ends is the first -/

theorem firstFraction_of_ends {whole fraction r : List Char} (hf : (number whole fraction).Formed)
    (he : (number whole fraction).Ends r) : firstFraction whole (point fraction ++ r) = (number whole fraction, r) := by
  cases fraction with
  | nil =>
    unfold firstFraction
    split
    · rename_i d t ht
      rw [if_neg (by simp [he.2 d t ht])]
      simp only [point, List.nil_append] at ht
      rw [ht]
    · rfl
  | cons d f =>
    have hd : d.isDigit = true := hf.2.2 d (List.mem_cons_self ..)
    have hd' : ∀ e ∈ f, e.isDigit = true := fun e h => hf.2.2 e (List.mem_cons_of_mem _ h)
    show firstFraction whole ('.' :: d :: (f ++ r)) = _
    simp only [firstFraction, if_pos hd, takeWhile_append_clear hd' he, dropWhile_append_clear hd' he]

theorem clear_point {fraction r : List Char} {whole : List Char} (he : (number whole fraction).Ends r) :
    Clear Char.isDigit (point fraction ++ r) := by
  cases fraction with
  | nil => exact he.1
  | cons d f =>
    intro c hc
    obtain rfl : '.' = c := by simpa [point] using hc
    rfl

theorem first_symbol {s : Symbol} {r : List Char} (he : (symbol s).Ends r) {c : Char} {t : List Char}
    (h : s.chars ++ r = c :: t) : first c t = (symbol s, r) := by
  -- a symbol that takes nothing more is read whatever follows; one that does is read alone only by `he`
  have alone : ∀ {d : Char}, s.joinsWith = some d → ∀ t, r ≠ d :: t := by
    intro d hd t hr
    have := he d hd d (by rw [hr]; rfl)
    simp at this
  cases s <;> simp only [Symbol.chars, List.cons_append, List.nil_append, List.cons.injEq] at h <;>
    obtain ⟨rfl, rfl⟩ := h <;> try rfl
  case slash =>
    show firstSlash r = _
    unfold firstSlash
    split
    · exact absurd rfl (alone rfl _)
    · rfl
  all_goals
    show firstJoining _ _ r = _
    unfold firstJoining
    split
    · exact absurd rfl (alone rfl _)
    · rfl

theorem firstString_of_closed {body : List Char} (hb : '\"' ∉ body) (r : List Char) :
    firstString (body ++ '\"' :: r) = (string body, r) := by
  have hc : Clear (· != '\"') ('\"' :: r) := clear_cons_iff.mpr rfl
  simp only [firstString, dropWhile_append_clear (bne_of_not_mem hb) hc, takeWhile_append_clear (bne_of_not_mem hb) hc]

theorem firstString_of_open {body : List Char} (hb : '\"' ∉ body) : firstString body = (openString body, []) := by
  have hc : Clear (· != '\"') ([] : List Char) := fun c h => by cases h
  have hd := dropWhile_append_clear (bne_of_not_mem hb) hc
  rw [List.append_nil] at hd
  rw [firstString, hd]

theorem first_of_ends {p : Piece} {r : List Char} (hf : p.Formed) (he : p.Ends r) {c : Char} {t : List Char}
    (h : p.text ++ r = c :: t) : first c t = (p, r) := by
  cases p with
  | blank b =>
    obtain ⟨rfl, rfl⟩ := List.cons.inj h
    simp [first, show isBlank b = true from hf]
  | comment body =>
    cases h
    have hb := bne_of_not_mem (show '\n' ∉ body from hf)
    show firstSlash ('/' :: (body ++ r)) = _
    simp only [firstSlash, takeWhile_append_clear hb he, dropWhile_append_clear hb he]
  | symbol s => exact first_symbol he h
  | string body =>
    cases h
    show firstString (body ++ ['\"'] ++ r) = _
    rw [List.append_assoc]
    exact firstString_of_closed hf r
  | openString body =>
    cases h
    have hr : r = [] := he
    show firstString (body ++ r) = _
    rw [hr, List.append_nil, firstString_of_open hf]
  | number whole fraction =>
    obtain ⟨hne, hw, hd⟩ := hf
    cases whole with
    | nil => exact absurd rfl hne
    | cons d w =>
      obtain ⟨rfl, rfl⟩ := List.cons.inj h
      have hd' : d.isDigit = true := hw d (List.mem_cons_self ..)
      have hw' : ∀ e ∈ w, e.isDigit = true := fun e he => hw e (List.mem_cons_of_mem _ he)
      have hc := clear_point he
      obtain ⟨h1, h2, h3⟩ := digit_apart hd'
      simp only [first, h1, h2, h3, hd', if_true, if_false, Bool.false_eq_true, List.append_eq, List.append_assoc]
      rw [takeWhile_append_clear hw' hc, dropWhile_append_clear hw' hc, firstFraction_of_ends ⟨hne, hw, hd⟩ he]
  | word letters =>
    obtain ⟨d, w, rfl, hd, hw⟩ := hf
    obtain ⟨rfl, rfl⟩ := List.cons.inj h
    obtain ⟨h1, h2, h3, h4⟩ := wordStart_apart hd
    simp only [first, h1, h2, h3, h4, hd, if_true, if_false, Bool.false_eq_true, List.append_eq]
    rw [takeWhile_append_clear hw he, dropWhile_append_clear hw he]
  | stray d =>
    obtain ⟨rfl, rfl⟩ := List.cons.inj h
    obtain ⟨h1, h2, h3, h4, h5, h6, h7⟩ := hf
    simp [first, h1, h2, h3, h4, h5, h6, h7]

theorem ends_nil (p : Piece) : p.Ends [] := by
  cases p with
  | number whole fraction => cases fraction <;> simp [Ends, Clear]
  | _ => simp [Ends, Clear]

/-- A number ends before what begins with no digit and no point. -/
theorem ends_number {whole fraction r : List Char} (hdigit : Clear Char.isDigit r) (hpoint : Clear (· == '.') r) :
    (number whole fraction).Ends r := by
  cases fraction with
  | nil =>
    refine ⟨hdigit, fun d t h => ?_⟩
    rw [h] at hpoint
    cases clear_cons_iff.mp hpoint
  | cons d f => exact hdigit

/-- No two formed pieces have one text. -/
theorem eq_of_text_eq {p q : Piece} (hp : p.Formed) (hq : q.Formed) (h : p.text = q.text) : p = q := by
  obtain ⟨c, t, hc⟩ := List.exists_cons_of_ne_nil (text_ne_nil hp)
  have hp' := first_of_ends hp p.ends_nil (by rw [List.append_nil, hc])
  have hq' := first_of_ends hq q.ends_nil (by rw [List.append_nil, ← h, hc])
  rw [hp'] at hq'
  exact (Prod.mk.inj hq').1

/-- The first piece of a text, and what is left after it. -/
theorem first_eq_iff {c : Char} {t : List Char} {p : Piece} {r : List Char} :
    first c t = (p, r) ↔ p.Formed ∧ p.Ends r ∧ p.text ++ r = c :: t := by
  constructor
  · intro h
    have hc := first_cut c t
    have ht := text_append_first c t
    rw [h] at hc ht
    exact ⟨hc.1, hc.2, ht⟩
  · rintro ⟨hf, he, ht⟩
    exact first_of_ends hf he ht

/-! ## The first piece is the longest -/

theorem not_clear {q : Char → Bool} {r : List Char} (h : ¬ Clear q r) : ∃ c t, r = c :: t ∧ q c = true := by
  cases r with
  | nil => exact absurd (fun c hc => by cases hc) h
  | cons c t =>
    refine ⟨c, t, rfl, ?_⟩
    cases hq : q c with
    | true => rfl
    | false => exact absurd (fun d hd => by cases hd; exact hq) h

theorem mem_append_singleton {P : Char → Prop} {w : List Char} {c : Char} (hw : ∀ d ∈ w, P d) (hc : P c) :
    ∀ d ∈ w ++ [c], P d := by
  intro d hd
  rcases List.mem_append.mp hd with hd | hd
  · exact hw d hd
  · rw [List.mem_singleton.mp hd]; exact hc

/-- The piece is the beginning of a longer formed piece that the text begins with. -/
def GoesOn (p : Piece) (r : List Char) : Prop :=
  ∃ (p' : Piece) (t : List Char), p'.Formed ∧ p'.text ++ t = p.text ++ r ∧ p.text.length < p'.text.length

theorem symbol_goes_on {s : Symbol} {r : List Char} (h : ¬ (symbol s).Ends r) : (symbol s).GoesOn r := by
  have : ∃ c t, s.joinsWith = some c ∧ r = c :: t := by
    cases hj : s.joinsWith with
    | none => exact absurd (fun c hc => by rw [hj] at hc; cases hc) h
    | some c =>
      obtain ⟨d, t, rfl, hd⟩ := not_clear fun hc => h fun e he => by rw [hj] at he; cases he; exact hc
      exact ⟨c, t, rfl, by rw [eq_of_beq hd]⟩
  obtain ⟨c, t, hj, rfl⟩ := this
  cases s <;> cases hj
  · exact ⟨comment [], t, List.not_mem_nil, rfl, by decide⟩
  · exact ⟨symbol .bangEqual, t, trivial, rfl, by decide⟩
  · exact ⟨symbol .equalEqual, t, trivial, rfl, by decide⟩
  · exact ⟨symbol .greaterEqual, t, trivial, rfl, by decide⟩
  · exact ⟨symbol .lessEqual, t, trivial, rfl, by decide⟩

theorem openString_goes_on {body r : List Char} (hf : (openString body).Formed) (h : r ≠ []) :
    (openString body).GoesOn r := by
  obtain ⟨c, t, rfl⟩ := List.exists_cons_of_ne_nil h
  by_cases hq : c = '\"'
  · subst hq
    exact ⟨string body, t, hf, by simp [text], by simp [text]⟩
  · refine ⟨openString (body ++ [c]), t, fun hm => ?_, by simp [text], by simp [text]⟩
    rcases List.mem_append.mp hm with hm | hm
    · exact hf hm
    · exact hq (List.mem_singleton.mp hm).symm

theorem number_goes_on {whole fraction r : List Char} (hf : (number whole fraction).Formed)
    (h : ¬ (number whole fraction).Ends r) : (number whole fraction).GoesOn r := by
  obtain ⟨hne, hw, hd⟩ := hf
  cases fraction with
  | nil =>
    by_cases hc : Clear Char.isDigit r
    · have : ∃ d t, r = '.' :: d :: t ∧ d.isDigit = true := by
        apply Classical.byContradiction
        intro hn
        exact h ⟨hc, fun d t hr => Bool.eq_false_iff.mpr fun hd => hn ⟨d, t, hr, hd⟩⟩
      obtain ⟨d, t, rfl, hd'⟩ := this
      exact ⟨number whole [d], t, ⟨hne, hw, mem_append_singleton hd hd'⟩, by simp [text, point], by simp [text, point]⟩
    · obtain ⟨d, t, rfl, hd'⟩ := not_clear hc
      exact ⟨number (whole ++ [d]) [], t, ⟨by simp, mem_append_singleton hw hd', hd⟩, by simp [text, point],
        by simp [text, point]⟩
  | cons e f =>
    obtain ⟨d, t, rfl, hd'⟩ := not_clear h
    exact ⟨number whole (e :: f ++ [d]), t, ⟨hne, hw, mem_append_singleton hd hd'⟩, by simp [text, point],
      by simp [text, point]⟩

/-- A formed piece that does not end before a text is the beginning of a longer one. -/
theorem goes_on {p : Piece} {r : List Char} (hf : p.Formed) (h : ¬ p.Ends r) : p.GoesOn r := by
  cases p with
  | blank | string | stray => exact absurd trivial h
  | symbol s => exact symbol_goes_on h
  | openString body => exact openString_goes_on hf h
  | number whole fraction => exact number_goes_on hf h
  | comment body =>
    obtain ⟨c, t, rfl, hc⟩ := not_clear h
    refine ⟨comment (body ++ [c]), t, fun hm => ?_, by simp [text], by simp [text]⟩
    rcases List.mem_append.mp hm with hm | hm
    · exact hf hm
    · rw [← List.mem_singleton.mp hm] at hc; simp at hc
  | word letters =>
    obtain ⟨d, w, rfl, hd, hw⟩ := hf
    obtain ⟨c, t, rfl, hc⟩ := not_clear h
    exact ⟨word (d :: w ++ [c]), t, ⟨d, w ++ [c], rfl, hd, mem_append_singleton hw hc⟩, by simp [text], by simp [text]⟩

/-- No formed piece that a text begins with is longer than its first piece. -/
theorem length_text_le_first {p : Piece} {r : List Char} {c : Char} {t : List Char} (hf : p.Formed)
    (h : p.text ++ r = c :: t) : p.text.length ≤ (first c t).1.text.length := by
  induction hn : r.length using Nat.strongRecOn generalizing p r with
  | ind n ih =>
    by_cases he : p.Ends r
    · exact Nat.le_of_eq (by rw [first_of_ends hf he h])
    · obtain ⟨p', r', hf', ht, hl⟩ := goes_on hf he
      have hs := congrArg List.length ht
      simp only [List.length_append] at hs
      have := ih r'.length (by omega) hf' (ht.trans h) rfl
      omega

/-! ## All the pieces of a text -/

/-- The text is cut into these pieces, each of which ends where the next begins. -/
inductive Cut : List Char → List Piece → Prop
  | nil : Cut [] []
  | cons {p : Piece} {r : List Char} {ps : List Piece} : p.Formed → p.Ends r → Cut r ps → Cut (p.text ++ r) (p :: ps)

theorem Cut.uncons {s : List Char} {p : Piece} {ps : List Piece} (h : Cut s (p :: ps)) :
    ∃ r, s = p.text ++ r ∧ p.Formed ∧ p.Ends r ∧ Cut r ps := by
  cases h with
  | cons hf he h => exact ⟨_, rfl, hf, he, h⟩

theorem Cut.formed {s : List Char} {ps : List Piece} (h : Cut s ps) : ∀ p ∈ ps, p.Formed := by
  induction h with
  | nil => intro p hp; cases hp
  | cons hf _ _ ih =>
    intro p hp
    rcases List.mem_cons.mp hp with hp | hp
    · rw [hp]; exact hf
    · exact ih p hp

theorem cut_pieces (s : List Char) : Cut s (pieces s) := by
  induction h : s.length using Nat.strongRecOn generalizing s with
  | ind n ih =>
    cases s with
    | nil => rw [pieces_nil]; exact .nil
    | cons c r =>
      obtain ⟨hf, he⟩ := first_cut c r
      have := Cut.cons hf he (ih _ (h ▸ length_first_lt c r) _ rfl)
      rwa [text_append_first, ← pieces_cons] at this

/-- A text has at most as many pieces as it has characters. -/
theorem Cut.length_le {s : List Char} {ps : List Piece} (h : Cut s ps) : ps.length ≤ s.length := by
  induction h with
  | nil => exact Nat.le_refl _
  | cons hf _ _ ih =>
    have := List.length_pos_iff.mpr (text_ne_nil hf)
    rw [List.length_cons, List.length_append]
    omega

/-- A formed piece is the first of the pieces of a text if it ends before the rest of it. -/
theorem pieces_text_append {p : Piece} {r : List Char} (hf : p.Formed) (he : p.Ends r) :
    pieces (p.text ++ r) = p :: pieces r := by
  cases h : p.text ++ r with
  | nil => exact absurd (List.append_eq_nil_iff.mp h).1 (text_ne_nil hf)
  | cons c t => rw [pieces_cons, first_of_ends hf he h]

/-- Blanks in front of a text are pieces of their own. -/
theorem pieces_blanks {cs : List Char} (h : ∀ c ∈ cs, isBlank c = true) (r : List Char) :
    pieces (cs ++ r) = cs.map blank ++ pieces r := by
  induction cs with
  | nil => rfl
  | cons c cs ih =>
    have hc : (blank c).Formed := h c (List.mem_cons_self ..)
    have hcut := pieces_text_append hc (r := cs ++ r) trivial
    show pieces ((blank c).text ++ (cs ++ r)) = blank c :: (cs.map blank ++ pieces r)
    rw [hcut, ih fun d hd => h d (List.mem_cons_of_mem _ hd)]

theorem pieces_eq_iff {s : List Char} {ps : List Piece} : pieces s = ps ↔ Cut s ps := by
  constructor
  · rintro rfl; exact cut_pieces s
  · intro h
    induction h with
    | nil => exact pieces_nil
    | cons hf he _ ih => rw [pieces_text_append hf he, ih]

end Piece

end LoxLexer
