/-
  LoxLexer.Proofs.Switches — what one more `--table` changes in what is asked for.

  The switch for a table sets a flag that nothing reads before the request is made. So in
  front of the mark `--` it can stand anywhere, and any number of times, and all that
  hangs on it is whether the request is for a table (`Request.tabled`). There is one
  place where it cannot stand: the mark is taken together with an operand in front of
  it, and a switch between the two leaves the mark over.

  Proved:
  - `spells_ofText`: what an argument can be read as.
  - `ofText_eq_table_iff`: the five ways to write the switch.
  - `table_iff`: a request is for a table if one of these is in front of the mark.
  - `ofArguments_insert`: the request with the switch put in where it can stand.
  - `ofArguments_insert_behind_path`: the refusal where it cannot.
-/

import Mathlib.Data.List.Infix
import LoxLexer.Command.Arguments

namespace LoxLexer

/-! ## One argument -/

namespace Argument

/-- The ways to write the switch for a table. -/
def tableNames : List String := ["--t", "--ta", "--tab", "--tabl", "--table"]

/-- The same without the dashes. -/
def tableBeginnings : List (List Char) := tableNames.map fun text => text.toList.drop 2

/-- What an argument can be read as. -/
inductive Spells (text : String) : Argument → Prop
  | operand : Spells text (operand text)
  | endMark : text = "--" → Spells text endMark
  | help : Spells text (switch .help)
  | table : text ∈ tableNames → Spells text (switch .table)
  | valued (s : Switch) (value : String) : Spells text (valued s value)
  | ambiguous : Spells text (ambiguous text)
  | unknown : Spells text (unknown text)

/-- The beginnings of `table`, but not the empty one, which is a beginning of `help` too. -/
theorem mem_tableBeginnings {name : List Char} (h : Switch.beginning name = [.table]) : name ∈ tableBeginnings := by
  have hmem : Switch.table ∈ Switch.beginning name := by
    rw [h]
    exact List.mem_singleton_self _
  have hprefix : name <+: "table".toList := List.isPrefixOf_iff_prefix.mp (List.mem_filter.mp hmem).2
  have hne : name ≠ [] := by
    intro he
    rw [he] at h
    revert h
    decide
  have hinits : name ∈ [] :: tableBeginnings := (List.mem_inits _ _).mpr hprefix
  rcases List.mem_cons.mp hinits with he | hin
  · exact absurd he hne
  · exact hin

theorem mem_tableNames {text : String} {name : List Char} (h : text.toList = '-' :: '-' :: name)
    (hname : name ∈ tableBeginnings) : text ∈ tableNames := by
  obtain ⟨t, ht, hdrop⟩ := List.mem_map.mp hname
  have hdashes : ∀ t ∈ tableNames, t.toList = '-' :: '-' :: t.toList.drop 2 := by decide
  have htext : text.toList = t.toList := by rw [h, hdashes t ht, ← hdrop]
  rw [String.toList_inj.mp htext]
  exact ht

theorem spells_ofLoose (text : String) : Spells text (ofLoose text) := by
  unfold ofLoose
  split
  · exact .operand
  · exact .unknown

theorem spells_ofHelpGroup (text : String) (letters : List Char) : Spells text (ofHelpGroup letters) := by
  unfold ofHelpGroup
  split
  · exact .help
  · exact .valued _ _

theorem spells_ofShortHelp (text : String) (tail : List Char) : Spells text (ofShortHelp tail) := by
  unfold ofShortHelp
  split
  · exact .valued _ _
  · exact spells_ofHelpGroup text _
  · exact spells_ofHelpGroup text _

theorem spells_ofLong {text : String} {name : List Char} (h : text.toList = '-' :: '-' :: name) :
    Spells text (ofLong text name) := by
  unfold ofLong
  split
  · rename_i s hs
    split
    · exact .valued _ _
    · rename_i hdrop
      cases s with
      | help => exact .help
      | table =>
        -- there is no equals sign, so what stands in front of it is the whole name
        have hname : name.takeWhile (· != '=') = name := by
          have := List.takeWhile_append_dropWhile (p := (· != '=')) (l := name)
          rwa [hdrop, List.append_nil] at this
        rw [hname] at hs
        exact .table (mem_tableNames h (mem_tableBeginnings hs))
  · exact spells_ofLoose text
  · exact .ambiguous

theorem spells_ofText (text : String) : Spells text (ofText text) := by
  unfold ofText
  split
  · rename_i name hname
    split
    · rename_i hempty
      rw [List.isEmpty_iff.mp hempty] at hname
      exact .endMark (String.toList_inj.mp hname)
    · exact spells_ofLong hname
  · exact spells_ofShortHelp text _
  · exact spells_ofLoose text
  · exact .operand

theorem ofText_eq_endMark_iff (text : String) : ofText text = endMark ↔ text = "--" := by
  constructor
  · intro h
    have hspells := spells_ofText text
    rw [h] at hspells
    cases hspells with
    | endMark htext => exact htext
  · intro h
    rw [h]
    decide

/-- An operand is the argument as it is. -/
theorem ofText_operand {text t : String} (h : ofText text = operand t) : t = text := by
  have hspells := spells_ofText text
  rw [h] at hspells
  cases hspells
  rfl

/-- The switch is read from its five names and from nothing else. -/
theorem ofText_eq_table_iff (text : String) : ofText text = switch .table ↔ text ∈ tableNames := by
  constructor
  · intro h
    have hspells := spells_ofText text
    rw [h] at hspells
    cases hspells with
    | table htext => exact htext
  · intro h
    have hall : ∀ text ∈ tableNames, ofText text = switch .table := by decide
    exact hall text h

/-! ## Arguments up to the mark -/

theorem readAll_append {before : List String} (hmark : "--" ∉ before) (behind : List String) :
    readAll (before ++ behind) = before.map ofText ++ readAll behind := by
  induction before with
  | nil => rfl
  | cons text before ih =>
    have hfirst : ofText text ≠ endMark := by
      intro he
      rw [(ofText_eq_endMark_iff text).mp he] at hmark
      exact hmark (List.mem_cons_self ..)
    have hrest := ih fun hm => hmark (List.mem_cons_of_mem _ hm)
    rw [List.cons_append, readAll]
    split
    · contradiction
    · rw [hrest, List.map_cons, List.cons_append]

theorem head?_readAll (arguments : List String) : (readAll arguments).head? = arguments.head?.map ofText := by
  cases arguments with
  | nil => rfl
  | cons text rest =>
    rw [readAll, List.head?_cons, Option.map_some]
    split
    · rename_i h
      rw [h, List.head?_cons]
    · rw [List.head?_cons]

theorem readAll_mark (behind : List String) : readAll ("--" :: behind) = endMark :: behind.map operand := by
  rw [readAll, (ofText_eq_endMark_iff "--").mpr rfl]

/-- The switch is read where one of its names stands in front of the mark. -/
theorem table_mem_readAll (arguments : List String) :
    switch .table ∈ readAll arguments ↔ ∃ text ∈ arguments.takeWhile (· != "--"), text ∈ tableNames := by
  induction arguments with
  | nil => simp [readAll]
  | cons text rest ih =>
    by_cases hmark : text = "--"
    · rw [hmark, readAll_mark]
      simp
    · have hread : readAll (text :: rest) = ofText text :: readAll rest := by
        have hnot : "--" ∉ [text] := by simpa using Ne.symm hmark
        exact readAll_append hnot rest
      rw [hread, List.mem_cons, ih, eq_comm, ofText_eq_table_iff]
      simp [hmark]

end Argument

/-! ## The request -/

namespace Request

open Argument

/-- The same request, for a table. -/
def tabled : Request → Request
  | help => help
  | lex path _ => lex path true

theorem finish_tabled (g : Given) : finish { g with table := true } = (finish g).map tabled := by
  unfold finish
  cases g.path with
  | none => rfl
  | some path =>
    by_cases h : g.left.isEmpty = true
    · simp [h, Except.map, tabled]
    · simp [h, Except.map]

/-- Nothing that is done with the arguments hangs on the flag. -/
theorem collect_tabled (g : Given) (as : List Argument) :
    collect { g with table := true } as = (collect g as).map tabled := by
  fun_induction collect g as with
  | case1 g => exact finish_tabled g
  | case2 | case3 | case4 | case5 | case6 | case7 | case8 | case13 => simp_all [collect]
  | case10 g rest ih => exact ih
  | case9 | case11 | case12 => rfl

/-- What is over when a request to lex is made, and where its flag is from. -/
theorem of_collect_lex {g : Given} {as : List Argument} {path : Path} {table : Bool}
    (h : collect g as = .ok (.lex path table)) :
    g.left = [] ∧ (table = true ↔ g.table = true ∨ switch .table ∈ as) := by
  fun_induction collect g as with
  | case1 g =>
    unfold finish at h
    cases hp : g.path with
    | none => simp [hp] at h
    | some p =>
      by_cases hl : g.left.isEmpty = true
      · simp [hp, hl] at h
        simp [List.isEmpty_iff.mp hl, h]
      · simp [hp, hl] at h
  | case2 | case3 | case4 | case5 | case6 | case7 | case8 | case10 | case13 => simp_all
  | case9 | case11 | case12 => cases h

/-- An operand is the path if there is none yet. If there is, what stands in its place is
    left. -/
def Given.take (g : Given) (text : String) (texts : List String) : Given :=
  match g.path with
  | none => { g with path := some text }
  | some _ => { g with left := g.left ++ texts }

theorem collect_operand (g : Given) {text : String} {rest : List Argument} (h : rest.head? ≠ some endMark) :
    collect g (operand text :: rest) = collect (g.take text [text]) rest := by
  have hnext : ∀ l, rest = endMark :: l → False := fun l hl => h (by rw [hl, List.head?_cons])
  cases hp : g.path <;> simp [collect, Given.take, hp]

theorem collect_operand_endMark (g : Given) (text : String) (rest : List Argument) :
    collect g (operand text :: endMark :: rest) = collect (g.take text [text, "--"]) rest := by
  cases hp : g.path <;> simp [collect, Given.take, hp]

/-- The argument is an operand, and takes the mark that the others begin with. -/
def TakesMark (a : Argument) (rest : List Argument) : Prop := (∃ text, a = operand text) ∧ rest.head? = some endMark

theorem not_takesMark_append {a : Argument} {as bs : List Argument} (ha : endMark ∉ as)
    (hb : as = [] → ¬ TakesMark a bs) : ¬ TakesMark a (as ++ bs) := by
  intro h
  cases as with
  | nil => exact hb rfl h
  | cons b as =>
    have hb : b = endMark := Option.some.inj h.2
    exact ha (by rw [hb]; exact List.mem_cons_self ..)

/-- An argument in front of the mark either settles the answer, and then it is no request to
    lex, or it is taken and the others are gone on with. -/
theorem collect_cons (g : Given) {a : Argument} (ha : a ≠ endMark) :
    (∃ r, (∀ path table, r ≠ .ok (.lex path table)) ∧ ∀ rest, collect g (a :: rest) = r) ∨
      ∃ g', ∀ rest, ¬ TakesMark a rest → collect g (a :: rest) = collect g' rest := by
  cases a with
  | endMark => exact absurd rfl ha
  | switch s =>
    cases s with
    | help => exact Or.inl ⟨.ok .help, by simp, fun _ => rfl⟩
    | table => exact Or.inr ⟨{ g with table := true }, fun _ _ => rfl⟩
  | valued s value => exact Or.inl ⟨.error (.ignoredValue s value), by simp, fun _ => rfl⟩
  | ambiguous text => exact Or.inl ⟨.error (.ambiguous text), by simp, fun _ => rfl⟩
  | unknown text => exact Or.inr ⟨{ g with left := g.left ++ [text] }, fun _ _ => rfl⟩
  | operand text => exact Or.inr ⟨g.take text [text], fun rest hrest => collect_operand g fun hm => hrest ⟨⟨text, rfl⟩, hm⟩⟩

theorem map_tabled {r : Except UsageError Request} (h : ∀ path table, r ≠ .ok (.lex path table)) : r.map tabled = r := by
  cases r with
  | error e => rfl
  | ok request =>
    cases request with
    | help => rfl
    | lex path table => exact absurd rfl (h path table)

/-- One more switch makes the request one for a table, wherever it does not come between an
    operand and the mark. -/
theorem collect_insert (g : Given) {as bs : List Argument} (ha : endMark ∉ as)
    (hplace : ∀ a, as.getLast? = some a → ¬ TakesMark a bs) :
    collect g (as ++ switch .table :: bs) = (collect g (as ++ bs)).map tabled := by
  induction as generalizing g with
  | nil => exact collect_tabled g bs
  | cons a as ih =>
    rw [List.mem_cons, not_or] at ha
    rw [List.cons_append, List.cons_append]
    rcases collect_cons g (Ne.symm ha.1) with ⟨r, hr, hall⟩ | ⟨g', hall⟩
    · rw [hall, hall, map_tabled hr]
    · have hswitch : ¬ TakesMark a (as ++ switch .table :: bs) :=
        not_takesMark_append ha.2 fun _ h => by cases h.2
      have hwithout : ¬ TakesMark a (as ++ bs) := by
        refine not_takesMark_append ha.2 fun he => ?_
        rw [he] at hplace
        exact hplace a rfl
      rw [hall _ hswitch, hall _ hwithout]
      refine ih g' ha.2 fun b hb => hplace b ?_
      rw [List.getLast?_cons, hb]
      rfl

/-- Behind the path and the mark there is nothing when a request to lex is made. With the
    switch between the two, the mark is left. -/
theorem collect_insert_behind_path {g : Given} {as : List Argument} {text : String} {rest : List String}
    {path : Path} {table : Bool} (ha : endMark ∉ as)
    (h : collect g (as ++ operand text :: endMark :: rest.map operand) = .ok (.lex path table)) :
    rest = [] ∧ collect g (as ++ [operand text, switch .table, endMark]) = .error (.unrecognized ["--"]) := by
  induction as generalizing g with
  | nil =>
    rw [List.nil_append, collect_operand_endMark] at h
    cases hp : g.path with
    | some p =>
      have hleft := (of_collect_lex h).1
      simp [Given.take, hp] at hleft
    | none =>
      have htake : ∀ texts, g.take text texts = { g with path := some text } := by
        intro texts
        rw [Given.take, hp]
      rw [htake] at h
      cases rest with
      | cons u rest =>
        have hnext : (rest.map operand).head? ≠ some endMark := by cases rest <;> simp
        rw [List.map_cons, collect_operand _ hnext] at h
        have hleft := (of_collect_lex h).1
        simp [Given.take] at hleft
      | nil =>
        have hleft : g.left = [] := (of_collect_lex h).1
        refine ⟨rfl, ?_⟩
        rw [List.nil_append, collect_operand g (by simp), htake]
        simp [collect, finish, hleft]
  | cons a as ih =>
    rw [List.mem_cons, not_or] at ha
    have hnext : ∀ l, ¬ TakesMark a (as ++ operand text :: l) := fun l =>
      not_takesMark_append ha.2 fun _ h => by cases h.2
    rw [List.cons_append] at h ⊢
    rcases collect_cons g (Ne.symm ha.1) with ⟨r, hr, hall⟩ | ⟨g', hall⟩
    · rw [hall] at h
      exact absurd h (hr path table)
    · rw [hall _ (hnext _)] at h ⊢
      exact ih ha.2 h

/-! ## From the texts of the arguments -/

/-- The arguments end with an operand, and the mark stands behind it. -/
def Meets (before behind : List String) : Prop :=
  (∃ text, before.getLast? = some text ∧ ofText text = operand text) ∧ behind.head? = some "--"

theorem ofArguments_eq {arguments : List String} (h : ∀ text, ambiguous text ∉ readAll arguments) :
    ofArguments arguments = collect ⟨none, false, []⟩ (readAll arguments) := by
  unfold ofArguments
  dsimp only
  split
  · rename_i text hfind
    exact absurd (List.mem_of_find?_eq_some hfind) (h text)
  · rfl

theorem find?_ambiguous {p : Argument → Bool} (hp : ∀ a, p a = true ↔ ∃ text, a = ambiguous text) {as : List Argument}
    {text : String} (h : ambiguous text ∈ as) : ∃ t, as.find? p = some (ambiguous t) := by
  obtain ⟨a, ha⟩ := Option.isSome_iff_exists.mp (List.find?_isSome.mpr ⟨_, h, (hp _).mpr ⟨text, rfl⟩⟩)
  obtain ⟨t, ht⟩ := (hp a).mp (List.find?_some ha)
  exact ⟨t, by rw [ha, ht]⟩

/-- What an ambiguous argument is among is refused. -/
theorem ofArguments_of_ambiguous {arguments : List String} {text : String} (h : ambiguous text ∈ readAll arguments) :
    ∀ request, ofArguments arguments ≠ .ok request := by
  intro request hok
  unfold ofArguments at hok
  dsimp only at hok
  split at hok
  · cases hok
  · rename_i hnone
    refine (find?_ambiguous ?_ h).elim hnone
    intro a
    cases a <;> simp

theorem table_iff {arguments : List String} {path : Path} {table : Bool}
    (h : ofArguments arguments = .ok (.lex path table)) :
    table = true ↔ ∃ text ∈ arguments.takeWhile (· != "--"), text ∈ tableNames := by
  have hplain : ∀ text, ambiguous text ∉ readAll arguments := fun text ha => ofArguments_of_ambiguous ha _ h
  rw [ofArguments_eq hplain] at h
  rw [(of_collect_lex h).2, ← table_mem_readAll]
  simp

theorem readAll_table {before : List String} (hmark : "--" ∉ before) (behind : List String) :
    readAll (before ++ "--table" :: behind) = before.map ofText ++ switch .table :: readAll behind := by
  have htable : ofText "--table" = switch .table := (ofText_eq_table_iff _).mpr (by decide)
  rw [readAll_append hmark, readAll, htable]

theorem endMark_not_mem {before : List String} (hmark : "--" ∉ before) : endMark ∉ before.map ofText := by
  intro h
  obtain ⟨text, ht, he⟩ := List.mem_map.mp h
  rw [(ofText_eq_endMark_iff text).mp he] at ht
  exact hmark ht

/-- In front of the mark, one more `--table` makes the request one for a table, and what is
    refused is refused alike, wherever it does not come between an operand and the mark. -/
theorem ofArguments_insert {before behind : List String} (hmark : "--" ∉ before) (hplace : ¬ Meets before behind) :
    ofArguments (before ++ "--table" :: behind) = (ofArguments (before ++ behind)).map tabled := by
  have hfind : ∀ p : Argument → Bool, p (switch .table) = false →
      (before.map ofText ++ switch .table :: readAll behind).find? p = (before.map ofText ++ readAll behind).find? p := by
    intro p hp
    rw [List.find?_append, List.find?_append, List.find?_cons_of_neg (by simp [hp])]
  have hlast : ∀ a, (before.map ofText).getLast? = some a → ¬ TakesMark a (readAll behind) := by
    intro a ha ⟨⟨t, ht⟩, hhead⟩
    rw [List.getLast?_map] at ha
    obtain ⟨text, htext, hread⟩ := Option.map_eq_some_iff.mp ha
    rw [head?_readAll] at hhead
    obtain ⟨next, hnext, hread'⟩ := Option.map_eq_some_iff.mp hhead
    rw [ht] at hread
    rw [ofText_operand hread] at hread
    rw [(ofText_eq_endMark_iff next).mp hread'] at hnext
    exact hplace ⟨⟨text, htext, hread⟩, hnext⟩
  unfold ofArguments
  dsimp only
  rw [readAll_table hmark, readAll_append hmark, hfind _ rfl]
  split
  · rfl
  · exact collect_insert _ (endMark_not_mem hmark) hlast

/-- Between the path and the mark there is no place for a switch. -/
theorem ofArguments_insert_behind_path {before behind : List String} {path : Path} {table : Bool}
    (hmark : "--" ∉ before) (hplace : Meets before behind)
    (h : ofArguments (before ++ behind) = .ok (.lex path table)) :
    behind = ["--"] ∧ ofArguments (before ++ "--table" :: behind) = .error (.unrecognized ["--"]) := by
  obtain ⟨⟨text, hlast, htext⟩, hhead⟩ := hplace
  obtain ⟨front, rfl⟩ := List.getLast?_eq_some_iff.mp hlast
  obtain ⟨rest, rfl⟩ := List.head?_eq_some_iff.mp hhead
  have hplain : ∀ t, ambiguous t ∉ readAll (front ++ [text] ++ "--" :: rest) := fun t ha => ofArguments_of_ambiguous ha _ h
  have hfront : "--" ∉ front := fun hm => hmark (List.mem_append_left _ hm)
  have hread : readAll (front ++ [text] ++ "--" :: rest) =
      front.map ofText ++ operand text :: endMark :: rest.map operand := by
    rw [readAll_append hmark, readAll_mark, List.map_append, List.map_singleton, htext]
    simp
  rw [ofArguments_eq hplain, hread] at h
  obtain ⟨hrest, hleft⟩ := collect_insert_behind_path (endMark_not_mem hfront) h
  refine ⟨by rw [hrest], ?_⟩
  rw [hread, hrest] at hplain
  have hread' : readAll (front ++ [text] ++ "--table" :: "--" :: rest) =
      front.map ofText ++ [operand text, switch .table, endMark] := by
    rw [readAll_table hmark, readAll_mark, List.map_append, List.map_singleton, htext, hrest]
    simp
  rw [ofArguments_eq, hread', hleft]
  intro t ha
  rw [hread'] at ha
  exact hplain t (by simpa using ha)

end Request

end LoxLexer
