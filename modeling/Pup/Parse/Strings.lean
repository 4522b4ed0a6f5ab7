/-
Strings in double quotes.

The grammar reads a string from left to right, with `\\` and `\"` as pairs, so every text
can be quoted (`parse_quoted`).  `StringLiteral#value` only turns `\"` back, and does so
without knowing where a pair begins: the second backslash of an escaped one before an escaped
quote is no trouble, since a third one comes before the quote, but no backslash is ever taken
back (`unescape_quoted`).
-/
import Pup.Parse.Grammar

namespace Pup.Parse

open Peg

/-- A character between double quotes. -/
def quotedAs (c : Char) : List Char :=
  if c = '\\' then ['\\', '\\'] else if c = '"' then ['\\', '"'] else [c]

/-- A text in double quotes. -/
def quoted (text : String) : List Char := '"' :: (text.toList.flatMap quotedAs ++ ['"'])

theorem quotedAs_cases (c : Char) :
    (c = '\\' ∧ quotedAs c = ['\\', '\\']) ∨ (c = '"' ∧ quotedAs c = ['\\', '"']) ∨
      (c ≠ '\\' ∧ c ≠ '"' ∧ quotedAs c = [c]) := by
  unfold quotedAs
  by_cases hc : c = '\\'
  · exact .inl ⟨hc, if_pos hc⟩
  · rw [if_neg hc]
    by_cases hq : c = '"'
    · exact .inr (.inl ⟨hq, if_pos hq⟩)
    · exact .inr (.inr ⟨hc, hq, if_neg hq⟩)

/-! ### What the grammar reads -/

theorem parse_quotedAs (c : Char) (t : List Char) :
    parse grammar (quotedChar "\"" "\\\"") (quotedAs c ++ t) = .ok (quotedAs c) t := by
  rcases quotedAs_cases c with ⟨-, h⟩ | ⟨-, h⟩ | ⟨hc, hq, h⟩
  · simp [quotedChar, parse_lit, dropWord, h]
  · simp [quotedChar, parse_lit, dropWord, h]
  · simp [quotedChar, parse_lit, dropWord, h, Ne.symm hc, Ne.symm hq]

theorem parse_quotedChars (cs t : List Char) :
    parse grammar (.star (quotedChar "\"" "\\\"")) (cs.flatMap quotedAs ++ '"' :: t) =
      .ok (cs.map quotedAs) ('"' :: t) := by
  induction cs with
  | nil =>
      rw [parse_star]
      simp [quotedChar, parse_lit, dropWord]
  | cons c cs ih =>
      rw [parse_star, List.flatMap_cons, List.append_assoc, parse_quotedAs]
      simp [ih]

/-- **A text in quotes is read to its end.** -/
theorem parse_quoted (text : String) :
    parse grammar (rule .double_quoted_string) (quoted text) =
      .ok (some (.string (String.ofList (quoted text)))) [] := by
  rw [parse_rule]
  have hopen : parse grammar (.lit "\"") (quoted text) =
      .ok "\"" (text.toList.flatMap quotedAs ++ ['"']) := by
    rw [parse_lit]
    rfl
  have hclose : parse grammar (.lit "\"") ['"'] = .ok "\"" [] := by
    rw [parse_lit]
    rfl
  simp only [grammar, parse_map, parse_seqRight, parse_seqLeft, hopen, Result.on_ok,
    parse_quotedChars, hclose, Result.map_ok]
  rw [List.flatten_eq_flatMap, List.flatMap_map]
  rfl

/-! ### What its value is -/

/-- An escaped character never begins with a quote. -/
theorem unescape_backslash (cs : List Char) :
    stringValue.unescape ('\\' :: cs.flatMap quotedAs) =
      '\\' :: stringValue.unescape (cs.flatMap quotedAs) := by
  cases cs with
  | nil => rfl
  | cons c cs =>
      rw [List.flatMap_cons]
      rcases quotedAs_cases c with ⟨-, h⟩ | ⟨-, h⟩ | ⟨-, hq, h⟩
      · rw [h]
        rfl
      · rw [h]
        rfl
      · rw [h, List.singleton_append, stringValue.unescape.eq_2]
        simpa using hq

/-- What becomes of a character that is quoted and taken back. -/
def doubled (c : Char) : List Char := if c = '\\' then ['\\', '\\'] else [c]

/-- Every backslash comes back twice. -/
theorem unescape_quoted (cs : List Char) :
    stringValue.unescape (cs.flatMap quotedAs) =
      cs.flatMap doubled := by
  induction cs with
  | nil => rfl
  | cons c cs ih =>
      rw [List.flatMap_cons, List.flatMap_cons]
      rcases quotedAs_cases c with ⟨rfl, h⟩ | ⟨rfl, h⟩ | ⟨hc, hq, h⟩
      · rw [h, doubled, if_pos rfl, ← ih]
        exact congrArg _ (unescape_backslash cs)
      · rw [h, doubled, if_neg (by decide), ← ih]
        rfl
      · rw [h, doubled, if_neg hc, ← ih, List.singleton_append, List.singleton_append,
          stringValue.unescape.eq_2]
        intro rest hrest
        exact absurd hrest hc

theorem length_le_doubled (cs : List Char) : cs.length ≤ (cs.flatMap doubled).length := by
  induction cs with
  | nil => simp
  | cons c cs ih =>
      rw [List.flatMap_cons, List.length_append, List.length_cons]
      unfold doubled at ih ⊢
      split
      · simp only [List.length_cons, List.length_nil]
        omega
      · simp only [List.length_cons, List.length_nil]
        omega

theorem doubled_eq_iff (cs : List Char) : cs.flatMap doubled = cs ↔ '\\' ∉ cs := by
  induction cs with
  | nil => simp
  | cons c cs ih =>
      rw [List.flatMap_cons]
      by_cases hc : c = '\\'
      · -- one backslash more than there are characters
        refine iff_of_false (fun h => ?_) (by simp [hc])
        have hlen := congrArg List.length h
        have hle := length_le_doubled cs
        rw [doubled, if_pos hc] at hlen
        simp only [List.length_append, List.length_cons, List.length_nil] at hlen
        omega
      · rw [doubled, if_neg hc, List.singleton_append, List.cons.injEq, List.mem_cons, not_or, ih]
        simp [Ne.symm hc]

theorem stringValue_quoted (text : String) :
    stringValue (String.ofList (quoted text)) =
      String.ofList (text.toList.flatMap doubled) := by
  unfold stringValue quoted
  rw [String.toList_ofList, List.drop_succ_cons, List.drop_zero, List.dropLast_concat,
    unescape_quoted]

/--
**A quoted text comes back unless there is a backslash in it.**  For every text: the source
that quotes it is accepted in full as a `StringLiteral` whose value is the text, exactly if it
has no backslash.
-/
theorem quoted_value_iff (text : String) :
    (∃ source, parse grammar (rule .double_quoted_string) (quoted text) =
      .ok (some (.string source)) [] ∧ stringValue source = text) ↔ '\\' ∉ text.toList := by
  rw [← doubled_eq_iff, parse_quoted]
  constructor
  · rintro ⟨source, hsource, hvalue⟩
    cases hsource
    rw [stringValue_quoted] at hvalue
    have htext := congrArg String.toList hvalue
    rwa [String.toList_ofList] at htext
  · intro h
    refine ⟨_, rfl, ?_⟩
    rw [stringValue_quoted, h, String.ofList_toList]

/-- One backslash is quoted as two, and two are its value. -/
theorem backslash_doubled :
    parse grammar (rule .double_quoted_string) ['"', '\\', '\\', '"'] =
        .ok (some (.string "\"\\\\\"")) [] ∧
      quoted "\\" = ['"', '\\', '\\', '"'] ∧ stringValue "\"\\\\\"" = "\\\\" :=
  ⟨parse_quoted "\\", by decide, by decide⟩

end Pup.Parse
