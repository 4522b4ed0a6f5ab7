/-
What the rules for tokens do, as functions.

Below the level of statements and expressions the grammar is a scanner: blanks, white space
with comments, names and strings each run as far as they can.  Here every such rule gets the
function on characters that it is, by induction on the text, so that nothing above looks into
its loops again.

For a loop over one kind of character that is `dropWhile`.  White space and the ends of lines
are loops over alternatives, one of which, a comment, has a loop inside, and need functions of
their own: `skipSpace` carries along whether it is in a comment and is by recursion on the text,
while `skipLines` drops a whole line at a time and is by recursion on the length, which
`lineEnd_length` bounds.
-/
import Pup.Parse.Strings

namespace Pup.Parse

open Peg
open Peg.Expression (opt plus)

def isWhite (c : Char) : Bool := isBlank c || isEol c

/-! ### Blanks -/

theorem parse_white_noeol (s : List Char) :
    parse grammar (rule .white_noeol) s =
      if s.head?.any isBlank then .ok () (s.dropWhile isBlank) else .fail := by
  rw [parse_rule]
  simp only [grammar, parse_map, parse_plus]
  cases s with
  | nil => rfl
  | cons c s =>
      rw [parse_sat_cons]
      by_cases hc : isBlank c = true
      · simp [hc, parse_star_sat]
      · simp [hc]

theorem dropWhile_of_head {p : Char → Bool} {s : List Char} (h : s.head?.any p = false) :
    s.dropWhile p = s := by
  cases s with
  | nil => rfl
  | cons c s =>
      have hc : p c = false := by simpa using h
      simp [hc]

theorem takeWhile_of_head {p : Char → Bool} {s : List Char} (h : s.head?.any p = false) :
    s.takeWhile p = [] := by
  cases s with
  | nil => rfl
  | cons c s =>
      have hc : p c = false := by simpa using h
      simp [hc]

theorem head_dropWhile (p : Char → Bool) (s : List Char) :
    (s.dropWhile p).head?.any p = false := by
  induction s with
  | nil => rfl
  | cons c s ih =>
      by_cases hc : p c = true
      · simpa [hc] using ih
      · simp [hc]

theorem parse_optBlank (s : List Char) :
    ∃ v, parse grammar optBlank s = .ok v (s.dropWhile isBlank) := by
  rw [optBlank, parse_opt, parse_white_noeol]
  by_cases hs : s.head?.any isBlank = true
  · rw [if_pos hs]
    exact ⟨_, rfl⟩
  · rw [if_neg hs, dropWhile_of_head (by simpa using hs)]
    exact ⟨_, rfl⟩

/-- `white_noeol*` -/
theorem parse_blanks (s : List Char) :
    ∃ v, parse grammar (.star (rule .white_noeol)) s = .ok v (s.dropWhile isBlank) := by
  rw [parse_star, parse_white_noeol]
  by_cases hs : s.head?.any isBlank = true
  · rw [if_pos hs, Result.on_ok, parse_star, parse_white_noeol, head_dropWhile]
    exact ⟨_, rfl⟩
  · rw [if_neg hs, dropWhile_of_head (by simpa using hs)]
    exact ⟨_, rfl⟩

/-! ### White space and comments

`space` is one or more of blanks, ends of lines and comments.  A comment goes on to the end of
its line and leaves that for the next turn of the loop, so a comment and what follows it are
skipped alike whether one turn took both or two.
-/

theorem parse_comment (s : List Char) :
    parse grammar (rule .comment_to_eol) ('#' :: s) = .ok () (s.dropWhile (· != '\n')) := by
  have hrest : ∀ s : List Char, ∃ v, parse grammar
      (.star (.notAt (.lit "\n") *> .sat fun _ => true)) s = .ok v (s.dropWhile (· != '\n')) := by
    intro s
    induction s with
    | nil =>
        rw [parse_star]
        exact ⟨[], by simp [parse_lit, dropWord]⟩
    | cons c s ih =>
        obtain ⟨v, hv⟩ := ih
        rw [parse_star]
        by_cases hc : c = '\n'
        · exact ⟨[], by simp [parse_lit, dropWord, hc]⟩
        · exact ⟨c :: v, by simp [parse_lit, dropWord, hc, Ne.symm hc, hv]⟩
  obtain ⟨v, hv⟩ := hrest s
  rw [parse_rule]
  simp [grammar, parse_lit, dropWord, hv]

theorem parse_comment_fail {s : List Char} (h : s.head? ≠ some '#') :
    parse grammar (rule .comment_to_eol) s = .fail := by
  rw [parse_rule]
  cases s with
  | nil => simp [grammar, parse_lit, dropWord]
  | cons c s =>
      have hc : c ≠ '#' := by simpa using h
      simp [grammar, parse_lit, dropWord, Ne.symm hc]

/-- What is left behind white space and comments. -/
def skipSpace (inComment : Bool) : List Char → List Char
  | [] => []
  | c :: s =>
      if inComment then skipSpace (c != '\n') s
      else if isWhite c then skipSpace false s
      else if c = '#' then skipSpace true s
      else c :: s

def beginsSpace (c : Char) : Bool := isWhite c || c == '#'

/-- White space ends a comment, or the text does. -/
theorem skipSpace_comment (s : List Char) :
    skipSpace true s = skipSpace false (s.dropWhile (· != '\n')) := by
  induction s with
  | nil => rfl
  | cons c s ih =>
      rw [skipSpace, if_pos rfl]
      by_cases hc : c = '\n'
      · subst hc
        rfl
      · have hnl : (c != '\n') = true := by simpa using hc
        rw [hnl, ih]
        simp [hnl]

/-- One round of `space`. -/
theorem parse_whiteOrComment (s : List Char) :
    parse grammar (rule .white <|> rule .comment_to_eol) s =
      match s with
      | [] => .fail
      | c :: s =>
          if isWhite c then .ok () s
          else if c = '#' then .ok () (s.dropWhile (· != '\n'))
          else .fail := by
  have hwhite : ∀ c s, parse grammar (rule .white) (c :: s) =
      if isWhite c then .ok () s else .fail := by
    intro c s
    rw [parse_rule]
    by_cases hc : isWhite c = true
    · have h : (isBlank c || isEol c) = true := hc
      simp [grammar, h, hc]
    · have h : (isBlank c || isEol c) = false := by simpa [isWhite] using hc
      simp [grammar, h, hc]
  rw [parse_orElse]
  cases s with
  | nil =>
      rw [parse_rule]
      exact parse_comment_fail (by simp)
  | cons c s =>
      rw [hwhite]
      by_cases hc : isWhite c = true
      · simp [hc]
      · rw [if_neg hc, Result.on_fail]
        by_cases hhash : c = '#'
        · subst hhash
          exact parse_comment s
        · simp only [hc, hhash, if_false]
          exact parse_comment_fail (by simpa using hhash)

theorem parse_whites (s : List Char) :
    ∃ v, parse grammar (.star (rule .white <|> rule .comment_to_eol)) s =
      .ok v (skipSpace false s) := by
  induction hn : s.length using Nat.strong_induction_on generalizing s with
  | _ n ih =>
      rw [parse_star, parse_whiteOrComment]
      cases s with
      | nil => exact ⟨[], rfl⟩
      | cons c s =>
          rw [List.length_cons] at hn
          by_cases hc : isWhite c = true
          · obtain ⟨v, hv⟩ := ih s.length (by omega) s rfl
            exact ⟨() :: v, by simp [hc, hv, skipSpace]⟩
          · by_cases hhash : c = '#'
            · subst hhash
              have hlen : (s.dropWhile (· != '\n')).length ≤ s.length :=
                (List.dropWhile_suffix _).length_le
              obtain ⟨v, hv⟩ := ih _ (by omega) (s.dropWhile (· != '\n')) rfl
              exact ⟨() :: v, by simp [hc, hv, skipSpace, skipSpace_comment]⟩
            · exact ⟨[], by simp [hc, hhash, skipSpace]⟩

theorem parse_space (s : List Char) :
    parse grammar (rule .space) s =
      if s.head?.any beginsSpace then .ok () (skipSpace false s) else .fail := by
  obtain ⟨v, hv⟩ := parse_whites s
  rw [parse_star, parse_whiteOrComment] at hv
  rw [parse_rule]
  simp only [grammar, parse_map, parse_plus]
  rw [parse_whiteOrComment]
  cases s with
  | nil => rfl
  | cons c s =>
      by_cases hc : isWhite c = true
      · simp only [hc, if_true, Result.on_ok] at hv ⊢
        simp [hv, beginsSpace, hc]
      · by_cases hhash : c = '#'
        · subst hhash
          exact congrArg (Result.map fun _ => ()) hv
        · simp [hc, hhash, beginsSpace]

theorem skipSpace_of_head {s : List Char} (h : s.head?.any beginsSpace = false) :
    skipSpace false s = s := by
  cases s with
  | nil => rfl
  | cons c s =>
      simp only [beginsSpace, List.head?_cons, Option.any_some, Bool.or_eq_false_iff,
        beq_eq_false_iff_ne] at h
      simp [skipSpace, h.1, h.2]

theorem head_skipSpace (b : Bool) (s : List Char) :
    (skipSpace b s).head?.any beginsSpace = false := by
  induction s generalizing b with
  | nil => rfl
  | cons c s ih =>
      rw [skipSpace]
      split
      · exact ih _
      · split
        · exact ih _
        · split
          · exact ih _
          · simp_all [beginsSpace]

theorem parse_optSpace (s : List Char) :
    ∃ v, parse grammar optSpace s = .ok v (skipSpace false s) := by
  rw [optSpace, parse_opt, parse_space]
  by_cases hs : s.head?.any beginsSpace = true
  · rw [if_pos hs]
    exact ⟨_, rfl⟩
  · rw [if_neg hs, skipSpace_of_head (by simpa using hs)]
    exact ⟨_, rfl⟩

/-- `space*` -/
theorem parse_spaces (s : List Char) :
    ∃ v, parse grammar (.star (rule .space)) s = .ok v (skipSpace false s) := by
  rw [parse_star, parse_space]
  by_cases hs : s.head?.any beginsSpace = true
  · rw [if_pos hs, Result.on_ok, parse_star, parse_space, head_skipSpace]
    exact ⟨_, rfl⟩
  · rw [if_neg hs, skipSpace_of_head (by simpa using hs)]
    exact ⟨_, rfl⟩

/-! ### Ends of lines

`space_eol` wants the end of a line and takes with it all lines on which nothing is.  Behind the
last of them it leaves the blanks at the start of the next line where they are, which is what
makes indentation visible to the rules above.
-/

/-- What is left behind the end of the line, if only blanks and a comment stand before it. -/
def lineEnd (s : List Char) : Option (List Char) :=
  match s.dropWhile isBlank with
  | [] => none
  | c :: t =>
      if isEol c then some t
      else if c = '#' then
        match t.dropWhile (· != '\n') with
        | [] => none
        | _ :: u => some u
      else none

theorem lineEnd_length {s t : List Char} (h : lineEnd s = some t) : t.length < s.length := by
  have hblanks : (s.dropWhile isBlank).length ≤ s.length := (List.dropWhile_suffix _).length_le
  unfold lineEnd at h
  split at h
  · cases h
  · next c r hr =>
      rw [hr, List.length_cons] at hblanks
      split at h
      · cases h
        omega
      · split at h
        · have hcomment : (r.dropWhile (· != '\n')).length ≤ r.length :=
            (List.dropWhile_suffix _).length_le
          split at h
          · cases h
          · next d u hu =>
              cases h
              rw [hu, List.length_cons] at hcomment
              omega
        · cases h

/-- What is left behind lines with nothing but blanks and comments. -/
def skipLines (s : List Char) : List Char :=
  match h : lineEnd s with
  | none => s
  | some t =>
      have : t.length < s.length := lineEnd_length h
      skipLines t
termination_by s.length

theorem skipLines_of_none {s : List Char} (h : lineEnd s = none) : skipLines s = s := by
  rw [skipLines]
  split
  · rfl
  · next t ht =>
      rw [h] at ht
      cases ht

theorem skipLines_of_some {s t : List Char} (h : lineEnd s = some t) :
    skipLines s = skipLines t := by
  rw [skipLines]
  split
  · next ht =>
      rw [h] at ht
      cases ht
  · next u hu =>
      rw [h] at hu
      cases hu
      rfl

/-- Empty lines are skipped too. -/
theorem skipLines_dropWhile (s : List Char) : skipLines (s.dropWhile isEol) = skipLines s := by
  induction s with
  | nil => rfl
  | cons c s ih =>
      by_cases hc : isEol c = true
      · have hblank : isBlank c = false := by
          have hcases : c = '\n' ∨ c = '\r' := by simpa [isEol] using hc
          rcases hcases with rfl | rfl <;> decide
        have hend : lineEnd (c :: s) = some s := by simp [lineEnd, hblank, hc]
        rw [List.dropWhile_cons_of_pos hc, ih, skipLines_of_some hend]
      · rw [List.dropWhile_cons_of_neg hc]

theorem parse_eols (s : List Char) :
    parse grammar (plus (.sat isEol)) s =
      match s with
      | [] => .fail
      | c :: s => if isEol c then .ok (c :: s.takeWhile isEol) (s.dropWhile isEol) else .fail := by
  rw [parse_plus]
  cases s with
  | nil => rfl
  | cons c s =>
      rw [parse_sat_cons]
      by_cases hc : isEol c = true
      · simp [hc, parse_star_sat]
      · simp [hc]

/-- One round of `space_eol`. -/
theorem parse_lineEnd (s : List Char) :
    ∃ v, parse grammar (.star (rule .white_noeol) *> opt (rule .comment_to_eol) *>
        plus (.sat isEol)) s =
      (lineEnd s).elim .fail fun t => .ok v (t.dropWhile isEol) := by
  obtain ⟨w, hw⟩ := parse_blanks s
  rw [parse_seqRight, parse_seqRight, hw, Result.on_ok, lineEnd, parse_opt]
  cases s.dropWhile isBlank with
  | nil =>
      rw [parse_comment_fail (by simp), Result.on_fail, Result.on_ok, parse_eols]
      exact ⟨[], rfl⟩
  | cons c t =>
      by_cases hc : isEol c = true
      · have hhash : c ≠ '#' := by
          rintro rfl
          cases hc
        rw [parse_comment_fail (by simpa using hhash), Result.on_fail, Result.on_ok, parse_eols]
        exact ⟨c :: t.takeWhile isEol, by simp [hc]⟩
      · by_cases hhash : c = '#'
        · subst hhash
          rw [parse_comment, Result.on_ok, Result.on_ok, parse_eols]
          have hstop := head_dropWhile (· != '\n') t
          simp only [if_neg hc, if_true]
          generalize t.dropWhile (· != '\n') = r at hstop ⊢
          cases r with
          | nil => exact ⟨[], rfl⟩
          | cons d u =>
              obtain rfl : d = '\n' := by simpa using hstop
              have hnl : isEol '\n' = true := rfl
              exact ⟨'\n' :: u.takeWhile isEol, by simp [hnl]⟩
        · rw [parse_comment_fail (by simpa using hhash), Result.on_fail, Result.on_ok, parse_eols]
          exact ⟨[], by simp [hc, hhash]⟩

theorem parse_space_eol (s : List Char) :
    parse grammar (rule .space_eol) s =
      (lineEnd s).elim .fail fun t => .ok () (skipLines t) := by
  have hrounds : ∀ s : List Char, ∃ v, parse grammar (.star (.star (rule .white_noeol) *>
      opt (rule .comment_to_eol) *> plus (.sat isEol))) s = .ok v (skipLines s) := by
    intro s
    induction hn : s.length using Nat.strong_induction_on generalizing s with
    | _ n ih =>
        obtain ⟨v, hv⟩ := parse_lineEnd s
        rw [parse_star, hv]
        cases hs : lineEnd s with
        | none =>
            rw [skipLines_of_none hs]
            exact ⟨[], rfl⟩
        | some t =>
            have hlt := lineEnd_length hs
            have hle : (t.dropWhile isEol).length ≤ t.length := (List.dropWhile_suffix _).length_le
            obtain ⟨vs, hvs⟩ := ih _ (by omega) (t.dropWhile isEol) rfl
            rw [skipLines_of_some hs, ← skipLines_dropWhile t]
            exact ⟨v :: vs, by simp [hvs]⟩
  obtain ⟨v, hv⟩ := parse_lineEnd s
  rw [parse_rule]
  change parse grammar ((fun _ => ()) <$> plus _) s = _
  rw [parse_map, parse_plus, hv]
  cases lineEnd s with
  | none => rfl
  | some t =>
      obtain ⟨vs, hvs⟩ := hrounds (t.dropWhile isEol)
      simp [hvs, skipLines_dropWhile]

/-- A line does not end in front of anything but white space and comments. -/
theorem parse_space_eol_fail {s : List Char} (h : s.head?.any beginsSpace = false) :
    parse grammar (rule .space_eol) s = .fail := by
  have hend : lineEnd s = none := by
    cases s with
    | nil => rfl
    | cons c s =>
        simp only [List.head?_cons, Option.any_some, beginsSpace, isWhite, Bool.or_eq_false_iff,
          beq_eq_false_iff_ne] at h
        simp [lineEnd, h.1.1, h.1.2, h.2]
  rw [parse_space_eol, hend]
  rfl

/-! ### Names

No rule asks that a word ends where a keyword does: `lit "end"` matches the start of `ending`.
The rules for names read as far as they can, and so are exact about where they stop.
-/

theorem parse_lit_fail {w : String} {s : List Char} (h : dropWord w.toList s = none) :
    parse grammar (.lit w) s = .fail := by
  rw [parse_lit, h]
  rfl

theorem parse_lit_append {w : String} (t : List Char) :
    parse grammar (.lit w) (w.toList ++ t) = .ok w t := by
  rw [parse_lit, dropWord_append]
  rfl

theorem parse_constant (s : List Char) :
    parse grammar (rule .constant) s =
      match s with
      | [] => .fail
      | c :: s =>
          if c.isUpper then .ok (ident c (s.takeWhile identRest)) (s.dropWhile identRest)
          else .fail := by
  rw [parse_rule]
  cases s with
  | nil => rfl
  | cons c s =>
      by_cases hc : c.isUpper = true
      · simp [grammar, hc, parse_star_sat]
      · simp [grammar, hc]

theorem identRest_of_identStart {c : Char} (h : identStart c = true) : identRest c = true := by
  simp only [identStart, Bool.or_eq_true] at h
  show (((c.isUpper || c.isLower) || c.isDigit) || c == '_') = true
  rcases h with h | h
  · simp [h]
  · simp [h]

theorem identRest_of_isUpper {c : Char} (h : c.isUpper = true) : identRest c = true := by
  show (((c.isUpper || c.isLower) || c.isDigit) || c == '_') = true
  simp [h]

theorem beginsSpace_of_identRest {c : Char} (h : identRest c = true) : beginsSpace c = false := by
  by_contra hspace
  have hc : c = ' ' ∨ c = '\t' ∨ c = '\n' ∨ c = '\r' ∨ c = '#' := by
    rw [Bool.not_eq_false] at hspace
    simpa [beginsSpace, isWhite, isBlank, isEol, or_assoc] using hspace
  rcases hc with rfl | rfl | rfl | rfl | rfl <;> exact absurd h (by decide)

/-- The words that no name begins with. -/
def barred (s : List Char) : Bool :=
  (dropWord "end".toList s).isSome || (dropWord "else".toList s).isSome ||
    (dropWord "rescue".toList s).isSome

theorem barred_cases {s : List Char} (h : barred s = true) :
    ∃ w ∈ ["end", "else", "rescue"], ∃ r, s = w.toList ++ r := by
  simp only [barred, Bool.or_eq_true, Option.isSome_iff_exists, dropWord_eq_some_iff] at h
  rcases h with (h | h) | h
  · exact ⟨"end", by decide, h⟩
  · exact ⟨"else", by decide, h⟩
  · exact ⟨"rescue", by decide, h⟩

theorem barred_append {w : String} (hw : w ∈ ["end", "else", "rescue"]) (r : List Char) :
    barred (w.toList ++ r) = true := by
  simp only [barred, Bool.or_eq_true, Option.isSome_iff_exists, dropWord_eq_some_iff]
  simp only [List.mem_cons, List.not_mem_nil, or_false] at hw
  rcases hw with rfl | rfl | rfl
  · exact .inl (.inl ⟨r, rfl⟩)
  · exact .inl (.inr ⟨r, rfl⟩)
  · exact .inr ⟨r, rfl⟩

theorem parse_notAt_lit (w : String) (s : List Char) :
    parse grammar (.notAt (.lit w)) s =
      if (dropWord w.toList s).isSome then .fail else .ok () s := by
  rw [parse_notAt, parse_lit]
  cases dropWord w.toList s <;> rfl

theorem parse_thename (s : List Char) :
    parse grammar (rule .thename) s =
      if barred s then .fail
      else match s with
        | [] => .fail
        | c :: s =>
            if identStart c then .ok (ident c (s.takeWhile identRest)) (s.dropWhile identRest)
            else .fail := by
  rw [parse_rule]
  simp only [grammar, parse_seqRight, parse_notAt_lit, barred]
  have hname : ∀ s : List Char, parse grammar
      (ident <$> .sat identStart <*> .star (.sat identRest)) s =
        match s with
        | [] => .fail
        | c :: s =>
            if identStart c then .ok (ident c (s.takeWhile identRest)) (s.dropWhile identRest)
            else .fail := by
    intro s
    cases s with
    | nil => rfl
    | cons c s =>
        by_cases hc : identStart c = true
        · simp [hc, parse_star_sat]
        · simp [hc]
  by_cases h₁ : (dropWord "end".toList s).isSome = true
  · simp only [h₁, if_true, Result.on_fail, Bool.true_or]
  · rw [if_neg h₁, Result.on_ok]
    by_cases h₂ : (dropWord "else".toList s).isSome = true
    · simp only [h₂, if_true, Result.on_fail, Bool.or_true, Bool.true_or]
    · rw [if_neg h₂, Result.on_ok]
      by_cases h₃ : (dropWord "rescue".toList s).isSome = true
      · simp only [h₃, if_true, Result.on_fail, Bool.or_true]
      · rw [if_neg h₃, Result.on_ok, hname]
        simp only [h₁, h₂, h₃, Bool.or_self, if_false, Bool.false_eq_true]

theorem parse_thename_ok {s t : List Char} {w : String}
    (h : parse grammar (rule .thename) s = .ok w t) :
    ∃ c r, s = c :: r ∧ barred s = false ∧ identStart c = true ∧
      w = ident c (r.takeWhile identRest) ∧ t = r.dropWhile identRest := by
  rw [parse_thename] at h
  by_cases hb : barred s = true
  · rw [if_pos hb] at h
    cases h
  · rw [if_neg hb] at h
    cases s with
    | nil => cases h
    | cons c r =>
        by_cases hc : identStart c = true
        · simp only [hc, if_true] at h
          cases h
          exact ⟨c, r, rfl, by simpa using hb, hc, rfl, rfl⟩
        · simp [hc] at h

theorem parse_instvar (s : List Char) :
    parse grammar (rule .instvar) s =
      match s with
      | '@' :: c :: s =>
          if identStart c then .ok (ident '@' (c :: s.takeWhile identRest)) (s.dropWhile identRest)
          else .fail
      | _ => .fail := by
  rw [parse_rule]
  match s with
  | [] => rfl
  | [c] =>
      by_cases hc : c = '@'
      · simp [grammar, parse_lit, dropWord, hc]
      · simp [grammar, parse_lit, dropWord, Ne.symm hc]
  | c :: d :: s =>
      by_cases hc : c = '@'
      · by_cases hd : identStart d = true
        · simp [grammar, parse_lit, dropWord, hc, hd, parse_star_sat]
        · simp [grammar, parse_lit, dropWord, hc, hd]
      · simp [grammar, parse_lit, dropWord, hc, Ne.symm hc]

theorem parse_number (s : List Char) :
    parse grammar (rule .number) s =
      match s with
      | [] => .fail
      | c :: s =>
          if c.isDigit && c != '0' then
            .ok (some (.int (ident c (s.takeWhile Char.isDigit)))) (s.dropWhile Char.isDigit)
          else if c = '0' then .ok (some (.int "0")) s
          else .fail := by
  rw [parse_rule]
  cases s with
  | nil => simp [grammar, parse_lit, dropWord]
  | cons c s =>
      by_cases hc : (c.isDigit && c != '0') = true
      · simp only [grammar, parse_map, parse_orElse, parse_seq, parse_sat_cons, hc, if_true,
          parse_star_sat]
        rfl
      · by_cases hz : c = '0'
        · simp [grammar, parse_lit, dropWord, hz]
        · simp [grammar, parse_lit, dropWord, hc, hz, Ne.symm hz]

theorem parse_bool (s : List Char) :
    parse grammar (rule .bool) s =
      match dropWord "true".toList s with
      | some t => .ok (some (.bool true)) t
      | none =>
          match dropWord "false".toList s with
          | some t => .ok (some (.bool false)) t
          | none => .fail := by
  rw [parse_rule]
  simp only [grammar, parse_orElse, parse_map, parse_lit]
  cases dropWord "true".toList s with
  | some t => rfl
  | none => cases dropWord "false".toList s <;> rfl

/-! ### Strings

One rule, for either quote.  A backslash is looked at together with the character behind it, so
the induction is over the text with a flag for a backslash just passed.
-/

/-- The characters up to the quote that ends a string, and those behind it.  A quote or a
backslash that a backslash escapes belongs to the string; any other character does in any case. -/
def untilQuote (quote : Char) (escaped : Bool) : List Char → Option (List Char × List Char)
  | [] => none
  | c :: s =>
      if escaped then (untilQuote quote false s).map fun (x, t) => (c :: x, t)
      else if c = quote then some ([], s)
      else (untilQuote quote (c == '\\') s).map fun (x, t) => (c :: x, t)

section Quotes

variable {q : Char} {quote escaped : String} (hquote : quote.toList = [q])
  (hescaped : escaped.toList = ['\\', q])

include hquote hescaped

theorem parse_quotedChar (s : List Char) :
    parse grammar (quotedChar quote escaped) s =
      match s with
      | [] => .fail
      | [c] => if c = q then .fail else .ok [c] []
      | c :: d :: s =>
          if c = q then .fail
          else if c = '\\' ∧ (d = '\\' ∨ d = q) then .ok [c, d] s
          else .ok [c] (d :: s) := by
  have hat : parse grammar (.notAt (.lit quote)) s =
      if s.head? = some q then .fail else .ok () s := by
    rw [parse_notAt_lit, hquote]
    cases s with
    | nil => rfl
    | cons c s =>
        by_cases hc : c = q
        · simp [dropWord, hc]
        · simp [dropWord, hc, Ne.symm hc]
  rw [quotedChar, parse_seqRight, hat]
  cases s with
  | nil => simp [parse_lit, hescaped, dropWord]
  | cons c s =>
      by_cases hc : c = q
      · cases s <;> simp [hc]
      · have hhead : ¬(c :: s).head? = some q := by simpa using hc
        rw [if_neg hhead, Result.on_ok]
        by_cases hb : c = '\\'
        · subst hb
          cases s with
          | nil => simp [parse_lit, hescaped, dropWord, hc]
          | cons d s =>
              by_cases hd : d = '\\'
              · simp [parse_lit, dropWord, hc, hd]
              · by_cases hdq : d = q
                · simp [parse_lit, hescaped, dropWord, hc, hdq]
                · simp [parse_lit, hescaped, dropWord, hc, hd, hdq, Ne.symm hd, Ne.symm hdq]
        · cases s <;> simp [parse_lit, hescaped, dropWord, hc, hb, Ne.symm hb]

omit hquote hescaped in
/-- Two characters belong together only where the second is escaped by the first. -/
theorem untilQuote_pair {c d : Char} (hc : c ≠ q) (s : List Char) :
    untilQuote q false (c :: d :: s) =
      if c = '\\' ∧ (d = '\\' ∨ d = q) then
        (untilQuote q false s).map fun (x, t) => (c :: d :: x, t)
      else (untilQuote q false (d :: s)).map fun (x, t) => (c :: x, t) := by
  rw [untilQuote, if_neg (by simp), if_neg hc]
  by_cases hb : c = '\\'
  · have hesc : (c == '\\') = true := by simpa using hb
    rw [hesc, untilQuote, if_pos rfl, Option.map_map]
    by_cases hd : d = '\\' ∨ d = q
    · rw [if_pos ⟨hb, hd⟩]
      rfl
    · -- a character that needs no escape would have been taken as it is
      have hplain : (d == '\\') = false := by simpa using fun h => hd (.inl h)
      rw [if_neg (fun h => hd h.2), untilQuote, if_neg (by simp), if_neg (fun h => hd (.inr h)),
        hplain, Option.map_map]
  · have hesc : (c == '\\') = false := by simpa using hb
    rw [hesc, if_neg (fun h => hb h.1)]

theorem parse_untilQuote (s : List Char) :
    ∃ xs, (∃ t, parse grammar (.star (quotedChar quote escaped)) s = .ok xs (q :: t) ∧
        untilQuote q false s = some (xs.flatten, t)) ∨
      parse grammar (.star (quotedChar quote escaped)) s = .ok xs [] ∧
        untilQuote q false s = none := by
  induction hn : s.length using Nat.strong_induction_on generalizing s with
  | _ n ih =>
      rw [parse_star, parse_quotedChar hquote hescaped]
      match s with
      | [] => exact ⟨[], .inr ⟨rfl, rfl⟩⟩
      | [c] =>
          by_cases hc : c = q
          · exact ⟨[], .inl ⟨[], by simp [hc], by simp [untilQuote, hc]⟩⟩
          · have hend : parse grammar (.star (quotedChar quote escaped)) [] = .ok [] [] := by
              rw [parse_star, parse_quotedChar hquote hescaped]
              rfl
            exact ⟨[[c]], .inr ⟨by simp [hc, hend], by simp [untilQuote, hc]⟩⟩
      | c :: d :: s =>
          by_cases hc : c = q
          · exact ⟨[], .inl ⟨d :: s, by simp [hc], by simp [untilQuote, hc]⟩⟩
          · rw [untilQuote_pair hc]
            simp only [if_neg hc, List.length_cons] at hn ⊢
            by_cases hpair : c = '\\' ∧ (d = '\\' ∨ d = q)
            · obtain ⟨xs, ⟨t, h, hs⟩ | ⟨h, hs⟩⟩ := ih s.length (by omega) s rfl
              · exact ⟨[c, d] :: xs, .inl ⟨t, by simp [hpair, h], by simp [hpair, hs]⟩⟩
              · exact ⟨[c, d] :: xs, .inr ⟨by simp [hpair, h], by simp [hpair, hs]⟩⟩
            · obtain ⟨xs, ⟨t, h, hs⟩ | ⟨h, hs⟩⟩ := ih (s.length + 1) (by omega) (d :: s) rfl
              · exact ⟨[c] :: xs, .inl ⟨t, by simp [hpair, h], by simp [hpair, hs]⟩⟩
              · exact ⟨[c] :: xs, .inr ⟨by simp [hpair, h], by simp [hpair, hs]⟩⟩

theorem parse_quotes {β : Type} (g : List Char → β) (s : List Char) :
    parse grammar ((fun xs => g xs.flatten) <$>
        (.lit quote *> .star (quotedChar quote escaped) <* .lit quote)) (q :: s) =
      (untilQuote q false s).elim .fail fun (x, t) => .ok (g x) t := by
  have hopen : parse grammar (.lit quote) (q :: s) = .ok quote s := by
    rw [parse_lit, hquote]
    simp [dropWord]
  have hclose : ∀ t, parse grammar (.lit quote) (q :: t) = .ok quote t := by
    intro t
    rw [parse_lit, hquote]
    simp [dropWord]
  have hend : parse grammar (.lit quote) [] = .fail := by
    rw [parse_lit, hquote]
    rfl
  obtain ⟨xs, ⟨t, h, hs⟩ | ⟨h, hs⟩⟩ := parse_untilQuote hquote hescaped s
  · simp [hopen, h, hclose, hs]
  · simp [hopen, h, hend, hs]

omit hescaped in
theorem parse_quotes_fail {s : List Char} (h : s.head? ≠ some q) :
    parse grammar (.lit quote *> .star (quotedChar quote escaped) <* .lit quote) s = .fail := by
  have hopen : parse grammar (.lit quote) s = .fail := by
    refine parse_lit_fail ?_
    rw [hquote]
    cases s with
    | nil => rfl
    | cons c s =>
        have hc : c ≠ q := by simpa using h
        simp [dropWord, Ne.symm hc]
  simp [hopen]

end Quotes

/-- A string in quotes, its tree and what is behind it. -/
def readString : List Char → Option (Option Expr × List Char)
  | [] => none
  | c :: s =>
      if c = '"' then
        (untilQuote c false s).map fun (x, t) => (some (.string (ident c (x ++ [c]))), t)
      else if c = '\x27' then (untilQuote c false s).map fun (_, t) => (none, t)
      else none

theorem parse_double_quoted_string (s : List Char) :
    parse grammar (rule .double_quoted_string) s =
      match s with
      | [] => .fail
      | c :: s =>
          if c = '"' then
            (untilQuote '"' false s).elim .fail fun (x, t) =>
              .ok (some (.string (ident '"' (x ++ ['"'])))) t
          else .fail := by
  have hfail : ∀ s : List Char, s.head? ≠ some '"' →
      parse grammar (rule .double_quoted_string) s = .fail := by
    intro s hs
    rw [parse_rule]
    refine congrArg (Result.map _) (parse_quotes_fail ?_ hs)
    decide
  cases s with
  | nil => exact hfail [] (by simp)
  | cons c s =>
      by_cases hc : c = '"'
      · subst hc
        rw [parse_rule]
        refine parse_quotes ?_ ?_ (fun x => some (Expr.string (ident '"' (x ++ ['"'])))) s
        · decide
        · decide
      · simpa [hc] using hfail (c :: s) (by simpa using hc)

theorem parse_single_quoted_string (s : List Char) :
    parse grammar (rule .single_quoted_string) s =
      match s with
      | [] => .fail
      | c :: s =>
          if c = '\x27' then (untilQuote '\x27' false s).elim .fail fun (_, t) => .ok none t
          else .fail := by
  have hfail : ∀ s : List Char, s.head? ≠ some '\x27' →
      parse grammar (rule .single_quoted_string) s = .fail := by
    intro s hs
    rw [parse_rule]
    refine congrArg (Result.map _) (parse_quotes_fail ?_ hs)
    decide
  cases s with
  | nil => exact hfail [] (by simp)
  | cons c s =>
      by_cases hc : c = '\x27'
      · subst hc
        rw [parse_rule]
        refine parse_quotes ?_ ?_ (fun _ => (none : Option Expr)) s
        · decide
        · decide
      · simpa [hc] using hfail (c :: s) (by simpa using hc)

theorem parse_quoted_string (s : List Char) :
    parse grammar (rule .quoted_string) s =
      (readString s).elim .fail fun (v, t) => .ok v t := by
  rw [parse_rule]
  change parse grammar (rule .single_quoted_string <|> rule .double_quoted_string) s = _
  rw [parse_orElse, parse_single_quoted_string]
  refine (congrArg _ (parse_double_quoted_string s)).trans ?_
  cases s with
  | nil => rfl
  | cons c s =>
      by_cases hd : c = '"'
      · subst hd
        simp only [readString, if_true]
        cases untilQuote '"' false s <;> rfl
      · by_cases hs : c = '\x27'
        · subst hs
          simp only [readString, if_neg hd, if_true]
          cases untilQuote '\x27' false s <;> rfl
        · simp [readString, hd, hs]

end Pup.Parse
