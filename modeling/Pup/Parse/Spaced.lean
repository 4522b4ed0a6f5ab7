/-
Spaces behind commas.

A list of arguments in parentheses has no place for white space, and a list without parentheses
has it behind every comma.  So a space behind a comma inside parentheses ends the list there
and, with no bracket to close it, the list is none; the parenthesis is no expression either, and
what is left is the name alone (`spaced_call_parsed_iff`).  Only an argument that is itself a
call without parentheses takes the comma and the space, and with them the arguments behind.
-/
import Pup.Parse.Inside
import Pup.Parse.Names

namespace Pup.Parse

open Peg
open Peg.Expression (opt star lit sat)

/-- The text of an argument, and what it is parsed to. -/
structure Argument where
  text : List Char
  tree : Expr
  parsed : parse grammar (rule .expression) text = .ok (some tree) []

/-- The arguments behind the first one, each with the number of spaces in front of it. -/
def behindFirst : List (Nat × Argument) → List Char
  | [] => [')']
  | (n, e) :: es => ',' :: (List.replicate n ' ' ++ (e.text ++ behindFirst es))

def callText (name : String) (e : Argument) (es : List (Nat × Argument)) : List Char :=
  name.toList ++ '(' :: (e.text ++ behindFirst es)

/-- The call with all of the arguments. -/
def call (name : String) (e : Argument) (es : List (Nat × Argument)) : Expr :=
  .varOrInvoke (.name name) (some (e.tree :: es.map fun (_, e) => e.tree)) none none

def unspaced (es : List (Nat × Argument)) : List (Nat × Argument) := es.map fun (_, e) => (0, e)

/-! ### Lists without parentheses -/

theorem Argument.head (e : Argument) (t : List Char) :
    (e.text ++ t).head?.any beginsSpace = false := by
  have hprimary := begins_expression.head_of_ok e.parsed
  cases htext : e.text with
  | nil =>
      rw [htext] at hprimary
      cases hprimary
  | cons c r =>
      rw [htext] at hprimary
      exact beginsSpace_of_beginsPrimary hprimary

theorem skipSpace_replicate (n : Nat) (s : List Char) :
    skipSpace false (List.replicate n ' ' ++ s) = skipSpace false s := by
  induction n with
  | zero => rfl
  | succ n ih =>
      rw [List.replicate_succ, List.cons_append, ← ih]
      rfl

/-- Where an argument ends: in front of the next one, or with all of them taken. -/
theorem Argument.parse_text (e : Argument) {es : List (Nat × Argument)}
    (hu : Behind (behindFirst es) [')']) :
    parse grammar (rule .expression) (e.text ++ behindFirst es) =
        .ok (some e.tree) (behindFirst es) ∨
      es ≠ [] ∧ ∃ b, parse grammar (rule .expression) (e.text ++ behindFirst es) = .ok b [')'] := by
  cases es with
  | nil => exact .inl (parse_in_brackets e.parsed rfl [])
  | cons p es => exact (parse_before_comma e.parsed hu).imp_right fun h => ⟨by simp, h⟩

/-- A list without parentheses takes everything up to the bracket. -/
theorem behind_behindFirst (es : List (Nat × Argument)) : Behind (behindFirst es) [')'] := by
  induction es with
  | nil => exact behind_of_closing rfl []
  | cons p es ih =>
      obtain ⟨n, e⟩ := p
      refine ⟨rfl, ?_, rfl⟩
      have hround : ∀ {b t}, parse grammar (rule .expression) (e.text ++ behindFirst es) = .ok b t →
          parse grammar argsStep (behindFirst ((n, e) :: es)) = .ok b t := by
        intro b t h
        rw [parse_argsStep, behindFirst]
        have hcomma : (',' :: (List.replicate n ' ' ++ (e.text ++ behindFirst es))).dropWhile
            isBlank = ',' :: (List.replicate n ' ' ++ (e.text ++ behindFirst es)) := rfl
        have hlit : ∀ r, parse grammar (lit ",") (',' :: r) = .ok "," r :=
          fun r => parse_lit_append (w := ",") r
        rw [hcomma, hlit, Result.on_ok, skipSpace_replicate, skipSpace_of_head (e.head _), h]
      change ∃ as, parse grammar (star argsStep) _ = _
      rcases e.parse_text ih with h | ⟨-, b, h⟩
      · obtain ⟨as, has⟩ := ih.list
        have has : parse grammar (star argsStep) (behindFirst es) = .ok as [')'] := has
        refine ⟨some e.tree :: as, ?_⟩
        rw [parse_star, hround h, Result.on_ok, has]
        rfl
      · have hend : parse grammar (star argsStep) [')'] = .ok [] [')'] :=
          parse_argsTail_of_closing rfl []
        refine ⟨[b], ?_⟩
        rw [parse_star, hround h, Result.on_ok, hend]
        rfl

/-! ### Lists in parentheses -/

/-- The list comes to the bracket, with all the arguments only if there is no space; or it ends
in front of a comma. -/
theorem parse_moreArgs (es : List (Nat × Argument)) :
    ∃ as t, parse grammar moreArgs (behindFirst es) = .ok as t ∧
      (t = [')'] ∧ (as.length = es.length → ∀ p ∈ es, p.1 = 0) ∨ ∃ r, t = ',' :: r) := by
  induction es with
  | nil => exact ⟨[], [')'], parse_moreArgs_closed [], .inl ⟨rfl, by simp⟩⟩
  | cons p es ih =>
      obtain ⟨n, e⟩ := p
      have hstep : parse grammar (lit "," *> rule .expression : Exp (Option Expr))
          (behindFirst ((n, e) :: es)) = parse grammar (rule .expression)
            (List.replicate n ' ' ++ (e.text ++ behindFirst es)) := by
        rw [parse_seqRight, behindFirst]
        rfl
      rw [moreArgs, parse_star, hstep, ← moreArgs]
      cases n with
      | succ n =>
          have hfail : parse grammar (rule .expression)
              (List.replicate (n + 1) ' ' ++ (e.text ++ behindFirst es)) = .fail :=
            begins_expression _ rfl
          rw [hfail]
          exact ⟨[], _, rfl, .inr ⟨_, rfl⟩⟩
      | zero =>
          rw [List.replicate_zero, List.nil_append]
          rcases e.parse_text (behind_behindFirst es) with h | ⟨hne, b, h⟩
          · obtain ⟨as, t, hmore, hends⟩ := ih
            refine ⟨some e.tree :: as, t, by rw [h, Result.on_ok, hmore]; rfl, ?_⟩
            refine hends.imp_left fun h => ⟨h.1, fun heq => ?_⟩
            simpa using h.2 (by simpa using heq)
          · refine ⟨[b], [')'], by rw [h, Result.on_ok, parse_moreArgs_closed []]; rfl, .inl ?_⟩
            have hlen := List.length_pos_iff.mpr hne
            refine ⟨rfl, fun heq => ?_⟩
            simp only [List.length_cons, List.length_nil] at heq
            omega

/-- A list that does not come to the bracket is no list of either kind. -/
theorem parse_args_fail {s r r' : List Char} {a : Option Expr} {as : List (Option Expr)}
    (h : parse grammar (rule .expression) s = .ok a (',' :: r))
    (hmore : parse grammar moreArgs (',' :: r) = .ok as (',' :: r')) :
    parse grammar (rule .args) ('(' :: s) = .fail := by
  have hmore : parse grammar (star (lit "," *> rule .expression)) (',' :: r) =
      .ok as (',' :: r') := hmore
  have hlist : parse grammar (rule .parenthesised_args) ('(' :: s) = .fail := by
    rw [parse_rule]
    simp [grammar, parse_lit, dropWord, parse_opt, h, hmore]
  have hexpression : parse grammar (rule .expression) ('(' :: s) = .fail := by
    refine parse_expression_fail ?_ (parse_left_hand_side_of_parenthesis s)
    rw [parse_primary_of_parenthesis, parse_rule]
    simp [grammar, parse_lit, dropWord, h]
  rw [parse_rule]
  change parse grammar (rule .parenthesised_args <|> rule .unparenthesised_args) _ = _
  rw [parse_orElse, hlist, Result.on_fail, parse_rule]
  simp [grammar, hexpression]

/-- The arguments of the call, if they are read. -/
theorem parse_args (e : Argument) (es : List (Nat × Argument)) :
    parse grammar (rule .args) ('(' :: (e.text ++ behindFirst es)) = .fail ∨
      ∃ as : List (Option Expr),
        parse grammar (rule .args) ('(' :: (e.text ++ behindFirst es)) = .ok (as.mapM id) [] ∧
        (as.length = es.length + 1 → ∀ p ∈ es, p.1 = 0) := by
  rcases e.parse_text (behind_behindFirst es) with h | ⟨hne, b, h⟩
  · obtain ⟨as, t, hmore, ⟨rfl, hzero⟩ | ⟨r, rfl⟩⟩ := parse_moreArgs es
    · refine .inr ⟨some e.tree :: as, parse_args_list h hmore, fun heq => hzero ?_⟩
      simpa using heq
    · left
      cases es with
      | nil =>
          rw [behindFirst, parse_moreArgs_closed []] at hmore
          cases hmore
      | cons p es => exact parse_args_fail h hmore
  · refine .inr ⟨[b], parse_args_list h (parse_moreArgs_closed []), fun heq => ?_⟩
    have hlen := List.length_pos_iff.mpr hne
    simp only [List.length_cons, List.length_nil] at heq
    omega

/-! ### Calls -/

variable {name : String} {e : Argument} {es : List (Nat × Argument)}

/-- A name that is called begins with no word that is seen inside. -/
theorem not_seenInside_of_call {s : List Char} {c : Expr} (hident : IsIdentifier name)
    (h : parse grammar (rule .expression) (name.toList ++ '(' :: s) = .ok (some c) [])
    (w : String) (hw : w ∈ seenInside) : ¬w.toList <+: name.toList := by
  rintro ⟨r, hr⟩
  have hends : Ends ('(' :: s) := ⟨rfl, rfl⟩
  have hbool : ∀ b : Bool, (if b then "true" else "false").toList ++ r = name.toList → False := by
    intro b hname
    rw [parse_expression_of_bool hident hname.symm hends] at h
    have hrest := (Result.ok.inj h).2
    simp at hrest
  have hbarred : ∀ w ∈ ["end", "else", "rescue"], w.toList ++ r = name.toList → False := by
    intro w hw hname
    rw [← hname, List.append_assoc, parse_expression_of_barred (barred_append hw _)] at h
    cases h
  simp only [seenInside, List.mem_cons, List.not_mem_nil, or_false] at hw
  rcases hw with rfl | rfl | rfl | rfl | rfl
  · exact hbarred "end" (by decide) hr
  · exact hbarred "else" (by decide) hr
  · exact hbarred "rescue" (by decide) hr
  · exact hbool true hr
  · exact hbool false hr

theorem length_of_mapM {as : List (Option Expr)} {bs : List Expr} (h : as.mapM id = some bs) :
    as.length = bs.length := by
  induction as generalizing bs with
  | nil =>
      cases h
      rfl
  | cons a as ih =>
      rw [List.mapM_cons] at h
      obtain ⟨b, -, h⟩ := Option.bind_eq_some_iff.mp h
      obtain ⟨bs', hbs, h⟩ := Option.bind_eq_some_iff.mp h
      cases h
      rw [List.length_cons, List.length_cons, ih hbs]

/-- A call that is read with all its arguments has no space behind a comma. -/
theorem unspaced_of_parsed (hident : IsIdentifier name)
    (h : parse grammar (rule .expression) (callText name e es) = .ok (some (call name e es)) []) :
    ∀ p ∈ es, p.1 = 0 := by
  have hseen := not_seenInside_of_call hident h
  have hparen : ∀ r : List Char, ('(' :: r).dropWhile isBlank = '(' :: r := fun _ => rfl
  rcases parse_args e es with hargs | ⟨as, hargs, hzero⟩
  · -- the name stands alone, and the parenthesis is left
    have hprimary := parse_primary_of_identifier (t := '(' :: (e.text ++ behindFirst es)) hident
      hseen rfl (by rwa [hparen]) rfl
    rw [callText, parse_expression_of_primary hprimary ⟨rfl, rfl⟩] at h
    cases h
  · have hcall := parse_call_of_identifier (u := '(' :: (e.text ++ behindFirst es)) (t := [])
      hident hseen rfl (by rwa [hparen]) rfl
    rw [callText, hcall] at h
    cases has : as.mapM id with
    | none =>
        rw [has] at h
        cases h
    | some bs =>
        rw [has] at h
        have hbs : bs = e.tree :: es.map fun (_, e) => e.tree := by
          have hvalue := Option.some.inj (Result.ok.inj h).1
          simpa [call] using hvalue
        refine hzero ?_
        rw [length_of_mapM has, hbs, List.length_cons, List.length_map]

/--
**With spaces behind its commas a call is parsed as without them only if there are none.**  Of
any name and any arguments, where the call without spaces is parsed as the call with these
arguments.
-/
theorem spaced_call_parsed_iff (hident : IsIdentifier name)
    (h : parse grammar (rule .expression) (callText name e (unspaced es)) =
      .ok (some (call name e es)) []) :
    parse grammar (rule .expression) (callText name e es) = .ok (some (call name e es)) [] ↔
      ∀ p ∈ es, p.1 = 0 := by
  refine ⟨unspaced_of_parsed hident, fun hzero => ?_⟩
  have hes : unspaced es = es := by
    refine (List.map_congr_left fun p hp => ?_).trans (List.map_id es)
    exact Prod.ext (hzero p hp).symm rfl
  rwa [hes] at h

/-- A name as an argument. -/
def nameArgument (name : String) (hident : IsIdentifier name)
    (hseen : ∀ w ∈ seenInside, ¬w.toList <+: name.toList) : Argument where
  text := name.toList
  tree := named name
  parsed := by simpa using parse_expression_of_identifier (t := []) hident hseen rfl

def blat : Argument :=
  nameArgument "blat" ⟨'b', "lat".toList, by decide, by decide, by decide⟩ (by decide)

def bar : Argument :=
  nameArgument "bar" ⟨'b', "ar".toList, by decide, by decide, by decide⟩ (by decide)

theorem isIdentifier_foo : IsIdentifier "foo" :=
  ⟨'f', "oo".toList, by decide, by decide, by decide⟩

theorem parse_foo_unspaced :
    parse grammar (rule .expression) (callText "foo" blat [(0, bar)]) =
      .ok (some (call "foo" blat [(0, bar)])) [] := by
  have hblat : parse grammar (rule .expression) (blat.text ++ behindFirst [(0, bar)]) =
      .ok (some (named "blat")) (behindFirst [(0, bar)]) :=
    parse_expression_of_identifier ⟨'b', "lat".toList, by decide, by decide, by decide⟩
      (by decide) rfl
  have hmore : parse grammar moreArgs (behindFirst [(0, bar)]) =
      .ok [some (named "bar")] [')'] := by
    have hbar : parse grammar (rule .expression) (bar.text ++ [')']) =
        .ok (some (named "bar")) [')'] := parse_in_brackets bar.parsed rfl []
    rw [moreArgs, parse_star, ← moreArgs, parse_seqRight]
    change (parse grammar (rule .expression) (bar.text ++ [')'])).on _ _ = _
    rw [hbar, Result.on_ok, parse_moreArgs_closed []]
    rfl
  exact parse_call_of_identifier (u := '(' :: (blat.text ++ behindFirst [(0, bar)])) (t := [])
    isIdentifier_foo (by decide) rfl (parse_args_list hblat hmore) rfl

theorem foo_spaced_iff :
    parse grammar (rule .expression) (callText "foo" blat [(1, bar)]) =
      .ok (some (call "foo" blat [(1, bar)])) [] ↔ ∀ p ∈ [(1, bar)], p.1 = 0 :=
  spaced_call_parsed_iff isIdentifier_foo parse_foo_unspaced

/-- `foo(blat, bar)` is no call with two arguments, and `foo(blat,bar)` is. -/
theorem foo_spaced_refused :
    parse grammar (rule .expression) "foo(blat,bar)".toList =
        .ok (some (.varOrInvoke (.name "foo") (some [named "blat", named "bar"]) none none)) [] ∧
      parse grammar (rule .expression) "foo(blat, bar)".toList ≠
        .ok (some (.varOrInvoke (.name "foo") (some [named "blat", named "bar"]) none none)) [] := by
  refine ⟨parse_foo_unspaced, fun h => ?_⟩
  have hcall : parse grammar (rule .expression) (callText "foo" blat [(1, bar)]) =
      .ok (some (call "foo" blat [(1, bar)])) [] := h
  exact Nat.one_ne_zero (unspaced_of_parsed isIdentifier_foo hcall (1, bar) (by simp))

end Pup.Parse
