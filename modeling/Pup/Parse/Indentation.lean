/-
Indentation.

Two texts differ in the indentation of their lines if they are the same without it
(`unindent`); a line that starts inside a string has none.  Blanks at the start of a line are
taken by whatever comes first, the end of the line before, a place for white space or the list
of statements, and so they change nothing (`parse_reindented`).  There is one place where it
matters whether any are there: behind the head of a class or a method, if the body is missing.
Then a class wants its `end` at the very start of the line, and a method wants it anywhere else.
-/
import Mathlib.Data.List.Infix
import Pup.Parse.Names
import Pup.Parse.Pairs

namespace Pup.Parse

open Peg
open Peg.Expression (opt star lit sat)

/-- The next character is the first of its line, and not in a string. -/
def startsLine : Lex → Char → Bool
  | .code, c => isEol c
  | .comment, c => c == '\n'
  | .quoted _ _, _ => false

/-- The text without the blanks at the starts of its lines, from a place in it that may be such
a start. -/
def unindent : Bool → Lex → List Char → List Char
  | _, _, [] => []
  | start, lex, c :: s =>
      if start && isBlank c then unindent true lex s
      else c :: unindent (startsLine lex c) (lex.step c) s

/-- The texts are the same but for the indentation. -/
def Reindented (s s' : List Char) : Prop := unindent true .code s = unindent true .code s'

example : Reindented "if a\n  b\nend # c".toList "\tif a\nb\n    end # c".toList := by
  unfold Reindented
  decide

/-! ### What the indentation is not -/

@[simp] theorem unindent_false_cons (lex : Lex) (c : Char) (s : List Char) :
    unindent false lex (c :: s) = c :: unindent (startsLine lex c) (lex.step c) s := rfl

theorem step_blank {c : Char} (hc : isBlank c = true) :
    Lex.step .code c = .code ∧ startsLine .code c = false := by
  have hcases : c = ' ' ∨ c = '\t' := by simpa [isBlank] using hc
  rcases hcases with rfl | rfl <;> exact ⟨rfl, rfl⟩

theorem unindent_true (s : List Char) :
    unindent true .code s = unindent false .code (s.dropWhile isBlank) := by
  induction s with
  | nil => rfl
  | cons c s ih =>
      by_cases hc : isBlank c = true
      · rw [unindent, hc, List.dropWhile_cons_of_pos hc, ← ih]
        rfl
      · rw [unindent, List.dropWhile_cons_of_neg hc, unindent_false_cons]
        simp [hc]

theorem unindent_true_eq (s : List Char) :
    unindent true .code s = (unindent false .code s).dropWhile isBlank := by
  induction s with
  | nil => rfl
  | cons c s ih =>
      by_cases hc : isBlank c = true
      · obtain ⟨hstep, hstart⟩ := step_blank hc
        rw [unindent, hc, unindent_false_cons, List.dropWhile_cons_of_pos hc, hstep, hstart, ← ih]
        rfl
      · rw [unindent, unindent_false_cons, List.dropWhile_cons_of_neg hc]
        simp [hc]

/-- Related texts in the code begin with the same character. -/
theorem cons_of_unindent {lex : Lex} {c : Char} {r s' : List Char}
    (h : unindent false lex (c :: r) = unindent false lex s') :
    ∃ r', s' = c :: r' ∧
      unindent (startsLine lex c) (lex.step c) r = unindent (startsLine lex c) (lex.step c) r' := by
  cases s' with
  | nil => cases h
  | cons c' r' =>
      rw [unindent_false_cons, unindent_false_cons] at h
      obtain ⟨rfl, hr⟩ := List.cons.inj h
      exact ⟨r', rfl, hr⟩

theorem step_of_unindent {c : Char} {s s' : List Char} {Q : List Char → List Char → Prop}
    (hQ : ∀ {r r'}, unindent (startsLine .code c) (Lex.step .code c) r =
      unindent (startsLine .code c) (Lex.step .code c) r' → Q r r')
    (h : unindent false .code s = unindent false .code s') :
    Step (fun _ _ => True) Q c s s' := by
  constructor
  · rintro r rfl
    obtain ⟨r', rfl, hr⟩ := cons_of_unindent h
    exact ⟨r', rfl, hQ hr, id⟩
  · rintro r' rfl
    obtain ⟨r, rfl, -⟩ := cons_of_unindent h.symm
    exact ⟨r, rfl⟩

/-- The end of a comment. -/
theorem unindent_comment (r : List Char) :
    unindent false .code (r.dropWhile (· != '\n')) =
      (unindent false .comment r).dropWhile (· != '\n') := by
  induction r with
  | nil => rfl
  | cons c r ih =>
      by_cases hc : c = '\n'
      · subst hc
        rfl
      · have hne : (c != '\n') = true := by simpa using hc
        have hstep : Lex.step .comment c = .comment := by simp [Lex.step, hc]
        have hstart : startsLine .comment c = false := by simp [startsLine, hc]
        rw [List.dropWhile_cons_of_pos (by exact hne), unindent_false_cons,
          List.dropWhile_cons_of_pos (by exact hne), hstep, hstart, ih]

/-- A string is the same. -/
theorem untilQuote_of_unindent {q : Char} {escaped : Bool} {s s' x t : List Char}
    (h : unindent false (.quoted q escaped) s = unindent false (.quoted q escaped) s')
    (hs : untilQuote q escaped s = some (x, t)) :
    ∃ t', untilQuote q escaped s' = some (x, t') ∧
      unindent false .code t = unindent false .code t' := by
  induction s generalizing s' x escaped with
  | nil => cases hs
  | cons c s ih =>
      obtain ⟨r', rfl, hr⟩ := cons_of_unindent h
      rw [untilQuote] at hs ⊢
      cases escaped with
      | true =>
          obtain ⟨⟨x', t'⟩, hx, heq⟩ := Option.map_eq_some_iff.mp hs
          cases heq
          obtain ⟨t', ht', hcode⟩ := ih hr hx
          exact ⟨t', by simp [ht'], hcode⟩
      | false =>
          by_cases hc : c = q
          · rw [if_neg (by simp), if_pos hc] at hs ⊢
            cases hs
            refine ⟨r', rfl, ?_⟩
            simpa [startsLine, Lex.step, hc] using hr
          · rw [if_neg (by simp), if_neg hc] at hs ⊢
            have hstep : Lex.step (.quoted q false) c = .quoted q (c == '\\') := by
              simp [Lex.step, hc]
            rw [hstep] at hr
            obtain ⟨⟨x', t'⟩, hx, heq⟩ := Option.map_eq_some_iff.mp hs
            cases heq
            obtain ⟨t', ht', hcode⟩ := ih hr hx
            exact ⟨t', by simp [ht'], hcode⟩

theorem readString_of_unindent {s s' t : List Char} {a : Option Expr}
    (h : unindent false .code s = unindent false .code s') (hs : readString s = some (a, t)) :
    ∃ t', readString s' = some (a, t') ∧ unindent false .code t = unindent false .code t' := by
  cases s with
  | nil => cases hs
  | cons c r =>
      obtain ⟨r', rfl, hr⟩ := cons_of_unindent h
      rw [readString] at hs ⊢
      by_cases hd : c = '"'
      · subst hd
        rw [if_pos rfl] at hs ⊢
        obtain ⟨⟨x, t'⟩, hx, heq⟩ := Option.map_eq_some_iff.mp hs
        cases heq
        obtain ⟨t', ht', hcode⟩ := untilQuote_of_unindent hr hx
        exact ⟨t', by simp [ht'], hcode⟩
      · rw [if_neg hd] at hs ⊢
        by_cases hq : c = '\x27'
        · subst hq
          rw [if_pos rfl] at hs ⊢
          obtain ⟨⟨x, t'⟩, hx, heq⟩ := Option.map_eq_some_iff.mp hs
          cases heq
          obtain ⟨t', ht', hcode⟩ := untilQuote_of_unindent hr hx
          exact ⟨t', by simp [ht'], hcode⟩
        · rw [if_neg hq] at hs
          cases hs

/-! ### The pairing -/

theorem step_plain {c : Char} (h : isPlain c = true) : Lex.step .code c = .code := by
  obtain ⟨hhash, hquote, -, -⟩ := isPlain_iff.mp h
  simp [Lex.step, hhash, hquote]

/-- A character in the code that does not end a line. -/
theorem step_code {c : Char} {s s' : List Char} (hc : Lex.step .code c = .code)
    (heol : isEol c = false) (h : unindent false .code s = unindent false .code s') :
    Step (fun _ _ => True) (fun r r' => unindent false .code r = unindent false .code r') c s s' := by
  refine step_of_unindent (fun {r r'} hr => ?_) h
  rwa [hc, startsLine, heol] at hr

theorem step_bracket {c : Char} (h : opening c = true ∨ closing c = true) :
    Lex.step .code c = .code ∧ isEol c = false := by
  have hcases : (c = '(' ∨ c = '[' ∨ c = '\x7b') ∨ (c = ')' ∨ c = ']' ∨ c = '\x7d') := by
    simpa [opening, closing, or_assoc] using h
  rcases hcases with (rfl | rfl | rfl) | (rfl | rfl | rfl) <;> exact ⟨rfl, rfl⟩

theorem step_simple {c : Char} (h : isSimple c = true) :
    Lex.step .code c = .code ∧ isEol c = false := by
  obtain ⟨hplain, hwhite, -⟩ := isSimple_iff.mp h
  simp only [isWhite, Bool.or_eq_false_iff] at hwhite
  exact ⟨step_plain hplain, hwhite.2⟩

theorem head_isBlank_of_unindent {s s' : List Char}
    (h : unindent false .code s = unindent false .code s') :
    s.head?.any isBlank = s'.head?.any isBlank := by
  cases s with
  | nil =>
      cases s' with
      | nil => rfl
      | cons c r => cases h
  | cons c r =>
      obtain ⟨r', rfl, -⟩ := cons_of_unindent h
      rfl

/-- **Two texts that differ in their indentation.** -/
def layout : Pairing where
  Exact _ _ := True
  Code _ s s' := unindent false .code s = unindent false .code s'
  Start _ s s' := Reindented s s'
  Whole _ := True
  whole_succ _ := trivial
  start_of_code {d s s'} h := by
    change unindent true .code s = unindent true .code s'
    rw [unindent_true_eq, unindent_true_eq, h]
  blanks {d s s'} h := by
    refine ⟨?_, id⟩
    rw [← unindent_true, ← unindent_true]
    exact h
  blank _ h := head_isBlank_of_unindent h
  simple hc h := step_code (step_simple hc).1 (step_simple hc).2 h
  eol {d s s' c} hc h := by
    refine step_of_unindent (fun {r r'} hr => ?_) h
    rwa [step_plain (isPlain_of_isWhite (by simp [isWhite, hc])), startsLine, hc] at hr
  opening hc h := step_code (step_bracket (.inl hc)).1 (step_bracket (.inl hc)).2 h
  closing hc h := step_code (step_bracket (.inr hc)).1 (step_bracket (.inr hc)).2 h
  comma h := step_code rfl rfl h
  comment {d s s'} h := by
    refine step_of_unindent (fun {r r'} hr => ⟨?_, id⟩) h
    have hr : unindent false .comment r = unindent false .comment r' := hr
    rw [unindent_comment, unindent_comment, hr]
  string {d s s' v t} h hs := by
    obtain ⟨t', ht', hcode⟩ := readString_of_unindent h hs
    exact ⟨t', ht', hcode, id⟩
  noString {d s s'} h hs := by
    by_contra hsome
    obtain ⟨⟨a, t'⟩, hs'⟩ := Option.ne_none_iff_exists'.mp hsome
    obtain ⟨t, ht, -⟩ := readString_of_unindent h.symm hs'
    rw [hs] at ht
    cases ht

/-- A class or a method, if its body is missing. -/
def Bodiless : Rule → List Char → Prop
  | .classdef, s => ∃ f t, parse grammar classHead s = .ok f t ∧ ¬NoEnd t
  | .methoddef, s => ∃ f t, parse grammar methodHead s = .ok f t ∧ ¬NoEnd t
  | _, _ => False

theorem follows_layoutTail {bad : Rule → List Char → Prop} {n : Nat}
    (hexp : ∀ d, Follows grammar bad layout.Exact n (layout.Code d) Eq (rule .expression)
      (layout.Code d)) (d : Nat) :
    Follows grammar bad layout.Exact n (layout.Code d) Eq
      (star (optBlank *> lit "," *> optSpace *> rule .expression)) (layout.Code d) := by
  have hcomma : Follows grammar bad layout.Exact n (layout.Code d) Eq (lit ",") (layout.Code d) :=
    Pairing.follows_char (c := ',') (by decide) fun h => step_code rfl rfl h
  exact (((Pairing.follows_optBlank.seqRight hcomma).seqRight
    Pairing.follows_optSpace).seqRight (hexp d)).star_eq

def layoutParallel : Parallel where
  toPairing := layout
  bad := Bodiless
  tail := follows_layoutTail
  classBody {d s f t t'} hgood hhead _ := by
    by_contra hend
    exact hgood ⟨f, t, hhead, fun h => hend (.inr h)⟩
  methodBody {d s f t t'} hgood hhead _ := by
    by_contra hend
    exact hgood ⟨f, t, hhead, fun h => hend (.inr h)⟩

/-! ### Whole texts -/

theorem parse_unit (s : List Char) : parse grammar (rule .unit) s =
    (parse grammar (rule .statements) s).on (fun v t =>
      if skipSpace false t = [] then .ok v [] else .fail) .fail := by
  rw [parse_rule]
  change parse grammar (rule .statements <* star (rule .space) <* rule .eof) s = _
  rw [parse_seqLeft, parse_seqLeft]
  cases parse grammar (rule .statements) s with
  | ok v t =>
      obtain ⟨w, hw⟩ := parse_spaces t
      have heof : ∀ u, parse grammar (rule .eof) u = if u = [] then .ok () [] else .fail := by
        intro u
        rw [parse_rule]
        change parse grammar (.notAt (sat fun _ => true)) u = _
        cases u <;> rfl
      simp only [Result.on_ok, hw, Result.map_ok, heof]
      by_cases ht : skipSpace false t = []
      · rw [if_pos ht, if_pos ht, Result.map_ok]
      · rw [if_neg ht, if_neg ht, Result.map_fail]
  | fail => rfl
  | diverges => rfl

/--
**Indentation makes no difference, if no class or method is without a body.**  A text that is
accepted, and in which the parser comes to no such class or method, is accepted with the same
trees however its lines are indented.
-/
theorem parse_reindented {s s' : List Char} {v : Option (List Stmt)}
    (hs : Reindented s s') (hquiet : Quiet grammar Bodiless (rule .unit) s)
    (h : parse grammar (rule .unit) s = .ok v []) :
    parse grammar (rule .unit) s' = .ok v [] := by
  rw [parse_unit] at h ⊢
  obtain ⟨v', t, hstatements, h⟩ := Result.on_eq_ok h
  have hquiet' : Quiet grammar Bodiless (rule .statements) s :=
    hquiet.body.of_calls fun _ _ hcalls => .inl (.inl hcalls)
  obtain ⟨a', t', hparse, ht, hvalue⟩ := layoutParallel.parse_ok (r := .statements) (d := 0)
    rfl (fun _ => trivial) hs hquiet' hstatements
  have hskip := (layout.skipSpace (d := 0) (layout.start_of_code ht)).1
  rw [hparse, Result.on_ok, ← hvalue trivial]
  by_cases hend : skipSpace false t = []
  · rw [if_pos hend] at h
    have hend' : skipSpace false t' = [] := by
      cases hrest : skipSpace false t' with
      | nil => rfl
      | cons c r =>
          have hnil : unindent false .code [] = unindent false .code (c :: r) := by
            rw [← hend, ← hrest]
            exact hskip
          cases hnil
    rw [if_pos hend']
    exact h
  · rw [if_neg hend] at h
    cases h

/-! ### Without a body -/

/-- What begins with `end` is no statement. -/
theorem parse_statement_end (r : List Char) :
    parse grammar (rule .statement) ("end".toList ++ r) = .fail := by
  rw [parse_statement_of_expression, parse_expression_of_barred (barred_append (by decide) r)]
  · rfl
  · intro w hw u hu
    simp only [List.mem_cons, List.not_mem_nil, or_false] at hw
    rcases hw with rfl | rfl | rfl | rfl | rfl <;> cases hu

theorem parse_statements_end {t r : List Char} (ht : skipSpace false t = "end".toList ++ r) :
    parse grammar (rule .statements) t = .fail := by
  have hstatement := parse_statement_end r
  obtain ⟨w, hw⟩ := parse_optSpace t
  rw [ht] at hw
  generalize "end".toList ++ r = u at hstatement hw
  rw [parse_rule]
  simp [grammar, hw, hstatement]

/-- A method without a body has white space in front of its `end`. -/
theorem parse_methoddef_bodiless {s t r : List Char}
    {f : Option (Option (List Stmt)) → Option Stmt} (hhead : parse grammar methodHead s = .ok f t)
    (ht : skipSpace false t = "end".toList ++ r) :
    parse grammar (rule .methoddef) s =
      if t.head?.any beginsSpace then .ok (f none) r else .fail := by
  rw [parse_rule]
  change parse grammar (methodHead <*> opt (rule .statements) <* rule .space <* lit "end") s = _
  rw [parse_seqLeft, parse_seqLeft, parse_seq, hhead, Result.on_ok, parse_opt,
    parse_statements_end ht, Result.on_fail, Result.map_ok, Result.on_ok, parse_space]
  by_cases hspace : t.head?.any beginsSpace = true
  · rw [if_pos hspace, if_pos hspace, Result.map_ok, Result.on_ok, ht, parse_lit_append]
    rfl
  · rw [if_neg hspace, if_neg hspace]
    rfl

/-- A class without a body has none. -/
theorem parse_classdef_bodiless {s t r : List Char}
    {f : Option (Option (List Stmt)) → Option Stmt} (hhead : parse grammar classHead s = .ok f t)
    (ht : skipSpace false t = "end".toList ++ r) :
    parse grammar (rule .classdef) s =
      if t.head?.any beginsSpace then .fail else .ok (f none) r := by
  rw [parse_rule]
  change parse grammar (classHead <*> opt (rule .statements <* rule .space) <* lit "end") s = _
  rw [parse_seqLeft, parse_seq, hhead, Result.on_ok, parse_opt, parse_seqLeft,
    parse_statements_end ht, Result.on_fail, Result.on_fail, Result.map_ok, Result.on_ok]
  by_cases hspace : t.head?.any beginsSpace = true
  · rw [if_pos hspace, parse_lit_fail]
    · rfl
    · -- the word is not in front of the white space
      refine Option.eq_none_iff_forall_ne_some.mpr fun u hu => ?_
      rw [dropWord_eq_some_iff.mp hu] at hspace
      cases hspace
  · rw [skipSpace_of_head (by simpa using hspace)] at ht
    rw [if_neg hspace, ht, parse_lit_append]
    rfl

/-! ### A method without a body -/

theorem parse_methodHead_f {t : List Char} (ht : lineEnd t = none) :
    parse grammar methodHead ("def f\n".toList ++ t) =
      .ok (fun body => do return .methodDef "f" none (← optValue body)) t := by
  have hspace : ∀ r, parse grammar (rule .space) (' ' :: 'f' :: r) = .ok () ('f' :: r) := by
    intro r
    rw [parse_space]
    rfl
  have hname : parse grammar (rule .thename) ('f' :: '\n' :: t) = .ok "f" ('\n' :: t) := by
    rw [parse_thename]
    rfl
  have hparams : parse grammar (rule .method_params) ('\n' :: t) = .fail := by
    rw [parse_rule]
    rfl
  have heol : parse grammar (rule .space_eol) ('\n' :: t) = .ok () t := by
    have hend : lineEnd ('\n' :: t) = some t := rfl
    rw [parse_space_eol, hend, Option.elim_some, skipLines_of_none ht]
  obtain ⟨w, hw⟩ := parse_optBlank ('\n' :: t)
  have hw : parse grammar optBlank ('\n' :: t) = .ok w ('\n' :: t) := hw
  simp [methodHead, parse_lit, dropWord, hspace, hname, hw, parse_opt, hparams, heol, optValue]

theorem parse_statement_def (r : List Char) :
    parse grammar (rule .statement) ("def".toList ++ r) =
      (parse grammar (rule .methoddef) ("def".toList ++ r)).on .ok
        ((parse grammar (rule .expression) ("def".toList ++ r)).map (Option.map .expr)) := by
  have hif : parse grammar (rule .if_) ("def".toList ++ r) = .fail := by
    rw [parse_rule]
    rfl
  have hclass : parse grammar (rule .classdef) ("def".toList ++ r) = .fail := by
    rw [parse_rule]
    rfl
  have hbegin : parse grammar (rule .begin_) ("def".toList ++ r) = .fail := by
    rw [parse_rule]
    rfl
  have hwhile : parse grammar (rule .while_) ("def".toList ++ r) = .fail := by
    rw [parse_rule]
    rfl
  rw [parse_rule]
  simp only [grammar, parse_orElse, parse_map, hif, hclass, hbegin, hwhile, Result.on_fail]

/-- A text of one statement. -/
theorem parse_unit_of_statement {s t : List Char} {a : Option Stmt}
    (hs : s.head?.any beginsSpace = false) (h : parse grammar (rule .statement) s = .ok a t)
    (ht : parse grammar (rule .space_eol *> star (rule .space) *> rule .statement) t = .fail) :
    parse grammar (rule .unit) s =
      if skipSpace false t = [] then .ok (a.map fun a => [a]) [] else .fail := by
  have hstatements : parse grammar (rule .statements) s = .ok (a.map fun a => [a]) t := by
    have hmore : parse grammar (star (rule .space_eol *> star (rule .space) *> rule .statement)) t =
        .ok [] t := by
      rw [parse_star, ht]
      rfl
    obtain ⟨w, hw⟩ := parse_optSpace s
    rw [skipSpace_of_head hs] at hw
    rw [parse_rule]
    change parse grammar ((fun s tail => (s :: tail).mapM id) <$> (optSpace *> rule .statement) <*>
      star (rule .space_eol *> star (rule .space) *> rule .statement)) s = _
    rw [parse_seq, parse_map, parse_seqRight, hw, Result.on_ok, h, Result.map_ok, Result.on_ok,
      hmore]
    cases a <;> rfl
  rw [parse_unit, hstatements]
  rfl

theorem parse_indented :
    parse grammar (rule .unit) "def f\n  end".toList = .ok (some [.methodDef "f" none none]) [] := by
  have hmethod : parse grammar (rule .methoddef) "def f\n  end".toList =
      .ok (some (.methodDef "f" none none)) [] :=
    parse_methoddef_bodiless (r := []) (parse_methodHead_f (t := "  end".toList) rfl) rfl
  have hstatement := parse_statement_def " f\n  end".toList
  have htext : "def".toList ++ " f\n  end".toList = "def f\n  end".toList := rfl
  rw [htext, hmethod, Result.on_ok] at hstatement
  rw [parse_unit_of_statement rfl hstatement]
  · rfl
  · rw [parse_seqRight, parse_seqRight, parse_space_eol]
    rfl

/-- On the next line there is an `end`, and no other statement. -/
theorem parse_next_end :
    parse grammar (rule .space_eol *> star (rule .space) *> rule .statement) "\nend".toList =
      .fail := by
  have heol : parse grammar (rule .space_eol) "\nend".toList = .ok () "end".toList := by
    have hend : lineEnd "\nend".toList = some "end".toList := rfl
    have hnone : lineEnd "end".toList = none := rfl
    rw [parse_space_eol, hend, Option.elim_some, skipLines_of_none hnone]
  obtain ⟨w, hw⟩ := parse_spaces "end".toList
  have hw : parse grammar (star (rule .space)) "end".toList = .ok w "end".toList := hw
  rw [parse_seqRight, parse_seqRight, heol, Result.on_ok, hw, Result.on_ok]
  exact parse_statement_end []

/-- Without it the head is a call, and the `end` is left. -/
theorem parse_not_indented : parse grammar (rule .unit) "def f\nend".toList = .fail := by
  have hmethod : parse grammar (rule .methoddef) "def f\nend".toList = .fail :=
    parse_methoddef_bodiless (r := []) (parse_methodHead_f (t := "end".toList) rfl) rfl
  have hf : IsIdentifier "f" := ⟨'f', [], by decide, by decide, by decide⟩
  have hdef : IsIdentifier "def" := ⟨'d', "ef".toList, by decide, by decide, by decide⟩
  have hargument := parse_expression_of_identifier (t := "\nend".toList) hf (by decide) rfl
  have hargs : parse grammar (rule .args) "f\nend".toList = .ok (some [named "f"]) "\nend".toList :=
    parse_args_unparenthesised (by decide) hargument rfl
  have hcall := parse_call_of_identifier (u := " f\nend".toList) hdef (by decide) rfl hargs rfl
  have hstatement := parse_statement_def " f\nend".toList
  have htext : "def".toList ++ " f\nend".toList = "def f\nend".toList := rfl
  rw [htext, hmethod, Result.on_fail] at hstatement
  rw [htext] at hcall
  rw [hcall] at hstatement
  rw [parse_unit_of_statement rfl hstatement parse_next_end]
  rfl

/-- A method without a body is accepted with its `end` indented, and is not without. -/
theorem method_not_reindented :
    Reindented "def f\n  end".toList "def f\nend".toList ∧
      parse grammar (rule .unit) "def f\n  end".toList =
        .ok (some [.methodDef "f" none none]) [] ∧
      parse grammar (rule .unit) "def f\nend".toList = .fail := by
  refine ⟨?_, parse_indented, parse_not_indented⟩
  unfold Reindented
  decide

/-! ### A method with a body -/

theorem lit_of_bodiless {r : Rule} {s : List Char} (h : Bodiless r s) :
    dropWord "class".toList s ≠ none ∨ dropWord "def".toList s ≠ none := by
  cases r with
  | classdef =>
      obtain ⟨f, t, hhead, -⟩ := h
      refine .inl fun hnone => ?_
      rw [classHead, parse_seqLeft, parse_seq, parse_map, parse_seqLeft, parse_seqRight,
        parse_seqRight, parse_lit_fail hnone] at hhead
      cases hhead
  | methoddef =>
      obtain ⟨f, t, hhead, -⟩ := h
      refine .inr fun hnone => ?_
      rw [methodHead, parse_seqLeft, parse_seq, parse_map, parse_seqLeft, parse_seqRight,
        parse_seqRight, parse_lit_fail hnone] at hhead
      cases hhead
  | _ => exact h.elim

/-- Only at the start of the text is there a class or a method. -/
theorem quiet_of_tails {s : List Char} {α : Type} {e : Exp α} (hstart : ∀ r, ¬Bodiless r s)
    (h : ∀ t ∈ s.tails, t = s ∨ dropWord "class".toList t = none ∧ dropWord "def".toList t = none) :
    Quiet grammar Bodiless e s := by
  refine .of_suffix fun r t ht hbad => ?_
  rcases h t ((List.mem_tails t s).mpr ht) with rfl | ⟨hclass, hdef⟩
  · exact hstart r hbad
  · rcases lit_of_bodiless hbad with hne | hne
    · exact hne hclass
    · exact hne hdef

theorem parse_methodHead_with_body :
    parse grammar methodHead "def f\n  a\nend".toList =
      .ok (fun body => do return .methodDef "f" none (← optValue body)) "  a\nend".toList :=
  parse_methodHead_f rfl

theorem not_bodiless_with_body (r : Rule) : ¬Bodiless r "def f\n  a\nend".toList := by
  intro hbad
  cases r with
  | classdef =>
      rcases hbad with ⟨f, t, hhead, -⟩
      have hlit : parse grammar (lit "class") "def f\n  a\nend".toList = .fail :=
        parse_lit_fail rfl
      rw [classHead, parse_seqLeft, parse_seq, parse_map, parse_seqLeft, parse_seqRight,
        parse_seqRight, hlit] at hhead
      cases hhead
  | methoddef =>
      obtain ⟨f, t, hhead, hend⟩ := hbad
      rw [parse_methodHead_with_body] at hhead
      cases hhead
      exact hend rfl
  | _ => exact hbad.elim

theorem parse_body : parse grammar (rule .statements) "  a\nend".toList =
    .ok (some [.expr (named "a")]) "\nend".toList := by
  have hident : IsIdentifier "a" := ⟨'a', [], by decide, by decide, by decide⟩
  have hname : parse grammar (rule .statement) "a\nend".toList =
      .ok (some (.expr (named "a"))) "\nend".toList :=
    (parsedAsName hident (by decide) (by decide)).statement (t := "\nend".toList) rfl
  obtain ⟨w, hw⟩ := parse_optSpace "  a\nend".toList
  have hw : parse grammar optSpace "  a\nend".toList = .ok w "a\nend".toList := hw
  rw [parse_rule]
  change parse grammar ((fun s tail => (s :: tail).mapM id) <$> (optSpace *> rule .statement) <*>
    star (rule .space_eol *> star (rule .space) *> rule .statement)) _ = _
  rw [parse_seq, parse_map, parse_seqRight, hw, Result.on_ok, hname, Result.map_ok, Result.on_ok,
    parse_star, parse_next_end]
  rfl

theorem parse_with_body : parse grammar (rule .unit) "def f\n  a\nend".toList =
    .ok (some [.methodDef "f" none (some [.expr (named "a")])]) [] := by
  have hspace : parse grammar (rule .space) "\nend".toList = .ok () "end".toList := by
    rw [parse_space]
    rfl
  have hend : parse grammar (lit "end") "end".toList = .ok "end" [] := parse_lit_append []
  have hmethod : parse grammar (rule .methoddef) "def f\n  a\nend".toList =
      .ok (some (.methodDef "f" none (some [.expr (named "a")]))) [] := by
    rw [parse_rule]
    change parse grammar (methodHead <*> opt (rule .statements) <* rule .space <* lit "end") _ = _
    rw [parse_seqLeft, parse_seqLeft, parse_seq, parse_methodHead_with_body, Result.on_ok,
      parse_opt, parse_body, Result.on_ok, Result.map_ok, Result.on_ok, hspace, Result.map_ok,
      Result.on_ok, hend]
    rfl
  have hstatement := parse_statement_def " f\n  a\nend".toList
  have htext : "def".toList ++ " f\n  a\nend".toList = "def f\n  a\nend".toList := rfl
  rw [htext, hmethod, Result.on_ok] at hstatement
  rw [parse_unit_of_statement rfl hstatement]
  · rfl
  · rw [parse_seqRight, parse_seqRight, parse_space_eol]
    rfl

/-- The body and its `end` can stand anywhere on their lines. -/
theorem method_body_reindented : parse grammar (rule .unit) "def f\na\n    end".toList =
    .ok (some [.methodDef "f" none (some [.expr (named "a")])]) [] :=
  parse_reindented (s := "def f\n  a\nend".toList) (by unfold Reindented; decide)
    (quiet_of_tails not_bodiless_with_body (by decide)) parse_with_body

end Pup.Parse
