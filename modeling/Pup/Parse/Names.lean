/-
Names that begin with a keyword.

The grammar has no rule for the end of a word.  Where a keyword opens a statement the white
space that has to come behind it tells it from a longer name; `end`, `else` and `rescue` are
barred from the names by what they begin with, and `true` and `false` are tried before the
names.  So it is these five words that no name may begin with (`identifier_parsed_iff`), and
the other keywords do no harm.
-/
import Pup.Parse.Levels

namespace Pup.Parse

open Peg

/-- `[a-z_][A-Za-z_0-9]*` -/
def IsIdentifier (name : String) : Prop :=
  ∃ c cs, name.toList = c :: cs ∧ identStart c = true ∧ ∀ d ∈ cs, identRest d = true

def keywords : List String :=
  ["class", "def", "if", "else", "begin", "rescue", "ensure", "while", "do", "true", "false", "end"]

/-- The keywords that are seen in a longer word. -/
def seenInside : List String := ["end", "else", "rescue", "true", "false"]

/-- A name without arguments. -/
def named (name : String) : Expr := .varOrInvoke (.name name) none none none

/-! ### Words at the front -/

theorem IsIdentifier.identRest {name : String} (h : IsIdentifier name) :
    ∀ c ∈ name.toList, identRest c = true := by
  obtain ⟨c, cs, hname, hc, hcs⟩ := h
  rw [hname]
  intro d hd
  rcases List.mem_cons.mp hd with rfl | hd
  · exact identRest_of_identStart hc
  · exact hcs d hd

/-- A word at the front of the text is a word at the front of the name. -/
theorem word_of_name {w name t r : List Char} (hw : ∀ c ∈ w, identRest c = true)
    (hname : ∀ c ∈ name, identRest c = true) (ht : t.head?.any identRest = false)
    (h : name ++ t = w ++ r) : name = w ++ r.takeWhile identRest := by
  calc name = (name ++ t).takeWhile identRest := by
        rw [List.takeWhile_append_of_pos hname, takeWhile_of_head ht, List.append_nil]
    _ = w ++ r.takeWhile identRest := by rw [h, List.takeWhile_append_of_pos hw]

/-- A shorter word is not the end of it. -/
theorem head_of_word {w name t r : List Char} (hw : ∀ c ∈ w, identRest c = true)
    (hname : ∀ c ∈ name, identRest c = true) (ht : t.head?.any identRest = false)
    (h : name ++ t = w ++ r) (hne : name ≠ w) : ∃ c r', r = c :: r' ∧ identRest c = true := by
  have hsplit := word_of_name hw hname ht h
  cases r with
  | nil => exact absurd (by simpa using hsplit) hne
  | cons c r =>
      by_cases hc : identRest c = true
      · exact ⟨c, r, rfl, hc⟩
      · exact absurd (by simpa [hc] using hsplit) hne

/-! ### Names as names -/

section Name

variable {name : String} {t : List Char} (hident : IsIdentifier name)
  (hseen : ∀ w ∈ seenInside, ¬w.toList <+: name.toList) (ht : t.head?.any identRest = false)

include hident hseen ht

theorem dropWord_seenInside {w : String} (hw : w ∈ seenInside) :
    dropWord w.toList (name.toList ++ t) = none := by
  cases h : dropWord w.toList (name.toList ++ t) with
  | none => rfl
  | some r =>
      have hletters : ∀ w ∈ seenInside, ∀ c ∈ w.toList, identRest c = true := by decide
      have hsplit := word_of_name (hletters w hw) hident.identRest ht (dropWord_eq_some_iff.mp h)
      exact absurd ⟨_, hsplit.symm⟩ (hseen w hw)

omit hseen in
theorem parse_thename_of_not_barred (hbarred : barred (name.toList ++ t) = false) :
    parse grammar (rule .thename) (name.toList ++ t) = .ok name t := by
  obtain ⟨c, cs, hname, hc, hcs⟩ := hident
  rw [parse_thename, hbarred, hname]
  have htake : (cs ++ t).takeWhile identRest = cs := by
    rw [List.takeWhile_append_of_pos hcs, takeWhile_of_head ht, List.append_nil]
  have hdrop : (cs ++ t).dropWhile identRest = t := by
    rw [List.dropWhile_append_of_pos hcs, dropWhile_of_head ht]
  simp only [List.cons_append, Bool.false_eq_true, if_false, hc, if_true, htake, hdrop, ident]
  rw [← hname, String.ofList_toList]

theorem parse_thename_of_identifier :
    parse grammar (rule .thename) (name.toList ++ t) = .ok name t := by
  refine parse_thename_of_not_barred hident ht ?_
  simp only [barred, dropWord_seenInside hident hseen ht (w := "end") (by decide),
    dropWord_seenInside hident hseen ht (w := "else") (by decide),
    dropWord_seenInside hident hseen ht (w := "rescue") (by decide)]
  rfl

theorem parse_primary_of_identifier
    (hargs : parse grammar (rule .args) (t.dropWhile isBlank) = .fail)
    (hblock : (t.dropWhile isBlank).head?.any (· == '\x7b') = false) :
    parse grammar (rule .primary) (name.toList ++ t) = .ok (some (named name)) (t.dropWhile isBlank) := by
  have hname := parse_thename_of_identifier hident hseen ht
  have hbool : parse grammar (rule .bool) (name.toList ++ t) = .fail := by
    rw [parse_bool, dropWord_seenInside hident hseen ht (w := "true") (by decide),
      dropWord_seenInside hident hseen ht (w := "false") (by decide)]
  rw [parse_primary_of_name hname, hbool,
    parse_invoke_name (parse_named_value_of_name hname) hargs hblock]
  rfl

end Name

/-! ### Names as statements -/

/-- A keyword that opens a statement has white space behind it, and a longer name has not. -/
theorem parse_keyword_fail {w : String} {s : List Char} {e : Exp Unit}
    (he : ∀ s : List Char, s.head?.any beginsSpace = false → parse grammar e s = .fail)
    (hs : ∀ r, s = w.toList ++ r → ∃ c r', r = c :: r' ∧ identRest c = true) :
    (parse grammar (.lit w) s).on (fun _ t => parse grammar e t) .fail = .fail := by
  cases hw : dropWord w.toList s with
  | none =>
      rw [parse_lit_fail hw]
      rfl
  | some r =>
      have hsplit := dropWord_eq_some_iff.mp hw
      obtain ⟨c, r', rfl, hc⟩ := hs r hsplit
      rw [hsplit, parse_lit_append, Result.on_ok]
      exact he _ (by simpa using beginsSpace_of_identRest hc)

theorem parse_statement_of_expression {s : List Char}
    (hs : ∀ w ∈ ["if", "class", "def", "begin", "while"], ∀ r, s = w.toList ++ r →
      ∃ c r', r = c :: r' ∧ identRest c = true) :
    parse grammar (rule .statement) s =
      (parse grammar (rule .expression) s).map (Option.map .expr) := by
  have hspace : ∀ s : List Char, s.head?.any beginsSpace = false →
      parse grammar (rule .space) s = .fail := by
    intro s h
    rw [parse_space, h]
    rfl
  have hblank : ∀ s : List Char, s.head?.any beginsSpace = false →
      parse grammar (rule .white_noeol) s = .fail := by
    intro s h
    rw [parse_white_noeol, any_or_left (any_or_left h)]
    rfl
  have hif := parse_keyword_fail hspace (hs "if" (by decide))
  have hclass := parse_keyword_fail hblank (hs "class" (by decide))
  have hdef := parse_keyword_fail hspace (hs "def" (by decide))
  have hbegin := parse_keyword_fail (fun s => parse_space_eol_fail) (hs "begin" (by decide))
  have hwhile := parse_keyword_fail hblank (hs "while" (by decide))
  rw [parse_rule]
  simp [grammar, parse_rule grammar .if_, parse_rule grammar .classdef,
    parse_rule grammar .methoddef, parse_rule grammar .begin_, parse_rule grammar .while_,
    hif, hclass, hdef, hbegin, hwhile]

section Positions

variable {name : String} {t : List Char} (hident : IsIdentifier name)
  (hseen : ∀ w ∈ seenInside, ¬w.toList <+: name.toList)

include hident hseen

theorem parse_expression_of_identifier (ht : t.head?.all closes = true) :
    parse grammar (rule .expression) (name.toList ++ t) = .ok (some (named name)) t := by
  have hends := ends_of_closes ht
  have hnone := not_called_of_closes ht
  have hprimary := parse_primary_of_identifier hident hseen (any_or_left hends.apart)
    (begins_args _ (any_or_left hnone)) (any_or_right hnone)
  rw [dropWhile_of_closes ht] at hprimary
  exact parse_expression_of_primary hprimary hends

/-- The name of a method with arguments behind it. -/
theorem parse_invoke_of_identifier {u : List Char} {args : Option (List Expr)}
    (hu : u.head?.any identRest = false)
    (hargs : parse grammar (rule .args) (u.dropWhile isBlank) = .ok args t)
    (ht : t.head?.any (fun c => isBlank c || c == '\x7b') = false) :
    parse grammar (rule .invoke) (name.toList ++ u) =
      .ok (args.map fun args => .varOrInvoke (.name name) (some args) none none) t := by
  have hname := parse_thename_of_identifier hident hseen hu
  have hblock : parse grammar (rule .block) t = .fail := by
    have hopen : parse grammar (.lit "\x7b") t = .fail :=
      Begins.lit (p := (· == '\x7b')) (by decide) _ (any_or_right ht)
    rw [parse_rule]
    simp [grammar, hopen]
  obtain ⟨v, hv⟩ := parse_optBlank u
  obtain ⟨w, hw⟩ := parse_optBlank t
  rw [dropWhile_of_head (any_or_left ht)] at hw
  rw [parse_rule]
  cases args <;>
    simp [grammar, parse_named_value_of_name hname, hv, parse_opt, hargs, hw, hblock, optValue]

/-- And the same as an expression. -/
theorem parse_call_of_identifier {u : List Char} {args : Option (List Expr)}
    (hu : u.head?.any identRest = false)
    (hargs : parse grammar (rule .args) (u.dropWhile isBlank) = .ok args t)
    (ht : t.head?.all closes = true) :
    parse grammar (rule .expression) (name.toList ++ u) =
      .ok (args.map fun args => .varOrInvoke (.name name) (some args) none none) t := by
  have hname := parse_thename_of_identifier hident hseen hu
  have hbool : parse grammar (rule .bool) (name.toList ++ u) = .fail := by
    rw [parse_bool, dropWord_seenInside hident hseen hu (w := "true") (by decide),
      dropWord_seenInside hident hseen hu (w := "false") (by decide)]
  have hinvoke := parse_invoke_of_identifier hident hseen hu hargs (not_blank_of_closes ht)
  refine parse_expression_of_primary ?_ (ends_of_closes ht)
  rw [parse_primary_of_name hname, hbool, hinvoke]
  rfl

end Positions

/-- What stands behind a statement. -/
def LineEnd (t : List Char) : Prop := t.head?.all isEol = true

theorem LineEnd.closes {t : List Char} (h : LineEnd t) : t.head?.all closes = true := by
  cases t with
  | nil => rfl
  | cons c t =>
      have hc : c = '\n' ∨ c = '\r' := by simpa [LineEnd, isEol] using h
      rcases hc with rfl | rfl <;> rfl

/-- The arguments behind the first one, in parentheses. -/
def moreArgs : Exp (List (Option Expr)) := .star (.lit "," *> rule .expression)

theorem parse_moreArgs_closed (t : List Char) :
    parse grammar moreArgs (')' :: t) = .ok [] (')' :: t) := by
  rw [moreArgs, parse_star]
  simp [parse_lit, dropWord]

/-- Arguments in parentheses. -/
theorem parse_args_list {s t u : List Char} {a : Option Expr} {as : List (Option Expr)}
    (h : parse grammar (rule .expression) s = .ok a t)
    (hmore : parse grammar moreArgs t = .ok as (')' :: u)) :
    parse grammar (rule .args) ('(' :: s) = .ok ((a :: as).mapM id) u := by
  have hmore : parse grammar (.star (.lit "," *> rule .expression)) t = .ok as (')' :: u) := hmore
  have hlist : parse grammar (rule .parenthesised_args) ('(' :: s) =
      .ok ((a :: as).mapM id) u := by
    rw [parse_rule]
    simp [grammar, parse_lit, dropWord, parse_opt, h, hmore]
  rw [parse_rule]
  change parse grammar (rule .parenthesised_args <|> rule .unparenthesised_args) _ = _
  rw [parse_orElse, hlist]
  rfl

/-- One argument in parentheses. -/
theorem parse_args_parenthesised {s t : List Char} {a : Expr}
    (h : parse grammar (rule .expression) s = .ok (some a) (')' :: t)) :
    parse grammar (rule .args) ('(' :: s) = .ok (some [a]) t :=
  parse_args_list h (parse_moreArgs_closed t)

/-- One argument without parentheses, up to the end of the line. -/
theorem parse_args_unparenthesised {s t : List Char} {a : Expr} (hs : s.head? ≠ some '(')
    (h : parse grammar (rule .expression) s = .ok (some a) t) (ht : LineEnd t) :
    parse grammar (rule .args) s = .ok (some [a]) t := by
  have hopen : parse grammar (rule .parenthesised_args) s = .fail := by
    have hlit : parse grammar (.lit "(") s = .fail := by
      refine Begins.lit (p := (· == '(')) (by decide) _ ?_
      cases s with
      | nil => rfl
      | cons c s => simpa using hs
    rw [parse_rule]
    simp [grammar, hlit]
  have hcomma : parse grammar (.star (optBlank *> .lit "," *> optSpace *> rule .expression)) t =
      .ok [] t := by
    obtain ⟨v, hv⟩ := parse_optBlank t
    rw [dropWhile_of_closes ht.closes] at hv
    have hlit : parse grammar (.lit ",") t = .fail := by
      refine Begins.lit (p := (· == ',')) (by decide) _ ?_
      cases t with
      | nil => rfl
      | cons c t =>
          have hc : c = '\n' ∨ c = '\r' := by simpa [LineEnd, isEol] using ht
          rcases hc with rfl | rfl <;> rfl
    rw [parse_star]
    simp [hv, hlit]
  rw [parse_rule]
  change parse grammar (rule .parenthesised_args <|> rule .unparenthesised_args) _ = _
  rw [parse_orElse, hopen, Result.on_fail, parse_rule]
  simp [grammar, h, hcomma]

/-- The text is a name, as a statement and as an argument of any call. -/
structure ParsedAsName (name : String) : Prop where
  statement : ∀ t, LineEnd t →
    parse grammar (rule .statement) (name.toList ++ t) = .ok (some (.expr (named name))) t
  parenthesised : ∀ f, IsIdentifier f → (∀ w ∈ seenInside, ¬w.toList <+: f.toList) →
    ∀ t, LineEnd t →
      parse grammar (rule .expression) (f.toList ++ '(' :: (name.toList ++ ')' :: t)) =
        .ok (some (.varOrInvoke (.name f) (some [named name]) none none)) t
  unparenthesised : ∀ f, IsIdentifier f → (∀ w ∈ seenInside, ¬w.toList <+: f.toList) →
    ∀ t, LineEnd t →
      parse grammar (rule .expression) (f.toList ++ ' ' :: (name.toList ++ t)) =
        .ok (some (.varOrInvoke (.name f) (some [named name]) none none)) t

theorem parsedAsName {name : String} (hident : IsIdentifier name) (hkey : name ∉ keywords)
    (hseen : ∀ w ∈ seenInside, ¬w.toList <+: name.toList) : ParsedAsName name := by
  refine ⟨fun t ht => ?_, fun f hf hfs t ht => ?_, fun f hf hfs t ht => ?_⟩
  · have hrest : t.head?.any identRest = false := any_or_left (ends_of_closes ht.closes).apart
    rw [parse_statement_of_expression, parse_expression_of_identifier hident hseen ht.closes]
    · rfl
    · intro w hw r hr
      have hletters : ∀ w ∈ ["if", "class", "def", "begin", "while"],
          (∀ c ∈ w.toList, identRest c = true) ∧ w ∈ keywords := by decide
      refine head_of_word (hletters w hw).1 hident.identRest hrest hr ?_
      rintro h
      exact hkey (String.toList_inj.mp h ▸ (hletters w hw).2)
  · have hargs := parse_args_parenthesised (parse_expression_of_identifier hident hseen
      (t := ')' :: t) rfl)
    exact parse_call_of_identifier (u := '(' :: (name.toList ++ ')' :: t)) hf hfs rfl hargs ht.closes
  · have hexpr := parse_expression_of_identifier hident hseen ht.closes
    obtain ⟨c, cs, hname, hc, -⟩ := hident
    have hblank : isBlank c = false := by
      have hspace := beginsSpace_of_identRest (identRest_of_identStart hc)
      simp only [beginsSpace, isWhite, Bool.or_eq_false_iff] at hspace
      exact hspace.1.1
    have hdrop : (' ' :: (name.toList ++ t)).dropWhile isBlank = name.toList ++ t := by
      have hspace : isBlank ' ' = true := rfl
      rw [List.dropWhile_cons_of_pos hspace, hname]
      exact dropWhile_of_head (by simpa using hblank)
    have hargs : parse grammar (rule .args) ((' ' :: (name.toList ++ t)).dropWhile isBlank) =
        .ok (some [named name]) t := by
      rw [hdrop]
      refine parse_args_unparenthesised ?_ hexpr ht
      rw [hname]
      rintro h
      cases h
      exact absurd hc (by decide)
    exact parse_call_of_identifier hf hfs rfl hargs ht.closes

/-! ### The other names -/

section Seen

variable {name : String} (hident : IsIdentifier name) (hkey : name ∉ keywords)

include hident hkey

theorem parse_statement_of_identifier :
    parse grammar (rule .statement) name.toList =
      (parse grammar (rule .expression) name.toList).map (Option.map .expr) := by
  refine parse_statement_of_expression fun w hw r hr => ?_
  have hletters : ∀ w ∈ ["if", "class", "def", "begin", "while"],
      (∀ c ∈ w.toList, identRest c = true) ∧ w ∈ keywords := by decide
  refine head_of_word (t := []) (hletters w hw).1 hident.identRest rfl (by simpa using hr) ?_
  rintro h
  exact hkey (String.toList_inj.mp h ▸ (hletters w hw).2)

omit hident hkey in
theorem noOperator_of_identRest {c : Char} (h : identRest c = true) :
    looksUp c = false ∧ operatorChar c = false := by
  have hall : ∀ c ∈ "=+-*%^/~|&<>!?".toList, identRest c = false := by decide
  constructor
  · by_contra hlook
    have hc : c = '.' ∨ c = '[' := by
      rw [Bool.not_eq_false] at hlook
      simpa [looksUp] using hlook
    rcases hc with rfl | rfl <;> exact absurd h (by decide)
  · by_contra hop
    have hmem : c ∈ "=+-*%^/~|&<>!?".toList :=
      List.contains_iff_mem.mp (by simpa only [operatorChar, Bool.not_eq_false] using hop)
    rw [hall c hmem] at h
    cases h

omit hkey in
/-- A name that begins with `true` or `false` is read as that and a rest. -/
theorem parse_expression_of_bool {b : Bool} {r t : List Char}
    (hname : name.toList = (if b then "true" else "false").toList ++ r) (ht : Ends t) :
    parse grammar (rule .expression) (name.toList ++ t) = .ok (some (.bool b)) (r ++ t) := by
  have hrest : ∀ c ∈ r, identRest c = true := by
    intro c hc
    refine hident.identRest c ?_
    rw [hname]
    exact List.mem_append_right _ hc
  have hthename : parse grammar (rule .thename) (name.toList ++ t) = .ok name t := by
    have hbarred : barred (name.toList ++ t) = false := by
      rw [hname]
      cases b <;> rfl
    exact parse_thename_of_not_barred hident (any_or_left ht.apart) hbarred
  have hprimary : parse grammar (rule .primary) (name.toList ++ t) =
      .ok (some (.bool b)) (r ++ t) := by
    have hbool : parse grammar (rule .bool) (name.toList ++ t) = .ok (some (.bool b)) (r ++ t) := by
      rw [hname, parse_bool]
      cases b <;> rfl
    rw [parse_primary_of_name hthename, hbool]
    rfl
  have hconditional : parse grammar (rule .conditional) (name.toList ++ t) =
      .ok (some (.bool b)) (r ++ t) := by
    cases r with
    | nil => exact parse_conditional_of_primary ht.noOperator hprimary (any_or_right ht.apart)
    | cons c r =>
        obtain ⟨hlook, hop⟩ := noOperator_of_identRest (hrest c (by simp))
        have hspace := beginsSpace_of_identRest (hrest c (by simp))
        simp only [beginsSpace, isWhite, Bool.or_eq_false_iff] at hspace
        refine parse_conditional_of_primary ?_ hprimary (by simpa using hlook)
        rw [dropWhile_of_head (by simpa using hspace.1.1)]
        simpa using hop
  have hleft : parse grammar (rule .left_hand_side) (name.toList ++ t) =
      .ok (some (.name name)) t := by
    refine parse_left_hand_side_of_stem ?_ ht.apart
    rw [parse_rule]
    simp [grammar, hthename]
  obtain ⟨v, hv⟩ := parse_optBlank t
  rw [parse_rule]
  change parse grammar (rule .assignment) _ = _
  rw [parse_rule]
  simp [grammar, hleft, hv, begins_assign_op _ ht.noOperator, hconditional]

theorem parse_statement_of_bool {b : Bool} {r : List Char}
    (hname : name.toList = (if b then "true" else "false").toList ++ r) :
    parse grammar (rule .statement) name.toList = .ok (some (.expr (.bool b))) r := by
  have h := parse_expression_of_bool (t := []) hident hname ⟨rfl, rfl⟩
  rw [List.append_nil, List.append_nil] at h
  rw [parse_statement_of_identifier hident hkey, h]
  rfl

omit hident hkey in
/-- A text that begins with one of the three others is not read. -/
theorem parse_expression_of_barred {s : List Char} (hs : barred s = true) :
    parse grammar (rule .expression) s = .fail := by
  obtain ⟨w, hw, r, hr⟩ := barred_cases hs
  obtain ⟨c, cs, hcs, hc⟩ : ∃ c cs, s = c :: cs ∧ identStart c = true := by
    rw [hr]
    simp only [List.mem_cons, List.not_mem_nil, or_false] at hw
    rcases hw with rfl | rfl | rfl
    · exact ⟨'e', "nd".toList ++ r, rfl, by decide⟩
    · exact ⟨'e', "lse".toList ++ r, rfl, by decide⟩
    · exact ⟨'r', "escue".toList ++ r, rfl, by decide⟩
  have hthename : parse grammar (rule .thename) s = .fail := by
    rw [parse_thename, hs]
    rfl
  have hat : c ≠ '@' := by
    rintro rfl
    exact absurd hc (by decide)
  have hinst : parse grammar (rule .instvar) s = .fail := by
    rw [hcs]
    exact Begins.rule (p := (· == '@')) (.seqRight (.lit (by decide)) _) _ (by simpa using hat)
  have hbool : parse grammar (rule .bool) s = .fail := by
    rw [hr]
    simp only [List.mem_cons, List.not_mem_nil, or_false] at hw
    rcases hw with rfl | rfl | rfl <;> exact parse_bool _
  have hprimary : parse grammar (rule .primary) s = .fail := by
    have hnamed : parse grammar (rule .named_value) s = .fail := by
      rw [parse_rule]
      rw [hcs] at hthename ⊢
      simp [grammar, parse_constant_of_identStart hc, hthename]
    have hinvoke : parse grammar (rule .invoke) s = .fail := by
      rw [parse_rule]
      simp [grammar, hnamed]
    rw [hcs] at hbool hinvoke hinst ⊢
    simp [parse_primary_of_identStart hc, hbool, hinvoke, hinst]
  refine parse_expression_fail hprimary ?_
  rw [parse_rule]
  simp [grammar, parse_rule grammar .lhs_stem, hthename, hinst]

theorem parse_statement_of_barred (hname : barred name.toList = true) :
    parse grammar (rule .statement) name.toList = .fail := by
  rw [parse_statement_of_identifier hident hkey, parse_expression_of_barred hname]
  rfl

end Seen

/--
**A name is parsed as that name unless it begins with `end`, `else`, `rescue`, `true` or
`false`.**  For every identifier that is no keyword: it is read in full and as itself, as a
statement and as an argument of a call with or without parentheses, exactly if it begins with
none of these five words.
-/
theorem identifier_parsed_iff {name : String} (hident : IsIdentifier name)
    (hkey : name ∉ keywords) :
    ParsedAsName name ↔ ∀ w ∈ seenInside, ¬w.toList <+: name.toList := by
  refine ⟨fun h w hw hprefix => ?_, parsedAsName hident hkey⟩
  have hstatement := h.statement [] rfl
  rw [List.append_nil] at hstatement
  have hbool : ∀ b : Bool, (if b then "true" else "false").toList <+: name.toList → False := by
    rintro b ⟨r, hr⟩
    rw [parse_statement_of_bool hident hkey hr.symm] at hstatement
    cases hstatement
  have hbarred : ∀ w ∈ ["end", "else", "rescue"], w.toList <+: name.toList → False := by
    rintro w hw ⟨r, hr⟩
    rw [parse_statement_of_barred hident hkey (hr ▸ barred_append hw r)] at hstatement
    cases hstatement
  simp only [seenInside, List.mem_cons, List.not_mem_nil, or_false] at hw
  rcases hw with rfl | rfl | rfl | rfl | rfl
  · exact hbarred "end" (by decide) hprefix
  · exact hbarred "else" (by decide) hprefix
  · exact hbarred "rescue" (by decide) hprefix
  · exact hbool true hprefix
  · exact hbool false hprefix

/-- `classify` begins with another keyword. -/
theorem classify_parsed : ParsedAsName "classify" :=
  (identifier_parsed_iff ⟨'c', "lassify".toList, by decide, by decide, by decide⟩
    (by decide)).mpr (by decide)

/-- `endpoint` is not read at all, and `trueish` as `true`. -/
theorem endpoint_refused :
    (IsIdentifier "endpoint" ∧ "endpoint" ∉ keywords ∧ ¬ParsedAsName "endpoint" ∧
      parse grammar (rule .statement) "endpoint".toList = .fail) ∧
    IsIdentifier "trueish" ∧ "trueish" ∉ keywords ∧ ¬ParsedAsName "trueish" ∧
      parse grammar (rule .statement) "trueish".toList =
        .ok (some (.expr (.bool true))) "ish".toList := by
  have hend : IsIdentifier "endpoint" := ⟨'e', "ndpoint".toList, by decide, by decide, by decide⟩
  have htrue : IsIdentifier "trueish" := ⟨'t', "rueish".toList, by decide, by decide, by decide⟩
  have hfail := parse_statement_of_barred hend (by decide) (by decide)
  have hbool := parse_statement_of_bool (b := true) (r := "ish".toList) htrue (by decide) (by decide)
  refine ⟨⟨hend, by decide, fun h => ?_, hfail⟩, htrue, by decide, fun h => ?_, hbool⟩
  · have hstatement := h.statement [] rfl
    rw [List.append_nil, hfail] at hstatement
    cases hstatement
  · have hstatement := h.statement [] rfl
    rw [List.append_nil, hbool] at hstatement
    cases hstatement

end Pup.Parse
