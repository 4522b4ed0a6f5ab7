/-
The levels of an expression.

From `lookup` up to `expression` every rule first reads what the rule below it reads, and then
looks for an operator of its own.  So what a primary expression reads is what an expression
reads, unless an operator comes behind it (`parse_expression_of_primary`), and at a level of
its own an operator makes a node (`parse_binary`).  The one rule that starts differently is
the assignment, which tries a left hand side first: that one is never longer than the primary
expression at the same place, as far as operators are concerned (`parse_left_hand_side`).
-/
import Pup.Parse.Tokens

namespace Pup.Parse

open Peg
open Peg.Expression (opt plus)

/-! ### First characters -/

/-- What an operator begins with. -/
def operatorChar (c : Char) : Bool := "=+-*%^/~|&<>!?".toList.contains c

/-- What an expression begins with. -/
def beginsPrimary (c : Char) : Bool :=
  c == '(' || c.isDigit || c.isUpper || identStart c || c == '"' || c == '\x27' || c == '@'

/-- What goes on with a lookup. -/
def looksUp (c : Char) : Bool := c == '.' || c == '['

/-- What goes on with a name or with a lookup. -/
def attaches (c : Char) : Bool := identRest c || looksUp c

theorem beginsSpace_of_beginsPrimary {c : Char} (h : beginsPrimary c = true) :
    beginsSpace c = false := by
  by_contra hspace
  have hcases : c = ' ' ∨ c = '\t' ∨ c = '\n' ∨ c = '\r' ∨ c = '#' := by
    rw [Bool.not_eq_false] at hspace
    simpa [beginsSpace, isWhite, isBlank, isEol, or_assoc] using hspace
  rcases hcases with rfl | rfl | rfl | rfl | rfl <;> exact absurd h (by decide)

/-- Nothing that is read from there on begins with space. -/
theorem beginsSpace_of_ok {α : Type} {e : Exp α} (he : Begins grammar beginsPrimary e)
    {s t : List Char} {a : α} (h : parse grammar e s = .ok a t) :
    s.head?.any beginsSpace = false := by
  have hhead := he.head_of_ok h
  cases s with
  | nil => rfl
  | cons c s => exact beginsSpace_of_beginsPrimary hhead

theorem any_or_left {p q : Char → Bool} {o : Option Char}
    (h : o.any (fun c => p c || q c) = false) : o.any p = false := by
  cases o with
  | none => rfl
  | some c => exact (Bool.or_eq_false_iff.mp h).1

theorem any_or_right {p q : Char → Bool} {o : Option Char}
    (h : o.any (fun c => p c || q c) = false) : o.any q = false := by
  cases o with
  | none => rfl
  | some c => exact (Bool.or_eq_false_iff.mp h).2

theorem begins_assign_op : Begins grammar operatorChar (rule .assign_op) := by
  refine .rule (.orElse (.notAt_lit (.lit (by decide))) ?_)
  repeat' apply Begins.orElse
  all_goals exact .lit (by decide)

theorem begins_logic_op : Begins grammar operatorChar (rule .logic_op) :=
  .rule (.orElse (.lit (by decide)) (.lit (by decide)))

theorem begins_bit_op : Begins grammar operatorChar (rule .bit_op) := by
  refine .rule ?_
  repeat' apply Begins.orElse
  all_goals exact .lit (by decide)

theorem begins_equality_op : Begins grammar operatorChar (rule .equality_op) :=
  .rule (.orElse (.lit (by decide)) (.lit (by decide)))

theorem begins_relational_op : Begins grammar operatorChar (rule .relational_op) := by
  refine .rule ?_
  repeat' apply Begins.orElse
  all_goals exact .lit (by decide)

theorem begins_add_op : Begins grammar operatorChar (rule .add_op) :=
  .rule (.orElse (.lit (by decide)) (.lit (by decide)))

theorem begins_mult_op : Begins grammar operatorChar (rule .mult_op) :=
  .rule (.orElse (.lit (by decide)) (.lit (by decide)))

theorem begins_thename : Begins grammar beginsPrimary (rule .thename) := by
  intro s hs
  rw [parse_thename]
  cases s with
  | nil => simp
  | cons c s =>
      have hc : identStart c = false := by
        simp only [List.head?_cons, Option.any_some, beginsPrimary, Bool.or_eq_false_iff] at hs
        exact hs.1.1.1.2
      simp [hc]

theorem begins_instvar : Begins grammar beginsPrimary (rule .instvar) :=
  .rule (.seqRight (.lit (by decide)) _)

theorem begins_quoted_string : Begins grammar beginsPrimary (rule .quoted_string) := by
  intro s hs
  rw [parse_quoted_string]
  cases s with
  | nil => rfl
  | cons c s =>
      simp only [List.head?_cons, Option.any_some, beginsPrimary, Bool.or_eq_false_iff,
        beq_eq_false_iff_ne] at hs
      rw [readString, if_neg hs.1.1.2, if_neg hs.1.2]
      rfl

theorem begins_named_value : Begins grammar beginsPrimary (rule .named_value) := by
  refine .rule (.orElse (.map ?_) (.map begins_thename))
  refine .rule (.seq (.map (.sat fun c hc => ?_)) _)
  simp [beginsPrimary, hc]

theorem begins_primary : Begins grammar beginsPrimary (rule .primary) := by
  have hdigit : ∀ c : Char, (c.isDigit && c != '0') = true → beginsPrimary c = true := by
    intro c hc
    have hc' : c.isDigit = true := by simp_all
    simp [beginsPrimary, hc']
  refine .rule ?_
  refine .orElse (.rule (.seqLeft (.seqRight (.lit (by decide)) _) _)) ?_
  refine .orElse (.rule (.map (.orElse (.seq (.map (.sat hdigit)) _) (.lit (by decide))))) ?_
  refine .orElse (.rule (.orElse (.map (.lit (by decide))) (.map (.lit (by decide))))) ?_
  refine .orElse begins_quoted_string ?_
  refine .orElse ?_ (.map begins_instvar)
  exact .rule (.seq (.seqLeft (.seq (.map (.seqLeft begins_named_value _)) _) _) _)

theorem begins_lhs_stem : Begins grammar beginsPrimary (rule .lhs_stem) :=
  .rule (.orElse (.map begins_thename) (.map begins_instvar))

theorem begins_left_hand_side : Begins grammar beginsPrimary (rule .left_hand_side) :=
  .rule (.orElse (.map (.seqRight begins_lhs_stem _)) begins_lhs_stem)

/-- Where there is neither a primary expression nor a left hand side, there is nothing. -/
theorem parse_expression_fail {s : List Char}
    (hprimary : parse grammar (rule .primary) s = .fail)
    (hleft : parse grammar (rule .left_hand_side) s = .fail) :
    parse grammar (rule .expression) s = .fail := by
  have hbinary : ∀ {class_ left op right}, parse grammar left s = .fail →
      parse grammar (binaryRule class_ left op right) s = .fail := by
    intro class_ left op right h
    simp [binaryRule, h]
  have hlookup : parse grammar (rule .lookup) s = .fail := by
    rw [parse_rule]
    simp [grammar, hprimary]
  have hmultitive : parse grammar (rule .multitive) s = .fail := by
    rw [parse_rule]
    exact hbinary hlookup
  have hadditive : parse grammar (rule .additive) s = .fail := by
    rw [parse_rule]
    exact hbinary hmultitive
  have hrelational : parse grammar (rule .relational) s = .fail := by
    rw [parse_rule]
    exact hbinary hadditive
  have hequality : parse grammar (rule .equality) s = .fail := by
    rw [parse_rule]
    exact hbinary hrelational
  have hbitwise : parse grammar (rule .bitwise) s = .fail := by
    rw [parse_rule]
    exact hbinary hequality
  have hlogical : parse grammar (rule .logical) s = .fail := by
    rw [parse_rule]
    exact hbinary hbitwise
  have hconditional : parse grammar (rule .conditional) s = .fail := by
    rw [parse_rule]
    simp [grammar, hlogical]
  rw [parse_rule]
  change parse grammar (rule .assignment) s = _
  rw [parse_rule]
  simp [grammar, hleft, hconditional]

/-- **An expression begins with a bracket, a digit, a letter, an underscore, a quote or `@`.** -/
theorem begins_expression : Begins grammar beginsPrimary (rule .expression) :=
  fun s hs => parse_expression_fail (begins_primary s hs) (begins_left_hand_side s hs)

/-! ### One level -/

section Binary

variable {class_ : BinaryClass} {left right : Exp (Option Expr)} {op : Exp String}
  {s t u v : List Char} {a b : Option Expr} {o : String}

/-- No operator of the level comes next. -/
theorem parse_binary_left (h : parse grammar left s = .ok a t)
    (hop : parse grammar op (t.dropWhile isBlank) = .fail) :
    parse grammar (binaryRule class_ left op right) s = .ok a t := by
  obtain ⟨w, hw⟩ := parse_optBlank t
  simp [binaryRule, h, hw, hop]

/-- An operator comes next, but no operand. -/
theorem parse_binary_back (h : parse grammar left s = .ok a t)
    (hop : parse grammar op (t.dropWhile isBlank) = .ok o u)
    (hright : parse grammar right (skipSpace false u) = .fail) :
    parse grammar (binaryRule class_ left op right) s = .ok a t := by
  obtain ⟨w, hw⟩ := parse_optBlank t
  obtain ⟨w', hw'⟩ := parse_optSpace u
  simp [binaryRule, h, hw, hop, hw', hright]

theorem parse_binary (h : parse grammar left s = .ok a t)
    (hop : parse grammar op (t.dropWhile isBlank) = .ok o u)
    (hright : parse grammar right (skipSpace false u) = .ok b v) :
    parse grammar (binaryRule class_ left op right) s =
      .ok (do return .binary class_ (← a) o (← b)) v := by
  obtain ⟨w, hw⟩ := parse_optBlank t
  obtain ⟨w', hw'⟩ := parse_optSpace u
  simp [binaryRule, h, hw, hop, hw', hright]

end Binary

/-! ### Up to the top -/

section Climb

variable {s t : List Char} {a : Option Expr}

theorem parse_lookup_of_primary (h : parse grammar (rule .primary) s = .ok a t)
    (ht : t.head?.any looksUp = false) : parse grammar (rule .lookup) s = .ok a t := by
  have hdot : parse grammar (.lit ".") t = .fail :=
    Begins.lit (p := looksUp) (by decide) t ht
  have hopen : parse grammar (.lit "[") t = .fail :=
    Begins.lit (p := looksUp) (by decide) t ht
  rw [parse_rule]
  simp [grammar, h, parse_plus, hdot, hopen]

variable (ht : (t.dropWhile isBlank).head?.any operatorChar = false)

include ht

theorem parse_additive_of_multitive (h : parse grammar (rule .multitive) s = .ok a t) :
    parse grammar (rule .additive) s = .ok a t := by
  rw [parse_rule]
  exact parse_binary_left h (begins_add_op _ ht)

theorem parse_logical_of_additive (h : parse grammar (rule .additive) s = .ok a t) :
    parse grammar (rule .logical) s = .ok a t := by
  rw [parse_rule]
  refine parse_binary_left ?_ (begins_logic_op _ ht)
  rw [parse_rule]
  refine parse_binary_left ?_ (begins_bit_op _ ht)
  rw [parse_rule]
  refine parse_binary_left ?_ (begins_equality_op _ ht)
  rw [parse_rule]
  exact parse_binary_left h (begins_relational_op _ ht)

theorem parse_conditional_of_logical (h : parse grammar (rule .logical) s = .ok a t) :
    parse grammar (rule .conditional) s = .ok a t := by
  obtain ⟨w, hw⟩ := parse_optBlank t
  have hquestion : parse grammar (.lit "?") (t.dropWhile isBlank) = .fail :=
    Begins.lit (p := operatorChar) (by decide) _ ht
  rw [parse_rule]
  simp [grammar, h, hw, hquestion]

theorem parse_conditional_of_primary (h : parse grammar (rule .primary) s = .ok a t)
    (hlook : t.head?.any looksUp = false) : parse grammar (rule .conditional) s = .ok a t := by
  refine parse_conditional_of_logical ht ?_
  refine parse_logical_of_additive ht ?_
  refine parse_additive_of_multitive ht ?_
  rw [parse_rule]
  exact parse_binary_left (parse_lookup_of_primary h hlook) (begins_mult_op _ ht)

end Climb

/-! ### Left hand sides -/

theorem parse_left_hand_side_of_stem {s t : List Char} {l : Option LeftHandSide}
    (h : parse grammar (rule .lhs_stem) s = .ok l t) (ht : t.head?.any attaches = false) :
    parse grammar (rule .left_hand_side) s = .ok l t := by
  have hdot : parse grammar (.lit ".") t = .fail :=
    Begins.lit (p := attaches) (by decide) t ht
  have hopen : parse grammar (.lit "[") t = .fail :=
    Begins.lit (p := attaches) (by decide) t ht
  rw [parse_rule]
  simp [grammar, h, parse_plus, hdot, hopen]

theorem begins_args : Begins grammar beginsPrimary (rule .args) := by
  refine .rule (.orElse ?_ ?_)
  · exact .rule (.map (.seqLeft (.seqRight (.lit (by decide)) _) _))
  · exact .rule (.seq (.map begins_expression) _)

/-- A name by itself. -/
theorem parse_invoke_name {s t : List Char} {n : NamedValue}
    (h : parse grammar (rule .named_value) s = .ok n t)
    (hargs : parse grammar (rule .args) (t.dropWhile isBlank) = .fail)
    (hblock : (t.dropWhile isBlank).head?.any (· == '\x7b') = false) :
    parse grammar (rule .invoke) s =
      .ok (some (.varOrInvoke n none none none)) (t.dropWhile isBlank) := by
  obtain ⟨w, hw⟩ := parse_optBlank t
  obtain ⟨w', hw'⟩ := parse_optBlank (t.dropWhile isBlank)
  rw [dropWhile_of_head (head_dropWhile isBlank t)] at hw'
  have hno : parse grammar (rule .block) (t.dropWhile isBlank) = .fail := by
    rw [parse_rule]
    have hopen : parse grammar (.lit "\x7b") (t.dropWhile isBlank) = .fail :=
      Begins.lit (p := (· == '\x7b')) (by decide) _ hblock
    simp [grammar, hopen]
  rw [parse_rule]
  simp [grammar, h, hw, parse_opt, hargs, hw', hno, optValue]

theorem toNat_of_identStart {c : Char} (h : identStart c = true) : 95 ≤ c.toNat := by
  simp only [identStart, Bool.or_eq_true, beq_iff_eq] at h
  rcases h with h | rfl
  · have hrange : (decide (c.val ≥ 'a'.val) && decide (c.val ≤ 'z'.val)) = true := h
    simp only [Bool.and_eq_true, decide_eq_true_eq, ge_iff_le, UInt32.le_iff_toNat_le] at hrange
    have hlow : 97 ≤ c.toNat := hrange.1
    omega
  · decide

theorem toNat_of_isDigit {c : Char} (h : c.isDigit = true) : c.toNat < 58 := by
  have hrange := (Char.isDigit_iff_toNat.mp h).2
  change c.toNat ≤ 57 at hrange
  omega

theorem toNat_of_isUpper {c : Char} (h : c.isUpper = true) : 65 ≤ c.toNat ∧ c.toNat < 91 := by
  have hrange : c.val ≥ 'A'.val ∧ c.val ≤ 'Z'.val := of_decide_eq_true h
  have hlow : 65 ≤ c.toNat := UInt32.le_iff_toNat_le.mp hrange.1
  have hhigh : c.toNat ≤ 90 := UInt32.le_iff_toNat_le.mp hrange.2
  omega

/-- What stands before the names in `primary` does not begin like a name. -/
theorem parse_primary_of_letter {c : Char} (hc : 65 ≤ c.toNat) (r : List Char) :
    parse grammar (rule .primary) (c :: r) =
      (parse grammar (rule .bool) (c :: r)).on .ok
        ((parse grammar (rule .invoke) (c :: r)).on .ok
          (parse grammar ((fun name => some (Expr.instVar name)) <$> rule .instvar) (c :: r))) := by
  have hhead : (c :: r).head?.any (fun c => decide (c.toNat < 65)) = false := by simpa using hc
  have hparenthesis : parse grammar (rule .parenthesis) (c :: r) = .fail :=
    Begins.rule (.seqLeft (.seqRight (.lit (by decide)) _) _) _ hhead
  have hnumber : parse grammar (rule .number) (c :: r) = .fail := by
    refine Begins.rule (.map (.orElse (.seq (.map (.sat fun c hc => ?_)) _) (.lit (by decide)))) _
      hhead
    have hdigit := toNat_of_isDigit (c := c) (by simp_all)
    exact decide_eq_true (by omega)
  have hstring : parse grammar (rule .quoted_string) (c :: r) = .fail := by
    have hd : c ≠ '"' := by
      rintro rfl
      exact absurd hc (by decide)
    have hs : c ≠ '\x27' := by
      rintro rfl
      exact absurd hc (by decide)
    rw [parse_quoted_string, readString, if_neg hd, if_neg hs]
    rfl
  rw [parse_rule]
  simp [grammar, hparenthesis, hnumber, hstring]

theorem parse_primary_of_identStart {c : Char} (hc : identStart c = true) (r : List Char) :
    parse grammar (rule .primary) (c :: r) =
      (parse grammar (rule .bool) (c :: r)).on .ok
        ((parse grammar (rule .invoke) (c :: r)).on .ok
          (parse grammar ((fun name => some (Expr.instVar name)) <$> rule .instvar) (c :: r))) :=
  parse_primary_of_letter (Nat.le_trans (by decide) (toNat_of_identStart hc)) r

theorem parse_primary_of_number {s t : List Char} {a : Option Expr}
    (h : parse grammar (rule .number) s = .ok a t) :
    parse grammar (rule .primary) s = .ok a t := by
  have hparenthesis : parse grammar (rule .parenthesis) s = .fail := by
    refine Begins.rule (p := (· == '(')) (.seqLeft (.seqRight (.lit (by decide)) _) _) _ ?_
    cases s with
    | nil => rfl
    | cons c s =>
        have hc : c ≠ '(' := by
          rintro rfl
          rw [parse_number] at h
          cases h
        simpa using hc
  rw [parse_rule]
  simp [grammar, hparenthesis, h]

theorem parse_constant_of_identStart {c : Char} (hc : identStart c = true) (r : List Char) :
    parse grammar (rule .constant) (c :: r) = .fail := by
  have hupper : ¬c.isUpper = true := by
    intro hupper
    have hrange := toNat_of_identStart hc
    obtain ⟨-, hhigh⟩ := toNat_of_isUpper hupper
    omega
  rw [parse_constant]
  simp [hupper]

theorem parse_primary_of_name {s t : List Char} {w : String}
    (h : parse grammar (rule .thename) s = .ok w t) :
    parse grammar (rule .primary) s =
      (parse grammar (rule .bool) s).on .ok
        ((parse grammar (rule .invoke) s).on .ok
          (parse grammar ((fun name => some (Expr.instVar name)) <$> rule .instvar) s)) := by
  obtain ⟨c, r, rfl, -, hc, -, -⟩ := parse_thename_ok h
  exact parse_primary_of_identStart hc r

theorem parse_named_value_of_name {s t : List Char} {w : String}
    (h : parse grammar (rule .thename) s = .ok w t) :
    parse grammar (rule .named_value) s = .ok (.name w) t := by
  obtain ⟨c, r, rfl, -, hc, -, -⟩ := parse_thename_ok h
  rw [parse_rule]
  simp [grammar, parse_constant_of_identStart hc, h]

/-- No operator comes where arguments or a block do. -/
theorem operatorChar_of_begins {c : Char} (h : (beginsPrimary c || c == '\x7b') = true) :
    operatorChar c = false := by
  have hall : ∀ c ∈ "=+-*%^/~|&<>!?".toList, (beginsPrimary c || c == '\x7b') = false := by decide
  by_contra hop
  have hmem : c ∈ "=+-*%^/~|&<>!?".toList :=
    List.contains_iff_mem.mp (by simpa only [operatorChar, Bool.not_eq_false] using hop)
  rw [hall c hmem] at h
  cases h

theorem attaches_of_isBlank {c : Char} (h : isBlank c = true) : attaches c = false := by
  have hc : c = ' ' ∨ c = '\t' := by simpa [isBlank] using h
  rcases hc with rfl | rfl
  · decide
  · decide

theorem bool_of_name {s t u : List Char} {w : String} {b : Option Expr}
    (hname : parse grammar (rule .thename) s = .ok w u)
    (hbool : parse grammar (rule .bool) s = .ok b t) : u = t.dropWhile identRest := by
  obtain ⟨c, r, rfl, -, hc, -, rfl⟩ := parse_thename_ok hname
  have hall : (c :: r).dropWhile identRest = r.dropWhile identRest := by
    simp [identRest_of_identStart hc]
  rw [← hall]
  rw [parse_bool] at hbool
  cases htrue : dropWord "true".toList (c :: r) with
  | some v =>
      rw [htrue] at hbool
      cases hbool
      rw [dropWord_eq_some_iff.mp htrue]
      rfl
  | none =>
      rw [htrue] at hbool
      cases hfalse : dropWord "false".toList (c :: r) with
      | some v =>
          rw [hfalse] at hbool
          cases hbool
          rw [dropWord_eq_some_iff.mp hfalse]
          rfl
      | none =>
          rw [hfalse] at hbool
          cases hbool

theorem parse_primary_of_instvar {s t : List Char} {w : String}
    (h : parse grammar (rule .instvar) s = .ok w t) :
    parse grammar (rule .primary) s = .ok (some (.instVar w)) t := by
  obtain ⟨r, rfl⟩ : ∃ r, s = '@' :: r := by
    rw [parse_instvar] at h
    split at h
    · exact ⟨_, rfl⟩
    · cases h
  have hhead : ('@' :: r).head?.any (· != '@') = false := rfl
  have hparenthesis : parse grammar (rule .parenthesis) ('@' :: r) = .fail :=
    Begins.rule (.seqLeft (.seqRight (.lit (by decide)) _) _) _ hhead
  have hdigit : ∀ c : Char, (c.isDigit && c != '0') = true → (c != '@') = true := by
    intro c hc
    have hd : c ≠ '@' := by
      rintro rfl
      exact absurd hc (by decide)
    simpa using hd
  have hnumber : parse grammar (rule .number) ('@' :: r) = .fail :=
    Begins.rule (.map (.orElse (.seq (.map (.sat hdigit)) _) (.lit (by decide)))) _ hhead
  have hbool : parse grammar (rule .bool) ('@' :: r) = .fail :=
    Begins.rule (.orElse (.map (.lit (by decide))) (.map (.lit (by decide)))) _ hhead
  have hstring : parse grammar (rule .quoted_string) ('@' :: r) = .fail := by
    rw [parse_quoted_string]
    rfl
  have hnamed : parse grammar (rule .named_value) ('@' :: r) = .fail := by
    have hconstant : parse grammar (rule .constant) ('@' :: r) = .fail := by
      rw [parse_constant]
      rfl
    have hname : parse grammar (rule .thename) ('@' :: r) = .fail := by
      rw [parse_thename]
      rfl
    rw [parse_rule]
    simp [grammar, hconstant, hname]
  have hinvoke : parse grammar (rule .invoke) ('@' :: r) = .fail := by
    rw [parse_rule]
    simp [grammar, hnamed]
  rw [parse_rule]
  simp [grammar, hparenthesis, hnumber, hbool, hstring, hinvoke, h]

/-- Nothing but a parenthesis begins like one. -/
theorem parse_primary_of_parenthesis (s : List Char) :
    parse grammar (rule .primary) ('(' :: s) = parse grammar (rule .parenthesis) ('(' :: s) := by
  have hhead : ('(' :: s).head?.any (· != '(') = false := rfl
  have hdigit : ∀ c : Char, (c.isDigit && c != '0') = true → (c != '(') = true := by
    intro c hc
    have hd : c ≠ '(' := by
      rintro rfl
      exact absurd hc (by decide)
    simpa using hd
  have hnumber : parse grammar (rule .number) ('(' :: s) = .fail :=
    Begins.rule (.map (.orElse (.seq (.map (.sat hdigit)) _) (.lit (by decide)))) _ hhead
  have hbool : parse grammar (rule .bool) ('(' :: s) = .fail :=
    Begins.rule (.orElse (.map (.lit (by decide))) (.map (.lit (by decide)))) _ hhead
  have hstring : parse grammar (rule .quoted_string) ('(' :: s) = .fail := by
    rw [parse_quoted_string]
    rfl
  have hnamed : parse grammar (rule .named_value) ('(' :: s) = .fail := by
    have hconstant : parse grammar (rule .constant) ('(' :: s) = .fail := by
      rw [parse_constant]
      rfl
    have hname : parse grammar (rule .thename) ('(' :: s) = .fail := by
      rw [parse_thename]
      rfl
    rw [parse_rule]
    simp [grammar, hconstant, hname]
  have hinvoke : parse grammar (rule .invoke) ('(' :: s) = .fail := by
    rw [parse_rule]
    simp [grammar, hnamed]
  have hinst : parse grammar (rule .instvar) ('(' :: s) = .fail := by
    rw [parse_instvar]
    rfl
  rw [parse_rule]
  simp only [grammar, parse_orElse, parse_map, hnumber, hbool, hstring, hinvoke, hinst]
  cases parse grammar (rule .parenthesis) ('(' :: s) <;> rfl

/-- And it is nothing that is assigned to. -/
theorem parse_left_hand_side_of_parenthesis (s : List Char) :
    parse grammar (rule .left_hand_side) ('(' :: s) = .fail := by
  have hname : parse grammar (rule .thename) ('(' :: s) = .fail := by
    rw [parse_thename]
    rfl
  have hinst : parse grammar (rule .instvar) ('(' :: s) = .fail := by
    rw [parse_instvar]
    rfl
  have hstem : parse grammar (rule .lhs_stem) ('(' :: s) = .fail := by
    rw [parse_rule]
    simp [grammar, hname, hinst]
  rw [parse_rule]
  simp [grammar, hstem]

theorem head_blank (s : List Char) :
    s.head?.any attaches = false ∨ s.dropWhile isBlank = s := by
  cases s with
  | nil => exact .inr rfl
  | cons c s =>
      by_cases hc : isBlank c = true
      · exact .inl (attaches_of_isBlank hc)
      · exact .inr (dropWhile_of_head (by simpa using hc))

/--
A left hand side is no longer than a primary expression at the same place.  It may be shorter,
where the name has arguments; then no assignment operator comes behind it.
-/
theorem parse_left_hand_side {s t : List Char} {a : Option Expr}
    (h : parse grammar (rule .primary) s = .ok a t) (ht : t.head?.any attaches = false) :
    parse grammar (rule .left_hand_side) s = .fail ∨
      ∃ l u, parse grammar (rule .left_hand_side) s = .ok l u ∧
        (parse grammar (rule .assign_op) (u.dropWhile isBlank) = .fail ∨
          u.dropWhile isBlank = t.dropWhile isBlank) := by
  cases hname : parse grammar (rule .thename) s with
  | ok w u =>
      have hstem : parse grammar (rule .lhs_stem) s = .ok (some (.name w)) u := by
        rw [parse_rule]
        simp [grammar, hname]
      rw [parse_primary_of_name hname] at h
      cases hbool : parse grammar (rule .bool) s with
      | ok b v =>
          rw [hbool] at h
          cases h
          have hu := bool_of_name hname hbool
          have hrest : t.head?.any identRest = false := by
            cases t with
            | nil => rfl
            | cons c t => simp_all [attaches]
          rw [dropWhile_of_head hrest] at hu
          subst hu
          exact .inr ⟨_, u, parse_left_hand_side_of_stem hstem ht, .inr rfl⟩
      | fail =>
          rw [hbool, Result.on_fail] at h
          have hnamed := parse_named_value_of_name hname
          by_cases hstop : (u.dropWhile isBlank).head?.any
              (fun c => beginsPrimary c || c == '\x7b') = false
          · -- nothing that an invocation reads comes behind the name
            rw [parse_invoke_name hnamed (begins_args _ (any_or_left hstop)) (any_or_right hstop)] at h
            cases h
            have hu : u.head?.any attaches = false := by
              rcases head_blank u with hu | hu
              · exact hu
              · rwa [hu] at ht
            exact .inr ⟨_, u, parse_left_hand_side_of_stem hstem hu,
              .inr (dropWhile_of_head (head_dropWhile _ _)).symm⟩
          · obtain ⟨c, hc, hbegins⟩ : ∃ c, (u.dropWhile isBlank).head? = some c ∧
                (beginsPrimary c || c == '\x7b') = true := by
              cases hhead : (u.dropWhile isBlank).head? with
              | none =>
                  rw [hhead] at hstop
                  exact absurd rfl hstop
              | some c =>
                  rw [hhead] at hstop
                  exact ⟨c, rfl, by simpa only [Option.any_some, Bool.not_eq_false] using hstop⟩
            have hu : u.head?.any attaches = false := by
              rcases head_blank u with hu | hu
              · exact hu
              · -- the name has ended, and no argument begins with a dot or a bracket
                obtain ⟨d, r, -, -, -, -, hrest⟩ := parse_thename_ok hname
                have hident := head_dropWhile identRest r
                rw [← hrest] at hident
                rw [hu] at hc
                rw [hc] at hident ⊢
                have hd : c ≠ '.' := by
                  rintro rfl
                  exact absurd hbegins (by decide)
                have hb : c ≠ '[' := by
                  rintro rfl
                  exact absurd hbegins (by decide)
                simpa [attaches, looksUp, hd, hb] using hident
            refine .inr ⟨_, u, parse_left_hand_side_of_stem hstem hu, .inl ?_⟩
            refine begins_assign_op _ ?_
            rw [hc]
            exact operatorChar_of_begins hbegins
      | diverges =>
          rw [parse_bool] at hbool
          split at hbool
          · cases hbool
          · split at hbool <;> cases hbool
  | fail =>
      cases hinst : parse grammar (rule .instvar) s with
      | ok w u =>
          have hstem : parse grammar (rule .lhs_stem) s = .ok (some (.instVar w)) u := by
            rw [parse_rule]
            simp [grammar, hname, hinst]
          have hprimary := parse_primary_of_instvar hinst
          rw [h] at hprimary
          cases hprimary
          exact .inr ⟨_, t, parse_left_hand_side_of_stem hstem ht, .inr rfl⟩
      | fail =>
          left
          have hstem : parse grammar (rule .lhs_stem) s = .fail := by
            rw [parse_rule]
            simp [grammar, hname, hinst]
          rw [parse_rule]
          simp [grammar, hstem]
      | diverges =>
          rw [parse_instvar] at hinst
          split at hinst
          · split at hinst <;> cases hinst
          · cases hinst
  | diverges =>
      rw [parse_thename] at hname
      split at hname
      · cases hname
      · split at hname
        · cases hname
        · split at hname <;> cases hname

/-! ### Whole expressions -/

/-- Nothing in front of `t` goes on into `t`. -/
structure Ends (t : List Char) : Prop where
  apart : t.head?.any attaches = false
  noOperator : (t.dropWhile isBlank).head?.any operatorChar = false

theorem parse_expression_of_conditional {s t u : List Char} {a b : Option Expr}
    (h : parse grammar (rule .primary) s = .ok a t) (ht : t.head?.any attaches = false)
    (hop : parse grammar (rule .assign_op) (t.dropWhile isBlank) = .fail)
    (hc : parse grammar (rule .conditional) s = .ok b u) :
    parse grammar (rule .expression) s = .ok b u := by
  rw [parse_rule]
  change parse grammar (rule .assignment) s = _
  rw [parse_rule]
  rcases parse_left_hand_side h ht with hl | ⟨l, v, hl, hv⟩
  · simp [grammar, hl, hc]
  · have hassign : parse grammar (rule .assign_op) (v.dropWhile isBlank) = .fail := by
      rcases hv with hv | hv
      · exact hv
      · rwa [hv]
    obtain ⟨w, hw⟩ := parse_optBlank v
    simp [grammar, hl, hw, hassign, hc]

/-- **A primary expression with no operator behind it is an expression.** -/
theorem parse_expression_of_primary {s t : List Char} {a : Option Expr}
    (h : parse grammar (rule .primary) s = .ok a t) (ht : Ends t) :
    parse grammar (rule .expression) s = .ok a t := by
  exact parse_expression_of_conditional h ht.apart (begins_assign_op _ ht.noOperator)
    (parse_conditional_of_primary ht.noOperator h (any_or_right ht.apart))

/-- What an expression can end in front of. -/
def closes (c : Char) : Bool := "\n\r)]\x7d,".toList.contains c

theorem closes_cases {c : Char} (h : closes c = true) :
    c = '\n' ∨ c = '\r' ∨ c = ')' ∨ c = ']' ∨ c = '\x7d' ∨ c = ',' := by
  simpa [closes] using h

/-- Nothing that an expression is made of begins with a character that closes one. -/
theorem not_any_of_closes {p : Char → Bool} (hp : ∀ c, closes c = true → p c = false)
    {t : List Char} (ht : t.head?.all closes = true) : t.head?.any p = false := by
  cases t with
  | nil => rfl
  | cons c t => exact hp c (by simpa using ht)

theorem dropWhile_of_closes {t : List Char} (ht : t.head?.all closes = true) :
    t.dropWhile isBlank = t := by
  refine dropWhile_of_head (not_any_of_closes (fun c hc => ?_) ht)
  rcases closes_cases hc with rfl | rfl | rfl | rfl | rfl | rfl <;> decide

theorem ends_of_closes {t : List Char} (ht : t.head?.all closes = true) : Ends t := by
  refine ⟨not_any_of_closes (fun c hc => ?_) ht, ?_⟩
  · rcases closes_cases hc with rfl | rfl | rfl | rfl | rfl | rfl <;> decide
  · rw [dropWhile_of_closes ht]
    refine not_any_of_closes (fun c hc => ?_) ht
    rcases closes_cases hc with rfl | rfl | rfl | rfl | rfl | rfl <;> decide

/-- It begins neither arguments nor a block. -/
theorem not_called_of_closes {t : List Char} (ht : t.head?.all closes = true) :
    (t.dropWhile isBlank).head?.any (fun c => beginsPrimary c || c == '\x7b') = false := by
  rw [dropWhile_of_closes ht]
  refine not_any_of_closes (fun c hc => ?_) ht
  rcases closes_cases hc with rfl | rfl | rfl | rfl | rfl | rfl <;> decide

theorem not_blank_of_closes {t : List Char} (ht : t.head?.all closes = true) :
    t.head?.any (fun c => isBlank c || c == '\x7b') = false := by
  refine not_any_of_closes (fun c hc => ?_) ht
  rcases closes_cases hc with rfl | rfl | rfl | rfl | rfl | rfl <;> decide

end Pup.Parse
