/-
Sums of decimal literals.

An `Addition` is an expression as it is written: literals of any length, `+` with the space
around it, and sums in parentheses.  What is not read by the grammar cannot be built.  Its
operands are primary expressions, so it is a chain, and `additive` reads it as a tree that
hangs together from its right end; the value of a sum does not depend on that.
-/
import Mathlib.Data.Nat.Digits.Defs
import Pup.Parse.Binary
import Pup.Parse.Chains
import Pup.Parse.Indentation

namespace Pup.Parse

open Peg

/-! ### Literals -/

/-- The number that decimal digits stand for. -/
def decimal (digits : List Char) : Nat :=
  Nat.ofDigits 10 (digits.reverse.map fun c => c.toNat - '0'.toNat)

/-- `to_i` has the value of the digits. -/
theorem toI_ofList (digits : List Char) : toI (String.ofList digits) = decimal digits := by
  rw [toI, decimal, String.toList_ofList, Nat.ofDigits_eq_foldr, List.foldr_map, List.foldr_reverse]
  simp only [Nat.cast_id, Nat.add_comm]

/-- Digits without a zero in front, or a zero. -/
structure Literal where
  digits : List Char
  canonical : digits = ['0'] ∨
    ∃ c ds, digits = c :: ds ∧ c.isDigit = true ∧ c ≠ '0' ∧ ds.all Char.isDigit = true

namespace Literal

def value (l : Literal) : Nat := decimal l.digits

theorem parse_number (l : Literal) {t : List Char} (ht : t.head?.any Char.isDigit = false) :
    parse grammar (rule .number) (l.digits ++ t) = .ok (some (.int (String.ofList l.digits))) t := by
  rw [Parse.parse_number]
  obtain ⟨digits, rfl | ⟨c, ds, rfl, hc, hzero, hds⟩⟩ := l
  · rfl
  · have hall : ∀ d ∈ ds, d.isDigit = true := List.all_eq_true.mp hds
    have htake : (ds ++ t).takeWhile Char.isDigit = ds := by
      rw [List.takeWhile_append_of_pos hall, takeWhile_of_head ht, List.append_nil]
    have hdrop : (ds ++ t).dropWhile Char.isDigit = t := by
      rw [List.dropWhile_append_of_pos hall, dropWhile_of_head ht]
    simp [hc, hzero, htake, hdrop, ident]

end Literal

/-! ### Expressions -/

/-- What is written between an operand and the operator. -/
structure Blanks where
  text : List Char
  blank : text.all isBlank = true

/-- What is written behind the operator: space, with line ends and comments. -/
structure Gap where
  text : List Char
  skipped : ∀ s, s.head?.any beginsSpace = false → skipSpace false (text ++ s) = s

def Blanks.gap (x : Blanks) : Gap where
  text := x.text
  skipped s hs := by rw [skipSpace_blanks x.blank, skipSpace_of_head hs]

mutual

inductive Addend
  | literal (l : Literal)
  | group (sum : Addition)

inductive Addition
  | one (a : Addend)
  | plus (left : Addend) (before : Blanks) (after : Gap) (right : Addition)

end

mutual

def Addend.text : Addend → List Char
  | .literal l => l.digits
  | .group sum => '(' :: (sum.text ++ [')'])

def Addition.text : Addition → List Char
  | .one a => a.text
  | .plus left before after right =>
      left.text ++ (before.text ++ '+' :: (after.text ++ right.text))

end

mutual

/-- The numbers in a sum, from left to right. -/
def Addend.numbers : Addend → List Nat
  | .literal l => [l.value]
  | .group sum => sum.numbers

def Addition.numbers : Addition → List Nat
  | .one a => a.numbers
  | .plus left _ _ right => left.numbers ++ right.numbers

end

/-- The mathematical value. -/
def Addition.value (sum : Addition) : Nat := sum.numbers.sum

mutual

/-- The tree that the grammar makes of a sum. -/
def Addend.expr : Addend → Expr
  | .literal l => .int (String.ofList l.digits)
  | .group sum => sum.expr

def Addition.expr : Addition → Expr
  | .one a => a.expr
  | .plus left _ _ right => .binary .addExpr left.expr "+" right.expr

end

/-! ### What is read -/

theorem isDigit_of_attaches {t : List Char} (h : t.head?.any attaches = false) :
    t.head?.any Char.isDigit = false := by
  cases t with
  | nil => rfl
  | cons c t =>
      simp only [List.head?_cons, Option.any_some, attaches, identRest, Char.isAlphanum,
        Bool.or_eq_false_iff] at h ⊢
      exact h.1.1.2

theorem parse_plus (x : Blanks) (z : List Char) :
    parse grammar Arithmetic.add.op ((x.text ++ '+' :: z).dropWhile isBlank) = .ok "+" z := by
  have hdrop : (x.text ++ '+' :: z).dropWhile isBlank = '+' :: z := by
    rw [List.dropWhile_append_of_pos (List.all_eq_true.mp x.blank)]
    rfl
  rw [hdrop]
  change parse grammar (rule .add_op) _ = _
  rw [parse_rule]
  simp [grammar, parse_lit, dropWord]

/-- What comes behind an operand is none of its digits. -/
theorem isDigit_of_blanks (x : Blanks) (z : List Char) :
    (x.text ++ '+' :: z).head?.any Char.isDigit = false := by
  obtain ⟨text, blank⟩ := x
  cases text with
  | nil => rfl
  | cons c text =>
      have hc : c = ' ' ∨ c = '\t' := by
        simpa [isBlank] using List.all_eq_true.mp blank c (.head _)
      rcases hc with rfl | rfl <;> rfl

mutual

theorem Addend.parse_primary : (a : Addend) → {t : List Char} →
    t.head?.any Char.isDigit = false →
    parse grammar (rule .primary) (a.text ++ t) = .ok (some a.expr) t
  | .literal l, _, ht => parse_primary_of_number (l.parse_number ht)
  | .group sum, t, _ => by
      obtain ⟨x, ops, hchain, htree⟩ := sum.chain (t := ')' :: t) (ends_of_closes rfl)
      have hsum : parse grammar (rule .expression) (sum.text ++ ')' :: t) =
          .ok (some sum.expr) (')' :: t) := by
        rw [hchain.parse_expression]
        exact congrArg (fun e => Result.ok (some e) _) htree
      have htext : Addend.text (.group sum) ++ t = '(' :: (sum.text ++ ')' :: t) := by
        simp [Addend.text]
      rw [htext, parse_primary_of_parenthesis, parse_rule]
      simp [grammar, parse_lit, dropWord, hsum, Addend.expr]

/-- **A sum is a chain.** -/
theorem Addition.chain : (sum : Addition) → {t : List Char} → Ends t →
    ∃ x ops, Chain .add (sum.text ++ t) x ops t ∧ rightTree .addExpr x ops = sum.expr
  | .one a, _, ht =>
      ⟨a.expr, [], .last (a.parse_primary (isDigit_of_attaches ht.apart)) ht, rfl⟩
  | .plus left before after right, t, ht => by
      obtain ⟨y, ops, hchain, htree⟩ := right.chain ht
      obtain ⟨u, hy⟩ := hchain.primary
      have hleft := left.parse_primary
        (isDigit_of_blanks before (after.text ++ (right.text ++ t)))
      have hskip := after.skipped (right.text ++ t) (beginsSpace_of_ok begins_primary hy)
      refine ⟨left.expr, ("+", y) :: ops, ?_, ?_⟩
      · have htext : Addition.text (.plus left before after right) ++ t =
            left.text ++ (before.text ++ '+' :: (after.text ++ (right.text ++ t))) := by
          simp [Addition.text]
        rw [htext]
        exact .cons hleft (parse_plus before _) (hskip.symm ▸ hchain)
      · rw [rightTree, htree, Addition.expr]

end

mutual

theorem Addend.head : (a : Addend) → ∃ c r, a.text = c :: r ∧ (c.isDigit = true ∨ c = '(')
  | .literal l => by
      obtain ⟨digits, rfl | ⟨c, ds, rfl, hc, -⟩⟩ := l
      · exact ⟨'0', [], rfl, .inl rfl⟩
      · exact ⟨c, ds, rfl, .inl hc⟩
  | .group sum => ⟨'(', _, rfl, .inr rfl⟩

theorem Addition.head : (sum : Addition) →
    ∃ c r, sum.text = c :: r ∧ (c.isDigit = true ∨ c = '(')
  | .one a => a.head
  | .plus left before after right => by
      obtain ⟨c, r, htext, hc⟩ := left.head
      exact ⟨c, _, by rw [Addition.text, htext, List.cons_append], hc⟩

end

/-- **A text that is a sum is read as a program of that sum.** -/
theorem Addition.parse_unit (sum : Addition) :
    parse grammar (rule .unit) sum.text = .ok (some [.expr sum.expr]) [] := by
  obtain ⟨x, ops, hchain, htree⟩ := sum.chain (t := []) ⟨rfl, rfl⟩
  obtain ⟨u, hx⟩ := hchain.primary
  obtain ⟨c, r, htext, hc⟩ := sum.head
  rw [List.append_nil] at hchain hx
  have hstatement : parse grammar (rule .statement) sum.text =
      .ok (some (.expr sum.expr)) [] := by
    rw [parse_statement_of_expression, hchain.parse_expression, Result.map_ok]
    · exact congrArg (fun e => Result.ok (some (Stmt.expr e)) _) htree
    · -- a statement with a keyword begins with a letter
      intro w hw r' hr
      have hletter : ∀ w ∈ ["if", "class", "def", "begin", "while"],
          w.toList.head?.any (fun c => !c.isDigit && c != '(') = true := by decide
      have hfirst := hletter w hw
      cases hword : w.toList with
      | nil =>
          rw [hword] at hfirst
          cases hfirst
      | cons d ds =>
          rw [hword] at hfirst hr
          rw [htext, List.cons_append] at hr
          obtain ⟨rfl, -⟩ := List.cons.inj hr
          rcases hc with hc | rfl
          · simp [hc] at hfirst
          · cases hfirst
  have hend : parse grammar (rule .space_eol *> .star (rule .space) *> rule .statement) [] =
      .fail := by
    have hnone : parse grammar (rule .space_eol) [] = .fail := by
      rw [parse_space_eol]
      rfl
    simp [hnone]
  rw [parse_unit_of_statement (beginsSpace_of_ok begins_primary hx) hstatement hend]
  rfl

end Pup.Parse
