/-
Chains of one operator after another.

`additive` and `multitive` read their left operand one level down and their right operand at
their own level, so a chain hangs together from its right end (`parse_chain`): `7 - 2 - 1`
is `7 - (2 - 1)`.  That is the tree of a chain that groups to the left only where there is
nothing to group (`leftTree_eq_rightTree_iff`).
-/
import Pup.Parse.Levels

namespace Pup.Parse

open Peg

/-- The two levels of arithmetic. -/
inductive Arithmetic
  | add
  | mult
  deriving DecidableEq, Repr

namespace Arithmetic

def class_ : Arithmetic → BinaryClass
  | add => .addExpr
  | mult => .mulExpr

def op : Arithmetic → Exp String
  | add => rule .add_op
  | mult => rule .mult_op

/-- What the operators begin with. -/
def chars : Arithmetic → String
  | add => "+-"
  | mult => "*/"

/-- The left operands. -/
def operand : Arithmetic → Exp (Option Expr)
  | add => rule .multitive
  | mult => rule .lookup

def level : Arithmetic → Exp (Option Expr)
  | add => rule .additive
  | mult => rule .multitive

theorem parse_level (k : Arithmetic) (s : List Char) :
    parse grammar k.level s = parse grammar (binaryRule k.class_ k.operand k.op k.level) s := by
  cases k with
  | add => exact parse_rule grammar .additive s
  | mult => exact parse_rule grammar .multitive s

end Arithmetic

/--
The text begins with the primary expression `x`, which the operators of the level and their
operands follow, in place: each operand is read where it stands, with what follows behind it.
-/
inductive Chain (k : Arithmetic) : List Char → Expr → List (String × Expr) → List Char → Prop
  | last {s t : List Char} {x : Expr} (h : parse grammar (rule .primary) s = .ok (some x) t)
      (ht : Ends t) : Chain k s x [] t
  | cons {s t u v : List Char} {x y : Expr} {o : String} {ops : List (String × Expr)}
      (h : parse grammar (rule .primary) s = .ok (some x) t)
      (hop : parse grammar k.op (t.dropWhile isBlank) = .ok o u)
      (hs : Chain k (skipSpace false u) y ops v) : Chain k s x ((o, y) :: ops) v

/-- `((x o₁ y₁) o₂ y₂) …` -/
def leftTree (class_ : BinaryClass) (x : Expr) (ops : List (String × Expr)) : Expr :=
  ops.foldl (fun e (o, y) => .binary class_ e o y) x

/-- `x o₁ (y₁ o₂ (y₂ …))` -/
def rightTree (class_ : BinaryClass) : Expr → List (String × Expr) → Expr
  | x, [] => x
  | x, (o, y) :: ops => .binary class_ x o (rightTree class_ y ops)

/-! ### The two trees -/

theorem sizeOf_leftTree (class_ : BinaryClass) (x : Expr) (ops : List (String × Expr)) :
    sizeOf x ≤ sizeOf (leftTree class_ x ops) := by
  induction ops generalizing x with
  | nil => exact Nat.le_refl _
  | cons p ops ih =>
      calc sizeOf x ≤ sizeOf (Expr.binary class_ x p.1 p.2) := by
            simp only [Expr.binary.sizeOf_spec]
            omega
        _ ≤ _ := ih _

/-- The last operator is outermost. -/
theorem leftTree_concat (class_ : BinaryClass) (x : Expr) (ops : List (String × Expr))
    (o : String) (y : Expr) :
    leftTree class_ x (ops ++ [(o, y)]) = .binary class_ (leftTree class_ x ops) o y := by
  rw [leftTree, List.foldl_append]
  rfl

theorem leftTree_eq_rightTree_iff (class_ : BinaryClass) (x : Expr) (ops : List (String × Expr)) :
    leftTree class_ x ops = rightTree class_ x ops ↔ ops.length ≤ 1 := by
  match ops with
  | [] => simp [leftTree, rightTree]
  | [(o, y)] => simp [leftTree, rightTree]
  | (o, y) :: p :: ops =>
      -- the outermost left operand is the first operand on one side only
      refine iff_of_false (fun h => ?_) (by simp)
      obtain ⟨init, q, hinit⟩ : ∃ init q, p :: ops = init ++ [q] :=
        ⟨_, _, (List.dropLast_append_getLast (by simp)).symm⟩
      rw [rightTree, hinit, ← List.cons_append, leftTree_concat] at h
      have hleft : leftTree class_ x ((o, y) :: init) = x := (Expr.binary.inj h).2.1
      have hsize := sizeOf_leftTree class_ (.binary class_ x o y) init
      change leftTree class_ (.binary class_ x o y) init = x at hleft
      rw [hleft, Expr.binary.sizeOf_spec] at hsize
      omega

/-! ### What the grammar reads -/

/-- One of two operators of one character each. -/
theorem parse_either_op {w w' : String} {c d : Char} {s u : List Char} {o : String}
    (hw : w.toList = [c]) (hw' : w'.toList = [d])
    (h : parse grammar (.lit w <|> .lit w') s = .ok o u) : s = c :: u ∨ s = d :: u := by
  rw [parse_orElse, parse_lit, parse_lit, hw, hw'] at h
  cases hfirst : dropWord [c] s with
  | some t =>
      rw [hfirst] at h
      cases h
      exact .inl (dropWord_eq_some_iff.mp hfirst)
  | none =>
      rw [hfirst] at h
      cases hsecond : dropWord [d] s with
      | some t =>
          rw [hsecond] at h
          cases h
          exact .inr (dropWord_eq_some_iff.mp hsecond)
      | none =>
          rw [hsecond] at h
          cases h

theorem parse_arithmetic_op {k : Arithmetic} {s u : List Char} {o : String}
    (h : parse grammar k.op s = .ok o u) : ∃ c ∈ k.chars.toList, s = c :: u := by
  cases k with
  | add =>
      change parse grammar (rule .add_op) s = _ at h
      rw [parse_rule] at h
      rcases parse_either_op (c := '+') (d := '-') (by decide) (by decide) h with rfl | rfl
      · exact ⟨'+', by decide, rfl⟩
      · exact ⟨'-', by decide, rfl⟩
  | mult =>
      change parse grammar (rule .mult_op) s = _ at h
      rw [parse_rule] at h
      rcases parse_either_op (c := '*') (d := '/') (by decide) (by decide) h with rfl | rfl
      · exact ⟨'*', by decide, rfl⟩
      · exact ⟨'/', by decide, rfl⟩

theorem begins_op (k : Arithmetic) : Begins grammar operatorChar k.op := by
  cases k with
  | add => exact begins_add_op
  | mult => exact begins_mult_op

/-- A primary expression is an operand of either level, if no tighter operator comes next. -/
theorem parse_operand {k : Arithmetic} {s t : List Char} {a : Option Expr}
    (h : parse grammar (rule .primary) s = .ok a t) (hlook : t.head?.any looksUp = false)
    (hop : k = .add → parse grammar (rule .mult_op) (t.dropWhile isBlank) = .fail) :
    parse grammar k.operand s = .ok a t := by
  have hlookup := parse_lookup_of_primary h hlook
  cases k with
  | mult => exact hlookup
  | add =>
      change parse grammar (rule .multitive) s = _
      rw [parse_rule]
      exact parse_binary_left hlookup (hop rfl)

/-- An operator of the level is none of the tighter ones. -/
theorem parse_mult_op_of_op {k : Arithmetic} {s u : List Char} {o : String}
    (h : parse grammar k.op s = .ok o u) (hk : k = .add) :
    parse grammar (rule .mult_op) s = .fail := by
  subst hk
  obtain ⟨c, hc, rfl⟩ := parse_arithmetic_op h
  have hall : ∀ c ∈ Arithmetic.add.chars.toList, "*/".toList.contains c = false := by decide
  exact Begins.rule (p := ("*/".toList.contains ·))
    (.orElse (.lit (by decide)) (.lit (by decide))) _ (hall c hc)

/-- `+=` and the like have no operand behind the operator. -/
theorem parse_assign_op_of_op {k : Arithmetic} {s u v : List Char} {o : String}
    {a : Option Expr} (hop : parse grammar k.op s = .ok o u)
    (h : parse grammar (rule .primary) (skipSpace false u) = .ok a v) :
    parse grammar (rule .assign_op) s = .fail := by
  obtain ⟨c, hc, rfl⟩ := parse_arithmetic_op hop
  have hall : ∀ k : Arithmetic, ∀ c ∈ k.chars.toList, c ∈ "+-*/".toList := by
    intro k
    cases k <;> decide
  have hchar : c = '+' ∨ c = '-' ∨ c = '*' ∨ c = '/' := by simpa using hall k c hc
  have hu : ∀ d r, u = d :: r → d ≠ '=' := by
    rintro d r rfl rfl
    rw [skipSpace_of_head rfl, begins_primary _ rfl] at h
    cases h
  rw [parse_rule]
  cases u with
  | nil => rcases hchar with rfl | rfl | rfl | rfl <;> simp [grammar, parse_lit, dropWord]
  | cons d r =>
      have hd := hu d r rfl
      rcases hchar with rfl | rfl | rfl | rfl <;>
        simp [grammar, parse_lit, dropWord, Ne.symm hd]

namespace Chain

variable {k : Arithmetic} {s t : List Char} {x : Expr} {ops : List (String × Expr)}

theorem ends (h : Chain k s x ops t) : Ends t := by
  induction h with
  | last _ ht => exact ht
  | cons _ _ _ ih => exact ih

theorem primary (h : Chain k s x ops t) :
    ∃ u, parse grammar (rule .primary) s = .ok (some x) u := by
  cases h with
  | last h _ => exact ⟨_, h⟩
  | cons h _ _ => exact ⟨_, h⟩

/-- An operator begins like no name and no lookup. -/
theorem attaches_of_op {t u : List Char} {o : String}
    (hop : parse grammar k.op (t.dropWhile isBlank) = .ok o u) : t.head?.any attaches = false := by
  obtain ⟨c, hc, ht⟩ := parse_arithmetic_op hop
  rcases head_blank t with h | h
  · exact h
  · have hall : ∀ k : Arithmetic, ∀ c ∈ k.chars.toList, attaches c = false := by
      intro k
      cases k <;> decide
    rw [← h, ht]
    exact hall k c hc

/-- The right operand is a chain of its own. -/
theorem parse_level (h : Chain k s x ops t) :
    parse grammar k.level s = .ok (some (rightTree k.class_ x ops)) t := by
  induction h with
  | last h ht =>
      rw [Arithmetic.parse_level]
      have hmult : k = .add → parse grammar (rule .mult_op) _ = .fail :=
        fun _ => begins_mult_op _ ht.noOperator
      exact parse_binary_left (parse_operand h (any_or_right ht.apart) hmult)
        (begins_op k _ ht.noOperator)
  | cons h hop hs ih =>
      rw [Arithmetic.parse_level]
      exact parse_binary
        (parse_operand h (any_or_right (attaches_of_op hop)) (parse_mult_op_of_op hop)) hop ih

/-- No operator of the levels in front of an operand is part of an assignment. -/
theorem parse_assign_op (h : Chain k s x ops t) {u : List Char}
    (hu : parse grammar (rule .primary) s = .ok (some x) u) :
    u.head?.any attaches = false ∧
      parse grammar (rule .assign_op) (u.dropWhile isBlank) = .fail := by
  cases h with
  | last h ht =>
      rw [h] at hu
      cases hu
      exact ⟨ht.apart, begins_assign_op _ ht.noOperator⟩
  | cons h hop hs =>
      rw [h] at hu
      cases hu
      obtain ⟨y, hy⟩ := hs.primary
      exact ⟨attaches_of_op hop, parse_assign_op_of_op hop hy⟩

/-- **A chain is parsed as the tree that groups to the right.** -/
theorem parse_expression (h : Chain k s x ops t) :
    parse grammar (rule .expression) s = .ok (some (rightTree k.class_ x ops)) t := by
  obtain ⟨u, hu⟩ := h.primary
  obtain ⟨happart, hassign⟩ := h.parse_assign_op hu
  refine parse_expression_of_conditional hu happart hassign ?_
  refine parse_conditional_of_logical h.ends.noOperator ?_
  refine parse_logical_of_additive h.ends.noOperator ?_
  have hlevel := h.parse_level
  cases k with
  | add => exact hlevel
  | mult => exact parse_additive_of_multitive h.ends.noOperator hlevel

end Chain

/--
**A chain groups to the left only if there is nothing to group.**  For every chain of primary
operands with operators of one level, of any length and with any spacing: it is parsed to the
tree that groups to the left exactly if it has at most one operator.
-/
theorem chain_grouped_left_iff {k : Arithmetic} {s t : List Char} {x : Expr}
    {ops : List (String × Expr)} (h : Chain k s x ops t) :
    parse grammar (rule .expression) s = .ok (some (leftTree k.class_ x ops)) t ↔
      ops.length ≤ 1 := by
  rw [h.parse_expression, ← leftTree_eq_rightTree_iff k.class_ x ops]
  constructor
  · intro heq
    simp only [Result.ok.injEq, Option.some.injEq, and_true] at heq
    exact heq.symm
  · intro heq
    rw [heq]

/-- `7 - 2 - 1` -/
theorem chain_of_differences :
    Chain .add "7 - 2 - 1".toList (.int "7") [("-", .int "2"), ("-", .int "1")] [] := by
  have hminus : ∀ t, parse grammar Arithmetic.add.op ('-' :: t) = .ok "-" t := by
    intro t
    change parse grammar (rule .add_op) ('-' :: t) = _
    rw [parse_rule]
    simp [grammar, parse_lit, dropWord]
  refine .cons (t := " - 2 - 1".toList) (u := " 2 - 1".toList) ?_ (hminus _) ?_
  · exact parse_primary_of_number (parse_number _)
  · refine .cons (t := " - 1".toList) (u := " 1".toList) ?_ (hminus _) ?_
    · exact parse_primary_of_number (parse_number _)
    · exact .last (parse_primary_of_number (parse_number _)) ⟨rfl, rfl⟩

/-- The chain of two differences has a tree that groups to the left only if two is at most one. -/
theorem differences_grouped_left_iff :
    parse grammar (rule .expression) "7 - 2 - 1".toList =
        .ok (some (leftTree .addExpr (.int "7") [("-", .int "2"), ("-", .int "1")])) [] ↔
      [("-", Expr.int "2"), ("-", .int "1")].length ≤ 1 :=
  chain_grouped_left_iff chain_of_differences

/-- The value of a tree of integers, given what its operators do. -/
def treeValue (apply : String → Int → Int → Int) : Expr → Option Int
  | .int source => some (toI source)
  | .binary _ left op right => do
      return apply op (← treeValue apply left) (← treeValue apply right)
  | _ => none

/-- `7 - 2 - 1` is parsed as `7 - (2 - 1)`, which is six, and not as `(7 - 2) - 1`. -/
theorem differences_grouped_right :
    parse grammar (rule .expression) "7 - 2 - 1".toList =
        .ok (some (.binary .addExpr (.int "7") "-" (.binary .addExpr (.int "2") "-" (.int "1")))) [] ∧
      treeValue (fun _ m n => m - n)
        (.binary .addExpr (.int "7") "-" (.binary .addExpr (.int "2") "-" (.int "1"))) = some 6 ∧
      treeValue (fun _ m n => m - n)
        (leftTree .addExpr (.int "7") [("-", .int "2"), ("-", .int "1")]) = some 4 :=
  ⟨chain_of_differences.parse_expression, by decide, by decide⟩

end Pup.Parse
