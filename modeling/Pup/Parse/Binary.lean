/-
Operators between parentheses.

Six rules read an operator, one above the other, each as the first of its words that the text
begins with (`parse_op`).  So an operator is read at its own level only if no word in front of
it in the list is its beginning, and on a level below the beginning of an operator is taken
back, because no operand follows (`Passes`).  `<=` and `>=` stand behind `<` and `>`, and are
the two tokens that are never read (`operator_parsed_iff`).
-/
import Pup.Parse.Inside
import Pup.Parse.Levels

namespace Pup.Parse

open Peg

/-! ### The words of a rule -/

/-- The words of a choice of terminals, in the order in which they are tried. -/
def words : {α : Type} → Exp α → List String
  | _, .lit w => [w]
  | _, .choice e e' => words e ++ words e'
  | _, _ => []

/-- The first word that the text begins with, and what is behind it. -/
def firstWord (ws : List String) (s : List Char) : Option (String × List Char) :=
  ws.findSome? fun w => (dropWord w.toList s).map (w, ·)

theorem parse_words_choice {e e' : Exp String} {s : List Char}
    (h : parse grammar e s = (firstWord (words e) s).elim .fail fun (w, t) => .ok w t)
    (h' : parse grammar e' s = (firstWord (words e') s).elim .fail fun (w, t) => .ok w t) :
    parse grammar (e <|> e') s =
      (firstWord (words (e <|> e')) s).elim .fail fun (w, t) => .ok w t := by
  have happend : firstWord (words (e <|> e')) s =
      (firstWord (words e) s).or (firstWord (words e') s) := List.findSome?_append
  rw [parse_orElse, happend, h]
  cases firstWord (words e) s with
  | some p => rfl
  | none => exact h'

theorem parse_words_lit (w : String) (s : List Char) :
    parse grammar (.lit w) s = (firstWord (words (.lit w)) s).elim .fail fun (w, t) => .ok w t := by
  rw [parse_lit]
  cases h : dropWord w.toList s <;> simp [firstWord, words, h]

namespace BinaryClass

/-- The operators of a class. -/
def op : BinaryClass → Exp String
  | addExpr => rule .add_op
  | mulExpr => rule .mult_op
  | logicExpr => rule .logic_op
  | equalityExpr => rule .equality_op
  | bitwiseExpr => rule .bit_op
  | relationalExpr => rule .relational_op

/-- The tokens that the grammar declares for the class. -/
def tokens : BinaryClass → List String
  | addExpr => words (grammar .add_op)
  | mulExpr => words (grammar .mult_op)
  | logicExpr => words (grammar .logic_op)
  | equalityExpr => words (grammar .equality_op)
  | bitwiseExpr => words (grammar .bit_op)
  | relationalExpr => words (grammar .relational_op)

/-- What is read to the left of an operator. -/
def left : BinaryClass → Exp (Option Expr)
  | mulExpr => rule .lookup
  | addExpr => rule .multitive
  | relationalExpr => rule .additive
  | equalityExpr => rule .relational
  | bitwiseExpr => rule .equality
  | logicExpr => rule .bitwise

def level : BinaryClass → Exp (Option Expr)
  | mulExpr => rule .multitive
  | addExpr => rule .additive
  | relationalExpr => rule .relational
  | equalityExpr => rule .equality
  | bitwiseExpr => rule .bitwise
  | logicExpr => rule .logical

/-- The operators of a lower rank bind tighter. -/
def rank : BinaryClass → Nat
  | mulExpr => 0
  | addExpr => 1
  | relationalExpr => 2
  | equalityExpr => 3
  | bitwiseExpr => 4
  | logicExpr => 5

theorem parse_level (k : BinaryClass) (s : List Char) :
    parse grammar k.level s = parse grammar (binaryRule k k.left k.op k.level) s := by
  cases k <;> exact parse_rule grammar _ s

/-- **An operator is the first of the words that the text begins with.** -/
theorem parse_op (k : BinaryClass) (s : List Char) :
    parse grammar k.op s = (firstWord k.tokens s).elim .fail fun (w, t) => .ok w t := by
  cases k with
  | addExpr =>
      refine (parse_rule grammar .add_op s).trans ?_
      exact parse_words_choice (parse_words_lit _ s) (parse_words_lit _ s)
  | mulExpr =>
      refine (parse_rule grammar .mult_op s).trans ?_
      exact parse_words_choice (parse_words_lit _ s) (parse_words_lit _ s)
  | logicExpr =>
      refine (parse_rule grammar .logic_op s).trans ?_
      exact parse_words_choice (parse_words_lit _ s) (parse_words_lit _ s)
  | equalityExpr =>
      refine (parse_rule grammar .equality_op s).trans ?_
      exact parse_words_choice (parse_words_lit _ s) (parse_words_lit _ s)
  | bitwiseExpr =>
      refine (parse_rule grammar .bit_op s).trans ?_
      refine parse_words_choice (parse_words_lit _ s) (parse_words_choice (parse_words_lit _ s) ?_)
      exact parse_words_choice (parse_words_lit _ s) (parse_words_lit _ s)
  | relationalExpr =>
      refine (parse_rule grammar .relational_op s).trans ?_
      refine parse_words_choice (parse_words_lit _ s) (parse_words_choice (parse_words_lit _ s) ?_)
      exact parse_words_choice (parse_words_lit _ s) (parse_words_lit _ s)

end BinaryClass

/-! ### Words in front of something else -/

/-- What is behind an operator does not make it longer. -/
theorem dropWord_append_right {w x z : List Char} (hw : ∀ c ∈ w, operatorChar c = true)
    (hz : z.head?.any operatorChar = false) :
    dropWord w (x ++ z) = (dropWord w x).map (· ++ z) := by
  induction w generalizing x with
  | nil => rfl
  | cons c w ih =>
      cases x with
      | nil =>
          cases z with
          | nil => rfl
          | cons d z =>
              have hcd : c ≠ d := by
                rintro rfl
                rw [List.head?_cons, Option.any_some, hw c (by simp)] at hz
                cases hz
              simp [dropWord, hcd]
      | cons d x =>
          by_cases hcd : c = d
          · simp only [dropWord, List.cons_append, if_pos hcd]
            exact ih fun c hc => hw c (by simp [hc])
          · simp [dropWord, hcd]

theorem firstWord_append {ws : List String} {x z : List Char}
    (hws : ∀ w ∈ ws, ∀ c ∈ w.toList, operatorChar c = true)
    (hz : z.head?.any operatorChar = false) :
    firstWord ws (x ++ z) = (firstWord ws x).map fun (w, t) => (w, t ++ z) := by
  induction ws with
  | nil => rfl
  | cons w ws ih =>
      have hrest := ih fun w hw => hws w (by simp [hw])
      rw [firstWord] at hrest
      rw [firstWord, firstWord, List.findSome?_cons, List.findSome?_cons,
        dropWord_append_right (hws w (by simp)) hz]
      cases dropWord w.toList x with
      | some t => rfl
      | none => exact hrest

theorem operatorChar_of_tokens {k : BinaryClass} :
    ∀ w ∈ k.tokens, ∀ c ∈ w.toList, operatorChar c = true := by
  cases k <;> decide

/-! ### From level to level -/

/-- The level goes by what is left: there is no operator of its own, or no operand behind it. -/
def Passes (k : BinaryClass) (t : List Char) : Prop :=
  parse grammar k.op (t.dropWhile isBlank) = .fail ∨
    ∃ o u, parse grammar k.op (t.dropWhile isBlank) = .ok o u ∧
      parse grammar k.level (skipSpace false u) = .fail

section Climb

variable {k : BinaryClass} {s t : List Char} {a : Option Expr}

theorem Passes.up (h : Passes k t) (hleft : parse grammar k.left s = .ok a t) :
    parse grammar k.level s = .ok a t := by
  rw [k.parse_level]
  rcases h with hop | ⟨o, u, hop, hright⟩
  · exact parse_binary_left hleft hop
  · exact parse_binary_back hleft hop hright

theorem left_of_rank {j : BinaryClass} (h : k.rank = j.rank + 1) : k.left = j.level := by
  cases j <;> cases k <;> first | rfl | cases h

theorem rank_injective {j : BinaryClass} (h : k.rank = j.rank) : k = j := by
  cases j <;> cases k <;> first | rfl | cases h

theorem exists_rank {n : Nat} (h : n < 6) : ∃ k : BinaryClass, k.rank = n := by
  match n, h with
  | 0, _ => exact ⟨.mulExpr, rfl⟩
  | 1, _ => exact ⟨.addExpr, rfl⟩
  | 2, _ => exact ⟨.relationalExpr, rfl⟩
  | 3, _ => exact ⟨.equalityExpr, rfl⟩
  | 4, _ => exact ⟨.bitwiseExpr, rfl⟩
  | 5, _ => exact ⟨.logicExpr, rfl⟩

theorem rank_lt (k : BinaryClass) : k.rank < 6 := by
  cases k <;> decide

/-- Up from level to level, as long as they all go by. -/
theorem parse_left_of_left {j : BinaryClass} (hjk : j.rank ≤ k.rank)
    (h : parse grammar j.left s = .ok a t)
    (hpass : ∀ i : BinaryClass, j.rank ≤ i.rank → i.rank < k.rank → Passes i t) :
    parse grammar k.left s = .ok a t := by
  obtain ⟨n, hn⟩ := Nat.exists_eq_add_of_le hjk
  induction n generalizing k with
  | zero => rwa [rank_injective hn]
  | succ n ih =>
      have hk := rank_lt k
      obtain ⟨i, hi⟩ := exists_rank (n := j.rank + n) (by omega)
      have hleft := ih (k := i) (by omega) (fun i' h₁ h₂ => hpass i' h₁ (by omega)) hi
      rw [left_of_rank (j := i) (by omega)]
      exact (hpass i (by omega) (by omega)).up hleft

/-- Up to the top. -/
theorem parse_logical_of_level (h : parse grammar k.level s = .ok a t)
    (hpass : ∀ i : BinaryClass, k.rank < i.rank → Passes i t) :
    parse grammar (rule .logical) s = .ok a t := by
  have hk := rank_lt k
  by_cases htop : k.rank = 5
  · obtain rfl : k = .logicExpr := rank_injective htop
    exact h
  · obtain ⟨j, hj⟩ := exists_rank (n := k.rank + 1) (by omega)
    rw [← left_of_rank hj] at h
    refine (hpass .logicExpr ?_).up (k := .logicExpr) ?_
    · change k.rank < 5
      omega
    · refine parse_left_of_left ?_ h fun i hi _ => hpass i (by omega)
      change j.rank ≤ 5
      omega

theorem BinaryClass.begins_op (k : BinaryClass) : Begins grammar operatorChar k.op :=
  match k with
  | .mulExpr => begins_mult_op
  | .addExpr => begins_add_op
  | .relationalExpr => begins_relational_op
  | .equalityExpr => begins_equality_op
  | .bitwiseExpr => begins_bit_op
  | .logicExpr => begins_logic_op

/-- Nothing is left for an operator. -/
theorem passes_of_closes (k : BinaryClass) {t : List Char} (ht : t.head?.all closes = true) :
    Passes k t :=
  .inl (k.begins_op _ (ends_of_closes ht).noOperator)

end Climb

/-! ### Operators in place -/

theorem begins_binaryRule {class_ : BinaryClass} {left right : Exp (Option Expr)}
    {op : Exp String} {p : Char → Bool} (h : Begins grammar p left) :
    Begins grammar p (binaryRule class_ left op right) :=
  .orElse (.seq (.seqLeft (.seq (.seqLeft (.map h) _) _) _) _) h

theorem begins_level (k : BinaryClass) : Begins grammar beginsPrimary k.level := by
  have hmul : Begins grammar beginsPrimary (rule .multitive) :=
    .rule (begins_binaryRule (.rule (.orElse (.seq (.map begins_primary) _) begins_primary)))
  have hadd : Begins grammar beginsPrimary (rule .additive) := .rule (begins_binaryRule hmul)
  have hrelational : Begins grammar beginsPrimary (rule .relational) :=
    .rule (begins_binaryRule hadd)
  have hequality : Begins grammar beginsPrimary (rule .equality) :=
    .rule (begins_binaryRule hrelational)
  have hbitwise : Begins grammar beginsPrimary (rule .bitwise) :=
    .rule (begins_binaryRule hequality)
  cases k with
  | mulExpr => exact hmul
  | addExpr => exact hadd
  | relationalExpr => exact hrelational
  | equalityExpr => exact hequality
  | bitwiseExpr => exact hbitwise
  | logicExpr => exact .rule (begins_binaryRule hbitwise)

/-- The rule reads no operator there, or only a part of it. -/
def misses (k : BinaryClass) (op : String) : Bool :=
  match firstWord k.tokens op.toList with
  | none => true
  | some (_, r) => !r.isEmpty

theorem misses_below {j k : BinaryClass} (h : j.rank < k.rank) :
    ∀ op ∈ k.tokens, misses j op = true := by
  cases j <;> cases k <;> first | exact absurd h (by decide) | decide

example : BinaryClass.relationalExpr.tokens = ["<", "<=", ">", ">="] := rfl

/-- The tokens behind another one that they begin with. -/
def shadowed : List String := ["<=", ">="]

theorem firstWord_of_not_shadowed {k : BinaryClass} :
    ∀ op ∈ k.tokens, op ∉ shadowed → firstWord k.tokens op.toList = some (op, []) := by
  cases k <;> decide

theorem misses_of_shadowed (k : BinaryClass) : ∀ op ∈ shadowed, misses k op = true := by
  cases k <;> decide

theorem firstWord_eq {ws : List String} {s t : List Char} {w : String}
    (h : firstWord ws s = some (w, t)) : s = w.toList ++ t := by
  obtain ⟨w', -, hw'⟩ := List.exists_of_findSome?_eq_some h
  obtain ⟨t', ht', hpair⟩ := Option.map_eq_some_iff.mp hw'
  cases hpair
  exact dropWord_eq_some_iff.mp ht'

theorem begins_of_operatorChar {c : Char} (h : operatorChar c = true) :
    isBlank c = false ∧ beginsSpace c = false ∧ beginsPrimary c = false ∧ looksUp c = false := by
  have hall : ∀ c ∈ "=+-*%^/~|&<>!?".toList, isBlank c = false ∧ beginsSpace c = false ∧
      beginsPrimary c = false ∧ looksUp c = false := by decide
  exact hall c (List.contains_iff_mem.mp h)

theorem dropWhile_blanks {x : List Char} (hx : x.all isBlank = true) (s : List Char) :
    (x ++ s).dropWhile isBlank = s.dropWhile isBlank := by
  induction x with
  | nil => rfl
  | cons c x ih =>
      obtain ⟨hc, hx⟩ : isBlank c = true ∧ x.all isBlank = true := by simpa using hx
      rw [List.cons_append, List.dropWhile_cons_of_pos hc, ih hx]

theorem skipSpace_blanks {x : List Char} (hx : x.all isBlank = true) (s : List Char) :
    skipSpace false (x ++ s) = skipSpace false s := by
  rw [← Pairing.skipSpace_dropWhile, dropWhile_blanks hx, Pairing.skipSpace_dropWhile]

section Operator

variable {k : BinaryClass} {op : String} {x z : List Char} (hop : op ∈ k.tokens)
  (hx : x.all isBlank = true) (hz : z.head?.any operatorChar = false)

include hop

theorem dropWhile_op : (op.toList ++ z).dropWhile isBlank = op.toList ++ z := by
  have hne : op.toList ≠ [] := by
    have hall : ∀ w ∈ k.tokens, w.toList ≠ [] := by cases k <;> decide
    exact hall op hop
  obtain ⟨c, w, hw⟩ := List.exists_cons_of_ne_nil hne
  have hc := operatorChar_of_tokens op hop c (by simp [hw])
  refine dropWhile_of_head ?_
  simp [hw, (begins_of_operatorChar hc).1]

include hx hz

theorem passes_of_misses {j : BinaryClass} (h : misses j op = true) :
    Passes j (x ++ (op.toList ++ z)) := by
  rw [Passes, dropWhile_blanks hx, dropWhile_op hop, j.parse_op,
    firstWord_append operatorChar_of_tokens hz]
  cases hfirst : firstWord j.tokens op.toList with
  | none => exact .inl rfl
  | some p =>
      obtain ⟨w, r⟩ := p
      have hr : r ≠ [] := by simpa [misses, hfirst] using h
      obtain ⟨c, r, rfl⟩ := List.exists_cons_of_ne_nil hr
      have hc : operatorChar c = true :=
        operatorChar_of_tokens op hop c (by simp [firstWord_eq hfirst])
      obtain ⟨-, hspace, hprimary, -⟩ := begins_of_operatorChar hc
      -- what is left of the operator is no operand
      refine .inr ⟨w, c :: r ++ z, rfl, ?_⟩
      rw [skipSpace_of_head (by simpa using hspace)]
      exact begins_level j _ (by simpa using hprimary)

end Operator

/-! ### Parentheses -/

theorem parse_primary_parenthesis {s : List Char} {a : Option Expr}
    (h : parse grammar (rule .expression) s = .ok a []) (t : List Char) :
    parse grammar (rule .primary) ('(' :: (s ++ ')' :: t)) = .ok a t := by
  have hparenthesis : parse grammar (rule .parenthesis) ('(' :: (s ++ ')' :: t)) = .ok a t := by
    rw [parse_rule]
    simp [grammar, parse_lit, dropWord, parse_in_brackets h (c := ')') rfl t]
  rw [parse_primary_of_parenthesis, hparenthesis]

theorem parse_expression_parenthesis (s : List Char) :
    parse grammar (rule .expression) ('(' :: s) =
      parse grammar (rule .conditional) ('(' :: s) := by
  have hleft := parse_left_hand_side_of_parenthesis s
  rw [parse_rule]
  change parse grammar (rule .assignment) _ = _
  rw [parse_rule]
  simp [grammar, hleft]

theorem parse_conditional_of_not_question {s t : List Char} {a : Option Expr}
    (h : parse grammar (rule .logical) s = .ok a t)
    (hquestion : parse grammar (.lit "?") (t.dropWhile isBlank) = .fail) :
    parse grammar (rule .conditional) s = .ok a t := by
  obtain ⟨w, hw⟩ := parse_optBlank t
  rw [parse_rule]
  simp [grammar, h, hw, hquestion]

section Parenthesised

variable {k : BinaryClass} {op : String} {l r x y : List Char} {a b : Expr}

/-- Two expressions in parentheses, with an operator and blanks between them. -/
def parenthesised (l x : List Char) (op : String) (y r : List Char) : List Char :=
  '(' :: (l ++ ')' :: (x ++ (op.toList ++ (y ++ '(' :: (r ++ [')'])))))

variable (hop : op ∈ k.tokens) (hl : parse grammar (rule .expression) l = .ok (some a) [])
  (hr : parse grammar (rule .expression) r = .ok (some b) []) (hx : x.all isBlank = true)
  (hy : y.all isBlank = true)

include hy in
theorem head_operand : (y ++ '(' :: r).head?.any operatorChar = false := by
  cases y with
  | nil => rfl
  | cons c y =>
      obtain ⟨hc, -⟩ : isBlank c = true ∧ y.all isBlank = true := by simpa using hy
      have hcases : c = ' ' ∨ c = '\t' := by simpa [isBlank] using hc
      rcases hcases with rfl | rfl <;> rfl

include hop hl hx in
theorem parse_lookup_parenthesised (z : List Char) :
    parse grammar (rule .lookup) ('(' :: (l ++ ')' :: (x ++ (op.toList ++ z)))) =
      .ok (some a) (x ++ (op.toList ++ z)) := by
  refine parse_lookup_of_primary (parse_primary_parenthesis hl _) ?_
  cases x with
  | nil =>
      have hall : ∀ w ∈ k.tokens, w.toList ≠ [] := by cases k <;> decide
      obtain ⟨c, w, hw⟩ := List.exists_cons_of_ne_nil (hall op hop)
      have hc := operatorChar_of_tokens op hop c (by simp [hw])
      simp [hw, (begins_of_operatorChar hc).2.2.2]
  | cons c x =>
      obtain ⟨hc, -⟩ : isBlank c = true ∧ x.all isBlank = true := by simpa using hx
      have hcases : c = ' ' ∨ c = '\t' := by simpa [isBlank] using hc
      rcases hcases with rfl | rfl <;> rfl

include hop hl hx hy

include hr in
/-- An operator that is read is the operator of the node, whatever closes the expression. -/
theorem parse_parenthesised (hshadow : op ∉ shadowed) {t : List Char}
    (ht : t.head?.all closes = true) :
    parse grammar (rule .expression)
        ('(' :: (l ++ ')' :: (x ++ (op.toList ++ (y ++ '(' :: (r ++ ')' :: t)))))) =
      .ok (some (.binary k a op b)) t := by
  have hz := head_operand (r := r ++ ')' :: t) hy
  have hends := ends_of_closes ht
  have hright : parse grammar k.level ('(' :: (r ++ ')' :: t)) = .ok (some b) t := by
    have hlookup : parse grammar (rule .lookup) ('(' :: (r ++ ')' :: t)) = .ok (some b) t :=
      parse_lookup_of_primary (parse_primary_parenthesis hr t) (any_or_right hends.apart)
    refine (passes_of_closes k ht).up
      (parse_left_of_left (j := .mulExpr) (Nat.zero_le _) hlookup ?_)
    exact fun i _ _ => passes_of_closes i ht
  have hleft : parse grammar k.left
        ('(' :: (l ++ ')' :: (x ++ (op.toList ++ (y ++ '(' :: (r ++ ')' :: t)))))) =
      .ok (some a) (x ++ (op.toList ++ (y ++ '(' :: (r ++ ')' :: t)))) := by
    refine parse_left_of_left (j := .mulExpr) (Nat.zero_le _)
      (parse_lookup_parenthesised hop hl hx _) fun j _ hj => ?_
    exact passes_of_misses hop hx hz (misses_below hj op hop)
  have hlevel : parse grammar k.level
        ('(' :: (l ++ ')' :: (x ++ (op.toList ++ (y ++ '(' :: (r ++ ')' :: t)))))) =
      .ok (some (.binary k a op b)) t := by
    rw [k.parse_level]
    refine parse_binary hleft (o := op) (u := y ++ '(' :: (r ++ ')' :: t)) ?_ (b := some b) ?_
    · rw [dropWhile_blanks hx, dropWhile_op hop, k.parse_op,
        firstWord_append operatorChar_of_tokens hz, firstWord_of_not_shadowed op hop hshadow]
      rfl
    · rw [skipSpace_blanks hy]
      exact hright
  rw [parse_expression_parenthesis]
  refine parse_conditional_of_not_question
    (parse_logical_of_level hlevel fun i _ => passes_of_closes i ht) ?_
  exact Begins.lit (p := operatorChar) (by decide) _ hends.noOperator

/-- An operator that begins with another one is left where it stands. -/
theorem parse_shadowed (hshadow : op ∈ shadowed) :
    ∃ t ≠ [], parse grammar (rule .expression) (parenthesised l x op y r) = .ok (some a) t := by
  have hz := head_operand (r := r ++ [')']) hy
  have hpass : ∀ j : BinaryClass, Passes j (x ++ (op.toList ++ (y ++ '(' :: (r ++ [')'])))) :=
    fun j => passes_of_misses hop hx hz (misses_of_shadowed j op hshadow)
  have hlogic : parse grammar (rule .logical) (parenthesised l x op y r) =
      .ok (some a) (x ++ (op.toList ++ (y ++ '(' :: (r ++ [')'])))) := by
    refine (hpass .logicExpr).up (k := .logicExpr) ?_
    exact parse_left_of_left (j := .mulExpr) (Nat.zero_le _)
      (parse_lookup_parenthesised hop hl hx _) fun j _ _ => hpass j
  have hquestion : parse grammar (.lit "?")
      ((x ++ (op.toList ++ (y ++ '(' :: (r ++ [')'])))).dropWhile isBlank) = .fail := by
    have hnone : ∀ w ∈ shadowed, dropWord "?".toList w.toList = none := by decide
    rw [dropWhile_blanks hx, dropWhile_op hop]
    refine parse_lit_fail ?_
    rw [dropWord_append_right (by decide) hz, hnone op hshadow]
    rfl
  refine ⟨x ++ (op.toList ++ (y ++ '(' :: (r ++ [')']))), by simp, ?_⟩
  rw [parenthesised, parse_expression_parenthesis, ← parenthesised]
  exact parse_conditional_of_not_question hlogic hquestion

end Parenthesised

/--
**Two expressions in parentheses are the operands of the operator between them, for every token
that is declared but `<=` and `>=`.**
-/
theorem operator_parsed_iff {k : BinaryClass} {op : String} (hop : op ∈ k.tokens)
    {l r x y : List Char} {a b : Expr}
    (hl : parse grammar (rule .expression) l = .ok (some a) [])
    (hr : parse grammar (rule .expression) r = .ok (some b) []) (hx : x.all isBlank = true)
    (hy : y.all isBlank = true) :
    (∃ class_, parse grammar (rule .expression) (parenthesised l x op y r) =
      .ok (some (.binary class_ a op b)) []) ↔ op ≠ "<=" ∧ op ≠ ">=" := by
  have hmem : op ∉ shadowed ↔ op ≠ "<=" ∧ op ≠ ">=" := by simp [shadowed]
  rw [← hmem]
  constructor
  · rintro ⟨class_, h⟩ hshadow
    obtain ⟨t, ht, h'⟩ := parse_shadowed (r := r) hop hl hx hy hshadow
    rw [h'] at h
    exact ht (Result.ok.inj h).2
  · exact fun hshadow => ⟨k, parse_parenthesised hop hl hr hx hy hshadow rfl⟩

theorem parse_digit {c : Char} (hc : c.isDigit = true) (hzero : c ≠ '0') :
    parse grammar (rule .expression) [c] = .ok (some (.int (ident c []))) [] := by
  refine parse_expression_of_primary (parse_primary_of_number ?_) ⟨rfl, rfl⟩
  rw [parse_number]
  simp [hc, hzero]

theorem sum_parsed_iff :
    (∃ class_, parse grammar (rule .expression) (parenthesised ['1'] [' '] "+" [' '] ['2']) =
      .ok (some (.binary class_ (.int "1") "+" (.int "2"))) []) ↔ "+" ≠ "<=" ∧ "+" ≠ ">=" :=
  operator_parsed_iff (k := .addExpr) (by decide) (parse_digit (c := '1') (by decide) (by decide))
    (parse_digit (c := '2') (by decide) (by decide)) (by decide) (by decide)

/-- `(1) <= (2)` is no comparison. -/
theorem comparison_refused :
    "<=" ∈ BinaryClass.relationalExpr.tokens ∧
      parse grammar (rule .expression) ['1'] = .ok (some (.int "1")) [] ∧
      parse grammar (rule .expression) ['2'] = .ok (some (.int "2")) [] ∧
      ¬∃ class_ left op right, parse grammar (rule .expression) "(1) <= (2)".toList =
        .ok (some (.binary class_ left op right)) [] := by
  have hone := parse_digit (c := '1') (by decide) (by decide)
  have htwo := parse_digit (c := '2') (by decide) (by decide)
  refine ⟨by decide, hone, htwo, ?_⟩
  rintro ⟨class_, left, op, right, h⟩
  have htokens : "<=" ∈ BinaryClass.relationalExpr.tokens := by decide
  obtain ⟨t, ht, h'⟩ := parse_shadowed (x := [' ']) (y := [' ']) (r := ['2']) htokens hone rfl rfl
    (by decide)
  have htext : "(1) <= (2)".toList = parenthesised ['1'] [' '] "<=" [' '] ['2'] := by decide
  rw [htext, h'] at h
  exact ht (Result.ok.inj h).2

end Pup.Parse
