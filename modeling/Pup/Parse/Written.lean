/-
Expressions as they are written.

A `Written` is an expression with the words and blanks it is written with, so that what the
grammar has no words for cannot be built.  It is read to its end in front of anything that
closes an expression (`Written.parse_expression`): operands and receivers stand in parentheses,
names do not begin with the words that are seen in them, and so no rule that is tried before
the right one goes past it.
-/
import Pup.Parse.Sums

namespace Pup.Parse

open Peg
open Peg.Expression (opt plus star lit)

/-! ### Words -/

/-- The words that a statement of its own kind begins with. -/
def openers : List String := ["if", "class", "def", "begin", "while"]

/-- A name that is a name wherever it stands. -/
structure Name where
  text : String
  identifier : IsIdentifier text
  notOpener : text ∉ openers
  apart : ∀ w ∈ seenInside, ¬w.toList <+: text.toList

/-- `[A-Z][A-Za-z_0-9]*` -/
structure ConstantName where
  first : Char
  rest : List Char
  upper : first.isUpper = true
  ident : ∀ c ∈ rest, identRest c = true

/-- What stands behind the `@`. -/
structure InstVarName where
  first : Char
  rest : List Char
  start : identStart first = true
  ident : ∀ c ∈ rest, identRest c = true

/-- The characters of a string, with nothing to be escaped. -/
structure Content where
  chars : List Char
  plain : ∀ c ∈ chars, c ≠ '"' ∧ c ≠ '\\'

/-- `+ - * / == != < > && || & | ^ %` -/
structure Infix where
  class_ : BinaryClass
  op : String
  token : op ∈ class_.tokens
  read : op ∉ shadowed

example : (List.flatMap BinaryClass.tokens [.addExpr, .mulExpr, .equalityExpr, .relationalExpr,
      .logicExpr, .bitwiseExpr]).filter (· ∉ shadowed) =
    ["+", "-", "*", "/", "==", "!=", "<", ">", "&&", "||", "&", "|", "%", "^"] := by decide

def ConstantName.text (n : ConstantName) : List Char := n.first :: n.rest

def ConstantName.expr (n : ConstantName) : Expr :=
  .varOrInvoke (.constant (String.ofList n.text)) none none none

def InstVarName.text (n : InstVarName) : List Char := '@' :: n.first :: n.rest

def Content.text (c : Content) : List Char := '"' :: (c.chars ++ ['"'])

/-- What is assigned to. -/
inductive Target
  | name (n : Name)
  | instVar (n : InstVarName)

def Target.text : Target → List Char
  | .name n => n.text.toList
  | .instVar n => n.text

def Target.value : Target → LeftHandSide
  | .name n => .name n.text
  | .instVar n => .instVar (String.ofList n.text)

/-! ### Expressions -/

mutual

inductive Written
  | assign (left : Target) (before after : Blanks) (right : Written)
  | int (l : Literal)
  | bool (b : Bool)
  | string (c : Content)
  | name (n : Name)
  | constant (n : ConstantName)
  | instVar (n : InstVarName)
  | call (n : Name) (args : Arguments)
  | send (receiver : Written) (calls : Calls)
  | binary (left : Written) (before : Blanks) (op : Infix) (after : Blanks) (right : Written)

inductive Arguments
  | nil
  | cons (e : Written) (rest : Arguments)

/-- The calls behind a receiver. -/
inductive Calls
  | one (n : Name) (args : Arguments)
  | cons (n : Name) (args : Arguments) (rest : Calls)

end

mutual

def Written.text : Written → List Char
  | .assign left before after right =>
      left.text ++ (before.text ++ '=' :: (after.text ++ right.text))
  | .int l => l.digits
  | .bool b => (if b then "true" else "false").toList
  | .string c => c.text
  | .name n => n.text.toList
  | .constant n => n.text
  | .instVar n => n.text
  | .call n args => n.text.toList ++ '(' :: args.text
  | .send receiver calls => '(' :: (receiver.text ++ ')' :: calls.text)
  | .binary left before op after right =>
      parenthesised left.text before.text op.op after.text right.text

/-- The arguments up to the bracket. -/
def Arguments.text : Arguments → List Char
  | .nil => [')']
  | .cons e rest => e.text ++ rest.more

/-- The arguments behind another one. -/
def Arguments.more : Arguments → List Char
  | .nil => [')']
  | .cons e rest => ',' :: (e.text ++ rest.more)

def Calls.text : Calls → List Char
  | .one n args => '.' :: (n.text.toList ++ '(' :: args.text)
  | .cons n args rest => '.' :: (n.text.toList ++ '(' :: (args.text ++ rest.text))

end

mutual

/-- The tree that is printed. -/
def Written.expr : Written → Expr
  | .assign left _ _ right => .assign left.value "=" right.expr
  | .int l => .int (String.ofList l.digits)
  | .bool b => .bool b
  | .string c => .string (String.ofList c.text)
  | .name n => named n.text
  | .constant n => n.expr
  | .instVar n => .instVar (String.ofList n.text)
  | .call n args => .varOrInvoke (.name n.text) (some args.exprs) none none
  | .send receiver calls => calls.to receiver.expr
  | .binary left _ op _ right => .binary op.class_ left.expr op.op right.expr

def Arguments.exprs : Arguments → List Expr
  | .nil => []
  | .cons e rest => e.expr :: rest.exprs

/-- The first call has the receiver, and every other one has the call in front of it. -/
def Calls.to : Calls → Expr → Expr
  | .one n args, receiver => .varOrInvoke (.name n.text) (some args.exprs) none (some receiver)
  | .cons n args rest, receiver =>
      rest.to (.varOrInvoke (.name n.text) (some args.exprs) none (some receiver))

end

/-- The calls before they have a receiver. -/
def Calls.exprs : Calls → List Expr
  | .one n args => [.varOrInvoke (.name n.text) (some args.exprs) none none]
  | .cons n args rest => .varOrInvoke (.name n.text) (some args.exprs) none none :: rest.exprs

theorem Calls.foldlM_setReceiver (calls : Calls) (receiver : Expr) :
    calls.exprs.foldlM setReceiver receiver = some (calls.to receiver) := by
  match calls with
  | .one n args => rfl
  | .cons n args rest => exact rest.foldlM_setReceiver _

/-! ### Parts of expressions -/

theorem Blanks.head {p : Char → Bool} (x : Blanks) (hblank : ∀ c, isBlank c = true → p c = false)
    {s : List Char} (hs : s.head?.any p = false) : (x.text ++ s).head?.any p = false := by
  obtain ⟨text, blank⟩ := x
  cases text with
  | nil => exact hs
  | cons c text => exact hblank c (List.all_eq_true.mp blank c (.head _))

theorem InstVarName.parse_instvar (n : InstVarName) {t : List Char}
    (ht : t.head?.any identRest = false) :
    parse grammar (rule .instvar) (n.text ++ t) = .ok (String.ofList n.text) t := by
  obtain ⟨first, rest, start, ident⟩ := n
  have htake : (rest ++ t).takeWhile identRest = rest := by
    rw [List.takeWhile_append_of_pos ident, takeWhile_of_head ht, List.append_nil]
  have hdrop : (rest ++ t).dropWhile identRest = t := by
    rw [List.dropWhile_append_of_pos ident, dropWhile_of_head ht]
  rw [Parse.parse_instvar]
  simp only [InstVarName.text, List.cons_append, start, if_true, htake, hdrop, Parse.ident]

theorem ConstantName.parse_constant (n : ConstantName) {t : List Char}
    (ht : t.head?.any identRest = false) :
    parse grammar (rule .constant) (n.text ++ t) = .ok (String.ofList n.text) t := by
  obtain ⟨first, rest, upper, ident⟩ := n
  have htake : (rest ++ t).takeWhile identRest = rest := by
    rw [List.takeWhile_append_of_pos ident, takeWhile_of_head ht, List.append_nil]
  have hdrop : (rest ++ t).dropWhile identRest = t := by
    rw [List.dropWhile_append_of_pos ident, dropWhile_of_head ht]
  rw [Parse.parse_constant]
  simp only [ConstantName.text, List.cons_append, upper, if_true, htake, hdrop, Parse.ident]

theorem untilQuote_plain {q : Char} {x : List Char} (hx : ∀ c ∈ x, c ≠ q ∧ c ≠ '\\')
    (t : List Char) : untilQuote q false (x ++ q :: t) = some (x, t) := by
  induction x with
  | nil => simp [untilQuote]
  | cons c x ih =>
      obtain ⟨hquote, hescape⟩ := hx c (.head _)
      have hescaped : (c == '\\') = false := beq_false_of_ne hescape
      rw [List.cons_append, untilQuote, if_neg (by simp), if_neg hquote, hescaped,
        ih fun d hd => hx d (.tail _ hd)]
      rfl

theorem Content.parse_quoted_string (c : Content) (t : List Char) :
    parse grammar (rule .quoted_string) (c.text ++ t) =
      .ok (some (.string (String.ofList c.text))) t := by
  have htext : c.text ++ t = '"' :: (c.chars ++ '"' :: t) := by simp [Content.text]
  rw [htext, Parse.parse_quoted_string, readString, if_pos rfl, untilQuote_plain c.plain]
  rfl

theorem Content.parse_primary (c : Content) (t : List Char) :
    parse grammar (rule .primary) (c.text ++ t) = .ok (some (.string (String.ofList c.text))) t := by
  have hhead : (c.text ++ t).head?.any (· != '"') = false := rfl
  have hparenthesis : parse grammar (rule .parenthesis) (c.text ++ t) = .fail :=
    Begins.rule (.seqLeft (.seqRight (.lit (by decide)) _) _) _ hhead
  have hnumber : parse grammar (rule .number) (c.text ++ t) = .fail := by
    rw [parse_number]
    rfl
  have hbool : parse grammar (rule .bool) (c.text ++ t) = .fail :=
    Begins.rule (.orElse (.map (.lit (by decide))) (.map (.lit (by decide)))) _ hhead
  rw [parse_rule]
  simp [grammar, hparenthesis, hnumber, hbool, c.parse_quoted_string]

theorem Target.parse_left_hand_side (l : Target) {t : List Char}
    (ht : t.head?.any attaches = false) :
    parse grammar (rule .left_hand_side) (l.text ++ t) = .ok (some l.value) t := by
  refine parse_left_hand_side_of_stem ?_ ht
  rw [parse_rule]
  cases l with
  | name n =>
      have hname := parse_thename_of_identifier n.identifier n.apart (any_or_left ht)
      simp [grammar, Target.text, Target.value, hname]
  | instVar n =>
      have hname : parse grammar (rule .thename) (n.text ++ t) = .fail := by
        rw [parse_thename]
        rfl
      simp [grammar, Target.text, Target.value, hname, n.parse_instvar (any_or_left ht)]

theorem parse_assign_op_equals {z : List Char} (hz : z.head?.any (· == '>') = false) :
    parse grammar (rule .assign_op) ('=' :: z) = .ok "=" z := by
  have harrow : dropWord "=>".toList ('=' :: z) = none := by
    cases z with
    | nil => rfl
    | cons c z =>
        have hc : c ≠ '>' := by simpa using hz
        simp [dropWord, Ne.symm hc]
  rw [parse_rule]
  simp only [grammar, parse_orElse, parse_seqRight, parse_notAt_lit, harrow, Option.isSome_none,
    Bool.false_eq_true, if_false, Result.on_ok]
  rfl

/-- A left hand side, the operator and the value. -/
theorem parse_assignment {l : Target} {x y : Blanks} {s t : List Char} {a : Expr}
    (h : parse grammar (rule .expression) s = .ok (some a) t) :
    parse grammar (rule .expression) (l.text ++ (x.text ++ '=' :: (y.text ++ s))) =
      .ok (some (.assign l.value "=" a)) t := by
  have hleft := l.parse_left_hand_side
    (x.head (s := '=' :: (y.text ++ s)) (fun _ => attaches_of_isBlank) rfl)
  obtain ⟨v, hv⟩ := parse_optBlank (x.text ++ '=' :: (y.text ++ s))
  rw [dropWhile_blanks x.blank, dropWhile_of_head rfl] at hv
  have hop : parse grammar (rule .assign_op) ('=' :: (y.text ++ s)) = .ok "=" (y.text ++ s) := by
    refine parse_assign_op_equals (y.head (fun c hc => ?_) ?_)
    · have hcases : c = ' ' ∨ c = '\t' := by simpa [isBlank] using hc
      rcases hcases with rfl | rfl <;> rfl
    · have hhead := begins_expression.head_of_ok h
      cases s with
      | nil => rfl
      | cons c s =>
          have hc : c ≠ '>' := by
            rintro rfl
            cases hhead
          simpa using hc
  obtain ⟨w, hw⟩ := parse_optSpace (y.text ++ s)
  rw [skipSpace_blanks y.blank, skipSpace_of_head (beginsSpace_of_ok begins_expression h)] at hw
  have hright : parse grammar (rule .assignment) s = .ok (some a) t := by
    rwa [parse_rule] at h
  rw [parse_rule]
  change parse grammar (rule .assignment) _ = _
  rw [parse_rule]
  simp [grammar, hleft, hv, hop, hw, hright]

/-- Behind the name of a constant there is nothing that goes on with it. -/
structure Apart (t : List Char) : Prop where
  word : t.head?.any identRest = false
  attached : (t.dropWhile isBlank).head?.any attaches = false
  called : (t.dropWhile isBlank).head?.any (fun c => beginsPrimary c || c == '\x7b') = false
  assigned : parse grammar (rule .assign_op) (t.dropWhile isBlank) = .fail
  operand : ∀ k : BinaryClass, parse grammar k.op (t.dropWhile isBlank) = .fail
  asked : parse grammar (lit "?") (t.dropWhile isBlank) = .fail

theorem apart_of_closes {t : List Char} (ht : t.head?.all closes = true) : Apart t := by
  have hends := ends_of_closes ht
  refine ⟨any_or_left hends.apart, ?_, not_called_of_closes ht,
    begins_assign_op _ hends.noOperator, fun k => k.begins_op _ hends.noOperator,
    Begins.lit (p := operatorChar) (by decide) _ hends.noOperator⟩
  rw [dropWhile_of_closes ht]
  exact hends.apart

/-- The name of an exception is no operand. -/
theorem apart_of_arrow (z : List Char) : Apart (' ' :: '=' :: '>' :: z) := by
  have hdrop : (' ' :: '=' :: '>' :: z).dropWhile isBlank = '=' :: '>' :: z := rfl
  refine ⟨rfl, ?_, ?_, ?_, fun k => ?_, ?_⟩ <;> rw [hdrop]
  · rfl
  · rfl
  · rw [parse_rule]
    rfl
  · rw [k.parse_op]
    cases k <;> rfl
  · rfl

theorem ConstantName.parse_expression (n : ConstantName) {t : List Char} (ht : Apart t) :
    parse grammar (rule .expression) (n.text ++ t) = .ok (some n.expr) (t.dropWhile isBlank) := by
  have hnamed : parse grammar (rule .named_value) (n.text ++ t) =
      .ok (.constant (String.ofList n.text)) t := by
    rw [parse_rule]
    simp [grammar, n.parse_constant ht.word]
  have hinvoke := parse_invoke_name hnamed (begins_args _ (any_or_left ht.called))
    (any_or_right ht.called)
  obtain ⟨hlow, hhigh⟩ := toNat_of_isUpper n.upper
  have hbool : parse grammar (rule .bool) (n.text ++ t) = .fail := by
    refine Begins.rule (p := fun c => decide (91 ≤ c.toNat))
      (.orElse (.map (.lit (by decide))) (.map (.lit (by decide)))) _ ?_
    simpa [ConstantName.text] using hhigh
  have hprimary : parse grammar (rule .primary) (n.text ++ t) =
      .ok (some n.expr) (t.dropWhile isBlank) := by
    change parse grammar (rule .primary) (n.first :: (n.rest ++ t)) = _
    rw [parse_primary_of_letter hlow, ← List.cons_append, ← ConstantName.text, hbool, hinvoke]
    rfl
  have hdrop := dropWhile_of_head (head_dropWhile isBlank t)
  have hpasses : ∀ k : BinaryClass, Passes k (t.dropWhile isBlank) := fun k =>
    .inl (by rw [hdrop, ht.operand k])
  have hlookup := parse_lookup_of_primary hprimary (any_or_right ht.attached)
  have hlogical := parse_logical_of_level ((hpasses .mulExpr).up hlookup) fun i _ => hpasses i
  refine parse_expression_of_conditional hprimary ht.attached (by rw [hdrop, ht.assigned]) ?_
  exact parse_conditional_of_not_question hlogical (by rw [hdrop, ht.asked])

theorem parse_expression_of_literal (b : Bool) {t : List Char} (ht : t.head?.all closes = true) :
    parse grammar (rule .expression) ((if b then "true" else "false").toList ++ t) =
      .ok (some (.bool b)) t := by
  have hident : IsIdentifier (if b then "true" else "false") := by
    cases b with
    | true => exact ⟨'t', "rue".toList, by decide, by decide, by decide⟩
    | false => exact ⟨'f', "alse".toList, by decide, by decide, by decide⟩
  exact parse_expression_of_bool (r := []) hident (List.append_nil _).symm (ends_of_closes ht)

/-- Nothing is left for an operator behind a lookup. -/
theorem parse_expression_of_lookup {s t : List Char} {a : Option Expr}
    (h : parse grammar (rule .lookup) ('(' :: s) = .ok a t) (ht : t.head?.all closes = true) :
    parse grammar (rule .expression) ('(' :: s) = .ok a t := by
  rw [parse_expression_parenthesis]
  refine parse_conditional_of_not_question
    (parse_logical_of_level ((passes_of_closes .mulExpr ht).up h) fun i _ =>
      passes_of_closes i ht) ?_
  exact Begins.lit (p := operatorChar) (by decide) _ (ends_of_closes ht).noOperator

theorem parse_args_nil (t : List Char) :
    parse grammar (rule .args) ('(' :: ')' :: t) = .ok (some []) t := by
  have hnone : parse grammar (rule .expression) (')' :: t) = .fail := begins_expression _ rfl
  have hlist : parse grammar (rule .parenthesised_args) ('(' :: ')' :: t) = .ok (some []) t := by
    rw [parse_rule]
    simp [grammar, parse_lit, dropWord, parse_opt, hnone]
  rw [parse_rule]
  change parse grammar (rule .parenthesised_args <|> rule .unparenthesised_args) _ = _
  rw [parse_orElse, hlist]
  rfl

theorem mapM_id_map_some {α : Type} (as : List α) : (as.map some).mapM id = some as := by
  induction as with
  | nil => rfl
  | cons a as ih =>
      rw [List.map_cons, List.mapM_cons, ih]
      rfl

/-! ### Calls behind a receiver -/

/-- What is looked up in the value in front. -/
def lookupStep : Exp (Option Expr) :=
  lit "." *> rule .invoke <|> lit "[" *> rule .expression <* lit "]"

theorem parse_lookupStep {n : Name} {args : List Expr} {s t : List Char}
    (hargs : parse grammar (rule .args) ('(' :: s) = .ok (some args) t)
    (ht : t.head?.any (fun c => isBlank c || c == '\x7b') = false) :
    parse grammar lookupStep ('.' :: (n.text.toList ++ '(' :: s)) =
      .ok (some (.varOrInvoke (.name n.text) (some args) none none)) t := by
  have hinvoke := parse_invoke_of_identifier (u := '(' :: s) n.identifier n.apart rfl hargs ht
  have hdot : parse grammar (lit ".") ('.' :: (n.text.toList ++ '(' :: s)) =
      .ok "." (n.text.toList ++ '(' :: s) := parse_lit_append (w := ".") _
  rw [lookupStep, parse_orElse, parse_seqRight, hdot, Result.on_ok, hinvoke]
  rfl

theorem parse_lookupStep_of_closes {t : List Char} (ht : t.head?.all closes = true) :
    parse grammar lookupStep t = .fail := by
  refine Begins.orElse (p := looksUp) (.seqRight (.lit (by decide)) _)
    (.seqLeft (.seqRight (.lit (by decide)) _) _) t ?_
  exact any_or_right (ends_of_closes ht).apart

/-- A receiver and the calls behind it. -/
theorem parse_lookup_of_calls {s u t : List Char} {a : Expr} {as : List Expr}
    (h : parse grammar (rule .primary) s = .ok (some a) u)
    (hcalls : parse grammar (plus lookupStep) u = .ok (as.map some) t) :
    parse grammar (rule .lookup) s = .ok (as.foldlM setReceiver a) t := by
  have hcalls : parse grammar (plus (lit "." *> rule .invoke <|>
      lit "[" *> rule .expression <* lit "]")) u = .ok (as.map some) t := hcalls
  rw [parse_rule]
  change parse grammar ((fun head tail => do (← tail.mapM id).foldlM setReceiver (← head)) <$>
    rule .primary <*> plus (lit "." *> rule .invoke <|>
      lit "[" *> rule .expression <* lit "]") <|> rule .primary) s = _
  rw [parse_orElse, parse_seq, parse_map, h, Result.map_ok, Result.on_ok, hcalls, Result.map_ok,
    Result.on_ok, mapM_id_map_some]
  rfl

/-! ### Whole expressions -/

mutual

/-- **An expression is read as it is written, in front of whatever closes it.** -/
theorem Written.parse_expression : (w : Written) → {t : List Char} → t.head?.all closes = true →
    parse grammar (rule .expression) (w.text ++ t) = .ok (some w.expr) t
  | .assign left before after right, t, ht => by
      have htext : Written.text (.assign left before after right) ++ t =
          left.text ++ (before.text ++ '=' :: (after.text ++ (right.text ++ t))) := by
        simp [Written.text]
      rw [htext]
      exact parse_assignment (right.parse_expression ht)
  | .int l, _, ht =>
      parse_expression_of_primary
        (parse_primary_of_number (l.parse_number (isDigit_of_attaches (ends_of_closes ht).apart)))
        (ends_of_closes ht)
  | .bool b, _, ht => parse_expression_of_literal b ht
  | .string c, t, ht => parse_expression_of_primary (c.parse_primary t) (ends_of_closes ht)
  | .name n, _, ht => parse_expression_of_identifier n.identifier n.apart ht
  | .constant n, t, ht => by
      have h := n.parse_expression (apart_of_closes ht)
      rwa [dropWhile_of_closes ht] at h
  | .instVar n, _, ht =>
      parse_expression_of_primary
        (parse_primary_of_instvar (n.parse_instvar (any_or_left (ends_of_closes ht).apart)))
        (ends_of_closes ht)
  | .call n args, t, ht => by
      have htext : Written.text (.call n args) ++ t = n.text.toList ++ '(' :: (args.text ++ t) := by
        simp [Written.text]
      rw [htext]
      exact parse_call_of_identifier (u := '(' :: (args.text ++ t)) n.identifier n.apart rfl
        (args.parse_args t) ht
  | .send receiver calls, t, ht => by
      have htext : Written.text (.send receiver calls) ++ t =
          '(' :: (receiver.text ++ ')' :: (calls.text ++ t)) := by
        simp [Written.text]
      have hreceiver := receiver.parse_expression (t := []) rfl
      rw [List.append_nil] at hreceiver
      rw [htext]
      refine parse_expression_of_lookup ?_ ht
      rw [Written.expr, ← calls.foldlM_setReceiver]
      exact parse_lookup_of_calls (parse_primary_parenthesis hreceiver _) (calls.parse_calls ht)
  | .binary left before op after right, t, ht => by
      have htext : Written.text (.binary left before op after right) ++ t =
          '(' :: (left.text ++ ')' :: (before.text ++ (op.op.toList ++
            (after.text ++ '(' :: (right.text ++ ')' :: t))))) := by
        simp [Written.text, parenthesised]
      have hleft := left.parse_expression (t := []) rfl
      have hright := right.parse_expression (t := []) rfl
      rw [List.append_nil] at hleft hright
      rw [htext]
      exact parse_parenthesised op.token hleft hright before.blank after.blank op.read ht

theorem Arguments.parse_args : (args : Arguments) → (t : List Char) →
    parse grammar (rule .args) ('(' :: (args.text ++ t)) = .ok (some args.exprs) t
  | .nil, t => parse_args_nil t
  | .cons e rest, t => by
      have htext : Arguments.text (.cons e rest) ++ t = e.text ++ (rest.more ++ t) := by
        simp [Arguments.text]
      have hmore := rest.parse_moreArgs t
      have hfirst : (rest.more ++ t).head?.all closes = true := by cases rest <;> rfl
      rw [htext, parse_args_list (e.parse_expression hfirst) hmore, ← List.map_cons,
        mapM_id_map_some]
      rfl

theorem Arguments.parse_moreArgs : (args : Arguments) → (t : List Char) →
    parse grammar moreArgs (args.more ++ t) = .ok (args.exprs.map some) (')' :: t)
  | .nil, t => parse_moreArgs_closed t
  | .cons e rest, t => by
      have htext : Arguments.more (.cons e rest) ++ t = ',' :: (e.text ++ (rest.more ++ t)) := by
        simp [Arguments.more]
      have hmore := rest.parse_moreArgs t
      have hfirst : (rest.more ++ t).head?.all closes = true := by cases rest <;> rfl
      have hcomma : parse grammar (lit ",") (',' :: (e.text ++ (rest.more ++ t))) =
          .ok "," (e.text ++ (rest.more ++ t)) := parse_lit_append (w := ",") _
      rw [htext, moreArgs, parse_star, parse_seqRight, hcomma, Result.on_ok,
        e.parse_expression hfirst, Result.on_ok, ← moreArgs, hmore]
      rfl

theorem Calls.parse_calls : (calls : Calls) → {t : List Char} → t.head?.all closes = true →
    parse grammar (plus lookupStep) (calls.text ++ t) = .ok (calls.exprs.map some) t
  | .one n args, t, ht => by
      have htext : Calls.text (.one n args) ++ t =
          '.' :: (n.text.toList ++ '(' :: (args.text ++ t)) := by
        simp [Calls.text]
      rw [htext, Peg.parse_plus, parse_lookupStep (args.parse_args t) (not_blank_of_closes ht),
        Result.on_ok, parse_star, parse_lookupStep_of_closes ht]
      rfl
  | .cons n args rest, t, ht => by
      have htext : Calls.text (.cons n args rest) ++ t =
          '.' :: (n.text.toList ++ '(' :: (args.text ++ (rest.text ++ t))) := by
        simp [Calls.text]
      have hrest : (rest.text ++ t).head?.any (fun c => isBlank c || c == '\x7b') = false := by
        cases rest <;> rfl
      rw [htext, Peg.parse_plus, parse_lookupStep (args.parse_args _) hrest, Result.on_ok,
        parse_star_of_plus _ (rest.parse_calls ht)]
      rfl

end

end Pup.Parse
