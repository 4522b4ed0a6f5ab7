/-
What the parser accepts is well formed.

The code generator looks at the texts in a tree and at its lists without asking: it takes an
integer's source for digits, it looks up a method by the text of an operator, it uses the
value of the last statement.  What it can rely on is `Stmt.Formed`, which holds of every tree
that the grammar yields (`wellFormed_of_parse`): names, constants, instance variables,
integers and strings are written as such, operators are those of their class that can be
read at all, and no list that must not be empty is.
-/
import Pup.Parse.Balance
import Pup.Parse.Driver

namespace Pup.Parse

open Peg
open Peg.Expression (opt plus star lit sat)

/-! ### Texts -/

/-- A first character of a kind, and what a name goes on with. -/
def Word (first : Char → Bool) (text : String) : Prop :=
  ∃ c cs, text = ident c cs ∧ first c = true ∧ ∀ d ∈ cs, identRest d = true

/-- The words that no name begins with. -/
def reserved : List String := ["end", "else", "rescue"]

def Identifier (text : String) : Prop :=
  Word identStart text ∧ ∀ w ∈ reserved, ¬ w.toList <+: text.toList

def InstVar (text : String) : Prop :=
  ∃ c cs, text = ident '@' (c :: cs) ∧ identStart c = true ∧ ∀ d ∈ cs, identRest d = true

/-- Digits, without a zero in front of others. -/
def Numeral (text : String) : Prop :=
  text = "0" ∨ ∃ c cs, text = ident c cs ∧ (c.isDigit && c != '0') = true ∧
    ∀ d ∈ cs, d.isDigit = true

/-- Quotes around characters and escapes. -/
def Quoted (text : String) : Prop :=
  ∃ pieces : List (List Char), text = ident '"' (pieces.flatten ++ ['"']) ∧
    ∀ p ∈ pieces, p = ['\\', '\\'] ∨ p = ['\\', '"'] ∨ ∃ c, c ≠ '"' ∧ p = [c]

def assignOps : List String :=
  ["=", "+=", "-=", "*=", "%=", "^=", "/=", "~=", "|=", "&=", "||=", "&&=", "<<=", ">>="]

/-- The operators of a class.  `<=` and `>=` are behind `<` and `>` in the grammar. -/
def operators : BinaryClass → List String
  | .addExpr => ["+", "-"]
  | .mulExpr => ["*", "/"]
  | .logicExpr => ["&&", "||"]
  | .equalityExpr => ["==", "!="]
  | .bitwiseExpr => ["&", "|", "%", "^"]
  | .relationalExpr => ["<", ">"]

/-! ### Trees -/

def NamedValue.Formed : NamedValue → Prop
  | .name text => Identifier text
  | .constant text => Word Char.isUpper text

def LeftHandSide.Formed : LeftHandSide → Prop
  | .name text => Identifier text
  | .instVar text => InstVar text

mutual

/-- There is no tree for `self`. -/
inductive Expr.Formed : Expr → Prop
  | assign {left : LeftHandSide} {op : String} {right : Expr} (hleft : left.Formed)
      (hop : op ∈ assignOps) (hright : right.Formed) : Expr.Formed (.assign left op right)
  | varOrInvoke {name : NamedValue} {args : Option (List Expr)} {block : Option Block}
      {receiver : Option Expr} (hname : name.Formed) (hargs : ∀ es ∈ args, ∀ e ∈ es, e.Formed)
      (hblock : ∀ b ∈ block, b.Formed) (hreceiver : ∀ e ∈ receiver, e.Formed) :
      Expr.Formed (.varOrInvoke name args block receiver)
  | instVar {name : String} (h : InstVar name) : Expr.Formed (.instVar name)
  | binary {class_ : BinaryClass} {left right : Expr} {op : String} (hleft : left.Formed)
      (hop : op ∈ operators class_) (hright : right.Formed) :
      Expr.Formed (.binary class_ left op right)
  | string {source : String} (h : Quoted source) : Expr.Formed (.string source)
  | int {source : String} (h : Numeral source) : Expr.Formed (.int source)
  | bool {val : Bool} : Expr.Formed (.bool val)

inductive Stmt.Formed : Stmt → Prop
  | ifStmt {cond : Expr} {ifbk : List Stmt} {elsebk : Option (List Stmt)} (hcond : cond.Formed)
      (hif : Statements ifbk) (helse : ∀ ss ∈ elsebk, Statements ss) :
      Stmt.Formed (.ifStmt cond ifbk elsebk)
  | whileStmt {cond : Expr} {statements : List Stmt} (hcond : cond.Formed)
      (hstatements : Statements statements) : Stmt.Formed (.whileStmt cond statements)
  | beginStmt {beginbk : List Stmt} {rescuebks : List RescueBlock}
      {elsebk ensurebk : Option (List Stmt)} (hbegin : Statements beginbk)
      (hrescue : ∀ b ∈ rescuebks, b.Formed) (helse : ∀ ss ∈ elsebk, Statements ss)
      (hensure : ∀ ss ∈ ensurebk, Statements ss) :
      Stmt.Formed (.beginStmt beginbk rescuebks elsebk ensurebk)
  | classDef {name : String} {extends_ : Option Expr} {body : Option (List Stmt)}
      (hname : Word Char.isUpper name) (hextends : ∀ e ∈ extends_, e.Formed)
      (hbody : ∀ ss ∈ body, Statements ss) : Stmt.Formed (.classDef name extends_ body)
  | methodDef {name : String} {params : Option (List Param)} {body : Option (List Stmt)}
      (hname : Identifier name) (hparams : ∀ ps ∈ params, Parameters ps)
      (hbody : ∀ ss ∈ body, Statements ss) : Stmt.Formed (.methodDef name params body)
  | expr {e : Expr} (h : e.Formed) : Stmt.Formed (.expr e)

/-- There is at least one. -/
inductive Statements : List Stmt → Prop
  | mk {s : Stmt} {ss : List Stmt} (h : ∀ s' ∈ s :: ss, s'.Formed) : Statements (s :: ss)

inductive RescueBlock.Formed : RescueBlock → Prop
  | mk {types : Option (List Expr)} {var_name : Option String} {statements : List Stmt}
      (hsome : ∀ es ∈ types, es ≠ []) (htypes : ∀ es ∈ types, ∀ e ∈ es, e.Formed)
      (hname : ∀ name ∈ var_name, Identifier name) (hstatements : Statements statements) :
      RescueBlock.Formed (.mk types var_name statements)

inductive Block.Formed : Block → Prop
  | mk {params : Option (List Param)} {statements : Option (List Stmt)}
      (hparams : ∀ ps ∈ params, Parameters ps) (hstatements : ∀ ss ∈ statements, Statements ss) :
      Block.Formed (.mk params statements)

/-- There is at least one. -/
inductive Parameters : List Param → Prop
  | mk {p : Param} {ps : List Param} (h : ∀ p' ∈ p :: ps, p'.Formed) : Parameters (p :: ps)

inductive Param.Formed : Param → Prop
  | mk {name : String} {init : Option Expr} (hname : Identifier name)
      (hinit : ∀ e ∈ init, e.Formed) : Param.Formed (.mk name init)

end

/-! ### The rules -/

/-- What the value of a rule is like. -/
def WellFormed : (r : Rule) → Value r → Prop
  | .unit, v | .statements, v | .theelse, v | .theensure, v => ∀ ss ∈ v, Statements ss
  | .statement, v | .classdef, v | .methoddef, v | .if_, v | .begin_, v | .while_, v =>
      ∀ s ∈ v, s.Formed
  | .extends_, v | .expression, v | .assignment, v | .conditional, v | .logical, v
  | .bitwise, v | .equality, v | .relational, v | .additive, v | .multitive, v | .lookup, v
  | .primary, v | .parenthesis, v | .invoke, v | .number, v | .bool, v | .quoted_string, v
  | .double_quoted_string, v | .single_quoted_string, v => ∀ e ∈ v, e.Formed
  | .lhs_stem, v | .left_hand_side, v => ∀ l ∈ v, l.Formed
  | .assign_op, op => op ∈ assignOps
  | .logic_op, op => op ∈ operators .logicExpr
  | .bit_op, op => op ∈ operators .bitwiseExpr
  | .equality_op, op => op ∈ operators .equalityExpr
  | .relational_op, op => op ∈ operators .relationalExpr
  | .add_op, op => op ∈ operators .addExpr
  | .mult_op, op => op ∈ operators .mulExpr
  | .constant, text => Word Char.isUpper text
  | .thename, text => Identifier text
  | .instvar, text => InstVar text
  | .args, v | .parenthesised_args, v => ∀ es ∈ v, ∀ e ∈ es, e.Formed
  | .unparenthesised_args, v => ∀ es ∈ v, es ≠ [] ∧ ∀ e ∈ es, e.Formed
  | .method_params, v | .block_params, v | .param_list, v => ∀ ps ∈ v, Parameters ps
  | .therescue, v => ∀ b ∈ v, b.Formed
  | .block, v => ∀ b ∈ v, b.Formed
  | .param, v => ∀ p ∈ v, p.Formed
  | .named_value, v => v.Formed
  | .eof, _ | .space, _ | .space_eol, _ | .comment_to_eol, _ | .white_noeol, _ | .white, _ => True

/-- The digits of a number, as `String#to_i` reads them. -/
def digitsValue (cs : List Char) : Nat := cs.foldl (fun n c => 10 * n + (c.toNat - '0'.toNat)) 0

theorem digitsValue_concat (cs : List Char) (d : Char) :
    digitsValue (cs ++ [d]) = 10 * digitsValue cs + (d.toNat - '0'.toNat) := by
  simp [digitsValue]

theorem toDigits_digit {d : Char} (h : d.isDigit = true) :
    d.toNat - '0'.toNat < 10 ∧ Nat.toDigits 10 (d.toNat - '0'.toNat) = [d] := by
  have hall : ∀ k < 10, (Char.ofNat ('0'.toNat + k)).toNat - '0'.toNat < 10 ∧
      Nat.toDigits 10 ((Char.ofNat ('0'.toNat + k)).toNat - '0'.toNat) =
        [Char.ofNat ('0'.toNat + k)] := by
    decide
  obtain ⟨hlow, hhigh⟩ : '0'.toNat ≤ d.toNat ∧ d.toNat ≤ '9'.toNat := by
    simpa [Char.isDigit, UInt32.le_iff_toNat_le] using h
  obtain ⟨k, hk⟩ := Nat.exists_eq_add_of_le hlow
  have hd : d = Char.ofNat ('0'.toNat + k) := by rw [← hk, Char.ofNat_toNat]
  rw [hd]
  refine hall k ?_
  rw [hk] at hhigh
  exact Nat.lt_of_add_lt_add_left (Nat.lt_succ_of_le hhigh)

/-- Digits without a zero in front are those of their number. -/
theorem toDigits_digitsValue {cs : List Char} (hne : cs ≠ []) (hdigits : ∀ d ∈ cs, d.isDigit = true)
    (hzero : cs.head? ≠ some '0') : Nat.toDigits 10 (digitsValue cs) = cs := by
  induction cs using List.reverseRecOn with
  | nil => exact absurd rfl hne
  | append_singleton cs d ih =>
      obtain ⟨hlt, hd⟩ := toDigits_digit (hdigits d (by simp))
      rw [digitsValue_concat]
      by_cases hcs : cs = []
      · subst hcs
        simpa [digitsValue] using hd
      · have hrest := ih hcs (fun c hc => hdigits c (List.mem_append_left _ hc)) (by
          rwa [List.head?_append_of_ne_nil _ hcs] at hzero)
        have hpos : 0 < digitsValue cs := by
          refine Nat.pos_of_ne_zero fun h0 => hzero ?_
          rw [List.head?_append_of_ne_nil _ hcs, ← hrest, h0]
          rfl
        rw [← Nat.toDigits_append_toDigits (by decide) hpos hlt, hrest, hd]

/-- **An integer literal is the decimal form of its value.** -/
theorem Numeral.repr_toI {source : String} (h : Numeral source) : (toI source).repr = source := by
  have hvalue : toI source = digitsValue source.toList := rfl
  rw [Nat.repr_eq_ofList_toDigits, hvalue]
  rcases h with rfl | ⟨c, cs, rfl, hc, hcs⟩
  · rfl
  · obtain ⟨hdigit, hzero⟩ := Bool.and_eq_true_iff.mp hc
    rw [ident, String.toList_ofList, toDigits_digitsValue (List.cons_ne_nil c cs)]
    · exact List.forall_mem_cons.mpr ⟨hdigit, hcs⟩
    · simpa using hzero

end Pup.Parse
