/-
`parser.treetop`.

A rule yields what `value` of its node is.  Not every node has that method: a conditional, a
string in single quotes and an assignment to anything but a name or an instance variable are
parsed, and it is only then that `NoMethodError` is raised, so that the value is an `Option`.
The rule `unary` and those below it cannot be reached, and are left out.
-/
import Pup.Lib.Peg
import Pup.Parse.Ast

namespace Pup.Parse

open Peg
open Peg.Expression (opt plus)

/-- What holds of the characters of a text is decided over the text: there are too many others. -/
instance (priority := high) decidableForallMem {p : Char → Prop} [DecidablePred p]
    (s : List Char) : Decidable (∀ c ∈ s, p c) := List.decidableBAll p s

inductive Rule
  | unit
  | statements
  | eof
  | statement
  | classdef
  | extends_
  | methoddef
  | method_params
  | if_
  | theelse
  | begin_
  | therescue
  | theensure
  | while_
  | expression
  | assignment
  | assign_op
  | lhs_stem
  | left_hand_side
  | conditional
  | logical
  | logic_op
  | bitwise
  | bit_op
  | equality
  | equality_op
  | relational
  | relational_op
  | additive
  | add_op
  | multitive
  | mult_op
  | lookup
  | primary
  | parenthesis
  | invoke
  | args
  | parenthesised_args
  | unparenthesised_args
  | block
  | block_params
  | param_list
  | param
  | number
  | bool
  | quoted_string
  | named_value
  | constant
  | thename
  | instvar
  | double_quoted_string
  | single_quoted_string
  | space
  | space_eol
  | comment_to_eol
  | white_noeol
  | white
  deriving DecidableEq, Repr

/-- What `value` returns, unless it is no method of the node. -/
abbrev Value : Rule → Type
  | .unit | .statements | .theelse | .theensure => Option (List Stmt)
  | .statement | .classdef | .methoddef | .if_ | .begin_ | .while_ => Option Stmt
  | .extends_ | .expression | .assignment | .conditional | .logical | .bitwise | .equality
  | .relational | .additive | .multitive | .lookup | .primary | .parenthesis | .invoke
  | .number | .bool | .quoted_string | .double_quoted_string | .single_quoted_string => Option Expr
  | .lhs_stem | .left_hand_side => Option LeftHandSide
  | .assign_op | .logic_op | .bit_op | .equality_op | .relational_op | .add_op | .mult_op
  | .constant | .thename | .instvar => String
  | .args | .parenthesised_args | .unparenthesised_args => Option (List Expr)
  | .method_params | .block_params | .param_list => Option (List Param)
  | .therescue => Option RescueBlock
  | .block => Option Block
  | .param => Option Param
  | .named_value => NamedValue
  | .eof | .space | .space_eol | .comment_to_eol | .white_noeol | .white => Unit

abbrev Exp : Type → Type 1 := Expression Value

abbrev rule (r : Rule) : Exp (Value r) := .rule r

/-- `white_noeol?` -/
def optBlank : Exp (Option Unit) := opt (rule .white_noeol)

/-- `space?` -/
def optSpace : Exp (Option Unit) := opt (rule .space)

/-- The method `value` of an optional part, which is nil where the part is missing. -/
def optValue {α : Type} : Option (Option α) → Option (Option α)
  | none => some none
  | some value => value.map some

/-- `v.receiver = receiver`, which only a `VarOrInvokeExpr` has. -/
def setReceiver (receiver : Expr) : Expr → Option Expr
  | .varOrInvoke name args block _ => some (.varOrInvoke name args block (some receiver))
  | _ => none

/-- The rules of the binary expressions. -/
def binaryRule (class_ : BinaryClass) (left : Exp (Option Expr)) (op : Exp String)
    (right : Exp (Option Expr)) : Exp (Option Expr) :=
  (fun l o r => return .binary class_ (← l) o (← r)) <$> left <* optBlank <*> op
      <* optSpace <*> right
    <|> left

/-- The characters between quotes: `!quote ("\\\\" / escaped / .)`. -/
def quotedChar (quote escaped : String) : Exp (List Char) :=
  .notAt (.lit quote) *>
    (String.toList <$> .lit "\\\\" <|> String.toList <$> .lit escaped
      <|> (fun c => [c]) <$> .sat fun _ => true)

def identStart (c : Char) : Bool := c.isLower || c == '_'

def identRest (c : Char) : Bool := c.isAlphanum || c == '_'

def isBlank (c : Char) : Bool := c == ' ' || c == '\t'

def isEol (c : Char) : Bool := c == '\n' || c == '\r'

/-- The text of a character and those after it. -/
def ident (first : Char) (rest : List Char) : String := String.ofList (first :: rest)

def grammar : Grammar Value
  | .unit => rule .statements <* .star (rule .space) <* rule .eof
  | .statements =>
      (fun s tail => (s :: tail).mapM id) <$> (optSpace *> rule .statement) <*>
        .star (rule .space_eol *> .star (rule .space) *> rule .statement)
  | .eof => .notAt (.sat fun _ => true)
  | .statement =>
      rule .if_ <|> rule .classdef <|> rule .methoddef <|> rule .begin_ <|> rule .while_
        <|> Option.map Stmt.expr <$> rule .expression
  | .classdef =>
      (fun name e s => return .classDef name (← optValue e) (← optValue s)) <$>
        (.lit "class" *> rule .white_noeol *> rule .constant
          <* (rule .white_noeol <|> .notAt (rule .extends_))) <*> opt (rule .extends_)
          <* rule .space_eol <*> opt (rule .statements <* rule .space) <* .lit "end"
  | .extends_ => .lit "<" *> optSpace *> rule .expression
  | .methoddef =>
      (fun name m s => return .methodDef name (← optValue m) (← optValue s)) <$>
        (.lit "def" *> rule .space *> rule .thename <* optBlank) <*>
          opt (rule .method_params) <* rule .space_eol <*> opt (rule .statements)
          <* rule .space <* .lit "end"
  | .method_params => .lit "(" *> rule .param_list <* .lit ")"
  | .if_ =>
      (fun cond ifbk elsebk => return .ifStmt (← cond) (← ifbk) (← optValue elsebk)) <$>
        (.lit "if" *> rule .space *> rule .expression <* rule .space_eol) <*>
          (optBlank *> rule .statements <* rule .space) <*>
          opt (rule .theelse) <* .lit "end"
  | .theelse => .lit "else" *> rule .space *> rule .statements <* rule .space
  | .begin_ =>
      (fun beginbk rescuebks elsebk ensurebk => do
          let rescuebks ← rescuebks.mapM id
          return .beginStmt (← beginbk) rescuebks (← optValue elsebk) (← optValue ensurebk)) <$>
        (.lit "begin" *> rule .space_eol *> optBlank *> rule .statements
          <* rule .space) <*> .star (rule .therescue) <*> opt (rule .theelse) <*>
          opt (rule .theensure) <* .lit "end"
  | .therescue =>
      (fun types name statements => return .mk (← optValue types) name (← statements)) <$>
        (.lit "rescue" *> opt (rule .white_noeol *> rule .unparenthesised_args)) <*>
          opt (optBlank *> .lit "=>" *> optBlank *>
            rule .thename) <*>
          (rule .space *> rule .statements <* rule .space)
  | .theensure => .lit "ensure" *> rule .space *> rule .statements <* rule .space
  | .while_ =>
      (fun cond statements => return .whileStmt (← cond) (← statements)) <$>
        (.lit "while" *> rule .white_noeol *> rule .expression
          <* opt (rule .white_noeol *> .lit "do") <* rule .space_eol) <*>
          (optBlank *> rule .statements <* rule .space) <* .lit "end"
  | .expression => rule .assignment
  | .assignment =>
      (fun left op right => return .assign (← left) op (← right)) <$>
          (rule .left_hand_side <* optBlank) <*> rule .assign_op
          <* optSpace <*> rule .assignment
        <|> rule .conditional
  | .assign_op =>
      (.notAt (.lit "=>") *> .lit "=") <|> .lit "+=" <|> .lit "-=" <|> .lit "*=" <|> .lit "%="
        <|> .lit "^=" <|> .lit "/=" <|> .lit "~=" <|> .lit "|=" <|> .lit "&=" <|> .lit "||="
        <|> .lit "&&=" <|> .lit "<<=" <|> .lit ">>="
  | .lhs_stem =>
      (fun name => some (.name name)) <$> rule .thename
        <|> (fun name => some (.instVar name)) <$> rule .instvar
  | .left_hand_side =>
      (fun _ => none) <$> (rule .lhs_stem *>
          plus (.lit "." *> rule .invoke <|> .lit "[" *> rule .expression <* .lit "]"))
        <|> rule .lhs_stem
  | .conditional =>
      (fun _ => none) <$> (rule .logical *> optBlank *> .lit "?" *>
          optSpace *> rule .assignment *> optBlank *> .lit ":" *>
          optSpace *> rule .assignment)
        <|> rule .logical
  | .logical => binaryRule .logicExpr (rule .bitwise) (rule .logic_op) (rule .logical)
  | .logic_op => .lit "&&" <|> .lit "||"
  | .bitwise => binaryRule .bitwiseExpr (rule .equality) (rule .bit_op) (rule .bitwise)
  | .bit_op => .lit "&" <|> .lit "|" <|> .lit "%" <|> .lit "^"
  | .equality => binaryRule .equalityExpr (rule .relational) (rule .equality_op) (rule .equality)
  | .equality_op => .lit "==" <|> .lit "!="
  | .relational =>
      binaryRule .relationalExpr (rule .additive) (rule .relational_op) (rule .relational)
  | .relational_op => .lit "<" <|> .lit "<=" <|> .lit ">" <|> .lit ">="
  | .additive => binaryRule .addExpr (rule .multitive) (rule .add_op) (rule .additive)
  | .add_op => .lit "+" <|> .lit "-"
  | .multitive => binaryRule .mulExpr (rule .lookup) (rule .mult_op) (rule .multitive)
  | .mult_op => .lit "*" <|> .lit "/"
  | .lookup =>
      (fun head tail => do
          (← tail.mapM id).foldlM setReceiver (← head)) <$>
          rule .primary <*>
          plus (.lit "." *> rule .invoke <|> .lit "[" *> rule .expression <* .lit "]")
        <|> rule .primary
  | .primary =>
      rule .parenthesis <|> rule .number <|> rule .bool <|> rule .quoted_string
        <|> rule .invoke <|> (fun name => some (.instVar name)) <$> rule .instvar
  | .parenthesis => .lit "(" *> rule .expression <* .lit ")"
  | .invoke =>
      (fun n a b => return .varOrInvoke n (← optValue a) (← optValue b) none) <$>
        (rule .named_value <* optBlank) <*> opt (rule .args)
          <* optBlank <*> opt (rule .block)
  | .args => rule .parenthesised_args <|> rule .unparenthesised_args
  | .parenthesised_args =>
      (fun list => (list.getD []).mapM id) <$> (.lit "(" *>
        opt (List.cons <$> rule .expression <*> .star (.lit "," *> rule .expression))
        <* .lit ")")
  | .unparenthesised_args =>
      (fun e tail => (e :: tail).mapM id) <$> rule .expression <*>
        .star (optBlank *> .lit "," *> optSpace *> rule .expression)
  | .block =>
      (fun p s => return .mk (← optValue p) (← optValue s)) <$>
        (.lit "\x7b" *> optSpace *> opt (rule .block_params)) <*>
          opt (rule .statements) <* .lit "\x7d"
  | .block_params => .lit "|" *> rule .param_list <* .lit "|"
  | .param_list =>
      (fun p list => (p :: list).mapM id) <$> rule .param <*>
        .star (.lit "," *> optSpace *> rule .param)
  | .param =>
      (fun name init => return .mk name (← optValue init)) <$> rule .thename <*>
        opt (.lit "=" *> rule .expression)
  | .number =>
      (fun source => some (.int source)) <$>
        (ident <$> (.sat fun c => c.isDigit && c != '0') <*> .star (.sat Char.isDigit) <|> .lit "0")
  | .bool =>
      (fun _ => some (.bool true)) <$> .lit "true" <|> (fun _ => some (.bool false)) <$> .lit "false"
  | .quoted_string => rule .single_quoted_string <|> rule .double_quoted_string
  | .named_value => .constant <$> rule .constant <|> .name <$> rule .thename
  | .constant => ident <$> .sat Char.isUpper <*> .star (.sat identRest)
  | .thename =>
      .notAt (.lit "end") *> .notAt (.lit "else") *> .notAt (.lit "rescue") *>
        (ident <$> .sat identStart <*> .star (.sat identRest))
  | .instvar =>
      .lit "@" *> ((fun c cs => ident '@' (c :: cs)) <$> .sat identStart <*> .star (.sat identRest))
  | .double_quoted_string =>
      (fun string => some (.string (ident '"' (string.flatten ++ ['"'])))) <$>
        (.lit "\"" *> .star (quotedChar "\"" "\\\"") <* .lit "\"")
  | .single_quoted_string =>
      (fun _ => none) <$> (.lit "'" *> .star (quotedChar "'" "\\'") <* .lit "'")
  | .space => (fun _ => ()) <$> plus (rule .white <|> rule .comment_to_eol)
  | .space_eol =>
      (fun _ => ()) <$> plus (.star (rule .white_noeol) *> opt (rule .comment_to_eol) *>
        plus (.sat isEol))
  | .comment_to_eol =>
      (fun _ => ()) <$> (.lit "#" *> .star (.notAt (.lit "\n") *> .sat fun _ => true))
  | .white_noeol => (fun _ => ()) <$> plus (.sat isBlank)
  | .white => (fun _ => ()) <$> .sat fun c => isBlank c || isEol c

end Pup.Parse
