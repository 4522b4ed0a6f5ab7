/-
The syntax trees of `parser_driver.rb`.

A class of the driver is a constructor here.  Statements and expressions are two types, as
they are two rules of the grammar, and the binary expressions are one constructor with
their class as an argument.  What stands to the left of an assignment is a name or an
instance variable: the other forms that the grammar lets through have no tree.
-/
import Mathlib.Data.List.Basic

namespace Pup.Parse

/-- `NameExpr` and `ConstantNameExpr`. -/
inductive NamedValue
  | name (name : String)
  | constant (name : String)
  deriving DecidableEq, Repr

inductive LeftHandSide
  | name (name : String)
  | instVar (name : String)
  deriving DecidableEq, Repr

/-- The classes below `AbstractBinaryExpr`, but for `AssignExpr`. -/
inductive BinaryClass
  | addExpr
  | mulExpr
  | logicExpr
  | equalityExpr
  | bitwiseExpr
  | relationalExpr
  deriving DecidableEq, Repr

mutual

inductive Expr
  | assign (left : LeftHandSide) (op : String) (right : Expr)
  | varOrInvoke (name : NamedValue) (args : Option (List Expr)) (block : Option Block)
      (receiver : Option Expr)
  | instVar (name : String)
  | binary (class_ : BinaryClass) (left : Expr) (op : String) (right : Expr)
  | string (source : String)
  | int (source : String)
  | bool (val : Bool)
  | selfExpr

inductive Stmt
  | ifStmt (cond : Expr) (ifbk : List Stmt) (elsebk : Option (List Stmt))
  | whileStmt (cond : Expr) (statements : List Stmt)
  | beginStmt (beginbk : List Stmt) (rescuebks : List RescueBlock) (elsebk : Option (List Stmt))
      (ensurebk : Option (List Stmt))
  | classDef (name : String) (extends_ : Option Expr) (body : Option (List Stmt))
  | methodDef (name : String) (params : Option (List Param)) (body : Option (List Stmt))
  | expr (e : Expr)

inductive RescueBlock
  | mk (types : Option (List Expr)) (var_name : Option String) (statements : List Stmt)

inductive Block
  | mk (params : Option (List Param)) (statements : Option (List Stmt))

inductive Param
  | mk (name : String) (init : Option Expr)

end

/-- `name` of either class. -/
def NamedValue.text : NamedValue → String
  | .name text => text
  | .constant text => text

/-- `StringLiteral#value`: the quotes go, and `\"` becomes `"`. -/
def stringValue (source : String) : String :=
  String.ofList (unescape (source.toList.drop 1).dropLast)
where
  unescape : List Char → List Char
    | '\\' :: '"' :: rest => '"' :: unescape rest
    | c :: rest => c :: unescape rest
    | [] => []

/-- `String#to_i` of the digits of an `IntLiteral`. -/
def toI (source : String) : Nat :=
  source.toList.foldl (fun n c => 10 * n + (c.toNat - '0'.toNat)) 0

end Pup.Parse
