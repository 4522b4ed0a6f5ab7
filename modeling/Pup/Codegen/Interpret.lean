/-
What a program means.

The interpreter goes over the syntax tree and knows nothing of blocks, registers or slots: a
program has locals, and makes calls to the runtime.  Receivers and arguments are evaluated
from left to right, a condition is false when it is the false instance, and a bare name is a
local when the text has assigned to it before.  `core` tells the programs that it is for.
-/
import Pup.Codegen.Execute
import Pup.Codegen.Scope

namespace Pup.Codegen

open Parse

variable {α β γ : Type}

/-! ### The programs -/

def coreOperators : List (BinaryClass × String) :=
  [(.addExpr, "+"), (.equalityExpr, "=="), (.relationalExpr, "<"), (.relationalExpr, ">")]

mutual

/-- Assignments with `=`, literals, calls without a block and the operators. -/
def coreExpr : Expr → Bool
  | .assign _ op right => op == "=" && coreExpr right
  | .varOrInvoke _ args block receiver =>
      block.isNone && coreReceiver receiver && coreArgList args
  | .binary class_ left op right =>
      coreOperators.contains (class_, op) && coreExpr left && coreExpr right
  | _ => true

def coreReceiver : Option Expr → Bool
  | some receiver => coreExpr receiver
  | none => true

def coreArgList : Option (List Expr) → Bool
  | some args => coreExprs args
  | none => true

def coreExprs : List Expr → Bool
  | [] => true
  | e :: es => coreExpr e && coreExprs es

end

mutual

/-- And `if` with an `else`, and `while`. -/
def coreStmt : Stmt → Bool
  | .expr e => coreExpr e
  | .ifStmt cond ifbk (some elsebk) => coreExpr cond && coreStmts ifbk && coreStmts elsebk
  | .whileStmt cond statements => coreExpr cond && coreStmts statements
  | _ => false

def coreStmts : List Stmt → Bool
  | [] => true
  | s :: ss => coreStmt s && coreStmts ss

end

/-! ### The interpreter -/

structure State (α : Type) where
  locals : String → α
  world : World α

/-- A computation, which comes to nothing when a call is not answered. -/
def Interp (α β : Type) : Type := State α → Option β × State α

instance : Monad (Interp α) where
  pure a := fun s => (some a, s)
  bind x f := fun s =>
    match x s with
    | (some a, s') => f a s'
    | (none, s') => (none, s')

theorem interp_bind_some {x : Interp α β} {f : β → Interp α γ} {s s' : State α} {a : β}
    (h : x s = (some a, s')) : (x >>= f) s = f a s' := by
  simp [bind, h]

theorem interp_bind_none {x : Interp α β} {f : β → Interp α γ} {s s' : State α}
    (h : x s = (none, s')) : (x >>= f) s = (none, s') := by
  simp [bind, h]

namespace Interp

def call (R : Runtime α) (c : Call α) : Interp α α := fun s =>
  let (answer, world) := s.world.call R c
  (answer, { s with world := world })

def get (name : String) : Interp α α := fun s => (some (s.locals name), s)

def set (name : String) (a : α) : Interp α Unit := fun s =>
  (some (), { s with locals := Function.update s.locals name a })

/-- The method of the name is invoked. -/
def invoke (R : Runtime α) (target : α) (name : String) (args : List α) : Interp α α := do
  let sym ← call R (.strToSym name)
  call R (.invoke target sym args)

/-- A constant is looked up. -/
def const (R : Runtime α) (name : String) : Interp α α := do
  let class_ ← call R (.classContextFrom R.self)
  let sym ← call R (.strToSym name)
  call R (.constGetRequired class_ sym)

mutual

/-- The value of an expression, with the names that the text has assigned to before it. -/
def eval (R : Runtime α) : Expr → List String → Interp α α
  | .assign (.name name) _ right, scope => do
      let value ← eval R right (name :: scope)
      set name value
      return value
  | .assign (.instVar name) _ right, scope => do
      let value ← eval R right scope
      let sym ← call R (.strToSym name)
      let _ ← call R (.ivSet R.self sym value)
      return value
  | .varOrInvoke name args _ receiver, scope =>
      if isConstAccess name args receiver then const R name.text
      else if args.isNone && receiver.isNone && scope.contains name.text then get name.text
      else do
        let target ← evalReceiver R receiver scope
        let values ← evalArgList R args (scopeReceiver receiver scope)
        invoke R target name.text values
  | .instVar name, _ => do
      let sym ← call R (.strToSym name)
      call R (.ivGet R.self sym)
  | .binary _ left op right, scope => do
      let l ← eval R left scope
      let r ← eval R right (scopeExpr left scope)
      invoke R l op [r]
  | .string source, _ => call R (.stringNewCstr (stringValue source))
  | .int source, _ => call R (.fixnumCreate (toI source))
  | .bool true, _ => call R .getTrueinstance
  | .bool false, _ => call R .getFalseinstance
  | .selfExpr, _ => return R.self

def evalReceiver (R : Runtime α) : Option Expr → List String → Interp α α
  | some receiver, scope => eval R receiver scope
  | none, _ => return R.self

def evalArgList (R : Runtime α) : Option (List Expr) → List String → Interp α (List α)
  | some args, scope => evalExprs R args scope
  | none, _ => return []

def evalExprs (R : Runtime α) : List Expr → List String → Interp α (List α)
  | [], _ => return []
  | e :: es, scope => do
      let value ← eval R e scope
      let values ← evalExprs R es (scopeExpr e scope)
      return value :: values

end

variable [DecidableEq α]

/-- Whether a condition holds. -/
def test (R : Runtime α) (cond : Expr) (scope : List String) : Interp α Bool := do
  let value ← eval R cond scope
  let _ ← call R .getFalseinstance
  return !decide (value = R.falseinstance)

/-- At most so many iterations, each of which ends with a safepoint. -/
def loop (R : Runtime α) (cond : Interp α Bool) (body : Interp α Unit) : Nat → Interp α Unit
  | 0 => fun s => (none, s)
  | n + 1 => do
      if ← cond then
        body
        let _ ← call R .safepoint
        loop R cond body n
      else return ()

/-- A loop ends, or one of its safepoints is not answered: there are more iterations than
answers. -/
def whileLoop (R : Runtime α) (cond : Interp α Bool) (body : Interp α Unit) : Interp α Unit :=
  fun s => loop R cond body (s.world.left + 1) s

mutual

def exec (R : Runtime α) : Stmt → List String → Interp α Unit
  | .expr e, scope => do
      let _ ← eval R e scope
  | .ifStmt cond ifbk (some elsebk), scope => do
      if ← test R cond scope then execStmts R ifbk (scopeExpr cond scope)
      else execStmts R elsebk (scopeStmts ifbk (scopeExpr cond scope))
  | .whileStmt cond statements, scope =>
      whileLoop R (test R cond scope) (execStmts R statements (scopeExpr cond scope))
  | _, _ => return ()

def execStmts (R : Runtime α) : List Stmt → List String → Interp α Unit
  | [], _ => return ()
  | s :: ss, scope => do
      exec R s scope
      execStmts R ss (scopeStmt s scope)

end

/-- A program is run: what comes of it, and the locals and the calls. -/
def program (R : Runtime α) (stmts : List Stmt) (locals : String → α) (left : Nat) :
    Option Unit × State α :=
  execStmts R stmts [] ⟨locals, ⟨[], left⟩⟩

end Interp

end Pup.Codegen
