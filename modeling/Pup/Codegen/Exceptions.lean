/-
What a program with exceptions means.

An invocation that raises ends all that is around it up to the next `begin`, whose clauses are
then looked at; one that fits is executed in place of the rest.  Not so with the other calls of
the runtime and with an exception that no clause fits: these leave the function at once, since
in the code they are no invocations.  `rescuingStmt` tells the programs that this is for.
-/
import Pup.Codegen.Raising

namespace Pup.Codegen

open Parse

variable {α β γ : Type}

/-! ### The programs -/

mutual

/-- The statements of `core`, and `begin` with its clauses. -/
def rescuingStmt : Stmt → Bool
  | .expr e => coreExpr e
  | .ifStmt cond ifbk (some elsebk) =>
      coreExpr cond && rescuingStmts ifbk && rescuingStmts elsebk
  | .whileStmt cond statements => coreExpr cond && rescuingStmts statements
  | .beginStmt beginbk rescuebks none none => rescuingStmts beginbk && rescuingClauses rescuebks
  | _ => false

def rescuingStmts : List Stmt → Bool
  | [] => true
  | s :: ss => rescuingStmt s && rescuingStmts ss

def rescuingClauses : List RescueBlock → Bool
  | [] => true
  | .mk types _ statements :: rescuebks =>
      coreExprs (types.getD defaultTypes) && rescuingStmts statements && rescuingClauses rescuebks

end

/-! ### Computations -/

/-- How a computation ends. -/
inductive Exit (α β : Type)
  | value (b : β)
  /-- A method that was invoked has raised. -/
  | raised
  /-- An exception leaves the function, whatever is around. -/
  | left (dwarf_ex : α)
  /-- A call is not answered. -/
  | waits
  deriving DecidableEq, Repr

/-- A computation that may raise. -/
def Exec (α β : Type) : Type := State α → Exit α β × State α

instance : Monad (Exec α) where
  pure b := fun s => (.value b, s)
  bind x f := fun s =>
    match x s with
    | (.value b, s') => f b s'
    | (.raised, s') => (.raised, s')
    | (.left dwarf_ex, s') => (.left dwarf_ex, s')
    | (.waits, s') => (.waits, s')

theorem exec_bind_value {x : Exec α β} {f : β → Exec α γ} {s s' : State α} {b : β}
    (h : x s = (.value b, s')) : (x >>= f) s = f b s' := by
  simp [bind, h]

theorem exec_bind_raised {x : Exec α β} {f : β → Exec α γ} {s s' : State α}
    (h : x s = (.raised, s')) : (x >>= f) s = (.raised, s') := by
  simp [bind, h]

theorem exec_bind_left {x : Exec α β} {f : β → Exec α γ} {s s' : State α} {dwarf_ex : α}
    (h : x s = (.left dwarf_ex, s')) : (x >>= f) s = (.left dwarf_ex, s') := by
  simp [bind, h]

theorem exec_bind_waits {x : Exec α β} {f : β → Exec α γ} {s s' : State α}
    (h : x s = (.waits, s')) : (x >>= f) s = (.waits, s') := by
  simp [bind, h]

/-- How a call ends that raises. -/
def Call.exit (R : Raising α) (world : World α) : Call α → Exit α α
  | .invoke _ _ _ => .raised
  | _ => .left (R.unwinding world.calls).dwarf_ex

namespace Exec

def call (R : Raising α) (c : Call α) : Exec α α := fun s =>
  match s.world.raised R c, s.world.call R.toRuntime c with
  | some world, _ => (c.exit R world, { s with world := world })
  | none, (some a, world) => (.value a, { s with world := world })
  | none, (none, world) => (.waits, { s with world := world })

def get (name : String) : Exec α α := fun s => (.value (s.locals name), s)

def set (name : String) (a : α) : Exec α Unit := fun s =>
  (.value (), { s with locals := Function.update s.locals name a })

/-- The function is left. -/
def leave (dwarf_ex : α) : Exec α β := fun s => (.left dwarf_ex, s)

/-- The method of the name is invoked. -/
def invoke (R : Raising α) (target : α) (name : String) (args : List α) : Exec α α := do
  let sym ← call R (.strToSym name)
  call R (.invoke target sym args)

/-- A constant is looked up. -/
def const (R : Raising α) (name : String) : Exec α α := do
  let class_ ← call R (.classContextFrom R.self)
  let sym ← call R (.strToSym name)
  call R (.constGetRequired class_ sym)

/-! ### Expressions -/

mutual

/-- The value of an expression, with the names that the text has assigned to before it. -/
def eval (R : Raising α) : Expr → List String → Exec α α
  | .assign (.name name) _ right, scope => do
      let value ← eval R right (name :: scope)
      set name value
      return value
  | .assign (.instVar name) _ right, scope => do
      let value ← eval R right scope
      let sym ← call R (.strToSym name)
      let _ ← call R (.ivSet R.self sym value)
      return value
  | .varOrInvoke name args _ receiver, scope =>
      if isConstAccess name args receiver then const R name.text
      else if args.isNone && receiver.isNone && scope.contains name.text then get name.text
      else do
        let target ← evalReceiver R receiver scope
        let values ← evalArgList R args (scopeReceiver receiver scope)
        invoke R target name.text values
  | .instVar name, _ => do
      let sym ← call R (.strToSym name)
      call R (.ivGet R.self sym)
  | .binary _ left op right, scope => do
      let l ← eval R left scope
      let r ← eval R right (scopeExpr left scope)
      invoke R l op [r]
  | .string source, _ => call R (.stringNewCstr (stringValue source))
  | .int source, _ => call R (.fixnumCreate (toI source))
  | .bool true, _ => call R .getTrueinstance
  | .bool false, _ => call R .getFalseinstance
  | .selfExpr, _ => return R.self

def evalReceiver (R : Raising α) : Option Expr → List String → Exec α α
  | some receiver, scope => eval R receiver scope
  | none, _ => return R.self

def evalArgList (R : Raising α) : Option (List Expr) → List String → Exec α (List α)
  | some args, scope => evalExprs R args scope
  | none, _ => return []

def evalExprs (R : Raising α) : List Expr → List String → Exec α (List α)
  | [], _ => return []
  | e :: es, scope => do
      let value ← eval R e scope
      let values ← evalExprs R es (scopeExpr e scope)
      return value :: values

end

/-! ### Clauses -/

/-- `pup_is_descendant_or_same`. -/
def descends (R : Raising α) (expected_type type : α) : Exec α Bool := fun s =>
  (.value ((R.unwinding s.world.calls).isDescendantOrSame expected_type type), s)

/-- Whether the class of an exception is of one of the types, which are evaluated up to that
one. -/
def matchesTypes (R : Raising α) (type : α) : List Expr → List String → Exec α Bool
  | [], _ => return false
  | ex_type :: types, scope => do
      let expected_type ← eval R ex_type scope
      if ← descends R expected_type type then return true
      else matchesTypes R type types (scopeExpr ex_type scope)

/-- The variable of a clause is assigned the exception. -/
def bindExcep (excep : α) : Option String → Exec α Unit
  | some name => set name excep
  | none => return ()

/-! ### Statements -/

variable [DecidableEq α]

/-- Whether a condition holds. -/
def test (R : Raising α) (cond : Expr) (scope : List String) : Exec α Bool := do
  let value ← eval R cond scope
  let _ ← call R .getFalseinstance
  return !decide (value = R.falseinstance)

/-- At most so many iterations, each of which ends with a safepoint. -/
def loop (R : Raising α) (cond : Exec α Bool) (body : Exec α Unit) : Nat → Exec α Unit
  | 0 => fun s => (.waits, s)
  | n + 1 => do
      if ← cond then
        body
        let _ ← call R .safepoint
        loop R cond body n
      else return ()

/-- A loop ends, or one of its safepoints is not answered: there are more iterations than
answers. -/
def whileLoop (R : Raising α) (cond : Exec α Bool) (body : Exec α Unit) : Exec α Unit :=
  fun s => loop R cond body (s.world.left + 1) s

mutual

def exec (R : Raising α) : Stmt → List String → Exec α Unit
  | .expr e, scope => do
      let _ ← eval R e scope
  | .ifStmt cond ifbk (some elsebk), scope => do
      if ← test R cond scope then execStmts R ifbk (scopeExpr cond scope)
      else execStmts R elsebk (scopeStmts ifbk (scopeExpr cond scope))
  | .whileStmt cond statements, scope =>
      whileLoop R (test R cond scope) (execStmts R statements (scopeExpr cond scope))
  | .beginStmt beginbk rescuebks _ _, scope => fun s =>
      match execStmts R beginbk scope s with
      | (.raised, s') => execRescues R (R.unwinding s'.world.calls) rescuebks
          (scopeStmts beginbk scope) s'
      | other => other
  | _, _ => return ()

def execStmts (R : Raising α) : List Stmt → List String → Exec α Unit
  | [], _ => return ()
  | s :: ss, scope => do
      exec R s scope
      execStmts R ss (scopeStmt s scope)

/-- The first clause that fits is executed, or the exception is raised again. -/
def execRescues (R : Raising α) (U : Unwinding α) : List RescueBlock → List String → Exec α Unit
  | [], _ => leave U.dwarf_ex
  | .mk types var_name statements :: rescuebks, scope => do
      if ← matchesTypes R (U.type U.excep) (types.getD defaultTypes) scope then
        bindExcep U.excep var_name
        execStmts R statements (scopeClause types var_name scope)
      else execRescues R U rescuebks (scopeStmts statements (scopeClause types var_name scope))

end

/-! ### What each statement is -/

variable {R : Raising α} {scope : List String}

theorem exec_if (cond : Expr) (ifbk elsebk : List Stmt) :
    exec R (.ifStmt cond ifbk (some elsebk)) scope = (do
      if ← test R cond scope then execStmts R ifbk (scopeExpr cond scope)
      else execStmts R elsebk (scopeStmts ifbk (scopeExpr cond scope))) := rfl

theorem exec_while (cond : Expr) (statements : List Stmt) :
    exec R (.whileStmt cond statements) scope =
      whileLoop R (test R cond scope) (execStmts R statements (scopeExpr cond scope)) := rfl

/-- The body of a `begin` raises, or the `begin` ends as its body does. -/
theorem exec_begin (beginbk : List Stmt) (rescuebks : List RescueBlock)
    (elsebk ensurebk : Option (List Stmt)) (s : State α) :
    exec R (.beginStmt beginbk rescuebks elsebk ensurebk) scope s =
      match execStmts R beginbk scope s with
      | (.raised, s') => execRescues R (R.unwinding s'.world.calls) rescuebks
          (scopeStmts beginbk scope) s'
      | other => other := rfl

theorem execRescues_cons (U : Unwinding α) (types : Option (List Expr))
    (var_name : Option String) (statements : List Stmt) (rescuebks : List RescueBlock) :
    execRescues R U (.mk types var_name statements :: rescuebks) scope = (do
      if ← matchesTypes R (U.type U.excep) (types.getD defaultTypes) scope then
        bindExcep U.excep var_name
        execStmts R statements (scopeClause types var_name scope)
      else
        execRescues R U rescuebks
          (scopeStmts statements (scopeClause types var_name scope))) := rfl

/-- An exception that nothing rescues leaves the function. -/
def function (R : Raising α) (x : Exec α β) : Exec α β := fun s =>
  match x s with
  | (.raised, s') => (.left (R.unwinding s'.world.calls).dwarf_ex, s')
  | other => other

/-- A program is run: what comes of it, and the locals and the calls. -/
def program (R : Raising α) (stmts : List Stmt) (locals : String → α) (left : Nat) :
    Exit α Unit × State α :=
  function R (execStmts R stmts []) ⟨locals, ⟨[], left⟩⟩

end Exec

end Pup.Codegen
