/-
The generator.

The definitions follow `ast_codegen.rb`, one `codegen` of a class after the other.  Where the
Ruby code fails, so does the generator here: a class without `codegen_binary`, an `if` without
an `else`, a superclass, a class without a body, a `begin` without a `rescue`.  `emitValue`
is for the value of a list of statements, which is `nil` for an empty one.  That `LLVM.Int`
refuses the integer of a literal does not happen here: `compileFile` sees to that.
-/
import Pup.Codegen.Context

namespace Pup.Codegen

open Parse

/-! ### Pieces -/

/-- The value of a list of statements as an operand. -/
def emitValue : Option Operand → Gen Operand
  | some v => return v
  | none => throw .nilGiven

/-- The method that an operator invokes. -/
def operatorMethod (class_ : BinaryClass) (op : String) : Option String :=
  match class_ with
  | .equalityExpr => some "=="
  | .relationalExpr => some op
  | .addExpr => some "+"
  | _ => none

/-- `codegen_binary`. -/
def codegenBinary (class_ : BinaryClass) (op : String) (lhs rhs : Operand) : Gen Operand :=
  match operatorMethod class_ op with
  | some name => buildMethodInvocation lhs name [rhs]
  | none => throw (.noMethod "codegen_binary")

/-- `var_access?` of a constant. -/
def isConstAccess (name : NamedValue) (args : Option (List Expr)) (receiver : Option Expr) :
    Bool :=
  match name, args, receiver with
  | .constant _, none, none => true
  | _, _, _ => false

/-- `var_access?` of a name that is not a constant. -/
def isLocal (name : String) (args : Option (List Expr)) (receiver : Option Expr) : Gen Bool :=
  fun g => .ok (args.isNone && receiver.isNone &&
    (g.current_method.locals.lookup name).isSome, g)

/-- `codegen_var_access` of a constant. -/
def constAccess (name : String) : Gen Operand := do
  let self_class ← buildCall "pup_class_context_from" [.env, (← get).self_ref]
  let sym ← mkSym name
  buildCall "pup_const_get_required" [.env, self_class, sym]

/-- `codegen_var_access` of a local. -/
def localAccess (name : String) : Gen Operand := do
  match ← getLocal name with
  | some localSlot => emitReg fun r => .load r localSlot
  | none => throw .nilGiven

def codegenArgs : Nat → List Param → Gen Unit
  | _, [] => return
  | i, .mk name _ :: params => do
      let var ← getOrCreateLocal name
      let argp ← emitReg fun r => .gep r .paramArgv i
      let arg ← emitReg fun r => .load r argp
      emit (.store arg var)
      codegenArgs (i + 1) params

/-- A test on the false instance, and the jump that follows it. -/
def branchOnFalse (val : Operand) (ifFalse otherwise : Nat) : Gen Unit := do
  let falseinstance ← buildCall "pup_env_get_falseinstance" [.env]
  let cmp ← emitReg fun r => .icmpEq r val falseinstance
  emit (.cond cmp ifFalse otherwise)

/-- The context in which a method is generated. -/
def CodegenContext.inMethod (g : CodegenContext) : CodegenContext :=
  { g with
    current_method := ⟨g.functions, []⟩
    functions := g.functions + 1
    self_ref := .paramTarget }

/-- What a branch of an `if` ends with: its value is stored. -/
def leaveBranch (value : Option Operand) (result : Operand) (bkcontinue : Nat) : Gen Unit := do
  let v ← emitValue value
  emit (.store v result)
  emit (.br bkcontinue)

/-- What the body of a `while` ends with. -/
def leaveBody (value : Option Operand) (result : Operand) (bkcond : Nat) : Gen Unit := do
  let v ← emitValue value
  emit (.store v result)
  let _ ← buildCall "pup_env_safepoint" [.env]
  emit (.br bkcond)

/-- The blocks of an `if`, of which the first is jumped to. -/
def appendIf : Gen (Nat × Nat × Nat × Nat) := do
  let bkcond ← appendBlock "cond"
  emit (.br bkcond)
  let bkthen ← appendBlock "then"
  let bkelse ← appendBlock "else"
  let bkcontinue ← appendBlock "ifcontinue"
  return (bkcond, bkthen, bkelse, bkcontinue)

/-- The blocks of a `while`, of which the first is jumped to. -/
def appendWhile : Gen (Nat × Nat × Nat) := do
  let bkcond ← appendBlock "while_cond"
  emit (.br bkcond)
  let bkbody ← appendBlock "while_body"
  let bkcontinue ← appendBlock "while_continue"
  return (bkcond, bkbody, bkcontinue)

/-- `def_method`: the number of the new function. -/
def defMethod (m : Gen Unit) : Gen Nat := do
  let fn := (← get).functions
  within CodegenContext.inMethod (fun g g' =>
    { g' with current_method := g.current_method, self_ref := g.self_ref }) m
  return fn

def usingSelf {α : Type} (self : Operand) (m : Gen α) : Gen α :=
  within (fun g => { g with self_ref := self })
    (fun g g' => { g' with self_ref := g.self_ref }) m

/-- What a `ClassDef` does before its body. -/
def openClass (name : String) : Gen Operand := do
  let superclass ← buildCall "pup_env_get_classobject" [.env]
  let self_class ← buildCall "pup_class_context_from" [.env, (← get).self_ref]
  let classdef ← buildCall "pup_create_class" [.env, superclass, self_class, .str name]
  let sym ← mkSym name
  let asObject ← emitReg fun r => .bitCast r classdef
  let _ ← buildCall "pup_const_set" [.env, self_class, sym, asObject]
  return classdef

/-- What a `MethodDef` does after its method. -/
def defineMethod (name : String) (fn : Nat) : Gen Operand := do
  let sym ← mkSym name
  buildCall "pup_define_method" [(← get).self_ref, sym, .function fn]

/-- What a landing pad does before its clauses: the dwarf exception, the exception object and
its class. -/
def enterLandingpad : Gen (Operand × Operand × Operand) := do
  let dwarf_ex ← buildCall "llvm.eh.exception" []
  let _ ← buildCall "llvm.eh.selector" [dwarf_ex, .global "pup_eh_personality",
    .global "eh_catchall"]
  let excep ← buildCall "extract_exception_obj" [dwarf_ex]
  let excep_type_ptr ← emitReg fun r => .structGep r excep 0
  let excep_type ← emitReg fun r => .load r excep_type_ptr
  let excep_type_asobj ← emitReg fun r => .bitCast r excep_type
  return (dwarf_ex, excep, excep_type_asobj)

def blockNameNotMatched : Expr → String
  | .varOrInvoke (.constant name) _ _ _ => s!"rescue_type_not_{name}"
  | _ => "rescue_type_not_matched"

/-- The jumps to a rescue block, from the blocks in which the types were tested. -/
def jumpToRescue (bkrescue : Nat) : List (Nat × Operand × Nat) → Gen Unit
  | [] => return
  | (block, type_match, bknot_matched) :: type_tests => do
      positionAtEnd block
      emit (.cond type_match bkrescue bknot_matched)
      jumpToRescue bkrescue type_tests

/-- The jumps out of the rescue blocks. -/
def jumpOut (bkout : Nat) : List Nat → Gen Unit
  | [] => return
  | rescue_impl_bk :: rescue_impls => do
      positionAtEnd rescue_impl_bk
      emit (.br bkout)
      jumpOut bkout rescue_impls

/-- What the body of a `begin` ends with. -/
def storeValue (value : Option Operand) (result : Operand) : Gen Unit := do
  let v ← emitValue value
  emit (.store v result)

/-- What a landing pad does after its clauses. -/
def leaveLandingpad (dwarf_ex : Operand) : Gen Unit := do
  let _ ← buildCall "pup_rethrow_uncaught_exception" [dwarf_ex]
  emit (.ret .null)

/-- What a `begin` does after its landing pad: its body and its clauses are left. -/
def leaveBegin (begin_block : Nat) (rescue_impls : List Nat) (result : Operand) :
    Gen Operand := do
  let bkout ← appendBlock "after_beginblock"
  jumpOut bkout rescue_impls
  positionAtEnd begin_block
  emit (.br bkout)
  positionAtEnd bkout
  emitReg fun r => .load r result

/-! ### The classes -/

mutual

def codegenExpr : Expr → Gen Operand
  | .assign (.name name) _ right => do
      let lhs ← getOrCreateLocal name
      let rhs ← codegenExpr right
      emit (.store rhs lhs)
      return rhs
  | .assign (.instVar name) _ right => do
      let rhs ← codegenExpr right
      let sym ← mkSym name
      let _ ← buildCall "pup_iv_set" [.env, (← get).self_ref, sym, rhs]
      return rhs
  | .varOrInvoke name args _ receiver => do
      if isConstAccess name args receiver then constAccess name.text
      else if ← isLocal name.text args receiver then localAccess name.text
      else do
        let r ← codegenReceiver receiver
        let arg_list ← codegenArgList args
        buildMethodInvocation r name.text arg_list
  | .instVar name => do
      let sym ← mkSym name
      buildCall "pup_iv_get" [(← get).self_ref, sym]
  | .binary class_ left op right => do
      let lhs ← codegenExpr left
      let rhs ← codegenExpr right
      codegenBinary class_ op lhs rhs
  | .string source => buildCall "pup_string_new_cstr" [.env, .str (stringValue source)]
  | .int source => buildCall "pup_fixnum_create" [.env, .int (toI source)]
  | .bool true => buildCall "pup_env_get_trueinstance" [.env]
  | .bool false => buildCall "pup_env_get_falseinstance" [.env]
  | .selfExpr => return (← get).self_ref

def codegenReceiver : Option Expr → Gen Operand
  | some receiver => codegenExpr receiver
  | none => return (← get).self_ref

def codegenArgList : Option (List Expr) → Gen (List Operand)
  | some args => codegenExprs args
  | none => return []

def codegenExprs : List Expr → Gen (List Operand)
  | [] => return []
  | e :: es => do
      let v ← codegenExpr e
      let vs ← codegenExprs es
      return v :: vs

end

/-- The tests of a clause: the block of each, its outcome and the block where it fails. -/
def codegenTypes (excep_type_asobj : Operand) : List Expr → Gen (List (Nat × Operand × Nat))
  | [] => return []
  | ex_type :: types => do
      let expected_type ← codegenExpr ex_type
      let type_match ← buildCall "pup_is_descendant_or_same" [expected_type, excep_type_asobj]
      let bknot_matched ← appendBlock (blockNameNotMatched ex_type)
      let block := (← get).build
      positionAtEnd bknot_matched
      let type_tests ← codegenTypes excep_type_asobj types
      return (block, type_match, bknot_matched) :: type_tests

/-- The types that a clause without any has. -/
def defaultTypes : List Expr := [.varOrInvoke (.constant "RuntimeError") none none none]

/-- What a clause does before its statements: its tests and the store of the exception.  The
block of the clause, and the block after its tests. -/
def enterRescue (types : List Expr) (var_name : Option String)
    (excep excep_type_asobj : Operand) : Gen (Nat × Nat) := do
  let type_tests ← codegenTypes excep_type_asobj types
  let next_rescue_block := (← get).build
  let bkrescue ← appendBlock "rescue_impl"
  jumpToRescue bkrescue type_tests
  positionAtEnd bkrescue
  match var_name with
  | some var_name => do
      let var ← getOrCreateLocal var_name
      emit (.store excep var)
  | none => pure ()
  return (bkrescue, next_rescue_block)

mutual

def codegenStmt : Stmt → Gen Operand
  | .expr e => codegenExpr e
  | .ifStmt cond ifbk elsebk => do
      let result ← allocaInEntry
      let (bkcond, bkthen, bkelse, bkcontinue) ← appendIf
      withBuilderAtEnd bkcond do
        let val ← codegenExpr cond
        branchOnFalse val bkelse bkthen
      withBuilderAtEnd bkthen do
        leaveBranch (← codegenStmts ifbk) result bkcontinue
      withBuilderAtEnd bkelse do
        leaveBranch (← codegenElse elsebk) result bkcontinue
      positionAtEnd bkcontinue
      emitReg fun r => .load r result
  | .whileStmt cond statements => do
      let result ← allocaInEntry
      let (bkcond, bkbody, bkcontinue) ← appendWhile
      withBuilderAtEnd bkcond do
        let val ← codegenExpr cond
        branchOnFalse val bkcontinue bkbody
      withBuilderAtEnd bkbody do
        leaveBody (← codegenStmts statements) result bkcond
      positionAtEnd bkcontinue
      emitReg fun r => .load r result
  | .beginStmt _ [] _ _ => throw .nilGiven
  | .beginStmt beginbk (rescuebk :: rescuebks) _ _ => do
      let result ← allocaInEntry
      let landingpad ← appendBlock "landingpad"
      ehBegin (some landingpad) do
        storeValue (← codegenStmts beginbk) result
      let begin_block := (← get).build
      let rescue_impls ← withBuilderAtEnd landingpad do
        let (dwarf_ex, excep, excep_type_asobj) ← enterLandingpad
        let rescue_impls ← codegenRescues (rescuebk :: rescuebks) result excep excep_type_asobj
        leaveLandingpad dwarf_ex
        return rescue_impls
      leaveBegin begin_block rescue_impls result
  | .classDef _ (some _) _ => throw (.raised "TODO: implement lookup of superclass by name")
  | .classDef name none body => do
      let classdef ← openClass name
      usingSelf classdef (codegenBody body)
      return classdef
  | .methodDef name params body => do
      let fn ← defMethod do
        let block ← appendBlock ""
        withBuilderAtEnd block do
          codegenMethodBody params body
      defineMethod name fn

def codegenStmts : List Stmt → Gen (Option Operand)
  | [] => return none
  | [s] => do return some (← codegenStmt s)
  | s :: ss => do
      let _ ← codegenStmt s
      codegenStmts ss

/-- The else branch of an `if`. -/
def codegenElse : Option (List Stmt) → Gen (Option Operand)
  | none => throw (.raised "write code to make the 'result' of the if-stmt be nil")
  | some elsebk => codegenStmts elsebk

/-- The body of a class. -/
def codegenBody : Option (List Stmt) → Gen Unit
  | none => throw (.noMethod "codegen")
  | some body => do
      let _ ← codegenStmts body

/-- The body of a method. -/
def codegenMethodBody : Option (List Param) → Option (List Stmt) → Gen Unit
  | _, none => emit (.ret .null)
  | params, some body => do
      codegenArgs 0 (params.getD [])
      let v ← emitValue (← codegenStmts body)
      emit (.ret v)

/-- The clauses of a `begin`: their blocks. -/
def codegenRescues : List RescueBlock → Operand → Operand → Operand → Gen (List Nat)
  | [], _, _, _ => return []
  | .mk types var_name statements :: rescuebks, result, excep, excep_type_asobj => do
      let (bkrescue, next_rescue_block) ←
        enterRescue (types.getD defaultTypes) var_name excep excep_type_asobj
      storeValue (← codegenStmts statements) result
      positionAtEnd next_rescue_block
      let rescue_impls ← codegenRescues rescuebks result excep excep_type_asobj
      return bkrescue :: rescue_impls

end

/-- `Unit#codegen`. -/
def codegenUnit (stmts : List Stmt) : Gen Nat :=
  defMethod do
    let entry ← entryBlockBuilder
    let body ← appendBlock "body"
    withBuilderAtEnd body do
      let v ← emitValue (← codegenStmts stmts)
      emit (.ret v)
    emitTo entry (.br body)

/-- The context that `pup.rb` begins with. -/
def CodegenContext.initial : CodegenContext where
  blocks := []
  functions := 0
  next := 0
  build := 0
  self_ref := .null
  current_method := ⟨0, []⟩
  landingpad := none

/-- The context after the code of a program has been generated. -/
def generate (stmts : List Stmt) : Except Error CodegenContext :=
  (codegenUnit stmts CodegenContext.initial).map Prod.snd

end Pup.Codegen
