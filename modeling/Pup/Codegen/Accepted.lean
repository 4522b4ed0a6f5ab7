/-
For which trees code is generated.

`Decides m b` says that a piece of the generator succeeds in every context if `b` holds and in
none if it does not.  The pieces below the classes always succeed, and the classes are
followed one after the other: what a class needs of its children is in `hasCodeExpr` and the
definitions below it, which know nothing of contexts.  The only piece that looks at its
context is a local, which is read exactly where it is there.
-/
import Pup.Codegen.Operators

namespace Pup.Codegen

open Parse

variable {α β : Type} {g g' : CodegenContext}

/-! ### The trees that have code -/

mutual

def hasCodeExpr : Expr → Bool
  | .assign _ _ right => hasCodeExpr right
  | .varOrInvoke _ args _ receiver => hasCodeReceiver receiver && hasCodeArgs args
  | .binary class_ left op right =>
      hasCodeExpr left && (hasCodeExpr right && (operatorMethod class_ op).isSome)
  | .instVar _ => true
  | .string _ => true
  | .int _ => true
  | .bool _ => true
  | .selfExpr => true

def hasCodeReceiver : Option Expr → Bool
  | some receiver => hasCodeExpr receiver
  | none => true

def hasCodeArgs : Option (List Expr) → Bool
  | some args => hasCodeExprs args
  | none => true

def hasCodeExprs : List Expr → Bool
  | [] => true
  | e :: es => hasCodeExpr e && hasCodeExprs es

end

mutual

/-- An `if` needs an `else`, a `begin` needs a `rescue`, and a class needs a body and no
superclass. -/
def hasCodeStmt : Stmt → Bool
  | .expr e => hasCodeExpr e
  | .ifStmt cond ifbk elsebk => hasCodeExpr cond && (hasValue ifbk && hasCodeElse elsebk)
  | .whileStmt cond statements => hasCodeExpr cond && hasValue statements
  | .beginStmt _ [] _ _ => false
  | .beginStmt beginbk (rescuebk :: rescuebks) _ _ =>
      hasValue beginbk && hasCodeRescues (rescuebk :: rescuebks)
  | .classDef _ (some _) _ => false
  | .classDef _ none body => hasCodeBody body
  | .methodDef _ _ body => hasCodeMethodBody body

def hasCodeStmts : List Stmt → Bool
  | [] => true
  | s :: ss => hasCodeStmt s && hasCodeStmts ss

/-- Statements whose value is used: there is at least one. -/
def hasValue : List Stmt → Bool
  | [] => false
  | s :: ss => hasCodeStmt s && hasCodeStmts ss

def hasCodeElse : Option (List Stmt) → Bool
  | none => false
  | some elsebk => hasValue elsebk

def hasCodeBody : Option (List Stmt) → Bool
  | none => false
  | some body => hasCodeStmts body

def hasCodeMethodBody : Option (List Stmt) → Bool
  | none => true
  | some body => hasValue body

def hasCodeRescues : List RescueBlock → Bool
  | [] => true
  | .mk types _ statements :: rescuebks =>
      hasCodeExprs (types.getD defaultTypes) && (hasValue statements && hasCodeRescues rescuebks)

end

/-! ### Pieces that are decided -/

/-- Whether a piece of the generator succeeds does not depend on the context. -/
def Decides (m : Gen α) (b : Bool) : Prop := ∀ g, (∃ a g', m g = .ok (a, g')) ↔ b = true

theorem Succeeds.decides {m : Gen α} (h : Succeeds m) : Decides m true :=
  fun g => ⟨fun _ => rfl, fun _ => h g⟩

theorem decides_throw (e : Error) : Decides (throw e : Gen α) false := by
  intro g
  constructor
  · rintro ⟨a, g', h⟩
    exact absurd h throw_ok
  · intro h
    cases h

/-- What follows is decided for the values that the first piece can have. -/
theorem Decides.bind_of {m : Gen α} {f : α → Gen β} {b b' : Bool} {P : α → Prop}
    (hm : Decides m b) (hP : ∀ g a g', m g = .ok (a, g') → P a)
    (hf : ∀ a, P a → Decides (f a) b') : Decides (m >>= f) (b && b') := by
  intro g
  constructor
  · rintro ⟨v, g', h⟩
    obtain ⟨a, g₁, ha, hv⟩ := bind_ok.mp h
    have hb := (hm g).mp ⟨a, g₁, ha⟩
    have hb' := (hf a (hP g a g₁ ha) g₁).mp ⟨v, g', hv⟩
    rw [hb, hb']
    rfl
  · intro h
    obtain ⟨hb, hb'⟩ := Bool.and_eq_true_iff.mp h
    obtain ⟨a, g₁, ha⟩ := (hm g).mpr hb
    obtain ⟨v, g', hv⟩ := (hf a (hP g a g₁ ha) g₁).mpr hb'
    exact ⟨v, g', bind_ok.mpr ⟨a, g₁, ha, hv⟩⟩

theorem Decides.bind {m : Gen α} {f : α → Gen β} {b b' : Bool} (hm : Decides m b)
    (hf : ∀ a, Decides (f a) b') : Decides (m >>= f) (b && b') :=
  hm.bind_of (P := fun _ => True) (fun _ _ _ _ => trivial) fun a _ => hf a

/-- A piece that always succeeds decides nothing. -/
theorem Succeeds.then {m : Gen α} {f : α → Gen β} {b : Bool} (hm : Succeeds m)
    (hf : ∀ a, Decides (f a) b) : Decides (m >>= f) b :=
  (Bool.true_and b) ▸ hm.decides.bind hf

theorem Decides.thenSucceeds {m : Gen α} {f : α → Gen β} {b : Bool} (hm : Decides m b)
    (hf : ∀ a, Succeeds (f a)) : Decides (m >>= f) b :=
  (Bool.and_true b) ▸ hm.bind fun a => (hf a).decides

/-- The context that a piece is run in and left in makes no difference. -/
theorem Decides.within {m : Gen α} {b : Bool} (hm : Decides m b)
    (enter : CodegenContext → CodegenContext)
    (leave : CodegenContext → CodegenContext → CodegenContext) :
    Decides (within enter leave m) b := by
  intro g
  rw [← hm (enter g)]
  constructor
  · rintro ⟨a, g', h⟩
    obtain ⟨g₁, h₁, -⟩ := within_ok.mp h
    exact ⟨a, g₁, h₁⟩
  · rintro ⟨a, g₁, h⟩
    exact ⟨a, _, within_ok.mpr ⟨g₁, h, rfl⟩⟩

theorem decides_emitValue (value : Option Operand) : Decides (emitValue value) value.isSome := by
  cases value with
  | none => exact decides_throw _
  | some v => exact (succeeds_pure v).decides

/-! ### The pieces below the classes -/

theorem succeeds_get : Succeeds (get : Gen CodegenContext) := fun g => ⟨g, g, rfl⟩

theorem succeeds_emit (i : Instr) : Succeeds (emit i) := fun _ => ⟨_, _, rfl⟩

theorem succeeds_buildCall (fn : String) (args : List Operand) : Succeeds (buildCall fn args) :=
  succeeds_emitReg _

theorem succeeds_appendBlock (name : String) : Succeeds (appendBlock name) :=
  fun _ => ⟨_, _, rfl⟩

theorem succeeds_positionAtEnd (b : Nat) : Succeeds (positionAtEnd b) := fun _ => ⟨_, _, rfl⟩

theorem succeeds_emitRegAt (b : Nat) (i : Nat → Instr) : Succeeds (emitRegAt b i) :=
  fun _ => ⟨_, _, rfl⟩

theorem succeeds_allocaInEntry : Succeeds allocaInEntry := by
  unfold allocaInEntry
  refine succeeds_entryBlockBuilder.bind fun e => ?_
  exact (succeeds_emitRegAt e _).bind fun r => succeeds_pure _

theorem succeeds_createLocal (name : String) : Succeeds (createLocal name) := by
  unfold createLocal
  refine succeeds_entryBlockBuilder.bind fun e => ?_
  refine (succeeds_emitRegAt e _).bind fun r => ?_
  refine (succeeds_emitRegAt e _).bind fun cast => ?_
  refine (succeeds_emitRegAt e _).bind fun _ => ?_
  exact Succeeds.bind (fun _ => ⟨_, _, rfl⟩) fun _ => succeeds_pure _

theorem succeeds_getOrCreateLocal (name : String) : Succeeds (getOrCreateLocal name) := by
  unfold getOrCreateLocal
  refine Succeeds.bind (fun _ => ⟨_, _, rfl⟩) fun localSlot => ?_
  cases localSlot with
  | none => exact succeeds_createLocal name
  | some localSlot => exact succeeds_pure _

theorem succeeds_constAccess (name : String) : Succeeds (constAccess name) := by
  unfold constAccess
  refine succeeds_get.bind fun g => ?_
  refine (succeeds_buildCall _ _).bind fun self_class => ?_
  exact (succeeds_buildCall _ _).bind fun sym => succeeds_buildCall _ _

theorem succeeds_codegenArgs (i : Nat) (params : List Param) :
    Succeeds (codegenArgs i params) := by
  induction params generalizing i with
  | nil => exact succeeds_pure ()
  | cons param params ih =>
      obtain ⟨name, init⟩ := param
      unfold codegenArgs
      refine (succeeds_getOrCreateLocal name).bind fun var => ?_
      refine (succeeds_emitReg _).bind fun argp => ?_
      refine (succeeds_emitReg _).bind fun arg => ?_
      exact (succeeds_emit _).bind fun _ => ih (i + 1)

theorem succeeds_branchOnFalse (val : Operand) (ifFalse otherwise : Nat) :
    Succeeds (branchOnFalse val ifFalse otherwise) := by
  unfold branchOnFalse
  refine (succeeds_buildCall _ _).bind fun falseinstance => ?_
  exact (succeeds_emitReg _).bind fun cmp => succeeds_emit _

theorem succeeds_appendIf : Succeeds appendIf := by
  unfold appendIf
  refine (succeeds_appendBlock _).bind fun bkcond => ?_
  refine (succeeds_emit _).bind fun _ => ?_
  refine (succeeds_appendBlock _).bind fun bkthen => ?_
  refine (succeeds_appendBlock _).bind fun bkelse => ?_
  exact (succeeds_appendBlock _).bind fun bkcontinue => succeeds_pure _

theorem succeeds_appendWhile : Succeeds appendWhile := by
  unfold appendWhile
  refine (succeeds_appendBlock _).bind fun bkcond => ?_
  refine (succeeds_emit _).bind fun _ => ?_
  refine (succeeds_appendBlock _).bind fun bkbody => ?_
  exact (succeeds_appendBlock _).bind fun bkcontinue => succeeds_pure _

theorem succeeds_openClass (name : String) : Succeeds (openClass name) := by
  unfold openClass
  refine (succeeds_buildCall _ _).bind fun superclass => ?_
  refine succeeds_get.bind fun g => ?_
  refine (succeeds_buildCall _ _).bind fun self_class => ?_
  refine (succeeds_buildCall _ _).bind fun classdef => ?_
  refine (succeeds_buildCall _ _).bind fun sym => ?_
  refine (succeeds_emitReg _).bind fun asObject => ?_
  exact (succeeds_buildCall _ _).bind fun _ => succeeds_pure _

theorem succeeds_defineMethod (name : String) (fn : Nat) : Succeeds (defineMethod name fn) := by
  unfold defineMethod
  refine (succeeds_buildCall _ _).bind fun sym => ?_
  exact succeeds_get.bind fun g => succeeds_buildCall _ _

theorem succeeds_enterLandingpad : Succeeds enterLandingpad := by
  unfold enterLandingpad
  refine (succeeds_buildCall _ _).bind fun dwarf_ex => ?_
  refine (succeeds_buildCall _ _).bind fun _ => ?_
  refine (succeeds_buildCall _ _).bind fun excep => ?_
  refine (succeeds_emitReg _).bind fun excep_type_ptr => ?_
  refine (succeeds_emitReg _).bind fun excep_type => ?_
  exact (succeeds_emitReg _).bind fun excep_type_asobj => succeeds_pure _

theorem succeeds_leaveLandingpad (dwarf_ex : Operand) : Succeeds (leaveLandingpad dwarf_ex) := by
  unfold leaveLandingpad
  exact (succeeds_buildCall _ _).bind fun _ => succeeds_emit _

theorem succeeds_jumpToRescue (bkrescue : Nat) (type_tests : List (Nat × Operand × Nat)) :
    Succeeds (jumpToRescue bkrescue type_tests) := by
  induction type_tests with
  | nil => exact succeeds_pure ()
  | cons test type_tests ih =>
      obtain ⟨block, type_match, bknot_matched⟩ := test
      unfold jumpToRescue
      refine (succeeds_positionAtEnd block).bind fun _ => ?_
      exact (succeeds_emit _).bind fun _ => ih

theorem succeeds_jumpOut (bkout : Nat) (rescue_impls : List Nat) :
    Succeeds (jumpOut bkout rescue_impls) := by
  induction rescue_impls with
  | nil => exact succeeds_pure ()
  | cons rescue_impl_bk rescue_impls ih =>
      unfold jumpOut
      refine (succeeds_positionAtEnd rescue_impl_bk).bind fun _ => ?_
      exact (succeeds_emit _).bind fun _ => ih

theorem succeeds_leaveBegin (begin_block : Nat) (rescue_impls : List Nat) (result : Operand) :
    Succeeds (leaveBegin begin_block rescue_impls result) := by
  unfold leaveBegin
  refine (succeeds_appendBlock _).bind fun bkout => ?_
  refine (succeeds_jumpOut bkout rescue_impls).bind fun _ => ?_
  refine (succeeds_positionAtEnd begin_block).bind fun _ => ?_
  refine (succeeds_emit _).bind fun _ => ?_
  exact (succeeds_positionAtEnd bkout).bind fun _ => succeeds_emitReg _

theorem decides_leaveBranch (value : Option Operand) (result : Operand) (bkcontinue : Nat) :
    Decides (leaveBranch value result bkcontinue) value.isSome := by
  unfold leaveBranch
  refine (decides_emitValue value).thenSucceeds fun v => ?_
  exact (succeeds_emit _).bind fun _ => succeeds_emit _

theorem decides_leaveBody (value : Option Operand) (result : Operand) (bkcond : Nat) :
    Decides (leaveBody value result bkcond) value.isSome := by
  unfold leaveBody
  refine (decides_emitValue value).thenSucceeds fun v => ?_
  refine (succeeds_emit _).bind fun _ => ?_
  exact (succeeds_buildCall _ _).bind fun _ => succeeds_emit _

theorem decides_storeValue (value : Option Operand) (result : Operand) :
    Decides (storeValue value result) value.isSome := by
  unfold storeValue
  exact (decides_emitValue value).thenSucceeds fun v => succeeds_emit _

/-! ### Expressions -/

theorem decides_codegenBinary (class_ : BinaryClass) (op : String) (lhs rhs : Operand) :
    Decides (codegenBinary class_ op lhs rhs) (operatorMethod class_ op).isSome := by
  unfold codegenBinary
  cases operatorMethod class_ op with
  | none => exact decides_throw _
  | some name => exact (succeeds_buildMethodInvocation lhs name [rhs]).decides

/-- A local is read only where it is there, so that only the invocation is left to decide. -/
theorem Decides.orLocal {name : String} {args : Option (List Expr)} {receiver : Option Expr}
    {m : Gen Operand} {b : Bool} (hm : Decides m b)
    (hlocal : args = none → receiver = none → b = true) :
    Decides (do if ← isLocal name args receiver then localAccess name else m) b := by
  intro g
  let here := args.isNone && receiver.isNone && (g.current_method.locals.lookup name).isSome
  show (∃ a g', (if here then localAccess name else m : Gen Operand) g = .ok (a, g')) ↔ _
  cases hcase : here with
  | false => exact hm g
  | true =>
      obtain ⟨hnone, hsome⟩ := Bool.and_eq_true_iff.mp hcase
      obtain ⟨hargs, hreceiver⟩ := Bool.and_eq_true_iff.mp hnone
      obtain ⟨r, hr⟩ := Option.isSome_iff_exists.mp hsome
      refine ⟨fun _ => hlocal (Option.isNone_iff_eq_none.mp hargs)
        (Option.isNone_iff_eq_none.mp hreceiver), fun _ => ?_⟩
      refine ⟨.reg g.next, g.emitNew g.build fun r' => .load r' (.reg r), bind_ok.mpr ?_⟩
      refine ⟨some (.reg r), g, ?_, emitReg_ok.mpr ⟨rfl, rfl⟩⟩
      rw [getLocal, hr]
      rfl

theorem none_of_isConstAccess {name : NamedValue} {args : Option (List Expr)}
    {receiver : Option Expr} (h : isConstAccess name args receiver = true) :
    args = none ∧ receiver = none := by
  unfold isConstAccess at h
  split at h
  · exact ⟨rfl, rfl⟩
  · cases h

mutual

/-- Code for an expression is generated exactly if it has some. -/
theorem decides_codegenExpr : (e : Expr) → Decides (codegenExpr e) (hasCodeExpr e)
  | .assign (.name name) _ right => by
      rw [codegenExpr, hasCodeExpr]
      refine (succeeds_getOrCreateLocal name).then fun lhs => ?_
      refine (decides_codegenExpr right).thenSucceeds fun rhs => ?_
      exact (succeeds_emit _).bind fun _ => succeeds_pure rhs
  | .assign (.instVar name) _ right => by
      rw [codegenExpr, hasCodeExpr]
      refine (decides_codegenExpr right).thenSucceeds fun rhs => ?_
      refine (succeeds_buildCall _ _).bind fun sym => ?_
      refine succeeds_get.bind fun g => ?_
      exact (succeeds_buildCall _ _).bind fun _ => succeeds_pure rhs
  | .varOrInvoke name args block receiver => by
      rw [codegenExpr, hasCodeExpr]
      have hinvoke : Decides (do
          let r ← codegenReceiver receiver
          let arg_list ← codegenArgList args
          buildMethodInvocation r name.text arg_list)
          (hasCodeReceiver receiver && hasCodeArgs args) := by
        refine (decides_codegenReceiver receiver).bind fun r => ?_
        exact (decides_codegenArgList args).thenSucceeds fun arg_list =>
          succeeds_buildMethodInvocation r name.text arg_list
      by_cases hconst : isConstAccess name args receiver = true
      · obtain ⟨hargs, hreceiver⟩ := none_of_isConstAccess hconst
        rw [if_pos hconst, hargs, hreceiver]
        exact (succeeds_constAccess _).decides
      · rw [if_neg hconst]
        refine hinvoke.orLocal ?_
        rintro rfl rfl
        rfl
  | .instVar name => by
      rw [codegenExpr, hasCodeExpr]
      refine ((succeeds_buildCall _ _).bind fun sym => ?_).decides
      exact succeeds_get.bind fun g => succeeds_buildCall _ _
  | .binary class_ left op right => by
      rw [codegenExpr, hasCodeExpr]
      refine (decides_codegenExpr left).bind fun lhs => ?_
      refine (decides_codegenExpr right).bind fun rhs => ?_
      exact decides_codegenBinary class_ op lhs rhs
  | .string source => by
      rw [codegenExpr, hasCodeExpr]
      exact (succeeds_buildCall _ _).decides
  | .int source => by
      rw [codegenExpr, hasCodeExpr]
      exact (succeeds_buildCall _ _).decides
  | .bool true => by
      rw [codegenExpr, hasCodeExpr]
      exact (succeeds_buildCall _ _).decides
  | .bool false => by
      rw [codegenExpr, hasCodeExpr]
      exact (succeeds_buildCall _ _).decides
  | .selfExpr => by
      rw [codegenExpr, hasCodeExpr]
      exact (succeeds_get.bind fun g => succeeds_pure g.self_ref).decides

theorem decides_codegenReceiver :
    (receiver : Option Expr) → Decides (codegenReceiver receiver) (hasCodeReceiver receiver)
  | some receiver => by
      rw [codegenReceiver, hasCodeReceiver]
      exact decides_codegenExpr receiver
  | none => by
      rw [codegenReceiver, hasCodeReceiver]
      exact (succeeds_get.bind fun g => succeeds_pure g.self_ref).decides

theorem decides_codegenArgList :
    (args : Option (List Expr)) → Decides (codegenArgList args) (hasCodeArgs args)
  | some args => by
      rw [codegenArgList, hasCodeArgs]
      exact decides_codegenExprs args
  | none => by
      rw [codegenArgList, hasCodeArgs]
      exact (succeeds_pure _).decides

theorem decides_codegenExprs : (es : List Expr) → Decides (codegenExprs es) (hasCodeExprs es)
  | [] => by
      rw [codegenExprs, hasCodeExprs]
      exact (succeeds_pure _).decides
  | e :: es => by
      rw [codegenExprs, hasCodeExprs]
      refine (decides_codegenExpr e).bind fun v => ?_
      exact (decides_codegenExprs es).thenSucceeds fun vs => succeeds_pure _

end

/-! ### Statements -/

theorem decides_codegenTypes (asobj : Operand) (types : List Expr) :
    Decides (codegenTypes asobj types) (hasCodeExprs types) := by
  induction types with
  | nil =>
      rw [codegenTypes, hasCodeExprs]
      exact (succeeds_pure _).decides
  | cons ex_type types ih =>
      rw [codegenTypes, hasCodeExprs]
      refine (decides_codegenExpr ex_type).bind fun expected_type => ?_
      refine (succeeds_buildCall _ _).then fun type_match => ?_
      refine (succeeds_appendBlock _).then fun bknot_matched => ?_
      refine succeeds_get.then fun g => ?_
      refine (succeeds_positionAtEnd _).then fun _ => ?_
      exact ih.thenSucceeds fun type_tests => succeeds_pure _

theorem decides_enterRescue (types : List Expr) (var_name : Option String)
    (excep asobj : Operand) :
    Decides (enterRescue types var_name excep asobj) (hasCodeExprs types) := by
  unfold enterRescue
  refine (decides_codegenTypes asobj types).thenSucceeds fun type_tests => ?_
  refine succeeds_get.bind fun g => ?_
  refine (succeeds_appendBlock _).bind fun bkrescue => ?_
  refine (succeeds_jumpToRescue bkrescue type_tests).bind fun _ => ?_
  refine (succeeds_positionAtEnd bkrescue).bind fun _ => ?_
  cases var_name with
  | none => exact succeeds_pure _
  | some var_name =>
      refine (succeeds_getOrCreateLocal var_name).bind fun var => ?_
      exact (succeeds_emit _).bind fun _ => succeeds_pure _

theorem hasValue_eq (ss : List Stmt) : (hasCodeStmts ss && !ss.isEmpty) = hasValue ss := by
  cases ss with
  | nil => rfl
  | cons s ss => rw [hasCodeStmts, hasValue, List.isEmpty_cons, Bool.not_false, Bool.and_true]

/-- Statements have a value unless there are none. -/
theorem isSome_of_codegenStmts {ss : List Stmt} {value : Option Operand}
    (hrun : codegenStmts ss g = .ok (value, g')) : value.isSome = !ss.isEmpty := by
  induction ss generalizing g with
  | nil =>
      rw [codegenStmts, pure_ok] at hrun
      rw [hrun.1]
      rfl
  | cons s ss ih =>
      cases ss with
      | nil =>
          obtain ⟨v, -, rfl⟩ := codegenStmts_singleton_ok.mp hrun
          rfl
      | cons s' ss =>
          obtain ⟨v, g₁, -, hrest⟩ := codegenStmts_cons_ok.mp hrun
          exact ih hrest

/-- What uses the value of statements is decided by them. -/
theorem Decides.value {ss : List Stmt} {f : Option Operand → Gen α}
    (hss : Decides (codegenStmts ss) (hasCodeStmts ss))
    (hf : ∀ value, Decides (f value) value.isSome) :
    Decides (codegenStmts ss >>= f) (hasValue ss) := by
  rw [← hasValue_eq]
  refine hss.bind_of (P := fun value => value.isSome = !ss.isEmpty)
    (fun _ _ _ => isSome_of_codegenStmts) ?_
  intro value hvalue
  rw [← hvalue]
  exact hf value

mutual

/-- The same for a statement. -/
theorem decides_codegenStmt : (s : Stmt) → Decides (codegenStmt s) (hasCodeStmt s)
  | .expr e => by
      rw [codegenStmt, hasCodeStmt]
      exact decides_codegenExpr e
  | .ifStmt cond ifbk elsebk => by
      rw [codegenStmt, hasCodeStmt]
      refine succeeds_allocaInEntry.then fun result => ?_
      refine succeeds_appendIf.then fun bks => ?_
      obtain ⟨bkcond, bkthen, bkelse, bkcontinue⟩ := bks
      refine Decides.bind (Decides.within ?_ _ _) fun _ => ?_
      · exact (decides_codegenExpr cond).thenSucceeds fun val => succeeds_branchOnFalse val _ _
      refine Decides.bind (Decides.within ?_ _ _) fun _ => ?_
      · exact (decides_codegenStmts ifbk).value fun value => decides_leaveBranch value result _
      refine Decides.thenSucceeds (Decides.within ?_ _ _) fun _ => ?_
      · exact decides_codegenElse elsebk result bkcontinue
      · exact (succeeds_positionAtEnd _).bind fun _ => succeeds_emitReg _
  | .whileStmt cond statements => by
      rw [codegenStmt, hasCodeStmt]
      refine succeeds_allocaInEntry.then fun result => ?_
      refine succeeds_appendWhile.then fun bks => ?_
      obtain ⟨bkcond, bkbody, bkcontinue⟩ := bks
      refine Decides.bind (Decides.within ?_ _ _) fun _ => ?_
      · exact (decides_codegenExpr cond).thenSucceeds fun val => succeeds_branchOnFalse val _ _
      refine Decides.thenSucceeds (Decides.within ?_ _ _) fun _ => ?_
      · exact (decides_codegenStmts statements).value fun value =>
          decides_leaveBody value result _
      · exact (succeeds_positionAtEnd _).bind fun _ => succeeds_emitReg _
  | .beginStmt _ [] _ _ => by
      rw [codegenStmt, hasCodeStmt]
      exact decides_throw _
  | .beginStmt beginbk (rescuebk :: rescuebks) _ _ => by
      rw [codegenStmt, hasCodeStmt]
      refine succeeds_allocaInEntry.then fun result => ?_
      refine (succeeds_appendBlock _).then fun landingpad => ?_
      refine Decides.bind (Decides.within ?_ _ _) fun _ => ?_
      · exact (decides_codegenStmts beginbk).value fun value => decides_storeValue value result
      refine succeeds_get.then fun g => ?_
      refine Decides.thenSucceeds (Decides.within ?_ _ _) fun rescue_impls =>
        succeeds_leaveBegin _ rescue_impls result
      refine succeeds_enterLandingpad.then fun vs => ?_
      obtain ⟨dwarf_ex, excep, asobj⟩ := vs
      refine (decides_codegenRescues (rescuebk :: rescuebks) result excep asobj).thenSucceeds
        fun rescue_impls => ?_
      exact (succeeds_leaveLandingpad _).bind fun _ => succeeds_pure _
  | .classDef _ (some _) _ => by
      rw [codegenStmt, hasCodeStmt]
      exact decides_throw _
  | .classDef name none body => by
      rw [codegenStmt, hasCodeStmt]
      refine (succeeds_openClass name).then fun classdef => ?_
      exact ((decides_codegenBody body).within _ _).thenSucceeds fun _ => succeeds_pure classdef
  | .methodDef name params body => by
      rw [codegenStmt, hasCodeStmt]
      refine Decides.thenSucceeds ?_ fun fn => succeeds_defineMethod name fn
      refine succeeds_get.then fun g => ?_
      refine Decides.thenSucceeds (Decides.within ?_ _ _) fun _ => succeeds_pure _
      refine (succeeds_appendBlock _).then fun block => ?_
      exact (decides_codegenMethodBody params body).within _ _

theorem decides_codegenStmts : (ss : List Stmt) → Decides (codegenStmts ss) (hasCodeStmts ss)
  | [] => by
      rw [codegenStmts, hasCodeStmts]
      exact (succeeds_pure _).decides
  | [s] => by
      rw [codegenStmts, hasCodeStmts, hasCodeStmts, Bool.and_true]
      exact (decides_codegenStmt s).thenSucceeds fun v => succeeds_pure _
  | s :: s' :: ss => by
      rw [codegenStmts, hasCodeStmts]
      · exact (decides_codegenStmt s).bind fun _ => decides_codegenStmts (s' :: ss)
      · rintro ⟨⟩

theorem decides_codegenElse :
    (elsebk : Option (List Stmt)) → (result : Operand) → (bkcontinue : Nat) →
      Decides (do leaveBranch (← codegenElse elsebk) result bkcontinue) (hasCodeElse elsebk)
  | none, result, bkcontinue => by
      rw [codegenElse, hasCodeElse]
      intro g
      refine ⟨?_, fun h => by cases h⟩
      rintro ⟨a, g', h⟩
      obtain ⟨value, g₁, hthrow, -⟩ := bind_ok.mp h
      exact absurd hthrow throw_ok
  | some elsebk, result, bkcontinue => by
      rw [codegenElse, hasCodeElse]
      exact (decides_codegenStmts elsebk).value fun value =>
        decides_leaveBranch value result bkcontinue

theorem decides_codegenBody :
    (body : Option (List Stmt)) → Decides (codegenBody body) (hasCodeBody body)
  | none => by
      rw [codegenBody, hasCodeBody]
      exact decides_throw _
  | some body => by
      rw [codegenBody, hasCodeBody]
      exact (decides_codegenStmts body).thenSucceeds fun _ => succeeds_pure ()

theorem decides_codegenMethodBody (params : Option (List Param)) :
    (body : Option (List Stmt)) →
      Decides (codegenMethodBody params body) (hasCodeMethodBody body)
  | none => by
      rw [codegenMethodBody, hasCodeMethodBody]
      exact (succeeds_emit _).decides
  | some body => by
      rw [codegenMethodBody, hasCodeMethodBody]
      refine (succeeds_codegenArgs 0 _).then fun _ => ?_
      refine (decides_codegenStmts body).value fun value => ?_
      exact (decides_emitValue value).thenSucceeds fun v => succeeds_emit _

theorem decides_codegenRescues :
    (rescuebks : List RescueBlock) → (result excep asobj : Operand) →
      Decides (codegenRescues rescuebks result excep asobj) (hasCodeRescues rescuebks)
  | [], result, excep, asobj => by
      rw [codegenRescues, hasCodeRescues]
      exact (succeeds_pure _).decides
  | .mk types var_name statements :: rescuebks, result, excep, asobj => by
      rw [codegenRescues, hasCodeRescues]
      refine (decides_enterRescue _ var_name excep asobj).bind fun bks => ?_
      obtain ⟨bkrescue, next_rescue_block⟩ := bks
      have hvalue : Decides (codegenStmts statements >>= fun value => storeValue value result)
          (hasValue statements) :=
        (decides_codegenStmts statements).value fun value => decides_storeValue value result
      show Decides (codegenStmts statements >>= fun value => storeValue value result >>= _) _
      rw [← bind_assoc]
      refine hvalue.bind fun _ => ?_
      refine (succeeds_positionAtEnd next_rescue_block).then fun _ => ?_
      exact (decides_codegenRescues rescuebks result excep asobj).thenSucceeds
        fun rescue_impls => succeeds_pure _

end

/-- **Code for a program is generated exactly if its statements have a value.** -/
theorem generate_iff_hasValue (stmts : List Stmt) :
    (∃ g, generate stmts = .ok g) ↔ hasValue stmts = true := by
  have hvalue : Decides (codegenStmts stmts >>= emitValue) (hasValue stmts) :=
    (decides_codegenStmts stmts).value decides_emitValue
  rw [← hvalue .unitBody]
  constructor
  · rintro ⟨g, h⟩
    obtain ⟨v, g₁, hrun, -⟩ := generate_ok h
    exact ⟨v, g₁, bind_ok.mpr ⟨some v, g₁, hrun, emitValue_ok.mpr ⟨rfl, rfl⟩⟩⟩
  · rintro ⟨v, g₁, h⟩
    obtain ⟨value, g₂, hrun, hv⟩ := bind_ok.mp h
    obtain ⟨rfl, rfl⟩ := emitValue_ok.mp hv
    exact ⟨_, generate_of_ok hrun⟩

end Pup.Codegen
