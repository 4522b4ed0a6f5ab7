/-
Registers are numbered in order.

`Steady` lists what the generator does to its context when it matters neither where the
builder is nor which method it is in: it adds an instruction to a block, with the next register
or without one, and it makes a block.  Everything else is put together from these three, so a
property that they keep is kept by the whole generator, by induction on the tree and with one
case for each of its nodes (`Steady.generate`).  The induction is done once, for any property.

The property of this file is that a register is set by one instruction only (`Numbered`).  It
does not go through alone: that the next register is not set already needs a bound, so that
`Numbered` says as well that all registers that are set are below `next`.  `next` only grows,
and grows with every instruction that sets a register, which is all that `emitNew` has to show.
-/
import Pup.Codegen.Frames

namespace Pup.Codegen

open Parse

variable {α β : Type} {g g' : CodegenContext}

/-! ### Properties of contexts

`congr` is there for the rest of the context: the builder, the landing pad and the locals change
between the three, and a property of blocks and registers does not notice.
-/

/-- A property that all that the generator does keeps. -/
structure Steady (P : CodegenContext → Prop) : Prop where
  emitAt : ∀ {g} {b : Nat} {i : Instr}, P g → i.result = none → P (g.emitAt b i)
  emitNew : ∀ {g} {b : Nat} {i : Nat → Instr}, P g → (∀ r, (i r).result = some r) →
    P (g.emitNew b i)
  append : ∀ {g} {name : String}, P g → P (g.append name)
  congr : ∀ {g g'}, P g → g'.blocks = g.blocks → g'.next = g.next → P g'

/-- What `m` does keeps the property. -/
def Maintains (P : CodegenContext → Prop) (m : Gen α) : Prop :=
  ∀ g a g', P g → m g = .ok (a, g') → P g'

variable {P : CodegenContext → Prop}

theorem maintains_throw (e : Error) : Maintains P (throw e : Gen α) := fun _ _ _ _ h => absurd h throw_ok

theorem maintains_pure (a : α) : Maintains P (pure a : Gen α) := by
  intro g b g' hg h
  exact (pure_ok.mp h).2 ▸ hg

theorem maintains_get : Maintains P (get : Gen CodegenContext) := by
  intro g a g' hg h
  exact (get_ok.mp h).2 ▸ hg

theorem Maintains.bind {x : Gen α} {f : α → Gen β} (hx : Maintains P x) (hf : ∀ a, Maintains P (f a)) :
    Maintains P (x >>= f) := by
  intro g b g' hg h
  obtain ⟨a, g₁, h₁, h₂⟩ := bind_ok.mp h
  exact hf a g₁ b g' (hx g a g₁ hg h₁) h₂

theorem maintains_emitValue (v : Option Operand) : Maintains P (emitValue v) := by
  cases v with
  | none => exact maintains_throw _
  | some v => exact maintains_pure v

theorem maintains_getLocal (name : String) : Maintains P (getLocal name) := by
  intro g v g' hg h
  obtain ⟨-, rfl⟩ := Prod.mk.inj (Except.ok.inj h)
  exact hg

theorem maintains_isLocal (name : String) (args : Option (List Expr)) (receiver : Option Expr) :
    Maintains P (isLocal name args receiver) := by
  intro g v g' hg h
  obtain ⟨-, rfl⟩ := Prod.mk.inj (Except.ok.inj h)
  exact hg

namespace Steady

theorem emit (hP : Steady P) {i : Instr} (hi : i.result = none) : Maintains P (emit i) := by
  intro g u g' hg h
  obtain rfl := emit_ok.mp h
  exact hP.emitAt hg hi

theorem emitTo (hP : Steady P) (b : Nat) {i : Instr} (hi : i.result = none) :
    Maintains P (emitTo b i) := by
  intro g u g' hg h
  obtain rfl := emitTo_ok.mp h
  exact hP.emitAt hg hi

theorem emitRegAt (hP : Steady P) (b : Nat) {i : Nat → Instr}
    (hi : ∀ r, (i r).result = some r) : Maintains P (emitRegAt b i) := by
  intro g r g' hg h
  obtain ⟨-, rfl⟩ := emitRegAt_ok.mp h
  exact hP.emitNew hg hi

theorem emitReg (hP : Steady P) {i : Nat → Instr} (hi : ∀ r, (i r).result = some r) :
    Maintains P (emitReg i) := by
  intro g v g' hg h
  obtain ⟨-, rfl⟩ := emitReg_ok.mp h
  exact hP.emitNew hg hi

theorem buildCall (hP : Steady P) (fn : String) (args : List Operand) :
    Maintains P (buildCall fn args) :=
  hP.emitReg fun _ => rfl

theorem mkSym (hP : Steady P) (name : String) : Maintains P (mkSym name) := hP.buildCall _ _

theorem appendBlock (hP : Steady P) (name : String) : Maintains P (appendBlock name) := by
  intro g b g' hg h
  obtain ⟨-, rfl⟩ := appendBlock_ok.mp h
  exact hP.append hg

theorem positionAtEnd (hP : Steady P) (b : Nat) : Maintains P (positionAtEnd b) := by
  intro g u g' hg h
  obtain rfl := positionAtEnd_ok.mp h
  exact hP.congr hg rfl rfl

/-- Neither entering nor leaving changes the module. -/
theorem within (hP : Steady P) {enter : CodegenContext → CodegenContext}
    {leave : CodegenContext → CodegenContext → CodegenContext} {m : Gen α} (hm : Maintains P m)
    (henter : ∀ g, (enter g).blocks = g.blocks ∧ (enter g).next = g.next)
    (hleave : ∀ g g', (leave g g').blocks = g'.blocks ∧ (leave g g').next = g'.next) :
    Maintains P (within enter leave m) := by
  intro g a g' hg h
  obtain ⟨g₁, hrun, rfl⟩ := within_ok.mp h
  have hin := hP.congr hg (henter g).1 (henter g).2
  exact hP.congr (hm _ a g₁ hin hrun) (hleave g g₁).1 (hleave g g₁).2

theorem withBuilderAtEnd (hP : Steady P) (b : Nat) {m : Gen α} (hm : Maintains P m) :
    Maintains P (withBuilderAtEnd b m) :=
  hP.within hm (fun _ => ⟨rfl, rfl⟩) fun _ _ => ⟨rfl, rfl⟩

theorem ehBegin (hP : Steady P) (landingpad : Option Nat) {m : Gen α} (hm : Maintains P m) :
    Maintains P (ehBegin landingpad m) :=
  hP.within hm (fun _ => ⟨rfl, rfl⟩) fun _ _ => ⟨rfl, rfl⟩

theorem usingSelf (hP : Steady P) (self : Operand) {m : Gen α} (hm : Maintains P m) :
    Maintains P (usingSelf self m) :=
  hP.within hm (fun _ => ⟨rfl, rfl⟩) fun _ _ => ⟨rfl, rfl⟩

theorem defMethod (hP : Steady P) {m : Gen Unit} (hm : Maintains P m) : Maintains P (defMethod m) := by
  intro g fn g' hg h
  obtain ⟨-, g₁, hrun, rfl⟩ := defMethod_ok.mp h
  have hin : P g.inMethod := hP.congr hg rfl rfl
  exact hP.congr (hm _ _ g₁ hin hrun) rfl rfl

theorem entryBlockBuilder (hP : Steady P) : Maintains P entryBlockBuilder := by
  intro g b g' hg h
  unfold Codegen.entryBlockBuilder at h
  split at h
  · obtain ⟨-, rfl⟩ := Prod.mk.inj (Except.ok.inj h)
    exact hg
  · obtain ⟨-, rfl⟩ := Prod.mk.inj (Except.ok.inj h)
    exact hP.append hg

theorem allocaInEntry (hP : Steady P) : Maintains P allocaInEntry :=
  hP.entryBlockBuilder.bind fun b => (hP.emitRegAt b fun _ => rfl).bind fun _ => maintains_pure _

theorem addLocal (hP : Steady P) (name : String) (r : Nat) : Maintains P (addLocal name r) := by
  intro g u g' hg h
  obtain ⟨-, rfl⟩ := Prod.mk.inj (Except.ok.inj h)
  exact hP.congr hg rfl rfl

theorem getOrCreateLocal (hP : Steady P) (name : String) : Maintains P (getOrCreateLocal name) := by
  refine (maintains_getLocal name).bind fun found => ?_
  cases found with
  | some localSlot => exact maintains_pure _
  | none =>
      exact hP.entryBlockBuilder.bind fun b => (hP.emitRegAt b fun _ => rfl).bind fun r =>
        (hP.emitRegAt b fun _ => rfl).bind fun cast => (hP.emitRegAt b fun _ => rfl).bind fun _ =>
          (hP.addLocal name r).bind fun _ => maintains_pure _

theorem storeArgs (hP : Steady P) (argv : Operand) (args : List Operand) :
    ∀ i, Maintains P (storeArgs argv i args) := by
  induction args with
  | nil => exact fun _ => maintains_pure ()
  | cons arg args ih =>
      intro i
      exact (hP.emitReg fun _ => rfl).bind fun _ => (hP.emit rfl).bind fun _ => ih (i + 1)

theorem buildArgv (hP : Steady P) (args : List Operand) : Maintains P (buildArgv args) := by
  unfold Codegen.buildArgv
  split
  · exact maintains_pure _
  · exact hP.entryBlockBuilder.bind fun b => (hP.emitRegAt b fun _ => rfl).bind fun _ =>
      (hP.storeArgs _ _ 0).bind fun _ => maintains_pure _

theorem buildMethodInvocation (hP : Steady P) (receiver : Operand) (name : String)
    (args : List Operand) : Maintains P (buildMethodInvocation receiver name args) := by
  refine (hP.buildArgv args).bind fun argv => (hP.mkSym name).bind fun sym =>
    maintains_get.bind fun g => ?_
  cases g.landingpad with
  | some pad =>
      exact (hP.appendBlock _).bind fun _ => (hP.emitReg fun _ => rfl).bind fun _ =>
        (hP.positionAtEnd _).bind fun _ => maintains_pure _
  | none => exact hP.buildCall _ _

theorem codegenBinary (hP : Steady P) (class_ : BinaryClass) (op : String)
    (lhs rhs : Operand) : Maintains P (codegenBinary class_ op lhs rhs) := by
  unfold Codegen.codegenBinary
  split
  · exact hP.buildMethodInvocation _ _ _
  · exact maintains_throw _

theorem constAccess (hP : Steady P) (name : String) : Maintains P (constAccess name) :=
  maintains_get.bind fun _ => (hP.buildCall _ _).bind fun _ => (hP.mkSym name).bind fun _ =>
    hP.buildCall _ _

theorem localAccess (hP : Steady P) (name : String) : Maintains P (localAccess name) := by
  refine (maintains_getLocal name).bind fun found => ?_
  cases found with
  | some localSlot => exact hP.emitReg fun _ => rfl
  | none => exact maintains_throw _

mutual

theorem codegenExpr (hP : Steady P) : (e : Expr) → Maintains P (codegenExpr e)
  | .assign (.name name) _ right => by
      rw [Codegen.codegenExpr]
      exact (hP.getOrCreateLocal name).bind fun _ => (codegenExpr hP right).bind fun _ =>
        (hP.emit rfl).bind fun _ => maintains_pure _
  | .assign (.instVar name) _ right => by
      rw [Codegen.codegenExpr]
      exact (codegenExpr hP right).bind fun _ => (hP.mkSym name).bind fun _ =>
        maintains_get.bind fun _ => (hP.buildCall _ _).bind fun _ => maintains_pure _
  | .varOrInvoke name args _ receiver => by
      rw [Codegen.codegenExpr]
      have hreceiver := codegenReceiver hP receiver
      have hargs := codegenArgList hP args
      split
      · exact hP.constAccess _
      · refine (maintains_isLocal _ _ _).bind fun found => ?_
        split
        · exact hP.localAccess _
        · exact hreceiver.bind fun _ => hargs.bind fun _ => hP.buildMethodInvocation _ _ _
  | .instVar name => by
      rw [Codegen.codegenExpr]
      exact (hP.mkSym name).bind fun _ => maintains_get.bind fun _ => hP.buildCall _ _
  | .binary class_ left op right => by
      rw [Codegen.codegenExpr]
      exact (codegenExpr hP left).bind fun _ => (codegenExpr hP right).bind fun _ =>
        hP.codegenBinary _ _ _ _
  | .string source => by
      rw [Codegen.codegenExpr]
      exact hP.buildCall _ _
  | .int source => by
      rw [Codegen.codegenExpr]
      exact hP.buildCall _ _
  | .bool true => by
      rw [Codegen.codegenExpr]
      exact hP.buildCall _ _
  | .bool false => by
      rw [Codegen.codegenExpr]
      exact hP.buildCall _ _
  | .selfExpr => by
      rw [Codegen.codegenExpr]
      exact maintains_get.bind fun _ => maintains_pure _

theorem codegenReceiver (hP : Steady P) :
    (receiver : Option Expr) → Maintains P (codegenReceiver receiver)
  | some receiver => by
      rw [Codegen.codegenReceiver]
      exact codegenExpr hP receiver
  | none => by
      rw [Codegen.codegenReceiver]
      exact maintains_get.bind fun _ => maintains_pure _

theorem codegenArgList (hP : Steady P) :
    (args : Option (List Expr)) → Maintains P (codegenArgList args)
  | some args => by
      rw [Codegen.codegenArgList]
      exact codegenExprs hP args
  | none => by
      rw [Codegen.codegenArgList]
      exact maintains_pure _

theorem codegenExprs (hP : Steady P) : (es : List Expr) → Maintains P (codegenExprs es)
  | [] => by
      rw [Codegen.codegenExprs]
      exact maintains_pure _
  | e :: es => by
      rw [Codegen.codegenExprs]
      exact (codegenExpr hP e).bind fun _ => (codegenExprs hP es).bind fun _ => maintains_pure _

end

theorem codegenArgs (hP : Steady P) (params : List Param) :
    ∀ i, Maintains P (codegenArgs i params) := by
  induction params with
  | nil => exact fun _ => maintains_pure ()
  | cons param params ih =>
      intro i
      obtain ⟨name, init⟩ := param
      exact (hP.getOrCreateLocal name).bind fun _ => (hP.emitReg fun _ => rfl).bind fun _ =>
        (hP.emitReg fun _ => rfl).bind fun _ => (hP.emit rfl).bind fun _ => ih (i + 1)

theorem branchOnFalse (hP : Steady P) (val : Operand) (ifFalse otherwise : Nat) :
    Maintains P (branchOnFalse val ifFalse otherwise) :=
  (hP.buildCall _ _).bind fun _ => (hP.emitReg fun _ => rfl).bind fun _ => hP.emit rfl

theorem leaveBranch (hP : Steady P) (value : Option Operand) (result : Operand) (b : Nat) :
    Maintains P (leaveBranch value result b) :=
  (maintains_emitValue value).bind fun _ => (hP.emit rfl).bind fun _ => hP.emit rfl

theorem leaveBody (hP : Steady P) (value : Option Operand) (result : Operand) (b : Nat) :
    Maintains P (leaveBody value result b) :=
  (maintains_emitValue value).bind fun _ => (hP.emit rfl).bind fun _ => (hP.buildCall _ _).bind
    fun _ => hP.emit rfl

theorem storeValue (hP : Steady P) (value : Option Operand) (result : Operand) :
    Maintains P (storeValue value result) :=
  (maintains_emitValue value).bind fun _ => hP.emit rfl

theorem appendIf (hP : Steady P) : Maintains P appendIf :=
  (hP.appendBlock _).bind fun _ => (hP.emit rfl).bind fun _ => (hP.appendBlock _).bind fun _ =>
    (hP.appendBlock _).bind fun _ => (hP.appendBlock _).bind fun _ => maintains_pure _

theorem appendWhile (hP : Steady P) : Maintains P appendWhile :=
  (hP.appendBlock _).bind fun _ => (hP.emit rfl).bind fun _ => (hP.appendBlock _).bind fun _ =>
    (hP.appendBlock _).bind fun _ => maintains_pure _

theorem openClass (hP : Steady P) (name : String) : Maintains P (openClass name) :=
  (hP.buildCall _ _).bind fun _ => maintains_get.bind fun _ => (hP.buildCall _ _).bind fun _ =>
    (hP.buildCall _ _).bind fun _ => (hP.mkSym name).bind fun _ =>
      (hP.emitReg fun _ => rfl).bind fun _ => (hP.buildCall _ _).bind fun _ => maintains_pure _

theorem defineMethod (hP : Steady P) (name : String) (fn : Nat) :
    Maintains P (defineMethod name fn) :=
  (hP.mkSym name).bind fun _ => maintains_get.bind fun _ => hP.buildCall _ _

theorem enterLandingpad (hP : Steady P) : Maintains P enterLandingpad :=
  (hP.buildCall _ _).bind fun _ => (hP.buildCall _ _).bind fun _ => (hP.buildCall _ _).bind
    fun _ => (hP.emitReg fun _ => rfl).bind fun _ => (hP.emitReg fun _ => rfl).bind fun _ =>
      (hP.emitReg fun _ => rfl).bind fun _ => maintains_pure _

theorem leaveLandingpad (hP : Steady P) (dwarf_ex : Operand) :
    Maintains P (leaveLandingpad dwarf_ex) :=
  (hP.buildCall _ _).bind fun _ => hP.emit rfl

theorem jumpToRescue (hP : Steady P) (bkrescue : Nat) (tests : List (Nat × Operand × Nat)) :
    Maintains P (jumpToRescue bkrescue tests) := by
  induction tests with
  | nil => exact maintains_pure ()
  | cons t tests ih =>
      exact (hP.positionAtEnd _).bind fun _ => (hP.emit rfl).bind fun _ => ih

theorem jumpOut (hP : Steady P) (bkout : Nat) (impls : List Nat) :
    Maintains P (jumpOut bkout impls) := by
  induction impls with
  | nil => exact maintains_pure ()
  | cons b impls ih =>
      exact (hP.positionAtEnd _).bind fun _ => (hP.emit rfl).bind fun _ => ih

theorem leaveBegin (hP : Steady P) (begin_block : Nat) (impls : List Nat) (result : Operand) :
    Maintains P (leaveBegin begin_block impls result) :=
  (hP.appendBlock _).bind fun _ => (hP.jumpOut _ impls).bind fun _ =>
    (hP.positionAtEnd _).bind fun _ => (hP.emit rfl).bind fun _ =>
      (hP.positionAtEnd _).bind fun _ => hP.emitReg fun _ => rfl

theorem codegenTypes (hP : Steady P) (asobj : Operand) (types : List Expr) :
    Maintains P (codegenTypes asobj types) := by
  induction types with
  | nil => exact maintains_pure _
  | cons ex_type types ih =>
      exact (hP.codegenExpr ex_type).bind fun _ => (hP.buildCall _ _).bind fun _ =>
        (hP.appendBlock _).bind fun _ => maintains_get.bind fun _ => (hP.positionAtEnd _).bind
          fun _ => ih.bind fun _ => maintains_pure _

theorem enterRescue (hP : Steady P) (types : List Expr) (var_name : Option String)
    (excep asobj : Operand) : Maintains P (enterRescue types var_name excep asobj) := by
  refine (hP.codegenTypes asobj types).bind fun tests => maintains_get.bind fun _ =>
    (hP.appendBlock _).bind fun _ => (hP.jumpToRescue _ tests).bind fun _ =>
      (hP.positionAtEnd _).bind fun _ => ?_
  cases var_name with
  | some name =>
      exact (hP.getOrCreateLocal name).bind fun _ => (hP.emit rfl).bind fun _ => maintains_pure _
  | none => exact maintains_pure _

mutual

/-- **What a statement does keeps the property.** -/
theorem codegenStmt (hP : Steady P) : (s : Stmt) → Maintains P (codegenStmt s)
  | .expr e => by
      rw [Codegen.codegenStmt]
      exact hP.codegenExpr e
  | .ifStmt cond ifbk elsebk => by
      rw [Codegen.codegenStmt]
      have hif := codegenStmts hP ifbk
      have helse := codegenElse hP elsebk
      exact hP.allocaInEntry.bind fun _ => hP.appendIf.bind fun _ =>
        (hP.withBuilderAtEnd _ ((hP.codegenExpr cond).bind fun _ =>
          hP.branchOnFalse _ _ _)).bind fun _ =>
        (hP.withBuilderAtEnd _ (hif.bind fun _ => hP.leaveBranch _ _ _)).bind fun _ =>
        (hP.withBuilderAtEnd _ (helse.bind fun _ => hP.leaveBranch _ _ _)).bind fun _ =>
        (hP.positionAtEnd _).bind fun _ => hP.emitReg fun _ => rfl
  | .whileStmt cond statements => by
      rw [Codegen.codegenStmt]
      have hbody := codegenStmts hP statements
      exact hP.allocaInEntry.bind fun _ => hP.appendWhile.bind fun _ =>
        (hP.withBuilderAtEnd _ ((hP.codegenExpr cond).bind fun _ =>
          hP.branchOnFalse _ _ _)).bind fun _ =>
        (hP.withBuilderAtEnd _ (hbody.bind fun _ => hP.leaveBody _ _ _)).bind fun _ =>
        (hP.positionAtEnd _).bind fun _ => hP.emitReg fun _ => rfl
  | .beginStmt beginbk [] elsebk ensurebk => by
      rw [Codegen.codegenStmt]
      exact maintains_throw _
  | .beginStmt beginbk (rescuebk :: rescuebks) elsebk ensurebk => by
      rw [Codegen.codegenStmt]
      have hbody := codegenStmts hP beginbk
      have hrescues := codegenRescues hP (rescuebk :: rescuebks)
      exact hP.allocaInEntry.bind fun _ => (hP.appendBlock _).bind fun _ =>
        (hP.ehBegin _ (hbody.bind fun _ => hP.storeValue _ _)).bind fun _ =>
        maintains_get.bind fun _ =>
        (hP.withBuilderAtEnd _ (hP.enterLandingpad.bind fun _ => (hrescues _ _ _).bind fun _ =>
          (hP.leaveLandingpad _).bind fun _ => maintains_pure _)).bind fun _ => hP.leaveBegin _ _ _
  | .classDef name (some extends_) body => by
      rw [Codegen.codegenStmt]
      exact maintains_throw _
  | .classDef name none body => by
      rw [Codegen.codegenStmt]
      have hbody := codegenBody hP body
      exact (hP.openClass name).bind fun _ => (hP.usingSelf _ hbody).bind fun _ => maintains_pure _
  | .methodDef name params body => by
      rw [Codegen.codegenStmt]
      have hbody := codegenMethodBody hP params body
      exact (hP.defMethod ((hP.appendBlock _).bind fun _ => hP.withBuilderAtEnd _ hbody)).bind
        fun _ => hP.defineMethod _ _

theorem codegenStmts (hP : Steady P) : (ss : List Stmt) → Maintains P (codegenStmts ss)
  | [] => by
      rw [Codegen.codegenStmts]
      exact maintains_pure _
  | [s] => by
      rw [Codegen.codegenStmts]
      exact (codegenStmt hP s).bind fun _ => maintains_pure _
  | s :: s' :: ss => by
      rw [Codegen.codegenStmts]
      · exact (codegenStmt hP s).bind fun _ => codegenStmts hP (s' :: ss)
      · nofun

theorem codegenElse (hP : Steady P) : (elsebk : Option (List Stmt)) → Maintains P (codegenElse elsebk)
  | none => by
      rw [Codegen.codegenElse]
      exact maintains_throw _
  | some elsebk => by
      rw [Codegen.codegenElse]
      exact codegenStmts hP elsebk

theorem codegenBody (hP : Steady P) : (body : Option (List Stmt)) → Maintains P (codegenBody body)
  | none => by
      rw [Codegen.codegenBody]
      exact maintains_throw _
  | some body => by
      rw [Codegen.codegenBody]
      exact (codegenStmts hP body).bind fun _ => maintains_pure _

theorem codegenMethodBody (hP : Steady P) (params : Option (List Param)) :
    (body : Option (List Stmt)) → Maintains P (codegenMethodBody params body)
  | none => by
      rw [Codegen.codegenMethodBody]
      exact hP.emit rfl
  | some body => by
      rw [Codegen.codegenMethodBody]
      exact (hP.codegenArgs _ 0).bind fun _ => (codegenStmts hP body).bind fun _ =>
        (maintains_emitValue _).bind fun _ => hP.emit rfl

theorem codegenRescues (hP : Steady P) : (rescuebks : List RescueBlock) →
    ∀ result excep asobj, Maintains P (codegenRescues rescuebks result excep asobj)
  | [], _, _, _ => by
      rw [Codegen.codegenRescues]
      exact maintains_pure _
  | .mk types var_name statements :: rescuebks, result, excep, asobj => by
      rw [Codegen.codegenRescues]
      have hstatements := codegenStmts hP statements
      have hothers := codegenRescues hP rescuebks
      exact (hP.enterRescue _ _ _ _).bind fun _ => (hstatements.bind fun _ =>
        (hP.storeValue _ _).bind fun _ => (hP.positionAtEnd _).bind fun _ =>
          (hothers _ _ _).bind fun _ => maintains_pure _)

end

/-- **A property that the generator keeps holds of every program.** -/
theorem generate (hP : Steady P) (hinitial : P .initial) {stmts : List Stmt}
    (h : generate stmts = .ok g) : P g := by
  obtain ⟨v, g₁, hrun, rfl⟩ := generate_ok h
  have hunit : P .unitBody :=
    hP.congr (hP.append (hP.append (hP.congr hinitial rfl rfl))) rfl rfl
  have hbody := hP.codegenStmts stmts _ _ _ hunit hrun
  exact hP.congr (hP.emitAt (hP.congr (hP.emitAt hbody rfl) rfl rfl) rfl) rfl rfl

end Steady

/-! ### The registers

Without a result an instruction adds no setter, and with one it sets the register that
`result_lt` keeps free.  A new block is empty.
-/

/-- A register is set by one instruction only. -/
structure Numbered (g : CodegenContext) : Prop where
  result_lt : ∀ b, ∀ i ∈ g.instrs b, ∀ r, i.result = some r → r < g.next
  unique : ∀ b b', ∀ i ∈ g.instrs b, ∀ j ∈ g.instrs b', ∀ r, i.result = some r →
    j.result = some r → i = j

theorem steady_numbered : Steady Numbered where
  emitAt {g b i} hg hi := by
    have hmem : ∀ c, ∀ j ∈ (g.emitAt b i).instrs c, ∀ r, j.result = some r → j ∈ g.instrs c := by
      intro c j hj r hr
      rcases CodegenContext.mem_emitAt hj with hj | rfl
      · exact hj
      · rw [hi] at hr
        cases hr
    exact
      { result_lt := fun c j hj r hr => hg.result_lt c j (hmem c j hj r hr) r hr
        unique := fun c c' j hj j' hj' r hr hr' =>
          hg.unique c c' j (hmem c j hj r hr) j' (hmem c' j' hj' r hr') r hr hr' }
  emitNew {g b i} hg hi := by
    have hmem : ∀ c, ∀ j ∈ (g.emitNew b i).instrs c, ∀ r, j.result = some r →
        j ∈ g.instrs c ∧ r < g.next ∨ j = i g.next ∧ r = g.next := by
      intro c j hj r hr
      rcases CodegenContext.mem_emitAt hj with hj | rfl
      · exact .inl ⟨hj, hg.result_lt c j hj r hr⟩
      · rw [hi] at hr
        exact .inr ⟨rfl, (Option.some.inj hr).symm⟩
    refine ⟨fun c j hj r hr => ?_, fun c c' j hj j' hj' r hr hr' => ?_⟩
    · show r < g.next + 1
      rcases hmem c j hj r hr with ⟨-, hlt⟩ | ⟨-, rfl⟩ <;> omega
    · rcases hmem c j hj r hr with ⟨hj, hlt⟩ | ⟨rfl, heq⟩
      · rcases hmem c' j' hj' r hr' with ⟨hj', -⟩ | ⟨-, heq⟩
        · exact hg.unique c c' j hj j' hj' r hr hr'
        · exact absurd heq hlt.ne
      · rcases hmem c' j' hj' r hr' with ⟨-, hlt⟩ | ⟨rfl, -⟩
        · exact absurd heq hlt.ne
        · rfl
  append {g name} hg :=
    { result_lt := fun b => CodegenContext.append_instrs (g := g) name b ▸ hg.result_lt b
      unique := fun b b' => by
        rw [CodegenContext.append_instrs, CodegenContext.append_instrs]
        exact hg.unique b b' }
  congr {g g'} hg hblocks hnext := by
    have hinstrs : ∀ b, g'.instrs b = g.instrs b := fun b => by
      rw [CodegenContext.instrs, CodegenContext.instrs, hblocks]
    refine ⟨fun b => ?_, fun b b' => ?_⟩
    · rw [hinstrs, hnext]
      exact hg.result_lt b
    · rw [hinstrs, hinstrs]
      exact hg.unique b b'

/-- **In every program a register is set by one instruction only.** -/
theorem numbered_generate {stmts : List Stmt} (h : generate stmts = .ok g) : Numbered g :=
  steady_numbered.generate ⟨nofun, nofun⟩ h

end Pup.Codegen
