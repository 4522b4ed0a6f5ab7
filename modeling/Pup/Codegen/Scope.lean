/-
Which names are locals.

A name is a local of the method from the place on where the text first assigns to it.  The
functions go through a syntax tree in the order in which the generator does, and add the
names it assigns to those that are there.  `scoped_codegenStmts` is that the table of the
method has exactly these names: what is generated for a name is decided by the text.
-/
import Pup.Codegen.Frames

namespace Pup.Codegen

open Parse

variable {α β : Type} {g g' g₁ : CodegenContext}

/-! ### The names of the text -/

mutual

/-- The locals after an expression. -/
def scopeExpr : Expr → List String → List String
  | .assign (.name name) _ right, scope => scopeExpr right (name :: scope)
  | .assign (.instVar _) _ right, scope => scopeExpr right scope
  | .varOrInvoke _ args _ receiver, scope => scopeArgList args (scopeReceiver receiver scope)
  | .binary _ left _ right, scope => scopeExpr right (scopeExpr left scope)
  | _, scope => scope

def scopeReceiver : Option Expr → List String → List String
  | some receiver, scope => scopeExpr receiver scope
  | none, scope => scope

def scopeArgList : Option (List Expr) → List String → List String
  | some args, scope => scopeExprs args scope
  | none, scope => scope

def scopeExprs : List Expr → List String → List String
  | [], scope => scope
  | e :: es, scope => scopeExprs es (scopeExpr e scope)

end

/-- The locals in the statements of a clause. -/
def scopeClause (types : Option (List Expr)) (var_name : Option String) (scope : List String) :
    List String :=
  var_name.toList ++ scopeExprs (types.getD defaultTypes) scope

mutual

/-- The locals after a statement. -/
def scopeStmt : Stmt → List String → List String
  | .expr e, scope => scopeExpr e scope
  | .ifStmt cond ifbk elsebk, scope =>
      scopeBlock elsebk (scopeStmts ifbk (scopeExpr cond scope))
  | .whileStmt cond statements, scope => scopeStmts statements (scopeExpr cond scope)
  | .beginStmt beginbk rescuebks _ _, scope => scopeRescues rescuebks (scopeStmts beginbk scope)
  | .classDef _ _ body, scope => scopeBlock body scope
  | .methodDef _ _ _, scope => scope

def scopeStmts : List Stmt → List String → List String
  | [], scope => scope
  | s :: ss, scope => scopeStmts ss (scopeStmt s scope)

def scopeBlock : Option (List Stmt) → List String → List String
  | some statements, scope => scopeStmts statements scope
  | none, scope => scope

def scopeRescues : List RescueBlock → List String → List String
  | [], scope => scope
  | .mk types var_name statements :: rescuebks, scope =>
      scopeRescues rescuebks (scopeStmts statements (scopeClause types var_name scope))

end

/-- An expression that is neither the access of a constant nor of a local. -/
def invokes (name : NamedValue) (args : Option (List Expr)) (receiver : Option Expr)
    (scope : List String) : Bool :=
  !isConstAccess name args receiver &&
    !(args.isNone && receiver.isNone && scope.contains name.text)

/-! ### The table of the method -/

/-- The locals of the method are those of the text. -/
def Scoped (g : CodegenContext) (scope : List String) : Prop :=
  ∀ name, (g.current_method.locals.lookup name).isSome = scope.contains name

theorem Scoped.of_locals {scope : List String} (h : Scoped g scope)
    (heq : g'.current_method.locals = g.current_method.locals) : Scoped g' scope := by
  intro name
  rw [heq]
  exact h name

/-- The locals of the method stay. -/
structure KeepsLocals (g g' : CodegenContext) : Prop where
  wellFormed : WellFormed g'
  locals : g'.current_method.locals = g.current_method.locals

theorem stableCalls_keepsLocals : StableCalls KeepsLocals where
  wellFormed h := h.wellFormed
  refl hg := ⟨hg, rfl⟩
  trans h h' := ⟨h'.wellFormed, h'.locals.trans h.locals⟩
  emit hg hi hr := ⟨(stable_grow.emit hg hi hr).wellFormed, rfl⟩
  emitNew hg hi hr := ⟨(stable_grow.emitNew hg hi hr).wellFormed, rfl⟩
  emitNewEntry hg he hi hr := ⟨(stable_grow.emitNewEntry hg he hi hr).wellFormed, rfl⟩
  call hg hpad args := ⟨(stableExpr_grow.call hg hpad args).wellFormed, rfl⟩
  invoked hg hpad name args := ⟨(stableExpr_grow.invoked hg hpad name args).wellFormed, rfl⟩
  lookup hg args := ⟨(stableExpr_grow.lookup hg args).wellFormed, rfl⟩

/-- What is generated adds names to the locals as the text does. -/
def Scopes (m : Gen α) (f : List String → List String) : Prop :=
  ∀ g a g' scope, WellFormed g → Scoped g scope → m g = .ok (a, g') →
    WellFormed g' ∧ Scoped g' (f scope)

theorem Scopes.bind {x : Gen α} {f : α → Gen β} {s t : List String → List String}
    (hx : Scopes x s) (hf : ∀ a, Scopes (f a) t) : Scopes (x >>= f) fun scope => t (s scope) := by
  intro g b g' scope hg hscope h
  obtain ⟨a, g₁, h₁, h₂⟩ := bind_ok.mp h
  obtain ⟨hg₁, hscope₁⟩ := hx g a g₁ scope hg hscope h₁
  exact hf a g₁ b g' _ hg₁ hscope₁ h₂

theorem scopes_of_keeps {m : Gen α} (h : Does KeepsLocals m) : Scopes m id := by
  intro g a g' scope hg hscope hrun
  have hkeeps := h g a g' hg hrun
  exact ⟨hkeeps.wellFormed, hscope.of_locals hkeeps.locals⟩

theorem scopes_keep {x : Gen α} {f : α → Gen β} {t : List String → List String}
    (hx : Does KeepsLocals x) (hf : ∀ a, Scopes (f a) t) : Scopes (x >>= f) t :=
  (scopes_of_keeps hx).bind hf

theorem scopes_pure (a : α) : Scopes (pure a : Gen α) id :=
  scopes_of_keeps (stableCalls_keepsLocals.pure a)

/-- A local that is there stays the only one of its name. -/
theorem scopes_getOrCreateLocal (name : String) :
    Scopes (getOrCreateLocal name) fun scope => name :: scope := by
  intro g v g' scope hg hscope h
  have hgrow := stableExpr_grow.getOrCreateLocal name g v g' hg h
  refine ⟨hgrow.wellFormed, fun name' => ?_⟩
  rw [getOrCreateLocal, bind_ok] at h
  obtain ⟨found, _, hget, h⟩ := h
  obtain ⟨rfl, rfl⟩ := Prod.mk.inj (Except.ok.inj hget)
  cases hlookup : g.current_method.locals.lookup name with
  | some slot =>
      rw [hlookup] at h
      obtain ⟨-, rfl⟩ := pure_ok.mp h
      by_cases heq : name' = name
      · simp [heq, hlookup]
      · simp [hscope name', heq]
  | none =>
      rw [hlookup] at h
      obtain ⟨e, he, rfl, rfl⟩ := createLocal_ok hg h
      by_cases heq : name' = name
      · simp [CodegenContext.withLocal, heq]
      · have hne : (name' == name) = false := by simpa using heq
        have hrest := hscope name'
        simp [CodegenContext.withLocal, CodegenContext.emitNew, CodegenContext.emitAt,
          List.lookup_cons, hne, hrest, heq]

/-- A bare name is generated as a local or as an invocation as the text has it. -/
theorem isLocal_ok {name : String} {args : Option (List Expr)} {receiver : Option Expr}
    {found : Bool} {scope : List String} (hscope : Scoped g scope)
    (h : isLocal name args receiver g = .ok (found, g')) :
    found = (args.isNone && receiver.isNone && scope.contains name) ∧ g' = g := by
  obtain ⟨rfl, rfl⟩ := Prod.mk.inj (Except.ok.inj h)
  rw [hscope name]
  exact ⟨rfl, rfl⟩

theorem scopeReceiver_of_isNone {receiver : Option Expr} (h : receiver.isNone)
    (scope : List String) : scopeReceiver receiver scope = scope := by
  rw [Option.isNone_iff_eq_none.mp h, scopeReceiver]

theorem scopeArgList_of_isNone {args : Option (List Expr)} (h : args.isNone)
    (scope : List String) : scopeArgList args scope = scope := by
  rw [Option.isNone_iff_eq_none.mp h, scopeArgList]

theorem isConstAccess_iff {name : NamedValue} {args : Option (List Expr)}
    {receiver : Option Expr} : isConstAccess name args receiver ↔
      (∃ c, name = .constant c) ∧ args = none ∧ receiver = none := by
  cases name <;> cases args <;> cases receiver <;> simp [isConstAccess]

mutual

theorem scopes_codegenExpr : (e : Expr) → Scopes (codegenExpr e) (scopeExpr e)
  | .assign (.name name) _ right => by
      rw [codegenExpr]
      exact (scopes_getOrCreateLocal name).bind fun _ => (scopes_codegenExpr right).bind fun _ =>
        scopes_of_keeps (stableCalls_keepsLocals.bind (stableCalls_keepsLocals.emit_piece rfl rfl)
          fun _ => stableCalls_keepsLocals.pure _)
  | .assign (.instVar name) _ right => by
      rw [codegenExpr]
      exact (scopes_codegenExpr right).bind fun _ =>
        scopes_keep (stableCalls_keepsLocals.mkSym name) fun _ =>
          scopes_keep stableCalls_keepsLocals.get fun _ =>
            scopes_keep (stableCalls_keepsLocals.buildCall rfl _) fun _ => scopes_pure _
  | .varOrInvoke name args _ receiver => by
      have hreceiver := scopes_codegenReceiver receiver
      have hargs := scopes_codegenArgList args
      intro g v g' scope hg hscope h
      rw [codegenExpr] at h
      rw [scopeExpr]
      split at h
      · next hconst =>
          obtain ⟨-, rfl, rfl⟩ := isConstAccess_iff.mp hconst
          exact scopes_of_keeps (stableCalls_keepsLocals.constAccess _) g v g' scope hg hscope h
      · rw [bind_ok] at h
        obtain ⟨found, _, hlocal, h⟩ := h
        obtain ⟨rfl, rfl⟩ := isLocal_ok hscope hlocal
        split at h
        · next hfound =>
            simp only [Bool.and_eq_true] at hfound
            rw [scopeReceiver_of_isNone hfound.1.2, scopeArgList_of_isNone hfound.1.1]
            exact scopes_of_keeps (stableCalls_keepsLocals.toStable.localAccess _) _ v g' scope hg
              hscope h
        · exact (hreceiver.bind fun _ => hargs.bind fun _ => scopes_of_keeps
            (stableCalls_keepsLocals.buildMethodInvocation _ _ _)) _ v g' scope hg hscope h
  | .instVar name => by
      rw [codegenExpr]
      exact scopes_keep (stableCalls_keepsLocals.mkSym name) fun _ =>
        scopes_keep stableCalls_keepsLocals.get fun _ =>
          scopes_of_keeps (stableCalls_keepsLocals.buildCall rfl _)
  | .binary class_ left op right => by
      rw [codegenExpr]
      exact (scopes_codegenExpr left).bind fun _ => (scopes_codegenExpr right).bind fun _ =>
        scopes_of_keeps (stableCalls_keepsLocals.codegenBinary _ _ _ _)
  | .string source => by
      rw [codegenExpr]
      exact scopes_of_keeps (stableCalls_keepsLocals.buildCall rfl _)
  | .int source => by
      rw [codegenExpr]
      exact scopes_of_keeps (stableCalls_keepsLocals.buildCall rfl _)
  | .bool true => by
      rw [codegenExpr]
      exact scopes_of_keeps (stableCalls_keepsLocals.buildCall rfl _)
  | .bool false => by
      rw [codegenExpr]
      exact scopes_of_keeps (stableCalls_keepsLocals.buildCall rfl _)
  | .selfExpr => by
      rw [codegenExpr]
      exact scopes_keep stableCalls_keepsLocals.get fun _ => scopes_pure _

theorem scopes_codegenReceiver :
    (receiver : Option Expr) → Scopes (codegenReceiver receiver) (scopeReceiver receiver)
  | some receiver => by
      rw [codegenReceiver]
      exact scopes_codegenExpr receiver
  | none => by
      rw [codegenReceiver]
      exact scopes_keep stableCalls_keepsLocals.get fun _ => scopes_pure _

theorem scopes_codegenArgList :
    (args : Option (List Expr)) → Scopes (codegenArgList args) (scopeArgList args)
  | some args => by
      rw [codegenArgList]
      exact scopes_codegenExprs args
  | none => by
      rw [codegenArgList]
      exact scopes_pure _

theorem scopes_codegenExprs : (es : List Expr) → Scopes (codegenExprs es) (scopeExprs es)
  | [] => by
      rw [codegenExprs]
      exact scopes_pure _
  | e :: es => by
      rw [codegenExprs]
      exact (scopes_codegenExpr e).bind fun _ => (scopes_codegenExprs es).bind fun _ =>
        scopes_pure _

end

theorem scoped_codegenTypes {asobj : Operand} {types : List Expr}
    {tests : List (Nat × Operand × Nat)} {scope : List String} (hg : WellFormed g)
    (hscope : Scoped g scope) (h : codegenTypes asobj types g = .ok (tests, g')) :
    Scoped g' (scopeExprs types scope) := by
  induction types generalizing g scope tests with
  | nil =>
      rw [codegenTypes, pure_ok] at h
      obtain ⟨rfl, rfl⟩ := h
      exact hscope
  | cons ex_type types ih =>
      obtain ⟨steps⟩ := codegenTypes_ok h
      obtain ⟨-, hscope₁⟩ := scopes_codegenExpr ex_type _ _ _ _ hg hscope steps.type
      exact ih (steps.atOthers (Frame.start hg)).grow.wellFormed (hscope₁.of_locals rfl)
        steps.others

theorem EnterSteps.scoped {types : Option (List Expr)} {var_name : Option String}
    {excep asobj : Operand} {bkrescue next : Nat} {scope : List String}
    (steps : EnterSteps g (types.getD defaultTypes) var_name excep asobj bkrescue next g')
    (hg : WellFormed g) (hscope : Scoped g scope) :
    Scoped g' (scopeClause types var_name scope) := by
  obtain ⟨tests, g₁, htypes, rfl, rfl, hbound⟩ := steps
  have hscope₁ := scoped_codegenTypes hg hscope htypes
  have hscope₂ : Scoped (((g₁.append "rescue_impl").jumpedTo g₁.blocks.length tests).moveTo
      g₁.blocks.length) (scopeExprs (types.getD defaultTypes) scope) :=
    hscope₁.of_locals (congrArg MethodRef.locals
      (CodegenContext.jumpedTo_method _ tests (g₁.append "rescue_impl")))
  cases var_name with
  | none => exact hbound.symm ▸ hscope₂
  | some name =>
      obtain ⟨slot, g₂, hslot, rfl⟩ := hbound
      have hat := ((Frame.start hg).atBound htypes).grow.wellFormed
      exact (scopes_getOrCreateLocal name _ _ _ _ hat hscope₂ hslot).2.of_locals rfl

/-- The locals after the clauses of a landing pad. -/
def ScopesRescues (rescuebks : List RescueBlock) : Prop :=
  ∀ result excep asobj, Scopes (codegenRescues rescuebks result excep asobj)
    (scopeRescues rescuebks)

theorem scopesRescues_cons {types : Option (List Expr)} {var_name : Option String}
    {statements : List Stmt} {rescuebks : List RescueBlock}
    (hstatements : Scopes (codegenStmts statements) (scopeStmts statements))
    (hothers : ScopesRescues rescuebks) :
    ScopesRescues (.mk types var_name statements :: rescuebks) := by
  intro result excep asobj g impls g' scope hg hscope h
  obtain ⟨steps⟩ := codegenRescues_ok h
  have hframe := Frame.start hg
  have henter := hframe.enterRescue steps.enter
  obtain ⟨-, hscope₂⟩ := hstatements _ _ _ _ henter.grow.wellFormed
    (steps.enter.scoped hg hscope) steps.statements
  have hat := steps.atOthers hframe (grows_codegenStmts statements)
  exact hothers result excep asobj _ _ _ _ hat.grow.wellFormed (hscope₂.of_locals rfl)
    steps.others

mutual

/-- **A statement adds to the locals as the text does.** -/
theorem scopes_codegenStmt : (s : Stmt) → Scopes (codegenStmt s) (scopeStmt s)
  | .expr e => by
      rw [codegenStmt]
      exact scopes_codegenExpr e
  | .ifStmt cond ifbk none => by
      intro g v g' scope hg hscope h
      obtain ⟨_, _, _, ⟨⟩, _⟩ := codegenIf_ok hg h
  | .ifStmt cond ifbk (some elsebk) => by
      have hif := scopes_codegenStmts ifbk
      have helse := scopes_codegenStmts elsebk
      intro g v g' scope hg hscope h
      refine ⟨(grows_codegenStmt _ _ _ _ hg h).wellFormed, ?_⟩
      obtain ⟨e, _, he, heq, ⟨steps⟩⟩ := codegenIf_ok hg h
      cases heq
      have hframe := Frame.alloca hg he
      obtain ⟨-, h₁⟩ := scopes_codegenExpr cond _ _ _ _ hframe.atIfCond.grow.wellFormed
        (hscope.of_locals rfl) steps.cond
      obtain ⟨-, h₂⟩ := hif _ _ _ _ (steps.atIf hframe).grow.wellFormed (h₁.of_locals rfl)
        steps.ifbk
      obtain ⟨-, h₃⟩ := helse _ _ _ _
        (steps.atElse hframe (grows_codegenStmts ifbk)).grow.wellFormed (h₂.of_locals rfl)
        steps.elsebk
      rw [steps.last]
      exact h₃.of_locals rfl
  | .whileStmt cond statements => by
      have hstatements := scopes_codegenStmts statements
      intro g v g' scope hg hscope h
      refine ⟨(grows_codegenStmt _ _ _ _ hg h).wellFormed, ?_⟩
      obtain ⟨e, he, ⟨steps⟩⟩ := codegenWhile_ok hg h
      have hframe := Frame.alloca hg he
      obtain ⟨-, h₁⟩ := scopes_codegenExpr cond _ _ _ _ hframe.atWhileCond.grow.wellFormed
        (hscope.of_locals rfl) steps.cond
      obtain ⟨-, h₂⟩ := hstatements _ _ _ _ (steps.atBody hframe).grow.wellFormed
        (h₁.of_locals rfl) steps.body
      rw [steps.last]
      exact h₂.of_locals rfl
  | .beginStmt beginbk rescuebks elsebk ensurebk => by
      have hbody := scopes_codegenStmts beginbk
      have hrescues := scopesRescues_codegenRescues rescuebks
      intro g v g' scope hg hscope h
      refine ⟨(grows_codegenStmt _ _ _ _ hg h).wellFormed, ?_⟩
      obtain ⟨-, e, he, ⟨steps⟩⟩ := codegenBegin_ok hg h
      have hframe := Frame.alloca hg he
      obtain ⟨-, h₁⟩ := hbody _ _ _ _ hframe.grow.wellFormed.guarded (hscope.of_locals rfl)
        steps.body
      obtain ⟨-, h₂⟩ := hrescues _ _ _ _ _ _ _
        (steps.atRescues hframe (grows_codegenStmts beginbk)).grow.wellFormed (h₁.of_locals rfl)
        steps.rescuebks
      rw [steps.last]
      exact h₂.of_locals (congrArg MethodRef.locals (CodegenContext.jumpedOut_method ..))
  | .classDef name extends_ none => by
      intro g v g' scope hg hscope h
      obtain ⟨_, _, ⟨⟩, _⟩ := codegenClass_ok h
  | .classDef name extends_ (some body) => by
      have hbody := scopes_codegenStmts body
      intro g v g' scope hg hscope h
      refine ⟨(grows_codegenStmt _ _ _ _ hg h).wellFormed, ?_⟩
      obtain ⟨_, _, heq, ⟨steps⟩⟩ := codegenClass_ok h
      cases heq
      have hopen := stableCalls_keepsLocals.openClass name _ _ _ hg steps.open_
      obtain ⟨-, h₁⟩ := hbody _ _ _ _ (steps.atBody hg) (hscope.of_locals hopen.locals) steps.body
      rw [steps.last]
      exact h₁.of_locals rfl
  | .methodDef name params body => by
      intro g v g' scope hg hscope h
      refine ⟨(grows_codegenStmt _ _ _ _ hg h).wellFormed, ?_⟩
      obtain ⟨steps⟩ := codegenMethod_ok h
      have hmethod := steps.growMethod hg (grows_codegenMethodBody params body)
      have hdefine := stableCalls_keepsLocals.defineMethod _ _ _ _ _ hmethod.wellFormed steps.define
      exact hscope.of_locals hdefine.locals

theorem scopes_codegenStmts : (ss : List Stmt) → Scopes (codegenStmts ss) (scopeStmts ss)
  | [] => by
      rw [codegenStmts]
      exact scopes_pure _
  | [s] => by
      rw [codegenStmts]
      exact (scopes_codegenStmt s).bind fun _ => scopes_pure _
  | s :: s' :: ss => by
      rw [codegenStmts]
      · exact (scopes_codegenStmt s).bind fun _ => scopes_codegenStmts (s' :: ss)
      · nofun

theorem scopesRescues_codegenRescues :
    (rescuebks : List RescueBlock) → ScopesRescues rescuebks
  | [] => by
      intro result excep asobj
      rw [codegenRescues]
      exact scopes_pure _
  | .mk _ _ statements :: rescuebks =>
      scopesRescues_cons (scopes_codegenStmts statements) (scopesRescues_codegenRescues rescuebks)

end

end Pup.Codegen
