/-
Where a statement of a program is generated.

`Inside` finds a statement anywhere in a program.  When it is code of `pup_main` that is not
under a landing pad, so is all around it (`Inside.placed`): what is generated for it is a part of
the program, and the generator's locals there are those of the text.  On the way back from the
end of a program each instruction and each block is taken away again (`Leads.emitAt`).
-/
import Pup.Codegen.Refinement
import Pup.Codegen.LandingPads

namespace Pup.Codegen

open Parse

variable {g g' g₁ F P : CodegenContext} {scope : List String} {result v : Operand}

/-! ### Back from the end of a program -/

theorem Leads.emitAt {b : Nat} {i : Instr} (h : Leads F (g.emitAt b i)) (hi : i.result = none) :
    Leads F g where
  longer c := (CodegenContext.emitAt_longer b c i).trans (h.longer c)
  next := h.next
  result j hj := by
    rcases h.result j hj with hmem | hge
    · rcases CodegenContext.mem_emitAt hmem with hmem | rfl
      · exact .inl hmem
      · exact .inr fun r hr => (by rw [hi] at hr; cases hr)
    · exact .inr hge
  locals := h.locals

theorem Leads.emitNew {b : Nat} {i : Nat → Instr} (h : Leads F (g.emitNew b i))
    (hi : (i g.next).result = some g.next) : Leads F g where
  longer c := (CodegenContext.emitAt_longer b c (i g.next)).trans (h.longer c)
  next := (Nat.le_succ g.next).trans h.next
  result j hj := by
    rcases h.result j hj with hmem | hge
    · rcases CodegenContext.mem_emitAt hmem with hmem | rfl
      · exact .inl hmem
      · exact .inr fun r hr => (Option.some.inj (hi.symm.trans hr)).le
    · exact .inr fun r hr => (Nat.le_succ g.next).trans (hge r hr)
  locals := by
    obtain ⟨new, hnew, hfresh⟩ := h.locals
    exact ⟨new, hnew, fun p hp =>
      ⟨(Nat.le_succ g.next).trans (hfresh p hp).1, (hfresh p hp).2⟩⟩

theorem Leads.append {name : String} (h : Leads F (g.append name)) : Leads F g where
  longer b := CodegenContext.append_instrs (g := g) name b ▸ h.longer b
  next := h.next
  result j hj := CodegenContext.append_instrs (g := g) name 0 ▸ h.result j hj
  locals := h.locals

theorem Leads.jumpedTo {bkrescue : Nat} {tests : List (Nat × Operand × Nat)}
    (h : Leads F (g.jumpedTo bkrescue tests)) : Leads F g := by
  induction tests generalizing g with
  | nil => exact h
  | cons t tests ih => exact ((ih h).emitAt rfl).moved

theorem Leads.jumpedOut {bkout : Nat} {impls : List Nat}
    (h : Leads F (g.jumpedOut bkout impls)) : Leads F g := by
  induction impls generalizing g with
  | nil => exact h
  | cons b impls ih => exact ((ih h).emitAt rfl).moved

theorem Leads.afterBegin {b : Nat} {impls : List Nat}
    (h : Leads F (g.afterBegin b impls result)) : Leads F g := by
  unfold CodegenContext.afterBegin at h
  exact ((h.emitNew rfl).moved.emitAt rfl).moved.jumpedOut.append

theorem Leads.leaving {b : Nat} (h : Leads F (g.leaving v result b)) : Leads F g :=
  (Leads.emitAt h rfl).emitAt rfl

theorem Leads.looped {b : Nat} (h : Leads F (g.looped v result b)) : Leads F g :=
  ((Leads.emitAt h rfl).emitNew rfl).emitAt rfl

/-! ### The parts of a statement -/

theorem IfSteps.leads {cond : Expr} {ifbk elsebk : List Stmt}
    (steps : IfSteps g result cond ifbk elsebk v g') (hg : WellFormed g) (h : Leads F g') :
    Leads F steps.g₂ ∧ Leads F steps.g₃ := by
  have hframe := Frame.start hg
  have hlast := steps.last ▸ h
  have h₃ : Leads F steps.g₃ := (hlast.emitNew rfl).moved.leaving
  have hgrow := grows_codegenStmts elsebk _ _ _
    (steps.atElse hframe (grows_codegenStmts ifbk)).grow.wellFormed steps.elsebk
  exact ⟨(h₃.grow hgrow).moved.leaving, h₃⟩

theorem WhileSteps.leads {cond : Expr} {statements : List Stmt}
    (steps : WhileSteps g result cond statements v g') (h : Leads F g') : Leads F steps.g₂ := by
  have hlast := steps.last ▸ h
  exact (hlast.emitNew rfl).moved.looped

theorem BeginSteps.leads {beginbk : List Stmt} {rescuebks : List RescueBlock}
    (steps : BeginSteps g result beginbk rescuebks v g') (h : Leads F g') :
    Leads F (steps.g₂.rethrown (.reg steps.g₁.next)) := by
  have hlast := steps.last ▸ h
  exact hlast.afterBegin.moved

theorem Leads.rethrown {dwarf_ex : Operand} (h : Leads F (g.rethrown dwarf_ex)) : Leads F g :=
  (Leads.emitAt h rfl).emitNew rfl

/-! ### The code of `pup_main` -/

/-- What is generated here is code of `pup_main` that is not under a landing pad. -/
structure AtMain (g : CodegenContext) : Prop where
  landingpad : g.landingpad = none
  self_ref : g.self_ref = .paramTarget
  fn : g.current_method.fn = 0

theorem AtMain.of_grow (h : AtMain g') (hgrow : Grow g g') : AtMain g :=
  ⟨hgrow.landingpad ▸ h.landingpad, hgrow.self_ref ▸ h.self_ref, hgrow.method ▸ h.fn⟩

/-- What is generated for the statement is a part of `F`, and the locals are known. -/
structure Placed (F : CodegenContext) (s : Stmt) (g : CodegenContext) (scope : List String)
    (v : Operand) (g' : CodegenContext) : Prop where
  ready : Ready g scope
  generated : codegenStmt s g = .ok (v, g')
  leads : Leads F g'

/-- Where a statement is, when what is around it is placed. -/
def Places (F g g₁ : CodegenContext) (s' : Stmt) (g' : CodegenContext) : Prop :=
  AtMain g ∧ ∀ scope, Ready g scope → Leads F g₁ → ∃ scope' v g₂, Placed F s' g' scope' v g₂

theorem Places.of_grow {g₀ g₂ : CodegenContext} {s' : Stmt} (h : Places F g₁ g₂ s' g')
    (hgrow : Grow g₀ g₁) {f : List String → List String}
    (hscope : ∀ scope, Ready g₀ scope → Scoped g₁ (f scope)) {g₃ : CodegenContext}
    (hleads : Leads F g₃ → Leads F g₂) : Places F g₀ g₃ s' g' :=
  ⟨h.1.of_grow hgrow, fun scope hg hlast =>
    h.2 (f scope) (hg.grow hgrow (hscope scope hg)) (hleads hlast)⟩

theorem openClass_reg {name : String} (h : openClass name g = .ok (v, g')) :
    v ≠ .paramTarget := by
  simp only [openClass, mkSym, bind_ok, buildCall_ok, emitReg_ok, get_ok, pure_ok] at h
  obtain ⟨_, _, -, _, _, -, _, _, -, _, _, ⟨hreg, -⟩, _, _, -, _, _, -, _, _, -, rfl, -⟩ := h
  rw [hreg]
  exact fun heq => (by cases heq)

section Unique

variable {v' : Operand} {g₂ : CodegenContext}

theorem IfSteps.unique {cond : Expr} {ifbk elsebk : List Stmt}
    (steps : IfSteps g result cond ifbk elsebk v g')
    (steps' : IfSteps g result cond ifbk elsebk v' g₂) : g' = g₂ := by
  obtain ⟨val, g₁, vthen, g₃, velse, g₄, hcond, hif, helse, -, rfl⟩ := steps
  obtain ⟨val', g₁', vthen', g₃', velse', g₄', hcond', hif', helse', -, rfl⟩ := steps'
  obtain ⟨rfl, rfl⟩ := ok_unique hcond hcond'
  obtain ⟨heq, rfl⟩ := ok_unique hif hif'
  obtain rfl := Option.some.inj heq
  obtain ⟨heq, rfl⟩ := ok_unique helse helse'
  obtain rfl := Option.some.inj heq
  rfl

theorem WhileSteps.unique {cond : Expr} {statements : List Stmt}
    (steps : WhileSteps g result cond statements v g')
    (steps' : WhileSteps g result cond statements v' g₂) : g' = g₂ := by
  obtain ⟨val, g₁, vbody, g₃, hcond, hbody, -, rfl⟩ := steps
  obtain ⟨val', g₁', vbody', g₃', hcond', hbody', -, rfl⟩ := steps'
  obtain ⟨rfl, rfl⟩ := ok_unique hcond hcond'
  obtain ⟨heq, rfl⟩ := ok_unique hbody hbody'
  obtain rfl := Option.some.inj heq
  rfl

theorem BeginSteps.unique {beginbk : List Stmt} {rescuebks : List RescueBlock}
    (steps : BeginSteps g result beginbk rescuebks v g')
    (steps' : BeginSteps g result beginbk rescuebks v' g₂) : g' = g₂ := by
  obtain ⟨vbody, g₁, impls, g₃, hbody, hrescues, -, rfl⟩ := steps
  obtain ⟨vbody', g₁', impls', g₃', hbody', hrescues', -, rfl⟩ := steps'
  obtain ⟨heq, rfl⟩ := ok_unique hbody hbody'
  obtain rfl := Option.some.inj heq
  obtain ⟨rfl, rfl⟩ := ok_unique hrescues hrescues'
  rfl

theorem RescueSteps.unique {types : List Expr} {var_name : Option String}
    {statements : List Stmt} {rescuebks : List RescueBlock} {excep asobj : Operand}
    {impls impls' : List Nat}
    (steps : RescueSteps g types var_name statements rescuebks result excep asobj impls g')
    (steps' : RescueSteps g types var_name statements rescuebks result excep asobj impls' g₂) :
    g' = g₂ := by
  obtain ⟨bkrescue, next, g₁, vbody, g₃, rest, henter, hbody, hothers, -⟩ := steps
  obtain ⟨bkrescue', next', g₁', vbody', g₃', rest', henter', hbody', hothers', -⟩ := steps'
  obtain ⟨rfl, rfl⟩ := henter.unique henter'
  obtain ⟨heq, rfl⟩ := ok_unique hbody hbody'
  obtain rfl := Option.some.inj heq
  exact (ok_unique hothers hothers').2

end Unique

/-- Inside an `if`: its condition has been generated, and its branches follow. -/
theorem IfSteps.places {cond : Expr} {ifbk elsebk : List Stmt} {e : Nat} {s' : Stmt}
    (hg : WellFormed g) (he : IsEntry g e)
    (steps : IfSteps (g.emitNew e .alloca) (.reg g.next) cond ifbk elsebk v g₁) :
    (Places F ((steps.g₁.branched steps.val ((g.emitNew e .alloca).blocks.length + 2)
        ((g.emitNew e .alloca).blocks.length + 1)).moveTo
          ((g.emitNew e .alloca).blocks.length + 1)) steps.g₂ s' g' → Places F g g₁ s' g') ∧
      (Places F ((steps.g₂.leaving steps.vthen (.reg g.next)
        ((g.emitNew e .alloca).blocks.length + 3)).moveTo
          ((g.emitNew e .alloca).blocks.length + 2)) steps.g₃ s' g' → Places F g g₁ s' g') := by
  have hframe := Frame.alloca hg he
  have hif := steps.atIf hframe
  have helse := steps.atElse hframe (grows_codegenStmts ifbk)
  have hscope₁ : ∀ scope, Ready g scope → Scoped steps.g₁ (scopeExpr cond scope) :=
    fun scope hready => (scopes_codegenExpr cond _ _ _ _ hframe.atIfCond.grow.wellFormed
      (hready.scope.of_locals rfl) steps.cond).2
  have hscope₂ : ∀ scope, Ready g scope →
      Scoped steps.g₂ (scopeStmts ifbk (scopeExpr cond scope)) :=
    fun scope hready => (scopes_codegenStmts ifbk _ _ _ _ hif.grow.wellFormed
      ((hscope₁ scope hready).of_locals rfl) steps.ifbk).2
  have hleads := steps.leads (F := F) hframe.grow.wellFormed
  exact ⟨fun h => h.of_grow hif.grow (fun scope hready => (hscope₁ scope hready).of_locals rfl)
      fun hlast => (hleads hlast).1,
    fun h => h.of_grow helse.grow (fun scope hready => (hscope₂ scope hready).of_locals rfl)
      fun hlast => (hleads hlast).2⟩

theorem WhileSteps.places {cond : Expr} {statements : List Stmt} {e : Nat} {s' : Stmt}
    (hg : WellFormed g) (he : IsEntry g e)
    (steps : WhileSteps (g.emitNew e .alloca) (.reg g.next) cond statements v g₁)
    (h : Places F ((steps.g₁.branched steps.val ((g.emitNew e .alloca).blocks.length + 2)
      ((g.emitNew e .alloca).blocks.length + 1)).moveTo
        ((g.emitNew e .alloca).blocks.length + 1)) steps.g₂ s' g') : Places F g g₁ s' g' := by
  have hframe := Frame.alloca hg he
  exact h.of_grow (steps.atBody hframe).grow
    (fun scope hready => ((scopes_codegenExpr cond _ _ _ _ hframe.atWhileCond.grow.wellFormed
      (hready.scope.of_locals rfl) steps.cond).2).of_locals rfl) steps.leads

/-- Inside the clauses of a `begin`. -/
theorem BeginSteps.places {beginbk : List Stmt} {rescuebks : List RescueBlock} {e : Nat}
    {s' : Stmt} (hg : WellFormed g) (he : IsEntry g e)
    (steps : BeginSteps (g.emitNew e .alloca) (.reg g.next) beginbk rescuebks v g₁)
    (h : Places F ((steps.g₁.unguarded steps.vbody (.reg g.next)
      (g.emitNew e .alloca).landingpad).moveTo (g.emitNew e .alloca).blocks.length).landed
        steps.g₂ s' g') : Places F g g₁ s' g' := by
  have hframe := Frame.alloca hg he
  exact h.of_grow (steps.atRescues hframe (grows_codegenStmts beginbk)).grow
    (fun scope hready => (scopes_codegenStmts beginbk _ _ _ _ hframe.grow.wellFormed.guarded
      (hready.scope.of_locals rfl) steps.body).2.of_locals rfl) fun hlast =>
        (steps.leads hlast).rethrown

/-- Inside a clause, and inside those that follow it. -/
theorem RescueSteps.places {types : Option (List Expr)} {var_name : Option String}
    {statements : List Stmt} {rescuebks : List RescueBlock} {excep asobj : Operand}
    {impls : List Nat} {s' : Stmt} (hg : WellFormed g)
    (steps : RescueSteps g (types.getD defaultTypes) var_name statements rescuebks result excep
      asobj impls g₁) :
    (Places F steps.g₁ steps.g₂ s' g' → Places F g g₁ s' g') ∧
      (Places F ((steps.g₂.emitAt steps.g₂.build (.store steps.v result)).moveTo steps.next)
        g₁ s' g' → Places F g g₁ s' g') := by
  have hframe := Frame.start hg
  have henter := hframe.enterRescue steps.enter
  have hothers := steps.atOthers hframe (grows_codegenStmts statements)
  have hgrow := (framesRescues_codegenRescues rescuebks _ _ _ _ _ _ _ _
    (Frame.start hothers.grow.wellFormed) steps.others).grow
  have hscope : ∀ scope, Ready g scope → Scoped steps.g₁ (scopeClause types var_name scope) :=
    fun scope hready => steps.enter.scoped hg hready.scope
  have hscope' : ∀ scope, Ready g scope →
      Scoped steps.g₂ (scopeStmts statements (scopeClause types var_name scope)) :=
    fun scope hready => (scopes_codegenStmts statements _ _ _ _ henter.grow.wellFormed
      (hscope scope hready) steps.statements).2
  exact ⟨fun h => h.of_grow henter.grow hscope fun hlast => (hlast.grow hgrow).moved.emitAt rfl,
    fun h => h.of_grow hothers.grow (fun scope hready => (hscope' scope hready).of_locals rfl) id⟩

mutual

/-- **All that is around a statement of `pup_main` is code of `pup_main`.** -/
theorem Inside.placed {F g g' g₁ : CodegenContext} {s s' : Stmt} {v : Operand}
    (h : Inside s' g' s g) (hmain : AtMain g') (hg : WellFormed g)
    (hrun : codegenStmt s g = .ok (v, g₁)) : Places F g g₁ s' g' := by
  cases h with
  | here => exact ⟨hmain, fun scope hready hleads => ⟨scope, v, g₁, hready, hrun, hleads⟩⟩
  | ifbk he steps h =>
      obtain ⟨e, _, he', heq, ⟨steps'⟩⟩ := codegenIf_ok hg hrun
      obtain rfl := he.unique he'
      obtain rfl := Option.some.inj heq
      obtain rfl := steps.unique steps'
      exact (steps.places hg he).1 (h.placed hmain
        (steps.atIf (Frame.alloca hg he)).grow.wellFormed steps.ifbk)
  | elsebk he steps h =>
      obtain ⟨e, _, he', heq, ⟨steps'⟩⟩ := codegenIf_ok hg hrun
      obtain rfl := he.unique he'
      obtain rfl := Option.some.inj heq
      obtain rfl := steps.unique steps'
      exact (steps.places hg he).2 (h.placed hmain
        (steps.atElse (Frame.alloca hg he) (grows_codegenStmts _)).grow.wellFormed steps.elsebk)
  | whileBody he steps h =>
      obtain ⟨e, he', ⟨steps'⟩⟩ := codegenWhile_ok hg hrun
      obtain rfl := he.unique he'
      obtain rfl := steps.unique steps'
      exact steps.places hg he (h.placed hmain
        (steps.atBody (Frame.alloca hg he)).grow.wellFormed steps.body)
  | beginbk he h =>
      obtain ⟨-, e, he', ⟨steps⟩⟩ := codegenBegin_ok hg hrun
      obtain rfl := he.unique he'
      have hplaces : Places F _ _ s' g' :=
        h.placed hmain (Frame.alloca hg he).grow.wellFormed.guarded steps.body
      cases hplaces.1.landingpad
  | rescuebks he steps h =>
      obtain ⟨-, e, he', ⟨steps'⟩⟩ := codegenBegin_ok hg hrun
      obtain rfl := he.unique he'
      obtain rfl := steps.unique steps'
      exact steps.places hg he (h.placed hmain
        (steps.atRescues (Frame.alloca hg he) (grows_codegenStmts _)).grow.wellFormed
        steps.rescuebks)
  | classBody steps h =>
      have hplaces : Places F _ _ s' g' := h.placed hmain (steps.atBody hg) steps.body
      exact absurd hplaces.1.self_ref (openClass_reg steps.open_)
  | methodBody hargs h =>
      obtain ⟨steps⟩ := codegenMethod_ok hrun
      obtain ⟨g₂, v', g₃, hargs', hbody, -⟩ := codegenMethodBody_ok steps.body
      obtain ⟨-, rfl⟩ := ok_unique hargs hargs'
      have hgrow := stableExpr_grow.codegenArgs _ _ _ _ _ (hg.inMethodBlock "") hargs
      have hplaces : Places F _ _ s' g' := h.placed hmain hgrow.wellFormed hbody
      have hfn : g.functions = 0 := hgrow.method.symm.trans hplaces.1.fn
      exact absurd (hg.fn_lt _ _ hg.build) (by rw [hfn]; exact Nat.not_lt_zero _)

theorem InsideStmts.placed {F g g' g₁ : CodegenContext} {ss : List Stmt} {s' : Stmt}
    {value : Option Operand} (h : InsideStmts s' g' ss g) (hmain : AtMain g')
    (hg : WellFormed g) (hrun : codegenStmts ss g = .ok (value, g₁)) : Places F g g₁ s' g' := by
  cases h with
  | head h =>
      rename_i s ss
      cases ss with
      | nil =>
          obtain ⟨v, hs, -⟩ := codegenStmts_singleton_ok.mp hrun
          exact h.placed hmain hg hs
      | cons s₂ ss =>
          obtain ⟨v, g₂, hs, hss⟩ := codegenStmts_cons_ok.mp hrun
          have hplaces : Places F g g₂ s' g' := h.placed hmain hg hs
          have hg₂ := (grows_codegenStmt _ _ _ _ hg hs).wellFormed
          exact ⟨hplaces.1, fun scope hready hleads => hplaces.2 scope hready
            (hleads.grow (grows_codegenStmts _ _ _ _ hg₂ hss))⟩
  | tail hs h =>
      rename_i g₂ s ss v₁
      cases ss with
      | nil => cases h
      | cons s₂ ss =>
          obtain ⟨v, g₃, hs', hss⟩ := codegenStmts_cons_ok.mp hrun
          obtain ⟨rfl, rfl⟩ := ok_unique hs hs'
          have hgrow := grows_codegenStmt _ _ _ _ hg hs
          exact (h.placed hmain hgrow.wellFormed hss).of_grow hgrow
            (fun scope hready => (scopes_codegenStmt s _ _ _ _ hg hready.scope hs).2) id

theorem InsideRescues.placed {F g g' g₁ : CodegenContext} {rescuebks : List RescueBlock}
    {result excep asobj : Operand} {s' : Stmt} {impls : List Nat}
    (h : InsideRescues s' g' rescuebks result excep asobj g) (hmain : AtMain g') (hg : WellFormed g)
    (hrun : codegenRescues rescuebks result excep asobj g = .ok (impls, g₁)) :
    Places F g g₁ s' g' := by
  cases h with
  | head steps h =>
      obtain ⟨steps'⟩ := codegenRescues_ok hrun
      obtain rfl := steps.unique steps'
      exact (steps.places hg).1 (h.placed hmain
        ((Frame.start hg).enterRescue steps.enter).grow.wellFormed steps.statements)
  | tail steps h =>
      obtain ⟨steps'⟩ := codegenRescues_ok hrun
      obtain rfl := steps.unique steps'
      exact (steps.places hg).2 (h.placed hmain
        (steps.atOthers (Frame.start hg) (grows_codegenStmts _)).grow.wellFormed steps.others)

end

/-- A statement of `pup_main` in a program. -/
theorem placed_of_generate {stmts : List Stmt} (h : generate stmts = .ok P) {s : Stmt}
    (hin : InsideStmts s g stmts .unitBody) (hmain : AtMain g) :
    ∃ v₀ F scope v g', codegenStmts stmts .unitBody = .ok (some v₀, F) ∧ P = F.afterUnit v₀ ∧
      Final F P ∧ (∃ scope', Ready F scope') ∧ Placed F s g scope v g' := by
  obtain ⟨v₀, F, hrun, rfl⟩ := generate_ok h
  have hready : Ready .unitBody [] :=
    ⟨wellFormed_unitBody, rfl, rfl, isEntry_unitBody, Nat.one_ne_zero, fun _ => rfl⟩
  have hgrow := grows_codegenStmts stmts _ _ _ wellFormed_unitBody hrun
  have hplaces : Places F .unitBody F s g := hin.placed hmain wellFormed_unitBody hrun
  obtain ⟨scope, v, g', hplaced⟩ := hplaces.2 [] hready (.refl F)
  exact ⟨v₀, F, scope, v, g', hrun, rfl, ⟨hgrow, (longer_afterUnit v₀ hgrow.method).longer⟩,
    ⟨_, hready.run (grows_codegenStmts stmts) (scopes_codegenStmts stmts) hrun⟩, hplaced⟩

end Pup.Codegen
