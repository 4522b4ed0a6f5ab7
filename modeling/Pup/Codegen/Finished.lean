/-
Methods that are finished.

A method is generated in one go: when its definition has been generated, nothing is added to its
blocks any more.  What follows is added to blocks of the methods around it, which have smaller
numbers.  `InsideStmts.finished` is this for all the definitions in a program, so that what is
shown of a method at its end holds of the program.
-/
import Pup.Codegen.LandingPads

namespace Pup.Codegen

open Parse

variable {g g' g₀ g₁ g₂ : CodegenContext} {n b : Nat} {bs : List Nat}

/-! ### Blocks of other methods -/

/-- The builder is in a function before `n`, and the blocks that there were of the functions from
`n` on are as they were. -/
structure Rest (n : Nat) (g g' : CodegenContext) : Prop where
  current : g'.current_method.fn < n
  length : g.blocks.length ≤ g'.blocks.length
  fnOf : ∀ b < g.blocks.length, g'.fnOf b = g.fnOf b
  instrs : ∀ b fn, g.fnOf b = some fn → n ≤ fn → g'.instrs b = g.instrs b

theorem Rest.refl (h : g.current_method.fn < n) : Rest n g g :=
  ⟨h, Nat.le_refl _, fun _ _ => rfl, fun _ _ _ _ => rfl⟩

theorem Rest.trans (h : Rest n g₀ g₁) (h' : Rest n g₁ g) : Rest n g₀ g where
  current := h'.current
  length := h.length.trans h'.length
  fnOf b hb := (h'.fnOf b (hb.trans_le h.length)).trans (h.fnOf b hb)
  instrs b fn hb hfn := by
    have hb₁ := (h.fnOf b (CodegenContext.lt_of_fnOf hb)).trans hb
    exact (h'.instrs b fn hb₁ hfn).trans (h.instrs b fn hb hfn)

/-- Nothing matters but the blocks and the method. -/
theorem Rest.of_blocks (h : Rest n g₀ g) (hblocks : g'.blocks = g.blocks)
    (hcurrent : g'.current_method.fn < n) : Rest n g₀ g' where
  current := hcurrent
  length := by
    rw [hblocks]
    exact h.length
  fnOf b hb := by
    rw [CodegenContext.fnOf, hblocks]
    exact h.fnOf b hb
  instrs b fn hb hfn := by
    rw [CodegenContext.instrs, hblocks]
    exact h.instrs b fn hb hfn

theorem Rest.moveTo (h : Rest n g₀ g) (b : Nat) : Rest n g₀ (g.moveTo b) :=
  h.of_blocks rfl h.current

/-- What is generated in the method does not touch the blocks of others. -/
theorem Rest.run (h : Rest n g₀ g) (hg : WellFormed g) (hgrow : Grow g g') : Rest n g₀ g' := by
  have hcurrent : g'.current_method.fn < n := hgrow.method ▸ h.current
  refine h.trans ⟨hcurrent, hgrow.length, hgrow.fnOf, fun b fn hb hfn => ?_⟩
  have hne : fn ≠ g.current_method.fn := by
    have hlt := h.current
    omega
  have hbuild : b ≠ g.build := by
    rintro rfl
    exact hne (Option.some.inj (hb.symm.trans hg.build))
  rcases hgrow.kept b (CodegenContext.lt_of_fnOf hb) hbuild with hsame | ⟨hentry, -⟩
  · exact hsame
  · exact absurd (Option.some.inj (hb.symm.trans (entry_iff.mp hentry).1)) hne

theorem Rest.emitAt (h : Rest n g₀ g) (hb : g.fnOf b = some g.current_method.fn) (i : Instr) :
    Rest n g₀ (g.emitAt b i) := by
  refine h.trans ⟨h.current, (CodegenContext.emitAt_length b i).ge,
    fun c _ => CodegenContext.emitAt_fnOf b c i, fun c fn hc hfn => ?_⟩
  apply CodegenContext.emitAt_instrs_ne
  rintro rfl
  have hlt := h.current
  have heq := Option.some.inj (hc.symm.trans hb)
  omega

theorem Rest.append (h : Rest n g₀ g) (name : String) : Rest n g₀ (g.append name) := by
  refine h.trans ⟨h.current, ?_, fun b hb => CodegenContext.append_fnOf_of_lt name hb,
    fun b _ _ _ => CodegenContext.append_instrs name b⟩
  rw [CodegenContext.append_length]
  exact Nat.le_succ _

theorem Rest.jumpedOut (h : Rest n g₀ g) (bkout : Nat) {impls : List Nat}
    (himpls : ∀ b ∈ impls, g.fnOf b = some g.current_method.fn) :
    Rest n g₀ (g.jumpedOut bkout impls) := by
  induction impls generalizing g with
  | nil => exact h
  | cons b impls ih =>
      obtain ⟨hb, himpls⟩ := List.forall_mem_cons.mp himpls
      apply ih ((h.emitAt hb (.br bkout)).moveTo b)
      intro c hc
      exact (CodegenContext.emitAt_fnOf ..).trans (himpls c hc)

theorem Rest.afterBegin (h : Rest n g₀ g) (hframe : Frame g₁ g bs) {impls : List Nat}
    (hb : b ∈ bs) (himpls : ∀ c ∈ impls, c ∈ bs) (result : Operand) :
    Rest n g₀ (g.afterBegin b impls result) := by
  have hnew := hframe.append "after_beginblock"
  have hout := hnew.jumpedOut g.blocks.length fun c hc => .tail _ (himpls c hc)
  have hleft := (hout.moveTo (b := b) (.tail _ hb)).emitHere (i := .br g.blocks.length) rfl
  have hjumps := (h.append "after_beginblock").jumpedOut g.blocks.length fun c hc =>
    (hnew.reach c (.tail _ (himpls c hc))).fnOf
  have hbr := (hjumps.moveTo b).emitAt (hout.reach b (.tail _ hb)).fnOf (.br g.blocks.length)
  have hlast := (hbr.moveTo g.blocks.length).emitAt (hleft.reach g.blocks.length (.head _)).fnOf
    (.load ((((g.append "after_beginblock").jumpedOut g.blocks.length impls).moveTo b).emitAt b
      (.br g.blocks.length)).next result)
  exact hlast.of_blocks rfl hlast.current

/-! ### What follows a part of a statement -/

section Steps

variable {result v : Operand} {cond : Expr} {ifbk elsebk statements beginbk : List Stmt}
  {rescuebks : List RescueBlock}

theorem IfSteps.restElse (steps : IfSteps g result cond ifbk elsebk v g') (hg : WellFormed g)
    (h : Rest n g₀ steps.g₃) : Rest n g₀ g' := by
  have hat := steps.atElse (Frame.start hg) (grows_codegenStmts ifbk)
  have helse := hat.run fun hg => grows_codegenStmts elsebk _ _ _ hg steps.elsebk
  have hleft := helse.run fun hg => grow_leaving hg steps.velse result (g.blocks.length + 3)
  have hafter := hleft.moveTo (b := g.blocks.length + 3) (by simp)
  have hrest := (h.run helse.grow.wellFormed (grow_leaving helse.grow.wellFormed steps.velse result
    (g.blocks.length + 3))).moveTo (g.blocks.length + 3)
  rw [steps.last]
  exact hrest.run hafter.grow.wellFormed
    ((Grow.refl hafter.grow.wellFormed).emitNewHere fun _ => rfl)

theorem IfSteps.restIf (steps : IfSteps g result cond ifbk elsebk v g') (hg : WellFormed g)
    (h : Rest n g₀ steps.g₂) : Rest n g₀ g' := by
  have hframe := Frame.start hg
  have hthen := (steps.atIf hframe).run fun hg => grows_codegenStmts ifbk _ _ _ hg steps.ifbk
  have hat := (steps.atElse hframe (grows_codegenStmts ifbk)).grow.wellFormed
  have hleft := (h.run hthen.grow.wellFormed (grow_leaving hthen.grow.wellFormed steps.vthen result
    (g.blocks.length + 3))).moveTo (g.blocks.length + 2)
  exact steps.restElse hg (hleft.run hat (grows_codegenStmts elsebk _ _ _ hat steps.elsebk))

theorem WhileSteps.restBody (steps : WhileSteps g result cond statements v g')
    (hg : WellFormed g) (h : Rest n g₀ steps.g₂) : Rest n g₀ g' := by
  have hbody := (steps.atBody (Frame.start hg)).run
    fun hg => grows_codegenStmts statements _ _ _ hg steps.body
  have hleft := hbody.run fun hg => grow_looped hg steps.vbody result g.blocks.length
  have hafter := hleft.moveTo (b := g.blocks.length + 2) (by simp)
  have hrest := (h.run hbody.grow.wellFormed (grow_looped hbody.grow.wellFormed steps.vbody result
    g.blocks.length)).moveTo (g.blocks.length + 2)
  rw [steps.last]
  exact hrest.run hafter.grow.wellFormed
    ((Grow.refl hafter.grow.wellFormed).emitNewHere fun _ => rfl)

theorem BeginSteps.restRescues (steps : BeginSteps g result beginbk rescuebks v g')
    (hg : WellFormed g) (h : Rest n g₀ steps.g₂) : Rest n g₀ g' := by
  have hclauses := framesRescues_codegenRescues rescuebks _ _ _ _ _ _ _ _
    (steps.atRescues (Frame.start hg) (grows_codegenStmts beginbk)) steps.rescuebks
  have hrethrow := hclauses.run fun hg => grow_rethrown hg (.reg steps.g₁.next)
  have hbody : steps.g₁.build ∈ steps.impls ++ [steps.g₁.build, g.blocks.length, g.build] :=
    List.mem_append_right _ (.head _)
  have hrest := (h.run hclauses.grow.wellFormed (grow_rethrown hclauses.grow.wellFormed
    (.reg steps.g₁.next))).moveTo steps.g₁.build
  rw [steps.last]
  exact hrest.afterBegin (hrethrow.moveTo hbody) hbody (fun b hb => List.mem_append_left _ hb) _

theorem BeginSteps.restBody (steps : BeginSteps g result beginbk rescuebks v g')
    (hg : WellFormed g) (h : Rest n g₀ steps.g₁) : Rest n g₀ g' := by
  have hframe := Frame.start hg
  have hbody := (grows_codegenStmts beginbk _ _ _ hg.guarded steps.body).wellFormed
  have hstored : Rest n g₀ (steps.g₁.unguarded steps.vbody result g.landingpad) :=
    (h.emitAt hbody.build (.store steps.vbody result)).of_blocks rfl h.current
  have hpad := ((hframe.append "landingpad").run
    fun _ => steps.growBody hg (grows_codegenStmts beginbk)).moveTo (b := g.blocks.length) (by simp)
  have hat := (steps.atRescues hframe (grows_codegenStmts beginbk)).grow.wellFormed
  have hlanded := (hstored.moveTo g.blocks.length).run hpad.grow.wellFormed
    (grow_landed hpad.grow.wellFormed)
  have hclauses := (framesRescues_codegenRescues rescuebks _ _ _ _ _ _ _ _ (Frame.start hat)
    steps.rescuebks).grow
  exact steps.restRescues hg (hlanded.run hat hclauses)

theorem ClassSteps.restBody {name : String} {body : List Stmt} (steps : ClassSteps g name body v g')
    (h : Rest n g₀ steps.g₂) : Rest n g₀ g' := by
  rw [steps.last]
  exact h.of_blocks rfl h.current

/-- The method around a method goes on. -/
theorem MethodSteps.restMethod {name : String} {params : Option (List Param)}
    {body : Option (List Stmt)} (steps : MethodSteps g name params body v g') (hg : WellFormed g)
    (hn : g.current_method.fn < n) (h : Rest n g₀ steps.g₁) : Rest n g₀ g' := by
  have hafter := (steps.growMethod hg (grows_codegenMethodBody params body)).wellFormed
  have hrest : Rest n g₀ (g.afterMethod steps.g₁) := h.of_blocks rfl hn
  exact hrest.run hafter (stable_grow.defineMethod _ _ _ _ _ hafter steps.define)

theorem RescueSteps.restOthers {types : List Expr} {var_name : Option String}
    {excep asobj : Operand} {impls : List Nat}
    (steps : RescueSteps g types var_name statements rescuebks result excep asobj impls g')
    (hg : WellFormed g) (h : Rest n g₀ steps.g₂) : Rest n g₀ g' := by
  have hframe := Frame.start hg
  have hbody := ((hframe.enterRescue steps.enter).run
    fun hg => grows_codegenStmts statements _ _ _ hg steps.statements).grow.wellFormed
  have hat := (steps.atOthers hframe (grows_codegenStmts statements)).grow.wellFormed
  have hstored := (h.emitAt hbody.build (.store steps.v result)).moveTo steps.next
  exact hstored.run hat (framesRescues_codegenRescues rescuebks _ _ _ _ _ _ _ _ (Frame.start hat)
    steps.others).grow

end Steps

/-! ### The definitions in a program -/

/-- What has been generated inside a statement is finished. -/
structure Finished (g g' g'' g₁ : CodegenContext) : Prop where
  functions : g.functions ≤ g'.functions
  rest : Rest g'.functions g'' g₁

mutual

theorem Inside.finished {s s' : Stmt} {g g' g'' g₁ : CodegenContext} {v v' : Operand}
    (h : Inside s' g' s g) (hg : WellFormed g)
    (hrun : codegenStmt s g = .ok (v, g₁)) (hrun' : codegenStmt s' g' = .ok (v', g'')) :
    Finished g g' g'' g₁ := by
  have hcurrent := hg.current_lt
  have hgrow := grows_codegenStmt _ _ _ _ hg hrun
  cases h with
  | here =>
      obtain ⟨-, rfl⟩ := ok_unique hrun hrun'
      refine ⟨Nat.le_refl _, .refl ?_⟩
      rw [hgrow.method]
      exact hcurrent
  | ifbk he steps h =>
      obtain ⟨_, _, he', heq, ⟨steps'⟩⟩ := codegenIf_ok hg hrun
      obtain rfl := he.unique he'
      cases heq
      have hframe := Frame.alloca hg he
      have hat := (steps.atIf hframe).grow
      obtain ⟨hval, hg₁⟩ := ok_unique steps.cond steps'.cond
      have hif := steps'.ifbk
      rw [← hval, ← hg₁] at hif
      obtain ⟨hle, hrest⟩ := h.finished hat.wellFormed hif hrun'
      exact ⟨hat.functions.trans hle, steps'.restIf hframe.grow.wellFormed hrest⟩
  | elsebk he steps h =>
      obtain ⟨_, _, he', heq, ⟨steps'⟩⟩ := codegenIf_ok hg hrun
      obtain rfl := he.unique he'
      cases heq
      have hframe := Frame.alloca hg he
      have hat := (steps.atElse hframe (grows_codegenStmts _)).grow
      obtain ⟨hval, hg₁⟩ := ok_unique steps.cond steps'.cond
      have hif := steps'.ifbk
      rw [← hval, ← hg₁] at hif
      obtain ⟨hvthen, hg₂⟩ := ok_unique steps.ifbk hif
      have helse := steps'.elsebk
      rw [← Option.some.inj hvthen, ← hg₂] at helse
      obtain ⟨hle, hrest⟩ := h.finished hat.wellFormed helse hrun'
      exact ⟨hat.functions.trans hle, steps'.restElse hframe.grow.wellFormed hrest⟩
  | whileBody he steps h =>
      obtain ⟨_, he', ⟨steps'⟩⟩ := codegenWhile_ok hg hrun
      obtain rfl := he.unique he'
      have hframe := Frame.alloca hg he
      have hat := (steps.atBody hframe).grow
      obtain ⟨hval, hg₁⟩ := ok_unique steps.cond steps'.cond
      have hbody := steps'.body
      rw [← hval, ← hg₁] at hbody
      obtain ⟨hle, hrest⟩ := h.finished hat.wellFormed hbody hrun'
      exact ⟨hat.functions.trans hle, steps'.restBody hframe.grow.wellFormed hrest⟩
  | beginbk he h =>
      obtain ⟨-, _, he', ⟨steps⟩⟩ := codegenBegin_ok hg hrun
      obtain rfl := he.unique he'
      have hframe := Frame.alloca hg he
      obtain ⟨hle, hrest⟩ := h.finished hframe.grow.wellFormed.guarded steps.body hrun'
      exact ⟨hframe.grow.functions.trans hle, steps.restBody hframe.grow.wellFormed hrest⟩
  | rescuebks he steps h =>
      obtain ⟨-, _, he', ⟨steps'⟩⟩ := codegenBegin_ok hg hrun
      obtain rfl := he.unique he'
      have hframe := Frame.alloca hg he
      have hat := (steps.atRescues hframe (grows_codegenStmts _)).grow
      obtain ⟨hv, hg₁⟩ := ok_unique steps.body steps'.body
      have hclauses := steps'.rescuebks
      rw [← Option.some.inj hv, ← hg₁] at hclauses
      obtain ⟨hle, hrest⟩ := h.finished hat.wellFormed hclauses hrun'
      exact ⟨hat.functions.trans hle, steps'.restRescues hframe.grow.wellFormed hrest⟩
  | classBody steps h =>
      obtain ⟨_, _, heq, ⟨steps'⟩⟩ := codegenClass_ok hrun
      cases heq
      obtain ⟨rfl, hg₁⟩ := ok_unique steps.open_ steps'.open_
      have hbody := steps'.body
      rw [← hg₁] at hbody
      have hopen := stable_grow.openClass _ _ _ _ hg steps.open_
      obtain ⟨hle, hrest⟩ := h.finished (steps.atBody hg) hbody hrun'
      exact ⟨hopen.functions.trans hle, steps'.restBody hrest⟩
  | methodBody hargs h =>
      obtain ⟨steps⟩ := codegenMethod_ok hrun
      obtain ⟨_, v₂, g₂, hargs', hbody, hlast⟩ := codegenMethodBody_ok steps.body
      obtain ⟨-, rfl⟩ := ok_unique hargs hargs'
      have hargsGrow := stableExpr_grow.codegenArgs _ _ _ _ _ (hg.inMethodBlock "") hargs
      have hbodyGrow := grows_codegenStmts _ _ _ _ hargsGrow.wellFormed hbody
      obtain ⟨hle, hrest⟩ := h.finished hargsGrow.wellFormed hbody hrun'
      have hfunctions : g.functions < g'.functions :=
        (Nat.lt_succ_self _).trans_le (hargsGrow.functions.trans hle)
      refine ⟨hfunctions.le, steps.restMethod hg (hcurrent.trans hfunctions) ?_⟩
      rw [hlast]
      exact hrest.run hbodyGrow.wellFormed ((Grow.refl hbodyGrow.wellFormed).emitHere rfl)

theorem InsideStmts.finished {ss : List Stmt} {s' : Stmt} {g g' g'' g₁ : CodegenContext}
    {value : Option Operand} {v' : Operand} (h : InsideStmts s' g' ss g) (hg : WellFormed g)
    (hrun : codegenStmts ss g = .ok (value, g₁)) (hrun' : codegenStmt s' g' = .ok (v', g'')) :
    Finished g g' g'' g₁ := by
  cases h with
  | head h =>
      rename_i s ss
      cases ss with
      | nil =>
          obtain ⟨_, hs, -⟩ := codegenStmts_singleton_ok.mp hrun
          exact h.finished hg hs hrun'
      | cons s₂ ss =>
          obtain ⟨_, g₂, hs, hss⟩ := codegenStmts_cons_ok.mp hrun
          have hgrow := grows_codegenStmt _ _ _ _ hg hs
          obtain ⟨hle, hrest⟩ := h.finished hg hs hrun'
          exact ⟨hle, hrest.run hgrow.wellFormed
            (grows_codegenStmts _ _ _ _ hgrow.wellFormed hss)⟩
  | tail hs h =>
      rename_i s ss _
      cases ss with
      | nil => cases h
      | cons s₂ ss =>
          obtain ⟨_, g₂, hs', hss⟩ := codegenStmts_cons_ok.mp hrun
          obtain ⟨-, rfl⟩ := ok_unique hs hs'
          have hgrow := grows_codegenStmt _ _ _ _ hg hs
          obtain ⟨hle, hrest⟩ := h.finished hgrow.wellFormed hss hrun'
          exact ⟨hgrow.functions.trans hle, hrest⟩

theorem InsideRescues.finished {rescuebks : List RescueBlock} {result excep asobj : Operand}
    {impls : List Nat} {s' : Stmt} {g g' g'' g₁ : CodegenContext} {v' : Operand}
    (h : InsideRescues s' g' rescuebks result excep asobj g)
    (hg : WellFormed g) (hrun : codegenRescues rescuebks result excep asobj g = .ok (impls, g₁))
    (hrun' : codegenStmt s' g' = .ok (v', g'')) : Finished g g' g'' g₁ := by
  cases h with
  | head steps h =>
      obtain ⟨steps'⟩ := codegenRescues_ok hrun
      have hat := ((Frame.start hg).enterRescue steps.enter).grow
      obtain ⟨-, hg₁⟩ := steps.enter.unique steps'.enter
      have hbody := steps'.statements
      rw [← hg₁] at hbody
      obtain ⟨hle, hrest⟩ := h.finished hat.wellFormed hbody hrun'
      exact ⟨hat.functions.trans hle, steps'.restOthers hg hrest⟩
  | tail steps h =>
      obtain ⟨steps'⟩ := codegenRescues_ok hrun
      have hat := (steps.atOthers (Frame.start hg) (grows_codegenStmts _)).grow
      obtain ⟨hnext, hg₁⟩ := steps.enter.unique steps'.enter
      have hbody := steps'.statements
      rw [← hg₁] at hbody
      obtain ⟨hv, hg₂⟩ := ok_unique steps.statements hbody
      have hothers := steps'.others
      rw [← Option.some.inj hv, ← hg₂, ← hnext] at hothers
      obtain ⟨hle, hrest⟩ := h.finished hat.wellFormed hothers hrun'
      exact ⟨hat.functions.trans hle, hrest⟩

end

/-- **What has been generated stays as it is**: the functions that a statement has made are in the
program as they are after the statement. -/
theorem InsideStmts.stays {stmts : List Stmt} {s : Stmt} {F : CodegenContext}
    (h : generate stmts = .ok F)
    (hin : InsideStmts s g stmts .unitBody) :
    ∃ v g', codegenStmt s g = .ok (v, g') ∧ (∀ b < g'.blocks.length, F.fnOf b = g'.fnOf b) ∧
      ∀ b fn, g'.fnOf b = some fn → g.functions ≤ fn → F.instrs b = g'.instrs b := by
  obtain ⟨v, g₁, hrun, rfl⟩ := generate_ok h
  obtain ⟨hg, v', g', hrun'⟩ := hin.generated wellFormed_unitBody ⟨_, _, hrun⟩
  have hgrow := grows_codegenStmts _ _ _ _ wellFormed_unitBody hrun
  obtain ⟨hle, hrest⟩ := hin.finished wellFormed_unitBody hrun hrun'
  have hret := (hrest.emitAt hgrow.wellFormed.build (.ret v)).moveTo 0
  have hentry : ((g₁.emitAt g₁.build (.ret v)).moveTo 0).fnOf 0 = some g₁.current_method.fn := by
    rw [hgrow.method]
    exact (CodegenContext.emitAt_fnOf ..).trans ((hgrow.fnOf 0 (by decide)).trans rfl)
  have hlast := hret.emitAt hentry (.br 1)
  exact ⟨v', g', hrun', hlast.fnOf, hlast.instrs⟩

end Pup.Codegen
