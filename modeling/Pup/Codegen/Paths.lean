/-
The paths through generated code.

A function starts at the beginning of its first block.  An `invoke` goes on in the block for
its result or in its landing pad, and whatever else raises leaves the function: there a path
just ends.  `Leaves` is that the builder leaves a block only when something ends the block, so
that what is added to it later is not executed.
-/
import Pup.Lib.Flow
import Pup.Codegen.Frames

namespace Pup.Codegen

open Parse Pup.Flow

variable {α : Type} {g g' g₀ g₁ : CodegenContext}

/-! ### Code -/

/-- The blocks that an instruction names. -/
def Instr.targets : Instr → List Nat
  | .invoke _ _ _ normal exception => [normal, exception]
  | .br block => [block]
  | .cond _ ifTrue ifFalse => [ifTrue, ifFalse]
  | _ => []

/-- The blocks of all functions. -/
def CodegenContext.code (g : CodegenContext) : Code Instr where
  instrs := g.instrs
  targets := Instr.targets
  ends := Instr.isTerminator

/-- A path through a function. -/
def CodegenContext.Path (g : CodegenContext) (path : List Point) : Prop :=
  ∃ fn first, g.entry? fn = some first ∧ g.code.Path first path

theorem CodegenContext.Path.suffix {path before : List Point} {p : Point} (h : g.Path path)
    (hp : (p :: before) <:+ path) : g.Path (p :: before) := by
  obtain ⟨fn, first, hfirst, hpath⟩ := h
  exact ⟨fn, first, hfirst, hpath.suffix hp⟩

/-- What can be evaluated of a program that is generated. -/
theorem generated_of_all {stmts : List Stmt} {P : CodegenContext → Prop} [DecidablePred P]
    (h : (generate stmts).toOption.any (fun F => decide (P F)) = true) :
    ∃ F, generate stmts = .ok F ∧ P F :=
  Outcome.ok_of_any h

/-! ### Blocks that the builder has left -/

theorem mem_emitAt_self {b : Nat} (hb : b < g.blocks.length) (i : Instr) :
    i ∈ (g.emitAt b i).instrs b := by
  rw [CodegenContext.emitAt_instrs_self hb]
  exact List.mem_append_right _ (List.mem_singleton_self i)

theorem WellFormed.build_lt_append (hg : WellFormed g) (name : String) :
    g.build < (g.append name).blocks.length := by
  rw [CodegenContext.append_length]
  exact Nat.lt_succ_of_lt hg.build_lt

/-- The builder is where it was, or the block where it was has been ended. -/
structure Leaves (g g' : CodegenContext) : Prop where
  grow : Grow g g'
  build : g'.build = g.build ∨ ∃ i ∈ g'.instrs g.build, i.isTerminator

theorem Leaves.here (hgrow : Grow g g') (hbuild : g'.build = g.build) : Leaves g g' :=
  ⟨hgrow, .inl hbuild⟩

theorem Leaves.trans (h : Leaves g₀ g₁) (h' : Leaves g₁ g) : Leaves g₀ g where
  grow := h.grow.trans h'.grow
  build := by
    rcases h.build with heq | ⟨i, hi, hends⟩
    · rw [← heq]
      exact h'.build
    · exact .inr ⟨i, (h'.grow.longer g₀.build).subset hi, hends⟩

theorem stableExpr_leaves : StableExpr Leaves where
  wellFormed h := h.grow.wellFormed
  refl hg := .here (.refl hg) rfl
  trans h h' := h.trans h'
  emit hg hi hr := .here (stable_grow.emit hg hi hr) rfl
  emitNew hg hi hr := .here (stable_grow.emitNew hg hi hr) rfl
  emitNewEntry hg he hi hr := .here (stable_grow.emitNewEntry hg he hi hr) rfl
  withLocal hg he hname := .here (grow_withLocal hg he hname) rfl
  call hg hpad args := .here (stableExpr_grow.call hg hpad args) rfl
  invoked {g pad} hg hpad name args := by
    refine ⟨stableExpr_grow.invoked hg hpad name args,
      .inr ⟨.invoke g.next "pup_invoke" args g.blocks.length pad, ?_, rfl⟩⟩
    exact mem_emitAt_self (hg.build_lt_append name) _
  lookup hg args := .here (stableExpr_grow.lookup hg args) rfl

theorem mem_ifBlocks (hg : WellFormed g) :
    Instr.br g.blocks.length ∈ g.ifBlocks.instrs g.build := by
  unfold CodegenContext.ifBlocks
  rw [CodegenContext.append_instrs, CodegenContext.append_instrs, CodegenContext.append_instrs]
  exact mem_emitAt_self (hg.build_lt_append "cond") _

theorem mem_whileBlocks (hg : WellFormed g) :
    Instr.br g.blocks.length ∈ g.whileBlocks.instrs g.build := by
  unfold CodegenContext.whileBlocks
  rw [CodegenContext.append_instrs, CodegenContext.append_instrs]
  exact mem_emitAt_self (hg.build_lt_append "while_cond") _

section Steps

variable {result v : Operand} {cond : Expr}

theorem IfSteps.longer {ifbk elsebk : List Stmt}
    (steps : IfSteps g result cond ifbk elsebk v g') (hg : WellFormed g) :
    Longer g.ifBlocks g' := by
  have hframe := Frame.start hg
  have hcond := grows_codegenExpr cond _ _ _ hframe.atIfCond.grow.wellFormed steps.cond
  have hthen := grows_codegenStmts ifbk _ _ _ (steps.atIf hframe).grow.wellFormed steps.ifbk
  have helse := grows_codegenStmts elsebk _ _ _
    (steps.atElse hframe (grows_codegenStmts ifbk)).grow.wellFormed steps.elsebk
  have h₁ := ((Longer.refl g.ifBlocks).moveTo g.blocks.length).trans hcond.toLonger
  have h₂ := ((h₁.trans (longer_branched steps.val (g.blocks.length + 2)
    (g.blocks.length + 1))).moveTo (g.blocks.length + 1)).trans hthen.toLonger
  have h₃ := ((h₂.trans (longer_leaving steps.vthen result (g.blocks.length + 3))).moveTo
    (g.blocks.length + 2)).trans helse.toLonger
  rw [steps.last]
  exact ((h₃.trans (longer_leaving steps.velse result (g.blocks.length + 3))).moveTo
    (g.blocks.length + 3)).emitNew _ _

theorem WhileSteps.longer {statements : List Stmt}
    (steps : WhileSteps g result cond statements v g') (hg : WellFormed g) :
    Longer g.whileBlocks g' := by
  have hframe := Frame.start hg
  have hcond := grows_codegenExpr cond _ _ _ hframe.atWhileCond.grow.wellFormed steps.cond
  have hbody := grows_codegenStmts statements _ _ _ (steps.atBody hframe).grow.wellFormed
    steps.body
  have h₁ := ((Longer.refl g.whileBlocks).moveTo g.blocks.length).trans hcond.toLonger
  have h₂ := ((h₁.trans (longer_branched steps.val (g.blocks.length + 2)
    (g.blocks.length + 1))).moveTo (g.blocks.length + 1)).trans hbody.toLonger
  rw [steps.last]
  exact ((h₂.trans (longer_looped steps.vbody result g.blocks.length)).moveTo
    (g.blocks.length + 2)).emitNew _ _

theorem longer_codegenRescues {rescuebks : List RescueBlock} {excep asobj : Operand}
    {impls : List Nat} (hg : WellFormed g)
    (h : codegenRescues rescuebks result excep asobj g = .ok (impls, g')) : Longer g g' :=
  (framesRescues_codegenRescues rescuebks _ _ _ [] _ _ _ _ ⟨.refl hg, by simp⟩ h).grow.toLonger

/-- What follows the body of a `begin`. -/
theorem BeginSteps.longer {beginbk : List Stmt} {rescuebks : List RescueBlock}
    (steps : BeginSteps g result beginbk rescuebks v g') (hg : WellFormed g) :
    Longer (steps.g₁.emitAt steps.g₁.build (.store steps.vbody result)) steps.g₂ := by
  have hat := steps.atRescues (Frame.start hg) (grows_codegenStmts beginbk)
  have hland := (longer_landed (g := (steps.g₁.unguarded steps.vbody result
    g.landingpad).moveTo g.blocks.length)).trans
      (longer_codegenRescues hat.grow.wellFormed steps.rescuebks)
  exact ⟨hland.longer, hland.fnOf, hland.length, hland.method⟩

/-- A `begin` jumps from the end of its body to the block after it. -/
theorem mem_afterBegin {b : Nat} (hb : b < g.blocks.length) (impls : List Nat)
    (result : Operand) :
    Instr.br g.blocks.length ∈ (g.afterBegin b impls result).instrs b := by
  have hlonger := ((Longer.refl g).append "after_beginblock").jumpedOut g.blocks.length impls
  have hlt : b < (((g.append "after_beginblock").jumpedOut g.blocks.length impls).moveTo
    b).blocks.length := hb.trans_le hlonger.length
  refine (CodegenContext.emitAt_longer g.blocks.length b _).subset ?_
  exact mem_emitAt_self hlt _

end Steps

mutual

/-- **A block that a statement leaves has been ended.** -/
theorem leaves_codegenStmt : (s : Stmt) → Does Leaves (codegenStmt s)
  | .expr e => by
      rw [codegenStmt]
      exact stableExpr_leaves.codegenExpr e
  | .ifStmt cond ifbk elsebk => by
      intro g v g' hg h
      refine ⟨grows_codegenStmt _ _ _ _ hg h, .inr ?_⟩
      obtain ⟨e, _, he, -, ⟨steps⟩⟩ := codegenIf_ok hg h
      have halloca := (Frame.alloca hg he).grow.wellFormed
      exact ⟨_, ((steps.longer halloca).longer g.build).subset (mem_ifBlocks halloca), rfl⟩
  | .whileStmt cond statements => by
      intro g v g' hg h
      refine ⟨grows_codegenStmt _ _ _ _ hg h, .inr ?_⟩
      obtain ⟨e, he, ⟨steps⟩⟩ := codegenWhile_ok hg h
      have halloca := (Frame.alloca hg he).grow.wellFormed
      exact ⟨_, ((steps.longer halloca).longer g.build).subset (mem_whileBlocks halloca), rfl⟩
  | .beginStmt beginbk rescuebks elsebk ensurebk => by
      have hbody := leaves_codegenStmts beginbk
      intro g v g' hg h
      refine ⟨grows_codegenStmt _ _ _ _ hg h, .inr ?_⟩
      obtain ⟨-, e, he, ⟨steps⟩⟩ := codegenBegin_ok hg h
      have halloca := (Frame.alloca hg he).grow.wellFormed
      have hleaves := hbody _ _ _ halloca.guarded steps.body
      have hlonger := steps.longer halloca
      rw [steps.last]
      have hlast : Longer steps.g₂ ((steps.g₂.rethrown (.reg steps.g₁.next)).moveTo
          steps.g₁.build) := (longer_rethrown _).moveTo _
      rcases hleaves.build with heq | ⟨i, hi, hends⟩
      · have hlt : steps.g₁.build < ((steps.g₂.rethrown (.reg steps.g₁.next)).moveTo
            steps.g₁.build).blocks.length :=
          (hleaves.grow.wellFormed.build_lt.trans_le (CodegenContext.emitAt_length _ _).ge).trans_le
            (hlonger.length.trans hlast.length)
        have hbuild : g.build = steps.g₁.build := heq.symm
        rw [hbuild]
        exact ⟨_, mem_afterBegin hlt _ _, rfl⟩
      · refine ⟨i, ((hlast.afterBegin _ _ _).longer g.build).subset ?_, hends⟩
        exact (hlonger.longer g.build).subset ((CodegenContext.emitAt_longer ..).subset hi)
  | .classDef name extends_ none => by
      intro g v g' hg h
      obtain ⟨_, _, ⟨⟩, _⟩ := codegenClass_ok h
  | .classDef name extends_ (some body) => by
      have hbody := leaves_codegenStmts body
      intro g v g' hg h
      refine ⟨grows_codegenStmt _ _ _ _ hg h, ?_⟩
      obtain ⟨_, _, heq, ⟨steps⟩⟩ := codegenClass_ok h
      cases heq
      have hopen := stableExpr_leaves.openClass name _ _ _ hg steps.open_
      have hinside := hbody _ _ _ (steps.atBody hg) steps.body
      have hboth : Leaves g { steps.g₂ with self_ref := steps.g₁.self_ref } :=
        hopen.trans ⟨hinside.grow.withSelf, hinside.build⟩
      rw [steps.last]
      exact hboth.build
  | .methodDef name params body => by
      intro g v g' hg h
      obtain ⟨steps⟩ := codegenMethod_ok h
      have hmethod := steps.growMethod hg (grows_codegenMethodBody params body)
      have hdefine := stableExpr_leaves.defineMethod _ _ _ _ _ hmethod.wellFormed steps.define
      exact (Leaves.here hmethod rfl).trans hdefine

theorem leaves_codegenStmts : (ss : List Stmt) → Does Leaves (codegenStmts ss)
  | [] => by
      rw [codegenStmts]
      exact stableExpr_leaves.pure _
  | [s] => by
      rw [codegenStmts]
      exact stableExpr_leaves.bind (leaves_codegenStmt s) fun _ => stableExpr_leaves.pure _
  | s :: s' :: ss => by
      rw [codegenStmts]
      · exact stableExpr_leaves.bind (leaves_codegenStmt s) fun _ => leaves_codegenStmts (s' :: ss)
      · nofun

end

end Pup.Codegen
