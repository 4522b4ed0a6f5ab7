/-
A `begin` does what it means.

An exception that is raised in the body gets the machine to the landing pad.  The types of the
clauses are tested there as in `Dispatch`, a clause that fits is executed and left for the end
of the `begin`, and what no clause takes is raised again (`LeftBy`).  A clause is left from the
block that it began in, which is why its statements may not move the builder: where they do, the
jump out of the clause stands in a block that has ended before.
-/
import Pup.Codegen.Branching

namespace Pup.Codegen

open Parse

variable {α β : Type} {g g' g₁ F P : CodegenContext} {scope : List String} {R : Raising α}
  {U : Unwinding α} {pad : Option Nat} {n left : Nat} {s s' : State α} {t t' : Machine α}
  {excep asobj : Operand} {a type : α} [DecidableEq α]

/-! ### Steps of a landing pad -/

theorem Synced.gets_lands (h : Synced F g s t) (hfinal : Final F P) (hg : InMain g pad scope)
    {i : Nat → Instr} (hleads : Leads F (g.emitNew g.build i)) {w : Word α}
    (hlands : t.lands R.toRuntime (R.unwinding s.world.calls) (i g.next) = some (g.next, w)) :
    Execution.Gets R P (.inside t) (.inside (t.set g.next (some w))) ∧
      Synced F (g.emitNew g.build i) s (t.set g.next (some w)) := by
  rw [← h.world] at hlands
  have hstep := (h.stepRaising hfinal (hleads.fetchNew hg.wellFormed)).trans
    (Machine.executeRaising_lands hlands)
  exact ⟨Execution.gets_step hstep, h.setIn hg hleads w⟩

/-! ### The types of a clause -/

/-- A test, and its jump. -/
theorem gets_test_jump (hfinal : Final F P) (hg : InMain g pad scope) {expected : Operand}
    {name : String} {bkrescue : Nat} (hleads : Leads F (g.tested expected asobj name))
    (hjump : (g.tested expected asobj name).instrs g.build ++
      [.cond (.reg g.next) bkrescue g.blocks.length] <+: F.instrs g.build)
    (h : Yields R.toRuntime F g expected a s t) (hasobj : Holds R.toRuntime t asobj g.next type) :
    ∃ t', Execution.Gets R P (.inside t) (.inside t') ∧ Same g.next t t' ∧
      AtStart F (if (R.unwinding s.world.calls).isDescendantOrSame a type then bkrescue
        else g.blocks.length) s t' := by
  have hleads₁ : Leads F (g.emitNew g.build fun r =>
      .call r "pup_is_descendant_or_same" [expected, asobj]) := hleads.moved.append
  have hwords : List.Forall₂ (fun v w => t.eval R.toRuntime v = some w) [expected, asobj]
      [.value a, .value type] := .cons h.holds.eval (.cons hasobj.eval .nil)
  obtain ⟨hgets, h₁⟩ := h.toSynced.gets_lands (R := R) hfinal hg hleads₁
    (Machine.lands_call hwords rfl)
  generalize (R.unwinding s.world.calls).isDescendantOrSame a type = matched at *
  have hstep : Machine.step R.toRuntime P (t.set g.next (some (.bit matched))) =
      (t.set g.next (some (.bit matched))).jump
        (if matched then bkrescue else g.blocks.length) := by
    rw [h₁.step hfinal (tested_instrs .. ▸ hjump)]
    have hbit : (t.set g.next (some (.bit matched))).eval R.toRuntime (.reg g.next) =
        some (.bit matched) := Function.update_self ..
    rw [Machine.execute, hbit]
  have hjumped := h₁.toRelated.gets (R := R) (h₁.jump _).toRelated rfl
    (Machine.reaches_step hstep)
  exact ⟨_, hgets.trans hjumped, (Same.refl g.next t).set (Nat.le_refl _) _, h₁.jump _⟩

/-- **The types of a clause are tested as they stand there.** -/
theorem arrives_types (hfinal : Final F P) {types : List Expr} (hcore : coreExprs types)
    (hg : InMain g pad scope) {tests : List (Nat × Operand × Nat)}
    (hrun : codegenTypes asobj types g = .ok (tests, g')) (hleads : Leads F g') {bkrescue : Nat}
    (hjumps : Jumps F g' bkrescue tests) (h : Synced F g s t)
    (hasobj : Holds R.toRuntime t asobj g.next type) :
    Arrives R F P pad g.next s.world.left t
      (fun matched s' t' => if matched then AtStart F bkrescue s' t' else Synced F g' s' t')
      (Exec.matchesTypes R type types scope s) := by
  induction types generalizing g scope tests s t with
  | nil =>
      rw [codegenTypes, pure_ok] at hrun
      obtain ⟨rfl, rfl⟩ := hrun
      exact arrives_pure (by simpa using h) (Nat.le_refl _)
  | cons ex_type types ih =>
      obtain ⟨hexpr, htypes⟩ := Bool.and_eq_true_iff.mp hcore
      obtain ⟨steps⟩ := codegenTypes_ok hrun
      have hframe := steps.atOthers (Frame.start hg.wellFormed)
      obtain ⟨expected, g₁, rest, htype, hothers, rfl⟩ := steps
      let failed := g₁.tested expected asobj (blockNameNotMatched ex_type)
      have hg₁ := hg.expr htype
      have hnext := (grows_codegenExpr _ _ _ _ hg.wellFormed htype).next
      have hfailed : InMain failed pad (scopeExpr ex_type scope) :=
        hg.grow hframe.grow (hg₁.scope.of_locals rfl)
      have hgrow : Grow failed g' := ((Frame.start hfailed.wellFormed).codegenTypes hothers).grow
      have hleads₂ : Leads F failed := hleads.grow hgrow
      have hleads₁ : Leads F g₁ := hleads₂.moved.append.emitNew rfl
      rw [Exec.matchesTypes]
      refine (meant_codegenExpr hfinal ex_type hexpr g expected g₁ pad scope s t hg htype hleads₁
        h).bind fun a s₁ t₁ _ hleft hsame₁ h₁ => ?_
      have hasobj₁ := (hasobj.same hsame₁).mono hnext
      -- the builder has left the block of the test
      have hkept : g'.instrs g₁.build = failed.instrs g₁.build :=
        hgrow.untouched hfailed.entry (by
          rw [tested_length]
          exact Nat.lt_succ_of_lt hg₁.wellFormed.build_lt) hg₁.wellFormed.build_lt.ne hg₁.build
      obtain ⟨t₂, hgets, hsame₂, hstart⟩ := gets_test_jump hfinal hg₁ hleads₂
        (hkept ▸ hjumps _ (.head _)) h₁ hasobj₁
      refine Arrives.after ?_ hgets (hsame₂.mono hnext)
      have hdescends : Exec.descends R a type s₁ =
        (.value ((R.unwinding s₁.world.calls).isDescendantOrSame a type), s₁) := rfl
      rw [exec_bind_value hdescends]
      cases hmatch : (R.unwinding s₁.world.calls).isDescendantOrSame a type with
      | true =>
          rw [hmatch] at hstart
          exact arrives_pure hstart hleft
      | false =>
          rw [hmatch] at hstart
          have h₂ : Synced F failed s₁ t₂ :=
            AtStart.synced (g := failed) hstart (tested_nil hg₁.wellFormed ..)
          have hasobj₂ : Holds R.toRuntime t₂ asobj failed.next type :=
            (hasobj₁.same hsame₂).mono (Nat.le_succ _)
          exact (ih htypes hfailed hothers (fun test htest => hjumps test (.tail _ htest))
            h₂ hasobj₂).mono (hnext.trans (Nat.le_succ _)) hleft

/-! ### Clauses -/

omit [DecidableEq α] in
/-- The builder stays where it is when a clause binds its variable. -/
theorem bound_build (hg : WellFormed g) {var_name : Option String}
    (hbound : bound g g' excep var_name) : g'.build = g.build := by
  cases var_name with
  | none => exact congrArg CodegenContext.build hbound
  | some name =>
      obtain ⟨v, g₁, hslot, rfl⟩ := hbound
      exact (stable_here.getOrCreateLocal name g v g₁ hg hslot).build

/-- **The variable of a clause gets the exception.** -/
theorem gets_bound (hfinal : Final F P) (hg : InMain g pad scope) {var_name : Option String}
    (hbound : bound g g' excep var_name) (hleads : Leads F g') (h : Synced F g s t)
    (hexcep : Holds R.toRuntime t excep n a) :
    ∃ s' t', Exec.bindExcep a var_name s = (.value (), s') ∧ s'.world = s.world ∧
      Execution.Gets R P (.inside t) (.inside t') ∧ Synced F g' s' t' := by
  cases var_name with
  | none =>
      obtain rfl : g' = g := hbound
      exact ⟨s, t, rfl, rfl, .refl _, h⟩
  | some name =>
      obtain ⟨v, g₁, hslot, rfl⟩ := hbound
      have hg₁ := hg.run (stableExpr_grow.getOrCreateLocal name) (scopes_getOrCreateLocal name)
        hslot
      obtain ⟨slot, rfl, hlookup, hsynced⟩ := getOrCreateLocal_synced (s := s) (t := t) hg.ready
        (blind_getOrCreateLocal name g v g₁ hslot)
      have hname := (hleads.emitAt rfl).lookup hlookup
      have h₁ : Synced F g₁ s t := (hsynced h.unpadded).padded
      have hstep : Machine.step R.toRuntime P t = t.write slot 0 a := by
        have hptr : t.eval R.toRuntime (.reg slot) = some (.pointer slot 0) :=
          h₁.slots _ (hfinal.alloca_of_lookup hname) slot rfl
        rw [h₁.step hfinal (hleads.fetch hg₁.wellFormed), Machine.execute, hexcep.eval, hptr]
      have hassigned := h₁.unpadded.assign hfinal hg₁.ready (.store excep (.reg slot)) hname a
      exact ⟨_, _, rfl, rfl, h₁.toRelated.gets hassigned.toRelated rfl (Machine.reaches_step hstep),
        hassigned.padded (g := g₁.emitAt g₁.build _)⟩

/-- What follows the clauses: each is left for the end of the `begin`, and after the last test
the exception is raised again. -/
structure LeftBy (F g : CodegenContext) (impls : List Nat) (bkout : Nat) (dwarf_ex : Operand) :
    Prop where
  jumps : ∀ b ∈ impls, g.instrs b ++ [.br bkout] <+: F.instrs b
  rethrow : g.instrs g.build ++
    [.call g.next "pup_rethrow_uncaught_exception" [dwarf_ex]] <+: F.instrs g.build

/-- The clauses of a `begin` do what they mean, from where the exception and its class are in
registers to the end of the `begin`. -/
def MeantRescues (R : Raising α) (F P : CodegenContext) (rescuebks : List RescueBlock) : Prop :=
  ∀ g impls g' pad scope s t U slot bkout dwarf_ex excep asobj, InMain g pad scope →
    endsRescues pad.isSome rescuebks scope → ResultSlot F slot →
    codegenRescues rescuebks (.reg slot) excep asobj g = .ok (impls, g') → Leads F g' →
    LeftBy F g' impls bkout dwarf_ex → Synced F g s t →
    Holds R.toRuntime t dwarf_ex g.next U.dwarf_ex → Holds R.toRuntime t excep g.next U.excep →
    Holds R.toRuntime t asobj g.next (U.type U.excep) →
    Arrives R F P pad 0 s.world.left t (fun _ s' t' => AtStart F bkout s' t')
      (Exec.execRescues R U rescuebks scope s)

/-- An exception that no clause takes is raised again. -/
theorem meant_rescues_nil (hfinal : Final F P) : MeantRescues R F P [] := by
  intro g impls g' pad scope s t U slot bkout dwarf_ex excep asobj hg _ _ hrun _ hout h hdwarf _ _
  rw [codegenRescues, pure_ok] at hrun
  obtain ⟨rfl, rfl⟩ := hrun
  have hstep := (h.stepRaising (R := R) hfinal hout.rethrow).trans
    (Machine.executeRaising_rethrow hdwarf.eval)
  rw [h.world] at hstep
  exact .left (Execution.gets_step hstep)

section Clause

variable {types : List Expr} {tests : List (Nat × Operand × Nat)}

omit [DecidableEq α] in
theorem InMain.inClause (hg : InMain g pad scope)
    (hrun : codegenTypes asobj types g = .ok (tests, g')) :
    InMain g' pad (scopeExprs types scope) ∧
      InMain (g'.inClause tests) pad (scopeExprs types scope) := by
  have hframe := Frame.start hg.wellFormed
  obtain ⟨hscope, hscope'⟩ := scoped_inClause hg.wellFormed hg.scope hrun
  exact ⟨hg.grow (hframe.codegenTypes hrun).grow hscope,
    hg.grow (hframe.atBound hrun).grow hscope'⟩

end Clause

/-- **A clause does what it means**, and so do those after it. -/
theorem meant_rescues_cons (hfinal : Final F P) {types : Option (List Expr)}
    {var_name : Option String} {statements : List Stmt} {rescuebks : List RescueBlock}
    (hcore : coreExprs (types.getD defaultTypes)) (ihs : MeantStmts R F P statements)
    (ih : MeantRescues R F P rescuebks) :
    MeantRescues R F P (.mk types var_name statements :: rescuebks) := by
  intro g impls g' pad scope s t U slot bkout dwarf_ex excep asobj hg hends hslot hrun hleads hout h
    hdwarf hexcep hasobj
  simp only [endsRescues, Bool.and_eq_true, Bool.not_eq_true'] at hends
  obtain ⟨⟨hends, hstays⟩, hotherends⟩ := hends
  obtain ⟨steps⟩ := codegenRescues_ok hrun
  have hframe := Frame.start hg.wellFormed
  have hat := (steps.atOthers hframe (grows_codegenStmts statements)).grow
  have hentered := (hframe.enterRescue steps.enter).grow
  obtain ⟨bkrescue, next, g₁, v, g₂, rest, enter, hstatements, hothers, rfl⟩ := steps
  let stored := g₂.emitAt g₂.build (.store v (.reg slot))
  let others := stored.moveTo next
  have hscope := enter.scoped hg.wellFormed hg.scope
  have hg₁ : InMain g₁ pad (scopeClause types var_name scope) := hg.grow hentered hscope
  have hg₂ := hg₁.run (grows_codegenStmts statements) (scopes_codegenStmts statements) hstatements
  have hgothers : InMain others pad _ := hg.grow hat (hg₂.scope.of_locals rfl)
  have hgrow := (framesRescues_codegenRescues rescuebks _ _ _ _ _ _ _ _
    (Frame.start hat.wellFormed) hothers).grow
  have hstored : Leads F stored := (hleads.grow hgrow).moved
  have hbody : Grow g₁ stored :=
    (grows_codegenStmts statements _ _ _ hentered.wellFormed hstatements).emitHere rfl
  have hleads₁ : Leads F g₁ := hstored.grow hbody
  have hbuild₂ := (moves_codegenStmts statements g₁ (some v) g₂ _ hg₁.wellFormed hg₁.scope
    hstatements).mpr (hg₁.landingpad ▸ hstays)
  obtain ⟨tests, gT, htypes, rfl, rfl, hbound⟩ := enter
  obtain ⟨hgT, hclause⟩ := hg.inClause htypes
  have hboundgrow : Grow (gT.inClause tests) g₁ :=
    ((Frame.start hclause.wellFormed).bound hbound).grow
  have hleadsJ : Leads F (gT.inClause tests) := hleads₁.grow hboundgrow
  have hleadsT : Leads F gT := hleadsJ.moved.jumpedTo.append
  have hjumps := jumps_inClause hg.wellFormed htypes hleadsJ
  -- the clause is left from the block that it began in
  have hbuild : g₂.build = gT.blocks.length :=
    hbuild₂.trans (bound_build hclause.wellFormed hbound)
  have hleave : stored.instrs g₂.build ++ [.br bkout] <+: F.instrs g₂.build := by
    have hlt : g₂.build < others.blocks.length := by
      show _ < (g₂.emitAt g₂.build _).blocks.length
      rw [CodegenContext.emitAt_length]
      exact hg₂.wellFormed.build_lt
    have hne : g₂.build ≠ others.build := hbuild ▸ hgT.wellFormed.build_lt.ne'
    have hkept : g'.instrs g₂.build = stored.instrs g₂.build :=
      hgrow.untouched hgothers.entry hlt hne hg₂.build
    rw [← hkept, hbuild]
    exact hout.jumps _ (.head _)
  rw [Exec.execRescues_cons]
  refine (arrives_types hfinal hcore hg htypes hleadsT hjumps h hasobj).keep.bind
    fun matched s₁ t₁ _ hleft _ hkeep => ?_
  obtain ⟨h₁, hsame⟩ := hkeep
  cases matched with
  | true =>
      have hstart : Synced F (gT.inClause tests) s₁ t₁ :=
        AtStart.synced (g := gT.inClause tests) h₁ (inClause_nil hg.wellFormed htypes)
      obtain ⟨s₂, t₂, hbind, hworld, hgets, h₂⟩ :=
        gets_bound hfinal hclause hbound hleads₁ hstart (hexcep.same hsame)
      rw [if_pos rfl, exec_bind_value hbind]
      refine Arrives.after ?_ hgets (same_zero _ _)
      refine ((ihs g₁ v g₂ pad _ s₂ t₂ hg₁ hends hstatements (hstored.emitAt rfl) h₂).mono
        (Nat.le_refl 0) (hworld ▸ hleft)).onwards fun _ s₃ t₃ hyields => ?_
      obtain ⟨a, h₃⟩ := hyields
      obtain ⟨hgets₃, h₄⟩ := h₃.gets_store hfinal hg₂ hslot hstored
      exact ⟨_, hgets₃.trans (h₄.gets_br hfinal hleave), same_zero _ _, h₄.jump bkout⟩
  | false =>
      have hkept : stored.instrs gT.build = gT.instrs gT.build :=
        (hboundgrow.trans hbody).after_inClause hg.wellFormed htypes hclause.entry hgT.build
      have h₂ : Synced F others s₁ t₁ := Synced.elsewhere (g := gT) h₁ rfl hkept
      have hnext : g.next ≤ others.next := hat.next
      have hout' : LeftBy F g' rest bkout dwarf_ex :=
        ⟨fun b hb => hout.jumps b (.tail _ hb), hout.rethrow⟩
      rw [if_neg Bool.false_ne_true]
      exact (ih others rest g' pad _ s₁ t₁ U slot bkout dwarf_ex excep asobj hgothers hotherends
        hslot hothers hleads hout' h₂ ((hdwarf.same hsame).mono hnext)
        ((hexcep.same hsame).mono hnext) ((hasobj.same hsame).mono hnext)).mono (Nat.le_refl 0)
          hleft

/-! ### The landing pad -/

/-- **What a landing pad begins with**: the exception and its class are in registers. -/
theorem gets_landed (hfinal : Final F P) (hg : InMain g pad scope) (hnil : g.instrs g.build = [])
    (hleads : Leads F g.landed) (h : AtStart F g.build s t) (hU : R.unwinding s.world.calls = U) :
    ∃ t', Execution.Gets R P (.inside t) (.inside t') ∧ Synced F g.landed s t' ∧
      t'.regs g.next = some (.value U.dwarf_ex) ∧
      t'.regs (g.next + 2) = some (.value U.excep) ∧
      t'.regs (g.next + 5) = some (.value (U.type U.excep)) := by
  subst hU
  let U := R.unwinding s.world.calls
  let n := g.next
  let i₁ := fun r => Instr.call r "llvm.eh.exception" []
  let i₂ := fun r => Instr.call r "llvm.eh.selector"
    [.reg n, .global "pup_eh_personality", .global "eh_catchall"]
  let i₃ := fun r => Instr.call r "extract_exception_obj" [.reg n]
  let i₄ := fun r => Instr.structGep r (.reg (n + 2)) 0
  let i₅ := fun r => Instr.load r (.reg (n + 3))
  let i₆ := fun r => Instr.bitCast r (.reg (n + 4))
  let g₁ := g.emitNew g.build i₁
  let g₂ := g₁.emitNew g.build i₂
  let g₃ := g₂.emitNew g.build i₃
  let g₄ := g₃.emitNew g.build i₄
  let g₅ := g₄.emitNew g.build i₅
  have hg₁ : InMain g₁ pad scope := hg.emitNew fun _ => rfl
  have hg₂ : InMain g₂ pad scope := hg₁.emitNew fun _ => rfl
  have hg₃ : InMain g₃ pad scope := hg₂.emitNew fun _ => rfl
  have hg₄ : InMain g₄ pad scope := hg₃.emitNew fun _ => rfl
  have hg₅ : InMain g₅ pad scope := hg₄.emitNew fun _ => rfl
  have hl₆ : Leads F (g₅.emitNew g₅.build i₆) := hleads
  have hl₅ : Leads F (g₄.emitNew g₄.build i₅) := hl₆.emitNew rfl
  have hl₄ : Leads F (g₃.emitNew g₃.build i₄) := hl₅.emitNew rfl
  have hl₃ : Leads F (g₂.emitNew g₂.build i₃) := hl₄.emitNew rfl
  have hl₂ : Leads F (g₁.emitNew g₁.build i₂) := hl₃.emitNew rfl
  have hl₁ : Leads F (g.emitNew g.build i₁) := hl₂.emitNew rfl
  -- what is in the registers on the way
  let t₁ := t.set n (some (.value U.dwarf_ex))
  let t₂ := t₁.set (n + 1) (some (.int U.sel))
  let t₃ := t₂.set (n + 2) (some (.value U.excep))
  let t₄ := t₃.set (n + 3) (some (.value U.excep))
  let t₅ := t₄.set (n + 4) (some (.value (U.type U.excep)))
  let t₆ := t₅.set (n + 5) (some (.value (U.type U.excep)))
  have hv₁ : t₁.regs n = some (.value U.dwarf_ex) := Function.update_self ..
  have hv₂ : t₂.regs n = some (.value U.dwarf_ex) := by
    rw [← hv₁]
    exact Machine.set_regs (by simp)
  have hv₃ : t₃.regs (n + 2) = some (.value U.excep) := Function.update_self ..
  have hv₄ : t₄.regs (n + 3) = some (.value U.excep) := Function.update_self ..
  have hv₅ : t₅.regs (n + 4) = some (.value (U.type U.excep)) := Function.update_self ..
  have he₁ : t.lands R.toRuntime U (i₁ n) = some (n, .value U.dwarf_ex) :=
    Machine.lands_call .nil rfl
  have he₂ : t₁.lands R.toRuntime U (i₂ (n + 1)) = some (n + 1, .int U.sel) :=
    Machine.lands_call (.cons hv₁ (.cons rfl (.cons rfl .nil))) rfl
  have he₃ : t₂.lands R.toRuntime U (i₃ (n + 2)) = some (n + 2, .value U.excep) :=
    Machine.lands_call (.cons hv₂ .nil) rfl
  have he₄ : t₃.lands R.toRuntime U (i₄ (n + 3)) = some (n + 3, .value U.excep) := by
    simp [Machine.lands, i₄, hv₃]
  have he₅ : t₄.lands R.toRuntime U (i₅ (n + 4)) = some (n + 4, .value (U.type U.excep)) := by
    simp [Machine.lands, i₅, hv₄]
  obtain ⟨hr₁, h₁⟩ := (h.synced hnil).gets_lands hfinal hg hl₁ he₁
  obtain ⟨hr₂, h₂⟩ := h₁.gets_lands hfinal hg₁ hl₂ he₂
  obtain ⟨hr₃, h₃⟩ := h₂.gets_lands hfinal hg₂ hl₃ he₃
  obtain ⟨hr₄, h₄⟩ := h₃.gets_lands hfinal hg₃ hl₄ he₄
  obtain ⟨hr₅, h₅⟩ := h₄.gets_lands hfinal hg₄ hl₅ he₅
  -- the class as an object is not asked of the exception
  have hstep : Machine.step R.toRuntime P t₅ = t₆ := by
    refine (h₅.step hfinal (hl₆.fetchNew hg₅.wellFormed)).trans ?_
    show t₅.set (n + 5) (t₅.regs (n + 4)) = t₆
    rw [hv₅]
  have h₆ := h₅.setIn hg₅ hl₆ (.value (U.type U.excep))
  have hr₆ := h₅.toRelated.gets (R := R) h₆.toRelated rfl (Machine.reaches_step hstep)
  refine ⟨t₆, hr₁.trans (hr₂.trans (hr₃.trans (hr₄.trans (hr₅.trans hr₆)))), h₆, ?_, ?_,
    Function.update_self ..⟩
  · simp [t₆, t₅, t₄, t₃, t₂, t₁, n, Machine.set, Machine.next, U]
  · simp [t₆, t₅, t₄, t₃, n, Machine.set, Machine.next, U]

/-! ### After the clauses -/

section Left

variable {impls : List Nat} {b e : Nat} {result : Operand}

omit [DecidableEq α] in
/-- A clause is left once. -/
theorem jumpedOut_jump {bkout : Nat} (hnodup : impls.Nodup) (he : e ∈ impls)
    (hlt : e < g.blocks.length) :
    (g.jumpedOut bkout impls).instrs e = g.instrs e ++ [.br bkout] := by
  induction impls generalizing g with
  | nil => cases he
  | cons c impls ih =>
      obtain ⟨hnot, hnodup⟩ := List.nodup_cons.mp hnodup
      rcases List.mem_cons.mp he with rfl | he
      · refine (jumpedOut_instrs (e := e) bkout fun c hc heq => hnot (heq ▸ hc)).trans ?_
        exact CodegenContext.emitAt_instrs_self (g := g.moveTo e) hlt _
      · have hne : e ≠ c := fun heq => hnot (heq ▸ he)
        have hlt' : e < ((g.moveTo c).emitAt c (.br bkout)).blocks.length := by
          rw [CodegenContext.emitAt_length]
          exact hlt
        refine (ih hnodup he hlt').trans ?_
        rw [CodegenContext.emitAt_instrs_ne (g := g.moveTo c) hne]
        rfl

omit [DecidableEq α] in
theorem afterBegin_jump (hnodup : impls.Nodup) (he : e ∈ impls) (hne : e ≠ b)
    (hlt : e < g.blocks.length) :
    (g.afterBegin b impls result).instrs e = g.instrs e ++ [.br g.blocks.length] := by
  have hlt' : e < (g.append "after_beginblock").blocks.length := by
    rw [CodegenContext.append_length]
    exact Nat.lt_succ_of_lt hlt
  have hout : ((g.append "after_beginblock").jumpedOut g.blocks.length impls).instrs e =
      g.instrs e ++ [.br g.blocks.length] := by
    rw [jumpedOut_jump hnodup he hlt', CodegenContext.append_instrs]
  refine (CodegenContext.emitAt_instrs_ne (b := g.blocks.length) hlt.ne _).trans ?_
  exact (CodegenContext.emitAt_instrs_ne hne _).trans hout

/-- The context in which the value of a `begin` is loaded. -/
def CodegenContext.joined (g : CodegenContext) (begin_block : Nat) (impls : List Nat) :
    CodegenContext :=
  ((((g.append "after_beginblock").jumpedOut g.blocks.length impls).moveTo begin_block).emitAt
    begin_block (.br g.blocks.length)).moveTo g.blocks.length

omit [DecidableEq α] in
theorem Frame.joined {g₀ : CodegenContext} {bs : List Nat} (h : Frame g₀ g bs) (hb : b ∈ bs)
    (himpls : ∀ c ∈ impls, c ∈ bs) : Grow g₀ (g.joined b impls) := by
  have hnew := h.append "after_beginblock"
  have hout := hnew.jumpedOut g.blocks.length fun c hc => .tail _ (himpls c hc)
  have hleft := (hout.moveTo (b := b) (.tail _ hb)).emitHere (i := .br g.blocks.length) rfl
  exact (hleft.moveTo (b := g.blocks.length) (.head _)).grow

omit [DecidableEq α] in
theorem joined_nil (hb : b < g.blocks.length) (himpls : ∀ c ∈ impls, c < g.blocks.length) :
    (g.joined b impls).instrs g.blocks.length = [] := by
  have hout : ((g.append "after_beginblock").jumpedOut g.blocks.length impls).instrs
      g.blocks.length = [] := by
    rw [jumpedOut_instrs _ fun c hc => (himpls c hc).ne, CodegenContext.append_instrs]
    exact CodegenContext.instrs_of_length_le (Nat.le_refl _)
  exact (CodegenContext.emitAt_instrs_ne hb.ne' _).trans hout

omit [DecidableEq α] in
theorem rethrown_instrs {dwarf_ex : Operand} (he : e ≠ g.build) :
    (g.rethrown dwarf_ex).instrs e = g.instrs e :=
  (CodegenContext.emitAt_instrs_ne he _).trans (CodegenContext.emitAt_instrs_ne he _)

omit [DecidableEq α] in
theorem rethrown_length (dwarf_ex : Operand) :
    (g.rethrown dwarf_ex).blocks.length = g.blocks.length :=
  (CodegenContext.emitAt_length ..).trans (CodegenContext.emitAt_length ..)

omit [DecidableEq α] in
/-- The clauses are in different blocks, which are new, and the last test ends in another. -/
theorem nodup_impls (hg : WellFormed g) {rescuebks : List RescueBlock}
    (hrun : codegenRescues rescuebks result excep asobj g = .ok (impls, g')) :
    (impls ++ [g'.build]).Nodup ∧ ∀ b ∈ impls, g.blocks.length ≤ b ∧ b < g'.blocks.length := by
  induction rescuebks generalizing g impls with
  | nil =>
      rw [codegenRescues, pure_ok] at hrun
      obtain ⟨rfl, rfl⟩ := hrun
      exact ⟨List.nodup_singleton _, List.forall_mem_nil _⟩
  | cons rescuebk rescuebks ih =>
      obtain ⟨types, var_name, statements⟩ := rescuebk
      obtain ⟨steps⟩ := codegenRescues_ok hrun
      have hothers := steps.atOthers (Frame.start hg) (grows_codegenStmts statements)
      have hgrow := (framesRescues_codegenRescues rescuebks _ _ _ _ _ _ _ _
        (Frame.start hothers.grow.wellFormed) steps.others).grow
      have hlt := CodegenContext.lt_of_fnOf (hothers.reach steps.bkrescue (.head _)).fnOf
      have htypes := ((Frame.start hg).codegenTypes steps.enter.types).grow
      have hge : g.blocks.length ≤ steps.bkrescue := steps.enter.bkrescue ▸ htypes.length
      have hnext : steps.next < steps.bkrescue :=
        steps.enter.next.trans_lt (htypes.wellFormed.build_lt.trans_eq steps.enter.bkrescue.symm)
      obtain ⟨hnodup, hbounds⟩ := ih hothers.grow.wellFormed steps.others
      rw [steps.impls]
      refine ⟨List.nodup_cons.mpr ⟨fun hmem => ?_, hnodup⟩, fun c hc => ?_⟩
      · rcases List.mem_append.mp hmem with hmem | hmem
        · exact absurd (hbounds _ hmem).1 (Nat.not_le_of_lt hlt)
        · obtain heq := List.mem_singleton.mp hmem
          rcases hgrow.build with hstay | hnew
          · exact hnext.ne' (heq.trans hstay)
          · exact absurd (heq ▸ hnew) (Nat.not_le_of_lt hlt)
      · rcases List.mem_cons.mp hc with rfl | hc
        · exact ⟨hge, hlt.trans_le hgrow.length⟩
        · exact ⟨hothers.grow.length.trans (hbounds c hc).1, (hbounds c hc).2⟩

end Left

/-! ### The statement -/

section Begin

variable {slot : Nat} {v : Operand} {beginbk : List Stmt} {rescuebks : List RescueBlock}

/-- The parts of a `begin`, and where they are generated. -/
structure BeginSteps.Parts (steps : BeginSteps g (.reg slot) beginbk rescuebks v g')
    (F : CodegenContext) (pad : Option Nat) (scope : List String) : Prop where
  body : InMain steps.g₁ (some g.blocks.length) (scopeStmts beginbk scope)
  stored : Leads F (steps.g₁.emitAt steps.g₁.build (.store steps.vbody (.reg slot)))
  /-- The body is left for the end of the `begin`. -/
  leave : (steps.g₁.emitAt steps.g₁.build (.store steps.vbody (.reg slot))).instrs
    steps.g₁.build ++ [.br steps.g₂.blocks.length] <+: F.instrs steps.g₁.build
  landingpad : InMain (g.atLandingpad steps.g₁ steps.vbody (.reg slot)) pad
    (scopeStmts beginbk scope)
  /-- There is nothing in the landing pad before. -/
  nil : (g.atLandingpad steps.g₁ steps.vbody (.reg slot)).instrs g.blocks.length = []
  landed : InMain (g.atLandingpad steps.g₁ steps.vbody (.reg slot)).landed pad
    (scopeStmts beginbk scope)
  clauses : Grow (g.atLandingpad steps.g₁ steps.vbody (.reg slot)).landed steps.g₂
  leads : Leads F steps.g₂
  left : LeftBy F steps.g₂ steps.impls steps.g₂.blocks.length (.reg steps.g₁.next)

omit [DecidableEq α] in
theorem BeginSteps.parts (steps : BeginSteps g (.reg slot) beginbk rescuebks v g')
    (hg : InMain g pad scope) (hleads : Leads F g') : steps.Parts F pad scope := by
  let atPad := g.atLandingpad steps.g₁ steps.vbody (.reg slot)
  let after := steps.g₂.rethrown (.reg steps.g₁.next)
  have hbody := steps.growBody hg.wellFormed (grows_codegenStmts beginbk)
  have hgrow₁ := grows_codegenStmts beginbk _ _ _ hg.guarded.wellFormed steps.body
  have hg₁ := hg.guarded.run (grows_codegenStmts beginbk) (scopes_codegenStmts beginbk) steps.body
  have hlength : (g.append "landingpad").blocks.length = g.blocks.length + 1 :=
    CodegenContext.append_length _
  have hframe : Frame g atPad _ :=
    (((Frame.start hg.wellFormed).append "landingpad").run fun _ => hbody).moveTo (.head _)
  have hpad : InMain atPad pad (scopeStmts beginbk scope) :=
    hg.grow hframe.grow (hg₁.scope.of_locals rfl)
  have hlanded : InMain atPad.landed pad (scopeStmts beginbk scope) :=
    hpad.keep (grow_landed hpad.wellFormed) rfl
  have hclauses : Grow atPad.landed steps.g₂ := (framesRescues_codegenRescues rescuebks _ _ _ _ _ _
    _ _ (Frame.start hlanded.wellFormed) steps.rescuebks).grow
  obtain ⟨hnodup, hbounds⟩ := nodup_impls hlanded.wellFormed steps.rescuebks
  obtain ⟨himpls, -, hdisjoint⟩ := List.nodup_append.mp hnodup
  -- the block that the body ends in is neither the landing pad nor a block of a clause
  have hlt₁ : steps.g₁.build < atPad.blocks.length := by
    show _ < (steps.g₁.emitAt steps.g₁.build _).blocks.length
    rw [CodegenContext.emitAt_length]
    exact hg₁.wellFormed.build_lt
  have hne₁ : steps.g₁.build ≠ g.blocks.length := by
    rcases hgrow₁.build with hstay | hnew
    · exact hstay.trans_ne hg.wellFormed.build_lt.ne
    · exact (Nat.lt_of_succ_le (hlength.ge.trans hnew)).ne'
  have hlandedlength : atPad.blocks.length ≤ atPad.landed.blocks.length :=
    (grow_landed hpad.wellFormed).length
  have hnot₁ : ∀ c ∈ steps.impls, c ≠ steps.g₁.build := fun c hc heq =>
    absurd (heq ▸ (hbounds c hc).1) (Nat.not_le_of_lt (hlt₁.trans_le hlandedlength))
  have hgrow₂ : Grow atPad steps.g₂ := (grow_landed hpad.wellFormed).trans hclauses
  have hlt₂ : steps.g₁.build < after.blocks.length := by
    rw [rethrown_length]
    exact hlt₁.trans_le hgrow₂.length
  have hkept : steps.g₂.instrs steps.g₁.build =
      (steps.g₁.emitAt steps.g₁.build (.store steps.vbody (.reg slot))).instrs steps.g₁.build :=
    hgrow₂.untouched hpad.entry hlt₁ hne₁ hg₁.build
  have hne₂ : steps.g₁.build ≠ steps.g₂.build := by
    rcases hgrow₂.build with hstay | hnew
    · exact fun heq => hne₁ (heq.trans hstay)
    · exact (hlt₁.trans_le hnew).ne
  have hlast : ∀ c, ((after.moveTo steps.g₁.build).afterBegin steps.g₁.build steps.impls
      (.reg slot)).instrs c <+: F.instrs c := fun c => steps.last ▸ hleads.longer c
  have hafter : Leads F after := steps.leads hleads
  have hleads₂ : Leads F steps.g₂ := hafter.rethrown
  refine ⟨hg₁, ?_, ?_, hpad, steps.landingpad_nil hg.wellFormed hg.entry, hlanded, hclauses,
    hleads₂, ?_, ?_⟩
  · have hleads₀ : Leads F atPad := hleads₂.grow hgrow₂
    exact ⟨hleads₀.longer, hleads₀.next, hleads₀.result, hleads₀.locals⟩
  · have hinstrs := hlast steps.g₁.build
    rw [afterBegin_instrs (g := after.moveTo steps.g₁.build) hnot₁ hlt₂, if_pos rfl] at hinstrs
    have hblock : (after.moveTo steps.g₁.build).instrs steps.g₁.build =
        steps.g₂.instrs steps.g₁.build := rethrown_instrs hne₂
    rw [hblock, hkept] at hinstrs
    exact rethrown_length (g := steps.g₂) (.reg steps.g₁.next) ▸ hinstrs
  · intro c hc
    have hinstrs := hlast c
    have hltc : c < (after.moveTo steps.g₁.build).blocks.length :=
      (hbounds c hc).2.trans_eq (rethrown_length _).symm
    rw [afterBegin_jump himpls hc (hnot₁ c hc) hltc] at hinstrs
    have hblock : (after.moveTo steps.g₁.build).instrs c = steps.g₂.instrs c :=
      rethrown_instrs (hdisjoint c hc _ (.head _))
    rw [hblock] at hinstrs
    exact rethrown_length (g := steps.g₂) (.reg steps.g₁.next) ▸ hinstrs
  · have hcall : Leads F (steps.g₂.emitNew steps.g₂.build fun r =>
        .call r "pup_rethrow_uncaught_exception" [.reg steps.g₁.next]) := hafter.emitAt rfl
    exact hcall.fetchNew hclauses.wellFormed

end Begin

end Pup.Codegen
