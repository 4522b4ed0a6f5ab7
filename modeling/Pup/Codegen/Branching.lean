/-
Branches and loops do what they mean when calls raise.

What a statement does between two calls, it does as in `Refinement`; what is new is that a part
of it may end elsewhere, at the landing pad or outside the function, and then the statement ends
there.  For the clauses of a `begin` the builder has to be where it was (`endsStmts`), which is
handed down to the parts.
-/
import Pup.Codegen.Guarded
import Pup.Codegen.Terminators

namespace Pup.Codegen

open Parse

variable {α : Type} {g g' g₁ F P : CodegenContext} {scope : List String} {R : Raising α}
  {pad : Option Nat} {left : Nat} {s s' : State α} {t t' t₁ : Machine α} {v : Operand} {a : α}

/-! ### Stores and jumps -/

theorem Yields.unpadded {R : Runtime α} (h : Yields R F g v a s t) :
    Yields R F g.unpadded v a s t :=
  ⟨h.toSynced.unpadded, h.holds⟩

theorem left_lt_of_raising {a : α} (h : Exec.call R .safepoint s = (.value a, s')) :
    s'.world.left < s.world.left := by
  rw [Exec.call] at h
  split at h
  · cases h
  · next b world _ hcall =>
      obtain rfl := congrArg Prod.snd h
      refine left_lt_of_safepoint (R := R.toRuntime) (s := s) (a := b) ?_
      rw [Interp.call, hcall]
  · cases h

variable [DecidableEq α]

theorem Synced.gets_br (h : Synced F g s t) (hfinal : Final F P) {b : Nat}
    (hi : g.instrs g.build ++ [.br b] <+: F.instrs g.build) :
    Execution.Gets R P (.inside t) (.inside (t.jump b)) :=
  h.toRelated.gets (h.jump b).toRelated rfl (h.reaches_br hfinal hi)

/-- The value of a statement is stored. -/
theorem Yields.gets_store (h : Yields R.toRuntime F g v a s t) (hfinal : Final F P)
    (hg : InMain g pad scope) {slot : Nat} (hslot : ResultSlot F slot)
    (hleads : Leads F (g.emitAt g.build (.store v (.reg slot)))) :
    Execution.Gets R P (.inside t) (.inside (t.write slot 0 a)) ∧
      Synced F (g.emitAt g.build (.store v (.reg slot))) s (t.write slot 0 a) := by
  obtain ⟨hreaches, h₁⟩ := h.unpadded.reaches_store hfinal hg.ready hslot hleads.unpadded
  exact ⟨h.toRelated.gets h₁.toRelated rfl hreaches,
    h₁.padded (g := g.emitAt g.build (.store v (.reg slot)))⟩

/-- The value of a branch is stored, and the branch left. -/
theorem Yields.gets_leaving (h : Yields R.toRuntime F g v a s t) (hfinal : Final F P)
    (hg : InMain g pad scope) {slot b : Nat} (hslot : ResultSlot F slot)
    (hleads : Leads F (g.leaving v (.reg slot) b)) :
    ∃ t', Execution.Gets R P (.inside t) (.inside t') ∧ AtStart F b s t' := by
  obtain ⟨t', hreaches, -, hstart⟩ :=
    h.unpadded.reaches_leaving hfinal hg.ready hslot hleads.unpadded
  exact ⟨t', h.toRelated.gets hstart.toRelated rfl hreaches, hstart⟩

/-- The value of a statement is loaded where it goes on. -/
theorem AtStart.gets_result (h : AtStart F g.build s t) (hfinal : Final F P)
    (hg : InMain g pad scope) {slot : Nat} (hslot : ResultSlot F slot)
    (hnil : g.instrs g.build = [])
    (hleads : Leads F (g.emitNew g.build fun r => .load r (.reg slot))) :
    ∃ t', Execution.Gets R P (.inside t) (.inside t') ∧ Same 0 t t' ∧
      ∃ a, Yields R.toRuntime F (g.emitNew g.build fun r => .load r (.reg slot)) (.reg g.next) a
        s t' := by
  obtain ⟨t', a, hreaches, -, h₁⟩ := AtStart.reaches_result (R := R.toRuntime)
    (g := g.unpadded) h hfinal hg.ready hslot hnil hleads.unpadded
  exact ⟨t', h.toRelated.gets h₁.toRelated rfl hreaches, same_zero t t', a,
    h₁.toSynced.padded (g := g.emitNew g.build _), h₁.holds⟩

/-! ### Conditions -/

/-- **The jump after a condition.** -/
theorem arrives_test (hfinal : Final F P) (hg : InMain g pad scope) {cond : Expr} {val : Operand}
    (hcore : coreExpr cond) (hrun : codegenExpr cond g = .ok (val, g₁)) {ifFalse otherwise : Nat}
    (hleads : Leads F (g₁.branched val ifFalse otherwise)) (h : Synced F g s t) :
    Arrives R F P pad g.next s.world.left t
      (fun holds s' t' => AtStart F (if holds then otherwise else ifFalse) s' t')
      (Exec.test R cond scope s) := by
  have hg₁ := hg.expr hrun
  have hgrow₁ := grows_codegenExpr _ _ _ _ hg.wellFormed hrun
  let isFalse := fun r => Instr.call r "pup_env_get_falseinstance" [.env]
  let compare := fun r => Instr.icmpEq r val (.reg g₁.next)
  have hg₂ : InMain (g₁.emitNew g₁.build isFalse) pad (scopeExpr cond scope) :=
    hg₁.emitNew fun _ => rfl
  have hg₃ : InMain ((g₁.emitNew g₁.build isFalse).emitNew g₁.build compare) pad
      (scopeExpr cond scope) := hg₂.emitNew fun _ => rfl
  have hleads₃ := hleads.grow ((Grow.refl hg₃.wellFormed).emitHere rfl)
  have hleads₂ := hleads₃.grow ((Grow.refl hg₂.wellFormed).emitNewHere fun _ => rfl)
  have hleads₁ := hleads₂.grow ((Grow.refl hg₁.wellFormed).emitNewHere fun _ => rfl)
  refine (meant_codegenExpr hfinal cond hcore g val g₁ pad scope s t hg hrun hleads₁ h).bind
    fun a s₁ t₁ _ hleft₁ hsame₁ h₁ => ?_
  refine ((arrives_call hfinal hg₁ hleads₂ h₁.toSynced (by decide) rfl
    fun _ h => (by cases h)).bind
      fun c s₂ t₂ hcall hleft₂ hsame₂ h₂ => ?_).mono hgrow₁.next hleft₁
  obtain rfl : R.falseinstance = c := Exit.value.inj (congrArg Prod.fst hcall)
  have hval : t₂.eval R.toRuntime val = some (.value a) := (h₁.holds.same hsame₂).eval
  have hfalse : t₂.regs g₁.next = some (.value R.falseinstance) := h₂.holds.eval
  -- the comparison
  have hstep₃ : Machine.step R.toRuntime P t₂ =
      t₂.set (g₁.next + 1) (some (.bit (a = R.falseinstance))) := by
    rw [h₂.step hfinal (hleads₃.fetchNew hg₂.wellFormed)]
    show t₂.execute R.toRuntime (.icmpEq (g₁.next + 1) val (.reg g₁.next)) = _
    simp [Machine.execute, hval, hfalse]
  have h₃ : Synced F _ s₂ (t₂.set (g₁.next + 1) (some (.bit (a = R.falseinstance)))) :=
    h₂.toSynced.setIn hg₂ hleads₃ (.bit (a = R.falseinstance))
  -- and the jump
  have hstep₄ : Machine.step R.toRuntime P
      (t₂.set (g₁.next + 1) (some (.bit (a = R.falseinstance)))) =
        (t₂.set (g₁.next + 1) (some (.bit (a = R.falseinstance)))).jump
          (if !decide (a = R.falseinstance) then otherwise else ifFalse) := by
    rw [h₃.step hfinal (hleads.fetch hg₃.wellFormed)]
    generalize decide (a = R.falseinstance) = b
    have hbit : (t₂.set (g₁.next + 1) (some (.bit b))).eval R.toRuntime (.reg (g₁.next + 1)) =
      some (.bit b) := Function.update_self ..
    show Machine.execute R.toRuntime _ (.cond (.reg (g₁.next + 1)) ifFalse otherwise) = _
    rw [Machine.execute, hbit]
    cases b <;> rfl
  have hreaches := (Machine.reaches_step hstep₃).trans (Machine.reaches_step hstep₄)
  exact .value (h₂.toRelated.gets (h₃.jump _).toRelated rfl hreaches)
    ((Same.refl g₁.next t₂).set (Nat.le_succ _) _) hleft₂ (h₃.jump _)

/-! ### Statements -/

/-- What a statement is generated as does what it means, and the value is in an operand. -/
def MeantStmt (R : Raising α) (F P : CodegenContext) (stmt : Stmt) : Prop :=
  ∀ g v g' pad scope s t, InMain g pad scope → endsStmt pad.isSome stmt scope →
    codegenStmt stmt g = .ok (v, g') → Leads F g' → Synced F g s t →
    Arrives R F P pad 0 s.world.left t
      (fun _ s' t' => ∃ a, Yields R.toRuntime F g' v a s' t') (Exec.exec R stmt scope s)

/-- The same of the statements of a block, which has some. -/
def MeantStmts (R : Raising α) (F P : CodegenContext) (ss : List Stmt) : Prop :=
  ∀ g v g' pad scope s t, InMain g pad scope → endsStmts pad.isSome ss scope →
    codegenStmts ss g = .ok (some v, g') → Leads F g' → Synced F g s t →
    Arrives R F P pad 0 s.world.left t
      (fun _ s' t' => ∃ a, Yields R.toRuntime F g' v a s' t') (Exec.execStmts R ss scope s)

theorem meant_expr (hfinal : Final F P) {e : Expr} (hcore : coreExpr e) :
    MeantStmt R F P (.expr e) := by
  intro g v g' pad scope s t hg _ hrun hleads h
  rw [codegenStmt] at hrun
  refine ((meant_codegenExpr hfinal e hcore g v g' pad scope s t hg hrun hleads h).mono
    (Nat.zero_le _) (Nat.le_refl _)).bind fun a s₁ t₁ _ hleft _ h₁ => ?_
  exact arrives_pure ⟨a, h₁⟩ hleft

/-- A branch of an `if`, from the start of its block. -/
theorem arrives_branch (hfinal : Final F P) (hg : InMain g pad scope) (hfresh : Fresh g g.build)
    {ss : List Stmt} {slot b : Nat} (ih : MeantStmts R F P ss)
    (hends : endsStmts pad.isSome ss scope) (hrun : codegenStmts ss g = .ok (some v, g₁))
    (hslot : ResultSlot F slot) (hleads : Leads F (g₁.leaving v (.reg slot) b))
    (h : AtStart F g.build s t) :
    Arrives R F P pad 0 s.world.left t (fun _ s' t' => AtStart F b s' t')
      (Exec.execStmts R ss scope s) := by
  have hg₁ := hg.run (grows_codegenStmts ss) (scopes_codegenStmts ss) hrun
  have hleads₁ := hleads.grow (grow_leaving hg₁.wellFormed v (.reg slot) b)
  refine (ih g v g₁ pad scope s t hg hends hrun hleads₁ (h.synced hfresh.nil)).onwards
    fun _ s' t' hyields => ?_
  obtain ⟨a, h₁⟩ := hyields
  obtain ⟨t'', hgets, hstart⟩ := h₁.gets_leaving hfinal hg₁ hslot hleads
  exact ⟨t'', hgets, same_zero t' t'', hstart⟩

section If

variable {cond : Expr} {ifbk elsebk : List Stmt} {slot : Nat}

/-- **An `if` does what it means.** -/
theorem IfSteps.arrives (steps : IfSteps g (.reg slot) cond ifbk elsebk v g')
    (hfinal : Final F P) (hg : InMain g pad scope) (hslot : ResultSlot F slot)
    (hleads : Leads F g') (h : Synced F g s t) (hcore : coreExpr cond)
    (ihif : MeantStmts R F P ifbk) (ihelse : MeantStmts R F P elsebk)
    (hendsif : endsStmts pad.isSome ifbk (scopeExpr cond scope))
    (hendselse : endsStmts pad.isSome elsebk (scopeStmts ifbk (scopeExpr cond scope))) :
    Arrives R F P pad 0 s.world.left t (fun _ s' t' => ∃ a, Yields R.toRuntime F g' v a s' t')
      (Exec.exec R (.ifStmt cond ifbk (some elsebk)) scope s) := by
  have hframe := Frame.start hg.wellFormed
  have hif := grows_codegenStmts ifbk
  have helse := grows_codegenStmts elsebk
  obtain ⟨val, g₁, vthen, g₂, velse, g₃, hrun, hrunif, hrunelse, hvalue, hlast⟩ := steps
  let steps : IfSteps g (.reg slot) cond ifbk elsebk v g' :=
    ⟨val, g₁, vthen, g₂, velse, g₃, hrun, hrunif, hrunelse, hvalue, hlast⟩
  -- the contexts in which the parts are generated
  let atCond := g.ifBlocks.moveTo g.blocks.length
  let atIf := (g₁.branched val (g.blocks.length + 2) (g.blocks.length + 1)).moveTo
    (g.blocks.length + 1)
  let atElse := (g₂.leaving vthen (.reg slot) (g.blocks.length + 3)).moveTo (g.blocks.length + 2)
  let atEnd := (g₃.leaving velse (.reg slot) (g.blocks.length + 3)).moveTo (g.blocks.length + 3)
  have hg₀ : InMain atCond pad scope := hg.keep hframe.atIfCond.grow rfl
  have hg₁ := hg₀.expr hrun
  have hgif : InMain atIf pad (scopeExpr cond scope) :=
    hg.grow (steps.atIf hframe).grow (hg₁.scope.of_locals rfl)
  have hg₂ := hgif.run hif (scopes_codegenStmts ifbk) hrunif
  have hgelse : InMain atElse pad (scopeStmts ifbk (scopeExpr cond scope)) :=
    hg.grow (steps.atElse hframe hif).grow (hg₂.scope.of_locals rfl)
  have hg₃ := hgelse.run helse (scopes_codegenStmts elsebk) hrunelse
  -- nothing has been generated in the blocks that are jumped to
  have hgrow₁ : Grow atCond (g₁.branched val (g.blocks.length + 2) (g.blocks.length + 1)) :=
    (grows_codegenExpr cond _ _ _ hg₀.wellFormed hrun).trans (grow_branched hg₁.wellFormed _ _ _)
  have hgrow₂ : Grow atIf (g₂.leaving vthen (.reg slot) (g.blocks.length + 3)) :=
    (hif _ _ _ hgif.wellFormed hrunif).trans (grow_leaving hg₂.wellFormed _ _ _)
  have hgrow₃ : Grow atElse (g₃.leaving velse (.reg slot) (g.blocks.length + 3)) :=
    (helse _ _ _ hgelse.wellFormed hrunelse).trans (grow_leaving hg₃.wellFormed _ _ _)
  have hfresh : ∀ {k}, k < 4 → k ≠ 0 → Fresh (g₁.branched val (g.blocks.length + 2)
      (g.blocks.length + 1)) (g.blocks.length + k) := fun hk hpos =>
    (fresh_ifBlocks hg.wellFormed hk).grow hgrow₁ hg₀.entry fun heq =>
      hpos (Nat.add_eq_left.mp heq)
  have hfreshif : Fresh atIf (g.blocks.length + 1) := (hfresh (by decide) (by decide)).moveTo _
  have hfreshelse : Fresh atElse (g.blocks.length + 2) :=
    (((hfresh (by decide) (by decide)).moveTo _).grow hgrow₂ hgif.entry
      (Nat.succ_ne_self _)).moveTo _
  have hfreshend : Fresh atEnd (g.blocks.length + 3) :=
    (((((hfresh (by decide) (by decide)).moveTo _).grow hgrow₂ hgif.entry
      (by simp [CodegenContext.moveTo])).moveTo _).grow hgrow₃ hgelse.entry
      (Nat.succ_ne_self _)).moveTo _
  have hgend : InMain atEnd pad (scopeStmts elsebk (scopeStmts ifbk (scopeExpr cond scope))) := by
    have hframe₃ := ((steps.atElse hframe hif).run fun _ => hgrow₃).moveTo
      (b := g.blocks.length + 3) (by simp)
    exact hg.grow hframe₃.grow (hg₃.scope.of_locals rfl)
  -- and the code is a part of the program
  subst hlast hvalue
  have hleads₃ := (hleads.grow ((Grow.refl hgend.wellFormed).emitNewHere fun _ => rfl)).moved
  have hleads₂ := (hleads₃.grow hgrow₃).moved
  have hleads₁ := (hleads₂.grow hgrow₂).moved
  have hleads₀ := (hleads₁.grow hgrow₁).moved
  have hbr := ifBlocks_instrs_self hg.wellFormed ▸ hleads₀.longer g.build
  have hend : ∀ s' t', AtStart F (g.blocks.length + 3) s' t' → ∃ t'',
      Execution.Gets R P (.inside t') (.inside t'') ∧ Same 0 t' t'' ∧
        ∃ a, Yields R.toRuntime F (atEnd.emitNew (g.blocks.length + 3) fun r =>
          .load r (.reg slot)) (.reg g₃.next) a s' t'' := fun s' t' hstart =>
    AtStart.gets_result (g := atEnd) hstart hfinal hgend hslot hfreshend.nil hleads
  have hcond : Synced F atCond s (t.jump g.blocks.length) :=
    AtStart.synced (g := atCond) (h.jump g.blocks.length)
      (fresh_ifBlocks hg.wellFormed (k := 0) (by decide)).nil
  rw [Exec.exec_if]
  refine Arrives.after ?_ (h.gets_br hfinal hbr) (.refl 0 t)
  refine ((arrives_test hfinal hg₀ hcore hrun hleads₁ hcond).mono (Nat.zero_le _)
    (Nat.le_refl _)).bind fun holds s₁ t₁ _ hleft _ hstart => ?_
  cases holds with
  | true =>
      exact ((arrives_branch hfinal hgif hfreshif ihif hendsif hrunif hslot hleads₂ hstart).mono
        (Nat.le_refl 0) hleft).onwards fun _ => hend
  | false =>
      exact ((arrives_branch hfinal hgelse hfreshelse ihelse hendselse hrunelse hslot hleads₃
        hstart).mono (Nat.le_refl 0) hleft).onwards fun _ => hend

end If

section While

variable {cond : Expr} {statements : List Stmt} {slot : Nat}

/-- The body of a `while`, from the start of its block, and the safepoint after it. -/
theorem arrives_body (hfinal : Final F P) (hg : InMain g pad scope) (hfresh : Fresh g g.build)
    {b : Nat} (ih : MeantStmts R F P statements) (hends : endsStmts pad.isSome statements scope)
    (hrun : codegenStmts statements g = .ok (some v, g₁)) (hslot : ResultSlot F slot)
    (hleads : Leads F (g₁.looped v (.reg slot) b)) (h : AtStart F g.build s t)
    {f : Exec α Unit} {Q : Unit → State α → Machine α → Prop}
    (hagain : ∀ s' t', s'.world.left < s.world.left → AtStart F b s' t' →
      Arrives R F P pad 0 s.world.left t' Q (f s')) :
    Arrives R F P pad 0 s.world.left t Q ((do
      Exec.execStmts R statements scope
      let _ ← Exec.call R .safepoint
      f) s) := by
  have hg₁ := hg.run (grows_codegenStmts statements) (scopes_codegenStmts statements) hrun
  let safepoint := fun r => Instr.call r "pup_env_safepoint" [.env]
  have hg₂ := hg₁.emit (i := .store v (.reg slot)) rfl
  have hg₃ := hg₂.emitNew (i := safepoint) fun _ => rfl
  have hleads₃ := hleads.grow ((Grow.refl hg₃.wellFormed).emitHere (i := .br b) rfl)
  have hleads₂ := hleads₃.grow ((Grow.refl hg₂.wellFormed).emitNewHere fun _ => rfl)
  have hleads₁ := hleads₂.grow ((Grow.refl hg₁.wellFormed).emitHere rfl)
  refine (ih g v g₁ pad scope s t hg hends hrun hleads₁ (h.synced hfresh.nil)).bind
    fun _ s₁ t₁ _ hleft₁ _ hyields => ?_
  obtain ⟨a, h₁⟩ := hyields
  obtain ⟨hgets, h₂⟩ := h₁.gets_store hfinal hg₁ hslot hleads₂
  refine Arrives.after ?_ hgets (.refl _ _)
  refine ((arrives_call hfinal hg₂ hleads₃ h₂ (by decide) rfl
    fun _ h => (by cases h)).mono (Nat.zero_le _) hleft₁).bind
      fun _ s₃ t₃ hcall _ _ h₃ => ?_
  have hlt := (left_lt_of_raising hcall).trans_le hleft₁
  exact (hagain s₃ _ hlt (h₃.toSynced.jump b)).after
    (h₃.toSynced.gets_br hfinal (hleads.fetch hg₃.wellFormed)) (.refl _ _)

/-- **A `while` does what it means.** -/
theorem WhileSteps.arrives (steps : WhileSteps g (.reg slot) cond statements v g')
    (hfinal : Final F P) (hg : InMain g pad scope) (hslot : ResultSlot F slot)
    (hleads : Leads F g') (h : Synced F g s t) (hcore : coreExpr cond)
    (ih : MeantStmts R F P statements)
    (hends : endsStmts pad.isSome statements (scopeExpr cond scope)) :
    Arrives R F P pad 0 s.world.left t (fun _ s' t' => ∃ a, Yields R.toRuntime F g' v a s' t')
      (Exec.exec R (.whileStmt cond statements) scope s) := by
  have hframe := Frame.start hg.wellFormed
  have hstatements := grows_codegenStmts statements
  obtain ⟨val, g₁, vbody, g₂, hrun, hrunbody, hvalue, hlast⟩ := steps
  let steps : WhileSteps g (.reg slot) cond statements v g' :=
    ⟨val, g₁, vbody, g₂, hrun, hrunbody, hvalue, hlast⟩
  -- the contexts in which the parts are generated
  let atCond := g.whileBlocks.moveTo g.blocks.length
  let atBody := (g₁.branched val (g.blocks.length + 2) (g.blocks.length + 1)).moveTo
    (g.blocks.length + 1)
  let atEnd := (g₂.looped vbody (.reg slot) g.blocks.length).moveTo (g.blocks.length + 2)
  have hg₀ : InMain atCond pad scope := hg.keep hframe.atWhileCond.grow rfl
  have hg₁ := hg₀.expr hrun
  have hgbody : InMain atBody pad (scopeExpr cond scope) :=
    hg.grow (steps.atBody hframe).grow (hg₁.scope.of_locals rfl)
  have hg₂ := hgbody.run hstatements (scopes_codegenStmts statements) hrunbody
  -- nothing has been generated in the blocks that are jumped to
  have hgrow₁ : Grow atCond (g₁.branched val (g.blocks.length + 2) (g.blocks.length + 1)) :=
    (grows_codegenExpr cond _ _ _ hg₀.wellFormed hrun).trans (grow_branched hg₁.wellFormed _ _ _)
  have hgrow₂ : Grow atBody (g₂.looped vbody (.reg slot) g.blocks.length) :=
    (hstatements _ _ _ hgbody.wellFormed hrunbody).trans (grow_looped hg₂.wellFormed _ _ _)
  have hfresh : ∀ {k}, k < 3 → k ≠ 0 → Fresh (g₁.branched val (g.blocks.length + 2)
      (g.blocks.length + 1)) (g.blocks.length + k) := fun hk hpos =>
    (fresh_whileBlocks hg.wellFormed hk).grow hgrow₁ hg₀.entry fun heq =>
      hpos (Nat.add_eq_left.mp heq)
  have hfreshbody : Fresh atBody (g.blocks.length + 1) :=
    (hfresh (by decide) (by decide)).moveTo _
  have hfreshend : Fresh atEnd (g.blocks.length + 2) :=
    (((hfresh (by decide) (by decide)).moveTo _).grow hgrow₂ hgbody.entry
      (Nat.succ_ne_self _)).moveTo _
  have hgend : InMain atEnd pad (scopeStmts statements (scopeExpr cond scope)) := by
    have hframe₂ := ((steps.atBody hframe).run fun _ => hgrow₂).moveTo
      (b := g.blocks.length + 2) (by simp)
    exact hg.grow hframe₂.grow (hg₂.scope.of_locals rfl)
  -- and the code is a part of the program
  subst hlast hvalue
  have hleads₂ := (hleads.grow ((Grow.refl hgend.wellFormed).emitNewHere fun _ => rfl)).moved
  have hleads₁ := (hleads₂.grow hgrow₂).moved
  have hleads₀ := (hleads₁.grow hgrow₁).moved
  have hbr := whileBlocks_instrs_self hg.wellFormed ▸ hleads₀.longer g.build
  -- the iterations
  have hloop : ∀ n s t, s.world.left < n → AtStart F g.blocks.length s t →
      Arrives R F P pad 0 s.world.left t
        (fun _ s' t' => AtStart F (g.blocks.length + 2) s' t')
        (Exec.loop R (Exec.test R cond scope)
          (Exec.execStmts R statements (scopeExpr cond scope)) n s) := by
    intro n
    induction n with
    | zero => exact fun _ _ hn => absurd hn (Nat.not_lt_zero _)
    | succ n ihn =>
        intro s t hn hstart
        have hcond : Synced F atCond s t := AtStart.synced (g := atCond) hstart
          (fresh_whileBlocks hg.wellFormed (k := 0) (by decide)).nil
        refine ((arrives_test hfinal hg₀ hcore hrun hleads₁ hcond).mono (Nat.zero_le _)
          (Nat.le_refl _)).bind fun holds s₁ t₁ _ hleft _ hstart₁ => ?_
        cases holds with
        | false => exact arrives_pure hstart₁ hleft
        | true =>
            refine (arrives_body hfinal hgbody hfreshbody ih hends hrunbody hslot hleads₂ hstart₁
              fun s₂ t₂ hlt hstart₂ => ?_).mono (Nat.le_refl _) hleft
            have hlt' := hlt.trans_le (hleft.trans (Nat.le_of_lt_succ hn))
            exact (ihn s₂ t₂ hlt' hstart₂).mono (Nat.le_refl _) hlt.le
  rw [Exec.exec_while]
  refine Arrives.after ?_ (h.gets_br hfinal hbr) (.refl 0 t)
  exact (hloop _ _ _ (Nat.lt_succ_self _) (h.jump g.blocks.length)).onwards
    fun _ s' t' hstart =>
      AtStart.gets_result (g := atEnd) hstart hfinal hgend hslot hfreshend.nil hleads

end While

end Pup.Codegen
