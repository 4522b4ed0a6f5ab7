/-
Programs do what they mean.

A statement that makes blocks jumps between them.  Where the machine jumps to, nothing has been
generated yet at that point of the generator, since the blocks of a statement are new and what
is generated in one of them leaves the others alone: it is at the start of the block and in
step again.  A `while` goes back to the block of its condition, and each time around takes the
interpreter through one more iteration.  The entry block, to which all of this adds slots, is
executed before.
-/
import Pup.Codegen.Simulation

namespace Pup.Codegen

open Parse

variable {α β γ : Type} {g g' g₀ g₁ F P : CodegenContext} {scope : List String}
  {R : Runtime α} {n left : Nat} {s s' : State α} {t t' t₁ : Machine α}

/-! ### Blocks that are empty -/

/-- A block that the builder is not at, and that is not the entry block, is left alone. -/
theorem Grow.untouched (h : Grow g₀ g) (he : IsEntry g₀ 0) {b : Nat} (hlt : b < g₀.blocks.length)
    (hb : b ≠ g₀.build) (hpos : b ≠ 0) : g.instrs b = g₀.instrs b := by
  rcases h.kept b hlt hb with hsame | ⟨hentry, -⟩
  · exact hsame
  · exact absurd (hentry.unique he) hpos

/-- A block of the method that nothing has been generated in. -/
structure Fresh (g : CodegenContext) (b : Nat) : Prop where
  lt : b < g.blocks.length
  pos : b ≠ 0
  nil : g.instrs b = []

theorem Fresh.grow {b : Nat} (h : Fresh g₀ b) (hgrow : Grow g₀ g) (he : IsEntry g₀ 0)
    (hb : b ≠ g₀.build) : Fresh g b where
  lt := h.lt.trans_le hgrow.length
  pos := h.pos
  nil := (hgrow.untouched he h.lt hb h.pos).trans h.nil

theorem Fresh.moveTo {b : Nat} (h : Fresh g b) (c : Nat) : Fresh (g.moveTo c) b :=
  ⟨h.lt, h.pos, h.nil⟩

theorem fresh_ifBlocks (hg : WellFormed g) {k : Nat} (hk : k < 4) :
    Fresh (g.ifBlocks.moveTo g.blocks.length) (g.blocks.length + k) where
  lt := by
    show _ < g.ifBlocks.blocks.length
    simp only [CodegenContext.ifBlocks, CodegenContext.append_length,
      CodegenContext.emitAt_length]
    exact Nat.add_lt_add_left hk _
  pos := ((Nat.zero_le _).trans_lt (hg.build_lt.trans_le (Nat.le_add_right ..))).ne'
  nil := by
    show g.ifBlocks.instrs _ = []
    simp only [CodegenContext.ifBlocks, CodegenContext.append_instrs]
    rw [CodegenContext.emitAt_instrs_ne (hg.build_lt.trans_le (Nat.le_add_right ..)).ne',
      CodegenContext.append_instrs, CodegenContext.instrs_of_length_le (Nat.le_add_right ..)]

theorem fresh_whileBlocks (hg : WellFormed g) {k : Nat} (hk : k < 3) :
    Fresh (g.whileBlocks.moveTo g.blocks.length) (g.blocks.length + k) where
  lt := by
    show _ < g.whileBlocks.blocks.length
    simp only [CodegenContext.whileBlocks, CodegenContext.append_length,
      CodegenContext.emitAt_length]
    exact Nat.add_lt_add_left hk _
  pos := ((Nat.zero_le _).trans_lt (hg.build_lt.trans_le (Nat.le_add_right ..))).ne'
  nil := by
    show g.whileBlocks.instrs _ = []
    simp only [CodegenContext.whileBlocks, CodegenContext.append_instrs]
    rw [CodegenContext.emitAt_instrs_ne (hg.build_lt.trans_le (Nat.le_add_right ..)).ne',
      CodegenContext.append_instrs, CodegenContext.instrs_of_length_le (Nat.le_add_right ..)]

theorem ifBlocks_instrs_self (hg : WellFormed g) :
    g.ifBlocks.instrs g.build = g.instrs g.build ++ [.br g.blocks.length] := by
  simp only [CodegenContext.ifBlocks, CodegenContext.append_instrs]
  rw [CodegenContext.emitAt_instrs_self, CodegenContext.append_instrs]
  exact hg.build_lt.trans_le (by simp)

theorem whileBlocks_instrs_self (hg : WellFormed g) :
    g.whileBlocks.instrs g.build = g.instrs g.build ++ [.br g.blocks.length] := by
  simp only [CodegenContext.whileBlocks, CodegenContext.append_instrs]
  rw [CodegenContext.emitAt_instrs_self, CodegenContext.append_instrs]
  exact hg.build_lt.trans_le (by simp)

/-! ### Runs -/

/-- A run comes to what the interpreter comes to: the calls are the same, and so are the
locals, which are in the slots of the table, when the program returns. -/
structure Agrees (table : List (String × Nat)) (t : Machine α) (o : Option Unit × State α) :
    Prop where
  waits : o.1 = none → t.progress = .waiting
  returns : o.1 = some () → t.progress = .returned
  calls : t.world.calls = o.2.world.calls
  locals : o.1 = some () → ∀ name slot, table.lookup name = some slot →
    t.cells slot 0 = o.2.locals name

/-! ### Jumps -/

/-- The machine is at the start of a block. -/
structure AtStart (F : CodegenContext) (b : Nat) (s : State α) (t : Machine α) : Prop
    extends Related F s t where
  block : t.block = b
  index : t.index = 0

theorem AtStart.synced (h : AtStart F g.build s t) (hnil : g.instrs g.build = []) :
    Synced F g s t :=
  .start h.toRelated h.block h.index hnil

theorem Synced.jump (h : Synced F g s t) (b : Nat) : AtStart F b s (t.jump b) :=
  { h with
    block := rfl
    index := rfl }

theorem left_lt_of_safepoint {a : α} (h : Interp.call R .safepoint s = (some a, s')) :
    s'.world.left < s.world.left := by
  cases hleft : s.world.left with
  | zero => simp [Interp.call, World.call, hleft] at h
  | succ left =>
      simp only [Interp.call, World.call, hleft, Prod.mk.injEq] at h
      rw [← h.2]
      exact Nat.lt_succ_self left

variable [DecidableEq α]

theorem Synced.reaches_br (h : Synced F g s t) (hfinal : Final F P) {b : Nat}
    (hi : g.instrs g.build ++ [.br b] <+: F.instrs g.build) :
    Machine.Reaches R P t (t.jump b) :=
  Machine.reaches_step (h.step hfinal hi)

/-- The slot for the value of a statement. -/
structure ResultSlot (F : CodegenContext) (slot : Nat) : Prop where
  alloca : Instr.alloca slot ∈ F.instrs 0
  not_local : ∀ name, F.current_method.locals.lookup name ≠ some slot

theorem Ready.resultSlot (hg : Ready g scope) (hleads : Leads F (g.emitNew 0 .alloca)) :
    ResultSlot F g.next where
  alloca := by
    refine (hleads.longer 0).subset ?_
    rw [show (g.emitNew 0 .alloca).instrs 0 = _ from
      CodegenContext.emitAt_instrs_self (CodegenContext.lt_of_fnOf (entry_iff.mp hg.entry).1) _]
    exact List.mem_append_right _ (.head _)
  not_local := hleads.not_local hg.wellFormed (Nat.lt_succ_self g.next) rfl

/-- The value of a statement is stored. -/
theorem Yields.reaches_store (h : Yields R F g v a s t) (hfinal : Final F P) (hg : Ready g scope)
    {slot : Nat} (hslot : ResultSlot F slot)
    (hleads : Leads F (g.emitAt g.build (.store v (.reg slot)))) :
    Machine.Reaches R P t (t.write slot 0 a) ∧
      Synced F (g.emitAt g.build (.store v (.reg slot))) s (t.write slot 0 a) := by
  have hptr : t.regs slot = some (.pointer slot 0) := h.slots _ hslot.alloca slot rfl
  refine ⟨Machine.reaches_step ?_, h.toSynced.write hg _ hslot.not_local 0 a⟩
  rw [h.step hfinal (hleads.fetch hg.wellFormed)]
  simp [Machine.execute, h.holds.eval, hptr]

/-- The value of a branch is stored, and the branch left. -/
theorem Yields.reaches_leaving (h : Yields R F g v a s t) (hfinal : Final F P) (hg : Ready g scope)
    {slot b : Nat} (hslot : ResultSlot F slot) (hleads : Leads F (g.leaving v (.reg slot) b)) :
    ∃ t', Machine.Reaches R P t t' ∧ Same g.next t t' ∧ AtStart F b s t' := by
  have hg₁ := hg.emit (i := .store v (.reg slot)) rfl
  have hleads₁ := hleads.grow ((Grow.refl hg₁.wellFormed).emitHere (i := .br b) rfl)
  obtain ⟨hreaches, h₁⟩ := h.reaches_store hfinal hg hslot hleads₁
  exact ⟨_, hreaches.trans (h₁.reaches_br hfinal (hleads.fetch hg₁.wellFormed)), .refl _ _,
    h₁.jump b⟩

/-- The value of a statement is loaded where it goes on. -/
theorem AtStart.reaches_result (h : AtStart F g.build s t) (hfinal : Final F P)
    (hg : Ready g scope) {slot : Nat} (hslot : ResultSlot F slot)
    (hnil : g.instrs g.build = []) (hleads : Leads F (g.emitNew g.build fun r => .load r (.reg slot))) :
    ∃ t' a, Machine.Reaches R P t t' ∧ Same g.next t t' ∧
      Yields R F (g.emitNew g.build fun r => .load r (.reg slot)) (.reg g.next) a s t' := by
  have h₁ := h.synced hnil
  have hptr : t.regs slot = some (.pointer slot 0) := h.slots _ hslot.alloca slot rfl
  refine ⟨_, t.cells slot 0, Machine.reaches_step (h₁.step hfinal (hleads.fetchNew hg.wellFormed)),
    ?_⟩
  have hexec : t.execute R (.load g.next (.reg slot)) =
      t.set g.next (some (.value (t.cells slot 0))) := by
    simp [Machine.execute, hptr]
  rw [hexec]
  refine ⟨(Same.refl g.next t).set (Nat.le_refl _) _, h₁.set hg hleads _,
    Function.update_self .., fun r hr => ?_⟩
  exact Operand.reg.inj hr ▸ Nat.lt_succ_self g.next

/-! ### Conditions -/

/-- **The jump after a condition.** -/
theorem result_test (hfinal : Final F P) (hg : Ready g scope) {cond : Expr} {val : Operand}
    (hcore : coreExpr cond) (hrun : codegenExpr cond g = .ok (val, g₁)) {ifFalse otherwise : Nat}
    (hleads : Leads F (g₁.branched val ifFalse otherwise)) (h : Synced F g s t) :
    Result R P g.next s.world.left t
      (fun holds s' t' => AtStart F (if holds then otherwise else ifFalse) s' t')
      (Interp.test R cond scope s) := by
  have hg₁ := hg.expr hrun
  have hgrow₁ := grows_codegenExpr _ _ _ _ hg.wellFormed hrun
  let isFalse := fun r => Instr.call r "pup_env_get_falseinstance" [.env]
  let compare := fun r => Instr.icmpEq r val (.reg g₁.next)
  have hg₂ : Ready (g₁.emitNew g₁.build isFalse) (scopeExpr cond scope) :=
    hg₁.emitNew fun _ => rfl
  have hg₃ : Ready ((g₁.emitNew g₁.build isFalse).emitNew g₁.build compare)
      (scopeExpr cond scope) := hg₂.emitNew fun _ => rfl
  have hleads₃ := hleads.grow ((Grow.refl hg₃.wellFormed).emitHere rfl)
  have hleads₂ := hleads₃.grow ((Grow.refl hg₂.wellFormed).emitNewHere fun _ => rfl)
  have hleads₁ := hleads₂.grow ((Grow.refl hg₁.wellFormed).emitNewHere fun _ => rfl)
  refine (follows_codegenExpr hfinal cond hcore g val g₁ scope s t hg hrun hleads₁ h).bind
    fun a s₁ t₁ _ hleft₁ hsame₁ h₁ => ?_
  refine ((result_call hfinal hg₁ hleads₂ h₁.toSynced (by decide) rfl).bind
    fun c s₂ t₂ hcall hleft₂ hsame₂ ⟨h₂, _⟩ => ?_).mono hgrow₁.next hleft₁
  obtain rfl : R.falseinstance = c := Option.some.inj (congrArg Prod.fst hcall)
  have hval : t₂.eval R val = some (.value a) := (h₁.holds.same hsame₂).eval
  have hfalse : t₂.regs g₁.next = some (.value R.falseinstance) := h₂.holds.eval
  -- the comparison
  have hstep₃ : Machine.step R P t₂ =
      t₂.set (g₁.next + 1) (some (.bit (a = R.falseinstance))) := by
    rw [h₂.step hfinal (hleads₃.fetchNew hg₂.wellFormed)]
    show t₂.execute R (.icmpEq (g₁.next + 1) val (.reg g₁.next)) = _
    simp [Machine.execute, hval, hfalse]
  have h₃ : Synced F _ s₂ (t₂.set (g₁.next + 1) (some (.bit (a = R.falseinstance)))) :=
    h₂.toSynced.set hg₂ hleads₃ (.bit (a = R.falseinstance))
  -- and the jump
  have hstep₄ : Machine.step R P (t₂.set (g₁.next + 1) (some (.bit (a = R.falseinstance)))) =
      (t₂.set (g₁.next + 1) (some (.bit (a = R.falseinstance)))).jump
        (if !decide (a = R.falseinstance) then otherwise else ifFalse) := by
    rw [h₃.step hfinal (hleads.fetch hg₃.wellFormed)]
    generalize decide (a = R.falseinstance) = b
    have hbit : (t₂.set (g₁.next + 1) (some (.bit b))).eval R (.reg (g₁.next + 1)) =
      some (.bit b) := Function.update_self ..
    show Machine.execute R _ (.cond (.reg (g₁.next + 1)) ifFalse otherwise) = _
    rw [Machine.execute, hbit]
    cases b <;> rfl
  exact .goes ((Machine.reaches_step hstep₃).trans (Machine.reaches_step hstep₄))
    ((Same.refl g₁.next t₂).set (Nat.le_succ _) _) hleft₂ (h₃.jump _)

/-! ### Statements

By recursion over the tree, one theorem for each statement with blocks, to which it comes with
the induction hypotheses of its parts.  Each of them names the contexts in which the parts are
generated, shows that the blocks that are jumped to are empty there and that all of it ends up
in the program, and then follows the jumps.  A `while` is besides by induction on how many calls
the runtime has yet to answer: each time around there is a safepoint, and that takes one.
-/

/-- What is generated for a statement does what it means, and the value is in an operand. -/
def FollowsStmt (R : Runtime α) (F P : CodegenContext) (m : Gen Operand)
    (f : List String → Interp α Unit) : Prop :=
  ∀ g v g' scope s t, Ready g scope → m g = .ok (v, g') → Leads F g' → Synced F g s t →
    Result R P g.next s.world.left t (fun _ s' t' => ∃ a, Yields R F g' v a s' t') (f scope s)

/-- The same of the statements of a block, which has some. -/
def FollowsStmts (R : Runtime α) (F P : CodegenContext) (m : Gen (Option Operand))
    (f : List String → Interp α Unit) : Prop :=
  ∀ g v g' scope s t, Ready g scope → m g = .ok (some v, g') → Leads F g' → Synced F g s t →
    Result R P g.next s.world.left t (fun _ s' t' => ∃ a, Yields R F g' v a s' t') (f scope s)

theorem follows_expr (hfinal : Final F P) {e : Expr} (hcore : coreExpr e) :
    FollowsStmt R F P (codegenStmt (.expr e)) (Interp.exec R (.expr e)) := by
  intro g v g' scope s t hg hrun hleads h
  rw [codegenStmt] at hrun
  refine (follows_codegenExpr hfinal e hcore g v g' scope s t hg hrun hleads h).bind
    fun a s₁ t₁ _ hleft hsame h₁ => ?_
  exact result_pure ⟨a, h₁⟩ hleft

/-- A branch of an `if`, from the start of its block. -/
theorem result_branch (hfinal : Final F P) (hg : Ready g scope) (hfresh : Fresh g g.build)
    {ss : List Stmt} {v : Operand} {slot b : Nat}
    (ih : FollowsStmts R F P (codegenStmts ss) (Interp.execStmts R ss))
    (hrun : codegenStmts ss g = .ok (some v, g₁)) (hslot : ResultSlot F slot)
    (hleads : Leads F (g₁.leaving v (.reg slot) b)) (h : AtStart F g.build s t) :
    Result R P g.next s.world.left t (fun _ s' t' => AtStart F b s' t')
      (Interp.execStmts R ss scope s) := by
  have hgrow := grows_codegenStmts ss _ _ _ hg.wellFormed hrun
  have hg₁ := hg.run (grows_codegenStmts ss) (scopes_codegenStmts ss) hrun
  have hleads₁ := hleads.grow (grow_leaving hg₁.wellFormed v (.reg slot) b)
  refine (ih g v g₁ scope s t hg hrun hleads₁ (h.synced hfresh.nil)).onwards
    fun _ s' t' ⟨a, h₁⟩ => ?_
  obtain ⟨t'', hreaches, hsame, hstart⟩ := h₁.reaches_leaving hfinal hg₁ hslot hleads
  exact ⟨t'', hreaches, hsame.mono hgrow.next, hstart⟩

section If

variable {cond : Expr} {ifbk elsebk : List Stmt} {v : Operand} {slot : Nat}

/-- **An `if` does what it means.** -/
theorem IfSteps.result (steps : IfSteps g (.reg slot) cond ifbk elsebk v g')
    (hfinal : Final F P) (hg : Ready g scope) (hslot : ResultSlot F slot) (hleads : Leads F g')
    (h : Synced F g s t) (hcore : coreExpr cond)
    (ihif : FollowsStmts R F P (codegenStmts ifbk) (Interp.execStmts R ifbk))
    (ihelse : FollowsStmts R F P (codegenStmts elsebk) (Interp.execStmts R elsebk)) :
    Result R P g.next s.world.left t (fun _ s' t' => ∃ a, Yields R F g' v a s' t')
      (Interp.exec R (.ifStmt cond ifbk (some elsebk)) scope s) := by
  have hframe := Frame.start hg.wellFormed
  have hif := grows_codegenStmts ifbk
  have helse := grows_codegenStmts elsebk
  obtain ⟨val, g₁, vthen, g₂, velse, g₃, hrun, hrunif, hrunelse, hvalue, hlast⟩ := steps
  let steps : IfSteps g (.reg slot) cond ifbk elsebk v g' :=
    ⟨val, g₁, vthen, g₂, velse, g₃, hrun, hrunif, hrunelse, hvalue, hlast⟩
  -- the contexts in which the parts are generated
  let atCond := g.ifBlocks.moveTo g.blocks.length
  let atIf := (g₁.branched val (g.blocks.length + 2) (g.blocks.length + 1)).moveTo
    (g.blocks.length + 1)
  let atElse := (g₂.leaving vthen (.reg slot) (g.blocks.length + 3)).moveTo (g.blocks.length + 2)
  let atEnd := (g₃.leaving velse (.reg slot) (g.blocks.length + 3)).moveTo (g.blocks.length + 3)
  have hg₀ : Ready atCond scope := hg.keep hframe.atIfCond.grow rfl
  have hg₁ := hg₀.expr hrun
  have hgif : Ready atIf (scopeExpr cond scope) :=
    hg.grow (steps.atIf hframe).grow (hg₁.scope.of_locals rfl)
  have hg₂ := hgif.run hif (scopes_codegenStmts ifbk) hrunif
  have hgelse : Ready atElse (scopeStmts ifbk (scopeExpr cond scope)) :=
    hg.grow (steps.atElse hframe hif).grow (hg₂.scope.of_locals rfl)
  have hg₃ := hgelse.run helse (scopes_codegenStmts elsebk) hrunelse
  -- nothing has been generated in the blocks that are jumped to
  have hgrow₁ : Grow atCond (g₁.branched val (g.blocks.length + 2) (g.blocks.length + 1)) :=
    (grows_codegenExpr cond _ _ _ hg₀.wellFormed hrun).trans (grow_branched hg₁.wellFormed _ _ _)
  have hgrow₂ : Grow atIf (g₂.leaving vthen (.reg slot) (g.blocks.length + 3)) :=
    (hif _ _ _ hgif.wellFormed hrunif).trans (grow_leaving hg₂.wellFormed _ _ _)
  have hgrow₃ : Grow atElse (g₃.leaving velse (.reg slot) (g.blocks.length + 3)) :=
    (helse _ _ _ hgelse.wellFormed hrunelse).trans (grow_leaving hg₃.wellFormed _ _ _)
  have hfresh : ∀ {k}, k < 4 → k ≠ 0 → Fresh (g₁.branched val (g.blocks.length + 2)
      (g.blocks.length + 1)) (g.blocks.length + k) := fun hk hpos =>
    (fresh_ifBlocks hg.wellFormed hk).grow hgrow₁ hg₀.entry fun heq =>
      hpos (Nat.add_eq_left.mp heq)
  have hfreshif : Fresh atIf (g.blocks.length + 1) := (hfresh (by decide) (by decide)).moveTo _
  have hfreshelse : Fresh atElse (g.blocks.length + 2) :=
    (((hfresh (by decide) (by decide)).moveTo _).grow hgrow₂ hgif.entry
      (Nat.succ_ne_self _)).moveTo _
  have hfreshend : Fresh atEnd (g.blocks.length + 3) :=
    (((((hfresh (by decide) (by decide)).moveTo _).grow hgrow₂ hgif.entry
      (by simp [CodegenContext.moveTo])).moveTo _).grow hgrow₃ hgelse.entry
      (Nat.succ_ne_self _)).moveTo _
  have hgend : Ready atEnd (scopeStmts elsebk (scopeStmts ifbk (scopeExpr cond scope))) := by
    have hframe₃ := ((steps.atElse hframe hif).run fun _ => hgrow₃).moveTo
      (b := g.blocks.length + 3) (by simp)
    exact hg.grow hframe₃.grow (hg₃.scope.of_locals rfl)
  -- and the code is a part of the program
  subst hlast hvalue
  have hleads₃ := (hleads.grow ((Grow.refl hgend.wellFormed).emitNewHere fun _ => rfl)).moved
  have hleads₂ := (hleads₃.grow hgrow₃).moved
  have hleads₁ := (hleads₂.grow hgrow₂).moved
  have hleads₀ := (hleads₁.grow hgrow₁).moved
  have hbr := ifBlocks_instrs_self hg.wellFormed ▸ hleads₀.longer g.build
  have hnext : atCond.next ≤ atIf.next := hgrow₁.next
  have hnext' : atIf.next ≤ atElse.next := hgrow₂.next
  have hnext'' : atElse.next ≤ atEnd.next := hgrow₃.next
  have hend : ∀ s' t', AtStart F (g.blocks.length + 3) s' t' → ∃ t'',
      Machine.Reaches R P t' t'' ∧ Same atCond.next t' t'' ∧ ∃ a, Yields R F
        (atEnd.emitNew (g.blocks.length + 3) fun r => .load r (.reg slot)) (.reg g₃.next) a s' t'' := by
    intro s' t' hstart
    obtain ⟨t'', a, hreaches, hsame, hyields⟩ :=
      AtStart.reaches_result (g := atEnd) hstart hfinal hgend hslot hfreshend.nil hleads
    exact ⟨t'', hreaches, hsame.mono (hnext.trans (hnext'.trans hnext'')), a, hyields⟩
  have hcond : Synced F atCond s (t.jump g.blocks.length) :=
    AtStart.synced (g := atCond) (h.jump g.blocks.length)
      (fresh_ifBlocks hg.wellFormed (k := 0) (by decide)).nil
  rw [Interp.exec]
  refine Result.after ?_ (h.reaches_br hfinal hbr) (.refl g.next t)
  refine (result_test hfinal hg₀ hcore hrun hleads₁ hcond).bind
    fun holds s₁ t₁ _ hleft _ hstart => ?_
  cases holds with
  | true =>
      exact ((result_branch hfinal hgif hfreshif ihif hrunif hslot hleads₂ hstart).mono hnext
        hleft).onwards fun _ => hend
  | false =>
      exact ((result_branch hfinal hgelse hfreshelse ihelse hrunelse hslot hleads₃ hstart).mono
        (hnext.trans hnext') hleft).onwards fun _ => hend

end If

section While

variable {cond : Expr} {statements : List Stmt} {v : Operand} {slot : Nat}

/-- The body of a `while`, from the start of its block, and the safepoint after it. -/
theorem result_body (hfinal : Final F P) (hg : Ready g scope) (hfresh : Fresh g g.build)
    {b : Nat} (ih : FollowsStmts R F P (codegenStmts statements) (Interp.execStmts R statements))
    (hrun : codegenStmts statements g = .ok (some v, g₁)) (hslot : ResultSlot F slot)
    (hleads : Leads F (g₁.looped v (.reg slot) b)) (h : AtStart F g.build s t)
    {f : Interp α Unit} {Q : Unit → State α → Machine α → Prop} (hn : n ≤ g.next)
    (hagain : ∀ s' t', s'.world.left < s.world.left → AtStart F b s' t' →
      Result R P n s.world.left t' Q (f s')) :
    Result R P n s.world.left t Q ((do
      Interp.execStmts R statements scope
      let _ ← Interp.call R .safepoint
      f) s) := by
  have hgrow := grows_codegenStmts statements _ _ _ hg.wellFormed hrun
  have hg₁ := hg.run (grows_codegenStmts statements) (scopes_codegenStmts statements) hrun
  let safepoint := fun r => Instr.call r "pup_env_safepoint" [.env]
  have hg₂ := hg₁.emit (i := .store v (.reg slot)) rfl
  have hg₃ := hg₂.emitNew (i := safepoint) fun _ => rfl
  have hleads₃ := hleads.grow ((Grow.refl hg₃.wellFormed).emitHere (i := .br b) rfl)
  have hleads₂ := hleads₃.grow ((Grow.refl hg₂.wellFormed).emitNewHere fun _ => rfl)
  have hleads₁ := hleads₂.grow ((Grow.refl hg₁.wellFormed).emitHere rfl)
  refine ((ih g v g₁ scope s t hg hrun hleads₁ (h.synced hfresh.nil)).mono hn
    (Nat.le_refl _)).bind fun _ s₁ t₁ _ hleft₁ hsame₁ ⟨a, h₁⟩ => ?_
  obtain ⟨hreaches, h₂⟩ := h₁.reaches_store hfinal hg₁ hslot hleads₂
  refine Result.after ?_ hreaches (.refl _ _)
  refine ((result_call hfinal hg₂ hleads₃ h₂ (by decide) rfl).mono (hn.trans hgrow.next)
    hleft₁).bind fun _ s₃ t₃ hcall hleft₃ hsame₃ ⟨h₃, _⟩ => ?_
  have hlt := (left_lt_of_safepoint hcall).trans_le hleft₁
  exact (hagain s₃ _ hlt (h₃.toSynced.jump b)).after
    (h₃.toSynced.reaches_br hfinal (hleads.fetch hg₃.wellFormed)) (.refl _ _)

/-- **A `while` does what it means.** -/
theorem WhileSteps.result (steps : WhileSteps g (.reg slot) cond statements v g')
    (hfinal : Final F P) (hg : Ready g scope) (hslot : ResultSlot F slot) (hleads : Leads F g')
    (h : Synced F g s t) (hcore : coreExpr cond)
    (ih : FollowsStmts R F P (codegenStmts statements) (Interp.execStmts R statements)) :
    Result R P g.next s.world.left t (fun _ s' t' => ∃ a, Yields R F g' v a s' t')
      (Interp.exec R (.whileStmt cond statements) scope s) := by
  have hframe := Frame.start hg.wellFormed
  have hstatements := grows_codegenStmts statements
  obtain ⟨val, g₁, vbody, g₂, hrun, hrunbody, hvalue, hlast⟩ := steps
  let steps : WhileSteps g (.reg slot) cond statements v g' :=
    ⟨val, g₁, vbody, g₂, hrun, hrunbody, hvalue, hlast⟩
  -- the contexts in which the parts are generated
  let atCond := g.whileBlocks.moveTo g.blocks.length
  let atBody := (g₁.branched val (g.blocks.length + 2) (g.blocks.length + 1)).moveTo
    (g.blocks.length + 1)
  let atEnd := (g₂.looped vbody (.reg slot) g.blocks.length).moveTo (g.blocks.length + 2)
  have hg₀ : Ready atCond scope := hg.keep hframe.atWhileCond.grow rfl
  have hg₁ := hg₀.expr hrun
  have hgbody : Ready atBody (scopeExpr cond scope) :=
    hg.grow (steps.atBody hframe).grow (hg₁.scope.of_locals rfl)
  have hg₂ := hgbody.run hstatements (scopes_codegenStmts statements) hrunbody
  -- nothing has been generated in the blocks that are jumped to
  have hgrow₁ : Grow atCond (g₁.branched val (g.blocks.length + 2) (g.blocks.length + 1)) :=
    (grows_codegenExpr cond _ _ _ hg₀.wellFormed hrun).trans (grow_branched hg₁.wellFormed _ _ _)
  have hgrow₂ : Grow atBody (g₂.looped vbody (.reg slot) g.blocks.length) :=
    (hstatements _ _ _ hgbody.wellFormed hrunbody).trans (grow_looped hg₂.wellFormed _ _ _)
  have hfresh : ∀ {k}, k < 3 → k ≠ 0 → Fresh (g₁.branched val (g.blocks.length + 2)
      (g.blocks.length + 1)) (g.blocks.length + k) := fun hk hpos =>
    (fresh_whileBlocks hg.wellFormed hk).grow hgrow₁ hg₀.entry fun heq =>
      hpos (Nat.add_eq_left.mp heq)
  have hfreshbody : Fresh atBody (g.blocks.length + 1) :=
    (hfresh (by decide) (by decide)).moveTo _
  have hfreshend : Fresh atEnd (g.blocks.length + 2) :=
    (((hfresh (by decide) (by decide)).moveTo _).grow hgrow₂ hgbody.entry
      (Nat.succ_ne_self _)).moveTo _
  have hgend : Ready atEnd (scopeStmts statements (scopeExpr cond scope)) := by
    have hframe₂ := ((steps.atBody hframe).run fun _ => hgrow₂).moveTo
      (b := g.blocks.length + 2) (by simp)
    exact hg.grow hframe₂.grow (hg₂.scope.of_locals rfl)
  -- and the code is a part of the program
  subst hlast hvalue
  have hleads₂ := (hleads.grow ((Grow.refl hgend.wellFormed).emitNewHere fun _ => rfl)).moved
  have hleads₁ := (hleads₂.grow hgrow₂).moved
  have hleads₀ := (hleads₁.grow hgrow₁).moved
  have hbr := whileBlocks_instrs_self hg.wellFormed ▸ hleads₀.longer g.build
  have hnext : atCond.next ≤ atBody.next := hgrow₁.next
  have hnext' : atBody.next ≤ atEnd.next := hgrow₂.next
  -- the iterations
  have hloop : ∀ n s t, s.world.left < n → AtStart F g.blocks.length s t →
      Result R P g.next s.world.left t (fun _ s' t' => AtStart F (g.blocks.length + 2) s' t')
        (Interp.loop R (Interp.test R cond scope)
          (Interp.execStmts R statements (scopeExpr cond scope)) n s) := by
    intro n
    induction n with
    | zero => exact fun _ _ hn => absurd hn (Nat.not_lt_zero _)
    | succ n ihn =>
        intro s t hn hstart
        have hcond : Synced F atCond s t :=
          AtStart.synced (g := atCond) hstart (fresh_whileBlocks hg.wellFormed (k := 0) (by decide)).nil
        refine (result_test hfinal hg₀ hcore hrun hleads₁ hcond).bind
          fun holds s₁ t₁ _ hleft _ hstart₁ => ?_
        cases holds with
        | false => exact result_pure hstart₁ hleft
        | true =>
            refine (result_body hfinal hgbody hfreshbody ih hrunbody hslot hleads₂ hstart₁ hnext
              fun s₂ t₂ hlt hstart₂ => ?_).mono (Nat.le_refl _) hleft
            have hlt' := hlt.trans_le (hleft.trans (Nat.le_of_lt_succ hn))
            exact (ihn s₂ t₂ hlt' hstart₂).mono (Nat.le_refl _) hlt.le
  rw [Interp.exec]
  refine Result.after ?_ (h.reaches_br hfinal hbr) (.refl g.next t)
  refine (hloop _ _ _ (Nat.lt_succ_self _) (h.jump g.blocks.length)).onwards
    fun _ s' t' hstart => ?_
  obtain ⟨t'', a, hreaches, hsame, hyields⟩ :=
    AtStart.reaches_result (g := atEnd) hstart hfinal hgend hslot hfreshend.nil hleads
  exact ⟨t'', hreaches, hsame.mono (hnext.trans hnext'), a, hyields⟩

end While

/-! ### Programs -/

mutual

/-- **What a statement is generated as does what it means.** -/
theorem follows_codegenStmt (hfinal : Final F P) :
    (s : Stmt) → coreStmt s → FollowsStmt R F P (codegenStmt s) (Interp.exec R s)
  | .expr e, hcore => follows_expr hfinal hcore
  | .ifStmt cond ifbk none, hcore => by cases hcore
  | .ifStmt cond ifbk (some elsebk), hcore => by
      have hcond : coreExpr cond := by simp_all [coreStmt]
      have ihif := follows_codegenStmts hfinal ifbk (by simp_all [coreStmt])
      have ihelse := follows_codegenStmts hfinal elsebk (by simp_all [coreStmt])
      intro g v g' scope s t hg hrun hleads h
      obtain ⟨e, _, he, heq, ⟨steps⟩⟩ := codegenIf_ok hg.wellFormed hrun
      cases heq
      obtain rfl := he.unique hg.entry
      have hg₀ := hg.slot (i := .alloca) (fun _ => rfl) fun _ => rfl
      have hslot := hg.resultSlot (hleads.grow (steps.grow (.start hg₀.wellFormed)
        (grows_codegenStmts ifbk) (grows_codegenStmts elsebk)))
      exact (steps.result hfinal hg₀ hslot hleads (h.slot hg _) hcond ihif ihelse).mono
        (Nat.le_succ _) (Nat.le_refl _)
  | .whileStmt cond statements, hcore => by
      have hcond : coreExpr cond := by simp_all [coreStmt]
      have ih := follows_codegenStmts hfinal statements (by simp_all [coreStmt])
      intro g v g' scope s t hg hrun hleads h
      obtain ⟨e, he, ⟨steps⟩⟩ := codegenWhile_ok hg.wellFormed hrun
      obtain rfl := he.unique hg.entry
      have hg₀ := hg.slot (i := .alloca) (fun _ => rfl) fun _ => rfl
      have hslot := hg.resultSlot (hleads.grow (steps.grow (.start hg₀.wellFormed)
        (grows_codegenStmts statements)))
      exact (steps.result hfinal hg₀ hslot hleads (h.slot hg _) hcond ih).mono
        (Nat.le_succ _) (Nat.le_refl _)
  | .beginStmt _ _ _ _, hcore => by cases hcore
  | .classDef _ _ _, hcore => by cases hcore
  | .methodDef _ _ _, hcore => by cases hcore

theorem follows_codegenStmts (hfinal : Final F P) :
    (ss : List Stmt) → coreStmts ss →
      FollowsStmts R F P (codegenStmts ss) (Interp.execStmts R ss)
  | [], _ => by
      intro g v g' scope s t hg hrun hleads h
      rw [codegenStmts] at hrun
      obtain ⟨⟨⟩, -⟩ := pure_ok.mp hrun
  | [stmt], hcore => by
      have ih := follows_codegenStmt hfinal stmt (by simp_all [coreStmts])
      intro g v g' scope s t hg hrun hleads h
      obtain ⟨v', hrun, heq⟩ := codegenStmts_singleton_ok.mp hrun
      obtain rfl := Option.some.inj heq
      refine (ih g v g' scope s t hg hrun hleads h).bind fun _ s₁ t₁ _ hleft _ h₁ => ?_
      exact result_pure h₁ hleft
  | stmt :: stmt' :: ss, hcore => by
      have ih := follows_codegenStmt hfinal stmt (by simp_all [coreStmts])
      have ihs := follows_codegenStmts hfinal (stmt' :: ss) (by simp_all [coreStmts])
      intro g v g' scope s t hg hrun hleads h
      obtain ⟨v₁, g₁, hrun₁, hrun₂⟩ := codegenStmts_cons_ok.mp hrun
      have hgrow := grows_codegenStmt stmt _ _ _ hg.wellFormed hrun₁
      have hg₁ := hg.run (grows_codegenStmt stmt) (scopes_codegenStmt stmt) hrun₁
      have hleads₁ := hleads.grow (grows_codegenStmts _ _ _ _ hg₁.wellFormed hrun₂)
      refine (ih g v₁ g₁ scope s t hg hrun₁ hleads₁ h).bind
        fun _ s₁ t₁ _ hleft _ ⟨a, h₁⟩ => ?_
      exact (ihs g₁ v g' _ s₁ t₁ hg₁ hrun₂ hleads h₁.toSynced).mono hgrow.next hleft

end

/-- What an instruction of the entry block does. -/
theorem execute_slot {i : Instr} (hi : i.isSlot) (t : Machine α) :
    ∃ regs, t.execute R i = { t with regs := regs, index := t.index + 1 } ∧
      (∀ r, i.slot = some r → regs r = some (.pointer r 0)) ∧
      ∀ r, i.result ≠ some r → regs r = t.regs r := by
  have hother : ∀ {r' : Nat} {w : Option (Word α)} {r : Nat}, some r' ≠ some r →
      Function.update t.regs r' w r = t.regs r := fun hne =>
    Function.update_of_ne (fun heq => hne (congrArg some heq.symm)) _ _
  cases i with
  | alloca r =>
      exact ⟨_, rfl, fun r' hr => Option.some.inj hr ▸ Function.update_self .., fun _ => hother⟩
  | arrayAlloca r count =>
      exact ⟨_, rfl, fun r' hr => Option.some.inj hr ▸ Function.update_self .., fun _ => hother⟩
  | bitCast r v => exact ⟨_, rfl, fun _ => (by intro hr; cases hr), fun _ => hother⟩
  | call r fn args =>
      obtain rfl : fn = "llvm.gcroot" := by simpa [Instr.isSlot] using hi
      exact ⟨t.regs, rfl, fun _ => (by intro hr; cases hr), fun _ _ => rfl⟩
  | _ => cases hi

/-- **The entry block makes the slots.** -/
theorem reaches_slots (hfinal : Final F P) {before after : List Instr}
    (hsplit : F.instrs 0 = before ++ after) (hrunning : t.progress = .running)
    (hblock : t.block = 0) (hindex : t.index = before.length)
    (hslots : ∀ i ∈ before, ∀ r, i.slot = some r → t.regs r = some (.pointer r 0)) :
    ∃ t', Machine.Reaches R P t t' ∧ t'.progress = .running ∧ t'.block = 0 ∧
      t'.index = (F.instrs 0).length ∧ t'.cells = t.cells ∧ t'.world = t.world ∧
      ∀ i ∈ F.instrs 0, ∀ r, i.slot = some r → t'.regs r = some (.pointer r 0) := by
  induction after generalizing before t with
  | nil =>
      rw [List.append_nil] at hsplit
      exact ⟨t, .refl t, hrunning, hblock, hsplit ▸ hindex, rfl, rfl, hsplit ▸ hslots⟩
  | cons i after ih =>
      have hi : i ∈ F.instrs 0 := hsplit ▸ List.mem_append_right _ (.head _)
      obtain ⟨regs, hexec, hself, hother⟩ := execute_slot (R := R) (hfinal.slots i hi) t
      have hstep : Machine.step R P t = t.execute R i := by
        refine Machine.step_running hrunning ?_
        rw [hblock, hindex]
        obtain ⟨rest, hrest⟩ := hfinal.code 0
        simp [← hrest, hsplit]
      have hnodup := hfinal.grow.wellFormed.nodup 0
      rw [hsplit, List.filterMap_append, List.nodup_append] at hnodup
      have hsplit' : F.instrs 0 = (before ++ [i]) ++ after := by simpa using hsplit
      obtain ⟨t', hreaches, hrest⟩ := ih hsplit' (t := t.execute R i) (hexec ▸ hrunning)
        (hexec ▸ hblock) (by rw [hexec, List.length_append, ← hindex]; rfl) fun j hj r hr => by
          rw [hexec]
          rcases List.mem_append.mp hj with hj | hj
          · refine (hother r fun heq => ?_).trans (hslots j hj r hr)
            refine hnodup.2.2 r ?_ r ?_ rfl
            · exact List.mem_filterMap.mpr ⟨j, hj, Instr.result_of_slot hr⟩
            · exact List.mem_filterMap.mpr ⟨i, .head _, heq⟩
          · obtain rfl := List.mem_singleton.mp hj
            exact hself r hr
      rw [hexec] at hrest
      exact ⟨t', (Machine.reaches_step hstep).trans hreaches, hrest⟩

theorem afterUnit_entry (hentry : IsEntry g 0) (hbuild : g.build ≠ 0)
    (v : Operand) : (g.afterUnit v).instrs 0 = g.instrs 0 ++ [.br 1] := by
  have hlt : 0 < (g.emitAt g.build (.ret v)).blocks.length := by
    rw [CodegenContext.emitAt_length]
    exact CodegenContext.lt_of_fnOf (entry_iff.mp hentry).1
  show ((g.emitAt g.build (.ret v)).emitAt 0 (.br 1)).instrs 0 = _
  rw [CodegenContext.emitAt_instrs_self hlt, CodegenContext.emitAt_instrs_ne hbuild.symm]

theorem afterUnit_build (hg : WellFormed g) (hbuild : g.build ≠ 0) (v : Operand) :
    (g.afterUnit v).instrs g.build = g.instrs g.build ++ [.ret v] := by
  show ((g.emitAt g.build (.ret v)).emitAt 0 (.br 1)).instrs g.build = _
  rw [CodegenContext.emitAt_instrs_ne hbuild, emit_instrs_self hg]

/-- The machine executes the entry block, and then the body. -/
theorem reaches_body (hfinal : Final F (F.afterUnit v)) (hready : Ready F scope)
    {cells : Nat → Nat → α} {locals : String → α}
    (hcells : ∀ name slot, F.current_method.locals.lookup name = some slot →
      cells slot 0 = locals name) :
    ∃ t, Machine.Reaches R (F.afterUnit v) (.start cells left) t ∧
      Synced F .unitBody ⟨locals, ⟨[], left⟩⟩ t := by
  obtain ⟨t, hreaches, hrunning, hblock, hindex, hsame, hworld, hslots⟩ :=
    reaches_slots (R := R) (t := .start cells left) hfinal (List.nil_append _).symm rfl rfl rfl
      nofun
  have hstep : Machine.step R (F.afterUnit v) t = t.jump 1 := by
    refine Machine.step_running (i := .br 1) hrunning ?_
    rw [hblock, hindex, afterUnit_entry hready.entry hready.build]
    simp
  have hstart : AtStart F 1 ⟨locals, ⟨[], left⟩⟩ (t.jump 1) :=
    { running := hrunning
      world := hworld
      locals := fun name slot hname => (congrFun (congrFun hsame slot) 0).trans
        (hcells name slot hname)
      slots := hslots
      block := rfl
      index := rfl }
  exact ⟨t.jump 1, hreaches.trans (Machine.reaches_step hstep),
    hstart.synced (g := .unitBody) (unitBody_instrs 1)⟩

/-- **A program does what it means.** -/
theorem runs_as_meant {stmts : List Stmt} {g : CodegenContext} (h : generate stmts = .ok g)
    (hcore : coreStmts stmts) (R : Runtime α) :
    ∃ v g₁, codegenStmts stmts .unitBody = .ok (some v, g₁) ∧ g = g₁.afterUnit v ∧
      Scoped g₁ (scopeStmts stmts []) ∧
      ∀ (cells : Nat → Nat → α) (locals : String → α) (left : Nat),
        (∀ name slot, g₁.current_method.locals.lookup name = some slot →
          cells slot 0 = locals name) →
        ∃ n, ∀ m ≥ n, Agrees g₁.current_method.locals
          (Machine.run R g m (.start cells left)) (Interp.program R stmts locals left) := by
  obtain ⟨v, F, hrun, rfl⟩ := generate_ok h
  have hready : Ready .unitBody [] :=
    ⟨wellFormed_unitBody, rfl, rfl, isEntry_unitBody, Nat.one_ne_zero, fun _ => rfl⟩
  have hgrow := grows_codegenStmts stmts _ _ _ wellFormed_unitBody hrun
  have hreadyF := hready.run (grows_codegenStmts stmts) (scopes_codegenStmts stmts) hrun
  have hfinal : Final F (F.afterUnit v) := ⟨hgrow, (longer_afterUnit v hgrow.method).longer⟩
  refine ⟨v, F, hrun, rfl, hreadyF.scope, fun cells locals left hcells => ?_⟩
  obtain ⟨t, hreaches, hsynced⟩ : ∃ t, Machine.Reaches R (F.afterUnit v) (.start cells left) t ∧
      Synced F .unitBody ⟨locals, ⟨[], left⟩⟩ t := reaches_body hfinal hreadyF hcells
  have hresult := follows_codegenStmts (R := R) hfinal stmts hcore _ v F [] _ t hready hrun
    (.refl F) hsynced
  rw [Interp.program]
  generalize Interp.execStmts R stmts [] ⟨locals, ⟨[], left⟩⟩ = o at hresult
  cases hresult with
  | waits hreaches' hwaiting hworld =>
      obtain ⟨n, hn⟩ := (hreaches.trans hreaches').run_eq (by simp [hwaiting])
      exact ⟨n, fun m hm => hn m hm ▸ ⟨fun _ => hwaiting, nofun, congrArg World.calls hworld,
        nofun⟩⟩
  | goes hreaches' _ _ hpost =>
      obtain ⟨a, hyields⟩ := hpost
      have hstep : Machine.step R (F.afterUnit v) _ = _ := Machine.step_running hyields.running (by
        rw [hyields.block, hyields.index, afterUnit_build hreadyF.wellFormed hreadyF.build]
        exact List.getElem?_concat_length)
      obtain ⟨n, hn⟩ := ((hreaches.trans hreaches').trans (Machine.reaches_step hstep)).run_eq
        nofun
      exact ⟨n, fun m hm => hn m hm ▸ ⟨nofun, fun _ => rfl, congrArg World.calls hyields.world,
        fun _ => hyields.locals⟩⟩

/-- `x = 1`, `while x < 2`, `x = x + 1`, and then `f(x)`. -/
def countAndCall : List Stmt :=
  [.expr (.assign (.name "x") "=" (.int "1")),
    .whileStmt (.binary .relationalExpr (.varOrInvoke (.name "x") none none none) "<" (.int "2"))
      [.expr (.assign (.name "x") "="
        (.binary .addExpr (.varOrInvoke (.name "x") none none none) "+" (.int "1")))],
    .expr (.varOrInvoke (.name "f") (some [.varOrInvoke (.name "x") none none none]) none none)]

/-- The integer `n` is the object `10 + n`, and the symbol of `<` is 4. -/
def countRuntime : Runtime Nat where
  self := 0
  trueinstance := 1
  falseinstance := 2
  answer calls :=
    match calls.getLast? with
    | some (.strToSym name) => if name = "<" then 4 else 5
    | some (.fixnumCreate n) => 10 + n
    | some (.invoke target 4 [arg]) => if target < arg then 1 else 2
    | some (.invoke target 5 [arg]) => target + arg - 10
    | _ => 0

/-- What it calls: there is one iteration, with its safepoint. -/
def countCalls : List (Call Nat) :=
  [.fixnumCreate 1, .fixnumCreate 2, .strToSym "<", .invoke 11 4 [12], .getFalseinstance,
    .fixnumCreate 1, .strToSym "+", .invoke 11 5 [11], .safepoint,
    .fixnumCreate 2, .strToSym "<", .invoke 12 4 [12], .getFalseinstance,
    .strToSym "f", .invoke 0 5 [12]]

theorem runs_as_meant_loop : ∃ g, generate countAndCall = .ok g ∧ ∃ n, ∀ m ≥ n,
    (Machine.run countRuntime g m (.start (fun _ _ => 0) 100)).progress = .returned ∧
    (Machine.run countRuntime g m (.start (fun _ _ => 0) 100)).world.calls = countCalls := by
  obtain ⟨g, hg, -⟩ : ∃ g, generate countAndCall = .ok g ∧ g.functions = 1 :=
    generated_of_map (by decide +kernel)
  obtain ⟨v, g₁, -, -, -, hruns⟩ := runs_as_meant hg (by decide) countRuntime
  obtain ⟨n, hn⟩ := hruns (fun _ _ => 0) (fun _ => 0) 100 fun _ _ _ => rfl
  have hout : (Interp.program countRuntime countAndCall (fun _ => 0) 100).1 = some () := by
    decide +kernel
  have hcalls : (Interp.program countRuntime countAndCall (fun _ => 0) 100).2.world.calls =
      countCalls := by decide +kernel
  exact ⟨g, hg, n, fun m hm => ⟨(hn m hm).returns hout, (hn m hm).calls.trans hcalls⟩⟩

/-! ### The value of an expression -/

/-- The object that has been returned. -/
def Machine.returned (R : Runtime α) (g : CodegenContext) (t : Machine α) : Option α :=
  match t.progress, (g.instrs t.block)[t.index]? with
  | .returned, some (.ret v) =>
      match t.eval R v with
      | some (.value a) => some a
      | _ => none
  | _, _ => none

/-- **The program of an expression returns its value.** -/
theorem expr_returned {e : Expr} {g : CodegenContext} (h : generate [.expr e] = .ok g)
    (hcore : coreExpr e) (R : Runtime α) (cells : Nat → Nat → α) (left : Nat) :
    ∃ locals n, ∀ m ≥ n,
      (Machine.run R g m (.start cells left)).returned R g =
          (Interp.eval R e [] ⟨locals, ⟨[], left⟩⟩).1 ∧
        (Machine.run R g m (.start cells left)).world =
          (Interp.eval R e [] ⟨locals, ⟨[], left⟩⟩).2.world ∧
        ((Machine.run R g m (.start cells left)).progress = .returned →
          (Interp.eval R e [] ⟨locals, ⟨[], left⟩⟩).1 ≠ none) := by
  obtain ⟨v, F, hrun, rfl⟩ := generate_ok h
  obtain ⟨v', hexpr, heq⟩ := codegenStmts_singleton_ok.mp hrun
  obtain rfl := Option.some.inj heq
  rw [codegenStmt] at hexpr
  have hready : Ready .unitBody [] :=
    ⟨wellFormed_unitBody, rfl, rfl, isEntry_unitBody, Nat.one_ne_zero, fun _ => rfl⟩
  have hgrow := grows_codegenStmts [.expr e] _ _ _ wellFormed_unitBody hrun
  have hreadyF := hready.run (grows_codegenStmts [.expr e]) (scopes_codegenStmts [.expr e]) hrun
  have hfinal : Final F (F.afterUnit v) := ⟨hgrow, (longer_afterUnit v hgrow.method).longer⟩
  -- the locals are what is in their slots
  let locals := fun name => (F.current_method.locals.lookup name).elim (cells 0 0) (cells · 0)
  have hcells : ∀ name slot, F.current_method.locals.lookup name = some slot →
      cells slot 0 = locals name := by
    intro name slot hslot
    simp [locals, hslot]
  obtain ⟨t, hreaches, hsynced⟩ : ∃ t, Machine.Reaches R (F.afterUnit v) (.start cells left) t ∧
      Synced F .unitBody ⟨locals, ⟨[], left⟩⟩ t := reaches_body hfinal hreadyF hcells
  have hresult := follows_codegenExpr (R := R) hfinal e hcore _ v F [] _ t hready hexpr (.refl F)
    hsynced
  refine ⟨locals, ?_⟩
  generalize Interp.eval R e [] ⟨locals, ⟨[], left⟩⟩ = o at hresult
  cases hresult with
  | @waits s' t' hreaches' hwaiting hworld =>
      obtain ⟨n, hn⟩ := (hreaches.trans hreaches').run_eq (by simp [hwaiting])
      refine ⟨n, fun m hm => ?_⟩
      rw [hn m hm]
      exact ⟨by simp [Machine.returned, hwaiting], hworld, by simp [hwaiting]⟩
  | @goes a s' t' hreaches' _ _ hyields =>
      have hret : ((F.afterUnit v).instrs t'.block)[t'.index]? = some (.ret v) := by
        rw [hyields.block, hyields.index, afterUnit_build hreadyF.wellFormed hreadyF.build]
        exact List.getElem?_concat_length
      have hstep : Machine.step R (F.afterUnit v) t' = t'.stop .returned :=
        Machine.step_running hyields.running hret
      obtain ⟨n, hn⟩ := ((hreaches.trans hreaches').trans (Machine.reaches_step hstep)).run_eq
        (by simp [Machine.stop])
      refine ⟨n, fun m hm => ?_⟩
      rw [hn m hm]
      refine ⟨?_, hyields.world, fun _ => Option.some_ne_none a⟩
      have heval : (t'.stop .returned).eval R v = some (.value a) := by
        rw [← hyields.holds.eval]
        cases v <;> rfl
      have hprogress : (t'.stop .returned).progress = .returned := rfl
      have hret' : ((F.afterUnit v).instrs (t'.stop .returned).block)[(t'.stop .returned).index]? =
        some (.ret v) := hret
      simp only [Machine.returned, hprogress, hret', heval]

end Pup.Codegen
