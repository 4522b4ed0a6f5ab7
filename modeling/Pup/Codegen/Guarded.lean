/-
Expressions that raise do what they mean.

This is `Simulation` once more, for a runtime whose calls may raise and for code that may be
under a landing pad.  An invocation under a landing pad is an `invoke`, after which the builder
goes on in another block; where it raises, the machine is at the start of the landing pad, in
step with the interpreter (`Arrives.lands`).  A piece that makes no call is what it was: it does
not look at the landing pad (`Blind`), and is proved of the context without one.
-/
import Pup.Codegen.Exceptions

namespace Pup.Codegen

open Parse

variable {α β γ : Type} {g g' g₁ F P : CodegenContext} {scope scope' : List String}
  {R : Raising α} {pad : Option Nat} {n left : Nat} {s s' : State α} {t t' t₁ : Machine α}

/-! ### Landing pads -/

/-- The context without its landing pad. -/
def CodegenContext.unpadded (g : CodegenContext) : CodegenContext := { g with landingpad := none }

/-- What is generated in `g` is code of `pup_main`, perhaps under a landing pad. -/
structure InMain (g : CodegenContext) (pad : Option Nat) (scope : List String) : Prop where
  wellFormed : WellFormed g
  landingpad : g.landingpad = pad
  self_ref : g.self_ref = .paramTarget
  entry : IsEntry g 0
  build : g.build ≠ 0
  scope : Scoped g scope

theorem Ready.inMain (h : Ready g scope) : InMain g none scope :=
  ⟨h.wellFormed, h.landingpad, h.self_ref, h.entry, h.build, h.scope⟩

theorem InMain.ready (h : InMain g pad scope) : Ready g.unpadded scope where
  wellFormed := { h.wellFormed with build := h.wellFormed.build }
  landingpad := rfl
  self_ref := h.self_ref
  entry := h.entry
  build := h.build
  scope := h.scope

theorem InMain.grow (h : InMain g pad scope) (hg : Grow g g') (hscope : Scoped g' scope') :
    InMain g' pad scope' where
  wellFormed := hg.wellFormed
  landingpad := hg.landingpad.trans h.landingpad
  self_ref := hg.self_ref.trans h.self_ref
  entry := hg.isEntry h.entry
  build := by
    have hlt : 0 < g.blocks.length := CodegenContext.lt_of_fnOf (entry_iff.mp h.entry).1
    rcases hg.build with heq | hge
    · exact heq ▸ h.build
    · exact (hlt.trans_le hge).ne'
  scope := hscope

theorem InMain.keep (h : InMain g pad scope) (hg : Grow g g')
    (hlocals : g'.current_method.locals = g.current_method.locals) : InMain g' pad scope :=
  h.grow hg (h.scope.of_locals hlocals)

theorem InMain.run (h : InMain g pad scope) {m : Gen β} {f : List String → List String} {b : β}
    (hgrow : Grows m) (hscopes : Scopes m f) (hrun : m g = .ok (b, g')) : InMain g' pad (f scope) :=
  h.grow (hgrow g b g' h.wellFormed hrun) (hscopes g b g' scope h.wellFormed h.scope hrun).2

theorem InMain.expr (h : InMain g pad scope) {e : Expr} {v : Operand}
    (hrun : codegenExpr e g = .ok (v, g')) : InMain g' pad (scopeExpr e scope) :=
  h.run (grows_codegenExpr e) (scopes_codegenExpr e) hrun

theorem InMain.emitNew (h : InMain g pad scope) {i : Nat → Instr}
    (hi : ∀ r, (i r).result = some r) : InMain (g.emitNew g.build i) pad scope :=
  h.keep ((Grow.refl h.wellFormed).emitNewHere hi) rfl

theorem InMain.emit (h : InMain g pad scope) {i : Instr} (hi : i.result = none) :
    InMain (g.emitAt g.build i) pad scope :=
  h.keep ((Grow.refl h.wellFormed).emitHere hi) rfl

/-- A new slot in the entry block. -/
theorem InMain.slot (h : InMain g pad scope) {i : Nat → Instr} (hslot : ∀ r, (i r).isSlot)
    (hi : ∀ r, (i r).result = some r) : InMain (g.emitNew 0 i) pad scope :=
  h.keep ((Grow.refl h.wellFormed).emitNewEntry h.wellFormed h.entry hslot hi) rfl

/-- A new block. -/
theorem InMain.append (h : InMain g pad scope) (name : String) : InMain (g.append name) pad scope :=
  h.keep ((Grow.refl h.wellFormed).append h.wellFormed.current_lt name) rfl

/-- In the body of a `begin`. -/
theorem InMain.guarded (hg : InMain g pad scope) :
    InMain (g.guarded g.blocks.length) (some g.blocks.length) scope where
  wellFormed := hg.wellFormed.guarded
  landingpad := rfl
  self_ref := hg.self_ref
  entry := ((Grow.refl hg.wellFormed).append hg.wellFormed.current_lt "landingpad").isEntry hg.entry
  build := hg.build
  scope := hg.scope.of_locals rfl

theorem Leads.unpadded (h : Leads F g) : Leads F g.unpadded :=
  ⟨h.longer, h.next, h.result, h.locals⟩

theorem Synced.unpadded (h : Synced F g s t) : Synced F g.unpadded s t :=
  ⟨h.toRelated, h.block, h.index⟩

theorem Synced.padded (h : Synced F g.unpadded s t) : Synced F g s t :=
  ⟨h.toRelated, h.block, h.index⟩

theorem InMain.resultSlot (hg : InMain g pad scope) (hleads : Leads F (g.emitNew 0 .alloca)) :
    ResultSlot F g.next :=
  hg.ready.resultSlot hleads.unpadded

theorem Synced.slotIn (h : Synced F g s t) (hg : InMain g pad scope) (i : Nat → Instr) :
    Synced F (g.emitNew 0 i) s t :=
  h.elsewhere rfl (CodegenContext.emitAt_instrs_ne hg.build _)

/-! ### Pieces that do not look at the landing pad -/

/-- A piece does the same outside every landing pad. -/
def Blind (m : Gen β) : Prop :=
  ∀ g b g', m g = .ok (b, g') → m g.unpadded = .ok (b, g'.unpadded)

theorem blind_pure (b : β) : Blind (pure b : Gen β) := by
  intro g b' g' hrun
  obtain ⟨rfl, rfl⟩ := pure_ok.mp hrun
  rfl

theorem Blind.bind {x : Gen β} {f : β → Gen γ} (hx : Blind x) (hf : ∀ b, Blind (f b)) :
    Blind (x >>= f) := by
  intro g c g' hrun
  obtain ⟨b, g₁, hrun₁, hrun₂⟩ := bind_ok.mp hrun
  exact bind_ok.mpr ⟨b, _, hx g b g₁ hrun₁, hf b g₁ c g' hrun₂⟩

theorem blind_emit (i : Instr) : Blind (emit i) := by
  intro g u g' hrun
  obtain rfl := emit_ok.mp hrun
  rfl

theorem blind_emitReg (i : Nat → Instr) : Blind (emitReg i) := by
  intro g v g' hrun
  obtain ⟨rfl, rfl⟩ := emitReg_ok.mp hrun
  rfl

theorem blind_emitRegAt (b : Nat) (i : Nat → Instr) : Blind (emitRegAt b i) := by
  intro g r g' hrun
  obtain ⟨rfl, rfl⟩ := emitRegAt_ok.mp hrun
  rfl

theorem blind_entryBlockBuilder : Blind entryBlockBuilder := by
  intro g b g' hrun
  have hentry : g.unpadded.entry? g.unpadded.current_method.fn =
    g.entry? g.current_method.fn := rfl
  unfold entryBlockBuilder at hrun ⊢
  rw [hentry]
  split at hrun <;>
    · obtain ⟨rfl, rfl⟩ := Prod.mk.inj (Except.ok.inj hrun)
      rfl

theorem blind_getLocal (name : String) : Blind (getLocal name) := by
  intro g v g' hrun
  obtain ⟨rfl, rfl⟩ := Prod.mk.inj (Except.ok.inj hrun)
  rfl

theorem blind_addLocal (name : String) (r : Nat) : Blind (addLocal name r) := by
  intro g u g' hrun
  obtain ⟨rfl, rfl⟩ := Prod.mk.inj (Except.ok.inj hrun)
  rfl

theorem blind_getOrCreateLocal (name : String) : Blind (getOrCreateLocal name) := by
  refine (blind_getLocal name).bind fun found => ?_
  cases found with
  | some slot => exact blind_pure slot
  | none =>
      exact blind_entryBlockBuilder.bind fun b => (blind_emitRegAt b _).bind fun r =>
        (blind_emitRegAt b _).bind fun c => (blind_emitRegAt b _).bind fun _ =>
          (blind_addLocal name r).bind fun _ => blind_pure _

theorem blind_storeArgs (argv : Operand) (i : Nat) (args : List Operand) :
    Blind (storeArgs argv i args) := by
  induction args generalizing i with
  | nil => exact blind_pure ()
  | cons arg args ih =>
      exact (blind_emitReg _).bind fun _ => (blind_emit _).bind fun _ => ih (i + 1)

theorem blind_buildArgv (args : List Operand) : Blind (buildArgv args) := by
  unfold buildArgv
  split
  · exact blind_pure _
  · exact blind_entryBlockBuilder.bind fun b => (blind_emitRegAt b _).bind fun r =>
      (blind_storeArgs _ _ _).bind fun _ => blind_pure _

theorem blind_localAccess (name : String) : Blind (localAccess name) := by
  refine (blind_getLocal name).bind fun found => ?_
  cases found with
  | some slot => exact blind_emitReg _
  | none => exact fun g v g' hrun => absurd hrun throw_ok

/-! ### Results -/

/-- A statement keeps no register for what comes after it. -/
theorem same_zero (t t' : Machine α) : Same 0 t t' := fun r hr => absurd hr (Nat.not_lt_zero r)

variable [DecidableEq α]

/-- From `t` the machine gets to where the interpreter does: with a value to one that `Q` tells
of, with an exception to the landing pad or out of the function. -/
inductive Arrives (R : Raising α) (F P : CodegenContext) (pad : Option Nat) (n left : Nat)
    (t : Machine α) (Q : γ → State α → Machine α → Prop) : Exit α γ × State α → Prop
  | value {c : γ} {s' : State α} {t' : Machine α}
      (gets : Execution.Gets R P (.inside t) (.inside t')) (same : Same n t t')
      (bound : s'.world.left ≤ left) (post : Q c s' t') :
      Arrives R F P pad n left t Q (.value c, s')
  | lands {s' : State α} {t' : Machine α} {b : Nat} (padded : pad = some b)
      (gets : Execution.Gets R P (.inside t) (.inside t')) (bound : s'.world.left ≤ left)
      (start : AtStart F b s' t') : Arrives R F P pad n left t Q (.raised, s')
  | unwinds {s' : State α} (unpadded : pad = none)
      (gets : Execution.Gets R P (.inside t)
        (.left (R.unwinding s'.world.calls).dwarf_ex s'.world)) :
      Arrives R F P pad n left t Q (.raised, s')
  | left {s' : State α} {dwarf_ex : α}
      (gets : Execution.Gets R P (.inside t) (.left dwarf_ex s'.world)) :
      Arrives R F P pad n left t Q (.left dwarf_ex, s')
  | waits {s' : State α} {t' : Machine α}
      (gets : Execution.Gets R P (.inside t) (.inside t')) (waiting : t'.progress = .waiting)
      (world : t'.world = s'.world) : Arrives R F P pad n left t Q (.waits, s')

section Arrives

variable {Q : β → State α → Machine α → Prop}
  {Q' : γ → State α → Machine α → Prop} {x : Exec α β} {f : β → Exec α γ}

theorem Arrives.after {o : Exit α γ × State α} (h : Arrives R F P pad n left t₁ Q' o)
    (hgets : Execution.Gets R P (.inside t) (.inside t₁)) (hsame : Same n t t₁) :
    Arrives R F P pad n left t Q' o := by
  cases h with
  | value hgets' hsame' hleft hpost =>
      exact .value (hgets.trans hgets') (hsame.trans hsame') hleft hpost
  | lands hpad hgets' hleft hstart => exact .lands hpad (hgets.trans hgets') hleft hstart
  | unwinds hpad hgets' => exact .unwinds hpad (hgets.trans hgets')
  | left hgets' => exact .left (hgets.trans hgets')
  | waits hgets' hwaiting hworld => exact .waits (hgets.trans hgets') hwaiting hworld

theorem Arrives.mono {m left' : Nat} {o : Exit α γ × State α} (h : Arrives R F P pad m left' t Q' o)
    (hm : n ≤ m) (hleft : left' ≤ left) : Arrives R F P pad n left t Q' o := by
  cases h with
  | value hgets hsame hleft' hpost => exact .value hgets (hsame.mono hm) (hleft'.trans hleft) hpost
  | lands hpad hgets hleft' hstart => exact .lands hpad hgets (hleft'.trans hleft) hstart
  | unwinds hpad hgets => exact .unwinds hpad hgets
  | left hgets => exact .left hgets
  | waits hgets hwaiting hworld => exact .waits hgets hwaiting hworld

/-- The machine goes on alone. -/
theorem Arrives.onwards {Q'' : γ → State α → Machine α → Prop} {o : Exit α γ × State α}
    (h : Arrives R F P pad n left t Q' o)
    (hQ : ∀ c s' t', Q' c s' t' → ∃ t'', Execution.Gets R P (.inside t') (.inside t'') ∧
      Same n t' t'' ∧ Q'' c s' t'') : Arrives R F P pad n left t Q'' o := by
  cases h with
  | value hgets hsame hleft hpost =>
      obtain ⟨t'', hgets', hsame', hpost'⟩ := hQ _ _ _ hpost
      exact .value (hgets.trans hgets') (hsame.trans hsame') hleft hpost'
  | lands hpad hgets hleft hstart => exact .lands hpad hgets hleft hstart
  | unwinds hpad hgets => exact .unwinds hpad hgets
  | left hgets => exact .left hgets
  | waits hgets hwaiting hworld => exact .waits hgets hwaiting hworld

theorem Arrives.imp {Q'' : γ → State α → Machine α → Prop} {o : Exit α γ × State α}
    (h : Arrives R F P pad n left t Q' o) (hQ : ∀ c s' t', Q' c s' t' → Q'' c s' t') :
    Arrives R F P pad n left t Q'' o :=
  h.onwards fun c s' t' hpost => ⟨t', .refl _, .refl n t', hQ c s' t' hpost⟩

/-- What is known of the registers, for what comes after. -/
theorem Arrives.keep {o : Exit α γ × State α}
    (h : Arrives R F P pad n left t Q' o) :
    Arrives R F P pad 0 left t (fun c s' t' => Q' c s' t' ∧ Same n t t') o := by
  cases h with
  | value hgets hsame hleft hpost => exact .value hgets (same_zero _ _) hleft ⟨hpost, hsame⟩
  | lands hpad hgets hleft hstart => exact .lands hpad hgets hleft hstart
  | unwinds hpad hgets => exact .unwinds hpad hgets
  | left hgets => exact .left hgets
  | waits hgets hwaiting hworld => exact .waits hgets hwaiting hworld

/-- **One computation after the other.** -/
theorem Arrives.bind (h : Arrives R F P pad n left t Q (x s))
    (hf : ∀ c s₁ t₁, x s = (.value c, s₁) → s₁.world.left ≤ left → Same n t t₁ → Q c s₁ t₁ →
      Arrives R F P pad n left t₁ Q' (f c s₁)) : Arrives R F P pad n left t Q' ((x >>= f) s) := by
  generalize hx : x s = o at h
  cases h with
  | value hgets hsame hleft hpost =>
      rw [exec_bind_value hx]
      exact (hf _ _ _ hx hleft hsame hpost).after hgets hsame
  | lands hpad hgets hleft hstart =>
      rw [exec_bind_raised hx]
      exact .lands hpad hgets hleft hstart
  | unwinds hpad hgets =>
      rw [exec_bind_raised hx]
      exact .unwinds hpad hgets
  | left hgets =>
      rw [exec_bind_left hx]
      exact .left hgets
  | waits hgets hwaiting hworld =>
      rw [exec_bind_waits hx]
      exact .waits hgets hwaiting hworld

theorem arrives_pure {c : γ} (hpost : Q' c s t) (hleft : s.world.left ≤ left) :
    Arrives R F P pad n left t Q' ((pure c : Exec α γ) s) :=
  .value (.refl _) (.refl n t) hleft hpost

end Arrives

/-! ### Calls -/

/-- The instruction that is generated next is executed. -/
theorem Synced.stepRaising (h : Synced F g s t) (hfinal : Final F P) {i : Instr}
    (hi : g.instrs g.build ++ [i] <+: F.instrs g.build) :
    Execution.step R P (.inside t) = t.executeRaising R i := by
  refine Execution.step_running h.running ?_
  rw [h.block, h.index]
  obtain ⟨rest, hrest⟩ := hi.trans (hfinal.code g.build)
  simp [← hrest]

omit [DecidableEq α] in
/-- An instruction sets a new register. -/
theorem Synced.setIn (h : Synced F g s t) (hg : InMain g pad scope) {i : Nat → Instr}
    (hleads : Leads F (g.emitNew g.build i)) (w : Word α) :
    Synced F (g.emitNew g.build i) s (t.set g.next (some w)) :=
  Synced.padded (g := g.emitNew g.build i) (h.unpadded.set hg.ready hleads.unpadded w)

/-- A call of the machine is the call of the interpreter, and it stores nothing. -/
theorem arrives_call_cells (hfinal : Final F P) (hg : InMain g pad scope) {fn : String}
    {args : List Operand} (hleads : Leads F (g.emitNew g.build fun r => .call r fn args))
    (h : Synced F g s t) {c : Call α} (hfn : fn ≠ "llvm.gcroot")
    (hc : t.called R.toRuntime fn args = some c)
    (hpad : pad = none ∨ ∀ world, c.exit R world ≠ .raised) :
    Arrives R F P pad g.next s.world.left t
      (fun a s' t' => Yields R.toRuntime F (g.emitNew g.build fun r => .call r fn args)
        (.reg g.next) a s' t' ∧ t'.cells = t.cells) (Exec.call R c s) := by
  have hstep := (h.stepRaising hfinal (hleads.fetchNew hg.wellFormed)).trans
    (Machine.executeRaising_call hfn hc)
  rw [h.world] at hstep
  rw [Exec.call]
  cases hraised : s.world.raised R c with
  | some world =>
      simp only [hraised] at hstep ⊢
      by_cases hexit : c.exit R world = .raised
      · have hnone := hpad.resolve_right fun h => h world hexit
        rw [hexit]
        exact .unwinds hnone (Execution.gets_step hstep)
      · have hleft : c.exit R world = .left (R.unwinding world.calls).dwarf_ex := by
          cases c with
          | invoke target sym args => exact absurd rfl hexit
          | _ => rfl
        rw [hleft]
        exact .left (Execution.gets_step hstep)
  | none =>
      have hleft := World.call_left (R := R.toRuntime) c s.world
      simp only [hraised, Machine.perform, h.world] at hstep ⊢
      cases hcall : s.world.call R.toRuntime c with
      | mk answer world =>
          rw [hcall] at hstep hleft
          cases answer with
          | none => exact .waits (Execution.gets_step hstep) rfl rfl
          | some a =>
              have hworld : Synced F g { s with world := world } { t with world := world } :=
                ⟨⟨h.running, rfl, h.locals, h.slots⟩, h.block, h.index⟩
              refine .value (Execution.gets_step hstep)
                ((Same.refl g.next t).set (Nat.le_refl _) _) hleft
                ⟨⟨hworld.setIn hg hleads _, Function.update_self .., fun r hr => ?_⟩, rfl⟩
              exact Operand.reg.inj hr ▸ Nat.lt_succ_self g.next

/-- **A call that does not get to a landing pad.** -/
theorem arrives_call (hfinal : Final F P) (hg : InMain g pad scope) {fn : String}
    {args : List Operand} (hleads : Leads F (g.emitNew g.build fun r => .call r fn args))
    (h : Synced F g s t) {c : Call α} (hfn : fn ≠ "llvm.gcroot")
    (hc : t.called R.toRuntime fn args = some c) (hexit : ∀ world, c.exit R world ≠ .raised) :
    Arrives R F P pad g.next s.world.left t
      (Yields R.toRuntime F (g.emitNew g.build fun r => .call r fn args) (.reg g.next))
      (Exec.call R c s) :=
  (arrives_call_cells hfinal hg hleads h hfn hc (.inr hexit)).imp fun _ _ _ h => h.1

/-- An invocation under a landing pad is in a block of its own. -/
theorem arrives_invoke (hfinal : Final F P) {b : Nat} (hg : InMain g (some b) scope) {name : String}
    {args : List Operand}
    (hleads : Leads F (g.invoked name fun r => .invoke r "pup_invoke" args g.blocks.length b))
    (h : Synced F g s t) {target sym : α} {values : List α}
    (hc : t.called R.toRuntime "pup_invoke" args = some (.invoke target sym values)) :
    Arrives R F P (some b) g.next s.world.left t
      (Yields R.toRuntime F
        (g.invoked name fun r => .invoke r "pup_invoke" args g.blocks.length b) (.reg g.next))
      (Exec.call R (.invoke target sym values) s) := by
  let i := fun r => Instr.invoke r "pup_invoke" args g.blocks.length b
  have hg₀ := hg.append name
  have h₀ : Synced F (g.append name) s t :=
    h.elsewhere rfl (CodegenContext.append_instrs name g.build)
  have hleads₀ : Leads F ((g.append name).emitNew (g.append name).build i) := hleads.moved
  have hstep := (h₀.stepRaising hfinal (hleads₀.fetchNew hg₀.wellFormed)).trans
    (Machine.executeRaising_invoke (by decide) hc)
  rw [h.world] at hstep
  rw [Exec.call]
  cases hraised : s.world.raised R (.invoke target sym values) with
  | some world =>
      simp only [hraised] at hstep ⊢
      refine .lands rfl (Execution.gets_step hstep) (World.raised_some hraised).2.le ?_
      exact ⟨⟨h.running, rfl, h.locals, h.slots⟩, rfl, rfl⟩
  | none =>
      have hleft := World.call_left (R := R.toRuntime) (.invoke target sym values) s.world
      simp only [hraised, Machine.perform, h.world] at hstep ⊢
      cases hcall : s.world.call R.toRuntime (.invoke target sym values) with
      | mk answer world =>
          rw [hcall] at hstep hleft
          cases answer with
          | none => exact .waits (Execution.gets_step hstep) rfl rfl
          | some a =>
              have hworld : Synced F (g.append name) { s with world := world }
                  { t with world := world } :=
                ⟨⟨h.running, rfl, h.locals, h.slots⟩, h₀.block, h₀.index⟩
              have hset := hworld.setIn hg₀ hleads₀ (.value a)
              have hnil : (g.invoked name i).instrs g.blocks.length = [] := by
                refine (CodegenContext.emitAt_instrs_ne (g := g.append name)
                  hg.wellFormed.build_lt.ne' _).trans ?_
                rw [CodegenContext.append_instrs]
                exact CodegenContext.instrs_of_length_le (Nat.le_refl _)
              have hrunning : ({ t with world := world }.set g.next
                  (some (.value a))).progress = .running := h.running
              refine .value
                (Execution.gets_step (hstep.trans (congrArg Execution.inside (if_pos hrunning))))
                ((Same.refl g.next t).set (Nat.le_refl _) _) hleft
                ⟨AtStart.synced (g := g.invoked name i) (hset.jump _) hnil,
                  Function.update_self .., fun r hr => ?_⟩
              exact Operand.reg.inj hr ▸ Nat.lt_succ_self g.next

/-- What is known of the machine before holds of this one, when no call is made. -/
theorem Related.gets (h : Related F s t) (h' : Related F s' t') (hworld : s'.world = s.world)
    (hreaches : Machine.Reaches R.toRuntime P t t') :
    Execution.Gets R P (.inside t) (.inside t') :=
  Execution.gets_of_reaches hreaches (h'.world.trans (hworld.trans h.world.symm)) h'.running

/-- The steps of an invocation: a call, or an `invoke` under a landing pad. -/
structure InvocationSteps (g : CodegenContext) (receiver : Operand) (name : String)
    (args : List Operand) (v : Operand) (g' : CodegenContext) where
  argv : Operand
  g₁ : CodegenContext
  buildArgv : buildArgv args g = .ok (argv, g₁)
  value : v = .reg (g₁.next + 1)
  last :
    let g₂ := g₁.emitNew g₁.build fun r => .call r "pup_env_str_to_sym" [.env, .str name]
    let pupInvokeArgs := [.env, receiver, .reg g₁.next, .int args.length, argv]
    (g₁.landingpad = none ∧ g' = g₂.emitNew g₂.build fun r => .call r "pup_invoke" pupInvokeArgs) ∨
      ∃ pad, g₁.landingpad = some pad ∧ g' = g₂.invoked s!"invoke_{name}_continue" fun r =>
        .invoke r "pup_invoke" pupInvokeArgs g₂.blocks.length pad

theorem buildMethodInvocation_ok {receiver v : Operand} {name : String} {args : List Operand}
    (hrun : buildMethodInvocation receiver name args g = .ok (v, g')) :
    Nonempty (InvocationSteps g receiver name args v g') := by
  simp only [buildMethodInvocation, mkSym, bind_ok, buildCall_ok, get_ok] at hrun
  obtain ⟨argv, g₁, hargv, _, _, ⟨rfl, rfl⟩, _, _, ⟨rfl, rfl⟩, hrun⟩ := hrun
  let g₂ := g₁.emitNew g₁.build fun r => .call r "pup_env_str_to_sym" [.env, .str name]
  cases hpad : g₁.landingpad with
  | some pad =>
      have hpad₂ : g₂.landingpad = some pad := hpad
      simp only [g₂] at hpad₂
      simp only [hpad₂, bind_ok, appendBlock_ok, emitReg_ok, positionAtEnd_ok, pure_ok] at hrun
      obtain ⟨_, _, ⟨rfl, rfl⟩, _, _, ⟨rfl, rfl⟩, _, _, rfl, rfl, rfl⟩ := hrun
      exact ⟨argv, g₁, hargv, rfl, .inr ⟨pad, hpad, rfl⟩⟩
  | none =>
      have hpad₂ : g₂.landingpad = none := hpad
      simp only [g₂] at hpad₂
      simp only [hpad₂, buildCall_ok] at hrun
      obtain ⟨rfl, rfl⟩ := hrun
      exact ⟨argv, g₁, hargv, rfl, .inl ⟨hpad, rfl⟩⟩

/-- **The invocation of a method.** -/
theorem arrives_buildMethodInvocation (hfinal : Final F P) (hg : InMain g pad scope)
    {receiver v : Operand} {name : String} {args : List Operand} {a : α} {values : List α}
    (hrun : buildMethodInvocation receiver name args g = .ok (v, g')) (hleads : Leads F g')
    (h : Synced F g s t) (hreceiver : Holds R.toRuntime t receiver g.next a)
    (hargs : List.Forall₂ (fun v c => Holds R.toRuntime t v g.next c) args values) :
    Arrives R F P pad g.next s.world.left t (Yields R.toRuntime F g' v)
      (Exec.invoke R a name values s) := by
  obtain ⟨argv, g₁, hargv, rfl, hlast⟩ := buildMethodInvocation_ok hrun
  have hgrow₁ := stable_grow.buildArgv _ _ _ _ hg.wellFormed hargv
  have hg₁ : InMain g₁ pad scope := hg.keep hgrow₁
    (stableCalls_keepsLocals.toStable.buildArgv args _ _ _ hg.wellFormed hargv).locals
  let g₂ := g₁.emitNew g₁.build fun r => .call r "pup_env_str_to_sym" [.env, .str name]
  have hg₂ : InMain g₂ pad scope := hg₁.emitNew fun _ => rfl
  have hleads₂ : Leads F g₂ := by
    rcases hlast with ⟨-, rfl⟩ | ⟨pad, -, rfl⟩
    · exact hleads.emitNew rfl
    · exact hleads.grow (grow_invoked hg₂.wellFormed _ fun _ => rfl)
  have hleads₁ : Leads F g₁ := hleads₂.emitNew rfl
  -- the arguments are put into their array, and no call is made
  obtain ⟨t₁, array, hreaches, hsame, hsynced, heval, hbelow, hvalues⟩ :=
    reaches_buildArgv hfinal hg.ready (blind_buildArgv _ _ _ _ hargv) hleads₁.unpadded
      h.unpadded hargs
  have h₁ : Synced F g₁ s t₁ := hsynced.padded
  refine Arrives.after (Arrives.mono ?_ hgrow₁.next (Nat.le_refl _))
    (h.toRelated.gets h₁.toRelated rfl hreaches) hsame
  refine (arrives_call_cells hfinal hg₁ hleads₂ h₁ (by decide) rfl
    (.inr fun _ h => (by cases h))).bind fun sym s₂ t₂ _ hleft hsame₂ hcalled => ?_
  obtain ⟨hyields, hcells⟩ := hcalled
  have hc : t₂.called R.toRuntime "pup_invoke"
      [.env, receiver, .reg g₁.next, .int args.length, argv] = some (.invoke a sym values) := by
    have hval := ((hreceiver.same hsame).same (hsame₂.mono hgrow₁.next)).eval
    have harray : t₂.eval R.toRuntime argv = some array := by
      cases argv with
      | reg r => exact (hsame₂ r (hbelow r rfl)).trans heval
      | _ => exact heval
    have hargv : t₂.argv args.length array = some values := by
      rw [← hvalues]
      cases array <;> simp [Machine.argv, hcells]
    have hwords : List.Forall₂ (fun v w => t₂.eval R.toRuntime v = some w)
        [.env, receiver, .reg g₁.next, .int args.length, argv]
        [.env, .value a, .value sym, .int args.length, array] :=
      .cons rfl (.cons hval (.cons hyields.holds.eval (.cons rfl (.cons harray .nil))))
    rw [Machine.called_of_eval hwords]
    exact congrArg (Option.map (Call.invoke a sym)) hargv
  refine Arrives.mono ?_ (Nat.le_succ g₁.next) hleft
  rcases hlast with ⟨hpad, rfl⟩ | ⟨b, hpad, rfl⟩
  · have hnone : pad = none := hg₁.landingpad.symm.trans hpad
    exact (arrives_call_cells hfinal hg₂ hleads hyields.toSynced (by decide) hc
      (.inl hnone)).imp fun _ _ _ h => h.1
  · obtain rfl : pad = some b := hg₁.landingpad.symm.trans hpad
    exact arrives_invoke hfinal hg₂ hleads hyields.toSynced hc

/-! ### Expressions -/

/-- What is generated does what the interpreter does, under whatever landing pad. -/
def Meant (R : Raising α) (F P : CodegenContext) (m : Gen Operand)
    (f : List String → Exec α α) : Prop :=
  ∀ g v g' pad scope s t, InMain g pad scope → m g = .ok (v, g') → Leads F g' → Synced F g s t →
    Arrives R F P pad g.next s.world.left t (Yields R.toRuntime F g' v) (f scope s)

/-- The same of a list. -/
def MeantList (R : Raising α) (F P : CodegenContext) (m : Gen (List Operand))
    (f : List String → Exec α (List α)) : Prop :=
  ∀ g vs g' pad scope s t, InMain g pad scope → m g = .ok (vs, g') → Leads F g' → Synced F g s t →
    Arrives R F P pad g.next s.world.left t
      (fun values s' t' => Synced F g' s' t' ∧
        List.Forall₂ (fun v c => Holds R.toRuntime t' v g'.next c) vs values) (f scope s)

omit [DecidableEq α] in
theorem InMain.holds_self (hg : InMain g pad scope) (t : Machine α) :
    Holds R.toRuntime t g.self_ref g.next R.self :=
  hg.ready.holds_self t

theorem meant_buildCall (hfinal : Final F P) {fn : String} {args : List Operand} {c : Call α}
    (hfn : fn ≠ "llvm.gcroot") (hc : ∀ t : Machine α, t.called R.toRuntime fn args = some c)
    (hexit : ∀ world, c.exit R world ≠ .raised) :
    Meant R F P (buildCall fn args) fun _ => Exec.call R c := by
  intro g v g' pad scope s t hg hrun hleads h
  obtain ⟨rfl, rfl⟩ := buildCall_ok.mp hrun
  exact arrives_call hfinal hg hleads h hfn (hc t) hexit

theorem meant_self : Meant R F P (do return (← get).self_ref) fun _ => pure R.self := by
  intro g v g' pad scope s t hg hrun hleads h
  obtain ⟨_, _, hget, hrun⟩ := bind_ok.mp hrun
  obtain ⟨rfl, rfl⟩ := get_ok.mp hget
  obtain ⟨rfl, rfl⟩ := pure_ok.mp hrun
  exact arrives_pure ⟨h, hg.holds_self t⟩ (Nat.le_refl _)

theorem meant_localAccess (hfinal : Final F P) {name : String} :
    Meant R F P (localAccess name) fun _ => Exec.get name := by
  intro g v g' pad scope s t hg hrun hleads h
  have hresult := follows_localAccess (R := R.toRuntime) hfinal g.unpadded v g'.unpadded scope s t
    hg.ready (blind_localAccess name g v g' hrun) hleads.unpadded h.unpadded
  cases hresult with
  | goes hreaches hsame hleft hyields =>
      exact .value (h.toRelated.gets hyields.toRelated rfl hreaches) hsame hleft
        ⟨hyields.toSynced.padded, hyields.holds⟩

theorem meant_constAccess (hfinal : Final F P) {name : String} :
    Meant R F P (constAccess name) fun _ => Exec.const R name := by
  intro g v g' pad scope s t hg hrun hleads h
  simp only [constAccess, mkSym, bind_ok, buildCall_ok, get_ok] at hrun
  obtain ⟨_, g, ⟨rfl, rfl⟩, _, g₁, ⟨rfl, rfl⟩, _, g₂, ⟨rfl, rfl⟩, rfl, rfl⟩ := hrun
  have hg₁ := hg.emitNew (i := fun r => .call r "pup_class_context_from" [.env, g.self_ref])
    fun _ => rfl
  have hg₂ := hg₁.emitNew (i := fun r => .call r "pup_env_str_to_sym" [.env, .str name])
    fun _ => rfl
  have hleads₂ := hleads.emitNew rfl
  have hleads₁ := hleads₂.emitNew rfl
  have hclass : t.called R.toRuntime "pup_class_context_from" [.env, g.self_ref] =
      some (.classContextFrom R.self) := by
    rw [hg.self_ref]
    rfl
  refine (arrives_call hfinal hg hleads₁ h (by decide) hclass fun _ h => (by cases h)).bind
    fun class_ s₁ t₁ _ hleft₁ hsame₁ h₁ => ?_
  refine ((arrives_call hfinal hg₁ hleads₂ h₁.toSynced (by decide) rfl
    fun _ h => (by cases h)).bind
      fun sym s₂ t₂ _ hleft₂ hsame₂ h₂ => ?_).mono (Nat.le_succ _) hleft₁
  have hlookup : t₂.called R.toRuntime "pup_const_get_required"
      [.env, .reg g.next, .reg (g.next + 1)] = some (.constGetRequired class_ sym) := by
    have hval : t₂.regs g.next = some (.value class_) := (h₁.holds.same hsame₂).eval
    have hsym : t₂.regs (g.next + 1) = some (.value sym) := h₂.holds.eval
    have hwords : List.Forall₂ (fun v w => t₂.eval R.toRuntime v = some w)
        [.env, .reg g.next, .reg (g.next + 1)] [.env, .value class_, .value sym] :=
      .cons rfl (.cons hval (.cons hsym .nil))
    exact Machine.called_of_eval hwords
  exact (arrives_call hfinal hg₂ hleads h₂.toSynced (by decide) hlookup
    fun _ h => (by cases h)).mono (Nat.le_succ _) hleft₂

/-- A local is assigned what stands to the right. -/
theorem meant_assign (hfinal : Final F P) {name : String} {right : Expr}
    (ih : Meant R F P (codegenExpr right) (Exec.eval R right)) (op : String) :
    Meant R F P (codegenExpr (.assign (.name name) op right))
      (Exec.eval R (.assign (.name name) op right)) := by
  intro g v g' pad scope s t hg hrun hleads h
  simp only [codegenExpr, bind_ok, emit_ok, pure_ok] at hrun
  obtain ⟨lhs, g₁, hlhs, rhs, g₂, hright, _, _, rfl, rfl, rfl⟩ := hrun
  obtain ⟨slot, rfl, hlookup, hsynced⟩ := getOrCreateLocal_synced (s := s) (t := t) hg.ready
    (blind_getOrCreateLocal name g lhs g₁ hlhs)
  have hgrow₁ := stableExpr_grow.getOrCreateLocal name g _ g₁ hg.wellFormed hlhs
  have hg₁ := hg.run (stableExpr_grow.getOrCreateLocal name) (scopes_getOrCreateLocal name) hlhs
  have hg₂ := hg₁.expr hright
  have hleads₂ := hleads.emitAt rfl
  have hslot := (hleads₂.grow (grows_codegenExpr _ _ _ _ hg₁.wellFormed hright)).lookup hlookup
  refine ((ih g₁ v g₂ pad (name :: scope) s t hg₁ hright hleads₂ (hsynced h.unpadded).padded).mono
    hgrow₁.next (Nat.le_refl _)).bind fun a s₂ t₂ _ hleft hsame h₂ => ?_
  have hstep : Execution.step R P (.inside t₂) = .inside (t₂.write slot 0 a) := by
    have hptr := h₂.slots _ (hfinal.alloca_of_lookup hslot) slot rfl
    have hexec : t₂.execute R.toRuntime (.store v (.reg slot)) = t₂.write slot 0 a := by
      simp [Machine.execute, h₂.holds.eval, hptr]
    rw [h₂.stepRaising hfinal (hleads.fetch hg₂.wellFormed), ← hexec]
    exact Machine.executeRaising_quiet (by rw [hexec]; rfl) (by
      rw [hexec]
      exact h₂.running ▸ (by decide))
  have hassigned := h₂.toSynced.unpadded.assign hfinal hg₂.ready (.store v (.reg slot)) hslot a
  exact Arrives.value (Execution.gets_step hstep) (.refl _ _) hleft
    ⟨hassigned.padded (g := g₂.emitAt g₂.build _), h₂.holds.same (.refl _ _)⟩

theorem meant_assignInstVar (hfinal : Final F P) {name : String} {right : Expr}
    (ih : Meant R F P (codegenExpr right) (Exec.eval R right)) (op : String) :
    Meant R F P (codegenExpr (.assign (.instVar name) op right))
      (Exec.eval R (.assign (.instVar name) op right)) := by
  intro g v g' pad scope s t hg hrun hleads h
  simp only [codegenExpr, mkSym, bind_ok, buildCall_ok, get_ok, pure_ok] at hrun
  obtain ⟨rhs, g₁, hright, _, _, ⟨rfl, rfl⟩, _, g₂, ⟨rfl, rfl⟩, _, _, ⟨rfl, rfl⟩, rfl, rfl⟩ := hrun
  have hg₁ := hg.expr hright
  have hg₂ := hg₁.emitNew (i := fun r => .call r "pup_env_str_to_sym" [.env, .str name])
    fun _ => rfl
  have hleads₂ := hleads.emitNew rfl
  have hleads₁ := hleads₂.emitNew rfl
  have hnext := (grows_codegenExpr _ _ _ _ hg.wellFormed hright).next
  refine (ih g v g₁ pad scope s t hg hright hleads₁ h).bind fun a s₁ t₁ _ hleft₁ hsame₁ h₁ => ?_
  refine ((arrives_call hfinal hg₁ hleads₂ h₁.toSynced (by decide) rfl
    fun _ h => (by cases h)).bind
      fun sym s₂ t₂ _ hleft₂ hsame₂ h₂ => ?_).mono hnext hleft₁
  have hset : t₂.called R.toRuntime "pup_iv_set" [.env, g₁.self_ref, .reg g₁.next, v] =
      some (.ivSet R.self sym a) := by
    have hself := (hg₁.holds_self (R := R) t₂).eval
    have hsym : t₂.regs g₁.next = some (.value sym) := h₂.holds.eval
    have hval := (h₁.holds.same hsame₂).eval
    have hwords : List.Forall₂ (fun v w => t₂.eval R.toRuntime v = some w)
        [.env, g₁.self_ref, .reg g₁.next, v] [.env, .value R.self, .value sym, .value a] :=
      .cons rfl (.cons hself (.cons hsym (.cons hval .nil)))
    exact Machine.called_of_eval hwords
  refine ((arrives_call hfinal hg₂ hleads h₂.toSynced (by decide) hset
    fun _ h => (by cases h)).mono (Nat.le_succ _) hleft₂).bind
      fun _ s₃ t₃ _ hleft₃ hsame₃ h₃ => ?_
  exact arrives_pure ⟨h₃.toSynced, ((h₁.holds.same hsame₂).same hsame₃).mono
    ((Nat.le_succ _).trans (Nat.le_succ _))⟩ hleft₃

theorem meant_instVar (hfinal : Final F P) (name : String) :
    Meant R F P (codegenExpr (.instVar name)) (Exec.eval R (.instVar name)) := by
  intro g v g' pad scope s t hg hrun hleads h
  simp only [codegenExpr, mkSym, bind_ok, buildCall_ok, get_ok] at hrun
  obtain ⟨_, _, ⟨rfl, rfl⟩, _, g₁, ⟨rfl, rfl⟩, rfl, rfl⟩ := hrun
  have hg₁ := hg.emitNew (i := fun r => .call r "pup_env_str_to_sym" [.env, .str name])
    fun _ => rfl
  have hleads₁ := hleads.emitNew rfl
  refine (arrives_call hfinal hg hleads₁ h (by decide) rfl fun _ h => (by cases h)).bind
    fun sym s₁ t₁ _ hleft hsame h₁ => ?_
  have hget : t₁.called R.toRuntime "pup_iv_get" [g.self_ref, .reg g.next] =
      some (.ivGet R.self sym) := by
    have hself := (hg.holds_self (R := R) t₁).eval
    have hsym : t₁.regs g.next = some (.value sym) := h₁.holds.eval
    have hwords : List.Forall₂ (fun v w => t₁.eval R.toRuntime v = some w)
        [g.self_ref, .reg g.next] [.value R.self, .value sym] :=
      .cons hself (.cons hsym .nil)
    exact Machine.called_of_eval hwords
  exact (arrives_call hfinal hg₁ hleads h₁.toSynced (by decide) hget
    fun _ h => (by cases h)).mono (Nat.le_succ _) hleft

theorem meant_binary (hfinal : Final F P) {class_ : BinaryClass} {left right : Expr}
    {op : String} (hop : coreOperators.contains (class_, op))
    (ihl : Meant R F P (codegenExpr left) (Exec.eval R left))
    (ihr : Meant R F P (codegenExpr right) (Exec.eval R right)) :
    Meant R F P (codegenExpr (.binary class_ left op right))
      (Exec.eval R (.binary class_ left op right)) := by
  intro g v g' pad scope s t hg hrun hleads h
  simp only [codegenExpr, bind_ok] at hrun
  obtain ⟨lhs, g₁, hl, rhs, g₂, hr, hrun⟩ := hrun
  have hg₁ := hg.expr hl
  have hg₂ := hg₁.expr hr
  have hleads₂ := hleads.grow
    (stableExpr_grow.codegenBinary _ _ _ _ _ _ _ hg₂.wellFormed hrun)
  have hgrow₂ := grows_codegenExpr _ _ _ _ hg₁.wellFormed hr
  have hgrow₁ := grows_codegenExpr _ _ _ _ hg.wellFormed hl
  refine (ihl g lhs g₁ pad scope s t hg hl (hleads₂.grow hgrow₂) h).bind
    fun a s₁ t₁ _ hleft₁ hsame₁ h₁ => ?_
  refine ((ihr g₁ rhs g₂ pad _ s₁ t₁ hg₁ hr hleads₂ h₁.toSynced).bind
    fun b s₂ t₂ _ hleft₂ hsame₂ h₂ => ?_).mono hgrow₁.next hleft₁
  have hmethod : operatorMethod class_ op = some op := by
    simp only [coreOperators, List.contains_cons, List.contains_nil, Bool.or_false,
      Bool.or_eq_true, beq_iff_eq, Prod.mk.injEq] at hop
    rcases hop with ⟨rfl, rfl⟩ | ⟨rfl, rfl⟩ | ⟨rfl, rfl⟩ | ⟨rfl, rfl⟩ <;> rfl
  rw [codegenBinary, hmethod] at hrun
  have hlhs := (h₁.holds.same hsame₂).mono hgrow₂.next
  exact (arrives_buildMethodInvocation hfinal hg₂ hrun hleads h₂.toSynced hlhs
    (.cons h₂.holds .nil)).mono hgrow₂.next hleft₂

/-- A name: a constant, a local or an invocation. -/
theorem meant_varOrInvoke (hfinal : Final F P) {name : NamedValue} {args : Option (List Expr)}
    {block : Option Parse.Block} {receiver : Option Expr}
    (ihr : Meant R F P (codegenReceiver receiver) (Exec.evalReceiver R receiver))
    (iha : MeantList R F P (codegenArgList args) (Exec.evalArgList R args)) :
    Meant R F P (codegenExpr (.varOrInvoke name args block receiver))
      (Exec.eval R (.varOrInvoke name args block receiver)) := by
  intro g v g' pad scope s t hg hrun hleads h
  rw [codegenExpr] at hrun
  rw [Exec.eval]
  split at hrun
  · next hconst =>
      rw [if_pos hconst]
      exact meant_constAccess hfinal g v g' pad scope s t hg hrun hleads h
  · next hconst =>
      rw [if_neg hconst]
      rw [bind_ok] at hrun
      obtain ⟨found, g, hlocal, hrun⟩ := hrun
      obtain ⟨rfl, rfl⟩ := isLocal_ok hg.scope hlocal
      split at hrun
      · next hfound =>
          rw [if_pos hfound]
          exact meant_localAccess hfinal g v g' pad scope s t hg hrun hleads h
      · next hfound =>
          rw [if_neg hfound]
          simp only [bind_ok] at hrun
          obtain ⟨r, g₁, hr, vs, g₂, ha, hrun⟩ := hrun
          have hg₁ := hg.run (stableExpr_grow.codegenReceiver receiver)
            (scopes_codegenReceiver receiver) hr
          have hg₂ := hg₁.run (stableExpr_grow.codegenArgList args)
            (scopes_codegenArgList args) ha
          have hleads₂ := hleads.grow
            (stableExpr_grow.buildMethodInvocation _ _ _ _ _ _ hg₂.wellFormed hrun)
          have hgrow₂ := stableExpr_grow.codegenArgList _ _ _ _ hg₁.wellFormed ha
          have hgrow₁ := stableExpr_grow.codegenReceiver _ _ _ _ hg.wellFormed hr
          refine (ihr g r g₁ pad scope s t hg hr (hleads₂.grow hgrow₂) h).bind
            fun a s₁ t₁ _ hleft₁ hsame₁ h₁ => ?_
          refine ((iha g₁ vs g₂ pad _ s₁ t₁ hg₁ ha hleads₂ h₁.toSynced).bind
            fun values s₂ t₂ _ hleft₂ hsame₂ h₂ => ?_).mono hgrow₁.next hleft₁
          exact (arrives_buildMethodInvocation hfinal hg₂ hrun hleads h₂.1
            ((h₁.holds.same hsame₂).mono hgrow₂.next) h₂.2).mono hgrow₂.next hleft₂

mutual

/-- **What an expression is generated as does what it means.** -/
theorem meant_codegenExpr (hfinal : Final F P) :
    (e : Expr) → coreExpr e → Meant R F P (codegenExpr e) (Exec.eval R e)
  | .assign (.name name) op right, hcore => by
      have ih := meant_codegenExpr hfinal right (by simp_all [coreExpr])
      exact meant_assign hfinal ih op
  | .assign (.instVar name) op right, hcore => by
      have ih := meant_codegenExpr hfinal right (by simp_all [coreExpr])
      exact meant_assignInstVar hfinal ih op
  | .varOrInvoke name args block receiver, hcore => by
      have ihr := meant_codegenReceiver hfinal receiver (by simp_all [coreExpr])
      have iha := meant_codegenArgList hfinal args (by simp_all [coreExpr])
      exact meant_varOrInvoke hfinal ihr iha
  | .instVar name, _ => meant_instVar hfinal name
  | .binary class_ left op right, hcore => by
      have ihl := meant_codegenExpr hfinal left (by simp_all [coreExpr])
      have ihr := meant_codegenExpr hfinal right (by simp_all [coreExpr])
      exact meant_binary hfinal (by simp_all [coreExpr]) ihl ihr
  | .string source, _ => by
      rw [codegenExpr]
      exact meant_buildCall hfinal (by decide) (fun _ => rfl) fun _ h => (by cases h)
  | .int source, _ => by
      rw [codegenExpr]
      exact meant_buildCall hfinal (by decide) (fun _ => rfl) fun _ h => (by cases h)
  | .bool true, _ => by
      rw [codegenExpr]
      exact meant_buildCall hfinal (by decide) (fun _ => rfl) fun _ h => (by cases h)
  | .bool false, _ => by
      rw [codegenExpr]
      exact meant_buildCall hfinal (by decide) (fun _ => rfl) fun _ h => (by cases h)
  | .selfExpr, _ => by
      rw [codegenExpr]
      exact meant_self

theorem meant_codegenReceiver (hfinal : Final F P) :
    (receiver : Option Expr) → coreReceiver receiver →
      Meant R F P (codegenReceiver receiver) (Exec.evalReceiver R receiver)
  | some receiver, hcore => by
      rw [codegenReceiver]
      exact meant_codegenExpr hfinal receiver hcore
  | none, _ => by
      rw [codegenReceiver]
      exact meant_self

theorem meant_codegenArgList (hfinal : Final F P) :
    (args : Option (List Expr)) → coreArgList args →
      MeantList R F P (codegenArgList args) (Exec.evalArgList R args)
  | some args, hcore => by
      rw [codegenArgList]
      exact meant_codegenExprs hfinal args hcore
  | none, _ => by
      intro g vs g' pad scope s t hg hrun hleads h
      rw [codegenArgList] at hrun
      obtain ⟨rfl, rfl⟩ := pure_ok.mp hrun
      exact arrives_pure ⟨h, .nil⟩ (Nat.le_refl _)

theorem meant_codegenExprs (hfinal : Final F P) :
    (es : List Expr) → coreExprs es → MeantList R F P (codegenExprs es) (Exec.evalExprs R es)
  | [], _ => by
      intro g vs g' pad scope s t hg hrun hleads h
      rw [codegenExprs] at hrun
      obtain ⟨rfl, rfl⟩ := pure_ok.mp hrun
      exact arrives_pure ⟨h, .nil⟩ (Nat.le_refl _)
  | e :: es, hcore => by
      have ihe := meant_codegenExpr hfinal e (by simp_all [coreExprs])
      have ihes := meant_codegenExprs hfinal es (by simp_all [coreExprs])
      intro g vs g' pad scope s t hg hrun hleads h
      simp only [codegenExprs, bind_ok, pure_ok] at hrun
      obtain ⟨v, g₁, he, vs, g₂, hes, rfl, rfl⟩ := hrun
      have hg₁ := hg.expr he
      have hgrow₁ := grows_codegenExpr _ _ _ _ hg.wellFormed he
      have hgrow₂ := stableExpr_grow.codegenExprs _ _ _ _ hg₁.wellFormed hes
      refine (ihe g v g₁ pad scope s t hg he (hleads.grow hgrow₂) h).bind
        fun a s₁ t₁ _ hleft₁ hsame₁ h₁ => ?_
      refine ((ihes g₁ vs g' pad _ s₁ t₁ hg₁ hes hleads h₁.toSynced).bind
        fun values s₂ t₂ _ hleft₂ hsame₂ h₂ => ?_).mono hgrow₁.next hleft₁
      exact arrives_pure ⟨h₂.1, .cons ((h₁.holds.same hsame₂).mono hgrow₂.next) h₂.2⟩ hleft₂

end

end Pup.Codegen
