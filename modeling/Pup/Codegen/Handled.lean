/-
Programs with exceptions do what they mean.

The body of a `begin` is executed; where it raises, so are the clauses, and what comes of either
goes on after the `begin`.  With that each statement does what it means, under whatever landing
pad, and so does a program: it returns, it waits, or it is left by an exception, just as its
text says, as long as no clause moves the builder.
-/
import Pup.Codegen.Rescued

namespace Pup.Codegen

open Parse

variable {α : Type} {g g' F P : CodegenContext} {scope : List String} {R : Raising α}
  {pad : Option Nat} {s : State α} {t : Machine α} [DecidableEq α]

/-! ### The end of a `begin` -/

section Begin

variable {slot : Nat} {v : Operand} {beginbk : List Stmt} {rescuebks : List RescueBlock}

/-- After the body, or after a clause, the value of the `begin` is loaded. -/
theorem BeginSteps.gets_result (steps : BeginSteps g (.reg slot) beginbk rescuebks v g')
    (hfinal : Final F P) (hg : InMain g pad scope) (hslot : ResultSlot F slot)
    (hleads : Leads F g') (h : AtStart F steps.g₂.blocks.length s t) :
    ∃ t', Execution.Gets R P (.inside t) (.inside t') ∧ Same 0 t t' ∧
      ∃ a, Yields R.toRuntime F g' v a s t' := by
  have hparts := steps.parts hg hleads
  let after := (steps.g₂.rethrown (.reg steps.g₁.next)).moveTo steps.g₁.build
  let joined := after.joined steps.g₁.build steps.impls
  have hclauses := (framesRescues_codegenRescues rescuebks _ _ _ _ _ _ _ _
    (steps.atRescues (Frame.start hg.wellFormed) (grows_codegenStmts beginbk))
    steps.rescuebks).run fun hwf => grow_rethrown hwf (.reg steps.g₁.next)
  have hmoved : Frame g after _ := hclauses.moveTo (List.mem_append_right _ (.head _))
  have hgrow : Grow g joined := hmoved.joined (List.mem_append_right _ (.head _))
    fun c hc => List.mem_append_left _ hc
  have hscope := (scopesRescues_codegenRescues rescuebks _ _ _ _ _ _ _ hparts.landed.wellFormed
    hparts.landed.scope steps.rescuebks).2
  have hjoined : InMain joined pad (scopeRescues rescuebks (scopeStmts beginbk scope)) :=
    hg.grow hgrow (hscope.of_locals (congrArg MethodRef.locals
      (CodegenContext.jumpedOut_method ..)))
  -- nothing has been generated in the block that follows the `begin`
  have hlt : ∀ c ∈ steps.g₁.build :: steps.impls, c < after.blocks.length := by
    intro c hc
    refine CodegenContext.lt_of_fnOf (hmoved.reach c ?_).fnOf
    rcases List.mem_cons.mp hc with rfl | hc
    · exact List.mem_append_right _ (.head _)
    · exact List.mem_append_left _ hc
  have hnil : joined.instrs joined.build = [] :=
    joined_nil (g := after) (hlt _ (.head _)) fun c hc => hlt c (.tail _ hc)
  have hbuild : joined.build = steps.g₂.blocks.length := rethrown_length _
  rw [← hbuild] at h
  obtain ⟨vbody, g₁, impls, g₂, hbody, hrescues, rfl, rfl⟩ := steps
  obtain ⟨t', hgets, hsame, a, hyields⟩ := h.gets_result (R := R) hfinal hjoined hslot hnil hleads
  have hnext : joined.next = (g₂.rethrown (.reg g₁.next)).next :=
    CodegenContext.jumpedOut_next ..
  exact ⟨t', hgets, hsame, a, hnext ▸ hyields⟩

/-- **A `begin` does what it means.** -/
theorem BeginSteps.arrives (steps : BeginSteps g (.reg slot) beginbk rescuebks v g')
    (hfinal : Final F P) (hg : InMain g pad scope) (hslot : ResultSlot F slot)
    (hleads : Leads F g') (h : Synced F g s t) (ihbody : MeantStmts R F P beginbk)
    (ihrescues : MeantRescues R F P rescuebks) (hends : endsStmts true beginbk scope)
    (hends' : endsRescues pad.isSome rescuebks (scopeStmts beginbk scope))
    (elsebk ensurebk : Option (List Stmt)) :
    Arrives R F P pad 0 s.world.left t (fun _ s' t' => ∃ a, Yields R.toRuntime F g' v a s' t')
      (Exec.exec R (.beginStmt beginbk rescuebks elsebk ensurebk) scope s) := by
  have hparts := steps.parts hg hleads
  have hguarded : Synced F (g.guarded g.blocks.length) s t :=
    h.elsewhere rfl (CodegenContext.append_instrs _ g.build)
  have hend : ∀ s' t', AtStart F steps.g₂.blocks.length s' t' → ∃ t'',
      Execution.Gets R P (.inside t') (.inside t'') ∧ Same 0 t' t'' ∧
        ∃ a, Yields R.toRuntime F g' v a s' t'' := fun s' t' hstart =>
    steps.gets_result hfinal hg hslot hleads hstart
  have hbody := ihbody _ steps.vbody steps.g₁ (some g.blocks.length) scope s t hg.guarded hends
    steps.body (hparts.stored.emitAt rfl) hguarded
  rw [Exec.exec_begin]
  generalize Exec.execStmts R beginbk scope s = o at hbody
  cases hbody with
  | value hgets _ hleft hpost =>
      obtain ⟨a, hyields⟩ := hpost
      obtain ⟨hgets₁, h₁⟩ := hyields.gets_store hfinal hparts.body hslot hparts.stored
      have hgets₂ := h₁.gets_br (R := R) hfinal hparts.leave
      obtain ⟨t'', hgets₃, -, hpost⟩ := hend _ _ (h₁.jump _)
      exact .value (hgets.trans (hgets₁.trans (hgets₂.trans hgets₃))) (same_zero t t'') hleft hpost
  | @lands s' t' b hpad hgets hleft hstart =>
      obtain rfl := Option.some.inj hpad
      let n := steps.g₁.next
      obtain ⟨t₁, hgets₁, h₁, hdwarf, hexcep, htype⟩ := gets_landed (R := R) hfinal
        hparts.landingpad hparts.nil (hparts.leads.grow hparts.clauses) hstart rfl
      have hbelow : ∀ {k : Nat}, k < 6 → ∀ r, Operand.reg (n + k) = .reg r →
          r < (g.atLandingpad steps.g₁ steps.vbody (.reg slot)).landed.next := fun hk r hr =>
        Operand.reg.inj hr ▸ Nat.add_lt_add_left hk n
      have hrescues := ihrescues _ steps.impls steps.g₂ pad (scopeStmts beginbk scope) s' t₁
        (R.unwinding s'.world.calls) slot steps.g₂.blocks.length (.reg n) (.reg (n + 2))
        (.reg (n + 5)) hparts.landed hends' hslot steps.rescuebks hparts.leads hparts.left h₁
        ⟨hdwarf, hbelow (k := 0) (by decide)⟩ ⟨hexcep, hbelow (by decide)⟩
        ⟨htype, hbelow (by decide)⟩
      exact ((hrescues.mono (Nat.le_refl 0) hleft).onwards fun _ => hend).after
        (hgets.trans hgets₁) (same_zero t t₁)
  | unwinds hpad => cases hpad
  | left hgets => exact .left hgets
  | waits hgets hwaiting hworld => exact .waits hgets hwaiting hworld

end Begin

/-! ### Programs -/

mutual

/-- **What a statement is generated as does what it means**, with its exceptions. -/
theorem meant_codegenStmt (hfinal : Final F P) :
    (stmt : Stmt) → rescuingStmt stmt → MeantStmt R F P stmt
  | .expr e, hcore => meant_expr hfinal hcore
  | .ifStmt cond ifbk none, hcore => by cases hcore
  | .ifStmt cond ifbk (some elsebk), hcore => by
      simp only [rescuingStmt, Bool.and_eq_true] at hcore
      obtain ⟨⟨hcond, hcoreif⟩, hcoreelse⟩ := hcore
      have ihif := meant_codegenStmts hfinal ifbk hcoreif
      have ihelse := meant_codegenStmts hfinal elsebk hcoreelse
      intro g v g' pad scope s t hg hends hrun hleads h
      simp only [endsStmt, endsBlock, Bool.and_eq_true] at hends
      obtain ⟨e, _, he, heq, ⟨steps⟩⟩ := codegenIf_ok hg.wellFormed hrun
      cases heq
      obtain rfl := he.unique hg.entry
      have hg₀ := hg.slot (i := .alloca) (fun _ => rfl) fun _ => rfl
      have hslot := hg.resultSlot (hleads.grow (steps.grow (.start hg₀.wellFormed)
        (grows_codegenStmts ifbk) (grows_codegenStmts elsebk)))
      exact steps.arrives hfinal hg₀ hslot hleads (h.slotIn hg _) hcond ihif ihelse hends.1 hends.2
  | .whileStmt cond statements, hcore => by
      simp only [rescuingStmt, Bool.and_eq_true] at hcore
      have ih := meant_codegenStmts hfinal statements hcore.2
      intro g v g' pad scope s t hg hends hrun hleads h
      simp only [endsStmt] at hends
      obtain ⟨e, he, ⟨steps⟩⟩ := codegenWhile_ok hg.wellFormed hrun
      obtain rfl := he.unique hg.entry
      have hg₀ := hg.slot (i := .alloca) (fun _ => rfl) fun _ => rfl
      have hslot := hg.resultSlot (hleads.grow (steps.grow (.start hg₀.wellFormed)
        (grows_codegenStmts statements)))
      exact steps.arrives hfinal hg₀ hslot hleads (h.slotIn hg _) hcore.1 ih hends
  | .beginStmt beginbk rescuebks none none, hcore => by
      simp only [rescuingStmt, Bool.and_eq_true] at hcore
      have ihbody := meant_codegenStmts hfinal beginbk hcore.1
      have ihrescues := meant_codegenRescues hfinal rescuebks hcore.2
      intro g v g' pad scope s t hg hends hrun hleads h
      simp only [endsStmt, Bool.and_eq_true] at hends
      obtain ⟨-, e, he, ⟨steps⟩⟩ := codegenBegin_ok hg.wellFormed hrun
      obtain rfl := he.unique hg.entry
      have hg₀ := hg.slot (i := .alloca) (fun _ => rfl) fun _ => rfl
      have hslot := hg.resultSlot (hleads.grow (steps.grow (.start hg₀.wellFormed)
        (grows_codegenStmts beginbk) (framesRescues_codegenRescues rescuebks)))
      exact steps.arrives hfinal hg₀ hslot hleads (h.slotIn hg _) ihbody ihrescues hends.1 hends.2
        none none
  | .beginStmt _ _ (some _) _, hcore => by cases hcore
  | .beginStmt _ _ none (some _), hcore => by cases hcore
  | .classDef _ _ _, hcore => by cases hcore
  | .methodDef _ _ _, hcore => by cases hcore

theorem meant_codegenStmts (hfinal : Final F P) :
    (ss : List Stmt) → rescuingStmts ss → MeantStmts R F P ss
  | [], _ => by
      intro g v g' pad scope s t hg _ hrun hleads h
      rw [codegenStmts] at hrun
      obtain ⟨⟨⟩, -⟩ := pure_ok.mp hrun
  | [stmt], hcore => by
      simp only [rescuingStmts, Bool.and_eq_true] at hcore
      have ih := meant_codegenStmt hfinal stmt hcore.1
      intro g v g' pad scope s t hg hends hrun hleads h
      simp only [endsStmts, Bool.and_eq_true] at hends
      obtain ⟨v', hrun, heq⟩ := codegenStmts_singleton_ok.mp hrun
      obtain rfl := Option.some.inj heq
      refine (ih g v g' pad scope s t hg hends.1 hrun hleads h).bind
        fun _ s₁ t₁ _ hleft _ h₁ => ?_
      exact arrives_pure h₁ hleft
  | stmt :: stmt' :: ss, hcore => by
      rw [rescuingStmts, Bool.and_eq_true] at hcore
      have ih := meant_codegenStmt hfinal stmt hcore.1
      have ihs := meant_codegenStmts hfinal (stmt' :: ss) hcore.2
      intro g v g' pad scope s t hg hends hrun hleads h
      rw [endsStmts, Bool.and_eq_true] at hends
      obtain ⟨v₁, g₁, hrun₁, hrun₂⟩ := codegenStmts_cons_ok.mp hrun
      have hg₁ := hg.run (grows_codegenStmt stmt) (scopes_codegenStmt stmt) hrun₁
      have hleads₁ := hleads.grow (grows_codegenStmts _ _ _ _ hg₁.wellFormed hrun₂)
      refine (ih g v₁ g₁ pad scope s t hg hends.1 hrun₁ hleads₁ h).bind
        fun _ s₁ t₁ _ hleft _ hyields => ?_
      obtain ⟨a, h₁⟩ := hyields
      exact (ihs g₁ v g' pad _ s₁ t₁ hg₁ hends.2 hrun₂ hleads h₁.toSynced).mono (Nat.le_refl 0)
        hleft

theorem meant_codegenRescues (hfinal : Final F P) :
    (rescuebks : List RescueBlock) → rescuingClauses rescuebks → MeantRescues R F P rescuebks
  | [], _ => meant_rescues_nil hfinal
  | .mk types var_name statements :: rescuebks, hcore => by
      simp only [rescuingClauses, Bool.and_eq_true] at hcore
      have ihs := meant_codegenStmts hfinal statements hcore.1.2
      have ih := meant_codegenRescues hfinal rescuebks hcore.2
      exact meant_rescues_cons hfinal hcore.1.1 ihs ih

end

/-- An execution that has come to its end, and what the program means.  There is no way for a
program to be left by anything but its own exception. -/
inductive Concludes (table : List (String × Nat)) :
    Execution α → Exit α Unit × State α → Prop
  | returns {t : Machine α} {s : State α} (progress : t.progress = .returned)
      (calls : t.world.calls = s.world.calls)
      (locals : ∀ name slot, table.lookup name = some slot → t.cells slot 0 = s.locals name) :
      Concludes table (.inside t) (.value (), s)
  | waits {t : Machine α} {s : State α} (progress : t.progress = .waiting)
      (calls : t.world.calls = s.world.calls) : Concludes table (.inside t) (.waits, s)
  | left {dwarf_ex : α} {s : State α} :
      Concludes table (.left dwarf_ex s.world) (.left dwarf_ex, s)

omit [DecidableEq α] in
theorem Concludes.halted {table : List (String × Nat)} {e : Execution α}
    {o : Exit α Unit × State α} (h : Concludes table e o) : e.Halted := by
  cases h with
  | returns progress =>
      show _ ≠ Progress.running
      rw [progress]
      decide
  | waits progress =>
      show _ ≠ Progress.running
      rw [progress]
      decide
  | left => exact trivial

/-- What has come to its end stays there. -/
theorem Concludes.run {table : List (String × Nat)} {e e' : Execution α}
    {o : Exit α Unit × State α} (h : Concludes table e' o)
    (hgets : Execution.Gets R P e e') :
    ∃ n, ∀ m ≥ n, Concludes table (Execution.run R P m e) o := by
  obtain ⟨n, hn⟩ := hgets.run_eq h.halted
  exact ⟨n, fun m hm => (hn m hm).symm ▸ h⟩

/-- **A program with exceptions does what it means.** -/
theorem raises_as_meant {stmts : List Stmt} {g : CodegenContext} (h : generate stmts = .ok g)
    (hcore : rescuingStmts stmts) (hends : endsStmts false stmts []) (R : Raising α) :
    ∃ v g₁, codegenStmts stmts .unitBody = .ok (some v, g₁) ∧ g = g₁.afterUnit v ∧
      Scoped g₁ (scopeStmts stmts []) ∧
      ∀ (cells : Nat → Nat → α) (locals : String → α) (left : Nat),
        (∀ name slot, g₁.current_method.locals.lookup name = some slot →
          cells slot 0 = locals name) →
        ∃ n, ∀ m ≥ n, Concludes g₁.current_method.locals
          (Execution.run R g m (.inside (.start cells left)))
          (Exec.program R stmts locals left) := by
  obtain ⟨v, F, hrun, rfl⟩ := generate_ok h
  have hready : Ready .unitBody [] :=
    ⟨wellFormed_unitBody, rfl, rfl, isEntry_unitBody, Nat.one_ne_zero, fun _ => rfl⟩
  have hgrow := grows_codegenStmts stmts _ _ _ wellFormed_unitBody hrun
  have hreadyF := hready.run (grows_codegenStmts stmts) (scopes_codegenStmts stmts) hrun
  have hfinal : Final F (F.afterUnit v) := ⟨hgrow, (longer_afterUnit v hgrow.method).longer⟩
  refine ⟨v, F, hrun, rfl, hreadyF.scope, fun cells locals left hcells => ?_⟩
  obtain ⟨t, hreaches, hsynced⟩ : ∃ t, Machine.Reaches R.toRuntime (F.afterUnit v)
      (.start cells left) t ∧ Synced F .unitBody ⟨locals, ⟨[], left⟩⟩ t :=
    reaches_body hfinal hreadyF hcells
  have hgets : Execution.Gets R (F.afterUnit v) (.inside (.start cells left)) (.inside t) :=
    Execution.gets_of_reaches hreaches hsynced.world hsynced.running
  have hresult := meant_codegenStmts (R := R) hfinal stmts hcore _ v F none [] _ t hready.inMain
    hends hrun (.refl F) hsynced
  rw [Exec.program, Exec.function]
  generalize Exec.execStmts R stmts [] ⟨locals, ⟨[], left⟩⟩ = o at hresult
  cases hresult with
  | @value c s' t' hgets' _ _ hpost =>
      obtain ⟨a, hyields⟩ := hpost
      have hret : ((F.afterUnit v).instrs t'.block)[t'.index]? = some (.ret v) := by
        rw [hyields.block, hyields.index, afterUnit_build hreadyF.wellFormed hreadyF.build]
        exact List.getElem?_concat_length
      have hstep : Execution.step R (F.afterUnit v) (.inside t') = .inside (t'.stop .returned) :=
        Execution.step_running hyields.running hret
      have hreturns : Concludes F.current_method.locals (.inside (t'.stop .returned))
          (.value (), s') := .returns rfl (congrArg World.calls hyields.world) hyields.locals
      exact hreturns.run ((hgets.trans hgets').trans (Execution.gets_step hstep))
  | lands hpad => cases hpad
  | unwinds _ hgets' => exact Concludes.left.run (hgets.trans hgets')
  | left hgets' => exact Concludes.left.run (hgets.trans hgets')
  | @waits s' t' hgets' hwaiting hworld =>
      have hwaits : Concludes F.current_method.locals (.inside t') (.waits, s') :=
        .waits hwaiting (congrArg World.calls hworld)
      exact hwaits.run (hgets.trans hgets')

/-- `f`, with a clause for `A` and `B` that calls `g` with the exception. -/
def handledCall : List Stmt :=
  [.beginStmt [.expr (.varOrInvoke (.name "f") none none none)]
    [.mk (some [.varOrInvoke (.constant "A") none none none,
        .varOrInvoke (.constant "B") none none none]) (some "e")
      [.expr (.varOrInvoke (.name "g") (some [.varOrInvoke (.name "e") none none none]) none
        none)]] none none]

/-- The second call raises, and the exception is of the class that the eighth returns. -/
def handledRuntime : Raising Nat where
  toRuntime := typesRuntime
  raises calls := calls.length == 2
  unwinding _ := typesUnwinding

/-- `f` raises, `A` is tested and then `B`, and `g` is called with the exception. -/
def handledCalls : List (Call Nat) := typesCalls ++ [.strToSym "g", .invoke 0 9 [50]]

theorem raises_as_meant_handled : ∃ g, generate handledCall = .ok g ∧ ∃ n, ∀ m ≥ n, ∃ t,
    Execution.run handledRuntime g m (.inside (.start (fun _ _ => 0) 100)) = .inside t ∧
      t.progress = .returned ∧ t.world.calls = handledCalls := by
  obtain ⟨g, hg, -⟩ : ∃ g, generate handledCall = .ok g ∧ g.functions = 1 :=
    generated_of_map (by decide +kernel)
  obtain ⟨v, g₁, -, -, -, hruns⟩ := raises_as_meant hg (by decide) (by decide) handledRuntime
  obtain ⟨n, hn⟩ := hruns (fun _ _ => 0) (fun _ => 0) 100 fun _ _ _ => rfl
  have hout : (Exec.program handledRuntime handledCall (fun _ => 0) 100).1 = .value () := by
    decide +kernel
  have hcalls : (Exec.program handledRuntime handledCall (fun _ => 0) 100).2.world.calls =
      handledCalls := by decide +kernel
  refine ⟨g, hg, n, fun m hm => ?_⟩
  have hconcludes := hn m hm
  generalize Exec.program handledRuntime handledCall (fun _ => 0) 100 = o at *
  generalize Execution.run handledRuntime g m (.inside (.start (fun _ _ => 0) 100)) = e at *
  cases hconcludes with
  | @returns t s' hprogress hworld _ => exact ⟨t, rfl, hprogress, hworld.trans hcalls⟩
  | waits => cases hout
  | left => cases hout

end Pup.Codegen
