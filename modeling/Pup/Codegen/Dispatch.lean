/-
Where an exception goes to.

The clauses of a `begin` are looked at in order, and of each clause its types; the first type
that is a superclass of the exception's class, or that class, decides.  In the code this is one
chain of tests over many blocks: the builder makes the tests of a clause first, then the jumps
from them to the block of the clause, then the clause, and goes on after the last test.  So the
jump after a test stands in a block that the builder has left (`result_types`).
-/
import Pup.Codegen.BeginParts
import Pup.Codegen.EntryBlock
import Pup.Codegen.Located
import Pup.Codegen.Unwinding

namespace Pup.Codegen

open Parse

variable {α β γ : Type} {g g' g₁ F P : CodegenContext} {scope : List String}
  {R : Runtime α} {V : List (Call α) → Unwinding α} {n left : Nat} {s s' : State α}
  {t t' t₁ : Machine α}

/-! ### What it means -/

namespace Interp

/-- `pup_is_descendant_or_same`, asked after the calls so far. -/
def descends (V : List (Call α) → Unwinding α) (expected_type type : α) : Interp α Bool :=
  fun s => (some ((V s.world.calls).isDescendantOrSame expected_type type), s)

/-- Whether the class is of one of the types, which are evaluated up to that one. -/
def matchesTypes (R : Runtime α) (V : List (Call α) → Unwinding α) (type : α) :
    List Expr → List String → Interp α Bool
  | [], _ => return false
  | ex_type :: types, scope => do
      let expected_type ← eval R ex_type scope
      if ← descends V expected_type type then return true
      else matchesTypes R V type types (scopeExpr ex_type scope)

/-- The variable of a clause is assigned the exception. -/
def bindExcep (excep : α) : Option String → Interp α Unit
  | some name => set name excep
  | none => return ()

/-- The clause that takes the exception `U` is about, the first of the list having the number
`i`. -/
def rescue (R : Runtime α) (V : List (Call α) → Unwinding α) (U : Unwinding α) :
    Nat → List RescueBlock → List String → Interp α (Option Nat)
  | _, [], _ => return none
  | i, .mk types var_name statements :: rescuebks, scope => do
      if ← matchesTypes R V (U.type U.excep) (types.getD defaultTypes) scope then
        bindExcep U.excep var_name
        return some i
      else
        rescue R V U (i + 1) rescuebks (scopeStmts statements (scopeClause types var_name scope))

end Interp

/-- The types of the clauses are expressions that the interpreter is for. -/
def coreRescues : List RescueBlock → Bool
  | [] => true
  | .mk types _ _ :: rescuebks => coreExprs (types.getD defaultTypes) && coreRescues rescuebks

/-! ### Results -/

/-- `Result` for the machine with landing pads. -/
inductive ResultWith [DecidableEq α] (R : Runtime α) (V : List (Call α) → Unwinding α)
    (P : CodegenContext) (n : Nat) (t : Machine α) (Q : γ → State α → Machine α → Prop) :
    Option γ × State α → Prop
  | waits {s' : State α} {t' : Machine α} (reaches : Machine.ReachesWith R V P t t')
      (waiting : t'.progress = .waiting) (world : t'.world = s'.world) :
      ResultWith R V P n t Q (none, s')
  | goes {c : γ} {s' : State α} {t' : Machine α} (reaches : Machine.ReachesWith R V P t t')
      (same : Same n t t') (post : Q c s' t') : ResultWith R V P n t Q (some c, s')

variable [DecidableEq α] {Q : β → State α → Machine α → Prop}
  {Q' : γ → State α → Machine α → Prop} {x : Interp α β} {f : β → Interp α γ}

theorem Result.with_ {o : Option β × State α} (h : Result R P n left t Q o)
    (hrunning : ∀ c s' t', Q c s' t' → t'.progress = .running) : ResultWith R V P n t Q o := by
  cases h with
  | waits hreaches hwaiting hworld =>
      exact .waits (hreaches.with_ (by rw [hwaiting]; decide)) hwaiting hworld
  | goes hreaches hsame _ hpost =>
      exact .goes (hreaches.with_ (by rw [hrunning _ _ _ hpost]; decide)) hsame hpost

theorem ResultWith.after {o : Option γ × State α} (h : ResultWith R V P n t₁ Q' o)
    (hreaches : Machine.ReachesWith R V P t t₁) (hsame : Same n t t₁) :
    ResultWith R V P n t Q' o := by
  cases h with
  | waits hreaches' hwaiting hworld => exact .waits (hreaches.trans hreaches') hwaiting hworld
  | goes hreaches' hsame' hpost =>
      exact .goes (hreaches.trans hreaches') (hsame.trans hsame') hpost

theorem ResultWith.mono {m : Nat} {o : Option γ × State α} (h : ResultWith R V P m t Q' o)
    (hm : n ≤ m) : ResultWith R V P n t Q' o := by
  cases h with
  | waits hreaches hwaiting hworld => exact .waits hreaches hwaiting hworld
  | goes hreaches hsame hpost => exact .goes hreaches (hsame.mono hm) hpost

theorem ResultWith.imp {Q'' : γ → State α → Machine α → Prop} {o : Option γ × State α}
    (h : ResultWith R V P n t Q' o) (hQ : ∀ c s' t', Q' c s' t' → Q'' c s' t') :
    ResultWith R V P n t Q'' o := by
  cases h with
  | waits hreaches hwaiting hworld => exact .waits hreaches hwaiting hworld
  | goes hreaches hsame hpost => exact .goes hreaches hsame (hQ _ _ _ hpost)

theorem ResultWith.keep {o : Option γ × State α} (h : ResultWith R V P n t Q' o) :
    ResultWith R V P n t (fun c s' t' => Q' c s' t' ∧ Same n t t') o := by
  cases h with
  | waits hreaches hwaiting hworld => exact .waits hreaches hwaiting hworld
  | goes hreaches hsame hpost => exact .goes hreaches hsame ⟨hpost, hsame⟩

/-- One computation after the other. -/
theorem ResultWith.bind (h : ResultWith R V P n t Q (x s))
    (hf : ∀ c s₁ t₁, Same n t t₁ → Q c s₁ t₁ → ResultWith R V P n t₁ Q' (f c s₁)) :
    ResultWith R V P n t Q' ((x >>= f) s) := by
  generalize hx : x s = o at h
  cases h with
  | waits hreaches hwaiting hworld =>
      rw [interp_bind_none hx]
      exact .waits hreaches hwaiting hworld
  | goes hreaches hsame hpost =>
      rw [interp_bind_some hx]
      exact (hf _ _ _ hsame hpost).after hreaches hsame

theorem resultWith_pure {c : γ} (hpost : Q' c s t) :
    ResultWith R V P n t Q' ((pure c : Interp α γ) s) :=
  .goes (.refl t) (.refl n t) hpost

/-! ### Steps -/

/-- The instruction that is generated next is executed. -/
theorem Synced.reachesWith (h : Synced F g s t) (hfinal : Final F P) {i : Instr}
    (hi : g.instrs g.build ++ [i] <+: F.instrs g.build) :
    Machine.ReachesWith R V P t (t.executeWith R (V t.world.calls) i) := by
  refine Machine.reachesWith_execute h.running ?_
  rw [h.block, h.index]
  obtain ⟨rest, hrest⟩ := hi.trans (hfinal.code g.build)
  simp [← hrest]

/-- It sets a register. -/
theorem Synced.setWith (h : Synced F g s t) (hfinal : Final F P) (hg : Ready g scope)
    {i : Nat → Instr} (hleads : Leads F (g.emitNew g.build i)) {w : Word α}
    (hexec : t.executeWith R (V s.world.calls) (i g.next) = t.set g.next (some w)) :
    Machine.ReachesWith R V P t (t.set g.next (some w)) ∧
      Synced F (g.emitNew g.build i) s (t.set g.next (some w)) :=
  ⟨hexec ▸ h.world ▸ h.reachesWith hfinal (hleads.fetchNew hg.wellFormed), h.set hg hleads w⟩

/-! ### The types of a clause

The tests of a clause are generated one behind the other, each in a block of its own, but the
jumps that end these blocks are written only when the last test has been made.  So the induction
over the types is about a program in which the jumps are already there (`Jumps`), and that no two
tests are in one block is shown before (`nodup_tests`).
-/

/-- The context after the test of a type, in the block for when it has failed. -/
def CodegenContext.tested (g : CodegenContext) (expected asobj : Operand) (name : String) :
    CodegenContext :=
  ((g.emitNew g.build fun r => .call r "pup_is_descendant_or_same" [expected, asobj]).append
    name).moveTo g.blocks.length

theorem tested_length (expected asobj : Operand) (name : String) :
    (g.tested expected asobj name).blocks.length = g.blocks.length + 1 := by
  show ((g.emitNew g.build _).append name).blocks.length = _
  rw [CodegenContext.append_length]
  exact congrArg (· + 1) (CodegenContext.emitAt_length ..)

/-- In the block for when a test has failed there is nothing yet. -/
theorem tested_nil (hg : WellFormed g) (expected asobj : Operand) (name : String) :
    (g.tested expected asobj name).instrs g.blocks.length = [] := by
  rw [show (g.tested expected asobj name).instrs g.blocks.length =
    (g.emitNew g.build _).instrs g.blocks.length from CodegenContext.append_instrs name _]
  exact (CodegenContext.emitAt_instrs_ne hg.build_lt.ne' _).trans
    (CodegenContext.instrs_of_length_le (Nat.le_refl _))

theorem tested_instrs (expected asobj : Operand) (name : String) (b : Nat) :
    (g.tested expected asobj name).instrs b =
      (g.emitNew g.build fun r => .call r "pup_is_descendant_or_same" [expected, asobj]).instrs b :=
  CodegenContext.append_instrs name b

/-- The tests are in different blocks, and the builder goes on in another. -/
theorem nodup_tests (hg : WellFormed g) {asobj : Operand} {types : List Expr}
    {tests : List (Nat × Operand × Nat)} (hrun : codegenTypes asobj types g = .ok (tests, g')) :
    (tests.map Prod.fst ++ [g'.build]).Nodup := by
  induction types generalizing g tests with
  | nil =>
      rw [codegenTypes, pure_ok] at hrun
      obtain ⟨rfl, rfl⟩ := hrun
      exact List.nodup_singleton _
  | cons ex_type types ih =>
      obtain ⟨steps⟩ := codegenTypes_ok hrun
      have hat := (steps.atOthers (Frame.start hg)).grow.wellFormed
      have hframe := ((Frame.start hat).codegenTypes steps.others).here
      have hbuild : steps.g₁.build < steps.g₁.blocks.length :=
        (grows_codegenExpr _ _ _ _ hg steps.type).wellFormed.build_lt
      rw [steps.tests]
      refine List.nodup_cons.mpr ⟨fun hmem => ?_, ih hat steps.others⟩
      have hreach := hframe.reach steps.g₁.build (by
        rcases List.mem_append.mp hmem with hmem | hmem
        · exact .tail _ (List.mem_append_left _ hmem)
        · exact List.mem_singleton.mp hmem ▸ .head _)
      rcases hreach.allowed with heq | hge
      · exact absurd heq hbuild.ne
      · have hlength := tested_length (g := steps.g₁) steps.expected asobj
          (blockNameNotMatched ex_type)
        exact absurd (hlength.ge.trans hge) (by omega)

/-- A test is followed by its jump. -/
theorem jumpedTo_jump {bkrescue : Nat} {tests : List (Nat × Operand × Nat)}
    (hnodup : (tests.map Prod.fst).Nodup) {test : Nat × Operand × Nat} (htest : test ∈ tests)
    (hlt : test.1 < g.blocks.length) :
    (g.jumpedTo bkrescue tests).instrs test.1 =
      g.instrs test.1 ++ [.cond test.2.1 bkrescue test.2.2] := by
  induction tests generalizing g with
  | nil => cases htest
  | cons test' tests ih =>
      obtain ⟨hnot, hnodup⟩ := List.nodup_cons.mp hnodup
      rcases List.mem_cons.mp htest with rfl | htest
      · have hothers : ∀ t ∈ tests, t.1 ≠ test.1 := fun t ht heq =>
          hnot (List.mem_map.mpr ⟨t, ht, heq⟩)
        refine (jumpedTo_instrs (e := test.1) bkrescue hothers).trans ?_
        exact CodegenContext.emitAt_instrs_self (g := g.moveTo test.1) hlt _
      · have hne : test.1 ≠ test'.1 := fun heq => hnot (heq ▸ List.mem_map_of_mem htest)
        have hlt' : test.1 < ((g.moveTo test'.1).emitAt test'.1
            (.cond test'.2.1 bkrescue test'.2.2)).blocks.length := by
          rw [CodegenContext.emitAt_length]
          exact hlt
        refine (ih hnodup htest hlt').trans ?_
        rw [CodegenContext.emitAt_instrs_ne (g := g.moveTo test'.1) hne]
        rfl

/-- The jumps of the tests are in the code. -/
def Jumps (F g : CodegenContext) (bkrescue : Nat) (tests : List (Nat × Operand × Nat)) : Prop :=
  ∀ test ∈ tests, g.instrs test.1 ++ [.cond test.2.1 bkrescue test.2.2] <+: F.instrs test.1

/-- A test, and its jump. -/
theorem result_test_jump (hfinal : Final F P) (hg : Ready g scope) {expected asobj : Operand}
    {name : String} {a type : α} {bkrescue : Nat}
    (hleads : Leads F (g.tested expected asobj name))
    (hjump : (g.tested expected asobj name).instrs g.build ++
      [.cond (.reg g.next) bkrescue g.blocks.length] <+: F.instrs g.build)
    (h : Yields R F g expected a s t) (hasobj : Holds R t asobj g.next type) :
    ∃ t', Machine.ReachesWith R V P t t' ∧ Same g.next t t' ∧
      AtStart F (if (V s.world.calls).isDescendantOrSame a type then bkrescue
        else g.blocks.length) s t' := by
  have hleads₁ : Leads F (g.emitNew g.build fun r =>
      .call r "pup_is_descendant_or_same" [expected, asobj]) := hleads.moved.append
  have hg₁ := hg.emitNew (i := fun r => .call r "pup_is_descendant_or_same" [expected, asobj])
    fun _ => rfl
  have hexec : t.executeWith R (V s.world.calls)
      (.call g.next "pup_is_descendant_or_same" [expected, asobj]) =
        t.set g.next (some (.bit ((V s.world.calls).isDescendantOrSame a type))) := by
    have hwords : List.Forall₂ (fun v w => t.eval R v = some w) [expected, asobj]
        [.value a, .value type] := .cons h.holds.eval (.cons hasobj.eval .nil)
    exact Machine.executeWith_call hwords rfl
  obtain ⟨hreaches, h₁⟩ := h.toSynced.setWith hfinal hg hleads₁ hexec
  generalize (V s.world.calls).isDescendantOrSame a type = matched at *
  let t₁ := t.set g.next (some (.bit matched))
  have hcond : t₁.executeWith R (V t₁.world.calls)
      (.cond (.reg g.next) bkrescue g.blocks.length) =
        t₁.jump (if matched then bkrescue else g.blocks.length) := by
    have hbit : t₁.eval R (.reg g.next) = some (.bit matched) := Function.update_self ..
    show Machine.execute R _ (.cond (.reg g.next) bkrescue g.blocks.length) = _
    rw [Machine.execute, hbit]
  have hreaches' := h₁.reachesWith (R := R) (V := V) hfinal (tested_instrs .. ▸ hjump)
  rw [hcond] at hreaches'
  exact ⟨_, hreaches.trans hreaches', (Same.refl g.next t).set (Nat.le_refl _) _, h₁.jump _⟩

/-- **The types of a clause are tested as they stand there.** -/
theorem result_types (hfinal : Final F P) {asobj : Operand} {types : List Expr}
    (hcore : coreExprs types) (hg : Ready g scope) {tests : List (Nat × Operand × Nat)}
    (hrun : codegenTypes asobj types g = .ok (tests, g')) (hleads : Leads F g') {bkrescue : Nat}
    (hjumps : Jumps F g' bkrescue tests) (h : Synced F g s t)
    {type : α} (hasobj : Holds R t asobj g.next type) :
    ResultWith R V P g.next t
      (fun matched s' t' => if matched then AtStart F bkrescue s' t' else Synced F g' s' t')
      (Interp.matchesTypes R V type types scope s) := by
  induction types generalizing g scope tests s t with
  | nil =>
      rw [codegenTypes, pure_ok] at hrun
      obtain ⟨rfl, rfl⟩ := hrun
      exact resultWith_pure (by simpa using h)
  | cons ex_type types ih =>
      obtain ⟨hexpr, htypes⟩ := Bool.and_eq_true_iff.mp hcore
      obtain ⟨steps⟩ := codegenTypes_ok hrun
      have hframe := steps.atOthers (Frame.start hg.wellFormed)
      obtain ⟨expected, g₁, rest, htype, hothers, rfl⟩ := steps
      let failed := g₁.tested expected asobj (blockNameNotMatched ex_type)
      have hg₁ := hg.expr htype
      have hnext := (grows_codegenExpr _ _ _ _ hg.wellFormed htype).next
      have hfailed : Ready failed (scopeExpr ex_type scope) :=
        hg.grow hframe.grow (hg₁.scope.of_locals rfl)
      have hgrow : Grow failed g' := ((Frame.start hfailed.wellFormed).codegenTypes hothers).grow
      have hleads₂ : Leads F failed := hleads.grow hgrow
      have hleads₁ : Leads F g₁ := hleads₂.moved.append.emitNew rfl
      rw [Interp.matchesTypes]
      refine ((follows_codegenExpr hfinal ex_type hexpr g expected g₁ scope s t hg htype hleads₁
        h).with_ fun _ _ _ h => h.running).bind fun a s₁ t₁ hsame₁ h₁ => ?_
      have hasobj₁ := (hasobj.same hsame₁).mono hnext
      -- the builder has left the block of the test
      have hkept : g'.instrs g₁.build = failed.instrs g₁.build :=
        hgrow.untouched hfailed.entry (by
          rw [tested_length]
          exact Nat.lt_succ_of_lt hg₁.wellFormed.build_lt) hg₁.wellFormed.build_lt.ne hg₁.build
      obtain ⟨t₂, hreaches, hsame₂, hstart⟩ := result_test_jump (V := V) hfinal hg₁ hleads₂
        (hkept ▸ hjumps _ (.head _)) h₁ hasobj₁
      refine ResultWith.after ?_ hreaches (hsame₂.mono hnext)
      have hdescends : Interp.descends V a type s₁ =
        (some ((V s₁.world.calls).isDescendantOrSame a type), s₁) := rfl
      rw [interp_bind_some hdescends]
      cases hmatch : (V s₁.world.calls).isDescendantOrSame a type with
      | true =>
          rw [hmatch] at hstart
          exact resultWith_pure hstart
      | false =>
          rw [hmatch] at hstart
          have h₂ : Synced F failed s₁ t₂ :=
            AtStart.synced (g := failed) hstart (tested_nil hg₁.wellFormed ..)
          have hasobj₂ : Holds R t₂ asobj failed.next type :=
            (hasobj₁.same hsame₂).mono (Nat.le_succ _)
          exact (ih htypes hfailed hothers (fun test htest => hjumps test (.tail _ htest))
            h₂ hasobj₂).mono (hnext.trans (Nat.le_succ _))

/-! ### The clauses

By induction on the clauses, from the block in which the tests of the clauses before have failed.
Behind the last clause that block rethrows the exception.
-/

/-- The machine is at a point of the program. -/
structure AtPoint (F : CodegenContext) (p : Flow.Point) (s : State α) (t : Machine α) : Prop
    extends Related F s t where
  block : t.block = p.block
  index : t.index = p.index

omit [DecidableEq α] in
theorem Synced.atPoint (h : Synced F g s t) : AtPoint F g.place s t :=
  { h with
    block := h.block
    index := h.index }

/-- **The variable of a clause gets the exception.** -/
theorem reaches_bound (hfinal : Final F P) (hg : Ready g scope) {excep : Operand}
    {var_name : Option String} (hbound : bound g g' excep var_name) (hleads : Leads F g')
    (h : Synced F g s t) {x : α} (hexcep : Holds R t excep n x) :
    ∃ s' t', Interp.bindExcep x var_name s = (some (), s') ∧
      Machine.ReachesWith R V P t t' ∧ Same g.next t t' ∧ Synced F g' s' t' := by
  cases var_name with
  | none =>
      obtain rfl : g' = g := hbound
      exact ⟨s, t, rfl, .refl t, .refl _ t, h⟩
  | some name =>
      obtain ⟨v, g₁, hslot, rfl⟩ := hbound
      have hg₁ := hg.run (stableExpr_grow.getOrCreateLocal name) (scopes_getOrCreateLocal name)
        hslot
      obtain ⟨slot, rfl, hlookup, hsynced⟩ := getOrCreateLocal_synced (s := s) (t := t) hg hslot
      have hname := (hleads.emitAt rfl).lookup hlookup
      have h₁ := hsynced h
      have hexec : t.executeWith R (V t.world.calls) (.store excep (.reg slot)) =
          t.write slot 0 x := by
        have hptr : t.eval R (.reg slot) = some (.pointer slot 0) :=
          h₁.slots _ (hfinal.alloca_of_lookup hname) slot rfl
        show t.execute R (.store excep (.reg slot)) = _
        rw [Machine.execute, hexcep.eval, hptr]
      have hreaches := h₁.reachesWith (R := R) (V := V) hfinal (hleads.fetch hg₁.wellFormed)
      rw [hexec] at hreaches
      exact ⟨_, _, rfl, hreaches, .refl _ _, h₁.assign hfinal hg₁ _ hname x⟩

/-- The clauses with notes are the clauses. -/
theorem codegenRescues_of_marked {rescuebks : List RescueBlock} {result excep asobj : Operand}
    {impls : List Nat} {marks : List Mark} {i : Nat}
    (h : codegenRescuesMarked result excep asobj i rescuebks g = .ok ((impls, marks), g')) :
    codegenRescues rescuebks result excep asobj g = .ok (impls, g') := by
  induction rescuebks generalizing g impls marks i with
  | nil =>
      rw [codegenRescuesMarked, pure_ok] at h
      obtain ⟨heq, rfl⟩ := h
      obtain rfl := (Prod.mk.inj heq).1
      rfl
  | cons rescuebk rescuebks ih =>
      obtain ⟨types, var_name, statements⟩ := rescuebk
      simp only [codegenRescuesMarked, bind_ok, positionAtEnd_ok, pure_ok] at h
      obtain ⟨bks, g₁, henter, ⟨v, mark⟩, g₂, hmarked, _, g₃, hstore, _, _, rfl, ⟨rest, marks'⟩,
        g₄, hothers, heq, rfl⟩ := h
      obtain rfl := (Prod.mk.inj heq).1
      simp only [codegenRescues, bind_ok, positionAtEnd_ok, pure_ok]
      exact ⟨bks, g₁, henter, v, g₂, (marked_ok.mp hmarked).1, (), g₃, hstore, (), _, rfl, rest, g',
        ih hothers, rfl, rfl⟩

/-- The context in the block of a clause. -/
def CodegenContext.inClause (g : CodegenContext) (tests : List (Nat × Operand × Nat)) :
    CodegenContext :=
  ((g.append "rescue_impl").jumpedTo g.blocks.length tests).moveTo g.blocks.length

section Clause

variable {asobj : Operand} {types : List Expr} {tests : List (Nat × Operand × Nat)}

theorem tests_lt (hg : WellFormed g) (hrun : codegenTypes asobj types g = .ok (tests, g')) :
    ∀ test ∈ tests, test.1 < g'.blocks.length := fun _ htest =>
  CodegenContext.lt_of_fnOf (((Frame.start hg).codegenTypes hrun).reach _
    (List.mem_append_left _ (List.mem_map_of_mem htest))).fnOf

theorem inClause_nil (hg : WellFormed g) (hrun : codegenTypes asobj types g = .ok (tests, g')) :
    (g'.inClause tests).instrs g'.blocks.length = [] := by
  refine (jumpedTo_instrs _ fun test htest => (tests_lt hg hrun test htest).ne).trans ?_
  rw [CodegenContext.append_instrs]
  exact CodegenContext.instrs_of_length_le (Nat.le_refl _)

/-- The block after the tests is left alone. -/
theorem inClause_instrs (hg : WellFormed g) (hrun : codegenTypes asobj types g = .ok (tests, g')) :
    (g'.inClause tests).instrs g'.build = g'.instrs g'.build := by
  have hnot : ∀ test ∈ tests, test.1 ≠ g'.build := fun test htest =>
    (List.nodup_append.mp (nodup_tests hg hrun)).2.2 _ (List.mem_map_of_mem htest) _ (.head _)
  exact (jumpedTo_instrs _ hnot).trans (CodegenContext.append_instrs _ _)

theorem jumps_inClause (hg : WellFormed g) (hrun : codegenTypes asobj types g = .ok (tests, g'))
    (hleads : Leads F (g'.inClause tests)) : Jumps F g' g'.blocks.length tests := by
  intro test htest
  have hlt : test.1 < (g'.append "rescue_impl").blocks.length := by
    rw [CodegenContext.append_length]
    exact Nat.lt_succ_of_lt (tests_lt hg hrun test htest)
  have hinstrs : ((g'.append "rescue_impl").jumpedTo g'.blocks.length tests).instrs test.1 = _ :=
    jumpedTo_jump (List.nodup_append.mp (nodup_tests hg hrun)).1 htest hlt
  rw [CodegenContext.append_instrs] at hinstrs
  exact hinstrs ▸ hleads.longer test.1

/-- The locals in a clause are those after its types. -/
theorem scoped_inClause (hg : WellFormed g) (hscope : Scoped g scope)
    (hrun : codegenTypes asobj types g = .ok (tests, g')) :
    Scoped g' (scopeExprs types scope) ∧ Scoped (g'.inClause tests) (scopeExprs types scope) := by
  have hafter := scoped_codegenTypes hg hscope hrun
  refine ⟨hafter, hafter.of_locals ?_⟩
  exact congrArg MethodRef.locals
    (CodegenContext.jumpedTo_method _ tests (g'.append "rescue_impl"))

theorem Ready.inClause (hg : Ready g scope)
    (hrun : codegenTypes asobj types g = .ok (tests, g')) :
    Ready g' (scopeExprs types scope) ∧ Ready (g'.inClause tests) (scopeExprs types scope) := by
  have hframe := Frame.start hg.wellFormed
  obtain ⟨hscope, hscope'⟩ := scoped_inClause hg.wellFormed hg.scope hrun
  exact ⟨hg.grow (hframe.codegenTypes hrun).grow hscope,
    hg.grow (hframe.atBound hrun).grow hscope'⟩

theorem jumpedTo_next (bkrescue : Nat) (tests : List (Nat × Operand × Nat)) :
    (g.jumpedTo bkrescue tests).next = g.next := by
  induction tests generalizing g with
  | nil => rfl
  | cons test tests ih => exact ih

theorem jumpedTo_length (bkrescue : Nat) (tests : List (Nat × Operand × Nat)) :
    (g.jumpedTo bkrescue tests).blocks.length = g.blocks.length := by
  induction tests generalizing g with
  | nil => rfl
  | cons test tests ih =>
      exact ih.trans (CodegenContext.emitAt_length (g := g.moveTo test.1) test.1 _)

/-- What is generated in a clause leaves the block after its tests alone. -/
theorem Grow.after_inClause (hg : WellFormed g)
    (hrun : codegenTypes asobj types g = .ok (tests, g')) (hentry : IsEntry (g'.inClause tests) 0)
    (hbuild : g'.build ≠ 0) (hgrow : Grow (g'.inClause tests) g₁) :
    g₁.instrs g'.build = g'.instrs g'.build := by
  have hg' := ((Frame.start hg).codegenTypes hrun).grow.wellFormed
  have hlt : g'.build < (g'.inClause tests).blocks.length := by
    rw [show (g'.inClause tests).blocks.length = (g'.append "rescue_impl").blocks.length from
      jumpedTo_length _ tests, CodegenContext.append_length]
    exact Nat.lt_succ_of_lt hg'.build_lt
  exact (hgrow.untouched hentry hlt hg'.build_lt.ne hbuild).trans (inClause_instrs hg hrun)

end Clause

/-- **The clauses are looked at as they stand there**, and the first that matches is entered. -/
theorem result_rescues (hfinal : Final F P) {rescuebks : List RescueBlock}
    {result excep asobj : Operand} (hcore : coreRescues rescuebks) (hg : Ready g scope)
    {impls : List Nat} {marks : List Mark} {i : Nat}
    (hrun : codegenRescuesMarked result excep asobj i rescuebks g = .ok ((impls, marks), g'))
    (hleads : Leads F g') (h : Synced F g s t) {U : Unwinding α}
    (hexcep : Holds R t excep g.next U.excep)
    (hasobj : Holds R t asobj g.next (U.type U.excep)) :
    ResultWith R V P g.next t
      (fun found s' t' => match found with
        | some k => ∃ mark ∈ marks, mark.part = .rescuebk k ∧ AtPoint F mark.start s' t'
        | none => Synced F g' s' t')
      (Interp.rescue R V U i rescuebks scope s) := by
  induction rescuebks generalizing g scope impls marks i s t with
  | nil =>
      rw [codegenRescuesMarked, pure_ok] at hrun
      obtain ⟨-, rfl⟩ := hrun
      exact resultWith_pure h
  | cons rescuebk rescuebks ih =>
      obtain ⟨types, var_name, statements⟩ := rescuebk
      obtain ⟨hcore, hothercore⟩ := Bool.and_eq_true_iff.mp hcore
      simp only [codegenRescuesMarked, bind_ok, positionAtEnd_ok, pure_ok] at hrun
      obtain ⟨⟨bkrescue, next⟩, g₁, henter, ⟨value, mark⟩, g₂, hmarked, _, _, hstore, _, _, rfl,
        ⟨rest, marks'⟩, _, hothers, heq, rfl⟩ := hrun
      obtain ⟨-, rfl⟩ := Prod.mk.inj heq
      obtain ⟨hstatements, rfl⟩ := marked_ok.mp hmarked
      obtain ⟨v, rfl, rfl⟩ := storeValue_ok hstore
      obtain ⟨enter⟩ := enterRescue_ok henter
      let steps : RescueSteps g (types.getD defaultTypes) var_name statements rescuebks result
          excep asobj (bkrescue :: rest) g' :=
        ⟨bkrescue, next, g₁, v, g₂, rest, enter, hstatements, codegenRescues_of_marked hothers, rfl⟩
      let others := (g₂.emitAt g₂.build (.store v result)).moveTo next
      have hframe := Frame.start hg.wellFormed
      have hentered := (hframe.enterRescue enter).grow
      have hat := (steps.atOthers hframe (grows_codegenStmts statements)).grow
      have hscope := enter.scoped hg.wellFormed hg.scope
      have hscope' := (scopes_codegenStmts statements _ _ _ _ hentered.wellFormed hscope
        hstatements).2
      have hgothers : Ready others _ := hg.grow hat (hscope'.of_locals rfl)
      have hgrow := (framesRescues_codegenRescues rescuebks _ _ _ _ _ _ _ _
        (Frame.start hat.wellFormed) steps.others).grow
      have hbody : Grow g₁ (g₂.emitAt g₂.build (.store v result)) :=
        (grows_codegenStmts statements _ _ _ hentered.wellFormed hstatements).emitHere rfl
      have hleads₁ : Leads F g₁ := (hleads.grow hgrow).moved.grow hbody
      obtain ⟨tests, gT, htypes, rfl, rfl, hbound⟩ := enter
      obtain ⟨hgT, hclause⟩ := hg.inClause htypes
      have hboundgrow : Grow (gT.inClause tests) g₁ :=
        ((Frame.start hclause.wellFormed).bound hbound).grow
      have hleadsJ : Leads F (gT.inClause tests) := hleads₁.grow hboundgrow
      have hleadsT : Leads F gT := hleadsJ.moved.jumpedTo.append
      have hnextT : g.next ≤ gT.next := (hframe.codegenTypes htypes).grow.next
      have hjumps := jumps_inClause hg.wellFormed htypes hleadsJ
      rw [Interp.rescue]
      refine (result_types hfinal hcore hg htypes hleadsT hjumps h hasobj).bind
        fun matched s₁ t₁ hsame h₁ => ?_
      cases matched with
      | true =>
          have hstart : Synced F (gT.inClause tests) s₁ t₁ :=
            AtStart.synced (g := gT.inClause tests) h₁ (inClause_nil hg.wellFormed htypes)
          obtain ⟨s₂, t₂, hbind, hreaches, hsame₂, h₂⟩ :=
            reaches_bound hfinal hclause hbound hleads₁ hstart (hexcep.same hsame)
          have hnext : g.next ≤ (gT.inClause tests).next :=
            hnextT.trans (jumpedTo_next (g := gT.append "rescue_impl") _ tests).ge
          rw [if_pos rfl, interp_bind_some hbind]
          exact (resultWith_pure ⟨_, .head _, rfl, h₂.atPoint⟩).after hreaches (hsame₂.mono hnext)
      | false =>
          have hkept : (g₂.emitAt g₂.build (.store v result)).instrs gT.build =
              gT.instrs gT.build :=
            (hboundgrow.trans hbody).after_inClause hg.wellFormed htypes hclause.entry hgT.build
          have h₂ : Synced F others s₁ t₁ :=
            Synced.elsewhere (g := gT) h₁ rfl hkept
          have hnext : g.next ≤ others.next := hat.next
          rw [if_neg Bool.false_ne_true]
          refine ((ih hothercore hgothers hothers h₂ ((hexcep.same hsame).mono hnext)
            ((hasobj.same hsame).mono hnext)).mono hnext).imp fun found s' t' hfound => ?_
          cases found with
          | none => exact hfound
          | some k =>
              obtain ⟨mark, hmark, hpart, hpoint⟩ := hfound
              exact ⟨mark, .tail _ hmark, hpart, hpoint⟩

/-! ### The landing pad -/

/-- **What a landing pad begins with**: the exception and its class are in registers. -/
theorem reaches_landed (hfinal : Final F P) (hg : Ready g scope) (hnil : g.instrs g.build = [])
    (hleads : Leads F g.landed) (h : AtStart F g.build s t) {U : Unwinding α}
    (hU : V s.world.calls = U) :
    ∃ t', Machine.ReachesWith R V P t t' ∧ Synced F g.landed s t' ∧
      t'.regs g.next = some (.value U.dwarf_ex) ∧
      t'.regs (g.next + 2) = some (.value U.excep) ∧
      t'.regs (g.next + 5) = some (.value (U.type U.excep)) := by
  let n := g.next
  let i₁ := fun r => Instr.call r "llvm.eh.exception" []
  let i₂ := fun r => Instr.call r "llvm.eh.selector"
    [.reg n, .global "pup_eh_personality", .global "eh_catchall"]
  let i₃ := fun r => Instr.call r "extract_exception_obj" [.reg n]
  let i₄ := fun r => Instr.structGep r (.reg (n + 2)) 0
  let i₅ := fun r => Instr.load r (.reg (n + 3))
  let i₆ := fun r => Instr.bitCast r (.reg (n + 4))
  let g₁ := g.emitNew g.build i₁
  let g₂ := g₁.emitNew g.build i₂
  let g₃ := g₂.emitNew g.build i₃
  let g₄ := g₃.emitNew g.build i₄
  let g₅ := g₄.emitNew g.build i₅
  have hg₁ : Ready g₁ scope := hg.emitNew fun _ => rfl
  have hg₂ : Ready g₂ scope := hg₁.emitNew fun _ => rfl
  have hg₃ : Ready g₃ scope := hg₂.emitNew fun _ => rfl
  have hg₄ : Ready g₄ scope := hg₃.emitNew fun _ => rfl
  have hg₅ : Ready g₅ scope := hg₄.emitNew fun _ => rfl
  have hl₆ : Leads F (g₅.emitNew g₅.build i₆) := hleads
  have hl₅ : Leads F (g₄.emitNew g₄.build i₅) := hl₆.emitNew rfl
  have hl₄ : Leads F (g₃.emitNew g₃.build i₄) := hl₅.emitNew rfl
  have hl₃ : Leads F (g₂.emitNew g₂.build i₃) := hl₄.emitNew rfl
  have hl₂ : Leads F (g₁.emitNew g₁.build i₂) := hl₃.emitNew rfl
  have hl₁ : Leads F (g.emitNew g.build i₁) := hl₂.emitNew rfl
  -- what is in the registers on the way
  let t₁ := t.set n (some (.value U.dwarf_ex))
  let t₂ := t₁.set (n + 1) (some (.int U.sel))
  let t₃ := t₂.set (n + 2) (some (.value U.excep))
  let t₄ := t₃.set (n + 3) (some (.value U.excep))
  let t₅ := t₄.set (n + 4) (some (.value (U.type U.excep)))
  let t₆ := t₅.set (n + 5) (some (.value (U.type U.excep)))
  have hv₁ : t₁.regs n = some (.value U.dwarf_ex) := Function.update_self ..
  have hv₂ : t₂.regs n = some (.value U.dwarf_ex) := by
    rw [← hv₁]
    exact Machine.set_regs (by simp)
  have hv₃ : t₃.regs (n + 2) = some (.value U.excep) := Function.update_self ..
  have hv₄ : t₄.regs (n + 3) = some (.value U.excep) := Function.update_self ..
  have hv₅ : t₅.regs (n + 4) = some (.value (U.type U.excep)) := Function.update_self ..
  have he₁ : t.executeWith R U (i₁ n) = t₁ := Machine.executeWith_call .nil rfl
  have he₂ : t₁.executeWith R U (i₂ (n + 1)) = t₂ :=
    Machine.executeWith_call (.cons hv₁ (.cons rfl (.cons rfl .nil))) rfl
  have he₃ : t₂.executeWith R U (i₃ (n + 2)) = t₃ :=
    Machine.executeWith_call (.cons hv₂ .nil) rfl
  have he₄ : t₃.executeWith R U (i₄ (n + 3)) = t₄ :=
    Machine.executeWith_lands (by simp [Machine.lands, i₄, hv₃])
  have he₅ : t₄.executeWith R U (i₅ (n + 4)) = t₅ :=
    Machine.executeWith_lands (by simp [Machine.lands, i₅, hv₄])
  have he₆ : t₅.executeWith R U (i₆ (n + 5)) = t₆ := by
    show t₅.set (n + 5) (t₅.regs (n + 4)) = t₆
    rw [hv₅]
  obtain ⟨hr₁, h₁⟩ := (h.synced hnil).setWith hfinal hg hl₁ (hU ▸ he₁)
  obtain ⟨hr₂, h₂⟩ := h₁.setWith hfinal hg₁ hl₂ (hU ▸ he₂)
  obtain ⟨hr₃, h₃⟩ := h₂.setWith hfinal hg₂ hl₃ (hU ▸ he₃)
  obtain ⟨hr₄, h₄⟩ := h₃.setWith hfinal hg₃ hl₄ (hU ▸ he₄)
  obtain ⟨hr₅, h₅⟩ := h₄.setWith hfinal hg₄ hl₅ (hU ▸ he₅)
  obtain ⟨hr₆, h₆⟩ := h₅.setWith hfinal hg₅ hl₆ (hU ▸ he₆)
  refine ⟨t₆, hr₁.trans (hr₂.trans (hr₃.trans (hr₄.trans (hr₅.trans hr₆)))), h₆, ?_, ?_,
    Function.update_self ..⟩
  · simp [t₆, t₅, t₄, t₃, t₂, t₁, n, Machine.set, Machine.next]
  · simp [t₆, t₅, t₄, t₃, n, Machine.set, Machine.next]

theorem BeginSteps.grow_clauses {beginbk : List Stmt} {rescuebks : List RescueBlock}
    {result v : Operand} (steps : BeginSteps g result beginbk rescuebks v g')
    (hg : WellFormed g) : Grow g steps.g₂ :=
  (framesRescues_codegenRescues rescuebks _ _ _ _ _ _ _ _
    (steps.atRescues (Frame.start hg) (grows_codegenStmts beginbk)) steps.rescuebks).grow

/-- What comes of an exception at a landing pad, when the interpreter finds `o` for it. -/
structure Dispatched (R : Runtime α) (V : List (Call α) → Unwinding α) (F P : CodegenContext)
    (marks : Marks) (t : Machine α) (o : Option (Option Nat) × State α) : Prop where
  /-- A type is evaluated that comes to nothing. -/
  waits : o.1 = none → ∃ t', Machine.ReachesWith R V P t t' ∧ t'.progress = .waiting ∧
    t'.world = o.2.world
  /-- A clause takes it, and its statements are executed next. -/
  enters : ∀ i, o.1 = some (some i) → ∃ t', ∃ mark ∈ marks.parts,
    Machine.ReachesWith R V P t t' ∧ mark.part = .rescuebk i ∧ AtPoint F mark.start o.2 t'
  /-- None does, and it is raised again. -/
  rethrows : o.1 = some none → ∃ t' r v, Machine.ReachesWith R V P t t' ∧
    AtPoint F marks.rethrow o.2 t' ∧
    P.code.at? marks.rethrow = some (.call r "pup_rethrow_uncaught_exception" [v]) ∧
    t'.eval R v = some (.value (V t.world.calls).dwarf_ex)

/-- The context in which a landing pad is generated. -/
def CodegenContext.atLandingpad (g g₁ : CodegenContext) (vbody result : Operand) :
    CodegenContext :=
  (g₁.unguarded vbody result g.landingpad).moveTo g.blocks.length

/-- The body leaves the landing pad alone. -/
theorem BeginSteps.landingpad_nil {result v : Operand} {beginbk : List Stmt}
    {rescuebks : List RescueBlock} (steps : BeginSteps g result beginbk rescuebks v g')
    (hg : WellFormed g) (hentry : IsEntry g 0) :
    (g.atLandingpad steps.g₁ steps.vbody result).instrs g.blocks.length = [] := by
  have hbody := steps.growBody hg (grows_codegenStmts beginbk)
  have happend := (Grow.refl hg).append hg.current_lt "landingpad"
  have hlt : g.blocks.length < (g.append "landingpad").blocks.length := by
    rw [CodegenContext.append_length]
    exact Nat.lt_succ_self _
  refine (hbody.untouched (happend.isEntry hentry) hlt hg.build_lt.ne'
    ((Nat.zero_le _).trans_lt hg.build_lt).ne').trans ?_
  rw [CodegenContext.append_instrs]
  exact CodegenContext.instrs_of_length_le (Nat.le_refl _)

theorem result_landingpad (hfinal : Final F P) (hg : Ready g scope) {result v : Operand}
    {beginbk : List Stmt} {rescuebks : List RescueBlock} (hcore : coreRescues rescuebks)
    (steps : BeginSteps g result beginbk rescuebks v g') (hleads : Leads F g')
    {marks : List Mark}
    (hmarks : codegenRescuesMarked result (.reg (steps.g₁.next + 2)) (.reg (steps.g₁.next + 5)) 0
      rescuebks (g.atLandingpad steps.g₁ steps.vbody result).landed =
        .ok ((steps.impls, marks), steps.g₂))
    (h : AtStart F g.blocks.length s t) :
    ResultWith R V P 0 t
      (fun found s' t' => match found with
        | some k => ∃ mark ∈ marks, mark.part = .rescuebk k ∧ AtPoint F mark.start s' t'
        | none => Synced F steps.g₂ s' t' ∧
            t'.regs steps.g₁.next = some (.value (V s.world.calls).dwarf_ex))
      (Interp.rescue R V (V s.world.calls) 0 rescuebks (scopeStmts beginbk scope) s) := by
  let pad := g.atLandingpad steps.g₁ steps.vbody result
  have hbody := steps.growBody hg.wellFormed (grows_codegenStmts beginbk)
  have hframe : Frame g pad _ :=
    (((Frame.start hg.wellFormed).append "landingpad").run fun _ => hbody).moveTo (.head _)
  have hscope := (scopes_codegenStmts beginbk _ _ _ _ hg.wellFormed.guarded
    (hg.scope.of_locals rfl) steps.body).2
  have hpad : Ready pad (scopeStmts beginbk scope) := hg.grow hframe.grow (hscope.of_locals rfl)
  have hlanded : Ready pad.landed (scopeStmts beginbk scope) :=
    hpad.keep (grow_landed hpad.wellFormed) rfl
  have hnil : pad.instrs pad.build = [] := steps.landingpad_nil hg.wellFormed hg.entry
  have hleads₂ : Leads F steps.g₂ := (steps.leads hleads).rethrown
  have hgrow : Grow pad.landed steps.g₂ := (framesRescues_codegenRescues rescuebks _ _ _ _ _ _ _ _
    (Frame.start hlanded.wellFormed) steps.rescuebks).grow
  obtain ⟨t₁, hreaches, h₁, hdwarf, hexcep, htype⟩ :=
    reaches_landed (V := V) hfinal hpad hnil (hleads₂.grow hgrow) h rfl
  have hbelow : ∀ {k : Nat}, k < 6 → ∀ r, Operand.reg (steps.g₁.next + k) = .reg r →
      r < pad.landed.next := fun hk r hr =>
    Operand.reg.inj hr ▸ Nat.add_lt_add_left hk steps.g₁.next
  refine ResultWith.after ?_ hreaches fun r hr => absurd hr (Nat.not_lt_zero r)
  refine ((result_rescues hfinal hcore hlanded hmarks hleads₂ h₁ ⟨hexcep, hbelow (by decide)⟩
    ⟨htype, hbelow (by decide)⟩).keep.imp fun found s' t' hfound => ?_).mono (Nat.zero_le _)
  obtain ⟨hfound, hsame⟩ := hfound
  cases found with
  | some k => exact hfound
  | none => exact ⟨hfound, (hsame _ (hbelow (k := 0) (by decide) _ rfl)).trans hdwarf⟩

/-- The steps of a `begin` with its notes. -/
theorem codegenBegin_marks (hg : WellFormed g) {beginbk : List Stmt}
    {rescuebks : List RescueBlock} {elsebk ensurebk : Option (List Stmt)} {v : Operand}
    {marks : Marks}
    (h : codegenBegin beginbk rescuebks elsebk ensurebk g = .ok ((v, marks), g')) :
    ∃ e, IsEntry g e ∧
      ∃ steps : BeginSteps (g.emitNew e .alloca) (.reg g.next) beginbk rescuebks v g',
        ∃ body clauses, marks.parts = body :: clauses ∧ marks.rethrow = steps.g₂.place ∧
          codegenRescuesMarked (.reg g.next) (.reg (steps.g₁.next + 2))
            (.reg (steps.g₁.next + 5)) 0 rescuebks ((g.emitNew e .alloca).atLandingpad steps.g₁
              steps.vbody (.reg g.next)).landed = .ok ((steps.impls, clauses), steps.g₂) := by
  rw [codegenBegin] at h
  split at h
  · exact absurd h throw_ok
  · simp only [bind_ok, appendBlock_ok, ehBegin_ok, get_ok, withBuilderAtEnd_ok, pure_ok,
      here_ok] at h
    obtain ⟨result, _, halloca, _, _, ⟨rfl, rfl⟩, body, _, ⟨_, ⟨⟨value, mark⟩, g₁, hbody, _, _,
      hstore, rfl, rfl⟩, rfl⟩, _, _, ⟨rfl, rfl⟩, ⟨impls, clauses, rethrow⟩, _, ⟨_, ⟨_, _, hland,
      ⟨impls', clauses'⟩, g₂, hrescues, _, _, ⟨rfl, rfl⟩, _, _, hleave, heq, rfl⟩, rfl⟩, _, _,
      hout, _, _, ⟨rfl, rfl⟩, heq', rfl⟩ := h
    obtain ⟨e, he, rfl, rfl⟩ := allocaInEntry_ok hg halloca
    obtain ⟨hstmts, rfl⟩ := marked_ok.mp hbody
    obtain ⟨vbody, rfl, rfl⟩ := storeValue_ok hstore
    obtain ⟨rfl, rfl⟩ := enterLandingpad_ok hland
    obtain rfl := leaveLandingpad_ok hleave
    obtain ⟨rfl, rfl⟩ := leaveBegin_ok hout
    simp only [Prod.mk.injEq] at heq heq'
    obtain ⟨rfl, rfl, rfl⟩ := heq
    obtain ⟨rfl, rfl⟩ := heq'
    have hclauses := codegenRescues_of_marked hrescues
    exact ⟨e, he, ⟨vbody, _, _, _, hstmts, hclauses, rfl, rfl⟩, _, _, rfl, rfl, hrescues⟩

/-- **Where an exception goes to.**  In whatever way a program comes to the landing pad of a
`begin` of `pup_main` that is not in the body of another: its types are evaluated as they stand
there, up to the first that the exception's class descends from, and the clause of that type is
entered with its variable bound.  The exception is raised again if there is no such type. -/
theorem exception_dispatched {stmts : List Stmt} (h : generate stmts = .ok P)
    {beginbk : List Stmt} {rescuebks : List RescueBlock} {elsebk ensurebk : Option (List Stmt)}
    (hin : InsideStmts (.beginStmt beginbk rescuebks elsebk ensurebk) g stmts .unitBody)
    (hmain : AtMain g) (hcore : coreRescues rescuebks) (R : Runtime α)
    (V : List (Call α) → Unwinding α) :
    ∃ v₀ F v marks g' scope, codegenStmts stmts .unitBody = .ok (some v₀, F) ∧
      P = F.afterUnit v₀ ∧
      codegenBegin beginbk rescuebks elsebk ensurebk g = .ok ((v, marks), g') ∧
      marks.parts.map Mark.part =
        .beginbk :: (List.range' 0 rescuebks.length).map .rescuebk ∧
      Scoped g scope ∧
      ∀ (t : Machine α) (locals : String → α),
        Transition.Reachable (Machine.unwinding R V P) t →
        t.progress = .running → t.block = g.blocks.length → t.index = 0 →
        (∀ name slot, F.current_method.locals.lookup name = some slot →
          t.cells slot 0 = locals name) →
        Dispatched R V F P marks t
          (Interp.rescue R V (V t.world.calls) 0 rescuebks (scopeStmts beginbk scope)
            ⟨locals, t.world⟩) := by
  obtain ⟨v₀, F, scope, v, g', hrun, rfl, hfinal, ⟨scope', hready⟩, hplaced⟩ :=
    placed_of_generate h hin hmain
  obtain ⟨hg, hbegin, hleads⟩ := hplaced
  obtain ⟨marks, hmarks, hparts⟩ := codegenStmt_marked hbegin
  obtain ⟨e, he, steps, body, clauses, hclauses, hrethrow, hrescues⟩ :=
    codegenBegin_marks hg.wellFormed hmarks
  obtain rfl := he.unique hg.entry
  refine ⟨v₀, F, v, marks, g', scope, hrun, rfl, hmarks, hparts, hg.scope,
    fun t locals hreachable hrunning hblock hindex hlocals => ?_⟩
  have hg₀ := hg.slot (i := .alloca) (fun _ => rfl) fun _ => rfl
  have hlength : (g.emitNew 0 .alloca).blocks.length = g.blocks.length :=
    CodegenContext.emitAt_length ..
  -- the slots have been made before the landing pad is come to
  have hslots : t.MadeIn ((F.afterUnit v₀).instrs 0) := by
    rcases Machine.slotsMade_of_reachable (numbered_generate h)
      (entryMakes_afterUnit hfinal hready) hreachable with hmade | ⟨hzero, -⟩
    · exact hmade
    · exact absurd (hblock.symm.trans hzero)
        ((Nat.zero_le _).trans_lt hg.wellFormed.build_lt).ne'
  have hstart : AtStart F (g.emitNew 0 .alloca).blocks.length ⟨locals, t.world⟩ t :=
    { running := hrunning
      world := rfl
      locals := hlocals
      slots := fun i hi => hslots i ((hfinal.code 0).subset hi)
      block := hblock.trans hlength.symm
      index := hindex }
  have hresult := result_landingpad (R := R) (V := V) hfinal hg₀ hcore steps hleads hrescues
    hstart
  generalize Interp.rescue R V (V t.world.calls) 0 rescuebks (scopeStmts beginbk scope)
    ⟨locals, t.world⟩ = o at hresult ⊢
  cases hresult with
  | waits hreaches hwaiting hworld =>
      exact ⟨fun _ => ⟨_, hreaches, hwaiting, hworld⟩, fun _ heq => (by cases heq),
        fun heq => (by cases heq)⟩
  | @goes found s' t' hreaches hsame hpost =>
      cases found with
      | some k =>
          obtain ⟨mark, hmark, hpart, hpoint⟩ := hpost
          refine ⟨fun heq => (by cases heq), fun i heq => ?_, fun heq => (by cases heq)⟩
          obtain rfl := Option.some.inj (Option.some.inj heq)
          exact ⟨t', mark, hclauses ▸ .tail _ hmark, hreaches, hpart, hpoint⟩
      | none =>
          obtain ⟨hsynced, hdwarf⟩ := hpost
          refine ⟨fun heq => (by cases heq), fun _ heq => (by cases heq), fun _ => ?_⟩
          refine ⟨t', steps.g₂.next, .reg steps.g₁.next, hreaches, hrethrow ▸ hsynced.atPoint, ?_,
            hdwarf⟩
          have hwf := (steps.grow_clauses hg₀.wellFormed).wellFormed
          have hcall : Leads F (steps.g₂.emitNew steps.g₂.build fun r =>
              .call r "pup_rethrow_uncaught_exception" [.reg steps.g₁.next]) :=
            (steps.leads hleads).emitAt rfl
          obtain ⟨rest, hrest⟩ := (hcall.fetchNew hwf).trans (hfinal.code steps.g₂.build)
          rw [hrethrow]
          show ((F.afterUnit v₀).instrs steps.g₂.build)[
            (steps.g₂.instrs steps.g₂.build).length]? = _
          simp [← hrest]

/-- `f`, with a clause for `A` and `B` and one for `RuntimeError`. -/
def beginWithTypes : Stmt :=
  .beginStmt [.expr (.varOrInvoke (.name "f") none none none)]
    [.mk (some [.varOrInvoke (.constant "A") none none none,
        .varOrInvoke (.constant "B") none none none]) (some "e") [.expr (.int "1")],
      .mk none none [.expr (.int "2")]] none none

/-- Every call returns how many there have been. -/
def typesRuntime : Runtime Nat where
  self := 0
  trueinstance := 1
  falseinstance := 2
  answer calls := calls.length

/-- The exception's class descends from what the eighth call returns. -/
def typesUnwinding : Unwinding Nat where
  dwarf_ex := 49
  sel := 1
  exceptionObj _ := 50
  type _ := 51
  isDescendantOrSame ancestor _ := ancestor == 8

/-- The method raises, `A` is tested and then `B`. -/
def typesCalls : List (Call Nat) :=
  [.strToSym "f", .invoke 0 1 [], .classContextFrom 0, .strToSym "A", .constGetRequired 3 4,
    .classContextFrom 0, .strToSym "B", .constGetRequired 6 7]

/-- Each raise has an exception of its own, which is numbered after the calls so far.  The class
of the one that the second call raises descends from what the eighth call returns. -/
def numberedUnwinding (calls : List (Call Nat)) : Unwinding Nat where
  dwarf_ex := calls.length
  sel := 1
  exceptionObj dwarf_ex := dwarf_ex + 100
  type excep := excep + 100
  isDescendantOrSame ancestor type := ancestor == 8 && type == 202

/-- The second call has raised and `B` has matched, and then the eleventh has raised. -/
def secondCalls : List (Call Nat) := typesCalls ++ [.fixnumCreate 1, .strToSym "f", .invoke 0 10 []]

/-- In the second `begin` no type matches, and its own exception is raised again. -/
theorem exception_dispatched_second : ∃ P t t' p r v,
    generate [beginWithTypes, beginWithTypes] = .ok P ∧
    Transition.Reachable (Machine.unwinding typesRuntime numberedUnwinding P) t ∧
    t.world.calls = secondCalls ∧
    Machine.ReachesWith typesRuntime numberedUnwinding P t t' ∧
    t'.block = p.block ∧ t'.index = p.index ∧
    P.code.at? p = some (.call r "pup_rethrow_uncaught_exception" [v]) ∧
    t'.eval typesRuntime v = some (.value 11) := by
  let events : List Machine.Event :=
    List.replicate 7 .step ++ [.raise] ++ List.replicate 22 .step ++ [.raise]
  obtain ⟨P, hP, hcomes⟩ : ∃ P, generate [beginWithTypes, beginWithTypes] = .ok P ∧
      ((Machine.unwinding typesRuntime numberedUnwinding P).run (.start (fun _ _ => 0) 100)
        events).any (fun t => decide (t.progress = .running) && decide (t.block = 10) &&
          decide (t.index = 0) && decide (t.world.left = 89) &&
            decide (t.world.calls = secondCalls)) = true :=
    generated_of_all (by decide +kernel)
  obtain ⟨t, ht, hstate⟩ := (Option.any_eq_true _ _).mp hcomes
  simp only [Bool.and_eq_true, decide_eq_true_eq] at hstate
  obtain ⟨⟨⟨⟨hrunning, hblock⟩, hindex⟩, hleft⟩, hcalls⟩ := hstate
  have hreachable := Transition.reachable_of_run
    (M := Machine.unwinding typesRuntime numberedUnwinding P) ⟨_, _, rfl⟩ events ht
  -- the second `begin` is generated where the first ends
  obtain ⟨⟨v₁, g₁⟩, hfirst, hlength⟩ : ∃ p, codegenStmt beginWithTypes .unitBody = .ok p ∧
      p.2.blocks.length = 10 :=
    Outcome.ok_of_any (by decide +kernel)
  have hmain : AtMain g₁ := by
    have hgrow := grows_codegenStmt beginWithTypes .unitBody v₁ g₁ wellFormed_unitBody hfirst
    exact ⟨hgrow.landingpad, hgrow.self_ref, hgrow.method⟩
  obtain ⟨v₀, F, v, marks, g', scope, -, -, -, -, -, hdispatched⟩ := exception_dispatched hP
    (.tail hfirst (.head .here)) hmain (by decide) typesRuntime numberedUnwinding
  let locals := fun name => (F.current_method.locals.lookup name).elim 0 (t.cells · 0)
  have hlocals : ∀ name slot, F.current_method.locals.lookup name = some slot →
      t.cells slot 0 = locals name := by
    intro name slot hslot
    simp [locals, hslot]
  have hd := hdispatched t locals hreachable hrunning (hblock.trans hlength.symm) hindex hlocals
  have hworld : t.world = ⟨secondCalls, 89⟩ := by
    rw [← hcalls, ← hleft]
  rw [hworld] at hd
  obtain ⟨t', r, v', hreaches, hpoint, hcall, hvalue⟩ := hd.rethrows rfl
  rw [hcalls] at hvalue
  exact ⟨P, t, t', marks.rethrow, r, v', hP, hreachable, hcalls, hreaches, hpoint.block,
    hpoint.index, hcall, hvalue⟩

end Pup.Codegen
