/-
Every class grows its context.

The proof goes over the syntax tree as the generator does.  An expression is one piece after
the other.  A statement that makes blocks is inverted into its steps first; those inversions
are stated on their own, since everything else that is shown of the generator starts from
them.
-/
import Pup.Lib.Except
import Pup.Codegen.Pieces

namespace Pup.Codegen

open Parse

variable {g g' g₀ : CodegenContext}

/-! ### The steps of a statement

The generator of a statement with blocks is a chain of a dozen operations.  `IfSteps` and its kin
hold what it comes to: the parts that were generated, each with the context it was generated in.
A proof about a statement starts from these and goes from part to part.
-/

namespace CodegenContext

/-- The builder at another block. -/
def moveTo (g : CodegenContext) (b : Nat) : CodegenContext := { g with build := b }

/-- After a test on the false instance. -/
def branched (g : CodegenContext) (val : Operand) (ifFalse otherwise : Nat) : CodegenContext :=
  ((g.emitNew g.build fun r => .call r "pup_env_get_falseinstance" [.env]).emitNew g.build
    fun r => .icmpEq r val (.reg g.next)).emitAt g.build
      (.cond (.reg (g.next + 1)) ifFalse otherwise)

/-- After the value of a branch has been stored and the branch been left. -/
def leaving (g : CodegenContext) (v result : Operand) (b : Nat) : CodegenContext :=
  (g.emitAt g.build (.store v result)).emitAt g.build (.br b)

/-- After the blocks of an `if` have been made and the first been jumped to. -/
def ifBlocks (g : CodegenContext) : CodegenContext :=
  ((((g.append "cond").emitAt g.build (.br g.blocks.length)).append "then").append
    "else").append "ifcontinue"

/-- The same for a `while`. -/
def whileBlocks (g : CodegenContext) : CodegenContext :=
  (((g.append "while_cond").emitAt g.build (.br g.blocks.length)).append
    "while_body").append "while_continue"

/-- After the body of a `while`. -/
def looped (g : CodegenContext) (v result : Operand) (b : Nat) : CodegenContext :=
  ((g.emitAt g.build (.store v result)).emitNew g.build
    fun r => .call r "pup_env_safepoint" [.env]).emitAt g.build (.br b)

/-- After what a landing pad does before its clauses. -/
def landed (g : CodegenContext) : CodegenContext :=
  (((((g.emitNew g.build fun r => .call r "llvm.eh.exception" []).emitNew g.build
    fun r => .call r "llvm.eh.selector" [.reg g.next, .global "pup_eh_personality",
      .global "eh_catchall"]).emitNew g.build
    fun r => .call r "extract_exception_obj" [.reg g.next]).emitNew g.build
    fun r => .structGep r (.reg (g.next + 2)) 0).emitNew g.build
    fun r => .load r (.reg (g.next + 3))).emitNew g.build
    fun r => .bitCast r (.reg (g.next + 4))

/-- After the clauses of a landing pad. -/
def rethrown (g : CodegenContext) (dwarf_ex : Operand) : CodegenContext :=
  (g.emitNew g.build fun r => .call r "pup_rethrow_uncaught_exception" [dwarf_ex]).emitAt g.build
    (.ret .null)

/-- In the body of a `begin`. -/
def guarded (g : CodegenContext) (landingpad : Nat) : CodegenContext :=
  { g.append "landingpad" with landingpad := some landingpad }

/-- After the body of a `begin`, with the landing pad around it active again. -/
def unguarded (g : CodegenContext) (v result : Operand) (landingpad : Option Nat) :
    CodegenContext :=
  { g.emitAt g.build (.store v result) with landingpad := landingpad }

/-- After the jumps out of the rescue blocks. -/
def jumpedOut (bkout : Nat) (g : CodegenContext) : List Nat → CodegenContext
  | [] => g
  | b :: bs => jumpedOut bkout ((g.moveTo b).emitAt b (.br bkout)) bs

theorem jumpedOut_next (bkout : Nat) (bs : List Nat) (g : CodegenContext) :
    (g.jumpedOut bkout bs).next = g.next := by
  induction bs generalizing g with
  | nil => rfl
  | cons b bs ih => exact ih _

theorem jumpedOut_method (bkout : Nat) (bs : List Nat) (g : CodegenContext) :
    (g.jumpedOut bkout bs).current_method = g.current_method := by
  induction bs generalizing g with
  | nil => rfl
  | cons b bs ih => exact ih _

/-- After a `begin`. -/
def afterBegin (g : CodegenContext) (begin_block : Nat) (impls : List Nat) (result : Operand) :
    CodegenContext :=
  let bkout := g.blocks.length
  let left := (((g.append "after_beginblock").jumpedOut bkout impls).moveTo begin_block).emitAt
    begin_block (.br bkout)
  (left.moveTo bkout).emitNew bkout fun r => .load r result

/-- After the jumps to a rescue block. -/
def jumpedTo (bkrescue : Nat) (g : CodegenContext) : List (Nat × Operand × Nat) → CodegenContext
  | [] => g
  | t :: ts => jumpedTo bkrescue ((g.moveTo t.1).emitAt t.1 (.cond t.2.1 bkrescue t.2.2)) ts

theorem jumpedTo_method (bkrescue : Nat) (ts : List (Nat × Operand × Nat))
    (g : CodegenContext) : (g.jumpedTo bkrescue ts).current_method = g.current_method := by
  induction ts generalizing g with
  | nil => rfl
  | cons t ts ih => exact ih _

end CodegenContext

theorem branchOnFalse_ok {val : Operand} {ifFalse otherwise : Nat} {u : Unit}
    (h : branchOnFalse val ifFalse otherwise g = .ok (u, g')) :
    g' = g.branched val ifFalse otherwise := by
  simp only [branchOnFalse, bind_ok, buildCall_ok, emitReg_ok, emit_ok] at h
  obtain ⟨_, _, ⟨rfl, rfl⟩, _, _, ⟨rfl, rfl⟩, rfl⟩ := h
  rfl

theorem leaveBranch_ok {value : Option Operand} {result : Operand} {b : Nat} {u : Unit}
    (h : leaveBranch value result b g = .ok (u, g')) :
    ∃ v, value = some v ∧ g' = g.leaving v result b := by
  simp only [leaveBranch, bind_ok, emitValue_ok, emit_ok] at h
  obtain ⟨v, _, ⟨rfl, rfl⟩, _, _, rfl, rfl⟩ := h
  exact ⟨v, rfl, rfl⟩

theorem leaveBody_ok {value : Option Operand} {result : Operand} {b : Nat} {u : Unit}
    (h : leaveBody value result b g = .ok (u, g')) :
    ∃ v, value = some v ∧ g' = g.looped v result b := by
  simp only [leaveBody, bind_ok, emitValue_ok, emit_ok, buildCall_ok] at h
  obtain ⟨v, _, ⟨rfl, rfl⟩, _, _, rfl, _, _, ⟨rfl, rfl⟩, rfl⟩ := h
  exact ⟨v, rfl, rfl⟩

theorem appendIf_ok {bs : Nat × Nat × Nat × Nat} (h : appendIf g = .ok (bs, g')) :
    bs = (g.blocks.length, g.blocks.length + 1, g.blocks.length + 2, g.blocks.length + 3) ∧
      g' = g.ifBlocks := by
  simp only [appendIf, bind_ok, appendBlock_ok, emit_ok, pure_ok] at h
  obtain ⟨_, _, ⟨rfl, rfl⟩, _, _, rfl, _, _, ⟨rfl, rfl⟩, _, _, ⟨rfl, rfl⟩, _, _, ⟨rfl, rfl⟩, rfl,
    rfl⟩ := h
  exact ⟨by simp, rfl⟩

theorem appendWhile_ok {bs : Nat × Nat × Nat} (h : appendWhile g = .ok (bs, g')) :
    bs = (g.blocks.length, g.blocks.length + 1, g.blocks.length + 2) ∧
      g' = g.whileBlocks := by
  simp only [appendWhile, bind_ok, appendBlock_ok, emit_ok, pure_ok] at h
  obtain ⟨_, _, ⟨rfl, rfl⟩, _, _, rfl, _, _, ⟨rfl, rfl⟩, _, _, ⟨rfl, rfl⟩, rfl, rfl⟩ := h
  exact ⟨by simp, rfl⟩

/-- A piece that is generated ends in one way. -/
theorem ok_unique {α β γ : Type} {x : Except α (β × γ)} {b b' : β} {c c' : γ}
    (h : x = .ok (b, c)) (h' : x = .ok (b', c')) : b = b' ∧ c = c' :=
  Prod.mk.inj (Except.ok.inj (h.symm.trans h'))

/-- The steps of an `if`, once its slot has been made and the context is `g`. -/
structure IfSteps (g : CodegenContext) (result : Operand) (cond : Expr)
    (ifbk elsebk : List Stmt) (v : Operand) (g' : CodegenContext) where
  val : Operand
  g₁ : CodegenContext
  vthen : Operand
  g₂ : CodegenContext
  velse : Operand
  g₃ : CodegenContext
  cond : codegenExpr cond (g.ifBlocks.moveTo g.blocks.length) = .ok (val, g₁)
  ifbk : codegenStmts ifbk ((g₁.branched val (g.blocks.length + 2)
    (g.blocks.length + 1)).moveTo (g.blocks.length + 1)) = .ok (some vthen, g₂)
  elsebk : codegenStmts elsebk ((g₂.leaving vthen result (g.blocks.length + 3)).moveTo
    (g.blocks.length + 2)) = .ok (some velse, g₃)
  value : v = .reg g₃.next
  last : g' = ((g₃.leaving velse result (g.blocks.length + 3)).moveTo
    (g.blocks.length + 3)).emitNew (g.blocks.length + 3) fun r => .load r result

theorem codegenIf_ok (hg : WellFormed g) {cond : Expr} {ifbk : List Stmt}
    {elsebk : Option (List Stmt)} {v : Operand}
    (h : codegenStmt (.ifStmt cond ifbk elsebk) g = .ok (v, g')) :
    ∃ e elsebk', IsEntry g e ∧ elsebk = some elsebk' ∧
      Nonempty (IfSteps (g.emitNew e .alloca) (.reg g.next) cond ifbk elsebk' v g') := by
  simp only [codegenStmt, bind_ok, withBuilderAtEnd_ok, positionAtEnd_ok, emitReg_ok] at h
  obtain ⟨result, _, halloca, bs, _, hblocks, _, _, ⟨g₁, ⟨val, g₁', hcond, hbranch⟩, rfl⟩, _, _,
    ⟨g₂, ⟨_, g₂', hthen, hleave⟩, rfl⟩, _, _, ⟨g₃, ⟨_, g₃', helse, hleave'⟩, rfl⟩, _, _, rfl,
    rfl, rfl⟩ := h
  obtain ⟨e, he, rfl, rfl⟩ := allocaInEntry_ok hg halloca
  obtain ⟨rfl, rfl⟩ := appendIf_ok hblocks
  obtain rfl := branchOnFalse_ok hbranch
  obtain ⟨vthen, rfl, rfl⟩ := leaveBranch_ok hleave
  obtain ⟨velse, rfl, rfl⟩ := leaveBranch_ok hleave'
  cases elsebk with
  | none => exact absurd helse throw_ok
  | some elsebk' =>
      exact ⟨e, elsebk', he, rfl, ⟨⟨val, _, vthen, _, velse, _, hcond, hthen, helse, rfl, rfl⟩⟩⟩

/-- The steps of a `while`. -/
structure WhileSteps (g : CodegenContext) (result : Operand) (cond : Expr)
    (statements : List Stmt) (v : Operand) (g' : CodegenContext) where
  val : Operand
  g₁ : CodegenContext
  vbody : Operand
  g₂ : CodegenContext
  cond : codegenExpr cond (g.whileBlocks.moveTo g.blocks.length) = .ok (val, g₁)
  body : codegenStmts statements ((g₁.branched val (g.blocks.length + 2)
    (g.blocks.length + 1)).moveTo (g.blocks.length + 1)) = .ok (some vbody, g₂)
  value : v = .reg (g₂.looped vbody result g.blocks.length).next
  last : g' = ((g₂.looped vbody result g.blocks.length).moveTo
    (g.blocks.length + 2)).emitNew (g.blocks.length + 2) fun r => .load r result

theorem codegenWhile_ok (hg : WellFormed g) {cond : Expr} {statements : List Stmt} {v : Operand}
    (h : codegenStmt (.whileStmt cond statements) g = .ok (v, g')) :
    ∃ e, IsEntry g e ∧
      Nonempty (WhileSteps (g.emitNew e .alloca) (.reg g.next) cond statements v g') := by
  simp only [codegenStmt, bind_ok, withBuilderAtEnd_ok, positionAtEnd_ok, emitReg_ok] at h
  obtain ⟨result, _, halloca, bs, _, hblocks, _, _, ⟨g₁, ⟨val, g₁', hcond, hbranch⟩, rfl⟩, _, _,
    ⟨g₂, ⟨_, g₂', hbody, hleave⟩, rfl⟩, _, _, rfl, rfl, rfl⟩ := h
  obtain ⟨e, he, rfl, rfl⟩ := allocaInEntry_ok hg halloca
  obtain ⟨rfl, rfl⟩ := appendWhile_ok hblocks
  obtain rfl := branchOnFalse_ok hbranch
  obtain ⟨vbody, rfl, rfl⟩ := leaveBody_ok hleave
  exact ⟨e, he, ⟨⟨val, _, vbody, _, hcond, hbody, rfl, rfl⟩⟩⟩

theorem storeValue_ok {value : Option Operand} {result : Operand} {u : Unit}
    (h : storeValue value result g = .ok (u, g')) :
    ∃ v, value = some v ∧ g' = g.emitAt g.build (.store v result) := by
  simp only [storeValue, bind_ok, emitValue_ok, emit_ok] at h
  obtain ⟨v, _, ⟨rfl, rfl⟩, rfl⟩ := h
  exact ⟨v, rfl, rfl⟩

theorem leaveLandingpad_ok {dwarf_ex : Operand} {u : Unit}
    (h : leaveLandingpad dwarf_ex g = .ok (u, g')) : g' = g.rethrown dwarf_ex := by
  simp only [leaveLandingpad, bind_ok, buildCall_ok, emit_ok] at h
  obtain ⟨_, _, ⟨rfl, rfl⟩, rfl⟩ := h
  rfl

theorem enterLandingpad_ok {vs : Operand × Operand × Operand}
    (h : enterLandingpad g = .ok (vs, g')) :
    vs = (.reg g.next, .reg (g.next + 2), .reg (g.next + 5)) ∧ g' = g.landed := by
  simp only [enterLandingpad, bind_ok, buildCall_ok, emitReg_ok, pure_ok] at h
  obtain ⟨_, _, ⟨rfl, rfl⟩, _, _, ⟨rfl, rfl⟩, _, _, ⟨rfl, rfl⟩, _, _, ⟨rfl, rfl⟩, _, _,
    ⟨rfl, rfl⟩, _, _, ⟨rfl, rfl⟩, rfl, rfl⟩ := h
  exact ⟨rfl, rfl⟩

theorem jumpOut_ok {bkout : Nat} {bs : List Nat} {u : Unit}
    (h : jumpOut bkout bs g = .ok (u, g')) : g' = g.jumpedOut bkout bs := by
  induction bs generalizing g with
  | nil => exact (pure_ok.mp h).2
  | cons b bs ih =>
      simp only [jumpOut, bind_ok, positionAtEnd_ok, emit_ok] at h
      obtain ⟨_, _, rfl, _, _, rfl, h⟩ := h
      exact ih h

theorem jumpToRescue_ok {bkrescue : Nat} {ts : List (Nat × Operand × Nat)} {u : Unit}
    (h : jumpToRescue bkrescue ts g = .ok (u, g')) : g' = g.jumpedTo bkrescue ts := by
  induction ts generalizing g with
  | nil => exact (pure_ok.mp h).2
  | cons t ts ih =>
      simp only [jumpToRescue, bind_ok, positionAtEnd_ok, emit_ok] at h
      obtain ⟨_, _, rfl, _, _, rfl, h⟩ := h
      exact ih h

/-- The steps of one test of a clause. -/
structure TypeSteps (g : CodegenContext) (asobj : Operand) (ex_type : Expr) (types : List Expr)
    (tests : List (Nat × Operand × Nat)) (g' : CodegenContext) where
  expected : Operand
  g₁ : CodegenContext
  rest : List (Nat × Operand × Nat)
  type : codegenExpr ex_type g = .ok (expected, g₁)
  others : codegenTypes asobj types
    (((g₁.emitNew g₁.build fun r => .call r "pup_is_descendant_or_same" [expected, asobj]).append
      (blockNameNotMatched ex_type)).moveTo g₁.blocks.length) = .ok (rest, g')
  tests : tests = (g₁.build, .reg g₁.next, g₁.blocks.length) :: rest

theorem codegenTypes_ok {asobj : Operand} {ex_type : Expr} {types : List Expr}
    {tests : List (Nat × Operand × Nat)}
    (h : codegenTypes asobj (ex_type :: types) g = .ok (tests, g')) :
    Nonempty (TypeSteps g asobj ex_type types tests g') := by
  simp only [codegenTypes, bind_ok, buildCall_ok, appendBlock_ok, get_ok, positionAtEnd_ok,
    pure_ok] at h
  obtain ⟨expected, g₁, htype, _, _, ⟨rfl, rfl⟩, _, _, ⟨rfl, rfl⟩, _, _, ⟨rfl, rfl⟩, _, _, rfl,
    rest, _, hrest, rfl, rfl⟩ := h
  have hlen : (g₁.emitNew g₁.build fun r =>
      .call r "pup_is_descendant_or_same" [expected, asobj]).blocks.length = g₁.blocks.length :=
    CodegenContext.emitAt_length ..
  rw [hlen] at hrest ⊢
  exact ⟨⟨expected, g₁, rest, htype, hrest, rfl⟩⟩

/-- After a clause has bound its variable. -/
def bound (g g' : CodegenContext) (excep : Operand) : Option String → Prop
  | none => g' = g
  | some name => ∃ slot g₁, getOrCreateLocal name g = .ok (slot, g₁) ∧
      g' = g₁.emitAt g₁.build (.store excep slot)

/-- The steps of a clause up to its statements. -/
structure EnterSteps (g : CodegenContext) (types : List Expr) (var_name : Option String)
    (excep asobj : Operand) (bkrescue next : Nat) (g' : CodegenContext) where
  tests : List (Nat × Operand × Nat)
  g₁ : CodegenContext
  types : codegenTypes asobj types g = .ok (tests, g₁)
  next : next = g₁.build
  bkrescue : bkrescue = g₁.blocks.length
  bound : bound (((g₁.append "rescue_impl").jumpedTo g₁.blocks.length tests).moveTo
    g₁.blocks.length) g' excep var_name

theorem enterRescue_ok {types : List Expr} {var_name : Option String} {excep asobj : Operand}
    {bkrescue next : Nat} (h : enterRescue types var_name excep asobj g =
      .ok ((bkrescue, next), g')) :
    Nonempty (EnterSteps g types var_name excep asobj bkrescue next g') := by
  simp only [enterRescue, bind_ok, get_ok, appendBlock_ok, positionAtEnd_ok] at h
  obtain ⟨tests, g₁, htypes, _, _, ⟨rfl, rfl⟩, _, _, ⟨rfl, rfl⟩, _, _, hjump, _, _, rfl, h⟩ := h
  obtain rfl := jumpToRescue_ok hjump
  cases var_name with
  | none =>
      simp only [pure_ok, Prod.mk.injEq] at h
      obtain ⟨⟨rfl, rfl⟩, rfl⟩ := h
      exact ⟨⟨tests, _, htypes, rfl, rfl, rfl⟩⟩
  | some name =>
      simp only [bind_ok, emit_ok, pure_ok, Prod.mk.injEq] at h
      obtain ⟨slot, g₂, hslot, _, _, rfl, ⟨rfl, rfl⟩, rfl⟩ := h
      exact ⟨⟨tests, _, htypes, rfl, rfl, slot, g₂, hslot, rfl⟩⟩

theorem EnterSteps.unique {types : List Expr} {var_name : Option String}
    {excep asobj : Operand} {bkrescue bkrescue' next next' : Nat} {g₁ : CodegenContext}
    (steps : EnterSteps g types var_name excep asobj bkrescue next g')
    (steps' : EnterSteps g types var_name excep asobj bkrescue' next' g₁) :
    next = next' ∧ g' = g₁ := by
  obtain ⟨tests, g₂, htypes, rfl, rfl, hbound⟩ := steps
  obtain ⟨tests', g₂', htypes', rfl, rfl, hbound'⟩ := steps'
  obtain ⟨rfl, rfl⟩ := ok_unique htypes htypes'
  refine ⟨rfl, ?_⟩
  cases var_name with
  | none => exact Eq.trans hbound hbound'.symm
  | some name =>
      obtain ⟨slot, g₃, hslot, rfl⟩ := hbound
      obtain ⟨slot', g₃', hslot', rfl⟩ := hbound'
      obtain ⟨rfl, rfl⟩ := ok_unique hslot hslot'
      rfl

/-- The steps of a clause. -/
structure RescueSteps (g : CodegenContext) (types : List Expr) (var_name : Option String)
    (statements : List Stmt) (rescuebks : List RescueBlock) (result excep asobj : Operand)
    (impls : List Nat) (g' : CodegenContext) where
  bkrescue : Nat
  next : Nat
  g₁ : CodegenContext
  v : Operand
  g₂ : CodegenContext
  rest : List Nat
  enter : EnterSteps g types var_name excep asobj bkrescue next g₁
  statements : codegenStmts statements g₁ = .ok (some v, g₂)
  others : codegenRescues rescuebks result excep asobj
    ((g₂.emitAt g₂.build (.store v result)).moveTo next) = .ok (rest, g')
  impls : impls = bkrescue :: rest

theorem codegenRescues_ok {types : Option (List Expr)} {var_name : Option String}
    {statements : List Stmt} {rescuebks : List RescueBlock} {result excep asobj : Operand}
    {impls : List Nat}
    (h : codegenRescues (.mk types var_name statements :: rescuebks) result excep asobj g =
      .ok (impls, g')) :
    Nonempty (RescueSteps g (types.getD defaultTypes) var_name statements rescuebks result excep
      asobj impls g') := by
  simp only [codegenRescues, bind_ok, positionAtEnd_ok, pure_ok] at h
  obtain ⟨⟨bkrescue, next⟩, g₁, henter, _, g₂, hstatements, _, _, hstore, _, _, rfl, rest, _,
    hrest, rfl, rfl⟩ := h
  obtain ⟨enter⟩ := enterRescue_ok henter
  obtain ⟨v, rfl, rfl⟩ := storeValue_ok hstore
  exact ⟨⟨bkrescue, next, g₁, v, _, rest, enter, hstatements, hrest, rfl⟩⟩

/-- The steps of a `begin`, once its slot has been made and the context is `g`. -/
structure BeginSteps (g : CodegenContext) (result : Operand) (beginbk : List Stmt)
    (rescuebks : List RescueBlock) (v : Operand) (g' : CodegenContext) where
  vbody : Operand
  g₁ : CodegenContext
  impls : List Nat
  g₂ : CodegenContext
  body : codegenStmts beginbk (g.guarded g.blocks.length) = .ok (some vbody, g₁)
  rescuebks : codegenRescues rescuebks result
    (.reg (g₁.next + 2)) (.reg (g₁.next + 5))
    ((g₁.unguarded vbody result g.landingpad).moveTo g.blocks.length).landed = .ok (impls, g₂)
  value : v = .reg (g₂.rethrown (.reg g₁.next)).next
  last : g' = ((g₂.rethrown (.reg g₁.next)).moveTo g₁.build).afterBegin g₁.build impls result

theorem leaveBegin_ok {begin_block : Nat} {impls : List Nat} {result v : Operand}
    (h : leaveBegin begin_block impls result g = .ok (v, g')) :
    v = .reg g.next ∧ g' = g.afterBegin begin_block impls result := by
  simp only [leaveBegin, bind_ok, appendBlock_ok, positionAtEnd_ok, emit_ok, emitReg_ok] at h
  obtain ⟨_, _, ⟨rfl, rfl⟩, _, _, hout, _, _, rfl, _, _, rfl, _, _, rfl, rfl, rfl⟩ := h
  obtain rfl := jumpOut_ok hout
  exact ⟨congrArg Operand.reg (CodegenContext.jumpedOut_next ..), rfl⟩

theorem codegenBegin_ok (hg : WellFormed g) {beginbk : List Stmt}
    {rescuebks : List RescueBlock} {elsebk ensurebk : Option (List Stmt)} {v : Operand}
    (h : codegenStmt (.beginStmt beginbk rescuebks elsebk ensurebk) g = .ok (v, g')) :
    rescuebks ≠ [] ∧ ∃ e, IsEntry g e ∧
      Nonempty (BeginSteps (g.emitNew e .alloca) (.reg g.next) beginbk rescuebks v g') := by
  cases rescuebks with
  | nil =>
      rw [codegenStmt] at h
      exact absurd h throw_ok
  | cons rescuebk rescuebks =>
      refine ⟨List.cons_ne_nil _ _, ?_⟩
      simp only [codegenStmt, bind_ok, appendBlock_ok, ehBegin_ok, get_ok, withBuilderAtEnd_ok,
        pure_ok] at h
      obtain ⟨result, _, halloca, _, _, ⟨rfl, rfl⟩, _, _, ⟨_, ⟨_, g₁, hbody, hstore⟩, rfl⟩, _, _,
        ⟨rfl, rfl⟩, impls, _, ⟨_, ⟨_, _, hland, _, g₂, hrescues, _, _, hleave, rfl, rfl⟩, rfl⟩,
        hout⟩ := h
      obtain ⟨e, he, rfl, rfl⟩ := allocaInEntry_ok hg halloca
      obtain ⟨vbody, rfl, rfl⟩ := storeValue_ok hstore
      obtain ⟨rfl, rfl⟩ := enterLandingpad_ok hland
      obtain rfl := leaveLandingpad_ok hleave
      obtain ⟨rfl, rfl⟩ := leaveBegin_ok hout
      exact ⟨e, he, ⟨⟨vbody, g₁, impls, g₂, hbody, hrescues, rfl, rfl⟩⟩⟩

theorem codegenStmts_singleton_ok {s : Stmt} {value : Option Operand} :
    codegenStmts [s] g = .ok (value, g') ↔ ∃ v, codegenStmt s g = .ok (v, g') ∧ value = some v := by
  simp only [codegenStmts, bind_ok, pure_ok]
  constructor
  · rintro ⟨v, _, h, rfl, rfl⟩
    exact ⟨v, h, rfl⟩
  · rintro ⟨v, h, rfl⟩
    exact ⟨v, _, h, rfl, rfl⟩

theorem codegenStmts_cons_ok {s s' : Stmt} {ss : List Stmt} {value : Option Operand} :
    codegenStmts (s :: s' :: ss) g = .ok (value, g') ↔
      ∃ v g₁, codegenStmt s g = .ok (v, g₁) ∧ codegenStmts (s' :: ss) g₁ = .ok (value, g') := by
  rw [codegenStmts, bind_ok]
  nofun

/-- The steps of a class definition. -/
structure ClassSteps (g : CodegenContext) (name : String) (body : List Stmt) (v : Operand)
    (g' : CodegenContext) where
  g₁ : CodegenContext
  vbody : Option Operand
  g₂ : CodegenContext
  open_ : openClass name g = .ok (v, g₁)
  body : codegenStmts body { g₁ with self_ref := v } = .ok (vbody, g₂)
  last : g' = { g₂ with self_ref := g₁.self_ref }

theorem codegenClass_ok {name : String} {extends_ : Option Expr} {body : Option (List Stmt)}
    {v : Operand} (h : codegenStmt (.classDef name extends_ body) g = .ok (v, g')) :
    ∃ body', extends_ = none ∧ body = some body' ∧ Nonempty (ClassSteps g name body' v g') := by
  cases extends_ with
  | some e =>
      rw [codegenStmt] at h
      exact absurd h throw_ok
  | none =>
      simp only [codegenStmt, bind_ok, usingSelf_ok, pure_ok] at h
      obtain ⟨classdef, g₁, hopen, _, _, ⟨g₂, hbody, rfl⟩, rfl, rfl⟩ := h
      cases body with
      | none =>
          rw [codegenBody] at hbody
          exact absurd hbody throw_ok
      | some body =>
          simp only [codegenBody, bind_ok, pure_ok] at hbody
          obtain ⟨vbody, _, hbody, -, rfl⟩ := hbody
          exact ⟨body, rfl, rfl, ⟨⟨g₁, vbody, _, hopen, hbody, rfl⟩⟩⟩

/-- The context after a method, in the method around it. -/
def CodegenContext.afterMethod (g g₁ : CodegenContext) : CodegenContext :=
  { g₁ with
    build := g.build
    current_method := g.current_method
    self_ref := g.self_ref }

/-- The steps of a method definition; `g₁` is the context at the end of the method. -/
structure MethodSteps (g : CodegenContext) (name : String) (params : Option (List Param))
    (body : Option (List Stmt)) (v : Operand) (g' : CodegenContext) where
  g₁ : CodegenContext
  body : codegenMethodBody params body (g.inMethodBlock "") = .ok ((), g₁)
  define : defineMethod name g.functions (g.afterMethod g₁) = .ok (v, g')

theorem codegenMethod_ok {name : String} {params : Option (List Param)}
    {body : Option (List Stmt)} {v : Operand}
    (h : codegenStmt (.methodDef name params body) g = .ok (v, g')) :
    Nonempty (MethodSteps g name params body v g') := by
  rw [codegenStmt, bind_ok] at h
  obtain ⟨fn, _, hmethod, h⟩ := h
  simp only [defMethod_ok, bind_ok, appendBlock_ok, withBuilderAtEnd_ok] at hmethod
  obtain ⟨rfl, _, ⟨_, _, ⟨rfl, rfl⟩, g₁, hbody, rfl⟩, rfl⟩ := hmethod
  exact ⟨⟨g₁, hbody, h⟩⟩

/-- The steps of the body of a method. -/
theorem codegenMethodBody_ok {params : Option (List Param)} {body : List Stmt} {u : Unit}
    (h : codegenMethodBody params (some body) g = .ok (u, g')) :
    ∃ g₁ v g₂, codegenArgs 0 (params.getD []) g = .ok ((), g₁) ∧
      codegenStmts body g₁ = .ok (some v, g₂) ∧ g' = g₂.emitAt g₂.build (.ret v) := by
  simp only [codegenMethodBody, bind_ok, emitValue_ok, emit_ok] at h
  obtain ⟨_, g₁, hargs, _, g₂, hbody, v, _, ⟨rfl, rfl⟩, rfl⟩ := h
  exact ⟨g₁, v, _, hargs, hbody, rfl⟩

/-! ### Statements -/

/-- A block that the builder may be put at. -/
structure Reach (g₀ g : CodegenContext) (b : Nat) : Prop where
  allowed : Allowed g₀ b
  fnOf : g.fnOf b = some g.current_method.fn

theorem Grow.reach (h : Grow g₀ g) : Reach g₀ g g.build := ⟨h.build, h.wellFormed.build⟩

theorem Reach.grow {g : CodegenContext} {b : Nat} (h : Reach g₀ g b) (hg : Grow g g') :
    Reach g₀ g' b where
  allowed := h.allowed
  fnOf := by
    rw [hg.fnOf b (CodegenContext.lt_of_fnOf h.fnOf), hg.method]
    exact h.fnOf

theorem grow_branched (hg : WellFormed g) (val : Operand) (ifFalse otherwise : Nat) :
    Grow g (g.branched val ifFalse otherwise) :=
  (((Grow.refl hg).emitNewHere fun _ => rfl).emitNewHere fun _ => rfl).emitHere rfl

theorem grow_leaving (hg : WellFormed g) (v result : Operand) (b : Nat) :
    Grow g (g.leaving v result b) :=
  ((Grow.refl hg).emitHere rfl).emitHere rfl

theorem grow_looped (hg : WellFormed g) (v result : Operand) (b : Nat) :
    Grow g (g.looped v result b) :=
  (((Grow.refl hg).emitHere rfl).emitNewHere fun _ => rfl).emitHere rfl

theorem grow_landed (hg : WellFormed g) : Grow g g.landed :=
  ((((((Grow.refl hg).emitNewHere fun _ => rfl).emitNewHere fun _ => rfl).emitNewHere
    fun _ => rfl).emitNewHere fun _ => rfl).emitNewHere fun _ => rfl).emitNewHere fun _ => rfl

theorem grow_rethrown (hg : WellFormed g) (dwarf_ex : Operand) : Grow g (g.rethrown dwarf_ex) :=
  ((Grow.refl hg).emitNewHere fun _ => rfl).emitHere rfl

/-- The context has grown, and the builder may be put at some blocks. -/
structure Frame (g₀ g : CodegenContext) (bs : List Nat) : Prop where
  grow : Grow g₀ g
  reach : ∀ b ∈ bs, Reach g₀ g b

variable {bs : List Nat}

theorem Frame.start (hg : WellFormed g) : Frame g g [g.build] where
  grow := .refl hg
  reach b hb := by
    obtain rfl := List.mem_singleton.mp hb
    exact (Grow.refl hg).reach

theorem Frame.run (h : Frame g₀ g bs) (hop : WellFormed g → Grow g g') : Frame g₀ g' bs where
  grow := h.grow.trans (hop h.grow.wellFormed)
  reach b hb := (h.reach b hb).grow (hop h.grow.wellFormed)

theorem Frame.emitHere (h : Frame g₀ g bs) {i : Instr} (hi : i.result = none) :
    Frame g₀ (g.emitAt g.build i) bs :=
  h.run fun hg => (Grow.refl hg).emitHere hi

theorem Frame.emitNewHere (h : Frame g₀ g bs) {i : Nat → Instr}
    (hi : ∀ r, (i r).result = some r) : Frame g₀ (g.emitNew g.build i) bs :=
  h.run fun hg => (Grow.refl hg).emitNewHere hi

theorem Frame.moveTo (h : Frame g₀ g bs) {b : Nat} (hb : b ∈ bs) :
    Frame g₀ (g.moveTo b) bs where
  grow := h.grow.position (h.reach b hb).allowed (h.reach b hb).fnOf
  reach c hc := ⟨(h.reach c hc).allowed, (h.reach c hc).fnOf⟩

theorem Frame.append (h : Frame g₀ g bs) (name : String) :
    Frame g₀ (g.append name) (g.blocks.length :: bs) := by
  have hgrow : Grow g (g.append name) :=
    (Grow.refl h.grow.wellFormed).append h.grow.wellFormed.current_lt name
  refine ⟨h.grow.trans hgrow, fun b hb => ?_⟩
  rcases List.mem_cons.mp hb with rfl | hb
  · exact ⟨.inr h.grow.length, CodegenContext.append_fnOf_self name⟩
  · exact (h.reach b hb).grow hgrow

theorem Frame.mono (h : Frame g₀ g bs) {bs' : List Nat} (hbs : ∀ b ∈ bs', b ∈ bs) :
    Frame g₀ g bs' :=
  ⟨h.grow, fun b hb => h.reach b (hbs b hb)⟩

/-- The builder's own block is one of them. -/
theorem Frame.here (h : Frame g₀ g bs) : Frame g₀ g (g.build :: bs) := by
  refine ⟨h.grow, fun b hb => ?_⟩
  rcases List.mem_cons.mp hb with rfl | hb
  · exact h.grow.reach
  · exact h.reach b hb

theorem Frame.ifBlocks (h : Frame g₀ g bs) :
    Frame g₀ g.ifBlocks ((g.blocks.length + 3) :: (g.blocks.length + 2) ::
      (g.blocks.length + 1) :: g.blocks.length :: bs) := by
  have h₁ := (h.append "cond").emitHere (i := .br g.blocks.length) rfl
  have h₂ := h₁.append "then"
  have h₃ := h₂.append "else"
  have h₄ := h₃.append "ifcontinue"
  simp only [CodegenContext.append_length, CodegenContext.emitAt_length] at h₄
  exact h₄

theorem Frame.whileBlocks (h : Frame g₀ g bs) :
    Frame g₀ g.whileBlocks ((g.blocks.length + 2) :: (g.blocks.length + 1) ::
      g.blocks.length :: bs) := by
  have h₁ := (h.append "while_cond").emitHere (i := .br g.blocks.length) rfl
  have h₂ := h₁.append "while_body"
  have h₃ := h₂.append "while_continue"
  simp only [CodegenContext.append_length, CodegenContext.emitAt_length] at h₃
  exact h₃

theorem Frame.alloca (hg : WellFormed g) {e : Nat} (he : IsEntry g e) :
    Frame g (g.emitNew e .alloca) [g.build] :=
  (Frame.start hg).run fun hg => (Grow.refl hg).emitNewEntry hg he (fun _ => rfl) fun _ => rfl

theorem Frame.jumpedOut (h : Frame g₀ g bs) (bkout : Nat) {impls : List Nat}
    (himpls : ∀ b ∈ impls, b ∈ bs) : Frame g₀ (g.jumpedOut bkout impls) bs := by
  induction impls generalizing g with
  | nil => exact h
  | cons b impls ih =>
      obtain ⟨hb, himpls⟩ := List.forall_mem_cons.mp himpls
      exact ih ((h.moveTo hb).emitHere rfl) himpls

theorem Frame.jumpedTo (h : Frame g₀ g bs) (bkrescue : Nat)
    (tests : List (Nat × Operand × Nat)) (htests : ∀ t ∈ tests, t.1 ∈ bs) :
    Frame g₀ (g.jumpedTo bkrescue tests) bs := by
  induction tests generalizing g with
  | nil => exact h
  | cons t tests ih =>
      obtain ⟨ht, htests⟩ := List.forall_mem_cons.mp htests
      exact ih ((h.moveTo ht).emitHere rfl) htests

theorem Frame.bound (h : Frame g₀ g bs) {excep : Operand} {var_name : Option String}
    (hbound : bound g g' excep var_name) : Frame g₀ g' bs := by
  cases var_name with
  | none => exact hbound.symm ▸ h
  | some name =>
      obtain ⟨slot, g₁, hslot, rfl⟩ := hbound
      exact (h.run fun hg => stableExpr_grow.getOrCreateLocal name g slot g₁ hg hslot).emitHere rfl

/-- The context in which the other types of a clause are tested. -/
theorem TypeSteps.atOthers {asobj : Operand} {ex_type : Expr} {types : List Expr}
    {tests : List (Nat × Operand × Nat)} (steps : TypeSteps g asobj ex_type types tests g')
    (h : Frame g₀ g bs) :
    Frame g₀ (((steps.g₁.emitNew steps.g₁.build fun r =>
      .call r "pup_is_descendant_or_same" [steps.expected, asobj]).append
        (blockNameNotMatched ex_type)).moveTo steps.g₁.blocks.length)
      (steps.g₁.blocks.length :: steps.g₁.build :: bs) := by
  have htype := (h.run fun hg => grows_codegenExpr _ _ _ _ hg steps.type).here
  have htest := htype.emitNewHere (i := fun r =>
    .call r "pup_is_descendant_or_same" [steps.expected, asobj]) fun _ => rfl
  have hnew := htest.append (blockNameNotMatched ex_type)
  have hlength : (steps.g₁.emitNew steps.g₁.build fun r =>
      .call r "pup_is_descendant_or_same" [steps.expected, asobj]).blocks.length =
        steps.g₁.blocks.length :=
    CodegenContext.emitAt_length _ _
  rw [hlength] at hnew
  exact hnew.moveTo (.head _)

theorem Frame.codegenTypes {asobj : Operand} {types : List Expr}
    {tests : List (Nat × Operand × Nat)} (h : Frame g₀ g bs)
    (hrun : codegenTypes asobj types g = .ok (tests, g')) :
    Frame g₀ g' (tests.map Prod.fst ++ bs) := by
  induction types generalizing g bs tests with
  | nil =>
      rw [Codegen.codegenTypes, pure_ok] at hrun
      obtain ⟨rfl, rfl⟩ := hrun
      exact h
  | cons ex_type types ih =>
      obtain ⟨steps⟩ := codegenTypes_ok hrun
      refine (ih (steps.atOthers h) steps.others).mono fun b hb => ?_
      rw [steps.tests] at hb
      simp only [List.map_cons, List.cons_append, List.mem_cons, List.mem_append] at hb ⊢
      tauto

/-- The context in which a clause binds its variable. -/
theorem Frame.atBound {asobj : Operand} {types : List Expr} {tests : List (Nat × Operand × Nat)}
    {g₁ : CodegenContext} (h : Frame g₀ g bs)
    (htypes : Codegen.codegenTypes asobj types g = .ok (tests, g₁)) :
    Frame g₀ (((g₁.append "rescue_impl").jumpedTo g₁.blocks.length tests).moveTo
      g₁.blocks.length) (g₁.blocks.length :: g₁.build :: bs) := by
  have hnew := (h.codegenTypes htypes).here.append "rescue_impl"
  have hjumps := hnew.jumpedTo g₁.blocks.length tests fun t ht =>
    .tail _ (.tail _ (List.mem_append_left _ (List.mem_map_of_mem ht)))
  refine (hjumps.moveTo (b := g₁.blocks.length) (.head _)).mono fun b hb => ?_
  simp only [List.mem_cons, List.mem_append] at hb ⊢
  tauto

theorem Frame.enterRescue {types : List Expr} {var_name : Option String}
    {excep asobj : Operand} {bkrescue next : Nat} (h : Frame g₀ g bs)
    (steps : EnterSteps g types var_name excep asobj bkrescue next g') :
    Frame g₀ g' (bkrescue :: next :: bs) := by
  obtain ⟨tests, g₁, htypes, rfl, rfl, hbound⟩ := steps
  exact (h.atBound htypes).bound hbound

/-- After a `begin` the builder is at a new block. -/
theorem Frame.afterBegin (h : Frame g₀ g bs) {b : Nat} {impls : List Nat} {result : Operand}
    (hb : b ∈ bs) (himpls : ∀ b ∈ impls, b ∈ bs) : Grow g₀ (g.afterBegin b impls result) := by
  have hnew := h.append "after_beginblock"
  have hout := hnew.jumpedOut g.blocks.length fun c hc => .tail _ (himpls c hc)
  have hleft := (hout.moveTo (b := b) (.tail _ hb)).emitHere (i := .br g.blocks.length) rfl
  exact (hleft.moveTo (b := g.blocks.length) (.head _)).grow.emitNewHere
    (i := fun r => .load r result) fun _ => rfl

section If

variable {result v : Operand} {cond : Expr} {ifbk elsebk : List Stmt}

theorem Frame.atIfCond (h : Frame g₀ g bs) :
    Frame g₀ (g.ifBlocks.moveTo g.blocks.length) ((g.blocks.length + 3) ::
      (g.blocks.length + 2) :: (g.blocks.length + 1) :: g.blocks.length :: bs) :=
  h.ifBlocks.moveTo (by simp)

theorem IfSteps.atIf (steps : IfSteps g result cond ifbk elsebk v g') (h : Frame g₀ g bs) :
    Frame g₀ ((steps.g₁.branched steps.val (g.blocks.length + 2)
      (g.blocks.length + 1)).moveTo (g.blocks.length + 1)) ((g.blocks.length + 3) ::
      (g.blocks.length + 2) :: (g.blocks.length + 1) :: g.blocks.length :: bs) := by
  have hcond := h.atIfCond.run fun hg => grows_codegenExpr cond _ _ _ hg steps.cond
  exact (hcond.run fun hg => grow_branched hg _ _ _).moveTo (by simp)

theorem IfSteps.atElse (steps : IfSteps g result cond ifbk elsebk v g') (h : Frame g₀ g bs)
    (hif : Grows (codegenStmts ifbk)) :
    Frame g₀ ((steps.g₂.leaving steps.vthen result (g.blocks.length + 3)).moveTo
      (g.blocks.length + 2)) ((g.blocks.length + 3) ::
      (g.blocks.length + 2) :: (g.blocks.length + 1) :: g.blocks.length :: bs) := by
  have hthen := (steps.atIf h).run fun hg => hif _ _ _ hg steps.ifbk
  exact (hthen.run fun hg => grow_leaving hg _ _ _).moveTo (by simp)

theorem IfSteps.grow (steps : IfSteps g result cond ifbk elsebk v g') (h : Frame g₀ g bs)
    (hif : Grows (codegenStmts ifbk)) (helse : Grows (codegenStmts elsebk)) : Grow g₀ g' := by
  have helse := (steps.atElse h hif).run fun hg => helse _ _ _ hg steps.elsebk
  have hleft := helse.run fun hg => grow_leaving hg steps.velse result (g.blocks.length + 3)
  rw [steps.last]
  exact (hleft.moveTo (b := g.blocks.length + 3) (by simp)).grow.emitNewHere
    fun _ => rfl

end If

section While

variable {result v : Operand} {cond : Expr} {statements : List Stmt}

theorem Frame.atWhileCond (h : Frame g₀ g bs) :
    Frame g₀ (g.whileBlocks.moveTo g.blocks.length) ((g.blocks.length + 2) ::
      (g.blocks.length + 1) :: g.blocks.length :: bs) :=
  h.whileBlocks.moveTo (by simp)

theorem WhileSteps.atBody (steps : WhileSteps g result cond statements v g')
    (h : Frame g₀ g bs) :
    Frame g₀ ((steps.g₁.branched steps.val (g.blocks.length + 2)
      (g.blocks.length + 1)).moveTo (g.blocks.length + 1)) ((g.blocks.length + 2) ::
      (g.blocks.length + 1) :: g.blocks.length :: bs) := by
  have hcond := h.atWhileCond.run fun hg => grows_codegenExpr cond _ _ _ hg steps.cond
  exact (hcond.run fun hg => grow_branched hg _ _ _).moveTo (by simp)

theorem WhileSteps.grow (steps : WhileSteps g result cond statements v g') (h : Frame g₀ g bs)
    (hstatements : Grows (codegenStmts statements)) : Grow g₀ g' := by
  have hbody := (steps.atBody h).run fun hg => hstatements _ _ _ hg steps.body
  have hleft := hbody.run fun hg => grow_looped hg steps.vbody result g.blocks.length
  rw [steps.last]
  exact (hleft.moveTo (b := g.blocks.length + 2) (by simp)).grow.emitNewHere
    fun _ => rfl

end While

/-- The clauses of a landing pad leave the builder at blocks that it may be put at. -/
def FramesRescues (rescuebks : List RescueBlock) : Prop :=
  ∀ g₀ g g' bs result excep asobj impls, Frame g₀ g bs →
    codegenRescues rescuebks result excep asobj g = .ok (impls, g') → Frame g₀ g' (impls ++ bs)

theorem framesRescues_nil : FramesRescues [] := by
  intro g₀ g g' bs result excep asobj impls h hrun
  rw [codegenRescues, pure_ok] at hrun
  obtain ⟨rfl, rfl⟩ := hrun
  exact h

/-- The context in which the other clauses are generated. -/
theorem RescueSteps.atOthers {types : List Expr} {var_name : Option String}
    {statements : List Stmt} {rescuebks : List RescueBlock} {result excep asobj : Operand}
    {impls : List Nat}
    (steps : RescueSteps g types var_name statements rescuebks result excep asobj impls g')
    (h : Frame g₀ g bs) (hstatements : Grows (codegenStmts statements)) :
    Frame g₀ ((steps.g₂.emitAt steps.g₂.build (.store steps.v result)).moveTo steps.next)
      (steps.bkrescue :: steps.next :: bs) := by
  have hbody := (h.enterRescue steps.enter).run
    fun hg => hstatements _ _ _ hg steps.statements
  exact (hbody.emitHere (i := .store steps.v result) rfl).moveTo (by simp)

theorem framesRescues_cons {types : Option (List Expr)} {var_name : Option String}
    {statements : List Stmt} {rescuebks : List RescueBlock}
    (hstatements : Grows (codegenStmts statements)) (hothers : FramesRescues rescuebks) :
    FramesRescues (.mk types var_name statements :: rescuebks) := by
  intro g₀ g g' bs result excep asobj impls h hrun
  obtain ⟨steps⟩ := codegenRescues_ok hrun
  have hrest := hothers _ _ _ _ _ _ _ _ (steps.atOthers h hstatements) steps.others
  refine hrest.mono fun b hb => ?_
  rw [steps.impls] at hb
  simp only [List.cons_append, List.mem_cons, List.mem_append] at hb ⊢
  tauto

section Begin

variable {result v : Operand} {beginbk : List Stmt} {rescuebks : List RescueBlock}

theorem WellFormed.guarded (hg : WellFormed g) : WellFormed (g.guarded g.blocks.length) := by
  have happend := (Grow.refl hg).append hg.current_lt "landingpad"
  exact { happend.wellFormed with build := happend.wellFormed.build }

theorem BeginSteps.growBody (steps : BeginSteps g result beginbk rescuebks v g')
    (hg : WellFormed g) (hbody : Grows (codegenStmts beginbk)) :
    Grow (g.append "landingpad") (steps.g₁.unguarded steps.vbody result g.landingpad) := by
  have hgrow := hbody _ _ _ hg.guarded steps.body
  exact Grow.withLandingpad (g := g.append "landingpad")
    (hgrow.emitHere (i := .store steps.vbody result) rfl)

/-- The context in which the clauses are generated. -/
theorem BeginSteps.atRescues (steps : BeginSteps g result beginbk rescuebks v g')
    (h : Frame g₀ g bs) (hbody : Grows (codegenStmts beginbk)) :
    Frame g₀ ((steps.g₁.unguarded steps.vbody result g.landingpad).moveTo
      g.blocks.length).landed (steps.g₁.build :: g.blocks.length :: bs) := by
  have hleft := ((h.append "landingpad").run fun _ => steps.growBody h.grow.wellFormed hbody).here
  exact (hleft.moveTo (b := g.blocks.length) (by simp)).run grow_landed

theorem BeginSteps.grow (steps : BeginSteps g result beginbk rescuebks v g')
    (h : Frame g₀ g bs) (hbody : Grows (codegenStmts beginbk))
    (hrescues : FramesRescues rescuebks) : Grow g₀ g' := by
  have hclauses := (hrescues _ _ _ _ _ _ _ _ (steps.atRescues h hbody) steps.rescuebks).run
    fun hg => grow_rethrown hg (.reg steps.g₁.next)
  rw [steps.last]
  refine (hclauses.moveTo (b := steps.g₁.build) ?_).afterBegin ?_ fun b hb =>
    List.mem_append_left _ hb
  all_goals exact List.mem_append_right _ (.head _)

end Begin

theorem ClassSteps.atBody {name : String} {body : List Stmt} {v : Operand}
    (steps : ClassSteps g name body v g') (hg : WellFormed g) :
    WellFormed { steps.g₁ with self_ref := v } := by
  have hopen := stable_grow.openClass name _ _ _ hg steps.open_
  exact { hopen.wellFormed with build := hopen.wellFormed.build }

theorem ClassSteps.grow {name : String} {body : List Stmt} {v : Operand}
    (steps : ClassSteps g name body v g') (hg : WellFormed g)
    (hbody : Grows (codegenStmts body)) : Grow g g' := by
  have hopen := stable_grow.openClass name _ _ _ hg steps.open_
  rw [steps.last]
  exact hopen.trans (hbody _ _ _ (steps.atBody hg) steps.body).withSelf

theorem MethodSteps.growMethod {name : String} {params : Option (List Param)}
    {body : Option (List Stmt)} {v : Operand} (steps : MethodSteps g name params body v g')
    (hg : WellFormed g) (hbody : Grows (codegenMethodBody params body)) :
    Grow g (g.afterMethod steps.g₁) :=
  Grow.withMethod hg (hbody _ _ _ (hg.inMethodBlock "") steps.body)

theorem MethodSteps.grow {name : String} {params : Option (List Param)}
    {body : Option (List Stmt)} {v : Operand} (steps : MethodSteps g name params body v g')
    (hg : WellFormed g) (hbody : Grows (codegenMethodBody params body)) : Grow g g' := by
  have hmethod := steps.growMethod hg hbody
  exact hmethod.trans (stable_grow.defineMethod _ _ _ _ _ hmethod.wellFormed steps.define)

theorem grows_codegenMethodBody_none (params : Option (List Param)) :
    Grows (codegenMethodBody params none) := by
  intro g u g' hg h
  rw [codegenMethodBody] at h
  obtain rfl := emit_ok.mp h
  exact (Grow.refl hg).emitHere rfl

theorem grows_codegenMethodBody_some (params : Option (List Param)) {body : List Stmt}
    (hbody : Grows (codegenStmts body)) : Grows (codegenMethodBody params (some body)) := by
  rw [codegenMethodBody]
  refine stable_grow.bind (stableExpr_grow.codegenArgs _ 0) fun _ => stable_grow.bind hbody fun _ =>
    stable_grow.bind (stable_grow.emitValue _) fun v => ?_
  intro g u g' hg h
  obtain rfl := emit_ok.mp h
  exact (Grow.refl hg).emitHere rfl

mutual

/-- **A statement grows its context.** -/
theorem grows_codegenStmt : (s : Stmt) → Grows (codegenStmt s)
  | .expr e => by
      rw [codegenStmt]
      exact grows_codegenExpr e
  | .ifStmt cond ifbk none => by
      intro g v g' hg h
      obtain ⟨_, _, _, ⟨⟩, _⟩ := codegenIf_ok hg h
  | .ifStmt cond ifbk (some elsebk) => by
      have hif := grows_codegenStmts ifbk
      have helse := grows_codegenStmts elsebk
      intro g v g' hg h
      obtain ⟨e, _, he, heq, ⟨steps⟩⟩ := codegenIf_ok hg h
      cases heq
      exact steps.grow (Frame.alloca hg he) hif helse
  | .whileStmt cond statements => by
      have hstatements := grows_codegenStmts statements
      intro g v g' hg h
      obtain ⟨e, he, ⟨steps⟩⟩ := codegenWhile_ok hg h
      exact steps.grow (Frame.alloca hg he) hstatements
  | .beginStmt beginbk rescuebks elsebk ensurebk => by
      have hbody := grows_codegenStmts beginbk
      have hrescues := framesRescues_codegenRescues rescuebks
      intro g v g' hg h
      obtain ⟨-, e, he, ⟨steps⟩⟩ := codegenBegin_ok hg h
      exact steps.grow (Frame.alloca hg he) hbody hrescues
  | .classDef name extends_ none => by
      intro g v g' hg h
      obtain ⟨_, _, ⟨⟩, _⟩ := codegenClass_ok h
  | .classDef name extends_ (some body) => by
      have hbody := grows_codegenStmts body
      intro g v g' hg h
      obtain ⟨_, _, heq, ⟨steps⟩⟩ := codegenClass_ok h
      cases heq
      exact steps.grow hg hbody
  | .methodDef name params none => by
      intro g v g' hg h
      obtain ⟨steps⟩ := codegenMethod_ok h
      exact steps.grow hg (grows_codegenMethodBody_none params)
  | .methodDef name params (some body) => by
      have hbody := grows_codegenStmts body
      intro g v g' hg h
      obtain ⟨steps⟩ := codegenMethod_ok h
      exact steps.grow hg (grows_codegenMethodBody_some params hbody)

theorem grows_codegenStmts : (ss : List Stmt) → Grows (codegenStmts ss)
  | [] => by
      rw [codegenStmts]
      exact stable_grow.pure _
  | [s] => by
      rw [codegenStmts]
      exact stable_grow.bind (grows_codegenStmt s) fun _ => stable_grow.pure _
  | s :: s' :: ss => by
      rw [codegenStmts]
      · exact stable_grow.bind (grows_codegenStmt s) fun _ => grows_codegenStmts (s' :: ss)
      · nofun

theorem framesRescues_codegenRescues : (rescuebks : List RescueBlock) → FramesRescues rescuebks
  | [] => framesRescues_nil
  | .mk _ _ statements :: rescuebks =>
      framesRescues_cons (grows_codegenStmts statements) (framesRescues_codegenRescues rescuebks)

end

theorem grows_codegenMethodBody (params : Option (List Param)) (body : Option (List Stmt)) :
    Grows (codegenMethodBody params body) := by
  cases body with
  | none => exact grows_codegenMethodBody_none params
  | some body => exact grows_codegenMethodBody_some params (grows_codegenStmts body)

/-! ### Blocks only get longer

`Grow` is about one method and a builder that is in it.  Where all that matters is that no
instruction is ever taken away, `Longer` says so, and asks nothing of the context.
-/

/-- What is generated at any place makes blocks longer. -/
structure Longer (g g' : CodegenContext) : Prop where
  longer : ∀ b, g.instrs b <+: g'.instrs b
  fnOf : ∀ b < g.blocks.length, g'.fnOf b = g.fnOf b
  length : g.blocks.length ≤ g'.blocks.length
  method : g'.current_method.fn = g.current_method.fn

theorem Longer.refl (g : CodegenContext) : Longer g g :=
  ⟨fun _ => List.prefix_rfl, fun _ _ => rfl, Nat.le_refl _, rfl⟩

theorem Longer.trans (h : Longer g₀ g₁) (h' : Longer g₁ g) : Longer g₀ g where
  longer b := (h.longer b).trans (h'.longer b)
  fnOf b hb := (h'.fnOf b (hb.trans_le h.length)).trans (h.fnOf b hb)
  length := h.length.trans h'.length
  method := h'.method.trans h.method

theorem Grow.toLonger (h : Grow g₀ g) : Longer g₀ g := ⟨h.longer, h.fnOf, h.length, h.method⟩

theorem Longer.emitAt (h : Longer g₀ g) (b : Nat) (i : Instr) : Longer g₀ (g.emitAt b i) :=
  h.trans ⟨fun c => CodegenContext.emitAt_longer b c i, fun c _ => CodegenContext.emitAt_fnOf b c i,
    (CodegenContext.emitAt_length b i).ge, rfl⟩

theorem Longer.emitNew (h : Longer g₀ g) (b : Nat) (i : Nat → Instr) :
    Longer g₀ (g.emitNew b i) :=
  let h' := h.emitAt b (i g.next)
  ⟨h'.longer, h'.fnOf, h'.length, h'.method⟩

theorem Longer.append (h : Longer g₀ g) (name : String) : Longer g₀ (g.append name) :=
  h.trans ⟨fun b => (CodegenContext.append_instrs name b).symm ▸ List.prefix_rfl,
    fun _ hb => CodegenContext.append_fnOf_of_lt name hb, by simp, rfl⟩

theorem Longer.moveTo (h : Longer g g') (b : Nat) : Longer g (g'.moveTo b) :=
  ⟨h.longer, h.fnOf, h.length, h.method⟩

theorem longer_branched (val : Operand) (ifFalse otherwise : Nat) :
    Longer g (g.branched val ifFalse otherwise) :=
  (((Longer.refl g).emitNew _ _).emitNew _ _).emitAt _ _

theorem longer_leaving (v result : Operand) (bkcontinue : Nat) :
    Longer g (g.leaving v result bkcontinue) :=
  ((Longer.refl g).emitAt _ _).emitAt _ _

theorem longer_looped (v result : Operand) (bkcond : Nat) :
    Longer g (g.looped v result bkcond) :=
  (((Longer.refl g).emitAt _ _).emitNew _ _).emitAt _ _

theorem Longer.jumpedTo (h : Longer g₀ g) (bkrescue : Nat) (tests : List (Nat × Operand × Nat)) :
    Longer g₀ (g.jumpedTo bkrescue tests) := by
  induction tests generalizing g with
  | nil => exact h
  | cons t tests ih => exact ih ((h.moveTo t.1).emitAt _ _)

theorem Longer.jumpedOut (h : Longer g₀ g) (bkout : Nat) (impls : List Nat) :
    Longer g₀ (g.jumpedOut bkout impls) := by
  induction impls generalizing g with
  | nil => exact h
  | cons b impls ih => exact ih ((h.moveTo b).emitAt _ _)

theorem longer_landed : Longer g g.landed :=
  ((((((Longer.refl g).emitNew _ _).emitNew _ _).emitNew _ _).emitNew _ _).emitNew _ _).emitNew _ _

theorem longer_rethrown (dwarf_ex : Operand) : Longer g (g.rethrown dwarf_ex) :=
  ((Longer.refl g).emitNew _ _).emitAt _ _

theorem Longer.afterBegin (h : Longer g₀ g) (begin_block : Nat) (impls : List Nat)
    (result : Operand) : Longer g₀ (g.afterBegin begin_block impls result) :=
  (((((h.append "after_beginblock").jumpedOut g.blocks.length impls).moveTo begin_block).emitAt
    begin_block (.br g.blocks.length)).moveTo g.blocks.length).emitNew g.blocks.length
      fun r => .load r result

/-! ### Programs -/

/-- The context in which the statements of a program are generated: the entry block is block
0, and the builder is at block 1. -/
def CodegenContext.unitBody : CodegenContext :=
  ((CodegenContext.initial.inMethod.append "entry").append "body").moveTo 1

/-- The context after the statements of a program have been generated. -/
def CodegenContext.afterUnit (g : CodegenContext) (v : Operand) : CodegenContext :=
  { ((g.emitAt g.build (.ret v)).moveTo CodegenContext.initial.build).emitAt 0 (.br 1) with
    current_method := CodegenContext.initial.current_method
    self_ref := CodegenContext.initial.self_ref }

theorem generate_ok {stmts : List Stmt} (h : generate stmts = .ok g) :
    ∃ v g₁, codegenStmts stmts .unitBody = .ok (some v, g₁) ∧ g = g₁.afterUnit v := by
  obtain ⟨fn, hunit⟩ : ∃ fn, codegenUnit stmts .initial = .ok (fn, g) := by
    rw [generate] at h
    cases hunit : codegenUnit stmts .initial with
    | error e =>
        rw [hunit] at h
        cases h
    | ok p =>
        rw [hunit] at h
        obtain rfl := Except.ok.inj h
        exact ⟨p.1, rfl⟩
  simp only [codegenUnit, defMethod_ok, bind_ok, appendBlock_ok, withBuilderAtEnd_ok,
    emitValue_ok, emit_ok, emitTo_ok] at hunit
  obtain ⟨-, _, ⟨entry, _, hentry, _, _, ⟨rfl, rfl⟩, _, _, ⟨_, ⟨_, g₁, hbody, v, _, ⟨rfl, rfl⟩,
    rfl⟩, rfl⟩, rfl⟩, rfl⟩ := hunit
  obtain ⟨rfl, rfl⟩ := Prod.mk.inj (Except.ok.inj hentry)
  exact ⟨v, _, hbody, rfl⟩

theorem generate_of_ok {stmts : List Stmt} {v : Operand} {g₁ : CodegenContext}
    (h : codegenStmts stmts .unitBody = .ok (some v, g₁)) :
    generate stmts = .ok (g₁.afterUnit v) := by
  obtain ⟨fn, hunit⟩ : ∃ fn, codegenUnit stmts .initial = .ok (fn, g₁.afterUnit v) := by
    simp only [codegenUnit, defMethod_ok, bind_ok, appendBlock_ok, withBuilderAtEnd_ok,
      emitValue_ok, emit_ok, emitTo_ok]
    exact ⟨_, rfl, _, ⟨_, _, rfl, _, _, ⟨rfl, rfl⟩, (), _,
      ⟨_, ⟨_, _, h, _, _, ⟨rfl, rfl⟩, rfl⟩, rfl⟩, rfl⟩, rfl⟩
  rw [generate, hunit]
  rfl

theorem longer_afterUnit (v : Operand) (hg : g.current_method.fn = 0) :
    Longer g (g.afterUnit v) :=
  let h := (((Longer.refl g).emitAt g.build (.ret v)).moveTo 0).emitAt 0 (.br 1)
  ⟨h.longer, h.fnOf, h.length, hg.symm⟩

theorem generated_of_map {α : Type} {stmts : List Stmt} {f : CodegenContext → α} {a : α}
    (h : (generate stmts).toOption.map f = some a) : ∃ g, generate stmts = .ok g ∧ f g = a :=
  Outcome.ok_of_map h

theorem unitBody_fnOf {b fn : Nat} : CodegenContext.unitBody.fnOf b = some fn ↔ b < 2 ∧ fn = 0 := by
  match b with
  | 0 => simp [CodegenContext.unitBody, CodegenContext.moveTo, CodegenContext.append,
      CodegenContext.inMethod, CodegenContext.initial, CodegenContext.fnOf, eq_comm]
  | 1 => simp [CodegenContext.unitBody, CodegenContext.moveTo, CodegenContext.append,
      CodegenContext.inMethod, CodegenContext.initial, CodegenContext.fnOf, eq_comm]
  | b + 2 =>
      have hge : ¬ b + 2 < 2 := Nat.not_lt.mpr (Nat.le_add_left 2 b)
      simp only [hge, false_and, iff_false]
      exact fun hfn => hge (CodegenContext.lt_of_fnOf hfn)

theorem unitBody_instrs (b : Nat) : CodegenContext.unitBody.instrs b = [] :=
  (CodegenContext.append_instrs "body" b).trans
    ((CodegenContext.append_instrs "entry" b).trans rfl)

theorem wellFormed_unitBody : WellFormed CodegenContext.unitBody where
  build := unitBody_fnOf.mpr ⟨Nat.one_lt_two, rfl⟩
  fn_lt _ _ hb := (unitBody_fnOf.mp hb).2 ▸ Nat.one_pos
  result_lt b := unitBody_instrs b ▸ nofun
  nodup b := unitBody_instrs b ▸ .nil
  locals_lt := nofun

theorem isEntry_unitBody : IsEntry CodegenContext.unitBody 0 :=
  entry_iff.mpr ⟨unitBody_fnOf.mpr ⟨Nat.two_pos, rfl⟩, fun _ hb => absurd hb (Nat.not_lt_zero _)⟩

end Pup.Codegen
