/-
Where exceptions go that are raised in the body of a `begin`.

A call of the runtime that raises leaves its function, unless it is an `invoke`: then the
exception enters the landing pad that the instruction names.  Only the invocation of a method
is generated as an `invoke`.  The lookup of a constant, and the rethrow at the end of a
landing pad, are calls in any case, also in the body of a `begin`.  `caught_iff` is that these
two are what a body must not have if all that it raises is to enter its own landing pad.
-/
import Pup.Codegen.Frames

namespace Pup.Codegen

open Parse

variable {α β : Type} {g g' g₀ g₁ g₂ : CodegenContext}

/-! ### What the text says -/

mutual

/-- Whether an expression looks up no constant. -/
def catchesExpr : Expr → Bool
  | .assign _ _ right => catchesExpr right
  | .varOrInvoke name args _ receiver =>
      !isConstAccess name args receiver && catchesReceiver receiver && catchesArgList args
  | .binary _ left _ right => catchesExpr left && catchesExpr right
  | _ => true

def catchesReceiver : Option Expr → Bool
  | some receiver => catchesExpr receiver
  | none => true

def catchesArgList : Option (List Expr) → Bool
  | some args => catchesExprs args
  | none => true

def catchesExprs : List Expr → Bool
  | [] => true
  | e :: es => catchesExpr e && catchesExprs es

end

mutual

/-- Whether a statement looks up no constant and has no `begin` in it, outside the methods that
it defines. -/
def catchesStmt : Stmt → Bool
  | .expr e => catchesExpr e
  | .ifStmt cond ifbk elsebk => catchesExpr cond && (catchesStmts ifbk && catchesBlock elsebk)
  | .whileStmt cond statements => catchesExpr cond && catchesStmts statements
  | .beginStmt .. => false
  | .classDef _ _ body => catchesBlock body
  | .methodDef .. => true

def catchesStmts : List Stmt → Bool
  | [] => true
  | s :: ss => catchesStmt s && catchesStmts ss

def catchesBlock : Option (List Stmt) → Bool
  | some statements => catchesStmts statements
  | none => true

end

/-! ### Where exceptions go

What a piece generates is what the blocks have more than before (`added`).  So two pieces one
behind the other let no exception past the blocks `A` exactly if neither does (`caught_trans`),
and whether a body does comes down to its instructions, one by one.
-/

/-- The block that an exception enters which comes out of the instruction; without one it
leaves the function. -/
def Instr.unwindsTo : Instr → Option Nat
  | .invoke _ _ _ _ exception => some exception
  | _ => none

/-- The instructions that a block has got. -/
def added (g g' : CodegenContext) (b : Nat) : List Instr :=
  (g'.instrs b).drop (g.instrs b).length

/-- Exceptions that are raised by what was generated for the method enter one of the blocks
`A`. -/
def Caught (A : Nat → Prop) (g g' : CodegenContext) : Prop :=
  ∀ b, g'.fnOf b = some g.current_method.fn → ∀ i ∈ added g g' b, i.raises →
    ∃ pad, i.unwindsTo = some pad ∧ A pad

variable {A : Nat → Prop}

theorem added_trans (h : Longer g g₁) (h' : Longer g₁ g₂) (b : Nat) :
    added g g₂ b = added g g₁ b ++ added g₁ g₂ b := by
  obtain ⟨xs, hxs⟩ := h.longer b
  obtain ⟨ys, hys⟩ := h'.longer b
  rw [added, added, added, ← hys, ← hxs]
  simp

theorem caught_trans (h : Longer g g₁) (h' : Longer g₁ g₂) :
    Caught A g g₂ ↔ Caught A g g₁ ∧ Caught A g₁ g₂ := by
  constructor
  · intro hall
    constructor
    · intro b hb i hi
      have hb' := (h'.fnOf b (CodegenContext.lt_of_fnOf hb)).trans hb
      exact hall b hb' i (added_trans h h' b ▸ List.mem_append_left _ hi)
    · intro b hb i hi
      exact hall b (hb.trans (congrArg some h.method)) i
        (added_trans h h' b ▸ List.mem_append_right _ hi)
  · rintro ⟨hfirst, hsecond⟩ b hb i hi
    rw [added_trans h h' b] at hi
    rcases List.mem_append.mp hi with hi | hi
    · rcases Nat.lt_or_ge b g₁.blocks.length with hlt | hge
      · exact hfirst b ((h'.fnOf b hlt).symm.trans hb) i hi
      · rw [added, CodegenContext.instrs_of_length_le hge] at hi
        simp at hi
    · exact hsecond b (hb.trans (congrArg some h.method.symm)) i hi

/-- What was generated lets no exception out of the function just when `ok` says so. -/
structure Catches (A : Nat → Prop) (ok : Bool) (g g' : CodegenContext) : Prop where
  longer : Longer g g'
  caught : Caught A g g' ↔ ok = true

variable {ok ok' : Bool}

theorem Catches.trans (h : Catches A ok g g₁) (h' : Catches A ok' g₁ g₂) :
    Catches A (ok && ok') g g₂ where
  longer := h.longer.trans h'.longer
  caught := by
    rw [caught_trans h.longer h'.longer, h.caught, h'.caught, Bool.and_eq_true]

theorem Catches.run (h : Catches A ok g g₁) (h' : Catches A true g₁ g₂) : Catches A ok g g₂ :=
  Bool.and_true ok ▸ h.trans h'

/-- What lets an exception out does so in any surroundings. -/
theorem Catches.escape (h : Longer g₀ g) (h' : Catches A false g g₁) (h'' : Longer g₁ g₂) :
    Catches A false g₀ g₂ where
  longer := h.trans (h'.longer.trans h'')
  caught := by
    rw [caught_trans h (h'.longer.trans h''), caught_trans h'.longer h'', h'.caught]
    simp

theorem catches_of_instrs (h : Longer g g') (hinstrs : ∀ b, g'.fnOf b = some g.current_method.fn →
    g'.instrs b = g.instrs b) : Catches A true g g' where
  longer := h
  caught := by
    refine iff_of_true (fun b hb i hi => ?_) rfl
    rw [added, hinstrs b hb] at hi
    simp at hi

theorem Catches.refl (g : CodegenContext) : Catches A true g g :=
  catches_of_instrs (.refl g) fun _ _ => rfl

theorem Catches.moveTo (h : Catches A ok g₀ g) (b : Nat) : Catches A ok g₀ (g.moveTo b) :=
  h.run (catches_of_instrs ((Longer.refl g).moveTo b) fun _ _ => rfl)

theorem Catches.append (h : Catches A ok g₀ g) (name : String) :
    Catches A ok g₀ (g.append name) :=
  h.run (catches_of_instrs ((Longer.refl g).append name)
    fun b _ => CodegenContext.append_instrs name b)

theorem added_emitAt_self {b : Nat} (hb : b < g.blocks.length) (i : Instr) :
    added g (g.emitAt b i) b = [i] := by
  rw [added, CodegenContext.emitAt_instrs_self hb]
  simp

theorem added_emitAt {b c : Nat} {i j : Instr} (hj : j ∈ added g (g.emitAt b i) c) : j = i := by
  rw [added] at hj
  by_cases hc : c = b
  · subst hc
    rcases Nat.lt_or_ge c g.blocks.length with hlt | hge
    · rw [CodegenContext.emitAt_instrs_self hlt] at hj
      simpa using hj
    · have hnil : (g.emitAt c i).instrs c = [] :=
        CodegenContext.instrs_of_length_le (by simpa using hge)
      rw [hnil] at hj
      simp at hj
  · rw [CodegenContext.emitAt_instrs_ne hc] at hj
    simp at hj

/-- An instruction whose exceptions enter one of the blocks. -/
theorem Catches.emitCaught (h : Catches A ok g₀ g) (b : Nat) {i : Instr}
    (hi : i.raises → ∃ pad, i.unwindsTo = some pad ∧ A pad) :
    Catches A ok g₀ (g.emitAt b i) :=
  h.run ⟨(Longer.refl g).emitAt b i,
    iff_of_true (fun _ _ _ hj => added_emitAt hj ▸ hi) rfl⟩

theorem Catches.emitAt (h : Catches A ok g₀ g) (b : Nat) {i : Instr} (hi : i.raises = false) :
    Catches A ok g₀ (g.emitAt b i) :=
  h.emitCaught b fun hraises => by
    rw [hi] at hraises
    cases hraises

theorem Catches.bump (h : Catches A ok g₀ g) :
    Catches A ok g₀ { g with next := g.next + 1 } :=
  h.run (catches_of_instrs ⟨fun _ => List.prefix_rfl, fun _ _ => rfl, Nat.le_refl _, rfl⟩
    fun _ _ => rfl)

theorem Catches.emitNew (h : Catches A ok g₀ g) (b : Nat) {i : Nat → Instr}
    (hi : ∀ r, (i r).raises = false) : Catches A ok g₀ (g.emitNew b i) :=
  (h.emitAt b (hi g.next)).bump

/-- A call that can raise lets its exception out. -/
theorem catches_call (hg : WellFormed g) {i : Nat → Instr} (hi : ∀ r, (i r).raises)
    (hnone : ∀ r, (i r).unwindsTo = none) : Catches A false g (g.emitNew g.build i) where
  longer := (Longer.refl g).emitNew g.build i
  caught := by
    refine iff_of_false (fun hall => ?_) Bool.false_ne_true
    have hmem : i g.next ∈ added g (g.emitNew g.build i) g.build := by
      have hself := added_emitAt_self hg.build_lt (i g.next)
      exact hself ▸ List.mem_singleton_self _
    have hfn : (g.emitNew g.build i).fnOf g.build = some g.current_method.fn :=
      (CodegenContext.emitAt_fnOf ..).trans hg.build
    obtain ⟨pad, hpad, -⟩ := hall g.build hfn _ hmem (hi g.next)
    rw [hnone] at hpad
    cases hpad

/-! ### Expressions -/

/-- The pieces that do not raise. -/
structure Quiet (A : Nat → Prop) (g g' : CodegenContext) : Prop where
  grow : Grow g g'
  catches : Catches A true g g'

theorem stableLocals_quiet : StableLocals (Quiet A) where
  wellFormed h := h.grow.wellFormed
  refl hg := ⟨.refl hg, .refl _⟩
  trans h h' := ⟨h.grow.trans h'.grow, h.catches.run h'.catches⟩
  emit hg hi hr :=
    ⟨stable_grow.emit hg hi hr, (Catches.refl _).emitAt _ (Instr.raises_of_isPlain hi)⟩
  emitNew hg hi hr := ⟨stable_grow.emitNew hg hi hr,
    (Catches.refl _).emitNew _ fun r => Instr.raises_of_isPlain (hi r)⟩
  emitNewEntry hg he hi hr := ⟨stable_grow.emitNewEntry hg he hi hr,
    (Catches.refl _).emitNew _ fun r => Instr.raises_of_isPlain (Instr.isPlain_of_isSlot (hi r))⟩
  withLocal {g e _} hg he hname := by
    have hslot := (((Catches.refl (A := A) g).emitNew e (i := .alloca) fun _ => rfl).emitNew
      e (i := fun c => .bitCast c (.reg g.next)) fun _ => rfl).emitNew e
        (i := fun c => .call c "llvm.gcroot" [.reg (g.next + 1), .null]) fun _ => rfl
    have hgrow := grow_withLocal hg he hname
    exact ⟨hgrow, hgrow.toLonger, hslot.caught⟩

/-- Whether what is generated under a landing pad lets no exception out. -/
def CatchesOf (A : Nat → Prop) (m : Gen α) (ok : Bool) : Prop :=
  ∀ g a g' pad, WellFormed g → g.landingpad = some pad → A pad → m g = .ok (a, g') →
    Grow g g' ∧ Catches A ok g g'

theorem catches_of_quiet {m : Gen α} (h : Does (Quiet A) m) : CatchesOf A m true :=
  fun g a g' _ hg _ _ hrun => ⟨(h g a g' hg hrun).grow, (h g a g' hg hrun).catches⟩

theorem CatchesOf.bind {x : Gen α} {f : α → Gen β} (hx : CatchesOf A x ok)
    (hf : ∀ a, CatchesOf A (f a) ok') : CatchesOf A (x >>= f) (ok && ok') := by
  intro g b g' pad hg hpad hA h
  obtain ⟨a, g₁, h₁, h₂⟩ := bind_ok.mp h
  obtain ⟨hgrow, hcatches⟩ := hx g a g₁ pad hg hpad hA h₁
  obtain ⟨hgrow', hcatches'⟩ := hf a g₁ b g' pad hgrow.wellFormed (hgrow.landingpad.trans hpad) hA
    h₂
  exact ⟨hgrow.trans hgrow', hcatches.trans hcatches'⟩

/-- A piece that does not raise, and then another one. -/
theorem catches_after {x : Gen α} {f : α → Gen β} (hx : Does (Quiet A) x)
    (hf : ∀ a, CatchesOf A (f a) ok) : CatchesOf A (x >>= f) ok :=
  Bool.true_and ok ▸ (catches_of_quiet hx).bind hf

theorem CatchesOf.before {x : Gen α} {f : α → Gen β} (hx : CatchesOf A x ok)
    (hf : ∀ a, Does (Quiet A) (f a)) : CatchesOf A (x >>= f) ok :=
  Bool.and_true ok ▸ hx.bind fun a => catches_of_quiet (hf a)

/-- The invocation of a method is an `invoke`. -/
theorem catches_buildMethodInvocation (receiver : Operand) (name : String)
    (args : List Operand) : CatchesOf A (buildMethodInvocation receiver name args) true := by
  have hR := stableLocals_quiet (A := A).toStable
  refine catches_after (hR.buildArgv args) fun argv => catches_after (hR.mkSym name) fun sym => ?_
  intro g v g' pad hg hpad hA h
  rw [bind_ok] at h
  obtain ⟨_, _, hget, h⟩ := h
  rw [(get_ok.mp hget).1, (get_ok.mp hget).2] at h
  simp only [hpad, bind_ok, appendBlock_ok, emitReg_ok, positionAtEnd_ok, pure_ok] at h
  obtain ⟨b, _, ⟨rfl, rfl⟩, res, _, ⟨rfl, rfl⟩, u, _, rfl, rfl, rfl⟩ := h
  refine ⟨grow_invoked hg _ fun _ => rfl, ?_⟩
  exact (((Catches.refl g).append _).emitCaught g.build (i := .invoke g.next "pup_invoke" _
    g.blocks.length pad) fun _ => ⟨pad, rfl, hA⟩).bump.moveTo g.blocks.length

theorem catches_codegenBinary (class_ : BinaryClass) (op : String) (lhs rhs : Operand) :
    CatchesOf A (codegenBinary class_ op lhs rhs) true := by
  rw [codegenBinary]
  cases operatorMethod class_ op with
  | some name => exact catches_buildMethodInvocation _ _ _
  | none => exact fun _ _ _ _ _ _ _ h => absurd h throw_ok

/-- The lookup of a constant is a call. -/
theorem catches_constAccess (name : String) : CatchesOf A (constAccess name) false := by
  have hR := stableLocals_quiet (A := A).toStable
  refine catches_after hR.get fun _ => catches_after (hR.buildCall rfl _) fun self_class =>
    catches_after (hR.mkSym name) fun sym => ?_
  intro g v g' pad hg _ _ h
  obtain ⟨-, rfl⟩ := buildCall_ok.mp h
  exact ⟨(Grow.refl hg).emitNewHere fun _ => rfl, catches_call hg (fun _ => rfl) fun _ => rfl⟩

theorem catchesReceiver_of_isNone {receiver : Option Expr} (h : receiver.isNone) :
    catchesReceiver receiver = true := by
  rw [Option.isNone_iff_eq_none.mp h, catchesReceiver]

theorem catchesArgList_of_isNone {args : Option (List Expr)} (h : args.isNone) :
    catchesArgList args = true := by
  rw [Option.isNone_iff_eq_none.mp h, catchesArgList]

mutual

theorem catches_codegenExpr : (e : Expr) → CatchesOf A (codegenExpr e) (catchesExpr e)
  | .assign (.name name) _ right => by
      have hR := stableLocals_quiet (A := A)
      rw [codegenExpr, catchesExpr]
      exact catches_after (hR.getOrCreateLocal name) fun _ =>
        (catches_codegenExpr right).before fun _ => hR.bind (hR.emit_piece rfl rfl) fun _ => hR.pure _
  | .assign (.instVar name) _ right => by
      have hR := stableLocals_quiet (A := A).toStable
      rw [codegenExpr, catchesExpr]
      exact (catches_codegenExpr right).before fun _ => hR.bind (hR.mkSym name) fun _ =>
        hR.bind hR.get fun _ => hR.bind (hR.buildCall rfl _) fun _ => hR.pure _
  | .varOrInvoke name args _ receiver => by
      have hR := stableLocals_quiet (A := A).toStable
      have hreceiver := catches_codegenReceiver receiver
      have hargs := catches_codegenArgList args
      intro g v g' pad hg hpad hA h
      rw [codegenExpr] at h
      rw [catchesExpr]
      split at h
      · next hconst =>
          rw [hconst]
          exact catches_constAccess _ g v g' pad hg hpad hA h
      · next hconst =>
          rw [Bool.not_eq_true] at hconst
          rw [hconst]
          rw [bind_ok] at h
          obtain ⟨found, _, hlocal, h⟩ := h
          obtain ⟨hfound, rfl⟩ := Prod.mk.inj (Except.ok.inj hlocal)
          split at h
          · next htrue =>
              rw [htrue] at hfound
              simp only [Bool.and_eq_true] at hfound
              rw [catchesReceiver_of_isNone hfound.1.2, catchesArgList_of_isNone hfound.1.1]
              exact catches_of_quiet (hR.localAccess _) _ v g' pad hg hpad hA h
          · have hinvoke := hreceiver.bind fun r => hargs.bind fun arg_list =>
              catches_buildMethodInvocation r name.text arg_list
            simpa using hinvoke _ v g' pad hg hpad hA h
  | .instVar name => by
      have hR := stableLocals_quiet (A := A).toStable
      rw [codegenExpr]
      exact catches_of_quiet (hR.bind (hR.mkSym name) fun _ => hR.bind hR.get fun _ =>
        hR.buildCall rfl _)
  | .binary class_ left op right => by
      rw [codegenExpr, catchesExpr]
      have hboth := (catches_codegenExpr left).bind fun lhs => (catches_codegenExpr right).bind
        fun rhs => catches_codegenBinary class_ op lhs rhs
      simpa using hboth
  | .string source => by
      rw [codegenExpr]
      exact catches_of_quiet (stableLocals_quiet.buildCall rfl _)
  | .int source => by
      rw [codegenExpr]
      exact catches_of_quiet (stableLocals_quiet.buildCall rfl _)
  | .bool true => by
      rw [codegenExpr]
      exact catches_of_quiet (stableLocals_quiet.buildCall rfl _)
  | .bool false => by
      rw [codegenExpr]
      exact catches_of_quiet (stableLocals_quiet.buildCall rfl _)
  | .selfExpr => by
      have hR := stableLocals_quiet (A := A).toStable
      rw [codegenExpr]
      exact catches_of_quiet (hR.bind hR.get fun _ => hR.pure _)

theorem catches_codegenReceiver : (receiver : Option Expr) →
    CatchesOf A (codegenReceiver receiver) (catchesReceiver receiver)
  | some receiver => by
      rw [codegenReceiver, catchesReceiver]
      exact catches_codegenExpr receiver
  | none => by
      have hR := stableLocals_quiet (A := A).toStable
      rw [codegenReceiver, catchesReceiver]
      exact catches_of_quiet (hR.bind hR.get fun _ => hR.pure _)

theorem catches_codegenArgList : (args : Option (List Expr)) →
    CatchesOf A (codegenArgList args) (catchesArgList args)
  | some args => by
      rw [codegenArgList, catchesArgList]
      exact catches_codegenExprs args
  | none => by
      rw [codegenArgList, catchesArgList]
      exact catches_of_quiet (stableLocals_quiet.pure _)

theorem catches_codegenExprs : (es : List Expr) →
    CatchesOf A (codegenExprs es) (catchesExprs es)
  | [] => by
      rw [codegenExprs, catchesExprs]
      exact catches_of_quiet (stableLocals_quiet.pure _)
  | e :: es => by
      rw [codegenExprs, catchesExprs]
      exact (catches_codegenExpr e).bind fun _ => (catches_codegenExprs es).before fun _ =>
        stableLocals_quiet.pure _

end

/-! ### Statements -/

theorem Catches.ifBlocks (h : Catches A ok g₀ g) : Catches A ok g₀ g.ifBlocks :=
  ((((h.append "cond").emitAt g.build (i := .br g.blocks.length) rfl).append "then").append
    "else").append "ifcontinue"

theorem Catches.whileBlocks (h : Catches A ok g₀ g) : Catches A ok g₀ g.whileBlocks :=
  (((h.append "while_cond").emitAt g.build (i := .br g.blocks.length) rfl).append
    "while_body").append "while_continue"

theorem Catches.branched (h : Catches A ok g₀ g) (val : Operand) (ifFalse otherwise : Nat) :
    Catches A ok g₀ (g.branched val ifFalse otherwise) :=
  ((h.emitNew g.build fun _ => rfl).emitNew g.build fun _ => rfl).emitAt g.build rfl

theorem Catches.leaving (h : Catches A ok g₀ g) (v result : Operand) (b : Nat) :
    Catches A ok g₀ (g.leaving v result b) :=
  (h.emitAt g.build rfl).emitAt g.build rfl

theorem Catches.looped (h : Catches A ok g₀ g) (v result : Operand) (b : Nat) :
    Catches A ok g₀ (g.looped v result b) :=
  ((h.emitAt g.build rfl).emitNew g.build fun _ => rfl).emitAt g.build rfl

section Steps

variable {result v : Operand} {cond : Expr} {pad : Nat}

theorem IfSteps.catches {ifbk elsebk : List Stmt}
    (steps : IfSteps g result cond ifbk elsebk v g') (hg : WellFormed g)
    (hpad : g.landingpad = some pad) (hA : A pad) (hif : CatchesOf A (codegenStmts ifbk) ok)
    (helse : CatchesOf A (codegenStmts elsebk) ok') :
    Catches A (catchesExpr cond && (ok && ok')) g g' := by
  have hframe := Frame.start hg
  obtain ⟨hgrow₁, hcond⟩ := catches_codegenExpr cond _ _ _ pad hframe.atIfCond.grow.wellFormed hpad
    hA steps.cond
  have hpad₁ : steps.g₁.landingpad = some pad := hgrow₁.landingpad.trans hpad
  obtain ⟨hgrow₂, hthen⟩ := hif _ _ _ pad (steps.atIf hframe).grow.wellFormed hpad₁ hA steps.ifbk
  have hpad₂ : steps.g₂.landingpad = some pad := hgrow₂.landingpad.trans hpad₁
  obtain ⟨-, helse⟩ := helse _ _ _ pad
    (steps.atElse hframe (grows_codegenStmts ifbk)).grow.wellFormed hpad₂ hA steps.elsebk
  have h₁ := (((Catches.refl g).ifBlocks.moveTo g.blocks.length).trans hcond).branched steps.val
    (g.blocks.length + 2) (g.blocks.length + 1)
  have h₂ := ((h₁.moveTo (g.blocks.length + 1)).trans hthen).leaving steps.vthen result
    (g.blocks.length + 3)
  have h₃ := ((h₂.moveTo (g.blocks.length + 2)).trans helse).leaving steps.velse result
    (g.blocks.length + 3)
  rw [steps.last]
  simpa [Bool.and_assoc] using (h₃.moveTo (g.blocks.length + 3)).emitNew (g.blocks.length + 3)
    (i := fun r => .load r result) fun _ => rfl

theorem WhileSteps.catches {statements : List Stmt}
    (steps : WhileSteps g result cond statements v g') (hg : WellFormed g)
    (hpad : g.landingpad = some pad) (hA : A pad)
    (hbody : CatchesOf A (codegenStmts statements) ok) :
    Catches A (catchesExpr cond && ok) g g' := by
  have hframe := Frame.start hg
  obtain ⟨hgrow₁, hcond⟩ := catches_codegenExpr cond _ _ _ pad
    hframe.atWhileCond.grow.wellFormed hpad hA steps.cond
  have hpad₁ : steps.g₁.landingpad = some pad := hgrow₁.landingpad.trans hpad
  obtain ⟨-, hbody⟩ := hbody _ _ _ pad (steps.atBody hframe).grow.wellFormed hpad₁ hA steps.body
  have h₁ := (((Catches.refl g).whileBlocks.moveTo g.blocks.length).trans hcond).branched
    steps.val (g.blocks.length + 2) (g.blocks.length + 1)
  have h₂ := ((h₁.moveTo (g.blocks.length + 1)).trans hbody).looped steps.vbody result
    g.blocks.length
  rw [steps.last]
  simpa using (h₂.moveTo (g.blocks.length + 2)).emitNew (g.blocks.length + 2)
    (i := fun r => .load r result) fun _ => rfl

/-- The rethrow at the end of a landing pad is a call. -/
theorem BeginSteps.catches {beginbk : List Stmt} {rescuebks : List RescueBlock}
    (steps : BeginSteps g result beginbk rescuebks v g') (hg : WellFormed g) :
    Catches A false g g' := by
  have hframe := Frame.start hg
  have hat := steps.atRescues hframe (grows_codegenStmts beginbk)
  have hclauses := framesRescues_codegenRescues rescuebks _ _ _ _ _ _ _ _ hat steps.rescuebks
  have hrethrow := catches_call (A := A) hclauses.grow.wellFormed (i := fun r =>
    .call r "pup_rethrow_uncaught_exception" [.reg steps.g₁.next]) (fun _ => rfl) fun _ => rfl
  rw [steps.last]
  exact Catches.escape hclauses.grow.toLonger hrethrow
    ((((Longer.refl _).emitAt _ (.ret .null)).moveTo steps.g₁.build).afterBegin _ _ _)

theorem ClassSteps.catches {name : String} {body : List Stmt}
    (steps : ClassSteps g name body v g') (hg : WellFormed g) (hpad : g.landingpad = some pad)
    (hA : A pad) (hbody : CatchesOf A (codegenStmts body) ok) : Catches A ok g g' := by
  have hopen := (stableLocals_quiet (A := A)).openClass name _ _ _ hg steps.open_
  have hpad₁ : steps.g₁.landingpad = some pad := hopen.grow.landingpad.trans hpad
  obtain ⟨-, hcatches⟩ := hbody _ _ _ pad (steps.atBody hg) hpad₁ hA steps.body
  have hbody' : Catches A ok steps.g₁ steps.g₂ :=
    ⟨⟨hcatches.longer.longer, hcatches.longer.fnOf, hcatches.longer.length,
      hcatches.longer.method⟩, hcatches.caught⟩
  rw [steps.last]
  have hall := hopen.catches.trans hbody'
  rw [Bool.true_and] at hall
  exact hall.run (catches_of_instrs ⟨fun _ => List.prefix_rfl, fun _ _ => rfl, Nat.le_refl _, rfl⟩
    fun _ _ => rfl)

/-- A method is not in the blocks of the method around it. -/
theorem MethodSteps.catches {name : String} {params : Option (List Param)}
    {body : Option (List Stmt)} (steps : MethodSteps g name params body v g')
    (hg : WellFormed g) : Catches A true g g' := by
  have hmethod := grows_codegenMethodBody params body _ _ _ (hg.inMethodBlock "") steps.body
  have hgrow := steps.growMethod hg (grows_codegenMethodBody params body)
  have hafter : Catches A true g (g.afterMethod steps.g₁) := by
    refine catches_of_instrs hgrow.toLonger fun b hb => ?_
    rcases Nat.lt_or_ge b g.blocks.length with hlt | hge
    · exact hmethod.method_instrs hg hlt
    · exact absurd (hmethod.method_fn hge hb) (Nat.not_le.mpr hg.current_lt)
  exact hafter.run ((stableLocals_quiet (A := A)).defineMethod _ _ _ _ _ hgrow.wellFormed
    steps.define).catches

end Steps

theorem catches_alloca (e : Nat) : Catches A true g (g.emitNew e .alloca) :=
  (Catches.refl g).emitNew e fun _ => rfl

mutual

/-- Whether a statement lets an exception out is in the text. -/
theorem catches_codegenStmt : (s : Stmt) → CatchesOf A (codegenStmt s) (catchesStmt s)
  | .expr e => by
      rw [codegenStmt, catchesStmt]
      exact catches_codegenExpr e
  | .ifStmt cond ifbk none => by
      intro g v g' pad hg hpad hA h
      obtain ⟨_, _, _, ⟨⟩, _⟩ := codegenIf_ok hg h
  | .ifStmt cond ifbk (some elsebk) => by
      have hif := catches_codegenStmts ifbk
      have helse := catches_codegenStmts elsebk
      intro g v g' pad hg hpad hA h
      refine ⟨grows_codegenStmt _ _ _ _ hg h, ?_⟩
      obtain ⟨e, _, he, heq, ⟨steps⟩⟩ := codegenIf_ok hg h
      cases heq
      have halloca := (Frame.alloca hg he).grow.wellFormed
      simpa [catchesStmt, catchesBlock] using
        (catches_alloca e).trans (steps.catches halloca hpad hA hif helse)
  | .whileStmt cond statements => by
      have hbody := catches_codegenStmts statements
      intro g v g' pad hg hpad hA h
      refine ⟨grows_codegenStmt _ _ _ _ hg h, ?_⟩
      obtain ⟨e, he, ⟨steps⟩⟩ := codegenWhile_ok hg h
      have halloca := (Frame.alloca hg he).grow.wellFormed
      simpa [catchesStmt] using (catches_alloca e).trans (steps.catches halloca hpad hA hbody)
  | .beginStmt beginbk rescuebks elsebk ensurebk => by
      intro g v g' pad hg _ _ h
      refine ⟨grows_codegenStmt _ _ _ _ hg h, ?_⟩
      obtain ⟨-, e, he, ⟨steps⟩⟩ := codegenBegin_ok hg h
      have halloca := (Frame.alloca hg he).grow.wellFormed
      simpa [catchesStmt] using (catches_alloca (A := A) e).trans (steps.catches halloca)
  | .classDef name extends_ none => by
      intro g v g' pad hg _ _ h
      obtain ⟨_, _, ⟨⟩, _⟩ := codegenClass_ok h
  | .classDef name extends_ (some body) => by
      have hbody := catches_codegenStmts body
      intro g v g' pad hg hpad hA h
      refine ⟨grows_codegenStmt _ _ _ _ hg h, ?_⟩
      obtain ⟨_, _, heq, ⟨steps⟩⟩ := codegenClass_ok h
      cases heq
      simpa [catchesStmt, catchesBlock] using steps.catches hg hpad hA hbody
  | .methodDef name params body => by
      intro g v g' pad hg _ _ h
      refine ⟨grows_codegenStmt _ _ _ _ hg h, ?_⟩
      obtain ⟨steps⟩ := codegenMethod_ok h
      simpa [catchesStmt] using steps.catches hg

theorem catches_codegenStmts : (ss : List Stmt) →
    CatchesOf A (codegenStmts ss) (catchesStmts ss)
  | [] => by
      rw [codegenStmts, catchesStmts]
      exact catches_of_quiet (stableLocals_quiet.pure _)
  | [s] => by
      rw [codegenStmts, catchesStmts, catchesStmts, Bool.and_true]
      exact (catches_codegenStmt s).before fun _ => stableLocals_quiet.pure _
  | s :: s' :: ss => by
      rw [codegenStmts, catchesStmts]
      · exact (catches_codegenStmt s).bind fun _ => catches_codegenStmts (s' :: ss)
      · nofun

end

/-! ### The statements in a program -/

mutual

/-- While another statement is generated, `s'` is generated in `g'`. -/
inductive Inside (s' : Stmt) (g' : CodegenContext) : Stmt → CodegenContext → Prop
  | here : Inside s' g' s' g'
  | ifbk {g g₁ : CodegenContext} {cond : Expr} {ifbk elsebk : List Stmt} {e : Nat}
      {v : Operand} (he : IsEntry g e)
      (steps : IfSteps (g.emitNew e .alloca) (.reg g.next) cond ifbk elsebk v g₁)
      (h : InsideStmts s' g' ifbk ((steps.g₁.branched steps.val
        ((g.emitNew e .alloca).blocks.length + 2) ((g.emitNew e .alloca).blocks.length + 1)).moveTo
          ((g.emitNew e .alloca).blocks.length + 1))) :
      Inside s' g' (.ifStmt cond ifbk (some elsebk)) g
  | elsebk {g g₁ : CodegenContext} {cond : Expr} {ifbk elsebk : List Stmt} {e : Nat}
      {v : Operand} (he : IsEntry g e)
      (steps : IfSteps (g.emitNew e .alloca) (.reg g.next) cond ifbk elsebk v g₁)
      (h : InsideStmts s' g' elsebk ((steps.g₂.leaving steps.vthen (.reg g.next)
        ((g.emitNew e .alloca).blocks.length + 3)).moveTo
          ((g.emitNew e .alloca).blocks.length + 2))) :
      Inside s' g' (.ifStmt cond ifbk (some elsebk)) g
  | whileBody {g g₁ : CodegenContext} {cond : Expr} {statements : List Stmt}
      {e : Nat} {v : Operand} (he : IsEntry g e)
      (steps : WhileSteps (g.emitNew e .alloca) (.reg g.next) cond statements v g₁)
      (h : InsideStmts s' g' statements ((steps.g₁.branched steps.val
        ((g.emitNew e .alloca).blocks.length + 2) ((g.emitNew e .alloca).blocks.length + 1)).moveTo
          ((g.emitNew e .alloca).blocks.length + 1))) :
      Inside s' g' (.whileStmt cond statements) g
  | beginbk {g : CodegenContext} {beginbk : List Stmt}
      {rescuebks : List RescueBlock} {els ens : Option (List Stmt)} {e : Nat} (he : IsEntry g e)
      (h : InsideStmts s' g' beginbk
        ((g.emitNew e .alloca).guarded (g.emitNew e .alloca).blocks.length)) :
      Inside s' g' (.beginStmt beginbk rescuebks els ens) g
  | rescuebks {g g₁ : CodegenContext} {beginbk : List Stmt}
      {rescuebks : List RescueBlock} {els ens : Option (List Stmt)} {e : Nat} {v : Operand}
      (he : IsEntry g e)
      (steps : BeginSteps (g.emitNew e .alloca) (.reg g.next) beginbk rescuebks v g₁)
      (h : InsideRescues s' g' rescuebks (.reg g.next) (.reg (steps.g₁.next + 2))
        (.reg (steps.g₁.next + 5)) ((steps.g₁.unguarded steps.vbody (.reg g.next)
          (g.emitNew e .alloca).landingpad).moveTo (g.emitNew e .alloca).blocks.length).landed) :
      Inside s' g' (.beginStmt beginbk rescuebks els ens) g
  | classBody {g g₁ : CodegenContext} {name : String} {body : List Stmt}
      {v : Operand} (steps : ClassSteps g name body v g₁)
      (h : InsideStmts s' g' body { steps.g₁ with self_ref := v }) :
      Inside s' g' (.classDef name none (some body)) g
  | methodBody {g g₁ : CodegenContext} {name : String}
      {params : Option (List Param)} {body : List Stmt}
      (hargs : codegenArgs 0 (params.getD []) (g.inMethodBlock "") = .ok ((), g₁))
      (h : InsideStmts s' g' body g₁) :
      Inside s' g' (.methodDef name params (some body)) g

inductive InsideStmts (s' : Stmt) (g' : CodegenContext) : List Stmt → CodegenContext → Prop
  | head {g : CodegenContext} {s : Stmt} {ss : List Stmt} (h : Inside s' g' s g) :
      InsideStmts s' g' (s :: ss) g
  | tail {g g₁ : CodegenContext} {s : Stmt} {ss : List Stmt} {v : Operand}
      (hs : codegenStmt s g = .ok (v, g₁)) (h : InsideStmts s' g' ss g₁) :
      InsideStmts s' g' (s :: ss) g

inductive InsideRescues (s' : Stmt) (g' : CodegenContext) :
    List RescueBlock → Operand → Operand → Operand → CodegenContext → Prop
  | head {g g₁ : CodegenContext} {types : Option (List Expr)}
      {var_name : Option String} {statements : List Stmt} {rescuebks : List RescueBlock}
      {result excep asobj : Operand} {impls : List Nat}
      (steps : RescueSteps g (types.getD defaultTypes) var_name statements rescuebks result excep
        asobj impls g₁)
      (h : InsideStmts s' g' statements steps.g₁) :
      InsideRescues s' g' (.mk types var_name statements :: rescuebks) result excep asobj g
  | tail {g g₁ : CodegenContext} {types : Option (List Expr)}
      {var_name : Option String} {statements : List Stmt} {rescuebks : List RescueBlock}
      {result excep asobj : Operand} {impls : List Nat}
      (steps : RescueSteps g (types.getD defaultTypes) var_name statements rescuebks result excep
        asobj impls g₁)
      (h : InsideRescues s' g' rescuebks result excep asobj
        ((steps.g₂.emitAt steps.g₂.build (.store steps.v result)).moveTo steps.next)) :
      InsideRescues s' g' (.mk types var_name statements :: rescuebks) result excep asobj g

end

/-- What is generated inside a program is generated in a well formed context, and has been
generated when the program has been. -/
def Generated (s : Stmt) (g : CodegenContext) : Prop :=
  WellFormed g ∧ ∃ v g', codegenStmt s g = .ok (v, g')

mutual

theorem Inside.generated {s s' : Stmt} {g g' : CodegenContext} (h : Inside s' g' s g)
    (hs : Generated s g) : Generated s' g' := by
  obtain ⟨hg, v, g', hrun⟩ := hs
  cases h with
  | here => exact ⟨hg, v, g', hrun⟩
  | ifbk he steps h =>
      exact h.generated ((steps.atIf (Frame.alloca hg he)).grow.wellFormed) ⟨_, _, steps.ifbk⟩
  | elsebk he steps h =>
      exact h.generated ((steps.atElse (Frame.alloca hg he)
        (grows_codegenStmts _)).grow.wellFormed) ⟨_, _, steps.elsebk⟩
  | whileBody he steps h =>
      exact h.generated ((steps.atBody (Frame.alloca hg he)).grow.wellFormed) ⟨_, _, steps.body⟩
  | beginbk he h =>
      obtain ⟨-, e', he', ⟨steps⟩⟩ := codegenBegin_ok hg hrun
      obtain rfl := he.unique he'
      exact h.generated (Frame.alloca hg he).grow.wellFormed.guarded ⟨_, _, steps.body⟩
  | rescuebks he steps h =>
      exact h.generated (steps.atRescues (Frame.alloca hg he)
        (grows_codegenStmts _)).grow.wellFormed ⟨_, _, steps.rescuebks⟩
  | classBody steps h => exact h.generated (steps.atBody hg) ⟨_, _, steps.body⟩
  | methodBody hargs h =>
      obtain ⟨steps⟩ := codegenMethod_ok hrun
      obtain ⟨g₁, v', g₂, hargs', hbody, -⟩ := codegenMethodBody_ok steps.body
      obtain ⟨-, rfl⟩ := Prod.mk.inj (Except.ok.inj (hargs.symm.trans hargs'))
      exact h.generated (stableExpr_grow.codegenArgs _ _ _ _ _ (hg.inMethodBlock "")
        hargs).wellFormed ⟨_, _, hbody⟩

theorem InsideStmts.generated {ss : List Stmt} {s' : Stmt} {g g' : CodegenContext}
    (h : InsideStmts s' g' ss g) (hg : WellFormed g)
    (hrun : ∃ v g₁, codegenStmts ss g = .ok (v, g₁)) : Generated s' g' := by
  obtain ⟨v, g₁, hrun⟩ := hrun
  cases h with
  | head h =>
      rename_i s ss
      cases ss with
      | nil =>
          obtain ⟨v', hs, -⟩ := codegenStmts_singleton_ok.mp hrun
          exact h.generated ⟨hg, _, _, hs⟩
      | cons s₂ ss =>
          obtain ⟨v', g₂, hs, -⟩ := codegenStmts_cons_ok.mp hrun
          exact h.generated ⟨hg, _, _, hs⟩
  | tail hs h =>
      rename_i s ss v₁
      cases ss with
      | nil => cases h
      | cons s₂ ss =>
          obtain ⟨v', g₂, hs', hss⟩ := codegenStmts_cons_ok.mp hrun
          obtain ⟨rfl, rfl⟩ := Prod.mk.inj (Except.ok.inj (hs.symm.trans hs'))
          exact h.generated (grows_codegenStmt _ _ _ _ hg hs).wellFormed ⟨_, _, hss⟩

theorem InsideRescues.generated {rescuebks : List RescueBlock} {result excep asobj : Operand}
    {s' : Stmt} {g g' : CodegenContext} (h : InsideRescues s' g' rescuebks result excep asobj g)
    (hg : WellFormed g)
    (hrun : ∃ impls g₁, codegenRescues rescuebks result excep asobj g = .ok (impls, g₁)) :
    Generated s' g' := by
  cases h with
  | head steps h =>
      have hat := (Frame.start hg).enterRescue steps.enter
      exact h.generated hat.grow.wellFormed ⟨_, _, steps.statements⟩
  | tail steps h =>
      have hat := steps.atOthers (Frame.start hg) (grows_codegenStmts _)
      exact h.generated hat.grow.wellFormed ⟨_, _, steps.others⟩

end

/-! ### The body of a `begin` -/

/-- The context in which the body of a `begin` is generated: its landing pad is block
`g.blocks.length`. -/
def CodegenContext.beginBody (g : CodegenContext) (e : Nat) : CodegenContext :=
  (g.emitNew e .alloca).guarded g.blocks.length

/-- **When all that the body of a `begin` raises enters its landing pad**: it looks up no
constant and has no `begin` in it.  It is also only then that no exception leaves the
function: one that enters the landing pad of another `begin` in the body can be raised again
by the rethrow there. -/
theorem caught_iff {stmts : List Stmt} {g' : CodegenContext} (h : generate stmts = .ok g')
    {beginbk : List Stmt} {rescuebks : List RescueBlock} {elsebk ensurebk : Option (List Stmt)}
    {g : CodegenContext}
    (hin : InsideStmts (.beginStmt beginbk rescuebks elsebk ensurebk) g stmts .unitBody) :
    ∃ e v g₁, IsEntry g e ∧ codegenStmts beginbk (g.beginBody e) = .ok (some v, g₁) ∧
      (Caught (· = g.blocks.length) (g.beginBody e) g₁ ↔ catchesStmts beginbk = true) ∧
      (Caught (fun _ => True) (g.beginBody e) g₁ ↔ catchesStmts beginbk = true) := by
  obtain ⟨v, g₁, hrun, -⟩ := generate_ok h
  obtain ⟨hg, v', g₂, hbegin⟩ := hin.generated wellFormed_unitBody ⟨_, _, hrun⟩
  obtain ⟨-, e, he, ⟨steps⟩⟩ := codegenBegin_ok hg hbegin
  have hlength : (g.emitNew e .alloca).blocks.length = g.blocks.length :=
    CodegenContext.emitAt_length e (.alloca g.next)
  have hbody := steps.body
  have hguarded := (Frame.alloca hg he).grow.wellFormed.guarded
  rw [hlength] at hbody hguarded
  have hcatches : ∀ A : Nat → Prop, A g.blocks.length →
      (Caught A (g.beginBody e) steps.g₁ ↔ catchesStmts beginbk = true) := fun A hA =>
    (catches_codegenStmts beginbk _ _ _ g.blocks.length hguarded rfl hA hbody).2.caught
  exact ⟨e, steps.vbody, steps.g₁, he, hbody, hcatches _ rfl, hcatches _ trivial⟩

/-- A `begin` that invokes a method. -/
def beginWithInvoke : Stmt :=
  .beginStmt [.expr (.varOrInvoke (.name "f") none none none)]
    [.mk none none [.expr (.int "1")]] none none

theorem caught_iff_invoke : ∃ e v g₁, IsEntry CodegenContext.unitBody e ∧
    codegenStmts [.expr (.varOrInvoke (.name "f") none none none)]
      (CodegenContext.unitBody.beginBody e) = .ok (some v, g₁) ∧
    (Caught (· = 2) (CodegenContext.unitBody.beginBody e) g₁ ↔
      catchesStmts [.expr (.varOrInvoke (.name "f") none none none)] = true) ∧
    (Caught (fun _ => True) (CodegenContext.unitBody.beginBody e) g₁ ↔
      catchesStmts [.expr (.varOrInvoke (.name "f") none none none)] = true) := by
  obtain ⟨g, hg, -⟩ : ∃ g, generate [beginWithInvoke] = .ok g ∧ g.functions = 1 :=
    generated_of_map (by decide +kernel)
  exact caught_iff hg (.head .here)

/-- The lookup of a constant, as the body of a `begin`. -/
def lookupMissing : List Stmt := [.expr (.varOrInvoke (.constant "Missing") none none none)]

def beginWithLookup : List Stmt :=
  [.beginStmt lookupMissing [.mk none none [.expr (.int "1")]] none none]

/-- The lookup is a call in block 1, and its exception leaves the function. -/
theorem beginWithLookup_escapes : ∃ g v g₁, generate beginWithLookup = .ok g ∧
    codegenStmts lookupMissing (CodegenContext.unitBody.beginBody 0) = .ok (some v, g₁) ∧
    ¬ Caught (fun _ => True) (CodegenContext.unitBody.beginBody 0) g₁ := by
  obtain ⟨g, hg, -⟩ : ∃ g, generate beginWithLookup = .ok g ∧ g.functions = 1 :=
    generated_of_map (by decide +kernel)
  have hrun : (codegenStmts lookupMissing (CodegenContext.unitBody.beginBody 0)).toOption.map
      (fun p => (p.1, p.2.fnOf 1, added (CodegenContext.unitBody.beginBody 0) p.2 1)) =
    some (some (.reg 3), some 0, [.call 1 "pup_class_context_from" [.env, .paramTarget],
      .call 2 "pup_env_str_to_sym" [.env, .str "Missing"],
      .call 3 "pup_const_get_required" [.env, .reg 1, .reg 2]]) := by decide +kernel
  cases hbody : codegenStmts lookupMissing (CodegenContext.unitBody.beginBody 0) with
  | error e =>
      rw [hbody] at hrun
      cases hrun
  | ok p =>
      rw [hbody] at hrun
      obtain ⟨hvalue, hrest⟩ := Prod.mk.inj (Option.some.inj hrun)
      obtain ⟨hfn, hadded⟩ := Prod.mk.inj hrest
      obtain ⟨value, g₁⟩ := p
      subst hvalue
      refine ⟨g, .reg 3, g₁, hg, rfl, fun hall => ?_⟩
      obtain ⟨pad, hpad, -⟩ := hall 1 hfn (.call 3 "pup_const_get_required" [.env, .reg 1, .reg 2])
        (by rw [hadded]; simp) rfl
      cases hpad

end Pup.Codegen
