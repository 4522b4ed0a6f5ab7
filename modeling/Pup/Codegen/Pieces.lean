/-
What the pieces of the generator do to their context.

Most of what is shown of the generator says that a context and the one after it are related,
by a relation that the few things a piece does keep to: it adds plain instructions where the
builder is or to the entry block, it gives a local its slot, it invokes a method.  `Stable`
and the two structures that extend it list these, and from them the relation holds for every
piece and every expression.
-/
import Pup.Codegen.Grow

namespace Pup.Codegen

open Parse

variable {α β : Type} {g g' g₀ g₁ : CodegenContext}

/-! ### Relations between contexts -/

/-- The functions of the runtime that an exception can come out of. -/
def raisingFunctions : List String :=
  ["pup_invoke", "pup_const_get_required", "pup_rethrow_uncaught_exception"]

def Instr.raises : Instr → Bool
  | .call _ fn _ => raisingFunctions.contains fn
  | .invoke _ fn _ _ _ => raisingFunctions.contains fn
  | _ => false

/-- An instruction after which the next one is executed. -/
def Instr.isPlain (i : Instr) : Bool := !i.isTerminator && !i.raises

theorem Instr.isTerminator_of_isPlain {i : Instr} (hi : i.isPlain) : i.isTerminator = false := by
  simp only [isPlain, Bool.and_eq_true, Bool.not_eq_true'] at hi
  exact hi.1

theorem Instr.raises_of_isPlain {i : Instr} (hi : i.isPlain) : i.raises = false := by
  simp only [isPlain, Bool.and_eq_true, Bool.not_eq_true'] at hi
  exact hi.2

theorem Instr.isPlain_of_isSlot {i : Instr} (hi : i.isSlot) : i.isPlain := by
  cases i with
  | call r fn args =>
      obtain rfl : fn = "llvm.gcroot" := by simpa [isSlot] using hi
      rfl
  | alloca => rfl
  | arrayAlloca => rfl
  | bitCast => rfl
  | _ => cases hi

theorem Instr.isPlain_call {r : Nat} {fn : String} {args : List Operand}
    (h : raisingFunctions.contains fn = false) : (Instr.call r fn args).isPlain := by
  rw [isPlain, raises, h]
  rfl

/-- A relation that the plain steps of a piece keep to. -/
structure Stable (R : CodegenContext → CodegenContext → Prop) : Prop where
  wellFormed : ∀ {g g'}, R g g' → WellFormed g'
  refl : ∀ {g}, WellFormed g → R g g
  trans : ∀ {g₀ g₁ g}, R g₀ g₁ → R g₁ g → R g₀ g
  emit : ∀ {g} {i : Instr}, WellFormed g → i.isPlain → i.result = none →
    R g (g.emitAt g.build i)
  emitNew : ∀ {g} {i : Nat → Instr}, WellFormed g → (∀ r, (i r).isPlain) →
    (∀ r, (i r).result = some r) → R g (g.emitNew g.build i)
  emitNewEntry : ∀ {g} {e : Nat} {i : Nat → Instr}, WellFormed g → IsEntry g e →
    (∀ r, (i r).isSlot) → (∀ r, (i r).result = some r) → R g (g.emitNew e i)

/-- What `m` generates is related to the context before it. -/
def Does (R : CodegenContext → CodegenContext → Prop) (m : Gen α) : Prop :=
  ∀ g a g', WellFormed g → m g = .ok (a, g') → R g g'

variable {R : CodegenContext → CodegenContext → Prop}

theorem does_throw (e : Error) : Does R (throw e : Gen α) := fun _ _ _ _ h => absurd h throw_ok

namespace Stable

theorem pure (hR : Stable R) (a : α) : Does R (Pure.pure a : Gen α) := by
  intro g b g' hg h
  obtain ⟨-, rfl⟩ := pure_ok.mp h
  exact hR.refl hg

theorem bind (hR : Stable R) {x : Gen α} {f : α → Gen β} (hx : Does R x)
    (hf : ∀ a, Does R (f a)) : Does R (x >>= f) := by
  intro g b g' hg h
  obtain ⟨a, g₁, h₁, h₂⟩ := bind_ok.mp h
  have hfirst := hx g a g₁ hg h₁
  exact hR.trans hfirst (hf a g₁ b g' (hR.wellFormed hfirst) h₂)

theorem get (hR : Stable R) : Does R (MonadState.get : Gen CodegenContext) := by
  intro g a g' hg h
  obtain ⟨-, rfl⟩ := get_ok.mp h
  exact hR.refl hg

theorem emit_piece (hR : Stable R) {i : Instr} (hi : i.isPlain) (hr : i.result = none) :
    Does R (Codegen.emit i) := by
  intro g u g' hg h
  obtain rfl := emit_ok.mp h
  exact hR.emit hg hi hr

theorem emitReg (hR : Stable R) {i : Nat → Instr} (hi : ∀ r, (i r).isPlain)
    (hr : ∀ r, (i r).result = some r) : Does R (emitReg i) := by
  intro g v g' hg h
  obtain ⟨-, rfl⟩ := emitReg_ok.mp h
  exact hR.emitNew hg hi hr

theorem buildCall (hR : Stable R) {fn : String} (hfn : raisingFunctions.contains fn = false)
    (args : List Operand) : Does R (buildCall fn args) :=
  hR.emitReg (fun _ => Instr.isPlain_call hfn) fun _ => rfl

theorem mkSym (hR : Stable R) (name : String) : Does R (mkSym name) := hR.buildCall rfl _

theorem emitValue (hR : Stable R) (v : Option Operand) : Does R (emitValue v) := by
  cases v with
  | none => exact does_throw _
  | some v => exact hR.pure v

theorem allocaInEntry (hR : Stable R) : Does R allocaInEntry := by
  intro g v g' hg h
  obtain ⟨e, he, rfl, rfl⟩ := allocaInEntry_ok hg h
  exact hR.emitNewEntry hg he (fun _ => rfl) fun _ => rfl

theorem getLocal (hR : Stable R) (name : String) : Does R (getLocal name) := by
  intro g v g' hg h
  obtain ⟨-, rfl⟩ := Prod.mk.inj (Except.ok.inj h)
  exact hR.refl hg

theorem storeArgs (hR : Stable R) (argv : Operand) (args : List Operand) :
    ∀ i, Does R (storeArgs argv i args) := by
  induction args with
  | nil => exact fun _ => hR.pure ()
  | cons arg args ih =>
      intro i
      exact hR.bind (hR.emitReg (fun _ => rfl) fun _ => rfl) fun _ => hR.bind (hR.emit_piece rfl rfl) fun _ =>
        ih (i + 1)

theorem buildArgv (hR : Stable R) (args : List Operand) : Does R (buildArgv args) := by
  intro g v g' hg h
  unfold Codegen.buildArgv at h
  split at h
  · exact hR.pure _ g v g' hg h
  · simp only [bind_ok, emitRegAt_ok, pure_ok] at h
    obtain ⟨e, _, he, r, _, ⟨rfl, rfl⟩, u, _, hstore, rfl, rfl⟩ := h
    obtain ⟨he, rfl⟩ := entryBlockBuilder_ok hg he
    have halloca := hR.emitNewEntry hg he (i := fun r => .arrayAlloca r args.length)
      (fun _ => rfl) fun _ => rfl
    exact hR.trans halloca (hR.storeArgs _ _ _ _ _ _ (hR.wellFormed halloca) hstore)

theorem isLocal (hR : Stable R) (name : String) (args : Option (List Expr))
    (receiver : Option Expr) : Does R (isLocal name args receiver) := by
  intro g v g' hg h
  obtain ⟨-, rfl⟩ := Prod.mk.inj (Except.ok.inj h)
  exact hR.refl hg

theorem localAccess (hR : Stable R) (name : String) : Does R (localAccess name) := by
  refine hR.bind (hR.getLocal name) fun found => ?_
  cases found with
  | some localSlot => exact hR.emitReg (fun _ => rfl) fun _ => rfl
  | none => exact does_throw _

theorem openClass (hR : Stable R) (name : String) : Does R (openClass name) :=
  hR.bind (hR.buildCall rfl _) fun _ => hR.bind hR.get fun _ =>
    hR.bind (hR.buildCall rfl _) fun _ => hR.bind (hR.buildCall rfl _) fun _ =>
      hR.bind (hR.mkSym name) fun _ => hR.bind (hR.emitReg (fun _ => rfl) fun _ => rfl) fun _ =>
        hR.bind (hR.buildCall rfl _) fun _ => hR.pure _

theorem defineMethod (hR : Stable R) (name : String) (fn : Nat) : Does R (defineMethod name fn) :=
  hR.bind (hR.mkSym name) fun _ => hR.bind hR.get fun _ => hR.buildCall rfl _

end Stable

/-! ### Locals -/

/-- A relation that the making of a local keeps to as well. -/
structure StableLocals (R : CodegenContext → CodegenContext → Prop) : Prop extends Stable R where
  withLocal : ∀ {g} {e : Nat} {name : String}, WellFormed g → IsEntry g e →
    g.current_method.locals.lookup name = none → R g (g.withLocal e name)

namespace StableLocals

theorem getOrCreateLocal (hR : StableLocals R) (name : String) :
    Does R (getOrCreateLocal name) := by
  intro g v g' hg h
  rw [Codegen.getOrCreateLocal, bind_ok] at h
  obtain ⟨found, _, hget, h⟩ := h
  obtain ⟨rfl, rfl⟩ := Prod.mk.inj (Except.ok.inj hget)
  cases hlookup : g.current_method.locals.lookup name with
  | some slot =>
      rw [hlookup] at h
      obtain ⟨-, rfl⟩ := pure_ok.mp h
      exact hR.refl hg
  | none =>
      rw [hlookup] at h
      obtain ⟨e, he, rfl, rfl⟩ := createLocal_ok hg h
      exact hR.withLocal hg he hlookup

theorem codegenArgs (hR : StableLocals R) (params : List Param) :
    ∀ i, Does R (codegenArgs i params) := by
  induction params with
  | nil => exact fun _ => hR.pure ()
  | cons param params ih =>
      intro i
      obtain ⟨name, init⟩ := param
      exact hR.bind (hR.getOrCreateLocal name) fun _ => hR.bind (hR.emitReg (fun _ => rfl) fun _ => rfl) fun _ =>
        hR.bind (hR.emitReg (fun _ => rfl) fun _ => rfl) fun _ => hR.bind (hR.emit_piece rfl rfl) fun _ => ih (i + 1)

end StableLocals

/-! ### Calls that raise -/

/-- A relation that the calls which can raise keep to as well. -/
structure StableCalls (R : CodegenContext → CodegenContext → Prop) : Prop extends Stable R where
  call : ∀ {g}, WellFormed g → g.landingpad = none →
    ∀ args, R g (g.emitNew g.build fun r => .call r "pup_invoke" args)
  invoked : ∀ {g} {pad : Nat}, WellFormed g → g.landingpad = some pad → ∀ name args,
    R g (g.invoked name fun r => .invoke r "pup_invoke" args g.blocks.length pad)
  lookup : ∀ {g}, WellFormed g →
    ∀ args, R g (g.emitNew g.build fun r => .call r "pup_const_get_required" args)

namespace StableCalls

theorem buildMethodInvocation (hR : StableCalls R) (receiver : Operand) (name : String)
    (args : List Operand) : Does R (buildMethodInvocation receiver name args) := by
  refine hR.bind (hR.buildArgv args) fun argv => hR.bind (hR.mkSym name) fun sym => ?_
  intro g v g' hg h
  rw [bind_ok] at h
  obtain ⟨_, _, hget, h⟩ := h
  rw [(get_ok.mp hget).1, (get_ok.mp hget).2] at h
  cases hpad : g.landingpad with
  | some pad =>
      simp only [hpad, bind_ok, appendBlock_ok, emitReg_ok, positionAtEnd_ok, pure_ok] at h
      obtain ⟨b, _, ⟨rfl, rfl⟩, res, _, ⟨rfl, rfl⟩, u, _, rfl, rfl, rfl⟩ := h
      exact hR.invoked hg hpad _ _
  | none =>
      simp only [hpad, buildCall_ok] at h
      obtain ⟨-, rfl⟩ := h
      exact hR.call hg hpad _

theorem codegenBinary (hR : StableCalls R) (class_ : BinaryClass) (op : String)
    (lhs rhs : Operand) : Does R (codegenBinary class_ op lhs rhs) := by
  unfold Codegen.codegenBinary
  split
  · exact hR.buildMethodInvocation _ _ _
  · exact does_throw _

theorem constAccess (hR : StableCalls R) (name : String) : Does R (constAccess name) := by
  refine hR.bind hR.get fun _ => hR.bind (hR.buildCall rfl _) fun self_class =>
    hR.bind (hR.mkSym name) fun sym => ?_
  intro g v g' hg h
  obtain ⟨-, rfl⟩ := buildCall_ok.mp h
  exact hR.lookup hg _

end StableCalls

/-! ### Expressions -/

/-- A relation that all that an expression does keeps to. -/
structure StableExpr (R : CodegenContext → CodegenContext → Prop) : Prop
    extends StableCalls R, StableLocals R

namespace StableExpr

mutual

/-- **An expression keeps to a stable relation.** -/
theorem codegenExpr (hR : StableExpr R) : (e : Expr) → Does R (codegenExpr e)
  | .assign (.name name) _ right => by
      rw [Codegen.codegenExpr]
      exact hR.bind (hR.getOrCreateLocal name) fun _ => hR.bind (codegenExpr hR right) fun _ =>
        hR.bind (hR.emit_piece rfl rfl) fun _ => hR.pure _
  | .assign (.instVar name) _ right => by
      rw [Codegen.codegenExpr]
      exact hR.bind (codegenExpr hR right) fun _ => hR.bind (hR.mkSym name) fun _ =>
        hR.bind hR.get fun _ => hR.bind (hR.buildCall rfl _) fun _ => hR.pure _
  | .varOrInvoke name args _ receiver => by
      rw [Codegen.codegenExpr]
      have hreceiver := codegenReceiver hR receiver
      have hargs := codegenArgList hR args
      split
      · exact hR.constAccess _
      · refine hR.bind (hR.isLocal _ _ _) fun found => ?_
        split
        · exact hR.localAccess _
        · exact hR.bind hreceiver fun _ => hR.bind hargs fun _ => hR.buildMethodInvocation _ _ _
  | .instVar name => by
      rw [Codegen.codegenExpr]
      exact hR.bind (hR.mkSym name) fun _ => hR.bind hR.get fun _ => hR.buildCall rfl _
  | .binary class_ left op right => by
      rw [Codegen.codegenExpr]
      exact hR.bind (codegenExpr hR left) fun _ => hR.bind (codegenExpr hR right) fun _ =>
        hR.codegenBinary _ _ _ _
  | .string source => by
      rw [Codegen.codegenExpr]
      exact hR.buildCall rfl _
  | .int source => by
      rw [Codegen.codegenExpr]
      exact hR.buildCall rfl _
  | .bool true => by
      rw [Codegen.codegenExpr]
      exact hR.buildCall rfl _
  | .bool false => by
      rw [Codegen.codegenExpr]
      exact hR.buildCall rfl _
  | .selfExpr => by
      rw [Codegen.codegenExpr]
      exact hR.bind hR.get fun _ => hR.pure _

theorem codegenReceiver (hR : StableExpr R) :
    (receiver : Option Expr) → Does R (codegenReceiver receiver)
  | some receiver => by
      rw [Codegen.codegenReceiver]
      exact codegenExpr hR receiver
  | none => by
      rw [Codegen.codegenReceiver]
      exact hR.bind hR.get fun _ => hR.pure _

theorem codegenArgList (hR : StableExpr R) :
    (args : Option (List Expr)) → Does R (codegenArgList args)
  | some args => by
      rw [Codegen.codegenArgList]
      exact codegenExprs hR args
  | none => by
      rw [Codegen.codegenArgList]
      exact hR.pure _

theorem codegenExprs (hR : StableExpr R) : (es : List Expr) → Does R (codegenExprs es)
  | [] => by
      rw [Codegen.codegenExprs]
      exact hR.pure _
  | e :: es => by
      rw [Codegen.codegenExprs]
      exact hR.bind (codegenExpr hR e) fun _ => hR.bind (codegenExprs hR es) fun _ => hR.pure _

end

end StableExpr

/-! ### Growing -/

/-- What is generated grows the context that it is generated in. -/
abbrev Grows (m : Gen α) : Prop := Does Grow m

theorem stableExpr_grow : StableExpr Grow where
  wellFormed h := h.wellFormed
  refl := .refl
  trans h h' := h.trans h'
  emit hg _ hr := (Grow.refl hg).emitHere hr
  emitNew hg _ hr := (Grow.refl hg).emitNewHere hr
  emitNewEntry hg he hi hr := (Grow.refl hg).emitNewEntry hg he hi hr
  withLocal hg he hname := grow_withLocal hg he hname
  call hg _ _ := (Grow.refl hg).emitNewHere fun _ => rfl
  invoked hg _ _ _ := grow_invoked hg _ fun _ => rfl
  lookup hg _ := (Grow.refl hg).emitNewHere fun _ => rfl

theorem stable_grow : Stable Grow := stableExpr_grow.toStable

theorem grows_codegenExpr (e : Expr) : Grows (codegenExpr e) := stableExpr_grow.codegenExpr e

end Pup.Codegen
