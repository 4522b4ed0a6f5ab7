/-
The types of values.

The types are those of `core_types.rb`, and the functions of the runtime return what
`runtime.rb` declares.  A register has the type of the result of the one instruction that sets
it (`HasType`).  All slots are for pointers to objects, and all generated functions return one,
so every store and every `ret` needs one (`Instr.WellTyped`).

An expression is a pointer to an object.  So is a statement, but for the definition of a
class, which is a pointer to a class, and the definition of a method, which is the result of a
call that has none.  `valueStmts` is what a program must keep to so that neither is stored or
returned.

A bit cast does not say what it casts to: that of a slot is to `i8**`, and that of a pointer
to a class is to a pointer to an object.
-/
import Pup.Codegen.Added
import Pup.Codegen.Numbered

namespace Pup.Codegen

open Parse

variable {α β : Type} {g g' g₀ g₁ F : CodegenContext}

/-! ### Types -/

inductive Ty
  | void
  | int1
  | int8
  | int32
  | int
  | object
  | class_
  | env
  | method
  | pointer (t : Ty)
  deriving DecidableEq, Repr

/-- `ObjectPtrType`. -/
abbrev objectPtr : Ty := .pointer .object

/-- What a function of the runtime returns. -/
def returnType : String → Option Ty
  | "llvm.eh.exception" => some (.pointer .int8)
  | "llvm.eh.selector" => some .int32
  | "llvm.gcroot" => some .void
  | "pup_rethrow_uncaught_exception" => some .void
  | "pup_create_class" => some (.pointer .class_)
  | "pup_define_method" => some .void
  | "pup_invoke" => some objectPtr
  | "extract_exception_obj" => some objectPtr
  | "pup_string_new_cstr" => some objectPtr
  | "pup_const_get_required" => some objectPtr
  | "pup_const_set" => some .void
  | "pup_iv_set" => some .void
  | "pup_iv_get" => some objectPtr
  | "pup_class_context_from" => some (.pointer .class_)
  | "pup_is_descendant_or_same" => some .int1
  | "pup_env_get_trueinstance" => some objectPtr
  | "pup_env_get_falseinstance" => some objectPtr
  | "pup_env_get_classobject" => some (.pointer .class_)
  | "pup_env_str_to_sym" => some .int
  | "pup_fixnum_create" => some objectPtr
  | "pup_env_safepoint" => some .void
  | _ => none

/-- The register is set by the instruction. -/
structure Defines (g : CodegenContext) (r : Nat) (i : Instr) : Prop where
  mem : ∃ b, i ∈ g.instrs b
  result : i.result = some r

theorem Numbered.defines_unique (hF : Numbered F) {r : Nat} {i j : Instr} (h : Defines F r i)
    (h' : Defines F r j) : i = j := by
  obtain ⟨b, hi⟩ := h.mem
  obtain ⟨b', hj⟩ := h'.mem
  exact hF.unique b b' i hi j hj r h.result h'.result

theorem Defines.extends_ (h : Extends g g') {r : Nat} {i : Instr} (hdef : Defines g r i) :
    Defines g' r i :=
  ⟨hdef.mem.imp fun b hi => (h b).subset hi, hdef.result⟩

theorem defines_emitNew {b : Nat} (hb : b < g.blocks.length) {i : Nat → Instr}
    (hi : (i g.next).result = some g.next) : Defines (g.emitNew b i) g.next (i g.next) := by
  refine ⟨⟨b, ?_⟩, hi⟩
  rw [show (g.emitNew b i).instrs b = g.instrs b ++ [i g.next] from
    CodegenContext.emitAt_instrs_self hb _]
  exact List.mem_append_right _ (.head _)

mutual

/-- The type of an operand.  A null pointer by itself is one to an object: the arguments of
calls are not looked at. -/
inductive HasType (F : CodegenContext) : Operand → Ty → Prop
  | paramTarget : HasType F .paramTarget objectPtr
  | paramArgv : HasType F .paramArgv (.pointer objectPtr)
  | null : HasType F .null objectPtr
  | reg {r : Nat} {i : Instr} {t : Ty} (h : Defines F r i) (ht : ResultType F i t) :
      HasType F (.reg r) t

/-- The type of the result of an instruction. -/
inductive ResultType (F : CodegenContext) : Instr → Ty → Prop
  | alloca {r : Nat} : ResultType F (.alloca r) (.pointer objectPtr)
  | arrayAlloca {r count : Nat} : ResultType F (.arrayAlloca r count) (.pointer objectPtr)
  | slotCast {r : Nat} {v : Operand} (hv : HasType F v (.pointer objectPtr)) :
      ResultType F (.bitCast r v) (.pointer (.pointer .int8))
  | classCast {r : Nat} {v : Operand} (hv : HasType F v (.pointer .class_)) :
      ResultType F (.bitCast r v) objectPtr
  | load {r : Nat} {ptr : Operand} {t : Ty} (hptr : HasType F ptr (.pointer t)) :
      ResultType F (.load r ptr) t
  | gep {r i : Nat} {ptr : Operand} {t : Ty} (hptr : HasType F ptr (.pointer t)) :
      ResultType F (.gep r ptr i) (.pointer t)
  /-- the class of an object -/
  | structGep {r : Nat} {ptr : Operand} (hptr : HasType F ptr objectPtr) :
      ResultType F (.structGep r ptr 0) (.pointer (.pointer .class_))
  | icmpEq {r : Nat} {a b : Operand} : ResultType F (.icmpEq r a b) .int1
  | call {r : Nat} {fn : String} {args : List Operand} {t : Ty} (ht : returnType fn = some t) :
      ResultType F (.call r fn args) t
  | invoke {r normal exception : Nat} {fn : String} {args : List Operand} {t : Ty}
      (ht : returnType fn = some t) : ResultType F (.invoke r fn args normal exception) t

end

/-- What is stored fits the slot, and what is returned is a pointer to an object. -/
def Instr.WellTyped (F : CodegenContext) : Instr → Prop
  | .store v ptr => ∃ t, HasType F v t ∧ HasType F ptr (.pointer t)
  | .ret v => HasType F v objectPtr
  | _ => True

/-- **An operand has at most one type**, and so has the result of an instruction. -/
theorem HasType.unique (hF : Numbered F) {v : Operand} {t t' : Ty} (h : HasType F v t)
    (h' : HasType F v t') : t = t' := by
  revert t'
  refine @HasType.rec F (fun v t _ => ∀ {t' : Ty}, HasType F v t' → t = t')
    (fun i t _ => ∀ {t' : Ty}, ResultType F i t' → t = t')
    ?target ?argv ?null ?reg ?alloca ?arrayAlloca ?slotCast ?classCast ?load ?gep ?structGep
    ?icmpEq ?call ?invoke v t h
  case reg =>
    intro r i t hdef ht ih t' h'
    cases h' with
    | reg hdef' ht' =>
        obtain rfl := hF.defines_unique hdef hdef'
        exact ih ht'
  case slotCast =>
    intro r v hv ih t' h'
    cases h' with
    | slotCast hv' => rfl
    | classCast hv' => cases ih hv'
  case classCast =>
    intro r v hv ih t' h'
    cases h' with
    | slotCast hv' => cases ih hv'
    | classCast hv' => rfl
  case load =>
    intro r ptr t hptr ih t' h'
    cases h' with
    | load hptr' => exact Ty.pointer.inj (ih hptr')
  case gep =>
    intro r i ptr t hptr ih t' h'
    cases h' with
    | gep hptr' => exact ih hptr'
  case call =>
    intro r fn args t ht t' h'
    cases h' with
    | call ht' => exact Option.some.inj (ht.symm.trans ht')
  case invoke =>
    intro r normal exception fn args t ht t' h'
    cases h' with
    | invoke ht' => exact Option.some.inj (ht.symm.trans ht')
  all_goals
    intros
    rename_i h'
    cases h'
    rfl

/-- A store to a slot. -/
theorem wellTyped_store_iff (hF : Numbered F) {v ptr : Operand}
    (hptr : HasType F ptr (.pointer objectPtr)) :
    (Instr.store v ptr).WellTyped F ↔ HasType F v objectPtr := by
  constructor
  · intro h
    obtain ⟨t, hv, ht⟩ := h
    obtain rfl := Ty.pointer.inj (ht.unique hF hptr)
    exact hv
  · intro hv
    exact ⟨objectPtr, hv, hptr⟩

/-! ### What the text says -/

mutual

/-- Whether an expression has no `SelfExpr`: the grammar makes none. -/
def selflessExpr : Expr → Bool
  | .assign _ _ right => selflessExpr right
  | .varOrInvoke _ args _ receiver => selflessReceiver receiver && selflessArgList args
  | .binary _ left _ right => selflessExpr left && selflessExpr right
  | .selfExpr => false
  | _ => true

def selflessReceiver : Option Expr → Bool
  | some receiver => selflessExpr receiver
  | none => true

def selflessArgList : Option (List Expr) → Bool
  | some args => selflessExprs args
  | none => true

def selflessExprs : List Expr → Bool
  | [] => true
  | e :: es => selflessExpr e && selflessExprs es

end

mutual

def selflessStmt : Stmt → Bool
  | .expr e => selflessExpr e
  | .ifStmt cond ifbk elsebk => selflessExpr cond && selflessStmts ifbk && selflessBlock elsebk
  | .whileStmt cond statements => selflessExpr cond && selflessStmts statements
  | .beginStmt beginbk rescuebks _ _ => selflessStmts beginbk && selflessRescues rescuebks
  | .classDef _ _ body => selflessBlock body
  | .methodDef _ _ body => selflessBlock body

def selflessStmts : List Stmt → Bool
  | [] => true
  | s :: ss => selflessStmt s && selflessStmts ss

def selflessBlock : Option (List Stmt) → Bool
  | some statements => selflessStmts statements
  | none => true

def selflessRescues : List RescueBlock → Bool
  | [] => true
  | .mk types _ statements :: rescuebks =>
      selflessArgList types && selflessStmts statements && selflessRescues rescuebks

end

/-- A class definition or a method definition. -/
def isDefinition : Stmt → Bool
  | .classDef .. => true
  | .methodDef .. => true
  | _ => false

/-- Whether a list of statements ends with a definition. -/
def endsInDefinition : List Stmt → Bool
  | [] => false
  | [s] => isDefinition s
  | _ :: ss => endsInDefinition ss

mutual

/-- Whether no definition is last where the value of the statements is stored or returned. -/
def valuedStmt : Stmt → Bool
  | .expr _ => true
  | .ifStmt _ ifbk elsebk => valuedStmts ifbk && !endsInDefinition ifbk && valuedElse elsebk
  | .whileStmt _ statements => valuedStmts statements && !endsInDefinition statements
  | .beginStmt beginbk rescuebks _ _ =>
      valuedStmts beginbk && !endsInDefinition beginbk && valuedRescues rescuebks
  | .classDef _ _ body => valuedBody body
  | .methodDef _ _ body => valuedElse body

def valuedStmts : List Stmt → Bool
  | [] => true
  | s :: ss => valuedStmt s && valuedStmts ss

/-- Statements whose value is used, if there are any. -/
def valuedElse : Option (List Stmt) → Bool
  | some statements => valuedStmts statements && !endsInDefinition statements
  | none => true

/-- The body of a class, whose value is not used. -/
def valuedBody : Option (List Stmt) → Bool
  | some statements => valuedStmts statements
  | none => true

def valuedRescues : List RescueBlock → Bool
  | [] => true
  | .mk _ _ statements :: rescuebks =>
      valuedStmts statements && !endsInDefinition statements && valuedRescues rescuebks

end

/-! ### Pieces -/

/-- The locals of the current method have slots. -/
def LocalsTyped (g : CodegenContext) : Prop :=
  ∀ p ∈ g.current_method.locals, Defines g p.2 (.alloca p.2)

theorem LocalsTyped.grow (hlocals : LocalsTyped g) (hg : WellFormed g) (h : Grow g g') :
    LocalsTyped g' := by
  intro p hp
  obtain ⟨new, hnew⟩ := h.locals
  rw [hnew.locals] at hp
  rcases List.mem_append.mp hp with hp | hp
  · obtain ⟨e, -, he⟩ := hg.entry
    exact ⟨⟨e, hnew.alloca p hp e he⟩, rfl⟩
  · exact (hlocals p hp).extends_ h.longer

/-- What `m` adds to a program is well typed, and its result satisfies `Q`, both under the
condition `w` on what `m` was given. -/
structure Typed (F : CodegenContext) (w : Prop) (m : Gen α) (Q : α → Prop) : Prop where
  grows : Grows m
  types : w → ∀ g a g', WellFormed g → LocalsTyped g → m g = .ok (a, g') → Extends g' F →
    Adds (·.WellTyped F) true g g' ∧ Q a

variable {w w' : Prop} {Q Q' : α → Prop}

theorem Typed.imp {m : Gen α} (h : Typed F w m Q) (hpre : w' → w)
    (hQ : ∀ a, Q a → Q' a) : Typed F w' m Q' where
  grows := h.grows
  types hpre' g a g' hg hlocals hrun hF :=
    (h.types (hpre hpre') g a g' hg hlocals hrun hF).imp_right (hQ a)

theorem Typed.bind {x : Gen α} {f : α → Gen β} {Q' : β → Prop} (hx : Typed F w x Q)
    (hf : ∀ a, Typed F (w ∧ Q a) (f a) Q') : Typed F w (x >>= f) Q' where
  grows := stable_grow.bind hx.grows fun a => (hf a).grows
  types hpre g b g' hg hlocals h hF := by
    obtain ⟨a, g₁, h₁, h₂⟩ := bind_ok.mp h
    have hgrow := hx.grows g a g₁ hg h₁
    have hgrow' := (hf a).grows g₁ b g' hgrow.wellFormed h₂
    have hF₁ : Extends g₁ F := fun c => (hgrow'.longer c).trans (hF c)
    obtain ⟨hadds, hQ⟩ := hx.types hpre g a g₁ hg hlocals h₁ hF₁
    obtain ⟨hadds', hQ'⟩ := (hf a).types ⟨hpre, hQ⟩ g₁ b g' hgrow.wellFormed
      (hlocals.grow hg hgrow) h₂ hF
    exact ⟨hadds.run hadds', hQ'⟩

/-- A piece whose result does not matter, and then another one. -/
theorem Typed.andThen {x : Gen α} {f : α → Gen β} {Q' : β → Prop} (hx : Typed F w x Q)
    (hf : ∀ a, Typed F w (f a) Q') : Typed F w (x >>= f) Q' :=
  hx.bind fun a => (hf a).imp And.left fun _ => id

theorem typed_throw (e : Error) : Typed F w (throw e : Gen α) Q where
  grows := does_throw e
  types _ _ _ _ _ _ h := absurd h throw_ok

theorem typed_pure {a : α} (h : w → Q a) : Typed F w (pure a) Q where
  grows := stable_grow.pure a
  types hpre g b g' _ _ hrun _ := by
    obtain ⟨rfl, rfl⟩ := pure_ok.mp hrun
    exact ⟨.refl _, h hpre⟩

theorem typed_get : Typed F w (get : Gen CodegenContext) fun _ => True where
  grows := stable_grow.get
  types _ g a g' _ _ hrun _ := by
    obtain ⟨-, rfl⟩ := get_ok.mp hrun
    exact ⟨.refl _, trivial⟩

theorem typed_emit {i : Instr} (hi : w → i.WellTyped F) (hr : i.result = none) :
    Typed F w (emit i) fun _ => True where
  grows g u g' hg h := by
    obtain rfl := emit_ok.mp h
    exact (Grow.refl hg).emitHere hr
  types hpre g u g' _ _ h _ := by
    obtain rfl := emit_ok.mp h
    exact ⟨(Adds.refl g).emitAt g.build (hi hpre), trivial⟩

theorem typed_emitReg {i : Nat → Instr} {Q : Operand → Prop} (hi : ∀ r, (i r).WellTyped F)
    (hr : ∀ r, (i r).result = some r) (hQ : w → ∀ r, Defines F r (i r) → Q (.reg r)) :
    Typed F w (emitReg i) Q where
  grows g v g' hg h := by
    obtain ⟨-, rfl⟩ := emitReg_ok.mp h
    exact (Grow.refl hg).emitNewHere hr
  types hpre g v g' hg _ h hF := by
    obtain ⟨rfl, rfl⟩ := emitReg_ok.mp h
    exact ⟨(Adds.refl g).emitNew g.build hi,
      hQ hpre _ ((defines_emitNew hg.build_lt (hr g.next)).extends_ hF)⟩

theorem typed_buildCall {fn : String} {t : Ty} (ht : returnType fn = some t)
    (args : List Operand) : Typed F w (buildCall fn args) fun v => HasType F v t :=
  typed_emitReg (fun _ => trivial) (fun _ => rfl) fun _ _ hdef => .reg hdef (.call ht)

theorem typed_mkSym (name : String) : Typed F w (mkSym name) fun _ => True :=
  (typed_buildCall rfl _).imp id fun _ _ => trivial

theorem typed_getLocal (name : String) : Typed F w (getLocal name) fun found =>
    ∀ v, found = some v → HasType F v (.pointer objectPtr) where
  grows := stable_grow.getLocal name
  types _ g found g' _ hlocals h hF := by
    obtain ⟨rfl, rfl⟩ := Prod.mk.inj (Except.ok.inj h)
    refine ⟨.refl _, fun v hv => ?_⟩
    obtain ⟨r, hr, rfl⟩ := Option.map_eq_some_iff.mp hv
    exact .reg ((hlocals _ (mem_of_lookup hr)).extends_ hF) .alloca

theorem typed_getOrCreateLocal (name : String) : Typed F w (getOrCreateLocal name) fun v =>
    HasType F v (.pointer objectPtr) where
  grows := stableExpr_grow.getOrCreateLocal name
  types _ g v g' hg hlocals h hF := by
    rw [getOrCreateLocal, bind_ok] at h
    obtain ⟨found, _, hget, h⟩ := h
    obtain ⟨rfl, rfl⟩ := Prod.mk.inj (Except.ok.inj hget)
    cases hlookup : g.current_method.locals.lookup name with
    | some slot =>
        rw [hlookup] at h
        obtain ⟨rfl, rfl⟩ := pure_ok.mp h
        have hdef := hlocals _ (mem_of_lookup hlookup)
        exact ⟨.refl _, .reg (hdef.extends_ hF) .alloca⟩
    | none =>
        rw [hlookup] at h
        obtain ⟨e, he, rfl, rfl⟩ := createLocal_ok hg h
        have hlt : e < g.blocks.length := CodegenContext.lt_of_fnOf (entry_iff.mp he).1
        have hslot := (((Adds.refl (p := (·.WellTyped F)) g).emitNew e (i := .alloca)
          fun _ => trivial).emitNew e (i := fun c => .bitCast c (.reg g.next))
            fun _ => trivial).emitNew e
              (i := fun c => .call c "llvm.gcroot" [.reg (g.next + 1), .null]) fun _ => trivial
        have hlonger := ((Longer.refl (g.emitNew e .alloca)).emitNew e
          fun c => .bitCast c (.reg g.next)).emitNew e
            fun c => .call c "llvm.gcroot" [.reg (g.next + 1), .null]
        have hdef := (defines_emitNew hlt (i := .alloca) rfl).extends_
          (Extends.trans hlonger.longer hF)
        exact ⟨⟨hslot.extends_, hslot.all⟩, .reg hdef .alloca⟩

theorem typed_storeArgs {argv : Operand} (hargv : w → HasType F argv (.pointer objectPtr))
    (args : List Operand) (hargs : w → ∀ v ∈ args, HasType F v objectPtr) :
    ∀ i, Typed F w (storeArgs argv i args) fun _ => True := by
  induction args with
  | nil => exact fun _ => typed_pure fun _ => trivial
  | cons arg args ih =>
      intro i
      have harg := fun hpre => (List.forall_mem_cons.mp (hargs hpre)).1
      have hrest := fun hpre => (List.forall_mem_cons.mp (hargs hpre)).2
      have helement : Typed F w (emitReg fun r => .gep r argv i) fun v =>
          HasType F v (.pointer objectPtr) :=
        typed_emitReg (fun _ => trivial) (fun _ => rfl) fun hpre _ hdef =>
          .reg hdef (.gep (hargv hpre))
      refine helement.bind fun element => ?_
      have hstore : Typed F (w ∧ HasType F element (.pointer objectPtr))
          (emit (.store arg element)) fun _ => True :=
        typed_emit (fun h => ⟨objectPtr, harg h.1, h.2⟩) rfl
      exact hstore.andThen fun _ => (ih hrest (i + 1)).imp And.left fun _ => id

/-- The argument array is stored to in order. -/
theorem typed_buildArgv (args : List Operand) (hargs : w → ∀ v ∈ args, HasType F v objectPtr) :
    Typed F w (buildArgv args) fun _ => True where
  grows := stable_grow.buildArgv args
  types hpre g v g' hg hlocals h hF := by
    unfold buildArgv at h
    split at h
    · obtain ⟨-, rfl⟩ := pure_ok.mp h
      exact ⟨.refl _, trivial⟩
    · simp only [bind_ok, emitRegAt_ok, pure_ok] at h
      obtain ⟨e, _, he, r, _, ⟨rfl, rfl⟩, u, _, hstore, rfl, rfl⟩ := h
      obtain ⟨he, rfl⟩ := entryBlockBuilder_ok hg he
      have hlt : e < _ := CodegenContext.lt_of_fnOf (entry_iff.mp he).1
      have halloca := stable_grow.emitNewEntry hg he (i := fun r => .arrayAlloca r args.length)
        (fun _ => rfl) fun _ => rfl
      have hgrow := stable_grow.storeArgs _ _ _ _ _ _ halloca.wellFormed hstore
      have hdef := ((defines_emitNew hlt (i := fun r => .arrayAlloca r args.length) rfl).extends_
        hgrow.longer).extends_ hF
      have hstores := typed_storeArgs (F := F) (fun _ : True => .reg hdef .arrayAlloca) args
        (fun _ => hargs hpre) 0
      obtain ⟨hadds, -⟩ := hstores.types trivial _ _ _ halloca.wellFormed
        (hlocals.grow hg halloca) hstore hF
      exact ⟨((Adds.refl _).emitNew e fun _ => trivial).run hadds, trivial⟩

theorem typed_buildMethodInvocation (receiver : Operand) (name : String) (args : List Operand)
    (hargs : w → ∀ v ∈ args, HasType F v objectPtr) :
    Typed F w (buildMethodInvocation receiver name args) fun v => HasType F v objectPtr := by
  refine (typed_buildArgv args hargs).andThen fun argv => (typed_mkSym name).andThen fun sym =>
    typed_get.andThen fun g₀ => ?_
  cases g₀.landingpad with
  | none => exact typed_buildCall rfl _
  | some pad =>
      constructor
      · intro g v g' hg h
        simp only [bind_ok, appendBlock_ok, emitReg_ok, positionAtEnd_ok, pure_ok] at h
        obtain ⟨b, _, ⟨rfl, rfl⟩, res, _, ⟨rfl, rfl⟩, u, _, rfl, rfl, rfl⟩ := h
        exact grow_invoked hg _ fun _ => rfl
      · intro _ g v g' hg _ h hF
        simp only [bind_ok, appendBlock_ok, emitReg_ok, positionAtEnd_ok, pure_ok] at h
        obtain ⟨b, _, ⟨rfl, rfl⟩, res, _, ⟨rfl, rfl⟩, u, _, rfl, rfl, rfl⟩ := h
        have hlt : g.build < (g.append s!"invoke_{name}_continue").blocks.length := by
          rw [CodegenContext.append_length]
          exact Nat.lt_succ_of_lt hg.build_lt
        have hadds := ((Adds.refl (p := (·.WellTyped F)) g).append
          s!"invoke_{name}_continue").emitNew g.build (i := fun r => .invoke r "pup_invoke"
            [.env, receiver, sym, .int args.length, argv] g.blocks.length pad) fun _ => trivial
        have hdef := defines_emitNew hlt (i := fun r => .invoke r "pup_invoke"
          [.env, receiver, sym, .int args.length, argv] g.blocks.length pad) rfl
        have hF' : Extends ((g.append s!"invoke_{name}_continue").emitNew g.build fun r =>
            .invoke r "pup_invoke" [.env, receiver, sym, .int args.length, argv]
              g.blocks.length pad) F := hF
        exact ⟨hadds.moveTo g.blocks.length, .reg (hdef.extends_ hF') (.invoke rfl)⟩

theorem typed_codegenBinary (class_ : BinaryClass) (op : String) (lhs rhs : Operand)
    (hrhs : w → HasType F rhs objectPtr) :
    Typed F w (codegenBinary class_ op lhs rhs) fun v => HasType F v objectPtr := by
  unfold codegenBinary
  split
  · exact typed_buildMethodInvocation _ _ _ fun hpre => by simpa using hrhs hpre
  · exact typed_throw _

theorem typed_constAccess (name : String) :
    Typed F w (constAccess name) fun v => HasType F v objectPtr :=
  typed_get.andThen fun _ => (typed_buildCall (t := .pointer .class_) rfl _).andThen fun _ =>
    (typed_mkSym name).andThen fun _ => typed_buildCall rfl _

theorem typed_isLocal (name : String) (args : Option (List Expr)) (receiver : Option Expr) :
    Typed F w (isLocal name args receiver) fun _ => True where
  grows := stable_grow.isLocal name args receiver
  types _ g found g' _ _ h _ := by
    obtain ⟨-, rfl⟩ := Prod.mk.inj (Except.ok.inj h)
    exact ⟨.refl _, trivial⟩

theorem typed_localAccess (name : String) :
    Typed F w (localAccess name) fun v => HasType F v objectPtr := by
  refine (typed_getLocal name).bind fun found => ?_
  cases found with
  | some localSlot =>
      exact typed_emitReg (fun _ => trivial) (fun _ => rfl) fun hpre _ hdef =>
        .reg hdef (.load (hpre.2 localSlot rfl))
  | none => exact typed_throw _

/-- The parameters are copied from the argument array. -/
theorem typed_codegenArgs (params : List Param) :
    ∀ i, Typed F w (codegenArgs i params) fun _ => True := by
  induction params generalizing w with
  | nil => exact fun _ => typed_pure fun _ => trivial
  | cons param params ih =>
      intro i
      obtain ⟨name, init⟩ := param
      refine (typed_getOrCreateLocal name).bind fun var => ?_
      have hargp : Typed F (w ∧ HasType F var (.pointer objectPtr))
          (emitReg fun r => .gep r .paramArgv i) fun v => HasType F v (.pointer objectPtr) :=
        typed_emitReg (fun _ => trivial) (fun _ => rfl) fun _ _ hdef => .reg hdef (.gep .paramArgv)
      refine hargp.bind fun argp => ?_
      have harg : Typed F ((w ∧ HasType F var (.pointer objectPtr)) ∧
          HasType F argp (.pointer objectPtr)) (emitReg fun r => .load r argp)
          fun v => HasType F v objectPtr :=
        typed_emitReg (fun _ => trivial) (fun _ => rfl) fun hpre _ hdef => .reg hdef (.load hpre.2)
      refine harg.bind fun arg => ?_
      have hstore : Typed F (((w ∧ HasType F var (.pointer objectPtr)) ∧
          HasType F argp (.pointer objectPtr)) ∧ HasType F arg objectPtr)
          (emit (.store arg var)) fun _ => True :=
        typed_emit (fun hpre => ⟨objectPtr, hpre.2, hpre.1.1.2⟩) rfl
      exact hstore.andThen fun _ => ih (i + 1)

/-! ### Expressions -/

mutual

/-- **An expression is a pointer to an object**, and all that it stores is one. -/
theorem typed_codegenExpr {w : Prop} : (e : Expr) → selflessExpr e = true →
    Typed F w (codegenExpr e) fun v => HasType F v objectPtr
  | .assign (.name name) _ right, hself => by
      rw [selflessExpr] at hself
      rw [codegenExpr]
      refine (typed_getOrCreateLocal name).bind fun lhs => (typed_codegenExpr right hself).bind
        fun rhs => ?_
      have hstore : Typed F ((w ∧ HasType F lhs (.pointer objectPtr)) ∧ HasType F rhs objectPtr)
          (emit (.store rhs lhs)) fun _ => True :=
        typed_emit (fun hpre => ⟨objectPtr, hpre.2, hpre.1.2⟩) rfl
      exact hstore.andThen fun _ => typed_pure And.right
  | .assign (.instVar name) _ right, hself => by
      rw [selflessExpr] at hself
      rw [codegenExpr]
      exact (typed_codegenExpr right hself).bind fun rhs => (typed_mkSym name).andThen fun _ =>
        typed_get.andThen fun _ => (typed_buildCall (t := .void) rfl _).andThen fun _ =>
          typed_pure And.right
  | .varOrInvoke name args _ receiver, hself => by
      rw [selflessExpr, Bool.and_eq_true] at hself
      rw [codegenExpr]
      have hargs := typed_codegenArgList (w := w) args hself.2
      split
      · exact typed_constAccess _
      · refine (typed_isLocal _ _ _).andThen fun found => ?_
        split
        · exact typed_localAccess _
        · exact (typed_codegenReceiver receiver hself.1).andThen fun _ => hargs.bind fun vs =>
            typed_buildMethodInvocation _ _ _ And.right
  | .instVar name, _ => by
      rw [codegenExpr]
      exact (typed_mkSym name).andThen fun _ => typed_get.andThen fun _ => typed_buildCall rfl _
  | .binary class_ left op right, hself => by
      rw [selflessExpr, Bool.and_eq_true] at hself
      rw [codegenExpr]
      exact (typed_codegenExpr left hself.1).andThen fun _ =>
        (typed_codegenExpr right hself.2).bind fun _ => typed_codegenBinary _ _ _ _ And.right
  | .string source, _ => by
      rw [codegenExpr]
      exact typed_buildCall rfl _
  | .int source, _ => by
      rw [codegenExpr]
      exact typed_buildCall rfl _
  | .bool true, _ => by
      rw [codegenExpr]
      exact typed_buildCall rfl _
  | .bool false, _ => by
      rw [codegenExpr]
      exact typed_buildCall rfl _
  | .selfExpr, hself => by
      rw [selflessExpr] at hself
      cases hself

/-- A receiver need not be an object: in the body of a class it is the class. -/
theorem typed_codegenReceiver {w : Prop} : (receiver : Option Expr) →
    selflessReceiver receiver = true → Typed F w (codegenReceiver receiver) fun _ => True
  | some receiver, hself => by
      rw [selflessReceiver] at hself
      rw [codegenReceiver]
      exact (typed_codegenExpr receiver hself).imp id fun _ _ => trivial
  | none, _ => by
      rw [codegenReceiver]
      exact typed_get.andThen fun _ => typed_pure fun _ => trivial

theorem typed_codegenArgList {w : Prop} : (args : Option (List Expr)) → selflessArgList args = true →
    Typed F w (codegenArgList args) fun vs => ∀ v ∈ vs, HasType F v objectPtr
  | some args, hself => by
      rw [selflessArgList] at hself
      rw [codegenArgList]
      exact typed_codegenExprs args hself
  | none, _ => by
      rw [codegenArgList]
      exact typed_pure fun _ => nofun

theorem typed_codegenExprs {w : Prop} : (es : List Expr) → selflessExprs es = true →
    Typed F w (codegenExprs es) fun vs => ∀ v ∈ vs, HasType F v objectPtr
  | [], _ => by
      rw [codegenExprs]
      exact typed_pure fun _ => nofun
  | e :: es, hself => by
      rw [selflessExprs, Bool.and_eq_true] at hself
      rw [codegenExprs]
      exact (typed_codegenExpr e hself.1).bind fun _ => (typed_codegenExprs es hself.2).bind
        fun _ => typed_pure fun hpre => List.forall_mem_cons.mpr ⟨hpre.1.2, hpre.2⟩

end

/-! ### Statements -/

/-- What a statement adds is well typed just when `ok` says so, and its value is a pointer to an
object just when `value` says so. -/
def TypesOf (F : CodegenContext) (m : Gen α) (ok : Bool) (Q : α → Prop) : Prop :=
  ∀ g a g', WellFormed g → LocalsTyped g → m g = .ok (a, g') → Extends g' F →
    Adds (·.WellTyped F) ok g g' ∧ Q a

/-- Whether the value of a list of statements is a pointer to an object. -/
def IsValue (F : CodegenContext) (isValue : Bool) (value : Option Operand) : Prop :=
  ∀ v, value = some v → (HasType F v objectPtr ↔ isValue = true)

variable {ok ok' isValue isValue' : Bool}

theorem Adds.ifBlocks (h : Adds (·.WellTyped F) ok g₀ g) :
    Adds (·.WellTyped F) ok g₀ g.ifBlocks :=
  ((((h.append "cond").emitAt g.build (i := .br g.blocks.length) trivial).append "then").append
    "else").append "ifcontinue"

theorem Adds.whileBlocks (h : Adds (·.WellTyped F) ok g₀ g) :
    Adds (·.WellTyped F) ok g₀ g.whileBlocks :=
  (((h.append "while_cond").emitAt g.build (i := .br g.blocks.length) trivial).append
    "while_body").append "while_continue"

theorem Adds.branched (h : Adds (·.WellTyped F) ok g₀ g) (val : Operand)
    (ifFalse otherwise : Nat) :
    Adds (·.WellTyped F) ok g₀ (g.branched val ifFalse otherwise) :=
  ((h.emitNew g.build (i := fun r => .call r "pup_env_get_falseinstance" [.env])
    fun _ => trivial).emitNew g.build (i := fun r => .icmpEq r val (.reg g.next))
      fun _ => trivial).emitAt g.build trivial

section Slot

variable {result v : Operand}

/-- A value is stored to a slot for a pointer to an object. -/
theorem Adds.storeValue (h : Adds (·.WellTyped F) ok g₀ g) (hF : Numbered F)
    (hg : WellFormed g) (hresult : HasType F result (.pointer objectPtr))
    (hv : HasType F v objectPtr ↔ isValue = true) :
    Adds (·.WellTyped F) (ok && isValue) g₀ (g.emitAt g.build (.store v result)) :=
  h.emit hg.build_lt ((wellTyped_store_iff hF hresult).trans hv)

theorem Adds.leaving (h : Adds (·.WellTyped F) ok g₀ g) (hF : Numbered F)
    (hg : WellFormed g) (hresult : HasType F result (.pointer objectPtr))
    (hv : HasType F v objectPtr ↔ isValue = true) (b : Nat) :
    Adds (·.WellTyped F) (ok && isValue) g₀ (g.leaving v result b) :=
  (h.storeValue hF hg hresult hv).emitAt g.build trivial

theorem Adds.looped (h : Adds (·.WellTyped F) ok g₀ g) (hF : Numbered F)
    (hg : WellFormed g) (hresult : HasType F result (.pointer objectPtr))
    (hv : HasType F v objectPtr ↔ isValue = true) (b : Nat) :
    Adds (·.WellTyped F) (ok && isValue) g₀ (g.looped v result b) :=
  ((h.storeValue hF hg hresult hv).emitNew g.build
    (i := fun r => .call r "pup_env_safepoint" [.env]) fun _ => trivial).emitAt g.build trivial

end Slot

section Steps

variable {result v : Operand} {cond : Expr}

/-- The value of an `if` or of a `while` is loaded from its slot. -/
theorem hasType_loaded (hresult : HasType F result (.pointer objectPtr)) {b : Nat}
    (hb : b < g.blocks.length) (hF : Extends (g.emitNew b fun r => .load r result) F) :
    HasType F (.reg g.next) objectPtr :=
  .reg ((defines_emitNew hb (i := fun r => .load r result) rfl).extends_ hF) (.load hresult)

theorem IfSteps.typed {ifbk elsebk : List Stmt} (hF : Numbered F)
    (steps : IfSteps g result cond ifbk elsebk v g') (hg : WellFormed g)
    (hlocals : LocalsTyped g) (hresult : HasType F result (.pointer objectPtr))
    (hself : selflessExpr cond = true) (hext : Extends g' F)
    (hif : TypesOf F (codegenStmts ifbk) ok (IsValue F isValue))
    (helse : TypesOf F (codegenStmts elsebk) ok' (IsValue F isValue')) :
    Adds (·.WellTyped F) (ok && isValue && (ok' && isValue')) g g' ∧ HasType F v objectPtr := by
  have hframe := Frame.start hg
  have hcond := hframe.atIfCond
  have hif' := steps.atIf hframe
  have helse' := steps.atElse hframe (grows_codegenStmts ifbk)
  -- what comes after each part
  have hext₃ : Extends steps.g₃ F := by
    rw [steps.last] at hext
    exact Extends.trans (((longer_leaving steps.velse result (g.blocks.length + 3)).moveTo
      (g.blocks.length + 3)).emitNew (g.blocks.length + 3) fun r => .load r result).longer hext
  have hgrow₃ := grows_codegenStmts elsebk _ _ _ helse'.grow.wellFormed steps.elsebk
  have hext₂ : Extends steps.g₂ F := Extends.trans
    (longer_leaving steps.vthen result (g.blocks.length + 3)).longer
    (Extends.trans hgrow₃.longer hext₃)
  have hgrow₂ := grows_codegenStmts ifbk _ _ _ hif'.grow.wellFormed steps.ifbk
  have hext₁ : Extends steps.g₁ F := Extends.trans (longer_branched steps.val
    (g.blocks.length + 2) (g.blocks.length + 1)).longer (Extends.trans hgrow₂.longer hext₂)
  -- the parts
  obtain ⟨h₁, -⟩ := (typed_codegenExpr (w := True) cond hself).types trivial _ _ _
    hcond.grow.wellFormed (hlocals.grow hg hcond.grow) steps.cond hext₁
  obtain ⟨h₂, hvthen⟩ := hif _ _ _ hif'.grow.wellFormed (hlocals.grow hg hif'.grow) steps.ifbk hext₂
  obtain ⟨h₃, hvelse⟩ := helse _ _ _ helse'.grow.wellFormed (hlocals.grow hg helse'.grow)
    steps.elsebk hext₃
  have hall₁ := (((Adds.refl g).ifBlocks.moveTo g.blocks.length).trans h₁).branched steps.val
    (g.blocks.length + 2) (g.blocks.length + 1)
  have hall₂ := ((hall₁.moveTo (g.blocks.length + 1)).trans h₂).leaving hF hgrow₂.wellFormed
    hresult (hvthen _ rfl) (g.blocks.length + 3)
  have hall₃ := ((hall₂.moveTo (g.blocks.length + 2)).trans h₃).leaving hF hgrow₃.wellFormed
    hresult (hvelse _ rfl) (g.blocks.length + 3)
  have hlast := (hall₃.moveTo (g.blocks.length + 3)).emitNew (g.blocks.length + 3)
    (i := fun r => .load r result) fun _ => trivial
  have hleft := ((helse'.run fun hg => grows_codegenStmts elsebk _ _ _ hg steps.elsebk).run
    fun hg => grow_leaving hg steps.velse result (g.blocks.length + 3)).moveTo
      (b := g.blocks.length + 3) (by simp)
  rw [steps.last] at hext
  constructor
  · rw [steps.last]
    simpa [Bool.and_assoc] using hlast
  · rw [steps.value]
    exact hasType_loaded (g := (steps.g₃.leaving steps.velse result (g.blocks.length + 3)).moveTo
      (g.blocks.length + 3)) hresult hleft.grow.wellFormed.build_lt hext

theorem WhileSteps.typed {statements : List Stmt} (hF : Numbered F)
    (steps : WhileSteps g result cond statements v g') (hg : WellFormed g)
    (hlocals : LocalsTyped g) (hresult : HasType F result (.pointer objectPtr))
    (hself : selflessExpr cond = true) (hext : Extends g' F)
    (hbody : TypesOf F (codegenStmts statements) ok (IsValue F isValue)) :
    Adds (·.WellTyped F) (ok && isValue) g g' ∧ HasType F v objectPtr := by
  have hframe := Frame.start hg
  have hcond := hframe.atWhileCond
  have hbody' := steps.atBody hframe
  rw [steps.last] at hext
  have hext₂ : Extends steps.g₂ F := Extends.trans
    (((longer_looped steps.vbody result g.blocks.length).moveTo (g.blocks.length + 2)).emitNew
      (g.blocks.length + 2) fun r => .load r result).longer hext
  have hgrow₂ := grows_codegenStmts statements _ _ _ hbody'.grow.wellFormed steps.body
  have hext₁ : Extends steps.g₁ F := Extends.trans (longer_branched steps.val
    (g.blocks.length + 2) (g.blocks.length + 1)).longer (Extends.trans hgrow₂.longer hext₂)
  obtain ⟨h₁, -⟩ := (typed_codegenExpr (w := True) cond hself).types trivial _ _ _
    hcond.grow.wellFormed (hlocals.grow hg hcond.grow) steps.cond hext₁
  obtain ⟨h₂, hvbody⟩ := hbody _ _ _ hbody'.grow.wellFormed (hlocals.grow hg hbody'.grow)
    steps.body hext₂
  have hall₁ := (((Adds.refl g).whileBlocks.moveTo g.blocks.length).trans h₁).branched steps.val
    (g.blocks.length + 2) (g.blocks.length + 1)
  have hall₂ := ((hall₁.moveTo (g.blocks.length + 1)).trans h₂).looped hF hgrow₂.wellFormed
    hresult (hvbody _ rfl) g.blocks.length
  have hlast := (hall₂.moveTo (g.blocks.length + 2)).emitNew (g.blocks.length + 2)
    (i := fun r => .load r result) fun _ => trivial
  have hleft := ((hbody'.run fun hg => grows_codegenStmts statements _ _ _ hg steps.body).run
    fun hg => grow_looped hg steps.vbody result g.blocks.length).moveTo
      (b := g.blocks.length + 2) (by simp)
  constructor
  · rw [steps.last]
    simpa using hlast
  · rw [steps.value]
    exact hasType_loaded hresult hleft.grow.wellFormed.build_lt hext

/-- The tests of a clause. -/
theorem types_codegenTypes {asobj : Operand} {types : List Expr}
    (hself : selflessExprs types = true) :
    TypesOf F (codegenTypes asobj types) true fun _ => True := by
  induction types with
  | nil =>
      intro g tests g' _ _ hrun _
      rw [codegenTypes, pure_ok] at hrun
      obtain ⟨-, rfl⟩ := hrun
      exact ⟨.refl _, trivial⟩
  | cons ex_type types ih =>
      intro g tests g' hg hlocals hrun hext
      rw [selflessExprs, Bool.and_eq_true] at hself
      obtain ⟨steps⟩ := codegenTypes_ok hrun
      have hothers := steps.atOthers (Frame.start hg)
      have hgrow := (Frame.start hothers.grow.wellFormed).codegenTypes steps.others
      have htest : Adds (·.WellTyped F) true steps.g₁ ((steps.g₁.emitNew steps.g₁.build fun r =>
          .call r "pup_is_descendant_or_same" [steps.expected, asobj]).append
            (blockNameNotMatched ex_type)) :=
        ((Adds.refl steps.g₁).emitNew steps.g₁.build (i := fun r =>
          .call r "pup_is_descendant_or_same" [steps.expected, asobj]) fun _ => trivial).append _
      have hext₁ := Extends.trans (htest.moveTo steps.g₁.blocks.length).extends_
        (Extends.trans hgrow.grow.longer hext)
      obtain ⟨htype, -⟩ := (typed_codegenExpr (w := True) ex_type hself.1).types trivial _ _ _
        hg hlocals steps.type hext₁
      obtain ⟨hrest, -⟩ := ih hself.2 _ _ _ hothers.grow.wellFormed
        (hlocals.grow hg hothers.grow) steps.others hext
      exact ⟨(htype.run (htest.moveTo steps.g₁.blocks.length)).run hrest, trivial⟩

/-- The variable of a clause is a slot, and the exception is an object. -/
theorem EnterSteps.typed {types : List Expr} {var_name : Option String} {excep asobj : Operand}
    {bkrescue next : Nat} (steps : EnterSteps g types var_name excep asobj bkrescue next g')
    (hg : WellFormed g) (hlocals : LocalsTyped g) (hself : selflessExprs types = true)
    (hexcep : HasType F excep objectPtr) (hext : Extends g' F) :
    Adds (·.WellTyped F) true g g' := by
  obtain ⟨tests, g₁, htypes, rfl, rfl, hbound⟩ := steps
  have hat := (Frame.start hg).atBound htypes
  have hjumps : Adds (·.WellTyped F) true g₁
      (((g₁.append "rescue_impl").jumpedTo g₁.blocks.length tests).moveTo g₁.blocks.length) :=
    (((Adds.refl g₁).append _).jumpedTo (fun _ _ _ => trivial) _ tests).moveTo _
  have hbind : Extends g' F → Adds (·.WellTyped F) true
      (((g₁.append "rescue_impl").jumpedTo g₁.blocks.length tests).moveTo g₁.blocks.length) g' := by
    intro hext
    cases var_name with
    | none =>
        obtain rfl := hbound
        exact .refl _
    | some name =>
        obtain ⟨slot, g₂, hslot, rfl⟩ := hbound
        have hstore := (Longer.refl g₂).emitAt g₂.build (.store excep slot)
        obtain ⟨hadds, hslot⟩ := (typed_getOrCreateLocal (w := True) name).types trivial _ _ _
          hat.grow.wellFormed (hlocals.grow hg hat.grow) hslot (Extends.trans hstore.longer hext)
        exact hadds.emitAt g₂.build ⟨objectPtr, hexcep, hslot⟩
  have hext₁ := Extends.trans hjumps.extends_ (Extends.trans (hbind hext).extends_ hext)
  obtain ⟨htests, -⟩ := types_codegenTypes hself _ _ _ hg hlocals htypes hext₁
  exact (htests.run hjumps).run (hbind hext)

/-- What the clauses of a `begin` add. -/
def TypesRescues (F : CodegenContext) (rescuebks : List RescueBlock) (ok : Bool) : Prop :=
  ∀ g result excep asobj impls g', WellFormed g → LocalsTyped g →
    HasType F result (.pointer objectPtr) → HasType F excep objectPtr →
    codegenRescues rescuebks result excep asobj g = .ok (impls, g') → Extends g' F →
    Adds (·.WellTyped F) ok g g'

theorem typesRescues_nil : TypesRescues F [] true := by
  intro g result excep asobj impls g' _ _ _ _ hrun _
  rw [codegenRescues, pure_ok] at hrun
  obtain ⟨-, rfl⟩ := hrun
  exact .refl _

theorem typesRescues_cons {types : Option (List Expr)} {var_name : Option String}
    {statements : List Stmt} {rescuebks : List RescueBlock} (hF : Numbered F)
    (hself : selflessArgList types = true)
    (hstatements : TypesOf F (codegenStmts statements) ok (IsValue F isValue))
    (hothers : TypesRescues F rescuebks ok') :
    TypesRescues F (.mk types var_name statements :: rescuebks) (ok && isValue && ok') := by
  intro g result excep asobj impls g' hg hlocals hresult hexcep hrun hext
  obtain ⟨steps⟩ := codegenRescues_ok hrun
  have hself' : selflessExprs (types.getD defaultTypes) = true := by
    cases types with
    | none => rfl
    | some types =>
        rw [selflessArgList] at hself
        exact hself
  have hat := (Frame.start hg).enterRescue steps.enter
  have hat' := steps.atOthers (Frame.start hg) (grows_codegenStmts statements)
  have hgrow := framesRescues_codegenRescues rescuebks _ _ _ _ _ _ _ _
    (Frame.start hat'.grow.wellFormed) steps.others
  have hgrow₂ := grows_codegenStmts statements _ _ _ hat.grow.wellFormed steps.statements
  have hstore := ((Longer.refl steps.g₂).emitAt steps.g₂.build (.store steps.v result)).moveTo
    steps.next
  have hext₂ := Extends.trans hstore.longer (Extends.trans hgrow.grow.longer hext)
  have henter := steps.enter.typed hg hlocals hself' hexcep (Extends.trans hgrow₂.longer hext₂)
  obtain ⟨hbody, hv⟩ := hstatements _ _ _ hat.grow.wellFormed (hlocals.grow hg hat.grow)
    steps.statements hext₂
  have hrest := hothers _ _ _ _ _ _ hat'.grow.wellFormed (hlocals.grow hg hat'.grow) hresult
    hexcep steps.others hext
  have hall := (henter.trans hbody).storeValue hF hgrow₂.wellFormed hresult (hv _ rfl)
  simpa using (hall.moveTo steps.next).trans hrest

/-- The exception of a landing pad. -/
theorem defines_excep (hb : g.build < g.blocks.length) :
    Defines g.landed (g.next + 2) (.call (g.next + 2) "extract_exception_obj" [.reg g.next]) := by
  let g₁ := (g.emitNew g.build fun r => .call r "llvm.eh.exception" []).emitNew g.build
    fun r => .call r "llvm.eh.selector" [.reg g.next, .global "pup_eh_personality",
      .global "eh_catchall"]
  have hlt : g.build < g₁.blocks.length := by
    rw [show g₁.blocks.length = _ from CodegenContext.emitAt_length _ _,
      show (g.emitNew g.build fun r => .call r "llvm.eh.exception" []).blocks.length = _ from
        CodegenContext.emitAt_length _ _]
    exact hb
  have hlonger := (((Longer.refl (g₁.emitNew g.build fun r =>
    .call r "extract_exception_obj" [.reg g.next])).emitNew g.build
      fun r => .structGep r (.reg (g.next + 2)) 0).emitNew g.build
        fun r => .load r (.reg (g.next + 3))).emitNew g.build
          fun r => .bitCast r (.reg (g.next + 4))
  exact (defines_emitNew hlt (i := fun r => .call r "extract_exception_obj" [.reg g.next])
    rfl).extends_ hlonger.longer

theorem Adds.landed (h : Adds (·.WellTyped F) ok g₀ g) : Adds (·.WellTyped F) ok g₀ g.landed :=
  (((((h.emitNew g.build (i := fun r => .call r "llvm.eh.exception" []) fun _ => trivial).emitNew
    g.build (i := fun r => .call r "llvm.eh.selector" [.reg g.next,
      .global "pup_eh_personality", .global "eh_catchall"]) fun _ => trivial).emitNew
    g.build (i := fun r => .call r "extract_exception_obj" [.reg g.next]) fun _ => trivial).emitNew
    g.build (i := fun r => .structGep r (.reg (g.next + 2)) 0) fun _ => trivial).emitNew
    g.build (i := fun r => .load r (.reg (g.next + 3))) fun _ => trivial).emitNew
    g.build (i := fun r => .bitCast r (.reg (g.next + 4))) fun _ => trivial

theorem Adds.rethrown (h : Adds (·.WellTyped F) ok g₀ g) (dwarf_ex : Operand) :
    Adds (·.WellTyped F) ok g₀ (g.rethrown dwarf_ex) :=
  (h.emitNew g.build (i := fun r => .call r "pup_rethrow_uncaught_exception" [dwarf_ex])
    fun _ => trivial).emitAt g.build .null

/-- After a `begin`, and the value that is loaded there. -/
theorem Adds.afterBegin (h : Adds (·.WellTyped F) ok g₀ g)
    (hresult : HasType F result (.pointer objectPtr)) {b : Nat} {impls : List Nat}
    (hext : Extends (g.afterBegin b impls result) F) :
    Adds (·.WellTyped F) ok g₀ (g.afterBegin b impls result) ∧ HasType F (.reg g.next) objectPtr := by
  let left := (((g.append "after_beginblock").jumpedOut g.blocks.length impls).moveTo b).emitAt b
    (.br g.blocks.length)
  have hleft : Adds (·.WellTyped F) ok g₀ left :=
    (((h.append "after_beginblock").jumpedOut (fun _ => trivial) _ impls).moveTo b).emitAt b trivial
  have hlonger := (((Longer.refl (g.append "after_beginblock")).jumpedOut g.blocks.length
    impls).moveTo b).emitAt b (.br g.blocks.length)
  have hlt : g.blocks.length < (left.moveTo g.blocks.length).blocks.length :=
    (CodegenContext.append_length _).ge.trans hlonger.length
  have hnext : (left.moveTo g.blocks.length).next = g.next := CodegenContext.jumpedOut_next ..
  constructor
  · exact (hleft.moveTo g.blocks.length).emitNew g.blocks.length (i := fun r => .load r result)
      fun _ => trivial
  · rw [← hnext]
    exact hasType_loaded hresult hlt hext

theorem LocalsTyped.extends_ (hlocals : LocalsTyped g) (h : Extends g g')
    (hmethod : g'.current_method.locals = g.current_method.locals) : LocalsTyped g' :=
  fun p hp => (hlocals p (hmethod ▸ hp)).extends_ h

theorem BeginSteps.typed {beginbk : List Stmt} {rescuebks : List RescueBlock} (hF : Numbered F)
    (steps : BeginSteps g result beginbk rescuebks v g') (hg : WellFormed g)
    (hlocals : LocalsTyped g) (hresult : HasType F result (.pointer objectPtr))
    (hext : Extends g' F) (hbody : TypesOf F (codegenStmts beginbk) ok (IsValue F isValue))
    (hrescues : TypesRescues F rescuebks ok') :
    Adds (·.WellTyped F) (ok && isValue && ok') g g' ∧ HasType F v objectPtr := by
  have hat := steps.atRescues (Frame.start hg) (grows_codegenStmts beginbk)
  have hclauses := framesRescues_codegenRescues rescuebks _ _ _ _ _ _ _ _
    (Frame.start hat.grow.wellFormed) steps.rescuebks
  have hgrow₁ := grows_codegenStmts beginbk _ _ _ hg.guarded steps.body
  have hguarded : Adds (·.WellTyped F) true g (g.guarded g.blocks.length) :=
    let h := (Adds.refl (p := (·.WellTyped F)) g).append "landingpad"
    ⟨h.extends_, h.all⟩
  -- what comes after each part
  rw [steps.last] at hext
  have hext₂ : Extends steps.g₂ F := Extends.trans (((longer_rethrown (.reg steps.g₁.next)).moveTo
    steps.g₁.build).afterBegin steps.g₁.build steps.impls result).longer hext
  have hextLanded := Extends.trans hclauses.grow.longer hext₂
  have hland := (Adds.refl (p := (·.WellTyped F)) ((steps.g₁.unguarded steps.vbody result
    g.landingpad).moveTo g.blocks.length)).landed
  have hext₁ : Extends steps.g₁ F := Extends.trans ((Longer.refl steps.g₁).emitAt steps.g₁.build
    (.store steps.vbody result)).longer (Extends.trans hland.extends_ hextLanded)
  -- the parts
  obtain ⟨h₁, hvbody⟩ := hbody _ _ _ hg.guarded (hlocals.extends_ hguarded.extends_ rfl)
    steps.body hext₁
  have hlt : g.blocks.length < ((steps.g₁.unguarded steps.vbody result g.landingpad).moveTo
      g.blocks.length).blocks.length := by
    rw [show ((steps.g₁.unguarded steps.vbody result g.landingpad).moveTo
      g.blocks.length).blocks.length = steps.g₁.blocks.length from CodegenContext.emitAt_length _ _]
    exact (CodegenContext.append_length _).ge.trans hgrow₁.length
  have hexcep : HasType F (.reg (steps.g₁.next + 2)) objectPtr :=
    .reg ((defines_excep hlt).extends_ hextLanded) (.call rfl)
  have h₂ := hrescues _ _ _ _ _ _ hat.grow.wellFormed (hlocals.grow hg hat.grow) hresult hexcep
    steps.rescuebks hext₂
  have hstored := (hguarded.trans h₁).storeValue hF hgrow₁.wellFormed hresult (hvbody _ rfl)
  have hunguarded : Adds (·.WellTyped F) (true && ok && isValue) g
      (steps.g₁.unguarded steps.vbody result g.landingpad) := ⟨hstored.extends_, hstored.all⟩
  have hall := (((hunguarded.moveTo g.blocks.length).landed).trans h₂).rethrown
    (.reg steps.g₁.next)
  obtain ⟨hlast, hv⟩ := (hall.moveTo steps.g₁.build).afterBegin hresult hext
  constructor
  · rw [steps.last]
    simpa using hlast
  · rw [steps.value]
    exact hv

theorem typed_openClass (name : String) :
    Typed F w (openClass name) fun v => HasType F v (.pointer .class_) := by
  unfold openClass
  refine (typed_buildCall (t := .pointer .class_) rfl _).andThen fun superclass =>
    typed_get.andThen fun g₀ => (typed_buildCall (t := .pointer .class_) rfl _).andThen
      fun self_class => (typed_buildCall (t := .pointer .class_) rfl _).bind fun classdef =>
        (typed_mkSym name).andThen fun sym => ?_
  have hcast : Typed F (w ∧ HasType F classdef (.pointer .class_))
      (emitReg fun r => .bitCast r classdef) fun v => HasType F v objectPtr :=
    typed_emitReg (fun _ => trivial) (fun _ => rfl) fun hpre _ hdef => .reg hdef (.classCast hpre.2)
  exact hcast.andThen fun asObject => (typed_buildCall (t := .void) rfl _).andThen fun _ =>
    typed_pure And.right

theorem typed_defineMethod (name : String) (fn : Nat) :
    Typed F w (defineMethod name fn) fun v => HasType F v .void :=
  (typed_mkSym name).andThen fun _ => typed_get.andThen fun _ => typed_buildCall rfl _

theorem ClassSteps.typed {name : String} {body : List Stmt} (steps : ClassSteps g name body v g')
    (hg : WellFormed g) (hlocals : LocalsTyped g) (hext : Extends g' F)
    (hbody : TypesOf F (codegenStmts body) ok (IsValue F isValue)) :
    Adds (·.WellTyped F) ok g g' ∧ HasType F v (.pointer .class_) := by
  have hopen := stable_grow.openClass name _ _ _ hg steps.open_
  have hgrow := grows_codegenStmts body _ _ _ (steps.atBody hg) steps.body
  rw [steps.last] at hext
  have hext₂ : Extends steps.g₂ F := hext
  obtain ⟨h₁, hv⟩ := (typed_openClass (w := True) name).types trivial _ _ _ hg hlocals
    steps.open_ (Extends.trans hgrow.longer hext₂)
  obtain ⟨h₂, -⟩ := hbody _ _ _ (steps.atBody hg)
    ((hlocals.grow hg hopen).extends_ (fun _ => List.prefix_rfl) rfl) steps.body hext₂
  have hbody' : Adds (·.WellTyped F) ok steps.g₁ { steps.g₂ with self_ref := steps.g₁.self_ref } :=
    ⟨h₂.extends_, h₂.all⟩
  refine ⟨?_, hv⟩
  rw [steps.last]
  simpa using h₁.trans hbody'

theorem MethodSteps.typed {name : String} {params : Option (List Param)}
    {body : Option (List Stmt)} (steps : MethodSteps g name params body v g') (hg : WellFormed g)
    (hlocals : LocalsTyped g) (hext : Extends g' F)
    (hbody : TypesOf F (codegenMethodBody params body) ok fun _ => True) :
    Adds (·.WellTyped F) ok g g' ∧ HasType F v .void := by
  have hgrow := steps.growMethod hg (grows_codegenMethodBody params body)
  have hdefine := stable_grow.defineMethod name g.functions _ _ _ hgrow.wellFormed steps.define
  obtain ⟨h₁, -⟩ := hbody _ _ _ (hg.inMethodBlock "") nofun steps.body
    (Extends.trans hdefine.longer hext)
  obtain ⟨h₂, hv⟩ := (typed_defineMethod (w := True) name g.functions).types trivial _ _ _
    hgrow.wellFormed (hlocals.grow hg hgrow) steps.define hext
  have hmethod : Adds (·.WellTyped F) ok g (g.afterMethod steps.g₁) := by
    have hin := (adds_of_instrs (p := (·.WellTyped F)) (inMethodBlock_instrs (g := g) "")).trans h₁
    rw [Bool.true_and] at hin
    exact ⟨hin.extends_, hin.all⟩
  exact ⟨hmethod.run h₂, hv⟩

end Steps

theorem types_codegenMethodBody_none (params : Option (List Param)) :
    TypesOf F (codegenMethodBody params none) true fun _ => True := by
  intro g u g' hg _ h _
  rw [codegenMethodBody] at h
  obtain rfl := emit_ok.mp h
  exact ⟨(Adds.refl g).emitAt g.build .null, trivial⟩

theorem types_codegenMethodBody_some (params : Option (List Param)) {body : List Stmt}
    (hbody : TypesOf F (codegenStmts body) ok (IsValue F isValue)) :
    TypesOf F (codegenMethodBody params (some body)) (ok && isValue) fun _ => True := by
  intro g u g' hg hlocals h hext
  obtain ⟨g₁, v, g₂, hargs, hrun, rfl⟩ := codegenMethodBody_ok h
  have hgrow₁ := stableExpr_grow.codegenArgs _ 0 _ _ _ hg hargs
  have hgrow₂ := grows_codegenStmts body _ _ _ hgrow₁.wellFormed hrun
  have hext₂ := Extends.trans ((Longer.refl g₂).emitAt g₂.build (.ret v)).longer hext
  obtain ⟨h₁, -⟩ := (typed_codegenArgs (w := True) _ 0).types trivial _ _ _ hg hlocals hargs
    (Extends.trans hgrow₂.longer hext₂)
  obtain ⟨h₂, hv⟩ := hbody _ _ _ hgrow₁.wellFormed (hlocals.grow hg hgrow₁) hrun hext₂
  have hret : (Instr.ret v).WellTyped F ↔ isValue = true := hv v rfl
  exact ⟨by simpa using (h₁.trans h₂).emit hgrow₂.wellFormed.build_lt hret, trivial⟩

/-- The slot of a statement. -/
theorem hasType_slot {e : Nat} (he : IsEntry g e)
    (h : Longer (g.emitNew e .alloca) g') (hext : Extends g' F) :
    HasType F (.reg g.next) (.pointer objectPtr) :=
  .reg (((defines_emitNew (CodegenContext.lt_of_fnOf (entry_iff.mp he).1) (i := .alloca)
    rfl).extends_ h.longer).extends_ hext) .alloca

mutual

/-- **What a statement adds is in order just when the text says so, and its value is a pointer
to an object just when it is not a definition.** -/
theorem types_codegenStmt (hF : Numbered F) : (s : Stmt) → selflessStmt s = true →
    TypesOf F (codegenStmt s) (valuedStmt s) fun v => HasType F v objectPtr ↔ isDefinition s = false
  | .expr e, hself => by
      rw [selflessStmt] at hself
      rw [codegenStmt, valuedStmt]
      intro g v g' hg hlocals h hext
      obtain ⟨hadds, hv⟩ := (typed_codegenExpr (w := True) e hself).types trivial g v g' hg
        hlocals h hext
      exact ⟨hadds, iff_of_true hv rfl⟩
  | .ifStmt cond ifbk none, _ => by
      intro g v g' hg _ h
      obtain ⟨_, _, _, ⟨⟩, _⟩ := codegenIf_ok hg h
  | .ifStmt cond ifbk (some elsebk), hself => by
      rw [selflessStmt, selflessBlock, Bool.and_eq_true, Bool.and_eq_true] at hself
      have hif := types_codegenStmts hF ifbk hself.1.2
      have helse := types_codegenStmts hF elsebk hself.2
      intro g v g' hg hlocals h hext
      obtain ⟨e, _, he, heq, ⟨steps⟩⟩ := codegenIf_ok hg h
      cases heq
      have halloca := (Frame.alloca hg he).grow
      have hgrow := steps.grow (Frame.start halloca.wellFormed) (grows_codegenStmts ifbk)
        (grows_codegenStmts elsebk)
      obtain ⟨hadds, hv⟩ := steps.typed hF halloca.wellFormed (hlocals.grow hg halloca)
        (hasType_slot he hgrow.toLonger hext) hself.1.1 hext hif helse
      rw [valuedStmt, valuedElse]
      exact ⟨((Adds.refl g).emitNew e fun _ => trivial).trans hadds, iff_of_true hv rfl⟩
  | .whileStmt cond statements, hself => by
      rw [selflessStmt, Bool.and_eq_true] at hself
      have hstatements := types_codegenStmts hF statements hself.2
      intro g v g' hg hlocals h hext
      obtain ⟨e, he, ⟨steps⟩⟩ := codegenWhile_ok hg h
      have halloca := (Frame.alloca hg he).grow
      have hgrow := steps.grow (Frame.start halloca.wellFormed) (grows_codegenStmts statements)
      obtain ⟨hadds, hv⟩ := steps.typed hF halloca.wellFormed (hlocals.grow hg halloca)
        (hasType_slot he hgrow.toLonger hext) hself.1 hext hstatements
      rw [valuedStmt]
      exact ⟨((Adds.refl g).emitNew e fun _ => trivial).trans hadds, iff_of_true hv rfl⟩
  | .beginStmt beginbk rescuebks elsebk ensurebk, hself => by
      rw [selflessStmt, Bool.and_eq_true] at hself
      have hbody := types_codegenStmts hF beginbk hself.1
      have hrescues := types_codegenRescues hF rescuebks hself.2
      intro g v g' hg hlocals h hext
      obtain ⟨-, e, he, ⟨steps⟩⟩ := codegenBegin_ok hg h
      have halloca := (Frame.alloca hg he).grow
      have hgrow := steps.grow (Frame.start halloca.wellFormed) (grows_codegenStmts beginbk)
        (framesRescues_codegenRescues rescuebks)
      obtain ⟨hadds, hv⟩ := steps.typed hF halloca.wellFormed (hlocals.grow hg halloca)
        (hasType_slot he hgrow.toLonger hext) hext hbody hrescues
      rw [valuedStmt]
      exact ⟨((Adds.refl g).emitNew e fun _ => trivial).trans hadds, iff_of_true hv rfl⟩
  | .classDef name extends_ none, _ => by
      intro g v g' hg _ h
      obtain ⟨_, _, ⟨⟩, _⟩ := codegenClass_ok h
  | .classDef name extends_ (some body), hself => by
      rw [selflessStmt, selflessBlock] at hself
      have hbody := types_codegenStmts hF body hself
      intro g v g' hg hlocals h hext
      obtain ⟨_, _, heq, ⟨steps⟩⟩ := codegenClass_ok h
      cases heq
      obtain ⟨hadds, hv⟩ := steps.typed hg hlocals hext hbody
      rw [valuedStmt, valuedBody]
      exact ⟨hadds, iff_of_false (fun hobj => nomatch hobj.unique hF hv) Bool.true_eq_false.mp⟩
  | .methodDef name params none, _ => by
      intro g v g' hg hlocals h hext
      obtain ⟨steps⟩ := codegenMethod_ok h
      obtain ⟨hadds, hv⟩ := steps.typed hg hlocals hext (types_codegenMethodBody_none params)
      rw [valuedStmt, valuedElse]
      exact ⟨hadds, iff_of_false (fun hobj => nomatch hobj.unique hF hv) Bool.true_eq_false.mp⟩
  | .methodDef name params (some body), hself => by
      rw [selflessStmt, selflessBlock] at hself
      have hbody := types_codegenStmts hF body hself
      intro g v g' hg hlocals h hext
      obtain ⟨steps⟩ := codegenMethod_ok h
      obtain ⟨hadds, hv⟩ := steps.typed hg hlocals hext
        (types_codegenMethodBody_some params hbody)
      rw [valuedStmt, valuedElse]
      exact ⟨hadds, iff_of_false (fun hobj => nomatch hobj.unique hF hv) Bool.true_eq_false.mp⟩

theorem types_codegenStmts (hF : Numbered F) : (ss : List Stmt) → selflessStmts ss = true →
    TypesOf F (codegenStmts ss) (valuedStmts ss) (IsValue F (!endsInDefinition ss))
  | [], _ => by
      rw [codegenStmts, valuedStmts]
      intro g v g' _ _ h _
      obtain ⟨rfl, rfl⟩ := pure_ok.mp h
      exact ⟨.refl _, nofun⟩
  | [s], hself => by
      rw [selflessStmts, Bool.and_eq_true] at hself
      intro g value g' hg hlocals h hext
      obtain ⟨v, hs, rfl⟩ := codegenStmts_singleton_ok.mp h
      obtain ⟨hadds, hv⟩ := types_codegenStmt hF s hself.1 g v g' hg hlocals hs hext
      rw [valuedStmts, valuedStmts, Bool.and_true, endsInDefinition]
      refine ⟨hadds, fun v' hv' => ?_⟩
      obtain rfl := Option.some.inj hv'
      rw [hv, Bool.not_eq_true']
  | s :: s' :: ss, hself => by
      rw [selflessStmts, Bool.and_eq_true] at hself
      intro g value g' hg hlocals h hext
      obtain ⟨v, g₁, hs, hss⟩ := codegenStmts_cons_ok.mp h
      have hgrow₁ := grows_codegenStmt s _ _ _ hg hs
      have hgrow₂ := grows_codegenStmts (s' :: ss) _ _ _ hgrow₁.wellFormed hss
      obtain ⟨h₁, -⟩ := types_codegenStmt hF s hself.1 g v g₁ hg hlocals hs
        (Extends.trans hgrow₂.longer hext)
      obtain ⟨h₂, hvalue⟩ := types_codegenStmts hF (s' :: ss) hself.2 g₁ value g' hgrow₁.wellFormed
        (hlocals.grow hg hgrow₁) hss hext
      rw [valuedStmts]
      exact ⟨h₁.trans h₂, hvalue⟩

theorem types_codegenRescues (hF : Numbered F) : (rescuebks : List RescueBlock) →
    selflessRescues rescuebks = true → TypesRescues F rescuebks (valuedRescues rescuebks)
  | [], _ => by
      rw [valuedRescues]
      exact typesRescues_nil
  | .mk types var_name statements :: rescuebks, hself => by
      rw [selflessRescues, Bool.and_eq_true, Bool.and_eq_true] at hself
      rw [valuedRescues]
      exact typesRescues_cons hF hself.1.1 (types_codegenStmts hF statements hself.1.2)
        (types_codegenRescues hF rescuebks hself.2)

end

/-! ### Programs -/

/-- The text of a program in which no definition is last where a value is used. -/
def valued (stmts : List Stmt) : Bool := valuedStmts stmts && !endsInDefinition stmts

theorem wellTyped_generate_iff {stmts : List Stmt} (hself : selflessStmts stmts = true)
    (h : generate stmts = .ok F) :
    (∀ b, ∀ i ∈ F.instrs b, i.WellTyped F) ↔ valued stmts = true := by
  have hF := numbered_generate h
  obtain ⟨v, g₁, hrun, rfl⟩ := generate_ok h
  have hgrow := grows_codegenStmts stmts _ _ _ wellFormed_unitBody hrun
  have hext : Extends g₁ (g₁.afterUnit v) := (longer_afterUnit v hgrow.method).longer
  obtain ⟨hadds, hv⟩ := types_codegenStmts hF stmts hself _ _ _ wellFormed_unitBody nofun hrun hext
  have hret : (Instr.ret v).WellTyped (g₁.afterUnit v) ↔ (!endsInDefinition stmts) = true :=
    hv v rfl
  have hall := ((hadds.emit hgrow.wellFormed.build_lt hret).moveTo 0).emitAt 0 (i := .br 1) trivial
  rw [valued, ← hall.all]
  have hadded : ∀ b, added .unitBody (g₁.afterUnit v) b = (g₁.afterUnit v).instrs b := by
    intro b
    rw [added, unitBody_instrs]
    rfl
  exact forall_congr' fun b => hadded b ▸ Iff.rfl

/-- **When values have the types that they are used at.**  In any context the value of a
statement is a pointer to an object just when the statement is not a definition, and in a program
what is stored and returned is one just when no definition is last in the program, in the body of
a method, in a branch or in the body of a `while`, a `begin` or a clause. -/
theorem wellTyped_iff {stmts : List Stmt} {F : CodegenContext}
    (hself : selflessStmts stmts = true) (h : generate stmts = .ok F) :
    ((∀ b, ∀ i ∈ F.instrs b, i.WellTyped F) ↔ valued stmts = true) ∧
    ∀ (s : Stmt) (g : CodegenContext) (v : Operand) (g' : CodegenContext), WellFormed g →
      LocalsTyped g → Numbered g → selflessStmt s = true → codegenStmt s g = .ok (v, g') →
      (HasType g' v objectPtr ↔ isDefinition s = false) := by
  refine ⟨wellTyped_generate_iff hself h, ?_⟩
  intro s g v g' hg hlocals hnumbered hself hrun
  have hnumbered' := steady_numbered.codegenStmt s g v g' hnumbered hrun
  exact (types_codegenStmt hnumbered' s hself g v g' hg hlocals hrun fun _ => List.prefix_rfl).2

/-- A class, and a value after it. -/
def classAndValue : List Stmt :=
  [.classDef "A" none (some [.expr (.int "1")]), .expr (.int "1")]

theorem wellTyped_iff_class : ∃ F, generate classAndValue = .ok F ∧
    ((∀ b, ∀ i ∈ F.instrs b, i.WellTyped F) ↔ valued classAndValue = true) ∧
    ∀ (s : Stmt) (g : CodegenContext) (v : Operand) (g' : CodegenContext), WellFormed g →
      LocalsTyped g → Numbered g → selflessStmt s = true → codegenStmt s g = .ok (v, g') →
      (HasType g' v objectPtr ↔ isDefinition s = false) := by
  obtain ⟨F, hF, -⟩ : ∃ F, generate classAndValue = .ok F ∧ F.functions = 1 :=
    generated_of_map (by decide +kernel)
  exact ⟨F, hF, wellTyped_iff (by decide +kernel) hF⟩

/-- A class at the end of a program. -/
def classLast : List Stmt := [.classDef "A" none (some [.expr (.int "1")])]

/-- The pointer to the class is returned where one to an object is declared. -/
theorem classLast_returns_class : ∃ F, generate classLast = .ok F ∧
    ¬ ∀ b, ∀ i ∈ F.instrs b, i.WellTyped F := by
  obtain ⟨F, hF, -⟩ : ∃ F, generate classLast = .ok F ∧ F.functions = 1 :=
    generated_of_map (by decide +kernel)
  refine ⟨F, hF, fun hall => ?_⟩
  have hvalued := (wellTyped_generate_iff (by decide +kernel) hF).mp hall
  exact absurd hvalued (by decide +kernel)

end Pup.Codegen
