/-
Constants and nested classes.

A class statement makes a class below Object whose `scope` is the class context of `self`,
and sets its constant there.  `self` is the main object at top level, the class itself in a
class body, and an instance of the class in its methods, so `scope` is the class that the
statement is in, though it is found out only when the statement runs.  `Program` keeps
beside the runtime what the text says: the classes of the class statements, which class each
is in, and which constants have been set; `Scoped` says that the runtime agrees.

Names of instance variables begin with `@`, and names of constants do not.
-/
import Pup.Lib.Scopes
import Pup.Runtime.Attributes
import Pup.Runtime.Layouts

namespace Pup.Runtime

open Chain Outcome Transition

/-- The name of an instance variable. -/
def IsIvar (sym : Sym) : Prop := sym.toList.head? = some '@'

instance (sym : Sym) : Decidable (IsIvar sym) := inferInstanceAs (Decidable (_ = _))

/-- The runtime under a program. -/
structure Program where
  rt : State
  /-- `self` at top level -/
  main : Ref
  /-- Object, and the classes made by class statements -/
  contexts : List Ref
  /-- the class that a class statement is in -/
  enclosing : Ref → Option Ref
  /-- the constants that have been set, the latest first -/
  log : List (Ref × Sym × Ref)

/-- What the statements of a program do to the runtime. -/
inductive Statement
  /-- `class name`, up to the body -/
  | classDef (self : Ref) (name : Sym)
  /-- `pup_const_set` for the class context of `self` -/
  | constSet (self : Ref) (sym : Sym) (val : Ref)
  /-- `def name_sym` in a class body -/
  | methodDef (self : Ref) (name_sym : Sym) (fn : Nat)
  | ivSet (self : Ref) (sym : Sym) (val : Option Ref)
  /-- `pup_class_new` -/
  | new (target : Ref)
  | fixnum (value : BitVec 32)
  | string (str : String)

/-- The class context of `self`, in code that is not in a class of the runtime. -/
def Program.context (p : Program) (self : Ref) : Option Ref := do
  let c ← (← (pupClassContextFrom p.rt (some self)).toOption)
  if c ∈ p.contexts then some c else none

/-- `ClassDef#codegen`: the superclass is Object, as `extends` is not implemented. -/
def classDef (p : Program) (self : Ref) (name : Sym) : Option Program := do
  let self_class ← p.context self
  if IsIvar name then none else do
    let (rt, classdef) ←
      (pupCreateClass p.rt p.rt.env.class_object (some self_class) name).toOption
    let rt ← (pupConstSet rt (some self_class) name (some classdef)).toOption
    some ⟨rt, p.main, classdef :: p.contexts,
      Function.update p.enclosing classdef (some self_class),
      (self_class, name, classdef) :: p.log⟩

def constSet (p : Program) (self : Ref) (sym : Sym) (val : Ref) : Option Program := do
  let self_class ← p.context self
  if IsIvar sym then none else do
    let rt ← (pupConstSet p.rt (some self_class) sym (some val)).toOption
    some { p with rt, log := (self_class, sym, val) :: p.log }

/-- `MethodDef#codegen`, where `self` is the class that is being defined. -/
def methodDef (p : Program) (self : Ref) (name_sym : Sym) (fn : Nat) : Option Program :=
  if self ∈ p.contexts ∧ p.rt.env.class_object ≠ some self then do
    let rt ← (pupDefineMethod p.rt (some self) name_sym (.generated fn)).toOption
    some { p with rt }
  else none

/-- `AssignmentExpr#codegen_instance`. -/
def instSet (p : Program) (self : Ref) (sym : Sym) (val : Option Ref) : Option Program :=
  if IsIvar sym then do
    let rt ← (pupIvSet p.rt (some self) sym val).toOption
    some { p with rt }
  else none

def execute (p : Program) : Statement → Option Program
  | .classDef self name => classDef p self name
  | .constSet self sym val => constSet p self sym val
  | .methodDef self name_sym fn => methodDef p self name_sym fn
  | .ivSet self sym val => instSet p self sym val
  | .new target => (step p.rt (.new target)).map fun rt => { p with rt }
  | .fixnum value => (step p.rt (.fixnum value)).map fun rt => { p with rt }
  | .string str => (step p.rt (.string str)).map fun rt => { p with rt }

/-- The constants that `runtime_init` sets in Object, the latest first. -/
def runtimeConstants : List (Sym × Ref) :=
  [("Fixnum", 10), ("FalseClass", 7), ("TrueClass", 6), ("RuntimeError", 5),
    ("StandardError", 4), ("Exception", 3), ("String", 2), ("Class", 1), ("Object", 0)]

/-- `pup_env_launch_main`, up to `do_main`: the runtime, and the main object. -/
def launchMain : Except Stop (State × Ref) := do
  let s ← runtimeInit
  pupCreateObject s s.env.class_object

def programMachine : Machine Program Statement where
  init p := launchMain = .ok (p.rt, p.main) ∧ p.contexts = p.rt.env.class_object.toList ∧
    (∀ r, p.enclosing r = none) ∧ p.log = runtimeConstants.map fun e => (0, e)
  next := execute

/-! ### The invariant -/

/-- The runtime has the classes and constants that the text asks for. -/
structure Scoped (p : Program) : Prop where
  typed : Typed p.rt
  main : ∃ o, p.rt.objects[p.main]? = some o ∧ o.type = some 0
  object : 0 ∈ p.contexts
  isClass : ∀ c ∈ p.contexts, p.rt.IsClass c
  /-- the other classes of the runtime are no contexts -/
  own : ∀ c ∈ p.contexts, c ≠ 0 → 11 ≤ c
  chain : ∀ c ∈ p.contexts, ∃ l, Linked p.enclosing (some c) l ∧ l.getLast? = some 0 ∧
    ∀ k ∈ l, k ∈ p.contexts
  scope : ∀ c ∈ p.contexts, p.rt.scope c = p.enclosing c
  constants : ∀ c ∈ p.contexts, ∀ sym, ¬ IsIvar sym →
    findAttr (p.rt.attrs c) sym = (Scopes.bound p.log c sym).map some
  logged : ∀ e ∈ p.log, e.1 ∈ p.contexts
  /-- what is inherited is inherited from the classes of the runtime -/
  superclass : ∀ r k, p.rt.superclass r = some k → k < 11
  generated : ∀ r sym fn, ⟨sym, .generated fn⟩ ∈ p.rt.methods r → r ∈ p.contexts ∧ 11 ≤ r

section Steps

variable {p : Program}

theorem Scoped.lt (hp : Scoped p) {c : Ref} (hc : c ∈ p.contexts) : c < p.rt.objects.length :=
  isClass_lt (hp.isClass c hc)

theorem scope_alloc {s : State} {t : Ref} {layout : Layout} {r : Ref}
    (hr : r < s.objects.length) : (s.alloc (some t) layout).1.scope r = s.scope r := by
  unfold State.scope
  rw [class_alloc_of_lt hr]

theorem Scoped.main_alloc (hp : Scoped p) (t : Ref) (layout : Layout) :
    ∃ o, (p.rt.alloc (some t) layout).1.objects[p.main]? = some o ∧ o.type = some 0 := by
  obtain ⟨o, ho, htype⟩ := hp.main
  refine ⟨o, ?_, htype⟩
  show (p.rt.objects ++ [_])[p.main]? = some o
  rw [List.getElem?_append_left (object_lt ho), ho]

/-- Something is allocated that is no class, or has nothing in it. -/
theorem Scoped.alloc (hp : Scoped p) {t : Ref} {layout : Layout}
    (hfresh : FreshLayout p.rt t layout) (hblank : layout.Blank) :
    Scoped { p with rt := (p.rt.alloc (some t) layout).1 } := by
  refine ⟨hp.typed.alloc hfresh, hp.main_alloc t layout, hp.object,
    fun c hc => isClass_alloc (hp.isClass c hc), hp.own, hp.chain,
    fun c hc => ?_, fun c hc sym hsym => ?_, hp.logged, fun r k hk => ?_, fun r sym fn hmem => ?_⟩
  · rw [← hp.scope c hc]
    exact scope_alloc (hp.lt hc)
  · show findAttr ((p.rt.alloc _ _).1.attrs c) sym = _
    rw [attrs_alloc]
    exact hp.constants c hc sym hsym
  · by_cases hr : r < p.rt.objects.length
    · apply hp.superclass r k
      rw [← hk]
      unfold State.superclass
      rw [class_alloc_of_lt hr]
    · obtain ⟨c, hc⟩ := superclass_isClass hk
      obtain rfl := eq_length_of_lt_alloc (isClass_lt ⟨c, hc⟩) hr
      rw [superclass_eq hc, hblank c (class_alloc_new.mp hc)] at hk
      cases hk
  · apply hp.generated r sym fn
    rw [← methods_alloc hfresh]
    exact hmem

/-- A class statement makes its class. -/
theorem Scoped.newClass (hp : Scoped p) (hclass : p.rt.IsClass 1) {c : Ref}
    (hc : c ∈ p.contexts) (name : Sym) :
    Scoped ⟨(p.rt.alloc (some 1) (newClass 0 (some c) name)).1, p.main,
      p.rt.objects.length :: p.contexts,
      Function.update p.enclosing p.rt.objects.length (some c), p.log⟩ := by
  have hfresh := freshLayout_newClass hclass (hp.isClass 0 hp.object) (some c) name
  have hne : ∀ k ∈ p.contexts, k ≠ p.rt.objects.length := fun k hk => Nat.ne_of_lt (hp.lt hk)
  have hkeep : ∀ k ∈ p.contexts,
      Function.update p.enclosing p.rt.objects.length (some c) k = p.enclosing k :=
    fun k hk => Function.update_of_ne (hne k hk) _ _
  have hself : Function.update p.enclosing p.rt.objects.length (some c) p.rt.objects.length =
      some c := Function.update_self ..
  refine ⟨hp.typed.alloc hfresh, hp.main_alloc 1 _, List.mem_cons_of_mem _ hp.object,
    fun k hk => ?_, fun k hk hne => ?_, fun k hk => ?_, fun k hk => ?_, fun k hk sym hsym => ?_,
    fun e he => List.mem_cons_of_mem _ (hp.logged e he), fun r k hk => ?_,
    fun r sym fn hmem => ?_⟩
  · rcases List.mem_cons.mp hk with rfl | hk
    · exact ⟨_, class_alloc_new.mpr rfl⟩
    · exact isClass_alloc (hp.isClass k hk)
  · rcases List.mem_cons.mp hk with rfl | hk
    · exact isClass_lt hp.typed.literals.2
    · exact hp.own k hk hne
  · rcases List.mem_cons.mp hk with rfl | hk
    · obtain ⟨l, hl, hlast, hmem⟩ := hp.chain c hc
      refine ⟨p.rt.objects.length :: l, .cons ?_, ?_, ?_⟩
      · show Linked _ (Function.update p.enclosing p.rt.objects.length (some c) _) l
        rw [hself]
        exact hl.congr fun j hj => hkeep j (hmem j hj)
      · obtain ⟨rest, rfl, -⟩ := hl.tail
        rwa [List.getLast?_cons_cons]
      · exact List.forall_mem_cons.mpr
          ⟨List.mem_cons_self, fun j hj => List.mem_cons_of_mem _ (hmem j hj)⟩
    · obtain ⟨l, hl, hlast, hmem⟩ := hp.chain k hk
      exact ⟨l, hl.congr fun j hj => hkeep j (hmem j hj), hlast,
        fun j hj => List.mem_cons_of_mem _ (hmem j hj)⟩
  · rcases List.mem_cons.mp hk with rfl | hk
    · have hnew : (p.rt.alloc (some 1) (Runtime.newClass 0 (some c) name)).1.scope
          p.rt.objects.length = some c := scope_eq (class_alloc_new.mpr rfl)
      exact hnew.trans hself.symm
    · exact (scope_alloc (hp.lt hk)).trans ((hp.scope k hk).trans (hkeep k hk).symm)
  · show findAttr ((p.rt.alloc _ _).1.attrs k) sym = _
    rw [attrs_alloc]
    rcases List.mem_cons.mp hk with rfl | hk
    · rw [attrs_of_le (Nat.le_refl _),
        Scopes.bound_eq_none (fun e he => hne e.1 (hp.logged e he)) sym]
      rfl
    · exact hp.constants k hk sym hsym
  · by_cases hr : r < p.rt.objects.length
    · apply hp.superclass r k
      rw [← hk]
      unfold State.superclass
      rw [class_alloc_of_lt hr]
    · obtain ⟨d, hd⟩ := superclass_isClass hk
      obtain rfl := eq_length_of_lt_alloc (isClass_lt ⟨d, hd⟩) hr
      rw [superclass_eq hd] at hk
      cases class_alloc_new.mp hd
      cases hk
      decide
  · rw [methods_alloc hfresh] at hmem
    exact (hp.generated r sym fn hmem).imp_left (List.mem_cons_of_mem _)

/-- Attributes change, and the constants are those in the log. -/
theorem Scoped.rewrite (hp : Scoped p) {rt : State} (hsame : SameLayouts p.rt rt)
    {log : List (Ref × Sym × Ref)} (hlogged : ∀ e ∈ log, e.1 ∈ p.contexts)
    (hconstants : ∀ c ∈ p.contexts, ∀ sym, ¬ IsIvar sym →
      findAttr (rt.attrs c) sym = (Scopes.bound log c sym).map some) :
    Scoped { p with rt, log } := by
  have hmain : ∃ o, rt.objects[p.main]? = some o ∧ o.type = some 0 := by
    obtain ⟨o, ho, htype⟩ := hp.main
    have hlt : p.main < rt.objects.length := hsame.length ▸ object_lt ho
    obtain ⟨o₁, ho₁, htype₁, -⟩ := hsame.objects p.main _ (List.getElem?_eq_getElem hlt)
    obtain rfl := Option.some.inj (ho.symm.trans ho₁)
    exact ⟨_, List.getElem?_eq_getElem hlt, htype₁.trans htype⟩
  refine ⟨hp.typed.sameLayouts hsame, hmain, hp.object,
    fun c hc => (hsame.isClass_iff c).mpr (hp.isClass c hc), hp.own, hp.chain, fun c hc => ?_,
    hconstants, hlogged, fun r k hk => ?_, fun r sym fn hmem => ?_⟩
  · rw [← hp.scope c hc]
    show rt.scope c = _
    unfold State.scope
    rw [hsame.class]
  · apply hp.superclass r k
    rw [← hk]
    show _ = rt.superclass r
    unfold State.superclass
    rw [hsame.class]
  · apply hp.generated r sym fn
    have hmem : _ ∈ rt.methods r := hmem
    unfold State.methods at hmem ⊢
    rwa [hsame.class] at hmem

theorem Scoped.setConst (hp : Scoped p) {c : Ref} (hc : c ∈ p.contexts) {sym : Sym}
    {val : Ref} {rt : State} (h : pupConstSet p.rt (some c) sym (some val) = .ok rt) :
    Scoped { p with rt, log := (c, sym, val) :: p.log } := by
  refine hp.rewrite (pupIvSet_ok h) ?_ fun k hk sym' hsym' => ?_
  · exact List.forall_mem_cons.mpr ⟨hc, hp.logged⟩
  · rw [pupIvSet_attrs h, Scopes.bound_cons]
    by_cases hkc : k = c
    · subst hkc
      rw [if_pos rfl, findAttr_setAttr]
      by_cases hsym : sym = sym'
      · rw [if_pos hsym, if_pos ⟨rfl, hsym⟩]
        rfl
      · rw [if_neg hsym, if_neg fun h => hsym h.2]
        exact hp.constants k hk sym' hsym'
    · rw [if_neg hkc, if_neg fun h => hkc h.1.symm]
      exact hp.constants k hk sym' hsym'

theorem Scoped.setIvar (hp : Scoped p) {obj : Ref} {sym : Sym} (hsym : IsIvar sym)
    {val : Option Ref} {rt : State} (h : pupIvSet p.rt (some obj) sym val = .ok rt) :
    Scoped { p with rt } := by
  refine hp.rewrite (pupIvSet_ok h) hp.logged fun c hc sym' hsym' => ?_
  rw [pupIvSet_attrs h]
  by_cases hobj : c = obj
  · subst hobj
    have hne : sym ≠ sym' := fun heq => hsym' (heq ▸ hsym)
    rw [if_pos rfl, findAttr_setAttr, if_neg hne]
    exact hp.constants c hc sym' hsym'
  · rw [if_neg hobj]
    exact hp.constants c hc sym' hsym'

theorem Scoped.methodDef (hp : Scoped p) {c : Ref} (hc : c ∈ p.contexts) (hle : 11 ≤ c)
    {sym : Sym} {fn : Nat} {rt : State} (h : Defined p.rt rt c ⟨sym, .generated fn⟩) :
    Scoped { p with rt } := by
  have hmain : ∃ o, rt.objects[p.main]? = some o ∧ o.type = some 0 := by
    obtain ⟨o, ho, htype⟩ := hp.main
    by_cases hc' : p.main = c
    · obtain ⟨o₁, c₁, ho₁, -, ho'⟩ := h.target
      rw [← hc'] at ho₁ ho'
      obtain rfl := Option.some.inj (ho.symm.trans ho₁)
      exact ⟨_, ho', htype⟩
    · exact ⟨o, (h.objects _ hc').trans ho, htype⟩
  refine ⟨hp.typed.defined h, hmain, hp.object, fun k hk => (h.isClass_iff k).mpr (hp.isClass k hk),
    hp.own, hp.chain, fun k hk => ?_, fun k hk sym' hsym' => ?_, hp.logged, fun r k hk => ?_,
    fun r sym' fn' hmem => ?_⟩
  · rw [← hp.scope k hk, ← h.scope]
  · rw [← hp.constants k hk sym' hsym', ← h.attrs]
  · apply hp.superclass r k
    rwa [← h.superclass]
  · have hmem : _ ∈ rt.methods r := hmem
    rw [h.methods] at hmem
    rcases List.mem_append.mp hmem with hmem | hmem
    · exact hp.generated r sym' fn' hmem
    · by_cases hr : r = c
      · subst hr
        exact ⟨hc, hle⟩
      · simp [hr] at hmem

end Steps

/-! ### Runs -/

/-- The statement sets the constant `sym` of the class `k`. -/
def Statement.Sets (p : Program) (k : Ref) (sym : Sym) : Statement → Prop
  | .classDef self name => p.context self = some k ∧ name = sym
  | .constSet self sym' _ => p.context self = some k ∧ sym' = sym
  | _ => False

/-- What a statement does to the classes and the constants of the text. -/
structure Goes (p p' : Program) (i : Statement) : Prop where
  inv : Scoped p'
  contexts : ∀ c ∈ p.contexts, c ∈ p'.contexts ∧ p'.enclosing c = p.enclosing c
  log : p'.log = p.log ∨ ∃ k sym val, i.Sets p k sym ∧ p'.log = (k, sym, val) :: p.log

theorem context_eq_some {p : Program} {self c : Ref} :
    p.context self = some c ↔
      pupClassContextFrom p.rt (some self) = .ok (some c) ∧ c ∈ p.contexts := by
  unfold Program.context
  cases hcontext : pupClassContextFrom p.rt (some self) with
  | error e => simp [Except.toOption]
  | ok r =>
      cases r with
      | none => simp [Except.toOption]
      | some d =>
          by_cases hd : d ∈ p.contexts
          · simp only [Except.toOption, Option.bind_eq_bind, Option.bind_some, hd, if_true,
              Option.some.injEq, Except.ok.injEq]
            exact ⟨fun h => ⟨h, h ▸ hd⟩, fun h => h.1⟩
          · simp only [Except.toOption, Option.bind_eq_bind, Option.bind_some, hd, if_false,
              reduceCtorEq, Except.ok.injEq, Option.some.injEq, false_iff, not_and]
            rintro rfl
            exact hd

/-- Neither classes nor constants of the text are concerned. -/
theorem Goes.of_scoped {p : Program} {i : Statement} {rt : State}
    (h : Scoped { p with rt }) : Goes p { p with rt } i :=
  ⟨h, fun _ hc => ⟨hc, rfl⟩, .inl rfl⟩

theorem goes_classDef {p p' : Program} (hp : Scoped p) {self : Ref} {name : Sym}
    (h : classDef p self name = some p') : Goes p p' (.classDef self name) := by
  obtain ⟨c, hc, h⟩ := Option.bind_eq_some_iff.mp h
  by_cases hname : IsIvar name
  · simp [hname] at h
  · rw [if_neg hname] at h
    obtain ⟨⟨rt₁, r⟩, hcreate, h⟩ := Option.bind_eq_some_iff.mp h
    obtain ⟨rt₂, hset, h⟩ := Option.bind_eq_some_iff.mp h
    obtain rfl := Option.some.inj h
    have hobject : p.rt.env.class_object = some 0 := by
      rw [hp.typed.env]
      rfl
    have hcreate := toOption_eq_some hcreate
    rw [hobject] at hcreate
    obtain ⟨hclass, rfl, rfl⟩ := pupCreateClass_alloc hp.typed hcreate
    have hc' := (context_eq_some.mp hc).2
    have hnew := hp.newClass hclass hc' name
    refine ⟨hnew.setConst (List.mem_cons_of_mem _ hc') (toOption_eq_some hset), fun k hk => ?_,
      .inr ⟨c, name, _, ⟨hc, rfl⟩, rfl⟩⟩
    exact ⟨List.mem_cons_of_mem _ hk,
      Function.update_of_ne (Nat.ne_of_lt (hp.lt hk)) (some c) p.enclosing⟩

theorem goes_constSet {p p' : Program} (hp : Scoped p) {self val : Ref} {sym : Sym}
    (h : constSet p self sym val = some p') : Goes p p' (.constSet self sym val) := by
  obtain ⟨c, hc, h⟩ := Option.bind_eq_some_iff.mp h
  by_cases hsym : IsIvar sym
  · simp [hsym] at h
  · rw [if_neg hsym] at h
    obtain ⟨rt, hset, h⟩ := Option.bind_eq_some_iff.mp h
    obtain rfl := Option.some.inj h
    exact ⟨hp.setConst (context_eq_some.mp hc).2 (toOption_eq_some hset),
      fun k hk => ⟨hk, rfl⟩, .inr ⟨c, sym, val, ⟨hc, rfl⟩, rfl⟩⟩

theorem goes_methodDef {p p' : Program} (hp : Scoped p) {self : Ref} {sym : Sym} {fn : Nat}
    (h : methodDef p self sym fn = some p') : Goes p p' (.methodDef self sym fn) := by
  unfold methodDef at h
  by_cases hself : self ∈ p.contexts ∧ p.rt.env.class_object ≠ some self
  · rw [if_pos hself] at h
    obtain ⟨rt, hdef, h⟩ := Option.bind_eq_some_iff.mp h
    obtain rfl := Option.some.inj h
    obtain ⟨c, hc, hdef⟩ := pupDefineMethod_ok (toOption_eq_some hdef)
    obtain rfl := Option.some.inj hc
    have hne : self ≠ 0 := by
      rintro rfl
      apply hself.2
      rw [hp.typed.env]
      rfl
    exact .of_scoped (hp.methodDef hself.1 (hp.own self hself.1 hne) hdef)
  · rw [if_neg hself] at h
    cases h

theorem goes_ivSet {p p' : Program} (hp : Scoped p) {self : Ref} {sym : Sym} {val : Option Ref}
    (h : instSet p self sym val = some p') : Goes p p' (.ivSet self sym val) := by
  unfold instSet at h
  by_cases hsym : IsIvar sym
  · rw [if_pos hsym] at h
    obtain ⟨rt, hset, h⟩ := Option.bind_eq_some_iff.mp h
    obtain rfl := Option.some.inj h
    exact .of_scoped (hp.setIvar hsym (toOption_eq_some hset))
  · rw [if_neg hsym] at h
    cases h

/-- What a statement does. -/
theorem execute_goes {p p' : Program} (hp : Scoped p) {i : Statement}
    (h : execute p i = some p') : Goes p p' i := by
  cases i with
  | classDef self name => exact goes_classDef hp h
  | constSet self sym val => exact goes_constSet hp h
  | methodDef self name_sym fn => exact goes_methodDef hp h
  | ivSet self sym val => exact goes_ivSet hp h
  | new target =>
      obtain ⟨rt, hstep, rfl⟩ := Option.map_eq_some_iff.mp h
      obtain ⟨q, hq, rfl⟩ := map_toOption_eq_some hstep
      obtain ⟨t, layout, -, hfresh, hblank, -, heq⟩ :=
        pupClassAllocateInstance_ok hp.typed (pupClassNew_ok hq)
      rw [heq]
      exact .of_scoped (hp.alloc hfresh hblank)
  | fixnum value =>
      obtain rfl : { p with rt := (pupFixnumCreate p.rt value).1 } = p' := Option.some.inj h
      have hfresh : FreshLayout p.rt 10 (.pupFixnum value) :=
        .of_not_class hp.typed.literals.2 rfl (by simp)
      rw [pupFixnumCreate, hp.typed.env]
      exact .of_scoped (hp.alloc hfresh fun c hc => by cases hc)
  | string str =>
      obtain rfl : { p with rt := (pupStringNewCstr p.rt str).1 } = p' := Option.some.inj h
      have hfresh : FreshLayout p.rt 2 (.pupString (some str)) :=
        .of_not_class hp.typed.literals.1 rfl (by simp)
      rw [pupStringNewCstr, hp.typed.env]
      exact .of_scoped (hp.alloc hfresh fun c hc => by cases hc)

theorem builtins_not_generated {r : Ref} {sym : Sym} {fn : Nat} :
    ⟨sym, .generated fn⟩ ∉ builtins r := by
  unfold builtins
  split <;> simp

/-- What the runtime is like when the main method is called. -/
def Launched (s : State × Ref) : Prop :=
  (s.1.objects.length = 12 ∧ s.1.IsClass 0 ∧ s.1.scope 0 = none ∧
    (s.1.objects[s.2]?).any (fun o => o.type = some 0) = true ∧
    s.1.attrs 0 = runtimeConstants.map fun e => (e.1, some e.2)) ∧
  ∀ r < 12, s.1.methods r = builtins r ∧ ∀ k ∈ s.1.superclass r, k < 11

instance (s : State × Ref) : Decidable (Launched s) :=
  inferInstanceAs (Decidable (_ ∧ ∀ r < 12, _ ∧ ∀ k ∈ s.1.superclass r, _))

theorem launchMain_launched : launchMain.toOption.any (fun s => Launched s) = true := by
  decide +kernel

theorem launchMain_typed {s : State} {main : Ref} (h : launchMain = .ok (s, main)) :
    Typed s := by
  obtain ⟨s₀, hinit, h⟩ := bind_ok h
  have hs₀ : Typed s₀ := .init hinit
  have hstep : step s₀ (.createObject 0) = some s := by
    rw [hs₀.env] at h
    show ((pupCreateObject s₀ (some 0)).map Prod.fst).toOption = some s
    rw [show pupCreateObject s₀ (some 0) = .ok (s, main) from h]
    rfl
  exact hs₀.step hstep

/-- What is in the log of a scope, when the scope's constants have been read off it. -/
theorem bound_map (l : List (Sym × Ref)) (sym : Sym) :
    findAttr (l.map fun e => (e.1, some e.2)) sym =
      (Scopes.bound (l.map fun e => ((0 : Ref), e)) 0 sym).map some := by
  induction l with
  | nil => rfl
  | cons e rest ih =>
      obtain ⟨sym', val⟩ := e
      rw [List.map_cons, List.map_cons, Scopes.bound_cons]
      by_cases hsym : sym' = sym
      · simp [findAttr, hsym]
      · rw [if_neg fun h => hsym h.2, ← ih]
        simp [findAttr, hsym]

theorem Scoped.init {p : Program} (h : programMachine.init p) : Scoped p := by
  obtain ⟨hlaunch, hcontexts, henclosing, hlog⟩ := h
  have htyped := launchMain_typed hlaunch
  have hready := launchMain_launched
  rw [hlaunch] at hready
  obtain ⟨⟨hlength, hobject, hscope, hmain, hattrs⟩, hall⟩ :
    Launched (p.rt, p.main) := of_decide_eq_true hready
  rw [htyped.env] at hcontexts
  have hmem : ∀ c, c ∈ p.contexts ↔ c = 0 := by
    intro c
    rw [hcontexts]
    exact List.mem_singleton
  have hout : ∀ r, ¬ r < 12 → ¬ p.rt.IsClass r := fun r hr =>
    not_isClass_of_le (hlength ▸ Nat.le_of_not_lt hr)
  obtain ⟨o, ho, htype⟩ := (Option.any_eq_true _ _).mp hmain
  refine ⟨htyped, ⟨o, ho, of_decide_eq_true htype⟩, (hmem 0).mpr rfl, fun c hc => ?_,
    fun c hc hne => absurd ((hmem c).mp hc) hne, fun c hc => ?_, fun c hc => ?_,
    fun c hc sym _ => ?_, fun e he => ?_, fun r k hk => ?_, fun r sym fn hgen => ?_⟩
  · rw [(hmem c).mp hc]
    exact hobject
  · obtain rfl := (hmem c).mp hc
    refine ⟨[0], .cons ?_, rfl, by simpa using hc⟩
    rw [henclosing]
    exact .nil
  · rw [(hmem c).mp hc, henclosing]
    exact hscope
  · have hattrs : p.rt.attrs 0 = _ := hattrs
    rw [(hmem c).mp hc, hlog, hattrs]
    exact bound_map runtimeConstants sym
  · rw [hlog] at he
    obtain ⟨e', -, rfl⟩ := List.mem_map.mp he
    exact (hmem 0).mpr rfl
  · have hr : r < 12 := of_not_not fun hr => hout r hr (superclass_isClass hk)
    exact (hall r hr).2 k hk
  · exfalso
    by_cases hr : r < 12
    · have hmethods : p.rt.methods r = builtins r := (hall r hr).1
      rw [hmethods] at hgen
      exact builtins_not_generated hgen
    · rw [methods_of_not_isClass (hout r hr)] at hgen
      exact List.not_mem_nil hgen

theorem scoped_of_reachable {p : Program} (h : Reachable programMachine p) : Scoped p :=
  h.invariant (fun _ => Scoped.init) fun _ _ _ hp hstep => (execute_goes hp hstep).inv

/-! ### What a constant means -/

section Lookup

variable {p : Program}

theorem Scoped.linked (hp : Scoped p) {c : Ref} (hc : c ∈ p.contexts) {l : List Ref}
    (hl : Linked p.enclosing (some c) l) : l.getLast? = some 0 ∧ ∀ k ∈ l, k ∈ p.contexts := by
  obtain ⟨l', hl', hlast, hmem⟩ := hp.chain c hc
  rw [hl.unique hl']
  exact ⟨hlast, hmem⟩

theorem Scoped.lookup (hp : Scoped p) {c : Ref} (hc : c ∈ p.contexts) {l : List Ref}
    (hl : Linked p.enclosing (some c) l) {sym : Sym} (hsym : ¬ IsIvar sym) :
    pupConstGet p.rt (some c) sym = .ok (Scopes.lookup p.log l sym) := by
  obtain ⟨-, hmem⟩ := hp.linked hc hl
  have hchain : ScopeChain p.rt c l :=
    ⟨hl.congr fun k hk => hp.scope k (hmem k hk), fun k hk => hp.isClass k (hmem k hk)⟩
  have hconstant : ∀ k ∈ l, p.rt.constant k sym = Scopes.bound p.log k sym := by
    intro k hk
    unfold State.constant
    rw [hp.constants k (hmem k hk) sym hsym]
    cases Scopes.bound p.log k sym <;> rfl
  rw [hchain.find]
  unfold Scopes.lookup
  rw [← List.head?_filterMap, ← List.head?_filterMap, List.filterMap_congr hconstant]

/-- A class is its own context. -/
theorem Scoped.context_self (hp : Scoped p) {c : Ref} (hc : c ∈ p.contexts) :
    p.context c = some c := by
  obtain ⟨k, hk⟩ := hp.isClass c hc
  obtain ⟨o, ho, hlayout⟩ := class_ok.mp hk
  have htype : o.type = p.rt.env.class_class :=
    (hp.typed.pupClass_iff ho).mp (by rw [hlayout]; rfl)
  rw [context_eq_some]
  refine ⟨?_, hc⟩
  unfold pupClassContextFrom
  rw [object_ok.mpr ho]
  show (if o.type = p.rt.env.class_class then _ else _) = _
  rw [if_pos htype]
  rfl

/-- The context of any other object is its class. -/
theorem Scoped.context_type (hp : Scoped p) {r c : Ref} {o : Obj}
    (ho : p.rt.objects[r]? = some o) (htype : o.type = some c) (hc : c ∈ p.contexts) :
    p.context r = some c := by
  have hne : o.type ≠ p.rt.env.class_class := by
    rw [htype, hp.typed.env]
    intro heq
    obtain rfl : c = 1 := Option.some.inj heq
    exact absurd (hp.own 1 hc (by decide)) (by decide)
  rw [context_eq_some]
  refine ⟨?_, hc⟩
  unfold pupClassContextFrom
  rw [object_ok.mpr ho]
  show (if o.type = p.rt.env.class_class then _ else _) = _
  rw [if_neg hne, htype]
  rfl

/-- A method of the program runs on direct instances of its class only. -/
theorem Scoped.invoked (hp : Scoped p) {r : Ref} {sym : Sym} {fn : Nat}
    (h : pupInvoke p.rt (some r) sym = .ok (.generated fn)) :
    ∃ c, p.context r = some c ∧ ⟨sym, .generated fn⟩ ∈ p.rt.methods c := by
  obtain ⟨o, ho, -⟩ := bind_ok h
  have ho := object_ok.mp ho
  obtain ⟨l, t, htype, hl⟩ := hp.typed.exists_chain ho
  obtain ⟨k, hk, hfind⟩ :=
    List.exists_of_findSome?_eq_some ((pupInvoke_ok_iff ho ⟨t, htype, hl⟩).mp h)
  have hmem := findMethodInList_mem hfind
  obtain ⟨hcontext, hle⟩ := hp.generated k sym fn hmem
  rcases hl.linked.mem_cases hk with rfl | ⟨j, -, hsuper⟩
  · exact ⟨k, hp.context_type ho htype hcontext, hmem⟩
  · exact absurd (hp.superclass j k hsuper) (Nat.not_lt.mpr hle)

end Lookup

/--
**Constants are lexically scoped.**  In every state of every run of a program: the context
of the main object is Object, and of a class that class; a method of the program runs in
the context of its class; from every context, `pup_const_get` returns the latest value in
the nearest of the enclosing scopes, of which Object is the outermost; and a statement
changes what a constant means only from where it has set it and the scopes inside.
-/
theorem constants_scoped {p : Program} (hp : Reachable programMachine p) :
    (p.context p.main = p.rt.env.class_object ∧ ∀ c ∈ p.contexts, p.context c = some c) ∧
    (∀ r sym fn, pupInvoke p.rt (some r) sym = .ok (.generated fn) →
      ∃ c, p.context r = some c ∧ ⟨sym, .generated fn⟩ ∈ p.rt.methods c) ∧
    (∀ self c, p.context self = some c →
      ∃ l, Linked p.enclosing (some c) l ∧ l.getLast? = p.rt.env.class_object ∧
        ∀ sym, ¬ IsIvar sym →
          pupConstGet p.rt (some c) sym = .ok (Scopes.lookup p.log l sym)) ∧
    ∀ i p', programMachine.next p i = some p' → ∀ c l sym, c ∈ p.contexts →
      Linked p.enclosing (some c) l → ¬ IsIvar sym → (∀ k ∈ l, ¬ i.Sets p k sym) →
        pupConstGet p'.rt (some c) sym = pupConstGet p.rt (some c) sym := by
  have hs := scoped_of_reachable hp
  have hobject : p.rt.env.class_object = some 0 := by
    rw [hs.typed.env]
    rfl
  refine ⟨⟨?_, fun c hc => hs.context_self hc⟩, fun r sym fn h => hs.invoked h,
    fun self c hcontext => ?_, fun i p' hstep c l sym hc hl hsym hsets => ?_⟩
  · obtain ⟨o, ho, htype⟩ := hs.main
    rw [hobject]
    exact hs.context_type ho htype hs.object
  · have hc := (context_eq_some.mp hcontext).2
    obtain ⟨l, hl, hlast, -⟩ := hs.chain c hc
    exact ⟨l, hl, hobject ▸ hlast, fun sym hsym => hs.lookup hc hl hsym⟩
  · obtain ⟨hinv, hcontexts, hlog⟩ := execute_goes hs hstep
    obtain ⟨-, hmem⟩ := hs.linked hc hl
    have hl' : Linked p'.enclosing (some c) l :=
      hl.congr fun k hk => (hcontexts k (hmem k hk)).2
    rw [hinv.lookup (hcontexts c hc).1 hl' hsym, hs.lookup hc hl hsym]
    rcases hlog with hlog | ⟨k, sym', val, hset, hlog⟩
    · rw [hlog]
    · rw [hlog, Scopes.lookup_cons_of_unseen]
      by_cases hk : k ∈ l
      · right
        rintro rfl
        exact hsets k hk hset
      · exact .inl hk

/-- A program that is about to begin. -/
def launched (s : State × Ref) : Program :=
  ⟨s.1, s.2, [0], fun _ => none, runtimeConstants.map fun e => (0, e)⟩

/-- `class A`, and in it `class B`, from where `A` is looked up. -/
theorem constants_scoped_nested :
    ∃ p l, Reachable programMachine p ∧ Linked p.enclosing (some 13) l ∧
      pupConstGet p.rt (some 13) "A" = .ok (some 12) ∧ Scopes.lookup p.log l "A" = some 12 := by
  have hrun : launchMain.toOption.any (fun s => [0] = s.1.env.class_object.toList ∧
      (programMachine.run (launched s) [.classDef 11 "A", .classDef 12 "B"]).any (fun p =>
        p.context 13 = some 13 ∧
          (pupConstGet p.rt (some 13) "A").toOption = some (some 12)) = true) = true := by
    decide +kernel
  obtain ⟨s, hlaunch, hobject, hrun⟩ := ok_of_any hrun
  obtain ⟨p, hrun, hp⟩ := (Option.any_eq_true _ _).mp hrun
  obtain ⟨hcontext, hget⟩ := of_decide_eq_true hp
  have hreach : Reachable programMachine p :=
    reachable_of_run ⟨hlaunch, hobject, fun _ => rfl, rfl⟩ _ hrun
  obtain ⟨-, -, hlookup, -⟩ := constants_scoped hreach
  obtain ⟨l, hl, -, heq⟩ := hlookup 13 13 hcontext
  have hget := toOption_eq_some hget
  have hsame := heq "A" (by decide)
  rw [hget] at hsame
  exact ⟨p, l, hreach, hl, hget, (Except.ok.inj hsame).symm⟩

end Pup.Runtime
