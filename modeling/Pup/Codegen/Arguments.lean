/-
How the arguments of an invocation get to the locals of a method.

The caller stores its arguments in an array and passes on how many they are and where the array
is, and `pup_invoke` gives both to the method as they are.  The method copies as many elements of
the array as it has parameters to the slots of its locals, whatever the number that was passed:
`codegen_args` has a FIXME that says so.  The memory after the array is read like the array.

The two pieces of code are executed one after the other here, up to the invocation and up to the
body of the method.  Each call has registers and slots of its own.
-/
import Pup.Codegen.LandingPads
import Mathlib.Data.List.Nodup
import Mathlib.Logic.Function.Basic

namespace Pup.Codegen

open Parse

namespace Passing

variable {α : Type}

/-! ### The machine -/

/-- What a pointer points to: nothing, or what an instruction has allocated in one of the calls
that are active. -/
inductive Place
  | null
  | slot (call r : Nat)
  deriving DecidableEq, Repr

inductive Word (α : Type)
  | value (a : α)
  | pointer (p : Place) (i : Nat)
  /-- Anything else: it is neither stored nor followed. -/
  | other
  deriving DecidableEq, Repr

/-- A call of a generated function, with the memory and with what has been read from it. -/
structure Activation (α : Type) where
  call : Nat
  target : α
  argv : Word α
  regs : Nat → Word α
  cells : Place → Nat → α
  reads : List (Place × Nat)

inductive Progress (α : Type)
  | running (t : Activation α)
  /-- At a `pup_invoke`, with the number of arguments and the array. -/
  | invokes (t : Activation α) (argc : Nat) (argv : Word α)
  | raised (t : Activation α)
  | stuck

namespace Activation

def eval (t : Activation α) : Operand → Word α
  | .paramTarget => .value t.target
  | .paramArgv => t.argv
  | .null => .pointer .null 0
  | .reg r => t.regs r
  | _ => .other

def set (t : Activation α) (r : Nat) (w : Word α) : Activation α :=
  { t with regs := Function.update t.regs r w }

def read (t : Activation α) (p : Place) (i : Nat) : Activation α :=
  { t with reads := t.reads ++ [(p, i)] }

def write (t : Activation α) (p : Place) (i : Nat) (a : α) : Activation α :=
  { t with cells := Function.update t.cells p (Function.update (t.cells p) i a) }

/-- A call of the runtime.  None but `pup_invoke` is given the array. -/
def called (t : Activation α) (r : Nat) (fn : String) (args : List Operand) : Progress α :=
  if fn = "pup_invoke" then
    match args with
    | [_, _, _, .int argc, argv] => .invokes t argc (t.eval argv)
    | _ => .stuck
  else if raisingFunctions.contains fn then .raised t
  else .running (t.set r .other)

def execute (t : Activation α) : Instr → Progress α
  | .alloca r => .running (t.set r (.pointer (.slot t.call r) 0))
  | .arrayAlloca r _ => .running (t.set r (.pointer (.slot t.call r) 0))
  | .bitCast r v => .running (t.set r (t.eval v))
  | .gep r ptr k =>
      match t.eval ptr with
      | .pointer p i => .running (t.set r (.pointer p (i + k)))
      | _ => .stuck
  | .load r ptr =>
      match t.eval ptr with
      | .pointer p i => .running ((t.read p i).set r (.value (t.cells p i)))
      | _ => .stuck
  | .store v ptr =>
      match t.eval v, t.eval ptr with
      | .value a, .pointer p i => .running (t.write p i a)
      | _, _ => .stuck
  | .call r fn args => t.called r fn args
  | .invoke r fn args _ _ => t.called r fn args
  | _ => .stuck

/-- The instructions of a block, up to the first that invokes a method or raises. -/
def executes : List Instr → Activation α → Progress α
  | [], t => .running t
  | i :: is, t =>
      match t.execute i with
      | .running t' => executes is t'
      | p => p

/-- `pup_invoke` calls the method with what it has been given. -/
def pupInvoke (t : Activation α) (target : α) (argv : Word α) : Activation α where
  call := t.call + 1
  target := target
  argv := argv
  regs _ := .other
  cells := t.cells
  reads := []

end Activation

/-- The name of the local of a parameter. -/
def paramName : Param → String
  | .mk name _ => name

/-- What is to come of passing `values` to a method with the parameters `names`: nothing after
the values is read, and the body begins with each parameter in its local, or the number of values
is wrong and an error is raised.  Without a body there are no locals. -/
def Passed (names : List String) (hasBody : Bool) (locals : List (String × Nat))
    (values : List α) (argv : Word α) : Progress α → Prop
  | .running t =>
      (∀ p i, argv = .pointer p 0 → (p, i) ∈ t.reads → i < values.length) ∧
      values.length = names.length ∧
      (hasBody → ∀ (i : Nat) (name : String), names[i]? = some name →
        ∃ r, locals.lookup name = some r ∧ values[i]? = some (t.cells (.slot t.call r) 0))
  | .raised t =>
      (∀ p i, argv = .pointer p 0 → (p, i) ∈ t.reads → i < values.length) ∧
      values.length ≠ names.length
  | _ => False

/-- The code of an invocation: the entry block of the caller has been executed, and then its own
block is. -/
def callCode (g g' : CodegenContext) (entry : Nat) : List Instr :=
  (if entry = g.build then [] else added g g' entry) ++ added g g' g.build

/-- What a method does before its body. -/
def beforeBody (params : Option (List Param)) (body : Option (List Stmt)) : Gen Unit :=
  if body.isSome then codegenArgs 0 (params.getD []) else return

/-- The code of an invocation is executed and then that of the method, and what becomes of the
values is what is to come of them. -/
def Passes (code entry : List Instr) (names : List String) (hasBody : Bool)
    (locals : List (String × Nat)) (values : List α) (target : α) (t : Activation α) : Prop :=
  ∃ t' argv, Activation.executes code t = .invokes t' values.length argv ∧
    Passed names hasBody locals values argv
      (Activation.executes entry (t'.pupInvoke target argv))

/-! ### Executing what has been generated -/

variable {g g' g₀ g₁ : CodegenContext} {t t' t₀ t₁ : Activation α} {b : Nat} {p : Place}

theorem executes_append {is : List Instr} (h : Activation.executes is t = .running t')
    (js : List Instr) : Activation.executes (is ++ js) t = Activation.executes js t' := by
  induction is generalizing t with
  | nil =>
      obtain rfl := Progress.running.inj h
      rfl
  | cons i is ih =>
      rw [List.cons_append, Activation.executes]
      rw [Activation.executes] at h
      cases hi : t.execute i with
      | running t₁ =>
          rw [hi] at h
          exact ih h
      | invokes _ _ _ =>
          rw [hi] at h
          cases h
      | raised _ =>
          rw [hi] at h
          cases h
      | stuck =>
          rw [hi] at h
          cases h

/-- The code that the block has got takes one to the other. -/
def Goes (b : Nat) (g : CodegenContext) (t : Activation α) (g' : CodegenContext)
    (t' : Activation α) : Prop :=
  ∃ code, g'.instrs b = g.instrs b ++ code ∧ Activation.executes code t = .running t'

theorem Goes.refl : Goes b g t g t := ⟨[], (List.append_nil _).symm, rfl⟩

theorem Goes.trans (h : Goes b g₀ t₀ g t) (h' : Goes b g t g' t') : Goes b g₀ t₀ g' t' := by
  obtain ⟨code, hinstrs, hrun⟩ := h
  obtain ⟨code', hinstrs', hrun'⟩ := h'
  exact ⟨code ++ code', by rw [hinstrs', hinstrs, List.append_assoc],
    (executes_append hrun code').trans hrun'⟩

theorem Goes.congr (h : Goes b g₀ t₀ g t) (hinstrs : g'.instrs b = g.instrs b) :
    Goes b g₀ t₀ g' t := by
  obtain ⟨code, hcode, hrun⟩ := h
  exact ⟨code, hinstrs.trans hcode, hrun⟩

theorem Goes.emitAt (h : Goes b g₀ t₀ g t) (hb : b < g.blocks.length) {i : Instr}
    (hi : t.execute i = .running t') : Goes b g₀ t₀ (g.emitAt b i) t' := by
  refine h.trans ⟨[i], CodegenContext.emitAt_instrs_self hb i, ?_⟩
  rw [Activation.executes, hi]
  rfl

theorem Goes.emitNew (h : Goes b g₀ t₀ g t) (hb : b < g.blocks.length) {i : Nat → Instr}
    (hi : t.execute (i g.next) = .running t') : Goes b g₀ t₀ (g.emitNew b i) t' :=
  (h.emitAt hb hi).congr rfl

/-- Registers that have been set stay so. -/
theorem Activation.set_of_lt {r n : Nat} (h : r < n) (w : Word α) :
    (t.set n w).regs r = t.regs r :=
  Function.update_of_ne h.ne ..

@[simp] theorem Activation.set_self (r : Nat) (w : Word α) : (t.set r w).regs r = w :=
  Function.update_self ..

/-! ### The method -/

/-- The locals that have been made are in slots of their own. -/
structure Slots (g : CodegenContext) (t : Activation α) : Prop where
  regs : ∀ q ∈ g.current_method.locals, t.regs q.2 = .pointer (.slot t.call q.2) 0
  nodup : (g.current_method.locals.map Prod.snd).Nodup

/-- Setting new registers does not change the slots. -/
theorem Slots.set (h : Slots g t) (hg : WellFormed g) {n : Nat} (hn : g.next ≤ n) (w : Word α) :
    Slots g (t.set n w) where
  regs q hq := (t.set_of_lt ((hg.locals_lt q hq).trans_le hn) w).trans (h.regs q hq)
  nodup := h.nodup

/-- Different locals are in different slots. -/
theorem Slots.lookup_inj (h : Slots g t) {name name' : String} {r : Nat}
    (hname : g.current_method.locals.lookup name = some r)
    (hname' : g.current_method.locals.lookup name' = some r) : name = name' := by
  have heq := List.inj_on_of_nodup_map h.nodup (mem_of_lookup hname) (mem_of_lookup hname') rfl
  exact (Prod.mk.inj heq).1

theorem goes_getOrCreateLocal (hg : WellFormed g) (he : IsEntry g g.build) (hslots : Slots g t)
    {name : String} {slot : Operand} (hrun : getOrCreateLocal name g = .ok (slot, g')) :
    ∃ r regs, slot = .reg r ∧ g'.current_method.locals.lookup name = some r ∧
      (∀ name', name' ≠ name →
        g'.current_method.locals.lookup name' = g.current_method.locals.lookup name') ∧
      (∀ r', g.current_method.locals.lookup name = some r' → r' = r) ∧
      Goes g.build g t g' { t with regs := regs } ∧ Slots g' { t with regs := regs } ∧
      g'.build = g.build := by
  rw [getOrCreateLocal, bind_ok] at hrun
  obtain ⟨found, _, hget, hrun⟩ := hrun
  obtain ⟨rfl, rfl⟩ := Prod.mk.inj (Except.ok.inj hget)
  cases hlookup : g.current_method.locals.lookup name with
  | some r =>
      rw [hlookup] at hrun
      obtain ⟨rfl, rfl⟩ := pure_ok.mp hrun
      exact ⟨r, t.regs, rfl, hlookup, fun _ _ => rfl, fun _ h => (Option.some.inj h).symm, .refl,
        hslots, rfl⟩
  | none =>
      rw [hlookup] at hrun
      obtain ⟨e, he', rfl, rfl⟩ := createLocal_ok hg hrun
      obtain rfl := he.unique he'
      have hlt := hg.build_lt
      -- the slot, the cast of it and the mark
      let t₁ := t.set g.next (.pointer (.slot t.call g.next) 0)
      let t₂ := t₁.set (g.next + 1) (t₁.eval (.reg g.next))
      let t₃ := t₂.set (g.next + 2) .other
      let g₁ := g.emitNew g.build .alloca
      let g₂ := g₁.emitNew g.build fun c => .bitCast c (.reg g.next)
      have hlt₁ : g.build < g₁.blocks.length := hlt.trans_le (CodegenContext.emitAt_length _ _).ge
      have hlt₂ : g.build < g₂.blocks.length := hlt₁.trans_le (CodegenContext.emitAt_length _ _).ge
      have hgoes₁ : Goes g.build g t g₁ t₁ := Goes.refl.emitNew hlt rfl
      have hgoes₂ : Goes g.build g t g₂ t₂ := hgoes₁.emitNew hlt₁ rfl
      have hgoes₃ : Goes g.build g t (g.withLocal g.build name) t₃ :=
        (hgoes₂.emitNew (i := fun c => .call c "llvm.gcroot" [.reg (g.next + 1), .null])
          hlt₂ rfl).congr rfl
      have hslot : t₃.regs g.next = .pointer (.slot t.call g.next) 0 := by
        rw [t₂.set_of_lt (by omega), t₁.set_of_lt (by omega), Activation.set_self]
      have hold := ((hslots.set hg (Nat.le_refl _) (.pointer (.slot t.call g.next) 0)).set hg
        (Nat.le_succ _) (t₁.eval (.reg g.next))).set hg
          (Nat.le_succ_of_le (Nat.le_succ g.next)) .other
      refine ⟨g.next, t₃.regs, rfl, List.lookup_cons_self, fun name' hne => ?_, by simp, hgoes₃,
        ⟨?_, ?_⟩, rfl⟩
      · show List.lookup name' ((name, g.next) :: g.current_method.locals) = _
        rw [List.lookup_cons, beq_false_of_ne hne]
      · exact List.forall_mem_cons.mpr ⟨hslot, hold.regs⟩
      · refine List.nodup_cons.mpr ⟨fun hmem => ?_, hslots.nodup⟩
        obtain ⟨q, hq, heq⟩ := List.mem_map.mp hmem
        exact absurd heq (hg.locals_lt q hq).ne

/-- What the parameters from `i` on have come to: they have been read in order, and each local
has the argument of a parameter of its name. -/
structure Copied (p : Place) (params : List Param) (i : Nat) (g : CodegenContext)
    (t : Activation α) (g' : CodegenContext) (t' : Activation α) : Prop where
  goes : Goes g.build g t g' t'
  call : t'.call = t.call
  array : t'.cells p = t.cells p
  reads : t'.reads = t.reads ++ (List.range' i params.length).map (p, ·)
  kept : ∀ name r, g.current_method.locals.lookup name = some r →
    g'.current_method.locals.lookup name = some r
  made : ∀ name ∈ params.map paramName, ∃ r, g'.current_method.locals.lookup name = some r
  values : ∀ name r, g'.current_method.locals.lookup name = some r →
    (∃ j, (params.map paramName)[j]? = some name ∧
      t'.cells (.slot t.call r) 0 = t.cells p (i + j)) ∨
    (name ∉ params.map paramName ∧ g.current_method.locals.lookup name = some r ∧
      t'.cells (.slot t.call r) 0 = t.cells (.slot t.call r) 0)

/-- After an argument has been copied to the slot of its parameter. -/
def copying (g : CodegenContext) (i r : Nat) : CodegenContext :=
  ((g.emitNew g.build fun r => .gep r .paramArgv i).emitNew g.build
    fun r => .load r (.reg g.next)).emitAt g.build (.store (.reg (g.next + 1)) (.reg r))

theorem grow_copying (hg : WellFormed g) (i r : Nat) : Grow g (copying g i r) :=
  (((Grow.refl hg).emitNewHere (i := fun r => .gep r .paramArgv i) fun _ => rfl).emitNewHere
    (i := fun r => .load r (.reg g.next)) fun _ => rfl).emitHere
      (i := .store (.reg (g.next + 1)) (.reg r)) rfl

/-- The address of the element, the element and the store of it. -/
theorem goes_copying (hg : WellFormed g) (hslots : Slots g t) (hargv : t.argv = .pointer p 0)
    (i : Nat) {name : String} {r : Nat} (hname : g.current_method.locals.lookup name = some r) :
    ∃ regs, Slots (copying g i r) { t with regs := regs } ∧ Goes g.build g t (copying g i r)
      (({ t with regs := regs }.read p i).write (.slot t.call r) 0 (t.cells p i)) := by
  let g₁ := g.emitNew g.build fun r => .gep r .paramArgv i
  let g₂ := g₁.emitNew g.build fun r => .load r (.reg g.next)
  have hlt := hg.build_lt
  have hlt₁ : g.build < g₁.blocks.length := hlt.trans_le (CodegenContext.emitAt_length _ _).ge
  have hlt₂ : g.build < g₂.blocks.length := hlt₁.trans_le (CodegenContext.emitAt_length _ _).ge
  let t₁ := t.set g.next (.pointer p i)
  let t₂ := (t₁.read p i).set (g.next + 1) (.value (t.cells p i))
  have hslots₁ := hslots.set hg (Nat.le_refl _) (.pointer p i)
  have hslots₂ : Slots g t₂ := Slots.set (t := t₁.read p i) ⟨hslots₁.regs, hslots₁.nodup⟩ hg
    (Nat.le_succ _) (.value (t.cells p i))
  have hgep : t.execute (.gep g.next .paramArgv i) = .running t₁ := by
    simp [Activation.execute, Activation.eval, t₁, hargv]
  have hload : t₁.execute (.load (g.next + 1) (.reg g.next)) = .running t₂ := by
    have hptr : t₁.regs g.next = .pointer p i := Activation.set_self ..
    simp only [Activation.execute, Activation.eval, hptr]
    rfl
  have hstore : t₂.execute (.store (.reg (g.next + 1)) (.reg r)) =
      .running (t₂.write (.slot t.call r) 0 (t.cells p i)) := by
    have hptr : t₂.regs r = .pointer (.slot t.call r) 0 := hslots₂.regs _ (mem_of_lookup hname)
    have harg : t₂.regs (g.next + 1) = .value (t.cells p i) := Activation.set_self ..
    simp only [Activation.execute, Activation.eval, hptr, harg]
  exact ⟨t₂.regs, ⟨hslots₂.regs, hslots₂.nodup⟩,
    ((Goes.refl.emitNew hlt hgep).emitNew hlt₁ hload).emitAt hlt₂ hstore⟩

/-- One parameter. -/
theorem copied_param (hg : WellFormed g) (he : IsEntry g g.build) (hslots : Slots g t)
    (hargv : t.argv = .pointer p 0) (hp : ∀ r, p ≠ .slot t.call r) (i : Nat) {name : String}
    (init : Option Expr) {slot : Operand} (hrun : getOrCreateLocal name g = .ok (slot, g₁)) :
    ∃ r t₁, slot = .reg r ∧ Slots (copying g₁ i r) t₁ ∧ t₁.argv = t.argv ∧ g₁.build = g.build ∧
      Copied p [.mk name init] i g t (copying g₁ i r) t₁ := by
  obtain ⟨r, regs, rfl, hname, hothers, hsame, hgoes, hslots₁, hbuild⟩ :=
    goes_getOrCreateLocal hg he hslots hrun
  have hg₁ := (stableExpr_grow.getOrCreateLocal name g _ g₁ hg hrun).wellFormed
  obtain ⟨regs', hslots₂, hgoes'⟩ := goes_copying (p := p) hg₁ hslots₁ hargv i hname
  let t₁ := ({ t with regs := regs' }.read p i).write (.slot t.call r) 0 (t.cells p i)
  have hcells : ∀ q, q ≠ .slot t.call r → t₁.cells q = t.cells q := fun q hq =>
    Function.update_of_ne hq ..
  have hcell : t₁.cells (.slot t.call r) 0 = t.cells p i := by
    simp [t₁, Activation.write]
  rw [hbuild] at hgoes'
  refine ⟨r, t₁, rfl, ⟨hslots₂.regs, hslots₂.nodup⟩, rfl, hbuild, hgoes.trans hgoes', rfl,
    hcells p (hp r), rfl, fun name' r' hr' => ?_, fun name' hname' => ?_, fun name' r' hr' => ?_⟩
  · show g₁.current_method.locals.lookup name' = some r'
    by_cases hne : name' = name
    · subst hne
      rw [hname, hsame r' hr']
    · rw [hothers name' hne, hr']
  · obtain rfl := List.mem_singleton.mp hname'
    exact ⟨r, hname⟩
  · have hr₁ : g₁.current_method.locals.lookup name' = some r' := hr'
    by_cases hne : name' = name
    · subst hne
      obtain rfl := Option.some.inj (hr₁.symm.trans hname)
      exact .inl ⟨0, rfl, hcell⟩
    · have hr : r' ≠ r := fun heq => hne (hslots₁.lookup_inj (heq ▸ hr₁) hname)
      refine .inr ⟨by simpa [paramName] using hne, (hothers name' hne).symm.trans hr₁, ?_⟩
      rw [hcells (.slot t.call r') (by simpa using hr)]

/-- One parameter, and then the others. -/
theorem Copied.cons {param : Param} {params : List Param} {i : Nat}
    (h : Copied p [param] i g t g₁ t₁) (h' : Copied p params (i + 1) g₁ t₁ g' t')
    (hbuild : g₁.build = g.build) : Copied p (param :: params) i g t g' t' where
  goes := h.goes.trans (hbuild ▸ h'.goes)
  call := h'.call.trans h.call
  array := h'.array.trans h.array
  reads := by
    rw [h'.reads, h.reads, List.length_cons, List.range'_succ, List.map_cons]
    exact List.append_assoc ..
  kept name r hr := h'.kept name r (h.kept name r hr)
  made name hname := by
    rcases List.mem_cons.mp hname with rfl | hmem
    · obtain ⟨r, hr⟩ := h.made _ (.head _)
      exact ⟨r, h'.kept _ r hr⟩
    · exact h'.made name hmem
  values name r hr := by
    rcases h'.values name r hr with ⟨j, hj, hvalue⟩ | ⟨hnot, hr₁, hvalue⟩
    · refine .inl ⟨j + 1, hj, ?_⟩
      rw [h.call, h.array] at hvalue
      rw [hvalue]
      congr 1
      omega
    · rw [h.call] at hvalue
      rcases h.values name r hr₁ with ⟨j, hj, hvalue'⟩ | ⟨hnot', hr₀, hvalue'⟩
      · match j, hj with
        | 0, hj => exact .inl ⟨0, hj, hvalue.trans hvalue'⟩
      · refine .inr ⟨?_, hr₀, hvalue.trans hvalue'⟩
        rw [List.map_cons, List.mem_cons, not_or]
        exact ⟨fun heq => hnot' (List.mem_singleton.mpr heq), hnot⟩

/-- **What a method does with its arguments**, whatever their number is. -/
theorem copied_codegenArgs {params : List Param} {i : Nat} (hg : WellFormed g)
    (he : IsEntry g g.build) (hslots : Slots g t) (hargv : t.argv = .pointer p 0)
    (hp : ∀ r, p ≠ .slot t.call r) (hrun : codegenArgs i params g = .ok ((), g')) :
    ∃ t', Copied p params i g t g' t' := by
  induction params generalizing i g t with
  | nil =>
      obtain ⟨-, rfl⟩ := pure_ok.mp hrun
      exact ⟨t, .refl, rfl, rfl, by simp, fun _ _ => id, nofun, fun _ _ h => .inr ⟨nofun, h, rfl⟩⟩
  | cons param params ih =>
      obtain ⟨name, init⟩ := param
      simp only [codegenArgs, bind_ok, emitReg_ok, emit_ok] at hrun
      obtain ⟨slot, g₁, hlocal, _, _, ⟨rfl, rfl⟩, _, _, ⟨rfl, rfl⟩, _, _, rfl, hrun⟩ := hrun
      obtain ⟨r, t₁, rfl, hslots₁, hargv₁, hbuild, hparam⟩ :=
        copied_param hg he hslots hargv hp i init hlocal
      have hgrow₁ := stableExpr_grow.getOrCreateLocal name g _ g₁ hg hlocal
      have hgrow₂ := grow_copying hgrow₁.wellFormed i r
      have he' : IsEntry (copying g₁ i r) (copying g₁ i r).build := by
        have hentry := (hgrow₁.trans hgrow₂).isEntry he
        rw [← hbuild] at hentry
        exact hentry
      have hrest : codegenArgs (i + 1) params (copying g₁ i r) = .ok ((), g') := hrun
      obtain ⟨t', hcopied⟩ := ih hgrow₂.wellFormed he' hslots₁ (hargv₁.trans hargv)
        (hparam.call ▸ hp) hrest
      exact ⟨t', hparam.cons hcopied hbuild⟩

/-! ### The caller -/

/-- The operand has the value, and no register from `n` on is in it. -/
def Given (t : Activation α) (n : Nat) (v : Operand) (a : α) : Prop :=
  t.eval v = .value a ∧ ∀ r, v = .reg r → r < n

theorem Given.set {n r : Nat} {v : Operand} {a : α} (h : Given t n v a) (hr : n ≤ r)
    (w : Word α) : Given (t.set r w) n v a := by
  refine ⟨?_, h.2⟩
  rw [← h.1]
  cases v with
  | reg r' => exact t.set_of_lt ((h.2 r' rfl).trans_le hr) w
  | _ => rfl

theorem goes_storeArgs {a n : Nat} {args : List Operand} {values : List α} {i : Nat}
    (hg : WellFormed g) (ha : a < n) (hn : n ≤ g.next)
    (harray : t.regs a = .pointer p 0) (hargs : List.Forall₂ (Given t n) args values)
    (hrun : storeArgs (.reg a) i args g = .ok ((), g')) :
    ∃ t', Goes g.build g t g' t' ∧ t'.call = t.call ∧ t'.regs a = .pointer p 0 ∧
      g'.build = g.build ∧ g.next ≤ g'.next ∧ (∀ b, b ≠ g.build → g'.instrs b = g.instrs b) ∧
      (∀ k < i, t'.cells p k = t.cells p k) ∧
      ∀ k c, values[k]? = some c → t'.cells p (i + k) = c := by
  induction args generalizing i values g t with
  | nil =>
      cases hargs
      obtain ⟨-, rfl⟩ := pure_ok.mp hrun
      exact ⟨t, .refl, rfl, harray, rfl, Nat.le_refl _, fun _ _ => rfl, fun _ _ => rfl, nofun⟩
  | cons v args ih =>
      cases hargs with | @cons _ c _ values hv hargs =>
      simp only [storeArgs, bind_ok, emitReg_ok, emit_ok] at hrun
      obtain ⟨_, _, ⟨rfl, rfl⟩, _, _, rfl, hrun⟩ := hrun
      let g₁ := g.emitNew g.build fun r => .gep r (.reg a) i
      let t₁ := t.set g.next (.pointer p i)
      let t₂ := t₁.write p i c
      have hlt := hg.build_lt
      have hlt₁ : g.build < g₁.blocks.length := hlt.trans_le (CodegenContext.emitAt_length _ _).ge
      have hgep : t.execute (.gep g.next (.reg a) i) = .running t₁ := by
        simp [Activation.execute, Activation.eval, harray, t₁]
      have hstore : t₁.execute (.store v (.reg g.next)) = .running t₂ := by
        have hptr : t₁.eval (.reg g.next) = .pointer p i := Activation.set_self ..
        have harg : t₁.eval v = .value c := (hv.set hn _).1
        simp only [Activation.execute, harg, hptr, t₂]
      have hgoes : Goes g.build g t (g₁.emitAt g.build (.store v (.reg g.next))) t₂ :=
        (Goes.refl.emitNew hlt hgep).emitAt hlt₁ hstore
      have hgrow := ((Grow.refl hg).emitNewHere (i := fun r => .gep r (.reg a) i)
        fun _ => rfl).emitHere (i := .store v (.reg g.next)) rfl
      have harray₂ : t₂.regs a = .pointer p 0 :=
        (t.set_of_lt (ha.trans_le hn) _).trans harray
      obtain ⟨t', hgoes', hcall, harray', hbuild, hnext, hothers, hbefore, hafter⟩ :=
        ih (t := t₂) hgrow.wellFormed (hn.trans (Nat.le_succ _)) harray₂
          (hargs.imp fun _ _ hv => hv.set hn _) hrun
      refine ⟨t', hgoes.trans hgoes', hcall, harray', hbuild, (Nat.le_succ _).trans hnext,
        fun b hb => ?_, fun k hk => ?_, fun k c' hk => ?_⟩
      · rw [hothers b hb]
        exact (CodegenContext.emitAt_instrs_ne hb _).trans (CodegenContext.emitAt_instrs_ne hb _)
      · rw [hbefore k (Nat.lt_succ_of_lt hk)]
        simp [t₂, t₁, Activation.write, Activation.set, Function.update_of_ne hk.ne]
      · cases k with
        | zero =>
            obtain rfl := Option.some.inj hk
            rw [Nat.add_zero, hbefore i (Nat.lt_succ_self i)]
            simp [t₂, Activation.write]
        | succ k =>
            rw [Nat.add_succ, ← Nat.succ_add]
            exact hafter k c' hk

/-- What an invocation does after its array has been filled: the number of the name, and the call
that passes on the arguments. -/
theorem buildMethodInvocation_ok (hg : WellFormed g) {receiver v : Operand} {name : String}
    {args : List Operand} (hrun : buildMethodInvocation receiver name args g = .ok (v, g')) :
    ∃ argv g₁ i, buildArgv args g = .ok (argv, g₁) ∧
      g'.instrs g₁.build = g₁.instrs g₁.build ++
        [.call g₁.next "pup_env_str_to_sym" [.env, .str name], i] ∧
      (∀ b, b ≠ g₁.build → g'.instrs b = g₁.instrs b) ∧
      ∀ {α : Type} (t : Activation α), t.execute i = .invokes t args.length (t.eval argv) := by
  rw [buildMethodInvocation, bind_ok] at hrun
  obtain ⟨argv, g₁, hargv, hrun⟩ := hrun
  simp only [mkSym, bind_ok, buildCall_ok, get_ok] at hrun
  obtain ⟨_, _, ⟨rfl, rfl⟩, _, _, ⟨rfl, rfl⟩, hrun⟩ := hrun
  have hg₁ := (stable_grow.buildArgv args g argv g₁ hg hargv).wellFormed
  let g₂ := g₁.emitNew g₁.build fun r => .call r "pup_env_str_to_sym" [.env, .str name]
  have hlt₂ : g₁.build < g₂.blocks.length :=
    hg₁.build_lt.trans_le (CodegenContext.emitAt_length _ _).ge
  have hself₂ : g₂.instrs g₁.build = g₁.instrs g₁.build ++
      [.call g₁.next "pup_env_str_to_sym" [.env, .str name]] :=
    CodegenContext.emitAt_instrs_self hg₁.build_lt _
  have hne₂ : ∀ b, b ≠ g₁.build → g₂.instrs b = g₁.instrs b := fun b hb =>
    CodegenContext.emitAt_instrs_ne hb _
  cases hpad : g₁.landingpad with
  | none =>
      rw [show (g₁.emitNew g₁.build fun r => .call r "pup_env_str_to_sym"
        [.env, .str name]).landingpad = none from hpad] at hrun
      obtain ⟨rfl, rfl⟩ := buildCall_ok.mp hrun
      refine ⟨argv, g₁, .call g₂.next "pup_invoke" [.env, receiver, .reg g₁.next,
        .int args.length, argv], hargv, ?_, fun b hb => ?_, fun _ => rfl⟩
      · exact (CodegenContext.emitAt_instrs_self hlt₂ _).trans
          ((congrArg (· ++ [_]) hself₂).trans (List.append_assoc ..))
      · exact (CodegenContext.emitAt_instrs_ne hb _).trans (hne₂ b hb)
  | some pad =>
      rw [show (g₁.emitNew g₁.build fun r => .call r "pup_env_str_to_sym"
        [.env, .str name]).landingpad = some pad from hpad] at hrun
      simp only [bind_ok, appendBlock_ok, emitReg_ok, positionAtEnd_ok, pure_ok] at hrun
      obtain ⟨_, _, ⟨rfl, rfl⟩, _, _, ⟨rfl, rfl⟩, _, _, rfl, rfl, rfl⟩ := hrun
      let g₃ := g₂.append s!"invoke_{name}_continue"
      have hlt₃ : g₁.build < g₃.blocks.length := by
        rw [CodegenContext.append_length]
        exact Nat.lt_succ_of_lt hlt₂
      refine ⟨argv, g₁, .invoke g₃.next "pup_invoke" [.env, receiver, .reg g₁.next,
        .int args.length, argv] g₂.blocks.length pad, hargv, ?_, fun b hb => ?_, fun _ => rfl⟩
      · refine (CodegenContext.emitAt_instrs_self hlt₃ _).trans ?_
        rw [CodegenContext.append_instrs]
        exact (congrArg (· ++ [_]) hself₂).trans (List.append_assoc ..)
      · exact (CodegenContext.emitAt_instrs_ne hb _).trans
          ((CodegenContext.append_instrs _ b).trans (hne₂ b hb))

theorem added_eq {xs : List Instr} (h : g'.instrs b = g.instrs b ++ xs) :
    added g g' b = xs := by
  rw [added, h, List.drop_left]

theorem callCode_eq {e : Nat} {rest : List Instr}
    (hself : g'.instrs g.build = g.instrs g.build ++ rest)
    (hentry : e ≠ g.build → g'.instrs e = g.instrs e) : callCode g g' e = rest := by
  rw [callCode, added_eq hself]
  split
  · rfl
  · next hne => rw [added_eq ((hentry hne).trans (List.append_nil _).symm), List.nil_append]

/-- The array is allocated first. -/
theorem callCode_emitNew {e : Nat} (he : e < g.blocks.length) {i : Nat → Instr}
    {rest : List Instr}
    (hself : g'.instrs g.build = (g.emitNew e i).instrs g.build ++ rest)
    (hentry : e ≠ g.build → g'.instrs e = (g.emitNew e i).instrs e) :
    callCode g g' e = i g.next :: rest := by
  have hnew : (g.emitNew e i).instrs e = g.instrs e ++ [i g.next] :=
    CodegenContext.emitAt_instrs_self he _
  rw [callCode]
  split
  · next heq =>
      rw [← heq, hnew, List.append_assoc] at hself
      rw [← heq, added_eq hself]
      rfl
  · next hne =>
      have hsame : (g.emitNew e i).instrs g.build = g.instrs g.build :=
        CodegenContext.emitAt_instrs_ne (Ne.symm hne) _
      rw [added_eq ((hentry hne).trans hnew), added_eq (hself.trans (by rw [hsame]))]
      rfl

/-- The last two instructions of an invocation. -/
theorem executes_invocation {code : List Instr} (h : Activation.executes code t = .running t₁)
    {r argc : Nat} {name : String} {i : Instr} {argv : Operand}
    (hi : ∀ t : Activation α, t.execute i = .invokes t argc (t.eval argv)) :
    Activation.executes (code ++ [.call r "pup_env_str_to_sym" [.env, .str name], i]) t =
      .invokes (t₁.set r .other) argc ((t₁.set r .other).eval argv) := by
  have hsym : t₁.execute (.call r "pup_env_str_to_sym" [.env, .str name]) =
      .running (t₁.set r .other) := rfl
  rw [executes_append h, Activation.executes, hsym]
  show Activation.executes [i] (t₁.set r .other) = _
  rw [Activation.executes, hi]

/-- **What an invocation passes on**: how many arguments there are, and an array that they are
in. -/
theorem executes_callCode (hg : WellFormed g) {receiver v : Operand} {name : String}
    {args : List Operand} {values : List α}
    (hrun : buildMethodInvocation receiver name args g = .ok (v, g'))
    (hargs : List.Forall₂ (Given t g.next) args values) {e : Nat} (he : IsEntry g e) :
    ∃ t' p, Activation.executes (callCode g g' e) t =
        .invokes t' values.length (.pointer p 0) ∧
      t'.call = t.call ∧ (∀ r, p ≠ .slot (t.call + 1) r) ∧
      ∀ k c, values[k]? = some c → t'.cells p k = c := by
  obtain ⟨argv, g₁, i, hargv, hself, hothers, hinvoke⟩ := buildMethodInvocation_ok hg hrun
  rw [← hargs.length_eq]
  unfold buildArgv at hargv
  split at hargv
  · next hempty =>
      obtain ⟨rfl, rfl⟩ := pure_ok.mp hargv
      obtain rfl := List.isEmpty_iff.mp hempty
      cases hargs
      refine ⟨t.set g₁.next .other, .null, ?_, rfl, nofun, nofun⟩
      rw [callCode_eq hself (hothers e)]
      exact executes_invocation (show Activation.executes [] t = .running t from rfl) hinvoke
  · simp only [bind_ok, emitRegAt_ok, pure_ok] at hargv
    obtain ⟨e', _, hbuilder, r, _, ⟨rfl, rfl⟩, u, _, hstore, rfl, rfl⟩ := hargv
    obtain ⟨he', hsame⟩ := entryBlockBuilder_ok hg hbuilder
    obtain rfl := hsame.symm
    obtain rfl := he.unique he'
    let t₀ := t.set g.next (.pointer (.slot t.call g.next) 0)
    have halloca := stable_grow.emitNewEntry hg he (i := fun r => .arrayAlloca r args.length)
      (fun _ => rfl) fun _ => rfl
    obtain ⟨t₁, ⟨code, hcode, hgoes⟩, hcall, harray, hbuild, hnext, hothers', -, hafter⟩ :=
      goes_storeArgs (n := g.next + 1) (t := t₀) halloca.wellFormed (Nat.lt_succ_self _)
        (Nat.le_refl _) (Activation.set_self ..)
        (hargs.imp fun v c hv => ⟨(hv.set (Nat.le_refl _) _).1, fun r hr =>
          Nat.lt_succ_of_lt (hv.2 r hr)⟩) hstore
    have hbuild' : g₁.build = g.build := hbuild
    rw [hbuild'] at hself hothers
    have hrest : g'.instrs g.build = (g.emitNew e fun r => .arrayAlloca r args.length).instrs
        g.build ++ (code ++ [.call g₁.next "pup_env_str_to_sym" [.env, .str name], i]) := by
      rw [hself, ← List.append_assoc]
      exact congrArg (· ++ _) hcode
    have hcells : ∀ k c, values[k]? = some c →
        (t₁.set g₁.next .other).cells (.slot t.call g.next) k = c := fun k c hk => by
      have hvalue := hafter k c hk
      rw [Nat.zero_add] at hvalue
      exact hvalue
    refine ⟨t₁.set g₁.next .other, .slot t.call g.next, ?_, hcall, by simp, hcells⟩
    rw [callCode_emitNew (CodegenContext.lt_of_fnOf (entry_iff.mp he).1) hrest
      fun hne => (hothers e hne).trans (hothers' e hne)]
    have halloc : t.execute (.arrayAlloca g.next args.length) = .running t₀ := rfl
    rw [Activation.executes, halloc]
    show Activation.executes (code ++ _) t₀ = _
    rw [executes_invocation hgoes hinvoke]
    have hlt : g.next < g₁.next := hnext
    exact congrArg _ ((t₁.set_of_lt hlt _).trans harray)

/-! ### From the caller to the method -/

theorem isEntry_inMethodBlock (hg : WellFormed g) :
    IsEntry (g.inMethodBlock "") (g.inMethodBlock "").build := by
  refine entry_iff.mpr ⟨inMethodBlock_fnOf_self "", fun b hb hfn => ?_⟩
  rw [inMethodBlock_fnOf "" hb] at hfn
  exact absurd (hg.fn_lt b _ hfn) (Nat.lt_irrefl _)

/-- The code that a method has before its body is at the beginning of its first block. -/
theorem beforeBody_ok (hg : WellFormed g) {name : String} {params : Option (List Param)}
    {body : Option (List Stmt)} {v : Operand}
    (hrun : codegenStmt (.methodDef name params body) g = .ok (v, g')) :
    ∃ gm, beforeBody params body (g.inMethodBlock "") = .ok ((), gm) ∧
      gm.instrs g.blocks.length <+: g'.instrs g.blocks.length := by
  obtain ⟨steps⟩ := codegenMethod_ok hrun
  have hmethod := steps.growMethod hg (grows_codegenMethodBody params body)
  have hdefine := stable_grow.defineMethod _ _ _ _ _ hmethod.wellFormed steps.define
  have hlast : steps.g₁.instrs g.blocks.length <+: g'.instrs g.blocks.length :=
    hdefine.longer g.blocks.length
  cases body with
  | none =>
      refine ⟨g.inMethodBlock "", rfl, ?_⟩
      exact ((grows_codegenMethodBody params none _ _ _ (hg.inMethodBlock "")
        steps.body).longer _).trans hlast
  | some body =>
      obtain ⟨g₁, v', g₂, hargs, hbody, heq⟩ := codegenMethodBody_ok steps.body
      have hgrow₁ := stableExpr_grow.codegenArgs _ 0 _ _ _ (hg.inMethodBlock "") hargs
      have hgrow₂ := grows_codegenStmts body _ _ _ hgrow₁.wellFormed hbody
      refine ⟨g₁, hargs, (hgrow₂.longer _).trans (List.IsPrefix.trans ?_ hlast)⟩
      rw [heq]
      exact CodegenContext.emitAt_longer g₂.build g.blocks.length (.ret v')

/-- Parameters of one name are given the same argument. -/
def SameGiven (names : List String) (values : List α) : Prop :=
  ∀ (i j : Nat) (name : String), names[i]? = some name → names[j]? = some name →
    values[i]? = values[j]?

/-- The arguments that have been copied are what is to come of them when their number is right and
parameters of one name are given the same. -/
theorem Copied.passed_iff {params : List Param} {values : List α}
    (h : Copied p params 0 g t g' t') (hreads : t.reads = [])
    (hcells : ∀ k c, values[k]? = some c → t.cells p k = c) :
    Passed (params.map paramName) true g'.current_method.locals values (.pointer p 0)
      (.running t') ↔
    values.length = params.length ∧ SameGiven (params.map paramName) values := by
  have hvalue : values.length = params.length → ∀ (i : Nat) (name : String),
      (params.map paramName)[i]? = some name → ∃ r j : Nat,
        g'.current_method.locals.lookup name = some r ∧
        (params.map paramName)[j]? = some name ∧
        values[j]? = some (t'.cells (.slot t'.call r) 0) := by
    intro hlen i name hi
    have hmem : name ∈ params.map paramName := List.mem_of_getElem? hi
    obtain ⟨r, hr⟩ := h.made name hmem
    rcases h.values name r hr with ⟨j, hj, hcell⟩ | ⟨hnot, -, -⟩
    · refine ⟨r, j, hr, hj, ?_⟩
      have hlt : j < values.length := by
        rw [hlen]
        simpa using (List.getElem?_eq_some_iff.mp hj).1
      rw [h.call, hcell, Nat.zero_add, hcells j _ (List.getElem?_eq_getElem hlt)]
      exact List.getElem?_eq_getElem hlt
    · exact absurd hmem hnot
  constructor
  · rintro ⟨-, hlen, hlocals⟩
    rw [List.length_map] at hlen
    refine ⟨hlen, fun i j name hi hj => ?_⟩
    obtain ⟨r, hr, hcell⟩ := hlocals rfl i name hi
    obtain ⟨r', hr', hcell'⟩ := hlocals rfl j name hj
    obtain rfl := Option.some.inj (hr.symm.trans hr')
    exact hcell.trans hcell'.symm
  · rintro ⟨hlen, hsame⟩
    refine ⟨fun q i hq hread => ?_, by rw [hlen, List.length_map], fun _ i name hi => ?_⟩
    · obtain ⟨rfl, -⟩ := Word.pointer.inj hq
      rw [h.reads, hreads, List.nil_append] at hread
      obtain ⟨k, hk, heq⟩ := List.mem_map.mp hread
      obtain ⟨-, rfl⟩ := Prod.mk.inj heq
      rw [hlen]
      simpa using hk
    · obtain ⟨r, j, hr, hj, hcell⟩ := hvalue hlen i name hi
      exact ⟨r, hr, (hsame i j name hi hj).trans hcell⟩

theorem passes_iff_passed {code entry : List Instr} {names : List String} {hasBody : Bool}
    {locals : List (String × Nat)} {values : List α} {target : α} {argv : Word α}
    (hcode : Activation.executes code t = .invokes t' values.length argv) :
    Passes code entry names hasBody locals values target t ↔
      Passed names hasBody locals values argv
        (Activation.executes entry (t'.pupInvoke target argv)) := by
  constructor
  · rintro ⟨t₁, argv₁, hcode₁, hpassed⟩
    obtain ⟨rfl, -, rfl⟩ := Progress.invokes.inj (hcode.symm.trans hcode₁)
    exact hpassed
  · intro hpassed
    exact ⟨t', argv, hcode, hpassed⟩

/-- The code before the body is executed to its end, whatever the number of arguments is: so many
are read as there are parameters. -/
theorem executes_beforeBody {gm : CodegenContext} {params : Option (List Param)}
    {body : Option (List Stmt)} {values : List α} (hg : WellFormed g)
    (hrun : beforeBody params body (g.inMethodBlock "") = .ok ((), gm))
    (hp : ∀ r, p ≠ .slot (t.call + 1) r) (target : α)
    (hcells : ∀ k c, values[k]? = some c → t.cells p k = c) :
    ∃ t', Activation.executes (gm.instrs g.blocks.length) (t.pupInvoke target (.pointer p 0)) =
        .running t' ∧
      (body.isSome → t'.reads = (List.range (params.getD []).length).map (p, ·)) ∧
      (Passed ((params.getD []).map paramName) body.isSome gm.current_method.locals values
        (.pointer p 0) (.running t') ↔
      values.length = (params.getD []).length ∧
        (body.isSome → SameGiven ((params.getD []).map paramName) values)) := by
  have hnil : (g.inMethodBlock "").instrs g.blocks.length = [] := by
    rw [inMethodBlock_instrs]
    exact CodegenContext.instrs_of_length_le (Nat.le_refl _)
  cases body with
  | none =>
      obtain ⟨-, rfl⟩ := pure_ok.mp hrun
      rw [hnil]
      refine ⟨t.pupInvoke target (.pointer p 0), rfl, nofun, ?_⟩
      simp [Passed, Activation.pupInvoke]
  | some body =>
      have hargs : codegenArgs 0 (params.getD []) (g.inMethodBlock "") = .ok ((), gm) := hrun
      obtain ⟨t', hcopied⟩ := copied_codegenArgs (t := t.pupInvoke target (.pointer p 0))
        (hg.inMethodBlock "") (isEntry_inMethodBlock hg) ⟨nofun, .nil⟩ rfl hp hargs
      obtain ⟨code, hcode, hgoes⟩ := hcopied.goes
      have hentry : gm.instrs g.blocks.length = code := by
        refine Eq.trans hcode ?_
        show (g.inMethodBlock "").instrs g.blocks.length ++ code = code
        rw [hnil, List.nil_append]
      rw [hentry, hgoes]
      refine ⟨t', rfl, fun _ => ?_, by simpa using hcopied.passed_iff rfl hcells⟩
      rw [hcopied.reads, List.range_eq_range']
      rfl

/-- **When the arguments of an invocation come to the locals of a method**: there are as many as
parameters, and parameters of one name are given the same.  If there are more no error is raised,
and if there are fewer memory after the array is read. -/
theorem passes_iff {gc gc' gd gd' : CodegenContext} {receiver v vd : Operand}
    {name mname : String} {args : List Operand} {values : List α}
    {params : Option (List Param)} {body : Option (List Stmt)} (t : Activation α) (target : α)
    (hgc : WellFormed gc) (hcall : buildMethodInvocation receiver name args gc = .ok (v, gc'))
    (hargs : List.Forall₂ (Given t gc.next) args values)
    (hgd : WellFormed gd) (hdef : codegenStmt (.methodDef mname params body) gd = .ok (vd, gd')) :
    ∃ e gm, IsEntry gc e ∧ beforeBody params body (gd.inMethodBlock "") = .ok ((), gm) ∧
      gm.instrs gd.blocks.length <+: gd'.instrs gd.blocks.length ∧
      (Passes (callCode gc gc' e) (gm.instrs gd.blocks.length) ((params.getD []).map paramName)
        body.isSome gm.current_method.locals values target t ↔
      values.length = (params.getD []).length ∧
        (body.isSome → SameGiven ((params.getD []).map paramName) values)) := by
  obtain ⟨e, -, he⟩ := hgc.entry
  obtain ⟨gm, hbefore, hprefix⟩ := beforeBody_ok hgd hdef
  obtain ⟨t', p, hcode, hcalled, hp, hcells⟩ := executes_callCode hgc hcall hargs he
  obtain ⟨t'', hentry, -, hpassed⟩ := executes_beforeBody hgd hbefore (hcalled ▸ hp) target hcells
  refine ⟨e, gm, he, hbefore, hprefix, ?_⟩
  rw [passes_iff_passed hcode, hentry, hpassed]

/-- A method that returns its one parameter. -/
def identity : Stmt :=
  .methodDef "f" (some [.mk "a" none]) (some [.expr (.varOrInvoke (.name "a") none none none)])

/-- At the beginning of a program, with `self` a number. -/
def atStart : Activation Nat where
  call := 0
  target := 7
  argv := .pointer .null 0
  regs _ := .other
  cells _ _ := 0
  reads := []

theorem passes_iff_identity : ∃ (gc' gm : CodegenContext) (e : Nat),
    Passes (callCode .unitBody gc' e) (gm.instrs 2) ["a"] true gm.current_method.locals [7] 7
      atStart ↔ [7].length = 1 ∧ (true → SameGiven ["a"] [7]) := by
  obtain ⟨v, gc', hcall⟩ : ∃ v gc', buildMethodInvocation .paramTarget "f" [.paramTarget]
      .unitBody = .ok (v, gc') := ⟨_, _, rfl⟩
  obtain ⟨vd, gd', hdef⟩ : ∃ vd gd', codegenStmt identity .unitBody = .ok (vd, gd') := ⟨_, _, rfl⟩
  obtain ⟨e, gm, -, -, -, hiff⟩ := passes_iff atStart 7 wellFormed_unitBody hcall
    (List.Forall₂.cons ⟨rfl, nofun⟩ .nil) wellFormed_unitBody hdef
  exact ⟨gc', gm, e, hiff⟩

/-- The method is called without an argument: no error is raised, and what is read is at the null
pointer. -/
theorem identity_reads_null : ∃ v gc' gm, buildMethodInvocation .paramTarget "f" []
      .unitBody = .ok (v, gc') ∧
    beforeBody (some [.mk "a" none]) (some [.expr (.varOrInvoke (.name "a") none none none)])
      (CodegenContext.unitBody.inMethodBlock "") = .ok ((), gm) ∧
    ¬ Passes (callCode .unitBody gc' 0) (gm.instrs 2) ["a"] true gm.current_method.locals [] 7
      atStart := by
  obtain ⟨v, gc', hcall⟩ : ∃ v gc', buildMethodInvocation .paramTarget "f" []
      .unitBody = .ok (v, gc') := ⟨_, _, rfl⟩
  obtain ⟨gm, hbefore⟩ : ∃ gm, beforeBody (some [.mk "a" none])
      (some [.expr (.varOrInvoke (.name "a") none none none)])
      (CodegenContext.unitBody.inMethodBlock "") = .ok ((), gm) := ⟨_, rfl⟩
  refine ⟨v, gc', gm, hcall, hbefore, fun hpasses => ?_⟩
  obtain ⟨t', p, hcode, hcalled, hp, hcells⟩ := executes_callCode (t := atStart)
    wellFormed_unitBody hcall (show List.Forall₂ _ [] [] from .nil) isEntry_unitBody
  obtain ⟨t'', hentry, -, hpassed⟩ := executes_beforeBody wellFormed_unitBody hbefore
    (hcalled ▸ hp) 7 hcells
  have hpassed' := (passes_iff_passed hcode).mp hpasses
  rw [show CodegenContext.unitBody.blocks.length = 2 from rfl] at hentry
  rw [hentry] at hpassed'
  exact absurd (hpassed.mp hpassed').1 (by decide)

end Passing

end Pup.Codegen
