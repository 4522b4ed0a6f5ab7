/-
Executing generated code.

A machine goes through the blocks of a context one instruction after the other.  What it has
from outside is the runtime: the calls that the code makes are events, and what the runtime
answers is a function of the calls so far, so that a method that is called can do anything but
raise.  The number of answers is bounded: after them a call waits.  Without a bound the calls
of a program that does not end would have no end, either.

Slots are numbered by the register of their `alloca`, which the entry block executes once.
`llvm.gcroot` marks a slot and does nothing else.  The address of a field of an object is not
here: only a landing pad takes it.
-/
import Pup.Codegen.Context
import Mathlib.Logic.Function.Iterate

namespace Pup.Codegen

variable {α : Type}

/-! ### The runtime -/

/-- The calls that generated code makes.  All of them have the environment, which is left out,
and all but the number of a symbol and a literal's own value are objects. -/
inductive Call (α : Type)
  | strToSym (name : String)
  | invoke (target sym : α) (args : List α)
  | ivSet (obj sym value : α)
  | ivGet (obj sym : α)
  | fixnumCreate (value : Nat)
  | stringNewCstr (value : String)
  | getTrueinstance
  | getFalseinstance
  | safepoint
  | classContextFrom (obj : α)
  | constGetRequired (class_ sym : α)
  deriving DecidableEq, Repr

/-- What a program runs with. -/
structure Runtime (α : Type) where
  self : α
  trueinstance : α
  falseinstance : α
  /-- The answer to the last of the calls. -/
  answer : List (Call α) → α

/-- The calls so far, and how many more will be answered. -/
structure World (α : Type) where
  calls : List (Call α)
  left : Nat

/-- A call is made, and answered if it is. -/
def World.call (R : Runtime α) (c : Call α) (w : World α) : Option α × World α :=
  let calls := w.calls ++ [c]
  match c, w.left with
  | .getTrueinstance, left => (some R.trueinstance, ⟨calls, left⟩)
  | .getFalseinstance, left => (some R.falseinstance, ⟨calls, left⟩)
  | _, 0 => (none, ⟨calls, 0⟩)
  | _, left + 1 => (some (R.answer calls), ⟨calls, left⟩)

/-! ### The machine -/

/-- What a register can hold, and what else an operand can be. -/
inductive Word (α : Type)
  | value (a : α)
  | pointer (slot i : Nat)
  | bit (b : Bool)
  | env
  | argv
  | null
  | int (n : Nat)
  | str (s : String)
  | function (fn : Nat)
  | global (name : String)
  deriving DecidableEq, Repr

inductive Progress
  | running
  /-- A call has not been answered. -/
  | waiting
  | returned
  /-- The next instruction makes no sense. -/
  | stuck
  deriving DecidableEq, Repr

structure Machine (α : Type) where
  block : Nat
  index : Nat
  regs : Nat → Option (Word α)
  cells : Nat → Nat → α
  world : World α
  progress : Progress

namespace Machine

def eval (R : Runtime α) (t : Machine α) : Operand → Option (Word α)
  | .env => some .env
  | .paramTarget => some (.value R.self)
  | .paramArgv => some .argv
  | .null => some .null
  | .int n => some (.int n)
  | .str s => some (.str s)
  | .function fn => some (.function fn)
  | .global name => some (.global name)
  | .reg r => t.regs r

variable {R : Runtime α} {g : CodegenContext} {t t' t'' : Machine α}

@[simp] theorem eval_env : t.eval R .env = some .env := rfl
@[simp] theorem eval_paramTarget : t.eval R .paramTarget = some (.value R.self) := rfl
@[simp] theorem eval_null : t.eval R .null = some .null := rfl
@[simp] theorem eval_int (n : Nat) : t.eval R (.int n) = some (.int n) := rfl
@[simp] theorem eval_str (s : String) : t.eval R (.str s) = some (.str s) := rfl
@[simp] theorem eval_reg (r : Nat) : t.eval R (.reg r) = t.regs r := rfl

def next (t : Machine α) : Machine α := { t with index := t.index + 1 }

def set (t : Machine α) (r : Nat) (w : Option (Word α)) : Machine α :=
  { t with regs := Function.update t.regs r w }.next

def write (t : Machine α) (slot i : Nat) (a : α) : Machine α :=
  { t with cells := Function.update t.cells slot (Function.update (t.cells slot) i a) }.next

def jump (t : Machine α) (b : Nat) : Machine α := { t with block := b, index := 0 }

def stop (t : Machine α) (progress : Progress) : Machine α := { t with progress := progress }

/-- The arguments of an invocation, which are in its array. -/
def argv (t : Machine α) (argc : Nat) : Word α → Option (List α)
  | .null => if argc = 0 then some [] else none
  | .pointer slot i => some ((List.range argc).map fun k => t.cells slot (i + k))
  | _ => none

/-- What is called. -/
def decode (t : Machine α) (fn : String) (args : List (Word α)) : Option (Call α) :=
  match fn, args with
  | "pup_env_str_to_sym", [.env, .str name] => some (.strToSym name)
  | "pup_invoke", [.env, .value target, .value sym, .int argc, array] =>
      (t.argv argc array).map (.invoke target sym)
  | "pup_iv_set", [.env, .value obj, .value sym, .value value] => some (.ivSet obj sym value)
  | "pup_iv_get", [.value obj, .value sym] => some (.ivGet obj sym)
  | "pup_fixnum_create", [.env, .int value] => some (.fixnumCreate value)
  | "pup_string_new_cstr", [.env, .str value] => some (.stringNewCstr value)
  | "pup_env_get_trueinstance", [.env] => some .getTrueinstance
  | "pup_env_get_falseinstance", [.env] => some .getFalseinstance
  | "pup_env_safepoint", [.env] => some .safepoint
  | "pup_class_context_from", [.env, .value obj] => some (.classContextFrom obj)
  | "pup_const_get_required", [.env, .value class_, .value sym] =>
      some (.constGetRequired class_ sym)
  | _, _ => none

/-- What an instruction calls. -/
def called (R : Runtime α) (t : Machine α) (fn : String) (args : List Operand) :
    Option (Call α) :=
  (args.mapM (t.eval R)).bind (t.decode fn)

/-- What is called is known from the operands' values. -/
theorem called_of_eval {fn : String} {args : List Operand} {words : List (Word α)}
    (h : List.Forall₂ (fun v w => t.eval R v = some w) args words) :
    t.called R fn args = t.decode fn words := by
  have hwords : args.mapM (t.eval R) = some words := by
    induction h with
    | nil => rfl
    | cons hv _ ih => rw [List.mapM_cons, hv, ih]; rfl
  rw [called, hwords]
  rfl

/-- A call is made, and the machine goes on when it has been answered. -/
def perform (R : Runtime α) (t : Machine α) (r : Nat) (c : Call α) : Machine α :=
  match t.world.call R c with
  | (some a, world) => { t with world := world }.set r (some (.value a))
  | (none, world) => { t with world := world }.stop .waiting

def call (R : Runtime α) (t : Machine α) (r : Nat) (fn : String) (args : List Operand) :
    Machine α :=
  if fn = "llvm.gcroot" then t.next
  else match t.called R fn args with
    | some c => t.perform R r c
    | none => t.stop .stuck

variable [DecidableEq α]

def execute (R : Runtime α) (t : Machine α) : Instr → Machine α
  | .alloca r => t.set r (some (.pointer r 0))
  | .arrayAlloca r _ => t.set r (some (.pointer r 0))
  | .bitCast r v => t.set r (t.eval R v)
  | .load r ptr =>
      match t.eval R ptr with
      | some (.pointer slot i) => t.set r (some (.value (t.cells slot i)))
      | _ => t.stop .stuck
  | .store v ptr =>
      match t.eval R v, t.eval R ptr with
      | some (.value a), some (.pointer slot i) => t.write slot i a
      | _, _ => t.stop .stuck
  | .gep r ptr k =>
      match t.eval R ptr with
      | some (.pointer slot i) => t.set r (some (.pointer slot (i + k)))
      | _ => t.stop .stuck
  | .structGep _ _ _ => t.stop .stuck
  | .icmpEq r a b =>
      match t.eval R a, t.eval R b with
      | some (.value a), some (.value b) => t.set r (some (.bit (a = b)))
      | _, _ => t.stop .stuck
  | .call r fn args => t.call R r fn args
  | .invoke r fn args normal _ =>
      let t' := t.call R r fn args
      if t'.progress = .running then t'.jump normal else t'
  | .br b => t.jump b
  | .cond v ifTrue ifFalse =>
      match t.eval R v with
      | some (.bit b) => t.jump (if b then ifTrue else ifFalse)
      | _ => t.stop .stuck
  | .ret _ => t.stop .returned

/-- One instruction. -/
def step (R : Runtime α) (g : CodegenContext) (t : Machine α) : Machine α :=
  match t.progress, (g.instrs t.block)[t.index]? with
  | .running, some i => t.execute R i
  | .running, none => t.stop .stuck
  | _, _ => t

def run (R : Runtime α) (g : CodegenContext) (n : Nat) (t : Machine α) : Machine α :=
  (step R g)^[n] t

/-- At the beginning of a function whose first block is block 0. -/
def start (cells : Nat → Nat → α) (left : Nat) : Machine α where
  block := 0
  index := 0
  regs _ := none
  cells := cells
  world := ⟨[], left⟩
  progress := .running

/-! ### Steps -/

/-- The machine gets there. -/
def Reaches (R : Runtime α) (g : CodegenContext) (t t' : Machine α) : Prop :=
  ∃ n, run R g n t = t'

theorem Reaches.refl (t : Machine α) : Reaches R g t t := ⟨0, rfl⟩

theorem Reaches.trans (h : Reaches R g t t') (h' : Reaches R g t' t'') : Reaches R g t t'' := by
  obtain ⟨n, rfl⟩ := h
  obtain ⟨m, rfl⟩ := h'
  exact ⟨m + n, Function.iterate_add_apply _ m n t⟩

theorem reaches_step (h : step R g t = t') : Reaches R g t t' := ⟨1, h⟩

theorem step_running {i : Instr} (hrun : t.progress = .running)
    (hi : (g.instrs t.block)[t.index]? = some i) : step R g t = t.execute R i := by
  rw [step, hrun, hi]

theorem step_halted (h : t.progress ≠ .running) : step R g t = t := by
  rw [step]
  split
  · contradiction
  · contradiction
  · rfl

/-- A machine that has halted stays as it is. -/
theorem run_halted (h : t.progress ≠ .running) (n : Nat) : run R g n t = t :=
  Function.iterate_fixed (step_halted h) n

theorem Reaches.run_eq (h : Reaches R g t t') (hhalted : t'.progress ≠ .running) :
    ∃ n, ∀ m ≥ n, run R g m t = t' := by
  obtain ⟨n, hn⟩ := h
  refine ⟨n, fun m hm => ?_⟩
  obtain ⟨k, rfl⟩ := Nat.exists_eq_add_of_le' hm
  rw [run, Function.iterate_add_apply]
  exact (congrArg _ hn).trans (run_halted hhalted k)

end Machine

end Pup.Codegen
