/-
The generator's context and what it can do to the module.

The definitions follow `codegen_context.rb`.  The blocks of all functions are one list, each
with the function it belongs to, so that a block is known by its number; the blocks of a
function are in the order in which it got them.  A builder adds instructions at the end of
the block it is at, and what matters of it is that block: `with_builder_at_end` is at another
block for a while.  The builder of the entry block is at the first block of its function.

Registers are numbered through all functions.  The names of registers are left out, and so
are the globals of the module: an operand has the text of a global string.
-/
import Pup.Parse.Ast

namespace Pup.Codegen

/-! ### Instructions -/

/-- What an instruction is applied to. -/
inductive Operand
  /-- The parameters of a generated function. -/
  | env
  | paramTarget
  | paramArgv
  | null
  | int (n : Nat)
  | str (s : String)
  | function (fn : Nat)
  /-- A global of the module that has a name. -/
  | global (name : String)
  | reg (r : Nat)
  deriving DecidableEq, Repr

/-- The instructions that are emitted; the first number is the register of the result. -/
inductive Instr
  | alloca (r : Nat)
  | arrayAlloca (r count : Nat)
  | bitCast (r : Nat) (v : Operand)
  | load (r : Nat) (ptr : Operand)
  | store (v ptr : Operand)
  | gep (r : Nat) (ptr : Operand) (i : Nat)
  | structGep (r : Nat) (ptr : Operand) (i : Nat)
  | icmpEq (r : Nat) (a b : Operand)
  | call (r : Nat) (fn : String) (args : List Operand)
  | invoke (r : Nat) (fn : String) (args : List Operand) (normal exception : Nat)
  | br (block : Nat)
  | cond (v : Operand) (ifTrue ifFalse : Nat)
  | ret (v : Operand)
  deriving DecidableEq, Repr

def Instr.isTerminator : Instr → Bool
  | .invoke .. => true
  | .br .. => true
  | .cond .. => true
  | .ret .. => true
  | _ => false

structure Block where
  fn : Nat
  name : String
  instrs : List Instr
  deriving DecidableEq, Repr

/-! ### The context -/

/-- `MethodRef`: the function, and the registers of its locals. -/
structure MethodRef where
  fn : Nat
  locals : List (String × Nat)
  deriving DecidableEq, Repr

structure CodegenContext where
  blocks : List Block
  functions : Nat
  next : Nat
  /-- The block that the builder is at. -/
  build : Nat
  self_ref : Operand
  current_method : MethodRef
  landingpad : Option Nat
  deriving DecidableEq, Repr

inductive Error
  | raised (message : String)
  | noMethod (name : String)
  /-- `nil` where LLVM wants a block or a value. -/
  | nilGiven
  deriving DecidableEq, Repr

/-- What the generator does to its context. -/
abbrev Gen := StateT CodegenContext (Except Error)

namespace CodegenContext

/-- The instructions of a block. -/
def instrs (g : CodegenContext) (b : Nat) : List Instr := (g.blocks[b]?).elim [] Block.instrs

/-- The first block of a function. -/
def entry? (g : CodegenContext) (fn : Nat) : Option Nat := g.blocks.findIdx? (·.fn = fn)

/-- The builder of a block adds an instruction. -/
def emitAt (g : CodegenContext) (b : Nat) (i : Instr) : CodegenContext :=
  { g with blocks := g.blocks.modify b fun block => { block with instrs := block.instrs ++ [i] } }

/-- `function.basic_blocks.append`, for the current method. -/
def append (g : CodegenContext) (name : String) : CodegenContext :=
  { g with blocks := g.blocks ++ [⟨g.current_method.fn, name, []⟩] }

end CodegenContext

/-! ### Builders -/

/-- An instruction without a result is added where the builder is. -/
def emit (i : Instr) : Gen Unit := fun g => .ok ((), g.emitAt g.build i)

/-- The same at another block. -/
def emitTo (b : Nat) (i : Instr) : Gen Unit := fun g => .ok ((), g.emitAt b i)

/-- An instruction is added at a block, and its result is in a new register. -/
def emitRegAt (b : Nat) (i : Nat → Instr) : Gen Nat := fun g =>
  .ok (g.next, { g.emitAt b (i g.next) with next := g.next + 1 })

/-- The same where the builder is. -/
def emitReg (i : Nat → Instr) : Gen Operand := fun g =>
  .ok (.reg g.next, { g.emitAt g.build (i g.next) with next := g.next + 1 })

/-- A call through `CallSugar`. -/
def buildCall (fn : String) (args : List Operand) : Gen Operand :=
  emitReg fun r => .call r fn args

def appendBlock (name : String) : Gen Nat := fun g => .ok (g.blocks.length, g.append name)

def positionAtEnd (b : Nat) : Gen Unit := fun g => .ok ((), { g with build := b })

/-- The context is changed while `m` runs, and then put back as an `ensure` does it. -/
def within {α : Type} (enter : CodegenContext → CodegenContext)
    (leave : CodegenContext → CodegenContext → CodegenContext) (m : Gen α) : Gen α := fun g =>
  (m (enter g)).map fun (a, g') => (a, leave g g')

def withBuilderAtEnd {α : Type} (b : Nat) (m : Gen α) : Gen α :=
  within (fun g => { g with build := b }) (fun g g' => { g' with build := g.build }) m

/-- The block that `entry_block_builder` is at. -/
def entryBlockBuilder : Gen Nat := fun g =>
  match g.entry? g.current_method.fn with
  | some b => .ok (b, g)
  | none => .ok (g.blocks.length, g.append "entry")

/-- `entry_block_builder.alloca(ObjectPtrType)`. -/
def allocaInEntry : Gen Operand := do
  let b ← entryBlockBuilder
  return .reg (← emitRegAt b .alloca)

def getLocal (name : String) : Gen (Option Operand) := fun g =>
  .ok ((g.current_method.locals.lookup name).map .reg, g)

def addLocal (name : String) (r : Nat) : Gen Unit := fun g =>
  .ok ((), { g with current_method := { g.current_method with
    locals := (name, r) :: g.current_method.locals } })

/-- The slot of a new local, which is a root. -/
def createLocal (name : String) : Gen Operand := do
  let b ← entryBlockBuilder
  let r ← emitRegAt b .alloca
  let cast ← emitRegAt b fun c => .bitCast c (.reg r)
  let _ ← emitRegAt b fun c => .call c "llvm.gcroot" [.reg cast, .null]
  addLocal name r
  return .reg r

def getOrCreateLocal (name : String) : Gen Operand := do
  match ← getLocal name with
  | some localSlot => return localSlot
  | none => createLocal name

/-! ### Invocations -/

def ehBegin {α : Type} (landingpad : Option Nat) (m : Gen α) : Gen α :=
  within (fun g => { g with landingpad := landingpad })
    (fun g g' => { g' with landingpad := g.landingpad }) m

def mkSym (name : String) : Gen Operand := buildCall "pup_env_str_to_sym" [.env, .str name]

def storeArgs (argv : Operand) : Nat → List Operand → Gen Unit
  | _, [] => return
  | i, arg :: args => do
      let arg_element ← emitReg fun r => .gep r argv i
      emit (.store arg arg_element)
      storeArgs argv (i + 1) args

/-- The argument array of an invocation. -/
def buildArgv (args : List Operand) : Gen Operand := do
  if args.isEmpty then return .null
  let b ← entryBlockBuilder
  let argv ← emitRegAt b fun r => .arrayAlloca r args.length
  storeArgs (.reg argv) 0 args
  return .reg argv

def buildMethodInvocation (receiver : Operand) (name : String) (args : List Operand) :
    Gen Operand := do
  let argv ← buildArgv args
  let sym ← mkSym name
  let pupInvokeArgs := [.env, receiver, sym, .int args.length, argv]
  match (← get).landingpad with
  | some landingpad => do
      -- the builder goes on in the block that follows the invocation
      let bkcontinue ← appendBlock s!"invoke_{name}_continue"
      let res ← emitReg fun r => .invoke r "pup_invoke" pupInvokeArgs bkcontinue landingpad
      positionAtEnd bkcontinue
      return res
  | none => buildCall "pup_invoke" pupInvokeArgs

end Pup.Codegen
