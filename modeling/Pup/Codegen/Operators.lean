/-
Which methods the operators of an expression invoke.

The code of an expression is straight: `Path` follows it from where the builder was to where
it is, through the blocks that follow invocations under a landing pad.  `Symbolic` is what
can be read off such code without running it: which register holds the value of which
invocation, or the symbol of which name, and what has been stored in argument arrays.

`AddExpr` has one method name for `+` and `-`, and `EqualityExpr` one for `==` and `!=`, so
the code of a tree is the code of the tree with these operators for those
(`Arith.compiled`).
-/
import Pup.Codegen.Frames

namespace Pup.Codegen

open Parse

variable {g g' g₁ : CodegenContext}

/-! ### Expression trees -/

/-- The operators of the classes that have a `codegen_binary`. -/
inductive Operator
  | plus
  | minus
  | equal
  | unequal
  | less
  | greater
  deriving DecidableEq, Repr

namespace Operator

def text : Operator → String
  | .plus => "+"
  | .minus => "-"
  | .equal => "=="
  | .unequal => "!="
  | .less => "<"
  | .greater => ">"

/-- The class that the grammar makes of an operator's expression. -/
def class_ : Operator → BinaryClass
  | .plus | .minus => .addExpr
  | .equal | .unequal => .equalityExpr
  | .less | .greater => .relationalExpr

/-- The operator whose method is invoked. -/
def compiled : Operator → Operator
  | .plus | .minus => .plus
  | .equal | .unequal => .equal
  | .less => .less
  | .greater => .greater

theorem text_inj {op op' : Operator} (h : op.text = op'.text) : op = op' := by
  cases op <;> cases op' <;> first | rfl | exact absurd h (by decide)

theorem operatorMethod_eq (op : Operator) :
    operatorMethod op.class_ op.text = some op.compiled.text := by
  cases op <;> rfl

end Operator

/-- A tree over integer operands. -/
inductive Arith
  | int (source : String)
  | binary (left : Arith) (op : Operator) (right : Arith)
  deriving DecidableEq, Repr

/-- What an invocation is of. -/
inductive Term
  | int (n : Nat)
  | invoke (receiver : Term) (method : String) (args : List Term)

namespace Arith

/-- The tree as the parser builds it. -/
def expr : Arith → Expr
  | .int source => .int source
  | .binary left op right => .binary op.class_ left.expr op.text right.expr

/-- The value of a tree: the operator's method is invoked on the left value with the right
one. -/
def term : Arith → Term
  | .int source => .int (toI source)
  | .binary left op right => .invoke left.term op.text [right.term]

/-- The invocations of all nodes, in post-order. -/
def invocations : Arith → List Term
  | .int _ => []
  | .binary left op right =>
      left.invocations ++ right.invocations ++ [(Arith.binary left op right).term]

/-- The operators, in post-order. -/
def operators : Arith → List Operator
  | .int _ => []
  | .binary left op right => left.operators ++ right.operators ++ [op]

/-- The tree whose code is generated. -/
def compiled : Arith → Arith
  | .int source => .int source
  | .binary left op right => .binary left.compiled op.compiled right.compiled

end Arith

/-! ### Straight code -/

/-- Where the builder is. -/
def CodegenContext.here (g : CodegenContext) : Nat × Nat := (g.build, (g.instrs g.build).length)

/-- The instructions between two places, if there is nothing but invocations that leaves a
block. -/
inductive Path (g : CodegenContext) : Nat × Nat → List Instr → Nat × Nat → Prop
  | nil (p : Nat × Nat) : Path g p [] p
  | next {b k : Nat} {i : Instr} {code : List Instr} {q : Nat × Nat}
      (hi : (g.instrs b)[k]? = some i) (hgoes : i.isTerminator = false)
      (h : Path g (b, k + 1) code q) : Path g (b, k) (i :: code) q
  | invoke {b k r normal exception : Nat} {fn : String} {args : List Operand}
      {code : List Instr} {q : Nat × Nat}
      (hi : (g.instrs b)[k]? = some (.invoke r fn args normal exception))
      (h : Path g (normal, 0) code q) :
      Path g (b, k) (.invoke r fn args normal exception :: code) q

theorem Path.append {p q r : Nat × Nat} {code code' : List Instr} (h : Path g p code q)
    (h' : Path g q code' r) : Path g p (code ++ code') r := by
  induction h with
  | nil => exact h'
  | next hi hgoes _ ih => exact .next hi hgoes (ih h')
  | invoke hi _ ih => exact .invoke hi (ih h')

/-- Code stays where it is when blocks get longer. -/
theorem Path.longer {p q : Nat × Nat} {code : List Instr} (h : Path g p code q)
    (hlonger : ∀ b, g.instrs b <+: g'.instrs b) : Path g' p code q := by
  have hsame : ∀ {b k : Nat} {i : Instr}, (g.instrs b)[k]? = some i →
      (g'.instrs b)[k]? = some i := by
    intro b k i hi
    obtain ⟨more, hmore⟩ := hlonger b
    rw [← hmore, List.getElem?_append_left (List.getElem?_eq_some_iff.mp hi).1]
    exact hi
  induction h with
  | nil => exact .nil _
  | next hi hgoes _ ih => exact .next (hsame hi) hgoes ih
  | invoke hi _ ih => exact .invoke (hsame hi) ih

/-! ### Reading code -/

/-- What a register holds. -/
inductive Content
  | object (t : Term)
  | symbol (name : String)
  /-- the address of an element of the array that is in a register -/
  | element (array i : Nat)

structure Symbolic where
  regs : Nat → Option Content
  cells : Nat → Nat → Option Term
  /-- The invocations so far. -/
  invoked : List Term

namespace Symbolic

def set (s : Symbolic) (r : Nat) (c : Content) : Symbolic :=
  { s with regs := Function.update s.regs r (some c) }

def object (s : Symbolic) : Operand → Option Term
  | .reg r =>
      match s.regs r with
      | some (.object t) => some t
      | _ => none
  | _ => none

/-- The elements of an argument array. -/
def args (s : Symbolic) (argc : Nat) : Operand → Option (List Term)
  | .reg array => (List.range argc).mapM (s.cells array)
  | .null => if argc = 0 then some [] else none
  | _ => none

def invoke (s : Symbolic) (r : Nat) (receiver : Option Term) (symbol : Option Content)
    (args : Option (List Term)) : Symbolic :=
  match receiver, symbol, args with
  | some t, some (.symbol name), some ts =>
      { s.set r (.object (.invoke t name ts)) with
        invoked := s.invoked ++ [.invoke t name ts] }
  | _, _, _ => s

def call (s : Symbolic) (r : Nat) (fn : String) (args : List Operand) : Symbolic :=
  match fn, args with
  | "pup_fixnum_create", [.env, .int n] => s.set r (.object (.int n))
  | "pup_env_str_to_sym", [.env, .str name] => s.set r (.symbol name)
  | "pup_invoke", [.env, receiver, .reg sym, .int argc, argv] =>
      s.invoke r (s.object receiver) (s.regs sym) (s.args argc argv)
  | _, _ => s

def store (s : Symbolic) (v : Option Term) (element : Option Content) : Symbolic :=
  match v, element with
  | some t, some (.element array i) =>
      { s with cells := Function.update s.cells array
                 (Function.update (s.cells array) i (some t)) }
  | _, _ => s

def step (s : Symbolic) : Instr → Symbolic
  | .gep r (.reg array) i => s.set r (.element array i)
  | .store v (.reg p) => s.store (s.object v) (s.regs p)
  | .call r fn args => s.call r fn args
  | .invoke r fn args _ _ => s.call r fn args
  | _ => s

/-- Nothing is known. -/
def blank : Symbolic := ⟨fun _ => none, fun _ _ => none, []⟩

def run (s : Symbolic) (code : List Instr) : Symbolic := code.foldl step s

theorem run_append (s : Symbolic) (code code' : List Instr) :
    s.run (code ++ code') = (s.run code).run code' := List.foldl_append ..

theorem object_set_self (s : Symbolic) (r : Nat) (t : Term) :
    (s.set r (.object t)).object (.reg r) = some t := by
  simp [object, set]

theorem object_set_of_ne (s : Symbolic) {r r' : Nat} (c : Content) (h : r' ≠ r) :
    (s.set r c).object (.reg r') = s.object (.reg r') := by
  simp [object, set, Function.update_of_ne h]

end Symbolic

/-! ### The code of an invocation -/

theorem path_emitNew (hg : WellFormed g) {i : Nat → Instr}
    (hi : (i g.next).isTerminator = false) :
    Path (g.emitNew g.build i) g.here [i g.next] (g.emitNew g.build i).here := by
  have hself : (g.emitNew g.build i).instrs g.build = g.instrs g.build ++ [i g.next] :=
    CodegenContext.emitAt_instrs_self hg.build_lt _
  have hhere : (g.emitNew g.build i).here = (g.build, (g.instrs g.build).length + 1) := by
    show (g.build, ((g.emitNew g.build i).instrs g.build).length) = _
    rw [hself, List.length_append]
    rfl
  rw [hhere]
  refine .next ?_ hi (.nil _)
  rw [hself]
  exact List.getElem?_concat_length

theorem path_emit (hg : WellFormed g) {i : Instr} (hi : i.isTerminator = false) :
    Path (g.emitAt g.build i) g.here [i] (g.emitAt g.build i).here := by
  have hself : (g.emitAt g.build i).instrs g.build = g.instrs g.build ++ [i] :=
    CodegenContext.emitAt_instrs_self hg.build_lt _
  have hhere : (g.emitAt g.build i).here = (g.build, (g.instrs g.build).length + 1) := by
    show (g.build, ((g.emitAt g.build i).instrs g.build).length) = _
    rw [hself, List.length_append]
    rfl
  rw [hhere]
  refine .next ?_ hi (.nil _)
  rw [hself]
  exact List.getElem?_concat_length

/-- A slot is in the code if the builder is in the entry block. -/
theorem path_slot (hg : WellFormed g) {e : Nat} {i : Nat → Instr} (hi : (i g.next).isSlot) :
    ∃ code, (code = [] ∨ code = [i g.next]) ∧
      Path (g.emitNew e i) g.here code (g.emitNew e i).here := by
  by_cases he : e = g.build
  · subst he
    exact ⟨_, .inr rfl, path_emitNew hg (Instr.isTerminator_of_isSlot hi)⟩
  · refine ⟨[], .inl rfl, ?_⟩
    have hhere : (g.emitNew e i).here = g.here := by
      show (g.build, ((g.emitNew e i).instrs g.build).length) = _
      rw [show (g.emitNew e i).instrs g.build = g.instrs g.build from
        CodegenContext.emitAt_instrs_ne (Ne.symm he) _]
      rfl
    rw [hhere]
    exact .nil _

/-- An `invoke` leads to the block that is appended for it. -/
theorem path_invoked (hg : WellFormed g) (name fn : String) (args : List Operand) (pad : Nat) :
    Path (g.invoked name fun r => .invoke r fn args g.blocks.length pad) g.here
      [.invoke g.next fn args g.blocks.length pad]
      (g.invoked name fun r => .invoke r fn args g.blocks.length pad).here := by
  let g₁ := g.append name
  let i : Instr := .invoke g.next fn args g.blocks.length pad
  have hlt : g.build < g₁.blocks.length := by
    rw [CodegenContext.append_length]
    exact hg.build_lt.trans (Nat.lt_succ_self _)
  have hself : (g₁.emitAt g.build i).instrs g.build = g.instrs g.build ++ [i] := by
    rw [CodegenContext.emitAt_instrs_self hlt, CodegenContext.append_instrs]
  have hempty : (g₁.emitAt g.build i).instrs g.blocks.length = [] := by
    rw [CodegenContext.emitAt_instrs_ne hg.build_lt.ne', CodegenContext.append_instrs]
    exact CodegenContext.instrs_of_length_le (Nat.le_refl _)
  have hhere : (g.invoked name fun r => .invoke r fn args g.blocks.length pad).here =
      (g.blocks.length, 0) :=
    congrArg (fun is => (g.blocks.length, List.length is)) hempty
  rw [hhere]
  refine .invoke ?_ (.nil _)
  show ((g₁.emitAt g.build i).instrs g.build)[(g.instrs g.build).length]? = some i
  rw [hself]
  exact List.getElem?_concat_length

/-- What is in the registers below `n` stays there. -/
structure Keeps (n : Nat) (s s' : Symbolic) : Prop where
  regs : ∀ r < n, s'.regs r = s.regs r
  cells : ∀ r < n, s'.cells r = s.cells r

theorem Keeps.refl (n : Nat) (s : Symbolic) : Keeps n s s := ⟨fun _ _ => rfl, fun _ _ => rfl⟩

theorem Keeps.trans {n m : Nat} {s s₁ s' : Symbolic} (h : Keeps n s s₁) (h' : Keeps m s₁ s')
    (hm : n ≤ m) : Keeps n s s' :=
  ⟨fun r hr => (h'.regs r (hr.trans_le hm)).trans (h.regs r hr),
    fun r hr => (h'.cells r (hr.trans_le hm)).trans (h.cells r hr)⟩

theorem Keeps.object {n r : Nat} {s s' : Symbolic} (h : Keeps n s s') (hr : r < n) :
    s'.object (.reg r) = s.object (.reg r) := by
  simp only [Symbolic.object, h.regs r hr]

theorem Keeps.set {n r : Nat} {s s' : Symbolic} (h : Keeps n s s') (hr : n ≤ r) (c : Content) :
    Keeps n s (s'.set r c) :=
  ⟨fun r' hr' => (Function.update_of_ne (hr'.trans_le hr).ne _ _).trans (h.regs r' hr'),
    h.cells⟩

/-- The code of an argument array with one element stores the argument in it. -/
theorem buildArgv_reads (hg : WellFormed g) {rhs : Nat} {argv : Operand} (hrhs : rhs < g.next)
    (hrun : buildArgv [.reg rhs] g = .ok (argv, g')) :
    argv = .reg g.next ∧ g.next < g'.next ∧ ∃ code, Path g' g.here code g'.here ∧
      ∀ (s : Symbolic) (u : Term), s.object (.reg rhs) = some u →
        Keeps g.next s (s.run code) ∧ (s.run code).invoked = s.invoked ∧
          (s.run code).cells g.next 0 = some u := by
  simp only [buildArgv, storeArgs, bind_ok, List.isEmpty_cons, Bool.false_eq_true, if_false,
    emitRegAt_ok, emitReg_ok, emit_ok, pure_ok] at hrun
  obtain ⟨e, g, he, array, g₁, ⟨rfl, rfl⟩, _, _, ⟨p, g₂, ⟨rfl, rfl⟩, _, _, rfl, -, rfl⟩,
    rfl, rfl⟩ := hrun
  obtain ⟨he, rfl⟩ := entryBlockBuilder_ok hg he
  let g₁ := g.emitNew e fun r => .arrayAlloca r [Operand.reg rhs].length
  let g₂ := g₁.emitNew g₁.build fun r => .gep r (.reg g.next) 0
  have hg₁ : WellFormed g₁ :=
    ((Grow.refl hg).emitNewEntry hg he (fun _ => rfl) fun _ => rfl).wellFormed
  have hg₂ : WellFormed g₂ := ((Grow.refl hg₁).emitNewHere fun _ => rfl).wellFormed
  obtain ⟨code, hcode, hpath⟩ := path_slot hg (e := e)
    (i := fun r => .arrayAlloca r [Operand.reg rhs].length) rfl
  have hpath₁ := path_emitNew hg₁ (i := fun r => .gep r (.reg g.next) 0) rfl
  have hpath₂ := path_emit hg₂ (i := .store (.reg rhs) (.reg g₁.next)) rfl
  have hlonger₂ := fun b => CodegenContext.emitAt_longer (g := g₂) g₂.build b
    (.store (.reg rhs) (.reg g₁.next))
  have hlonger₁ := fun b => (CodegenContext.emitAt_longer (g := g₁) g₁.build b
    (.gep g₁.next (.reg g.next) 0)).trans (hlonger₂ b)
  refine ⟨rfl, Nat.lt_succ_of_lt (Nat.lt_succ_self _), _,
    ((hpath.longer hlonger₁).append ((hpath₁.longer hlonger₂).append hpath₂)), ?_⟩
  intro s u hu
  have hslot : s.run code = s := by
    rcases hcode with rfl | rfl <;> rfl
  have hobject : (s.set (g.next + 1) (.element g.next 0)).object (.reg rhs) = some u := by
    rw [Symbolic.object_set_of_ne s _ (hrhs.trans (Nat.lt_succ_self _)).ne]
    exact hu
  have hread : s.run (code ++ ([.gep g₁.next (.reg g.next) 0] ++
      [.store (.reg rhs) (.reg g₁.next)])) =
        (s.set (g.next + 1) (.element g.next 0)).store (some u) (some (.element g.next 0)) := by
    rw [Symbolic.run_append, hslot, ← hobject]
    show (s.set (g.next + 1) (.element g.next 0)).store
      ((s.set (g.next + 1) (.element g.next 0)).object (.reg rhs))
      (Function.update s.regs (g.next + 1) _ (g.next + 1)) = _
    rw [Function.update_self]
  rw [hread]
  have hkeep := (Keeps.refl g.next s).set (Nat.le_succ g.next) (.element g.next 0)
  refine ⟨⟨hkeep.regs, fun r hr => ?_⟩, rfl, ?_⟩
  · exact (Function.update_of_ne hr.ne _ _).trans (hkeep.cells r hr)
  · simp [Symbolic.store]

/-- **The code of an invocation with one argument invokes the method on the receiver with
it.** -/
theorem buildMethodInvocation_reads (hg : WellFormed g) {receiver rhs : Nat} {name : String}
    {v : Operand} (hreceiver : receiver < g.next) (hrhs : rhs < g.next)
    (hrun : buildMethodInvocation (.reg receiver) name [.reg rhs] g = .ok (v, g')) :
    ∃ r code, v = .reg r ∧ r < g'.next ∧ Path g' g.here code g'.here ∧
      ∀ (s : Symbolic) (t u : Term), s.object (.reg receiver) = some t →
        s.object (.reg rhs) = some u →
        Keeps g.next s (s.run code) ∧
          (s.run code).object (.reg r) = some (.invoke t name [u]) ∧
          (s.run code).invoked = s.invoked ++ [.invoke t name [u]] := by
  simp only [buildMethodInvocation, mkSym, bind_ok, buildCall_ok, get_ok] at hrun
  obtain ⟨argv, g₁, hargv, _, _, ⟨rfl, rfl⟩, _, _, ⟨rfl, rfl⟩, hrun⟩ := hrun
  have hg₁ := (stable_grow.buildArgv _ _ _ _ hg hargv).wellFormed
  obtain ⟨rfl, hnext, code, hpath, hreads⟩ := buildArgv_reads hg hrhs hargv
  let sym := fun r => Instr.call r "pup_env_str_to_sym" [.env, .str name]
  let args := [Operand.env, .reg receiver, .reg g₁.next, .int 1, .reg g.next]
  have hgrow₁ := (Grow.refl hg₁).emitNewHere (i := sym) fun _ => rfl
  have hg₂ := hgrow₁.wellFormed
  have hlonger₁ := hgrow₁.longer
  have hpath₁ := path_emitNew hg₁ (i := sym) rfl
  -- whatever instruction makes the call, it is read in the same way
  have hread : ∀ (s : Symbolic) (t u : Term) (i : Instr),
      (∀ s : Symbolic, s.step i = s.call (g₁.next + 1) "pup_invoke" args) →
      s.object (.reg receiver) = some t → s.object (.reg rhs) = some u →
      Keeps g.next s (s.run (code ++ ([sym g₁.next] ++ [i]))) ∧
        (s.run (code ++ ([sym g₁.next] ++ [i]))).object (.reg (g₁.next + 1)) =
          some (.invoke t name [u]) ∧
        (s.run (code ++ ([sym g₁.next] ++ [i]))).invoked =
          s.invoked ++ [.invoke t name [u]] := by
    intro s t u i hi ht hu
    obtain ⟨hkeep, hinvoked, hcell⟩ := hreads s u hu
    let s₁ := (s.run code).set g₁.next (.symbol name)
    have hkeep₁ : Keeps g.next s s₁ := hkeep.set hnext.le _
    have hobject : s₁.object (.reg receiver) = some t := (hkeep₁.object hreceiver).trans ht
    have hsym : s₁.regs g₁.next = some (.symbol name) := Function.update_self ..
    have hargs : s₁.args 1 (.reg g.next) = some [u] := by
      show [0].mapM (s₁.cells g.next) = some [u]
      rw [List.mapM_cons, show s₁.cells g.next 0 = some u from hcell]
      rfl
    have hrun : s.run (code ++ ([sym g₁.next] ++ [i])) =
        { s₁.set (g₁.next + 1) (.object (.invoke t name [u])) with
          invoked := s₁.invoked ++ [.invoke t name [u]] } := by
      rw [Symbolic.run_append]
      show s₁.step i = _
      rw [hi]
      show s₁.invoke (g₁.next + 1) (s₁.object (.reg receiver)) (s₁.regs g₁.next)
        (s₁.args 1 (.reg g.next)) = _
      rw [hobject, hsym, hargs]
      rfl
    rw [hrun]
    have hkeep₂ := hkeep₁.set (hnext.le.trans (Nat.le_succ _)) (.object (.invoke t name [u]))
    refine ⟨⟨hkeep₂.regs, hkeep₂.cells⟩, Symbolic.object_set_self s₁ _ _, ?_⟩
    show (s.run code).invoked ++ _ = _
    rw [hinvoked]
  cases hpad : g₁.landingpad with
  | none =>
      have hpad₂ : (g₁.emitNew g₁.build fun r =>
          .call r "pup_env_str_to_sym" [.env, .str name]).landingpad = none := hpad
      simp only [hpad₂, buildCall_ok] at hrun
      obtain ⟨rfl, rfl⟩ := hrun
      have hpath₂ := path_emitNew hg₂ (i := fun r => .call r "pup_invoke" args) rfl
      have hlonger₂ := ((Grow.refl hg₂).emitNewHere
        (i := fun r => .call r "pup_invoke" args) fun _ => rfl).longer
      exact ⟨_, _, rfl, Nat.lt_succ_self _,
        (hpath.longer fun b => (hlonger₁ b).trans (hlonger₂ b)).append
          ((hpath₁.longer hlonger₂).append hpath₂),
        fun s t u => hread s t u _ fun _ => rfl⟩
  | some pad =>
      have hpad₂ : (g₁.emitNew g₁.build fun r =>
          .call r "pup_env_str_to_sym" [.env, .str name]).landingpad = some pad := hpad
      simp only [hpad₂, bind_ok, appendBlock_ok, emitReg_ok, positionAtEnd_ok, pure_ok] at hrun
      obtain ⟨bkcontinue, _, ⟨rfl, rfl⟩, _, _, ⟨rfl, rfl⟩, _, _, rfl, rfl, rfl⟩ := hrun
      have hpath₂ := path_invoked hg₂ s!"invoke_{name}_continue" "pup_invoke" args pad
      have hlonger₂ := (grow_invoked hg₂ s!"invoke_{name}_continue"
        (i := fun r => .invoke r "pup_invoke" args (g₁.emitNew g₁.build sym).blocks.length pad)
        fun _ => rfl).longer
      exact ⟨_, _, rfl, Nat.lt_succ_self _,
        (hpath.longer fun b => (hlonger₁ b).trans (hlonger₂ b)).append
          ((hpath₁.longer hlonger₂).append hpath₂),
        fun s t u => hread s t u _ fun _ => rfl⟩

/-! ### The code of a tree -/

/-- A piece of the generator that cannot fail. -/
def Succeeds {α : Type} (m : Gen α) : Prop := ∀ g, ∃ a g', m g = .ok (a, g')

section Succeeds

variable {α β : Type}

theorem succeeds_pure (a : α) : Succeeds (pure a : Gen α) := fun g => ⟨a, g, rfl⟩

theorem succeeds_emitReg (i : Nat → Instr) : Succeeds (emitReg i) := fun _ => ⟨_, _, rfl⟩

theorem Succeeds.bind {m : Gen α} {f : α → Gen β} (hm : Succeeds m) (hf : ∀ a, Succeeds (f a)) :
    Succeeds (m >>= f) := by
  intro g
  obtain ⟨a, g₁, ha⟩ := hm g
  obtain ⟨b, g', hb⟩ := hf a g₁
  exact ⟨b, g', bind_ok.mpr ⟨a, g₁, ha, hb⟩⟩

theorem succeeds_entryBlockBuilder : Succeeds entryBlockBuilder := by
  intro g
  unfold entryBlockBuilder
  cases g.entry? g.current_method.fn with
  | none => exact ⟨_, _, rfl⟩
  | some e => exact ⟨_, _, rfl⟩

theorem succeeds_storeArgs (argv : Operand) (i : Nat) (args : List Operand) :
    Succeeds (storeArgs argv i args) := by
  induction args generalizing i with
  | nil => exact succeeds_pure ()
  | cons arg args ih =>
      unfold storeArgs
      refine (succeeds_emitReg _).bind fun element => ?_
      exact Succeeds.bind (fun _ => ⟨_, _, rfl⟩) fun _ => ih (i + 1)

theorem succeeds_buildArgv (args : List Operand) : Succeeds (buildArgv args) := by
  unfold buildArgv
  by_cases h : args.isEmpty
  · rw [if_pos h]
    exact succeeds_pure _
  · rw [if_neg h]
    refine succeeds_entryBlockBuilder.bind fun e => ?_
    refine Succeeds.bind (fun _ => ⟨_, _, rfl⟩) fun argv => ?_
    exact (succeeds_storeArgs _ _ _).bind fun _ => succeeds_pure _

theorem succeeds_buildMethodInvocation (receiver : Operand) (name : String)
    (args : List Operand) : Succeeds (buildMethodInvocation receiver name args) := by
  unfold buildMethodInvocation
  refine (succeeds_buildArgv args).bind fun argv => ?_
  refine Succeeds.bind (fun _ => ⟨_, _, rfl⟩) fun sym => ?_
  refine Succeeds.bind (fun g => ⟨g, g, rfl⟩) fun g => ?_
  cases g.landingpad with
  | none => exact succeeds_emitReg _
  | some pad =>
      refine Succeeds.bind (fun _ => ⟨_, _, rfl⟩) fun bkcontinue => ?_
      refine (succeeds_emitReg _).bind fun res => ?_
      exact Succeeds.bind (fun _ => ⟨_, _, rfl⟩) fun _ => succeeds_pure res

/-- Code for a tree is always generated. -/
theorem succeeds_codegenExpr (e : Arith) : Succeeds (codegenExpr e.expr) := by
  induction e with
  | int source =>
      rw [Arith.expr, codegenExpr]
      exact succeeds_emitReg _
  | binary left op right ihl ihr =>
      rw [Arith.expr, codegenExpr]
      refine ihl.bind fun lhs => ihr.bind fun rhs => ?_
      rw [codegenBinary, op.operatorMethod_eq]
      exact succeeds_buildMethodInvocation lhs _ [rhs]

end Succeeds

/-- A program that is a tree is compiled. -/
theorem generate_arith (e : Arith) : ∃ g, generate [.expr e.expr] = .ok g := by
  obtain ⟨v, g, h⟩ := succeeds_codegenExpr e .unitBody
  have hstmts : codegenStmts [.expr e.expr] .unitBody = .ok (some v, g) := by
    rw [codegenStmts_singleton_ok]
    exact ⟨v, by rw [codegenStmt, h], rfl⟩
  exact ⟨_, generate_of_ok hstmts⟩

/-- **The code of a tree is read as the tree with the operators that are compiled.** -/
theorem codegenExpr_reads (e : Arith) (hg : WellFormed g) {v : Operand}
    (hrun : codegenExpr e.expr g = .ok (v, g')) :
    ∃ r code, v = .reg r ∧ r < g'.next ∧ Path g' g.here code g'.here ∧
      ∀ s : Symbolic, Keeps g.next s (s.run code) ∧
        (s.run code).object (.reg r) = some e.compiled.term ∧
        (s.run code).invoked = s.invoked ++ e.compiled.invocations := by
  induction e generalizing g g' v with
  | int source =>
      rw [Arith.expr, codegenExpr, buildCall_ok] at hrun
      obtain ⟨rfl, rfl⟩ := hrun
      refine ⟨_, _, rfl, Nat.lt_succ_self _, path_emitNew hg
        (i := fun r => .call r "pup_fixnum_create" [.env, .int (toI source)]) rfl, fun s => ?_⟩
      exact ⟨(Keeps.refl g.next s).set (Nat.le_refl _) _, Symbolic.object_set_self s _ _,
        (List.append_nil s.invoked).symm⟩
  | binary left op right ihl ihr =>
      rw [Arith.expr, codegenExpr, bind_ok] at hrun
      obtain ⟨lhs, g₁, hl, hrun⟩ := hrun
      obtain ⟨rhs, g₂, hr, hrun⟩ := bind_ok.mp hrun
      rw [codegenBinary, op.operatorMethod_eq] at hrun
      have hgrow₁ := grows_codegenExpr _ _ _ _ hg hl
      have hgrow₂ := grows_codegenExpr _ _ _ _ hgrow₁.wellFormed hr
      have hgrow := stableExpr_grow.buildMethodInvocation _ _ _ _ _ _ hgrow₂.wellFormed hrun
      obtain ⟨l, code₁, rfl, hlt₁, hpath₁, hreads₁⟩ := ihl hg hl
      obtain ⟨r, code₂, rfl, hlt₂, hpath₂, hreads₂⟩ := ihr hgrow₁.wellFormed hr
      obtain ⟨r', code₃, rfl, hlt, hpath₃, hreads₃⟩ := buildMethodInvocation_reads
        hgrow₂.wellFormed (hlt₁.trans_le hgrow₂.next) hlt₂ hrun
      refine ⟨r', code₁ ++ (code₂ ++ code₃), rfl, hlt,
        (hpath₁.longer fun b => (hgrow₂.longer b).trans (hgrow.longer b)).append
          ((hpath₂.longer hgrow.longer).append hpath₃), fun s => ?_⟩
      rw [Symbolic.run_append, Symbolic.run_append]
      obtain ⟨hkeep₁, hobject₁, hinvoked₁⟩ := hreads₁ s
      obtain ⟨hkeep₂, hobject₂, hinvoked₂⟩ := hreads₂ (s.run code₁)
      obtain ⟨hkeep₃, hobject₃, hinvoked₃⟩ := hreads₃ ((s.run code₁).run code₂) _ _
        ((hkeep₂.object hlt₁).trans hobject₁) hobject₂
      refine ⟨(hkeep₁.trans hkeep₂ hgrow₁.next).trans hkeep₃
        (hgrow₁.next.trans hgrow₂.next), hobject₃, ?_⟩
      rw [hinvoked₃, hinvoked₂, hinvoked₁, List.append_assoc, List.append_assoc]
      simp only [Arith.compiled, Arith.invocations, Arith.term, List.append_assoc]

/-- Straight code is known from where it begins and where it ends. -/
theorem Path.unique {p q : Nat × Nat} {code code' : List Instr} (h : Path g p code q)
    (hend : (g.instrs q.1)[q.2]? = none) (h' : Path g p code' q) : code = code' := by
  induction h generalizing code' with
  | nil =>
      cases h' with
      | nil => rfl
      | next hi => exact absurd (hi.symm.trans hend) (by simp)
      | invoke hi => exact absurd (hi.symm.trans hend) (by simp)
  | next hi hgoes _ ih =>
      cases h' with
      | nil => exact absurd (hi.symm.trans hend) (by simp)
      | next hi' _ h' =>
          obtain rfl := Option.some.inj (hi.symm.trans hi')
          rw [ih hend h']
      | invoke hi' _ =>
          obtain rfl := Option.some.inj (hi.symm.trans hi')
          cases hgoes
  | invoke hi _ ih =>
      cases h' with
      | nil => exact absurd (hi.symm.trans hend) (by simp)
      | next hi' hgoes _ =>
          obtain rfl := Option.some.inj (hi.symm.trans hi')
          cases hgoes
      | invoke hi' h' =>
          obtain ⟨rfl, rfl, rfl, rfl, rfl⟩ := Instr.invoke.inj (Option.some.inj (hi.symm.trans hi'))
          rw [ih hend h']

/-- In `g` the tree is compiled to code that makes the invocations `ts` and has the value
`t`. -/
def Arith.Compiles (g : CodegenContext) (e : Arith) (t : Term) (ts : List Term) : Prop :=
  ∃ v g' code, codegenExpr e.expr g = .ok (v, g') ∧ Path g' g.here code g'.here ∧
    (Symbolic.blank.run code).object v = some t ∧ (Symbolic.blank.run code).invoked = ts

theorem compiles_iff (hg : WellFormed g) (e : Arith) {t : Term} {ts : List Term} :
    e.Compiles g t ts ↔ t = e.compiled.term ∧ ts = e.compiled.invocations := by
  obtain ⟨v, g', hrun⟩ := succeeds_codegenExpr e g
  obtain ⟨r, code, rfl, -, hpath, hreads⟩ := codegenExpr_reads e hg hrun
  obtain ⟨-, hobject, hinvoked⟩ := hreads Symbolic.blank
  constructor
  · intro h
    obtain ⟨v', g'', code', hrun', hpath', ht, hts⟩ := h
    obtain ⟨rfl, rfl⟩ := Prod.mk.inj (Except.ok.inj (hrun.symm.trans hrun'))
    have hend : (g'.instrs g'.here.1)[g'.here.2]? = none := List.getElem?_eq_none (Nat.le_refl _)
    obtain rfl := hpath.unique hend hpath'
    exact ⟨Option.some.inj (ht.symm.trans hobject), hts.symm.trans hinvoked⟩
  · intro h
    obtain ⟨rfl, rfl⟩ := h
    exact ⟨_, g', code, hrun, hpath, hobject, hinvoked⟩

/-! ### Whose methods are invoked -/

/-- There is no operator in the tree that is compiled as another. -/
def Arith.Faithful (e : Arith) : Prop := ∀ op ∈ e.operators, op ≠ .minus ∧ op ≠ .unequal

theorem Operator.compiled_eq_iff (op : Operator) :
    op.compiled = op ↔ op ≠ .minus ∧ op ≠ .unequal := by
  cases op <;> decide

theorem faithful_binary {left right : Arith} {op : Operator} :
    (Arith.binary left op right).Faithful ↔
      left.Faithful ∧ op.compiled = op ∧ right.Faithful := by
  rw [Operator.compiled_eq_iff]
  constructor
  · intro h
    exact ⟨fun o ho => h o (by simp [Arith.operators, ho]), h op (by simp [Arith.operators]),
      fun o ho => h o (by simp [Arith.operators, ho])⟩
  · intro h o ho
    obtain ⟨hleft, hop, hright⟩ := h
    have ho : o ∈ left.operators ∨ o ∈ right.operators ∨ o = op := by
      simpa [Arith.operators] using ho
    rcases ho with ho | ho | rfl
    · exact hleft o ho
    · exact hright o ho
    · exact hop

/-- A faithful tree is compiled as itself. -/
theorem compiled_of_faithful {e : Arith} (h : e.Faithful) : e.compiled = e := by
  induction e with
  | int source => rfl
  | binary left op right ihl ihr =>
      obtain ⟨hleft, hop, hright⟩ := faithful_binary.mp h
      rw [Arith.compiled, ihl hleft, hop, ihr hright]

/-- Any other has another value. -/
theorem faithful_of_term {e : Arith} (h : e.term = e.compiled.term) : e.Faithful := by
  induction e with
  | int source => simp [Arith.Faithful, Arith.operators]
  | binary left op right ihl ihr =>
      obtain ⟨hleft, hop, hargs⟩ := Term.invoke.inj h
      obtain ⟨hright, -⟩ := List.cons.inj hargs
      exact faithful_binary.mpr ⟨ihl hleft, (Operator.text_inj hop).symm, ihr hright⟩

/-- The method that is invoked. -/
def Term.method : Term → Option String
  | .int _ => none
  | .invoke _ method _ => some method

theorem methods_eq (e : Arith) :
    e.invocations.map Term.method = e.operators.map fun op => some op.text := by
  induction e with
  | int source => rfl
  | binary left op right ihl ihr =>
      simp [Arith.invocations, Arith.operators, ihl, ihr, Arith.term, Term.method]

/-- The invocations tell the operators. -/
theorem operators_eq_of_invocations {e e' : Arith} (h : e.invocations = e'.invocations) :
    e.operators = e'.operators := by
  have hmap := congrArg (List.map Term.method) h
  rw [methods_eq, methods_eq] at hmap
  refine List.map_injective_iff.mpr ?_ hmap
  intro op op' hop
  exact Operator.text_inj (Option.some.inj hop)

/--
**The code of a tree invokes at every node the method of the node's operator exactly if
there is neither `-` nor `!=` in the tree.**  Of two such trees with different operators the
code makes different invocations.
-/
theorem compiles_operators_iff (hg : WellFormed g) (e : Arith) :
    (e.Compiles g e.term e.invocations ↔ e.Faithful) ∧
      ∀ e' : Arith, e.Faithful → e'.Faithful → e.operators ≠ e'.operators →
        ¬ ∃ t t' ts, e.Compiles g t ts ∧ e'.Compiles g t' ts := by
  refine ⟨⟨fun h => ?_, fun h => ?_⟩, fun e' h h' hne hsame => ?_⟩
  · exact faithful_of_term ((compiles_iff hg e).mp h).1
  · rw [compiles_iff hg, compiled_of_faithful h]
    exact ⟨rfl, rfl⟩
  · obtain ⟨t, t', ts, hc, hc'⟩ := hsame
    have hts := ((compiles_iff hg e).mp hc).2
    have hts' := ((compiles_iff hg e').mp hc').2
    rw [compiled_of_faithful h] at hts
    rw [compiled_of_faithful h'] at hts'
    exact hne (operators_eq_of_invocations (hts.symm.trans hts'))

/-- `1 + 2 < 3` is such a tree. -/
theorem compiles_operators_sum :
    (Arith.binary (.binary (.int "1") .plus (.int "2")) .less (.int "3")).Compiles .unitBody
      (.invoke (.invoke (.int 1) "+" [.int 2]) "<" [.int 3])
      [.invoke (.int 1) "+" [.int 2], .invoke (.invoke (.int 1) "+" [.int 2]) "<" [.int 3]] :=
  (compiles_operators_iff wellFormed_unitBody
    (.binary (.binary (.int "1") .plus (.int "2")) .less (.int "3"))).1.mpr
      (by unfold Arith.Faithful; decide)

/-- `1 - 2` does not invoke `-`: it compiles to the invocations of `1 + 2`. -/
theorem minus_invokes_plus :
    ¬ (Arith.binary (.int "1") .minus (.int "2")).Compiles .unitBody
        (.invoke (.int 1) "-" [.int 2]) [.invoke (.int 1) "-" [.int 2]] ∧
      ∀ op ∈ [Operator.plus, .minus], (Arith.binary (.int "1") op (.int "2")).Compiles .unitBody
        (.invoke (.int 1) "+" [.int 2]) [.invoke (.int 1) "+" [.int 2]] := by
  refine ⟨fun h => ?_, fun op hop => (compiles_iff wellFormed_unitBody _).mpr ?_⟩
  · have ht := ((compiles_iff wellFormed_unitBody _).mp h).1
    obtain ⟨-, hmethod, -⟩ := Term.invoke.inj ht
    exact absurd hmethod (by decide)
  · rcases List.mem_pair.mp hop with rfl | rfl
    · exact ⟨rfl, rfl⟩
    · exact ⟨rfl, rfl⟩

end Pup.Codegen
