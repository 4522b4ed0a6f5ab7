/-
When the slot of a construct is stored to before it is loaded.

The value of an `if`, a `while` or a `begin` comes out of a slot.  The slot is loaded in the
block in which the code goes on, and a jump into that block follows a store to the slot where it
comes from the end of a branch, of a body or of a clause.  Out of a `while` it comes from the
condition, and the slot is stored to only at the end of the body: before the first jump back to
the condition the slot is undefined.  `Assigned` says this of all instructions of a context, and
`stored_before_load` of all paths.

`Assigned` looks at one block at a time, since that is what the generator can be shown to keep: a
slot is loaded in the block after its construct and nowhere else, and in a block that jumps there
the store is in front of the jump.  A path is then read backwards from a load, to where it entered
the block and to the jump it came by (`Assigned.loaded`).
-/
import Pup.Codegen.Paths
import Pup.Codegen.LandingPads
import Pup.Codegen.Numbered
import Pup.Codegen.Terminators

namespace Pup.Codegen

open Parse Pup.Flow

variable {α β : Type} {g g' g₀ g₁ : CodegenContext}

/-! ### Constructs -/

/-- An `if`, a `while` or a `begin`: its slot, the block in which the slot is loaded, and of a
`while` the block of the condition. -/
structure Construct where
  slot : Nat
  after : Nat
  back : Option Nat

def Construct.blocks (c : Construct) : List Nat := c.after :: c.back.toList

/-- The jumps before which the slot has to be stored to: those to the block after an `if` or a
`begin`, and those back to the condition of a `while`. -/
def Construct.Needs (c : Construct) (b target : Nat) : Prop :=
  c.back = none ∧ target = c.after ∨ c.back = some target ∧ target < b

theorem Construct.mem_blocks_none {r after b : Nat} :
    b ∈ (Construct.mk r after none).blocks ↔ b = after :=
  List.mem_singleton

theorem Construct.mem_blocks_some {r after back b : Nat} :
    b ∈ (Construct.mk r after (some back)).blocks ↔ b = after ∨ b = back :=
  List.mem_pair

theorem Construct.Needs.mem {c : Construct} {b target : Nat} (h : c.Needs b target) :
    target ∈ c.blocks := by
  rcases h with ⟨-, rfl⟩ | ⟨hback, -⟩
  · exact .head _
  · exact .tail _ (Option.mem_toList.mpr hback)

/-- The slots of constructs, and the constructs of which all blocks are there. -/
structure Results where
  slots : List Nat
  constructs : List Construct

def Instr.loaded : Instr → Option Nat
  | .load _ (.reg r) => some r
  | _ => none

def Instr.stored : Instr → Option Nat
  | .store _ (.reg r) => some r
  | _ => none

/-- Nothing after the instruction is executed, or the slot has been stored to. -/
def Instr.Settles (r : Nat) (i : Instr) : Prop := i.isTerminator = true ∨ i.stored = some r

/-- The results belong to the context. -/
structure Known (R : Results) (g : CodegenContext) : Prop where
  slot_lt : ∀ r ∈ R.slots, r < g.next
  slot_mem : ∀ c ∈ R.constructs, c.slot ∈ R.slots
  block_lt : ∀ c ∈ R.constructs, ∀ b ∈ c.blocks, b < g.blocks.length
  inner : ∀ c ∈ R.constructs, ∃ b < c.after, g.fnOf b = g.fnOf c.after
  locals : ∀ p ∈ g.current_method.locals, p.2 < g.next ∧ p.2 ∉ R.slots
  landingpad : ∀ pad, g.landingpad = some pad →
    pad < g.blocks.length ∧ ∀ c ∈ R.constructs, pad ∉ c.blocks
  unique : ∀ c ∈ R.constructs, ∀ c' ∈ R.constructs,
    (c.slot = c'.slot ∨ ∃ b ∈ c.blocks, b ∈ c'.blocks) → c = c'

/-- The slots are loaded in the blocks after their constructs only, and have been stored to
before the jumps that need it. -/
structure Assigned (R : Results) (g : CodegenContext) : Prop extends Known R g where
  target_lt : ∀ b, ∀ i ∈ g.instrs b, ∀ t ∈ i.targets, t < g.blocks.length
  load_lt : ∀ b, ∀ i ∈ g.instrs b, ∀ r, i.loaded = some r → r < g.next
  load : ∀ b, ∀ i ∈ g.instrs b, ∀ r ∈ R.slots, i.loaded = some r →
    ∃ c ∈ R.constructs, c.slot = r ∧ c.after = b
  jump : ∀ b k i, (g.instrs b)[k]? = some i → ∀ t ∈ i.targets, ∀ c ∈ R.constructs, c.Needs b t →
    ∃ j ∈ (g.instrs b).take k, j.Settles c.slot

variable {R R' : Results}

/-! ### Instructions -/

theorem Known.mono (h : Known R g) (hnext : g.next ≤ g'.next)
    (hlength : g.blocks.length ≤ g'.blocks.length)
    (hfnOf : ∀ b < g.blocks.length, g'.fnOf b = g.fnOf b)
    (hlocals : ∀ p ∈ g'.current_method.locals, p.2 < g'.next ∧ p.2 ∉ R.slots)
    (hpad : ∀ pad, g'.landingpad = some pad →
      pad < g'.blocks.length ∧ ∀ c ∈ R.constructs, pad ∉ c.blocks) : Known R g' where
  slot_lt r hr := (h.slot_lt r hr).trans_le hnext
  slot_mem := h.slot_mem
  block_lt c hc b hb := (h.block_lt c hc b hb).trans_le hlength
  inner c hc := by
    obtain ⟨b, hb, hfn⟩ := h.inner c hc
    have hlt := h.block_lt c hc c.after (.head _)
    refine ⟨b, hb, ?_⟩
    rw [hfnOf b (hb.trans hlt), hfnOf c.after hlt]
    exact hfn
  locals := hlocals
  landingpad := hpad
  unique := h.unique

/-- Nothing matters of the context but what is named here. -/
theorem Assigned.congr (h : Assigned R g) (hblocks : g'.blocks = g.blocks)
    (hnext : g'.next = g.next)
    (hlocals : ∀ p ∈ g'.current_method.locals, p.2 < g.next ∧ p.2 ∉ R.slots)
    (hpad : ∀ pad, g'.landingpad = some pad →
      pad < g.blocks.length ∧ ∀ c ∈ R.constructs, pad ∉ c.blocks) : Assigned R g' := by
  have hinstrs : ∀ b, g'.instrs b = g.instrs b := fun b => by
    rw [CodegenContext.instrs, CodegenContext.instrs, hblocks]
  have hfnOf : ∀ b, g'.fnOf b = g.fnOf b := fun b => by
    rw [CodegenContext.fnOf, CodegenContext.fnOf, hblocks]
  have hlength : g'.blocks.length = g.blocks.length := congrArg List.length hblocks
  have hknown : Known R g' := h.toKnown.mono hnext.ge hlength.ge (fun b _ => hfnOf b)
    (hnext.symm ▸ hlocals) (hlength.symm ▸ hpad)
  refine ⟨hknown, ?_, ?_, ?_, ?_⟩
  · intro b
    rw [hinstrs, hlength]
    exact h.target_lt b
  · intro b
    rw [hinstrs, hnext]
    exact h.load_lt b
  · intro b
    rw [hinstrs]
    exact h.load b
  · intro b k
    rw [hinstrs]
    exact h.jump b k

theorem Assigned.moveTo (h : Assigned R g) (b : Nat) : Assigned R (g.moveTo b) :=
  h.congr rfl rfl h.locals h.landingpad

theorem Assigned.append (h : Assigned R g) (name : String) : Assigned R (g.append name) := by
  have hle : g.blocks.length ≤ (g.append name).blocks.length := by
    rw [CodegenContext.append_length]
    exact Nat.le_succ _
  have hknown : Known R (g.append name) := h.toKnown.mono (Nat.le_refl _) hle
    (fun b hb => CodegenContext.append_fnOf_of_lt name hb) h.locals
    fun pad hpad => ⟨(h.landingpad pad hpad).1.trans_le hle, (h.landingpad pad hpad).2⟩
  refine ⟨hknown, ?_, ?_, ?_, ?_⟩
  · intro b
    rw [CodegenContext.append_instrs]
    exact fun i hi t ht => (h.target_lt b i hi t ht).trans_le hle
  · intro b
    rw [CodegenContext.append_instrs]
    exact h.load_lt b
  · intro b
    rw [CodegenContext.append_instrs]
    exact h.load b
  · intro b k
    rw [CodegenContext.append_instrs]
    exact h.jump b k

/-- An instruction of a block that has got one more is the new one or has those before it that
it had. -/
theorem getElem?_emitAt {b c k : Nat} {i j : Instr}
    (h : ((g.emitAt b i).instrs c)[k]? = some j) :
    (g.instrs c)[k]? = some j ∧ ((g.emitAt b i).instrs c).take k = (g.instrs c).take k ∨
      c = b ∧ j = i ∧ ((g.emitAt b i).instrs c).take k = g.instrs b := by
  by_cases hc : c = b ∧ b < g.blocks.length
  · obtain ⟨rfl, hlt⟩ := hc
    rw [CodegenContext.emitAt_instrs_self hlt] at h ⊢
    rcases Nat.lt_or_ge k (g.instrs c).length with hk | hk
    · rw [List.getElem?_append_left hk] at h
      exact .inl ⟨h, List.take_append_of_le_length hk.le⟩
    · rw [List.getElem?_append_right hk] at h
      have hone : k - (g.instrs c).length < [i].length := (List.getElem?_eq_some_iff.mp h).1
      rw [List.length_singleton] at hone
      obtain rfl : k = (g.instrs c).length := by omega
      rw [Nat.sub_self] at h
      exact .inr ⟨rfl, (Option.some.inj h).symm, List.take_left⟩
  · have hsame : (g.emitAt b i).instrs c = g.instrs c := by
      by_cases hcb : c = b
      · have hge : g.blocks.length ≤ c := by
          by_contra hlt
          exact hc ⟨hcb, hcb ▸ Nat.lt_of_not_le hlt⟩
        rw [CodegenContext.instrs_of_length_le hge,
          CodegenContext.instrs_of_length_le (hge.trans' (CodegenContext.emitAt_length b i).le)]
      · exact CodegenContext.emitAt_instrs_ne hcb i
    rw [hsame] at h ⊢
    exact .inl ⟨h, rfl⟩

/-- **An instruction is added.** -/
theorem Assigned.emitAt (h : Assigned R g) {b : Nat} {i : Instr} {n : Nat} (hn : g.next ≤ n)
    (htarget : ∀ t ∈ i.targets, t < g.blocks.length)
    (hload : ∀ r, i.loaded = some r →
      r < n ∧ (r ∈ R.slots → ∃ c ∈ R.constructs, c.slot = r ∧ c.after = b))
    (hjump : ∀ t ∈ i.targets, ∀ c ∈ R.constructs, c.Needs b t →
      ∃ j ∈ g.instrs b, j.Settles c.slot) :
    Assigned R { g.emitAt b i with next := n } := by
  have hlength : (g.emitAt b i).blocks.length = g.blocks.length :=
    CodegenContext.emitAt_length b i
  have hmem : ∀ c, ∀ j ∈ (g.emitAt b i).instrs c, j ∈ g.instrs c ∨ c = b ∧ j = i := by
    intro c j hj
    obtain ⟨k, hk⟩ := List.getElem?_of_mem hj
    rcases getElem?_emitAt hk with ⟨hold, -⟩ | ⟨hc, hi, -⟩
    · exact .inl (List.mem_of_getElem? hold)
    · exact .inr ⟨hc, hi⟩
  have hknown : Known R { g.emitAt b i with next := n } := h.toKnown.mono hn hlength.ge
    (fun c _ => CodegenContext.emitAt_fnOf b c i)
    (fun p hp => ⟨(h.locals p hp).1.trans_le hn, (h.locals p hp).2⟩)
    fun pad hpad => ⟨(h.landingpad pad hpad).1.trans_le hlength.ge, (h.landingpad pad hpad).2⟩
  refine ⟨hknown, fun c j hj t ht => ?_, fun c j hj r hr => ?_,
    fun c j hj r hr hloaded => ?_, fun c k j hj t ht d hd hneeds => ?_⟩
  · show t < (g.emitAt b i).blocks.length
    rw [hlength]
    rcases hmem c j hj with hj | ⟨-, rfl⟩
    · exact h.target_lt c j hj t ht
    · exact htarget t ht
  · rcases hmem c j hj with hj | ⟨-, rfl⟩
    · exact (h.load_lt c j hj r hr).trans_le hn
    · exact (hload r hr).1
  · rcases hmem c j hj with hj | ⟨rfl, rfl⟩
    · exact h.load c j hj r hr hloaded
    · exact (hload r hloaded).2 hr
  · rcases getElem?_emitAt hj with ⟨hold, htake⟩ | ⟨rfl, rfl, htake⟩
    · show ∃ j ∈ ((g.emitAt b i).instrs c).take k, _
      rw [htake]
      exact h.jump c k j hold t ht d hd hneeds
    · show ∃ j' ∈ ((g.emitAt c j).instrs c).take k, _
      rw [htake]
      exact hjump t ht d hd hneeds

/-- An instruction that neither loads nor jumps. -/
def Instr.isCalm (i : Instr) : Bool := i.targets.isEmpty && i.loaded.isNone

theorem Assigned.calm (h : Assigned R g) (b : Nat) {i : Instr} {n : Nat} (hn : g.next ≤ n)
    (hi : i.isCalm) : Assigned R { g.emitAt b i with next := n } := by
  simp only [Instr.isCalm, Bool.and_eq_true, List.isEmpty_iff, Option.isNone_iff_eq_none] at hi
  refine h.emitAt hn ?_ ?_ ?_
  · rw [hi.1]
    nofun
  · rw [hi.2]
    nofun
  · rw [hi.1]
    nofun

theorem Assigned.emitCalm (h : Assigned R g) (b : Nat) {i : Instr} (hi : i.isCalm) :
    Assigned R (g.emitAt b i) :=
  h.calm b (Nat.le_refl g.next) hi

theorem Assigned.emitNewCalm (h : Assigned R g) (b : Nat) {i : Nat → Instr}
    (hi : ∀ r, (i r).isCalm) : Assigned R (g.emitNew b i) :=
  h.calm b (Nat.le_succ g.next) (hi g.next)

/-- What is no slot of a construct may be loaded anywhere. -/
theorem Assigned.emitLoad (h : Assigned R g) (b : Nat) {p : Operand}
    (hp : ∀ r, p = .reg r → r < g.next ∧ r ∉ R.slots) :
    Assigned R (g.emitNew b fun x => .load x p) := by
  refine h.emitAt (Nat.le_succ g.next) nofun (fun r hr => ?_) nofun
  cases p with
  | reg r' =>
      obtain rfl : r' = r := Option.some.inj hr
      exact ⟨(hp r' rfl).1.trans (Nat.lt_succ_self _), fun hmem => absurd hmem (hp r' rfl).2⟩
  | _ => cases hr

/-- A register that is new is no slot of a construct. -/
theorem Known.fresh (h : Known R g) : g.next ∉ R.slots :=
  fun hmem => Nat.lt_irrefl _ (h.slot_lt _ hmem)

theorem Known.newSlot (h : Known R g) : ∀ c ∈ R.constructs, c.slot ≠ g.next :=
  fun c hc => (h.slot_lt _ (h.slot_mem c hc)).ne

/-- Before a jump to blocks that no construct needs, nothing has to be stored. -/
theorem Assigned.emitJump (h : Assigned R g) (b : Nat) {i : Instr} {n : Nat} (hn : g.next ≤ n)
    (hi : i.loaded = none) (htarget : ∀ t ∈ i.targets, t < g.blocks.length)
    (hneeds : ∀ t ∈ i.targets, ∀ c ∈ R.constructs, ¬ c.Needs b t) :
    Assigned R { g.emitAt b i with next := n } :=
  h.emitAt hn htarget (fun r hr => by rw [hi] at hr; cases hr)
    fun t ht c hc hneed => absurd hneed (hneeds t ht c hc)

/-- A block that is new is no block of a construct. -/
theorem Known.newBlock (h : Known R g) {t : Nat} (ht : g.blocks.length ≤ t) (b : Nat) :
    ∀ c ∈ R.constructs, ¬ c.Needs b t :=
  fun c hc hneeds => Nat.not_lt.mpr ht (h.block_lt c hc t hneeds.mem)

/-! ### Expressions -/

theorem assigned_emit {i : Instr} (hi : i.isCalm) : Maintains (Assigned R) (emit i) := by
  intro g u g' hg h
  obtain rfl := emit_ok.mp h
  exact hg.emitCalm g.build hi

theorem assigned_emitReg {i : Nat → Instr} (hi : ∀ r, (i r).isCalm) :
    Maintains (Assigned R) (emitReg i) := by
  intro g v g' hg h
  obtain ⟨-, rfl⟩ := emitReg_ok.mp h
  exact hg.emitNewCalm g.build hi

theorem assigned_emitRegAt (b : Nat) {i : Nat → Instr} (hi : ∀ r, (i r).isCalm) :
    Maintains (Assigned R) (emitRegAt b i) := by
  intro g r g' hg h
  obtain ⟨-, rfl⟩ := emitRegAt_ok.mp h
  exact hg.emitNewCalm b hi

theorem assigned_buildCall (fn : String) (args : List Operand) :
    Maintains (Assigned R) (buildCall fn args) :=
  assigned_emitReg fun _ => rfl

theorem assigned_mkSym (name : String) : Maintains (Assigned R) (mkSym name) :=
  assigned_buildCall _ _

theorem assigned_entryBlockBuilder : Maintains (Assigned R) entryBlockBuilder := by
  intro g b g' hg h
  unfold entryBlockBuilder at h
  split at h
  · obtain ⟨-, rfl⟩ := Prod.mk.inj (Except.ok.inj h)
    exact hg
  · obtain ⟨-, rfl⟩ := Prod.mk.inj (Except.ok.inj h)
    exact hg.append "entry"

/-- The slot of a local is a new register. -/
theorem assigned_createLocal (name : String) : Maintains (Assigned R) (createLocal name) := by
  refine assigned_entryBlockBuilder.bind fun b => ?_
  intro g v g' hg h
  simp only [bind_ok, emitRegAt_ok, pure_ok] at h
  obtain ⟨r, _, ⟨rfl, rfl⟩, c, _, ⟨rfl, rfl⟩, c', _, ⟨rfl, rfl⟩, u, _, hlocal, rfl, rfl⟩ := h
  obtain ⟨-, rfl⟩ := Prod.mk.inj (Except.ok.inj hlocal)
  have h₁ := hg.emitNewCalm b (i := .alloca) fun _ => rfl
  have h₂ := h₁.emitNewCalm b (i := fun c => .bitCast c (.reg g.next)) fun _ => rfl
  have h₃ := h₂.emitNewCalm b
    (i := fun c => .call c "llvm.gcroot" [.reg (g.next + 1), .null]) fun _ => rfl
  have hlt : g.next < g.next + 1 + 1 + 1 := by omega
  exact h₃.congr rfl rfl (List.forall_mem_cons.mpr ⟨⟨hlt, hg.fresh⟩, h₃.locals⟩) h₃.landingpad

theorem assigned_getOrCreateLocal (name : String) :
    Maintains (Assigned R) (getOrCreateLocal name) := by
  refine (maintains_getLocal name).bind fun found => ?_
  cases found with
  | some localSlot => exact maintains_pure _
  | none => exact assigned_createLocal name

theorem assigned_storeArgs (argv : Operand) (args : List Operand) :
    ∀ i, Maintains (Assigned R) (storeArgs argv i args) := by
  induction args with
  | nil => exact fun _ => maintains_pure _
  | cons arg args ih =>
      intro i
      exact (assigned_emitReg fun _ => rfl).bind fun element =>
        Maintains.bind (fun g u g' hg h => by
          obtain rfl := emit_ok.mp h
          exact hg.emitCalm g.build rfl) fun _ => ih (i + 1)

theorem assigned_buildArgv (args : List Operand) : Maintains (Assigned R) (buildArgv args) := by
  unfold buildArgv
  split
  · exact maintains_pure _
  · exact assigned_entryBlockBuilder.bind fun b =>
      (assigned_emitRegAt b fun _ => rfl).bind fun argv =>
        (assigned_storeArgs _ args 0).bind fun _ => maintains_pure _

/-- An invocation jumps to a new block or to the landing pad. -/
theorem assigned_buildMethodInvocation (receiver : Operand) (name : String)
    (args : List Operand) : Maintains (Assigned R) (buildMethodInvocation receiver name args) := by
  refine (assigned_buildArgv args).bind fun argv => (assigned_mkSym name).bind fun sym => ?_
  intro g v g' hg h
  rw [bind_ok] at h
  obtain ⟨_, _, hget, h⟩ := h
  rw [(get_ok.mp hget).1, (get_ok.mp hget).2] at h
  cases hpad : g.landingpad with
  | none =>
      rw [hpad] at h
      exact assigned_buildCall _ _ _ _ _ hg h
  | some pad =>
      simp only [hpad, bind_ok, appendBlock_ok, emitReg_ok, positionAtEnd_ok, pure_ok] at h
      obtain ⟨b, _, ⟨rfl, rfl⟩, res, _, ⟨rfl, rfl⟩, u, _, rfl, rfl, rfl⟩ := h
      obtain ⟨hlt, hblocks⟩ := hg.landingpad pad hpad
      have hlength := CodegenContext.append_length (g := g) s!"invoke_{name}_continue"
      have hinvoke := (hg.append s!"invoke_{name}_continue").emitJump g.build
        (i := .invoke g.next "pup_invoke" [.env, receiver, sym, .int args.length, argv]
          g.blocks.length pad) (Nat.le_succ g.next) rfl ?_ ?_
      · exact hinvoke.moveTo g.blocks.length
      · intro t ht
        rw [hlength]
        rcases List.mem_pair.mp ht with rfl | rfl <;> omega
      · intro t ht c hc hneeds
        rcases List.mem_pair.mp ht with rfl | rfl
        · exact hg.newBlock (Nat.le_refl _) g.build c hc hneeds
        · exact hblocks c hc hneeds.mem

theorem assigned_codegenBinary (class_ : BinaryClass) (op : String) (lhs rhs : Operand) :
    Maintains (Assigned R) (codegenBinary class_ op lhs rhs) := by
  unfold codegenBinary
  split
  · exact assigned_buildMethodInvocation _ _ _
  · exact maintains_throw _

theorem assigned_constAccess (name : String) : Maintains (Assigned R) (constAccess name) :=
  maintains_get.bind fun _ => (assigned_buildCall _ _).bind fun _ =>
    (assigned_mkSym name).bind fun _ => assigned_buildCall _ _

/-- A local is no construct. -/
theorem assigned_localAccess (name : String) : Maintains (Assigned R) (localAccess name) := by
  intro g v g' hg h
  rw [localAccess, bind_ok] at h
  obtain ⟨found, _, hget, h⟩ := h
  obtain ⟨rfl, rfl⟩ := Prod.mk.inj (Except.ok.inj hget)
  cases hlookup : g.current_method.locals.lookup name with
  | none =>
      rw [hlookup] at h
      exact absurd h throw_ok
  | some slot =>
      rw [hlookup] at h
      obtain ⟨-, rfl⟩ := emitReg_ok.mp h
      refine hg.emitLoad g.build fun r hr => ?_
      obtain rfl := Operand.reg.inj hr
      exact hg.locals _ (mem_of_lookup hlookup)

mutual

/-- **An expression loads no slot of a construct, and jumps to no block of one.** -/
theorem assigned_codegenExpr : (e : Expr) → Maintains (Assigned R) (codegenExpr e)
  | .assign (.name name) _ right => by
      rw [codegenExpr]
      exact (assigned_getOrCreateLocal name).bind fun lhs => (assigned_codegenExpr right).bind
        fun rhs => (assigned_emit (by cases lhs <;> rfl)).bind fun _ => maintains_pure _
  | .assign (.instVar name) _ right => by
      rw [codegenExpr]
      exact (assigned_codegenExpr right).bind fun _ => (assigned_mkSym name).bind fun _ =>
        maintains_get.bind fun _ => (assigned_buildCall _ _).bind fun _ => maintains_pure _
  | .varOrInvoke name args _ receiver => by
      rw [codegenExpr]
      have hreceiver := assigned_codegenReceiver receiver
      have hargs := assigned_codegenArgList args
      split
      · exact assigned_constAccess _
      · refine (maintains_isLocal _ _ _).bind fun found => ?_
        split
        · exact assigned_localAccess _
        · exact hreceiver.bind fun _ => hargs.bind fun _ => assigned_buildMethodInvocation _ _ _
  | .instVar name => by
      rw [codegenExpr]
      exact (assigned_mkSym name).bind fun _ => maintains_get.bind fun _ => assigned_buildCall _ _
  | .binary class_ left op right => by
      rw [codegenExpr]
      exact (assigned_codegenExpr left).bind fun _ => (assigned_codegenExpr right).bind fun _ =>
        assigned_codegenBinary _ _ _ _
  | .string source => by
      rw [codegenExpr]
      exact assigned_buildCall _ _
  | .int source => by
      rw [codegenExpr]
      exact assigned_buildCall _ _
  | .bool true => by
      rw [codegenExpr]
      exact assigned_buildCall _ _
  | .bool false => by
      rw [codegenExpr]
      exact assigned_buildCall _ _
  | .selfExpr => by
      rw [codegenExpr]
      exact maintains_get.bind fun _ => maintains_pure _

theorem assigned_codegenReceiver :
    (receiver : Option Expr) → Maintains (Assigned R) (codegenReceiver receiver)
  | some receiver => by
      rw [codegenReceiver]
      exact assigned_codegenExpr receiver
  | none => by
      rw [codegenReceiver]
      exact maintains_get.bind fun _ => maintains_pure _

theorem assigned_codegenArgList :
    (args : Option (List Expr)) → Maintains (Assigned R) (codegenArgList args)
  | some args => by
      rw [codegenArgList]
      exact assigned_codegenExprs args
  | none => by
      rw [codegenArgList]
      exact maintains_pure _

theorem assigned_codegenExprs : (es : List Expr) → Maintains (Assigned R) (codegenExprs es)
  | [] => by
      rw [codegenExprs]
      exact maintains_pure _
  | e :: es => by
      rw [codegenExprs]
      exact (assigned_codegenExpr e).bind fun _ => (assigned_codegenExprs es).bind fun _ =>
        maintains_pure _

end

/-- A parameter is loaded out of the argument array. -/
theorem assigned_codegenArgs (params : List Param) :
    ∀ i, Maintains (Assigned R) (codegenArgs i params) := by
  induction params with
  | nil => exact fun _ => maintains_pure _
  | cons param params ih =>
      intro i
      obtain ⟨name, init⟩ := param
      refine (assigned_getOrCreateLocal name).bind fun var => ?_
      intro g u g' hg h
      simp only [bind_ok, emitReg_ok, emit_ok] at h
      obtain ⟨argp, _, ⟨rfl, rfl⟩, arg, _, ⟨rfl, rfl⟩, _, _, rfl, h⟩ := h
      have hgep := hg.emitNewCalm g.build (i := fun r => .gep r .paramArgv i) fun _ => rfl
      have hload := hgep.emitLoad g.build (p := .reg g.next) fun r hr => by
        obtain rfl := Operand.reg.inj hr
        exact ⟨Nat.lt_succ_self g.next, hg.fresh⟩
      exact ih (i + 1) _ _ _ (hload.emitCalm g.build (by cases var <;> rfl)) h

theorem assigned_openClass (name : String) : Maintains (Assigned R) (openClass name) :=
  (assigned_buildCall _ _).bind fun _ => maintains_get.bind fun _ =>
    (assigned_buildCall _ _).bind fun _ => (assigned_buildCall _ _).bind fun _ =>
      (assigned_mkSym name).bind fun _ => (assigned_emitReg fun _ => rfl).bind fun _ =>
        (assigned_buildCall _ _).bind fun _ => maintains_pure _

theorem assigned_defineMethod (name : String) (fn : Nat) :
    Maintains (Assigned R) (defineMethod name fn) :=
  (assigned_mkSym name).bind fun _ => maintains_get.bind fun _ => assigned_buildCall _ _

/-! ### Constructs of a program

The slot of a construct is there before its blocks are, so it is noted first (`withSlot`) and the
construct when all its blocks have been made (`withConstruct`).  What is generated in between adds
constructs of its own only, with new slots and new blocks (`Later`): neither a load of the slot
nor a jump into the blocks can come of it.
-/

/-- `R'` has more than `R`, and what it has more was made after `g`. -/
structure Later (g : CodegenContext) (R R' : Results) : Prop where
  slots : ∀ r ∈ R.slots, r ∈ R'.slots
  constructs : ∀ c ∈ R.constructs, c ∈ R'.constructs
  slot_new : ∀ r ∈ R'.slots, r ∈ R.slots ∨ g.next ≤ r
  construct_new : ∀ c ∈ R'.constructs,
    c ∈ R.constructs ∨ g.next ≤ c.slot ∧ ∀ b ∈ c.blocks, g.blocks.length ≤ b

theorem Later.refl (g : CodegenContext) (R : Results) : Later g R R :=
  ⟨fun _ h => h, fun _ h => h, fun _ h => .inl h, fun _ h => .inl h⟩

theorem Later.trans {R₁ : Results} (h : Later g R R₁) (h' : Later g₁ R₁ R')
    (hnext : g.next ≤ g₁.next) (hlength : g.blocks.length ≤ g₁.blocks.length) :
    Later g R R' where
  slots r hr := h'.slots r (h.slots r hr)
  constructs c hc := h'.constructs c (h.constructs c hc)
  slot_new r hr := by
    rcases h'.slot_new r hr with hr | hr
    · exact h.slot_new r hr
    · exact .inr (hnext.trans hr)
  construct_new c hc := by
    rcases h'.construct_new c hc with hc | ⟨hslot, hblocks⟩
    · exact h.construct_new c hc
    · exact .inr ⟨hnext.trans hslot, fun b hb => hlength.trans (hblocks b hb)⟩

/-- A block that is there is no block of a construct that comes later. -/
theorem Later.notMem (h : Later g R R') {b : Nat} (hb : b < g.blocks.length)
    (hR : ∀ c ∈ R.constructs, b ∉ c.blocks) : ∀ c ∈ R'.constructs, b ∉ c.blocks := by
  intro c hc hmem
  rcases h.construct_new c hc with hc | ⟨-, hblocks⟩
  · exact hR c hc hmem
  · exact Nat.not_lt.mpr (hblocks b hmem) hb

def Results.withSlot (R : Results) (r : Nat) : Results := { R with slots := r :: R.slots }

def Results.withConstruct (R : Results) (c : Construct) : Results :=
  { R with constructs := c :: R.constructs }

theorem Later.withSlot (h : Later g R R') {r : Nat} (hr : g.next ≤ r) :
    Later g R (R'.withSlot r) where
  slots r' hr' := .tail _ (h.slots r' hr')
  constructs := h.constructs
  slot_new := List.forall_mem_cons.mpr ⟨.inr hr, h.slot_new⟩
  construct_new := h.construct_new

theorem Later.withConstruct (h : Later g R R') {c : Construct} (hslot : g.next ≤ c.slot)
    (hblocks : ∀ b ∈ c.blocks, g.blocks.length ≤ b) : Later g R (R'.withConstruct c) where
  slots := h.slots
  constructs c' hc' := .tail _ (h.constructs c' hc')
  slot_new := h.slot_new
  construct_new := List.forall_mem_cons.mpr ⟨.inr ⟨hslot, hblocks⟩, h.construct_new⟩

/-- The slot of a construct is made. -/
theorem Assigned.withSlot (h : Assigned R g) (e : Nat) :
    Assigned (R.withSlot g.next) (g.emitNew e .alloca) := by
  have halloca := h.emitNewCalm e (i := .alloca) fun _ => rfl
  have hlt : g.next < g.next + 1 := Nat.lt_succ_self _
  have hknown : Known (R.withSlot g.next) (g.emitNew e .alloca) :=
    { halloca.toKnown with
      slot_lt := List.forall_mem_cons.mpr ⟨hlt, halloca.slot_lt⟩
      slot_mem := fun c hc => .tail _ (h.slot_mem c hc)
      locals := fun p hp => by
        refine ⟨(halloca.locals p hp).1, fun hmem => ?_⟩
        rcases List.mem_cons.mp hmem with heq | hmem
        · exact Nat.lt_irrefl _ (heq ▸ (h.locals p hp).1)
        · exact (h.locals p hp).2 hmem }
  refine ⟨hknown, halloca.target_lt, halloca.load_lt, fun b i hi r hr hloaded => ?_,
    halloca.jump⟩
  rcases List.mem_cons.mp hr with rfl | hr
  · rcases CodegenContext.mem_emitAt hi with hi | rfl
    · exact absurd (h.load_lt b i hi _ hloaded) (Nat.lt_irrefl _)
    · cases hloaded
  · exact halloca.load b i hi r hr hloaded

/-- The blocks of a construct have been made, and none has been jumped to that needs its slot. -/
theorem Assigned.withConstruct (h : Assigned R g) {c : Construct} (hslot : c.slot ∈ R.slots)
    (hlt : ∀ b ∈ c.blocks, b < g.blocks.length)
    (hinner : ∃ b < c.after, g.fnOf b = g.fnOf c.after)
    (hpad : ∀ pad, g.landingpad = some pad → pad ∉ c.blocks)
    (hnew : ∀ d ∈ R.constructs, d.slot ≠ c.slot ∧ ∀ b ∈ d.blocks, b ∉ c.blocks)
    (hneeds : ∀ b, ∀ i ∈ g.instrs b, ∀ t ∈ i.targets, ¬ c.Needs b t) :
    Assigned (R.withConstruct c) g := by
  have hknown : Known (R.withConstruct c) g :=
    { h.toKnown with
      slot_mem := List.forall_mem_cons.mpr ⟨hslot, h.slot_mem⟩
      block_lt := List.forall_mem_cons.mpr ⟨hlt, h.block_lt⟩
      inner := List.forall_mem_cons.mpr ⟨hinner, h.inner⟩
      landingpad := fun pad heq => ⟨(h.landingpad pad heq).1,
        List.forall_mem_cons.mpr ⟨hpad pad heq, (h.landingpad pad heq).2⟩⟩
      unique := by
        intro d hd d' hd' hsame
        rcases List.mem_cons.mp hd with rfl | hold <;> rcases List.mem_cons.mp hd' with rfl | hold'
        · rfl
        · rcases hsame with heq | ⟨b, hb, hb'⟩
          · exact absurd heq.symm (hnew d' hold').1
          · exact absurd hb ((hnew d' hold').2 b hb')
        · rcases hsame with heq | ⟨b, hb, hb'⟩
          · exact absurd heq (hnew d hold).1
          · exact absurd hb' ((hnew d hold).2 b hb)
        · exact h.unique d hold d' hold' hsame }
  refine ⟨hknown, h.target_lt, h.load_lt, fun b i hi r hr hloaded => ?_,
    fun b k i hi t ht d hd hneed => ?_⟩
  · obtain ⟨d, hd, hdr, hdb⟩ := h.load b i hi r hr hloaded
    exact ⟨d, .tail _ hd, hdr, hdb⟩
  · rcases List.mem_cons.mp hd with rfl | hd
    · exact absurd hneed (hneeds b i (List.mem_of_getElem? hi) t ht)
    · exact h.jump b k i hi t ht d hd hneed

/-- A jump to a block of a construct, after the store to its slot. -/
theorem Assigned.emitStored (h : Assigned R g) (b : Nat) {c : Construct}
    (hc : c ∈ R.constructs) {t : Nat} (ht : t ∈ c.blocks)
    (hstored : ∃ j ∈ g.instrs b, j.Settles c.slot) : Assigned R (g.emitAt b (.br t)) := by
  refine h.emitAt (Nat.le_refl g.next) ?_ nofun ?_
  · intro t' ht'
    obtain rfl := List.mem_singleton.mp ht'
    exact h.block_lt c hc t' ht
  · intro t' ht' d hd hneeds
    obtain rfl := List.mem_singleton.mp ht'
    rw [h.unique d hd c hc (.inr ⟨t', hneeds.mem, ht⟩)]
    exact hstored

/-- The slot of a construct is loaded in the block after it. -/
theorem Assigned.loadAfter (h : Assigned R g) {c : Construct} (hc : c ∈ R.constructs) :
    Assigned R ((g.moveTo c.after).emitNew c.after fun x => .load x (.reg c.slot)) := by
  refine (h.moveTo c.after).emitAt (Nat.le_succ g.next) nofun (fun r hr => ?_) nofun
  obtain rfl := Option.some.inj hr
  exact ⟨(h.slot_lt _ (h.slot_mem c hc)).trans (Nat.lt_succ_self _), fun _ => ⟨c, hc, rfl, rfl⟩⟩

theorem Assigned.leaving (h : Assigned R g) (hg : WellFormed g) {c : Construct}
    (hc : c ∈ R.constructs) (v : Operand) :
    Assigned R (g.leaving v (.reg c.slot) c.after) := by
  have hstore := h.emitCalm g.build (i := .store v (.reg c.slot)) rfl
  exact hstore.emitStored g.build hc (.head _) ⟨_, mem_emitAt_self hg.build_lt _, .inr rfl⟩

theorem Assigned.looped (h : Assigned R g) (hg : WellFormed g) {c : Construct}
    (hc : c ∈ R.constructs) {cond : Nat} (hback : c.back = some cond) (v : Operand) :
    Assigned R (g.looped v (.reg c.slot) cond) := by
  have hstore := h.emitCalm g.build (i := .store v (.reg c.slot)) rfl
  have hcall := hstore.emitNewCalm g.build
    (i := fun r => .call r "pup_env_safepoint" [.env]) fun _ => rfl
  refine hcall.emitStored g.build hc (.tail _ (Option.mem_toList.mpr hback))
    ⟨.store v (.reg c.slot), ?_, .inr rfl⟩
  exact (CodegenContext.emitAt_longer g.build g.build _).subset (mem_emitAt_self hg.build_lt _)

theorem Assigned.branched (h : Assigned R g) (val : Operand) {ifFalse otherwise : Nat}
    (hlt : ifFalse < g.blocks.length ∧ otherwise < g.blocks.length)
    (hneeds : ∀ c ∈ R.constructs, ∀ b,
      ¬ c.Needs b ifFalse ∧ ¬ c.Needs b otherwise) :
    Assigned R (g.branched val ifFalse otherwise) := by
  have hcall := h.emitNewCalm g.build
    (i := fun r => .call r "pup_env_get_falseinstance" [.env]) fun _ => rfl
  have hcmp := hcall.emitNewCalm g.build (i := fun r => .icmpEq r val (.reg g.next)) fun _ => rfl
  have hlength : ((g.emitNew g.build fun r => .call r "pup_env_get_falseinstance" [.env]).emitNew
      g.build fun r => .icmpEq r val (.reg g.next)).blocks.length = g.blocks.length :=
    (CodegenContext.emitAt_length ..).trans (CodegenContext.emitAt_length ..)
  refine hcmp.emitJump g.build (i := .cond (.reg (g.next + 1)) ifFalse otherwise)
    (Nat.le_refl _) rfl ?_ ?_
  · intro t ht
    rw [hlength]
    rcases List.mem_pair.mp ht with rfl | rfl
    · exact hlt.1
    · exact hlt.2
  · intro t ht c hc
    rcases List.mem_pair.mp ht with rfl | rfl
    · exact (hneeds c hc _).1
    · exact (hneeds c hc _).2

/-- The first of the blocks of an `if` or a `while` is made and jumped to. -/
def CodegenContext.jumpedInto (g : CodegenContext) (name : String) : CodegenContext :=
  (g.append name).emitAt g.build (.br g.blocks.length)

theorem jumpedInto_length (name : String) :
    (g.jumpedInto name).blocks.length = g.blocks.length + 1 :=
  (CodegenContext.emitAt_length ..).trans (CodegenContext.append_length name)

theorem Assigned.jumpedInto (h : Assigned R g) (name : String) :
    Assigned R (g.jumpedInto name) := by
  refine (h.append name).emitJump g.build (i := .br g.blocks.length) (Nat.le_refl _) rfl ?_ ?_
  · intro t ht
    obtain rfl := List.mem_singleton.mp ht
    rw [CodegenContext.append_length]
    exact Nat.lt_succ_self _
  · intro t ht
    obtain rfl := List.mem_singleton.mp ht
    exact h.newBlock (Nat.le_refl _) g.build

theorem ifBlocks_instrs (b : Nat) : g.ifBlocks.instrs b = (g.jumpedInto "cond").instrs b := by
  unfold CodegenContext.ifBlocks
  rw [CodegenContext.append_instrs, CodegenContext.append_instrs, CodegenContext.append_instrs]
  rfl

theorem whileBlocks_instrs (b : Nat) :
    g.whileBlocks.instrs b = (g.jumpedInto "while_cond").instrs b := by
  unfold CodegenContext.whileBlocks
  rw [CodegenContext.append_instrs, CodegenContext.append_instrs]
  rfl

theorem ifBlocks_length : g.ifBlocks.blocks.length = g.blocks.length + 4 := by
  simp [CodegenContext.ifBlocks]

theorem whileBlocks_length : g.whileBlocks.blocks.length = g.blocks.length + 3 := by
  simp [CodegenContext.whileBlocks]

/-- Blocks that are new to a context are inner blocks of the method. -/
theorem Frame.inner {bs : List Nat} (hg : WellFormed g) (h : Frame g g' bs) {b : Nat}
    (hb : b ∈ bs) (hlt : g.blocks.length ≤ b) : ∃ b' < b, g'.fnOf b' = g'.fnOf b := by
  refine ⟨g.build, hg.build_lt.trans_le hlt, ?_⟩
  rw [h.grow.fnOf g.build hg.build_lt, (h.reach b hb).fnOf, hg.build, h.grow.method]

theorem Assigned.ifBlocks (h : Assigned R g) (hg : WellFormed g) {r : Nat} (hr : r ∈ R.slots)
    (hnew : ∀ d ∈ R.constructs, d.slot ≠ r) :
    Assigned (R.withConstruct ⟨r, g.blocks.length + 3, none⟩) g.ifBlocks := by
  have hjump := h.jumpedInto "cond"
  have hblocks := ((hjump.append "then").append "else").append "ifcontinue"
  refine Assigned.withConstruct (g := g.ifBlocks) hblocks hr ?_ ?_ ?_ ?_ ?_
  · intro b hb
    obtain rfl := Construct.mem_blocks_none.mp hb
    rw [ifBlocks_length]
    exact Nat.lt_succ_self _
  · exact (Frame.start hg).ifBlocks.inner hg (.head _) (Nat.le_add_right _ 3)
  · intro pad hpad hmem
    have hlt := (h.landingpad pad hpad).1
    obtain rfl := Construct.mem_blocks_none.mp hmem
    omega
  · refine fun d hd => ⟨hnew d hd, fun b hb hmem => ?_⟩
    have hlt := h.block_lt d hd b hb
    obtain rfl := Construct.mem_blocks_none.mp hmem
    omega
  · intro b i hi t ht hneeds
    rw [ifBlocks_instrs] at hi
    have hlt := hjump.target_lt b i hi t ht
    rw [jumpedInto_length] at hlt
    obtain rfl := Construct.mem_blocks_none.mp hneeds.mem
    omega

theorem Assigned.whileBlocks (h : Assigned R g) (hg : WellFormed g) {r : Nat}
    (hr : r ∈ R.slots) (hnew : ∀ d ∈ R.constructs, d.slot ≠ r) :
    Assigned (R.withConstruct ⟨r, g.blocks.length + 2, some g.blocks.length⟩) g.whileBlocks := by
  have hjump := h.jumpedInto "while_cond"
  have hblocks := (hjump.append "while_body").append "while_continue"
  refine Assigned.withConstruct (g := g.whileBlocks) hblocks hr ?_ ?_ ?_ ?_ ?_
  · intro b hb
    rw [whileBlocks_length]
    rcases Construct.mem_blocks_some.mp hb with rfl | rfl <;> omega
  · exact (Frame.start hg).whileBlocks.inner hg (.head _) (Nat.le_add_right _ 2)
  · intro pad hpad hmem
    have hlt := (h.landingpad pad hpad).1
    rcases Construct.mem_blocks_some.mp hmem with rfl | rfl <;> omega
  · refine fun d hd => ⟨hnew d hd, fun b hb hmem => ?_⟩
    have hlt := h.block_lt d hd b hb
    rcases Construct.mem_blocks_some.mp hmem with rfl | rfl <;> omega
  · -- the only jump to the condition comes from where the builder was
    intro b i hi t ht hneeds
    rw [whileBlocks_instrs] at hi
    rcases hneeds with ⟨hnone, -⟩ | ⟨hback, hlt⟩
    · cases hnone
    · obtain rfl : g.blocks.length = t := Option.some.inj hback
      rw [CodegenContext.instrs_of_length_le (by rw [jumpedInto_length]; exact hlt)] at hi
      cases hi

/-! ### What a program makes -/

def hasResult : Stmt → Bool
  | .ifStmt .. => true
  | .whileStmt .. => true
  | .beginStmt .. => true
  | _ => false

/-- The construct of a statement that is generated in a context. -/
inductive IsConstruct (g : CodegenContext) : Stmt → Construct → Prop
  | ifStmt (cond : Expr) (ifbk : List Stmt) (elsebk : Option (List Stmt)) (after : Nat) :
      IsConstruct g (.ifStmt cond ifbk elsebk) ⟨g.next, after, none⟩
  | whileStmt (cond : Expr) (statements : List Stmt) :
      IsConstruct g (.whileStmt cond statements)
        ⟨g.next, g.blocks.length + 2, some g.blocks.length⟩
  | beginStmt (beginbk : List Stmt) (rescuebks : List RescueBlock)
      (elsebk ensurebk : Option (List Stmt)) (after : Nat) :
      IsConstruct g (.beginStmt beginbk rescuebks elsebk ensurebk) ⟨g.next, after, none⟩

/-- The constructs of the statements are known. -/
def CoversAll (R : Results) (inside : Stmt → CodegenContext → Prop) : Prop :=
  ∀ s g, inside s g → hasResult s = true → ∃ c ∈ R.constructs, IsConstruct g s c

theorem CoversAll.later {inside : Stmt → CodegenContext → Prop} (h : CoversAll R inside)
    (hR : Later g₀ R R') : CoversAll R' inside := by
  intro s g hin hs
  obtain ⟨c, hc, hconstruct⟩ := h s g hin hs
  exact ⟨c, hR.constructs c hc, hconstruct⟩

abbrev Covers (R : Results) (s : Stmt) (g : CodegenContext) : Prop :=
  CoversAll R fun s' g' => Inside s' g' s g

abbrev CoversStmts (R : Results) (ss : List Stmt) (g : CodegenContext) : Prop :=
  CoversAll R fun s' g' => InsideStmts s' g' ss g

abbrev CoversRescues (R : Results) (rescuebks : List RescueBlock)
    (result excep asobj : Operand) (g : CodegenContext) : Prop :=
  CoversAll R fun s' g' => InsideRescues s' g' rescuebks result excep asobj g

/-- The slots of constructs are right after `m` if they were before, and those that it has made
are known. -/
def Assigns (m : Gen α) (covers : Results → CodegenContext → Prop) : Prop :=
  ∀ R g a g', WellFormed g → Assigned R g → m g = .ok (a, g') →
    ∃ R', Later g R R' ∧ Assigned R' g' ∧ covers R' g

section If

variable {r : Nat} {v : Operand} {cond : Expr} {ifbk elsebk : List Stmt}

/-- The constructs that were there do not need the blocks of a new one. -/
theorem Known.branch (h : Known R g) {c : Construct} {ifFalse otherwise : Nat}
    (hc : ∀ b, ¬ c.Needs b ifFalse ∧ ¬ c.Needs b otherwise) (hFalse : g.blocks.length ≤ ifFalse)
    (hotherwise : g.blocks.length ≤ otherwise) :
    ∀ d ∈ (R.withConstruct c).constructs, ∀ b,
      ¬ d.Needs b ifFalse ∧ ¬ d.Needs b otherwise := by
  intro d hd b
  rcases List.mem_cons.mp hd with rfl | hd
  · exact hc b
  · exact ⟨h.newBlock hFalse b d hd, h.newBlock hotherwise b d hd⟩

theorem IfSteps.assigned (steps : IfSteps g (.reg r) cond ifbk elsebk v g') (hg : WellFormed g)
    (h : Assigned R g) (hr : r ∈ R.slots) (hnew : ∀ d ∈ R.constructs, d.slot ≠ r)
    (hif : Assigns (codegenStmts ifbk) fun R g => CoversStmts R ifbk g)
    (helse : Assigns (codegenStmts elsebk) fun R g => CoversStmts R elsebk g) :
    ∃ R', Later g (R.withConstruct ⟨r, g.blocks.length + 3, none⟩) R' ∧ Assigned R' g' ∧
      CoversStmts R' ifbk ((steps.g₁.branched steps.val (g.blocks.length + 2)
        (g.blocks.length + 1)).moveTo (g.blocks.length + 1)) ∧
      CoversStmts R' elsebk ((steps.g₂.leaving steps.vthen (.reg r)
        (g.blocks.length + 3)).moveTo (g.blocks.length + 2)) := by
  have hframe := Frame.start hg
  have hatIf := (steps.atIf hframe).grow
  have hatElse := (steps.atElse hframe (grows_codegenStmts ifbk)).grow
  have hcond := grows_codegenExpr cond _ _ _ hframe.atIfCond.grow.wellFormed steps.cond
  have hthen := grows_codegenStmts ifbk _ _ _ hatIf.wellFormed steps.ifbk
  have helseGrow := grows_codegenStmts elsebk _ _ _ hatElse.wellFormed steps.elsebk
  have hlength : g.blocks.length + 4 ≤ steps.g₁.blocks.length :=
    ifBlocks_length.symm.le.trans hcond.length
  -- the condition
  have hblocks := h.ifBlocks hg hr hnew
  have h₁ := assigned_codegenExpr cond _ _ _ (hblocks.moveTo g.blocks.length) steps.cond
  have hneeds : ∀ b, ¬ (Construct.mk r (g.blocks.length + 3) none).Needs b (g.blocks.length + 2) ∧
      ¬ (Construct.mk r (g.blocks.length + 3) none).Needs b (g.blocks.length + 1) := fun b =>
    ⟨fun hn => absurd (Construct.mem_blocks_none.mp hn.mem) (by omega),
      fun hn => absurd (Construct.mem_blocks_none.mp hn.mem) (by omega)⟩
  have hbranch := h₁.branched steps.val ⟨by omega, by omega⟩
    (h.toKnown.branch hneeds (Nat.le_add_right _ 2) (Nat.le_add_right _ 1))
  -- the branches
  obtain ⟨R₂, hlater₂, h₂, hcover₂⟩ := hif _ _ _ _ hatIf.wellFormed (hbranch.moveTo _) steps.ifbk
  have hc₂ : ⟨r, g.blocks.length + 3, none⟩ ∈ R₂.constructs := hlater₂.constructs _ (.head _)
  have hleave := h₂.leaving hthen.wellFormed hc₂ steps.vthen
  obtain ⟨R₃, hlater₃, h₃, hcover₃⟩ := helse _ _ _ _ hatElse.wellFormed (hleave.moveTo _)
    steps.elsebk
  have hc₃ : ⟨r, g.blocks.length + 3, none⟩ ∈ R₃.constructs := hlater₃.constructs _ hc₂
  have hleave' := h₃.leaving helseGrow.wellFormed hc₃ steps.velse
  refine ⟨R₃, ?_, ?_, hcover₂.later hlater₃, hcover₃⟩
  · exact ((Later.refl g _).trans hlater₂ hatIf.next hatIf.length).trans hlater₃ hatElse.next
      hatElse.length
  · rw [steps.last]
    exact hleave'.loadAfter hc₃

end If

section While

variable {r : Nat} {v : Operand} {cond : Expr} {statements : List Stmt}

theorem WhileSteps.assigned (steps : WhileSteps g (.reg r) cond statements v g')
    (hg : WellFormed g) (h : Assigned R g) (hr : r ∈ R.slots)
    (hnew : ∀ d ∈ R.constructs, d.slot ≠ r)
    (hbody : Assigns (codegenStmts statements) fun R g => CoversStmts R statements g) :
    ∃ R', Later g (R.withConstruct ⟨r, g.blocks.length + 2, some g.blocks.length⟩) R' ∧
      Assigned R' g' ∧
      CoversStmts R' statements ((steps.g₁.branched steps.val (g.blocks.length + 2)
        (g.blocks.length + 1)).moveTo (g.blocks.length + 1)) := by
  have hframe := Frame.start hg
  have hatBody := (steps.atBody hframe).grow
  have hcond := grows_codegenExpr cond _ _ _ hframe.atWhileCond.grow.wellFormed steps.cond
  have hbodyGrow := grows_codegenStmts statements _ _ _ hatBody.wellFormed steps.body
  have hlength : g.blocks.length + 3 ≤ steps.g₁.blocks.length :=
    whileBlocks_length.symm.le.trans hcond.length
  -- the condition, out of which the jump to the block after the loop comes
  have hblocks := h.whileBlocks hg hr hnew
  have h₁ := assigned_codegenExpr cond _ _ _ (hblocks.moveTo g.blocks.length) steps.cond
  have hneeds : ∀ t, g.blocks.length < t → ∀ b,
      ¬ (Construct.mk r (g.blocks.length + 2) (some g.blocks.length)).Needs b t := by
    intro t ht b hn
    rcases hn with ⟨hnone, -⟩ | ⟨hback, -⟩
    · cases hnone
    · exact absurd (Option.some.inj hback) ht.ne
  have hbranch := h₁.branched steps.val ⟨by omega, by omega⟩
    (h.toKnown.branch (fun b => ⟨hneeds _ (by omega) b, hneeds _ (by omega) b⟩)
      (Nat.le_add_right _ 2) (Nat.le_add_right _ 1))
  -- the body
  obtain ⟨R₂, hlater₂, h₂, hcover₂⟩ := hbody _ _ _ _ hatBody.wellFormed (hbranch.moveTo _)
    steps.body
  have hc₂ : ⟨r, g.blocks.length + 2, some g.blocks.length⟩ ∈ R₂.constructs :=
    hlater₂.constructs _ (.head _)
  have hleave := h₂.looped hbodyGrow.wellFormed hc₂ rfl steps.vbody
  refine ⟨R₂, (Later.refl g _).trans hlater₂ hatBody.next hatBody.length, ?_, hcover₂⟩
  rw [steps.last]
  exact hleave.loadAfter hc₂

end While

/-! ### Landing pads -/

/-- The blocks that are jumped to when a test fails are new. -/
theorem assigned_codegenTypes {asobj : Operand} {types : List Expr}
    {tests : List (Nat × Operand × Nat)} (hg : WellFormed g) (h : Assigned R g)
    (hrun : codegenTypes asobj types g = .ok (tests, g')) :
    Assigned R g' ∧ ∀ t ∈ tests, t.2.2 < g'.blocks.length ∧
      ∀ c ∈ R.constructs, t.2.2 ∉ c.blocks := by
  induction types generalizing g tests with
  | nil =>
      rw [codegenTypes, pure_ok] at hrun
      obtain ⟨rfl, rfl⟩ := hrun
      exact ⟨h, by simp⟩
  | cons ex_type types ih =>
      obtain ⟨steps⟩ := codegenTypes_ok hrun
      have hat := steps.atOthers (Frame.start hg)
      have h₁ := assigned_codegenExpr ex_type _ _ _ h steps.type
      have htest := h₁.emitNewCalm steps.g₁.build (i := fun r =>
        .call r "pup_is_descendant_or_same" [steps.expected, asobj]) fun _ => rfl
      have hnew := (htest.append (blockNameNotMatched ex_type)).moveTo steps.g₁.blocks.length
      obtain ⟨h', htests⟩ := ih hat.grow.wellFormed hnew steps.others
      have hlength := ((Frame.start hat.grow.wellFormed).codegenTypes steps.others).grow.length
      refine ⟨h', ?_⟩
      rw [steps.tests]
      refine List.forall_mem_cons.mpr ⟨⟨?_, fun c hc hmem => ?_⟩, htests⟩
      · refine Nat.lt_of_lt_of_le ?_ hlength
        show steps.g₁.blocks.length < (((steps.g₁.emitAt _ _).append _)).blocks.length
        rw [CodegenContext.append_length, CodegenContext.emitAt_length]
        exact Nat.lt_succ_self _
      · exact Nat.lt_irrefl _ (h₁.block_lt c hc _ hmem)

theorem Assigned.jumpedTo (h : Assigned R g) (bkrescue : Nat)
    (tests : List (Nat × Operand × Nat))
    (hrescue : bkrescue < g.blocks.length ∧ ∀ c ∈ R.constructs, bkrescue ∉ c.blocks)
    (htests : ∀ t ∈ tests, t.2.2 < g.blocks.length ∧ ∀ c ∈ R.constructs, t.2.2 ∉ c.blocks) :
    Assigned R (g.jumpedTo bkrescue tests) := by
  induction tests generalizing g with
  | nil => exact h
  | cons t tests ih =>
      obtain ⟨ht, htests⟩ := List.forall_mem_cons.mp htests
      have hjump := (h.moveTo t.1).emitJump t.1 (i := .cond t.2.1 bkrescue t.2.2)
        (Nat.le_refl _) rfl ?_ ?_
      · have hlength : ((g.moveTo t.1).emitAt t.1 (.cond t.2.1 bkrescue t.2.2)).blocks.length =
            g.blocks.length := CodegenContext.emitAt_length ..
        refine ih hjump ⟨?_, hrescue.2⟩ fun t' ht' => ⟨?_, (htests t' ht').2⟩
        · exact hrescue.1.trans_le hlength.ge
        · exact (htests t' ht').1.trans_le hlength.ge
      · intro b hb
        rcases List.mem_pair.mp hb with rfl | rfl
        · exact hrescue.1
        · exact ht.1
      · intro b hb c hc hneeds
        rcases List.mem_pair.mp hb with rfl | rfl
        · exact hrescue.2 c hc hneeds.mem
        · exact ht.2 c hc hneeds.mem

section Clause

variable {types : List Expr} {var_name : Option String} {excep asobj : Operand}
  {bkrescue next : Nat}

theorem EnterSteps.assigned (steps : EnterSteps g types var_name excep asobj bkrescue next g')
    (hg : WellFormed g) (h : Assigned R g) : Assigned R g' := by
  obtain ⟨tests, g₁, htypes, rfl, rfl, hbound⟩ := steps
  obtain ⟨h₁, htests⟩ := assigned_codegenTypes hg h htypes
  have hlength : (g₁.append "rescue_impl").blocks.length = g₁.blocks.length + 1 :=
    CodegenContext.append_length _
  have hjumps := (h₁.append "rescue_impl").jumpedTo g₁.blocks.length tests
    ⟨by omega, fun c hc hmem => Nat.lt_irrefl _ (h₁.block_lt c hc _ hmem)⟩
    fun t ht => ⟨by have := (htests t ht).1; omega, (htests t ht).2⟩
  have hat := hjumps.moveTo g₁.blocks.length
  cases var_name with
  | none =>
      rw [show g' = _ from hbound]
      exact hat
  | some name =>
      obtain ⟨slot, g₂, hslot, rfl⟩ := hbound
      have h₂ := assigned_getOrCreateLocal name _ _ _ hat hslot
      exact h₂.emitCalm g₂.build (by cases slot <;> rfl)

theorem EnterSteps.build (steps : EnterSteps g types var_name excep asobj bkrescue next g')
    (hg : WellFormed g) : g'.build = bkrescue := by
  obtain ⟨tests, g₁, htypes, rfl, rfl, hbound⟩ := steps
  cases var_name with
  | none =>
      rw [show g' = _ from hbound]
      rfl
  | some name =>
      obtain ⟨slot, g₂, hslot, rfl⟩ := hbound
      have hat := ((Frame.start hg).atBound htypes).grow.wellFormed
      exact (stable_here.getOrCreateLocal name _ _ _ hat hslot).build

end Clause

/-- The clauses of a landing pad: their blocks have been ended, or the slot been stored to. -/
def AssignsRescues (rescuebks : List RescueBlock) : Prop :=
  ∀ R g impls g' r excep asobj, WellFormed g → Assigned R g →
    codegenRescues rescuebks (.reg r) excep asobj g = .ok (impls, g') →
    ∃ R', Later g R R' ∧ Assigned R' g' ∧ CoversRescues R' rescuebks (.reg r) excep asobj g ∧
      ∀ b ∈ impls, ∃ j ∈ g'.instrs b, j.Settles r

/-- What comes out of the statements of a clause is stored in its block, unless they have left
it. -/
theorem RescueSteps.settles {types : List Expr} {var_name : Option String}
    {statements : List Stmt} {rescuebks : List RescueBlock} {excep asobj : Operand} {r : Nat}
    {impls : List Nat}
    (steps : RescueSteps g types var_name statements rescuebks (.reg r) excep asobj impls g')
    (hg : WellFormed g) :
    ∃ j ∈ (steps.g₂.emitAt steps.g₂.build (.store steps.v (.reg r))).instrs steps.bkrescue,
      j.Settles r := by
  have hat := ((Frame.start hg).enterRescue steps.enter).grow.wellFormed
  have hleaves := leaves_codegenStmts statements _ _ _ hat steps.statements
  rw [← steps.enter.build hg]
  rcases hleaves.build with heq | ⟨i, hi, hends⟩
  · rw [← heq]
    exact ⟨.store steps.v (.reg r), mem_emitAt_self hleaves.grow.wellFormed.build_lt _, .inr rfl⟩
  · exact ⟨i, (CodegenContext.emitAt_longer ..).subset hi, .inl hends⟩

theorem Assigned.landed (h : Assigned R g) : Assigned R g.landed := by
  have h₁ := h.emitNewCalm g.build (i := fun r => .call r "llvm.eh.exception" []) fun _ => rfl
  have h₂ := h₁.emitNewCalm g.build (i := fun r => .call r "llvm.eh.selector" [.reg g.next,
    .global "pup_eh_personality", .global "eh_catchall"]) fun _ => rfl
  have h₃ := h₂.emitNewCalm g.build
    (i := fun r => .call r "extract_exception_obj" [.reg g.next]) fun _ => rfl
  have h₄ := h₃.emitNewCalm g.build (i := fun r => .structGep r (.reg (g.next + 2)) 0)
    fun _ => rfl
  have h₅ := h₄.emitLoad g.build (p := .reg (g.next + 3)) fun r hr => by
    obtain rfl := Operand.reg.inj hr
    exact ⟨Nat.lt_succ_self _, h₃.fresh⟩
  exact h₅.emitNewCalm g.build (i := fun r => .bitCast r (.reg (g.next + 4))) fun _ => rfl

theorem Assigned.jumpedOut (h : Assigned R g) {c : Construct} (hc : c ∈ R.constructs)
    (impls : List Nat) (himpls : ∀ b ∈ impls, ∃ j ∈ g.instrs b, j.Settles c.slot) :
    Assigned R (g.jumpedOut c.after impls) := by
  induction impls generalizing g with
  | nil => exact h
  | cons b impls ih =>
      obtain ⟨hb, himpls⟩ := List.forall_mem_cons.mp himpls
      refine ih ((h.moveTo b).emitStored b hc (.head _) hb) fun b' hb' => ?_
      obtain ⟨j, hj, hsettles⟩ := himpls b' hb'
      exact ⟨j, (CodegenContext.emitAt_longer (g := g.moveTo b) b b' _).subset hj, hsettles⟩

/-- **After a `begin`**: the ends of its body and of its clauses have stored to its slot. -/
theorem Assigned.afterBegin (h : Assigned R g) (hg : WellFormed g) {r : Nat}
    (hr : r ∈ R.slots) (hnew : ∀ d ∈ R.constructs, d.slot ≠ r) (begin_block : Nat)
    (impls : List Nat) (hbody : ∃ j ∈ g.instrs begin_block, j.Settles r)
    (himpls : ∀ b ∈ impls, ∃ j ∈ g.instrs b, j.Settles r) :
    Assigned (R.withConstruct ⟨r, g.blocks.length, none⟩)
      (g.afterBegin begin_block impls (.reg r)) := by
  have hinstrs := CodegenContext.append_instrs (g := g) "after_beginblock"
  have hc : ⟨r, g.blocks.length, none⟩ ∈
      (R.withConstruct ⟨r, g.blocks.length, none⟩).constructs := .head _
  have hnewBlock : Assigned (R.withConstruct ⟨r, g.blocks.length, none⟩)
      (g.append "after_beginblock") := by
    refine (h.append "after_beginblock").withConstruct hr ?_ ?_ ?_ ?_ ?_
    · intro b hb
      obtain rfl := Construct.mem_blocks_none.mp hb
      rw [CodegenContext.append_length]
      exact Nat.lt_succ_self _
    · exact ((Frame.start hg).append _).inner hg (.head _) (Nat.le_refl _)
    · intro pad hpad hmem
      exact absurd (Construct.mem_blocks_none.mp hmem) (h.landingpad pad hpad).1.ne
    · refine fun d hd => ⟨hnew d hd, fun b hb hmem => ?_⟩
      exact absurd (Construct.mem_blocks_none.mp hmem) (h.block_lt d hd b hb).ne
    · intro b i hi t ht hneeds
      rw [hinstrs] at hi
      exact absurd (Construct.mem_blocks_none.mp hneeds.mem) (h.target_lt b i hi t ht).ne
  have hout := hnewBlock.jumpedOut hc impls fun b hb => by
    rw [hinstrs]
    exact himpls b hb
  have hlonger := ((Longer.refl g).append "after_beginblock").jumpedOut g.blocks.length impls
  have hleft := (hout.moveTo begin_block).emitStored begin_block hc (.head _) (by
    obtain ⟨j, hj, hsettles⟩ := hbody
    exact ⟨j, (hlonger.longer begin_block).subset hj, hsettles⟩)
  exact hleft.loadAfter hc

section Begin

variable {r : Nat} {v : Operand} {beginbk : List Stmt} {rescuebks : List RescueBlock}

theorem Assigned.guarded (h : Assigned R g) : Assigned R (g.guarded g.blocks.length) := by
  have happend := h.append "landingpad"
  refine happend.congr rfl rfl happend.locals fun pad hpad => ?_
  obtain rfl := Option.some.inj hpad
  rw [CodegenContext.append_length]
  exact ⟨Nat.lt_succ_self _, fun c hc hmem => Nat.lt_irrefl _ (h.block_lt c hc _ hmem)⟩

theorem BeginSteps.assigned (steps : BeginSteps g (.reg r) beginbk rescuebks v g')
    (hg : WellFormed g) (h : Assigned R g) (hr : r ∈ R.slots)
    (hnew : ∀ d ∈ R.constructs, d.slot ≠ r)
    (hbody : Assigns (codegenStmts beginbk) fun R g => CoversStmts R beginbk g)
    (hrescues : AssignsRescues rescuebks) :
    ∃ R' after, Later g R R' ∧ g.blocks.length ≤ after ∧
      Assigned (R'.withConstruct ⟨r, after, none⟩) g' ∧
      CoversStmts R' beginbk (g.guarded g.blocks.length) ∧
      CoversRescues R' rescuebks (.reg r) (.reg (steps.g₁.next + 2)) (.reg (steps.g₁.next + 5))
        ((steps.g₁.unguarded steps.vbody (.reg r) g.landingpad).moveTo g.blocks.length).landed := by
  have hat := steps.atRescues (Frame.start hg) (grows_codegenStmts beginbk)
  have hgrowBody := grows_codegenStmts beginbk _ _ _ hg.guarded steps.body
  have hguarded : g.blocks.length ≤ (g.guarded g.blocks.length).blocks.length :=
    (Nat.le_succ _).trans (CodegenContext.append_length "landingpad").ge
  -- the body
  obtain ⟨R₂, hlater₂, h₂, hcover₂⟩ := hbody _ _ _ _ hg.guarded h.guarded steps.body
  have hstore := h₂.emitCalm steps.g₁.build (i := .store steps.vbody (.reg r)) rfl
  have hlength : steps.g₁.blocks.length =
      (steps.g₁.emitAt steps.g₁.build (.store steps.vbody (.reg r))).blocks.length :=
    (CodegenContext.emitAt_length ..).symm
  have hunguarded : Assigned R₂ (steps.g₁.unguarded steps.vbody (.reg r) g.landingpad) := by
    refine hstore.congr rfl rfl hstore.locals fun pad hpad => ?_
    obtain ⟨hlt, hpadR⟩ := h.landingpad pad hpad
    have hlt' := hlt.trans_le hguarded
    exact ⟨(hlt'.trans_le hgrowBody.length).trans_le hlength.le, hlater₂.notMem hlt' hpadR⟩
  -- the landing pad
  obtain ⟨R₃, hlater₃, h₃, hcover₃, hsettles⟩ := hrescues _ _ _ _ r _ _ hat.grow.wellFormed
    (hunguarded.moveTo g.blocks.length).landed steps.rescuebks
  have hcall := h₃.emitNewCalm steps.g₂.build (i := fun x =>
    .call x "pup_rethrow_uncaught_exception" [.reg steps.g₁.next]) fun _ => rfl
  have hrethrown : Assigned R₃ (steps.g₂.rethrown (.reg steps.g₁.next)) :=
    hcall.emitCalm steps.g₂.build (i := .ret .null) rfl
  have hlater : Later g R R₃ :=
    ((Later.refl g R).trans hlater₂ (Nat.le_refl _) hguarded).trans hlater₃ hat.grow.next
      hat.grow.length
  -- after it
  have hclauses := ((framesRescues_codegenRescues rescuebks _ _ _ _ _ _ _ _ hat
    steps.rescuebks).run fun hg => grow_rethrown hg (.reg steps.g₁.next)).moveTo
      (b := steps.g₁.build) (List.mem_append_right _ (.head _))
  have hlonger := longer_rethrown (g := steps.g₂) (.reg steps.g₁.next)
  have hafter := (hrethrown.moveTo steps.g₁.build).afterBegin hclauses.grow.wellFormed
    (hlater.slots r hr) ?_ steps.g₁.build steps.impls ?_ ?_
  · rw [← steps.last] at hafter
    exact ⟨R₃, _, hlater, hclauses.grow.length, hafter, hcover₂.later hlater₃, hcover₃⟩
  · intro d hd
    rcases hlater.construct_new d hd with hd | ⟨hslot, -⟩
    · exact hnew d hd
    · exact ((h.slot_lt r hr).trans_le hslot).ne'
  · have hmem := mem_emitAt_self hgrowBody.wellFormed.build_lt (.store steps.vbody (.reg r))
    exact ⟨_, (hlonger.longer _).subset (((steps.longer hg).longer _).subset hmem), .inr rfl⟩
  · intro b hb
    obtain ⟨j, hj, hsettle⟩ := hsettles b hb
    exact ⟨j, (hlonger.longer b).subset hj, hsettle⟩

end Begin

/-! ### Statements -/

section Covers

variable {e : Nat} {v : Operand} {cond : Expr}

theorem covers_if {ifbk elsebk : List Stmt} (he : IsEntry g e)
    (steps : IfSteps (g.emitNew e .alloca) (.reg g.next) cond ifbk elsebk v g')
    {after : Nat} (hc : ⟨g.next, after, none⟩ ∈ R.constructs)
    (hif : CoversStmts R ifbk ((steps.g₁.branched steps.val
      ((g.emitNew e .alloca).blocks.length + 2) ((g.emitNew e .alloca).blocks.length + 1)).moveTo
        ((g.emitNew e .alloca).blocks.length + 1)))
    (helse : CoversStmts R elsebk ((steps.g₂.leaving steps.vthen (.reg g.next)
      ((g.emitNew e .alloca).blocks.length + 3)).moveTo
        ((g.emitNew e .alloca).blocks.length + 2))) :
    Covers R (.ifStmt cond ifbk (some elsebk)) g := by
  intro s' g'' hin hs
  cases hin with
  | here => exact ⟨_, hc, .ifStmt cond ifbk (some elsebk) after⟩
  | ifbk he' steps' hin =>
      obtain rfl := he.unique he'
      obtain ⟨hval, hg₁⟩ := ok_unique steps'.cond steps.cond
      rw [hval, hg₁] at hin
      exact hif _ _ hin hs
  | elsebk he' steps' hin =>
      obtain rfl := he.unique he'
      obtain ⟨hval, hg₁⟩ := ok_unique steps'.cond steps.cond
      have hthen := steps'.ifbk
      rw [hval, hg₁] at hthen
      obtain ⟨hvthen, hg₂⟩ := ok_unique hthen steps.ifbk
      rw [Option.some.inj hvthen, hg₂] at hin
      exact helse _ _ hin hs

theorem covers_while {statements : List Stmt} (he : IsEntry g e)
    (steps : WhileSteps (g.emitNew e .alloca) (.reg g.next) cond statements v g')
    (hc : ⟨g.next, g.blocks.length + 2, some g.blocks.length⟩ ∈ R.constructs)
    (hbody : CoversStmts R statements ((steps.g₁.branched steps.val
      ((g.emitNew e .alloca).blocks.length + 2) ((g.emitNew e .alloca).blocks.length + 1)).moveTo
        ((g.emitNew e .alloca).blocks.length + 1))) :
    Covers R (.whileStmt cond statements) g := by
  intro s' g'' hin hs
  cases hin with
  | here => exact ⟨_, hc, .whileStmt cond statements⟩
  | whileBody he' steps' hin =>
      obtain rfl := he.unique he'
      obtain ⟨hval, hg₁⟩ := ok_unique steps'.cond steps.cond
      rw [hval, hg₁] at hin
      exact hbody _ _ hin hs

theorem covers_begin {beginbk : List Stmt} {rescuebks : List RescueBlock}
    {elsebk ensurebk : Option (List Stmt)} (he : IsEntry g e)
    (steps : BeginSteps (g.emitNew e .alloca) (.reg g.next) beginbk rescuebks v g')
    {after : Nat} (hc : ⟨g.next, after, none⟩ ∈ R.constructs)
    (hbody : CoversStmts R beginbk
      ((g.emitNew e .alloca).guarded (g.emitNew e .alloca).blocks.length))
    (hrescues : CoversRescues R rescuebks (.reg g.next) (.reg (steps.g₁.next + 2))
      (.reg (steps.g₁.next + 5)) ((steps.g₁.unguarded steps.vbody (.reg g.next)
        (g.emitNew e .alloca).landingpad).moveTo (g.emitNew e .alloca).blocks.length).landed) :
    Covers R (.beginStmt beginbk rescuebks elsebk ensurebk) g := by
  intro s' g'' hin hs
  cases hin with
  | here => exact ⟨_, hc, .beginStmt beginbk rescuebks elsebk ensurebk after⟩
  | beginbk he' hin =>
      obtain rfl := he.unique he'
      exact hbody _ _ hin hs
  | rescuebks he' steps' hin =>
      obtain rfl := he.unique he'
      obtain ⟨hv, hg₁⟩ := ok_unique steps'.body steps.body
      rw [Option.some.inj hv, hg₁] at hin
      exact hrescues _ _ hin hs

theorem coversRescues_cons {types : Option (List Expr)} {var_name : Option String}
    {statements : List Stmt} {rescuebks : List RescueBlock} {result excep asobj : Operand}
    {impls : List Nat}
    (steps : RescueSteps g (types.getD defaultTypes) var_name statements rescuebks result excep
      asobj impls g')
    (hstatements : CoversStmts R statements steps.g₁)
    (hothers : CoversRescues R rescuebks result excep asobj
      ((steps.g₂.emitAt steps.g₂.build (.store steps.v result)).moveTo steps.next)) :
    CoversRescues R (.mk types var_name statements :: rescuebks) result excep asobj g := by
  intro s' g'' hin hs
  cases hin with
  | head steps' hin =>
      obtain ⟨-, hg₁⟩ := steps'.enter.unique steps.enter
      rw [hg₁] at hin
      exact hstatements _ _ hin hs
  | tail steps' hin =>
      obtain ⟨hnext, hg₁⟩ := steps'.enter.unique steps.enter
      have hrun := steps'.statements
      rw [hg₁] at hrun
      obtain ⟨hv, hg₂⟩ := ok_unique hrun steps.statements
      rw [Option.some.inj hv, hg₂, hnext] at hin
      exact hothers _ _ hin hs

theorem covers_class {name : String} {body : List Stmt} (steps : ClassSteps g name body v g')
    (hbody : CoversStmts R body { steps.g₁ with self_ref := v }) :
    Covers R (.classDef name none (some body)) g := by
  intro s' g'' hin hs
  cases hin with
  | here => cases hs
  | classBody steps' hin =>
      obtain ⟨rfl, hg₁⟩ := ok_unique steps'.open_ steps.open_
      rw [hg₁] at hin
      exact hbody _ _ hin hs

theorem covers_method {name : String} {params : Option (List Param)} {body : List Stmt}
    (hargs : codegenArgs 0 (params.getD []) (g.inMethodBlock "") = .ok ((), g₁))
    (hbody : CoversStmts R body g₁) : Covers R (.methodDef name params (some body)) g := by
  intro s' g'' hin hs
  cases hin with
  | here => cases hs
  | methodBody hargs' hin =>
      obtain ⟨-, rfl⟩ := ok_unique hargs' hargs
      exact hbody _ _ hin hs

theorem coversStmts_cons {s : Stmt} {ss : List Stmt} (hrun : codegenStmt s g = .ok (v, g₁))
    (hs : Covers R s g) (hss : CoversStmts R ss g₁) : CoversStmts R (s :: ss) g := by
  intro s' g'' hin hresult
  cases hin with
  | head hin => exact hs _ _ hin hresult
  | tail hrun' hin =>
      obtain ⟨-, rfl⟩ := ok_unique hrun' hrun
      exact hss _ _ hin hresult

theorem coversStmts_nil : CoversStmts R [] g := by
  intro s' g'' hin
  cases hin

end Covers

/-- What a method has known is not known less after it. -/
theorem ClassSteps.assigned {name : String} {body : List Stmt} {v : Operand}
    (steps : ClassSteps g name body v g') (hg : WellFormed g) (h : Assigned R g)
    (hbody : Assigns (codegenStmts body) fun R g => CoversStmts R body g) :
    ∃ R', Later g R R' ∧ Assigned R' g' ∧ CoversStmts R' body { steps.g₁ with self_ref := v } := by
  have hopen := stable_grow.openClass name _ _ _ hg steps.open_
  have h₁ := assigned_openClass name _ _ _ h steps.open_
  obtain ⟨R', hlater, h₂, hcover⟩ := hbody _ _ _ _ (steps.atBody hg)
    (h₁.congr rfl rfl h₁.locals h₁.landingpad) steps.body
  refine ⟨R', (Later.refl g R).trans hlater hopen.next hopen.length, ?_, hcover⟩
  rw [steps.last]
  exact h₂.congr rfl rfl h₂.locals h₂.landingpad

/-- In the first block of a method no local has a slot yet. -/
theorem Assigned.inMethodBlock (h : Assigned R g) : Assigned R (g.inMethodBlock "") := by
  have hin : Assigned R g.inMethod := h.congr rfl rfl nofun h.landingpad
  exact (hin.append "").moveTo g.blocks.length

/-- After a method the locals of the method around it are known again. -/
theorem Assigned.afterMethod (hg : WellFormed g) (h₀ : Assigned R g) (h : Assigned R' g₁)
    (hlater : Later (g.inMethodBlock "") R R') (hgrow : Grow (g.inMethodBlock "") g₁) :
    Assigned R' (g.afterMethod g₁) := by
  refine h.congr rfl rfl (fun p hp => ?_) h.landingpad
  have hlt := hg.locals_lt p hp
  refine ⟨hlt.trans_le hgrow.next, fun hmem => ?_⟩
  rcases hlater.slot_new p.2 hmem with hmem | hle
  · exact (h₀.locals p hp).2 hmem
  · exact Nat.not_lt.mpr hle hlt

mutual

/-- **A statement stores to the slots that it loads.** -/
theorem assigned_codegenStmt : (s : Stmt) → Assigns (codegenStmt s) fun R g => Covers R s g
  | .expr e => by
      intro R g v g' hg h hrun
      rw [codegenStmt] at hrun
      refine ⟨R, .refl g R, assigned_codegenExpr e _ _ _ h hrun, fun s' g'' hin hs => ?_⟩
      cases hin with
      | here => cases hs
  | .ifStmt cond ifbk none => by
      intro R g v g' hg h hrun
      obtain ⟨_, _, _, ⟨⟩, _⟩ := codegenIf_ok hg hrun
  | .ifStmt cond ifbk (some elsebk) => by
      have hif := assigned_codegenStmts ifbk
      have helse := assigned_codegenStmts elsebk
      intro R g v g' hg h hrun
      obtain ⟨e, _, he, heq, ⟨steps⟩⟩ := codegenIf_ok hg hrun
      cases heq
      have halloca := (Frame.alloca hg he).grow
      have hlength : (g.emitNew e .alloca).blocks.length = g.blocks.length :=
        CodegenContext.emitAt_length ..
      obtain ⟨R', hlater, h', hcoverIf, hcoverElse⟩ := steps.assigned halloca.wellFormed
        (h.withSlot e) (.head _) h.newSlot hif helse
      have hmade : Later g R ((R.withSlot g.next).withConstruct
          ⟨g.next, (g.emitNew e .alloca).blocks.length + 3, none⟩) := by
        refine ((Later.refl g R).withSlot (Nat.le_refl _)).withConstruct (Nat.le_refl _) ?_
        intro b hb
        have heq := Construct.mem_blocks_none.mp hb
        omega
      exact ⟨R', hmade.trans hlater halloca.next halloca.length, h',
        covers_if he steps (hlater.constructs _ (.head _)) hcoverIf hcoverElse⟩
  | .whileStmt cond statements => by
      have hstatements := assigned_codegenStmts statements
      intro R g v g' hg h hrun
      obtain ⟨e, he, ⟨steps⟩⟩ := codegenWhile_ok hg hrun
      have halloca := (Frame.alloca hg he).grow
      have hlength : (g.emitNew e .alloca).blocks.length = g.blocks.length :=
        CodegenContext.emitAt_length ..
      obtain ⟨R', hlater, h', hcover⟩ := steps.assigned halloca.wellFormed
        (h.withSlot e) (.head _) h.newSlot hstatements
      rw [hlength] at hlater
      have hmade : Later g R ((R.withSlot g.next).withConstruct
          ⟨g.next, g.blocks.length + 2, some g.blocks.length⟩) := by
        refine ((Later.refl g R).withSlot (Nat.le_refl _)).withConstruct (Nat.le_refl _) ?_
        intro b hb
        rcases Construct.mem_blocks_some.mp hb with rfl | rfl <;> omega
      exact ⟨R', hmade.trans hlater halloca.next halloca.length, h',
        covers_while he steps (hlater.constructs _ (.head _)) hcover⟩
  | .beginStmt beginbk rescuebks elsebk ensurebk => by
      have hbody := assigned_codegenStmts beginbk
      have hrescues := assigned_codegenRescues rescuebks
      intro R g v g' hg h hrun
      obtain ⟨-, e, he, ⟨steps⟩⟩ := codegenBegin_ok hg hrun
      have halloca := (Frame.alloca hg he).grow
      obtain ⟨R', after, hlater, hafter, h', hcoverBody, hcoverRescues⟩ :=
        steps.assigned halloca.wellFormed (h.withSlot e) (.head _) h.newSlot hbody hrescues
      have hmade : Later g R R' := ((Later.refl g R).withSlot (Nat.le_refl _)).trans hlater
        halloca.next halloca.length
      have hall : Later g R' (R'.withConstruct ⟨g.next, after, none⟩) := by
        refine (Later.refl g R').withConstruct (Nat.le_refl _) fun b hb => ?_
        obtain rfl := Construct.mem_blocks_none.mp hb
        exact halloca.length.trans hafter
      exact ⟨R'.withConstruct ⟨g.next, after, none⟩,
        hmade.trans hall (Nat.le_refl _) (Nat.le_refl _), h',
        covers_begin he steps (.head _) (hcoverBody.later hall) (hcoverRescues.later hall)⟩
  | .classDef name extends_ none => by
      intro R g v g' hg h hrun
      obtain ⟨_, _, ⟨⟩, _⟩ := codegenClass_ok hrun
  | .classDef name extends_ (some body) => by
      have hbody := assigned_codegenStmts body
      intro R g v g' hg h hrun
      obtain ⟨_, rfl, heq, ⟨steps⟩⟩ := codegenClass_ok hrun
      cases heq
      obtain ⟨R', hlater, h', hcover⟩ := steps.assigned hg h hbody
      exact ⟨R', hlater, h', covers_class steps hcover⟩
  | .methodDef name params none => by
      intro R g v g' hg h hrun
      obtain ⟨steps⟩ := codegenMethod_ok hrun
      have hgrow := grows_codegenMethodBody params none _ _ _ (hg.inMethodBlock "") steps.body
      have hbody := steps.body
      rw [codegenMethodBody] at hbody
      obtain hg₁ := emit_ok.mp hbody
      have h₁ : Assigned R steps.g₁ := hg₁ ▸ h.inMethodBlock.emitCalm _ rfl
      have hafter := Assigned.afterMethod hg h h₁ (.refl _ R) hgrow
      refine ⟨R, .refl g R, assigned_defineMethod _ _ _ _ _ hafter steps.define, ?_⟩
      intro s' g'' hin hs
      cases hin with
      | here => cases hs
  | .methodDef name params (some body) => by
      have hbody := assigned_codegenStmts body
      intro R g v g' hg h hrun
      obtain ⟨steps⟩ := codegenMethod_ok hrun
      have hgrow := grows_codegenMethodBody params (some body) _ _ _ (hg.inMethodBlock "")
        steps.body
      obtain ⟨g₁, v', g₂, hargs, hstmts, hlast⟩ := codegenMethodBody_ok steps.body
      have hargsGrow := stableExpr_grow.codegenArgs _ 0 _ _ _ (hg.inMethodBlock "") hargs
      obtain ⟨R', hlater, h₂, hcover⟩ := hbody _ _ _ _ hargsGrow.wellFormed
        (assigned_codegenArgs _ _ _ _ _ h.inMethodBlock hargs) hstmts
      have hlater' : Later (g.inMethodBlock "") R R' :=
        (Later.refl _ R).trans hlater hargsGrow.next hargsGrow.length
      have h₁ : Assigned R' steps.g₁ := hlast ▸ h₂.emitCalm _ rfl
      have hafter := Assigned.afterMethod hg h h₁ hlater' hgrow
      refine ⟨R', ?_, assigned_defineMethod _ _ _ _ _ hafter steps.define,
        covers_method hargs hcover⟩
      exact (Later.refl g R).trans hlater' (Nat.le_refl _)
        ((Nat.le_succ _).trans (inMethodBlock_length "").ge)

theorem assigned_codegenStmts : (ss : List Stmt) →
    Assigns (codegenStmts ss) fun R g => CoversStmts R ss g
  | [] => by
      intro R g value g' hg h hrun
      rw [codegenStmts, pure_ok] at hrun
      obtain ⟨-, rfl⟩ := hrun
      exact ⟨R, .refl _ R, h, coversStmts_nil⟩
  | [s] => by
      have hs := assigned_codegenStmt s
      intro R g value g' hg h hrun
      obtain ⟨v, hrun, -⟩ := codegenStmts_singleton_ok.mp hrun
      obtain ⟨R', hlater, h', hcover⟩ := hs _ _ _ _ hg h hrun
      exact ⟨R', hlater, h', coversStmts_cons hrun hcover coversStmts_nil⟩
  | s :: s' :: ss => by
      have hs := assigned_codegenStmt s
      have hss := assigned_codegenStmts (s' :: ss)
      intro R g value g' hg h hrun
      obtain ⟨v, g₁, hrun, hrest⟩ := codegenStmts_cons_ok.mp hrun
      have hgrow := grows_codegenStmt s _ _ _ hg hrun
      obtain ⟨R₁, hlater₁, h₁, hcover₁⟩ := hs _ _ _ _ hg h hrun
      obtain ⟨R₂, hlater₂, h₂, hcover₂⟩ := hss _ _ _ _ hgrow.wellFormed h₁ hrest
      exact ⟨R₂, hlater₁.trans hlater₂ hgrow.next hgrow.length, h₂,
        coversStmts_cons hrun (hcover₁.later hlater₂) hcover₂⟩

theorem assigned_codegenRescues : (rescuebks : List RescueBlock) → AssignsRescues rescuebks
  | [] => by
      intro R g impls g' r excep asobj hg h hrun
      rw [codegenRescues, pure_ok] at hrun
      obtain ⟨rfl, rfl⟩ := hrun
      refine ⟨R, .refl _ R, h, fun s' g'' hin => ?_, nofun⟩
      cases hin
  | .mk types var_name statements :: rescuebks => by
      have hstatements := assigned_codegenStmts statements
      have hothers := assigned_codegenRescues rescuebks
      intro R g impls g' r excep asobj hg h hrun
      obtain ⟨steps⟩ := codegenRescues_ok hrun
      have hat := ((Frame.start hg).enterRescue steps.enter).grow
      have hatOthers := (steps.atOthers (Frame.start hg) (grows_codegenStmts statements)).grow
      obtain ⟨R₂, hlater₂, h₂, hcover₂⟩ := hstatements _ _ _ _ hat.wellFormed
        (steps.enter.assigned hg h) steps.statements
      have hstore := h₂.emitCalm steps.g₂.build (i := .store steps.v (.reg r)) rfl
      obtain ⟨R₃, hlater₃, h₃, hcover₃, hsettles⟩ := hothers _ _ _ _ _ _ _ hatOthers.wellFormed
        (hstore.moveTo steps.next) steps.others
      have hlonger := longer_codegenRescues hatOthers.wellFormed steps.others
      refine ⟨R₃, ?_, h₃, coversRescues_cons steps (hcover₂.later hlater₃) hcover₃, ?_⟩
      · exact ((Later.refl g R).trans hlater₂ hat.next hat.length).trans hlater₃ hatOthers.next
          hatOthers.length
      · rw [steps.impls]
        refine List.forall_mem_cons.mpr ⟨?_, hsettles⟩
        obtain ⟨j, hj, hsettle⟩ := steps.settles hg
        exact ⟨j, (hlonger.longer _).subset hj, hsettle⟩

end

/-! ### Programs -/

theorem assigned_unitBody : Assigned ⟨[], []⟩ CodegenContext.unitBody := by
  have hnil : ∀ b, CodegenContext.unitBody.instrs b = [] := unitBody_instrs
  refine ⟨⟨nofun, nofun, nofun, nofun, nofun, nofun, nofun⟩, fun b => ?_, fun b => ?_,
    fun b => ?_, fun b k i hi => ?_⟩
  · rw [hnil]
    nofun
  · rw [hnil]
    nofun
  · rw [hnil]
    nofun
  · rw [hnil] at hi
    cases hi

/-- **A program stores to the slots that it loads.** -/
theorem assigned_generate {stmts : List Stmt} {F : CodegenContext} (h : generate stmts = .ok F) :
    ∃ R, Assigned R F ∧ CoversStmts R stmts .unitBody := by
  obtain ⟨v, g₁, hrun, rfl⟩ := generate_ok h
  obtain ⟨R, hlater, h₁, hcover⟩ := assigned_codegenStmts stmts _ _ _ _ wellFormed_unitBody
    assigned_unitBody hrun
  have hgrow := grows_codegenStmts stmts _ _ _ wellFormed_unitBody hrun
  have hret := (h₁.emitCalm g₁.build (i := .ret v) rfl).moveTo CodegenContext.initial.build
  -- the jump from the entry block to the body, which is no block of a construct
  have hjump := hret.emitJump 0 (i := .br 1) (Nat.le_refl _) rfl ?_ ?_
  · exact ⟨R, hjump.congr rfl rfl nofun hjump.landingpad, hcover⟩
  · intro t ht
    obtain rfl := List.mem_singleton.mp ht
    have hlength : (g₁.emitAt g₁.build (.ret v)).blocks.length = g₁.blocks.length :=
      CodegenContext.emitAt_length ..
    exact Nat.lt_of_lt_of_le (Nat.lt_of_lt_of_le (by decide) hgrow.length) hlength.ge
  · intro t ht c hc hneeds
    obtain rfl := List.mem_singleton.mp ht
    exact hlater.notMem (by decide) nofun c hc hneeds.mem

/-! ### Paths

A block after a construct is not the first of its function, so a path that is in it has jumped
there.  For a loop that jump was made by the condition, and what helps is an earlier one, back to
the condition from the end of the body.
-/

section Path

variable {F : CodegenContext} {stmts : List Stmt} {path before : List Point} {p : Point}

/-- The block after a construct is not the first one of its function. -/
theorem Assigned.entered (h : Assigned R F) {c : Construct} (hc : c ∈ R.constructs)
    (hpath : F.Path (⟨c.after, 0⟩ :: before)) :
    ∃ q before', before = q :: before' ∧ ∃ i, F.code.at? q = some i ∧ c.after ∈ i.targets := by
  obtain ⟨fn, first, hfirst, hpath⟩ := hpath
  have hne : c.after ≠ first := by
    rintro rfl
    obtain ⟨b, hb, hfn⟩ := h.inner c hc
    obtain ⟨hfirst, hbefore⟩ := entry_iff.mp hfirst
    exact hbefore b hb (hfn.trans hfirst)
  obtain ⟨q, before', rfl⟩ := hpath.entered hne
  exact ⟨q, before', rfl, hpath.jumped⟩

/-- What is needed before a jump has been done when it has been made. -/
theorem Assigned.jumped (h : Assigned R F) {c : Construct} (hc : c ∈ R.constructs) {b : Nat}
    (hpath : F.Path (⟨b, 0⟩ :: p :: before)) (hneeds : c.Needs p.block b) :
    ∃ q ∈ before, ∃ i, F.code.at? q = some i ∧ i.stored = some c.slot := by
  obtain ⟨fn, first, hfirst, hpath⟩ := hpath
  obtain ⟨i, hi, hb⟩ := hpath.jumped
  have hbefore := hpath.suffix (List.suffix_cons _ _)
  exact hbefore.done (h.jump p.block p.index i hi b hb c hc hneeds)

/-- The path has gone back to a condition. -/
def WentBack (cond : Nat) (path : List Point) : Prop :=
  ∃ p before, ((⟨cond, 0⟩ : Point) :: p :: before) <:+ path ∧ cond < p.block

/-- **A slot is loaded after a store to it**, if its construct is no loop that is left before its
body has been executed. -/
theorem Assigned.loaded (h : Assigned R F) (hpath : F.Path (p :: before)) {i : Instr} {r : Nat}
    (hi : F.code.at? p = some i) (hr : r ∈ R.slots) (hloaded : i.loaded = some r)
    (hback : ∀ c ∈ R.constructs, c.slot = r → ∀ cond, c.back = some cond → ∀ before',
      (⟨c.after, 0⟩ :: before') <:+ p :: before → WentBack cond before') :
    ∃ q ∈ before, ∃ j, F.code.at? q = some j ∧ j.stored = some r := by
  obtain ⟨b, k⟩ := p
  obtain ⟨c, hc, rfl, rfl⟩ := h.load b i (List.mem_of_getElem? hi) r hr hloaded
  obtain ⟨before', hsuffix⟩ : ∃ before', ((⟨c.after, 0⟩ : Point) :: before') <:+
      ⟨c.after, k⟩ :: before := by
    obtain ⟨fn, first, -, hpath⟩ := hpath
    exact hpath.atFirst
  have hmem : ∀ q ∈ before', q ∈ before := fun q hq => by
    rcases List.suffix_cons_iff.mp hsuffix with heq | hsuffix
    · exact (List.cons.inj heq).2 ▸ hq
    · exact hsuffix.subset (.tail _ hq)
  have hentered := hpath.suffix hsuffix
  cases hkind : c.back with
  | none =>
      obtain ⟨q, before'', rfl, -⟩ := h.entered hc hentered
      obtain ⟨q', hq', hstored⟩ := h.jumped hc hentered (.inl ⟨hkind, rfl⟩)
      exact ⟨q', hmem q' (.tail _ hq'), hstored⟩
  | some cond =>
      obtain ⟨q, before'', hback', hlt⟩ := hback c hc rfl cond hkind before' hsuffix
      have hpath' := hpath.suffix ((hback'.trans (List.suffix_cons _ _)).trans hsuffix)
      obtain ⟨q', hq', hstored⟩ := h.jumped hc hpath' (.inr ⟨hkind, hlt⟩)
      exact ⟨q', hmem q' (hback'.subset (.tail _ (.tail _ hq'))), hstored⟩

/-- The slot of an `if`, a `while` or a `begin` in the program. -/
def ConstructSlot (stmts : List Stmt) (r : Nat) : Prop :=
  ∃ s g, InsideStmts s g stmts .unitBody ∧ hasResult s = true ∧ r = g.next

/-- A reference that may be undefined after a path: it was loaded from a slot of a construct that
had not been stored to, or from where such a reference had been stored. -/
inductive Undefined (stmts : List Stmt) (F : CodegenContext) : List Point → Operand → Prop
  | load {p : Point} {before : List Point} {x r : Nat}
      (hp : F.code.at? p = some (.load x (.reg r))) (hr : ConstructSlot stmts r)
      (hnone : ∀ q ∈ before, ∀ v, F.code.at? q ≠ some (.store v (.reg r))) :
      Undefined stmts F (p :: before) (.reg x)
  | copy {p q : Point} {before earlier : List Point} {x : Nat} {ptr v : Operand}
      (hp : F.code.at? p = some (.load x ptr)) (hq : (q :: earlier) <:+ before)
      (hstore : F.code.at? q = some (.store v ptr)) (hv : Undefined stmts F earlier v) :
      Undefined stmts F (p :: before) (.reg x)
  | later {p : Point} {before : List Point} {v : Operand} (hv : Undefined stmts F before v) :
      Undefined stmts F (p :: before) v

/-- No slot of a construct is loaded before it is stored to. -/
def StoresFirst (stmts : List Stmt) (F : CodegenContext) (path : List Point) : Prop :=
  ∀ p before, (p :: before) <:+ path → ∀ x r, F.code.at? p = some (.load x (.reg r)) →
    ConstructSlot stmts r → ∃ q ∈ before, ∃ v, F.code.at? q = some (.store v (.reg r))

/-- No undefined reference is returned. -/
def ReturnsDefined (stmts : List Stmt) (F : CodegenContext) (path : List Point) : Prop :=
  ∀ p before, (p :: before) <:+ path → ∀ v, F.code.at? p = some (.ret v) →
    ¬ Undefined stmts F before v

/-- A loop of the program is left only when its body has been executed to its end before. -/
def RunsBodies (stmts : List Stmt) (path : List Point) : Prop :=
  ∀ cond statements g, InsideStmts (.whileStmt cond statements) g stmts .unitBody →
    ∀ before, (⟨g.blocks.length + 2, 0⟩ :: before) <:+ path → WentBack g.blocks.length before

theorem StoresFirst.defined (h : StoresFirst stmts F path) (hbefore : before <:+ path)
    {v : Operand} : ¬ Undefined stmts F before v := by
  intro hv
  induction hv generalizing path with
  | load hp hr hnone =>
      obtain ⟨q, hq, v, hstore⟩ := h _ _ hbefore _ _ hp hr
      exact hnone q hq v hstore
  | copy hp hq hstore hv ih =>
      exact ih h (((List.suffix_cons _ _).trans hq).trans ((List.suffix_cons _ _).trans hbefore))
  | later hv ih => exact ih h ((List.suffix_cons _ _).trans hbefore)

theorem Instr.stored_eq_some {i : Instr} {r : Nat} (h : i.stored = some r) :
    ∃ v, i = .store v (.reg r) := by
  unfold stored at h
  split at h
  · obtain rfl := Option.some.inj h
    exact ⟨_, rfl⟩
  · cases h

/-- **On every path that leaves no loop before its body has been executed, the slot of an `if`, a
`while` or a `begin` is stored to before it is loaded**, and no reference that comes out of an
undefined slot is returned. -/
theorem stored_before_load (h : generate stmts = .ok F) (hpath : F.Path path)
    (hbodies : RunsBodies stmts path) :
    StoresFirst stmts F path ∧ ReturnsDefined stmts F path := by
  obtain ⟨R, hassigned, hcover⟩ := assigned_generate h
  have hstores : StoresFirst stmts F path := by
    rintro p before hbefore x r hp ⟨s, g, hin, hs, rfl⟩
    obtain ⟨c, hc, hconstruct⟩ := hcover s g hin hs
    have hslot : c.slot = g.next := by cases hconstruct <;> rfl
    obtain ⟨q, hq, j, hj, hstored⟩ := hassigned.loaded (hpath.suffix hbefore) hp
      (hslot ▸ hassigned.slot_mem c hc) rfl fun c' hc' hslot' cond hback before' hsuffix => by
        obtain rfl := hassigned.unique c' hc' c hc (.inl (hslot'.trans hslot.symm))
        cases hconstruct with
        | ifStmt => cases hback
        | beginStmt => cases hback
        | whileStmt cond' statements =>
            obtain rfl := Option.some.inj hback
            exact hbodies cond' statements g hin before' (hsuffix.trans hbefore)
    obtain ⟨v, rfl⟩ := Instr.stored_eq_some hstored
    exact ⟨q, hq, v, hj⟩
  exact ⟨hstores, fun p before hbefore v _ =>
    hstores.defined ((List.suffix_cons _ _).trans hbefore)⟩

/-- A loop, and a path on which its body is executed once. -/
def loop : List Stmt :=
  [.whileStmt (.varOrInvoke (.name "f") none none none) [.expr (.int "1")]]

def loopOnce : List Point :=
  [⟨4, 1⟩, ⟨4, 0⟩, ⟨2, 4⟩, ⟨2, 3⟩, ⟨2, 2⟩, ⟨2, 1⟩, ⟨2, 0⟩, ⟨3, 3⟩, ⟨3, 2⟩, ⟨3, 1⟩, ⟨3, 0⟩, ⟨2, 4⟩,
    ⟨2, 3⟩, ⟨2, 2⟩, ⟨2, 1⟩, ⟨2, 0⟩, ⟨1, 0⟩, ⟨0, 1⟩, ⟨0, 0⟩]

theorem stored_before_load_loop : ∃ F, generate loop = .ok F ∧ F.Path loopOnce ∧
    StoresFirst loop F loopOnce ∧ ReturnsDefined loop F loopOnce := by
  obtain ⟨F, hF, hall⟩ : ∃ F, generate loop = .ok F ∧
      (F.entry? 0 = some 0 ∧ F.code.follows 0 loopOnce = true) :=
    generated_of_all (by decide +kernel)
  have hpath : F.Path loopOnce := ⟨0, 0, hall.1, Code.path_of_follows hall.2⟩
  refine ⟨F, hF, hpath, stored_before_load hF hpath ?_⟩
  intro cond statements g hin before hsuffix
  cases hin with
  | head hin =>
      cases hin with
      | here =>
          -- the block after the loop is entered once
          rcases List.suffix_cons_iff.mp hsuffix with heq | hsuffix
          · cases heq
          rcases List.suffix_cons_iff.mp hsuffix with heq | hsuffix
          · obtain rfl := (List.cons.inj heq).2
            exact ⟨⟨3, 3⟩, _, ⟨[⟨2, 4⟩, ⟨2, 3⟩, ⟨2, 2⟩, ⟨2, 1⟩], rfl⟩, by decide⟩
          · have hmem := hsuffix.subset (.head _)
            exact absurd hmem (by decide)
      | whileBody he steps hin =>
          cases hin with
          | head hin => cases hin
          | tail hs hin => cases hin
  | tail hs hin => cases hin

/-- A loop that is left at once: `false` is compared with itself. -/
def neverRuns : List Stmt := [.whileStmt (.bool false) [.expr (.int "1")]]

def leftAtOnce : List Point :=
  [⟨4, 1⟩, ⟨4, 0⟩, ⟨2, 3⟩, ⟨2, 2⟩, ⟨2, 1⟩, ⟨2, 0⟩, ⟨1, 0⟩, ⟨0, 1⟩, ⟨0, 0⟩]

/-- The slot is loaded although nothing has been stored to it, and what is loaded returned. -/
theorem neverRuns_undefined : ∃ F, generate neverRuns = .ok F ∧ F.Path leftAtOnce ∧
    ¬ StoresFirst neverRuns F leftAtOnce ∧ ¬ ReturnsDefined neverRuns F leftAtOnce := by
  obtain ⟨F, hF, hentry, hfollows, hload, hret, hnone⟩ : ∃ F, generate neverRuns = .ok F ∧
      (F.entry? 0 = some 0 ∧ F.code.follows 0 leftAtOnce = true ∧
        F.code.at? ⟨4, 0⟩ = some (.load 6 (.reg 0)) ∧
        F.code.at? ⟨4, 1⟩ = some (.ret (.reg 6)) ∧
        ∀ q ∈ leftAtOnce, (F.code.at? q).bind Instr.stored = none) :=
    generated_of_all (by decide +kernel)
  have hslot : ConstructSlot neverRuns 0 := ⟨_, .unitBody, .head .here, rfl, rfl⟩
  have hstored : ∀ q ∈ leftAtOnce, ∀ v, F.code.at? q ≠ some (.store v (.reg 0)) := by
    intro q hq v hv
    have hq' := hnone q hq
    rw [hv] at hq'
    cases hq'
  refine ⟨F, hF, ⟨0, 0, hentry, Code.path_of_follows hfollows⟩, fun hstores => ?_,
    fun hreturns => ?_⟩
  · obtain ⟨q, hq, v, hv⟩ := hstores ⟨4, 0⟩ _ (List.suffix_cons _ _) 6 0 hload hslot
    exact hstored q (.tail _ (.tail _ hq)) v hv
  · exact hreturns ⟨4, 1⟩ _ List.suffix_rfl _ hret
      (.load hload hslot fun q hq => hstored q (.tail _ (.tail _ hq)))

end Path

end Pup.Codegen
