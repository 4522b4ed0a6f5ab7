/-
Where the terminators are.

While code is generated some blocks are still open, and every other block of the method ends
in its only terminator (`Pending`).  A statement closes the block that the builder is at when it
moves the builder to another one, so that of the open blocks the one that the builder is at is
replaced by the one where it comes to be.  That is the invariant, `Going`: the builder is at an
open block, and besides it exactly the entry block and those that the statements around this one
have yet to close, `Q`, are open.  A statement leaves `Q` as it was, and so at the end of a
method the last block and the entry block are left, which `ret` and a branch close.

A rescue clause breaks this.  Its block is noted before its statements, and the jump out of
it is added to that block and not to where its statements end.  When they move the builder,
the block that is noted gets a second terminator and the last block gets none.
`wellTerminated_iff` is that this is the only way in which a block can come to have anything
but one terminator at its end.

Both directions are had from one induction over the tree.  Whether a statement ends well is
computed from its text (`endsStmt`), and each case proves an `Outcome`: if it does the
invariant goes on, and if it does not some block has an instruction behind a terminator, which
no later step mends since blocks only get longer (`Broken.longer`).
-/
import Pup.Codegen.Scope
import Mathlib.Data.List.Induction

namespace Pup.Codegen

open Parse

variable {α β : Type} {g g' g₀ g₁ : CodegenContext}

/-! ### Terminators of a block -/

/-- The block ends in its only terminator. -/
def WellTerminated (is : List Instr) : Prop :=
  ∃ before t, is = before ++ [t] ∧ t.isTerminator ∧ ∀ i ∈ before, i.isTerminator = false

/-- `broken` is a block with an instruction after a terminator. -/
inductive Status
  | openEnd
  | sealed
  | broken
  deriving DecidableEq, Repr

def Status.after : Status → Instr → Status
  | .openEnd, i => if i.isTerminator then .sealed else .openEnd
  | _, _ => .broken

def status (is : List Instr) : Status := is.foldl Status.after .openEnd

@[simp] theorem status_append_singleton (is : List Instr) (i : Instr) :
    status (is ++ [i]) = (status is).after i := by
  simp [status]

theorem status_openEnd_iff {is : List Instr} :
    status is = .openEnd ↔ ∀ i ∈ is, i.isTerminator = false := by
  induction is using List.reverseRecOn with
  | nil => simp [status]
  | append_singleton is i ih =>
      rw [status_append_singleton]
      cases hs : status is <;> cases hi : i.isTerminator <;>
        simp_all [Status.after, or_imp, forall_and]

theorem status_sealed_iff {is : List Instr} : status is = .sealed ↔ WellTerminated is := by
  constructor
  · intro h
    induction is using List.reverseRecOn with
    | nil => cases h
    | append_singleton is i ih =>
        rw [status_append_singleton] at h
        cases hs : status is with
        | openEnd =>
            refine ⟨is, i, rfl, ?_, status_openEnd_iff.mp hs⟩
            by_contra hi
            simp [hs, Status.after, hi] at h
        | sealed => simp [hs, Status.after] at h
        | broken => simp [hs, Status.after] at h
  · rintro ⟨before, t, rfl, ht, hbefore⟩
    rw [status_append_singleton, status_openEnd_iff.mpr hbefore, Status.after, if_pos ht]

theorem status_broken_append {is : List Instr} (h : status is = .broken) (added : List Instr) :
    status (is ++ added) = .broken := by
  induction added using List.reverseRecOn with
  | nil => simpa using h
  | append_singleton added i ih => rw [← List.append_assoc, status_append_singleton, ih]; rfl

theorem status_ended_append {is : List Instr} (h : status is ≠ .openEnd) (added : List Instr) :
    status (is ++ added) ≠ .openEnd := by
  rw [Ne, status_openEnd_iff] at h ⊢
  exact fun hall => h fun i hi => hall i (List.mem_append_left _ hi)

/-- An instruction after a terminator. -/
theorem status_after_ended {is : List Instr} (h : status is ≠ .openEnd) (i : Instr) :
    status (is ++ [i]) = .broken := by
  rw [status_append_singleton]
  cases hs : status is with
  | openEnd => exact absurd hs h
  | sealed => rfl
  | broken => rfl

/-! ### What the text says -/

/-- Whether an expression invokes a method. -/
def invokesExpr : Expr → List String → Bool
  | .assign (.name name) _ right, scope => invokesExpr right (name :: scope)
  | .assign (.instVar _) _ right, scope => invokesExpr right scope
  | .varOrInvoke name args _ receiver, scope => invokes name args receiver scope
  | .binary .., _ => true
  | _, _ => false

mutual

/-- Whether a statement leaves the builder at another block than it found it at.  An
invocation does so when it is guarded by a landing pad. -/
def movesStmt (guarded : Bool) : Stmt → List String → Bool
  | .expr e, scope => guarded && invokesExpr e scope
  | .ifStmt .., _ => true
  | .whileStmt .., _ => true
  | .beginStmt .., _ => true
  | .classDef _ _ body, scope => movesBlock guarded body scope
  | .methodDef .., _ => false

def movesStmts (guarded : Bool) : List Stmt → List String → Bool
  | [], _ => false
  | s :: ss, scope => movesStmt guarded s scope || movesStmts guarded ss (scopeStmt s scope)

def movesBlock (guarded : Bool) : Option (List Stmt) → List String → Bool
  | some statements, scope => movesStmts guarded statements scope
  | none, _ => false

end

mutual

/-- Whether no rescue clause of the statement, outside the methods that it defines, has
statements that move the builder.  The body of a `begin` is guarded. -/
def endsStmt (guarded : Bool) : Stmt → List String → Bool
  | .expr _, _ => true
  | .ifStmt cond ifbk elsebk, scope =>
      endsStmts guarded ifbk (scopeExpr cond scope) &&
        endsBlock guarded elsebk (scopeStmts ifbk (scopeExpr cond scope))
  | .whileStmt cond statements, scope => endsStmts guarded statements (scopeExpr cond scope)
  | .beginStmt beginbk rescuebks _ _, scope =>
      endsStmts true beginbk scope && endsRescues guarded rescuebks (scopeStmts beginbk scope)
  | .classDef _ _ body, scope => endsBlock guarded body scope
  | .methodDef .., _ => true

def endsStmts (guarded : Bool) : List Stmt → List String → Bool
  | [], _ => true
  | s :: ss, scope => endsStmt guarded s scope && endsStmts guarded ss (scopeStmt s scope)

def endsBlock (guarded : Bool) : Option (List Stmt) → List String → Bool
  | some statements, scope => endsStmts guarded statements scope
  | none, _ => true

def endsRescues (guarded : Bool) : List RescueBlock → List String → Bool
  | [], _ => true
  | .mk types var_name statements :: rescuebks, scope =>
      (endsStmts guarded statements (scopeClause types var_name scope) &&
        !movesStmts guarded statements (scopeClause types var_name scope)) &&
      endsRescues guarded rescuebks (scopeStmts statements (scopeClause types var_name scope))

end

/-! ### Open blocks

An instruction can do two things to an open block: leave it open, or close it and so take it off
the list.  `emit` and `seal` are these, and a new block is put on the list by `append`.
-/

/-- The blocks of the method that are open are `P`, and the others end as they should. -/
structure Pending (g : CodegenContext) (P : List Nat) : Prop where
  nodup : P.Nodup
  fnOf : ∀ b ∈ P, g.fnOf b = some g.current_method.fn
  openEnd : ∀ b ∈ P, status (g.instrs b) = .openEnd
  sealed : ∀ b ∉ P, g.fnOf b = some g.current_method.fn → status (g.instrs b) = .sealed

variable {P Q : List Nat}

theorem Pending.perm (h : Pending g P) {P' : List Nat} (hp : P.Perm P') : Pending g P' where
  nodup := hp.nodup h.nodup
  fnOf b hb := h.fnOf b (hp.mem_iff.mpr hb)
  openEnd b hb := h.openEnd b (hp.mem_iff.mpr hb)
  sealed b hb := h.sealed b fun hb' => hb (hp.mem_iff.mp hb')

theorem Pending.lt (h : Pending g P) {b : Nat} (hb : b ∈ P) : b < g.blocks.length :=
  CodegenContext.lt_of_fnOf (h.fnOf b hb)

/-- An open block gets an instruction after which the next one is executed. -/
theorem Pending.emit (h : Pending g P) {b : Nat} (hb : b ∈ P) {i : Instr}
    (hi : i.isTerminator = false) : Pending (g.emitAt b i) P where
  nodup := h.nodup
  fnOf c hc := (CodegenContext.emitAt_fnOf b c i).trans (h.fnOf c hc)
  openEnd c hc := by
    by_cases heq : c = b
    · subst heq
      rw [CodegenContext.emitAt_instrs_self (h.lt hc), status_append_singleton, h.openEnd c hc,
        Status.after, if_neg (by simp [hi])]
    · rw [CodegenContext.emitAt_instrs_ne heq]
      exact h.openEnd c hc
  sealed c hc hfn := by
    have hne : c ≠ b := fun heq => hc (heq ▸ hb)
    rw [CodegenContext.emitAt_instrs_ne hne]
    exact h.sealed c hc ((CodegenContext.emitAt_fnOf b c i).symm.trans hfn)

/-- An open block gets its terminator. -/
theorem Pending.seal {b : Nat} (h : Pending g (b :: P)) {t : Instr} (ht : t.isTerminator) :
    Pending (g.emitAt b t) P := by
  obtain ⟨hb, hP⟩ := List.nodup_cons.mp h.nodup
  have hne : ∀ {c}, c ∈ P → c ≠ b := fun hc heq => hb (heq ▸ hc)
  refine ⟨hP, fun c hc => ?_, fun c hc => ?_, fun c hc hfn => ?_⟩
  · exact (CodegenContext.emitAt_fnOf b c t).trans (h.fnOf c (.tail _ hc))
  · rw [CodegenContext.emitAt_instrs_ne (hne hc)]
    exact h.openEnd c (.tail _ hc)
  · by_cases heq : c = b
    · subst heq
      rw [CodegenContext.emitAt_instrs_self (h.lt (.head _)), status_append_singleton,
        h.openEnd c (.head _), Status.after, if_pos ht]
    · rw [CodegenContext.emitAt_instrs_ne heq]
      refine h.sealed c (fun hc' => ?_) ((CodegenContext.emitAt_fnOf b c t).symm.trans hfn)
      exact (List.mem_cons.mp hc').elim heq hc

theorem Pending.append (h : Pending g P) (name : String) :
    Pending (g.append name) (g.blocks.length :: P) := by
  refine ⟨List.nodup_cons.mpr ⟨fun hb => Nat.lt_irrefl _ (h.lt hb), h.nodup⟩, fun b hb => ?_,
    fun b hb => ?_, fun b hb hfn => ?_⟩
  · rcases List.mem_cons.mp hb with rfl | hb
    · exact CodegenContext.append_fnOf_self name
    · exact (CodegenContext.append_fnOf_of_lt name (h.lt hb)).trans (h.fnOf b hb)
  · rw [CodegenContext.append_instrs]
    rcases List.mem_cons.mp hb with rfl | hb
    · rw [CodegenContext.instrs_of_length_le (Nat.le_refl _)]
      rfl
    · exact h.openEnd b hb
  · simp only [List.mem_cons, not_or] at hb
    have hlt := CodegenContext.lt_of_fnOf hfn
    rw [CodegenContext.append_length] at hlt
    have hb' : b < g.blocks.length := Nat.lt_of_le_of_ne (Nat.le_of_lt_succ hlt) hb.1
    rw [CodegenContext.append_instrs]
    exact h.sealed b hb.2 ((CodegenContext.append_fnOf_of_lt name hb').symm.trans hfn)

/-- Nothing matters but the blocks and the method. -/
theorem Pending.of_blocks (h : Pending g P) (g' : CodegenContext) (hblocks : g'.blocks = g.blocks)
    (hfn : g'.current_method.fn = g.current_method.fn) : Pending g' P := by
  have hfnOf : ∀ b, g'.fnOf b = g.fnOf b := fun b => by
    rw [CodegenContext.fnOf, CodegenContext.fnOf, hblocks]
  have hinstrs : ∀ b, g'.instrs b = g.instrs b := fun b => by
    rw [CodegenContext.instrs, CodegenContext.instrs, hblocks]
  refine ⟨h.nodup, fun b hb => ?_, fun b hb => ?_, fun b hb hb' => ?_⟩
  · rw [hfnOf, hfn]
    exact h.fnOf b hb
  · rw [hinstrs]
    exact h.openEnd b hb
  · rw [hfnOf, hfn] at hb'
    rw [hinstrs]
    exact h.sealed b hb hb'

/-! ### The builder at an open block -/

/-- The third block comes first. -/
theorem perm_third (a b c : Nat) (Q : List Nat) : (a :: b :: c :: Q).Perm (c :: a :: b :: Q) :=
  (List.perm_middle : ([a, b] ++ c :: Q).Perm (c :: ([a, b] ++ Q)))

/-- The builder is at an open block, and the other open blocks are the entry block and `Q`. -/
structure Going (g : CodegenContext) (e : Nat) (Q : List Nat) : Prop where
  wellFormed : WellFormed g
  entry : IsEntry g e
  pending : Pending g (g.build :: e :: Q)

variable {e : Nat}

theorem Going.of_blocks (h : Going g e Q) (g' : CodegenContext) (hblocks : g'.blocks = g.blocks)
    (hmethod : g'.current_method.fn = g.current_method.fn) (hbuild : g'.build = g.build)
    (hg' : WellFormed g') : Going g' e Q where
  wellFormed := hg'
  entry := by
    rw [IsEntry, CodegenContext.entry?, hblocks, hmethod]
    exact h.entry
  pending := hbuild.symm ▸ h.pending.of_blocks _ hblocks hmethod

theorem Going.perm (h : Going g e Q) {Q' : List Nat} (hp : Q.Perm Q') : Going g e Q' where
  wellFormed := h.wellFormed
  entry := h.entry
  pending := h.pending.perm ((hp.cons _).cons _)

theorem Going.emit (h : Going g e Q) {i : Instr} (hi : i.isTerminator = false)
    (hr : i.result = none) : Going (g.emitAt g.build i) e Q where
  wellFormed := ((Grow.refl h.wellFormed).emitHere hr).wellFormed
  entry := ((Grow.refl h.wellFormed).emitHere hr).isEntry h.entry
  pending := h.pending.emit (.head _) hi

theorem Going.emitNew (h : Going g e Q) {i : Nat → Instr}
    (hi : ∀ r, (i r).isTerminator = false) (hr : ∀ r, (i r).result = some r) :
    Going (g.emitNew g.build i) e Q where
  wellFormed := ((Grow.refl h.wellFormed).emitNewHere hr).wellFormed
  entry := ((Grow.refl h.wellFormed).emitNewHere hr).isEntry h.entry
  pending := (h.pending.emit (.head _) (hi g.next)).of_blocks _ rfl rfl

theorem Going.append (h : Going g e Q) (name : String) :
    Going (g.append name) e (g.blocks.length :: Q) where
  wellFormed := ((Grow.refl h.wellFormed).append h.wellFormed.current_lt name).wellFormed
  entry := ((Grow.refl h.wellFormed).append h.wellFormed.current_lt name).isEntry h.entry
  pending := (h.pending.append name).perm (perm_third g.build e g.blocks.length Q).symm

/-- The builder goes to another open block. -/
theorem Going.switch {b : Nat} (h : Going g e (b :: Q)) :
    Going (g.moveTo b) e (g.build :: Q) where
  wellFormed := { h.wellFormed with build := h.pending.fnOf b (.tail _ (.tail _ (.head _))) }
  entry := h.entry
  pending := (h.pending.perm ((perm_third g.build e b Q).trans
    ((List.Perm.swap e g.build Q).cons b))).of_blocks _ rfl rfl

/-- The builder leaves its block for another one. -/
theorem Going.turn {b : Nat} (h : Going g e (b :: Q)) {t : Instr} (ht : t.isTerminator)
    (hr : t.result = none) : Going ((g.emitAt g.build t).moveTo b) e Q where
  wellFormed :=
    { ((Grow.refl h.wellFormed).emitHere hr).wellFormed with
      build := (CodegenContext.emitAt_fnOf ..).trans
        (h.pending.fnOf b (.tail _ (.tail _ (.head _)))) }
  entry := ((Grow.refl h.wellFormed).emitHere hr).isEntry h.entry
  pending := ((h.pending.seal ht).perm (.swap ..)).of_blocks _ rfl rfl

/-- What is generated takes an open block to an open block. -/
structure Passes (g g' : CodegenContext) : Prop where
  wellFormed : WellFormed g'
  going : ∀ {e Q}, Going g e Q → Going g' e Q

theorem stableCalls_passes : StableCalls Passes where
  wellFormed h := h.wellFormed
  refl hg := ⟨hg, fun h => h⟩
  trans h h' := ⟨h'.wellFormed, fun hgoing => h'.going (h.going hgoing)⟩
  emit hg hi hr := ⟨(stable_grow.emit hg hi hr).wellFormed,
    fun h => h.emit (Instr.isTerminator_of_isPlain hi) hr⟩
  emitNew hg hi hr := ⟨(stable_grow.emitNew hg hi hr).wellFormed,
    fun h => h.emitNew (fun r => Instr.isTerminator_of_isPlain (hi r)) hr⟩
  emitNewEntry {g _ _} hg he hi hr := by
    have hgrow := stable_grow.emitNewEntry hg he hi hr
    refine ⟨hgrow.wellFormed, fun h => ⟨hgrow.wellFormed, hgrow.isEntry h.entry, ?_⟩⟩
    obtain rfl := he.unique h.entry
    exact (h.pending.emit (.tail _ (.head _))
      (Instr.isTerminator_of_isSlot (hi g.next))).of_blocks _ rfl rfl
  call hg hpad args := ⟨(stableExpr_grow.call hg hpad args).wellFormed,
    fun h => h.emitNew (fun _ => rfl) fun _ => rfl⟩
  invoked hg hpad name args := by
    have hgrow := stableExpr_grow.invoked hg hpad name args
    refine ⟨hgrow.wellFormed, fun h => ?_⟩
    refine ⟨hgrow.wellFormed, hgrow.isEntry h.entry, ?_⟩
    exact (((h.append name).pending.seal rfl).perm (.swap ..)).of_blocks _ rfl rfl
  lookup hg args := ⟨(stableExpr_grow.lookup hg args).wellFormed,
    fun h => h.emitNew (fun _ => rfl) fun _ => rfl⟩

theorem stableExpr_passes : StableExpr Passes where
  toStableCalls := stableCalls_passes
  withLocal {g e _} hg he hname := by
    have hgrow := grow_withLocal hg he hname
    have hp := stableCalls_passes.toStable
    have h₁ := hp.emitNewEntry hg he (i := .alloca) (fun _ => rfl) fun _ => rfl
    have h₂ := hp.emitNewEntry (i := fun c => .bitCast c (.reg g.next)) h₁.wellFormed
      (emitNew_isEntry he) (fun _ => rfl) fun _ => rfl
    have h₃ := hp.emitNewEntry (i := fun c => .call c "llvm.gcroot" [.reg (g.next + 1), .null])
      h₂.wellFormed (emitNew_isEntry (emitNew_isEntry he)) (fun _ => rfl) fun _ => rfl
    refine ⟨hgrow.wellFormed, fun h => ?_⟩
    exact (h₃.going (h₂.going (h₁.going h))).of_blocks _ rfl rfl rfl hgrow.wellFormed

/-! ### Where the builder comes to be

Under a landing pad a call ends its block and goes on in another; without one an expression is
all in one block.  A rescue clause without calls to make therefore keeps the block that is noted
for it, whatever else it computes.
-/

/-- Without a landing pad the builder stays. -/
structure Stays (g g' : CodegenContext) : Prop where
  wellFormed : WellFormed g'
  landingpad : g'.landingpad = g.landingpad
  build : g.landingpad = none → g'.build = g.build

theorem stableExpr_stays : StableExpr Stays where
  wellFormed h := h.wellFormed
  refl hg := ⟨hg, rfl, fun _ => rfl⟩
  trans h h' :=
    ⟨h'.wellFormed, h'.landingpad.trans h.landingpad,
      fun hpad => (h'.build (h.landingpad.trans hpad)).trans (h.build hpad)⟩
  emit hg hi hr := ⟨(stable_grow.emit hg hi hr).wellFormed, rfl, fun _ => rfl⟩
  emitNew hg hi hr := ⟨(stable_grow.emitNew hg hi hr).wellFormed, rfl, fun _ => rfl⟩
  emitNewEntry hg he hi hr :=
    ⟨(stable_grow.emitNewEntry hg he hi hr).wellFormed, rfl, fun _ => rfl⟩
  call hg hpad args := ⟨(stableExpr_grow.call hg hpad args).wellFormed, rfl, fun _ => rfl⟩
  invoked hg hpad name args :=
    ⟨(stableExpr_grow.invoked hg hpad name args).wellFormed, rfl, fun hnone => by
      rw [hpad] at hnone
      cases hnone⟩
  lookup hg args := ⟨(stableExpr_grow.lookup hg args).wellFormed, rfl, fun _ => rfl⟩
  withLocal hg he hname := ⟨(grow_withLocal hg he hname).wellFormed, rfl, fun _ => rfl⟩

/-- The builder stays. -/
structure Here (g g' : CodegenContext) : Prop where
  wellFormed : WellFormed g'
  build : g'.build = g.build

theorem stable_here : StableLocals Here where
  wellFormed h := h.wellFormed
  refl hg := ⟨hg, rfl⟩
  trans h h' := ⟨h'.wellFormed, h'.build.trans h.build⟩
  emit hg hi hr := ⟨(stable_grow.emit hg hi hr).wellFormed, rfl⟩
  emitNew hg hi hr := ⟨(stable_grow.emitNew hg hi hr).wellFormed, rfl⟩
  emitNewEntry hg he hi hr := ⟨(stable_grow.emitNewEntry hg he hi hr).wellFormed, rfl⟩
  withLocal hg he hname := ⟨(grow_withLocal hg he hname).wellFormed, rfl⟩

theorem constAccess_here (name : String) : Does Here (constAccess name) := by
  intro g v g' hg h
  refine ⟨(stableExpr_grow.constAccess name g v g' hg h).wellFormed, ?_⟩
  simp only [constAccess, bind_ok, get_ok, buildCall_ok, mkSym] at h
  obtain ⟨_, _, ⟨rfl, rfl⟩, _, _, ⟨rfl, rfl⟩, _, _, ⟨rfl, rfl⟩, rfl, rfl⟩ := h
  rfl

/-- A guarded invocation puts the builder at a new block. -/
theorem buildMethodInvocation_new {receiver v : Operand} {name : String} {args : List Operand}
    (hg : WellFormed g) (hpad : g.landingpad.isSome)
    (h : buildMethodInvocation receiver name args g = .ok (v, g')) :
    g.blocks.length ≤ g'.build := by
  simp only [buildMethodInvocation, bind_ok, get_ok] at h
  obtain ⟨argv, g₁, hargv, sym, g₂, hsym, _, _, ⟨rfl, rfl⟩, h⟩ := h
  have hargs := stable_grow.buildArgv args g argv g₁ hg hargv
  have hsym := stable_grow.mkSym name g₁ sym _ hargs.wellFormed hsym
  have hgrow := hargs.trans hsym
  obtain ⟨pad, hsome⟩ := Option.isSome_iff_exists.mp hpad
  rw [← hgrow.landingpad] at hsome
  simp only [hsome, bind_ok, appendBlock_ok, emitReg_ok, positionAtEnd_ok, pure_ok] at h
  obtain ⟨_, _, ⟨rfl, rfl⟩, _, _, ⟨rfl, rfl⟩, _, _, rfl, rfl, rfl⟩ := h
  exact hgrow.length

/-- The builder comes to be at another block just when `moves` says so. -/
def Moves (m : Gen α) (moves : Bool → List String → Bool) : Prop :=
  ∀ g a g' scope, WellFormed g → Scoped g scope → m g = .ok (a, g') →
    (g'.build = g.build ↔ moves g.landingpad.isSome scope = false)

theorem moves_of_here {m : Gen α} (h : Does Here m) : Moves m fun _ _ => false := by
  intro g a g' scope hg _ hrun
  simpa using (h g a g' hg hrun).build

theorem Moves.after {x : Gen α} {f : α → Gen β} {moves : Bool → List String → Bool}
    (hx : Moves x moves) (hgrow : Grows x) (hf : ∀ a, Does Here (f a)) :
    Moves (x >>= f) moves := by
  intro g b g' scope hg hscope h
  obtain ⟨a, g₁, h₁, h₂⟩ := bind_ok.mp h
  rw [(hf a g₁ b g' (hgrow g a g₁ hg h₁).wellFormed h₂).build]
  exact hx g a g₁ scope hg hscope h₁

/-- A block that was added is not the one that the builder was at. -/
theorem WellFormed.build_ne (hg : WellFormed g) {b : Nat} (hb : g.blocks.length ≤ b) :
    b ≠ g.build :=
  fun heq => Nat.lt_irrefl _ (hg.build_lt.trans_le (heq ▸ hb))

/-- What ends in an invocation. -/
theorem moves_invocation {m : Gen Operand} (hstays : Does Stays m)
    (hnew : ∀ g v g', WellFormed g → g.landingpad.isSome → m g = .ok (v, g') →
      g.blocks.length ≤ g'.build) : Moves m fun guarded _ => guarded := by
  intro g v g' scope hg _ h
  cases hpad : g.landingpad with
  | none => simpa using (hstays g v g' hg h).build hpad
  | some pad =>
      have hlen := hnew g v g' hg (by simp [hpad]) h
      simpa using hg.build_ne hlen

theorem moves_codegenBinary (class_ : BinaryClass) (left : Expr) (op : String) (right : Expr) :
    Moves (codegenExpr (.binary class_ left op right)) fun guarded _ => guarded := by
  refine moves_invocation (stableExpr_stays.codegenExpr _) fun g v g' hg hpad h => ?_
  simp only [codegenExpr, bind_ok] at h
  obtain ⟨lhs, g₁, hleft, rhs, g₂, hright, h⟩ := h
  have h₁ := grows_codegenExpr left _ _ _ hg hleft
  have hgrow := h₁.trans (grows_codegenExpr right _ _ _ h₁.wellFormed hright)
  rw [codegenBinary] at h
  cases hname : operatorMethod class_ op with
  | some name =>
      rw [hname] at h
      have hpad' : g₂.landingpad.isSome := hgrow.landingpad.symm ▸ hpad
      exact hgrow.length.trans (buildMethodInvocation_new hgrow.wellFormed hpad' h)
  | none =>
      rw [hname] at h
      exact absurd h throw_ok

theorem moves_codegenInvoke (receiver : Option Expr) (args : Option (List Expr))
    (name : String) :
    Moves (do
      let r ← codegenReceiver receiver
      let arg_list ← codegenArgList args
      buildMethodInvocation r name arg_list) fun guarded _ => guarded := by
  refine moves_invocation ?_ fun g v g' hg hpad h => ?_
  · have hR := stableExpr_stays
    exact hR.bind (hR.codegenReceiver _) fun _ => hR.bind (hR.codegenArgList _) fun _ =>
      hR.buildMethodInvocation _ _ _
  · simp only [bind_ok] at h
    obtain ⟨r, g₁, hreceiver, arg_list, g₂, hargs, h⟩ := h
    have h₁ := stableExpr_grow.codegenReceiver receiver _ _ _ hg hreceiver
    have hgrow := h₁.trans (stableExpr_grow.codegenArgList args _ _ _ h₁.wellFormed hargs)
    have hpad' : g₂.landingpad.isSome := hgrow.landingpad.symm ▸ hpad
    exact hgrow.length.trans (buildMethodInvocation_new hgrow.wellFormed hpad' h)

/-- An expression moves the builder if it invokes a method under a landing pad. -/
theorem moves_codegenExpr : (e : Expr) →
    Moves (codegenExpr e) fun guarded scope => guarded && invokesExpr e scope
  | .assign (.name name) _ right => by
      rw [codegenExpr]
      intro g v g' scope hg hscope h
      rw [bind_ok] at h
      obtain ⟨lhs, g₁, hslot, h⟩ := h
      have hhere := stable_here.getOrCreateLocal name g lhs g₁ hg hslot
      have hgrow := stableExpr_grow.getOrCreateLocal name g lhs g₁ hg hslot
      obtain ⟨-, hscope₁⟩ := scopes_getOrCreateLocal name g lhs g₁ scope hg hscope hslot
      have hright := (moves_codegenExpr right).after (grows_codegenExpr right)
        (fun rhs => stable_here.bind (stable_here.emit_piece (i := .store rhs lhs) rfl rfl)
          fun _ => stable_here.pure rhs) g₁ v g' _ hgrow.wellFormed hscope₁ h
      rw [hhere.build, hgrow.landingpad] at hright
      exact hright
  | .assign (.instVar name) _ right => by
      rw [codegenExpr]
      exact (moves_codegenExpr right).after (grows_codegenExpr right) fun _ =>
        stable_here.bind (stable_here.mkSym name) fun _ => stable_here.bind stable_here.get
          fun _ => stable_here.bind (stable_here.buildCall rfl _) fun _ => stable_here.pure _
  | .varOrInvoke name args block receiver => by
      intro g v g' scope hg hscope h
      rw [codegenExpr] at h
      simp only [invokesExpr, invokes]
      split at h
      · next hconst => simpa [hconst] using (constAccess_here _ g v g' hg h).build
      · next hconst =>
          rw [bind_ok] at h
          obtain ⟨found, _, hlocal, h⟩ := h
          obtain ⟨rfl, rfl⟩ := isLocal_ok hscope hlocal
          split at h
          · next hfound =>
              rw [hfound]
              simpa using (stable_here.localAccess _ _ v g' hg h).build
          · next hfound =>
              rw [Bool.not_eq_true] at hconst hfound
              rw [hconst, hfound]
              simpa using moves_codegenInvoke receiver args name.text _ v g' scope hg hscope h
  | .binary class_ left op right => by
      simpa [invokesExpr] using moves_codegenBinary class_ left op right
  | .instVar name => by
      rw [codegenExpr]
      simpa [invokesExpr] using moves_of_here (stable_here.bind (stable_here.mkSym name) fun _ =>
        stable_here.bind stable_here.get fun _ => stable_here.buildCall rfl _)
  | .string source => by
      rw [codegenExpr]
      simpa [invokesExpr] using moves_of_here (stable_here.buildCall rfl _)
  | .int source => by
      rw [codegenExpr]
      simpa [invokesExpr] using moves_of_here (stable_here.buildCall rfl _)
  | .bool true => by
      rw [codegenExpr]
      simpa [invokesExpr] using moves_of_here (stable_here.buildCall rfl _)
  | .bool false => by
      rw [codegenExpr]
      simpa [invokesExpr] using moves_of_here (stable_here.buildCall rfl _)
  | .selfExpr => by
      rw [codegenExpr]
      simpa [invokesExpr] using
        moves_of_here (stable_here.bind stable_here.get fun _ => stable_here.pure _)

/-- One statement after the other: a builder that has been moved does not come back. -/
theorem Moves.next {x : Gen α} {f : α → Gen β} {moves moves' : Bool → List String → Bool}
    {names : List String → List String} (hx : Moves x moves) (hgrow : Grows x)
    (hscopes : Scopes x names) (hf : ∀ a, Moves (f a) moves') (hgrow' : ∀ a, Grows (f a)) :
    Moves (x >>= f) fun guarded scope => moves guarded scope || moves' guarded (names scope) := by
  intro g b g' scope hg hscope h
  obtain ⟨a, g₁, h₁, h₂⟩ := bind_ok.mp h
  have hfirst := hgrow g a g₁ hg h₁
  have hrest := hgrow' a g₁ b g' hfirst.wellFormed h₂
  have hmoved := hx g a g₁ scope hg hscope h₁
  have hmoved' := hf a g₁ b g' _ hfirst.wellFormed (hscopes g a g₁ scope hg hscope h₁).2 h₂
  rw [hfirst.landingpad] at hmoved'
  simp only [Bool.or_eq_false_iff]
  rw [← hmoved, ← hmoved']
  constructor
  · intro heq
    have hback : g₁.build = g.build := by
      rcases hfirst.build with hstay | hnew
      · exact hstay
      · rcases hrest.build with hstay | hnew'
        · exact hstay.symm.trans heq
        · exact absurd heq (hg.build_ne (hfirst.length.trans hnew'))
    exact ⟨hback, heq.trans hback.symm⟩
  · rintro ⟨hstay, hstay'⟩
    exact hstay'.trans hstay

/-- What ends at a block that it has added. -/
theorem moves_of_new {m : Gen α}
    (h : ∀ g a g', WellFormed g → m g = .ok (a, g') → g.blocks.length ≤ g'.build) :
    Moves m fun _ _ => true := by
  intro g a g' scope hg _ hrun
  simpa using hg.build_ne (h g a g' hg hrun)

theorem BeginSteps.build {result v : Operand} {beginbk : List Stmt}
    {rescuebks : List RescueBlock} (steps : BeginSteps g result beginbk rescuebks v g')
    (hg : WellFormed g) : g.blocks.length ≤ g'.build := by
  have hclauses := framesRescues_codegenRescues rescuebks _ _ _ _ _ _ _ _
    (steps.atRescues (Frame.start hg) (grows_codegenStmts beginbk)) steps.rescuebks
  have hlength : (steps.g₂.rethrown (.reg steps.g₁.next)).blocks.length =
      steps.g₂.blocks.length := by
    simp [CodegenContext.rethrown, CodegenContext.emitNew]
  rw [steps.last]
  exact hclauses.grow.length.trans hlength.ge

mutual

/-- A statement moves the builder as the text says. -/
theorem moves_codegenStmt : (s : Stmt) →
    Moves (codegenStmt s) fun guarded scope => movesStmt guarded s scope
  | .expr e => by
      rw [codegenStmt]
      exact moves_codegenExpr e
  | .ifStmt cond ifbk elsebk => by
      refine moves_of_new fun g v g' hg h => ?_
      obtain ⟨e, _, he, -, ⟨steps⟩⟩ := codegenIf_ok hg h
      rw [steps.last]
      exact (Frame.alloca hg he).grow.length.trans (Nat.le_add_right _ 3)
  | .whileStmt cond statements => by
      refine moves_of_new fun g v g' hg h => ?_
      obtain ⟨e, he, ⟨steps⟩⟩ := codegenWhile_ok hg h
      rw [steps.last]
      exact (Frame.alloca hg he).grow.length.trans (Nat.le_add_right _ 2)
  | .beginStmt beginbk rescuebks elsebk ensurebk => by
      refine moves_of_new fun g v g' hg h => ?_
      obtain ⟨-, e, he, ⟨steps⟩⟩ := codegenBegin_ok hg h
      have halloca := (Frame.alloca hg he).grow
      exact halloca.length.trans (steps.build halloca.wellFormed)
  | .classDef name extends_ none => by
      intro g v g' scope hg hscope h
      obtain ⟨_, _, ⟨⟩, _⟩ := codegenClass_ok h
  | .classDef name extends_ (some body) => by
      have hbody := moves_codegenStmts body
      intro g v g' scope hg hscope h
      obtain ⟨_, _, heq, ⟨steps⟩⟩ := codegenClass_ok h
      cases heq
      have hopen := stable_here.openClass name _ _ _ hg steps.open_
      have hlocals := stableCalls_keepsLocals.openClass name _ _ _ hg steps.open_
      have hgrow := stable_grow.openClass name _ _ _ hg steps.open_
      have hmoved := hbody _ _ _ scope (steps.atBody hg) (hscope.of_locals hlocals.locals)
        steps.body
      rw [steps.last]
      simpa [movesStmt, movesBlock, hopen.build, hgrow.landingpad] using hmoved
  | .methodDef name params body => by
      refine moves_of_here fun g v g' hg h => ?_
      obtain ⟨steps⟩ := codegenMethod_ok h
      have hmethod := steps.growMethod hg (grows_codegenMethodBody params body)
      have hdefine := stable_here.defineMethod _ _ _ _ _ hmethod.wellFormed steps.define
      exact ⟨hdefine.wellFormed, hdefine.build⟩

theorem moves_codegenStmts : (ss : List Stmt) →
    Moves (codegenStmts ss) fun guarded scope => movesStmts guarded ss scope
  | [] => by
      rw [codegenStmts]
      exact moves_of_here (stable_here.pure _)
  | [s] => by
      rw [codegenStmts]
      simpa [movesStmts] using (moves_codegenStmt s).after (grows_codegenStmt s)
        fun v => stable_here.pure (some v)
  | s :: s' :: ss => by
      rw [codegenStmts]
      · exact (moves_codegenStmt s).next (grows_codegenStmt s) (scopes_codegenStmt s)
          (fun _ => moves_codegenStmts (s' :: ss)) fun _ => grows_codegenStmts (s' :: ss)
      · nofun

end

/-! ### Blocks that cannot be mended

`Longer` says of a step only that blocks keep what they have, so every step has it, and what it
keeps needs no invariant.
-/

/-- A block of the method has an instruction after a terminator. -/
def Broken (g : CodegenContext) : Prop :=
  ∃ b, g.fnOf b = some g.current_method.fn ∧ status (g.instrs b) = .broken

theorem Broken.longer (h : Broken g) (hg : Longer g g') : Broken g' := by
  obtain ⟨b, hfn, hstatus⟩ := h
  refine ⟨b, ?_, ?_⟩
  · rw [hg.fnOf b (CodegenContext.lt_of_fnOf hfn), hg.method]
    exact hfn
  · obtain ⟨added, hadded⟩ := hg.longer b
    rw [← hadded]
    exact status_broken_append hstatus added

/-- What comes of generating code in an open block. -/
structure Outcome (ends : Bool) (g : CodegenContext) (e : Nat) (Q : List Nat) : Prop where
  going : ends = true → Going g e Q
  broken : ends = false → Broken g

variable {ends ends' : Bool} {Q' : List Nat}

theorem Going.outcome (h : Going g e Q) : Outcome true g e Q := ⟨fun _ => h, nofun⟩

theorem Outcome.run (h : Outcome ends g e Q) (hgoing : Going g e Q → Going g' e Q')
    (hlonger : Longer g g') : Outcome ends g' e Q' where
  going hends := hgoing (h.going hends)
  broken hends := (h.broken hends).longer hlonger

theorem Outcome.bind (h : Outcome ends g e Q) (hnext : Going g e Q → Outcome ends' g' e Q')
    (hlonger : Longer g g') : Outcome (ends && ends') g' e Q' := by
  cases ends with
  | true => exact Bool.true_and ends' ▸ hnext (h.going rfl)
  | false => exact ⟨nofun, fun _ => (h.broken rfl).longer hlonger⟩

/-- Whether the blocks of what is generated end as they should. -/
def Ends (m : Gen α) (ends : Bool → List String → Bool) : Prop :=
  ∀ g a g' guarded scope e Q, Going g e Q → g.landingpad.isSome = guarded → Scoped g scope →
    m g = .ok (a, g') → Outcome (ends guarded scope) g' e Q

theorem ends_of_passes {m : Gen α} (h : Does Passes m) : Ends m fun _ _ => true := by
  intro g a g' guarded scope e Q hgoing _ _ hrun
  exact ((h g a g' hgoing.wellFormed hrun).going hgoing).outcome

theorem Going.alloca (h : Going g e Q) {e' : Nat} (he : IsEntry g e') :
    Going (g.emitNew e' .alloca) e Q :=
  (stableCalls_passes.emitNewEntry h.wellFormed he (fun _ => rfl) fun _ => rfl).going h

theorem Going.branched {b : Nat} (h : Going g e (b :: Q)) (val : Operand)
    (ifFalse otherwise : Nat) : Going ((g.branched val ifFalse otherwise).moveTo b) e Q :=
  ((h.emitNew (fun _ => rfl) fun _ => rfl).emitNew (fun _ => rfl) fun _ => rfl).turn rfl rfl

theorem Going.leaving {b : Nat} (h : Going g e (b :: Q)) (v result : Operand) (bkcontinue : Nat) :
    Going ((g.leaving v result bkcontinue).moveTo b) e Q :=
  (h.emit rfl rfl).turn rfl rfl

theorem Going.looped {b : Nat} (h : Going g e (b :: Q)) (v result : Operand) (bkcond : Nat) :
    Going ((g.looped v result bkcond).moveTo b) e Q :=
  ((h.emit rfl rfl).emitNew (fun _ => rfl) fun _ => rfl).turn rfl rfl

/-- The blocks of an `if`. -/
theorem Going.ifBlocks (h : Going g e Q) :
    Going (g.ifBlocks.moveTo g.blocks.length) e ((g.blocks.length + 1) ::
      (g.blocks.length + 2) :: (g.blocks.length + 3) :: Q) := by
  have hcond := (h.append "cond").turn (t := .br g.blocks.length) rfl rfl
  have hblocks := ((hcond.append "then").append "else").append "ifcontinue"
  simp only [CodegenContext.moveTo, CodegenContext.append_length,
    CodegenContext.emitAt_length] at hblocks
  exact hblocks.perm ((List.reverse_perm [g.blocks.length + 1, g.blocks.length + 2,
    g.blocks.length + 3]).append_right Q)

/-- The blocks of a `while`. -/
theorem Going.whileBlocks (h : Going g e Q) :
    Going (g.whileBlocks.moveTo g.blocks.length) e ((g.blocks.length + 1) ::
      (g.blocks.length + 2) :: Q) := by
  have hcond := (h.append "while_cond").turn (t := .br g.blocks.length) rfl rfl
  have hblocks := (hcond.append "while_body").append "while_continue"
  simp only [CodegenContext.moveTo, CodegenContext.append_length,
    CodegenContext.emitAt_length] at hblocks
  exact hblocks.perm (.swap ..)

variable {result v : Operand} {cond : Expr} {guarded : Bool} {scope : List String}

theorem IfSteps.outcome {ifbk elsebk : List Stmt} {ifEnds elseEnds : Bool → List String → Bool}
    (steps : IfSteps g result cond ifbk elsebk v g') (h : Going g e Q)
    (hpad : g.landingpad.isSome = guarded) (hscope : Scoped g scope)
    (hif : Ends (codegenStmts ifbk) ifEnds) (helse : Ends (codegenStmts elsebk) elseEnds) :
    Outcome (ifEnds guarded (scopeExpr cond scope) &&
      elseEnds guarded (scopeStmts ifbk (scopeExpr cond scope))) g' e Q := by
  have hframe := Frame.start h.wellFormed
  have hatIf := (steps.atIf hframe).grow.wellFormed
  have hatElse := (steps.atElse hframe (grows_codegenStmts ifbk)).grow.wellFormed
  have hgrow₁ := grows_codegenExpr cond _ _ _ hframe.atIfCond.grow.wellFormed steps.cond
  have hgrow₂ := grows_codegenStmts ifbk _ _ _ hatIf steps.ifbk
  have hgrow₃ := grows_codegenStmts elsebk _ _ _ hatElse steps.elsebk
  have hpad₁ : steps.g₁.landingpad.isSome = guarded :=
    (congrArg Option.isSome hgrow₁.landingpad).trans hpad
  have hpad₂ : steps.g₂.landingpad.isSome = guarded :=
    (congrArg Option.isSome hgrow₂.landingpad).trans hpad₁
  obtain ⟨-, hscope₁⟩ := scopes_codegenExpr cond _ _ _ _ hframe.atIfCond.grow.wellFormed
    (hscope.of_locals rfl) steps.cond
  obtain ⟨-, hscope₂⟩ := scopes_codegenStmts ifbk _ _ _ _ hatIf (hscope₁.of_locals rfl) steps.ifbk
  -- the condition is left for the first branch, and that one for the second
  have hcond := (stableExpr_passes.codegenExpr cond _ _ _ h.ifBlocks.wellFormed steps.cond).going
    h.ifBlocks
  have hrun₁ := hif _ _ _ _ _ _ _ (hcond.branched steps.val _ _) hpad₁ (hscope₁.of_locals rfl)
    steps.ifbk
  have hleft := hrun₁.run (fun h => h.leaving steps.vthen result (g.blocks.length + 3))
    ((longer_leaving _ _ _).moveTo _)
  have hrun₂ := hleft.bind
    (fun h => helse _ _ _ _ _ _ _ h hpad₂ (hscope₂.of_locals rfl) steps.elsebk) hgrow₃.toLonger
  rw [steps.last]
  exact hrun₂.run
    (fun h => (h.leaving steps.velse result (g.blocks.length + 3)).emitNew (fun _ => rfl)
      fun _ => rfl)
    (((longer_leaving _ _ _).moveTo _).emitNew _ _)

theorem WhileSteps.outcome {statements : List Stmt} {bodyEnds : Bool → List String → Bool}
    (steps : WhileSteps g result cond statements v g') (h : Going g e Q)
    (hpad : g.landingpad.isSome = guarded) (hscope : Scoped g scope)
    (hbody : Ends (codegenStmts statements) bodyEnds) :
    Outcome (bodyEnds guarded (scopeExpr cond scope)) g' e Q := by
  have hframe := Frame.start h.wellFormed
  have hgrow₁ := grows_codegenExpr cond _ _ _ hframe.atWhileCond.grow.wellFormed steps.cond
  have hpad₁ : steps.g₁.landingpad.isSome = guarded :=
    (congrArg Option.isSome hgrow₁.landingpad).trans hpad
  obtain ⟨-, hscope₁⟩ := scopes_codegenExpr cond _ _ _ _ hframe.atWhileCond.grow.wellFormed
    (hscope.of_locals rfl) steps.cond
  have hcond := (stableExpr_passes.codegenExpr cond _ _ _ h.whileBlocks.wellFormed
    steps.cond).going h.whileBlocks
  have hrun := hbody _ _ _ _ _ _ _ (hcond.branched steps.val _ _) hpad₁ (hscope₁.of_locals rfl)
    steps.body
  rw [steps.last]
  exact hrun.run
    (fun h => (h.looped steps.vbody result g.blocks.length).emitNew (fun _ => rfl) fun _ => rfl)
    (((longer_looped _ _ _).moveTo _).emitNew _ _)

/-! ### The clauses of a landing pad -/

/-- The blocks in which the types were tested are left. -/
theorem Pending.jumpedTo (bkrescue : Nat) {tests : List (Nat × Operand × Nat)}
    (h : Pending g (tests.map Prod.fst ++ P)) : Pending (g.jumpedTo bkrescue tests) P := by
  induction tests generalizing g with
  | nil => exact h
  | cons t tests ih =>
      exact ih ((h.of_blocks (g.moveTo t.1) rfl rfl).seal (t := .cond t.2.1 bkrescue t.2.2)
        rfl)

/-- The rescue blocks are left. -/
theorem Pending.jumpedOut (bkout : Nat) {impls : List Nat} (h : Pending g (impls ++ P)) :
    Pending (g.jumpedOut bkout impls) P := by
  induction impls generalizing g with
  | nil => exact h
  | cons b impls ih =>
      exact ih ((h.of_blocks (g.moveTo b) rfl rfl).seal (t := .br bkout) rfl)

theorem Going.codegenTypes {asobj : Operand} {types : List Expr}
    {tests : List (Nat × Operand × Nat)} (h : Going g e Q)
    (hrun : codegenTypes asobj types g = .ok (tests, g')) :
    Going g' e (tests.map Prod.fst ++ Q) := by
  induction types generalizing g Q tests with
  | nil =>
      rw [Codegen.codegenTypes, pure_ok] at hrun
      obtain ⟨rfl, rfl⟩ := hrun
      exact h
  | cons ex_type types ih =>
      obtain ⟨steps⟩ := codegenTypes_ok hrun
      have htype := (stableExpr_passes.codegenExpr _ _ _ _ h.wellFormed steps.type).going h
      have htest := htype.emitNew (i := fun r =>
        .call r "pup_is_descendant_or_same" [steps.expected, asobj]) (fun _ => rfl) fun _ => rfl
      have hnew := (htest.append (blockNameNotMatched ex_type)).switch
      have hlength : (steps.g₁.emitNew steps.g₁.build fun r =>
          .call r "pup_is_descendant_or_same" [steps.expected, asobj]).blocks.length =
            steps.g₁.blocks.length :=
        CodegenContext.emitAt_length _ _
      rw [hlength] at hnew
      rw [steps.tests]
      exact (ih hnew steps.others).perm List.perm_middle

/-- The builder is in the block of the clause, and the block after its tests is open. -/
theorem Going.atBound {asobj : Operand} {types : List Expr}
    {tests : List (Nat × Operand × Nat)} (h : Going g e Q)
    (htypes : Codegen.codegenTypes asobj types g = .ok (tests, g₁)) :
    Going (((g₁.append "rescue_impl").jumpedTo g₁.blocks.length tests).moveTo
      g₁.blocks.length) e (g₁.build :: Q) where
  wellFormed := ((Frame.start h.wellFormed).atBound htypes).grow.wellFormed
  entry := ((Frame.start h.wellFormed).atBound htypes).grow.isEntry h.entry
  pending := by
    have hnew := ((h.codegenTypes htypes).pending.append "rescue_impl").perm
      (List.perm_append_comm_assoc [g₁.blocks.length, g₁.build, e] (tests.map Prod.fst) Q)
    exact ((hnew.jumpedTo g₁.blocks.length).perm
      ((List.Perm.swap e g₁.build Q).cons g₁.blocks.length)).of_blocks _ rfl rfl

theorem Going.enterRescue {types : List Expr} {var_name : Option String}
    {excep asobj : Operand} {bkrescue next : Nat} (h : Going g e Q)
    (steps : EnterSteps g types var_name excep asobj bkrescue next g') :
    Going g' e (next :: Q) ∧ g'.build = bkrescue := by
  obtain ⟨tests, g₁, htypes, rfl, rfl, hbound⟩ := steps
  have hat := h.atBound htypes
  cases var_name with
  | none =>
      obtain rfl := hbound
      exact ⟨hat, rfl⟩
  | some name =>
      obtain ⟨slot, g₂, hslot, rfl⟩ := hbound
      have hpass := stableExpr_passes.getOrCreateLocal name _ _ _ hat.wellFormed hslot
      exact ⟨(hpass.going hat).emit rfl rfl,
        (stable_here.getOrCreateLocal name _ _ _ hat.wellFormed hslot).build⟩

/-- One of the blocks has its terminator. -/
def Ended (g : CodegenContext) (bs : List Nat) : Prop :=
  ∃ b ∈ bs, g.fnOf b = some g.current_method.fn ∧ status (g.instrs b) ≠ .openEnd

variable {bs : List Nat}

theorem Ended.longer (h : Ended g bs) (hg : Longer g g') : Ended g' bs := by
  obtain ⟨b, hb, hfn, hstatus⟩ := h
  refine ⟨b, hb, ?_, ?_⟩
  · rw [hg.fnOf b (CodegenContext.lt_of_fnOf hfn), hg.method]
    exact hfn
  · obtain ⟨added, hadded⟩ := hg.longer b
    rw [← hadded]
    exact status_ended_append hstatus added

theorem Ended.mono (h : Ended g bs) {bs' : List Nat} (hbs : ∀ b ∈ bs, b ∈ bs') : Ended g bs' := by
  obtain ⟨b, hb, hended⟩ := h
  exact ⟨b, hbs b hb, hended⟩

/-- The builder leaves a block when it has ended it. -/
theorem Going.ended_of_ne (h : Going g e Q) (h' : Going g' e Q) (hgrow : Grow g g')
    (hne : g'.build ≠ g.build) : Ended g' [g.build] := by
  have hfn : g'.fnOf g.build = some g'.current_method.fn := by
    rw [hgrow.fnOf _ h.wellFormed.build_lt, hgrow.method]
    exact h.wellFormed.build
  refine ⟨g.build, .head _, hfn, ?_⟩
  rw [h'.pending.sealed _ ?_ hfn]
  · exact Status.noConfusion
  · exact fun hmem => (List.mem_cons.mp hmem).elim hne.symm (List.nodup_cons.mp h.pending.nodup).1

/-- A jump is added to a block that has its terminator. -/
theorem Ended.jumpedOut (bkout : Nat) (h : Ended g bs) : Broken (g.jumpedOut bkout bs) := by
  induction bs generalizing g with
  | nil => exact absurd h (by simp [Ended])
  | cons c bs ih =>
      obtain ⟨b, hb, hfn, hstatus⟩ := h
      have hjump : Longer g ((g.moveTo c).emitAt c (.br bkout)) :=
        ((Longer.refl g).moveTo c).emitAt c _
      rcases List.mem_cons.mp hb with rfl | hb
      · refine Broken.longer ⟨b, ?_, ?_⟩ ((Longer.refl _).jumpedOut bkout bs)
        · exact (hjump.fnOf b (CodegenContext.lt_of_fnOf hfn)).trans hfn
        · rw [CodegenContext.emitAt_instrs_self (g := g.moveTo b) (CodegenContext.lt_of_fnOf hfn)]
          exact status_after_ended hstatus _
      · exact ih (Ended.longer ⟨b, hb, hfn, hstatus⟩ hjump)

/-- Whether the clauses of a landing pad leave their blocks open. -/
def EndsRescues (rescuebks : List RescueBlock) : Prop :=
  ∀ g result excep asobj impls g' guarded scope e Q, Going g e Q →
    g.landingpad.isSome = guarded → Scoped g scope →
    codegenRescues rescuebks result excep asobj g = .ok (impls, g') →
      (endsRescues guarded rescuebks scope = true → Going g' e (impls ++ Q)) ∧
      (endsRescues guarded rescuebks scope = false → Broken g' ∨ Ended g' impls)

theorem endsRescues_nil : EndsRescues [] := by
  intro g result excep asobj impls g' guarded scope e Q h _ _ hrun
  rw [codegenRescues, pure_ok] at hrun
  obtain ⟨rfl, rfl⟩ := hrun
  exact ⟨fun _ => h, nofun⟩

theorem endsRescues_cons {types : Option (List Expr)} {var_name : Option String}
    {statements : List Stmt} {rescuebks : List RescueBlock}
    (hstatements : Ends (codegenStmts statements) fun guarded scope =>
      endsStmts guarded statements scope)
    (hothers : EndsRescues rescuebks) :
    EndsRescues (.mk types var_name statements :: rescuebks) := by
  intro g result excep asobj impls g' guarded scope e Q h hpad hscope hrun
  obtain ⟨steps⟩ := codegenRescues_ok hrun
  have hframe := Frame.start h.wellFormed
  obtain ⟨hat, hbuild⟩ := h.enterRescue steps.enter
  have hscope₁ := steps.enter.scoped h.wellFormed hscope
  have hpad₁ : steps.g₁.landingpad.isSome = guarded :=
    (congrArg Option.isSome (hframe.enterRescue steps.enter).grow.landingpad).trans hpad
  have hrun₂ := hstatements _ _ _ _ _ _ _ hat hpad₁ hscope₁ steps.statements
  have hmoved := moves_codegenStmts statements _ _ _ _ hat.wellFormed hscope₁ steps.statements
  have hgrow₂ := grows_codegenStmts statements _ _ _ hat.wellFormed steps.statements
  obtain ⟨-, hscope₂⟩ := scopes_codegenStmts statements _ _ _ _ hat.wellFormed hscope₁
    steps.statements
  have hatOthers := (steps.atOthers hframe (grows_codegenStmts statements)).grow.wellFormed
  have hlonger : Longer steps.g₂ g' :=
    (((Longer.refl _).emitAt _ _).moveTo _).trans
      (framesRescues_codegenRescues rescuebks _ _ _ _ _ _ _ _ (Frame.start hatOthers)
        steps.others).grow.toLonger
  rw [hpad₁, hbuild] at hmoved
  rw [endsRescues, steps.impls]
  cases hends : endsStmts guarded statements (scopeClause types var_name scope) with
  | false =>
      -- the statements have broken a block
      exact ⟨nofun, fun _ => .inl ((hrun₂.broken hends).longer hlonger)⟩
  | true =>
      have hgoing := hrun₂.going hends
      cases hmoves : movesStmts guarded statements (scopeClause types var_name scope) with
      | true =>
          have hne : steps.g₂.build ≠ steps.g₁.build := by
            rw [hbuild, Ne, hmoved]
            simp [hmoves]
          refine ⟨nofun, fun _ => .inr ?_⟩
          have hended := (hat.ended_of_ne hgoing hgrow₂ hne).longer hlonger
          exact hended.mono fun b hb => List.mem_singleton.mp hb ▸ hbuild ▸ .head _
      | false =>
          have hbuild₂ : steps.g₂.build = steps.bkrescue := hmoved.mpr hmoves
          have hnext := (hgoing.emit (i := .store steps.v result) rfl rfl).switch
          rw [show (steps.g₂.emitAt steps.g₂.build (.store steps.v result)).build =
            steps.bkrescue from hbuild₂] at hnext
          have hpad₂ : steps.g₂.landingpad.isSome = guarded :=
            (congrArg Option.isSome hgrow₂.landingpad).trans hpad₁
          obtain ⟨hall, hsome⟩ := hothers _ _ _ _ _ _ _ _ _ _ hnext hpad₂ (hscope₂.of_locals rfl)
            steps.others
          refine ⟨fun hrest => (hall hrest).perm List.perm_middle, fun hrest => ?_⟩
          exact (hsome hrest).imp id fun hended => hended.mono fun _ hb => .tail _ hb

/-! ### Statements -/

/-- Six instructions, each in the block where the builder is. -/
theorem Going.landed (h : Going g e Q) : Going g.landed e Q := by
  unfold CodegenContext.landed
  iterate 5 refine Going.emitNew ?_ (fun _ => rfl) fun _ => rfl
  exact h.emitNew (fun _ => rfl) fun _ => rfl

/-- After a `begin` the blocks of its body and of its clauses are left. -/
theorem Pending.afterBegin {begin_block : Nat} {impls : List Nat}
    (h : Pending g (e :: (impls ++ begin_block :: Q))) (result : Operand) :
    Pending (g.afterBegin begin_block impls result) (g.blocks.length :: e :: Q) := by
  have hnew := (h.append "after_beginblock").perm
    ((List.perm_append_comm_assoc [g.blocks.length, e] impls (begin_block :: Q)).trans
      (List.Perm.append_left impls (perm_third g.blocks.length e begin_block Q)))
  have hout := (hnew.jumpedOut g.blocks.length).of_blocks
    (((g.append "after_beginblock").jumpedOut g.blocks.length impls).moveTo begin_block) rfl rfl
  have hleft := hout.seal (t := .br g.blocks.length) rfl
  exact (hleft.emit (.head _) (i := .load _ result) rfl).of_blocks _ rfl rfl

/-- When a clause has left its block, the jump out of it breaks the block. -/
theorem Ended.afterBegin {impls : List Nat} (h : Ended g impls) (begin_block : Nat)
    (result : Operand) : Broken (g.afterBegin begin_block impls result) := by
  have hout := (h.longer ((Longer.refl g).append "after_beginblock")).jumpedOut g.blocks.length
  exact hout.longer (((((Longer.refl _).moveTo begin_block).emitAt begin_block
    (.br g.blocks.length)).moveTo g.blocks.length).emitNew g.blocks.length
      fun r => .load r result)

theorem BeginSteps.outcome {beginbk : List Stmt} {rescuebks : List RescueBlock}
    (steps : BeginSteps g result beginbk rescuebks v g') (h : Going g e Q)
    (hpad : g.landingpad.isSome = guarded) (hscope : Scoped g scope)
    (hbody : Ends (codegenStmts beginbk) fun guarded scope => endsStmts guarded beginbk scope)
    (hrescues : EndsRescues rescuebks) :
    Outcome (endsStmts true beginbk scope &&
      endsRescues guarded rescuebks (scopeStmts beginbk scope)) g' e Q := by
  have hg := h.wellFormed
  have hframe := Frame.start hg
  have hatRescues := (steps.atRescues hframe (grows_codegenStmts beginbk)).grow.wellFormed
  have hgrow := steps.grow hframe (grows_codegenStmts beginbk)
    (framesRescues_codegenRescues rescuebks)
  have hentry := hgrow.isEntry h.entry
  have hclauses := (framesRescues_codegenRescues rescuebks _ _ _ _ _ _ _ _
    (Frame.start hatRescues) steps.rescuebks).grow.toLonger
  obtain ⟨-, hscope₁⟩ := scopes_codegenStmts beginbk _ _ _ _ hg.guarded (hscope.of_locals rfl)
    steps.body
  -- the body, with the landing pad open
  have hguarded := (h.append "landingpad").of_blocks (g.guarded g.blocks.length) rfl rfl rfl
    hg.guarded
  have hrun := hbody _ _ _ true _ _ _ hguarded rfl (hscope.of_locals rfl) steps.body
  have hland : Outcome (endsStmts true beginbk scope)
      ((steps.g₁.unguarded steps.vbody result g.landingpad).moveTo g.blocks.length).landed e
      (steps.g₁.build :: Q) := hrun.run
    (fun h => (((h.emit (i := .store steps.vbody result) rfl rfl).of_blocks
      (steps.g₁.unguarded steps.vbody result g.landingpad) rfl rfl rfl
      (steps.growBody hg (grows_codegenStmts beginbk)).wellFormed).switch).landed)
    (((⟨((Longer.refl _).emitAt _ _).longer, ((Longer.refl _).emitAt _ _).fnOf,
      ((Longer.refl _).emitAt _ _).length, rfl⟩ : Longer steps.g₁
        (steps.g₁.unguarded steps.vbody result g.landingpad)).moveTo _).trans longer_landed)
  have hleave := ((longer_rethrown (g := steps.g₂) (.reg steps.g₁.next)).moveTo
    steps.g₁.build).afterBegin steps.g₁.build steps.impls result
  rw [steps.last] at hgrow hentry ⊢
  refine hland.bind (fun h => ?_) (hclauses.trans hleave)
  have hpad' : (steps.g₁.unguarded steps.vbody result g.landingpad).landingpad.isSome = guarded :=
    hpad
  obtain ⟨hall, hsome⟩ := hrescues _ _ _ _ _ _ _ _ _ _ h hpad' (hscope₁.of_locals rfl)
    steps.rescuebks
  constructor
  · intro hends
    have hcall := (hall hends).emitNew (i := fun r =>
      .call r "pup_rethrow_uncaught_exception" [.reg steps.g₁.next]) (fun _ => rfl) fun _ => rfl
    have hret : Pending ((steps.g₂.rethrown (.reg steps.g₁.next)).moveTo steps.g₁.build)
        (e :: (steps.impls ++ steps.g₁.build :: Q)) :=
      (hcall.pending.seal (t := .ret .null) rfl).of_blocks _ rfl rfl
    exact ⟨hgrow.wellFormed, hentry, hret.afterBegin result⟩
  · intro hends
    rcases hsome hends with hbroken | hended
    · exact hbroken.longer hleave
    · exact (hended.longer ((longer_rethrown _).moveTo _)).afterBegin _ _

theorem ClassSteps.outcome {name : String} {body : List Stmt}
    {bodyEnds : Bool → List String → Bool} (steps : ClassSteps g name body v g')
    (h : Going g e Q) (hpad : g.landingpad.isSome = guarded) (hscope : Scoped g scope)
    (hbody : Ends (codegenStmts body) bodyEnds) : Outcome (bodyEnds guarded scope) g' e Q := by
  have hg := h.wellFormed
  have hopen := stable_grow.openClass name _ _ _ hg steps.open_
  have hlocals := stableCalls_keepsLocals.openClass name _ _ _ hg steps.open_
  have hgoing := (stableCalls_passes.openClass name _ _ _ hg steps.open_).going h
  have hself := hgoing.of_blocks ({ steps.g₁ with self_ref := v }) rfl rfl rfl
    (steps.atBody hg)
  have hpad₁ : steps.g₁.landingpad.isSome = guarded :=
    (congrArg Option.isSome hopen.landingpad).trans hpad
  have hrun := hbody _ _ _ _ _ _ _ hself hpad₁ (hscope.of_locals hlocals.locals) steps.body
  rw [steps.last]
  refine hrun.run (fun h => h.of_blocks _ rfl rfl rfl
    { h.wellFormed with build := h.wellFormed.build }) ?_
  exact ⟨fun _ => List.prefix_rfl, fun _ _ => rfl, Nat.le_refl _, rfl⟩

/-- A method is not in the blocks of the method around it. -/
theorem Pending.afterMethod (h : Pending g P) (hg : WellFormed g)
    (hmethod : Grow (g.inMethodBlock "") g₁) (hgrow : Grow g (g.afterMethod g₁)) :
    Pending (g.afterMethod g₁) P := by
  have hinstrs : ∀ b < g.blocks.length, (g.afterMethod g₁).instrs b = g.instrs b := fun b hb =>
    hmethod.method_instrs hg hb
  refine ⟨h.nodup, fun b hb => ?_, fun b hb => ?_, fun b hb hfn => ?_⟩
  · exact (hgrow.fnOf b (h.lt hb)).trans (h.fnOf b hb)
  · rw [hinstrs b (h.lt hb)]
    exact h.openEnd b hb
  · rcases Nat.lt_or_ge b g.blocks.length with hlt | hge
    · rw [hinstrs b hlt]
      exact h.sealed b hb ((hgrow.fnOf b hlt).symm.trans hfn)
    · exact absurd (hmethod.method_fn hge hfn) (Nat.not_le.mpr hg.current_lt)

theorem MethodSteps.going {name : String} {params : Option (List Param)}
    {body : Option (List Stmt)} (steps : MethodSteps g name params body v g')
    (h : Going g e Q) : Going g' e Q := by
  have hg := h.wellFormed
  have hmethod := grows_codegenMethodBody params body _ _ _ (hg.inMethodBlock "") steps.body
  have hgrow := steps.growMethod hg (grows_codegenMethodBody params body)
  have hafter : Going (g.afterMethod steps.g₁) e Q :=
    ⟨hgrow.wellFormed, hgrow.isEntry h.entry, h.pending.afterMethod hg hmethod hgrow⟩
  exact (stableCalls_passes.defineMethod _ _ _ _ _ hgrow.wellFormed steps.define).going hafter

mutual

theorem ends_codegenStmt : (s : Stmt) →
    Ends (codegenStmt s) fun guarded scope => endsStmt guarded s scope
  | .expr e => by
      rw [codegenStmt]
      exact ends_of_passes (stableExpr_passes.codegenExpr e)
  | .ifStmt cond ifbk none => by
      intro g v g' guarded scope e Q hgoing hpad hscope h
      obtain ⟨_, _, _, ⟨⟩, _⟩ := codegenIf_ok hgoing.wellFormed h
  | .ifStmt cond ifbk (some elsebk) => by
      have hif := ends_codegenStmts ifbk
      have helse := ends_codegenStmts elsebk
      intro g v g' guarded scope e Q hgoing hpad hscope h
      obtain ⟨_, _, he, heq, ⟨steps⟩⟩ := codegenIf_ok hgoing.wellFormed h
      cases heq
      exact steps.outcome (hgoing.alloca he) hpad (hscope.of_locals rfl) hif helse
  | .whileStmt cond statements => by
      have hbody := ends_codegenStmts statements
      intro g v g' guarded scope e Q hgoing hpad hscope h
      obtain ⟨_, he, ⟨steps⟩⟩ := codegenWhile_ok hgoing.wellFormed h
      exact steps.outcome (hgoing.alloca he) hpad (hscope.of_locals rfl) hbody
  | .beginStmt beginbk rescuebks elsebk ensurebk => by
      have hbody := ends_codegenStmts beginbk
      have hrescues := endsRescues_codegenRescues rescuebks
      intro g v g' guarded scope e Q hgoing hpad hscope h
      obtain ⟨-, _, he, ⟨steps⟩⟩ := codegenBegin_ok hgoing.wellFormed h
      exact steps.outcome (hgoing.alloca he) hpad (hscope.of_locals rfl) hbody hrescues
  | .classDef name extends_ none => by
      intro g v g' guarded scope e Q hgoing hpad hscope h
      obtain ⟨_, _, ⟨⟩, _⟩ := codegenClass_ok h
  | .classDef name extends_ (some body) => by
      have hbody := ends_codegenStmts body
      intro g v g' guarded scope e Q hgoing hpad hscope h
      obtain ⟨_, _, heq, ⟨steps⟩⟩ := codegenClass_ok h
      cases heq
      exact steps.outcome hgoing hpad hscope hbody
  | .methodDef name params body => by
      intro g v g' guarded scope e Q hgoing hpad hscope h
      obtain ⟨steps⟩ := codegenMethod_ok h
      exact (steps.going hgoing).outcome

theorem ends_codegenStmts : (ss : List Stmt) →
    Ends (codegenStmts ss) fun guarded scope => endsStmts guarded ss scope
  | [] => by
      rw [codegenStmts]
      exact ends_of_passes (stableExpr_passes.pure _)
  | [s] => by
      have hs := ends_codegenStmt s
      intro g v g' guarded scope e Q hgoing hpad hscope h
      obtain ⟨v', hrun, rfl⟩ := codegenStmts_singleton_ok.mp h
      simpa [endsStmts] using hs _ _ _ _ _ _ _ hgoing hpad hscope hrun
  | s :: s' :: ss => by
      have hs := ends_codegenStmt s
      have hss := ends_codegenStmts (s' :: ss)
      intro g v g' guarded scope e Q hgoing hpad hscope h
      obtain ⟨v', g₁, h₁, h₂⟩ := codegenStmts_cons_ok.mp h
      have hgrow₁ := grows_codegenStmt s _ _ _ hgoing.wellFormed h₁
      have hgrow₂ := grows_codegenStmts (s' :: ss) _ _ _ hgrow₁.wellFormed h₂
      obtain ⟨-, hscope₁⟩ := scopes_codegenStmt s _ _ _ _ hgoing.wellFormed hscope h₁
      have hpad₁ := (congrArg Option.isSome hgrow₁.landingpad).trans hpad
      exact (hs _ _ _ _ _ _ _ hgoing hpad hscope h₁).bind
        (fun h => hss _ _ _ _ _ _ _ h hpad₁ hscope₁ h₂) hgrow₂.toLonger

theorem endsRescues_codegenRescues : (rescuebks : List RescueBlock) → EndsRescues rescuebks
  | [] => endsRescues_nil
  | .mk _ _ statements :: rescuebks =>
      endsRescues_cons (ends_codegenStmts statements) (endsRescues_codegenRescues rescuebks)

end

/-! ### Programs -/

theorem going_unitBody : Going CodegenContext.unitBody 0 [] where
  wellFormed := wellFormed_unitBody
  entry := isEntry_unitBody
  pending :=
    { nodup := by decide
      fnOf := by decide
      openEnd := by decide
      sealed := fun b hb hfn => by
        obtain ⟨hlt, -⟩ := unitBody_fnOf.mp hfn
        simp only [List.mem_cons, List.not_mem_nil, or_false, not_or] at hb
        have hbuild : CodegenContext.unitBody.build = 1 := rfl
        omega }

theorem scoped_unitBody : Scoped CodegenContext.unitBody [] := fun _ => rfl

/-- **When every block of `pup_main` ends in its only terminator**: no rescue clause has
statements that move the builder. -/
theorem wellTerminated_iff {stmts : List Stmt} {g : CodegenContext}
    (h : generate stmts = .ok g) :
    (∀ b, g.fnOf b = some 0 → WellTerminated (g.instrs b)) ↔ endsStmts false stmts [] = true := by
  obtain ⟨v, g₁, hrun, rfl⟩ := generate_ok h
  have hfn : g₁.current_method.fn = 0 :=
    (grows_codegenStmts _ _ _ _ wellFormed_unitBody hrun).method
  have hout := ends_codegenStmts stmts _ _ _ false _ _ _ going_unitBody rfl scoped_unitBody hrun
  cases hends : endsStmts false stmts [] with
  | true =>
      have hgoing := hout.going hends
      have hret := (hgoing.pending.seal (t := .ret v) rfl).of_blocks
        ((g₁.emitAt g₁.build (.ret v)).moveTo 0) rfl rfl
      have hall := (hret.seal (t := .br 1) rfl).of_blocks (g₁.afterUnit v) rfl hfn.symm
      simp only [iff_true]
      exact fun b hb => status_sealed_iff.mp (hall.sealed b (by simp) hb)
  | false =>
      obtain ⟨b, hb, hstatus⟩ := (hout.broken hends).longer (longer_afterUnit v hfn)
      simp only [Bool.false_eq_true, iff_false]
      intro hall
      have hsealed := status_sealed_iff.mpr (hall b hb)
      rw [hstatus] at hsealed
      cases hsealed

/-- A `begin` whose clause has the value of a literal. -/
def rescueWithLiteral : List Stmt :=
  [.beginStmt [.expr (.int "1")] [.mk none none [.expr (.int "2")]] none none]

theorem wellTerminated_iff_literal : ∃ g, generate rescueWithLiteral = .ok g ∧
    ((∀ b, g.fnOf b = some 0 → WellTerminated (g.instrs b)) ↔
      endsStmts false rescueWithLiteral [] = true) := by
  obtain ⟨g, hg, -⟩ : ∃ g, generate rescueWithLiteral = .ok g ∧ g.blocks.length = 6 :=
    generated_of_map (by decide +kernel)
  exact ⟨g, hg, wellTerminated_iff hg⟩

/-- A `begin` with an `if` in its clause. -/
def rescueWithIf : List Stmt :=
  [.beginStmt [.expr (.int "1")]
    [.mk none none [.ifStmt (.bool true) [.expr (.int "2")] (some [.expr (.int "3")])]] none none]

/-- Block 4 is the block of the clause: it ends in the jump to the condition and in the jump
out of the clause. -/
theorem rescueWithIf_broken : ∃ g b, generate rescueWithIf = .ok g ∧ g.fnOf b = some 0 ∧
    ¬ WellTerminated (g.instrs b) := by
  obtain ⟨g, hg, hblock⟩ : ∃ g, generate rescueWithIf = .ok g ∧
      (g.fnOf 4, status (g.instrs 4)) = (some 0, .broken) :=
    generated_of_map (by decide +kernel)
  obtain ⟨hfn, hstatus⟩ := Prod.mk.inj hblock
  refine ⟨g, 4, hg, hfn, fun hended => ?_⟩
  rw [status_sealed_iff.mpr hended] at hstatus
  cases hstatus

end Pup.Codegen
