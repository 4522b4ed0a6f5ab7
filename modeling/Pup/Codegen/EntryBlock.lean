/-
The slots of a method and the terminator of its first block.

What a method needs a slot for gets it in the method's first block, through a builder of its own.
The other builder begins at the same block, and ends it where the method branches: a slot that is
made from then on stands behind the terminator.  `Walk` follows the text and keeps what decides
this: which locals there are, where the builder is, and whether a slot has come too late.
`slotsFirst_iff` is that the text decides it.
-/
import Pup.Codegen.Finished
import Pup.Codegen.Terminators

namespace Pup.Codegen

open Parse

variable {α β : Type} {g g' g₀ g₁ : CodegenContext} {e b : Nat}

/-! ### Slots -/

/-- No slot stands behind a terminator. -/
def SlotsFirst (is : List Instr) : Prop :=
  is.Pairwise fun t i => t.isTerminator → i.isSlot = false

instance (is : List Instr) : Decidable (SlotsFirst is) :=
  inferInstanceAs (Decidable (is.Pairwise _))

theorem slotsFirst_append_singleton {is : List Instr} {i : Instr} :
    SlotsFirst (is ++ [i]) ↔ SlotsFirst is ∧ (i.isSlot → status is = .openEnd) := by
  unfold SlotsFirst
  rw [List.pairwise_append, status_openEnd_iff]
  simp only [List.pairwise_singleton, List.mem_singleton, forall_eq, true_and]
  refine and_congr_right fun _ => ?_
  cases i.isSlot <;> simp

theorem slotsFirst_append_of_not_isSlot {is : List Instr} {i : Instr} (hi : i.isSlot = false) :
    SlotsFirst (is ++ [i]) ↔ SlotsFirst is := by
  rw [slotsFirst_append_singleton, hi]
  simp

theorem SlotsFirst.append {is : List Instr} {i : Instr} (h : status is = .openEnd) :
    SlotsFirst (is ++ [i]) ↔ SlotsFirst is := by
  rw [slotsFirst_append_singleton]
  exact and_iff_left fun _ => h

/-! ### What the text says -/

/-- Where the builder is, seen from the first block of the method. -/
inductive BuilderAt
  /-- At the first block, which is open. -/
  | first
  /-- At another block, while the first one is open. -/
  | away
  /-- At another block, and the first one has been ended. -/
  | ended
  deriving DecidableEq, Repr

/-- The builder ends its block and goes to another one. -/
def BuilderAt.leave : BuilderAt → BuilderAt
  | .first => .ended
  | b => b

/-- The builder goes to another block and leaves its block open. -/
def BuilderAt.aside : BuilderAt → BuilderAt
  | .first => .away
  | b => b

/-- `late` is that a slot has been made after the first block had been ended. -/
structure Walk where
  scope : List String
  builder : BuilderAt
  late : Bool
  deriving DecidableEq, Repr

namespace Walk

/-- A slot is made. -/
def slot (w : Walk) : Walk := { w with late := w.late || decide (w.builder = .ended) }

/-- A local that is not there gets its slot. -/
def declare (name : String) (w : Walk) : Walk :=
  if w.scope.contains name then w else { w.slot with scope := name :: w.scope }

def leave (w : Walk) : Walk := { w with builder := w.builder.leave }

def aside (w : Walk) : Walk := { w with builder := w.builder.aside }

/-- A method is invoked, with an array if it has arguments.  Under a landing pad the invocation
ends its block. -/
def invoke (guarded : Bool) (args : List Expr) (w : Walk) : Walk :=
  let passed := if args.isEmpty then w else w.slot
  if guarded then passed.leave else passed

end Walk

mutual

def walkExpr (guarded : Bool) : Expr → Walk → Walk
  | .assign (.name name) _ right, w => walkExpr guarded right (w.declare name)
  | .assign (.instVar _) _ right, w => walkExpr guarded right w
  | .varOrInvoke name args _ receiver, w =>
      if invokes name args receiver w.scope then
        (walkArgList guarded args (walkReceiver guarded receiver w)).invoke guarded (args.getD [])
      else w
  | .binary _ left _ right, w =>
      (walkExpr guarded right (walkExpr guarded left w)).invoke guarded [right]
  | _, w => w

def walkReceiver (guarded : Bool) : Option Expr → Walk → Walk
  | some receiver, w => walkExpr guarded receiver w
  | none, w => w

def walkArgList (guarded : Bool) : Option (List Expr) → Walk → Walk
  | some args, w => walkExprs guarded args w
  | none, w => w

def walkExprs (guarded : Bool) : List Expr → Walk → Walk
  | [], w => w
  | e :: es, w => walkExprs guarded es (walkExpr guarded e w)

end

/-- The tests of a clause are in blocks of their own. -/
def walkTypes (guarded : Bool) : List Expr → Walk → Walk
  | [], w => w
  | ex_type :: types, w => walkTypes guarded types (walkExpr guarded ex_type w).aside

/-- A clause up to its statements. -/
def walkEnter (guarded : Bool) (types : Option (List Expr)) (var_name : Option String)
    (w : Walk) : Walk :=
  let tested := (walkTypes guarded (types.getD defaultTypes) w).aside
  var_name.elim tested fun name => tested.declare name

mutual

def walkStmt (guarded : Bool) : Stmt → Walk → Walk
  | .expr e, w => walkExpr guarded e w
  | .ifStmt cond ifbk elsebk, w =>
      let tested := (walkExpr guarded cond w.slot.leave).leave
      (walkBlock guarded elsebk (walkStmts guarded ifbk tested).leave).leave
  | .whileStmt cond statements, w =>
      (walkStmts guarded statements (walkExpr guarded cond w.slot.leave).leave).leave
  | .beginStmt beginbk rescuebks _ _, w =>
      -- the body is left when the clauses have been generated
      let body := walkStmts true beginbk w.slot
      { walkRescues guarded rescuebks body.aside with builder := body.builder.leave }
  | .classDef _ _ body, w => walkBlock guarded body w
  | .methodDef .., w => w

def walkStmts (guarded : Bool) : List Stmt → Walk → Walk
  | [], w => w
  | s :: ss, w => walkStmts guarded ss (walkStmt guarded s w)

def walkBlock (guarded : Bool) : Option (List Stmt) → Walk → Walk
  | some statements, w => walkStmts guarded statements w
  | none, w => w

def walkRescues (guarded : Bool) : List RescueBlock → Walk → Walk
  | [], w => w
  | .mk types var_name statements :: rescuebks, w =>
      walkRescues guarded rescuebks
        (walkStmts guarded statements (walkEnter guarded types var_name w)).aside

end

def walkParams : List Param → Walk → Walk
  | [], w => w
  | .mk name _ :: params, w => walkParams params (w.declare name)

/-- A method, whose parameters are locals. -/
def walkMethod (guarded : Bool) : Option (List Param) → Option (List Stmt) → Walk
  | _, none => ⟨[], .first, false⟩
  | params, some body =>
      walkStmts guarded body (walkParams (params.getD []) ⟨[], .first, false⟩)

/-! ### What the text says of the code

`Tracks` is the invariant of the walk.  It says of each field of the `Walk` when it is so and not
only what follows from it, and so the walk finds all programs whose slots come too late and no
others.
-/

/-- The code is as the text says; `e` is the first block of the method. -/
structure Tracks (e : Nat) (w : Walk) (g : CodegenContext) : Prop where
  wellFormed : WellFormed g
  entry : IsEntry g e
  scope : Scoped g w.scope
  first : w.builder = .first ↔ g.build = e
  ended : w.builder = .ended ↔ status (g.instrs e) ≠ .openEnd
  late : w.late = false ↔ SlotsFirst (g.instrs e)

variable {w : Walk}

theorem BuilderAt.aside_ne_first (b : BuilderAt) : b.aside ≠ .first := by
  cases b <;> decide

theorem BuilderAt.aside_eq_ended_iff {b : BuilderAt} : b.aside = .ended ↔ b = .ended := by
  cases b <;> decide

theorem BuilderAt.leave_ne_first (b : BuilderAt) : b.leave ≠ .first := by
  cases b <;> decide

theorem BuilderAt.leave_eq_ended_iff {b : BuilderAt} : b.leave = .ended ↔ b ≠ .away := by
  cases b <;> decide

theorem Tracks.lt (h : Tracks e w g) : e < g.blocks.length :=
  CodegenContext.lt_of_fnOf (entry_iff.mp h.entry).1

/-- Nothing of the first block has changed, and the builder is where it was. -/
theorem Tracks.congr (h : Tracks e w g) (hg' : WellFormed g') (he : IsEntry g' e)
    (hlocals : g'.current_method.locals = g.current_method.locals)
    (hinstrs : g'.instrs e = g.instrs e) (hbuild : g'.build = g.build) : Tracks e w g' where
  wellFormed := hg'
  entry := he
  scope := h.scope.of_locals hlocals
  first := by
    rw [hbuild]
    exact h.first
  ended := by
    rw [hinstrs]
    exact h.ended
  late := by
    rw [hinstrs]
    exact h.late

/-- The builder has gone to another block, and has not ended its own. -/
theorem Tracks.elsewhere (h : Tracks e w g) (hg' : WellFormed g') (he : IsEntry g' e)
    (hlocals : g'.current_method.locals = g.current_method.locals)
    (hinstrs : g'.instrs e = g.instrs e) (hbuild : g'.build ≠ e) : Tracks e w.aside g' where
  wellFormed := hg'
  entry := he
  scope := h.scope.of_locals hlocals
  first := iff_of_false w.builder.aside_ne_first hbuild
  ended := by
    rw [hinstrs, ← h.ended]
    exact BuilderAt.aside_eq_ended_iff
  late := by
    rw [hinstrs]
    exact h.late

/-- What is added to an open block is behind no terminator. -/
theorem Tracks.late_emitAt (h : Tracks e w g) (i : Instr) :
    SlotsFirst ((g.emitAt g.build i).instrs e) ↔ SlotsFirst (g.instrs e) := by
  by_cases heq : e = g.build
  · have hopen : status (g.instrs e) = .openEnd := by
      by_contra hne
      have hended := h.ended.mpr hne
      rw [h.first.mpr heq.symm] at hended
      cases hended
    rw [← heq, CodegenContext.emitAt_instrs_self h.lt]
    exact SlotsFirst.append hopen
  · rw [CodegenContext.emitAt_instrs_ne heq]

/-- The builder has ended its block and has gone to another one. -/
theorem Tracks.left (h : Tracks e w g) (hg' : WellFormed g') (he : IsEntry g' e)
    (hlocals : g'.current_method.locals = g.current_method.locals) {t : Instr}
    (ht : t.isTerminator) (hinstrs : g'.instrs e = (g.emitAt g.build t).instrs e)
    (hbuild : g'.build ≠ e) : Tracks e w.leave g' where
  wellFormed := hg'
  entry := he
  scope := h.scope.of_locals hlocals
  first := iff_of_false w.builder.leave_ne_first hbuild
  ended := by
    rw [hinstrs]
    show w.builder.leave = .ended ↔ _
    rw [BuilderAt.leave_eq_ended_iff]
    by_cases heq : e = g.build
    · have hfirst := h.first.mpr heq.symm
      rw [← heq, CodegenContext.emitAt_instrs_self h.lt]
      refine iff_of_true ?_ fun hopen => ?_
      · rw [hfirst]
        decide
      · have hall := status_openEnd_iff.mp hopen t (by simp)
        rw [ht] at hall
        cases hall
    · rw [CodegenContext.emitAt_instrs_ne heq, ← h.ended]
      have hne : w.builder ≠ .first := fun hfirst => heq (h.first.mp hfirst).symm
      cases hbuilder : w.builder with
      | first => exact absurd hbuilder hne
      | away => decide
      | ended => decide
  late := by
    rw [hinstrs, h.late_emitAt]
    exact h.late

/-- An instruction has been added where the builder is. -/
theorem Tracks.emitted (h : Tracks e w g) (hgrow : Grow g g')
    (hlocals : g'.current_method.locals = g.current_method.locals) {i : Instr}
    (hi : i.isTerminator = false) (hinstrs : g'.instrs e = (g.emitAt g.build i).instrs e)
    (hbuild : g'.build = g.build) : Tracks e w g' where
  wellFormed := hgrow.wellFormed
  entry := hgrow.isEntry h.entry
  scope := h.scope.of_locals hlocals
  first := by
    rw [hbuild]
    exact h.first
  ended := by
    rw [hinstrs, h.ended]
    by_cases heq : e = g.build
    · rw [← heq, CodegenContext.emitAt_instrs_self h.lt, Ne, Ne, status_openEnd_iff,
        status_openEnd_iff]
      simp [or_imp, forall_and, hi]
    · rw [CodegenContext.emitAt_instrs_ne heq]
  late := by
    rw [hinstrs, h.late_emitAt]
    exact h.late

theorem Tracks.emit (h : Tracks e w g) {i : Instr} (hi : i.isTerminator = false)
    (hr : i.result = none) : Tracks e w (g.emitAt g.build i) :=
  h.emitted ((Grow.refl h.wellFormed).emitHere hr) rfl hi rfl rfl

theorem Tracks.emitNew (h : Tracks e w g) {i : Nat → Instr}
    (hi : ∀ r, (i r).isTerminator = false) (hr : ∀ r, (i r).result = some r) :
    Tracks e w (g.emitNew g.build i) :=
  h.emitted ((Grow.refl h.wellFormed).emitNewHere hr) rfl (hi g.next) rfl rfl

/-- A slot is made, and it is late when the first block has been ended. -/
theorem Tracks.slot (h : Tracks e w g) {i : Nat → Instr} (hi : ∀ r, (i r).isSlot)
    (hr : ∀ r, (i r).result = some r) : Tracks e w.slot (g.emitNew e i) := by
  have hgrow := (Grow.refl h.wellFormed).emitNewEntry h.wellFormed h.entry hi hr
  have hinstrs : (g.emitNew e i).instrs e = g.instrs e ++ [i g.next] :=
    CodegenContext.emitAt_instrs_self h.lt _
  refine ⟨hgrow.wellFormed, hgrow.isEntry h.entry, h.scope.of_locals rfl, h.first, ?_, ?_⟩
  · rw [hinstrs]
    refine h.ended.trans ?_
    rw [Ne, Ne, status_openEnd_iff, status_openEnd_iff]
    simp [or_imp, forall_and, Instr.isTerminator_of_isSlot (hi g.next)]
  · rw [hinstrs, slotsFirst_append_singleton, ← h.late]
    have hended := h.ended
    unfold Walk.slot
    by_cases hopen : status (g.instrs e) = .openEnd
    · have hne : w.builder ≠ .ended := fun heq => hended.mp heq hopen
      simp [hopen, hne]
    · simp [hopen, hended.mpr hopen, hi g.next]

theorem Walk.slot_slot (w : Walk) : w.slot.slot = w.slot := by
  unfold Walk.slot
  simp

theorem Walk.declare_of_contains {name : String} (h : w.scope.contains name = true) :
    w.declare name = w := if_pos h

theorem Walk.declare_of_not_contains {name : String} (h : w.scope.contains name = false) :
    w.declare name = { w.slot with scope := name :: w.scope } :=
  if_neg (by rw [h]; exact Bool.false_ne_true)

theorem Tracks.withLocal (h : Tracks e w g) {name : String} (hname : w.scope.contains name = false) :
    Tracks e (w.declare name) (g.withLocal e name) := by
  have hlookup : g.current_method.locals.lookup name = none := by
    have hnone := h.scope name
    rw [hname] at hnone
    simpa using hnone
  have hgrow := grow_withLocal h.wellFormed h.entry hlookup
  have hslot := ((h.slot (i := .alloca) (fun _ => rfl) fun _ => rfl).slot
    (i := fun c => .bitCast c (.reg g.next)) (fun _ => rfl) fun _ => rfl).slot
      (i := fun c => .call c "llvm.gcroot" [.reg (g.next + 1), .null]) (fun _ => rfl) fun _ => rfl
  rw [Walk.slot_slot, Walk.slot_slot] at hslot
  rw [Walk.declare_of_not_contains hname]
  refine ⟨hgrow.wellFormed, hgrow.isEntry h.entry, fun name' => ?_, h.first, hslot.ended,
    hslot.late⟩
  show (((name, g.next) :: g.current_method.locals).lookup name').isSome =
    (name :: w.scope).contains name'
  have hrest := h.scope name'
  by_cases heq : name' = name
  · simp [heq]
  · have hne : (name' == name) = false := by simpa using heq
    simp [List.lookup_cons, hne, hrest, heq]

/-! ### Pieces -/

/-- What is generated is as the text says. -/
def Walks (m : Gen α) (f : Bool → Walk → Walk) : Prop :=
  ∀ g a g' e w, Tracks e w g → m g = .ok (a, g') →
    Tracks e (f g.landingpad.isSome w) g' ∧ g'.landingpad = g.landingpad

theorem Walks.bind {x : Gen α} {k : α → Gen β} {f f' : Bool → Walk → Walk} (hx : Walks x f)
    (hk : ∀ a, Walks (k a) f') :
    Walks (x >>= k) fun guarded w => f' guarded (f guarded w) := by
  intro g b g' e w h hrun
  obtain ⟨a, g₁, h₁, h₂⟩ := bind_ok.mp hrun
  obtain ⟨htracks, hpad⟩ := hx g a g₁ e w h h₁
  obtain ⟨htracks', hpad'⟩ := hk a g₁ b g' e _ htracks h₂
  rw [hpad] at htracks'
  exact ⟨htracks', hpad'.trans hpad⟩

theorem Walks.run {m : Gen α} {f : Bool → Walk → Walk} (hm : Walks m f) {a : α} {guarded : Bool}
    (h : Tracks e w g) (hpad : g.landingpad.isSome = guarded) (hrun : m g = .ok (a, g')) :
    Tracks e (f guarded w) g' ∧ g'.landingpad.isSome = guarded := by
  obtain ⟨htracks, hpad'⟩ := hm g a g' e w h hrun
  rw [hpad] at htracks
  exact ⟨htracks, (congrArg Option.isSome hpad').trans hpad⟩

/-- Nothing that the text is followed for. -/
abbrev Still (m : Gen α) : Prop := Walks m fun _ w => w

theorem Still.before {x : Gen α} {k : α → Gen β} {f : Bool → Walk → Walk} (hx : Still x)
    (hk : ∀ a, Walks (k a) f) : Walks (x >>= k) f := hx.bind hk

theorem walks_throw (error : Error) (f : Bool → Walk → Walk) : Walks (throw error : Gen α) f :=
  fun _ _ _ _ _ _ h => absurd h throw_ok

theorem still_pure (a : α) : Still (pure a : Gen α) := by
  intro g b g' e w h hrun
  obtain ⟨-, rfl⟩ := pure_ok.mp hrun
  exact ⟨h, rfl⟩

theorem still_get : Still (get : Gen CodegenContext) := by
  intro g a g' e w h hrun
  obtain ⟨-, rfl⟩ := get_ok.mp hrun
  exact ⟨h, rfl⟩

theorem still_emit {i : Instr} (hi : i.isTerminator = false) (hr : i.result = none) :
    Still (emit i) := by
  intro g u g' e w h hrun
  obtain rfl := emit_ok.mp hrun
  exact ⟨h.emit hi hr, rfl⟩

theorem still_emitReg {i : Nat → Instr} (hi : ∀ r, (i r).isTerminator = false)
    (hr : ∀ r, (i r).result = some r) : Still (emitReg i) := by
  intro g v g' e w h hrun
  obtain ⟨-, rfl⟩ := emitReg_ok.mp hrun
  exact ⟨h.emitNew hi hr, rfl⟩

theorem still_buildCall (fn : String) (args : List Operand) : Still (buildCall fn args) :=
  still_emitReg (fun _ => rfl) fun _ => rfl

theorem still_mkSym (name : String) : Still (mkSym name) := still_buildCall _ _

theorem still_getLocal (name : String) : Still (getLocal name) := by
  intro g v g' e w h hrun
  obtain ⟨-, rfl⟩ := Prod.mk.inj (Except.ok.inj hrun)
  exact ⟨h, rfl⟩

theorem still_localAccess (name : String) : Still (localAccess name) := by
  refine (still_getLocal name).before fun found => ?_
  cases found with
  | some localSlot => exact still_emitReg (fun _ => rfl) fun _ => rfl
  | none => exact walks_throw _ _

theorem still_constAccess (name : String) : Still (constAccess name) :=
  still_get.before fun _ => (still_buildCall _ _).before fun _ => (still_mkSym name).before fun _ =>
    still_buildCall _ _

theorem still_openClass (name : String) : Still (openClass name) :=
  (still_buildCall _ _).before fun _ => still_get.before fun _ =>
    (still_buildCall _ _).before fun _ => (still_buildCall _ _).before fun _ =>
      (still_mkSym name).before fun _ =>
        (still_emitReg (fun _ => rfl) fun _ => rfl).before fun _ =>
          (still_buildCall _ _).before fun _ => still_pure _

theorem still_defineMethod (name : String) (fn : Nat) : Still (defineMethod name fn) :=
  (still_mkSym name).before fun _ => still_get.before fun _ => still_buildCall _ _

theorem still_storeArgs (argv : Operand) (args : List Operand) :
    ∀ i, Still (storeArgs argv i args) := by
  induction args with
  | nil => exact fun _ => still_pure ()
  | cons arg args ih =>
      intro i
      exact (still_emitReg (fun _ => rfl) fun _ => rfl).before fun _ =>
        (still_emit rfl rfl).before fun _ => ih (i + 1)

theorem walks_getOrCreateLocal (name : String) :
    Walks (getOrCreateLocal name) fun _ w => w.declare name := by
  intro g v g' e w h hrun
  rw [getOrCreateLocal, bind_ok] at hrun
  obtain ⟨found, _, hget, hrun⟩ := hrun
  obtain ⟨rfl, rfl⟩ := Prod.mk.inj (Except.ok.inj hget)
  have hscope := h.scope name
  cases hlookup : g.current_method.locals.lookup name with
  | some slot =>
      rw [hlookup] at hrun hscope
      obtain ⟨-, rfl⟩ := pure_ok.mp hrun
      refine ⟨?_, rfl⟩
      show Tracks e (w.declare name) g'
      rw [Walk.declare_of_contains hscope.symm]
      exact h
  | none =>
      rw [hlookup] at hrun hscope
      obtain ⟨e', he, rfl, rfl⟩ := createLocal_ok h.wellFormed hrun
      obtain rfl := he.unique h.entry
      exact ⟨h.withLocal hscope.symm, rfl⟩

theorem walks_buildArgv (args : List Operand) :
    Walks (buildArgv args) fun _ w => if args.isEmpty then w else w.slot := by
  intro g v g' e w h hrun
  show Tracks e (if args.isEmpty then w else w.slot) g' ∧ _
  unfold buildArgv at hrun
  split at hrun
  · next hempty =>
      rw [if_pos hempty]
      exact still_pure _ g v g' e w h hrun
  · next hempty =>
      rw [if_neg hempty]
      simp only [bind_ok, emitRegAt_ok, pure_ok] at hrun
      obtain ⟨e', _, he, r, _, ⟨rfl, rfl⟩, _, _, hstore, rfl, rfl⟩ := hrun
      obtain ⟨he, rfl⟩ := entryBlockBuilder_ok h.wellFormed he
      obtain rfl := he.unique h.entry
      have hslot := h.slot (i := fun r => .arrayAlloca r args.length) (fun _ => rfl) fun _ => rfl
      obtain ⟨hstored, hpad⟩ := still_storeArgs _ args 0 _ _ _ _ _ hslot hstore
      exact ⟨hstored, hpad⟩

/-- A block that is appended does not change where an instruction goes. -/
theorem CodegenContext.append_emitAt_instrs (hb : b < g.blocks.length) (name : String) (i : Instr)
    (c : Nat) : ((g.append name).emitAt b i).instrs c = (g.emitAt b i).instrs c := by
  by_cases heq : c = b
  · rw [heq, emitAt_instrs_self hb, emitAt_instrs_self, append_instrs]
    rw [append_length]
    exact Nat.lt_succ_of_lt hb
  · rw [emitAt_instrs_ne heq, emitAt_instrs_ne heq, append_instrs]

/-- An invocation has an array if it has arguments, and ends its block under a landing pad. -/
theorem walks_buildMethodInvocation {receiver : Operand} {name : String} {args : List Operand}
    {es : List Expr} (hargs : args.isEmpty = es.isEmpty) :
    Walks (buildMethodInvocation receiver name args) fun guarded w => w.invoke guarded es := by
  intro g v g' e w h hrun
  rw [buildMethodInvocation, bind_ok] at hrun
  obtain ⟨argv, g₁, hargv, hrun⟩ := hrun
  obtain ⟨sym, g₂, hsym, hrun⟩ := bind_ok.mp hrun
  obtain ⟨h₁, hpad₁⟩ := walks_buildArgv args g argv g₁ e w h hargv
  obtain ⟨h₂, hpad₂⟩ := still_mkSym name g₁ sym g₂ e _ h₁ hsym
  have hpad := hpad₂.trans hpad₁
  rw [hargs] at h₂
  rw [bind_ok] at hrun
  obtain ⟨_, _, hget, hrun⟩ := hrun
  rw [(get_ok.mp hget).1, (get_ok.mp hget).2, hpad] at hrun
  unfold Walk.invoke
  cases hsome : g.landingpad with
  | none =>
      simp only [hsome] at hrun
      obtain ⟨h₃, hpad₃⟩ := still_buildCall _ _ g₂ v g' e _ h₂ hrun
      exact ⟨h₃, hpad₃.trans (hpad.trans hsome)⟩
  | some pad =>
      simp only [hsome, bind_ok, appendBlock_ok, emitReg_ok, positionAtEnd_ok, pure_ok] at hrun
      obtain ⟨_, _, ⟨rfl, rfl⟩, _, _, ⟨rfl, rfl⟩, _, _, rfl, rfl, rfl⟩ := hrun
      have hgrow := grow_invoked h₂.wellFormed s!"invoke_{name}_continue" (i := fun r =>
        .invoke r "pup_invoke" [.env, receiver, sym, .int args.length, argv] g₂.blocks.length pad)
          fun _ => rfl
      refine ⟨h₂.left hgrow.wellFormed (hgrow.isEntry h₂.entry) rfl
        (t := .invoke g₂.next "pup_invoke" [.env, receiver, sym, .int args.length, argv]
          g₂.blocks.length pad) rfl ?_ h₂.lt.ne', hpad.trans hsome⟩
      exact CodegenContext.append_emitAt_instrs h₂.wellFormed.build_lt _ _ e

theorem walks_codegenBinary {class_ : BinaryClass} {op : String} {lhs rhs : Operand}
    {right : Expr} :
    Walks (codegenBinary class_ op lhs rhs) fun guarded w => w.invoke guarded [right] := by
  unfold codegenBinary
  cases operatorMethod class_ op with
  | some name => exact walks_buildMethodInvocation rfl
  | none => exact walks_throw _ _

/-! ### Expressions -/

theorem codegenExprs_isEmpty {es : List Expr} {args : List Operand}
    (h : codegenExprs es g = .ok (args, g')) : args.isEmpty = es.isEmpty := by
  cases es with
  | nil =>
      rw [codegenExprs, pure_ok] at h
      rw [h.1]
      rfl
  | cons e es =>
      simp only [codegenExprs, bind_ok, pure_ok] at h
      obtain ⟨v, _, -, vs, _, -, rfl, -⟩ := h
      rfl

theorem codegenArgList_isEmpty {es : Option (List Expr)} {args : List Operand}
    (h : codegenArgList es g = .ok (args, g')) : args.isEmpty = (es.getD []).isEmpty := by
  cases es with
  | none =>
      rw [codegenArgList, pure_ok] at h
      rw [h.1]
      rfl
  | some es =>
      rw [codegenArgList] at h
      exact codegenExprs_isEmpty h

mutual

theorem walks_codegenExpr :
    (e : Expr) → Walks (codegenExpr e) fun guarded w => walkExpr guarded e w
  | .assign (.name name) _ right => by
      simp only [codegenExpr, walkExpr]
      exact (walks_getOrCreateLocal name).bind fun _ => (walks_codegenExpr right).bind fun _ =>
        (still_emit rfl rfl).before fun _ => still_pure _
  | .assign (.instVar name) _ right => by
      simp only [codegenExpr, walkExpr]
      exact (walks_codegenExpr right).bind fun _ => (still_mkSym name).before fun _ =>
        still_get.before fun _ => (still_buildCall _ _).before fun _ => still_pure _
  | .varOrInvoke name args _ receiver => by
      have hreceiver := walks_codegenReceiver receiver
      have hargs := walks_codegenArgList args
      intro g v g' e w h hrun
      rw [codegenExpr] at hrun
      show Tracks e (walkExpr g.landingpad.isSome _ w) g' ∧ _
      rw [walkExpr]
      unfold invokes
      split at hrun
      · next hconst =>
          rw [hconst]
          exact still_constAccess _ g v g' e w h hrun
      · next hconst =>
          rw [bind_ok] at hrun
          obtain ⟨found, _, hlocal, hrun⟩ := hrun
          obtain ⟨rfl, rfl⟩ := isLocal_ok h.scope hlocal
          rw [Bool.not_eq_true] at hconst
          rw [hconst]
          split at hrun
          · next hfound =>
              rw [hfound]
              exact still_localAccess _ _ v g' e w h hrun
          · next hfound =>
              rw [Bool.not_eq_true] at hfound
              rw [hfound]
              simp only [bind_ok] at hrun
              obtain ⟨r, g₁, hr, vs, g₂, hvs, hrun⟩ := hrun
              obtain ⟨h₁, hpad₁⟩ := hreceiver _ _ _ _ _ h hr
              obtain ⟨h₂, hpad₂⟩ := hargs _ _ _ _ _ h₁ hvs
              obtain ⟨h₃, hpad₃⟩ := walks_buildMethodInvocation (codegenArgList_isEmpty hvs) _ _ _ _
                _ h₂ hrun
              have hpad := hpad₂.trans hpad₁
              rw [hpad, hpad₁] at h₃
              exact ⟨h₃, hpad₃.trans hpad⟩
  | .instVar name => by
      simp only [codegenExpr, walkExpr]
      exact (still_mkSym name).before fun _ => still_get.before fun _ => still_buildCall _ _
  | .binary class_ left op right => by
      simp only [codegenExpr, walkExpr]
      exact (walks_codegenExpr left).bind fun _ => (walks_codegenExpr right).bind fun _ =>
        walks_codegenBinary
  | .string source => by
      simp only [codegenExpr, walkExpr]
      exact still_buildCall _ _
  | .int source => by
      simp only [codegenExpr, walkExpr]
      exact still_buildCall _ _
  | .bool true => by
      simp only [codegenExpr, walkExpr]
      exact still_buildCall _ _
  | .bool false => by
      simp only [codegenExpr, walkExpr]
      exact still_buildCall _ _
  | .selfExpr => by
      simp only [codegenExpr, walkExpr]
      exact still_get.before fun _ => still_pure _

theorem walks_codegenReceiver : (receiver : Option Expr) →
    Walks (codegenReceiver receiver) fun guarded w => walkReceiver guarded receiver w
  | some receiver => by
      simp only [codegenReceiver, walkReceiver]
      exact walks_codegenExpr receiver
  | none => by
      simp only [codegenReceiver, walkReceiver]
      exact still_get.before fun _ => still_pure _

theorem walks_codegenArgList : (args : Option (List Expr)) →
    Walks (codegenArgList args) fun guarded w => walkArgList guarded args w
  | some args => by
      simp only [codegenArgList, walkArgList]
      exact walks_codegenExprs args
  | none => by
      simp only [codegenArgList, walkArgList]
      exact still_pure _

theorem walks_codegenExprs :
    (es : List Expr) → Walks (codegenExprs es) fun guarded w => walkExprs guarded es w
  | [] => by
      simp only [codegenExprs, walkExprs]
      exact still_pure _
  | e :: es => by
      simp only [codegenExprs, walkExprs]
      exact (walks_codegenExpr e).bind fun _ => (walks_codegenExprs es).bind fun _ => still_pure _

end

/-! ### Statements -/

/-- A block that the builder may be put at is not the first one, if the builder was not there. -/
theorem Reach.ne {g₀ : CodegenContext} (h : Reach g₀ g b) (he : e < g₀.blocks.length)
    (hne : g₀.build ≠ e) : b ≠ e := by
  rcases h.allowed with heq | hle
  · rw [heq]
    exact hne
  · omega

theorem jumpedTo_instrs (bkrescue : Nat) {tests : List (Nat × Operand × Nat)}
    (htests : ∀ t ∈ tests, t.1 ≠ e) : (g.jumpedTo bkrescue tests).instrs e = g.instrs e := by
  induction tests generalizing g with
  | nil => rfl
  | cons t tests ih =>
      obtain ⟨ht, htests⟩ := List.forall_mem_cons.mp htests
      exact (ih htests).trans (CodegenContext.emitAt_instrs_ne (g := g.moveTo t.1) ht.symm _)

theorem jumpedOut_instrs (bkout : Nat) {impls : List Nat} (himpls : ∀ b ∈ impls, b ≠ e) :
    (g.jumpedOut bkout impls).instrs e = g.instrs e := by
  induction impls generalizing g with
  | nil => rfl
  | cons b impls ih =>
      obtain ⟨hb, himpls⟩ := List.forall_mem_cons.mp himpls
      exact (ih himpls).trans (CodegenContext.emitAt_instrs_ne (g := g.moveTo b) hb.symm _)

variable {result v : Operand} {cond : Expr} {guarded : Bool}

section Branches

variable {c : Nat} {bs : List Nat}

theorem Tracks.leftFor (h : Tracks e w g) (hframe : Frame g₀ (g'.moveTo c) bs) (he : IsEntry g₀ e)
    (hlocals : g'.current_method.locals = g.current_method.locals) {t : Instr}
    (ht : t.isTerminator) (hinstrs : g'.instrs e = (g.emitAt g.build t).instrs e) (hc : c ≠ e) :
    Tracks e w.leave (g'.moveTo c) :=
  h.left hframe.grow.wellFormed (hframe.grow.isEntry he) hlocals ht hinstrs hc

theorem Tracks.branched (h : Tracks e w g) {val : Operand} {ifFalse otherwise : Nat}
    (hframe : Frame g₀ ((g.branched val ifFalse otherwise).moveTo c) bs) (he : IsEntry g₀ e)
    (hc : c ≠ e) : Tracks e w.leave ((g.branched val ifFalse otherwise).moveTo c) :=
  ((h.emitNew (i := fun r => .call r "pup_env_get_falseinstance" [.env]) (fun _ => rfl)
    fun _ => rfl).emitNew (i := fun r => .icmpEq r val (.reg g.next)) (fun _ => rfl)
      fun _ => rfl).leftFor hframe he rfl (t := .cond (.reg (g.next + 1)) ifFalse otherwise) rfl rfl
        hc

theorem Tracks.leaving (h : Tracks e w g) {target : Nat}
    (hframe : Frame g₀ ((g.leaving v result target).moveTo c) bs) (he : IsEntry g₀ e)
    (hc : c ≠ e) : Tracks e w.leave ((g.leaving v result target).moveTo c) :=
  (h.emit (i := .store v result) rfl rfl).leftFor hframe he rfl (t := .br target) rfl rfl hc

theorem Tracks.looped (h : Tracks e w g) {target : Nat}
    (hframe : Frame g₀ ((g.looped v result target).moveTo c) bs) (he : IsEntry g₀ e)
    (hc : c ≠ e) : Tracks e w.leave ((g.looped v result target).moveTo c) :=
  ((h.emit (i := .store v result) rfl rfl).emitNew
    (i := fun r => .call r "pup_env_safepoint" [.env]) (fun _ => rfl) fun _ => rfl).leftFor hframe
      he rfl (t := .br target) rfl rfl hc

end Branches

theorem IfSteps.walks {ifbk elsebk : List Stmt} (steps : IfSteps g result cond ifbk elsebk v g')
    (h : Tracks e w g) (hpad : g.landingpad.isSome = guarded)
    (hif : Walks (codegenStmts ifbk) fun guarded w => walkStmts guarded ifbk w)
    (helse : Walks (codegenStmts elsebk) fun guarded w => walkStmts guarded elsebk w) :
    Tracks e (walkStmts guarded elsebk
      (walkStmts guarded ifbk (walkExpr guarded cond w.leave).leave).leave).leave g' := by
  have hlt := h.lt
  have hframe := Frame.start h.wellFormed
  have hcond : Tracks e w.leave (g.ifBlocks.moveTo g.blocks.length) := by
    refine h.leftFor hframe.atIfCond h.entry rfl (t := .br g.blocks.length) rfl ?_ hlt.ne'
    unfold CodegenContext.ifBlocks
    rw [CodegenContext.append_instrs, CodegenContext.append_instrs, CodegenContext.append_instrs]
    exact CodegenContext.append_emitAt_instrs h.wellFormed.build_lt _ _ e
  obtain ⟨h₁, hpad₁⟩ := (walks_codegenExpr cond).run hcond hpad steps.cond
  obtain ⟨h₂, hpad₂⟩ := hif.run (h₁.branched (steps.atIf hframe) h.entry (by omega)) hpad₁
    steps.ifbk
  have hatElse := steps.atElse hframe (grows_codegenStmts ifbk)
  obtain ⟨h₃, -⟩ := helse.run (h₂.leaving hatElse h.entry (by omega)) hpad₂ steps.elsebk
  have hafter := ((hatElse.run fun hg => grows_codegenStmts elsebk _ _ _ hg steps.elsebk).run
    fun hg => grow_leaving hg steps.velse result (g.blocks.length + 3)).moveTo
      (b := g.blocks.length + 3) (by simp)
  rw [steps.last]
  exact (h₃.leaving hafter h.entry (by omega)).emitNew (fun _ => rfl) fun _ => rfl

theorem WhileSteps.walks {statements : List Stmt}
    (steps : WhileSteps g result cond statements v g') (h : Tracks e w g)
    (hpad : g.landingpad.isSome = guarded)
    (hstatements : Walks (codegenStmts statements) fun guarded w => walkStmts guarded statements w) :
    Tracks e (walkStmts guarded statements (walkExpr guarded cond w.leave).leave).leave g' := by
  have hlt := h.lt
  have hframe := Frame.start h.wellFormed
  have hcond : Tracks e w.leave (g.whileBlocks.moveTo g.blocks.length) := by
    refine h.leftFor hframe.atWhileCond h.entry rfl (t := .br g.blocks.length) rfl ?_ hlt.ne'
    unfold CodegenContext.whileBlocks
    rw [CodegenContext.append_instrs, CodegenContext.append_instrs]
    exact CodegenContext.append_emitAt_instrs h.wellFormed.build_lt _ _ e
  obtain ⟨h₁, hpad₁⟩ := (walks_codegenExpr cond).run hcond hpad steps.cond
  have hatBody := steps.atBody hframe
  obtain ⟨h₂, -⟩ := hstatements.run (h₁.branched hatBody h.entry (by omega)) hpad₁ steps.body
  have hafter := ((hatBody.run fun hg => grows_codegenStmts statements _ _ _ hg steps.body).run
    fun hg => grow_looped hg steps.vbody result g.blocks.length).moveTo
      (b := g.blocks.length + 2) (by simp)
  rw [steps.last]
  exact (h₂.looped hafter h.entry (by omega)).emitNew (fun _ => rfl) fun _ => rfl

/-! ### Landing pads -/

theorem Tracks.codegenTypes {asobj : Operand} {types : List Expr}
    {tests : List (Nat × Operand × Nat)} (h : Tracks e w g) (hpad : g.landingpad.isSome = guarded)
    (hrun : codegenTypes asobj types g = .ok (tests, g')) :
    Tracks e (walkTypes guarded types w) g' ∧ g'.landingpad.isSome = guarded := by
  induction types generalizing g w tests with
  | nil =>
      rw [Codegen.codegenTypes, pure_ok] at hrun
      obtain ⟨-, rfl⟩ := hrun
      exact ⟨h, hpad⟩
  | cons ex_type types ih =>
      obtain ⟨steps⟩ := codegenTypes_ok hrun
      obtain ⟨h₁, hpad₁⟩ := (walks_codegenExpr ex_type).run h hpad steps.type
      have hat := steps.atOthers (Frame.start h.wellFormed)
      have htested := h₁.emitNew (i := fun r =>
        .call r "pup_is_descendant_or_same" [steps.expected, asobj]) (fun _ => rfl) fun _ => rfl
      refine ih (htested.elsewhere hat.grow.wellFormed (hat.grow.isEntry h.entry) rfl ?_ h₁.lt.ne')
        hpad₁ steps.others
      exact CodegenContext.append_instrs _ e

/-- A clause up to its statements, in a landing pad. -/
theorem EnterSteps.walks {types : Option (List Expr)} {var_name : Option String}
    {excep asobj : Operand} {bkrescue next : Nat}
    (steps : EnterSteps g (types.getD defaultTypes) var_name excep asobj bkrescue next g')
    (h : Tracks e w g) (hpad : g.landingpad.isSome = guarded) (hne : g.build ≠ e) :
    Tracks e (walkEnter guarded types var_name w) g' ∧ g'.landingpad.isSome = guarded := by
  obtain ⟨tests, g₁, htypes, rfl, rfl, hbound⟩ := steps
  have hframe := Frame.start h.wellFormed
  obtain ⟨h₁, hpad₁⟩ := h.codegenTypes hpad htypes
  have htests : ∀ t ∈ tests, t.1 ≠ e := fun t ht =>
    ((hframe.codegenTypes htypes).reach t.1
      (List.mem_append_left _ (List.mem_map_of_mem ht))).ne h.lt hne
  have hat := hframe.atBound htypes
  have h₂ : Tracks e (walkTypes guarded (types.getD defaultTypes) w).aside
      (((g₁.append "rescue_impl").jumpedTo g₁.blocks.length tests).moveTo g₁.blocks.length) :=
    h₁.elsewhere hat.grow.wellFormed (hat.grow.isEntry h.entry)
      (congrArg MethodRef.locals (CodegenContext.jumpedTo_method _ tests _))
      ((jumpedTo_instrs _ htests).trans (CodegenContext.append_instrs _ e)) h₁.lt.ne'
  have hpad₂ := (congrArg Option.isSome hat.grow.landingpad).trans hpad
  unfold walkEnter
  cases var_name with
  | none => exact hbound.symm ▸ ⟨h₂, hpad₂⟩
  | some name =>
      obtain ⟨slot, g₂, hslot, rfl⟩ := hbound
      obtain ⟨h₃, hpad₃⟩ := (walks_getOrCreateLocal name).run h₂ hpad₂ hslot
      exact ⟨h₃.emit rfl rfl, hpad₃⟩

/-- The clauses of a landing pad, which is not the first block. -/
def WalksRescues (rescuebks : List RescueBlock) : Prop :=
  ∀ g result excep asobj impls g' e w guarded, Tracks e w g → g.landingpad.isSome = guarded →
    g.build ≠ e → codegenRescues rescuebks result excep asobj g = .ok (impls, g') →
      Tracks e (walkRescues guarded rescuebks w) g'

theorem walksRescues_nil : WalksRescues [] := by
  intro g result excep asobj impls g' e w guarded h _ _ hrun
  rw [codegenRescues, pure_ok] at hrun
  obtain ⟨-, rfl⟩ := hrun
  exact h

theorem walksRescues_cons {types : Option (List Expr)} {var_name : Option String}
    {statements : List Stmt} {rescuebks : List RescueBlock}
    (hstatements : Walks (codegenStmts statements) fun guarded w => walkStmts guarded statements w)
    (hothers : WalksRescues rescuebks) :
    WalksRescues (.mk types var_name statements :: rescuebks) := by
  intro g result excep asobj impls g' e w guarded h hpad hne hrun
  obtain ⟨steps⟩ := codegenRescues_ok hrun
  have hframe := Frame.start h.wellFormed
  obtain ⟨h₁, hpad₁⟩ := steps.enter.walks h hpad hne
  obtain ⟨h₂, hpad₂⟩ := hstatements.run h₁ hpad₁ steps.statements
  have hnext : steps.next ≠ e :=
    ((hframe.enterRescue steps.enter).reach steps.next (.tail _ (.head _))).ne h.lt hne
  have hat := (steps.atOthers hframe (grows_codegenStmts statements)).grow
  have hstored := h₂.emit (i := .store steps.v result) rfl rfl
  exact hothers _ _ _ _ _ _ _ _ _ (hstored.elsewhere hat.wellFormed (hat.isEntry h.entry) rfl rfl
    hnext) hpad₂ hnext steps.others

/-- What a block that the builder is not at is given is slots. -/
theorem Grow.status_openEnd_iff (h : Grow g g') (he : e < g.blocks.length) (hne : g.build ≠ e) :
    status (g'.instrs e) = .openEnd ↔ status (g.instrs e) = .openEnd := by
  rcases h.kept e he hne.symm with hsame | ⟨-, added, hadded, hslots⟩
  · rw [hsame]
  · rw [hadded, Codegen.status_openEnd_iff, Codegen.status_openEnd_iff]
    constructor
    · intro hall i hi
      exact hall i (List.mem_append_left _ hi)
    · intro hall i hi
      rcases List.mem_append.mp hi with hi | hi
      · exact hall i hi
      · exact Instr.isTerminator_of_isSlot (hslots i hi)

theorem Tracks.landed (h : Tracks e w g) : Tracks e w g.landed :=
  (((((h.emitNew (fun _ => rfl) fun _ => rfl).emitNew (fun _ => rfl) fun _ => rfl).emitNew
    (fun _ => rfl) fun _ => rfl).emitNew (fun _ => rfl) fun _ => rfl).emitNew (fun _ => rfl)
      fun _ => rfl).emitNew (fun _ => rfl) fun _ => rfl

/-- After the landing pad the block is left where the body has ended. -/
theorem afterBegin_instrs {impls : List Nat} (himpls : ∀ c ∈ impls, c ≠ e)
    (he : e < g.blocks.length) :
    (g.afterBegin b impls result).instrs e =
      if e = b then g.instrs e ++ [.br g.blocks.length] else g.instrs e := by
  have hout : ((g.append "after_beginblock").jumpedOut g.blocks.length impls).instrs e =
      g.instrs e :=
    (jumpedOut_instrs _ himpls).trans (CodegenContext.append_instrs _ e)
  have hlonger := ((Longer.refl g).append "after_beginblock").jumpedOut g.blocks.length impls
  have hlast : (g.afterBegin b impls result).instrs e =
      ((((g.append "after_beginblock").jumpedOut g.blocks.length impls).moveTo b).emitAt b
        (.br g.blocks.length)).instrs e :=
    CodegenContext.emitAt_instrs_ne (b := g.blocks.length) he.ne _
  rw [hlast]
  split
  · next heq =>
      subst heq
      refine (CodegenContext.emitAt_instrs_self (he.trans_le hlonger.length) _).trans ?_
      exact congrArg (· ++ [Instr.br g.blocks.length]) hout
  · next hne =>
      rw [CodegenContext.emitAt_instrs_ne hne]
      exact hout

theorem BeginSteps.walks {beginbk : List Stmt} {rescuebks : List RescueBlock}
    (steps : BeginSteps g result beginbk rescuebks v g') (h : Tracks e w g)
    (hpad : g.landingpad.isSome = guarded)
    (hbody : Walks (codegenStmts beginbk) fun guarded w => walkStmts guarded beginbk w)
    (hrescues : WalksRescues rescuebks) :
    Tracks e { walkRescues guarded rescuebks (walkStmts true beginbk w).aside with
      builder := (walkStmts true beginbk w).builder.leave } g' := by
  have hg := h.wellFormed
  have hlt := h.lt
  have hframe := Frame.start hg
  -- the body
  have hguarded : Tracks e w (g.guarded g.blocks.length) := by
    refine h.congr hg.guarded ?_ rfl (CodegenContext.append_instrs _ e) rfl
    exact (((Grow.refl hg).append hg.current_lt "landingpad").isEntry h.entry)
  have h₁ : Tracks e (walkStmts true beginbk w) steps.g₁ := (hbody.run hguarded rfl steps.body).1
  have hleft := steps.growBody hg (grows_codegenStmts beginbk)
  have hunguarded : Tracks e (walkStmts true beginbk w)
      (steps.g₁.unguarded steps.vbody result g.landingpad) :=
    (h₁.emit (i := .store steps.vbody result) rfl rfl).congr hleft.wellFormed
      (hleft.isEntry hguarded.entry) rfl rfl rfl
  -- the clauses
  have hatPad := ((hframe.append "landingpad").run fun _ => hleft).moveTo (b := g.blocks.length)
    (by simp)
  have hland := (hunguarded.elsewhere hatPad.grow.wellFormed (hatPad.grow.isEntry h.entry) rfl rfl
    hlt.ne').landed
  have hclauses := hrescues _ _ _ _ _ _ _ _ _ hland hpad hlt.ne' steps.rescuebks
  have hat := (steps.atRescues hframe (grows_codegenStmts beginbk)).grow.wellFormed
  have hframes := framesRescues_codegenRescues rescuebks _ _ _ _ _ _ _ _ (Frame.start hat)
    steps.rescuebks
  have himpls : ∀ c ∈ steps.impls, c ≠ e := fun c hc =>
    (hframes.reach c (List.mem_append_left _ hc)).ne hland.lt hlt.ne'
  have hbuild : steps.g₂.build ≠ e := hframes.grow.reach.ne hland.lt hlt.ne'
  -- the end
  have hgrow := steps.grow hframe (grows_codegenStmts beginbk)
    (framesRescues_codegenRescues rescuebks)
  have hrethrown : (steps.g₂.rethrown (.reg steps.g₁.next)).instrs e = steps.g₂.instrs e :=
    (CodegenContext.emitAt_instrs_ne hbuild.symm _).trans
      (CodegenContext.emitAt_instrs_ne hbuild.symm _)
  have hltRethrown : e < (steps.g₂.rethrown (.reg steps.g₁.next)).blocks.length :=
    hclauses.lt.trans_le (longer_rethrown _).length
  have hinstrs : g'.instrs e = if e = steps.g₁.build then
      steps.g₂.instrs e ++ [.br (steps.g₂.rethrown (.reg steps.g₁.next)).blocks.length]
      else steps.g₂.instrs e := by
    refine (congrArg (fun g => g.instrs e) steps.last).trans ?_
    rw [← hrethrown]
    exact afterBegin_instrs (g := (steps.g₂.rethrown (.reg steps.g₁.next)).moveTo steps.g₁.build)
      himpls hltRethrown
  refine ⟨hgrow.wellFormed, hgrow.isEntry h.entry, ?_, iff_of_false (BuilderAt.leave_ne_first _) ?_,
    ?_, ?_⟩
  · refine hclauses.scope.of_locals ?_
    refine (congrArg (fun g => g.current_method.locals) steps.last).trans ?_
    exact congrArg MethodRef.locals (CodegenContext.jumpedOut_method ..)
  · exact (congrArg CodegenContext.build steps.last).trans_ne hltRethrown.ne'
  · -- the clauses have not ended the first block
    have hopen := hframes.grow.status_openEnd_iff hland.lt hlt.ne'
    have hended := BuilderAt.aside_eq_ended_iff.symm.trans hland.ended
    rw [hinstrs]
    show (walkStmts true beginbk w).builder.leave = .ended ↔ _
    rw [BuilderAt.leave_eq_ended_iff]
    by_cases heq : e = steps.g₁.build
    · rw [if_pos heq, h₁.first.mpr heq.symm]
      refine iff_of_true (by decide) fun hall => ?_
      have hbr := status_openEnd_iff.mp hall _
        (List.mem_append_right _ (List.mem_singleton_self _))
      cases hbr
    · rw [if_neg heq, Ne, Ne, hopen, ← Ne, ← Ne, ← hended]
      have hne : (walkStmts true beginbk w).builder ≠ .first := fun hfirst =>
        heq (h₁.first.mp hfirst).symm
      cases hbuilder : (walkStmts true beginbk w).builder with
      | first => exact absurd hbuilder hne
      | away => decide
      | ended => decide
  · rw [hinstrs]
    refine hclauses.late.trans ?_
    split
    · exact (slotsFirst_append_of_not_isSlot rfl).symm
    · exact Iff.rfl

theorem ClassSteps.walks {name : String} {body : List Stmt} (steps : ClassSteps g name body v g')
    (h : Tracks e w g) (hpad : g.landingpad.isSome = guarded)
    (hbody : Walks (codegenStmts body) fun guarded w => walkStmts guarded body w) :
    Tracks e (walkStmts guarded body w) g' := by
  obtain ⟨h₁, hpad₁⟩ := (still_openClass name).run h hpad steps.open_
  have hself : Tracks e w { steps.g₁ with self_ref := v } :=
    h₁.congr (steps.atBody h.wellFormed) h₁.entry rfl rfl rfl
  obtain ⟨h₂, -⟩ := hbody.run hself hpad₁ steps.body
  have hgrow := steps.grow h.wellFormed (grows_codegenStmts body)
  refine h₂.congr hgrow.wellFormed (hgrow.isEntry h.entry) ?_ ?_ ?_
  · exact (congrArg (fun g => g.current_method.locals) steps.last).trans rfl
  · exact (congrArg (fun g => g.instrs e) steps.last).trans rfl
  · exact (congrArg CodegenContext.build steps.last).trans rfl

/-- A method in the method has blocks of its own. -/
theorem MethodSteps.walks {name : String} {params : Option (List Param)}
    {body : Option (List Stmt)} (steps : MethodSteps g name params body v g') (h : Tracks e w g) :
    Tracks e w g' := by
  have hbody := grows_codegenMethodBody params body _ _ _ (h.wellFormed.inMethodBlock "") steps.body
  have hgrow := steps.growMethod h.wellFormed (grows_codegenMethodBody params body)
  have hafter : Tracks e w (g.afterMethod steps.g₁) :=
    h.congr hgrow.wellFormed (hgrow.isEntry h.entry) rfl (hbody.method_instrs h.wellFormed h.lt) rfl
  exact ((still_defineMethod _ _).run hafter rfl steps.define).1

mutual

/-- **The text says what a statement does to the first block.** -/
theorem walks_codegenStmt :
    (s : Stmt) → Walks (codegenStmt s) fun guarded w => walkStmt guarded s w
  | .expr e => by
      simp only [codegenStmt, walkStmt]
      exact walks_codegenExpr e
  | .ifStmt cond ifbk none => by
      intro g v g' e w h hrun
      obtain ⟨_, _, _, ⟨⟩, _⟩ := codegenIf_ok h.wellFormed hrun
  | .ifStmt cond ifbk (some elsebk) => by
      have hif := walks_codegenStmts ifbk
      have helse := walks_codegenStmts elsebk
      intro g v g' e w h hrun
      refine ⟨?_, (grows_codegenStmt _ _ _ _ h.wellFormed hrun).landingpad⟩
      obtain ⟨_, _, he, heq, ⟨steps⟩⟩ := codegenIf_ok h.wellFormed hrun
      cases heq
      obtain rfl := he.unique h.entry
      exact steps.walks (h.slot (fun _ => rfl) fun _ => rfl) rfl hif helse
  | .whileStmt cond statements => by
      have hstatements := walks_codegenStmts statements
      intro g v g' e w h hrun
      refine ⟨?_, (grows_codegenStmt _ _ _ _ h.wellFormed hrun).landingpad⟩
      obtain ⟨_, he, ⟨steps⟩⟩ := codegenWhile_ok h.wellFormed hrun
      obtain rfl := he.unique h.entry
      exact steps.walks (h.slot (fun _ => rfl) fun _ => rfl) rfl hstatements
  | .beginStmt beginbk rescuebks elsebk ensurebk => by
      have hbody := walks_codegenStmts beginbk
      have hrescues := walksRescues_codegenRescues rescuebks
      intro g v g' e w h hrun
      refine ⟨?_, (grows_codegenStmt _ _ _ _ h.wellFormed hrun).landingpad⟩
      obtain ⟨-, _, he, ⟨steps⟩⟩ := codegenBegin_ok h.wellFormed hrun
      obtain rfl := he.unique h.entry
      exact steps.walks (h.slot (fun _ => rfl) fun _ => rfl) rfl hbody hrescues
  | .classDef name extends_ none => by
      intro g v g' e w h hrun
      obtain ⟨_, _, ⟨⟩, _⟩ := codegenClass_ok hrun
  | .classDef name extends_ (some body) => by
      have hbody := walks_codegenStmts body
      intro g v g' e w h hrun
      refine ⟨?_, (grows_codegenStmt _ _ _ _ h.wellFormed hrun).landingpad⟩
      obtain ⟨_, _, heq, ⟨steps⟩⟩ := codegenClass_ok hrun
      cases heq
      exact steps.walks h rfl hbody
  | .methodDef name params body => by
      intro g v g' e w h hrun
      refine ⟨?_, (grows_codegenStmt _ _ _ _ h.wellFormed hrun).landingpad⟩
      obtain ⟨steps⟩ := codegenMethod_ok hrun
      exact steps.walks h

theorem walks_codegenStmts :
    (ss : List Stmt) → Walks (codegenStmts ss) fun guarded w => walkStmts guarded ss w
  | [] => by
      simp only [codegenStmts, walkStmts]
      exact still_pure _
  | [s] => by
      simp only [codegenStmts, walkStmts]
      exact (walks_codegenStmt s).bind fun _ => still_pure _
  | s :: s' :: ss => by
      have hs := walks_codegenStmt s
      have hss := walks_codegenStmts (s' :: ss)
      intro g v g' e w h hrun
      obtain ⟨v', g₁, h₁, h₂⟩ := codegenStmts_cons_ok.mp hrun
      exact (hs.bind fun _ => hss) g v g' e w h (bind_ok.mpr ⟨v', g₁, h₁, h₂⟩)

theorem walksRescues_codegenRescues : (rescuebks : List RescueBlock) → WalksRescues rescuebks
  | [] => walksRescues_nil
  | .mk _ _ statements :: rescuebks =>
      walksRescues_cons (walks_codegenStmts statements) (walksRescues_codegenRescues rescuebks)

end

/-! ### Methods -/

theorem walks_codegenArgs (params : List Param) :
    ∀ i, Walks (codegenArgs i params) fun _ w => walkParams params w := by
  induction params with
  | nil => exact fun _ => still_pure ()
  | cons param params ih =>
      intro i
      obtain ⟨name, init⟩ := param
      exact (walks_getOrCreateLocal name).bind fun _ =>
        (still_emitReg (fun _ => rfl) fun _ => rfl).before fun _ =>
          (still_emitReg (fun _ => rfl) fun _ => rfl).before fun _ =>
            (still_emit rfl rfl).before fun _ => ih (i + 1)

/-- At the beginning of a method. -/
theorem WellFormed.tracks (hg : WellFormed g) :
    Tracks g.blocks.length ⟨[], .first, false⟩ (g.inMethodBlock "") where
  wellFormed := hg.inMethodBlock ""
  entry := by
    refine entry_iff.mpr ⟨inMethodBlock_fnOf_self "", fun b hb hfn => ?_⟩
    rw [inMethodBlock_fnOf "" hb] at hfn
    exact Nat.lt_irrefl _ (hg.fn_lt b _ hfn)
  scope _ := rfl
  first := iff_of_true rfl rfl
  ended := by
    rw [inMethodBlock_instrs, CodegenContext.instrs_of_length_le (Nat.le_refl _)]
    exact iff_of_false (by decide) fun hne => hne rfl
  late := by
    rw [inMethodBlock_instrs, CodegenContext.instrs_of_length_le (Nat.le_refl _)]
    exact iff_of_true rfl .nil

/-- The slots of a method at its end. -/
theorem MethodSteps.slotsFirst {name : String} {params : Option (List Param)}
    {body : Option (List Stmt)} (steps : MethodSteps g name params body v g') (hg : WellFormed g) :
    SlotsFirst (steps.g₁.instrs g.blocks.length) ↔
      (walkMethod g.landingpad.isSome params body).late = false := by
  have hstart := hg.tracks
  have hbody := steps.body
  cases body with
  | none =>
      rw [codegenMethodBody] at hbody
      rw [emit_ok.mp hbody, hstart.late_emitAt]
      exact hstart.late.symm
  | some body =>
      obtain ⟨g₁, v', g₂, hargs, hstatements, hlast⟩ := codegenMethodBody_ok hbody
      obtain ⟨h₁, hpad₁⟩ := (walks_codegenArgs (params.getD []) 0).run hstart rfl hargs
      obtain ⟨h₂, -⟩ := (walks_codegenStmts body).run h₁ hpad₁ hstatements
      rw [hlast, h₂.late_emitAt]
      exact h₂.late.symm

/-- **When the slots of a method stand before the terminator of its first block**: the text makes
no slot after the block has been ended. -/
theorem slotsFirst_iff {stmts : List Stmt} {F : CodegenContext} (h : generate stmts = .ok F)
    {name : String} {params : Option (List Param)} {body : Option (List Stmt)}
    (hin : InsideStmts (.methodDef name params body) g stmts .unitBody) :
    F.entry? g.functions = some g.blocks.length ∧
      (SlotsFirst (F.instrs g.blocks.length) ↔
        (walkMethod g.landingpad.isSome params body).late = false) := by
  obtain ⟨v₀, g₀, hrun₀, -⟩ := generate_ok h
  obtain ⟨hg, -⟩ := hin.generated wellFormed_unitBody ⟨_, _, hrun₀⟩
  obtain ⟨v, g', hrun, hfnOf, hinstrs⟩ := hin.stays h
  obtain ⟨steps⟩ := codegenMethod_ok hrun
  have hmethod := grows_codegenMethodBody params body _ _ _ (hg.inMethodBlock "") steps.body
  have hafter := steps.growMethod hg (grows_codegenMethodBody params body)
  have hgrow := grows_codegenStmt _ _ _ _ hg hrun
  have hself : g.blocks.length < (g.inMethodBlock "").blocks.length := by
    rw [inMethodBlock_length]
    exact Nat.lt_succ_self _
  have hfn₁ : (g.afterMethod steps.g₁).fnOf g.blocks.length = some g.functions :=
    (hmethod.fnOf _ hself).trans (inMethodBlock_fnOf_self "")
  have hback : Rest g.functions (g.afterMethod steps.g₁) (g.afterMethod steps.g₁) :=
    .refl hg.current_lt
  have hrest := hback.run hafter.wellFormed
    (stable_grow.defineMethod _ _ _ _ _ hafter.wellFormed steps.define)
  have hlt := CodegenContext.lt_of_fnOf hfn₁
  have hfn : g'.fnOf g.blocks.length = some g.functions :=
    (hrest.fnOf _ hlt).trans hfn₁
  refine ⟨entry_iff.mpr ⟨?_, fun b hb hfn' => ?_⟩, ?_⟩
  · exact (hfnOf _ (CodegenContext.lt_of_fnOf hfn)).trans hfn
  · rw [hfnOf b (hb.trans_le hgrow.length), hgrow.fnOf b hb] at hfn'
    exact Nat.lt_irrefl _ (hg.fn_lt b _ hfn')
  · rw [hinstrs _ _ hfn (Nat.le_refl _), hrest.instrs _ _ hfn₁ (Nat.le_refl _)]
    exact steps.slotsFirst hg

/-- A method with a local and an invocation. -/
def straightMethod : Stmt :=
  .methodDef "m" (some [.mk "a" none]) (some
    [.expr (.assign (.name "x") "=" (.varOrInvoke (.name "a") none none none)),
      .expr (.varOrInvoke (.name "puts") (some [.varOrInvoke (.name "x") none none none]) none none)])

theorem slotsFirst_straightMethod : ∃ F, generate [straightMethod] = .ok F ∧
    F.entry? 1 = some 2 ∧ SlotsFirst (F.instrs 2) := by
  obtain ⟨F, hF, -⟩ : ∃ F, generate [straightMethod] = .ok F ∧ F.functions = 2 :=
    generated_of_map (by decide +kernel)
  obtain ⟨hentry, hslots⟩ := slotsFirst_iff hF (.head .here)
  exact ⟨F, hF, hentry, hslots.mpr (by decide +kernel)⟩

/-- A method that has an `if` before its first local. -/
def localAfterIf : Stmt :=
  .methodDef "m" none (some
    [.ifStmt (.bool true) [.expr (.int "1")] (some [.expr (.int "2")]),
      .expr (.assign (.name "x") "=" (.int "3"))])

/-- The slot of the local stands behind the jump to the condition. -/
theorem localAfterIf_late : ∃ F, generate [localAfterIf] = .ok F ∧
    F.entry? 1 = some 2 ∧ ¬ SlotsFirst (F.instrs 2) := by
  obtain ⟨F, hF, hentry, hlate⟩ : ∃ F, generate [localAfterIf] = .ok F ∧
      (F.entry? 1 = some 2 ∧ ¬ SlotsFirst (F.instrs 2)) :=
    Outcome.ok_of_any (by decide +kernel)
  exact ⟨F, hF, hentry, hlate⟩

end Pup.Codegen
