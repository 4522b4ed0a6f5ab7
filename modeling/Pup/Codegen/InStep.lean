/-
A machine in step with the interpreter.

The machine is followed from one point of the generator to the next: `Synced` says that it is
at the end of the block that the builder is at, and that its slots hold the locals of the
interpreter.  `Leads` looks the other way, to the context at the end: what has been generated
so far is a part of it, and what is still to come uses new registers.  A register that an
instruction sets is then never a slot's.  `Result` is what a piece of code is to come to, and
`Result.bind` puts one piece after the other as the interpreter does.
-/
import Pup.Codegen.Interpret
import Mathlib.Data.List.Nodup

namespace Pup.Codegen

open Parse

variable {α β γ : Type} {g g' g₁ F P : CodegenContext} {scope scope' : List String}

/-! ### The context at the end -/

/-- `g` is on the way to `F`. -/
structure Leads (F g : CodegenContext) : Prop where
  longer : ∀ b, g.instrs b <+: F.instrs b
  next : g.next ≤ F.next
  result : ∀ i ∈ F.instrs 0, i ∈ g.instrs 0 ∨ ∀ r, i.result = some r → g.next ≤ r
  locals : ∃ new, F.current_method.locals = new ++ g.current_method.locals ∧
    ∀ p ∈ new, g.next ≤ p.2 ∧ g.current_method.locals.lookup p.1 = none

theorem Leads.refl (F : CodegenContext) : Leads F F where
  longer _ := List.prefix_rfl
  next := Nat.le_refl _
  result _ hi := .inl hi
  locals := ⟨[], rfl, nofun⟩

theorem Leads.grow (h : Leads F g') (hg : Grow g g') : Leads F g where
  longer b := (hg.longer b).trans (h.longer b)
  next := hg.next.trans h.next
  result i hi := by
    rcases h.result i hi with hi | hge
    · exact hg.result 0 i hi
    · exact .inr fun r hr => hg.next.trans (hge r hr)
  locals := by
    obtain ⟨new, hnew⟩ := hg.locals
    obtain ⟨new', hlocals, hfresh⟩ := h.locals
    refine ⟨new' ++ new, by rw [hlocals, hnew.locals, List.append_assoc], fun p hp => ?_⟩
    rcases List.mem_append.mp hp with hp | hp
    · obtain ⟨hge, hnone⟩ := hfresh p hp
      rw [hnew.locals, List.lookup_append, Option.or_eq_none_iff] at hnone
      exact ⟨hg.next.trans hge, hnone.2⟩
    · exact ⟨(hnew.slot p hp).1, hnew.fresh p hp⟩

/-- It does not matter where the builder is. -/
theorem Leads.moved {b : Nat} (h : Leads F (g.moveTo b)) : Leads F g :=
  ⟨h.longer, h.next, h.result, h.locals⟩

/-- A local keeps its slot. -/
theorem Leads.lookup (h : Leads F g) {name : String} {slot : Nat}
    (hname : g.current_method.locals.lookup name = some slot) :
    F.current_method.locals.lookup name = some slot := by
  obtain ⟨new, hlocals, hfresh⟩ := h.locals
  have hnone : new.lookup name = none := by
    refine List.lookup_eq_none_iff.mpr fun p hp => ?_
    obtain ⟨-, hp⟩ := hfresh p hp
    refine bne_iff_ne.mpr fun heq => ?_
    rw [← heq, hname] at hp
    cases hp
  rw [hlocals, List.lookup_append, hnone]
  exact hname

/-- The register after those that are used is not the slot of a local. -/
theorem Leads.not_local (h : Leads F g') (hg : WellFormed g) (hnext : g.next < g'.next)
    (hlocals : g'.current_method.locals = g.current_method.locals) (name : String) :
    F.current_method.locals.lookup name ≠ some g.next := by
  intro hname
  obtain ⟨new, hF, hfresh⟩ := h.locals
  have hmem := mem_of_lookup hname
  rw [hF, hlocals] at hmem
  rcases List.mem_append.mp hmem with hmem | hmem
  · exact absurd (hnext.trans_le (hfresh _ hmem).1) (Nat.lt_irrefl _)
  · exact absurd (hg.locals_lt _ hmem) (Nat.lt_irrefl _)

/-- The slots of the entry block. -/
def Instr.slot : Instr → Option Nat
  | .alloca r => some r
  | .arrayAlloca r _ => some r
  | _ => none

theorem Instr.result_of_slot {i : Instr} {r : Nat} (h : i.slot = some r) : i.result = some r := by
  cases i <;> first | exact h | cases h

/-- The context at the end, and the blocks that are executed. -/
structure Final (F P : CodegenContext) : Prop where
  grow : Grow .unitBody F
  code : ∀ b, F.instrs b <+: P.instrs b

theorem Final.slots (h : Final F P) : ∀ i ∈ F.instrs 0, i.isSlot := by
  intro i hi
  have hlt : 0 < CodegenContext.unitBody.blocks.length :=
    CodegenContext.lt_of_fnOf (entry_iff.mp isEntry_unitBody).1
  rcases h.grow.kept 0 hlt (by decide) with hsame | ⟨-, added, hadded, hslot⟩
  · rw [hsame, unitBody_instrs] at hi
    cases hi
  · rw [hadded, unitBody_instrs] at hi
    exact hslot i hi

theorem Final.newLocals (h : Final F P) : NewLocals .unitBody F F.current_method.locals := by
  obtain ⟨new, hnew⟩ := h.grow.locals
  have heq : F.current_method.locals = new := hnew.locals.trans (List.append_nil new)
  exact heq.symm ▸ hnew

theorem Final.alloca_of_lookup (h : Final F P) {name : String} {slot : Nat}
    (hname : F.current_method.locals.lookup name = some slot) :
    Instr.alloca slot ∈ F.instrs 0 :=
  h.newLocals.alloca _ (mem_of_lookup hname) 0 isEntry_unitBody

/-- Two locals have different slots. -/
theorem Final.lookup_inj (h : Final F P) {name name' : String} {slot : Nat}
    (hname : F.current_method.locals.lookup name = some slot)
    (hname' : F.current_method.locals.lookup name' = some slot) : name = name' :=
  congrArg Prod.fst (List.inj_on_of_nodup_map h.newLocals.nodup (mem_of_lookup hname)
    (mem_of_lookup hname') rfl)

/-! ### Where the generator is -/

/-- What is generated in `g` is code of `pup_main` that is not under a landing pad. -/
structure Ready (g : CodegenContext) (scope : List String) : Prop where
  wellFormed : WellFormed g
  landingpad : g.landingpad = none
  self_ref : g.self_ref = .paramTarget
  entry : IsEntry g 0
  build : g.build ≠ 0
  scope : Scoped g scope

theorem Ready.grow (h : Ready g scope) (hg : Grow g g') (hscope : Scoped g' scope') :
    Ready g' scope' where
  wellFormed := hg.wellFormed
  landingpad := hg.landingpad.trans h.landingpad
  self_ref := hg.self_ref.trans h.self_ref
  entry := hg.isEntry h.entry
  build := by
    have hlt : 0 < g.blocks.length := CodegenContext.lt_of_fnOf (entry_iff.mp h.entry).1
    rcases hg.build with heq | hge
    · exact heq ▸ h.build
    · exact (hlt.trans_le hge).ne'
  scope := hscope

theorem Ready.keep (h : Ready g scope) (hg : Grow g g')
    (hlocals : g'.current_method.locals = g.current_method.locals) : Ready g' scope :=
  h.grow hg (h.scope.of_locals hlocals)

theorem Ready.run (h : Ready g scope) {m : Gen β} {f : List String → List String} {b : β}
    (hgrow : Grows m) (hscopes : Scopes m f) (hrun : m g = .ok (b, g')) : Ready g' (f scope) :=
  h.grow (hgrow g b g' h.wellFormed hrun) (hscopes g b g' scope h.wellFormed h.scope hrun).2

theorem Ready.expr (h : Ready g scope) {e : Expr} {v : Operand}
    (hrun : codegenExpr e g = .ok (v, g')) : Ready g' (scopeExpr e scope) :=
  h.run (grows_codegenExpr e) (scopes_codegenExpr e) hrun

theorem Ready.emitNew (h : Ready g scope) {i : Nat → Instr} (hi : ∀ r, (i r).result = some r) :
    Ready (g.emitNew g.build i) scope :=
  h.keep ((Grow.refl h.wellFormed).emitNewHere hi) rfl

theorem Ready.emit (h : Ready g scope) {i : Instr} (hi : i.result = none) :
    Ready (g.emitAt g.build i) scope :=
  h.keep ((Grow.refl h.wellFormed).emitHere hi) rfl

/-- A new slot in the entry block. -/
theorem Ready.slot (h : Ready g scope) {i : Nat → Instr} (hslot : ∀ r, (i r).isSlot)
    (hi : ∀ r, (i r).result = some r) : Ready (g.emitNew 0 i) scope :=
  h.keep ((Grow.refl h.wellFormed).emitNewEntry h.wellFormed h.entry hslot hi) rfl

theorem emitNew_instrs_self (hg : WellFormed g) (i : Nat → Instr) :
    (g.emitNew g.build i).instrs g.build = g.instrs g.build ++ [i g.next] :=
  CodegenContext.emitAt_instrs_self hg.build_lt _

theorem emit_instrs_self (hg : WellFormed g) (i : Instr) :
    (g.emitAt g.build i).instrs g.build = g.instrs g.build ++ [i] :=
  CodegenContext.emitAt_instrs_self hg.build_lt _

theorem Leads.fetchNew {i : Nat → Instr} (h : Leads F (g.emitNew g.build i))
    (hg : WellFormed g) : g.instrs g.build ++ [i g.next] <+: F.instrs g.build :=
  emitNew_instrs_self hg i ▸ h.longer g.build

theorem Leads.fetch {i : Instr} (h : Leads F (g.emitAt g.build i)) (hg : WellFormed g) :
    g.instrs g.build ++ [i] <+: F.instrs g.build :=
  emit_instrs_self hg i ▸ h.longer g.build

/-- A register that is set where the builder is belongs to no slot. -/
theorem Ready.not_slot (h : Ready g scope) {i : Nat → Instr}
    (hleads : Leads F (g.emitNew g.build i)) {j : Instr} (hj : j ∈ F.instrs 0) :
    j.result ≠ some g.next := by
  intro hr
  rcases hleads.result j hj with hmem | hge
  · have hmem' : j ∈ g.instrs 0 :=
      (CodegenContext.emitAt_instrs_ne (g := g) h.build.symm (i g.next)) ▸ hmem
    exact absurd (h.wellFormed.result_lt 0 j hmem' g.next hr) (Nat.lt_irrefl _)
  · exact absurd (hge g.next hr) (Nat.not_succ_le_self g.next)

/-! ### The machine in step

Besides the calls that it has made the interpreter's state is its locals, and these are in slots.
Operands are in registers, of which a piece sets new ones only: what an earlier piece has left in
one is still there behind a later one (`Same`, `Holds.same`).
-/

/-- The slots hold the locals, and all calls have been answered. -/
structure Related (F : CodegenContext) (s : State α) (t : Machine α) : Prop where
  running : t.progress = .running
  world : t.world = s.world
  locals : ∀ name slot, F.current_method.locals.lookup name = some slot →
    t.cells slot 0 = s.locals name
  slots : ∀ i ∈ F.instrs 0, ∀ r, i.slot = some r → t.regs r = some (.pointer r 0)

/-- The machine is where the builder is. -/
structure Synced (F g : CodegenContext) (s : State α) (t : Machine α) : Prop
    extends Related F s t where
  block : t.block = g.build
  index : t.index = (g.instrs g.build).length

/-- The registers up to `n` are as they were. -/
def Same (n : Nat) (t t' : Machine α) : Prop := ∀ r < n, t'.regs r = t.regs r

theorem Same.refl (n : Nat) (t : Machine α) : Same n t t := fun _ _ => rfl

theorem Same.trans {n : Nat} {t t' t'' : Machine α} (h : Same n t t') (h' : Same n t' t'') :
    Same n t t'' := fun r hr => (h' r hr).trans (h r hr)

theorem Same.mono {n m : Nat} {t t' : Machine α} (h : Same n t t') (hm : m ≤ n) :
    Same m t t' := fun r hr => h r (hr.trans_le hm)

theorem Same.set {n m : Nat} {t t' : Machine α} (h : Same n t t') (hm : n ≤ m)
    (w : Option (Word α)) : Same n t (t'.set m w) := fun r hr =>
  (Function.update_of_ne (hr.trans_le hm).ne _ _).trans (h r hr)

variable {R : Runtime α} {n left : Nat} {s s' : State α} {t t' t₁ : Machine α}

/-- An operand has a value, which is in none of the registers from `n` on. -/
structure Holds (R : Runtime α) (t : Machine α) (v : Operand) (n : Nat) (a : α) : Prop where
  eval : t.eval R v = some (.value a)
  below : ∀ r, v = .reg r → r < n

theorem Holds.same {v : Operand} {a : α} (h : Holds R t v n a) (hsame : Same n t t') :
    Holds R t' v n a := by
  refine ⟨?_, h.below⟩
  cases v with
  | reg r => exact (hsame r (h.below r rfl)).trans h.eval
  | _ => exact h.eval

theorem Holds.mono {v : Operand} {a : α} {m : Nat} (h : Holds R t v n a) (hm : n ≤ m) :
    Holds R t v m a :=
  ⟨h.eval, fun r hr => (h.below r hr).trans_le hm⟩

theorem Ready.holds_self (hg : Ready g scope) (t : Machine α) :
    Holds R t g.self_ref g.next R.self := by
  rw [hg.self_ref]
  exact ⟨rfl, nofun⟩

theorem Synced.start (h : Related F s t) (hblock : t.block = g.build) (hindex : t.index = 0)
    (hnil : g.instrs g.build = []) : Synced F g s t :=
  { h with
    block := hblock
    index := by rw [hindex, hnil, List.length_nil] }

/-- An instruction sets a new register. -/
theorem Synced.set (h : Synced F g s t) (hg : Ready g scope) {i : Nat → Instr}
    (hleads : Leads F (g.emitNew g.build i)) (w : Word α) :
    Synced F (g.emitNew g.build i) s (t.set g.next (some w)) where
  running := h.running
  world := h.world
  locals := h.locals
  slots j hj r hr := by
    have hne : r ≠ g.next := by
      rintro rfl
      exact hg.not_slot hleads hj (Instr.result_of_slot hr)
    exact (Function.update_of_ne hne _ _).trans (h.slots j hj r hr)
  block := h.block
  index := by
    show t.index + 1 = ((g.emitNew g.build i).instrs g.build).length
    rw [emitNew_instrs_self hg.wellFormed, List.length_append, h.index]
    rfl

/-- An instruction without a result writes to a slot that is not a local's. -/
theorem Synced.write (h : Synced F g s t) (hg : Ready g scope) (i : Instr) {slot : Nat}
    (hslot : ∀ name, F.current_method.locals.lookup name ≠ some slot) (k : Nat) (a : α) :
    Synced F (g.emitAt g.build i) s (t.write slot k a) where
  running := h.running
  world := h.world
  locals name slot' hname := by
    have hne : slot' ≠ slot := by
      rintro rfl
      exact hslot name hname
    exact (congrFun (Function.update_of_ne hne _ _) 0).trans (h.locals name slot' hname)
  slots := h.slots
  block := h.block
  index := by
    show t.index + 1 = ((g.emitAt g.build i).instrs g.build).length
    rw [emit_instrs_self hg.wellFormed, List.length_append, h.index]
    rfl

/-- A local is assigned to. -/
theorem Synced.assign (h : Synced F g s t) (hfinal : Final F P) (hg : Ready g scope) (i : Instr)
    {name : String} {slot : Nat} (hname : F.current_method.locals.lookup name = some slot)
    (a : α) : Synced F (g.emitAt g.build i)
      { s with locals := Function.update s.locals name a } (t.write slot 0 a) where
  running := h.running
  world := h.world
  locals name' slot' hname' := by
    by_cases heq : name' = name
    · subst heq
      obtain rfl := Option.some.inj (hname.symm.trans hname')
      simp [Machine.write, Machine.next]
    · have hne : slot' ≠ slot := by
        rintro rfl
        exact heq (hfinal.lookup_inj hname' hname)
      show Function.update t.cells slot _ slot' 0 = Function.update s.locals name a name'
      rw [Function.update_of_ne hne, Function.update_of_ne heq]
      exact h.locals name' slot' hname'
  slots := h.slots
  block := h.block
  index := by
    show t.index + 1 = ((g.emitAt g.build i).instrs g.build).length
    rw [emit_instrs_self hg.wellFormed, List.length_append, h.index]
    rfl

/-- What is generated elsewhere leaves the machine where it is. -/
theorem Synced.elsewhere (h : Synced F g s t) (hbuild : g'.build = g.build)
    (hinstrs : g'.instrs g.build = g.instrs g.build) : Synced F g' s t :=
  { h with
    block := h.block.trans hbuild.symm
    index := by rw [hbuild, hinstrs, h.index] }

theorem Synced.slot (h : Synced F g s t) (hg : Ready g scope) (i : Nat → Instr) :
    Synced F (g.emitNew 0 i) s t :=
  h.elsewhere rfl (CodegenContext.emitAt_instrs_ne hg.build _)

theorem Synced.withLocal (h : Synced F g s t) (hg : Ready g scope) (name : String) :
    Synced F (g.withLocal 0 name) s t := by
  have h₁ := h.slot hg .alloca
  have h₂ : Synced F ((g.emitNew 0 .alloca).emitNew 0 fun c => .bitCast c (.reg g.next)) s t :=
    h₁.elsewhere rfl (CodegenContext.emitAt_instrs_ne hg.build _)
  exact h₂.elsewhere rfl (CodegenContext.emitAt_instrs_ne (g := (g.emitNew 0 .alloca).emitNew 0
    fun c => .bitCast c (.reg g.next)) hg.build _)

/-- The slot of a local is made where the machine has been. -/
theorem getOrCreateLocal_synced (hg : Ready g scope) {name : String} {lhs : Operand}
    (hrun : getOrCreateLocal name g = .ok (lhs, g')) :
    ∃ slot, lhs = .reg slot ∧ g'.current_method.locals.lookup name = some slot ∧
      (Synced F g s t → Synced F g' s t) := by
  rw [getOrCreateLocal, bind_ok] at hrun
  obtain ⟨found, _, hget, hrun⟩ := hrun
  obtain ⟨rfl, rfl⟩ := Prod.mk.inj (Except.ok.inj hget)
  cases hlookup : g.current_method.locals.lookup name with
  | some slot =>
      rw [hlookup] at hrun
      obtain ⟨rfl, rfl⟩ := pure_ok.mp hrun
      exact ⟨slot, rfl, hlookup, id⟩
  | none =>
      rw [hlookup] at hrun
      obtain ⟨e, he, rfl, rfl⟩ := createLocal_ok hg.wellFormed hrun
      obtain rfl := he.unique hg.entry
      exact ⟨g.next, rfl, List.lookup_cons_self, fun h => h.withLocal hg name⟩

theorem World.call_left (c : Call α) (w : World α) : (w.call R c).2.left ≤ w.left := by
  cases c <;> cases hleft : w.left <;> simp [World.call, hleft]

variable [DecidableEq α]

/-- The next instruction is the one that is generated next. -/
theorem Synced.step (h : Synced F g s t) (hfinal : Final F P) {i : Instr}
    (hi : g.instrs g.build ++ [i] <+: F.instrs g.build) :
    Machine.step R P t = t.execute R i := by
  refine Machine.step_running h.running ?_
  rw [h.block, h.index]
  obtain ⟨rest, hrest⟩ := hi.trans (hfinal.code g.build)
  simp [← hrest]

/-! ### Results

`n` and `left` are for what comes behind the piece.  The registers below `n`, with the operands
computed so far, are as they were, and the runtime has at most `left` calls yet to answer, which
is what a loop is by induction on.
-/

/-- From `t` the machine gets to where the interpreter does: with an outcome to one that `Q`
tells of, without one to a machine that waits. -/
inductive Result (R : Runtime α) (P : CodegenContext) (n left : Nat) (t : Machine α)
    (Q : γ → State α → Machine α → Prop) : Option γ × State α → Prop
  | waits {s' : State α} {t' : Machine α} (reaches : Machine.Reaches R P t t')
      (waiting : t'.progress = .waiting) (world : t'.world = s'.world) :
      Result R P n left t Q (none, s')
  | goes {c : γ} {s' : State α} {t' : Machine α} (reaches : Machine.Reaches R P t t')
      (same : Same n t t') (bound : s'.world.left ≤ left) (post : Q c s' t') :
      Result R P n left t Q (some c, s')

variable {Q : β → State α → Machine α → Prop} {Q' : γ → State α → Machine α → Prop}
  {x : Interp α β} {f : β → Interp α γ}

theorem Result.after {o : Option γ × State α} (h : Result R P n left t₁ Q' o)
    (hreaches : Machine.Reaches R P t t₁) (hsame : Same n t t₁) : Result R P n left t Q' o := by
  cases h with
  | waits hreaches' hwaiting hworld => exact .waits (hreaches.trans hreaches') hwaiting hworld
  | goes hreaches' hsame' hleft hpost =>
      exact .goes (hreaches.trans hreaches') (hsame.trans hsame') hleft hpost

theorem Result.mono {m left' : Nat} {o : Option γ × State α} (h : Result R P m left' t Q' o)
    (hm : n ≤ m) (hleft : left' ≤ left) : Result R P n left t Q' o := by
  cases h with
  | waits hreaches hwaiting hworld => exact .waits hreaches hwaiting hworld
  | goes hreaches hsame hleft' hpost =>
      exact .goes hreaches (hsame.mono hm) (hleft'.trans hleft) hpost

theorem Result.imp {Q'' : γ → State α → Machine α → Prop} {o : Option γ × State α}
    (h : Result R P n left t Q' o) (hQ : ∀ c s' t', Q' c s' t' → Q'' c s' t') :
    Result R P n left t Q'' o := by
  cases h with
  | waits hreaches hwaiting hworld => exact .waits hreaches hwaiting hworld
  | goes hreaches hsame hleft hpost => exact .goes hreaches hsame hleft (hQ _ _ _ hpost)

/-- The machine goes on alone. -/
theorem Result.onwards {Q'' : γ → State α → Machine α → Prop} {o : Option γ × State α}
    (h : Result R P n left t Q' o)
    (hQ : ∀ c s' t', Q' c s' t' → ∃ t'', Machine.Reaches R P t' t'' ∧ Same n t' t'' ∧
      Q'' c s' t'') : Result R P n left t Q'' o := by
  cases h with
  | waits hreaches hwaiting hworld => exact .waits hreaches hwaiting hworld
  | goes hreaches hsame hleft hpost =>
      obtain ⟨t'', hreaches', hsame', hpost'⟩ := hQ _ _ _ hpost
      exact .goes (hreaches.trans hreaches') (hsame.trans hsame') hleft hpost'

/-- **One computation after the other.** -/
theorem Result.bind (h : Result R P n left t Q (x s))
    (hf : ∀ c s₁ t₁, x s = (some c, s₁) → s₁.world.left ≤ left → Same n t t₁ → Q c s₁ t₁ →
      Result R P n left t₁ Q' (f c s₁)) : Result R P n left t Q' ((x >>= f) s) := by
  generalize hx : x s = o at h
  cases h with
  | waits hreaches hwaiting hworld =>
      rw [interp_bind_none hx]
      exact .waits hreaches hwaiting hworld
  | goes hreaches hsame hleft hpost =>
      rw [interp_bind_some hx]
      exact (hf _ _ _ hx hleft hsame hpost).after hreaches hsame

theorem result_pure {c : γ} (hpost : Q' c s t) (hleft : s.world.left ≤ left) :
    Result R P n left t Q' ((pure c : Interp α γ) s) :=
  .goes (.refl t) (.refl n t) hleft hpost

end Pup.Codegen
