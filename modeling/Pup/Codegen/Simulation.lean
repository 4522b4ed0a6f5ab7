/-
Expressions do what they mean.

Each piece of the generator takes a machine that is in step with the interpreter to one that
is.  A call of the machine is the same call of the interpreter; the arguments of an invocation
are in its array when it is made.  The induction over expressions is then one piece after the
other, and a value that is needed later is in a register that nothing sets again.
-/
import Pup.Codegen.InStep

namespace Pup.Codegen

open Parse

variable {α β γ : Type} {g g' g₁ F P : CodegenContext} {scope : List String}
  {R : Runtime α} {n left : Nat} {s s' : State α} {t t' t₁ : Machine α} [DecidableEq α]

/-! ### Calls -/

/-- The machine is in step, and the operand has the value. -/
structure Yields (R : Runtime α) (F g : CodegenContext) (v : Operand) (a : α) (s : State α)
    (t : Machine α) : Prop extends Synced F g s t where
  holds : Holds R t v g.next a

/-- **A call of the machine is the call of the interpreter.** -/
theorem result_call (hfinal : Final F P) (hg : Ready g scope) {fn : String} {args : List Operand}
    (hleads : Leads F (g.emitNew g.build fun r => .call r fn args)) (h : Synced F g s t)
    {c : Call α} (hfn : fn ≠ "llvm.gcroot") (hc : t.called R fn args = some c) :
    Result R P g.next s.world.left t
      (fun a s' t' => Yields R F (g.emitNew g.build fun r => .call r fn args) (.reg g.next) a s' t' ∧
        t'.cells = t.cells) (Interp.call R c s) := by
  have hstep : Machine.step R P t = t.perform R g.next c := by
    rw [h.step hfinal (hleads.fetchNew hg.wellFormed)]
    show t.call R g.next fn args = _
    rw [Machine.call, if_neg hfn, hc]
  have hleft := World.call_left (R := R) c s.world
  rw [Machine.perform, h.world] at hstep
  rw [Interp.call]
  cases hcall : s.world.call R c with
  | mk answer world =>
      rw [hcall] at hstep hleft
      cases answer with
      | none => exact .waits (Machine.reaches_step hstep) rfl rfl
      | some a =>
          have hworld : Synced F g { s with world := world } { t with world := world } :=
            ⟨⟨h.running, rfl, h.locals, h.slots⟩, h.block, h.index⟩
          refine .goes (Machine.reaches_step hstep) ((Same.refl g.next t).set (Nat.le_refl _) _)
            hleft ⟨⟨hworld.set hg hleads _, ?_, ?_⟩, rfl⟩
          · exact Function.update_self ..
          · intro r hr
            exact Operand.reg.inj hr ▸ Nat.lt_succ_self g.next

/-! ### Invocations -/

theorem reaches_storeArgs (hfinal : Final F P) {a : Nat}
    (hslot : ∀ name, F.current_method.locals.lookup name ≠ some a) {j : Instr}
    (hj : j ∈ F.instrs 0) (harray : j.slot = some a) {args : List Operand} {values : List α}
    {i : Nat} {u : Unit} (hg : Ready g scope)
    (hrun : storeArgs (.reg a) i args g = .ok (u, g')) (hleads : Leads F g')
    (h : Synced F g s t) (hn : n ≤ g.next)
    (hargs : List.Forall₂ (fun v c => Holds R t v n c) args values) :
    ∃ t', Machine.Reaches R P t t' ∧ Same n t t' ∧ Synced F g' s t' ∧
      (∀ k < i, t'.cells a k = t.cells a k) ∧
      ∀ k c, values[k]? = some c → t'.cells a (i + k) = c := by
  induction args generalizing i values g t with
  | nil =>
      cases hargs
      rw [storeArgs, pure_ok] at hrun
      obtain ⟨-, rfl⟩ := hrun
      exact ⟨t, .refl t, .refl n t, h, fun _ _ => rfl, nofun⟩
  | cons v args ih =>
      cases hargs with | @cons _ c _ values hv hargs =>
      simp only [storeArgs, bind_ok, emitReg_ok, emit_ok] at hrun
      obtain ⟨_, g₁, ⟨rfl, rfl⟩, _, g₂, rfl, hrun⟩ := hrun
      have hg₁ := hg.emitNew (i := fun r => .gep r (.reg a) i) fun _ => rfl
      have hg₂ := hg₁.emit (i := .store v (.reg g.next)) rfl
      have hleads₂ := hleads.grow (stable_grow.storeArgs _ _ _ _ _ _ hg₂.wellFormed hrun)
      have hleads₁ := hleads₂.grow ((Grow.refl hg₁.wellFormed).emitHere rfl)
      -- the address of the element
      have hstep₁ : Machine.step R P t = t.set g.next (some (.pointer a i)) := by
        rw [h.step hfinal (hleads₁.fetchNew hg.wellFormed)]
        simp [Machine.execute, h.slots j hj a harray]
      have h₁ := h.set hg hleads₁ (.pointer a i)
      have hsame₁ := (Same.refl n t).set hn (some (.pointer a i))
      -- the store of the argument
      have hstep₂ : Machine.step R P (t.set g.next (some (.pointer a i))) =
          (t.set g.next (some (.pointer a i))).write a i c := by
        rw [h₁.step hfinal (hleads₂.fetch hg₁.wellFormed)]
        have hptr : (t.set g.next (some (.pointer a i))).eval R (.reg g.next) =
          some (.pointer a i) := Function.update_self ..
        simp only [Machine.execute, (hv.same hsame₁).eval, hptr]
      have h₂ := h₁.write hg₁ (.store v (.reg g.next)) hslot i c
      obtain ⟨t', hreaches, hsame, hsynced, hbefore, hafter⟩ := ih hg₂ hrun h₂
        (hn.trans (Nat.le_succ _)) (hargs.imp fun _ _ hv => hv.same hsame₁)
      refine ⟨t', (Machine.reaches_step hstep₁).trans ((Machine.reaches_step hstep₂).trans hreaches),
        hsame₁.trans hsame, hsynced, fun k hk => ?_, fun k c' hk => ?_⟩
      · rw [hbefore k (Nat.lt_succ_of_lt hk)]
        simp [Machine.write, Machine.next, Machine.set, Function.update_of_ne hk.ne]
      · cases k with
        | zero =>
            obtain rfl := Option.some.inj hk
            rw [Nat.add_zero, hbefore i (Nat.lt_succ_self i)]
            simp [Machine.write, Machine.next]
        | succ k => 
            rw [Nat.add_succ, ← Nat.succ_add]
            exact hafter k c' hk

/-- The context after a piece that makes no local. -/
theorem Ready.piece (hg : Ready g scope) {m : Gen β} {b : β} (hgrow : Grows m)
    (hkeep : Does KeepsLocals m) (hrun : m g = .ok (b, g')) : Ready g' scope :=
  hg.keep (hgrow g b g' hg.wellFormed hrun) (hkeep g b g' hg.wellFormed hrun).locals

theorem Ready.buildArgv (hg : Ready g scope) {args : List Operand} {argv : Operand}
    (hrun : buildArgv args g = .ok (argv, g')) : Ready g' scope :=
  hg.piece (stable_grow.buildArgv args) (stableCalls_keepsLocals.toStable.buildArgv args) hrun

/-- The arguments are put into their array. -/
theorem reaches_buildArgv (hfinal : Final F P) (hg : Ready g scope) {args : List Operand}
    {values : List α} {argv : Operand} (hrun : buildArgv args g = .ok (argv, g'))
    (hleads : Leads F g') (h : Synced F g s t)
    (hargs : List.Forall₂ (fun v c => Holds R t v g.next c) args values) :
    ∃ t' array, Machine.Reaches R P t t' ∧ Same g.next t t' ∧ Synced F g' s t' ∧
      t'.eval R argv = some array ∧ (∀ r, argv = .reg r → r < g'.next) ∧
      t'.argv args.length array = some values := by
  unfold buildArgv at hrun
  split at hrun
  · next hempty =>
      obtain ⟨rfl, rfl⟩ := pure_ok.mp hrun
      obtain rfl := List.isEmpty_iff.mp hempty
      cases hargs
      exact ⟨t, .null, .refl t, .refl _ t, h, rfl, nofun, rfl⟩
  · simp only [bind_ok, emitRegAt_ok, pure_ok] at hrun
    obtain ⟨e, g, he, r, _, ⟨rfl, rfl⟩, u, g₁, hstore, rfl, rfl⟩ := hrun
    obtain ⟨he, rfl⟩ := entryBlockBuilder_ok hg.wellFormed he
    obtain rfl := he.unique hg.entry
    have hslot := hg.slot (i := fun r => .arrayAlloca r args.length) (fun _ => rfl) fun _ => rfl
    have hleads₁ := hleads.grow (stable_grow.storeArgs _ _ _ _ _ _ hslot.wellFormed hstore)
    have hlocal := hleads₁.not_local hg.wellFormed (Nat.lt_succ_self g.next) rfl
    have hmem : Instr.arrayAlloca g.next args.length ∈ F.instrs 0 := by
      refine (hleads₁.longer 0).subset ?_
      rw [show (g.emitNew 0 fun r => .arrayAlloca r args.length).instrs 0 = _ from
        CodegenContext.emitAt_instrs_self (CodegenContext.lt_of_fnOf (entry_iff.mp he).1) _]
      exact List.mem_append_right _ (.head _)
    obtain ⟨t', hreaches, hsame, hsynced, -, hcells⟩ := reaches_storeArgs hfinal hlocal hmem rfl
      hslot hstore hleads (h.slot hg _) (Nat.le_succ _) hargs
    have hlength := hargs.length_eq
    refine ⟨t', .pointer g.next 0, hreaches, hsame, hsynced, hsynced.slots _ hmem _ rfl,
      fun r hr => ?_, congrArg some (List.ext_getElem (by simp [hlength]) fun k hk hk' => ?_)⟩
    · have hgrow := stable_grow.storeArgs _ _ _ _ _ _ hslot.wellFormed hstore
      exact Operand.reg.inj hr ▸ (Nat.lt_succ_self g.next).trans_le hgrow.next
    · simp [← hcells k values[k] (List.getElem?_eq_getElem hk')]

/-- **The invocation of a method.** -/
theorem result_buildMethodInvocation (hfinal : Final F P) (hg : Ready g scope)
    {receiver v : Operand} {name : String} {args : List Operand} {a : α} {values : List α}
    (hrun : buildMethodInvocation receiver name args g = .ok (v, g')) (hleads : Leads F g')
    (h : Synced F g s t) (hreceiver : Holds R t receiver g.next a)
    (hargs : List.Forall₂ (fun v c => Holds R t v g.next c) args values) :
    Result R P g.next s.world.left t (Yields R F g' v) (Interp.invoke R a name values s) := by
  simp only [buildMethodInvocation, mkSym, bind_ok, buildCall_ok, get_ok] at hrun
  obtain ⟨argv, g₁, hargv, _, _, ⟨rfl, rfl⟩, _, _, ⟨rfl, rfl⟩, hrun⟩ := hrun
  have hg₁ := hg.buildArgv hargv
  have hg₂ := hg₁.emitNew (i := fun r => .call r "pup_env_str_to_sym" [.env, .str name])
    fun _ => rfl
  simp only [hg₂.landingpad, buildCall_ok] at hrun
  obtain ⟨rfl, rfl⟩ := hrun
  have hleads₂ := hleads.grow ((Grow.refl hg₂.wellFormed).emitNewHere fun _ => rfl)
  have hleads₁ := hleads₂.grow ((Grow.refl hg₁.wellFormed).emitNewHere fun _ => rfl)
  have hnext := (stable_grow.buildArgv _ _ _ _ hg.wellFormed hargv).next
  obtain ⟨t₁, array, hreaches, hsame, hsynced, heval, hbelow, hvalues⟩ :=
    reaches_buildArgv hfinal hg hargv hleads₁ h hargs
  refine Result.after (Result.mono ?_ hnext (Nat.le_refl _)) hreaches hsame
  refine (result_call hfinal hg₁ hleads₂ hsynced (by decide) rfl).bind
    fun sym s₂ t₂ _ hleft hsame₂ ⟨hyields, hcells⟩ => ?_
  have hc : t₂.called R "pup_invoke" [.env, receiver, .reg g₁.next, .int args.length, argv] =
      some (.invoke a sym values) := by
    have hval := ((hreceiver.same hsame).same (hsame₂.mono hnext)).eval
    have harray : t₂.eval R argv = some array := by
      cases argv with
      | reg r => exact (hsame₂ r (hbelow r rfl)).trans heval
      | _ => exact heval
    have hargv : t₂.argv args.length array = some values := by
      rw [← hvalues]
      cases array <;> simp [Machine.argv, hcells]
    have hwords : List.Forall₂ (fun v w => t₂.eval R v = some w)
        [.env, receiver, .reg g₁.next, .int args.length, argv]
        [.env, .value a, .value sym, .int args.length, array] :=
      .cons rfl (.cons hval (.cons hyields.holds.eval (.cons rfl (.cons harray .nil))))
    rw [Machine.called_of_eval hwords]
    exact congrArg (Option.map (Call.invoke a sym)) hargv
  exact ((result_call hfinal hg₂ hleads hyields.toSynced (by decide) hc).mono
    (Nat.le_succ _) hleft).imp fun _ _ _ h => h.1

/-! ### Expressions -/

/-- What is generated does what the interpreter does. -/
def Follows (R : Runtime α) (F P : CodegenContext) (m : Gen Operand)
    (f : List String → Interp α α) : Prop :=
  ∀ g v g' scope s t, Ready g scope → m g = .ok (v, g') → Leads F g' → Synced F g s t →
    Result R P g.next s.world.left t (Yields R F g' v) (f scope s)

/-- The same of a list. -/
def FollowsList (R : Runtime α) (F P : CodegenContext) (m : Gen (List Operand))
    (f : List String → Interp α (List α)) : Prop :=
  ∀ g vs g' scope s t, Ready g scope → m g = .ok (vs, g') → Leads F g' → Synced F g s t →
    Result R P g.next s.world.left t
      (fun values s' t' => Synced F g' s' t' ∧
        List.Forall₂ (fun v c => Holds R t' v g'.next c) vs values) (f scope s)

/-- A call is followed by nothing. -/
theorem follows_buildCall (hfinal : Final F P) {fn : String} {args : List Operand} {c : Call α}
    (hfn : fn ≠ "llvm.gcroot") (hc : ∀ t : Machine α, t.called R fn args = some c) :
    Follows R F P (buildCall fn args) fun _ => Interp.call R c := by
  intro g v g' scope s t hg hrun hleads h
  obtain ⟨rfl, rfl⟩ := buildCall_ok.mp hrun
  exact (result_call hfinal hg hleads h hfn (hc t)).imp fun _ _ _ h => h.1

theorem follows_self : Follows R F P (do return (← get).self_ref) fun _ => pure R.self := by
  intro g v g' scope s t hg hrun hleads h
  obtain ⟨_, _, hget, hrun⟩ := bind_ok.mp hrun
  obtain ⟨rfl, rfl⟩ := get_ok.mp hget
  obtain ⟨rfl, rfl⟩ := pure_ok.mp hrun
  exact result_pure ⟨h, hg.holds_self t⟩ (Nat.le_refl _)

/-- A value that the interpreter has is handed on. -/
theorem follows_codegenBinary (hfinal : Final F P) {class_ : BinaryClass} {op : String}
    (hop : coreOperators.contains (class_, op)) (hg : Ready g scope) {lhs rhs v : Operand}
    {a b : α} (hrun : codegenBinary class_ op lhs rhs g = .ok (v, g')) (hleads : Leads F g')
    (h : Synced F g s t) (hlhs : Holds R t lhs g.next a) (hrhs : Holds R t rhs g.next b) :
    Result R P g.next s.world.left t (Yields R F g' v) (Interp.invoke R a op [b] s) := by
  have hmethod : operatorMethod class_ op = some op := by
    simp only [coreOperators, List.contains_cons, List.contains_nil, Bool.or_false,
      Bool.or_eq_true, beq_iff_eq, Prod.mk.injEq] at hop
    rcases hop with ⟨rfl, rfl⟩ | ⟨rfl, rfl⟩ | ⟨rfl, rfl⟩ | ⟨rfl, rfl⟩ <;> rfl
  rw [codegenBinary, hmethod] at hrun
  exact result_buildMethodInvocation hfinal hg hrun hleads h hlhs (.cons hrhs .nil)

theorem follows_localAccess (hfinal : Final F P) {name : String} :
    Follows R F P (localAccess name) fun _ => Interp.get name := by
  intro g v g' scope s t hg hrun hleads h
  rw [localAccess, bind_ok] at hrun
  obtain ⟨found, _, hget, hrun⟩ := hrun
  obtain ⟨rfl, rfl⟩ := Prod.mk.inj (Except.ok.inj hget)
  cases hlookup : g.current_method.locals.lookup name with
  | none =>
      rw [hlookup] at hrun
      exact absurd hrun throw_ok
  | some slot =>
      rw [hlookup] at hrun
      obtain ⟨rfl, rfl⟩ := emitReg_ok.mp hrun
      have hF := (hleads.grow ((Grow.refl hg.wellFormed).emitNewHere fun _ => rfl)).lookup hlookup
      have hstep : Machine.step R P t = t.set g.next (some (.value (s.locals name))) := by
        rw [h.step hfinal (hleads.fetchNew hg.wellFormed), ← h.locals name slot hF]
        simp [Machine.execute, h.slots _ (hfinal.alloca_of_lookup hF) slot rfl]
      refine .goes (Machine.reaches_step hstep) ((Same.refl g.next t).set (Nat.le_refl _) _)
        (Nat.le_refl _) ⟨h.set hg hleads _, Function.update_self .., fun r hr => ?_⟩
      exact Operand.reg.inj hr ▸ Nat.lt_succ_self g.next

theorem follows_constAccess (hfinal : Final F P) {name : String} :
    Follows R F P (constAccess name) fun _ => Interp.const R name := by
  intro g v g' scope s t hg hrun hleads h
  simp only [constAccess, mkSym, bind_ok, buildCall_ok, get_ok] at hrun
  obtain ⟨_, g, ⟨rfl, rfl⟩, _, g₁, ⟨rfl, rfl⟩, _, g₂, ⟨rfl, rfl⟩, rfl, rfl⟩ := hrun
  have hg₁ := hg.emitNew (i := fun r => .call r "pup_class_context_from" [.env, g.self_ref])
    fun _ => rfl
  have hg₂ := hg₁.emitNew (i := fun r => .call r "pup_env_str_to_sym" [.env, .str name])
    fun _ => rfl
  have hleads₂ := hleads.grow ((Grow.refl hg₂.wellFormed).emitNewHere fun _ => rfl)
  have hleads₁ := hleads₂.grow ((Grow.refl hg₁.wellFormed).emitNewHere fun _ => rfl)
  have hclass : t.called R "pup_class_context_from" [.env, g.self_ref] =
      some (.classContextFrom R.self) := by
    rw [hg.self_ref]
    rfl
  refine (result_call hfinal hg hleads₁ h (by decide) hclass).bind
    fun class_ s₁ t₁ _ hleft₁ hsame₁ ⟨h₁, _⟩ => ?_
  refine ((result_call hfinal hg₁ hleads₂ h₁.toSynced (by decide) rfl).bind
    fun sym s₂ t₂ _ hleft₂ hsame₂ ⟨h₂, _⟩ => ?_).mono (Nat.le_succ _) hleft₁
  have hlookup : t₂.called R "pup_const_get_required" [.env, .reg g.next, .reg (g.next + 1)] =
      some (.constGetRequired class_ sym) := by
    have hval : t₂.regs g.next = some (.value class_) := (h₁.holds.same hsame₂).eval
    have hsym : t₂.regs (g.next + 1) = some (.value sym) := h₂.holds.eval
    have hwords : List.Forall₂ (fun v w => t₂.eval R v = some w)
        [.env, .reg g.next, .reg (g.next + 1)] [.env, .value class_, .value sym] :=
      .cons rfl (.cons hval (.cons hsym .nil))
    exact Machine.called_of_eval hwords
  exact ((result_call hfinal hg₂ hleads h₂.toSynced (by decide) hlookup).mono (Nat.le_succ _)
    hleft₂).imp fun _ _ _ h => h.1

/-- A local is assigned what stands to the right. -/
theorem follows_assign (hfinal : Final F P) {name : String} {right : Expr}
    (ih : Follows R F P (codegenExpr right) (Interp.eval R right)) (op : String) :
    Follows R F P (codegenExpr (.assign (.name name) op right))
      (Interp.eval R (.assign (.name name) op right)) := by
  intro g v g' scope s t hg hrun hleads h
  simp only [codegenExpr, bind_ok, emit_ok, pure_ok] at hrun
  obtain ⟨lhs, g₁, hlhs, rhs, g₂, hright, _, _, rfl, rfl, rfl⟩ := hrun
  obtain ⟨slot, rfl, hlookup, hsynced⟩ := getOrCreateLocal_synced (s := s) (t := t) hg hlhs
  have hgrow₁ := stableExpr_grow.getOrCreateLocal name g _ g₁ hg.wellFormed hlhs
  have hg₁ := hg.run (stableExpr_grow.getOrCreateLocal name) (scopes_getOrCreateLocal name) hlhs
  have hg₂ := hg₁.expr hright
  have hleads₂ := hleads.grow ((Grow.refl hg₂.wellFormed).emitHere rfl)
  have hslot := (hleads₂.grow (grows_codegenExpr _ _ _ _ hg₁.wellFormed hright)).lookup hlookup
  refine ((ih g₁ v g₂ (name :: scope) s t hg₁ hright hleads₂ (hsynced h)).mono hgrow₁.next
    (Nat.le_refl _)).bind fun a s₂ t₂ _ hleft hsame h₂ => ?_
  have hstep : Machine.step R P t₂ = t₂.write slot 0 a := by
    rw [h₂.step hfinal (hleads.fetch hg₂.wellFormed)]
    simp [Machine.execute, h₂.holds.eval, h₂.slots _ (hfinal.alloca_of_lookup hslot) slot rfl]
  exact Result.goes (Machine.reaches_step hstep) (.refl _ _) hleft
    ⟨h₂.toSynced.assign hfinal hg₂ _ hslot a, h₂.holds.same (.refl _ _)⟩

theorem follows_assignInstVar (hfinal : Final F P) {name : String} {right : Expr}
    (ih : Follows R F P (codegenExpr right) (Interp.eval R right)) (op : String) :
    Follows R F P (codegenExpr (.assign (.instVar name) op right))
      (Interp.eval R (.assign (.instVar name) op right)) := by
  intro g v g' scope s t hg hrun hleads h
  simp only [codegenExpr, mkSym, bind_ok, buildCall_ok, get_ok, pure_ok] at hrun
  obtain ⟨rhs, g₁, hright, _, _, ⟨rfl, rfl⟩, _, g₂, ⟨rfl, rfl⟩, _, _, ⟨rfl, rfl⟩, rfl, rfl⟩ := hrun
  have hg₁ := hg.expr hright
  have hg₂ := hg₁.emitNew (i := fun r => .call r "pup_env_str_to_sym" [.env, .str name])
    fun _ => rfl
  have hleads₂ := hleads.grow ((Grow.refl hg₂.wellFormed).emitNewHere fun _ => rfl)
  have hleads₁ := hleads₂.grow ((Grow.refl hg₁.wellFormed).emitNewHere fun _ => rfl)
  have hnext := (grows_codegenExpr _ _ _ _ hg.wellFormed hright).next
  refine (ih g v g₁ scope s t hg hright hleads₁ h).bind fun a s₁ t₁ _ hleft₁ hsame₁ h₁ => ?_
  refine ((result_call hfinal hg₁ hleads₂ h₁.toSynced (by decide) rfl).bind
    fun sym s₂ t₂ _ hleft₂ hsame₂ ⟨h₂, _⟩ => ?_).mono hnext hleft₁
  have hset : t₂.called R "pup_iv_set" [.env, g₁.self_ref, .reg g₁.next, v] =
      some (.ivSet R.self sym a) := by
    have hself := (hg₁.holds_self (R := R) t₂).eval
    have hsym : t₂.regs g₁.next = some (.value sym) := h₂.holds.eval
    have hval := (h₁.holds.same hsame₂).eval
    have hwords : List.Forall₂ (fun v w => t₂.eval R v = some w)
        [.env, g₁.self_ref, .reg g₁.next, v] [.env, .value R.self, .value sym, .value a] :=
      .cons rfl (.cons hself (.cons hsym (.cons hval .nil)))
    exact Machine.called_of_eval hwords
  refine ((result_call hfinal hg₂ hleads h₂.toSynced (by decide) hset).mono (Nat.le_succ _)
    hleft₂).bind fun _ s₃ t₃ _ hleft₃ hsame₃ ⟨h₃, _⟩ => ?_
  exact result_pure ⟨h₃.toSynced, ((h₁.holds.same hsame₂).same hsame₃).mono
    ((Nat.le_succ _).trans (Nat.le_succ _))⟩ hleft₃

theorem follows_instVar (hfinal : Final F P) (name : String) :
    Follows R F P (codegenExpr (.instVar name)) (Interp.eval R (.instVar name)) := by
  intro g v g' scope s t hg hrun hleads h
  simp only [codegenExpr, mkSym, bind_ok, buildCall_ok, get_ok] at hrun
  obtain ⟨_, _, ⟨rfl, rfl⟩, _, g₁, ⟨rfl, rfl⟩, rfl, rfl⟩ := hrun
  have hg₁ := hg.emitNew (i := fun r => .call r "pup_env_str_to_sym" [.env, .str name])
    fun _ => rfl
  have hleads₁ := hleads.grow ((Grow.refl hg₁.wellFormed).emitNewHere fun _ => rfl)
  refine (result_call hfinal hg hleads₁ h (by decide) rfl).bind
    fun sym s₁ t₁ _ hleft hsame ⟨h₁, _⟩ => ?_
  have hget : t₁.called R "pup_iv_get" [g.self_ref, .reg g.next] =
      some (.ivGet R.self sym) := by
    have hself := (hg.holds_self (R := R) t₁).eval
    have hsym : t₁.regs g.next = some (.value sym) := h₁.holds.eval
    have hwords : List.Forall₂ (fun v w => t₁.eval R v = some w)
        [g.self_ref, .reg g.next] [.value R.self, .value sym] :=
      .cons hself (.cons hsym .nil)
    exact Machine.called_of_eval hwords
  exact ((result_call hfinal hg₁ hleads h₁.toSynced (by decide) hget).mono (Nat.le_succ _)
    hleft).imp fun _ _ _ h => h.1

theorem follows_binary (hfinal : Final F P) {class_ : BinaryClass} {left right : Expr}
    {op : String} (hop : coreOperators.contains (class_, op))
    (ihl : Follows R F P (codegenExpr left) (Interp.eval R left))
    (ihr : Follows R F P (codegenExpr right) (Interp.eval R right)) :
    Follows R F P (codegenExpr (.binary class_ left op right))
      (Interp.eval R (.binary class_ left op right)) := by
  intro g v g' scope s t hg hrun hleads h
  simp only [codegenExpr, bind_ok] at hrun
  obtain ⟨lhs, g₁, hl, rhs, g₂, hr, hrun⟩ := hrun
  have hg₁ := hg.expr hl
  have hg₂ := hg₁.expr hr
  have hleads₂ := hleads.grow
    (stableExpr_grow.codegenBinary _ _ _ _ _ _ _ hg₂.wellFormed hrun)
  have hgrow₂ := grows_codegenExpr _ _ _ _ hg₁.wellFormed hr
  have hgrow₁ := grows_codegenExpr _ _ _ _ hg.wellFormed hl
  refine (ihl g lhs g₁ scope s t hg hl (hleads₂.grow hgrow₂) h).bind
    fun a s₁ t₁ _ hleft₁ hsame₁ h₁ => ?_
  refine ((ihr g₁ rhs g₂ _ s₁ t₁ hg₁ hr hleads₂ h₁.toSynced).bind
    fun b s₂ t₂ _ hleft₂ hsame₂ h₂ => ?_).mono hgrow₁.next hleft₁
  exact (follows_codegenBinary hfinal hop hg₂ hrun hleads h₂.toSynced
    ((h₁.holds.same hsame₂).mono hgrow₂.next) h₂.holds).mono hgrow₂.next hleft₂

/-- A name: a constant, a local or an invocation. -/
theorem follows_varOrInvoke (hfinal : Final F P) {name : NamedValue} {args : Option (List Expr)}
    {block : Option Parse.Block} {receiver : Option Expr}
    (ihr : Follows R F P (codegenReceiver receiver) (Interp.evalReceiver R receiver))
    (iha : FollowsList R F P (codegenArgList args) (Interp.evalArgList R args)) :
    Follows R F P (codegenExpr (.varOrInvoke name args block receiver))
      (Interp.eval R (.varOrInvoke name args block receiver)) := by
  intro g v g' scope s t hg hrun hleads h
  rw [codegenExpr] at hrun
  rw [Interp.eval]
  split at hrun
  · next hconst =>
      rw [if_pos hconst]
      exact follows_constAccess hfinal g v g' scope s t hg hrun hleads h
  · next hconst =>
      rw [if_neg hconst]
      rw [bind_ok] at hrun
      obtain ⟨found, g, hlocal, hrun⟩ := hrun
      obtain ⟨rfl, rfl⟩ := isLocal_ok hg.scope hlocal
      split at hrun
      · next hfound =>
          rw [if_pos hfound]
          exact follows_localAccess hfinal g v g' scope s t hg hrun hleads h
      · next hfound =>
          rw [if_neg hfound]
          simp only [bind_ok] at hrun
          obtain ⟨r, g₁, hr, vs, g₂, ha, hrun⟩ := hrun
          have hg₁ := hg.run (stableExpr_grow.codegenReceiver receiver)
            (scopes_codegenReceiver receiver) hr
          have hg₂ := hg₁.run (stableExpr_grow.codegenArgList args)
            (scopes_codegenArgList args) ha
          have hleads₂ := hleads.grow
            (stableExpr_grow.buildMethodInvocation _ _ _ _ _ _ hg₂.wellFormed hrun)
          have hgrow₂ := stableExpr_grow.codegenArgList _ _ _ _ hg₁.wellFormed ha
          have hgrow₁ := stableExpr_grow.codegenReceiver _ _ _ _ hg.wellFormed hr
          refine (ihr g r g₁ scope s t hg hr (hleads₂.grow hgrow₂) h).bind
            fun a s₁ t₁ _ hleft₁ hsame₁ h₁ => ?_
          refine ((iha g₁ vs g₂ _ s₁ t₁ hg₁ ha hleads₂ h₁.toSynced).bind
            fun values s₂ t₂ _ hleft₂ hsame₂ h₂ => ?_).mono hgrow₁.next hleft₁
          exact (result_buildMethodInvocation hfinal hg₂ hrun hleads h₂.1
            ((h₁.holds.same hsame₂).mono hgrow₂.next) h₂.2).mono hgrow₂.next hleft₂

mutual

/-- **What an expression is generated as does what it means.** -/
theorem follows_codegenExpr (hfinal : Final F P) :
    (e : Expr) → coreExpr e → Follows R F P (codegenExpr e) (Interp.eval R e)
  | .assign (.name name) op right, hcore => by
      have ih := follows_codegenExpr hfinal right (by simp_all [coreExpr])
      exact follows_assign hfinal ih op
  | .assign (.instVar name) op right, hcore => by
      have ih := follows_codegenExpr hfinal right (by simp_all [coreExpr])
      exact follows_assignInstVar hfinal ih op
  | .varOrInvoke name args block receiver, hcore => by
      have ihr := follows_codegenReceiver hfinal receiver (by simp_all [coreExpr])
      have iha := follows_codegenArgList hfinal args (by simp_all [coreExpr])
      exact follows_varOrInvoke hfinal ihr iha
  | .instVar name, _ => follows_instVar hfinal name
  | .binary class_ left op right, hcore => by
      have ihl := follows_codegenExpr hfinal left (by simp_all [coreExpr])
      have ihr := follows_codegenExpr hfinal right (by simp_all [coreExpr])
      exact follows_binary hfinal (by simp_all [coreExpr]) ihl ihr
  | .string source, _ => by
      rw [codegenExpr]
      exact follows_buildCall hfinal (by decide) fun _ => rfl
  | .int source, _ => by
      rw [codegenExpr]
      exact follows_buildCall hfinal (by decide) fun _ => rfl
  | .bool true, _ => by
      rw [codegenExpr]
      exact follows_buildCall hfinal (by decide) fun _ => rfl
  | .bool false, _ => by
      rw [codegenExpr]
      exact follows_buildCall hfinal (by decide) fun _ => rfl
  | .selfExpr, _ => by
      rw [codegenExpr]
      exact follows_self

theorem follows_codegenReceiver (hfinal : Final F P) :
    (receiver : Option Expr) → coreReceiver receiver →
      Follows R F P (codegenReceiver receiver) (Interp.evalReceiver R receiver)
  | some receiver, hcore => by
      rw [codegenReceiver]
      exact follows_codegenExpr hfinal receiver hcore
  | none, _ => by
      rw [codegenReceiver]
      exact follows_self

theorem follows_codegenArgList (hfinal : Final F P) :
    (args : Option (List Expr)) → coreArgList args →
      FollowsList R F P (codegenArgList args) (Interp.evalArgList R args)
  | some args, hcore => by
      rw [codegenArgList]
      exact follows_codegenExprs hfinal args hcore
  | none, _ => by
      intro g vs g' scope s t hg hrun hleads h
      rw [codegenArgList] at hrun
      obtain ⟨rfl, rfl⟩ := pure_ok.mp hrun
      exact result_pure ⟨h, .nil⟩ (Nat.le_refl _)

theorem follows_codegenExprs (hfinal : Final F P) :
    (es : List Expr) → coreExprs es →
      FollowsList R F P (codegenExprs es) (Interp.evalExprs R es)
  | [], _ => by
      intro g vs g' scope s t hg hrun hleads h
      rw [codegenExprs] at hrun
      obtain ⟨rfl, rfl⟩ := pure_ok.mp hrun
      exact result_pure ⟨h, .nil⟩ (Nat.le_refl _)
  | e :: es, hcore => by
      have ihe := follows_codegenExpr hfinal e (by simp_all [coreExprs])
      have ihes := follows_codegenExprs hfinal es (by simp_all [coreExprs])
      intro g vs g' scope s t hg hrun hleads h
      simp only [codegenExprs, bind_ok, pure_ok] at hrun
      obtain ⟨v, g₁, he, vs, g₂, hes, rfl, rfl⟩ := hrun
      have hg₁ := hg.expr he
      have hgrow₁ := grows_codegenExpr _ _ _ _ hg.wellFormed he
      have hgrow₂ := stableExpr_grow.codegenExprs _ _ _ _ hg₁.wellFormed hes
      refine (ihe g v g₁ scope s t hg he (hleads.grow hgrow₂) h).bind
        fun a s₁ t₁ _ hleft₁ hsame₁ h₁ => ?_
      refine ((ihes g₁ vs g' _ s₁ t₁ hg₁ hes hleads h₁.toSynced).bind
        fun values s₂ t₂ _ hleft₂ hsame₂ h₂ => ?_).mono hgrow₁.next hleft₁
      exact result_pure ⟨h₂.1, .cons ((h₁.holds.same hsame₂).mono hgrow₂.next) h₂.2⟩ hleft₂

end

end Pup.Codegen
