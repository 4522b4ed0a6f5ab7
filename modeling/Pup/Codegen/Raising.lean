/-
Executing code that raises.

To the machine of `Execute` every call returns, and `Unwinding` answers a call by an exception
only where a landing pad takes it.  Here any call may raise, as the runtime has it: an `invoke`
then goes on in its landing pad, and any other call is left by the exception, and the function
with it.  Where the machine of before makes no call and does not get stuck, this one does the
same (`Execution.gets_of_reaches`), so that what has been proved of such pieces holds here too.
-/
import Pup.Codegen.Dispatch

namespace Pup.Codegen

variable {α β γ : Type}

/-! ### Calls that raise -/

/-- A runtime whose calls may raise. -/
structure Raising (α : Type) extends Runtime α where
  /-- The last of the calls raises. -/
  raises : List (Call α) → Bool
  /-- What is said of an exception after the calls. -/
  unwinding : List (Call α) → Unwinding α

/-- The world after a call, if the call raises. -/
def World.raised (R : Raising α) (c : Call α) (w : World α) : Option (World α) :=
  match c, w.left with
  | .getTrueinstance, _ => none
  | .getFalseinstance, _ => none
  | _, 0 => none
  | _, left + 1 =>
      if R.raises (w.calls ++ [c]) then some ⟨w.calls ++ [c], left⟩ else none

theorem World.raised_some {R : Raising α} {c : Call α} {w w' : World α}
    (h : w.raised R c = some w') : w'.calls = w.calls ++ [c] ∧ w'.left < w.left := by
  unfold World.raised at h
  split at h
  · cases h
  · cases h
  · cases h
  · next left _ _ hleft =>
      split at h
      · obtain rfl := Option.some.inj h
        exact ⟨rfl, hleft ▸ Nat.lt_succ_self left⟩
      · cases h

theorem World.call_calls {R : Runtime α} (c : Call α) (w : World α) :
    (w.call R c).2.calls = w.calls ++ [c] := by
  cases c <;> cases hleft : w.left <;> simp [World.call, hleft]

/-- A function that is executed, or an exception that has left it. -/
inductive Execution (α : Type)
  | inside (t : Machine α)
  | left (dwarf_ex : α) (world : World α)

namespace Machine

variable {P : CodegenContext} {t : Machine α} [DecidableEq α]

/-! ### Steps that raise -/

variable {R : Raising α} {P : CodegenContext}

/-- The world after the call that an instruction makes, if the call raises. -/
def raised (R : Raising α) (t : Machine α) : Instr → Option (World α)
  | .call _ fn args => (t.called R.toRuntime fn args).bind (t.world.raised R)
  | .invoke _ fn args _ _ => (t.called R.toRuntime fn args).bind (t.world.raised R)
  | _ => none

/-- The exception that an instruction raises again. -/
def rethrown (R : Raising α) (t : Machine α) : Instr → Option α
  | .call _ "pup_rethrow_uncaught_exception" [v] =>
      match t.eval R.toRuntime v with
      | some (.value dwarf_ex) => some dwarf_ex
      | _ => none
  | _ => none

def executeRaising (R : Raising α) (t : Machine α) (i : Instr) : Execution α :=
  match t.rethrown R i, t.raised R i, i with
  | some dwarf_ex, _, _ => .left dwarf_ex t.world
  | none, some world, .invoke _ _ _ _ exception =>
      .inside ({ t with world := world }.jump exception)
  | none, some world, _ => .left (R.unwinding world.calls).dwarf_ex world
  | none, none, _ => .inside (t.executeWith R.toRuntime (R.unwinding t.world.calls) i)

omit [DecidableEq α] in
/-- What is called has no other meaning. -/
theorem rethrown_of_called {r : Nat} {fn : String} {args : List Operand}
    (h : t.called R.toRuntime fn args ≠ none) : t.rethrown R (.call r fn args) = none := by
  unfold rethrown
  split
  · next v heq =>
      obtain ⟨-, rfl, rfl⟩ := Instr.call.inj heq
      refine absurd (Option.bind_eq_none_iff.mpr ?_) h
      exact fun _ _ => rfl
  · rfl

omit [DecidableEq α] in
/-- And no landing pad makes the call. -/
theorem lands_of_called {R : Runtime α} {U : Unwinding α} {r : Nat} {fn : String}
    {args : List Operand} {c : Call α} (h : t.called R fn args = some c) :
    t.lands R U (.call r fn args) = none := by
  cases hlands : t.lands R U (.call r fn args) with
  | none => rfl
  | some p =>
      obtain ⟨w, hw, -⟩ := Option.map_eq_some_iff.mp hlands
      obtain ⟨words, hwords, hreturns⟩ := Option.bind_eq_some_iff.mp hw
      have hnone : t.decode fn words = none := (decode_of_returns hreturns).2
      rw [called, hwords, Option.bind_some, hnone] at h
      cases h

/-- **A call that returns or raises.** -/
theorem executeRaising_call {r : Nat} {fn : String} {args : List Operand} {c : Call α}
    (hfn : fn ≠ "llvm.gcroot") (hc : t.called R.toRuntime fn args = some c) :
    t.executeRaising R (.call r fn args) = match t.world.raised R c with
      | some world => .left (R.unwinding world.calls).dwarf_ex world
      | none => .inside (t.perform R.toRuntime r c) := by
  have hrethrown := rethrown_of_called (R := R) (r := r) (by rw [hc]; exact Option.some_ne_none c)
  have hraised : t.raised R (.call r fn args) = t.world.raised R c := by simp [raised, hc]
  simp only [executeRaising, hrethrown, hraised]
  cases t.world.raised R c with
  | some world => rfl
  | none => simp [executeWith, lands_of_called hc, execute, Machine.call, hfn, hc]

theorem executeRaising_invoke {r normal exception : Nat} {fn : String} {args : List Operand}
    {c : Call α} (hfn : fn ≠ "llvm.gcroot") (hc : t.called R.toRuntime fn args = some c) :
    t.executeRaising R (.invoke r fn args normal exception) = match t.world.raised R c with
      | some world => .inside ({ t with world := world }.jump exception)
      | none =>
          let t' := t.perform R.toRuntime r c
          .inside (if t'.progress = .running then t'.jump normal else t') := by
  have hraised : t.raised R (.invoke r fn args normal exception) = t.world.raised R c := by
    simp [raised, hc]
  have hrethrown : t.rethrown R (.invoke r fn args normal exception) = none := rfl
  simp only [executeRaising, hrethrown, hraised]
  cases t.world.raised R c with
  | some world => rfl
  | none => simp [executeWith, lands, execute, Machine.call, hfn, hc]

omit [DecidableEq α] in
theorem perform_calls {R : Runtime α} (r : Nat) (c : Call α) :
    (t.perform R r c).world.calls = t.world.calls ++ [c] := by
  rw [← World.call_calls (R := R) c t.world, perform]
  split <;> next heq => rw [heq]; rfl

omit [DecidableEq α] in
theorem called_gcroot {R : Runtime α} (args : List Operand) :
    t.called R "llvm.gcroot" args = none :=
  Option.bind_eq_none_iff.mpr fun _ _ => rfl

/-- An instruction makes no call, or one. -/
theorem execute_world {R : Runtime α} (i : Instr) : (t.execute R i).world = t.world ∨
    ∃ c, (t.execute R i).world.calls = t.world.calls ++ [c] := by
  have hcall : ∀ r fn args, (t.call R r fn args).world = t.world ∨
      ∃ c, (t.call R r fn args).world.calls = t.world.calls ++ [c] := by
    intro r fn args
    rw [Machine.call]
    split
    · exact .inl rfl
    · split
      · next c _ => exact .inr ⟨c, perform_calls r c⟩
      · exact .inl rfl
  cases i with
  | call r fn args => exact hcall r fn args
  | invoke r fn args normal exception =>
      simp only [execute]
      split <;> exact hcall r fn args
  | load r ptr => simp only [execute]; split <;> exact .inl rfl
  | store v ptr => simp only [execute]; split <;> exact .inl rfl
  | gep r ptr k => simp only [execute]; split <;> exact .inl rfl
  | icmpEq r a b => simp only [execute]; split <;> exact .inl rfl
  | cond v ifTrue ifFalse => simp only [execute]; split <;> exact .inl rfl
  | _ => exact .inl rfl

/-- Where no call is made, nothing is raised. -/
theorem executeRaising_quiet {i : Instr} (hworld : (t.execute R.toRuntime i).world = t.world)
    (hgoes : (t.execute R.toRuntime i).progress ≠ .stuck) :
    t.executeRaising R i = .inside (t.execute R.toRuntime i) := by
  have hcalled : ∀ {r fn args}, (t.call R.toRuntime r fn args).world = t.world →
      t.called R.toRuntime fn args = none := by
    intro r fn args hworld
    cases hc : t.called R.toRuntime fn args with
    | none => rfl
    | some c =>
        have hfn : fn ≠ "llvm.gcroot" := by
          rintro rfl
          rw [called_gcroot] at hc
          cases hc
        rw [Machine.call, if_neg hfn, hc] at hworld
        have hcalls := perform_calls (R := R.toRuntime) (t := t) r c
        rw [hworld] at hcalls
        simp at hcalls
  have hraised : t.raised R i = none := by
    cases i with
    | call r fn args => simp [raised, hcalled (r := r) hworld]
    | invoke r fn args normal exception =>
        have hworld' : (t.call R.toRuntime r fn args).world = t.world := by
          rw [← hworld]
          simp only [execute]
          split <;> rfl
        simp [raised, hcalled hworld']
    | _ => rfl
  have hrethrown : t.rethrown R i = none := by
    unfold rethrown
    split
    · next r v =>
        refine absurd ?_ hgoes
        show (t.call R.toRuntime r _ _).progress = _
        rw [Machine.call, if_neg (by decide), hcalled (r := r) hworld]
        rfl
    · rfl
  simp only [executeRaising, hrethrown, hraised, executeWith_eq hgoes]

/-- What only a landing pad does raises nothing. -/
theorem executeRaising_lands {i : Instr} {r : Nat} {w : Word α}
    (h : t.lands R.toRuntime (R.unwinding t.world.calls) i = some (r, w)) :
    t.executeRaising R i = .inside (t.set r (some w)) := by
  have hraised : t.raised R i = none := by
    cases i with
    | call r' fn args =>
        cases hc : t.called R.toRuntime fn args with
        | none => simp [raised, hc]
        | some c =>
            rw [lands_of_called hc] at h
            cases h
    | structGep r' ptr k => rfl
    | load r' ptr => rfl
    | _ => cases h
  have hrethrown : t.rethrown R i = none := by
    unfold rethrown
    split
    · obtain ⟨w', hw, -⟩ := Option.map_eq_some_iff.mp h
      obtain ⟨words, -, hreturns⟩ := Option.bind_eq_some_iff.mp hw
      have hnone : (R.unwinding t.world.calls).returns "pup_rethrow_uncaught_exception" words =
        none := rfl
      rw [hnone] at hreturns
      cases hreturns
    · rfl
  simp only [executeRaising, hrethrown, hraised, executeWith_lands h]

theorem executeRaising_rethrow {r : Nat} {v : Operand} {dwarf_ex : α}
    (h : t.eval R.toRuntime v = some (.value dwarf_ex)) :
    t.executeRaising R (.call r "pup_rethrow_uncaught_exception" [v]) =
      .left dwarf_ex t.world := by
  simp [executeRaising, rethrown, h]

end Machine

namespace Execution

open Machine

variable [DecidableEq α] {R : Raising α} {P : CodegenContext} {e e' e'' : Execution α}
  {t t' : Machine α}

/-- One instruction. -/
def step (R : Raising α) (P : CodegenContext) : Execution α → Execution α
  | .inside t =>
      match t.progress, (P.instrs t.block)[t.index]? with
      | .running, some i => t.executeRaising R i
      | .running, none => .inside (t.stop .stuck)
      | _, _ => .inside t
  | .left dwarf_ex world => .left dwarf_ex world

def run (R : Raising α) (P : CodegenContext) (n : Nat) (e : Execution α) : Execution α :=
  (step R P)^[n] e

/-- The execution gets there. -/
def Gets (R : Raising α) (P : CodegenContext) (e e' : Execution α) : Prop :=
  ∃ n, run R P n e = e'

theorem Gets.refl (e : Execution α) : Gets R P e e := ⟨0, rfl⟩

theorem Gets.trans (h : Gets R P e e') (h' : Gets R P e' e'') : Gets R P e e'' := by
  obtain ⟨n, rfl⟩ := h
  obtain ⟨m, rfl⟩ := h'
  exact ⟨m + n, Function.iterate_add_apply _ m n e⟩

theorem gets_step (h : step R P e = e') : Gets R P e e' := ⟨1, h⟩

theorem step_running {i : Instr} (hrun : t.progress = .running)
    (hi : (P.instrs t.block)[t.index]? = some i) :
    step R P (.inside t) = t.executeRaising R i := by
  rw [step, hrun, hi]

/-- Nothing more is executed. -/
def Halted : Execution α → Prop
  | .inside t => t.progress ≠ .running
  | .left _ _ => True

theorem step_halted (h : e.Halted) : step R P e = e := by
  cases e with
  | left dwarf_ex world => rfl
  | inside t =>
      rw [step]
      split
      · contradiction
      · contradiction
      · rfl

theorem Gets.run_eq (h : Gets R P e e') (hhalted : e'.Halted) :
    ∃ n, ∀ m ≥ n, run R P m e = e' := by
  obtain ⟨n, hn⟩ := h
  refine ⟨n, fun m hm => ?_⟩
  obtain ⟨k, rfl⟩ := Nat.exists_eq_add_of_le' hm
  rw [run, Function.iterate_add_apply]
  exact (congrArg _ hn).trans (Function.iterate_fixed (step_halted hhalted) k)

/-! ### Pieces without a call -/

theorem step_world {R : Runtime α} : (Machine.step R P t).world = t.world ∨
    ∃ c, (Machine.step R P t).world.calls = t.world.calls ++ [c] := by
  rw [Machine.step]
  split
  · exact execute_world _
  · exact .inl rfl
  · exact .inl rfl

/-- No call is taken back. -/
theorem calls_length_le_run {R : Runtime α} (n : Nat) :
    t.world.calls.length ≤ (Machine.run R P n t).world.calls.length := by
  induction n generalizing t with
  | zero => exact Nat.le_refl _
  | succ n ih =>
      rw [Machine.run, Function.iterate_succ_apply]
      refine le_trans ?_ (ih (t := Machine.step R P t))
      rcases step_world (R := R) (P := P) (t := t) with hworld | ⟨c, hcalls⟩
      · rw [hworld]
      · simp [hcalls]

/-- **Where the machine of before makes no call, this one does the same.** -/
theorem gets_of_reaches (h : Machine.Reaches R.toRuntime P t t') (hworld : t'.world = t.world)
    (hrunning : t'.progress = .running) : Gets R P (.inside t) (.inside t') := by
  obtain ⟨n, rfl⟩ := h
  induction n generalizing t with
  | zero => exact .refl _
  | succ n ih =>
      rw [Machine.run, Function.iterate_succ_apply] at hworld hrunning ⊢
      have hgoes : (Machine.step R.toRuntime P t).progress = .running := by
        by_contra hhalted
        have hstay : Machine.run R.toRuntime P n (Machine.step R.toRuntime P t) = _ :=
          Machine.run_halted hhalted n
        exact hhalted (hstay ▸ hrunning)
      -- no call is made here, since none can be taken back
      have hquiet : (Machine.step R.toRuntime P t).world = t.world := by
        rcases step_world (R := R.toRuntime) (P := P) (t := t) with hquiet | ⟨c, hcalls⟩
        · exact hquiet
        · have hle := calls_length_le_run (R := R.toRuntime) (P := P)
            (t := Machine.step R.toRuntime P t) n
          have hlength : (Machine.run R.toRuntime P n
              (Machine.step R.toRuntime P t)).world.calls.length = t.world.calls.length :=
            congrArg (fun w => w.calls.length) hworld
          rw [hlength, hcalls, List.length_append] at hle
          exact absurd hle (Nat.not_succ_le_self _)
      refine .trans (gets_step ?_) (ih (hworld.trans hquiet.symm) hrunning)
      rw [Machine.step] at hgoes hquiet ⊢
      split at hgoes
      · next i hrun hi =>
          simp only [hrun, hi] at hquiet ⊢
          rw [step_running hrun hi]
          exact executeRaising_quiet hquiet (by rw [hgoes]; decide)
      · cases hgoes
      · next hsome hnone =>
          cases hi : (P.instrs t.block)[t.index]? with
          | some i => exact absurd hi (hsome i hgoes)
          | none => exact absurd hi (hnone hgoes)

end Execution

end Pup.Codegen
