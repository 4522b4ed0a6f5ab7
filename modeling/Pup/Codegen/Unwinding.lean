/-
Executing landing pads.

To the machine of `Execute` what a landing pad begins with makes no sense.  Here it has a
meaning over what the runtime says of the exception, and a call under a landing pad can be
answered by an exception.  What the runtime says may be something else after each call, so that
every raise of a run has an exception and a class of its own.  Wherever the machine of before
does not get stuck, this one does the same (`Machine.Reaches.with_`), so that what has been
proved of expressions holds here too.

Whichever way a program goes, its slots stay in their registers (`SlotsMade`).
-/
import Pup.Lib.Machine
import Pup.Codegen.Refinement
import Pup.Codegen.Numbered

namespace Pup.Codegen

variable {α β γ : Type}

/-! ### What the runtime says of an exception -/

structure Unwinding (α : Type) where
  /-- the exception that is being handled, as the unwinder has it -/
  dwarf_ex : α
  sel : Nat
  /-- `extract_exception_obj` -/
  exceptionObj : α → α
  /-- the first field of an object, which is its class -/
  type : α → α
  /-- `pup_is_descendant_or_same` -/
  isDescendantOrSame : α → α → Bool

/-- What a call that only a landing pad makes returns. -/
def Unwinding.returns (U : Unwinding α) : String → List (Word α) → Option (Word α)
  | "llvm.eh.exception", [] => some (.value U.dwarf_ex)
  | "llvm.eh.selector", [.value _, .global "pup_eh_personality", .global "eh_catchall"] =>
      some (.int U.sel)
  | "extract_exception_obj", [.value dwarf_ex] => some (.value (U.exceptionObj dwarf_ex))
  | "pup_is_descendant_or_same", [.value ancestor, .value descendant] =>
      some (.bit (U.isDescendantOrSame ancestor descendant))
  | _, _ => none

/-- The exception as an object. -/
def Unwinding.excep (U : Unwinding α) : α := U.exceptionObj U.dwarf_ex

namespace Machine

/-! ### The machine -/

/-- What an instruction of a landing pad puts into a register.  The address of the first field
of an object is that of the object. -/
def lands (R : Runtime α) (U : Unwinding α) (t : Machine α) : Instr → Option (Nat × Word α)
  | .call r fn args => ((args.mapM (t.eval R)).bind (U.returns fn)).map (r, ·)
  | .structGep r ptr 0 =>
      match t.eval R ptr with
      | some (.value a) => some (r, .value a)
      | _ => none
  | .load r ptr =>
      match t.eval R ptr with
      | some (.value a) => some (r, .value (U.type a))
      | _ => none
  | _ => none

/-- The call is answered by an exception, and the machine goes on in the landing pad. -/
def raise (t : Machine α) (c : Call α) (left landingpad : Nat) : Machine α :=
  { t with world := ⟨t.world.calls ++ [c], left⟩ }.jump landingpad

variable {R : Runtime α} {U : Unwinding α} {V : List (Call α) → Unwinding α}
  {g : CodegenContext} {t t' t'' : Machine α}

/-- A function that only a landing pad calls is none of the others. -/
theorem decode_of_returns {fn : String} {words : List (Word α)} {w : Word α}
    (h : U.returns fn words = some w) :
    fn ≠ "llvm.gcroot" ∧ t.decode fn words = none := by
  unfold Unwinding.returns at h
  split at h
  · exact ⟨by decide, rfl⟩
  · exact ⟨by decide, rfl⟩
  · exact ⟨by decide, rfl⟩
  · exact ⟨by decide, rfl⟩
  · cases h

theorem result_of_lands {i : Instr} {r : Nat} {w : Word α} (h : t.lands R U i = some (r, w)) :
    i.result = some r := by
  cases i with
  | call r' fn args =>
      obtain ⟨w', -, heq⟩ := Option.map_eq_some_iff.mp h
      exact congrArg some (Prod.mk.inj heq).1
  | structGep r' ptr k =>
      cases k with
      | zero =>
          simp only [lands] at h
          split at h
          · exact congrArg some (Prod.mk.inj (Option.some.inj h)).1
          · cases h
      | succ k => cases h
  | load r' ptr =>
      simp only [lands] at h
      split at h
      · exact congrArg some (Prod.mk.inj (Option.some.inj h)).1
      · cases h
  | _ => cases h

theorem set_regs {r r' : Nat} {w : Option (Word α)} (hr : some r' ≠ some r) :
    (t.set r' w).regs r = t.regs r :=
  Function.update_of_ne (fun heq => hr (congrArg some heq.symm)) _ _

theorem call_regs {r r' : Nat} {fn : String} {args : List Operand} (hr : some r' ≠ some r) :
    (t.call R r' fn args).regs r = t.regs r := by
  rw [Machine.call]
  split
  · rfl
  · split
    · rw [perform]
      split
      · exact set_regs hr
      · rfl
    · rfl

theorem mapM_eval {args : List Operand} {words : List (Word α)}
    (h : List.Forall₂ (fun v w => t.eval R v = some w) args words) :
    args.mapM (t.eval R) = some words := by
  induction h with
  | nil => rfl
  | cons hv _ ih => rw [List.mapM_cons, hv, ih]; rfl

theorem lands_call {r : Nat} {fn : String} {args : List Operand} {words : List (Word α)}
    {w : Word α} (h : List.Forall₂ (fun v w => t.eval R v = some w) args words)
    (hw : U.returns fn words = some w) : t.lands R U (.call r fn args) = some (r, w) := by
  rw [lands, mapM_eval h]
  exact congrArg (Option.map (r, ·)) hw

variable [DecidableEq α]

def executeWith (R : Runtime α) (U : Unwinding α) (t : Machine α) (i : Instr) : Machine α :=
  match t.lands R U i with
  | some (r, w) => t.set r (some w)
  | none => t.execute R i

def stepWith (R : Runtime α) (V : List (Call α) → Unwinding α) (g : CodegenContext)
    (t : Machine α) : Machine α :=
  match t.progress, (g.instrs t.block)[t.index]? with
  | .running, some i => t.executeWith R (V t.world.calls) i
  | .running, none => t.stop .stuck
  | _, _ => t

def runWith (R : Runtime α) (V : List (Call α) → Unwinding α) (g : CodegenContext) (n : Nat)
    (t : Machine α) : Machine α :=
  (stepWith R V g)^[n] t

/-- The machine gets there. -/
def ReachesWith (R : Runtime α) (V : List (Call α) → Unwinding α) (g : CodegenContext)
    (t t' : Machine α) : Prop :=
  ∃ n, runWith R V g n t = t'

theorem ReachesWith.refl (t : Machine α) : ReachesWith R V g t t := ⟨0, rfl⟩

theorem ReachesWith.trans (h : ReachesWith R V g t t') (h' : ReachesWith R V g t' t'') :
    ReachesWith R V g t t'' := by
  obtain ⟨n, rfl⟩ := h
  obtain ⟨m, rfl⟩ := h'
  exact ⟨m + n, Function.iterate_add_apply _ m n t⟩

theorem stepWith_running {i : Instr} (hrun : t.progress = .running)
    (hi : (g.instrs t.block)[t.index]? = some i) :
    stepWith R V g t = t.executeWith R (V t.world.calls) i := by
  rw [stepWith, hrun, hi]

theorem reachesWith_execute {i : Instr} (hrun : t.progress = .running)
    (hi : (g.instrs t.block)[t.index]? = some i) :
    ReachesWith R V g t (t.executeWith R (V t.world.calls) i) :=
  ⟨1, stepWith_running hrun hi⟩

theorem executeWith_lands {i : Instr} {r : Nat} {w : Word α} (h : t.lands R U i = some (r, w)) :
    t.executeWith R U i = t.set r (some w) := by
  rw [executeWith, h]

/-- What a call in a landing pad does is known from the operands' values. -/
theorem executeWith_call {r : Nat} {fn : String} {args : List Operand} {words : List (Word α)}
    {w : Word α} (h : List.Forall₂ (fun v w => t.eval R v = some w) args words)
    (hw : U.returns fn words = some w) :
    t.executeWith R U (.call r fn args) = t.set r (some w) :=
  executeWith_lands (lands_call h hw)

/-! ### Nothing else has changed -/

theorem execute_of_lands {i : Instr} {p : Nat × Word α} (h : t.lands R U i = some p) :
    (t.execute R i).progress = .stuck := by
  cases i with
  | call r fn args =>
      obtain ⟨w, hw, -⟩ := Option.map_eq_some_iff.mp h
      obtain ⟨words, hwords, hreturns⟩ := Option.bind_eq_some_iff.mp hw
      obtain ⟨hfn, hdecode⟩ := decode_of_returns (t := t) hreturns
      have hcalled : t.called R fn args = none := by
        rw [called, hwords]
        exact hdecode
      show (t.call R r fn args).progress = _
      rw [Machine.call, if_neg hfn, hcalled]
      rfl
  | structGep r ptr i => rfl
  | load r ptr =>
      simp only [lands] at h
      split at h
      · next hptr => simp [execute, hptr, stop]
      · cases h
  | _ => cases h

/-- Where the machine of before goes on, an instruction does the same. -/
theorem executeWith_eq {i : Instr} (h : (t.execute R i).progress ≠ .stuck) :
    t.executeWith R U i = t.execute R i := by
  rw [executeWith]
  split
  · next hlands => exact absurd (execute_of_lands hlands) h
  · rfl

/-- And so does a step. -/
theorem stepWith_eq (h : (step R g t).progress ≠ .stuck) : stepWith R V g t = step R g t := by
  rw [stepWith]
  split
  · next i hrun hi =>
      rw [step_running hrun hi] at h ⊢
      exact executeWith_eq h
  · next hrun hi => simp [step, hrun, hi]
  · next hsome hnone =>
      rw [step_halted]
      intro hrun
      cases hi : (g.instrs t.block)[t.index]? with
      | some i => exact hsome i hrun hi
      | none => exact hnone hrun hi

theorem Reaches.with_ (h : Reaches R g t t') (hgoes : t'.progress ≠ .stuck) :
    ReachesWith R V g t t' := by
  obtain ⟨n, rfl⟩ := h
  induction n generalizing t with
  | zero => exact .refl t
  | succ n ih =>
      have hrun : run R g (n + 1) t = run R g n (step R g t) := Function.iterate_succ_apply _ n t
      rw [hrun] at hgoes ⊢
      have hstep : (step R g t).progress ≠ .stuck := by
        intro hstuck
        rw [run_halted (by rw [hstuck]; decide)] at hgoes
        exact hgoes hstuck
      exact .trans ⟨1, stepWith_eq hstep⟩ (ih hgoes)

/-! ### The runs of a program -/

/-- How a program goes on: by a step, or with an exception as the answer to a call that is
made under a landing pad. -/
inductive Event
  | step
  | raise
  deriving DecidableEq, Repr

def proceed (R : Runtime α) (V : List (Call α) → Unwinding α) (g : CodegenContext)
    (t : Machine α) : Event → Option (Machine α)
  | .step => some (t.stepWith R V g)
  | .raise =>
      match t.progress, (g.instrs t.block)[t.index]?, t.world.left with
      | .running, some (.invoke _ fn args _ exception), left + 1 =>
          (t.called R fn args).map fun c => t.raise c left exception
      | _, _, _ => none

/-- A program, from its start on. -/
def unwinding (R : Runtime α) (V : List (Call α) → Unwinding α) (g : CodegenContext) :
    Transition.Machine (Machine α) Event where
  init t := ∃ cells left, t = .start cells left
  next := proceed R V g

/-! ### The slots -/

/-- An instruction sets the register of its result and no other. -/
theorem execute_regs (i : Instr) {r : Nat} (hr : i.result ≠ some r) :
    (t.execute R i).regs r = t.regs r := by
  cases i with
  | alloca r' => exact set_regs hr
  | arrayAlloca r' count => exact set_regs hr
  | bitCast r' v => exact set_regs hr
  | call r' fn args => exact call_regs hr
  | invoke r' fn args normal exception =>
      simp only [execute]
      split <;> exact call_regs hr
  | load r' ptr =>
      simp only [execute]
      split
      · exact set_regs hr
      · rfl
  | gep r' ptr k =>
      simp only [execute]
      split
      · exact set_regs hr
      · rfl
  | icmpEq r' a b =>
      simp only [execute]
      split
      · exact set_regs hr
      · rfl
  | store v ptr =>
      simp only [execute]
      split <;> rfl
  | cond v ifTrue ifFalse =>
      simp only [execute]
      split <;> rfl
  | structGep r' ptr k => rfl
  | br b => rfl
  | ret v => rfl

theorem executeWith_regs (i : Instr) {r : Nat} (hr : i.result ≠ some r) :
    (t.executeWith R U i).regs r = t.regs r := by
  rw [executeWith]
  split
  · next hlands => exact set_regs (result_of_lands hlands ▸ hr)
  · exact execute_regs i hr

/-- What makes a slot does not belong to a landing pad. -/
theorem executeWith_slot {i : Instr} (hi : i.isSlot) :
    t.executeWith R U i = t.execute R i := by
  have hlands : t.lands R U i = none := by
    cases i with
    | call r fn args =>
        obtain rfl : fn = "llvm.gcroot" := by simpa [Instr.isSlot] using hi
        simp only [lands, Option.map_eq_none_iff, Option.bind_eq_none_iff]
        intro words _
        rfl
    | alloca r => rfl
    | arrayAlloca r count => rfl
    | bitCast r v => rfl
    | _ => cases hi
  rw [executeWith, hlands]

theorem executeWith_makes {i : Instr} {r : Nat} (hslot : i.slot = some r) :
    (t.executeWith R U i).regs r = some (.pointer r 0) := by
  have hi : i.isSlot := by
    cases i <;> first | rfl | cases hslot
  obtain ⟨regs, hexec, hself, -⟩ := execute_slot (R := R) hi t
  rw [executeWith_slot hi, hexec]
  exact hself r hslot

/-- The slots of these instructions are in their registers. -/
def MadeIn (instrs : List Instr) (t : Machine α) : Prop :=
  ∀ i ∈ instrs, ∀ r, i.slot = some r → t.regs r = some (.pointer r 0)

/-- All slots are in their registers, or the entry block is executed, which makes them. -/
def SlotsMade (P : CodegenContext) (t : Machine α) : Prop :=
  t.MadeIn (P.instrs 0) ∨ t.block = 0 ∧ t.MadeIn ((P.instrs 0).take t.index)

variable {P : CodegenContext}

/-- **An instruction leaves the slots alone**, since no other sets their registers. -/
theorem MadeIn.execute (hP : Numbered P) {instrs : List Instr} (hsub : instrs ⊆ P.instrs 0)
    (h : t.MadeIn instrs) {i : Instr} {b : Nat} (hi : i ∈ P.instrs b) :
    (t.executeWith R U i).MadeIn instrs := by
  intro j hj r hr
  by_cases hresult : i.result = some r
  · obtain rfl := hP.unique b 0 i hi j (hsub hj) r hresult (Instr.result_of_slot hr)
    exact executeWith_makes hr
  · rw [executeWith_regs i hresult]
    exact h j hj r hr

/-- The entry block makes the slots, and then is left. -/
structure EntryMakes (P : CodegenContext) (slots : List Instr) : Prop where
  instrs : P.instrs 0 = slots ++ [.br 1]
  slots : ∀ i ∈ slots, i.isSlot

variable {slots : List Instr}

theorem EntryMakes.cases (h : EntryMakes P slots) {i : Instr} (hi : i ∈ P.instrs 0) :
    i.isSlot ∨ i = .br 1 := by
  rw [h.instrs] at hi
  rcases List.mem_append.mp hi with hi | hi
  · exact .inl (h.slots i hi)
  · exact .inr (List.mem_singleton.mp hi)

omit [DecidableEq α] in
/-- At the end of the entry block all slots have been made. -/
theorem EntryMakes.at_br (h : EntryMakes P slots) {k : Nat}
    (hk : (P.instrs 0)[k]? = some (.br 1)) (ht : t.MadeIn ((P.instrs 0).take k)) :
    t.MadeIn (P.instrs 0) := by
  have hle : slots.length ≤ k := by
    by_contra hlt
    have hlt := Nat.lt_of_not_le hlt
    rw [h.instrs, List.getElem?_append_left hlt] at hk
    exact absurd (h.slots _ (List.mem_of_getElem? hk)) (by decide)
  intro i hi r hr
  rw [h.instrs] at hi
  rcases List.mem_append.mp hi with hi | hi
  · refine ht i ?_ r hr
    rw [h.instrs, List.take_append, List.take_of_length_le hle]
    exact List.mem_append_left _ hi
  · obtain rfl := List.mem_singleton.mp hi
    cases hr

theorem SlotsMade.execute (hP : Numbered P) (hentry : EntryMakes P slots) (h : t.SlotsMade P)
    {i : Instr} (hi : (P.instrs t.block)[t.index]? = some i) :
    (t.executeWith R U i).SlotsMade P := by
  rcases h with h | ⟨hblock, h⟩
  · exact .inl (h.execute hP (List.Subset.refl _) (List.mem_of_getElem? hi))
  · rw [hblock] at hi
    have hmem := List.mem_of_getElem? hi
    rcases hentry.cases hmem with hslot | rfl
    · refine .inr ?_
      have hbefore := h.execute (R := R) (U := U) hP (List.take_subset _ _) hmem
      obtain ⟨regs, hexec, hself, -⟩ := execute_slot (R := R) hslot t
      rw [executeWith_slot hslot, hexec] at hbefore ⊢
      refine ⟨hblock, ?_⟩
      show MadeIn ((P.instrs 0).take (t.index + 1)) _
      rw [List.take_add_one, hi]
      intro j hj r hr
      rcases List.mem_append.mp hj with hj | hj
      · exact hbefore j hj r hr
      · obtain rfl : j = i := by simpa using hj
        exact hself r hr
    · exact .inl (hentry.at_br hi h)

/-- **Whichever way a program goes, its slots stay in their registers.** -/
theorem slotsMade_of_reachable (hP : Numbered P) (hentry : EntryMakes P slots)
    (h : Transition.Reachable (unwinding R V P) t) : t.SlotsMade P := by
  refine h.invariant (I := SlotsMade P) ?_ ?_
  · rintro _ ⟨cells, left, rfl⟩
    exact .inr ⟨rfl, fun i hi => (by cases hi)⟩
  · intro t event t' ht hnext
    cases event with
    | step =>
        obtain rfl := Option.some.inj hnext
        rw [stepWith]
        split
        · next hi => exact ht.execute hP hentry hi
        · exact ht
        · exact ht
    | raise =>
        simp only [unwinding, proceed] at hnext
        split at hnext
        · next r fn args normal exception left hrun hi hleft =>
            obtain ⟨c, -, rfl⟩ := Option.map_eq_some_iff.mp hnext
            rcases ht with ht | ⟨hblock, -⟩
            · exact .inl ht
            · rw [hblock] at hi
              rcases hentry.cases (List.mem_of_getElem? hi) with hslot | heq
              · cases hslot
              · cases heq
        · cases hnext

end Machine

/-- The entry block of a program. -/
theorem entryMakes_afterUnit {F : CodegenContext} {v : Operand} {scope : List String}
    (hfinal : Final F (F.afterUnit v)) (hready : Ready F scope) :
    Machine.EntryMakes (F.afterUnit v) (F.instrs 0) :=
  ⟨afterUnit_entry hready.entry hready.build v, hfinal.slots⟩

end Pup.Codegen
