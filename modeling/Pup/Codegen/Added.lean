/-
What holds of all instructions that a piece of the generator adds.

`Adds p ok g g'` is that the instructions that `g'` has and `g` has not all satisfy `p` just
when `ok` is true.  The rules put pieces one after the other, whatever method they are in, so
that a property of the text can be computed along with the code.
-/
import Pup.Codegen.LandingPads

namespace Pup.Codegen

variable {g g' g₀ g₁ g₂ : CodegenContext} {p : Instr → Prop} {ok ok' : Bool}

/-- Blocks have only got longer. -/
def Extends (g g' : CodegenContext) : Prop := ∀ b, g.instrs b <+: g'.instrs b

theorem Extends.trans (h : Extends g g₁) (h' : Extends g₁ g₂) : Extends g g₂ :=
  fun b => (h b).trans (h' b)

theorem added_append (h : Extends g g₁) (h' : Extends g₁ g₂) (b : Nat) :
    added g g₂ b = added g g₁ b ++ added g₁ g₂ b := by
  obtain ⟨xs, hxs⟩ := h b
  obtain ⟨ys, hys⟩ := h' b
  rw [added, added, added, ← hys, ← hxs]
  simp

/-- All that has been added satisfies `p` just when `ok` says so. -/
structure Adds (p : Instr → Prop) (ok : Bool) (g g' : CodegenContext) : Prop where
  extends_ : Extends g g'
  all : (∀ b, ∀ i ∈ added g g' b, p i) ↔ ok = true

theorem Adds.trans (h : Adds p ok g g₁) (h' : Adds p ok' g₁ g₂) : Adds p (ok && ok') g g₂ where
  extends_ := h.extends_.trans h'.extends_
  all := by
    rw [Bool.and_eq_true, ← h.all, ← h'.all]
    constructor
    · intro hall
      refine ⟨fun b i hi => hall b i ?_, fun b i hi => hall b i ?_⟩
      · rw [added_append h.extends_ h'.extends_]
        exact List.mem_append_left _ hi
      · rw [added_append h.extends_ h'.extends_]
        exact List.mem_append_right _ hi
    · intro hboth b i hi
      rw [added_append h.extends_ h'.extends_] at hi
      rcases List.mem_append.mp hi with hi | hi
      · exact hboth.1 b i hi
      · exact hboth.2 b i hi

/-- What follows is in order. -/
theorem Adds.run (h : Adds p ok g g₁) (h' : Adds p true g₁ g₂) : Adds p ok g g₂ :=
  Bool.and_true ok ▸ h.trans h'

theorem Adds.cast (h : Adds p ok g g') (heq : ok = ok') : Adds p ok' g g' := heq ▸ h

/-- Nothing has been added. -/
theorem adds_of_instrs (hinstrs : ∀ b, g'.instrs b = g.instrs b) : Adds p true g g' where
  extends_ b := (hinstrs b).symm ▸ List.prefix_rfl
  all := by
    refine iff_of_true (fun b i hi => ?_) rfl
    rw [added, hinstrs b] at hi
    simp at hi

theorem Adds.refl (g : CodegenContext) : Adds p true g g := adds_of_instrs fun _ => rfl

theorem Adds.moveTo (h : Adds p ok g₀ g) (b : Nat) : Adds p ok g₀ (g.moveTo b) :=
  h.run (adds_of_instrs fun _ => rfl)

theorem Adds.append (h : Adds p ok g₀ g) (name : String) : Adds p ok g₀ (g.append name) :=
  h.run (adds_of_instrs fun b => CodegenContext.append_instrs name b)

theorem Adds.bump (h : Adds p ok g₀ g) (n : Nat) : Adds p ok g₀ { g with next := n } :=
  h.run (adds_of_instrs fun _ => rfl)

/-- An instruction is in order or not. -/
theorem Adds.emit (h : Adds p ok g₀ g) {b : Nat} (hb : b < g.blocks.length) {i : Instr}
    (hi : p i ↔ ok' = true) : Adds p (ok && ok') g₀ (g.emitAt b i) := by
  refine h.trans ⟨fun c => CodegenContext.emitAt_longer b c i, ?_⟩
  rw [← hi]
  constructor
  · intro hall
    exact hall b i (added_emitAt_self hb i ▸ List.mem_singleton_self i)
  · intro hp c j hj
    exact added_emitAt hj ▸ hp

/-- An instruction that is in order at any rate. -/
theorem Adds.emitAt (h : Adds p ok g₀ g) (b : Nat) {i : Instr} (hi : p i) :
    Adds p ok g₀ (g.emitAt b i) :=
  h.run ⟨fun c => CodegenContext.emitAt_longer b c i,
    iff_of_true (fun _ _ hj => added_emitAt hj ▸ hi) rfl⟩

theorem Adds.emitNew (h : Adds p ok g₀ g) (b : Nat) {i : Nat → Instr} (hi : ∀ r, p (i r)) :
    Adds p ok g₀ (g.emitNew b i) :=
  (h.emitAt b (hi g.next)).bump (g.next + 1)

theorem Adds.jumpedTo (h : Adds p ok g₀ g) (hcond : ∀ v b b', p (.cond v b b')) (bkrescue : Nat)
    (tests : List (Nat × Operand × Nat)) : Adds p ok g₀ (g.jumpedTo bkrescue tests) := by
  induction tests generalizing g with
  | nil => exact h
  | cons t tests ih => exact ih ((h.moveTo t.1).emitAt t.1 (hcond _ _ _))

theorem Adds.jumpedOut (h : Adds p ok g₀ g) (hbr : ∀ b, p (.br b)) (bkout : Nat)
    (impls : List Nat) : Adds p ok g₀ (g.jumpedOut bkout impls) := by
  induction impls generalizing g with
  | nil => exact h
  | cons b impls ih => exact ih ((h.moveTo b).emitAt b (hbr _))

end Pup.Codegen
