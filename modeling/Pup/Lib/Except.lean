/-
Computations that may fail.

`Ends x P E` says how a computation ends: in a result that satisfies `P` or in an
error that satisfies `E`.  The rules follow the shape of the program: a sequence
(`Ends.bind`), a weakening (`Ends.imp`) and a loop over a list with an invariant
(`Ends.foldlM`, and `Ends.foldlM_rest` where the invariant depends on what is left).
`foldlM_map` compares a loop with one that keeps less.
-/
import Mathlib.Data.List.Basic

namespace Outcome

variable {ε α β σ : Type}

/-- The computation ends in a result with `P` or in an error with `E`. -/
def Ends (x : Except ε α) (P : α → Prop) (E : ε → Prop) : Prop :=
  match x with
  | .ok a => P a
  | .error e => E e

variable {P : α → Prop} {E : ε → Prop}

theorem Ends.of_ok {x : Except ε α} (h : Ends x P E) {a : α} (hx : x = .ok a) : P a := by
  subst hx
  exact h

theorem Ends.of_error {x : Except ε α} (h : Ends x P E) {e : ε} (hx : x = .error e) : E e := by
  subst hx
  exact h

/-- A computation that cannot fail has a result. -/
theorem Ends.total {x : Except ε α} (h : Ends x P fun _ => False) : ∃ a, x = .ok a ∧ P a := by
  cases x with
  | ok a => exact ⟨a, rfl, h⟩
  | error e => exact h.elim

theorem Ends.imp {x : Except ε α} (h : Ends x P E) {P' : α → Prop} {E' : ε → Prop}
    (hP : ∀ a, P a → P' a) (hE : ∀ e, E e → E' e) : Ends x P' E' := by
  cases x with
  | ok a => exact hP a h
  | error e => exact hE e h

theorem Ends.bind {x : Except ε α} (h : Ends x P E) {f : α → Except ε β} {Q : β → Prop}
    (hf : ∀ a, P a → Ends (f a) Q E) : Ends (x >>= f) Q E := by
  cases x with
  | ok a => exact hf a h
  | error e => exact h

/-- A sequence that succeeds has succeeded in its first part. -/
theorem bind_ok {x : Except ε α} {f : α → Except ε β} {b : β} (h : x >>= f = .ok b) :
    ∃ a, x = .ok a ∧ f a = .ok b := by
  cases x with
  | ok a => exact ⟨a, rfl, h⟩
  | error e => cases h

/-- A loop whose rounds keep an invariant that depends on what is left of the list. -/
theorem Ends.foldlM_rest {f : σ → α → Except ε σ} {I : List α → σ → Prop}
    (hstep : ∀ a l s, I (a :: l) s → Ends (f s a) (I l) E) :
    ∀ {l : List α} {s : σ}, I l s → Ends (l.foldlM f s) (I []) E := by
  intro l
  induction l with
  | nil =>
      intro s hs
      exact hs
  | cons a l ih =>
      intro s hs
      rw [List.foldlM_cons]
      exact (hstep a l s hs).bind fun s' hs' => ih hs'

/-- A loop whose rounds keep an invariant. -/
theorem Ends.foldlM {f : σ → α → Except ε σ} {I : σ → Prop} {l : List α}
    (hstep : ∀ a ∈ l, ∀ s, I s → Ends (f s a) I E) {s : σ} (hs : I s) :
    Ends (l.foldlM f s) I E := by
  refine Ends.foldlM_rest (I := fun rest s => rest ⊆ l ∧ I s) ?_ ⟨List.Subset.refl l, hs⟩
    |>.imp (fun s h => h.2) fun _ => id
  intro a rest s h
  obtain ⟨ha, hrest⟩ := List.cons_subset.mp h.1
  exact (hstep a ha s h.2).imp (fun s' hs' => ⟨hrest, hs'⟩) fun _ => id

/-! ### Results that are evaluated -/

theorem ok_of_map {x : Except ε α} {f : α → β} {b : β} (h : x.toOption.map f = some b) :
    ∃ a, x = .ok a ∧ f a = b := by
  cases x with
  | error e => cases h
  | ok a => exact ⟨a, rfl, Option.some.inj h⟩

theorem ok_of_any {x : Except ε α} [DecidablePred P]
    (h : x.toOption.any (fun a => decide (P a)) = true) : ∃ a, x = .ok a ∧ P a := by
  cases x with
  | error e => cases h
  | ok a => exact ⟨a, rfl, of_decide_eq_true h⟩

/-! ### A computation that keeps more -/

section Map

variable {σ' β' : Type} {φ : σ → σ'}

/-- What a sequence leaves out is what its parts leave out. -/
theorem bind_map {x : Except ε σ} {x' : Except ε σ'} {f : σ → Except ε σ}
    {f' : σ' → Except ε σ'} (hx : x.map φ = x') (hf : ∀ s, (f s).map φ = f' (φ s)) :
    (x >>= f).map φ = x' >>= f' := by
  subst hx
  cases x with
  | ok a => exact hf a
  | error e => rfl

/-- A loop leaves out what its rounds leave out. -/
theorem foldlM_map {f : σ → α → Except ε σ} {f' : σ' → α → Except ε σ'}
    (hf : ∀ s a, (f s a).map φ = f' (φ s) a) (l : List α) (s : σ) :
    (l.foldlM f s).map φ = l.foldlM f' (φ s) := by
  induction l generalizing s with
  | nil => rfl
  | cons a l ih =>
      rw [List.foldlM_cons, List.foldlM_cons]
      exact bind_map (hf s a) ih

end Map

end Outcome
