/-
Who holds what.

`H p r` says that the place `p` holds the item `r`.  The relation is `Exclusive` if
no item is held twice.  A step of a program that passes one item on, takes one in or
gives one up is a `Moved`, and a `Moved` keeps `Exclusive` whatever the places are.
-/
import Mathlib.Logic.Equiv.Defs

namespace Ownership

variable {Place Item : Type*} {H H' : Place → Item → Prop}

/-- No item is in two places. -/
def Exclusive (H : Place → Item → Prop) : Prop := ∀ p q r, H p r → H q r → p = q

/-- The item `r` has gone to the place `dest`, or out of sight; all others stay. -/
def Moved (H H' : Place → Item → Prop) (r : Item) (dest : Option Place) : Prop :=
  ∀ p x, H' p x ↔ (x ≠ r ∧ H p x) ∨ (x = r ∧ dest = some p)

theorem Moved.intro {r : Item} {dest : Option Place}
    (hother : ∀ p x, x ≠ r → (H' p x ↔ H p x)) (hself : ∀ p, H' p r ↔ dest = some p) :
    Moved H H' r dest := by
  intro p x
  by_cases hx : x = r
  · subst hx
    simp [hself]
  · simp [hx, hother p x hx]

theorem Exclusive.moved (h : Exclusive H) {r : Item} {dest : Option Place}
    (hm : Moved H H' r dest) : Exclusive H' := by
  intro p q x hp hq
  rcases (hm p x).mp hp with ⟨hx, hp⟩ | ⟨rfl, hp⟩
  · rcases (hm q x).mp hq with ⟨-, hq⟩ | ⟨rfl, -⟩
    · exact h p q x hp hq
    · exact absurd rfl hx
  · rcases (hm q x).mp hq with ⟨hx, -⟩ | ⟨-, hq⟩
    · exact absurd rfl hx
    · exact Option.some.inj (hp.symm.trans hq)

theorem Exclusive.congr (h : Exclusive H) (heq : ∀ p x, H' p x ↔ H p x) : Exclusive H' :=
  fun p q x hp hq => h p q x ((heq p x).mp hp) ((heq q x).mp hq)

/-- Places may trade what they hold. -/
theorem Exclusive.relabel (h : Exclusive H) (e : Place ≃ Place)
    (heq : ∀ p x, H' p x ↔ H (e p) x) : Exclusive H' :=
  fun p q x hp hq => e.injective (h _ _ x ((heq p x).mp hp) ((heq q x).mp hq))

theorem held_relabel (e : Place ≃ Place) (heq : ∀ p x, H' p x ↔ H (e p) x) (x : Item) :
    (∃ p, H' p x) ↔ ∃ p, H p x := by
  constructor
  · rintro ⟨p, hp⟩
    exact ⟨e p, (heq p x).mp hp⟩
  · rintro ⟨p, hp⟩
    exact ⟨e.symm p, (heq _ x).mpr (by rwa [e.apply_symm_apply])⟩

/-- Which items are held anywhere changes for the moved item only. -/
theorem Moved.held [DecidableEq Item] {r : Item} {dest : Option Place} (hm : Moved H H' r dest) (x : Item) :
    (∃ p, H' p x) ↔ if x = r then dest.isSome = true else ∃ p, H p x := by
  constructor
  · rintro ⟨p, hp⟩
    rcases (hm p x).mp hp with ⟨hx, hp⟩ | ⟨rfl, rfl⟩
    · rw [if_neg hx]
      exact ⟨p, hp⟩
    · rw [if_pos rfl]
      rfl
  · split
    · rename_i hx
      intro hdest
      obtain ⟨p, rfl⟩ := Option.isSome_iff_exists.mp hdest
      exact ⟨p, (hm p x).mpr (.inr ⟨hx, rfl⟩)⟩
    · rename_i hx
      rintro ⟨p, hp⟩
      exact ⟨p, (hm p x).mpr (.inl ⟨hx, hp⟩)⟩

end Ownership
