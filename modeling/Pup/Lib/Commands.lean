/-
Commands over a state.

What actions do, and which conditions hold, is a parameter: `Meaning` says it for one set of
states, and an action or a condition need not make sense in every state.  `Runs` is that a
command comes to an end; nothing else comes of a command, so that a command without a run
either goes on for ever or comes to something that makes no sense.

Two meanings of the same actions are compared state by state (`Runs.simulated`).  What a
command is for is a `Triple`, with one rule for each form of command; the rule for loops wants
an invariant and a measure that every round makes smaller.
-/
import Mathlib.Order.Basic

namespace Imp

variable {A C S T : Type}

inductive Command (A C : Type)
  | act (a : A)
  | seq (p q : Command A C)
  | ifElse (c : C) (p q : Command A C)
  | while_ (c : C) (p : Command A C)

/-- What actions and conditions are in a state. -/
structure Meaning (A C S : Type) where
  act : A → S → Option S
  test : C → S → Option Bool

inductive Runs (M : Meaning A C S) : Command A C → S → S → Prop
  | act {a : A} {s s' : S} (h : M.act a s = some s') : Runs M (.act a) s s'
  | seq {p q : Command A C} {s s₁ s' : S} (h : Runs M p s s₁) (h' : Runs M q s₁ s') :
      Runs M (.seq p q) s s'
  | ifTrue {c : C} {p q : Command A C} {s s' : S} (hc : M.test c s = some true)
      (h : Runs M p s s') : Runs M (.ifElse c p q) s s'
  | ifFalse {c : C} {p q : Command A C} {s s' : S} (hc : M.test c s = some false)
      (h : Runs M q s s') : Runs M (.ifElse c p q) s s'
  | whileTrue {c : C} {p : Command A C} {s s₁ s' : S} (hc : M.test c s = some true)
      (h : Runs M p s s₁) (h' : Runs M (.while_ c p) s₁ s') : Runs M (.while_ c p) s s'
  | whileFalse {c : C} {p : Command A C} {s : S} (hc : M.test c s = some false) :
      Runs M (.while_ c p) s s

variable {M : Meaning A C S} {N : Meaning A C T} {p q : Command A C} {s s' : S}

/-! ### Simulation -/

/-- What makes sense under `M` does so under `N`, in related states, and leads to related
ones. -/
structure Simulates (M : Meaning A C S) (N : Meaning A C T) (rel : S → T → Prop) : Prop where
  act : ∀ a s s' t, M.act a s = some s' → rel s t → ∃ t', N.act a t = some t' ∧ rel s' t'
  test : ∀ c s b t, M.test c s = some b → rel s t → N.test c t = some b

/-- **A run is simulated.** -/
theorem Runs.simulated {rel : S → T → Prop} (hsim : Simulates M N rel) (h : Runs M p s s')
    {t : T} (hrel : rel s t) : ∃ t', Runs N p t t' ∧ rel s' t' := by
  induction h generalizing t with
  | act h =>
      obtain ⟨t', ht', hrel'⟩ := hsim.act _ _ _ _ h hrel
      exact ⟨t', .act ht', hrel'⟩
  | seq _ _ ih ih' =>
      obtain ⟨t₁, h₁, hrel₁⟩ := ih hrel
      obtain ⟨t', h₂, hrel'⟩ := ih' hrel₁
      exact ⟨t', .seq h₁ h₂, hrel'⟩
  | ifTrue hc _ ih =>
      obtain ⟨t', h, hrel'⟩ := ih hrel
      exact ⟨t', .ifTrue (hsim.test _ _ _ _ hc hrel) h, hrel'⟩
  | ifFalse hc _ ih =>
      obtain ⟨t', h, hrel'⟩ := ih hrel
      exact ⟨t', .ifFalse (hsim.test _ _ _ _ hc hrel) h, hrel'⟩
  | whileTrue hc _ _ ih ih' =>
      obtain ⟨t₁, h₁, hrel₁⟩ := ih hrel
      obtain ⟨t', h₂, hrel'⟩ := ih' hrel₁
      exact ⟨t', .whileTrue (hsim.test _ _ _ _ hc hrel) h₁ h₂, hrel'⟩
  | whileFalse hc => exact ⟨t, .whileFalse (hsim.test _ _ _ _ hc hrel), hrel⟩

/-! ### Total correctness -/

/-- From every state with `P` the command comes to one with `Q`. -/
def Triple (M : Meaning A C S) (P : S → Prop) (p : Command A C) (Q : S → Prop) : Prop :=
  ∀ s, P s → ∃ s', Runs M p s s' ∧ Q s'

namespace Triple

variable {P Q R I : S → Prop} {c : C}

theorem act {a : A} (h : ∀ s, P s → ∃ s', M.act a s = some s' ∧ Q s') :
    Triple M P (.act a) Q := by
  intro s hs
  obtain ⟨s', hs', hQ⟩ := h s hs
  exact ⟨s', .act hs', hQ⟩

theorem seq (h : Triple M P p Q) (h' : Triple M Q q R) : Triple M P (.seq p q) R := by
  intro s hs
  obtain ⟨s₁, hrun, hs₁⟩ := h s hs
  obtain ⟨s', hrun', hs'⟩ := h' s₁ hs₁
  exact ⟨s', .seq hrun hrun', hs'⟩

theorem ifElse (hc : ∀ s, P s → ∃ b, M.test c s = some b)
    (h : Triple M (fun s => P s ∧ M.test c s = some true) p Q)
    (h' : Triple M (fun s => P s ∧ M.test c s = some false) q Q) :
    Triple M P (.ifElse c p q) Q := by
  intro s hs
  obtain ⟨b, hb⟩ := hc s hs
  cases b with
  | true =>
      obtain ⟨s', hrun, hs'⟩ := h s ⟨hs, hb⟩
      exact ⟨s', .ifTrue hb hrun, hs'⟩
  | false =>
      obtain ⟨s', hrun, hs'⟩ := h' s ⟨hs, hb⟩
      exact ⟨s', .ifFalse hb hrun, hs'⟩

/-- A loop keeps its invariant, and ends when its measure does. -/
theorem while_ (μ : S → Nat) (hc : ∀ s, I s → ∃ b, M.test c s = some b)
    (h : ∀ n, Triple M (fun s => I s ∧ M.test c s = some true ∧ μ s = n) p
      fun s => I s ∧ μ s < n) :
    Triple M I (.while_ c p) fun s => I s ∧ M.test c s = some false := by
  intro s hs
  induction hn : μ s using Nat.strongRecOn generalizing s with
  | _ n ih =>
      obtain ⟨b, hb⟩ := hc s hs
      cases b with
      | true =>
          obtain ⟨s₁, hrun, hs₁, hlt⟩ := h n s ⟨hs, hb, hn⟩
          obtain ⟨s', hrun', hs'⟩ := ih (μ s₁) hlt s₁ hs₁ rfl
          exact ⟨s', .whileTrue hb hrun hrun', hs'⟩
      | false => exact ⟨s, .whileFalse hb, hs, hb⟩

theorem consequence {P' Q' : S → Prop} (h : Triple M P p Q) (hP : ∀ s, P' s → P s)
    (hQ : ∀ s, Q s → Q' s) : Triple M P' p Q' := by
  intro s hs
  obtain ⟨s', hrun, hs'⟩ := h s (hP s hs)
  exact ⟨s', hrun, hQ s' hs'⟩

end Triple

end Imp
