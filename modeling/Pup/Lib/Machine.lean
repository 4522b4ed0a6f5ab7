/-
Machines and their runs.

A machine says where it may start and what each labelled step does; a step that
is not enabled yields `none`, so a machine can be run on a list of labels.  A
`Trace` keeps, oldest first, the state every step left and the label it took.
That is enough to state the two things asked of a run: what every state it passes
through satisfies, and which of its steps met a condition.

`Trace.invariant` is the rule for the first under a condition on the steps, and
`Trace.states_iff` is the exact form: when a property survives a step precisely
if the step meets the condition, the property holds all along a run precisely if
every step met it.
-/
import Mathlib.Data.List.Basic

namespace Transition

/-- Where a machine starts, and what each labelled step does when it is enabled. -/
structure Machine (σ ι : Type*) where
  init : σ → Prop
  next : σ → ι → Option σ

variable {σ ι : Type*} {M : Machine σ ι}

/-- A run: the states left and the labels taken, oldest first, and the state reached. -/
inductive Trace (M : Machine σ ι) : List (σ × ι) → σ → Prop
  | nil {s : σ} (hinit : M.init s) : Trace M [] s
  | snoc {tr : List (σ × ι)} {s s' : σ} (h : Trace M tr s) (i : ι)
      (hstep : M.next s i = some s') : Trace M (tr ++ [(s, i)]) s'

/-- A state some run reaches. -/
def Reachable (M : Machine σ ι) (s : σ) : Prop := ∃ tr, Trace M tr s

theorem Reachable.step {s s' : σ} (h : Reachable M s) (i : ι) (hstep : M.next s i = some s') :
    Reachable M s' := by
  obtain ⟨tr, htr⟩ := h
  exact ⟨_, htr.snoc i hstep⟩

/-! ### Invariants -/

/-- What the start satisfies and every step that meets `C` keeps holds all along. -/
theorem Trace.invariant_states {I : σ → Prop} {C : σ → ι → Prop}
    (hinit : ∀ s, M.init s → I s)
    (hstep : ∀ s i s', I s → C s i → M.next s i = some s' → I s')
    {tr : List (σ × ι)} {s : σ} (h : Trace M tr s) (hC : ∀ p ∈ tr, C p.1 p.2) :
    (∀ p ∈ tr, I p.1) ∧ I s := by
  induction h with
  | nil h0 => exact ⟨by simp, hinit _ h0⟩
  | @snoc tr s s' h i hs ih =>
      obtain ⟨hall, hpre⟩ := ih fun p hp => hC p (List.mem_append_left _ hp)
      refine ⟨fun p hp => ?_, hstep s i s' hpre (hC (s, i) (by simp)) hs⟩
      rcases List.mem_append.mp hp with hp | hp
      · exact hall p hp
      · obtain rfl : p = (s, i) := by simpa using hp
        exact hpre

/-- And at the end. -/
theorem Trace.invariant {I : σ → Prop} {C : σ → ι → Prop}
    (hinit : ∀ s, M.init s → I s)
    (hstep : ∀ s i s', I s → C s i → M.next s i = some s' → I s')
    {tr : List (σ × ι)} {s : σ} (h : Trace M tr s) (hC : ∀ p ∈ tr, C p.1 p.2) : I s :=
  (h.invariant_states hinit hstep hC).2

/-- The same without a condition, for every reachable state. -/
theorem Reachable.invariant {I : σ → Prop} (hinit : ∀ s, M.init s → I s)
    (hstep : ∀ s i s', I s → M.next s i = some s' → I s')
    {s : σ} (h : Reachable M s) : I s := by
  obtain ⟨tr, htr⟩ := h
  exact htr.invariant (C := fun _ _ => True) hinit (fun s i s' hi _ hs => hstep s i s' hi hs)
    (fun _ _ => trivial)

theorem Trace.reachable {tr : List (σ × ι)} {s : σ} (h : Trace M tr s) : Reachable M s :=
  ⟨tr, h⟩

/--
**The exact form.**  If a property holds at the start and survives a step exactly
when the step meets `C`, a run keeps it throughout exactly when all its steps meet
`C`.  `I` is whatever else is known of every reachable state.
-/
theorem Trace.states_iff {I P : σ → Prop} {C : σ → ι → Prop}
    (hinv : ∀ s, Reachable M s → I s) (hinit : ∀ s, M.init s → P s)
    (hstep : ∀ s i s', I s → P s → M.next s i = some s' → (P s' ↔ C s i))
    {tr : List (σ × ι)} {s : σ} (h : Trace M tr s) :
    ((∀ p ∈ tr, P p.1) ∧ P s) ↔ ∀ p ∈ tr, C p.1 p.2 := by
  induction h with
  | nil h0 => simpa using hinit _ h0
  | @snoc tr s s' h i hs ih =>
      constructor
      · rintro ⟨hall, hlast⟩
        have hP : P s := hall (s, i) (by simp)
        have hpre := ih.mp ⟨fun p hp => hall p (List.mem_append_left _ hp), hP⟩
        intro p hp
        rcases List.mem_append.mp hp with hp | hp
        · exact hpre p hp
        · obtain rfl : p = (s, i) := by simpa using hp
          exact (hstep s i s' (hinv s h.reachable) hP hs).mp hlast
      · intro hC
        obtain ⟨hall, hP⟩ := ih.mpr fun p hp => hC p (List.mem_append_left _ hp)
        refine ⟨?_, (hstep s i s' (hinv s h.reachable) hP hs).mpr (hC (s, i) (by simp))⟩
        intro p hp
        rcases List.mem_append.mp hp with hp | hp
        · exact hall p hp
        · obtain rfl : p = (s, i) := by simpa using hp
          exact hP

/-! ### Running a machine on a list of labels -/

/-- Take the labelled steps one after another. -/
def Machine.run (M : Machine σ ι) : σ → List ι → Option σ
  | s, [] => some s
  | s, i :: rest => (M.next s i).bind fun s' => M.run s' rest

/-- The states left along the way, paired with the labels. -/
def Machine.path (M : Machine σ ι) : σ → List ι → List (σ × ι)
  | _, [] => []
  | s, i :: rest => (s, i) :: ((M.next s i).elim [] fun s' => M.path s' rest)

theorem Trace.run {tr : List (σ × ι)} {s : σ} (h : Trace M tr s) :
    ∀ (labels : List ι) {s' : σ}, M.run s labels = some s' →
      Trace M (tr ++ M.path s labels) s' := by
  intro labels
  induction labels generalizing tr s with
  | nil =>
      intro s' hrun
      obtain rfl : s = s' := by simpa [Machine.run] using hrun
      simpa [Machine.path] using h
  | cons i rest ih =>
      intro s' hrun
      simp only [Machine.run] at hrun
      cases hnext : M.next s i with
      | none => simp [hnext] at hrun
      | some s₁ =>
          rw [hnext, Option.bind_some] at hrun
          have := ih (h.snoc i hnext) hrun
          simpa [Machine.path, hnext] using this

/-- A run on labels from a start state is a trace. -/
theorem trace_of_run {s s' : σ} (hinit : M.init s) (labels : List ι)
    (hrun : M.run s labels = some s') : Trace M (M.path s labels) s' := by
  simpa using (Trace.nil hinit).run labels hrun

theorem reachable_of_run {s s' : σ} (hinit : M.init s) (labels : List ι)
    (hrun : M.run s labels = some s') : Reachable M s' :=
  ⟨_, trace_of_run hinit labels hrun⟩

end Transition
