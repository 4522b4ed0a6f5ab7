/-
Names in nested scopes.

A log says which name was bound to what in which scope, the latest binding first.  Looking
a name up goes through the scopes from the innermost outwards and takes, in the first one
that binds the name, the latest binding (`lookup`).  A new binding is seen from its own
scope, and not where that scope is none of those gone through (`lookup_cons_of_unseen`).
-/
import Mathlib.Data.List.Basic

namespace Scopes

variable {ι κ α : Type} [DecidableEq ι] [DecidableEq κ]

/-- What the name `k` is bound to in the scope `i`. -/
def bound (log : List (ι × κ × α)) (i : ι) (k : κ) : Option α :=
  (log.find? fun e => e.1 = i ∧ e.2.1 = k).map fun e => e.2.2

/-- What the name `k` means in the innermost of the scopes, the innermost first. -/
def lookup (log : List (ι × κ × α)) (scopes : List ι) (k : κ) : Option α :=
  scopes.findSome? fun i => bound log i k

variable {log : List (ι × κ × α)} {i j : ι} {k k' : κ} {a : α}

theorem bound_cons : bound ((i, k, a) :: log) j k' =
    if i = j ∧ k = k' then some a else bound log j k' := by
  unfold bound
  by_cases h : i = j ∧ k = k'
  · simp [h]
  · simp [h]

theorem bound_eq_none (h : ∀ e ∈ log, e.1 ≠ i) (k : κ) : bound log i k = none := by
  unfold bound
  rw [Option.map_eq_none_iff, List.find?_eq_none]
  intro e he
  simp [h e he]

theorem lookup_cons_of_unseen {scopes : List ι} (h : i ∉ scopes ∨ k ≠ k') :
    lookup ((i, k, a) :: log) scopes k' = lookup log scopes k' := by
  unfold lookup
  induction scopes with
  | nil => rfl
  | cons j rest ih =>
      have hne : ¬ (i = j ∧ k = k') := by
        rintro ⟨rfl, rfl⟩
        rcases h with h | h
        · exact h List.mem_cons_self
        · exact h rfl
      have hrest : i ∉ rest ∨ k ≠ k' := h.imp_left fun h hi => h (List.mem_cons_of_mem j hi)
      rw [List.findSome?_cons, List.findSome?_cons, bound_cons, if_neg hne, ih hrest]

/-- A name bound in the innermost scope hides the others. -/
theorem lookup_cons_self {scopes : List ι} :
    lookup ((i, k, a) :: log) (i :: scopes) k = some a := by
  unfold lookup
  rw [List.findSome?_cons, bound_cons, if_pos ⟨rfl, rfl⟩]

end Scopes
