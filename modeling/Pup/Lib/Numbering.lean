/-
Values numbered in the order in which they are first seen.

A numbering is the list of the values seen so far, and a value's number is its place in
the list, counted from one.  Seeing a value again changes nothing, and seeing a new one
leaves the numbers of the others as they are.
-/
import Mathlib.Data.List.Nodup
import Mathlib.Data.List.Dedup
import Mathlib.Data.List.Perm.Subperm

namespace Numbering

variable {α : Type*} [DecidableEq α] {l : List α} {a b : α}

/-- A value is seen. -/
def intern (l : List α) (a : α) : List α := if a ∈ l then l else l ++ [a]

def number (l : List α) (a : α) : Nat := l.idxOf a + 1

theorem intern_of_mem (h : a ∈ l) : intern l a = l := if_pos h

theorem intern_of_notMem (h : a ∉ l) : intern l a = l ++ [a] := if_neg h

theorem mem_intern : b ∈ intern l a ↔ b ∈ l ∨ b = a := by
  by_cases h : a ∈ l
  · rw [intern_of_mem h]
    constructor
    · exact .inl
    · rintro (hb | rfl)
      · exact hb
      · exact h
  · rw [intern_of_notMem h]
    simp

theorem nodup_intern (hl : l.Nodup) (a : α) : (intern l a).Nodup := by
  by_cases h : a ∈ l
  · rwa [intern_of_mem h]
  · rw [intern_of_notMem h]
    rw [← List.concat_eq_append]
    exact List.Nodup.concat h hl

/-- What has been seen keeps its number. -/
theorem number_intern (hb : b ∈ l) (a : α) : number (intern l a) b = number l b := by
  by_cases h : a ∈ l
  · rw [intern_of_mem h]
  · rw [intern_of_notMem h, number, List.idxOf_append_of_mem hb, number]

theorem number_self (h : a ∉ l) : number (intern l a) a = l.length + 1 := by
  rw [intern_of_notMem h, number, List.idxOf_append_of_notMem h]
  simp

theorem number_inj (ha : a ∈ l) : number l a = number l b ↔ a = b := by
  unfold number
  rw [Nat.add_right_cancel_iff]
  exact List.idxOf_inj ha

/-- The value at a place has that number. -/
theorem number_getElem (hl : l.Nodup) {i : Nat} (hi : i < l.length) :
    number l l[i] = i + 1 := by
  rw [number, hl.idxOf_getElem i hi]

/-! ### Several values -/

/-- The values are seen one after the other. -/
def internAll (l seen : List α) : List α := seen.foldl intern l

theorem mem_internAll {seen : List α} : b ∈ internAll l seen ↔ b ∈ l ∨ b ∈ seen := by
  induction seen generalizing l with
  | nil => simp [internAll]
  | cons a seen ih =>
      show b ∈ internAll (intern l a) seen ↔ _
      rw [ih, mem_intern, or_assoc, List.mem_cons]

theorem nodup_internAll (hl : l.Nodup) (seen : List α) : (internAll l seen).Nodup := by
  induction seen generalizing l with
  | nil => exact hl
  | cons a seen ih => exact ih (nodup_intern hl a)

theorem length_le_intern (l : List α) (a : α) : l.length ≤ (intern l a).length := by
  by_cases h : a ∈ l
  · exact Nat.le_of_eq (congrArg _ (intern_of_mem h).symm)
  · rw [intern_of_notMem h, List.length_append]
    exact Nat.le_add_right ..

theorem length_le_internAll (l seen : List α) : l.length ≤ (internAll l seen).length := by
  induction seen generalizing l with
  | nil => exact Nat.le_refl _
  | cons a seen ih => exact Nat.le_trans (length_le_intern l a) (ih (intern l a))

/-- There are no more numbers than values to be seen. -/
theorem length_internAll_le (seen : List α) :
    (internAll [] seen).length ≤ seen.dedup.length := by
  have hsub : internAll [] seen ⊆ seen.dedup := by
    intro a ha
    rw [List.mem_dedup]
    simpa using mem_internAll.mp ha
  exact ((nodup_internAll List.nodup_nil seen).subperm hsub).length_le

end Numbering
