/-
Singly linked lists in memory.

`Linked next h l` says that following `next` from the head pointer `h` runs
through the nodes of `l` in order and ends at a null pointer.  The nodes of such a
list are determined by the head, so a list that ends has no node twice; and a list
does not notice writes to the links of nodes that are not on it.
-/
import Mathlib.Data.List.Basic

namespace Chain

variable {α : Type*}

/-- Following `next` from `h` visits exactly `l` and then meets the null pointer. -/
inductive Linked (next : α → Option α) : Option α → List α → Prop
  | nil : Linked next none []
  | cons {a : α} {l : List α} (h : Linked next (next a) l) : Linked next (some a) (a :: l)

variable {next : α → Option α}

theorem Linked.head {h : Option α} {l : List α} (hl : Linked next h l) : h = l.head? := by
  cases hl <;> rfl

theorem Linked.nil_iff {l : List α} : Linked next none l ↔ l = [] := by
  constructor
  · intro h; cases h; rfl
  · rintro rfl; exact .nil

theorem Linked.tail {a : α} {l : List α} (hl : Linked next (some a) l) :
    ∃ rest, l = a :: rest ∧ Linked next (next a) rest := by
  cases hl with
  | cons h => exact ⟨_, rfl, h⟩

/-- The head pointer determines the nodes. -/
theorem Linked.unique {h : Option α} {l₁ : List α} (hl : Linked next h l₁) :
    ∀ {l₂ : List α}, Linked next h l₂ → l₁ = l₂ := by
  induction hl with
  | nil => intro l₂ h₂; exact (Linked.nil_iff.mp h₂).symm
  | cons _ ih =>
      intro l₂ h₂
      obtain ⟨rest, rfl, hrest⟩ := h₂.tail
      rw [ih hrest]

/-- Every node of a list is the head of the rest of it. -/
theorem Linked.suffix {l₁ l₂ : List α} {a : α} :
    ∀ {h : Option α}, Linked next h (l₁ ++ a :: l₂) → Linked next (some a) (a :: l₂) := by
  induction l₁ with
  | nil =>
      intro h hl
      have hhead : h = some a := by simpa using hl.head
      rwa [hhead] at hl
  | cons b rest ih =>
      intro h hl
      have hhead : h = some b := by simpa using hl.head
      subst hhead
      obtain ⟨l, hl', htail⟩ := hl.tail
      obtain rfl : l = rest ++ a :: l₂ := by simpa using hl'.symm
      exact ih htail

/-- **A list that ends has no node twice.** -/
theorem Linked.nodup {h : Option α} {l : List α} (hl : Linked next h l) : l.Nodup := by
  induction hl with
  | nil => exact List.nodup_nil
  | @cons a l htail ih =>
      refine List.nodup_cons.mpr ⟨?_, ih⟩
      intro hmem
      -- a second occurrence of `a` would head both the whole list and a shorter one
      obtain ⟨l₁, l₂, rfl⟩ := List.append_of_mem hmem
      have heq : a :: l₂ = a :: (l₁ ++ a :: l₂) := htail.suffix.unique (.cons htail)
      have hlen := congrArg List.length heq
      simp at hlen
      omega

/-- Links of nodes that are not on the list do not matter. -/
theorem Linked.congr {next' : α → Option α} {h : Option α} {l : List α}
    (hl : Linked next h l) (heq : ∀ a ∈ l, next' a = next a) : Linked next' h l := by
  induction hl with
  | nil => exact .nil
  | @cons a l _ ih =>
      refine .cons ?_
      rw [heq a (by simp)]
      exact ih fun b hb => heq b (by simp [hb])

/-- Pushing a node whose link has been set to the old head. -/
theorem Linked.push {h : Option α} {l : List α} (hl : Linked next h l) {a : α}
    (ha : next a = h) : Linked next (some a) (a :: l) := by
  subst ha
  exact .cons hl

/-- A node of a list is its head, or some node's link leads to it. -/
theorem Linked.mem_cases {a b : α} {l : List α} (hl : Linked next (some a) l) (hb : b ∈ l) :
    b = a ∨ ∃ c ∈ l, next c = some b := by
  obtain ⟨l₁, l₂, rfl⟩ := List.append_of_mem hb
  induction l₁ generalizing a with
  | nil => exact .inl (Option.some.inj hl.head).symm
  | cons c l₁ ih =>
      right
      obtain ⟨rest, hrest, htail⟩ := hl.tail
      obtain ⟨rfl, rfl⟩ := List.cons.inj hrest
      cases hnext : next c with
      | none =>
          rw [hnext, Linked.nil_iff] at htail
          simp at htail
      | some d =>
          rw [hnext] at htail
          rcases ih htail (by simp) with rfl | ⟨e, he, heq⟩
          · exact ⟨c, List.mem_cons_self, hnext⟩
          · exact ⟨e, List.mem_cons_of_mem c he, heq⟩

/-- What holds of the first node and goes over from node to node holds of all. -/
theorem Linked.forall_of_step {P : α → Prop} (hstep : ∀ a b, P a → next a = some b → P b)
    {h : Option α} {l : List α} (hl : Linked next h l) (hhead : ∀ a, h = some a → P a) :
    ∀ b ∈ l, P b := by
  induction hl with
  | nil => simp
  | @cons a l _ ih =>
      have ha : P a := hhead a rfl
      intro b hb
      rcases List.mem_cons.mp hb with rfl | hb
      · exact ha
      · exact ih (fun c hc => hstep a c ha hc) b hb

/-! ### Pointers to pointers -/

/-- A place that holds a pointer of a list. -/
inductive Link (α : Type*)
  | head
  | next (a : α)
  deriving DecidableEq

/-- The pointer that is there. -/
def Link.get (head : Option α) (next : α → Option α) : Link α → Option α
  | .head => head
  | .next a => next a

/-! ### The order along a chain -/

/-- Following `next` from `d` comes by `a`, and to an end. -/
def Above (next : α → Option α) (a d : α) : Prop := ∃ l, Linked next (some d) l ∧ a ∈ l

theorem Linked.above {d : α} {l : List α} (hl : Linked next (some d) l) {a : α} :
    a ∈ l ↔ Above next a d := by
  constructor
  · intro ha
    exact ⟨l, hl, ha⟩
  · intro h
    obtain ⟨l', hl', ha⟩ := h
    rwa [hl.unique hl']

theorem Above.refl {d : α} {l : List α} (hl : Linked next (some d) l) : Above next d d := by
  obtain ⟨rest, rfl, -⟩ := hl.tail
  exact ⟨_, hl, List.mem_cons_self⟩

/-- What is on the chain of a node on the chain is on the chain. -/
theorem Above.trans {a b d : α} (hab : Above next a b) (hbd : Above next b d) :
    Above next a d := by
  obtain ⟨l, hl, hb⟩ := hbd
  obtain ⟨l₁, l₂, rfl⟩ := List.append_of_mem hb
  have ha : a ∈ b :: l₂ := hl.suffix.above.mpr hab
  exact ⟨_, hl, List.mem_append_right _ ha⟩

/-- No chain comes back to where it was. -/
theorem Above.antisymm {a d : α} (had : Above next a d) (hda : Above next d a) : a = d := by
  obtain ⟨l, hl, ha⟩ := had
  obtain ⟨l₁, l₂, rfl⟩ := List.append_of_mem ha
  have hd : d ∈ a :: l₂ := hl.suffix.above.mpr hda
  cases l₁ with
  | nil => exact (Option.some.inj hl.head).symm
  | cons b l₁ =>
      -- `d` is at the head of the chain, and so it is nowhere else on it
      obtain rfl : d = b := Option.some.inj hl.head
      have hnodup := (List.nodup_cons.mp hl.nodup).1
      exact absurd (List.mem_append_right _ hd) hnodup

end Chain
