/-
Paths through code that is made of blocks.

An instruction that does not end its block is followed by the next one of the block, and an
instruction with targets by the first instructions of these blocks.  A path is kept with its
latest point first, so that what was executed before a point stands behind it.
-/
import Mathlib.Data.List.Chain

namespace Pup.Flow

variable {ι : Type}

/-- Blocks of instructions. -/
structure Code (ι : Type) where
  instrs : Nat → List ι
  targets : ι → List Nat
  /-- Whether what follows the instruction in its block is not executed after it. -/
  ends : ι → Bool

/-- An instruction, by its block and its place in it. -/
structure Point where
  block : Nat
  index : Nat
  deriving DecidableEq, Repr

namespace Code

def at? (c : Code ι) (p : Point) : Option ι := (c.instrs p.block)[p.index]?

/-- What can be executed after the instruction at a point. -/
inductive Next (c : Code ι) : Point → Point → Prop
  | step {p : Point} {i : ι} (hi : c.at? p = some i) (hends : c.ends i = false) :
      Next c p ⟨p.block, p.index + 1⟩
  | jump {p : Point} {i : ι} {b : Nat} (hi : c.at? p = some i) (hb : b ∈ c.targets i) :
      Next c p ⟨b, 0⟩

/-- The paths that start at the beginning of a block. -/
inductive Path (c : Code ι) (first : Nat) : List Point → Prop
  | start : Path c first [⟨first, 0⟩]
  | next {p q : Point} {before : List Point} (hp : Path c first (p :: before))
      (hq : c.Next p q) : Path c first (q :: p :: before)

/-- The runs that start at a point. -/
structure Run (c : Code ι) (start : Point) (path : List Point) : Prop where
  chain : path.IsChain fun q p => c.Next p q
  start : path.getLast? = some start

variable {c : Code ι} {first b k : Nat} {p : Point} {before path : List Point}

/-- What was executed on the way to a point is a path itself. -/
theorem Path.suffix (h : c.Path first path) (hp : (p :: before) <:+ path) :
    c.Path first (p :: before) := by
  induction h with
  | start =>
      have hsingle := List.suffix_cons_iff.mp hp
      rcases hsingle with heq | hnil
      · rw [heq]
        exact .start
      · cases List.suffix_nil.mp hnil
  | next hpath hq ih =>
      rcases List.suffix_cons_iff.mp hp with heq | hsuffix
      · rw [heq]
        exact hpath.next hq
      · exact ih hsuffix

/-- A path comes to an instruction over all that stand before it in its block. -/
theorem Path.inBlock (h : c.Path first (⟨b, k⟩ :: before)) {j : Nat} (hj : j < k) :
    (⟨b, j⟩ : Point) ∈ before ∧ ∃ i, c.at? ⟨b, j⟩ = some i ∧ c.ends i = false := by
  induction k generalizing before with
  | zero => exact absurd hj (Nat.not_lt_zero j)
  | succ k ih =>
      cases h with
      | @next p _ before hp hq =>
          cases hq with
          | @step i hi hends =>
              show (⟨p.block, j⟩ : Point) ∈ p :: before ∧ _
              rcases Nat.lt_succ_iff_lt_or_eq.mp hj with hlt | rfl
              · obtain ⟨hmem, hi'⟩ := ih hp hlt
                exact ⟨.tail _ hmem, hi'⟩
              · exact ⟨.head _, i, hi, hends⟩

/-- A path comes to the first instruction of a block by a jump. -/
theorem Path.jumped (h : c.Path first (⟨b, 0⟩ :: p :: before)) :
    ∃ i, c.at? p = some i ∧ b ∈ c.targets i := by
  cases h with
  | next hp hq =>
      cases hq with
      | jump hi hb => exact ⟨_, hi, hb⟩

/-- Unless it starts there. -/
theorem Path.entered (h : c.Path first (⟨b, 0⟩ :: before)) (hne : b ≠ first) :
    ∃ p before', before = p :: before' := by
  cases h with
  | start => exact absurd rfl hne
  | next hp hq => exact ⟨_, _, rfl⟩

/-- The block of a point was entered before the point was come to. -/
theorem Path.atFirst (h : c.Path first (⟨b, k⟩ :: before)) :
    ∃ before', ((⟨b, 0⟩ : Point) :: before') <:+ ⟨b, k⟩ :: before := by
  by_cases hk : k = 0
  · rw [hk]
    exact ⟨before, List.suffix_rfl⟩
  · obtain ⟨hmem, -⟩ := h.inBlock (Nat.pos_of_ne_zero hk)
    obtain ⟨l, before', rfl⟩ := List.append_of_mem hmem
    exact ⟨before', (List.suffix_append l _).trans (List.suffix_cons _ _)⟩

/-- An instruction that stands before another one in its block has been executed when the other
one is, and has not ended the block. -/
theorem Path.executed (h : c.Path first (⟨b, k⟩ :: before)) {i : ι}
    (hi : i ∈ (c.instrs b).take k) :
    (∃ q ∈ before, c.at? q = some i) ∧ c.ends i = false := by
  obtain ⟨j, hj, hget⟩ := List.mem_take_iff_getElem.mp hi
  have hlt : j < k := Nat.lt_of_lt_of_le hj (Nat.min_le_left ..)
  have hat : c.at? ⟨b, j⟩ = some i := by
    show (c.instrs b)[j]? = some i
    rw [List.getElem?_eq_getElem (Nat.lt_of_lt_of_le hj (Nat.min_le_right ..)), hget]
  obtain ⟨hmem, i', hi', hends⟩ := h.inBlock hlt
  obtain rfl : i' = i := Option.some.inj (hi'.symm.trans hat)
  exact ⟨⟨_, hmem, hat⟩, hends⟩

/-- **What has to be done before a jump has been done after it.** -/
theorem Path.done {P : ι → Prop} (h : c.Path first (p :: before))
    (hp : ∃ j ∈ (c.instrs p.block).take p.index, c.ends j = true ∨ P j) :
    ∃ q ∈ before, ∃ j, c.at? q = some j ∧ P j := by
  obtain ⟨j, hj, hends | hP⟩ := hp
  · rw [(h.executed hj).2] at hends
    cases hends
  · obtain ⟨⟨q, hq, hat⟩, -⟩ := h.executed hj
    exact ⟨q, hq, j, hat, hP⟩

/-- Whether the second point can be executed after the first one. -/
def next (c : Code ι) (p q : Point) : Bool :=
  (c.at? p).any fun i =>
    !c.ends i && decide (q = ⟨p.block, p.index + 1⟩) ||
      decide (q.index = 0) && (c.targets i).contains q.block

/-- Whether a list of points is a path, which can be evaluated. -/
def follows (c : Code ι) (first : Nat) : List Point → Bool
  | [] => false
  | [p] => decide (p = ⟨first, 0⟩)
  | q :: p :: before => c.next p q && c.follows first (p :: before)

theorem next_of_next {q : Point} (h : c.next p q = true) : c.Next p q := by
  obtain ⟨i, hi, hq⟩ := (Option.any_eq_true _ _).mp h
  rw [Bool.or_eq_true, Bool.and_eq_true, Bool.and_eq_true] at hq
  rcases hq with ⟨hends, hq⟩ | ⟨hindex, hblock⟩
  · rw [of_decide_eq_true hq]
    exact .step hi (by simpa using hends)
  · obtain ⟨b, k⟩ := q
    obtain rfl : k = 0 := of_decide_eq_true hindex
    exact .jump hi (by simpa using hblock)

theorem run_of_next {start : Point} (h : path.IsChain fun q p => c.next p q = true)
    (hstart : path.getLast? = some start) : c.Run start path :=
  ⟨h.imp fun _ _ => next_of_next, hstart⟩

theorem path_of_follows (h : c.follows first path = true) : c.Path first path := by
  induction path with
  | nil => cases h
  | cons q path ih =>
      cases path with
      | nil =>
          rw [of_decide_eq_true (h : decide (q = ⟨first, 0⟩) = true)]
          exact .start
      | cons p before =>
          rw [follows, Bool.and_eq_true] at h
          exact (ih h.2).next (next_of_next h.1)

end Code

end Pup.Flow
