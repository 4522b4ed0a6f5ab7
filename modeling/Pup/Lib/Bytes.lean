/-
Little-endian integers in a byte-addressed memory.

A memory is a partial map from addresses to bytes, so that a read outside of what
is mapped is visible as `none`.  `le` writes a number out and `load` reads one
back; `load_le` is the round trip, and `holds_append` splits what a memory holds
at any point of a longer layout.
-/
import Mathlib.Data.BitVec

namespace Bytes

/-- A memory over `w`-bit addresses; `none` is an address nothing is mapped at. -/
abbrev Memory (w : Nat) := BitVec w → Option (BitVec 8)

variable {w : Nat}

/-- The `n` bytes of `v`, least significant first; higher bits are dropped. -/
def le : Nat → Nat → List (BitVec 8)
  | 0, _ => []
  | n + 1, v => BitVec.ofNat 8 v :: le n (v / 256)

/-- The number whose `n` bytes start at `a`. -/
def load (m : Memory w) (a : BitVec w) : Nat → Option Nat
  | 0 => some 0
  | n + 1 => do
      let b ← m a
      let rest ← load m (a + 1#w) n
      some (b.toNat + 256 * rest)

/-- The bytes `bs` lie in memory from `a` on. -/
def Holds (m : Memory w) : BitVec w → List (BitVec 8) → Prop
  | _, [] => True
  | a, b :: bs => m a = some b ∧ Holds m (a + 1#w) bs

/-- A 32-bit read. -/
def load32 (m : Memory w) (a : BitVec w) : Option (BitVec 32) :=
  (load m a 4).map (BitVec.ofNat 32)

/-- A 64-bit read. -/
def load64 (m : Memory w) (a : BitVec w) : Option (BitVec 64) :=
  (load m a 8).map (BitVec.ofNat 64)

@[simp] theorem le_length (n v : Nat) : (le n v).length = n := by
  induction n generalizing v with
  | zero => rfl
  | succ n ih => simp [le, ih]

theorem load_le {m : Memory w} {a : BitVec w} {n v : Nat} (h : Holds m a (le n v)) :
    load m a n = some (v % 256 ^ n) := by
  induction n generalizing a v with
  | zero => simp [load, Nat.mod_one]
  | succ n ih =>
      obtain ⟨hb, hrest⟩ := h
      have hsplit : v % 256 ^ (n + 1) = v % 256 + 256 * (v / 256 % 256 ^ n) := by
        rw [pow_succ', Nat.mod_mul]
      simp [load, hb, ih hrest, hsplit]

theorem load32_le {m : Memory w} {a : BitVec w} {v : Nat} (h : Holds m a (le 4 v)) :
    load32 m a = some (BitVec.ofNat 32 v) := by
  rw [load32, load_le h, Option.map_some]
  congr 1
  exact BitVec.eq_of_toNat_eq (by simp)

theorem load64_le {m : Memory w} {a : BitVec w} {v : BitVec 64}
    (h : Holds m a (le 8 v.toNat)) : load64 m a = some v := by
  rw [load64, load_le h, Option.map_some]
  congr 1
  exact BitVec.eq_of_toNat_eq (by simpa using v.isLt)

private theorem advance (a : BitVec w) (n : Nat) :
    a + 1#w + BitVec.ofNat w n = a + BitVec.ofNat w (n + 1) := by
  rw [BitVec.add_assoc, BitVec.add_comm 1#w, BitVec.ofNat_add]

theorem holds_append {m : Memory w} {a : BitVec w} {xs ys : List (BitVec 8)} :
    Holds m a (xs ++ ys) ↔ Holds m a xs ∧ Holds m (a + BitVec.ofNat w xs.length) ys := by
  induction xs generalizing a with
  | nil => simp [Holds]
  | cons x xs ih => simp only [List.cons_append, Holds, ih, advance, and_assoc, List.length_cons]

theorem Holds.mono {m : Memory w} {a : BitVec w} {xs ys : List (BitVec 8)}
    (h : Holds m a ys) (hxs : xs <+: ys) : Holds m a xs := by
  obtain ⟨zs, rfl⟩ := hxs
  exact (holds_append.mp h).1

/-- The `i`-th word of a table of 32-bit words. -/
theorem load32_table {m : Memory w} {a : BitVec w} {vs : List (BitVec 32)}
    (h : Holds m a (vs.flatMap fun v => le 4 v.toNat)) {i : Nat} (hi : i < vs.length) :
    load32 m (a + BitVec.ofNat w (4 * i)) = some vs[i] := by
  induction vs generalizing a i with
  | nil => simp at hi
  | cons v vs ih =>
      rw [List.flatMap_cons, holds_append, le_length] at h
      cases i with
      | zero => simpa using load32_le h.1
      | succ i =>
          have := ih h.2 (Nat.lt_of_succ_lt_succ hi)
          rw [BitVec.add_assoc, ← BitVec.ofNat_add] at this
          rw [show 4 * (i + 1) = 4 + 4 * i by omega, this]
          rfl

/-- A memory holding `bs` at `a` and nothing else. -/
def only (a : BitVec w) (bs : List (BitVec 8)) : Memory w := fun x => bs[(x - a).toNat]?

theorem holds_of_forall {m : Memory w} {a : BitVec w} {bs : List (BitVec 8)}
    (h : ∀ i (hi : i < bs.length), m (a + BitVec.ofNat w i) = some bs[i]) : Holds m a bs := by
  induction bs generalizing a with
  | nil => trivial
  | cons b bs ih =>
      have hhead := h 0 (by simp)
      rw [BitVec.add_zero] at hhead
      refine ⟨hhead, ih fun i hi => ?_⟩
      rw [advance]
      exact h (i + 1) (by simpa using hi)

theorem holds_only {a : BitVec w} {bs : List (BitVec 8)} (h : bs.length ≤ 2 ^ w) :
    Holds (only a bs) a bs := by
  refine holds_of_forall fun i hi => ?_
  have hdiff : a + BitVec.ofNat w i - a = BitVec.ofNat w i := by
    rw [BitVec.add_comm, BitVec.add_sub_cancel]
  simp only [only, hdiff, BitVec.toNat_ofNat, Nat.mod_eq_of_lt (hi.trans_le h),
    List.getElem?_eq_getElem hi]

end Bytes
