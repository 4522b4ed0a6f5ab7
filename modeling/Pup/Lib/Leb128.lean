/-
Numbers in groups of seven bits.

In a LEB128 encoding every byte but the last has its top bit set, and the other seven
bits are a digit in base 128, the lowest first.  An encoding may be padded, so a number
has many.  `unsigned` is what the digits say, and `signed` reads the top bit of the last
digit as a sign.
-/
import Mathlib.Data.BitVec
import Mathlib.Tactic.Ring
import Mathlib.Tactic.Linarith

namespace Leb128

/-- The digit in a byte. -/
def digit (b : BitVec 8) : Nat := b.toNat % 128

/-- The bytes are one encoding. -/
def IsLeb : List (BitVec 8) → Prop
  | [] => False
  | [b] => b.toNat < 128
  | b :: bs => 128 ≤ b.toNat ∧ IsLeb bs

instance IsLeb.decidable : (bs : List (BitVec 8)) → Decidable (IsLeb bs)
  | [] => inferInstanceAs (Decidable False)
  | [b] => inferInstanceAs (Decidable (b.toNat < 128))
  | b :: b' :: bs =>
      have : Decidable (IsLeb (b' :: bs)) := IsLeb.decidable (b' :: bs)
      inferInstanceAs (Decidable (128 ≤ b.toNat ∧ IsLeb (b' :: bs)))

def unsigned : List (BitVec 8) → Nat
  | [] => 0
  | b :: bs => digit b + 128 * unsigned bs

def signed : List (BitVec 8) → Int
  | [] => 0
  | [b] => if 64 ≤ digit b then digit b - 128 else digit b
  | b :: bs => digit b + 128 * signed bs

/-- `bs` encodes `v` without a sign. -/
def Uleb (v : Nat) (bs : List (BitVec 8)) : Prop := IsLeb bs ∧ unsigned bs = v

/-- `bs` encodes `v` with a sign. -/
def Sleb (v : Int) (bs : List (BitVec 8)) : Prop := IsLeb bs ∧ signed bs = v

theorem digit_lt (b : BitVec 8) : digit b < 128 := Nat.mod_lt _ (by decide)

theorem IsLeb.ne_nil {bs : List (BitVec 8)} (h : IsLeb bs) : bs ≠ [] := by
  rintro rfl
  exact h

theorem IsLeb.cons {b b' : BitVec 8} {bs : List (BitVec 8)} :
    IsLeb (b :: b' :: bs) ↔ 128 ≤ b.toNat ∧ IsLeb (b' :: bs) :=
  Iff.rfl

theorem unsigned_lt (bs : List (BitVec 8)) : unsigned bs < 128 ^ bs.length := by
  induction bs with
  | nil => decide
  | cons b bs ih =>
      have := digit_lt b
      rw [unsigned, List.length_cons, pow_succ]
      omega

theorem signed_cons {b b' : BitVec 8} {bs : List (BitVec 8)} :
    signed (b :: b' :: bs) = digit b + 128 * signed (b' :: bs) :=
  rfl

/-- The sign takes one off the digit above the last. -/
theorem signed_concat (init : List (BitVec 8)) (last : BitVec 8) :
    signed (init ++ [last]) = unsigned (init ++ [last]) -
      if 64 ≤ digit last then (128 : Int) ^ (init.length + 1) else 0 := by
  induction init with
  | nil =>
      by_cases h : 64 ≤ digit last
      · simp [signed, unsigned, h]
      · simp [signed, unsigned, h]
  | cons b init ih =>
      obtain ⟨b', bs, heq⟩ := List.exists_cons_of_ne_nil (List.concat_ne_nil last init)
      rw [List.cons_append, heq, signed_cons, ← heq, ih, unsigned, List.length_cons]
      split
      · push_cast
        ring
      · push_cast
        ring

theorem unsigned_append (xs ys : List (BitVec 8)) :
    unsigned (xs ++ ys) = unsigned xs + 128 ^ xs.length * unsigned ys := by
  induction xs with
  | nil => simp [unsigned]
  | cons b xs ih =>
      rw [List.cons_append, unsigned, unsigned, ih, List.length_cons, pow_succ]
      ring

theorem signed_append (xs : List (BitVec 8)) {ys : List (BitVec 8)} (hys : ys ≠ []) :
    signed (xs ++ ys) = unsigned xs + 128 ^ xs.length * signed ys := by
  induction xs with
  | nil => simp [unsigned]
  | cons b xs ih =>
      obtain ⟨b', bs, heq⟩ := List.exists_cons_of_ne_nil (List.append_ne_nil_of_right_ne_nil xs hys)
      rw [List.cons_append, heq, signed_cons, ← heq, ih, unsigned, List.length_cons, pow_succ]
      push_cast
      ring

/-- All digits of minus one are the highest. -/
theorem digit_of_signed_eq {bs : List (BitVec 8)} (h : signed bs = -1) :
    ∀ b ∈ bs, digit b = 127 := by
  induction bs with
  | nil => simp
  | cons b bs ih =>
      have hb := digit_lt b
      cases bs with
      | nil =>
          rw [signed] at h
          have hdigit : digit b = 127 := by
            split at h
            · omega
            · omega
          simpa using hdigit
      | cons b' bs =>
          rw [signed_cons] at h
          have hrest : signed (b' :: bs) = -1 := by omega
          have hdigit : digit b = 127 := by omega
          exact List.forall_mem_cons.mpr ⟨hdigit, ih hrest⟩

/-- Where two encodings lie at the same place they are the same. -/
theorem IsLeb.eq_of_prefix {bs bs' : List (BitVec 8)} (h : IsLeb bs) (h' : IsLeb bs')
    (hp : bs <+: bs') : bs = bs' := by
  induction bs generalizing bs' with
  | nil => exact absurd rfl h.ne_nil
  | cons b bs ih =>
      obtain ⟨rest, rfl⟩ := hp
      cases bs with
      | nil =>
          cases rest with
          | nil => rfl
          | cons c rest =>
              have hb : b.toNat < 128 := h
              exact absurd h'.1 (Nat.not_le.mpr hb)
      | cons b' bs =>
          have := ih h.2 (IsLeb.cons.mp h').2 ⟨rest, rfl⟩
          exact congrArg _ this

theorem IsLeb.unique {bs bs' zs : List (BitVec 8)} (h : IsLeb bs) (h' : IsLeb bs')
    (hp : bs <+: zs) (hp' : bs' <+: zs) : bs = bs' := by
  rcases List.prefix_or_prefix_of_prefix hp hp' with hpre | hpre
  · exact h.eq_of_prefix h' hpre
  · exact (h'.eq_of_prefix h hpre).symm

end Leb128
