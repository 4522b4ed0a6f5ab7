/-
Numbers and bits in a memory that is written.

Every address has a byte here, unlike in `Pup.Lib.Bytes`, where a read may miss.  A
number is stored with its least significant byte first.  A load sees the last store
to its range (`load_store`), and what is stored elsewhere does not concern it
(`load_congr`, `store_of_outside`).
-/
import Mathlib.Data.BitVec
import Mathlib.Logic.Function.Basic

namespace Words

abbrev Memory := Nat → BitVec 8

/-- The number in the `n` bytes from `a` on. -/
def load (m : Memory) (a : Nat) : Nat → Nat
  | 0 => 0
  | n + 1 => (m a).toNat + 256 * load m (a + 1) n

/-- The `n` bytes from `a` on become the number `v`; its higher bits are dropped. -/
def store (m : Memory) (a : Nat) : Nat → Nat → Memory
  | 0, _ => m
  | n + 1, v => Function.update (store m (a + 1) n (v / 256)) a (BitVec.ofNat 8 v)

/-- A byte with another lowest bit. -/
def setLowBit (b : BitVec 8) (v : Bool) : BitVec 8 := b &&& 0xFE#8 ||| if v then 1#8 else 0#8

def lowBit (b : BitVec 8) : Bool := b.getLsbD 0

/-- A bit field one bit wide, at the start of the byte at `a`. -/
def storeBit (m : Memory) (a : Nat) (v : Bool) : Memory :=
  Function.update m a (setLowBit (m a) v)

theorem store_of_outside {a b n : Nat} (m : Memory) (v : Nat) (h : b < a ∨ a + n ≤ b) :
    store m a n v b = m b := by
  induction n generalizing a v with
  | zero => rfl
  | succ n ih =>
      have hne : b ≠ a := by omega
      rw [store, Function.update_of_ne hne]
      exact ih (v / 256) (by omega)

theorem load_congr {m m' : Memory} {a n : Nat} (h : ∀ b, a ≤ b → b < a + n → m' b = m b) :
    load m' a n = load m a n := by
  induction n generalizing a with
  | zero => rfl
  | succ n ih =>
      have hrest : load m' (a + 1) n = load m (a + 1) n := by
        apply ih
        intro b hlo hhi
        exact h b (by omega) (by omega)
      rw [load, load, hrest, h a (by omega) (by omega)]

theorem load_store {n v : Nat} (m : Memory) (a : Nat) (hv : v < 256 ^ n) :
    load (store m a n v) a n = v := by
  induction n generalizing a v with
  | zero =>
      show 0 = v
      omega
  | succ n ih =>
      have hdiv : v / 256 < 256 ^ n := by
        apply Nat.div_lt_of_lt_mul
        rwa [← pow_succ']
      have hrest : load (store m a (n + 1) v) (a + 1) n = v / 256 := by
        rw [← ih (a + 1) hdiv]
        apply load_congr
        intro b hlo _
        rw [store, Function.update_of_ne (by omega)]
      rw [load, hrest, store, Function.update_self, BitVec.toNat_ofNat]
      omega

@[simp] theorem lowBit_setLowBit (b : BitVec 8) (v : Bool) : lowBit (setLowBit b v) = v := by
  unfold lowBit setLowBit
  by_cases hv : v = true
  · simp [hv]
  · simp [hv]

theorem storeBit_self (m : Memory) (a : Nat) (v : Bool) : lowBit (storeBit m a v a) = v := by
  unfold storeBit
  simp

theorem storeBit_of_ne {a b : Nat} (m : Memory) (v : Bool) (h : b ≠ a) :
    storeBit m a v b = m b :=
  Function.update_of_ne h _ _

end Words
