/-
Reading numbers from a language specific data area.

A pointer is a 64-bit address, and a read where nothing is mapped is a fault.
`readULEB128` and `readSLEB128` share their loop, in which a byte is shifted as an `int`
before it is widened; the shift count is taken modulo 32, as the processor does it.  A
loop has a number of rounds, of which there are always enough for what is well formed.

The second half says that what an encoding is written for is what is read back, as long as
it is below 2^31.
-/
import Pup.Lib.Bytes
import Pup.Lib.Leb128
import Pup.Lib.Except

namespace Pup.Raise

open Bytes Leb128 Outcome

inductive Fault
  | segv (a : BitVec 64)
  | abort
  | outOfFuel
  deriving DecidableEq, Repr

abbrev Ptr := BitVec 64

/-! ### The readers -/

def readByte (mem : Bytes.Memory 64) (p : Ptr) : Except Fault (BitVec 8) :=
  (mem p).elim (.error (.segv p)) .ok

/-- `(byte & 0x7f) << shift`, as a `uintptr_t`. -/
def shiftedByte (byte : BitVec 8) (shift : BitVec 64) : BitVec 64 :=
  (((byte &&& 0x7f#8).setWidth 32) <<< (shift.toNat % 32)).signExtend 64

/-- `~0 << shift`, as a `uintptr_t`. -/
def shiftedSign (shift : BitVec 64) : BitVec 64 :=
  ((~~~0#32) <<< (shift.toNat % 32)).signExtend 64

/-- What the loop of the two readers leaves. -/
structure Leb where
  result : BitVec 64
  shift : BitVec 64
  byte : BitVec 8
  p : Ptr

def lebLoop (mem : Bytes.Memory 64) : Nat → Ptr → BitVec 64 → BitVec 64 → Except Fault Leb
  | 0, _, _, _ => .error .outOfFuel
  | fuel + 1, p, result, shift => do
      let byte ← readByte mem p
      let result := result ||| shiftedByte byte shift
      let shift := shift + 7
      if byte &&& 0x80#8 ≠ 0 then lebLoop mem fuel (p + 1) result shift
      else return ⟨result, shift, byte, p + 1⟩

/-- `readULEB128`: the value and the pointer after it. -/
def readULEB128 (fuel : Nat) (mem : Bytes.Memory 64) (p : Ptr) :
    Except Fault (BitVec 64 × Ptr) := do
  let l ← lebLoop mem fuel p 0 0
  return (l.result, l.p)

/-- `readSLEB128`. -/
def readSLEB128 (fuel : Nat) (mem : Bytes.Memory 64) (p : Ptr) :
    Except Fault (BitVec 64 × Ptr) := do
  let l ← lebLoop mem fuel p 0 0
  if l.byte &&& 0x40#8 ≠ 0 ∧ l.shift < 64 then return (l.result ||| shiftedSign l.shift, l.p)
  else return (l.result, l.p)

def readData (mem : Bytes.Memory 64) (p : Ptr) (n : Nat) : Except Fault Nat :=
  (load mem p n).elim (.error (.segv p)) .ok

/-- `*((uintn_t*)p)`, and the pointer after it. -/
def readUnsigned (mem : Bytes.Memory 64) (p : Ptr) (n : Nat) : Except Fault (BitVec 64 × Ptr) := do
  let v ← readData mem p n
  return (BitVec.ofNat 64 v, p + BitVec.ofNat 64 n)

/-- `*((intn_t*)p)`, and the pointer after it. -/
def readSigned (mem : Bytes.Memory 64) (p : Ptr) (n : Nat) : Except Fault (BitVec 64 × Ptr) := do
  let v ← readData mem p n
  return ((BitVec.ofNat (8 * n) v).signExtend 64, p + BitVec.ofNat 64 n)

def DW_EH_PE_absptr : BitVec 8 := 0x00
def DW_EH_PE_omit : BitVec 8 := 0xff
def DW_EH_PE_uleb128 : BitVec 8 := 0x01
def DW_EH_PE_udata2 : BitVec 8 := 0x02
def DW_EH_PE_udata4 : BitVec 8 := 0x03
def DW_EH_PE_udata8 : BitVec 8 := 0x04
def DW_EH_PE_sleb128 : BitVec 8 := 0x09
def DW_EH_PE_sdata2 : BitVec 8 := 0x0A
def DW_EH_PE_sdata4 : BitVec 8 := 0x0B
def DW_EH_PE_sdata8 : BitVec 8 := 0x0C
def DW_EH_PE_pcrel : BitVec 8 := 0x10
def DW_EH_PE_indirect : BitVec 8 := 0x80

/-- The first `switch` of `readEncodedPointer`. -/
def readFormat (fuel : Nat) (mem : Bytes.Memory 64) (p : Ptr) (format : BitVec 8) :
    Except Fault (BitVec 64 × Ptr) :=
  if format = DW_EH_PE_absptr then readUnsigned mem p 8
  else if format = DW_EH_PE_uleb128 then readULEB128 fuel mem p
  else if format = DW_EH_PE_sleb128 then readSLEB128 fuel mem p
  else if format = DW_EH_PE_udata2 then readUnsigned mem p 2
  else if format = DW_EH_PE_udata4 then readUnsigned mem p 4
  else if format = DW_EH_PE_udata8 then readUnsigned mem p 8
  else if format = DW_EH_PE_sdata2 then readSigned mem p 2
  else if format = DW_EH_PE_sdata4 then readSigned mem p 4
  else if format = DW_EH_PE_sdata8 then readSigned mem p 8
  else .error .abort

/-- The second `switch`: what is added to a value that was read at `p`. -/
def relativeTo (p : Ptr) (application : BitVec 8) : Except Fault (BitVec 64) :=
  if application = DW_EH_PE_absptr then .ok 0
  else if application = DW_EH_PE_pcrel then .ok p
  else .error .abort

/-- `readEncodedPointer`. -/
def readEncodedPointer (fuel : Nat) (mem : Bytes.Memory 64) (p : Ptr) (encoding : BitVec 8) :
    Except Fault (BitVec 64 × Ptr) :=
  if encoding = DW_EH_PE_omit then .ok (0, p)
  else do
    let (value, next) ← readFormat fuel mem p (encoding &&& 0x0F#8)
    let base ← relativeTo p (encoding &&& 0x70#8)
    if encoding &&& DW_EH_PE_indirect ≠ 0 then do
      let value ← readData mem (value + base) 8
      return (BitVec.ofNat 64 value, next)
    else return (value + base, next)

/-! ### Reading back LEB128 -/

theorem readByte_eq {mem : Bytes.Memory 64} {p : Ptr} {b : BitVec 8} (h : mem p = some b) :
    readByte mem p = .ok b := by
  rw [readByte, h]
  rfl

theorem continues_iff (b : BitVec 8) : b &&& 0x80#8 ≠ 0 ↔ 128 ≤ b.toNat := by
  revert b
  decide +kernel

theorem negative_iff (b : BitVec 8) : b &&& 0x40#8 ≠ 0 ↔ 64 ≤ digit b := by
  revert b
  decide +kernel

theorem payload_toNat (b : BitVec 8) : (b &&& 0x7f#8).toNat = digit b := by
  revert b
  decide +kernel

theorem shiftedByte_zero {b : BitVec 8} (hb : digit b = 0) (shift : BitVec 64) :
    shiftedByte b shift = 0 := by
  have : b &&& 0x7f#8 = 0 := BitVec.eq_of_toNat_eq (by rw [payload_toNat, hb]; rfl)
  simp [shiftedByte, this]

/-- A digit whose value fits into an `int` is put in its place. -/
theorem shiftedByte_toNat {b : BitVec 8} {s : Nat} (h : digit b * 2 ^ s < 2 ^ 31)
    (hb : digit b ≠ 0) : (shiftedByte b (BitVec.ofNat 64 s)).toNat = digit b * 2 ^ s := by
  have hs : s < 31 := by
    by_contra hs
    have hpow : 2 ^ 31 ≤ 2 ^ s := Nat.pow_le_pow_right (by decide) (Nat.le_of_not_lt hs)
    have := Nat.le_mul_of_pos_left (2 ^ s) (Nat.pos_of_ne_zero hb)
    omega
  have hmod : s % 2 ^ 64 % 32 = s := by omega
  have hshift : (((b &&& 0x7f#8).setWidth 32) <<< s).toNat = digit b * 2 ^ s := by
    rw [BitVec.toNat_shiftLeft, BitVec.toNat_setWidth, payload_toNat, Nat.shiftLeft_eq,
      Nat.mod_eq_of_lt (show digit b < 2 ^ 32 from (digit_lt b).trans (by decide)),
      Nat.mod_eq_of_lt (by omega)]
  have hmsb : (((b &&& 0x7f#8).setWidth 32) <<< s).msb = false := by
    rw [BitVec.msb_eq_false_iff_two_mul_lt, hshift]
    omega
  rw [shiftedByte, BitVec.toNat_ofNat, hmod, BitVec.toNat_signExtend, hmsb]
  simp only [Bool.false_eq_true, if_false, BitVec.toNat_setWidth, hshift, Nat.add_zero]
  omega

/-- The digits read so far and the next one do not overlap. -/
theorem or_shiftedByte {b : BitVec 8} {s : Nat} {result : BitVec 64} (hr : result.toNat < 2 ^ s)
    (h : digit b * 2 ^ s < 2 ^ 31) :
    (result ||| shiftedByte b (BitVec.ofNat 64 s)).toNat = result.toNat + digit b * 2 ^ s := by
  by_cases hb : digit b = 0
  · rw [shiftedByte_zero hb, hb]
    simp
  · rw [BitVec.toNat_or, shiftedByte_toNat h hb, Nat.or_comm, Nat.mul_comm,
      ← Nat.two_pow_add_eq_or_of_lt hr, Nat.add_comm]

/-- **The loop reads what the digits say**, if that fits into an `int`. -/
theorem lebLoop_eq {mem : Bytes.Memory 64} {bs : List (BitVec 8)} (hleb : IsLeb bs) {fuel s : Nat}
    (hfuel : bs.length ≤ fuel) {p : Ptr} (hmem : Holds mem p bs) {result : BitVec 64}
    (hr : result.toNat < 2 ^ s) (hv : unsigned bs * 2 ^ s < 2 ^ 31) :
    ∃ l, lebLoop mem fuel p result (BitVec.ofNat 64 s) = .ok l ∧
      l.result.toNat = result.toNat + unsigned bs * 2 ^ s ∧
      l.shift = BitVec.ofNat 64 (s + 7 * bs.length) ∧ some l.byte = bs.getLast? ∧
      l.p = p + BitVec.ofNat 64 bs.length := by
  induction bs generalizing fuel s p result with
  | nil => exact absurd rfl hleb.ne_nil
  | cons b bs ih =>
      cases fuel with
      | zero => simp at hfuel
      | succ fuel =>
          obtain ⟨hb, hrest⟩ := hmem
          have hdigit : digit b * 2 ^ s < 2 ^ 31 := by
            refine lt_of_le_of_lt (Nat.mul_le_mul_right _ ?_) hv
            exact Nat.le_add_right ..
          have hor := or_shiftedByte hr hdigit
          have hshift : BitVec.ofNat 64 s + 7 = BitVec.ofNat 64 (s + 7) := by
            rw [BitVec.ofNat_add]
            rfl
          have hpow : 2 ^ (s + 7) = 128 * 2 ^ s := by rw [pow_add]; ring
          rw [lebLoop, readByte_eq hb]
          simp only [bind, Except.bind, hshift]
          cases bs with
          | nil =>
              have hlast : ¬ (b &&& 0x80#8 ≠ 0) := by
                rw [continues_iff]
                exact Nat.not_le.mpr hleb
              refine ⟨_, if_neg hlast, ?_, rfl, rfl, rfl⟩
              rw [hor]
              simp [unsigned]
          | cons b' bs =>
              have hcont : b &&& 0x80#8 ≠ 0 := (continues_iff b).mpr hleb.1
              have hvalue : unsigned (b :: b' :: bs) * 2 ^ s =
                  digit b * 2 ^ s + unsigned (b' :: bs) * 2 ^ (s + 7) := by
                rw [unsigned, hpow]
                ring
              have hr' : (result ||| shiftedByte b (BitVec.ofNat 64 s)).toNat < 2 ^ (s + 7) := by
                have := Nat.mul_le_mul_right (2 ^ s) (Nat.le_of_lt_succ (digit_lt b))
                rw [hor, hpow]
                omega
              obtain ⟨l, hl, hresult, hs, hbyte, hp⟩ :=
                ih hleb.2 (Nat.le_of_succ_le_succ hfuel) hrest hr' (by omega)
              refine ⟨l, (if_pos hcont).trans hl, ?_, ?_, ?_, ?_⟩
              · rw [hresult, hor, hvalue, Nat.add_assoc]
              · rw [hs]
                congr 1
                simp only [List.length_cons]
                omega
              · rw [hbyte]
                rfl
              · rw [hp, BitVec.add_assoc]
                congr 1
                have hlen : (b :: b' :: bs).length = 1 + (b' :: bs).length := Nat.add_comm ..
                rw [hlen, BitVec.ofNat_add]

theorem lebLoop_start {mem : Bytes.Memory 64} {bs : List (BitVec 8)} (hleb : IsLeb bs) {fuel : Nat}
    (hfuel : bs.length ≤ fuel) {p : Ptr} (hmem : Holds mem p bs) (hv : unsigned bs < 2 ^ 31) :
    ∃ byte, bs.getLast? = some byte ∧ lebLoop mem fuel p 0 0 =
      .ok ⟨BitVec.ofNat 64 (unsigned bs), BitVec.ofNat 64 (7 * bs.length), byte,
        p + BitVec.ofNat 64 bs.length⟩ := by
  obtain ⟨⟨result, shift, byte, q⟩, hl, hresult, hshift, hbyte, hp⟩ :=
    lebLoop_eq hleb hfuel hmem (show (0 : BitVec 64).toNat < 2 ^ 0 by decide)
      (by simpa using hv)
  refine ⟨byte, hbyte.symm, ?_⟩
  have hvalue : result = BitVec.ofNat 64 (unsigned bs) := by
    refine BitVec.eq_of_toNat_eq ?_
    rw [hresult, BitVec.toNat_ofNat, Nat.mod_eq_of_lt (by omega)]
    simp
  rw [Nat.zero_add] at hshift
  rw [← hvalue, ← hshift, ← hp]
  exact hl

/-- The pointer is after the encoding, and the value is what it says. -/
theorem readULEB128_eq {mem : Bytes.Memory 64} {bs : List (BitVec 8)} {v fuel : Nat} {p : Ptr}
    (h : Uleb v bs) (hv : v < 2 ^ 31) (hfuel : bs.length ≤ fuel) (hmem : Holds mem p bs) :
    readULEB128 fuel mem p = .ok (BitVec.ofNat 64 v, p + BitVec.ofNat 64 bs.length) := by
  obtain ⟨hleb, rfl⟩ := h
  obtain ⟨byte, -, hl⟩ := lebLoop_start hleb hfuel hmem hv
  rw [readULEB128, hl]
  rfl

/-- The sign fills what is above the digits. -/
theorem shiftedSign_toNat {k : Nat} (hk : k ≤ 4) :
    (shiftedSign (BitVec.ofNat 64 (7 * k))).toNat = 2 ^ (7 * k) * (2 ^ (64 - 7 * k) - 1) := by
  have : k = 0 ∨ k = 1 ∨ k = 2 ∨ k = 3 ∨ k = 4 := by omega
  rcases this with rfl | rfl | rfl | rfl | rfl <;> decide

theorem signed_last {bs : List (BitVec 8)} {last : BitVec 8} (h : bs.getLast? = some last) :
    signed bs = unsigned bs - if 64 ≤ digit last then (2 : Int) ^ (7 * bs.length) else 0 := by
  obtain ⟨init, rfl⟩ := List.getLast?_eq_some_iff.mp h
  rw [signed_concat, List.length_append, List.length_singleton, pow_mul]
  rfl

/-- What a padded or negative number of at most four bytes is read as. -/
theorem readSLEB128_eq {mem : Bytes.Memory 64} {bs : List (BitVec 8)} {v : Int} {fuel : Nat}
    {p : Ptr}
    (h : Sleb v bs) (hlen : bs.length ≤ 4) (hfuel : bs.length ≤ fuel) (hmem : Holds mem p bs) :
    readSLEB128 fuel mem p = .ok (BitVec.ofInt 64 v, p + BitVec.ofNat 64 bs.length) := by
  obtain ⟨hleb, rfl⟩ := h
  have hlt : unsigned bs < 2 ^ (7 * bs.length) := by
    rw [pow_mul]
    exact unsigned_lt bs
  have hle : 2 ^ (7 * bs.length) ≤ 2 ^ 28 := Nat.pow_le_pow_right (by decide) (by omega)
  obtain ⟨last, hlast, hl⟩ := lebLoop_start hleb hfuel hmem (by omega)
  have hvalue : (BitVec.ofNat 64 (unsigned bs)).toNat = unsigned bs := by
    rw [BitVec.toNat_ofNat, Nat.mod_eq_of_lt (by omega)]
  have hsmall : BitVec.ofNat 64 (7 * bs.length) < 64 := by
    rw [BitVec.lt_def, BitVec.toNat_ofNat, Nat.mod_eq_of_lt (by omega)]
    exact Nat.lt_of_le_of_lt (show 7 * bs.length ≤ 28 by omega) (by decide)
  rw [readSLEB128, hl, signed_last hlast]
  simp only [bind, Except.bind, pure, Except.pure]
  by_cases hneg : 64 ≤ digit last
  · rw [if_pos ⟨(negative_iff _).mpr hneg, hsmall⟩, if_pos hneg]
    congr 2
    refine BitVec.eq_of_toNat_eq ?_
    have hsplit : 2 ^ (7 * bs.length) * (2 ^ (64 - 7 * bs.length) - 1) =
        2 ^ 64 - 2 ^ (7 * bs.length) := by
      rw [Nat.mul_sub, ← pow_add, Nat.mul_one, Nat.add_sub_cancel' (by omega)]
    rw [BitVec.toNat_or, hvalue, shiftedSign_toNat hlen, Nat.or_comm,
      ← Nat.two_pow_add_eq_or_of_lt hlt, BitVec.toNat_ofInt, hsplit]
    have hcast : (2 : Int) ^ (7 * bs.length) = (2 ^ (7 * bs.length) : Nat) := by
      push_cast
      rfl
    rw [hcast]
    omega
  · rw [if_neg (fun hc => hneg ((negative_iff _).mp hc.1)), if_neg hneg]
    congr 2

theorem readSLEB128_nonneg {mem : Bytes.Memory 64} {bs : List (BitVec 8)} {v fuel : Nat} {p : Ptr}
    (h : Sleb v bs) (hv : v < 2 ^ 31) (hfuel : bs.length ≤ fuel) (hmem : Holds mem p bs) :
    readSLEB128 fuel mem p = .ok (BitVec.ofNat 64 v, p + BitVec.ofNat 64 bs.length) := by
  obtain ⟨hleb, hsigned⟩ := h
  obtain ⟨last, hlast⟩ := Option.ne_none_iff_exists'.mp
    (mt List.getLast?_eq_none_iff.mp hleb.ne_nil)
  have hlt := unsigned_lt bs
  rw [signed_last hlast] at hsigned
  have hpos : ¬ 64 ≤ digit last := by
    intro hneg
    rw [if_pos hneg, pow_mul] at hsigned
    have : ((unsigned bs : Nat) : Int) < (2 ^ 7 : Int) ^ bs.length := by exact_mod_cast hlt
    omega
  rw [if_neg hpos] at hsigned
  have hvalue : unsigned bs = v := by omega
  obtain ⟨byte, hbyte, hl⟩ := lebLoop_start hleb hfuel hmem (by omega)
  obtain rfl : last = byte := Option.some.inj (hlast.symm.trans hbyte)
  rw [readSLEB128, hl, hvalue]
  simp only [bind, Except.bind, pure, Except.pure]
  rw [if_neg (fun hc => hpos ((negative_iff _).mp hc.1))]

/-! ### Reading back an encoded pointer -/

/-- `bs` is `v` in one of the formats that are neither relative nor indirect. -/
inductive Encodes : BitVec 8 → Nat → List (BitVec 8) → Prop
  | absptr {v : Nat} : Encodes DW_EH_PE_absptr v (le 8 v)
  | uleb128 {v : Nat} {bs : List (BitVec 8)} : Uleb v bs → Encodes DW_EH_PE_uleb128 v bs
  | sleb128 {v : Nat} {bs : List (BitVec 8)} : Sleb v bs → Encodes DW_EH_PE_sleb128 v bs
  | udata2 {v : Nat} : v < 2 ^ 16 → Encodes DW_EH_PE_udata2 v (le 2 v)
  | udata4 {v : Nat} : v < 2 ^ 32 → Encodes DW_EH_PE_udata4 v (le 4 v)
  | udata8 {v : Nat} : Encodes DW_EH_PE_udata8 v (le 8 v)
  | sdata2 {v : Nat} : v < 2 ^ 15 → Encodes DW_EH_PE_sdata2 v (le 2 v)
  | sdata4 {v : Nat} : v < 2 ^ 31 → Encodes DW_EH_PE_sdata4 v (le 4 v)
  | sdata8 {v : Nat} : Encodes DW_EH_PE_sdata8 v (le 8 v)

theorem readData_eq {mem : Bytes.Memory 64} {p : Ptr} {n v : Nat} (hmem : Holds mem p (le n v))
    (hv : v < 256 ^ n) : readData mem p n = .ok v := by
  rw [readData, load_le hmem, Nat.mod_eq_of_lt hv]
  rfl

theorem readUnsigned_eq {mem : Bytes.Memory 64} {p : Ptr} {n v : Nat} (hmem : Holds mem p (le n v))
    (hv : v < 256 ^ n) :
    readUnsigned mem p n = .ok (BitVec.ofNat 64 v, p + BitVec.ofNat 64 (le n v).length) := by
  rw [readUnsigned, readData_eq hmem hv, le_length]
  rfl

theorem readSigned_eq {mem : Bytes.Memory 64} {p : Ptr} {n v : Nat} (hmem : Holds mem p (le n v))
    (hv : 2 * v < 256 ^ n) :
    readSigned mem p n = .ok (BitVec.ofNat 64 v, p + BitVec.ofNat 64 (le n v).length) := by
  have hpow : 256 ^ n = 2 ^ (8 * n) := by rw [pow_mul]; rfl
  have hmsb : (BitVec.ofNat (8 * n) v).msb = false := by
    rw [BitVec.msb_eq_false_iff_two_mul_lt, BitVec.toNat_ofNat, Nat.mod_eq_of_lt (by omega)]
    omega
  have hvalue : (BitVec.ofNat (8 * n) v).signExtend 64 = BitVec.ofNat 64 v := by
    rw [BitVec.signExtend_eq_setWidth_of_msb_false hmsb]
    refine BitVec.eq_of_toNat_eq ?_
    rw [BitVec.toNat_setWidth, BitVec.toNat_ofNat, BitVec.toNat_ofNat,
      Nat.mod_eq_of_lt (show v < 2 ^ (8 * n) by omega)]
  rw [readSigned, readData_eq hmem (by omega), le_length]
  simp only [bind, Except.bind, pure, Except.pure, hvalue]

/-- **What was encoded is read back.** -/
theorem readEncodedPointer_eq {mem : Bytes.Memory 64} {encoding : BitVec 8} {v fuel : Nat}
    {bs : List (BitVec 8)} {p : Ptr} (h : Encodes encoding v bs) (hv : v < 2 ^ 31)
    (hfuel : bs.length ≤ fuel) (hmem : Holds mem p bs) :
    readEncodedPointer fuel mem p encoding =
      .ok (BitVec.ofNat 64 v, p + BitVec.ofNat 64 bs.length) := by
  have hformat : readFormat fuel mem p encoding =
      .ok (BitVec.ofNat 64 v, p + BitVec.ofNat 64 bs.length) := by
    cases h with
    | absptr => exact readUnsigned_eq hmem (by omega)
    | uleb128 h => exact readULEB128_eq h hv hfuel hmem
    | sleb128 h => exact readSLEB128_nonneg h hv hfuel hmem
    | udata2 h => exact readUnsigned_eq hmem (by omega)
    | udata4 h => exact readUnsigned_eq hmem (by omega)
    | udata8 => exact readUnsigned_eq hmem (by omega)
    | sdata2 h => exact readSigned_eq hmem (by omega)
    | sdata4 h => exact readSigned_eq hmem (by omega)
    | sdata8 => exact readSigned_eq hmem (by omega)
  have hplain : encoding ≠ DW_EH_PE_omit ∧ encoding &&& 0x0F#8 = encoding ∧
      encoding &&& 0x70#8 = DW_EH_PE_absptr ∧ ¬ (encoding &&& DW_EH_PE_indirect ≠ 0) := by
    cases h <;> decide
  obtain ⟨homit, hlow, hbase, hdirect⟩ := hplain
  rw [readEncodedPointer, if_neg homit, hlow, hformat, hbase]
  simp only [bind, Except.bind, relativeTo, if_true, if_neg hdirect, pure, Except.pure]
  rw [show BitVec.ofNat 64 v + 0 = BitVec.ofNat 64 v from BitVec.add_zero _]

end Pup.Raise
