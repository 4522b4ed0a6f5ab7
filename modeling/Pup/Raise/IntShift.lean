/-
Exactly which numbers `readULEB128` and `readSLEB128` read back.

What the loop ORs together are the sign extensions of 32-bit words, so it comes to the sign
extension of one (`gathered`, `lebLoop_gathered`): no number outside of an `int` can be read,
but for the ones at the top of the unsigned range that look like small negative numbers.
From the sixth byte on the shift count starts again at 3.  A negative number of five bytes
or more is therefore read with all bits from the third on set, by these bytes or by the mask
of the sign (`filled_tail`), and is right if it has them set itself.
-/
import Pup.Raise.Encoded

namespace Pup.Raise

open Bytes Leb128

/-! ### What is gathered in the loop -/

/-- The digits at the places they are shifted to, in an `int`. -/
def gathered : List (BitVec 8) → Nat → BitVec 32
  | [], _ => 0#32
  | b :: bs, s => ((b &&& 0x7f#8).setWidth 32) <<< (s % 32) ||| gathered bs (s + 7)

theorem signExtend_or (x y : BitVec 32) :
    (x ||| y).signExtend 64 = x.signExtend 64 ||| y.signExtend 64 := by
  refine BitVec.eq_of_getLsbD_eq fun i hi => ?_
  simp only [BitVec.getLsbD_or, BitVec.getLsbD_signExtend, BitVec.msb_or, hi, decide_true,
    Bool.true_and]
  split <;> rfl

theorem gathered_append (xs ys : List (BitVec 8)) (s : Nat) :
    gathered (xs ++ ys) s = gathered xs s ||| gathered ys (s + 7 * xs.length) := by
  induction xs generalizing s with
  | nil => simp [gathered]
  | cons b xs ih =>
      have hs : s + 7 * (b :: xs).length = s + 7 + 7 * xs.length := by
        rw [List.length_cons]
        omega
      rw [List.cons_append, gathered, gathered, ih, hs, BitVec.or_assoc]

theorem lebLoop_gathered {mem : Bytes.Memory 64} {bs : List (BitVec 8)} (hleb : IsLeb bs)
    {fuel s : Nat} (hfuel : bs.length ≤ fuel) {p : Ptr} (hmem : Holds mem p bs)
    (hs : s + 7 * bs.length < 2 ^ 64) (result : BitVec 64) :
    ∃ byte, bs.getLast? = some byte ∧ lebLoop mem fuel p result (BitVec.ofNat 64 s) =
      .ok ⟨result ||| (gathered bs s).signExtend 64, BitVec.ofNat 64 (s + 7 * bs.length), byte,
        p + BitVec.ofNat 64 bs.length⟩ := by
  induction bs generalizing fuel s p result with
  | nil => exact absurd rfl hleb.ne_nil
  | cons b bs ih =>
      cases fuel with
      | zero => simp at hfuel
      | succ fuel =>
          obtain ⟨hb, hrest⟩ := hmem
          rw [List.length_cons] at hs
          have hbyte : shiftedByte b (BitVec.ofNat 64 s) =
              (((b &&& 0x7f#8).setWidth 32) <<< (s % 32)).signExtend 64 := by
            have hmod : s % 2 ^ 64 % 32 = s % 32 := by omega
            rw [shiftedByte, BitVec.toNat_ofNat, hmod]
          have hshift : BitVec.ofNat 64 s + 7 = BitVec.ofNat 64 (s + 7) := by
            rw [BitVec.ofNat_add]
            rfl
          rw [lebLoop, readByte_eq hb]
          simp only [bind, Except.bind, hshift, hbyte]
          cases bs with
          | nil =>
              have hlast : ¬ (b &&& 0x80#8 ≠ 0) := by
                rw [continues_iff]
                exact Nat.not_le.mpr hleb
              refine ⟨b, rfl, (if_neg hlast).trans ?_⟩
              simp only [gathered, BitVec.or_zero]
              rfl
          | cons b' bs =>
              have hcont : b &&& 0x80#8 ≠ 0 := (continues_iff b).mpr hleb.1
              obtain ⟨byte, hlast, hl⟩ := ih (s := s + 7) hleb.2 (Nat.le_of_succ_le_succ hfuel)
                hrest (by omega) (result ||| (((b &&& 0x7f#8).setWidth 32) <<< (s % 32)).signExtend 64)
              refine ⟨byte, hlast, (if_pos hcont).trans (hl.trans ?_)⟩
              have hlen : (b :: b' :: bs).length = 1 + (b' :: bs).length := Nat.add_comm ..
              have hp : p + 1#64 + BitVec.ofNat 64 (b' :: bs).length =
                  p + BitVec.ofNat 64 (b :: b' :: bs).length := by
                rw [hlen, BitVec.ofNat_add, BitVec.add_assoc]
              have hn : s + 7 + 7 * (b' :: bs).length = s + 7 * (b :: b' :: bs).length := by
                omega
              have hg : gathered (b :: b' :: bs) s =
                  ((b &&& 0x7f#8).setWidth 32) <<< (s % 32) ||| gathered (b' :: bs) (s + 7) := rfl
              rw [hp, hn, hg, signExtend_or, BitVec.or_assoc]

/-- `~0 << shift` as an `int`, where `readSLEB128` has it: the number is negative, and
`shift` is less than 64. -/
def signMask (bs : List (BitVec 8)) (last : BitVec 8) : BitVec 32 :=
  if 64 ≤ digit last ∧ 7 * bs.length < 64 then (~~~0#32) <<< (7 * bs.length % 32) else 0#32

section Read

variable {mem : Bytes.Memory 64} {bs : List (BitVec 8)} {fuel : Nat} {p : Ptr}

theorem readULEB128_gathered (hleb : IsLeb bs) (hlen : bs.length ≤ 10) (hfuel : bs.length ≤ fuel)
    (hmem : Holds mem p bs) : readULEB128 fuel mem p =
      .ok ((gathered bs 0).signExtend 64, p + BitVec.ofNat 64 bs.length) := by
  obtain ⟨byte, -, hl⟩ := lebLoop_gathered (s := 0) hleb hfuel hmem (by omega) 0
  rw [readULEB128, show lebLoop mem fuel p 0 0 = _ from hl]
  simp only [bind, Except.bind, pure, Except.pure]
  rw [show (0 : BitVec 64) = 0#64 from rfl, BitVec.zero_or]

theorem readSLEB128_gathered (hleb : IsLeb bs) (hlen : bs.length ≤ 10) (hfuel : bs.length ≤ fuel)
    (hmem : Holds mem p bs) : ∃ last, bs.getLast? = some last ∧ readSLEB128 fuel mem p =
      .ok ((gathered bs 0 ||| signMask bs last).signExtend 64,
        p + BitVec.ofNat 64 bs.length) := by
  obtain ⟨last, hlast, hl⟩ := lebLoop_gathered (s := 0) hleb hfuel hmem (by omega) 0
  refine ⟨last, hlast, ?_⟩
  have hshift : BitVec.ofNat 64 (0 + 7 * bs.length) < 64 ↔ 7 * bs.length < 64 := by
    rw [BitVec.lt_def, BitVec.toNat_ofNat, Nat.mod_eq_of_lt (by omega), Nat.zero_add]
    rfl
  have hmask : shiftedSign (BitVec.ofNat 64 (0 + 7 * bs.length)) =
      ((~~~0#32) <<< (7 * bs.length % 32)).signExtend 64 := by
    rw [shiftedSign, BitVec.toNat_ofNat, Nat.mod_eq_of_lt (show 0 + 7 * bs.length < 2 ^ 64 by omega),
      Nat.zero_add]
  rw [readSLEB128, show lebLoop mem fuel p 0 0 = _ from hl]
  simp only [bind, Except.bind, pure, Except.pure, hshift, negative_iff, hmask, signMask,
    show (0 : BitVec 64) = 0#64 from rfl, BitVec.zero_or]
  split
  · rw [signExtend_or]
  · rw [BitVec.or_zero]

end Read

/-! ### Words with all bits from the third on set -/

theorem or_filled {x : BitVec 32} (h : ∀ i < 3, x.getLsbD i = false) :
    x ||| 0xfffffff8#32 = 0xfffffff8#32 := by
  have hfilled : ∀ i < 32, (0xfffffff8#32).getLsbD i = decide (3 ≤ i) := by decide
  refine BitVec.eq_of_getLsbD_eq fun i hi => ?_
  rw [BitVec.getLsbD_or, hfilled i hi]
  by_cases hi3 : i < 3
  · rw [h i hi3, Bool.false_or]
  · rw [decide_eq_true (Nat.le_of_not_lt hi3), Bool.or_true]

/-- Only the first digit is shifted to the lowest three bits. -/
theorem gathered_low {bs : List (BitVec 8)} {s : Nat}
    (h : ∀ j < bs.length, 3 ≤ (s + 7 * j) % 32) {i : Nat} (hi : i < 3) :
    (gathered bs s).getLsbD i = false := by
  induction bs generalizing s with
  | nil => simp [gathered]
  | cons b bs ih =>
      have hhead : i < s % 32 := by
        have := h 0 (by simp)
        rw [Nat.mul_zero, Nat.add_zero] at this
        omega
      have hrest := ih (s := s + 7) fun j hj => by
        have := h (j + 1) (by simpa using hj)
        rwa [Nat.mul_succ, Nat.add_comm _ 7, ← Nat.add_assoc] at this
      rw [gathered, BitVec.getLsbD_or, hrest, BitVec.getLsbD_shiftLeft]
      simp [hhead]

/-- Only the digits matter. -/
theorem gathered_congr {bs bs' : List (BitVec 8)} (h : bs.map digit = bs'.map digit) (s : Nat) :
    gathered bs s = gathered bs' s := by
  induction bs generalizing bs' s with
  | nil =>
      obtain rfl : bs' = [] := by simpa using h.symm
      rfl
  | cons b bs ih =>
      cases bs' with
      | nil => simp at h
      | cons b' bs' =>
          obtain ⟨hdigit, hrest⟩ := List.cons.inj h
          have hb : b &&& 0x7f#8 = b' &&& 0x7f#8 := by
            refine BitVec.eq_of_toNat_eq ?_
            rw [payload_toNat, payload_toNat, hdigit]
          rw [gathered, gathered, hb, ih hrest]

/-- With all higher bits set, what is read is the lowest three bits of the first digit. -/
theorem gathered_filled {b : BitVec 8} {mid tail : List (BitVec 8)} (hmid : mid.length = 4)
    {mask : BitVec 32} (htail : gathered tail 35 ||| mask = 0xfffffff8#32) :
    (gathered (b :: mid ++ tail) 0 ||| mask).toInt = (digit b % 8 : Nat) - 8 := by
  have hlow : ∀ i < 3, (gathered mid 7).getLsbD i = false := fun i hi =>
    gathered_low (by rw [hmid]; decide) hi
  have hlen : 0 + 7 * (b :: mid).length = 35 := by
    rw [List.length_cons, hmid]
  have hfirst : ∀ b : BitVec 8, ((((b &&& 0x7f#8).setWidth 32) <<< (0 % 32)) |||
      0xfffffff8#32).toInt = (digit b % 8 : Nat) - 8 := by decide +kernel
  rw [gathered_append, hlen, BitVec.or_assoc, htail, gathered, BitVec.or_assoc, or_filled hlow]
  exact hfirst b

theorem filled_mask : ∀ m < 5, gathered (List.replicate m 0x7f#8) 35 |||
    ((~~~0#32) <<< (7 * (5 + m) % 32)) = 0xfffffff8#32 := by decide +kernel

theorem filled_ten : gathered (List.replicate 5 0x7f#8) 35 ||| 0#32 = 0xfffffff8#32 := by
  decide +kernel

/-- Ten bytes fill the word themselves, and for fewer the mask does. -/
theorem filled_tail {bs : List (BitVec 8)} {last : BitVec 8} (hlast : 64 ≤ digit last)
    {m : Nat} (hm : m ≤ 5) (hlen : bs.length = 5 + m) :
    gathered (List.replicate m 0x7f#8) 35 ||| signMask bs last = 0xfffffff8#32 := by
  unfold signMask
  by_cases hten : m = 5
  · subst hten
    rw [hlen, if_neg (by omega)]
    exact filled_ten
  · rw [hlen, if_pos ⟨hlast, by omega⟩]
    exact filled_mask m (by omega)

/-! ### What is read back -/

/-- A sign extension is the number the word stands for. -/
theorem signExtend_eq_iff {w : BitVec 32} {v : BitVec 64} :
    w.signExtend 64 = v ↔ w.toInt = v.toInt := by
  rw [← BitVec.toInt_inj, BitVec.toInt_signExtend_of_le (by decide)]

theorem word_bounds (w : BitVec 32) : -2 ^ 31 ≤ w.toInt ∧ w.toInt < 2 ^ 31 :=
  ⟨BitVec.le_toInt w, BitVec.toInt_lt⟩

/-- The first byte and four more, of an encoding that is long enough. -/
theorem exists_split {bs : List (BitVec 8)} (h : 5 ≤ bs.length) :
    ∃ b mid tail, bs = b :: mid ++ tail ∧ mid.length = 4 ∧ bs.length = 5 + tail.length := by
  obtain ⟨b, bs, rfl⟩ := List.exists_cons_of_length_pos (Nat.lt_of_lt_of_le (by decide) h)
  rw [List.length_cons] at h
  refine ⟨b, bs.take 4, bs.drop 4, ?_, ?_, ?_⟩
  · rw [List.cons_append, List.take_append_drop]
  · rw [List.length_take]
    omega
  · rw [List.length_drop, List.length_cons]
    omega

/-- The last digit of a negative number has the sign. -/
theorem last_of_neg {bs : List (BitVec 8)} {last : BitVec 8} (hlast : bs.getLast? = some last)
    (h : signed bs < 0) : 64 ≤ digit last := by
  by_contra hpos
  rw [signed_last hlast, if_neg hpos] at h
  omega

/-- What is read of a negative number of five bytes or more. -/
theorem gathered_neg {bs : List (BitVec 8)} {last : BitVec 8} (hlast : bs.getLast? = some last)
    (hlen : 5 ≤ bs.length) (hten : bs.length ≤ 10) (hneg : signed bs < 0)
    (hbig : -2 ^ 35 ≤ signed bs) :
    (gathered bs 0 ||| signMask bs last).toInt = signed bs % 8 - 8 := by
  have hsign := last_of_neg hlast hneg
  obtain ⟨b, mid, tail, rfl, hmid, hlength⟩ := exists_split hlen
  have hdigits : tail.map digit = (List.replicate tail.length 0x7f#8).map digit := by
    rw [List.map_replicate]
    refine List.map_eq_replicate_iff.mpr ?_
    by_cases htail : tail = []
    · simp [htail]
    · refine digit_of_signed_eq ?_
      have hval := signed_append (b :: mid) htail
      have hlt := unsigned_lt (b :: mid)
      rw [List.length_cons, hmid] at hval hlt
      omega
  have hfilled := filled_tail hsign (m := tail.length) (by omega) hlength
  rw [← gathered_congr hdigits] at hfilled
  have hfirst : signed (b :: mid ++ tail) % 128 = digit b := by
    obtain ⟨b', bs, heq⟩ := List.exists_cons_of_length_pos (l := mid ++ tail)
      (by rw [List.length_append, hmid]; omega)
    have hb := digit_lt b
    rw [List.cons_append, heq, signed_cons]
    omega
  rw [gathered_filled hmid hfilled]
  omega

/-- What is read of a number of 64 bits that starts with 33 ones. -/
theorem gathered_top {bs : List (BitVec 8)} (hleb : IsLeb bs) (hlen : bs.length ≤ 10)
    (hlow : 2 ^ 64 - 2 ^ 31 ≤ unsigned bs) (hhigh : unsigned bs < 2 ^ 64) :
    (gathered bs 0).toInt = (unsigned bs % 8 : Nat) - 8 := by
  have hten : bs.length = 10 := by
    by_contra hne
    have hlt := unsigned_lt bs
    have hpow : (128 : Nat) ^ bs.length ≤ 128 ^ 9 := Nat.pow_le_pow_right (by decide) (by omega)
    omega
  obtain ⟨b, mid, tail, rfl, hmid, hlength⟩ := exists_split (by rw [hten]; decide)
  have htail : tail.length = 5 := by omega
  have hval := unsigned_append (b :: mid) tail
  have hlt := unsigned_lt (b :: mid)
  rw [List.length_cons, hmid] at hval hlt
  have hrest : unsigned tail = 2 ^ 29 - 1 := by omega
  have hdigits : tail.map digit = [0x7f#8, 0x7f#8, 0x7f#8, 0x7f#8, 0x01#8].map digit := by
    match tail, htail with
    | [c, d, e, f, g], _ =>
        have hc := digit_lt c
        have hd := digit_lt d
        have he := digit_lt e
        have hf := digit_lt f
        have h127 : digit 0x7f#8 = 127 := rfl
        have h1 : digit 0x01#8 = 1 := rfl
        simp only [unsigned] at hrest
        simp only [List.map_cons, List.map_nil, List.cons.injEq, and_true]
        exact ⟨by omega, by omega, by omega, by omega, by omega⟩
  have hfilled : gathered tail 35 ||| 0#32 = 0xfffffff8#32 := by
    rw [gathered_congr hdigits]
    decide +kernel
  have hword := gathered_filled (b := b) hmid hfilled
  rw [BitVec.or_zero] at hword
  rw [hword, List.cons_append, unsigned]
  omega

/--
**`readSLEB128` reads back the numbers from -8 to 2^31 - 1, and those that are encoded in at
most four bytes.**
-/
theorem readSLEB128_iff {mem : Bytes.Memory 64} {v : BitVec 64} {bs rest : List (BitVec 8)}
    {fuel : Nat} {p : Ptr} (h : Sleb v.toInt bs) (hlen : bs.length ≤ 10)
    (hfuel : bs.length ≤ fuel) (hmem : Holds mem p (bs ++ rest)) :
    readSLEB128 fuel mem p = .ok (v, p + BitVec.ofNat 64 bs.length) ↔
      bs.length ≤ 4 ∨ (-8 ≤ v.toInt ∧ v.toInt < 2 ^ 31) := by
  have hbs : Holds mem p bs := hmem.mono (List.prefix_append _ _)
  by_cases hfour : bs.length ≤ 4
  · rw [readSLEB128_eq h hfour hfuel hbs, BitVec.ofInt_toInt]
    exact iff_of_true rfl (.inl hfour)
  obtain ⟨hleb, hv⟩ := h
  obtain ⟨last, hlast, hread⟩ := readSLEB128_gathered hleb hlen hfuel hbs
  have hbounds := word_bounds (gathered bs 0 ||| signMask bs last)
  rw [or_iff_right hfour, hread]
  simp only [Except.ok.injEq, Prod.mk.injEq, and_true, signExtend_eq_iff]
  constructor
  · intro hw
    refine ⟨?_, hw ▸ hbounds.2⟩
    by_cases hneg : signed bs < 0
    · rw [gathered_neg hlast (by omega) hlen hneg (by omega)] at hw
      omega
    · omega
  · rintro ⟨hlow, hhigh⟩
    by_cases hneg : signed bs < 0
    · rw [gathered_neg hlast (by omega) hlen hneg (by omega)]
      omega
    · have hnat : signed bs = (signed bs).toNat := by omega
      have hread' := readSLEB128_nonneg (v := (signed bs).toNat) ⟨hleb, hnat⟩ (by omega) hfuel hbs
      rw [hread] at hread'
      simp only [Except.ok.injEq, Prod.mk.injEq, and_true, signExtend_eq_iff] at hread'
      rw [hread', ← BitVec.ofInt_natCast, ← hnat, hv, BitVec.ofInt_toInt]

/-- -2 in five bytes. -/
theorem readSLEB128_iff_padded :
    readSLEB128 5 (only 0 [0xfe, 0xff, 0xff, 0xff, 0x7f, 0x2a]) 0 = .ok (-2#64, 5#64) := by
  have hleb : Sleb (-2#64).toInt [0xfe, 0xff, 0xff, 0xff, 0x7f] := ⟨by decide, by decide⟩
  have hmem : Holds (only 0 [0xfe, 0xff, 0xff, 0xff, 0x7f, 0x2a]) (0 : Ptr)
      ([0xfe, 0xff, 0xff, 0xff, 0x7f] ++ [0x2a]) := holds_only (by decide)
  exact (readSLEB128_iff hleb (by decide) (by decide) hmem).mpr (.inr ⟨by decide, by decide⟩)

/-- -134217729 needs five bytes, and is read as -1. -/
theorem large_negative_misread :
    Sleb (-134217729) [0xff, 0xff, 0xff, 0xbf, 0x7f] ∧
      readSLEB128 5 (only 0 [0xff, 0xff, 0xff, 0xbf, 0x7f]) 0 = .ok (-1#64, 5#64) ∧
      (-1#64).toInt ≠ -134217729 :=
  ⟨⟨by decide, by decide⟩, by decide, by decide⟩

/-- **`readULEB128` reads back the numbers below 2^31, and the last eight.** -/
theorem readULEB128_iff {mem : Bytes.Memory 64} {v : BitVec 64} {bs rest : List (BitVec 8)}
    {fuel : Nat} {p : Ptr} (h : Uleb v.toNat bs) (hlen : bs.length ≤ 10)
    (hfuel : bs.length ≤ fuel) (hmem : Holds mem p (bs ++ rest)) :
    readULEB128 fuel mem p = .ok (v, p + BitVec.ofNat 64 bs.length) ↔
      v.toNat < 2 ^ 31 ∨ 2 ^ 64 - 8 ≤ v.toNat := by
  have hbs : Holds mem p bs := hmem.mono (List.prefix_append _ _)
  by_cases hsmall : v.toNat < 2 ^ 31
  · rw [readULEB128_eq h hsmall hfuel hbs, BitVec.ofNat_toNat, BitVec.setWidth_eq]
    exact iff_of_true rfl (.inl hsmall)
  obtain ⟨hleb, hv⟩ := h
  have hbounds := word_bounds (gathered bs 0)
  rw [or_iff_right hsmall, readULEB128_gathered hleb hlen hfuel hbs]
  simp only [Except.ok.injEq, Prod.mk.injEq, and_true, signExtend_eq_iff]
  have hint := BitVec.toInt_eq_toNat_cond v
  -- below 2^64 - 2^31 a number is no sign extension
  by_cases htop : v.toNat < 2 ^ 64 - 2 ^ 31
  · split at hint
    · omega
    · omega
  · have hfirst := gathered_top hleb hlen (by omega)
    split at hint
    · omega
    · omega

/-- 624485 in four bytes. -/
theorem readULEB128_iff_padded :
    readULEB128 4 (only 0 [0xe5, 0x8e, 0xa6, 0x00, 0x2a]) 0 = .ok (624485#64, 4#64) := by
  have hleb : Uleb (624485#64).toNat [0xe5, 0x8e, 0xa6, 0x00] := ⟨by decide, by decide⟩
  have hmem : Holds (only 0 [0xe5, 0x8e, 0xa6, 0x00, 0x2a]) (0 : Ptr)
      ([0xe5, 0x8e, 0xa6, 0x00] ++ [0x2a]) := holds_only (by decide)
  exact (readULEB128_iff hleb (by decide) (by decide) hmem).mpr (.inl (by decide))

/-- 2^31 is read with its upper half set. -/
theorem large_misread :
    Uleb (2 ^ 31) [0x80, 0x80, 0x80, 0x80, 0x08] ∧
      readULEB128 5 (only 0 [0x80, 0x80, 0x80, 0x80, 0x08]) 0 =
        .ok (0xffffffff80000000#64, 5#64) ∧
      (0xffffffff80000000#64).toNat ≠ 2 ^ 31 :=
  ⟨⟨by decide, by decide⟩, by decide, by decide⟩

end Pup.Raise
