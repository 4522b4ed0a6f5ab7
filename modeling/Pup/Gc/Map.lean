/-
The stack maps of generated code: their writer and their reader.

The compiler plug-in `MyGCPrinter` writes one map for each function,

    point count (4 bytes)
    for each safe point, aligned to 8:
        address (8), frame size (4), live count (4), live offsets (4 each)

and the collector's `find_safepoint` walks it with the C structs `PupGCMap` and
`PupGCSafepoint`.  Both sides are modelled to the byte here.  The two do not agree
on where a record ends: the writer pads each record to a multiple of eight bytes,
the reader always skips four bytes of padding.
-/
import Pup.Lib.Bytes

namespace Pup.Gc

open Bytes

/-- One safe point of a function as the plug-in sees it.  `finishAssembly` writes the
function's frame size into each record; here a record may have one of its own. -/
structure SafePoint where
  label : BitVec 64
  frameSize : BitVec 64
  stackOffsets : List (BitVec 32)
  deriving DecidableEq, Repr

/-! ### The writer -/

/-- `EmitAlignment(3)` in a data section: zeros up to a multiple of eight. -/
def emitAlignment (out : List (BitVec 8)) : List (BitVec 8) :=
  out ++ List.replicate ((8 - out.length % 8) % 8) 0

/-- `EmitInt32`: the low 32 bits. -/
def emitInt32 (out : List (BitVec 8)) (v : Nat) : List (BitVec 8) :=
  out ++ le 4 v

/-- `EmitSymbolValue` of a pointer. -/
def emitSymbolValue (out : List (BitVec 8)) (label : BitVec 64) : List (BitVec 8) :=
  out ++ le 8 label.toNat

/-- The fields of a record, in the order they are written. -/
def pointBytes (p : SafePoint) : List (BitVec 8) :=
  le 8 p.label.toNat ++ le 4 p.frameSize.toNat ++ le 4 p.stackOffsets.length ++
    p.stackOffsets.flatMap fun v => le 4 v.toNat

/-- The body of the loop over the safe points. -/
def emitPoint (out : List (BitVec 8)) (p : SafePoint) : List (BitVec 8) :=
  let out := emitSymbolValue (emitAlignment out) p.label
  let out := emitInt32 (emitInt32 out p.frameSize.toNat) p.stackOffsets.length
  p.stackOffsets.foldl (fun out v => emitInt32 out v.toNat) out

/-- The body of the loop over the functions: one map. -/
def emitMap (out : List (BitVec 8)) (points : List SafePoint) : List (BitVec 8) :=
  points.foldl emitPoint (emitInt32 (emitAlignment out) points.length)

/-- `MyGCPrinter::finishAssembly`, appending to what the data section holds already. -/
def finishAssembly (out : List (BitVec 8)) (functions : List (List SafePoint)) :
    List (BitVec 8) :=
  functions.foldl emitMap out

/-- Where the `__gcmap_` label of the next map ends up in the section. -/
def mapOffset (out : List (BitVec 8)) : Nat := (emitAlignment out).length

/-- Where the `k`-th record of the next map ends up in the section. -/
def pointOffset (out : List (BitVec 8)) (points : List SafePoint) (k : Nat) : Nat :=
  (emitAlignment
    ((points.take k).foldl emitPoint (emitInt32 (emitAlignment out) points.length))).length

/-! ### The reader -/

/-- What libunwind says about the frame: the offset of its instruction pointer in the
procedure and the procedure's start, when the two calls succeed. -/
structure Cursor where
  procOffset : Option (BitVec 64)
  startIp : Option (BitVec 64)
  deriving Repr

/-- The `ip` that `find_safepoint` looks for, unless it returns before. -/
def Cursor.ip (cursor : Cursor) : Option (BitVec 64) := do
  let off ← cursor.procOffset
  let start_ip ← cursor.startIp
  if start_ip = 0 then none else some (start_ip + off)

inductive LoadFault
  | segv (a : BitVec 64)
  | abort
  deriving DecidableEq, Repr

def readPointer (mem : Memory 64) (a : BitVec 64) : Except LoadFault (BitVec 64) :=
  (load64 mem a).elim (.error (.segv a)) .ok

def readInt (mem : Memory 64) (a : BitVec 64) : Except LoadFault (BitVec 32) :=
  (load32 mem a).elim (.error (.segv a)) .ok

/-- `sizeof(struct PupGCSafepoint)`. -/
def sizeofSafepoint : BitVec 64 := 16

/-- Where the record after the one at `addr` is looked for: the `int` live count is
converted to `size_t`, and four bytes are skipped (`FIXME: alignment hack`). -/
def nextPoint (addr : BitVec 64) (live_count : BitVec 32) : BitVec 64 :=
  addr + sizeofSafepoint + 4 * live_count.signExtend 64 + 4

/-- The loop of `find_safepoint`, with the number of iterations left. -/
def searchPoints (mem : Memory 64) (ip : BitVec 64) :
    Nat → BitVec 64 → Except LoadFault (BitVec 64)
  | 0, _ => .error .abort
  | n + 1, addr => do
      let safepoint_addr ← readPointer mem addr
      if safepoint_addr = ip then return addr
      let live_count ← readInt mem (addr + 12)
      searchPoints mem ip n (nextPoint addr live_count)

/-- `find_safepoint`: the address of the record, or null. -/
def findSafepoint (mem : Memory 64) (cursor : Cursor) (gc_map : BitVec 64) :
    Except LoadFault (Option (BitVec 64)) :=
  match cursor.ip with
  | none => .ok none
  | some ip => do
      let point_count ← readInt mem gc_map
      some <$> searchPoints mem ip point_count.toInt.toNat (gc_map + 8)

/-- The `struct PupGCSafepoint` at `addr`, read field by field, is the record `p`. -/
structure ReadsAs (mem : Memory 64) (addr : BitVec 64) (p : SafePoint) : Prop where
  safepoint_addr : load64 mem addr = some p.label
  frame_size : (load32 mem (addr + 8)).map BitVec.toInt = some (p.frameSize.toNat : Int)
  live_count : (load32 mem (addr + 12)).map BitVec.toInt = some (p.stackOffsets.length : Int)
  live_offsets : ∀ i (hi : i < p.stackOffsets.length),
    load32 mem (addr + 16 + BitVec.ofNat 64 (4 * i)) = some p.stackOffsets[i]

/-! ### The layout -/

theorem emitAlignment_length (out : List (BitVec 8)) :
    (emitAlignment out).length = (out.length + 7) / 8 * 8 := by
  simp only [emitAlignment, List.length_append, List.length_replicate]
  omega

theorem emitPoint_eq (out : List (BitVec 8)) (p : SafePoint) :
    emitPoint out p = emitAlignment out ++ pointBytes p := by
  have hfold : ∀ (vs : List (BitVec 32)) (bs : List (BitVec 8)),
      vs.foldl (fun out v => emitInt32 out v.toNat) bs =
        bs ++ vs.flatMap fun v => le 4 v.toNat := by
    intro vs
    induction vs with
    | nil => simp
    | cons v vs ih =>
        intro bs
        rw [List.foldl_cons, ih, emitInt32, List.append_assoc, List.flatMap_cons]
  simp only [emitPoint, hfold]
  simp only [pointBytes, emitInt32, emitSymbolValue, List.append_assoc]

theorem pointBytes_length (p : SafePoint) :
    (pointBytes p).length = 16 + 4 * p.stackOffsets.length := by
  have : (p.stackOffsets.flatMap fun v => le 4 v.toNat).length = 4 * p.stackOffsets.length := by
    induction p.stackOffsets with
    | nil => rfl
    | cons v vs ih => simp [ih]; omega
  simp only [pointBytes, List.length_append, le_length, this]

theorem emitPoint_mono (out : List (BitVec 8)) (p : SafePoint) : out <+: emitPoint out p := by
  rw [emitPoint_eq, emitAlignment, List.append_assoc]
  exact List.prefix_append ..

theorem foldl_emitPoint_mono (out : List (BitVec 8)) (points : List SafePoint) :
    out <+: points.foldl emitPoint out := by
  induction points generalizing out with
  | nil => exact List.prefix_rfl
  | cons p points ih => exact (emitPoint_mono out p).trans (ih _)

theorem emitMap_mono (out : List (BitVec 8)) (points : List SafePoint) :
    out <+: emitMap out points := by
  refine List.IsPrefix.trans ?_ (foldl_emitPoint_mono _ points)
  rw [emitInt32, emitAlignment, List.append_assoc]
  exact List.prefix_append ..

theorem finishAssembly_mono (out : List (BitVec 8)) (functions : List (List SafePoint)) :
    out <+: finishAssembly out functions := by
  induction functions generalizing out with
  | nil => exact List.prefix_rfl
  | cons points functions ih => exact (emitMap_mono out points).trans (ih _)

section Layout

variable (out : List (BitVec 8)) (points : List SafePoint)

theorem pointOffset_zero : pointOffset out points 0 = mapOffset out + 8 := by
  simp only [pointOffset, mapOffset, List.take_zero, List.foldl_nil, emitAlignment_length,
    emitInt32, List.length_append, le_length]
  omega

variable {points}

theorem take_succ_foldl {k : Nat} (hk : k < points.length) (bs : List (BitVec 8)) :
    (points.take (k + 1)).foldl emitPoint bs =
      emitPoint ((points.take k).foldl emitPoint bs) points[k] := by
  rw [List.take_succ_eq_append_getElem hk, List.foldl_append, List.foldl_cons, List.foldl_nil]

/-- A record is followed by its padding: four bytes exactly if its live count is odd. -/
theorem pointOffset_succ {k : Nat} (hk : k < points.length) :
    pointOffset out points (k + 1) =
      pointOffset out points k + 16 + 4 * points[k].stackOffsets.length +
        4 * (points[k].stackOffsets.length % 2) := by
  simp only [pointOffset, take_succ_foldl hk, emitPoint_eq, emitAlignment_length,
    List.length_append, pointBytes_length]
  omega

theorem pointOffset_mod (out : List (BitVec 8)) (points : List SafePoint) (k : Nat) :
    pointOffset out points k % 8 = 0 := by
  simp only [pointOffset, emitAlignment_length, Nat.mul_mod_left]

theorem pointOffset_lt {j k : Nat} (hjk : j < k) (hk : k ≤ points.length) :
    pointOffset out points j + 16 ≤ pointOffset out points k := by
  induction k with
  | zero => omega
  | succ k ih =>
      have hstep := pointOffset_succ out (show k < points.length from hk)
      rcases Nat.lt_succ_iff_lt_or_eq.mp hjk with h | rfl
      · have := ih h (by omega)
        omega
      · omega

/-- The bytes of the `k`-th record are a stretch of the map. -/
theorem emitMap_record {k : Nat} (hk : k < points.length) :
    ∃ before, before.length = pointOffset out points k ∧
      before ++ pointBytes points[k] <+: emitMap out points := by
  refine ⟨_, rfl, ?_⟩
  rw [← emitPoint_eq, ← take_succ_foldl hk, emitMap]
  conv => rhs; rw [← List.take_append_drop (k + 1) points, List.foldl_append]
  rw [List.take_append_drop]
  exact foldl_emitPoint_mono ..

end Layout

end Pup.Gc
