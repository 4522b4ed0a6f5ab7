/-
When `find_safepoint` finds what the plug-in wrote.

Where the search goes does not depend on the address it looks for, only on the live
counts it meets: `visit i` is the place it looks at in round `i`.  If every record
but the last is padded by four bytes, that is if its live count is odd, the places
are the records in order.  Conversely a search that finds every record visits `n`
different places in at most `n` rounds, so it visits nothing but records, and a
record without padding would lead it off the eight-byte grid the records are on.
-/
import Mathlib.Data.Fintype.EquivFin
import Pup.Gc.Map

namespace Pup.Gc

open Bytes

/-- A data section with contents `bytes`, in memory. -/
structure SectionAt (mem : Memory 64) (start : BitVec 64) (bytes : List (BitVec 8)) : Prop where
  aligned : start.toNat % 8 = 0
  fits : start.toNat + bytes.length ≤ 2 ^ 64
  holds : Holds mem start bytes

theorem SectionAt.mono {mem : Memory 64} {start : BitVec 64} {bytes bytes' : List (BitVec 8)}
    (h : SectionAt mem start bytes) (hpre : bytes' <+: bytes) : SectionAt mem start bytes' :=
  ⟨h.aligned, le_trans (Nat.add_le_add_left hpre.length_le _) h.fits, h.holds.mono hpre⟩

/-- The address of the `k`-th record of a map. -/
def pointAddr (start : BitVec 64) (out : List (BitVec 8)) (points : List SafePoint) (k : Nat) :
    BitVec 64 :=
  start + BitVec.ofNat 64 (pointOffset out points k)

/-- The address of a map, its `__gcmap_` symbol. -/
def mapAddr (start : BitVec 64) (out : List (BitVec 8)) : BitVec 64 :=
  start + BitVec.ofNat 64 (mapOffset out)

/-- Asked for the address of any of the map's points, `find_safepoint` returns that
point's record, and it reads as it was written. -/
def FindsAll (mem : Memory 64) (start : BitVec 64) (out : List (BitVec 8))
    (points : List SafePoint) : Prop :=
  ∀ k (hk : k < points.length) (cursor : Cursor), cursor.ip = some points[k].label →
    findSafepoint mem cursor (mapAddr start out) = .ok (some (pointAddr start out points k)) ∧
      ReadsAs mem (pointAddr start out points k) points[k]

/-- Counts and sizes fit a C `int` and every record but the last has an odd live count. -/
structure Decodable (points : List SafePoint) : Prop where
  count : points.length < 2 ^ 31
  sizes : ∀ p ∈ points, p.frameSize.toNat < 2 ^ 31 ∧ p.stackOffsets.length < 2 ^ 31
  odd : ∀ p ∈ points.dropLast, p.stackOffsets.length % 2 = 1

/-! ### One record -/

section Record

variable {mem : Memory 64} {addr : BitVec 64} {p : SafePoint}

theorem toInt_ofNat_iff (n : Nat) : (BitVec.ofNat 32 n).toInt = n ↔ n < 2 ^ 31 := by
  rw [BitVec.toInt_ofNat', Int.bmod_def]
  omega

theorem toInt_ofNat_le (n : Nat) : (BitVec.ofNat 32 n).toInt ≤ n := by
  rw [BitVec.toInt_ofNat', Int.bmod_def]
  omega

theorem load_label (h : Holds mem addr (pointBytes p)) : load64 mem addr = some p.label := by
  simp only [pointBytes, List.append_assoc, holds_append] at h
  exact load64_le h.1

theorem load_frameSize (h : Holds mem addr (pointBytes p)) :
    load32 mem (addr + 8) = some (BitVec.ofNat 32 p.frameSize.toNat) := by
  simp only [pointBytes, List.append_assoc, holds_append, le_length] at h
  exact load32_le h.2.1

theorem load_liveCount (h : Holds mem addr (pointBytes p)) :
    load32 mem (addr + 12) = some (BitVec.ofNat 32 p.stackOffsets.length) := by
  simp only [pointBytes, List.append_assoc, holds_append, le_length, BitVec.add_assoc] at h
  exact load32_le h.2.2.1

theorem load_liveOffsets (h : Holds mem addr (pointBytes p)) (i : Nat)
    (hi : i < p.stackOffsets.length) :
    load32 mem (addr + 16 + BitVec.ofNat 64 (4 * i)) = some p.stackOffsets[i] := by
  simp only [pointBytes, List.append_assoc, holds_append, le_length] at h
  have := load32_table h.2.2.2 hi
  rwa [BitVec.add_assoc (addr + _), BitVec.add_assoc addr] at this

theorem readsAs_iff (h : Holds mem addr (pointBytes p)) :
    ReadsAs mem addr p ↔ p.frameSize.toNat < 2 ^ 31 ∧ p.stackOffsets.length < 2 ^ 31 := by
  have hframe := load_frameSize h
  have hcount := load_liveCount h
  constructor
  · intro hr
    refine ⟨(toInt_ofNat_iff _).mp ?_, (toInt_ofNat_iff _).mp ?_⟩
    · simpa only [hframe, Option.map_some, Option.some.injEq] using hr.frame_size
    · simpa only [hcount, Option.map_some, Option.some.injEq] using hr.live_count
  · rintro ⟨hf, hl⟩
    refine ⟨load_label h, ?_, ?_, load_liveOffsets h⟩
    · rw [hframe, Option.map_some, (toInt_ofNat_iff _).mpr hf]
    · rw [hcount, Option.map_some, (toInt_ofNat_iff _).mpr hl]

theorem nextPoint_ofNat {n : Nat} (hn : n < 2 ^ 31) :
    nextPoint addr (BitVec.ofNat 32 n) = addr + BitVec.ofNat 64 (20 + 4 * n) := by
  have hext : (BitVec.ofNat 32 n).signExtend 64 = BitVec.ofNat 64 n := by
    rw [BitVec.signExtend, (toInt_ofNat_iff n).mpr hn]
    rfl
  refine BitVec.eq_of_toNat_eq ?_
  simp only [nextPoint, sizeofSafepoint, hext, BitVec.ofNat_eq_ofNat, BitVec.toNat_add,
    BitVec.toNat_mul, BitVec.toNat_ofNat]
  omega

end Record

/-! ### Records of a map -/

section Map

variable {mem : Memory 64} {start : BitVec 64} {out : List (BitVec 8)} {points : List SafePoint}

theorem holds_record (h : SectionAt mem start (emitMap out points)) {k : Nat}
    (hk : k < points.length) : Holds mem (pointAddr start out points k) (pointBytes points[k]) := by
  obtain ⟨before, hlen, hpre⟩ := emitMap_record out hk
  have := (holds_append.mp (h.holds.mono hpre)).2
  rwa [hlen] at this

theorem pointOffset_fits (h : SectionAt mem start (emitMap out points)) {k : Nat}
    (hk : k < points.length) : start.toNat + pointOffset out points k + 16 ≤ 2 ^ 64 := by
  obtain ⟨before, hlen, hpre⟩ := emitMap_record out hk
  have := hpre.length_le
  have := h.fits
  simp only [List.length_append, pointBytes_length, hlen] at *
  omega

theorem pointAddr_toNat (h : SectionAt mem start (emitMap out points)) {k : Nat}
    (hk : k < points.length) :
    (pointAddr start out points k).toNat = start.toNat + pointOffset out points k := by
  have := pointOffset_fits h hk
  simp only [pointAddr, BitVec.toNat_add, BitVec.toNat_ofNat]
  omega

theorem pointAddr_inj (h : SectionAt mem start (emitMap out points)) {j k : Nat}
    (hj : j < points.length) (hk : k < points.length)
    (heq : pointAddr start out points j = pointAddr start out points k) : j = k := by
  have := congrArg BitVec.toNat heq
  rw [pointAddr_toNat h hj, pointAddr_toNat h hk] at this
  rcases Nat.lt_trichotomy j k with hlt | heq | hgt
  · have := pointOffset_lt out hlt hk.le
    omega
  · exact heq
  · have := pointOffset_lt out hgt hj.le
    omega

theorem mapAddr_points (start : BitVec 64) (out : List (BitVec 8)) (points : List SafePoint) :
    mapAddr start out + 8 = pointAddr start out points 0 := by
  rw [mapAddr, pointAddr, pointOffset_zero, BitVec.ofNat_add, BitVec.add_assoc]
  rfl

theorem load_pointCount (h : SectionAt mem start (emitMap out points)) :
    load32 mem (mapAddr start out) = some (BitVec.ofNat 32 points.length) := by
  have hpre := foldl_emitPoint_mono (emitInt32 (emitAlignment out) points.length) points
  exact load32_le (holds_append.mp (h.holds.mono hpre)).2

end Map

/-! ### The search -/

/-- The place looked at in round `i` by a search that starts at `addr`. -/
def visit (mem : Memory 64) : Nat → BitVec 64 → Option (BitVec 64)
  | 0, addr => some addr
  | i + 1, addr => do
      let prev ← visit mem i addr
      let live_count ← load32 mem (prev + 12)
      some (nextPoint prev live_count)

theorem visit_succ' (mem : Memory 64) (i : Nat) (addr : BitVec 64) :
    visit mem (i + 1) addr =
      (load32 mem (addr + 12)).bind fun live_count => visit mem i (nextPoint addr live_count) := by
  induction i with
  | zero => rfl
  | succ i ih =>
      rw [visit, ih]
      cases load32 mem (addr + 12) <;> rfl

/-- One round of a search. -/
theorem searchPoints_succ {mem : Memory 64} {ip label : BitVec 64} {n : Nat} {addr : BitVec 64}
    (hlabel : load64 mem addr = some label) :
    searchPoints mem ip (n + 1) addr =
      if label = ip then .ok addr
      else (load32 mem (addr + 12)).elim (.error (.segv (addr + 12))) fun live_count =>
        searchPoints mem ip n (nextPoint addr live_count) := by
  rw [searchPoints, readPointer, hlabel]
  simp only [Option.elim_some, bind, Except.bind, pure, Except.pure]
  split
  · rfl
  · rw [readInt]
    cases load32 mem (addr + 12) <;> rfl

/-- What a search returns is a place it visited. -/
theorem visit_of_search {mem : Memory 64} {ip : BitVec 64} {n : Nat} {addr found : BitVec 64}
    (h : searchPoints mem ip n addr = .ok found) : ∃ i < n, visit mem i addr = some found := by
  induction n generalizing addr with
  | zero => cases h
  | succ n ih =>
      cases hlabel : load64 mem addr with
      | none =>
          rw [searchPoints, readPointer, hlabel] at h
          cases h
      | some label =>
          rw [searchPoints_succ hlabel] at h
          split at h
          · cases h
            exact ⟨0, by omega, rfl⟩
          · cases hcount : load32 mem (addr + 12) with
            | none =>
                rw [hcount] at h
                cases h
            | some count =>
                rw [hcount] at h
                obtain ⟨i, hi, hvisit⟩ := ih h
                exact ⟨i + 1, by omega, by rw [visit_succ', hcount]; exact hvisit⟩

/-- A search that visits readable places finds the first one with its label. -/
theorem search_of_visit {mem : Memory 64} {ip : BitVec 64} {n i : Nat} {addr found : BitVec 64}
    (hi : i < n) (hvisit : visit mem i addr = some found) (hfound : load64 mem found = some ip)
    (hbefore : ∀ j < i, ∃ place label, visit mem j addr = some place ∧
      load64 mem place = some label ∧ label ≠ ip) :
    searchPoints mem ip n addr = .ok found := by
  induction i generalizing n addr with
  | zero =>
      obtain ⟨n, rfl⟩ := Nat.exists_eq_succ_of_ne_zero (by omega : n ≠ 0)
      cases hvisit
      rw [searchPoints_succ hfound, if_pos rfl]
  | succ i ih =>
      obtain ⟨n, rfl⟩ := Nat.exists_eq_succ_of_ne_zero (by omega : n ≠ 0)
      obtain ⟨_, label, hplace, hlabel, hne⟩ := hbefore 0 (by omega)
      cases hplace
      rw [visit_succ'] at hvisit
      rw [searchPoints_succ hlabel, if_neg hne]
      cases hcount : load32 mem (addr + 12) with
      | none => simp only [hcount, Option.bind_none, reduceCtorEq] at hvisit
      | some count =>
          rw [hcount, Option.bind_some] at hvisit
          refine ih (by omega) hvisit fun j hj => ?_
          have := hbefore (j + 1) (by omega)
          rwa [visit_succ', hcount] at this

section Map

variable {mem : Memory 64} {start : BitVec 64} {out : List (BitVec 8)} {points : List SafePoint}

theorem findSafepoint_eq (h : SectionAt mem start (emitMap out points)) {cursor : Cursor}
    {ip : BitVec 64} (hip : cursor.ip = some ip) :
    findSafepoint mem cursor (mapAddr start out) =
      some <$> searchPoints mem ip (BitVec.ofNat 32 points.length).toInt.toNat
        (pointAddr start out points 0) := by
  rw [findSafepoint, hip, readInt, load_pointCount h, ← mapAddr_points]
  rfl

/-- An odd live count leads from one record to the next. -/
theorem nextPoint_record {k : Nat} (hk : k < points.length)
    (hsize : points[k].stackOffsets.length < 2 ^ 31)
    (hodd : points[k].stackOffsets.length % 2 = 1) :
    nextPoint (pointAddr start out points k) (BitVec.ofNat 32 points[k].stackOffsets.length) =
      pointAddr start out points (k + 1) := by
  rw [nextPoint_ofNat hsize, pointAddr, pointAddr, pointOffset_succ out hk, hodd,
    BitVec.add_assoc, ← BitVec.ofNat_add]
  congr 2
  omega

/-- An even one leads off the grid of the records. -/
theorem odd_of_nextPoint (h : SectionAt mem start (emitMap out points)) {j k : Nat}
    (hj : j < points.length) (hsize : points[j].stackOffsets.length < 2 ^ 31)
    (heq : nextPoint (pointAddr start out points j)
      (BitVec.ofNat 32 points[j].stackOffsets.length) = pointAddr start out points k) :
    points[j].stackOffsets.length % 2 = 1 := by
  have hgrid := congrArg BitVec.toNat heq
  have haligned := h.aligned
  have hoff_j := pointOffset_mod out points j
  have hoff_k := pointOffset_mod out points k
  simp only [nextPoint_ofNat hsize, pointAddr, BitVec.toNat_add, BitVec.toNat_ofNat] at hgrid
  omega

theorem visit_succ_record (h : SectionAt mem start (emitMap out points)) {i k : Nat}
    (hk : k < points.length)
    (hvisit : visit mem i (pointAddr start out points 0) = some (pointAddr start out points k)) :
    visit mem (i + 1) (pointAddr start out points 0) =
      some (nextPoint (pointAddr start out points k)
        (BitVec.ofNat 32 points[k].stackOffsets.length)) := by
  rw [visit, hvisit]
  simp only [Option.bind_eq_bind, Option.bind_some, load_liveCount (holds_record h hk)]

theorem getElem_mem_dropLast {k : Nat} (hk : k + 1 < points.length) :
    points[k] ∈ points.dropLast := by
  have hlen : k < points.dropLast.length := by
    rw [List.length_dropLast]
    omega
  rw [← List.getElem_dropLast hlen]
  exact List.getElem_mem hlen

theorem visit_record (h : SectionAt mem start (emitMap out points)) (hd : Decodable points)
    {k : Nat} (hk : k < points.length) :
    visit mem k (pointAddr start out points 0) = some (pointAddr start out points k) := by
  induction k with
  | zero => rfl
  | succ k ih =>
      have hlt : k < points.length := by omega
      rw [visit_succ_record h hlt (ih hlt), nextPoint_record hlt
        (hd.sizes _ (List.getElem_mem hlt)).2 (hd.odd _ (getElem_mem_dropLast hk))]

theorem findsAll_of_decodable (h : SectionAt mem start (emitMap out points))
    (hlabels : (points.map SafePoint.label).Nodup) (hd : Decodable points) :
    FindsAll mem start out points := by
  intro k hk cursor hip
  refine ⟨?_, (readsAs_iff (holds_record h hk)).mpr (hd.sizes _ (List.getElem_mem hk))⟩
  have hcount : (BitVec.ofNat 32 points.length).toInt.toNat = points.length := by
    rw [(toInt_ofNat_iff _).mpr hd.count, Int.toNat_natCast]
  rw [findSafepoint_eq h hip, hcount, search_of_visit hk (visit_record h hd hk)
    (load_label (holds_record h hk))]
  · rfl
  · intro j hj
    have hjlt : j < points.length := by omega
    refine ⟨_, _, visit_record h hd hjlt, load_label (holds_record h hjlt), ?_⟩
    exact List.pairwise_iff_getElem.mp (List.pairwise_map.mp hlabels) j k hjlt hk hj

/-- There is a frame with any given instruction pointer. -/
theorem exists_cursor (ip : BitVec 64) : ∃ cursor : Cursor, cursor.ip = some ip := by
  refine ⟨⟨some (ip - 1), some 1⟩, ?_⟩
  simp [Cursor.ip]

/-- A search that finds all records looks at nothing else in its rounds. -/
theorem visits_records (h : SectionAt mem start (emitMap out points))
    (hall : FindsAll mem start out points) :
    points.length < 2 ^ 31 ∧ ∀ i < points.length, ∃ k, ∃ _ : k < points.length,
      visit mem i (pointAddr start out points 0) = some (pointAddr start out points k) := by
  have hcount := toInt_ofNat_le points.length
  have hround : ∀ k : Fin points.length, ∃ i : Fin (BitVec.ofNat 32 points.length).toInt.toNat,
      visit mem i (pointAddr start out points 0) = some (pointAddr start out points k) := by
    intro k
    obtain ⟨cursor, hip⟩ := exists_cursor points[k].label
    have hfind := (hall k k.isLt cursor hip).1
    rw [findSafepoint_eq h hip] at hfind
    cases hsearch : searchPoints mem points[k].label _ (pointAddr start out points 0) with
    | error e =>
        rw [hsearch] at hfind
        cases hfind
    | ok found =>
        rw [hsearch] at hfind
        cases hfind
        obtain ⟨i, hi, hvisit⟩ := visit_of_search hsearch
        exact ⟨⟨i, hi⟩, hvisit⟩
  choose round hround using hround
  have hinj : Function.Injective round := by
    intro j k heq
    have := hround j
    rw [heq, hround k, Option.some.injEq] at this
    exact Fin.ext (pointAddr_inj h j.isLt k.isLt this.symm)
  have hle : points.length ≤ (BitVec.ofNat 32 points.length).toInt.toNat := by
    simpa using Fintype.card_le_of_injective round hinj
  have hsurj : Function.Surjective round :=
    ((Fintype.bijective_iff_injective_and_card round).mpr ⟨hinj, by simp; omega⟩).2
  refine ⟨?_, fun i hi => ?_⟩
  · by_contra hge
    have := mt (toInt_ofNat_iff points.length).mp hge
    omega
  obtain ⟨k, hk⟩ := hsurj ⟨i, by omega⟩
  have := hround k
  rw [hk] at this
  exact ⟨k, k.isLt, this⟩

theorem decodable_of_findsAll (h : SectionAt mem start (emitMap out points))
    (hall : FindsAll mem start out points) : Decodable points := by
  have hsizes : ∀ k (hk : k < points.length), points[k].frameSize.toNat < 2 ^ 31 ∧
      points[k].stackOffsets.length < 2 ^ 31 := by
    intro k hk
    obtain ⟨cursor, hip⟩ := exists_cursor points[k].label
    exact (readsAs_iff (holds_record h hk)).mp (hall k hk cursor hip).2
  obtain ⟨hcount, hvisits⟩ := visits_records h hall
  -- by induction the rounds follow the records, so the step from each is a padded one
  have hstep : ∀ k (hk : k + 1 < points.length),
      visit mem k (pointAddr start out points 0) = some (pointAddr start out points k) →
        points[k].stackOffsets.length % 2 = 1 := by
    intro k hk hvisit
    obtain ⟨j, -, hnext⟩ := hvisits (k + 1) hk
    rw [visit_succ_record h (by omega) hvisit, Option.some.injEq] at hnext
    exact odd_of_nextPoint h _ (hsizes k _).2 hnext
  have hrecord : ∀ k (_ : k < points.length),
      visit mem k (pointAddr start out points 0) = some (pointAddr start out points k) := by
    intro k
    induction k with
    | zero => intro _; rfl
    | succ k ih =>
        intro hk
        have hvisit := ih (by omega)
        rw [visit_succ_record h (by omega) hvisit,
          nextPoint_record _ (hsizes k _).2 (hstep k hk hvisit)]
  refine ⟨hcount, ?_, ?_⟩
  · intro p hp
    obtain ⟨k, hk, rfl⟩ := List.getElem_of_mem hp
    exact hsizes k hk
  · intro p hp
    obtain ⟨k, hk, rfl⟩ := List.getElem_of_mem hp
    rw [List.length_dropLast] at hk
    rw [List.getElem_dropLast]
    exact hstep k (by omega) (hrecord k (by omega))

end Map

/-- **`find_safepoint` finds every record of a map exactly if the map is `Decodable`.** -/
theorem findsAll_iff {mem : Memory 64} {start : BitVec 64} (out : List (BitVec 8))
    (before after : List (List SafePoint)) (points : List SafePoint)
    (h : SectionAt mem start (finishAssembly out (before ++ points :: after)))
    (hlabels : (points.map SafePoint.label).Nodup) :
    FindsAll mem start (finishAssembly out before) points ↔ Decodable points := by
  have hmap : SectionAt mem start (emitMap (finishAssembly out before) points) := by
    refine h.mono ?_
    have hsplit : finishAssembly out (before ++ points :: after) =
        finishAssembly (emitMap (finishAssembly out before) points) after := by
      rw [finishAssembly, List.foldl_append, List.foldl_cons]
      rfl
    rw [hsplit]
    exact finishAssembly_mono _ after
  exact ⟨decodable_of_findsAll hmap, findsAll_of_decodable hmap hlabels⟩

/-- Two points, the first with one live root and so with padding after it. -/
def paddedPoints : List SafePoint := [⟨0x400, 32, [8]⟩, ⟨0x410, 32, [8, 16]⟩]

/-- Two points without live roots: the second record follows the first at once. -/
def unpaddedPoints : List SafePoint := [⟨0x400, 32, []⟩, ⟨0x410, 32, []⟩]

theorem findsAll_iff_padded :
    FindsAll (only 0x1000 (finishAssembly [] [paddedPoints])) 0x1000 [] paddedPoints :=
  (findsAll_iff [] [] [] paddedPoints ⟨by decide, by decide, holds_only (by decide)⟩
    (by decide)).mpr ⟨by decide, by decide, by decide⟩

/-- Asked for the second of `unpaddedPoints`, the search reads past it and faults. -/
theorem unpadded_not_found :
    (unpaddedPoints.map SafePoint.label).Nodup ∧
      SectionAt (only 0x1000 (finishAssembly [] [unpaddedPoints])) 0x1000
        (finishAssembly [] [unpaddedPoints]) ∧
      ¬ FindsAll (only 0x1000 (finishAssembly [] [unpaddedPoints])) 0x1000 [] unpaddedPoints := by
  refine ⟨by decide, ⟨by decide, by decide, holds_only (by decide)⟩, fun hall => ?_⟩
  have hfind := (hall 1 (by decide) ⟨some 0x10, some 0x400⟩ rfl).1
  have hfault : findSafepoint (only 0x1000 (finishAssembly [] [unpaddedPoints]))
      ⟨some 0x10, some 0x400⟩ (mapAddr 0x1000 []) = .error (.segv 0x1028) := by
    decide +kernel
  rw [hfault] at hfind
  cases hfind

end Pup.Gc
