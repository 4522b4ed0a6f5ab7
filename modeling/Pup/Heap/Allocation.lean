/-
Blocks and their headers in bytes.

`Pup.Heap.PupHeap` keeps headers, objects and entries apart, so that there nothing written
to an object can spoil a header.  Here a thread's regions are plain bytes, and
`pup_heap_alloc` is followed down to the bytes it writes: the header in front of a block,
and the mark inside of it, which is written before the block is handed out.

`Tiled` is what holds after any number of allocations: each region is filled with the
blocks placed in it, one after the other.  A walk reads a header wherever it gets to
(`headersOf`), so `walkRegion_eq` says what it visits.
-/
import Mathlib.Data.List.Pairwise
import Mathlib.Order.CompletePartialOrder
import Mathlib.Order.Interval.Set.Disjoint
import Pup.Heap.PupHeap
import Pup.Lib.Words

namespace Pup.Allocation

open Heap Words
open Pup.Regions (REGION_SIZE)

/-! ### Headers and marks -/

/-- Where `kind` is in a `struct HeapObject`; it is a bit field of one bit. -/
def kindOffset : Nat := 8

/-- Where `gc_mark` is in a `struct PupObject`; it is a bit field of one bit. -/
def markOffset : Nat := 16

/-- The `struct HeapObject` at an address. -/
def readHeader (mem : Words.Memory) (a : Nat) : HeapObject where
  object_size := load mem a 8
  kind := if lowBit (mem (a + kindOffset)) then .attr else .obj

/-- What a walk gets to see: a header wherever it looks. -/
def headersOf (mem : Words.Memory) : Memory where
  headers a := some (readHeader mem a)
  objects _ := none
  attrs _ := none

def writeHeader (mem : Words.Memory) (a size : Nat) (kind : PupHeapKind) : Words.Memory :=
  storeBit (store mem a 8 size) (a + kindOffset) (decide (kind = .attr))

/-- `pup_object_gc_mark_unconditionally`, which takes an entry for an object. -/
def pupObjectGcMarkUnconditionally (mem : Words.Memory) (obj : Nat) (mark : Bool) :
    Words.Memory :=
  storeBit mem (obj + markOffset) mark

theorem readHeader_congr {mem mem' : Words.Memory} {a : Nat}
    (h : ∀ b, a ≤ b → b < a + dataOffset → mem' b = mem b) :
    readHeader mem' a = readHeader mem a := by
  have hsize : load mem' a 8 = load mem a 8 := by
    apply load_congr
    intro b hlo hhi
    exact h b hlo (by unfold dataOffset; omega)
  have hkind : mem' (a + kindOffset) = mem (a + kindOffset) := by
    apply h
    · omega
    · unfold kindOffset dataOffset
      omega
  unfold readHeader
  rw [hsize, hkind]

theorem writeHeader_of_outside {a b : Nat} (mem : Words.Memory) (size : Nat)
    (kind : PupHeapKind) (h : b < a ∨ a + dataOffset ≤ b) :
    writeHeader mem a size kind b = mem b := by
  unfold dataOffset at h
  unfold writeHeader kindOffset
  rw [storeBit_of_ne _ _ (by omega), store_of_outside _ _ (by omega)]

theorem readHeader_writeHeader {size : Nat} (mem : Words.Memory) (a : Nat) (kind : PupHeapKind)
    (hsize : size < 256 ^ 8) : readHeader (writeHeader mem a size kind) a = ⟨size, kind⟩ := by
  have hload : load (writeHeader mem a size kind) a 8 = size := by
    rw [← load_store mem a hsize]
    apply load_congr
    intro b _ hhi
    unfold writeHeader kindOffset
    rw [storeBit_of_ne _ _ (by omega), load_store mem a hsize]
  unfold readHeader
  rw [hload]
  unfold writeHeader
  rw [storeBit_self]
  cases kind <;> simp

/-! ### The allocator -/

/-- What `mmap` promises: a range that is not in use. -/
structure Mmap where
  base : List PupHeapRegion → Nat
  fresh : ∀ mapped, ∀ r ∈ mapped, Apart r (freshRegion (base mapped))

/-- A thread's part of the heap. -/
structure LocalHeap where
  mem : Words.Memory
  /-- `tinfo->local_region` -/
  local_region : PupHeapRegion
  /-- the regions this thread has put on `heap->region_list` -/
  region_list : List PupHeapRegion

def LocalHeap.regions (s : LocalHeap) : List PupHeapRegion := s.local_region :: s.region_list

structure Request where
  size : Nat
  kind : PupHeapKind
  /-- what is in `tinfo->current_gc_mark` at the time, of which a mark gets the lowest bit -/
  mark : Bool

/-- `pup_heap_region_allocate`: the bytes of the new region are zeroes. -/
def pupHeapRegionAllocate (mmap : Mmap) (mem : Words.Memory) (mapped : List PupHeapRegion) :
    Words.Memory × PupHeapRegion :=
  let region := freshRegion (mmap.base mapped)
  (fun a => if region.Contains a then 0 else mem a, region)

/-- `pup_heap_region_make_room_for`. -/
def pupHeapRegionMakeRoomFor (mem : Words.Memory) (region : PupHeapRegion) (size : Nat)
    (kind : PupHeapKind) : Words.Memory × PupHeapRegion × Nat :=
  (writeHeader mem region.allocated size kind, region.grown size, region.allocated + dataOffset)

/-- `pup_heap_thread_init`. -/
def pupHeapThreadInit (mmap : Mmap) (mem : Words.Memory) : LocalHeap :=
  let (mem, region) := pupHeapRegionAllocate mmap mem []
  ⟨mem, region, []⟩

/-- The local region is full: it goes on the list, and the thread gets another one. -/
def LocalHeap.rollOver (mmap : Mmap) (s : LocalHeap) : LocalHeap :=
  let (mem, region) := pupHeapRegionAllocate mmap s.mem s.regions
  ⟨mem, region, s.local_region :: s.region_list⟩

/-- `thread_local_alloc` up to the mark. -/
def place (mmap : Mmap) (s : LocalHeap) (size : Nat) (kind : PupHeapKind) : LocalHeap × Nat :=
  let s := if haveRoomFor s.local_region size then s else s.rollOver mmap
  let (mem, region, obj) := pupHeapRegionMakeRoomFor s.mem s.local_region size kind
  ({ s with mem, local_region := region }, obj)

def threadLocalAlloc (mmap : Mmap) (s : LocalHeap) (q : Request) : LocalHeap × Nat :=
  let (s, obj) := place mmap s q.size q.kind
  ({ s with mem := pupObjectGcMarkUnconditionally s.mem obj q.mark }, obj)

/-- A region with a block more. -/
def LocalHeap.handOut (s : LocalHeap) (size : Nat) (kind : PupHeapKind) : LocalHeap × Nat :=
  (⟨writeHeader s.mem s.local_region.allocated size kind, s.local_region.grown size,
    s.region_list⟩, s.local_region.allocated + dataOffset)

theorem place_eq (mmap : Mmap) (s : LocalHeap) (size : Nat) (kind : PupHeapKind) :
    place mmap s size kind =
      (if haveRoomFor s.local_region size then s else s.rollOver mmap).handOut size kind := rfl

theorem place_of_room (mmap : Mmap) {s : LocalHeap} {size : Nat}
    (h : haveRoomFor s.local_region size = true) (kind : PupHeapKind) :
    place mmap s size kind = s.handOut size kind := by
  rw [place_eq, if_pos h]

theorem place_of_full (mmap : Mmap) {s : LocalHeap} {size : Nat}
    (h : ¬ haveRoomFor s.local_region size = true) (kind : PupHeapKind) :
    place mmap s size kind = (s.rollOver mmap).handOut size kind := by
  rw [place_eq, if_neg h]

/-- The mark does not change where the block is. -/
theorem threadLocalAlloc_regions (mmap : Mmap) (s : LocalHeap) (q : Request) :
    (threadLocalAlloc mmap s q).2 = (place mmap s q.size q.kind).2 ∧
      (threadLocalAlloc mmap s q).1.local_region = (place mmap s q.size q.kind).1.local_region ∧
      (threadLocalAlloc mmap s q).1.region_list =
        (place mmap s q.size q.kind).1.region_list := by
  unfold threadLocalAlloc
  obtain ⟨⟨mem, region, list⟩, obj⟩ := place mmap s q.size q.kind
  show obj = obj ∧ region = region ∧ list = list
  exact ⟨rfl, rfl, rfl⟩

/-- `pup_heap_alloc`, which aborts for a large object. -/
def pupHeapAlloc (mmap : Mmap) (s : LocalHeap) (q : Request) : Option (LocalHeap × Nat) :=
  if q.size > MAX_REGION_ALLOCATION then none else some (threadLocalAlloc mmap s q)

/-- Calls of `pup_heap_alloc`, one after the other: what they return. -/
def pupHeapAllocs (mmap : Mmap) (s : LocalHeap) : List Request → Option (LocalHeap × List Nat)
  | [] => some (s, [])
  | q :: rest => do
      let (s, obj) ← pupHeapAlloc mmap s q
      let (s, objs) ← pupHeapAllocs mmap s rest
      some (s, obj :: objs)

/-! ### Blocks -/

/-- The block that a request has got: where its header is, and what is in the header. -/
def Request.block (q : Request) (obj : Nat) : Nat × HeapObject :=
  (obj - dataOffset, ⟨q.size, q.kind⟩)

def blocks (reqs : List Request) (objs : List Nat) : List (Nat × HeapObject) :=
  List.zipWith Request.block reqs objs

def headerRange (p : Nat × HeapObject) : Set Nat := Set.Ico p.1 (p.1 + dataOffset)

def dataRange (p : Nat × HeapObject) : Set Nat :=
  Set.Ico (p.1 + dataOffset) (p.1 + dataOffset + p.2.object_size)

/-- All that a block takes up. -/
def extent (p : Nat × HeapObject) : Set Nat :=
  Set.Ico p.1 (p.1 + allocSizeFor p.2.object_size)

def regionRange (r : PupHeapRegion) : Set Nat := Set.Ico r.region (r.region + REGION_SIZE)

/-- Those of the blocks that are in the region. -/
def placedIn (r : PupHeapRegion) (bs : List (Nat × HeapObject)) : List (Nat × HeapObject) :=
  bs.filter fun p => decide (r.Contains p.1)

theorem headerRange_subset (p : Nat × HeapObject) : headerRange p ⊆ extent p := by
  apply Set.Ico_subset_Ico_right
  simp only [allocSizeFor, sizeofHeapObject, dataOffset]
  omega

theorem dataRange_subset (p : Nat × HeapObject) : dataRange p ⊆ extent p := by
  apply Set.Ico_subset_Ico
  · omega
  · simp only [allocSizeFor, sizeofHeapObject, dataOffset]
    omega

theorem header_data_disjoint (p : Nat × HeapObject) :
    Disjoint (headerRange p) (dataRange p) := by
  unfold headerRange dataRange
  rw [Set.Ico_disjoint_Ico]
  omega

/-- The regions are apart, and each is filled with the blocks that are in it. -/
structure Tiled (s : LocalHeap) (bs : List (Nat × HeapObject)) : Prop where
  blocks : ∀ r ∈ s.regions, Blocks (headersOf s.mem) r.region r.allocated (placedIn r bs)
  fits : ∀ r ∈ s.regions, r.allocated ≤ r.region + REGION_SIZE
  apart : s.regions.Pairwise Apart
  inside : ∀ p ∈ bs, ∃ r ∈ s.regions, r.Contains p.1
  disjoint : bs.Pairwise fun p q => Disjoint (extent p) (extent q)

theorem Tiled.extent_subset {s : LocalHeap} {bs : List (Nat × HeapObject)} (h : Tiled s bs)
    {p : Nat × HeapObject} (hp : p ∈ bs) :
    ∃ r ∈ s.regions, p ∈ placedIn r bs ∧ extent p ⊆ Set.Ico r.region r.allocated := by
  obtain ⟨r, hr, hin⟩ := h.inside p hp
  have hmem : p ∈ placedIn r bs := List.mem_filter.mpr ⟨hp, by simpa using hin⟩
  have hbounds := (h.blocks r hr).bounds hmem
  exact ⟨r, hr, hmem, Set.Ico_subset_Ico hbounds.1 hbounds.2⟩

instance symm_extent : Std.Symm fun p q : Nat × HeapObject => Disjoint (extent p) (extent q) :=
  ⟨fun _ _ h => h.symm⟩

/-- Two blocks that are not the same do not overlap. -/
theorem Tiled.disjoint_of_ne {s : LocalHeap} {bs : List (Nat × HeapObject)} (h : Tiled s bs)
    {p q : Nat × HeapObject} (hp : p ∈ bs) (hq : q ∈ bs) (hne : p ≠ q) :
    Disjoint (extent p) (extent q) :=
  h.disjoint.forall hp hq hne

/-! ### What a step of the allocator keeps -/

theorem tiled_init (mmap : Mmap) (mem : Words.Memory) : Tiled (pupHeapThreadInit mmap mem) [] := by
  refine ⟨fun r hr => ?_, fun r hr => ?_, List.pairwise_singleton .., by simp, .nil⟩
  · obtain rfl : r = freshRegion (mmap.base []) := List.mem_singleton.mp hr
    rfl
  · obtain rfl : r = freshRegion (mmap.base []) := List.mem_singleton.mp hr
    show mmap.base [] ≤ mmap.base [] + REGION_SIZE
    omega

/-- Bytes change, but no header does. -/
theorem Tiled.setMem {s : LocalHeap} {bs : List (Nat × HeapObject)} (h : Tiled s bs)
    {mem : Words.Memory} (hsame : ∀ p ∈ bs, readHeader mem p.1 = readHeader s.mem p.1) :
    Tiled { s with mem } bs := by
  refine ⟨fun r hr => ?_, h.fits, h.apart, h.inside, h.disjoint⟩
  refine (h.blocks r hr).of_headers fun p hp => ?_
  exact congrArg some (hsame p (List.mem_of_mem_filter hp))

theorem placedIn_of_apart {s : LocalHeap} {bs : List (Nat × HeapObject)} (h : Tiled s bs)
    {r : PupHeapRegion} (hr : ∀ q ∈ s.regions, Apart q r) : placedIn r bs = [] := by
  apply List.filter_eq_nil_iff.mpr
  intro p hp
  obtain ⟨q, hq, hin⟩ := h.inside p hp
  simpa using (hr q hq).not_contains hin

/-- What is in a region does not change when bytes are written outside of it. -/
theorem Tiled.readHeader_eq {s : LocalHeap} {bs : List (Nat × HeapObject)} (h : Tiled s bs)
    {mem : Words.Memory} {p : Nat × HeapObject} (hp : p ∈ bs)
    (hsame : ∀ r ∈ s.regions, ∀ b, r.region ≤ b → b < r.allocated → mem b = s.mem b) :
    readHeader mem p.1 = readHeader s.mem p.1 := by
  obtain ⟨r, hr, -, hsub⟩ := h.extent_subset hp
  apply readHeader_congr
  intro b hlo hhi
  have hb : b ∈ Set.Ico r.region r.allocated := hsub (headerRange_subset p ⟨hlo, hhi⟩)
  exact hsame r hr b hb.1 hb.2

theorem Tiled.rollOver {s : LocalHeap} {bs : List (Nat × HeapObject)} (h : Tiled s bs)
    (mmap : Mmap) : Tiled (s.rollOver mmap) bs := by
  have hfresh : ∀ q ∈ s.regions, Apart q (freshRegion (mmap.base s.regions)) :=
    mmap.fresh s.regions
  have hold : Tiled { s with mem := (s.rollOver mmap).mem } bs := by
    apply h.setMem
    intro p hp
    refine h.readHeader_eq hp fun r hr b hlo hhi => ?_
    have hin : r.Contains b := ⟨hlo, by have := h.fits r hr; omega⟩
    exact if_neg ((hfresh r hr).not_contains hin)
  refine ⟨fun r hr => ?_, fun r hr => ?_, ?_, fun p hp => ?_, h.disjoint⟩
  · rcases List.mem_cons.mp hr with rfl | hr
    · show Blocks _ _ _ (placedIn (freshRegion _) bs)
      rw [placedIn_of_apart h hfresh]
      rfl
    · exact hold.blocks r hr
  · rcases List.mem_cons.mp hr with rfl | hr
    · exact Nat.le_add_right ..
    · exact h.fits r hr
  · exact List.pairwise_cons.mpr ⟨fun q hq => (hfresh q hq).symm, h.apart⟩
  · obtain ⟨r, hr, hin⟩ := h.inside p hp
    exact ⟨r, List.mem_cons_of_mem _ hr, hin⟩

theorem placedIn_snoc_self {r : PupHeapRegion} {p : Nat × HeapObject}
    (bs : List (Nat × HeapObject)) (h : r.Contains p.1) :
    placedIn r (bs ++ [p]) = placedIn r bs ++ [p] := by
  simp [placedIn, h]

theorem placedIn_snoc_of_not {r : PupHeapRegion} {p : Nat × HeapObject}
    (bs : List (Nat × HeapObject)) (h : ¬ r.Contains p.1) :
    placedIn r (bs ++ [p]) = placedIn r bs := by
  simp [placedIn, h]

/-- A block is placed where the local region has the room. -/
theorem Tiled.makeRoomFor {s : LocalHeap} {bs : List (Nat × HeapObject)} (h : Tiled s bs)
    {size : Nat} (hroom : haveRoomFor s.local_region size = true) (hsize : size < 256 ^ 8)
    (kind : PupHeapKind) :
    Tiled ⟨writeHeader s.mem s.local_region.allocated size kind, s.local_region.grown size,
      s.region_list⟩ (bs ++ [(s.local_region.allocated, ⟨size, kind⟩)]) := by
  have hlocal : s.local_region ∈ s.regions := List.mem_cons_self ..
  have hle := (h.blocks _ hlocal).length_le
  have hroom : s.local_region.allocated + allocSizeFor size ≤
      s.local_region.region + REGION_SIZE := of_decide_eq_true hroom
  have hextent : s.local_region.allocated + dataOffset ≤
      s.local_region.allocated + allocSizeFor size := by
    simp only [allocSizeFor, sizeofHeapObject, dataOffset]
    omega
  have hin : s.local_region.Contains s.local_region.allocated := by
    refine ⟨by omega, ?_⟩
    simp only [dataOffset] at hextent
    omega
  have hother : ∀ q ∈ s.region_list, Apart s.local_region q :=
    (List.pairwise_cons.mp h.apart).1
  -- the header is written past what is in use of any region
  have hkeep : ∀ p ∈ bs, readHeader (writeHeader s.mem s.local_region.allocated size kind) p.1 =
      readHeader s.mem p.1 := by
    intro p hp
    refine h.readHeader_eq hp fun r hr b hlo hhi => writeHeader_of_outside _ _ _ ?_
    rcases List.mem_cons.mp hr with rfl | hr
    · exact .inl hhi
    · have hfits := h.fits r (List.mem_cons_of_mem _ hr)
      rcases hother r hr with hapart | hapart
      · exact .inr (by omega)
      · exact .inl (by omega)
  have hold := h.setMem hkeep
  have hnew := readHeader_writeHeader s.mem s.local_region.allocated kind hsize
  refine ⟨fun r hr => ?_, fun r hr => ?_, List.pairwise_cons.mpr ⟨fun q hq => hother q hq,
    (List.pairwise_cons.mp h.apart).2⟩, fun p hp => ?_, ?_⟩
  · rcases List.mem_cons.mp hr with rfl | hr
    · have hsnoc := (hold.blocks _ hlocal).snoc (congrArg some hnew)
      rw [← placedIn_snoc_self (p := (_, ⟨size, kind⟩)) bs hin] at hsnoc
      exact hsnoc
    · rw [placedIn_snoc_of_not bs ((hother r hr).not_contains hin)]
      exact hold.blocks r (List.mem_cons_of_mem _ hr)
  · rcases List.mem_cons.mp hr with rfl | hr
    · exact hroom
    · exact h.fits r (List.mem_cons_of_mem _ hr)
  · rcases List.mem_append.mp hp with hp | hp
    · obtain ⟨r, hr, hpr⟩ := h.inside p hp
      rcases List.mem_cons.mp hr with rfl | hr
      · exact ⟨_, List.mem_cons_self .., hpr⟩
      · exact ⟨r, List.mem_cons_of_mem _ hr, hpr⟩
    · obtain rfl := List.mem_singleton.mp hp
      exact ⟨_, List.mem_cons_self .., hin⟩
  · refine List.pairwise_append.mpr ⟨h.disjoint, List.pairwise_singleton .., fun p hp q hq => ?_⟩
    obtain rfl := List.mem_singleton.mp hq
    obtain ⟨r, hr, -, hsub⟩ := h.extent_subset hp
    apply Disjoint.mono_left hsub
    unfold extent
    rw [Set.Ico_disjoint_Ico]
    show min r.allocated (s.local_region.allocated + allocSizeFor size) ≤
      max r.region s.local_region.allocated
    rcases List.mem_cons.mp hr with rfl | hr
    · omega
    · have hfits := h.fits r (List.mem_cons_of_mem _ hr)
      rcases hother r hr with hapart | hapart <;> omega

/-- A mark lies in its block, so that no header changes. -/
theorem Tiled.mark_keeps {s : LocalHeap} {bs : List (Nat × HeapObject)} (h : Tiled s bs)
    {p : Nat × HeapObject} (hp : p ∈ bs) (hsize : sizeofPupObject ≤ p.2.object_size)
    (mark : Bool) {q : Nat × HeapObject} (hq : q ∈ bs) :
    readHeader (pupObjectGcMarkUnconditionally s.mem (p.1 + dataOffset) mark) q.1 =
      readHeader s.mem q.1 := by
  unfold sizeofPupObject at hsize
  have hmark : p.1 + dataOffset + markOffset ∈ dataRange p := by
    unfold dataRange markOffset
    exact ⟨by omega, by omega⟩
  apply readHeader_congr
  intro b hlo hhi
  apply storeBit_of_ne
  rintro rfl
  have hb : p.1 + dataOffset + markOffset ∈ headerRange q := ⟨hlo, hhi⟩
  by_cases hpq : p = q
  · subst hpq
    exact Set.disjoint_left.mp (header_data_disjoint p) hb hmark
  · exact Set.disjoint_left.mp (h.disjoint_of_ne hp hq hpq) (dataRange_subset p hmark)
      (headerRange_subset q hb)

/-! ### A run of the allocator -/

/-- What `pup_heap_alloc` is asked for: room for an object at least, and not too much. -/
def Request.InRange (q : Request) : Prop :=
  sizeofPupObject ≤ q.size ∧ q.size ≤ MAX_REGION_ALLOCATION

instance (q : Request) : Decidable q.InRange := inferInstanceAs (Decidable (_ ∧ _))

/-- A region as `mmap` returns it has the room. -/
theorem haveRoomFor_freshRegion {size : Nat} (base : Nat) (h : size ≤ MAX_REGION_ALLOCATION) :
    haveRoomFor (freshRegion base) size = true := by
  apply decide_eq_true
  unfold MAX_REGION_ALLOCATION at h
  simp only [freshRegion, allocSizeFor, sizeofHeapObject, REGION_SIZE]
  omega

theorem tiled_place {s : LocalHeap} {bs : List (Nat × HeapObject)} (h : Tiled s bs)
    (mmap : Mmap) {size : Nat} (hsize : size ≤ MAX_REGION_ALLOCATION) (kind : PupHeapKind) :
    ∃ a, (place mmap s size kind).2 = a + dataOffset ∧
      Tiled (place mmap s size kind).1 (bs ++ [(a, ⟨size, kind⟩)]) := by
  have hbytes : size < 256 ^ 8 := by
    unfold MAX_REGION_ALLOCATION at hsize
    omega
  by_cases hroom : haveRoomFor s.local_region size = true
  · rw [place_of_room mmap hroom]
    exact ⟨s.local_region.allocated, rfl, h.makeRoomFor hroom hbytes kind⟩
  · rw [place_of_full mmap hroom]
    exact ⟨mmap.base s.regions, rfl,
      (h.rollOver mmap).makeRoomFor (haveRoomFor_freshRegion _ hsize) hbytes kind⟩

/-- The mark of a new block is written, and no header has another value after. -/
def MarkKeepsHeaders (mmap : Mmap) (s : LocalHeap) (q : Request)
    (bs : List (Nat × HeapObject)) : Prop :=
  let (placed, obj) := place mmap s q.size q.kind
  ∀ p ∈ bs ++ [q.block obj],
    readHeader (threadLocalAlloc mmap s q).1.mem p.1 = readHeader placed.mem p.1

theorem tiled_step {s : LocalHeap} {bs : List (Nat × HeapObject)} (h : Tiled s bs)
    (mmap : Mmap) {q : Request} (hq : q.InRange) :
    Tiled (threadLocalAlloc mmap s q).1 (bs ++ [q.block (threadLocalAlloc mmap s q).2]) ∧
      MarkKeepsHeaders mmap s q bs := by
  obtain ⟨a, hobj, hplaced⟩ := tiled_place h mmap hq.2 q.kind
  have hblock : q.block (threadLocalAlloc mmap s q).2 = (a, ⟨q.size, q.kind⟩) := by
    show q.block (place mmap s q.size q.kind).2 = _
    rw [hobj]
    simp [Request.block]
  have hkeep : ∀ p ∈ bs ++ [(a, ⟨q.size, q.kind⟩)],
      readHeader (threadLocalAlloc mmap s q).1.mem p.1 =
        readHeader (place mmap s q.size q.kind).1.mem p.1 := by
    intro p hp
    have hlast : (a, ⟨q.size, q.kind⟩) ∈ bs ++ [(a, (⟨q.size, q.kind⟩ : HeapObject))] :=
      List.mem_append_right _ (List.mem_singleton_self _)
    have := hplaced.mark_keeps hlast hq.1 q.mark hp
    rwa [← hobj] at this
  constructor
  · rw [hblock]
    exact hplaced.setMem hkeep
  · unfold MarkKeepsHeaders
    rw [← hblock] at hkeep
    exact hkeep

theorem pupHeapAlloc_ok (mmap : Mmap) (s : LocalHeap) {q : Request} (hq : q.InRange) :
    pupHeapAlloc mmap s q = some (threadLocalAlloc mmap s q) :=
  if_neg (by have := hq.2; omega)

theorem tiled_allocs {s : LocalHeap} {bs : List (Nat × HeapObject)} (h : Tiled s bs)
    (mmap : Mmap) {reqs : List Request} (hreqs : ∀ q ∈ reqs, q.InRange) :
    ∃ s' objs, pupHeapAllocs mmap s reqs = some (s', objs) ∧ objs.length = reqs.length ∧
      (blocks reqs objs).map (fun p => p.1 + dataOffset) = objs ∧
      Tiled s' (bs ++ blocks reqs objs) := by
  induction reqs generalizing s bs with
  | nil => exact ⟨s, [], rfl, rfl, rfl, by simpa [blocks] using h⟩
  | cons q rest ih =>
      have hq := hreqs q (List.mem_cons_self ..)
      have hstep := (tiled_step h mmap hq).1
      obtain ⟨s', objs, hrun, hlen, hdata, htiled⟩ :=
        ih hstep fun q' hq' => hreqs q' (List.mem_cons_of_mem _ hq')
      have hobj : dataOffset ≤ (threadLocalAlloc mmap s q).2 := by
        obtain ⟨a, ha, -⟩ := tiled_place h mmap hq.2 q.kind
        show dataOffset ≤ (place mmap s q.size q.kind).2
        omega
      refine ⟨s', (threadLocalAlloc mmap s q).2 :: objs, ?_, by simp [hlen], ?_, ?_⟩
      · rw [pupHeapAllocs, pupHeapAlloc_ok mmap s hq]
        simp [hrun]
      · show ((q.block _).1 + dataOffset) :: (blocks rest objs).map _ = _
        rw [hdata, Request.block, Nat.sub_add_cancel hobj]
      · rw [List.append_assoc] at htiled
        exact htiled

/-- A call in the middle of a run is made in a tiled state. -/
theorem markKeepsHeaders_of_run (mmap : Mmap) (mem : Words.Memory) {pre post : List Request}
    {q : Request} (hreqs : ∀ p ∈ pre ++ q :: post, p.InRange) {s : LocalHeap} {objs : List Nat}
    (hrun : pupHeapAllocs mmap (pupHeapThreadInit mmap mem) pre = some (s, objs)) :
    MarkKeepsHeaders mmap s q (blocks pre objs) := by
  have hpre : ∀ p ∈ pre, p.InRange := fun p hp => hreqs p (List.mem_append_left _ hp)
  obtain ⟨s', objs', hrun', -, -, htiled⟩ := tiled_allocs (tiled_init mmap mem) mmap hpre
  rw [hrun] at hrun'
  obtain ⟨rfl, rfl⟩ := Prod.mk.inj (Option.some.inj hrun')
  exact (tiled_step htiled mmap (hreqs q (by simp))).2

/-- **However a thread allocates, its regions can be walked**: the blocks lie in regions
and apart from each other and from all headers, no mark spoils a header, and a walk
(`destroy_region_objects` and `collect_unmarked_objects_in_region` differ in `visit`
only) visits the blocks of a region in the order in which they were asked for, up to
`allocated`. -/
theorem allocated_blocks_tile (mmap : Mmap) (mem : Words.Memory) (reqs : List Request)
    (hreqs : ∀ q ∈ reqs, q.InRange) :
    ∃ s objs, pupHeapAllocs mmap (pupHeapThreadInit mmap mem) reqs = some (s, objs) ∧
      objs.length = reqs.length ∧
      (blocks reqs objs).map (fun p => p.1 + dataOffset) = objs ∧
      (∀ p ∈ blocks reqs objs, ∃ r ∈ s.regions, dataRange p ⊆ regionRange r) ∧
      (blocks reqs objs).Pairwise (fun p q => Disjoint (dataRange p) (dataRange q)) ∧
      (∀ p ∈ blocks reqs objs, ∀ q ∈ blocks reqs objs,
        Disjoint (headerRange p) (dataRange q)) ∧
      (∀ pre q post, reqs = pre ++ q :: post → ∀ s' objs',
        pupHeapAllocs mmap (pupHeapThreadInit mmap mem) pre = some (s', objs') →
          MarkKeepsHeaders mmap s' q (blocks pre objs')) ∧
      ∀ r ∈ s.regions,
        (∀ (σ : Type) (visit : σ → Nat × HeapObject → Except Fault σ) (start : σ),
          walkRegion (headersOf s.mem) visit r start =
            (placedIn r (blocks reqs objs)).foldlM visit start) ∧
        r.region + ((placedIn r (blocks reqs objs)).map fun p =>
          allocSizeFor p.2.object_size).sum = r.allocated := by
  obtain ⟨s, objs, hrun, hlen, hdata, htiled⟩ := tiled_allocs (tiled_init mmap mem) mmap hreqs
  rw [List.nil_append] at htiled
  refine ⟨s, objs, hrun, hlen, hdata, fun p hp => ?_, ?_, fun p hp q hq => ?_, ?_, fun r hr => ?_⟩
  · obtain ⟨r, hr, -, hsub⟩ := htiled.extent_subset hp
    refine ⟨r, hr, (dataRange_subset p).trans (hsub.trans ?_)⟩
    exact Set.Ico_subset_Ico_right (htiled.fits r hr)
  · exact htiled.disjoint.imp fun hpq =>
      hpq.mono (dataRange_subset _) (dataRange_subset _)
  · by_cases hpq : p = q
    · subst hpq
      exact header_data_disjoint p
    · exact (htiled.disjoint_of_ne hp hq hpq).mono (headerRange_subset p) (dataRange_subset q)
  · intro pre q post hsplit s' objs' hrun'
    exact markKeepsHeaders_of_run mmap mem (hsplit ▸ hreqs) hrun'
  · have hblocks := htiled.blocks r hr
    exact ⟨fun σ visit start => walkRegion_eq hblocks start, hblocks.sum_eq⟩

/-- An `mmap` that goes up in memory. -/
def mmapAbove : Mmap where
  base mapped := mapped.foldr (fun r n => max (r.region + REGION_SIZE) n) 0
  fresh mapped r hr := by
    left
    show r.region + REGION_SIZE ≤ _
    induction mapped with
    | nil => simp at hr
    | cons q rest ih =>
        rw [List.foldr_cons]
        rcases List.mem_cons.mp hr with rfl | hr
        · exact le_max_left ..
        · exact (ih hr).trans (le_max_right ..)

/-- Blocks of the largest size fill a region, and the last one goes into a second. -/
theorem allocated_blocks_tile_two :
    ∃ s objs, pupHeapAllocs mmapAbove (pupHeapThreadInit mmapAbove fun _ => 0)
        (List.replicate 256 ⟨MAX_REGION_ALLOCATION, .obj, true⟩) = some (s, objs) ∧
      objs.length = 256 ∧ s.regions.length = 2 ∧
      ∀ p ∈ blocks (List.replicate 256 ⟨MAX_REGION_ALLOCATION, .obj, true⟩) objs,
        ∃ r ∈ s.regions, dataRange p ⊆ regionRange r := by
  have hregions : (pupHeapAllocs mmapAbove (pupHeapThreadInit mmapAbove fun _ => 0)
      (List.replicate 256 ⟨MAX_REGION_ALLOCATION, .obj, true⟩)).all
        (fun p => p.1.regions.length = 2) = true := by decide +kernel
  obtain ⟨s, objs, hrun, hlen, -, hplaced, -⟩ := allocated_blocks_tile mmapAbove (fun _ => 0)
    (List.replicate 256 ⟨MAX_REGION_ALLOCATION, .obj, true⟩) fun q hq => by
      rw [List.eq_of_mem_replicate hq]
      decide
  rw [hrun] at hregions
  exact ⟨s, objs, hrun, hlen.trans List.length_replicate, of_decide_eq_true hregions, hplaced⟩

end Pup.Allocation
