/-
The collector's allocator.

`pup_gc_alloc_for_copy` is `thread_local_alloc` written out a second time: its current
region is `copy_target` of the collector's state, and the block gets no mark.  With a
region there, the two place blocks alike (`copies_like_thread_from`).  But
`pup_gc_state_create` puts a null pointer there and nothing else ever writes the field,
so the first request aborts.
-/
import Pup.Heap.Allocation

namespace Pup.Allocation

open Heap Words
open Pup.Regions (REGION_SIZE)

/-- What the collector allocates from. -/
structure CopyHeap where
  mem : Words.Memory
  /-- `state->copy_target` -/
  copy_target : Option PupHeapRegion
  /-- the regions the collector has put on `heap->region_list` -/
  region_list : List PupHeapRegion

/-- `pup_gc_state_create`. -/
def pupGcStateCreate (mem : Words.Memory) : CopyHeap := ⟨mem, none, []⟩

/-- `pup_gc_alloc_for_copy`, which aborts where there is no region. -/
def pupGcAllocForCopy (mmap : Mmap) (s : CopyHeap) (size : Nat) (kind : PupHeapKind) :
    Option (CopyHeap × Nat) := do
  let region ← s.copy_target
  if haveRoomFor region size then
    let (mem, region, obj) := pupHeapRegionMakeRoomFor s.mem region size kind
    some (⟨mem, some region, s.region_list⟩, obj)
  else
    let old_region := region
    let (mem, region) := pupHeapRegionAllocate mmap s.mem (old_region :: s.region_list)
    let (mem, region, obj) := pupHeapRegionMakeRoomFor mem region size kind
    some (⟨mem, some region, old_region :: s.region_list⟩, obj)

/-- `pup_heap_alloc_for_gc_copy`, which aborts for a large object. -/
def pupHeapAllocForGcCopy (mmap : Mmap) (s : CopyHeap) (q : Request) :
    Option (CopyHeap × Nat) :=
  if q.size > MAX_REGION_ALLOCATION then none else pupGcAllocForCopy mmap s q.size q.kind

/-- Calls of `pup_heap_alloc_for_gc_copy`, one after the other. -/
def pupHeapAllocsForGcCopy (mmap : Mmap) (s : CopyHeap) :
    List Request → Option (CopyHeap × List Nat)
  | [] => some (s, [])
  | q :: rest => do
      let (s, obj) ← pupHeapAllocForGcCopy mmap s q
      let (s, objs) ← pupHeapAllocsForGcCopy mmap s rest
      some (s, obj :: objs)

/-- The collector's allocator, with the heap `g` to begin with, returns the blocks that a
thread gets for the same requests, and puts the same regions on the list. -/
def CopiesLikeThread (mmap : Mmap) (mem : Words.Memory) (g : CopyHeap) (reqs : List Request) :
    Prop :=
  ∃ g' s objs, pupHeapAllocsForGcCopy mmap g reqs = some (g', objs) ∧
    pupHeapAllocs mmap (pupHeapThreadInit mmap mem) reqs = some (s, objs) ∧
    g'.region_list = s.region_list

/-! ### With a region to copy to -/

/-- The collector's heap has the regions of the thread's, though other bytes. -/
structure SameRegions (g : CopyHeap) (s : LocalHeap) : Prop where
  current : g.copy_target = some s.local_region
  region_list : g.region_list = s.region_list

/-- A thread that has the collector's regions. -/
def LocalHeap.target (s : LocalHeap) : CopyHeap := ⟨s.mem, some s.local_region, s.region_list⟩

/-- The collector's allocator is the thread's without the mark. -/
theorem pupGcAllocForCopy_target (mmap : Mmap) (s : LocalHeap) (size : Nat)
    (kind : PupHeapKind) : pupGcAllocForCopy mmap s.target size kind =
      some ((place mmap s size kind).1.target, (place mmap s size kind).2) := by
  have htarget : s.target.copy_target = some s.local_region := rfl
  unfold pupGcAllocForCopy
  rw [htarget, Option.bind_eq_bind, Option.bind_some]
  by_cases hroom : haveRoomFor s.local_region size = true
  · rw [place_of_room mmap hroom, if_pos hroom]
    rfl
  · rw [place_of_full mmap hroom, if_neg hroom]
    rfl

/-- Where a block is placed depends on the regions, and not on what is in them. -/
theorem place_congr (mmap : Mmap) (s s' : LocalHeap) (hlocal : s'.local_region = s.local_region)
    (hlist : s'.region_list = s.region_list) (size : Nat) (kind : PupHeapKind) :
    (place mmap s' size kind).2 = (place mmap s size kind).2 ∧
      (place mmap s' size kind).1.local_region = (place mmap s size kind).1.local_region ∧
      (place mmap s' size kind).1.region_list = (place mmap s size kind).1.region_list := by
  obtain ⟨mem, region, list⟩ := s
  obtain ⟨mem', region', list'⟩ := s'
  obtain rfl : region' = region := hlocal
  obtain rfl : list' = list := hlist
  by_cases hroom : haveRoomFor region' size = true
  · rw [place_of_room mmap hroom, place_of_room mmap hroom]
    exact ⟨rfl, rfl, rfl⟩
  · rw [place_of_full mmap hroom, place_of_full mmap hroom]
    exact ⟨rfl, rfl, rfl⟩

theorem sameRegions_target {s s' : LocalHeap} (hlocal : s'.local_region = s.local_region)
    (hlist : s'.region_list = s.region_list) : SameRegions s'.target s :=
  ⟨congrArg some hlocal, hlist⟩

/-- One block in each of the two heaps. -/
theorem SameRegions.place {g : CopyHeap} {s : LocalHeap} (h : SameRegions g s) (mmap : Mmap)
    (size : Nat) (kind : PupHeapKind) :
    ∃ g', pupGcAllocForCopy mmap g size kind =
        some (g', (Allocation.place mmap s size kind).2) ∧
      SameRegions g' (Allocation.place mmap s size kind).1 := by
  obtain ⟨mem, target, list⟩ := g
  obtain rfl : target = some s.local_region := h.current
  obtain rfl : list = s.region_list := h.region_list
  have hcongr :=
    place_congr mmap s ⟨mem, s.local_region, s.region_list⟩ rfl rfl size kind
  refine ⟨_, ?_, sameRegions_target hcongr.2.1 hcongr.2.2⟩
  rw [← hcongr.1]
  exact pupGcAllocForCopy_target mmap ⟨mem, s.local_region, s.region_list⟩ size kind

theorem SameRegions.step {g : CopyHeap} {s : LocalHeap} (h : SameRegions g s) (mmap : Mmap)
    {q : Request} (hq : q.size ≤ MAX_REGION_ALLOCATION) :
    ∃ g', pupHeapAllocForGcCopy mmap g q = some (g', (threadLocalAlloc mmap s q).2) ∧
      SameRegions g' (threadLocalAlloc mmap s q).1 := by
  obtain ⟨g', hrun, hsame⟩ := h.place mmap q.size q.kind
  obtain ⟨hobj, hlocal, hlist⟩ := threadLocalAlloc_regions mmap s q
  rw [pupHeapAllocForGcCopy, if_neg (Nat.not_lt.mpr hq), hobj]
  refine ⟨g', hrun, ?_, ?_⟩
  · rw [hsame.current, hlocal]
  · rw [hsame.region_list, hlist]

theorem SameRegions.run {g : CopyHeap} {s : LocalHeap} (h : SameRegions g s) (mmap : Mmap)
    {reqs : List Request} (hreqs : ∀ q ∈ reqs, q.size ≤ MAX_REGION_ALLOCATION) :
    ∃ g' s' objs, pupHeapAllocsForGcCopy mmap g reqs = some (g', objs) ∧
      pupHeapAllocs mmap s reqs = some (s', objs) ∧ SameRegions g' s' := by
  induction reqs generalizing g s with
  | nil => exact ⟨g, s, [], rfl, rfl, h⟩
  | cons q rest ih =>
      have hq := hreqs q (List.mem_cons_self ..)
      obtain ⟨g₁, hg, hsame⟩ := h.step mmap hq
      obtain ⟨g', s', objs, hgs, hss, hsame'⟩ :=
        ih hsame fun p hp => hreqs p (List.mem_cons_of_mem _ hp)
      refine ⟨g', s', (threadLocalAlloc mmap s q).2 :: objs, ?_, ?_, hsame'⟩
      · rw [pupHeapAllocsForGcCopy, hg]
        simp [hgs]
      · rw [pupHeapAllocs, pupHeapAlloc, if_neg (by omega)]
        simp [hss]

/-- Were `copy_target` a region as `mmap` returns it, the collector would allocate as a
thread does, and have the same region in use in the end. -/
theorem copies_like_thread_from (mmap : Mmap) (mem : Words.Memory) {reqs : List Request}
    (hreqs : ∀ q ∈ reqs, q.size ≤ MAX_REGION_ALLOCATION) :
    CopiesLikeThread mmap mem (pupHeapThreadInit mmap mem).target reqs := by
  have hsame : SameRegions (pupHeapThreadInit mmap mem).target (pupHeapThreadInit mmap mem) :=
    ⟨rfl, rfl⟩
  obtain ⟨g', s', objs, hg, hs, hsame'⟩ := hsame.run mmap hreqs
  exact ⟨g', s', objs, hg, hs, hsame'.region_list⟩

/-! ### Without -/

/-- No request is served. -/
theorem pupHeapAllocForGcCopy_none (mmap : Mmap) (mem : Words.Memory)
    (list : List PupHeapRegion) (q : Request) :
    pupHeapAllocForGcCopy mmap ⟨mem, none, list⟩ q = none := by
  unfold pupHeapAllocForGcCopy pupGcAllocForCopy
  by_cases hlarge : q.size > MAX_REGION_ALLOCATION
  · simp [hlarge]
  · simp [hlarge]

/-- **From the state in which `pup_gc_state_create` leaves the collector, it can allocate
nothing.** -/
theorem copiesLikeThread_iff (mmap : Mmap) (mem : Words.Memory) (reqs : List Request) :
    CopiesLikeThread mmap mem (pupGcStateCreate mem) reqs ↔ reqs = [] := by
  constructor
  · intro h
    obtain ⟨g', s, objs, hrun, -, -⟩ := h
    cases reqs with
    | nil => rfl
    | cons q rest =>
        rw [pupHeapAllocsForGcCopy, pupGcStateCreate, pupHeapAllocForGcCopy_none] at hrun
        simp at hrun
  · rintro rfl
    exact ⟨pupGcStateCreate mem, pupHeapThreadInit mmap mem, [], rfl, rfl, rfl⟩

/-- One object is asked for, and the collector aborts. -/
theorem first_copy_aborts :
    ¬ CopiesLikeThread mmapAbove (fun _ => 0) (pupGcStateCreate fun _ => 0)
      [⟨sizeofPupObject, .obj, false⟩] := by
  rintro ⟨g', s, objs, hrun, -, -⟩
  rw [pupHeapAllocsForGcCopy, pupGcStateCreate, pupHeapAllocForGcCopy_none] at hrun
  simp at hrun

end Pup.Allocation
