/-
The blocks of a region.

A region is filled from its start: each block has a header with the requested size,
and the next block begins where this one ends.  The two loops of `heap.c` that walk a
region, `destroy_region_objects` and `collect_unmarked_objects_in_region`, are one
loop here with the work on a block as a parameter (`walk`).  `Blocks` says which
blocks there are between two addresses, and `walk_eq` that a walk visits exactly these
in order, so that a walk depends on the headers between its ends and nothing else.
-/
import Mathlib.Algebra.GroupWithZero.Nat
import Pup.Heap.Regions
import Pup.Object

namespace Pup.Heap

open Outcome
open Pup.Regions (REGION_SIZE)

/-- `sizeof(struct HeapObject)`. -/
def sizeofHeapObject : Nat := 16

/-- Where `data` is in a `struct HeapObject`: right after the bit field. -/
def dataOffset : Nat := 9

/-- `alloc_size_for`. -/
def allocSizeFor (request_size : Nat) : Nat := request_size + sizeofHeapObject

/-- The fields of a `struct PupHeapRegion` that say where the region is and how far it is
filled. -/
structure PupHeapRegion where
  region : Nat
  allocated : Nat
  deriving DecidableEq, Repr

/-- The address is one of the region's. -/
def PupHeapRegion.Contains (r : PupHeapRegion) (a : Nat) : Prop :=
  r.region ≤ a ∧ a < r.region + REGION_SIZE

instance (r : PupHeapRegion) (a : Nat) : Decidable (r.Contains a) :=
  inferInstanceAs (Decidable (_ ∧ _))

/-- `pup_heap_region_have_room_for`. -/
def haveRoomFor (r : PupHeapRegion) (size : Nat) : Bool :=
  decide (r.allocated + allocSizeFor size ≤ r.region + REGION_SIZE)

/-- The region after `pup_heap_region_make_room_for`. -/
def PupHeapRegion.grown (r : PupHeapRegion) (size : Nat) : PupHeapRegion :=
  { r with allocated := r.allocated + allocSizeFor size }

/-- The memory after `pup_heap_region_make_room_for`. -/
def makeRoomFor (mem : Memory) (r : PupHeapRegion) (size : Nat) (kind : PupHeapKind) : Memory :=
  { mem with headers := Function.update mem.headers r.allocated (some ⟨size, kind⟩) }

/-- `munmap` of a region. -/
def unmap (mem : Memory) (r : PupHeapRegion) : Memory where
  headers a := if r.Contains a then none else mem.headers a
  objects a := if r.Contains a then none else mem.objects a
  attrs a := if r.Contains a then none else mem.attrs a

/-- A loop over the blocks from `addr` to `allocated`, for at most `fuel - 1` of them. -/
def walk {σ : Type} (mem : Memory) (visit : σ → Nat × HeapObject → Except Fault σ)
    (allocated : Nat) : Nat → Nat → σ → Except Fault σ
  | 0, _, _ => .error .outOfFuel
  | fuel + 1, addr, s =>
      if addr < allocated then do
        let obj ← deref mem.headers (some addr)
        let s ← visit s (addr, obj)
        walk mem visit allocated fuel (addr + allocSizeFor obj.object_size) s
      else .ok s

/-- A walk over a whole region.  Every block takes up more than one byte. -/
def walkRegion {σ : Type} (mem : Memory) (visit : σ → Nat × HeapObject → Except Fault σ)
    (r : PupHeapRegion) (s : σ) : Except Fault σ :=
  walk mem visit r.allocated (r.allocated - r.region + 1) r.region s

/-- A walk keeps what every visit keeps. -/
theorem walk_keeps {σ : Type} {mem : Memory} {visit : σ → Nat × HeapObject → Except Fault σ}
    {I : σ → Prop} (hvisit : ∀ s p s', I s → visit s p = .ok s' → I s') {stop : Nat}
    (fuel : Nat) {addr : Nat} {s s' : σ} (hs : I s)
    (h : walk mem visit stop fuel addr s = .ok s') : I s' := by
  induction fuel generalizing addr s with
  | zero => cases h
  | succ n ih =>
      rw [walk] at h
      split at h
      · obtain ⟨obj, -, h⟩ := bind_ok h
        obtain ⟨s₁, hs₁, h⟩ := bind_ok h
        exact ih (hvisit s _ s₁ hs hs₁) h
      · exact Except.ok.inj h ▸ hs

/-- The blocks from `start` to `stop` are `bs`, in this order. -/
def Blocks (mem : Memory) (start stop : Nat) : List (Nat × HeapObject) → Prop
  | [] => start = stop
  | (a, obj) :: rest =>
      a = start ∧ mem.headers a = some obj ∧
        Blocks mem (start + allocSizeFor obj.object_size) stop rest

section Blocks

variable {mem : Memory} {start stop : Nat} {bs : List (Nat × HeapObject)}

theorem Blocks.length_le (h : Blocks mem start stop bs) : start + bs.length ≤ stop := by
  induction bs generalizing start with
  | nil => exact le_of_eq h
  | cons p rest ih =>
      obtain ⟨-, -, hrest⟩ := h
      have := ih hrest
      simp only [allocSizeFor, sizeofHeapObject, List.length_cons] at *
      omega

/-- Every block lies between the two ends. -/
theorem Blocks.bounds (h : Blocks mem start stop bs) {p : Nat × HeapObject} (hp : p ∈ bs) :
    start ≤ p.1 ∧ p.1 + allocSizeFor p.2.object_size ≤ stop := by
  induction bs generalizing start with
  | nil => simp at hp
  | cons q rest ih =>
      obtain ⟨ha, -, hrest⟩ := h
      have hle := hrest.length_le
      rcases List.mem_cons.mp hp with hp | hp
      · subst hp
        omega
      · have := ih hrest hp
        omega

theorem Blocks.header (h : Blocks mem start stop bs) {p : Nat × HeapObject} (hp : p ∈ bs) :
    mem.headers p.1 = some p.2 := by
  induction bs generalizing start with
  | nil => simp at hp
  | cons q rest ih =>
      obtain ⟨-, hq, hrest⟩ := h
      rcases List.mem_cons.mp hp with hp | hp
      · rw [hp]
        exact hq
      · exact ih hrest hp

/-- No two blocks begin at one address. -/
theorem Blocks.nodup (h : Blocks mem start stop bs) : (bs.map Prod.fst).Nodup := by
  induction bs generalizing start with
  | nil => exact List.nodup_nil
  | cons q rest ih =>
      obtain ⟨ha, -, hrest⟩ := h
      refine List.nodup_cons.mpr ⟨?_, ih hrest⟩
      intro hmem
      obtain ⟨p, hp, heq⟩ := List.mem_map.mp hmem
      have := (hrest.bounds hp).1
      simp only [allocSizeFor, sizeofHeapObject] at this
      omega

/-- Only the headers of the blocks matter. -/
theorem Blocks.of_headers {mem' : Memory} (h : Blocks mem start stop bs)
    (hsame : ∀ p ∈ bs, mem'.headers p.1 = mem.headers p.1) : Blocks mem' start stop bs := by
  induction bs generalizing start with
  | nil => exact h
  | cons p rest ih =>
      obtain ⟨ha, hobj, hrest⟩ := h
      refine ⟨ha, ?_, ih hrest fun q hq => hsame q (List.mem_cons_of_mem _ hq)⟩
      rw [hsame p (List.mem_cons_self ..)]
      exact hobj

theorem Blocks.congr {mem' : Memory} (h : Blocks mem start stop bs)
    (hsame : ∀ a, start ≤ a → a < stop → mem'.headers a = mem.headers a) :
    Blocks mem' start stop bs := by
  refine h.of_headers fun p hp => ?_
  have hbounds := h.bounds hp
  simp only [allocSizeFor, sizeofHeapObject] at hbounds
  exact hsame p.1 hbounds.1 (by omega)

/-- A block is added at the end. -/
theorem Blocks.snoc (h : Blocks mem start stop bs) {obj : HeapObject}
    (hobj : mem.headers stop = some obj) :
    Blocks mem start (stop + allocSizeFor obj.object_size) (bs ++ [(stop, obj)]) := by
  induction bs generalizing start with
  | nil =>
      have hss : start = stop := h
      subst hss
      exact ⟨rfl, hobj, rfl⟩
  | cons p rest ih =>
      obtain ⟨ha, hp, hrest⟩ := h
      exact ⟨ha, hp, ih hrest⟩

/-- The blocks fill the space between the two ends. -/
theorem Blocks.sum_eq (h : Blocks mem start stop bs) :
    start + (bs.map fun p => allocSizeFor p.2.object_size).sum = stop := by
  induction bs generalizing start with
  | nil => exact h
  | cons p rest ih =>
      obtain ⟨-, -, hrest⟩ := h
      have := ih hrest
      simp only [List.map_cons, List.sum_cons]
      omega

/-- **A walk visits exactly the blocks, in order.** -/
theorem walk_eq {σ : Type} {visit : σ → Nat × HeapObject → Except Fault σ}
    (h : Blocks mem start stop bs) {fuel : Nat} (hfuel : bs.length < fuel) (s : σ) :
    walk mem visit stop fuel start s = bs.foldlM visit s := by
  induction bs generalizing start fuel s with
  | nil =>
      obtain ⟨n, rfl⟩ := Nat.exists_eq_succ_of_ne_zero (by omega : fuel ≠ 0)
      have hss : start = stop := h
      rw [walk, if_neg (by omega)]
      rfl
  | cons p rest ih =>
      obtain ⟨n, rfl⟩ := Nat.exists_eq_succ_of_ne_zero (by omega : fuel ≠ 0)
      have hle := h.length_le
      obtain ⟨ha, hobj, hrest⟩ := h
      obtain ⟨a, obj⟩ := p
      simp only at ha hobj hrest
      subst ha
      rw [walk, if_pos (by simp only [List.length_cons] at hle; omega), deref, hobj,
        List.foldlM_cons]
      exact bind_congr fun s' => ih hrest (by simpa using hfuel) s'

theorem walkRegion_eq {σ : Type} {visit : σ → Nat × HeapObject → Except Fault σ}
    {r : PupHeapRegion} (h : Blocks mem r.region r.allocated bs) (s : σ) :
    walkRegion mem visit r s = bs.foldlM visit s := by
  have := h.length_le
  exact walk_eq h (by omega) s

end Blocks

/-! ### Regions and unmapping -/

/-- Two regions have no address in common. -/
def Apart (r q : PupHeapRegion) : Prop :=
  r.region + REGION_SIZE ≤ q.region ∨ q.region + REGION_SIZE ≤ r.region

theorem Apart.symm {r q : PupHeapRegion} (h : Apart r q) : Apart q r := Or.symm h

theorem Apart.not_contains {r q : PupHeapRegion} (h : Apart r q) {a : Nat}
    (ha : r.Contains a) : ¬ q.Contains a := by
  unfold PupHeapRegion.Contains at *
  rcases h with h | h <;> omega

/-- The region holds the blocks `bs`, and there is an object in each block that is one. -/
structure RegionOK (mem : Memory) (r : PupHeapRegion) (bs : List (Nat × HeapObject)) : Prop where
  blocks : Blocks mem r.region r.allocated bs
  fits : r.allocated ≤ r.region + REGION_SIZE
  objects : ∀ p ∈ bs, p.2.kind = .obj → ∃ o, mem.objects (p.1 + dataOffset) = some o

/-- A block's data lies in its region. -/
theorem RegionOK.contains {mem : Memory} {r : PupHeapRegion} {bs : List (Nat × HeapObject)}
    (h : RegionOK mem r bs) {p : Nat × HeapObject} (hp : p ∈ bs) :
    r.Contains (p.1 + dataOffset) := by
  have hb := h.blocks.bounds hp
  have hf := h.fits
  unfold PupHeapRegion.Contains
  simp only [allocSizeFor, sizeofHeapObject, dataOffset] at *
  omega

theorem RegionOK.congr {mem mem' : Memory} {r : PupHeapRegion} {bs : List (Nat × HeapObject)}
    (h : RegionOK mem r bs)
    (hheaders : ∀ a, r.region ≤ a → a < r.allocated → mem'.headers a = mem.headers a)
    (hobjects : ∀ a o, r.Contains a → mem.objects a = some o → ∃ o', mem'.objects a = some o') :
    RegionOK mem' r bs := by
  refine ⟨h.blocks.congr hheaders, h.fits, fun p hp hk => ?_⟩
  obtain ⟨o, ho⟩ := h.objects p hp hk
  exact hobjects _ o (h.contains hp) ho

/-- Unmapping one region leaves the others as they are. -/
theorem RegionOK.unmap {mem : Memory} {r q : PupHeapRegion} {bs : List (Nat × HeapObject)}
    (h : RegionOK mem r bs) (hapart : Apart r q) : RegionOK (Heap.unmap mem q) r bs := by
  have hfits := h.fits
  have hout : ∀ a, r.Contains a → ¬ q.Contains a := fun a ha => hapart.not_contains ha
  refine h.congr (fun a hlo hhi => ?_) fun a o ha ho => ⟨o, ?_⟩
  · have hin : r.Contains a := ⟨hlo, by omega⟩
    exact if_neg (hout a hin)
  · rw [← ho]
    exact if_neg (hout a ha)

end Pup.Heap
