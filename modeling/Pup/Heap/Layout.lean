/-
Where everything is in memory.

`Layout` says that regions do not overlap and are filled with the blocks handed out from
them, and that every object and attribute list entry is in such a block or was
`malloc`ed.  A step is made of a few kinds of update (memory is rewritten in place, a
region is mapped, a block is handed out, a region is unmapped), and there is one lemma
for each kind.
-/
import Pup.Heap.PupHeap

namespace Pup.Heap

open Pup.Gc Transition Outcome
open Pup.Regions (REGION_SIZE)

/-- The blocks handed out from region `i` are `bs`. -/
def Logged (log : List Event) (i : Nat) (bs : List (Nat × HeapObject)) : Prop :=
  ∀ data kind, .alloc i data kind ∈ log ↔ ∃ p ∈ bs, p.1 + dataOffset = data ∧ p.2.kind = kind

/-- The part of a region that has been handed out. -/
def PupHeapRegion.InUse (r : PupHeapRegion) (a : Nat) : Prop := r.region ≤ a ∧ a < r.allocated

structure Layout (h : PupHeap) : Prop where
  blocks : ∀ i r, h.regions i = some r → ∃ bs, RegionOK h.mem r bs ∧ Logged h.log i bs
  apart : ∀ i j r q, h.regions i = some r → h.regions j = some q → i ≠ j → Apart r q
  mapped : ∀ i r, h.regions i = some r → i < h.mappings
  objects : ∀ a, h.mem.objects a ≠ none →
    a ∈ h.malloced ∨ ∃ i r, h.regions i = some r ∧ r.InUse a
  attrs : ∀ a, h.mem.attrs a ≠ none → ∃ i r, h.regions i = some r ∧ r.InUse a
  malloced : ∀ a ∈ h.malloced, ∀ i r, h.regions i = some r → ¬ r.Contains a
  logged : ∀ i data kind, .alloc i data kind ∈ h.log → i < h.mappings

/-! ### Memory rewritten in place -/

/-- The same addresses are objects, entries and headers, with the same headers. -/
structure SameShape (mem mem' : Memory) : Prop where
  headers : mem'.headers = mem.headers
  objects : ∀ a, mem'.objects a = none ↔ mem.objects a = none
  attrs : ∀ a, mem'.attrs a = none ↔ mem.attrs a = none

theorem SameShape.refl (mem : Memory) : SameShape mem mem := ⟨rfl, fun _ => .rfl, fun _ => .rfl⟩

theorem SameShape.of_marksOnly {mem mem' : Memory} (h : MarksOnly mem mem') :
    SameShape mem mem' := by
  refine ⟨h.headers, fun a => ?_, fun a => by rw [h.attrs]⟩
  have := h.objects a
  constructor
  · intro ha
    simpa [ha] using this.symm
  · intro ha
    simpa [ha] using this

theorem SameShape.setObject {mem : Memory} {a : Nat} {o : PupObject}
    (ho : mem.objects a = some o) (o' : PupObject) : SameShape mem (mem.setObject a o') := by
  refine ⟨rfl, fun b => ?_, fun _ => .rfl⟩
  by_cases hb : b = a
  · subst hb
    simp [Memory.setObject, ho]
  · simp [Memory.setObject, hb]

theorem SameShape.setAttr {mem : Memory} {a : Nat} {e : PupAttributeListEntry}
    (he : mem.attrs a = some e) (e' : PupAttributeListEntry) :
    SameShape mem (mem.setAttr a e') := by
  refine ⟨rfl, fun _ => .rfl, fun b => ?_⟩
  by_cases hb : b = a
  · subst hb
    simp [Memory.setAttr, he]
  · simp [Memory.setAttr, hb]

theorem RegionOK.sameShape {mem mem' : Memory} {r : PupHeapRegion}
    {bs : List (Nat × HeapObject)} (h : RegionOK mem r bs) (hs : SameShape mem mem') :
    RegionOK mem' r bs := by
  refine h.congr (fun a _ _ => by rw [hs.headers]) fun a o _ ho => ?_
  refine Option.ne_none_iff_exists'.mp fun hnone => ?_
  rw [hs.objects, ho] at hnone
  cases hnone

theorem Layout.setMem {h : PupHeap} (hL : Layout h) {mem : Memory} (hs : SameShape h.mem mem) :
    Layout (h.setMem mem) := by
  refine ⟨fun i r hr => ?_, hL.apart, hL.mapped, fun a ha => hL.objects a ?_,
    fun a ha => hL.attrs a ?_, hL.malloced, hL.logged⟩
  · obtain ⟨bs, hok, hlog⟩ := hL.blocks i r hr
    exact ⟨bs, hok.sameShape hs, hlog⟩
  · exact fun hnone => ha ((hs.objects a).mpr hnone)
  · exact fun hnone => ha ((hs.attrs a).mpr hnone)

/-- What `Layout` speaks of has not changed. -/
theorem Layout.congr {h h' : PupHeap} (hL : Layout h) (hmem : h'.mem = h.mem)
    (hregions : h'.regions = h.regions) (hmappings : h'.mappings = h.mappings)
    (hmalloced : h'.malloced = h.malloced) (hlog : h'.log = h.log) : Layout h' := by
  obtain ⟨h₁, h₂, h₃, h₄, h₅, h₆, h₇⟩ := hL
  rw [← hmem, ← hregions, ← hlog] at h₁
  rw [← hregions] at h₂ h₃ h₄ h₅ h₆
  rw [← hmem] at h₄ h₅
  rw [← hmappings] at h₃ h₇
  rw [← hmalloced] at h₄ h₆
  rw [← hlog] at h₇
  exact ⟨h₁, h₂, h₃, h₄, h₅, h₆, h₇⟩

/-! ### A region is mapped -/

theorem regions_regionAllocate (h : PupHeap) (base i : Nat) :
    (regionAllocate h base).regions i =
      if i = h.mappings then some (freshRegion base) else h.regions i := by
  simp [Function.update_apply]

theorem Free.apart {h : PupHeap} {base : Nat} (hf : Free h base) (hL : Layout h) {i : Nat}
    {r : PupHeapRegion} (hr : h.regions i = some r) : Apart r (freshRegion base) :=
  hf.1 i (hL.mapped i r hr) r hr

theorem Layout.regionAllocate {h : PupHeap} (hL : Layout h) {base : Nat} (hf : Free h base) :
    Layout (regionAllocate h base) := by
  have hregions := regions_regionAllocate h base
  refine ⟨fun i r hr => ?_, fun i j r q hr hq hij => ?_, fun i r hr => ?_, fun a ha => ?_,
    fun a ha => ?_, fun a ha i r hr => ?_, fun i data kind hmem => ?_⟩
  · rw [hregions] at hr
    split at hr
    · rename_i hi
      obtain rfl := Option.some.inj hr
      refine ⟨[], ⟨rfl, by simp [freshRegion], by simp⟩, fun data kind => ?_⟩
      simp only [List.not_mem_nil, false_and, exists_false, iff_false]
      intro hmem
      have := hL.logged i data kind (by simpa using hmem)
      omega
    · obtain ⟨bs, hok, hlog⟩ := hL.blocks i r hr
      refine ⟨bs, hok, fun data kind => ?_⟩
      rw [← hlog]
      simp
  · rw [hregions] at hr hq
    split at hr
    · rename_i hi
      obtain rfl := Option.some.inj hr
      rw [if_neg (by omega)] at hq
      exact (hf.apart hL hq).symm
    · split at hq
      · obtain rfl := Option.some.inj hq
        exact hf.apart hL hr
      · exact hL.apart i j r q hr hq hij
  · rw [hregions] at hr
    show i < h.mappings + 1
    split at hr
    · omega
    · have := hL.mapped i r hr
      omega
  · refine (hL.objects a ha).imp_right fun hex => ?_
    obtain ⟨i, r, hr, huse⟩ := hex
    refine ⟨i, r, ?_, huse⟩
    rw [hregions, if_neg (Nat.ne_of_lt (hL.mapped i r hr)), hr]
  · obtain ⟨i, r, hr, huse⟩ := hL.attrs a ha
    refine ⟨i, r, ?_, huse⟩
    rw [hregions, if_neg (Nat.ne_of_lt (hL.mapped i r hr)), hr]
  · rw [hregions] at hr
    split at hr
    · obtain rfl := Option.some.inj hr
      exact hf.2 a ha
    · exact hL.malloced a ha i r hr
  · have := hL.logged i data kind (by simpa using hmem)
    show i < h.mappings + 1
    omega

/-! ### A block is handed out -/

theorem regions_handOut (h : PupHeap) (i : Nat) (r : PupHeapRegion) (size : Nat)
    (kind : PupHeapKind) (mark : Bool) (j : Nat) :
    (h.handOut i r size kind mark).regions j =
      if j = i then some (r.grown size) else h.regions j := by
  simp [PupHeap.handOut, Function.update_apply]

theorem log_handOut (h : PupHeap) (i : Nat) (r : PupHeapRegion) (size : Nat)
    (kind : PupHeapKind) (mark : Bool) :
    (h.handOut i r size kind mark).log =
      h.log ++ [.alloc i (r.allocated + dataOffset) kind] := rfl

/-- Where a region has not been used yet, nothing is. -/
theorem Layout.unused {h : PupHeap} {i : Nat} {r : PupHeapRegion} (hL : Layout h)
    (hr : h.regions i = some r) {a : Nat} (hin : r.Contains a) (hge : r.allocated ≤ a) :
    h.mem.objects a = none ∧ h.mem.attrs a = none := by
  have hother : ¬ ∃ j q, h.regions j = some q ∧ q.InUse a := by
    intro hex
    obtain ⟨j, q, hq, hlo, hhi⟩ := hex
    by_cases hij : i = j
    · subst hij
      obtain rfl := Option.some.inj (hr.symm.trans hq)
      omega
    · obtain ⟨bs, hok, -⟩ := hL.blocks j q hq
      have hfits := hok.fits
      exact (hL.apart i j r q hr hq hij).not_contains hin ⟨hlo, by omega⟩
  constructor
  · by_contra hne
    exact (hL.objects a hne).elim (fun hm => hL.malloced a hm i r hr hin) hother
  · by_contra hne
    exact hother (hL.attrs a hne)

/-- The memory after a block has been handed out. -/
def handedOut (mem : Memory) (r : PupHeapRegion) (size : Nat) (kind : PupHeapKind)
    (mark : Bool) : Memory :=
  gcMarkUnconditionally (makeRoomFor mem r size kind) (r.allocated + dataOffset) mark kind

section HandOut

variable (mem : Memory) (r : PupHeapRegion) (size : Nat) (kind : PupHeapKind) (mark : Bool)
  (a : Nat)

theorem headers_handedOut : (handedOut mem r size kind mark).headers a =
    if a = r.allocated then some ⟨size, kind⟩ else mem.headers a := by
  cases kind <;> exact Function.update_apply ..

theorem objects_handedOut : (handedOut mem r size kind mark).objects a =
    if kind = .obj ∧ a = r.allocated + dataOffset then some ⟨none, none, mark⟩
    else mem.objects a := by
  cases kind <;>
    simp [handedOut, gcMarkUnconditionally, makeRoomFor, Memory.setObject, Memory.setAttr,
      Function.update_apply]

theorem attrs_handedOut : (handedOut mem r size kind mark).attrs a =
    if kind = .attr ∧ a = r.allocated + dataOffset then
      some ⟨0, none, if mark then some 1 else none⟩
    else mem.attrs a := by
  cases kind <;>
    simp [handedOut, gcMarkUnconditionally, makeRoomFor, Memory.setObject, Memory.setAttr,
      Function.update_apply]

end HandOut

theorem RegionOK.handedOut {mem : Memory} {r : PupHeapRegion} {bs : List (Nat × HeapObject)}
    (h : RegionOK mem r bs) {size : Nat} (hroom : haveRoomFor r size = true)
    (kind : PupHeapKind) (mark : Bool) :
    RegionOK (handedOut mem r size kind mark) (r.grown size)
      (bs ++ [(r.allocated, ⟨size, kind⟩)]) := by
  have hsame : Blocks (Heap.handedOut mem r size kind mark) r.region r.allocated bs := by
    refine h.blocks.congr fun a _ hlt => ?_
    rw [headers_handedOut, if_neg (Nat.ne_of_lt hlt)]
  have hlast : (Heap.handedOut mem r size kind mark).headers r.allocated = some ⟨size, kind⟩ := by
    rw [headers_handedOut, if_pos rfl]
  refine ⟨hsame.snoc hlast, of_decide_eq_true hroom, fun p hp hk => ?_⟩
  rw [objects_handedOut]
  split
  · exact ⟨_, rfl⟩
  · rename_i hne
    rcases List.mem_append.mp hp with hp | hp
    · exact h.objects p hp hk
    · obtain rfl : p = (r.allocated, ⟨size, kind⟩) := by simpa using hp
      exact absurd ⟨hk, rfl⟩ hne

/-- A block elsewhere does not concern a region. -/
theorem RegionOK.handedOut_other {mem : Memory} {q r : PupHeapRegion}
    {bs bs' : List (Nat × HeapObject)} (h : RegionOK mem q bs) (hr : RegionOK mem r bs')
    {size : Nat} (hroom : haveRoomFor r size = true) (hapart : Apart r q) (kind : PupHeapKind)
    (mark : Bool) : RegionOK (Heap.handedOut mem r size kind mark) q bs := by
  have hroom' : r.allocated + allocSizeFor size ≤ r.region + REGION_SIZE :=
    of_decide_eq_true hroom
  have hfits := h.fits
  have hle := hr.blocks.length_le
  have hin : r.Contains r.allocated := by
    refine ⟨by omega, ?_⟩
    simp only [allocSizeFor, sizeofHeapObject] at hroom'
    omega
  refine h.congr (fun a hlo hhi => ?_) fun a o _ ho => ?_
  · rw [headers_handedOut, if_neg]
    intro ha
    subst ha
    exact hapart.not_contains hin ⟨hlo, by omega⟩
  · rw [objects_handedOut]
    split
    · exact ⟨_, rfl⟩
    · exact ⟨o, ho⟩

theorem Logged.snoc {log : List Event} {i : Nat} {bs : List (Nat × HeapObject)}
    (h : Logged log i bs) (p : Nat × HeapObject) :
    Logged (log ++ [.alloc i (p.1 + dataOffset) p.2.kind]) i (bs ++ [p]) := by
  intro data kind
  have := h data kind
  simp only [List.mem_append, List.mem_singleton, Event.alloc.injEq, true_and, this, or_and_right,
    exists_or, exists_eq_left]
  exact or_congr_right ⟨fun h => ⟨h.1.symm, h.2.symm⟩, fun h => ⟨h.1.symm, h.2.symm⟩⟩

theorem Logged.of_ne {log : List Event} {i : Nat} {bs : List (Nat × HeapObject)}
    (h : Logged log i bs) {e : Event} (he : ∀ data kind, e ≠ .alloc i data kind) :
    Logged (log ++ [e]) i bs := by
  intro data kind
  rw [← h data kind]
  simp [(he data kind).symm]

theorem Layout.handOut {h : PupHeap} (hL : Layout h) {i : Nat} {r : PupHeapRegion}
    (hr : h.regions i = some r) {size : Nat} (hroom : haveRoomFor r size = true)
    (kind : PupHeapKind) (mark : Bool) : Layout (h.handOut i r size kind mark) := by
  have hregions := regions_handOut h i r size kind mark
  have hmem : (h.handOut i r size kind mark).mem = handedOut h.mem r size kind mark := rfl
  obtain ⟨bs, hok, hlog⟩ := hL.blocks i r hr
  have huse : ∀ a, (∃ j q, h.regions j = some q ∧ q.InUse a) →
      ∃ j q, (h.handOut i r size kind mark).regions j = some q ∧ q.InUse a := by
    intro a hex
    obtain ⟨j, q, hq, hlo, hhi⟩ := hex
    by_cases hij : j = i
    · subst hij
      obtain rfl := Option.some.inj (hr.symm.trans hq)
      refine ⟨j, r.grown size, by rw [hregions, if_pos rfl], hlo, ?_⟩
      simp only [PupHeapRegion.grown]
      omega
    · exact ⟨j, q, by rw [hregions, if_neg hij, hq], hlo, hhi⟩
  have hnew : ∃ j q, (h.handOut i r size kind mark).regions j = some q ∧
      q.InUse (r.allocated + dataOffset) := by
    have hle := hok.blocks.length_le
    refine ⟨i, r.grown size, by rw [hregions, if_pos rfl], ?_, ?_⟩
    · simp only [PupHeapRegion.grown]
      omega
    · simp only [PupHeapRegion.grown, allocSizeFor, sizeofHeapObject, dataOffset]
      omega
  have hbase : ∀ j q, (h.handOut i r size kind mark).regions j = some q →
      ∃ q', h.regions j = some q' ∧ q'.region = q.region := by
    intro j q hq
    rw [hregions] at hq
    split at hq
    · rename_i hij
      obtain rfl := Option.some.inj hq
      exact ⟨r, hij ▸ hr, rfl⟩
    · exact ⟨q, hq, rfl⟩
  refine ⟨fun j q hq => ?_, fun j k q q' hq hq' hjk => ?_, fun j q hq => ?_, fun a ha => ?_,
    fun a ha => ?_, fun a ha j q hq hin => ?_, fun j data kind' hmem' => ?_⟩
  · rw [hregions] at hq
    rw [hmem, log_handOut]
    split at hq
    · rename_i hji
      obtain rfl := Option.some.inj hq
      rw [hji]
      exact ⟨_, hok.handedOut hroom kind mark, hlog.snoc (r.allocated, ⟨size, kind⟩)⟩
    · rename_i hji
      obtain ⟨bs', hok', hlog'⟩ := hL.blocks j q hq
      refine ⟨bs', hok'.handedOut_other hok hroom (hL.apart i j r q hr hq (Ne.symm hji)) kind mark,
        hlog'.of_ne fun data kind' heq => hji ?_⟩
      injection heq with hij
      exact hij.symm
  · obtain ⟨p, hp, hpq⟩ := hbase j q hq
    obtain ⟨p', hp', hpq'⟩ := hbase k q' hq'
    have := hL.apart j k p p' hp hp' hjk
    unfold Apart at *
    rwa [← hpq, ← hpq']
  · obtain ⟨p, hp, -⟩ := hbase j q hq
    exact hL.mapped j p hp
  · rw [hmem, objects_handedOut] at ha
    split at ha
    · rename_i heq
      rw [heq.2]
      exact .inr hnew
    · exact (hL.objects a ha).imp_right (huse a)
  · rw [hmem, attrs_handedOut] at ha
    split at ha
    · rename_i heq
      rw [heq.2]
      exact hnew
    · exact huse a (hL.attrs a ha)
  · obtain ⟨p, hp, hpq⟩ := hbase j q hq
    refine hL.malloced a ha j p hp ?_
    unfold PupHeapRegion.Contains at *
    rwa [hpq]
  · rw [log_handOut] at hmem'
    rcases List.mem_append.mp hmem' with hmem' | hmem'
    · exact hL.logged j data kind' hmem'
    · obtain ⟨rfl, -, -⟩ : j = i ∧ _ ∧ _ := by simpa using hmem'
      exact hL.mapped j r hr

/-! ### A region is unmapped -/

theorem objects_unmap {mem : Memory} {r : PupHeapRegion} {a : Nat}
    (h : (unmap mem r).objects a ≠ none) : ¬ r.Contains a ∧ mem.objects a ≠ none := by
  simp only [unmap] at h
  split at h
  · exact absurd rfl h
  · rename_i hout
    exact ⟨hout, h⟩

theorem attrs_unmap {mem : Memory} {r : PupHeapRegion} {a : Nat}
    (h : (unmap mem r).attrs a ≠ none) : ¬ r.Contains a ∧ mem.attrs a ≠ none := by
  simp only [unmap] at h
  split at h
  · exact absurd rfl h
  · rename_i hout
    exact ⟨hout, h⟩

/-- Region `i` is gone, and the log has grown by `es`, all about this region. -/
structure Unmapped (i : Nat) (r : PupHeapRegion) (es : List Event) (h h' : PupHeap) : Prop where
  mem : h'.mem = unmap h.mem r
  regions : ∀ j, h'.regions j = if j = i then none else h.regions j
  mappings : h'.mappings = h.mappings
  malloced : h'.malloced = h.malloced
  log : h'.log = h.log ++ es
  noAlloc : ∀ e ∈ es, ∀ j data kind, e ≠ .alloc j data kind

theorem Layout.unmapped {h h' : PupHeap} (hL : Layout h) {i : Nat} {r : PupHeapRegion}
    (es : List Event) (hr : h.regions i = some r) (hu : Unmapped i r es h h') : Layout h' := by
  have hback : ∀ j q, h'.regions j = some q → j ≠ i ∧ h.regions j = some q := by
    intro j q hq
    rw [hu.regions] at hq
    split at hq
    · cases hq
    · rename_i hji
      exact ⟨hji, hq⟩
  have hlog : ∀ j data kind, .alloc j data kind ∈ h'.log ↔ .alloc j data kind ∈ h.log := by
    intro j data kind
    rw [hu.log, List.mem_append, or_iff_left]
    exact fun hmem => hu.noAlloc _ hmem j data kind rfl
  have huse : ∀ a, ¬ r.Contains a → (∃ j q, h.regions j = some q ∧ q.InUse a) →
      ∃ j q, h'.regions j = some q ∧ q.InUse a := by
    intro a hout hex
    obtain ⟨j, q, hq, huse⟩ := hex
    refine ⟨j, q, ?_, huse⟩
    rw [hu.regions, if_neg, hq]
    intro hji
    subst hji
    obtain rfl := Option.some.inj (hr.symm.trans hq)
    obtain ⟨bs, hok, -⟩ := hL.blocks j r hr
    have hfits := hok.fits
    exact hout ⟨huse.1, by have := huse.2; omega⟩
  refine ⟨fun j q hq => ?_, fun j k q q' hq hq' hjk => ?_, fun j q hq => ?_, fun a ha => ?_,
    fun a ha => ?_, fun a ha j q hq => ?_, fun j data kind hmem => ?_⟩
  · obtain ⟨hji, hq⟩ := hback j q hq
    obtain ⟨bs, hok, hlogged⟩ := hL.blocks j q hq
    rw [hu.mem]
    refine ⟨bs, hok.unmap (hL.apart j i q r hq hr hji), fun data kind => ?_⟩
    rw [hlog, hlogged]
  · exact hL.apart j k q q' (hback j q hq).2 (hback k q' hq').2 hjk
  · rw [hu.mappings]
    exact hL.mapped j q (hback j q hq).2
  · rw [hu.mem] at ha
    obtain ⟨hout, ha⟩ := objects_unmap ha
    rw [hu.malloced]
    exact (hL.objects a ha).imp_right (huse a hout)
  · rw [hu.mem] at ha
    obtain ⟨hout, ha⟩ := attrs_unmap ha
    exact huse a hout (hL.attrs a ha)
  · rw [hu.malloced] at ha
    exact hL.malloced a ha j q (hback j q hq).2
  · rw [hu.mappings]
    exact hL.logged j data kind ((hlog j data kind).mp hmem)

end Pup.Heap
