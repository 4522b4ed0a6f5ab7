/-
What becomes of blocks and regions in the end.

`pup_heap_destroy` frees the regions on the global list and the calling thread's own, and
`free_region` destroys the objects in a region before it unmaps it.  The collector resets
a region before it frees it, "so that no object freeing will occur".  So there are two
ways for a region to die, and `pupHeapDestroy_accounts` says what either does, over a
whole run.
-/
import Pup.Heap.Sound

namespace Pup.Heap

open Pup.Gc Transition Outcome

/-! ### Freeing one region -/

/-- What `destroy_region_objects` adds to the log. -/
def destroyed (i : Nat) (bs : List (Nat × HeapObject)) : List Event :=
  (bs.filter fun p => p.2.kind = .obj).map fun p => .destroy i (p.1 + dataOffset)

theorem destroyed_cons (i : Nat) (p : Nat × HeapObject) (bs : List (Nat × HeapObject)) :
    destroyed i (p :: bs) =
      (if p.2.kind = .obj then [.destroy i (p.1 + dataOffset)] else []) ++ destroyed i bs := by
  unfold destroyed
  by_cases hk : p.2.kind = .obj <;> simp [hk]

theorem destroyHeapObject_ok {mem : Memory} {i : Nat} {log log' : List Event}
    {p : Nat × HeapObject} (h : destroyHeapObject mem i log p = .ok log') :
    log' = log ++ if p.2.kind = .obj then [.destroy i (p.1 + dataOffset)] else [] := by
  unfold destroyHeapObject at h
  cases hk : p.2.kind with
  | obj =>
      simp only [hk] at h
      obtain ⟨o, -, h⟩ := bind_ok h
      obtain ⟨type, -, h⟩ := bind_ok h
      simpa using (Except.ok.inj h).symm
  | attr =>
      simp only [hk] at h
      simpa using (Except.ok.inj h).symm

theorem destroyObjects_ok {mem : Memory} {i : Nat} (bs : List (Nat × HeapObject))
    {log log' : List Event} (h : bs.foldlM (destroyHeapObject mem i) log = .ok log') :
    log' = log ++ destroyed i bs := by
  induction bs generalizing log with
  | nil =>
      cases h
      simp [destroyed]
  | cons p rest ih =>
      rw [List.foldlM_cons] at h
      obtain ⟨log₁, hp, h⟩ := bind_ok h
      rw [ih h, destroyHeapObject_ok hp, destroyed_cons, List.append_assoc]

/-- What `free_region` adds to the log. -/
def obituary (i : Nat) (bs : List (Nat × HeapObject)) : List Event :=
  destroyed i bs ++ [.munmap i]

theorem mem_obituary {i : Nat} {bs : List (Nat × HeapObject)} {e : Event}
    (h : e ∈ obituary i bs) : e = .munmap i ∨ ∃ data, e = .destroy i data := by
  rcases List.mem_append.mp h with h | h
  · obtain ⟨p, -, rfl⟩ := List.mem_map.mp h
    exact .inr ⟨_, rfl⟩
  · exact .inl (List.mem_singleton.mp h)

theorem freeRegion_unmaps {h h' : PupHeap} (hL : Layout h) {i : Nat}
    (hf : freeRegion h i = .ok h') :
    ∃ r bs, h.regions i = some r ∧ RegionOK h.mem r bs ∧ Logged h.log i bs ∧
      Unmapped i r (obituary i bs) h h' ∧ h'.threads = h.threads := by
  obtain ⟨r, log, hr, hwalk, rfl⟩ := freeRegion_ok hf
  obtain ⟨bs, hok, hlogged⟩ := hL.blocks i r hr
  rw [walkRegion_eq hok.blocks] at hwalk
  refine ⟨r, bs, hr, hok, hlogged, ⟨rfl, fun j => ?_, rfl, rfl, ?_, ?_⟩, rfl⟩
  · simp [freed, Function.update_apply]
  · show log ++ [.munmap i] = _
    rw [destroyObjects_ok bs hwalk, obituary, List.append_assoc]
  · intro e he j data kind heq
    subst heq
    rcases mem_obituary he with h | ⟨data', h⟩ <;> cases h

theorem Logged.unmapped {h h' : PupHeap} {i j : Nat} {r : PupHeapRegion} {es : List Event}
    (hu : Unmapped i r es h h') {bs : List (Nat × HeapObject)} :
    Logged h'.log j bs ↔ Logged h.log j bs := by
  unfold Logged
  refine forall₂_congr fun data kind => iff_congr ?_ .rfl
  rw [hu.log, List.mem_append, or_iff_left]
  exact fun hmem => hu.noAlloc _ hmem j data kind rfl

/-! ### Freeing several -/

/-- A log grows by the obituaries of the regions freed, one after the other. -/
theorem freeRegions_log (ids : List Nat) {h h' : PupHeap} (hL : Layout h) (hnodup : ids.Nodup)
    (hf : ids.foldlM freeRegion h = .ok h') :
    ∃ blocks : Nat → List (Nat × HeapObject),
      (∀ i ∈ ids, Logged h.log i (blocks i) ∧ ((blocks i).map Prod.fst).Nodup) ∧
        h'.log = h.log ++ ids.flatMap fun i => obituary i (blocks i) := by
  induction ids generalizing h with
  | nil =>
      cases hf
      exact ⟨fun _ => [], by simp⟩
  | cons i rest ih =>
      rw [List.foldlM_cons] at hf
      obtain ⟨h₁, hfree, hf⟩ := bind_ok hf
      obtain ⟨r, bs, hr, hok, hlogged, hu, -⟩ := freeRegion_unmaps hL hfree
      obtain ⟨hi, hrest⟩ := List.nodup_cons.mp hnodup
      obtain ⟨blocks, hblocks, hlog⟩ := ih (hL.unmapped _ hr hu) hrest hf
      have hother : ∀ j ∈ rest, Function.update blocks i bs j = blocks j := by
        intro j hj
        refine Function.update_of_ne ?_ _ _
        intro heq
        exact hi (heq ▸ hj)
      refine ⟨Function.update blocks i bs, fun j hj => ?_, ?_⟩
      · rcases List.mem_cons.mp hj with rfl | hj
        · rw [Function.update_self]
          exact ⟨hlogged, hok.blocks.nodup⟩
        · rw [hother j hj]
          obtain ⟨hlog', hnd⟩ := hblocks j hj
          exact ⟨(Logged.unmapped hu).mp hlog', hnd⟩
      · rw [hlog, hu.log, List.flatMap_cons, Function.update_self, List.append_assoc]
        refine congrArg (fun es => h.log ++ (obituary i bs ++ es))
          (List.flatMap_congr fun j hj => ?_)
        rw [hother j hj]

/-- The regions `pup_heap_destroy` frees when thread `t` calls it. -/
def tornDown (h : PupHeap) (t : Tid) : List Nat :=
  h.region_list ++ ((h.threads t).map PupThreadInfo.local_region).toList

theorem freeRegions_threads (ids : List Nat) {h h' : PupHeap}
    (hf : ids.foldlM freeRegion h = .ok h') : h'.threads = h.threads := by
  induction ids generalizing h with
  | nil =>
      cases hf
      rfl
  | cons i rest ih =>
      rw [List.foldlM_cons] at hf
      obtain ⟨h₁, hfree, hf⟩ := bind_ok hf
      obtain ⟨r, log, -, -, rfl⟩ := freeRegion_ok hfree
      have hrest := ih hf
      exact hrest

theorem pupHeapDestroy_ok {h h' : PupHeap} {t : Tid} (hd : pupHeapDestroy h t = .ok h') :
    (tornDown h t).foldlM freeRegion h = .ok h' := by
  obtain ⟨h₁, hglobal, hd⟩ := bind_ok hd
  obtain ⟨tinfo, ht, hd⟩ := bind_ok hd
  have ht' : h.threads t = some tinfo := by
    rw [← freeRegions_threads _ hglobal]
    exact deref_ok ht
  have hglobal' : h.region_list.foldlM freeRegion h = .ok h₁ := hglobal
  rw [tornDown, ht', List.foldlM_append, hglobal']
  show ([tinfo.local_region].foldlM freeRegion h₁) = _
  rw [List.foldlM_cons, hd]
  rfl

theorem tornDown_nodup {h : PupHeap} (hp : Places h) (t : Tid) : (tornDown h t).Nodup := by
  unfold tornDown
  cases ht : h.threads t with
  | none => simpa using hp.nodup
  | some tinfo =>
      have := hp.local_unlisted t tinfo ht
      simp only [Option.map_some, Option.toList_some]
      rw [List.nodup_append]
      refine ⟨hp.nodup, List.nodup_singleton _, fun i hi j hj heq => ?_⟩
      rw [List.mem_singleton.mp hj] at heq
      exact this (heq ▸ hi)

/-! ### The books -/

/-- The region has been unmapped exactly once. -/
def UnmappedOnce (log : List Event) (i : Nat) : Prop := log.count (.munmap i) = 1

/-- The object at `data` has been destroyed exactly once, and before its region was unmapped. -/
def DestroyedBeforeUnmap (log : List Event) (i data : Nat) : Prop :=
  ∃ before after, log = before ++ .munmap i :: after ∧ before.count (.destroy i data) = 1 ∧
    .destroy i data ∉ after

theorem count_destroyed {i : Nat} {bs : List (Nat × HeapObject)}
    (hnodup : (bs.map Prod.fst).Nodup) {p : Nat × HeapObject} (hp : p ∈ bs)
    (hk : p.2.kind = .obj) : (destroyed i bs).count (.destroy i (p.1 + dataOffset)) = 1 := by
  have hmem : .destroy i (p.1 + dataOffset) ∈ destroyed i bs :=
    List.mem_map.mpr ⟨p, List.mem_filter.mpr ⟨hp, by simpa using hk⟩, rfl⟩
  refine List.count_eq_one_of_mem ?_ hmem
  refine List.Nodup.map_on ?_ ((List.Nodup.of_map _ hnodup).filter _)
  intro q hq q' hq' heq
  have hfst : q.1 = q'.1 := by
    have := (Event.destroy.inj heq).2
    omega
  exact List.inj_on_of_nodup_map hnodup (List.mem_of_mem_filter hq) (List.mem_of_mem_filter hq')
    hfst

/-- The obituaries of other regions do not mention region `i`. -/
theorem others_silent {ids : List Nat} {i : Nat} (hi : i ∉ ids)
    (blocks : Nat → List (Nat × HeapObject)) :
    (.munmap i ∉ ids.flatMap fun j => obituary j (blocks j)) ∧
      ∀ data, .destroy i data ∉ ids.flatMap fun j => obituary j (blocks j) := by
  constructor
  · intro hmem
    obtain ⟨j, hj, he⟩ := List.mem_flatMap.mp hmem
    rcases mem_obituary he with h | ⟨data', h⟩
    · injection h with h
      exact hi (h ▸ hj)
    · cases h
  · intro data hmem
    obtain ⟨j, hj, he⟩ := List.mem_flatMap.mp hmem
    rcases mem_obituary he with h | ⟨data', h⟩
    · cases h
    · injection h with h
      exact hi (h ▸ hj)

theorem mapped_of_tornDown {h : PupHeap} (hp : Places h) {t : Tid} {i : Nat}
    (hi : i ∈ tornDown h t) : ∃ r, h.regions i = some r := by
  rcases List.mem_append.mp hi with hi | hi
  · exact hp.listed_mapped i hi
  · obtain ⟨tinfo, ht, rfl⟩ : ∃ tinfo, h.threads t = some tinfo ∧ tinfo.local_region = i := by
      simpa using hi
    exact hp.local_mapped t tinfo ht

/-- How the log ends when region `i` is among those torn down. -/
theorem accounts_tornDown {log : List Event} {ids : List Nat} (hnodup : ids.Nodup) {i : Nat}
    (hi : i ∈ ids) {blocks : Nat → List (Nat × HeapObject)} (hlogged : Logged log i (blocks i))
    (hblocks : ((blocks i).map Prod.fst).Nodup) (hmunmap : .munmap i ∉ log)
    (hdestroy : ∀ data, .destroy i data ∉ log) :
    UnmappedOnce (log ++ ids.flatMap fun j => obituary j (blocks j)) i ∧
      ∀ data, .alloc i data .obj ∈ log →
        DestroyedBeforeUnmap (log ++ ids.flatMap fun j => obituary j (blocks j)) i data := by
  obtain ⟨l₁, l₂, rfl⟩ := List.append_of_mem hi
  obtain ⟨-, hnodup₂, hdisjoint⟩ := List.nodup_append.mp hnodup
  have hi₁ : i ∉ l₁ := fun hmem => hdisjoint i hmem i List.mem_cons_self rfl
  have hi₂ : i ∉ l₂ := (List.nodup_cons.mp hnodup₂).1
  obtain ⟨hmunmap₁, hdestroy₁⟩ := others_silent hi₁ blocks
  obtain ⟨hmunmap₂, hdestroy₂⟩ := others_silent hi₂ blocks
  have hself : .munmap i ∉ destroyed i (blocks i) := by
    intro hmem
    obtain ⟨p, -, hp⟩ := List.mem_map.mp hmem
    cases hp
  have hsplit : log ++ (l₁ ++ i :: l₂).flatMap (fun j => obituary j (blocks j)) =
      (log ++ l₁.flatMap (fun j => obituary j (blocks j)) ++ destroyed i (blocks i)) ++
        .munmap i :: l₂.flatMap fun j => obituary j (blocks j) := by
    simp [obituary, List.flatMap_append]
  rw [hsplit]
  refine ⟨?_, fun data hmem => ⟨_, _, rfl, ?_, hdestroy₂ data⟩⟩
  · unfold UnmappedOnce
    rw [List.count_append, List.count_append, List.count_append, List.count_cons_self,
      List.count_eq_zero.mpr hmunmap, List.count_eq_zero.mpr hmunmap₁,
      List.count_eq_zero.mpr hmunmap₂, List.count_eq_zero.mpr hself]
  · obtain ⟨p, hp, rfl, hk⟩ := (hlogged data .obj).mp hmem
    rw [List.count_append, List.count_append, List.count_eq_zero.mpr (hdestroy _),
      List.count_eq_zero.mpr (hdestroy₁ _), count_destroyed hblocks hp hk]

/--
**The books of a run ended by `pup_heap_destroy`.**  Every region that was on the global
list then, or the calling thread's own, is unmapped exactly once, and every object block
handed out from it is destroyed exactly once before.  Every region that a collection had
unmapped is unmapped exactly once, and nothing in it is ever destroyed.
-/
theorem pupHeapDestroy_accounts {h h' : PupHeap} (hr : Reachable heapMachine h) {t : Tid}
    (hd : pupHeapDestroy h t = .ok h') (i : Nat) :
    (i ∈ tornDown h t → UnmappedOnce h'.log i ∧
      ∀ data, .alloc i data .obj ∈ h'.log → DestroyedBeforeUnmap h'.log i data) ∧
    (.munmap i ∈ h.log → UnmappedOnce h'.log i ∧ ∀ data, .destroy i data ∉ h'.log) := by
  have hs := Sound.reachable hr
  have hnodup := tornDown_nodup hs.places t
  obtain ⟨blocks, hblocks, hlog⟩ := freeRegions_log _ hs.layout hnodup (pupHeapDestroy_ok hd)
  have halloc : ∀ data kind, .alloc i data kind ∈ h'.log → .alloc i data kind ∈ h.log := by
    intro data kind hmem
    rw [hlog] at hmem
    refine (List.mem_append.mp hmem).resolve_right fun hmem => ?_
    obtain ⟨j, -, he⟩ := List.mem_flatMap.mp hmem
    rcases mem_obituary he with h | ⟨data', h⟩ <;> cases h
  constructor
  · intro hi
    obtain ⟨r, hri⟩ := mapped_of_tornDown hs.places hi
    obtain ⟨hlogged, hnd⟩ := hblocks i hi
    obtain ⟨honce, hall⟩ := accounts_tornDown hnodup hi hlogged hnd (hs.history.live i r hri)
      (hs.history.undestroyed i)
    rw [hlog] at halloc ⊢
    exact ⟨honce, fun data hmem => hall data (halloc data .obj hmem)⟩
  · intro hi
    have hnone : h.regions i = none := by
      by_contra hne
      obtain ⟨r, hri⟩ := Option.ne_none_iff_exists'.mp hne
      exact hs.history.live i r hri hi
    have hnot : i ∉ tornDown h t := by
      intro hmem
      obtain ⟨r, hri⟩ := mapped_of_tornDown hs.places hmem
      rw [hnone] at hri
      cases hri
    obtain ⟨hmunmap, hdestroy⟩ := others_silent hnot blocks
    rw [hlog]
    refine ⟨?_, fun data hmem => ?_⟩
    · unfold UnmappedOnce
      rw [List.count_append, hs.history.unmapped i (hs.history.future i hi) hnone,
        List.count_eq_zero.mpr hmunmap]
    · rcases List.mem_append.mp hmem with hmem | hmem
      · exact hs.history.undestroyed i data hmem
      · exact hdestroy data hmem

/-- A thread fills a region with instances of a class that is in it, gets another region for
one more object, and the first region is collected. -/
def collectedRun : List Label :=
  .threadInit 0 0x1000 false ::
    List.replicate 255 (.newObject 0 0x1000 (some (0x1000 + dataOffset)) 0) ++
    [.newObject 0 0x1000 (some (0x200000 + dataOffset)) 0x200000, .setFrames 0 [],
      .periodStart, .handler 0, .safepoint 0, .stealSegment, .collectRegion, .collectRegion]

/-- Where `collectedRun` leads, and the log after the heap has been destroyed. -/
theorem collectedRun_ends :
    ∃ h h', Reachable heapMachine h ∧ pupHeapDestroy h 0 = .ok h' ∧
      (1 ∈ tornDown h 0 ∧ .munmap 0 ∈ h.log) ∧
      .alloc 0 (0x1000 + dataOffset) .obj ∈ h'.log ∧
      .alloc 1 (0x200000 + dataOffset) .obj ∈ h'.log ∧
      .destroy 0 (0x1000 + dataOffset) ∉ h'.log := by
  have hrun : ((heapMachine.run (pupHeapInit 0) collectedRun).any fun h =>
      decide (1 ∈ tornDown h 0 ∧ .munmap 0 ∈ h.log) && (pupHeapDestroy h 0).toOption.any fun h' =>
        decide (.alloc 0 (0x1000 + dataOffset) .obj ∈ h'.log ∧
          .alloc 1 (0x200000 + dataOffset) .obj ∈ h'.log ∧
          .destroy 0 (0x1000 + dataOffset) ∉ h'.log)) = true := by decide +kernel
  obtain ⟨h, hlabels, hh⟩ := (Option.any_eq_true _ _).mp hrun
  obtain ⟨hwhere, hd⟩ := (Bool.and_eq_true _ _).mp hh
  obtain ⟨h', hd, hlog⟩ := (Option.any_eq_true _ _).mp hd
  exact ⟨h, h', reachable_of_run ⟨0, rfl⟩ _ hlabels, toOption_eq_some hd,
    of_decide_eq_true hwhere, of_decide_eq_true hlog⟩

theorem pupHeapDestroy_accounts_collected :
    ∃ h h', Reachable heapMachine h ∧ pupHeapDestroy h 0 = .ok h' ∧
      (UnmappedOnce h'.log 1 ∧ DestroyedBeforeUnmap h'.log 1 (0x200000 + dataOffset)) ∧
      UnmappedOnce h'.log 0 ∧ ∀ data, .destroy 0 data ∉ h'.log := by
  obtain ⟨h, h', hr, hd, ⟨hlocal, hcollected⟩, -, halloc, -⟩ := collectedRun_ends
  obtain ⟨honce, hall⟩ := (pupHeapDestroy_accounts hr hd 1).1 hlocal
  exact ⟨h, h', hr, hd, ⟨honce, hall _ halloc⟩, (pupHeapDestroy_accounts hr hd 0).2 hcollected⟩

/-- The objects of a region that has been collected are never destroyed. -/
theorem collected_not_destroyed :
    ¬ ∀ h, Reachable heapMachine h → ∀ t h', pupHeapDestroy h t = .ok h' →
      (∀ i data, .alloc i data .obj ∈ h'.log → DestroyedBeforeUnmap h'.log i data) ∧
        ∀ i, .mmap i ∈ h'.log → UnmappedOnce h'.log i := by
  intro hall
  obtain ⟨h, h', hr, hd, -, halloc, -, hnot⟩ := collectedRun_ends
  obtain ⟨before, after, heq, hcount, -⟩ := (hall h hr 0 h' hd).1 0 _ halloc
  refine hnot ?_
  rw [heq]
  exact List.mem_append_left _ (List.count_pos_iff.mp (by omega))

end Pup.Heap
