/-
What holds of a heap in every run.

Three invariants are kept together, since each needs the others.  `Layout` says that every
region is tiled by blocks and that regions lie apart.  `Places` says where the regions are
found: a thread has one of its own, and the others are on the global list, each once.  Without
it a region that is freed might still be some thread's, and the next block would be handed out
in memory that is not mapped.  `History` ties the log to this: a region is unmapped once, at the
moment it leaves `regions`, and a number is not used again, as `mappings` only grows.

There are many steps and few of them do anything to regions.  A step is `Quiet` if it rewrites
memory in place and leaves the regions where they were, and a quiet step keeps all three
(`Sound.quiet`).  What remains is done by hand: a region is mapped for a new thread or for a
thread whose region is full (`rollOver`), a block is handed out (`handOut`), and the collection
frees the regions on the list.
-/
import Pup.Gc.Mark
import Pup.Heap.Layout

namespace Pup.Heap

open Pup.Gc Transition Outcome
open Pup.Regions (REGION_SIZE)

/-- Which regions the threads and the global list have. -/
structure Places (h : PupHeap) : Prop where
  local_mapped : ∀ t info, h.threads t = some info → ∃ r, h.regions info.local_region = some r
  listed_mapped : ∀ i ∈ h.region_list, ∃ r, h.regions i = some r
  local_injective : ∀ t u info info', h.threads t = some info → h.threads u = some info' →
    info.local_region = info'.local_region → t = u
  local_unlisted : ∀ t info, h.threads t = some info → info.local_region ∉ h.region_list
  nodup : h.region_list.Nodup
  head : ∀ t, h.thread_list = some t → ∃ info, h.threads t = some info

/-- What the log says of the regions. -/
structure History (h : PupHeap) : Prop where
  /-- `pup_heap_destroy` alone calls `destroy_instance` -/
  undestroyed : ∀ i data, .destroy i data ∉ h.log
  live : ∀ i r, h.regions i = some r → .munmap i ∉ h.log
  unmapped : ∀ i < h.mappings, h.regions i = none → h.log.count (.munmap i) = 1
  future : ∀ i, .munmap i ∈ h.log → i < h.mappings

/-! ### All three invariants -/

structure Sound (h : PupHeap) : Prop where
  layout : Layout h
  places : Places h
  history : History h

/-- Memory is rewritten in place, and the regions are where they were. -/
structure Quiet (h h' : PupHeap) : Prop where
  mem : SameShape h.mem h'.mem
  regions : h'.regions = h.regions
  mappings : h'.mappings = h.mappings
  malloced : h'.malloced = h.malloced
  log : h'.log = h.log
  region_list : h'.region_list = h.region_list
  thread_list : h'.thread_list = h.thread_list
  locals : ∀ t, (h'.threads t).map PupThreadInfo.local_region =
    (h.threads t).map PupThreadInfo.local_region

theorem Quiet.trans {h h₁ h' : PupHeap} (hq : Quiet h h₁) (hq' : Quiet h₁ h') : Quiet h h' := by
  refine ⟨⟨hq'.mem.headers.trans hq.mem.headers, fun a => (hq'.mem.objects a).trans (hq.mem.objects a),
    fun a => (hq'.mem.attrs a).trans (hq.mem.attrs a)⟩, hq'.regions.trans hq.regions,
    hq'.mappings.trans hq.mappings, hq'.malloced.trans hq.malloced, hq'.log.trans hq.log,
    hq'.region_list.trans hq.region_list, hq'.thread_list.trans hq.thread_list,
    fun t => (hq'.locals t).trans (hq.locals t)⟩

theorem Quiet.setMem {h : PupHeap} {mem : Memory} (hs : SameShape h.mem mem) :
    Quiet h (h.setMem mem) := ⟨hs, rfl, rfl, rfl, rfl, rfl, rfl, fun _ => rfl⟩

/-- A thread's record changes, but not its region. -/
theorem Quiet.setThread {h : PupHeap} {t : Tid} {info info' : PupThreadInfo}
    (ht : h.threads t = some info) (hlocal : info'.local_region = info.local_region) :
    Quiet h (h.setThread t info') := by
  refine ⟨.refl _, rfl, rfl, rfl, rfl, rfl, rfl, fun u => ?_⟩
  by_cases hu : u = t
  · subst hu
    simp [ht, hlocal]
  · simp [hu]

theorem Sound.quiet {h h' : PupHeap} (hs : Sound h) (hq : Quiet h h') : Sound h' := by
  have hthread : ∀ t info, h'.threads t = some info →
      ∃ info', h.threads t = some info' ∧ info'.local_region = info.local_region := by
    intro t info ht
    have := hq.locals t
    rw [ht, Option.map_some, eq_comm, Option.map_eq_some_iff] at this
    exact this
  refine ⟨?_, ⟨fun t info ht => ?_, fun i hi => ?_, fun t u info info' ht hu hlocal => ?_,
    fun t info ht => ?_, ?_, fun t ht => ?_⟩, ⟨?_, ?_, ?_, ?_⟩⟩
  · exact (hs.layout.setMem hq.mem).congr rfl hq.regions hq.mappings hq.malloced hq.log
  · obtain ⟨info', ht', hlocal⟩ := hthread t info ht
    rw [hq.regions, ← hlocal]
    exact hs.places.local_mapped t info' ht'
  · rw [hq.regions]
    exact hs.places.listed_mapped i (hq.region_list ▸ hi)
  · obtain ⟨i, hi, hli⟩ := hthread t info ht
    obtain ⟨j, hj, hlj⟩ := hthread u info' hu
    exact hs.places.local_injective t u i j hi hj (by rw [hli, hlj, hlocal])
  · obtain ⟨info', ht', hlocal⟩ := hthread t info ht
    rw [hq.region_list, ← hlocal]
    exact hs.places.local_unlisted t info' ht'
  · rw [hq.region_list]
    exact hs.places.nodup
  · obtain ⟨info, hinfo⟩ := hs.places.head t (hq.thread_list ▸ ht)
    have := hq.locals t
    rw [hinfo, Option.map_some, Option.map_eq_some_iff] at this
    obtain ⟨info', hinfo', -⟩ := this
    exact ⟨info', hinfo'⟩
  · rw [hq.log]
    exact hs.history.undestroyed
  · rw [hq.log, hq.regions]
    exact hs.history.live
  · rw [hq.log, hq.regions, hq.mappings]
    exact hs.history.unmapped
  · rw [hq.log, hq.mappings]
    exact hs.history.future

/-- The log grows by an event that neither destroys nor unmaps. -/
theorem History.record {h h' : PupHeap} (hH : History h) {e : Event} (hlog : h'.log = h.log ++ [e])
    (hdestroy : ∀ i data, e ≠ .destroy i data) (hmunmap : ∀ i, e ≠ .munmap i)
    (hmappings : h.mappings ≤ h'.mappings)
    (hlive : ∀ i r, h'.regions i = some r → (∃ q, h.regions i = some q) ∨ h.mappings ≤ i)
    (hdead : ∀ i < h'.mappings, h'.regions i = none → i < h.mappings ∧ h.regions i = none) :
    History h' := by
  have hmem : ∀ i, .munmap i ∈ h'.log → .munmap i ∈ h.log := by
    intro i hi
    rw [hlog] at hi
    simpa [(hmunmap i).symm] using hi
  refine ⟨fun i data hi => ?_, fun i r hr hi => ?_, fun i hi hr => ?_, fun i hi => ?_⟩
  · rw [hlog] at hi
    exact hH.undestroyed i data (by simpa [(hdestroy i data).symm] using hi)
  · rcases hlive i r hr with ⟨q, hq⟩ | hge
    · exact hH.live i q hq (hmem i hi)
    · exact absurd (hH.future i (hmem i hi)) (by omega)
  · obtain ⟨hlt, hnone⟩ := hdead i hi hr
    rw [hlog, List.count_append, hH.unmapped i hlt hnone,
      List.count_eq_zero.mpr (by simpa using (hmunmap i).symm)]
  · exact (hH.future i (hmem i hi)).trans_le hmappings

/-- A thread gets a new region, and the one it had, if any, goes on the list. -/
theorem Sound.newRegion {h h' : PupHeap} (hs : Sound h) {t : Tid} {base : Nat} (hf : Free h base)
    (info : PupThreadInfo) (hinfo : info.local_region = h.mappings)
    (hmem : h'.mem = h.mem) (hregions : h'.regions = (regionAllocate h base).regions)
    (hmappings : h'.mappings = h.mappings + 1) (hmalloced : h'.malloced = h.malloced)
    (hlog : h'.log = h.log ++ [.mmap h.mappings])
    (hthreads : ∀ u, h'.threads u = if u = t then some info else h.threads u)
    (hlist : (h.threads t = none ∧ h'.region_list = h.region_list) ∨
      ∃ tinfo, h.threads t = some tinfo ∧ h'.region_list = tinfo.local_region :: h.region_list)
    (hhead : ∀ u, h'.thread_list = some u → h.thread_list = some u ∨ u = t) : Sound h' := by
  have hget : ∀ i, h'.regions i =
      if i = h.mappings then some (freshRegion base) else h.regions i := by
    intro i
    rw [hregions, regions_regionAllocate]
  have hnew : h.regions h.mappings = none := by
    by_contra hne
    obtain ⟨r, hr⟩ := Option.ne_none_iff_exists'.mp hne
    exact absurd (hs.layout.mapped _ r hr) (by omega)
  have hkeep : ∀ i r, h.regions i = some r → h'.regions i = some r ∧ i ≠ h.mappings := by
    intro i r hr
    have hi : i ≠ h.mappings := Nat.ne_of_lt (hs.layout.mapped i r hr)
    rw [hget, if_neg hi]
    exact ⟨hr, hi⟩
  -- what is on the list now was on it before, or was the thread's region
  have hlisted : ∀ i ∈ h'.region_list, i ∈ h.region_list ∨
      ∃ tinfo, h.threads t = some tinfo ∧ tinfo.local_region = i := by
    intro i hi
    rcases hlist with ⟨-, heq⟩ | ⟨tinfo, ht, heq⟩
    · exact .inl (heq ▸ hi)
    · rw [heq] at hi
      exact (List.mem_cons.mp hi).symm.imp_right fun heq => ⟨tinfo, ht, heq.symm⟩
  have hlistedMapped : ∀ i ∈ h'.region_list, ∃ r, h.regions i = some r := by
    intro i hi
    rcases hlisted i hi with hi | ⟨tinfo, ht, rfl⟩
    · exact hs.places.listed_mapped i hi
    · exact hs.places.local_mapped t tinfo ht
  refine ⟨(hs.layout.regionAllocate hf).congr hmem hregions hmappings hmalloced hlog,
    ⟨fun u i hu => ?_, fun i hi => ?_, fun u v i j hu hv hij => ?_, fun u i hu => ?_, ?_,
      fun u hu => ?_⟩, ?_⟩
  · rw [hthreads] at hu
    split at hu
    · obtain rfl := Option.some.inj hu
      exact ⟨freshRegion base, by rw [hget, if_pos hinfo]⟩
    · obtain ⟨r, hr⟩ := hs.places.local_mapped u i hu
      exact ⟨r, (hkeep _ r hr).1⟩
  · obtain ⟨r, hr⟩ := hlistedMapped i hi
    exact ⟨r, (hkeep i r hr).1⟩
  · have hother : ∀ w k, h.threads w = some k → k.local_region ≠ h.mappings := by
      intro w k hw
      obtain ⟨r, hr⟩ := hs.places.local_mapped w k hw
      exact (hkeep _ r hr).2
    rw [hthreads] at hu hv
    split at hu
    · rename_i hut
      obtain rfl := Option.some.inj hu
      split at hv
      · rename_i hvt
        rw [hut, hvt]
      · exact absurd (hij.symm.trans hinfo) (hother v j hv)
    · split at hv
      · obtain rfl := Option.some.inj hv
        exact absurd (hij.trans hinfo) (hother u i hu)
      · exact hs.places.local_injective u v i j hu hv hij
  · intro hi
    rw [hthreads] at hu
    split at hu
    · obtain rfl := Option.some.inj hu
      obtain ⟨r, hr⟩ := hlistedMapped _ hi
      exact (hkeep _ r hr).2 hinfo
    · rename_i hut
      rcases hlisted _ hi with hi | ⟨tinfo, ht, heq⟩
      · exact hs.places.local_unlisted u i hu hi
      · exact hut (hs.places.local_injective u t i tinfo hu ht heq.symm)
  · rcases hlist with ⟨-, heq⟩ | ⟨tinfo, ht, heq⟩
    · rw [heq]
      exact hs.places.nodup
    · rw [heq]
      exact List.nodup_cons.mpr ⟨hs.places.local_unlisted t tinfo ht, hs.places.nodup⟩
  · rw [hthreads]
    split
    · exact ⟨info, rfl⟩
    · rename_i hut
      exact hs.places.head u ((hhead u hu).resolve_right hut)
  · refine hs.history.record hlog (by simp) (by simp) (by omega) (fun i r hr => ?_)
      fun i hi hr => ?_
    · rw [hget] at hr
      split at hr
      · exact .inr (by omega)
      · exact .inl ⟨r, hr⟩
    · rw [hget] at hr
      split at hr
      · cases hr
      · rename_i hne
        exact ⟨by omega, hr⟩

theorem Sound.rollOver {h : PupHeap} (hs : Sound h) {t : Tid} {base : Nat} (hf : Free h base)
    {tinfo : PupThreadInfo} (ht : h.threads t = some tinfo) :
    Sound (rollOver h t tinfo base) := by
  refine hs.newRegion (t := t) hf { tinfo with local_region := h.mappings } rfl rfl rfl
    rfl rfl rfl (fun u => ?_) (.inr ⟨tinfo, ht, rfl⟩) fun u hu => .inl hu
  exact Function.update_apply ..

theorem Sound.handOut {h : PupHeap} (hs : Sound h) {i : Nat} {r : PupHeapRegion}
    (hr : h.regions i = some r) {size : Nat} (hroom : haveRoomFor r size = true)
    (kind : PupHeapKind) (mark : Bool) : Sound (h.handOut i r size kind mark) := by
  have hregions := regions_handOut h i r size kind mark
  have hkeep : ∀ j, (∃ q, h.regions j = some q) →
      ∃ q, (h.handOut i r size kind mark).regions j = some q := by
    intro j hex
    obtain ⟨q, hq⟩ := hex
    rw [hregions]
    split
    · exact ⟨_, rfl⟩
    · exact ⟨q, hq⟩
  refine ⟨hs.layout.handOut hr hroom kind mark,
    ⟨fun t info ht => hkeep _ (hs.places.local_mapped t info ht),
      fun j hj => hkeep _ (hs.places.listed_mapped j hj), hs.places.local_injective,
      hs.places.local_unlisted, hs.places.nodup, hs.places.head⟩, ?_⟩
  refine hs.history.record (log_handOut ..) (by simp) (by simp) (Nat.le_refl _)
    (fun j q hq => .inl ?_) fun j hj hq => ?_
  · rw [hregions] at hq
    split at hq
    · rename_i hji
      exact ⟨r, hji ▸ hr⟩
    · exact ⟨q, hq⟩
  · rw [hregions] at hq
    split at hq
    · cases hq
    · exact ⟨hj, hq⟩

/-- `malloc` hands out an object. -/
theorem Sound.malloc {h : PupHeap} (hs : Sound h) {a : Nat} (o : PupObject)
    (hout : ∀ i r, h.regions i = some r → ¬ r.Contains a) :
    Sound { h.setMem (h.mem.setObject a o) with malloced := insert a h.malloced } := by
  refine ⟨⟨fun i r hr => ?_, hs.layout.apart, hs.layout.mapped, fun b hb => ?_,
    hs.layout.attrs, fun b hb i r hr => ?_, hs.layout.logged⟩, ?_, ?_⟩
  · obtain ⟨bs, hok, hlog⟩ := hs.layout.blocks i r hr
    refine ⟨bs, hok.congr (fun _ _ _ => rfl) fun b o' hin ho' => ⟨o', ?_⟩, hlog⟩
    have hba : b ≠ a := fun heq => hout i r hr (heq ▸ hin)
    simpa [Memory.setObject, hba] using ho'
  · by_cases hba : b = a
    · exact .inl (by simp [hba])
    · refine (hs.layout.objects b ?_).imp_left fun hm => by simp [hm]
      simpa [Memory.setObject, hba] using hb
  · rcases Finset.mem_insert.mp hb with hb | hb
    · exact hb ▸ hout i r hr
    · exact hs.layout.malloced b hb i r hr
  · exact ⟨hs.places.local_mapped, hs.places.listed_mapped, hs.places.local_injective,
      hs.places.local_unlisted, hs.places.nodup, hs.places.head⟩
  · exact ⟨hs.history.undestroyed, hs.history.live, hs.history.unmapped, hs.history.future⟩

/-! ### Every step keeps them

By cases on the step.  An allocation is the only one that is not quiet and that a mutator can
take at any time: a block out of the region, or first a region to take it from.
-/

/-- `pup_heap_alloc` hands out a block of the thread's region, perhaps after a new one has
taken its place. -/
theorem pupHeapAlloc_cases {h h' : PupHeap} {t : Tid} {size : Nat} {kind : PupHeapKind}
    {base : Nat} {a : Addr} (hs : pupHeapAlloc h t size kind base = some (h', a)) :
    ∃ h₁ tinfo r, (h₁ = h ∨ ∃ old, h.threads t = some old ∧ Free h base ∧
        h₁ = rollOver h t old base ∧ tinfo = { old with local_region := h.mappings }) ∧
      h₁.threads t = some tinfo ∧ h₁.regions tinfo.local_region = some r ∧
      haveRoomFor r size = true ∧ a = r.allocated + dataOffset ∧
      h' = h₁.handOut tinfo.local_region r size kind tinfo.current_gc_mark := by
  unfold pupHeapAlloc at hs
  split at hs
  · rename_i hsize
    simp only [threadLocalAlloc, bind, Option.bind_eq_some_iff] at hs
    obtain ⟨tinfo, ht, r, hr, hs⟩ := hs
    split at hs
    · rename_i hroom
      obtain ⟨rfl, rfl⟩ := Prod.mk.inj (Option.some.inj hs)
      exact ⟨h, tinfo, r, .inl rfl, ht, hr, hroom, rfl, rfl⟩
    · split at hs
      · rename_i hf
        obtain ⟨rfl, rfl⟩ := Prod.mk.inj (Option.some.inj hs)
        refine ⟨rollOver h t tinfo base, { tinfo with local_region := h.mappings },
          freshRegion base, .inr ⟨tinfo, ht, hf, rfl, rfl⟩, ?_, ?_, ?_, rfl, rfl⟩
        · simp [rollOver]
        · simp [rollOver]
        · refine decide_eq_true ?_
          simp only [freshRegion, allocSizeFor, sizeofHeapObject, MAX_REGION_ALLOCATION,
            REGION_SIZE] at *
          omega
      · cases hs
  · cases hs

theorem Sound.pupHeapAlloc {h h' : PupHeap} (hs : Sound h) {t : Tid} {size : Nat}
    {kind : PupHeapKind} {base : Nat} {a : Addr}
    (halloc : pupHeapAlloc h t size kind base = some (h', a)) : Sound h' := by
  obtain ⟨h₁, tinfo, r, hh₁, -, hr, hroom, -, rfl⟩ := pupHeapAlloc_cases halloc
  have hs₁ : Sound h₁ := by
    rcases hh₁ with rfl | ⟨old, hold, hf, rfl, -⟩
    · exact hs
    · exact hs.rollOver hf hold
  exact hs₁.handOut hr hroom kind _

theorem objInit_shape {mem mem' : Memory} {a : Addr} {type : Option Addr}
    (h : objInit mem a type = some mem') : SameShape mem mem' := by
  simp only [objInit, bind, Option.bind_eq_some_iff] at h
  obtain ⟨o, ho, h⟩ := h
  obtain rfl := Option.some.inj h
  exact .setObject ho _

theorem hold_quiet {h h' : PupHeap} {t : Tid} {a : Addr} (hh : h.hold t a = some h') :
    Quiet h h' := by
  simp only [PupHeap.hold, bind, Option.bind_eq_some_iff] at hh
  obtain ⟨tinfo, ht, hh⟩ := hh
  obtain rfl := Option.some.inj hh
  exact .setThread ht rfl

theorem Sound.newObject {h h' : PupHeap} (hs : Sound h) {t : Tid} {size : Nat}
    {type : Option Addr} {base : Nat} (hn : newObject h t size type base = some h') :
    Sound h' := by
  unfold Heap.newObject at hn
  split at hn
  · simp only [bind, Option.bind_eq_some_iff] at hn
    obtain ⟨⟨h₁, a⟩, halloc, mem, hinit, hhold⟩ := hn
    exact ((hs.pupHeapAlloc halloc).quiet (.setMem (objInit_shape hinit))).quiet
      (hold_quiet hhold)
  · cases hn

theorem Sound.stringNewCstr {h h' : PupHeap} (hs : Sound h) {t : Tid} {a : Addr}
    {type : Option Addr} {junk : Bool} (hn : stringNewCstr h t a type junk = some h') :
    Sound h' := by
  unfold Heap.stringNewCstr at hn
  split at hn
  · rename_i hout
    refine (hs.malloc ⟨type, none, junk⟩ fun i r hr => ?_).quiet (hold_quiet hn)
    exact hout.2 i (hs.layout.mapped i r hr) r hr
  · cases hn

/-- The data of an attribute block just handed out. -/
theorem handOut_attr {h : PupHeap} {i : Nat} {r : PupHeapRegion} {size : Nat} {mark : Bool} :
    (h.handOut i r size .attr mark).mem.attrs (r.allocated + dataOffset) =
      some ⟨0, none, if mark then some 1 else none⟩ := by
  show (handedOut h.mem r size .attr mark).attrs _ = _
  rw [attrs_handedOut, if_pos ⟨rfl, rfl⟩]

/-- `create_attr` is an allocation and a write to the block. -/
theorem createAttr_cases {h h' : PupHeap} {t : Tid} {sym : Int} {val next : Option Addr}
    {base : Nat} {attr : Addr} (hc : createAttr h t sym val next base = some (h', attr)) :
    ∃ h₁ e, pupHeapAlloc h t sizeofPupAttributeListEntry .attr base = some (h₁, attr) ∧
      h₁.mem.attrs attr = some e ∧ h' = h₁.setMem (h₁.mem.setAttr attr ⟨sym, val, next⟩) := by
  simp only [createAttr, bind, Option.bind_eq_some_iff] at hc
  obtain ⟨⟨h₁, a⟩, halloc, hc⟩ := hc
  obtain ⟨rfl, rfl⟩ := Prod.mk.inj (Option.some.inj hc)
  obtain ⟨h₂, tinfo, r, -, -, -, -, hr, heq⟩ := pupHeapAlloc_cases halloc
  refine ⟨h₁, ⟨0, none, if tinfo.current_gc_mark then some 1 else none⟩, halloc, ?_, rfl⟩
  rw [hr, heq]
  exact handOut_attr

/-- `pup_iv_set` overwrites a value, or puts a new entry in front. -/
theorem ivSet_cases {h h' : PupHeap} {t : Tid} {fuel : Nat} {obj : Addr} {sym : Int}
    {val : Option Addr} {base : Nat} (hs : ivSet h t fuel obj sym val base = some h') :
    ∃ o, h.mem.objects obj = some o ∧
      ((∃ attr e, findAttr h.mem fuel o.attr_list_head sym = some (some attr) ∧
          h.mem.attrs attr = some e ∧ h' = h.setMem (h.mem.setAttr attr { e with value := val })) ∨
        ∃ h₁ attr o', findAttr h.mem fuel o.attr_list_head sym = some none ∧
          createAttr h t sym val o.attr_list_head base = some (h₁, attr) ∧
          h₁.mem.objects obj = some o' ∧
          h' = h₁.setMem (h₁.mem.setObject obj { o' with attr_list_head := some attr })) := by
  simp only [ivSet, bind, Option.bind_eq_some_iff] at hs
  obtain ⟨o, ho, found, hfound, hs⟩ := hs
  refine ⟨o, ho, ?_⟩
  cases found with
  | some attr =>
      simp only [Option.bind_eq_some_iff] at hs
      obtain ⟨e, he, hs⟩ := hs
      exact .inl ⟨attr, e, hfound, he, (Option.some.inj hs).symm⟩
  | none =>
      simp only [Option.bind_eq_some_iff] at hs
      obtain ⟨⟨h₁, attr⟩, hc, o', ho', hs⟩ := hs
      exact .inr ⟨h₁, attr, o', hfound, hc, ho', (Option.some.inj hs).symm⟩

theorem Sound.ivSet {h h' : PupHeap} (hs : Sound h) {t : Tid} {fuel : Nat} {obj : Addr}
    {sym : Int} {val : Option Addr} {base : Nat}
    (hset : ivSet h t fuel obj sym val base = some h') : Sound h' := by
  obtain ⟨o, -, ⟨attr, e, -, he, rfl⟩ | ⟨h₁, attr, o', -, hc, ho', rfl⟩⟩ := ivSet_cases hset
  · exact hs.quiet (.setMem (.setAttr he _))
  · obtain ⟨h₂, e, halloc, he, rfl⟩ := createAttr_cases hc
    exact ((hs.pupHeapAlloc halloc).quiet (.setMem (.setAttr he _))).quiet
      (.setMem (.setObject ho' _))

theorem Sound.threadInit {h h' : PupHeap} (hs : Sound h) {t : Tid} {base : Nat} {junk : Bool}
    (hi : threadInit h t base junk = some h') : Sound h' := by
  unfold Heap.threadInit at hi
  split at hi
  · rename_i hnew
    obtain rfl := Option.some.inj hi
    refine hs.newRegion (t := t) hnew.2 ⟨h.mappings, false, junk, []⟩ rfl rfl rfl rfl
      rfl rfl (fun u => ?_) (.inl ⟨hnew.1, rfl⟩) fun u hu => .inr (Option.some.inj hu).symm
    exact Function.update_apply ..
  · cases hi

theorem setFrames_quiet {h h' : PupHeap} {t : Tid} {frames : List (List (Option Addr))}
    (hset : setFrames h t frames = some h') : Quiet h h' := by
  simp only [setFrames, bind, Option.bind_eq_some_iff] at hset
  obtain ⟨tinfo, ht, hset⟩ := hset
  obtain rfl := Option.some.inj hset
  exact .setThread ht rfl

/-! The collector. -/

/-- What a step does to the collector's own state matters to no invariant. -/
theorem Quiet.collector (h : PupHeap) (gc : PupGCState) (pc : GcPc) :
    Quiet h ((h.setGc gc).goto pc) :=
  ⟨.refl _, rfl, rfl, rfl, rfl, rfl, rfl, fun _ => rfl⟩

theorem Quiet.scan {h : PupHeap} {s : Scan} (hm : MarksOnly h.mem s.mem) (pc : GcPc) :
    Quiet h ((h.setScan s).goto pc) :=
  ⟨.of_marksOnly hm, rfl, rfl, rfl, rfl, rfl, rfl, fun _ => rfl⟩

theorem startStep_quiet {h h' : PupHeap} (hs : startStep h = some h') : Quiet h h' := by
  unfold startStep at hs
  split at hs
  · obtain rfl := Option.some.inj hs
    exact .collector h _ _
  · cases hs

theorem handlerStep_cases {h h' : PupHeap} {t : Tid} (hs : handlerStep h t = some h') :
    ∃ tinfo, h.threads t = some tinfo ∧ h.pc = .converging t ∧
      h' = siguser1Handler h t tinfo := by
  simp only [handlerStep, bind, Option.bind_eq_some_iff] at hs
  obtain ⟨tinfo, ht, hs⟩ := hs
  split at hs
  · rename_i hpc
    exact ⟨tinfo, ht, hpc, (Option.some.inj hs).symm⟩
  · cases hs

theorem pupHeapSafepoint_ok {h h' : PupHeap} {t : Tid} {tinfo : PupThreadInfo}
    (hs : pupHeapSafepoint h t tinfo = .ok h') :
    ∃ gc, scanStack h.gc tinfo.frames = .ok gc ∧
      h' = (h.setGc gc).setThread t { tinfo with gc_waiting := false } := by
  obtain ⟨gc, hscan, hs⟩ := bind_ok hs
  exact ⟨gc, hscan, (Except.ok.inj hs).symm⟩

theorem toOption_eq_some {α : Type} {x : Except Fault α} {a : α} (h : x.toOption = some a) :
    x = .ok a := by
  cases x with
  | ok b => exact congrArg _ (Option.some.inj h)
  | error f => cases h

theorem safepointStep_cases {h h' : PupHeap} {t : Tid} (hs : safepointStep h t = some h') :
    ∃ tinfo gc, h.threads t = some tinfo ∧ h.pc = .converging t ∧ tinfo.gc_waiting = true ∧
      scanStack h.gc tinfo.frames = .ok gc ∧
      h' = ((h.setGc gc).setThread t { tinfo with gc_waiting := false }).goto (.scanning []) := by
  simp only [safepointStep, bind, Option.bind_eq_some_iff] at hs
  obtain ⟨tinfo, ht, hs⟩ := hs
  split at hs
  · rename_i hpc
    obtain ⟨h₁, hsafe, hs⟩ := Option.bind_eq_some_iff.mp hs
    obtain ⟨gc, hscan, rfl⟩ := pupHeapSafepoint_ok (toOption_eq_some hsafe)
    exact ⟨tinfo, gc, ht, hpc.1, hpc.2, hscan, (Option.some.inj hs).symm⟩
  · cases hs

theorem stealStep_cases {h h' : PupHeap} (hs : stealStep h = some h') :
    h.pc = .scanning [] ∧
      ((h.gc.reference_queue = [] ∧ h' = h.goto .collecting) ∨
        ∃ seg rest, h.gc.reference_queue = seg :: rest ∧
          h' = (h.setGc { h.gc with reference_queue := rest }).goto (.scanning seg.refs)) := by
  unfold stealStep stealSegmentFromGlobalQueue at hs
  split at hs
  · rename_i hpc
    refine ⟨hpc, ?_⟩
    cases hq : h.gc.reference_queue with
    | nil =>
        simp only [hq] at hs
        exact .inl ⟨rfl, (Option.some.inj hs).symm⟩
    | cons seg rest =>
        simp only [hq] at hs
        exact .inr ⟨seg, rest, rfl, (Option.some.inj hs).symm⟩
  · cases hs

theorem scanStep_cases {h h' : PupHeap} {fuel : Nat} (hs : scanStep h fuel = some h') :
    ∃ ref rest s, h.pc = .scanning (ref :: rest) ∧
      scanQueueRef fuel ⟨h.mem, h.gc⟩ ref = .ok s ∧
      h' = (h.setScan s).goto (.scanning rest) := by
  unfold scanStep at hs
  split at hs
  · rename_i ref rest hpc
    simp only [bind, Option.bind_eq_some_iff] at hs
    obtain ⟨s, hscan, hs⟩ := hs
    exact ⟨ref, rest, s, hpc, toOption_eq_some hscan, (Option.some.inj hs).symm⟩
  · cases hs

/-- The heap without region `i`, which the collector has taken. -/
def reclaimed (h : PupHeap) (i : Nat) (r : PupHeapRegion) (gc : PupGCState) : PupHeap :=
  ({ h with mem := unmap h.mem r, gc := gc }.setRegion i none).record (.munmap i)

/-- The heap without region `i`, which `free_region` has unmapped. -/
def freed (h : PupHeap) (i : Nat) (r : PupHeapRegion) (log : List Event) : PupHeap :=
  ({ h with mem := unmap h.mem r, log := log }.setRegion i none).record (.munmap i)

theorem freeRegion_ok {h h' : PupHeap} {i : Nat} (hf : freeRegion h i = .ok h') :
    ∃ r log, h.regions i = some r ∧
      walkRegion h.mem (destroyHeapObject h.mem i) r h.log = .ok log ∧ h' = freed h i r log := by
  obtain ⟨r, hr, hf⟩ := bind_ok hf
  obtain ⟨log, hwalk, hf⟩ := bind_ok hf
  exact ⟨r, log, deref_ok hr, hwalk, (Except.ok.inj hf).symm⟩

theorem freeRegion_eq {h : PupHeap} {i : Nat} {r : PupHeapRegion} {log : List Event}
    (hr : h.regions i = some r)
    (hwalk : walkRegion h.mem (destroyHeapObject h.mem i) r h.log = .ok log) :
    freeRegion h i = .ok (freed h i r log) := by
  simp only [freeRegion, deref_eq hr, bind, Except.bind, hwalk]
  rfl

/-- To free a region whose `allocated` has been reset is just to unmap it. -/
theorem freeRegion_reset (h : PupHeap) (i : Nat) (r : PupHeapRegion) (gc : PupGCState) :
    freeRegion ((h.setGc gc).setRegion i (some (freshRegion r.region))) i =
      .ok (reclaimed h i r gc) := by
  have hreset : ((h.setGc gc).setRegion i (some (freshRegion r.region))).regions i =
      some (freshRegion r.region) := Function.update_self ..
  have hempty : Blocks h.mem (freshRegion r.region).region (freshRegion r.region).allocated [] :=
    rfl
  refine (freeRegion_eq hreset (walkRegion_eq hempty h.log)).trans (congrArg Except.ok ?_)
  simp [reclaimed, freed, PupHeap.setRegion, PupHeap.setGc, PupHeap.record, unmap, freshRegion,
    PupHeapRegion.Contains]
  exact ⟨rfl, rfl, rfl⟩

/-- The collector reads the blocks of a region it has stolen, and then unmaps it.  No object
in it is destroyed. -/
theorem collectUnmarkedObjectsInRegion_ok {h h' : PupHeap} {i : Nat}
    (hc : collectUnmarkedObjectsInRegion h i = .ok h') :
    ∃ r gc, h.regions i = some r ∧ walkRegion h.mem (collectHeapObject h.mem) r h.gc = .ok gc ∧
      h' = reclaimed h i r gc := by
  obtain ⟨r, hr, hc⟩ := bind_ok hc
  obtain ⟨gc, hwalk, hc⟩ := bind_ok hc
  rw [freeRegion_reset] at hc
  exact ⟨r, gc, deref_ok hr, hwalk, (Except.ok.inj hc).symm⟩

theorem collectUnmarkedObjectsInRegion_eq {h : PupHeap} {i : Nat} {r : PupHeapRegion}
    {gc : PupGCState} (hr : h.regions i = some r)
    (hwalk : walkRegion h.mem (collectHeapObject h.mem) r h.gc = .ok gc) :
    collectUnmarkedObjectsInRegion h i = .ok (reclaimed h i r gc) := by
  simp only [collectUnmarkedObjectsInRegion, deref_eq hr, bind, Except.bind, hwalk]
  exact freeRegion_reset h i r gc

theorem regions_reclaimed (h : PupHeap) (i : Nat) (r : PupHeapRegion) (gc : PupGCState)
    (j : Nat) :
    (reclaimed h i r gc).regions j = if j = i then none else h.regions j := by
  simp [reclaimed, Function.update_apply]

/-- The collector takes the first region off the list and unmaps it. -/
theorem Sound.reclaimed {h : PupHeap} (hs : Sound h) {i : Nat} {rest : List Nat}
    (hlist : h.region_list = i :: rest) {r : PupHeapRegion} (hr : h.regions i = some r)
    (gc : PupGCState) : Sound (reclaimed (h.stolen rest) i r gc) := by
  have hregions := regions_reclaimed (h.stolen rest) i r gc
  have hnodup := hs.places.nodup
  rw [hlist, List.nodup_cons] at hnodup
  have hkeep : ∀ j, j ≠ i → (∃ q, h.regions j = some q) →
      ∃ q, (Heap.reclaimed (h.stolen rest) i r gc).regions j = some q := by
    intro j hji hex
    rw [hregions, if_neg hji]
    exact hex
  have hlocal : ∀ t info, h.threads t = some info → info.local_region ≠ i := by
    intro t info ht heq
    exact hs.places.local_unlisted t info ht (by rw [hlist, heq]; exact List.mem_cons_self)
  have hsub : ∀ j ∈ rest, j ∈ h.region_list := by
    intro j hj
    rw [hlist]
    exact List.mem_cons_of_mem i hj
  refine ⟨hs.layout.unmapped [.munmap i] hr
      ⟨rfl, hregions, rfl, rfl, rfl, by simp⟩,
    ⟨fun t info ht => hkeep _ (hlocal t info ht) (hs.places.local_mapped t info ht),
      fun j hj => hkeep j (fun heq => hnodup.1 (heq ▸ hj)) (hs.places.listed_mapped j (hsub j hj)),
      hs.places.local_injective,
      fun t info ht hmem => hs.places.local_unlisted t info ht (hsub _ hmem), hnodup.2,
      hs.places.head⟩, ?_⟩
  have hcount : ∀ j, (h.log ++ [Event.munmap i]).count (.munmap j) =
      h.log.count (.munmap j) + if j = i then 1 else 0 := by
    intro j
    rw [List.count_append, List.count_singleton]
    by_cases hji : j = i
    · simp [hji]
    · simp [hji, Ne.symm hji]
  refine ⟨fun j data hmem => ?_, fun j q hq hmem => ?_, fun j hj hq => ?_, fun j hmem => ?_⟩
  · exact hs.history.undestroyed j data (by simpa [Heap.reclaimed] using hmem)
  · rw [hregions] at hq
    split at hq
    · cases hq
    · rename_i hji
      exact hs.history.live j q hq (by simpa [Heap.reclaimed, hji] using hmem)
  · rw [hregions] at hq
    show (h.log ++ [Event.munmap i]).count (.munmap j) = 1
    rw [hcount]
    split at hq
    · rename_i hji
      rw [if_pos hji, hji, List.count_eq_zero.mpr (hs.history.live i r hr)]
    · rename_i hji
      rw [if_neg hji]
      exact hs.history.unmapped j hj hq
  · have hmem' : j = i ∨ .munmap j ∈ h.log := by
      simpa [Heap.reclaimed, or_comm] using hmem
    rcases hmem' with rfl | hmem'
    · exact hs.layout.mapped _ r hr
    · exact hs.history.future j hmem'

/-- Reading the blocks of a region changes the counters only. -/
theorem collect_live {mem : Memory} {r : PupHeapRegion} {gc gc' : PupGCState}
    (hw : walkRegion mem (collectHeapObject mem) r gc = .ok gc') :
    gc'.live_mark_value = gc.live_mark_value := by
  refine walk_keeps (I := fun st => st.live_mark_value = gc.live_mark_value) ?_ _ rfl hw
  intro st p st' hst hvisit
  unfold collectHeapObject at hvisit
  split at hvisit
  · obtain ⟨o, -, hvisit⟩ := bind_ok hvisit
    split at hvisit <;> exact Except.ok.inj hvisit ▸ hst
  · exact Except.ok.inj hvisit ▸ hst

theorem collectStep_cases {h h' : PupHeap} (hs : collectStep h = some h') :
    h.pc = .collecting ∧
      ((h.region_list = [] ∧ h' = h.goto .sleeping) ∨
        ∃ i rest r gc, h.region_list = i :: rest ∧ h.regions i = some r ∧
          gc.live_mark_value = h.gc.live_mark_value ∧
          h' = reclaimed (h.stolen rest) i r gc) := by
  unfold collectStep at hs
  split at hs
  · rename_i hpc
    refine ⟨hpc, ?_⟩
    cases hl : h.region_list with
    | nil =>
        simp only [hl] at hs
        exact .inl ⟨rfl, (Option.some.inj hs).symm⟩
    | cons i rest =>
        simp only [hl] at hs
        obtain ⟨r, gc, hr, hwalk, rfl⟩ := collectUnmarkedObjectsInRegion_ok (toOption_eq_some hs)
        exact .inr ⟨i, rest, r, gc, rfl, hr, collect_live hwalk, rfl⟩
  · cases hs

/-- **Every step keeps the invariants.** -/
theorem Sound.step {h h' : PupHeap} (hs : Sound h) {i : Label} (hstep : step h i = some h') :
    Sound h' := by
  cases i with
  | threadInit t base junk => exact hs.threadInit hstep
  | newObject t size type base => exact hs.newObject hstep
  | stringNewCstr t a type junk => exact hs.stringNewCstr hstep
  | ivSet t fuel obj sym val base => exact hs.ivSet hstep
  | setFrames t frames => exact hs.quiet (setFrames_quiet hstep)
  | periodStart => exact hs.quiet (startStep_quiet hstep)
  | handler t =>
      obtain ⟨tinfo, ht, -, rfl⟩ := handlerStep_cases hstep
      exact hs.quiet (.setThread ht rfl)
  | safepoint t =>
      obtain ⟨tinfo, gc, ht, -, -, -, rfl⟩ := safepointStep_cases hstep
      exact (hs.quiet (.collector h gc (.scanning []))).quiet (.setThread ht rfl)
  | stealSegment =>
      obtain ⟨-, ⟨-, rfl⟩ | ⟨seg, rest, -, rfl⟩⟩ := stealStep_cases hstep
      · exact hs.quiet (.collector h h.gc _)
      · exact hs.quiet (.collector h _ _)
  | scanRef fuel =>
      obtain ⟨ref, rest, s, -, hscan, rfl⟩ := scanStep_cases hstep
      obtain ⟨-, -, -, -, -, hmarks, -⟩ := scanQueueRef_ok hscan
      exact hs.quiet (.scan hmarks _)
  | collectRegion =>
      obtain ⟨-, ⟨-, rfl⟩ | ⟨i, rest, r, gc, hlist, hr, -, rfl⟩⟩ := collectStep_cases hstep
      · exact hs.quiet (.collector h h.gc _)
      · exact hs.reclaimed hlist hr gc

theorem Sound.init (junk : Nat) : Sound (pupHeapInit junk) := by
  refine ⟨⟨?_, ?_, ?_, ?_, ?_, ?_, ?_⟩, ⟨?_, ?_, ?_, ?_, ?_, ?_⟩, ⟨?_, ?_, ?_, ?_⟩⟩ <;>
    simp [pupHeapInit]

/-- **The invariants hold in every run.** -/
theorem Sound.reachable {h : PupHeap} (hr : Reachable heapMachine h) : Sound h := by
  refine hr.invariant (I := Sound) ?_ fun h i h' hs hstep => hs.step hstep
  intro h hinit
  obtain ⟨junk, rfl⟩ := hinit
  exact .init junk

end Pup.Heap
