/-
What the steps of mutators do to the graph of objects.

A mutator changes the graph in two ways.  A new object is `Born`: nothing else changes, and
the thread holds the only reference to it.  A value is `Stored`: an entry that an attribute
list has gets another value, or the object stored into gets a new entry, and no other
reference changes.  Allocation as such is `Allocated`: a block appears where nothing was.
-/
import Pup.Heap.Sound

namespace Pup.Heap

open Pup.Gc Transition

/-- The block at `b` is an entry of the attribute list of the object at `a`. -/
def EntryOf (mem : Memory) (a b : Addr) : Prop :=
  ∃ o l, mem.objects a = some o ∧ AttrList mem o.attr_list_head l ∧ b ∈ l.map Prod.fst

theorem hasRefs_object {mem : Memory} {a : Addr} {rs : List (Option Addr)}
    (h : HasRefs mem a rs) : ∃ o, mem.objects a = some o := by
  obtain ⟨o, -, ho, -⟩ := h
  exact ⟨o, ho⟩

/-! ### Memory that grows -/

/-- Every object and every entry is as it was. -/
structure Grown (mem mem' : Memory) : Prop where
  objects : ∀ a o, mem.objects a = some o → mem'.objects a = some o
  attrs : ∀ a e, mem.attrs a = some e → mem'.attrs a = some e

theorem Grown.attrList {mem mem' : Memory} (hg : Grown mem mem') {head : Option Addr}
    {l : List (Addr × PupAttributeListEntry)} (h : AttrList mem head l) : AttrList mem' head l := by
  refine h.congr fun p hp => ?_
  rw [h.2 p hp, hg.attrs p.1 p.2 (h.2 p hp)]

theorem Grown.hasRefs {mem mem' : Memory} (hg : Grown mem mem') {a : Addr}
    {rs : List (Option Addr)} (h : HasRefs mem a rs) : HasRefs mem' a rs := by
  obtain ⟨o, l, ho, hl, hrs⟩ := h
  exact ⟨o, l, hg.objects a o ho, hg.attrList hl, hrs⟩

/-! ### Allocation -/

/-- What the collector and the other threads can see of a thread. -/
def PupThreadInfo.view (info : PupThreadInfo) : Bool × Bool × List (List (Option Addr)) :=
  (info.gc_waiting, info.current_gc_mark, info.frames)

/-- Nothing has happened but in memory. -/
structure MemoryOnly (h h' : PupHeap) : Prop where
  gc : h'.gc = h.gc
  pc : h'.pc = h.pc
  thread_list : h'.thread_list = h.thread_list
  threads : ∀ u, (h'.threads u).map PupThreadInfo.view = (h.threads u).map PupThreadInfo.view

/-- A block of the kind has appeared at `a`, with the mark of the thread. -/
structure Allocated (h h' : PupHeap) (kind : PupHeapKind) (a : Addr) (mark : Bool) : Prop where
  objects_none : h.mem.objects a = none
  attrs_none : h.mem.attrs a = none
  objects : ∀ b, h'.mem.objects b =
    if kind = .obj ∧ b = a then some ⟨none, none, mark⟩ else h.mem.objects b
  attrs : ∀ b, h'.mem.attrs b =
    if kind = .attr ∧ b = a then some ⟨0, none, if mark then some 1 else none⟩
    else h.mem.attrs b
  rest : MemoryOnly h h'

theorem Allocated.grown {h h' : PupHeap} {kind : PupHeapKind} {a : Addr} {mark : Bool}
    (ha : Allocated h h' kind a mark) : Grown h.mem h'.mem := by
  refine ⟨fun b o ho => ?_, fun b e he => ?_⟩
  · rw [ha.objects, if_neg, ho]
    intro hb
    rw [hb.2, ha.objects_none] at ho
    cases ho
  · rw [ha.attrs, if_neg, he]
    intro hb
    rw [hb.2, ha.attrs_none] at he
    cases he

theorem rollOver_memoryOnly {h : PupHeap} {t : Tid} {tinfo : PupThreadInfo} (base : Nat)
    (ht : h.threads t = some tinfo) : MemoryOnly h (rollOver h t tinfo base) := by
  refine ⟨rfl, rfl, rfl, fun u => ?_⟩
  by_cases hu : u = t
  · subst hu
    simp [rollOver, ht, PupThreadInfo.view]
  · simp [rollOver, hu]

/-- A block is handed out where nothing was. -/
theorem handOut_allocated {h : PupHeap} (hL : Layout h) {i : Nat} {r : PupHeapRegion}
    (hr : h.regions i = some r) {size : Nat} (hroom : haveRoomFor r size = true)
    (kind : PupHeapKind) (mark : Bool) :
    Allocated h (h.handOut i r size kind mark) kind (r.allocated + dataOffset) mark := by
  obtain ⟨bs, hok, -⟩ := hL.blocks i r hr
  have hle := hok.blocks.length_le
  have hfits : r.allocated + allocSizeFor size ≤ r.region + Regions.REGION_SIZE :=
    of_decide_eq_true hroom
  have hin : r.Contains (r.allocated + dataOffset) := by
    refine ⟨by omega, ?_⟩
    simp only [allocSizeFor, sizeofHeapObject, dataOffset] at *
    omega
  obtain ⟨hobjects, hattrs⟩ := hL.unused hr hin (by omega)
  exact ⟨hobjects, hattrs, objects_handedOut h.mem r size kind mark,
    attrs_handedOut h.mem r size kind mark, rfl, rfl, rfl, fun _ => rfl⟩

/-- `pup_heap_alloc` allocates, and gives the block the thread's mark. -/
theorem pupHeapAlloc_allocated {h h' : PupHeap} (hs : Sound h) {t : Tid} {size : Nat}
    {kind : PupHeapKind} {base : Nat} {a : Addr}
    (halloc : pupHeapAlloc h t size kind base = some (h', a)) :
    ∃ tinfo, h.threads t = some tinfo ∧ Allocated h h' kind a tinfo.current_gc_mark := by
  obtain ⟨h₁, tinfo, r, hh₁, ht, hr, hroom, rfl, rfl⟩ := pupHeapAlloc_cases halloc
  rcases hh₁ with rfl | ⟨old, hold, hf, rfl, rfl⟩
  · exact ⟨tinfo, ht, handOut_allocated hs.layout hr hroom kind _⟩
  · have hroll := hs.rollOver hf hold
    obtain ⟨h₁, h₂, h₃, h₄, h₅⟩ :=
      handOut_allocated hroll.layout hr hroom kind old.current_gc_mark
    have hother := rollOver_memoryOnly base hold
    exact ⟨old, hold, h₁, h₂, h₃, h₄, h₅.gc, h₅.pc, h₅.thread_list,
      fun u => (h₅.threads u).trans (hother.threads u)⟩

/-! ### New objects -/

/-- An object has appeared at `a`, and thread `t` has put a reference to it on its stack. -/
structure Born (h h' : PupHeap) (t : Tid) (a : Addr) (type : Option Addr) (mark : Bool) : Prop where
  fresh : h.mem.objects a = none
  grown : Grown h.mem h'.mem
  object : h'.mem.objects a = some ⟨type, none, mark⟩
  others : ∀ b, b ≠ a → h'.mem.objects b = h.mem.objects b
  gc : h'.gc = h.gc
  pc : h'.pc = h.pc
  thread_list : h'.thread_list = h.thread_list
  threads : ∃ info, h.threads t = some info ∧ ∀ u, (h'.threads u).map PupThreadInfo.view =
    if u = t then some (info.gc_waiting, info.current_gc_mark, [some a] :: info.frames)
    else (h.threads u).map PupThreadInfo.view

theorem Grown.of_fresh {mem mem' : Memory} {a : Addr} (hfresh : mem.objects a = none)
    (hothers : ∀ b, b ≠ a → mem'.objects b = mem.objects b) (hattrs : mem'.attrs = mem.attrs) :
    Grown mem mem' := by
  refine ⟨fun b o ho => ?_, fun b e he => by rw [hattrs, he]⟩
  rw [hothers b, ho]
  intro hba
  rw [hba, hfresh] at ho
  cases ho

theorem newObject_born {h h' : PupHeap} (hs : Sound h) {t : Tid} {size : Nat}
    {type : Option Addr} {base : Nat} (hn : newObject h t size type base = some h') :
    ∃ h₁ a tinfo, pupHeapAlloc h t size .obj base = some (h₁, a) ∧ h.threads t = some tinfo ∧
      Born h h' t a type tinfo.current_gc_mark := by
  unfold newObject at hn
  split at hn
  · simp only [bind, Option.bind_eq_some_iff] at hn
    obtain ⟨⟨h₁, a⟩, halloc, mem, hinit, hhold⟩ := hn
    obtain ⟨tinfo, ht, ha⟩ := pupHeapAlloc_allocated hs halloc
    have hself : h₁.mem.objects a = some ⟨none, none, tinfo.current_gc_mark⟩ := by
      rw [ha.objects, if_pos ⟨rfl, rfl⟩]
    simp only [objInit, bind, Option.bind_eq_some_iff] at hinit
    obtain ⟨o, ho, hinit⟩ := hinit
    obtain rfl := Option.some.inj hinit
    obtain rfl := Option.some.inj (hself.symm.trans ho)
    simp only [PupHeap.hold, bind, Option.bind_eq_some_iff] at hhold
    obtain ⟨info₁, ht₁, hhold⟩ := hhold
    obtain rfl := Option.some.inj hhold
    have hview : info₁.view = tinfo.view := by
      have ht₁' : h₁.threads t = some info₁ := ht₁
      have := ha.rest.threads t
      rw [ht₁', ht] at this
      exact Option.some.inj this
    have hothers : ∀ b, b ≠ a → (h₁.mem.setObject a ⟨type, none, tinfo.current_gc_mark⟩).objects b =
        h.mem.objects b := by
      intro b hb
      rw [setObject_of_ne _ _ hb, ha.objects, if_neg fun hab => hb hab.2]
    have hattrs : h₁.mem.attrs = h.mem.attrs := by
      funext b
      rw [ha.attrs, if_neg (by simp)]
    refine ⟨h₁, a, tinfo, halloc, ht, ha.objects_none, .of_fresh ha.objects_none hothers hattrs,
      Function.update_self .., hothers, ha.rest.gc, ha.rest.pc, ha.rest.thread_list, tinfo, ht,
      fun u => ?_⟩
    by_cases hu : u = t
    · subst hu
      simp only [PupThreadInfo.view, Prod.mk.injEq] at hview
      simp [PupThreadInfo.view, hview]
    · simp [hu, ha.rest.threads u]
  · cases hn

theorem stringNewCstr_born {h h' : PupHeap} (hs : Sound h) {t : Tid} {a : Addr}
    {type : Option Addr} {junk : Bool} (hn : stringNewCstr h t a type junk = some h') :
    Born h h' t a type junk := by
  unfold stringNewCstr at hn
  split at hn
  · rename_i hout
    simp only [PupHeap.hold, bind, Option.bind_eq_some_iff] at hn
    obtain ⟨info, ht, hn⟩ := hn
    obtain rfl := Option.some.inj hn
    have ht' : h.threads t = some info := ht
    have hfresh : h.mem.objects a = none := by
      by_contra hne
      rcases hs.layout.objects a hne with hm | ⟨i, r, hr, hlo, hhi⟩
      · exact hout.1 hm
      · obtain ⟨bs, hok, -⟩ := hs.layout.blocks i r hr
        have hfits := hok.fits
        exact hout.2 i (hs.layout.mapped i r hr) r hr ⟨hlo, by omega⟩
    have hothers : ∀ b, b ≠ a → (h.mem.setObject a ⟨type, none, junk⟩).objects b =
        h.mem.objects b := by
      intro b hb
      rw [setObject_of_ne _ _ hb]
    refine ⟨hfresh, .of_fresh hfresh hothers rfl, Function.update_self .., hothers, rfl, rfl, rfl,
      info, ht', fun u => ?_⟩
    by_cases hu : u = t
    · subst hu
      simp [PupThreadInfo.view]
    · simp [hu]
  · cases hn

/-- The new object refers to its type and nothing else. -/
theorem Born.hasRefs {h h' : PupHeap} {t : Tid} {a : Addr} {type : Option Addr} {mark : Bool}
    (hb : Born h h' t a type mark) : HasRefs h'.mem a [type] :=
  ⟨_, [], hb.object, AttrList.nil_iff.mpr rfl, rfl⟩

/-! ### Stores -/

/-- The entry that `pup_iv_set` writes to, if there is one. -/
def foundEntry (mem : Memory) (fuel : Nat) (obj : Addr) (sym : Int) : Option Addr := do
  let o ← mem.objects obj
  (findAttr mem fuel o.attr_list_head sym).join

/-- A reference that is not the value of the entry at `attr`. -/
def RefersBut (mem : Memory) (attr y z : Addr) : Prop :=
  ∃ o l, mem.objects y = some o ∧ AttrList mem o.attr_list_head l ∧
    (o.type = some z ∨ ∃ p ∈ l, p.1 ≠ attr ∧ p.2.value = some z)

/-- The references that `pup_iv_set` does not overwrite. -/
def Keeps (mem : Memory) (fuel : Nat) (obj : Addr) (sym : Int) (y z : Addr) : Prop :=
  match foundEntry mem fuel obj sym with
  | some attr => RefersBut mem attr y z
  | none => RefersTo mem y z

/-- The object refers to the value once it has been stored: `obj`, and with it any other whose
list has the entry. -/
def Gains (mem : Memory) (fuel : Nat) (obj : Addr) (sym : Int) (y : Addr) : Prop :=
  match foundEntry mem fuel obj sym with
  | some attr => EntryOf mem y attr
  | none => y = obj ∧ ∃ rs, HasRefs mem y rs

/-- The references after a store of `val`. -/
def RefersAfter (mem : Memory) (fuel : Nat) (obj : Addr) (sym : Int) (val : Option Addr)
    (y z : Addr) : Prop :=
  Keeps mem fuel obj sym y z ∨ (val = some z ∧ Gains mem fuel obj sym y)

theorem RefersBut.refersTo {mem : Memory} {attr y z : Addr} (h : RefersBut mem attr y z) :
    RefersTo mem y z := by
  obtain ⟨o, l, ho, hl, hz⟩ := h
  refine ⟨_, ⟨o, l, ho, hl, rfl⟩, ?_⟩
  rcases hz with hz | ⟨p, hp, -, hz⟩
  · exact hz ▸ List.mem_cons_self
  · exact List.mem_cons_of_mem _ (List.mem_map.mpr ⟨p, hp, hz⟩)

theorem Keeps.refersTo {mem : Memory} {fuel : Nat} {obj : Addr} {sym : Int} {y z : Addr}
    (h : Keeps mem fuel obj sym y z) : RefersTo mem y z := by
  unfold Keeps at h
  split at h
  · exact h.refersTo
  · exact h

/-- Only what is there has references after the store. -/
theorem RefersAfter.hasRefs {mem : Memory} {fuel : Nat} {obj : Addr} {sym : Int}
    {val : Option Addr} {y z : Addr} (h : RefersAfter mem fuel obj sym val y z) :
    ∃ rs, HasRefs mem y rs := by
  rcases h with h | ⟨-, h⟩
  · obtain ⟨rs, hrs, -⟩ := h.refersTo
    exact ⟨rs, hrs⟩
  · unfold Gains at h
    split at h
    · obtain ⟨o, l, ho, hl, -⟩ := h
      exact ⟨_, o, l, ho, hl, rfl⟩
    · exact h.2

/-- A store has happened, after which the references are `refers`. -/
structure Stored (h h' : PupHeap) (refers : Addr → Addr → Prop) : Prop where
  rest : MemoryOnly h h'
  marks : ∀ b, (h'.mem.objects b).map PupObject.gc_mark = (h.mem.objects b).map PupObject.gc_mark
  refs : ∀ y rs, HasRefs h.mem y rs → ∃ rs', HasRefs h'.mem y rs' ∧ ∀ z, some z ∈ rs' ↔ refers y z

/-- The list after a write to the value of the entry at `attr`. -/
def rewritten (attr : Addr) (e : PupAttributeListEntry)
    (l : List (Addr × PupAttributeListEntry)) : List (Addr × PupAttributeListEntry) :=
  l.map fun p => if p.1 = attr then (attr, e) else p

theorem attrList_setAttr {mem : Memory} {attr : Addr} {e : PupAttributeListEntry}
    (he : mem.attrs attr = some e) (val : Option Addr) {head : Option Addr}
    {l : List (Addr × PupAttributeListEntry)} (h : AttrList mem head l) :
    AttrList (mem.setAttr attr { e with value := val }) head
      (rewritten attr { e with value := val } l) := by
  induction l generalizing head with
  | nil =>
      have hhead : head = none := by simpa using h.1.head
      subst hhead
      exact AttrList.nil_iff.mpr rfl
  | cons p rest ih =>
      obtain ⟨a, e'⟩ := p
      obtain ⟨hhead, he', hrest⟩ := AttrList.cons_iff.mp h
      subst hhead
      by_cases ha : a = attr
      · subst ha
        obtain rfl := Option.some.inj (he.symm.trans he')
        simp only [rewritten, List.map_cons, if_pos]
        exact AttrList.cons_iff.mpr ⟨rfl, Function.update_self .., ih hrest⟩
      · simp only [rewritten, List.map_cons, if_neg ha]
        refine AttrList.cons_iff.mpr ⟨rfl, ?_, ih hrest⟩
        rw [setAttr_of_ne _ _ ha, he']

theorem mem_rewritten {attr : Addr} {e : PupAttributeListEntry}
    {l : List (Addr × PupAttributeListEntry)} {z : Addr} :
    some z ∈ (rewritten attr e l).map (fun p => p.2.value) ↔
      (∃ p ∈ l, p.1 ≠ attr ∧ p.2.value = some z) ∨ (e.value = some z ∧ attr ∈ l.map Prod.fst) := by
  simp only [rewritten, List.map_map, List.mem_map, Function.comp_apply]
  constructor
  · rintro ⟨p, hp, hz⟩
    by_cases hpa : p.1 = attr
    · rw [if_pos hpa] at hz
      exact .inr ⟨hz, p, hp, hpa⟩
    · rw [if_neg hpa] at hz
      exact .inl ⟨p, hp, hpa, hz⟩
  · rintro (⟨p, hp, hpa, hz⟩ | ⟨hz, p, hp, hpa⟩)
    · exact ⟨p, hp, by rw [if_neg hpa, hz]⟩
    · exact ⟨p, hp, by rw [if_pos hpa, hz]⟩

/-- The entry at `attr` gets another value. -/
theorem setAttr_stored {h : PupHeap} {attr : Addr} {e : PupAttributeListEntry}
    (he : h.mem.attrs attr = some e) (val : Option Addr) :
    Stored h (h.setMem (h.mem.setAttr attr { e with value := val }))
      fun y z => RefersBut h.mem attr y z ∨ (val = some z ∧ EntryOf h.mem y attr) := by
  refine ⟨⟨rfl, rfl, rfl, fun _ => rfl⟩, fun _ => rfl, fun y rs hrs => ?_⟩
  obtain ⟨o, l, ho, hl, -⟩ := hrs
  refine ⟨_, ⟨o, _, ho, attrList_setAttr he val hl, rfl⟩, fun z => ?_⟩
  have hbut : RefersBut h.mem attr y z ↔
      o.type = some z ∨ ∃ p ∈ l, p.1 ≠ attr ∧ p.2.value = some z := by
    refine ⟨fun hz => ?_, fun hz => ⟨o, l, ho, hl, hz⟩⟩
    obtain ⟨o', l', ho', hl', hz⟩ := hz
    obtain rfl := Option.some.inj (ho.symm.trans ho')
    exact hl'.unique hl ▸ hz
  have hentry : EntryOf h.mem y attr ↔ attr ∈ l.map Prod.fst := by
    refine ⟨fun hz => ?_, fun hz => ⟨o, l, ho, hl, hz⟩⟩
    obtain ⟨o', l', ho', hl', hz⟩ := hz
    obtain rfl := Option.some.inj (ho.symm.trans ho')
    exact hl'.unique hl ▸ hz
  rw [List.mem_cons, mem_rewritten, hbut, hentry, or_assoc, eq_comm]

/-- A new entry in front of the list of `obj`. -/
theorem createAttr_stored {h h' : PupHeap} (hs : Sound h) {t : Tid} {sym : Int}
    {val : Option Addr} {base : Nat} {obj attr : Addr} {o o' : PupObject}
    (ho : h.mem.objects obj = some o)
    (hc : createAttr h t sym val o.attr_list_head base = some (h', attr))
    (ho' : h'.mem.objects obj = some o') :
    Stored h (h'.setMem (h'.mem.setObject obj { o' with attr_list_head := some attr }))
      fun y z => RefersTo h.mem y z ∨ (val = some z ∧ y = obj ∧ ∃ rs, HasRefs h.mem y rs) := by
  obtain ⟨h₁, e, halloc, -, rfl⟩ := createAttr_cases hc
  obtain ⟨tinfo, ht, ha⟩ := pupHeapAlloc_allocated hs halloc
  have hobjects : h₁.mem.objects = h.mem.objects := by
    funext b
    rw [ha.objects, if_neg (by simp)]
  have ho₁ : o' = o := by
    have ho'' : h₁.mem.objects obj = some o' := ho'
    rw [hobjects, ho] at ho''
    exact (Option.some.inj ho'').symm
  subst ho₁
  have hattrs : ∀ b, b ≠ attr →
      (h₁.mem.setAttr attr ⟨sym, val, o'.attr_list_head⟩).attrs b = h.mem.attrs b := by
    intro b hb
    rw [setAttr_of_ne _ _ hb, ha.attrs, if_neg fun hab => hb hab.2]
  -- no entry of a list is where the new one has been put
  have hold : ∀ {head l}, AttrList h.mem head l → ∀ p ∈ l, p.1 ≠ attr := by
    intro head l hl p hp heq
    have := hl.2 p hp
    rw [heq, ha.attrs_none] at this
    cases this
  have hlist : ∀ {head l}, AttrList h.mem head l →
      AttrList ((h₁.mem.setAttr attr ⟨sym, val, o'.attr_list_head⟩).setObject obj
        { o' with attr_list_head := some attr }) head l := by
    intro head l hl
    exact hl.congr fun p hp => hattrs p.1 (hold hl p hp)
  have hself : ∀ {l}, AttrList h.mem o'.attr_list_head l →
      AttrList ((h₁.mem.setAttr attr ⟨sym, val, o'.attr_list_head⟩).setObject obj
        { o' with attr_list_head := some attr }) (some attr)
        ((attr, ⟨sym, val, o'.attr_list_head⟩) :: l) := by
    intro l hl
    exact AttrList.cons_iff.mpr ⟨rfl, Function.update_self .., hlist hl⟩
  have hother : ∀ y, y ≠ obj → ((h₁.mem.setAttr attr ⟨sym, val, o'.attr_list_head⟩).setObject obj
      { o' with attr_list_head := some attr }).objects y = h.mem.objects y := by
    intro y hy
    rw [setObject_of_ne _ _ hy]
    exact congrFun hobjects y
  refine ⟨⟨ha.rest.gc, ha.rest.pc, ha.rest.thread_list, ha.rest.threads⟩, fun b => ?_,
    fun y rs hrs => ?_⟩
  · by_cases hb : b = obj
    · subst hb
      simp [Memory.setObject, ho]
    · exact congrArg _ (hother b hb)
  · obtain ⟨oy, l, hoy, hl, rfl⟩ := id hrs
    by_cases hy : y = obj
    · subst hy
      obtain rfl := Option.some.inj (ho.symm.trans hoy)
      refine ⟨_, ⟨_, _, Function.update_self .., hself hl, rfl⟩, fun z => ?_⟩
      rw [hrs.refersTo_iff, and_iff_left ⟨rfl, _, hrs⟩, List.map_cons]
      simp only [List.mem_cons, eq_comm]
      exact or_left_comm.trans or_comm
    · refine ⟨_, ⟨oy, l, (hother y hy).trans hoy, hlist hl, rfl⟩, fun z => ?_⟩
      rw [hrs.refersTo_iff, or_iff_left fun hnew => hy hnew.2.1]

theorem ivSet_stored {h h' : PupHeap} (hs : Sound h) {t : Tid} {fuel : Nat} {obj : Addr}
    {sym : Int} {val : Option Addr} {base : Nat}
    (hset : ivSet h t fuel obj sym val base = some h') :
    Stored h h' (RefersAfter h.mem fuel obj sym val) := by
  obtain ⟨o, ho, ⟨attr, e, hfind, he, rfl⟩ | ⟨h₁, attr, o', hfind, hc, ho', rfl⟩⟩ :=
    ivSet_cases hset
  · have hfound : foundEntry h.mem fuel obj sym = some attr := by
      simp [foundEntry, ho, hfind]
    have hrefers : RefersAfter h.mem fuel obj sym val =
        fun y z => RefersBut h.mem attr y z ∨ (val = some z ∧ EntryOf h.mem y attr) := by
      unfold RefersAfter Keeps Gains
      rw [hfound]
    exact hrefers ▸ setAttr_stored he val
  · have hfound : foundEntry h.mem fuel obj sym = none := by
      simp [foundEntry, ho, hfind]
    have hrefers : RefersAfter h.mem fuel obj sym val = fun y z =>
        RefersTo h.mem y z ∨ (val = some z ∧ y = obj ∧ ∃ rs, HasRefs h.mem y rs) := by
      unfold RefersAfter Keeps Gains
      rw [hfound]
    exact hrefers ▸ createAttr_stored hs ho hc ho'

end Pup.Heap
