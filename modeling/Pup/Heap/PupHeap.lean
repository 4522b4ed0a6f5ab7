/-
A heap over a whole run: allocation, collection and destruction.

Here the handshake and the list operations are single steps; `Pup.Threads` and
`Pup.Regions` are about what happens inside of these.  A step is a call of the runtime
by a mutator, or one reference or one region for the collector.  Mutators and the
collector take steps in any order, but for what the handshake imposes, and
`pup_heap_destroy` ends a run.

`attach_thread` stores a null `next`, and `attach_thread_to_heap` never sets it, so the
thread list is its head.

Region records are numbered in the order in which they are mapped, and `log` is a record
of what has happened to them.  `malloc` and `mmap` are taken to succeed; where they may
put something is up to a step's label.
-/
import Mathlib.Data.Finset.Insert
import Mathlib.Tactic.Simps.Basic
import Pup.Gc.RefQueue
import Pup.Heap.Blocks
import Pup.Lib.Machine

namespace Pup.Heap

open Pup.Gc Transition

/-- A mutator thread. -/
abbrev Tid := Nat

def MAX_REGION_ALLOCATION : Nat := 0x1000

/-- `sizeof(struct PupObject)`. -/
def sizeofPupObject : Nat := 24

/-- `sizeof(struct PupAttributeListEntry)`. -/
def sizeofPupAttributeListEntry : Nat := 24

structure PupThreadInfo where
  local_region : Nat
  gc_waiting : Bool
  /-- the lowest bit, which is all that gets into a mark -/
  current_gc_mark : Bool
  /-- what the live slots of the thread's stack frames hold, the innermost frame first -/
  frames : List (List (Option Addr))

/-- Where the collector thread is. -/
inductive GcPc
  | sleeping
  /-- `converge_on_safepoint` has sent the signal -/
  | converging (tinfo : Tid)
  /-- in `pup_gc_scan_heap`, with `rest` to be scanned of the segment at hand -/
  | scanning (rest : List (Option Addr))
  /-- in `collect_unmarked_objects` -/
  | collecting
  deriving DecidableEq, Repr

inductive Event
  | mmap (region : Nat)
  /-- a block has been handed out, with its data at `data` -/
  | alloc (region : Nat) (data : Nat) (kind : PupHeapKind)
  /-- the `destroy_instance` of the class of the object at `data` has run -/
  | destroy (region : Nat) (data : Nat)
  | munmap (region : Nat)
  deriving DecidableEq, Repr

structure PupHeap where
  mem : Memory
  gc : PupGCState
  threads : Tid → Option PupThreadInfo
  thread_list : Option Tid
  region_list : List Nat
  regions : Nat → Option PupHeapRegion
  /-- how many regions have been mapped -/
  mappings : Nat
  /-- the objects that are not in a region -/
  malloced : Finset Nat
  pc : GcPc
  log : List Event

/-! ### Single updates -/

@[simps]
def PupHeap.setThread (h : PupHeap) (t : Tid) (info : PupThreadInfo) : PupHeap :=
  { h with threads := Function.update h.threads t (some info) }

@[simps]
def PupHeap.setRegion (h : PupHeap) (i : Nat) (r : Option PupHeapRegion) : PupHeap :=
  { h with regions := Function.update h.regions i r }

@[simps]
def PupHeap.setMem (h : PupHeap) (mem : Memory) : PupHeap := { h with mem }

@[simps]
def PupHeap.setScan (h : PupHeap) (s : Scan) : PupHeap := { h with mem := s.mem, gc := s.state }

@[simps]
def PupHeap.setGc (h : PupHeap) (gc : PupGCState) : PupHeap := { h with gc }

@[simps]
def PupHeap.goto (h : PupHeap) (pc : GcPc) : PupHeap := { h with pc }

@[simps]
def PupHeap.record (h : PupHeap) (e : Event) : PupHeap := { h with log := h.log ++ [e] }

/-! ### Allocation -/

/-- A region as `mmap` returns it. -/
def freshRegion (base : Nat) : PupHeapRegion := ⟨base, base⟩

/-- `mmap` may return `base`: nothing else is in the range. -/
def Free (h : PupHeap) (base : Nat) : Prop :=
  (∀ i < h.mappings, ∀ r ∈ h.regions i, Apart r (freshRegion base)) ∧
    ∀ a ∈ h.malloced, ¬ (freshRegion base).Contains a

instance (r q : PupHeapRegion) : Decidable (Apart r q) := inferInstanceAs (Decidable (_ ∨ _))

instance (h : PupHeap) (base : Nat) : Decidable (Free h base) :=
  inferInstanceAs (Decidable ((∀ i < h.mappings, ∀ r ∈ h.regions i, _) ∧ ∀ a ∈ h.malloced, _))

/-- `pup_heap_region_allocate`; the new region has the number `h.mappings`. -/
@[simps]
def regionAllocate (h : PupHeap) (base : Nat) : PupHeap :=
  { (h.setRegion h.mappings (some (freshRegion base))).record (.mmap h.mappings) with
    mappings := h.mappings + 1 }

/-- `pup_heap_add_to_global_heap`. -/
@[simps]
def addToGlobalHeap (h : PupHeap) (i : Nat) : PupHeap :=
  { h with region_list := i :: h.region_list }

/-- The data of a new block: zeroes, with the bit set that is an object's mark.  In an
attribute list entry it is the lowest bit of `next`. -/
def gcMarkUnconditionally (mem : Memory) (data : Nat) (mark : Bool) : PupHeapKind → Memory
  | .obj => mem.setObject data ⟨none, none, mark⟩
  | .attr => mem.setAttr data ⟨0, none, if mark then some 1 else none⟩

/-- A block is handed out from region `i`, which has the room. -/
def PupHeap.handOut (h : PupHeap) (i : Nat) (r : PupHeapRegion) (size : Nat)
    (kind : PupHeapKind) (mark : Bool) : PupHeap :=
  ((h.setMem (gcMarkUnconditionally (makeRoomFor h.mem r size kind) (r.allocated + dataOffset)
    mark kind)).setRegion i (some (r.grown size))).record
      (.alloc i (r.allocated + dataOffset) kind)

/-- A full region is replaced by a new one, as `thread_local_alloc` does. -/
def rollOver (h : PupHeap) (t : Tid) (tinfo : PupThreadInfo) (base : Nat) : PupHeap :=
  addToGlobalHeap ((regionAllocate h base).setThread t { tinfo with local_region := h.mappings })
    tinfo.local_region

/-- `thread_local_alloc`: the heap after, and the block's data. -/
def threadLocalAlloc (h : PupHeap) (t : Tid) (size : Nat) (kind : PupHeapKind) (base : Nat) :
    Option (PupHeap × Addr) := do
  let tinfo ← h.threads t
  let region ← h.regions tinfo.local_region
  if haveRoomFor region size then
    some (h.handOut tinfo.local_region region size kind tinfo.current_gc_mark,
      region.allocated + dataOffset)
  else if Free h base then
    some ((rollOver h t tinfo base).handOut h.mappings (freshRegion base) size kind
      tinfo.current_gc_mark, base + dataOffset)
  else none

/-- `pup_heap_alloc`, which aborts for a large object. -/
def pupHeapAlloc (h : PupHeap) (t : Tid) (size : Nat) (kind : PupHeapKind) (base : Nat) :
    Option (PupHeap × Addr) :=
  if size ≤ MAX_REGION_ALLOCATION then threadLocalAlloc h t size kind base else none

/-- `pup_heap_thread_init`; `junk` is what `malloc` left in `current_gc_mark`. -/
def threadInit (h : PupHeap) (t : Tid) (base : Nat) (junk : Bool) : Option PupHeap :=
  if h.threads t = none ∧ Free h base then
    some { (regionAllocate h base).setThread t ⟨h.mappings, false, junk, []⟩ with
      thread_list := some t }
  else none

/-! ### What mutators do -/

/-- `obj_init`. -/
def objInit (mem : Memory) (a : Addr) (type : Option Addr) : Option Memory := do
  let o ← mem.objects a
  some (mem.setObject a { o with type := type, attr_list_head := none })

/-- The caller keeps a reference on its stack. -/
def PupHeap.hold (h : PupHeap) (t : Tid) (a : Addr) : Option PupHeap := do
  let tinfo ← h.threads t
  some (h.setThread t { tinfo with frames := [some a] :: tinfo.frames })

/-- `pup_object_allocate_instance`, and the like for structs that begin with an object. -/
def newObject (h : PupHeap) (t : Tid) (size : Nat) (type : Option Addr) (base : Nat) :
    Option PupHeap :=
  if sizeofPupObject ≤ size then do
    let (h, a) ← pupHeapAlloc h t size .obj base
    let mem ← objInit h.mem a type
    (h.setMem mem).hold t a
  else none

/-- `pup_string_new_cstr`: the object is not in a region, and `junk` is its mark. -/
def stringNewCstr (h : PupHeap) (t : Tid) (a : Addr) (type : Option Addr) (junk : Bool) :
    Option PupHeap :=
  if a ∉ h.malloced ∧ ∀ i < h.mappings, ∀ r ∈ h.regions i, ¬ r.Contains a then
    { h.setMem (h.mem.setObject a ⟨type, none, junk⟩) with
      malloced := insert a h.malloced }.hold t a
  else none

/-- `find_attr`. -/
def findAttr (mem : Memory) : Nat → Option Addr → Int → Option (Option Addr)
  | 0, _, _ => none
  | _ + 1, none, _ => some none
  | fuel + 1, some attr, sym => do
      let entry ← mem.attrs attr
      if entry.name_sym = sym then some (some attr) else findAttr mem fuel entry.next sym

/-- `create_attr`: the heap after, and the entry. -/
def createAttr (h : PupHeap) (t : Tid) (sym : Int) (val next : Option Addr) (base : Nat) :
    Option (PupHeap × Addr) := do
  let (h, attr) ← pupHeapAlloc h t sizeofPupAttributeListEntry .attr base
  some (h.setMem (h.mem.setAttr attr ⟨sym, val, next⟩), attr)

/-- `pup_iv_set`. -/
def ivSet (h : PupHeap) (t : Tid) (fuel : Nat) (obj : Addr) (sym : Int) (val : Option Addr)
    (base : Nat) : Option PupHeap := do
  let o ← h.mem.objects obj
  match ← findAttr h.mem fuel o.attr_list_head sym with
  | some attr =>
      let entry ← h.mem.attrs attr
      some (h.setMem (h.mem.setAttr attr { entry with value := val }))
  | none =>
      let (h, attr) ← createAttr h t sym val o.attr_list_head base
      let o ← h.mem.objects obj
      some (h.setMem (h.mem.setObject obj { o with attr_list_head := some attr }))

/-- A mutator's live slots get other values. -/
def setFrames (h : PupHeap) (t : Tid) (frames : List (List (Option Addr))) : Option PupHeap := do
  let tinfo ← h.threads t
  some (h.setThread t { tinfo with frames := frames })

/-! ### Collection -/

/-- The start of `perform_gc`. -/
def periodStart (h : PupHeap) : PupHeap := h.setGc (gcPeriodStart h.gc)

/-- `siguser1_handler`, in thread `t`. -/
def siguser1Handler (h : PupHeap) (t : Tid) (tinfo : PupThreadInfo) : PupHeap :=
  h.setThread t { tinfo with gc_waiting := true, current_gc_mark := h.gc.live_mark_value }

/-- `pup_heap_safepoint`, in a thread with `gc_waiting` set. -/
def pupHeapSafepoint (h : PupHeap) (t : Tid) (tinfo : PupThreadInfo) : Except Fault PupHeap := do
  let gc ← scanStack h.gc tinfo.frames
  return (h.setGc gc).setThread t { tinfo with gc_waiting := false }

/-- `collect_heap_object`: the counters after. -/
def collectHeapObject (mem : Memory) (gc : PupGCState) (block : Nat × HeapObject) :
    Except Fault PupGCState :=
  match block.2.kind with
  | .obj => do
      let o ← deref mem.objects (some (block.1 + dataOffset))
      if o.gc_mark = gc.live_mark_value then return { gc with live_count := gc.live_count + 1 }
      else return { gc with garbage_count := gc.garbage_count + 1 }
  | .attr => return gc

/-- `pup_object_destroy` for a block of region `i` that is an object: the log after. -/
def destroyHeapObject (mem : Memory) (i : Nat) (log : List Event) (block : Nat × HeapObject) :
    Except Fault (List Event) :=
  match block.2.kind with
  | .obj => do
      let o ← deref mem.objects (some (block.1 + dataOffset))
      -- `destroy_instance` is a field of the class
      let _ ← deref mem.objects o.type
      return log ++ [.destroy i (block.1 + dataOffset)]
  | .attr => return log

/-- `free_region`. -/
def freeRegion (h : PupHeap) (i : Nat) : Except Fault PupHeap := do
  let r ← deref h.regions (some i)
  let log ← walkRegion h.mem (destroyHeapObject h.mem i) r h.log
  return ({ h with mem := unmap h.mem r, log := log }.setRegion i none).record (.munmap i)

/-- What `collect_unmarked_objects` does with a region it has stolen. -/
def collectUnmarkedObjectsInRegion (h : PupHeap) (i : Nat) : Except Fault PupHeap := do
  let r ← deref h.regions (some i)
  let gc ← walkRegion h.mem (collectHeapObject h.mem) r h.gc
  -- "reset the allocation for this region so that no object freeing will occur"
  freeRegion ((h.setGc gc).setRegion i (some (freshRegion r.region))) i

/-- `steal_heap_region` when nobody else is at the list. -/
@[simps]
def PupHeap.stolen (h : PupHeap) (rest : List Nat) : PupHeap := { h with region_list := rest }

/-- The loop of `collect_unmarked_objects` over the regions on the list. -/
def collectRegions : List Nat → PupHeap → Except Fault PupHeap
  | [], h => .ok h
  | i :: rest, h => do
      let h ← collectUnmarkedObjectsInRegion (h.stolen rest) i
      collectRegions rest h

/-- `collect_unmarked_objects` when no mutator pushes a region meanwhile. -/
def collectUnmarkedObjects (h : PupHeap) : Except Fault PupHeap :=
  collectRegions h.region_list h

/-- The signal to a thread and its arrival at the barrier, with nothing in between. -/
def convergeOnSafepoint (h : PupHeap) (t : Tid) : Except Fault PupHeap := do
  let tinfo ← deref h.threads (some t)
  let h := siguser1Handler h t tinfo
  let tinfo ← deref h.threads (some t)
  pupHeapSafepoint h t tinfo

/-- `perform_gc`, without any step of a mutator but those the handshake asks for. -/
def performGc (fuel : Nat) (h : PupHeap) : Except Fault PupHeap := do
  let h := periodStart h
  let h ← h.thread_list.elim (.ok h) (convergeOnSafepoint h)
  let s ← scanHeap fuel ⟨h.mem, h.gc⟩
  collectUnmarkedObjects (h.setScan s)

/-! ### Destruction -/

/-- `destroy_global_heap`. -/
def destroyGlobalHeap (h : PupHeap) : Except Fault PupHeap := h.region_list.foldlM freeRegion h

/-- `pup_heap_destroy`, called by thread `t`, once the collector thread has been joined. -/
def pupHeapDestroy (h : PupHeap) (t : Tid) : Except Fault PupHeap := do
  let h ← destroyGlobalHeap h
  let tinfo ← deref h.threads (some t)
  freeRegion h tinfo.local_region

/-! ### The machine -/

inductive Label
  | threadInit (t : Tid) (base : Nat) (junk : Bool)
  | newObject (t : Tid) (size : Nat) (type : Option Addr) (base : Nat)
  | stringNewCstr (t : Tid) (a : Addr) (type : Option Addr) (junk : Bool)
  | ivSet (t : Tid) (fuel : Nat) (obj : Addr) (sym : Int) (val : Option Addr) (base : Nat)
  | setFrames (t : Tid) (frames : List (List (Option Addr)))
  | periodStart
  /-- `siguser1_handler` runs -/
  | handler (t : Tid)
  /-- `pup_heap_safepoint` -/
  | safepoint (t : Tid)
  /-- `steal_segment_from_global_queue` in `pup_gc_scan_heap` -/
  | stealSegment
  /-- `scan_queue_ref` -/
  | scanRef (fuel : Nat)
  /-- `steal_heap_region`, and the region it returns, in `collect_unmarked_objects` -/
  | collectRegion

/-- The collector begins with the thread at the head of the list, or with the heap. -/
def startStep (h : PupHeap) : Option PupHeap :=
  match h.pc with
  | .sleeping => some ((periodStart h).goto (h.thread_list.elim (.scanning []) .converging))
  | _ => none

def handlerStep (h : PupHeap) (t : Tid) : Option PupHeap := do
  let tinfo ← h.threads t
  if h.pc = .converging t then some (siguser1Handler h t tinfo) else none

/-- Past the barrier the collector finds no further thread on the list. -/
def safepointStep (h : PupHeap) (t : Tid) : Option PupHeap := do
  let tinfo ← h.threads t
  if h.pc = .converging t ∧ tinfo.gc_waiting = true then do
    let h ← (pupHeapSafepoint h t tinfo).toOption
    some (h.goto (.scanning []))
  else none

def stealStep (h : PupHeap) : Option PupHeap :=
  match h.pc with
  | .scanning [] =>
      match stealSegmentFromGlobalQueue ⟨h.mem, h.gc⟩ with
      | none => some (h.goto .collecting)
      | some (seg, s) => some ((h.setScan s).goto (.scanning seg.refs))
  | _ => none

def scanStep (h : PupHeap) (fuel : Nat) : Option PupHeap :=
  match h.pc with
  | .scanning (ref :: rest) => do
      let s ← (scanQueueRef fuel ⟨h.mem, h.gc⟩ ref).toOption
      some ((h.setScan s).goto (.scanning rest))
  | _ => none

def collectStep (h : PupHeap) : Option PupHeap :=
  match h.pc with
  | .collecting =>
      match h.region_list with
      | [] => some (h.goto .sleeping)
      | i :: rest => (collectUnmarkedObjectsInRegion (h.stolen rest) i).toOption
  | _ => none

def step (h : PupHeap) : Label → Option PupHeap
  | .threadInit t base junk => threadInit h t base junk
  | .newObject t size type base => newObject h t size type base
  | .stringNewCstr t a type junk => stringNewCstr h t a type junk
  | .ivSet t fuel obj sym val base => ivSet h t fuel obj sym val base
  | .setFrames t frames => setFrames h t frames
  | .periodStart => startStep h
  | .handler t => handlerStep h t
  | .safepoint t => safepointStep h t
  | .stealSegment => stealStep h
  | .scanRef fuel => scanStep h fuel
  | .collectRegion => collectStep h

/-- `pup_heap_init`, before the main thread attaches itself. -/
def pupHeapInit (junk : Nat) : PupHeap :=
  { mem := ⟨fun _ => none, fun _ => none, fun _ => none⟩, gc := gcStateCreate junk,
    threads := fun _ => none, thread_list := none, region_list := [], regions := fun _ => none,
    mappings := 0, malloced := ∅, pc := .sleeping, log := [] }

def heapMachine : Machine PupHeap Label where
  init h := ∃ junk, h = pupHeapInit junk
  next := step

end Pup.Heap
