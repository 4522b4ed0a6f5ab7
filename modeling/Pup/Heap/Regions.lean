/-
The regions of a heap and who has them.

Any number of mutators run `thread_local_alloc`, and one collector thread runs
`collect_unmarked_objects`.  A mutator whose region is full maps a new one, makes it
its `local_region` and pushes the old one on `heap->region_list`; the collector
steals regions from the list, one at a time, and frees them.  Each atomic load, store
and compare-and-swap is a step.  An allocation that fits changes nothing here, and
when a region is full depends on sizes, so a mutator may roll over whenever it is not
doing so already.

`malloc` may hand out any address that is free, also that of a freed region record,
and `mmap` any free range.  A write to or a read of a freed record and a `munmap` of
something unmapped set `corrupt`.
-/
import Mathlib.Data.Finset.Erase
import Mathlib.Data.Finset.Insert
import Mathlib.Logic.Equiv.Basic
import Mathlib.Logic.Function.Basic
import Pup.Lib.Machine
import Pup.Lib.Chain
import Pup.Lib.Ownership

namespace Pup.Regions

open Transition Chain Ownership

/-- A mutator thread. -/
abbrev Tid := Nat

/-- The address of a `struct PupHeapRegion`. -/
abbrev Rec := Nat

def REGION_SIZE : Nat := 0x100000

/-- The fields of a `struct PupHeapRegion` that say where the region is and what it
is linked to. -/
structure PupHeapRegion where
  region : Nat
  next : Option Rec
  deriving DecidableEq, Repr

/-- Where a mutator is in `pup_heap_thread_init` or `thread_local_alloc`. -/
inductive Pc
  | outside
  /-- attached, and not rolling over -/
  | ready
  /-- `pup_heap_region_allocate` has returned; `old` is the region to be replaced -/
  | allocated (region : Rec) (old : Option Rec)
  /-- at the top of the loop of `pup_heap_add_to_global_heap` -/
  | rolled (old : Rec) (limit : Nat)
  /-- `global_heap_head` has returned -/
  | loaded (old : Rec) (old_head : Option Rec) (limit : Nat)
  /-- `set_region_next` is done -/
  | linked (old : Rec) (old_head : Option Rec) (limit : Nat)
  deriving DecidableEq, Repr

/-- The region record a mutator works on that is not its `local_region`. -/
def Pc.hand : Pc → Option Rec
  | .outside | .ready => none
  | .allocated r _ | .rolled r _ | .loaded r _ _ | .linked r _ _ => some r

/-- Where the collector is in `collect_unmarked_objects`. -/
inductive GcPc
  /-- at the top of the loop of `steal_heap_region`, or not collecting -/
  | idle
  | loaded (r : Rec)
  | nextLoaded (r : Rec) (next : Option Rec)
  /-- `steal_heap_region` has returned `r` -/
  | stolen (r : Rec)
  deriving DecidableEq, Repr

def GcPc.hand : GcPc → Option Rec
  | .stolen r => some r
  | _ => none

@[simp] theorem GcPc.hand_stolen (r : Rec) : (GcPc.stolen r).hand = some r := rfl

@[simp] theorem GcPc.hand_idle : GcPc.idle.hand = none := rfl

structure Thread where
  pc : Pc
  local_region : Option Rec
  deriving DecidableEq, Repr

structure State where
  threads : Tid → Thread
  gc : GcPc
  region_list : Option Rec
  /-- the region records `malloc` has handed out and nobody has freed -/
  records : Rec → Option PupHeapRegion
  /-- the start of every mapped region -/
  mapped : Finset Nat
  corrupt : Bool
  aborted : Bool

/-- One thread changes. -/
def State.upd (s : State) (t : Tid) (f : Thread → Thread) : State :=
  { s with threads := Function.update s.threads t (f (s.threads t)) }

/-- One record is written, allocated or freed. -/
def State.put (s : State) (r : Rec) (x : Option PupHeapRegion) : State :=
  { s with records := Function.update s.records r x }

/-- The `next` field of a record. -/
def State.next (s : State) (r : Rec) : Option Rec := (s.records r).bind PupHeapRegion.next

/-- The region of a record. -/
def State.base (s : State) (r : Rec) : Option Nat := (s.records r).map PupHeapRegion.region

/-- `mmap` may return `b`: the range meets no mapped region. -/
def Free (mapped : Finset Nat) (b : Nat) : Prop :=
  ∀ b' ∈ mapped, b + REGION_SIZE ≤ b' ∨ b' + REGION_SIZE ≤ b

instance (mapped : Finset Nat) (b : Nat) : Decidable (Free mapped b) :=
  inferInstanceAs (Decidable (∀ b' ∈ mapped, _))

inductive Label
  /-- `pup_heap_region_allocate`: the record at `r`, the region at `b` -/
  | allocate (t : Tid) (r : Rec) (b : Nat)
  | setLocal (t : Tid)
  /-- `global_heap_head` in `pup_heap_add_to_global_heap` -/
  | loadHead (t : Tid)
  | setNext (t : Tid)
  /-- `swap_heap_region_head` in `pup_heap_add_to_global_heap` -/
  | swapHead (t : Tid)
  /-- `global_heap_head` in `steal_heap_region` -/
  | gcLoadHead
  | gcLoadNext
  /-- `swap_heap_region_head` in `steal_heap_region` -/
  | gcSwapHead
  /-- `free_region` -/
  | gcFree
  deriving DecidableEq, Repr

/-- `mmap` of a whole region. -/
def mmap (s : State) (b : Nat) : State := { s with mapped := insert b s.mapped }

/-- `munmap` of a whole region. -/
def munmap (s : State) (b : Nat) : State :=
  { s with mapped := s.mapped.erase b, corrupt := s.corrupt || decide (b ∉ s.mapped) }

/-- `pup_heap_region_allocate`, called with `old` as the thread's region. -/
def allocate (s : State) (t : Tid) (old : Option Rec) (r : Rec) (b : Nat) : Option State :=
  if s.records r = none ∧ Free s.mapped b then
    some (((mmap s b).put r (some { region := b, next := none })).upd t fun th =>
      { th with pc := .allocated r old })
  else none

def step (s : State) : Label → Option State
  | .allocate t r b =>
      match (s.threads t).pc with
      | .outside => allocate s t none r b
      | .ready => allocate s t (s.threads t).local_region r b
      | _ => none
  | .setLocal t =>
      match (s.threads t).pc with
      | .allocated r none => some (s.upd t fun _ => { pc := .ready, local_region := some r })
      | .allocated r (some old) =>
          some (s.upd t fun _ => { pc := .rolled old 1000, local_region := some r })
      | _ => none
  | .loadHead t =>
      match (s.threads t).pc with
      | .rolled old limit =>
          some (s.upd t fun th => { th with pc := .loaded old s.region_list limit })
      | _ => none
  | .setNext t =>
      match (s.threads t).pc with
      | .loaded old old_head limit =>
          match s.records old with
          | some x => some ((s.put old (some { x with next := old_head })).upd t fun th =>
              { th with pc := .linked old old_head limit })
          | none => some ({ s with corrupt := true }.upd t fun th =>
              { th with pc := .linked old old_head limit })
      | _ => none
  | .swapHead t =>
      match (s.threads t).pc with
      | .linked old old_head limit =>
          if s.region_list = old_head then
            some ({ s with region_list := some old }.upd t fun th => { th with pc := .ready })
          else if limit - 1 = 0 then some { s with aborted := true }
          else some (s.upd t fun th => { th with pc := .rolled old (limit - 1) })
      | _ => none
  | .gcLoadHead =>
      match s.gc, s.region_list with
      | .idle, some r => some { s with gc := .loaded r }
      | .idle, none => some s
      | _, _ => none
  | .gcLoadNext =>
      match s.gc with
      | .loaded r =>
          match s.records r with
          | some x => some { s with gc := .nextLoaded r x.next }
          | none => some { s with gc := .nextLoaded r none, corrupt := true }
      | _ => none
  | .gcSwapHead =>
      match s.gc with
      | .nextLoaded r nx =>
          if s.region_list = some r then some { s with region_list := nx, gc := .stolen r }
          else some { s with gc := .idle }
      | _ => none
  | .gcFree =>
      match s.gc with
      | .stolen r =>
          match s.records r with
          | some x => some ({ munmap s x.region with gc := .idle }.put r none)
          | none => some { s with gc := .idle, corrupt := true }
      | _ => none

/-- A heap nobody has attached to yet. -/
def heapInit : State :=
  { threads := fun _ => { pc := .outside, local_region := none }, gc := .idle,
    region_list := none, records := fun _ => none, mapped := ∅, corrupt := false,
    aborted := false }

def regionMachine : Machine State Label where
  init s := s = heapInit
  next s i := if s.aborted then none else step s i

/-! ### Places -/

/-- Where a region can be. -/
inductive Place
  | localRegion (t : Tid)
  | hand (t : Tid)
  | global
  | collector
  deriving DecidableEq, Repr

/-- The place holds the record; `l` is the list from `region_list`. -/
def State.Holds (s : State) (l : List Rec) : Place → Rec → Prop
  | .localRegion t, r => (s.threads t).local_region = some r
  | .hand t, r => (s.threads t).pc.hand = some r
  | .global, r => r ∈ l
  | .collector, r => s.gc.hand = some r

/-- The place holds the region that starts at `b`. -/
def State.HoldsRegion (s : State) (l : List Rec) (p : Place) (b : Nat) : Prop :=
  ∃ r, s.Holds l p r ∧ s.base r = some b

section Updates

variable (s : State) (t u : Tid) (f : Thread → Thread) (r q : Rec) (x : Option PupHeapRegion)
  (b : Nat)

@[simp] theorem upd_threads :
    (s.upd t f).threads u = if u = t then f (s.threads t) else s.threads u := by
  by_cases h : u = t
  · subst h; simp [State.upd]
  · simp [State.upd, h]

@[simp] theorem upd_base : (s.upd t f).base r = s.base r := rfl
@[simp] theorem upd_next : (s.upd t f).next r = s.next r := rfl
@[simp] theorem upd_records : (s.upd t f).records = s.records := rfl
@[simp] theorem upd_mapped : (s.upd t f).mapped = s.mapped := rfl

@[simp] theorem put_records : (s.put r x).records q = if q = r then x else s.records q := by
  by_cases h : q = r
  · subst h; simp [State.put]
  · simp [State.put, h]

@[simp] theorem put_base :
    (s.put r x).base q = if q = r then x.map PupHeapRegion.region else s.base q := by
  by_cases h : q = r <;> simp [State.base, h]

@[simp] theorem put_next :
    (s.put r x).next q = if q = r then x.bind PupHeapRegion.next else s.next q := by
  by_cases h : q = r <;> simp [State.next, h]

@[simp] theorem put_mapped : (s.put r x).mapped = s.mapped := rfl

@[simp] theorem mmap_base : (mmap s b).base r = s.base r := rfl
@[simp] theorem mmap_next : (mmap s b).next r = s.next r := rfl
@[simp] theorem mmap_records : (mmap s b).records = s.records := rfl
@[simp] theorem mmap_mapped : (mmap s b).mapped = insert b s.mapped := rfl

end Updates

end Pup.Regions
