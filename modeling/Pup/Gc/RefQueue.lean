/-
The reference queue and the mark phase.

References still to be scanned are kept in segments of at most
`REF_QUEUE_SEGMENT_SIZE`.  Full segments, and those a stack scan has filled, are on a
global stack; while the heap is scanned, the segment being filled is
`current_segment`, and it gets on the stack only when it is full and another
reference comes.  `pup_gc_scan_heap` steals and scans segments until the stack is
empty.

`pup_gc_state_create` leaves `current_segment` as `malloc` returned it, so it is part
of the model whether it points anywhere.  `malloc` is taken to succeed.
-/
import Pup.Object

namespace Pup.Gc

open Pup

def REF_QUEUE_SEGMENT_SIZE : Nat := 200

/-- A segment: the slots in use, oldest first. -/
structure PupRefQueueSegment where
  refs : List (Option Addr)
  in_use_le : refs.length ≤ REF_QUEUE_SEGMENT_SIZE

/-- A pointer to a segment. -/
inductive SegmentPtr
  | null
  | segment (seg : PupRefQueueSegment)
  /-- bytes that were never written -/
  | wild

/-- The references in a segment behind a pointer. -/
def SegmentPtr.refs : SegmentPtr → List (Option Addr)
  | .segment seg => seg.refs
  | .null | .wild => []

structure PupGCState where
  /-- the segments from `reference_queue_head` on -/
  reference_queue : List PupRefQueueSegment
  live_mark_value : Bool
  garbage_count : Nat
  live_count : Nat
  current_segment : SegmentPtr

/-- `pup_refqueuesegment_create`. -/
def segmentCreate : PupRefQueueSegment := ⟨[], by decide⟩

/-- `pup_refqueuesegment_add`, which aborts when the segment is full. -/
def segmentAdd (seg : PupRefQueueSegment) (ref : Option Addr) :
    Except Fault PupRefQueueSegment :=
  if h : seg.refs.length < REF_QUEUE_SEGMENT_SIZE then
    .ok ⟨seg.refs ++ [ref], by simpa [Nat.succ_le_iff] using h⟩
  else .error .abort

/-- `add_segment_to_global_queue`. -/
def addSegmentToGlobalQueue (state : PupGCState) (seg : PupRefQueueSegment) : PupGCState :=
  { state with reference_queue := seg :: state.reference_queue }

/-- `queue_for_marking`: the state and the segment pointer after. -/
def queueForMarking (state : PupGCState) (ref : Option Addr) :
    SegmentPtr → Except Fault (PupGCState × SegmentPtr)
  | .null => do
      let seg ← segmentAdd segmentCreate ref
      return (state, .segment seg)
  | .wild => .error .wild
  | .segment seg =>
      if seg.refs.length < REF_QUEUE_SEGMENT_SIZE then do
        let seg ← segmentAdd seg ref
        return (state, .segment seg)
      else do
        let seg' ← segmentAdd segmentCreate ref
        return (addSegmentToGlobalQueue state seg, .segment seg')

/-- `pup_gc_queue_for_marking`, the visitor of the mark phase. -/
def gcQueueForMarking (state : PupGCState) (ref : Option Addr) : Except Fault PupGCState := do
  let (state, seg) ← queueForMarking state ref state.current_segment
  return { state with current_segment := seg }

/-- `collect_stack_root_pointers` for a frame whose live slots hold `slots`. -/
def collectStackRootPointers (state : PupGCState) (slots : List (Option Addr)) :
    Except Fault PupGCState := do
  let (state, seg) ← slots.foldlM (fun (st, seg) root => queueForMarking st root seg)
    (state, .null)
  match seg with
  | .segment seg => return addSegmentToGlobalQueue state seg
  | _ => return state

/-- `pup_gc_scan_stack`: the frames of a stack, from the innermost out. -/
def scanStack (state : PupGCState) (frames : List (List (Option Addr))) :
    Except Fault PupGCState :=
  frames.foldlM collectStackRootPointers state

/-! ### Scanning the heap -/

/-- The memory and the collector's state, which scanning changes together. -/
structure Scan where
  mem : Memory
  state : PupGCState

/-- `scan_queue_ref`. -/
def scanQueueRef (fuel : Nat) (s : Scan) (ref : Option Addr) : Except Fault Scan := do
  let (marked, mem) ← gcMark s.mem ref s.state.live_mark_value
  if marked then
    let state ← eachRef mem gcQueueForMarking fuel ref s.state
    return { mem, state }
  else return { s with mem }

/-- `pup_refqueuesegment_scan`. -/
def segmentScan (fuel : Nat) (s : Scan) (seg : PupRefQueueSegment) : Except Fault Scan :=
  seg.refs.foldlM (scanQueueRef fuel) s

/-- The state without the head of the global queue. -/
def Scan.stolen (s : Scan) (rest : List PupRefQueueSegment) : Scan :=
  ⟨s.mem, { s.state with reference_queue := rest }⟩

/-- `steal_segment_from_global_queue`. -/
def stealSegmentFromGlobalQueue (s : Scan) : Option (PupRefQueueSegment × Scan) :=
  match s.state.reference_queue with
  | [] => none
  | seg :: rest => some (seg, s.stolen rest)

/-- The loop of `pup_gc_scan_heap` for at most `n - 1` segments. -/
def scanSegments (fuel : Nat) : Nat → Scan → Except Fault Scan
  | 0, _ => .error .outOfFuel
  | n + 1, s =>
      match stealSegmentFromGlobalQueue s with
      | none => .ok s
      | some (seg, s) => do
          let s ← segmentScan fuel s seg
          scanSegments fuel n s

/-- `pup_gc_scan_heap`. -/
def scanHeap (fuel : Nat) (s : Scan) : Except Fault Scan := scanSegments fuel fuel s

/-- `pup_gc_state_create`; `junk` is what `malloc` left in `current_segment`. -/
def gcStateCreate (junk : Nat) : PupGCState :=
  { reference_queue := [], live_mark_value := false, garbage_count := 0, live_count := 0,
    current_segment := if junk = 0 then .null else .wild }

/-- `pup_gc_period_start`. -/
def gcPeriodStart (state : PupGCState) : PupGCState :=
  { state with garbage_count := 0, live_count := 0, live_mark_value := !state.live_mark_value }

theorem scanSegments_nil {fuel n : Nat} {s : Scan} (hq : s.state.reference_queue = []) :
    scanSegments fuel (n + 1) s = .ok s := by
  rw [scanSegments, stealSegmentFromGlobalQueue, hq]

theorem scanSegments_cons {fuel n : Nat} {s : Scan} {seg : PupRefQueueSegment}
    {rest : List PupRefQueueSegment} (hq : s.state.reference_queue = seg :: rest) :
    scanSegments fuel (n + 1) s =
      segmentScan fuel (s.stolen rest) seg >>= scanSegments fuel n := by
  rw [scanSegments, stealSegmentFromGlobalQueue, hq]

end Pup.Gc
