/-
The threads of a heap and their handshake with the collector.

One machine holds what `heap.c` does between threads: `attach_thread` putting a
`struct PupThreadInfo` on `heap->thread_list`, `perform_gc` walking that list and
signalling each thread on it, `siguser1_handler`, and `pup_heap_safepoint` with the
two-party barrier.  Every atomic load, store and compare-and-swap of the attach
loop is a step of its own, as is every call that can block; a label names the step
and carries what the code does not decide (the bytes `malloc` left behind, the root
segments a stack scan finds).

A thread attaches once, so its `PupThreadInfo` is named by the thread.  Root
segments are opaque here (`σ`); the global reference queue records which thread
pushed each of them.  Pushing a segment is one step: the retries of
`add_segment_to_global_queue` change nothing another thread can see.
-/
import Mathlib.Logic.Function.Basic
import Pup.Lib.Machine
import Pup.Lib.Chain

namespace Pup.Threads

open Transition Chain

/-- A thread, and the `struct PupThreadInfo` it owns once it has attached. -/
abbrev Tid := Nat

/-- Where a mutator thread is. -/
inductive Pc (σ : Type)
  /-- it has not called `pup_heap_thread_init` -/
  | outside
  /-- `attach_thread` has filled in the `PupThreadInfo` and set it thread-specific -/
  | prepared
  /-- `attach_thread_to_heap` has loaded `old_head` -/
  | loaded (old_head : Option Tid)
  /-- attached, and outside `pup_heap_safepoint` -/
  | running
  /-- in `pup_gc_scan_stack`, with these segments still to be queued -/
  | scanning (rest : List σ)
  /-- inside `pthread_barrier_wait` -/
  | waiting
  /-- back from the barrier, `tinfo->gc_waiting = false` not yet executed -/
  | released
  | finished

/-- Attached to the heap and still running. -/
def Pc.live {σ : Type} : Pc σ → Bool
  | .running | .scanning _ | .waiting | .released => true
  | .outside | .prepared | .loaded _ | .finished => false

/-- The mutator is not between the safepoint check and the end of its barrier wait. -/
def Pc.calm {σ : Type} : Pc σ → Bool
  | .scanning _ | .waiting => false
  | _ => true

/--
A thread, its `struct PupThreadInfo`, and whether a `SIGUSR1` is pending for it.
The last four fields are history: how many signals it has handled, how many barrier
rendezvous it has had, and, since the last `pup_gc_period_start`, how often it has
scanned its stack and which root segments the scan found.
-/
structure Thread (σ : Type) where
  pc : Pc σ
  next : Option Tid
  gc_waiting : Bool
  current_gc_mark : Int
  pending : Bool
  handled : Nat
  met : Nat
  scans : Nat
  found : List σ

/-- A party to the safepoint barrier. -/
inductive Party
  | gc
  | mutator (t : Tid)
  deriving DecidableEq

/-- Where the collector thread is. -/
inductive GcPc
  /-- `nanosleep` between two collections -/
  | sleeping
  /-- `pup_gc_period_start` done, the head of the list not yet loaded -/
  | started
  /-- the top of the loop, `tinfo` in hand -/
  | visiting (tinfo : Option Tid)
  /-- `pthread_sigqueue` done -/
  | signalled (t : Tid)
  /-- inside `pthread_barrier_wait` -/
  | waiting (t : Tid)
  /-- back from the barrier -/
  | released (t : Tid)
  /-- past the loop: `pup_gc_scan_heap` -/
  | scanHeap
  /-- `pthread_sigqueue` failed and the process aborted -/
  | aborted

/-- The thread the collector has signalled and not yet met. -/
def GcPc.target : GcPc → Option Tid
  | .signalled t | .waiting t => some t
  | _ => none

/-- One release of the barrier: who was waiting, who came, who was last signalled. -/
structure Rendezvous where
  first : Party
  second : Party
  signalled : Option Tid

/--
The shared state.  `head`, `walked`, `last_signalled` and `rendezvous` are history:
the list head this collection loaded, the threads it has met, the thread it
signalled last, and every release of the barrier so far.
-/
structure State (σ : Type) where
  threads : Tid → Thread σ
  thread_list : Option Tid
  /-- who is inside `safepoint_barrier`, if anyone -/
  barrier : Option Party
  gc : GcPc
  live_mark_value : Bool
  /-- the segments of `reference_queue_head`, with the thread that queued them -/
  queue : List (Tid × σ)
  head : Option Tid
  walked : List Tid
  last_signalled : Option Tid
  rendezvous : List Rendezvous

variable {σ : Type}

/-- A field of one thread changes. -/
def State.upd (s : State σ) (t : Tid) (f : Thread σ → Thread σ) : State σ :=
  { s with threads := Function.update s.threads t (f (s.threads t)) }

/-- The `next` pointers of all thread records. -/
abbrev State.next (s : State σ) (t : Tid) : Option Tid := (s.threads t).next

/-- The segments thread `t` has on the queue, the latest first. -/
def pushedBy (q : List (Tid × σ)) (t : Tid) : List σ :=
  (q.filter fun p => p.1 = t).map Prod.snd

/-! ### The barrier

`pthread_barrier_init(…, 2)`: the first to arrive waits, the second releases both,
and nothing says who the two are.
-/

/-- `pthread_barrier_wait` returns for one party. -/
def release (s : State σ) : Party → State σ
  | .mutator t => s.upd t fun th => { th with pc := .released, met := th.met + 1 }
  | .gc =>
      match s.gc with
      | .signalled t | .waiting t => { s with gc := .released t, walked := s.walked ++ [t] }
      | _ => s

/-- One party blocks in `pthread_barrier_wait`. -/
def block (s : State σ) : Party → State σ
  | .mutator t =>
      { s with barrier := some (.mutator t) }.upd t fun th => { th with pc := .waiting }
  | .gc =>
      match s.gc with
      | .signalled t => { s with gc := .waiting t, barrier := some .gc }
      | _ => s

/-- `safepoint_barrier_wait`. -/
def safepointBarrierWait (s : State σ) (p : Party) : State σ :=
  match s.barrier with
  | none => block s p
  | some q =>
      let met : Rendezvous := { first := q, second := p, signalled := s.last_signalled }
      release (release { s with barrier := none, rendezvous := met :: s.rendezvous } q) p

/-! ### The steps -/

/-- What a step does, and who does it. -/
inductive Label (σ : Type)
  /-- `attach_thread` up to its loop; `junk` is what `malloc` left in `current_gc_mark` -/
  | prepare (t : Tid) (junk : Int)
  /-- `get_thread_list_head` -/
  | loadHead (t : Tid)
  /-- `swap_thread_list_head` -/
  | swapHead (t : Tid)
  /-- `pup_heap_safepoint`; `segs` is what `pup_gc_scan_stack` would queue -/
  | safepoint (t : Tid) (segs : List σ)
  /-- `add_segment_to_global_queue` for the next root segment -/
  | queueSegment (t : Tid)
  /-- `announce_mutator_arrival` enters the barrier -/
  | arrive (t : Tid)
  /-- `tinfo->gc_waiting = false` -/
  | clear (t : Tid)
  /-- `siguser1_handler` -/
  | handle (t : Tid)
  | finish (t : Tid)
  /-- `pup_gc_period_start` -/
  | periodStart
  /-- `perform_gc` loads the list head -/
  | gcLoadHead
  /-- `pthread_sigqueue` in `converge_on_safepoint` -/
  | signal
  /-- the collector enters the barrier -/
  | gcArrive
  /-- `threadinfo_next` -/
  | gcNext
  /-- the loop is over -/
  | gcLoopEnd
  /-- `pup_gc_scan_heap` empties the queue, and the collection runs to its end -/
  | gcScan

/-- One step of one thread, of its signal handler, or of the collector. -/
def next (s : State σ) : Label σ → Option (State σ)
  | .prepare t junk =>
      match (s.threads t).pc with
      | .outside => some (s.upd t fun th =>
          { th with pc := .prepared, next := none, gc_waiting := false, current_gc_mark := junk })
      | _ => none
  | .loadHead t =>
      match (s.threads t).pc with
      | .prepared => some (s.upd t fun th => { th with pc := .loaded s.thread_list })
      | _ => none
  | .swapHead t =>
      match (s.threads t).pc with
      | .loaded old_head =>
          -- note that `new_head->next` is not set to `old_head`
          if s.thread_list = old_head then
            some ({ s with thread_list := some t }.upd t fun th => { th with pc := .running })
          else
            some (s.upd t fun th => { th with pc := .prepared })
      | _ => none
  | .safepoint t segs =>
      match (s.threads t).pc with
      | .running =>
          if (s.threads t).gc_waiting then
            some (s.upd t fun th =>
              { th with pc := .scanning segs, scans := th.scans + 1, found := segs })
          else some s
      | _ => none
  | .queueSegment t =>
      match (s.threads t).pc with
      | .scanning (seg :: rest) =>
          some ({ s with queue := (t, seg) :: s.queue }.upd t fun th =>
            { th with pc := .scanning rest })
      | _ => none
  | .arrive t =>
      match (s.threads t).pc with
      | .scanning [] => some (safepointBarrierWait s (.mutator t))
      | _ => none
  | .clear t =>
      match (s.threads t).pc with
      | .released => some (s.upd t fun th => { th with pc := .running, gc_waiting := false })
      | _ => none
  | .handle t =>
      if (s.threads t).pending && (s.threads t).pc.live then
        some (s.upd t fun th =>
          { th with pending := false, gc_waiting := true,
                    current_gc_mark := s.live_mark_value.toNat, handled := th.handled + 1 })
      else none
  | .finish t =>
      match (s.threads t).pc with
      | .running | .outside => some (s.upd t fun th => { th with pc := .finished })
      | _ => none
  | .periodStart =>
      match s.gc with
      | .sleeping =>
          some { s with
            gc := .started, live_mark_value := !s.live_mark_value,
            threads := fun t => { s.threads t with scans := 0, found := [] } }
      | _ => none
  | .gcLoadHead =>
      match s.gc with
      | .started => some { s with gc := .visiting s.thread_list, head := s.thread_list }
      | _ => none
  | .signal =>
      match s.gc with
      | .visiting (some t) =>
          match (s.threads t).pc with
          | .finished => some { s with gc := .aborted }
          | _ => some ({ s with gc := .signalled t, last_signalled := some t }.upd t fun th =>
                    { th with pending := true })
      | _ => none
  | .gcArrive =>
      match s.gc with
      | .signalled _ => some (safepointBarrierWait s .gc)
      | _ => none
  | .gcNext =>
      match s.gc with
      | .released t => some { s with gc := .visiting (s.next t) }
      | _ => none
  | .gcLoopEnd =>
      match s.gc with
      | .visiting none => some { s with gc := .scanHeap }
      | _ => none
  | .gcScan =>
      match s.gc with
      | .scanHeap => some { s with gc := .sleeping, queue := [], walked := [] }
      | _ => none

/--
Every way a step can go, and what the thread or the collector was at.  Whatever is kept by a
step is kept in each of these cases: an invariant goes by cases on `Effect`, and never looks
into `next`.
-/
inductive Effect (s : State σ) : Label σ → State σ → Prop
  | prepare {t : Tid} {junk : Int} (hpc : (s.threads t).pc = .outside) :
      Effect s (.prepare t junk) (s.upd t fun th =>
        { th with pc := .prepared, next := none, gc_waiting := false, current_gc_mark := junk })
  | loadHead {t : Tid} (hpc : (s.threads t).pc = .prepared) :
      Effect s (.loadHead t) (s.upd t fun th => { th with pc := .loaded s.thread_list })
  /-- the compare-and-swap succeeds -/
  | swapped {t : Tid} (hpc : (s.threads t).pc = .loaded s.thread_list) :
      Effect s (.swapHead t)
        ({ s with thread_list := some t }.upd t fun th => { th with pc := .running })
  /-- another thread has been quicker, and the loop goes round -/
  | retry {t : Tid} {old_head : Option Tid} (hpc : (s.threads t).pc = .loaded old_head)
      (hne : s.thread_list ≠ old_head) :
      Effect s (.swapHead t) (s.upd t fun th => { th with pc := .prepared })
  | scan {t : Tid} {segs : List σ} (hpc : (s.threads t).pc = .running)
      (hflag : (s.threads t).gc_waiting = true) :
      Effect s (.safepoint t segs) (s.upd t fun th =>
        { th with pc := .scanning segs, scans := th.scans + 1, found := segs })
  /-- nobody is collecting -/
  | pass {t : Tid} {segs : List σ} : Effect s (.safepoint t segs) s
  | queueSegment {t : Tid} {seg : σ} {rest : List σ}
      (hpc : (s.threads t).pc = .scanning (seg :: rest)) :
      Effect s (.queueSegment t) ({ s with queue := (t, seg) :: s.queue }.upd t fun th =>
        { th with pc := .scanning rest })
  | arrive {t : Tid} (hpc : (s.threads t).pc = .scanning []) :
      Effect s (.arrive t) (safepointBarrierWait s (.mutator t))
  | clear {t : Tid} (hpc : (s.threads t).pc = .released) :
      Effect s (.clear t) (s.upd t fun th => { th with pc := .running, gc_waiting := false })
  | handle {t : Tid} (hpending : (s.threads t).pending = true)
      (hlive : (s.threads t).pc.live = true) :
      Effect s (.handle t) (s.upd t fun th =>
        { th with pending := false, gc_waiting := true,
                  current_gc_mark := s.live_mark_value.toNat, handled := th.handled + 1 })
  | finish {t : Tid} (hpc : (s.threads t).pc = .running ∨ (s.threads t).pc = .outside) :
      Effect s (.finish t) (s.upd t fun th => { th with pc := .finished })
  | periodStart (hgc : s.gc = .sleeping) :
      Effect s .periodStart { s with
        gc := .started, live_mark_value := !s.live_mark_value,
        threads := fun t => { s.threads t with scans := 0, found := [] } }
  | gcLoadHead (hgc : s.gc = .started) :
      Effect s .gcLoadHead { s with gc := .visiting s.thread_list, head := s.thread_list }
  | signal {t : Tid} (hgc : s.gc = .visiting (some t)) (hpc : (s.threads t).pc ≠ .finished) :
      Effect s .signal ({ s with gc := .signalled t, last_signalled := some t }.upd t fun th =>
        { th with pending := true })
  /-- the thread has ended, and there is nothing to signal -/
  | abort {t : Tid} (hgc : s.gc = .visiting (some t)) (hpc : (s.threads t).pc = .finished) :
      Effect s .signal { s with gc := .aborted }
  | gcArrive {t : Tid} (hgc : s.gc = .signalled t) :
      Effect s .gcArrive (safepointBarrierWait s .gc)
  | gcNext {t : Tid} (hgc : s.gc = .released t) :
      Effect s .gcNext { s with gc := .visiting (s.next t) }
  | gcLoopEnd (hgc : s.gc = .visiting none) : Effect s .gcLoopEnd { s with gc := .scanHeap }
  | gcScan (hgc : s.gc = .scanHeap) :
      Effect s .gcScan { s with gc := .sleeping, queue := [], walked := [] }

/-- A step takes one of these ways. -/
theorem next_effect {s s' : State σ} {i : Label σ} (hs : next s i = some s') : Effect s i s' := by
  cases i with
  | prepare t junk =>
      simp only [next] at hs
      split at hs
      · rename_i hpc
        cases hs
        exact .prepare hpc
      · cases hs
  | loadHead t =>
      simp only [next] at hs
      split at hs
      · rename_i hpc
        cases hs
        exact .loadHead hpc
      · cases hs
  | swapHead t =>
      simp only [next] at hs
      split at hs
      · rename_i old_head hpc
        by_cases heq : s.thread_list = old_head
        · rw [if_pos heq] at hs
          cases hs
          exact .swapped (heq ▸ hpc)
        · rw [if_neg heq] at hs
          cases hs
          exact .retry hpc heq
      · cases hs
  | safepoint t segs =>
      simp only [next] at hs
      split at hs
      · rename_i hpc
        by_cases hflag : (s.threads t).gc_waiting = true
        · rw [if_pos hflag] at hs
          cases hs
          exact .scan hpc hflag
        · rw [if_neg hflag] at hs
          cases hs
          exact .pass
      · cases hs
  | queueSegment t =>
      simp only [next] at hs
      split at hs
      · rename_i seg rest hpc
        cases hs
        exact .queueSegment hpc
      · cases hs
  | arrive t =>
      simp only [next] at hs
      split at hs
      · rename_i hpc
        cases hs
        exact .arrive hpc
      · cases hs
  | clear t =>
      simp only [next] at hs
      split at hs
      · rename_i hpc
        cases hs
        exact .clear hpc
      · cases hs
  | handle t =>
      simp only [next] at hs
      split at hs
      · rename_i hp
        obtain ⟨hpending, hlive⟩ := (Bool.and_eq_true _ _).mp hp
        cases hs
        exact .handle hpending hlive
      · cases hs
  | finish t =>
      simp only [next] at hs
      split at hs
      · rename_i hpc
        cases hs
        exact .finish (Or.inl hpc)
      · rename_i hpc
        cases hs
        exact .finish (Or.inr hpc)
      · cases hs
  | periodStart =>
      simp only [next] at hs
      split at hs
      · rename_i hgc
        cases hs
        exact .periodStart hgc
      · cases hs
  | gcLoadHead =>
      simp only [next] at hs
      split at hs
      · rename_i hgc
        cases hs
        exact .gcLoadHead hgc
      · cases hs
  | signal =>
      simp only [next] at hs
      split at hs
      · rename_i t hgc
        split at hs
        · rename_i hpc
          cases hs
          exact .abort hgc hpc
        · rename_i hpc
          cases hs
          exact .signal hgc hpc
      · cases hs
  | gcArrive =>
      simp only [next] at hs
      split at hs
      · rename_i t hgc
        cases hs
        exact .gcArrive hgc
      · cases hs
  | gcNext =>
      simp only [next] at hs
      split at hs
      · rename_i t hgc
        cases hs
        exact .gcNext hgc
      · cases hs
  | gcLoopEnd =>
      simp only [next] at hs
      split at hs
      · rename_i hgc
        cases hs
        exact .gcLoopEnd hgc
      · cases hs
  | gcScan =>
      simp only [next] at hs
      split at hs
      · rename_i hgc
        cases hs
        exact .gcScan hgc
      · cases hs

/-! ### Where a run starts -/

/-- A `PupThreadInfo` nobody has signalled yet. -/
def Thread.fresh (pc : Pc σ) (next : Option Tid) (mark : Int) : Thread σ :=
  { pc, next, gc_waiting := false, current_gc_mark := mark, pending := false,
    handled := 0, met := 0, scans := 0, found := [] }

/-- `pup_heap_init` before its own `pup_heap_thread_init`: nobody is attached. -/
def heapInit (σ : Type) : State σ :=
  { threads := fun _ => Thread.fresh .outside none 0, thread_list := none, barrier := none,
    gc := .sleeping, live_mark_value := false, queue := [], head := none, walked := [],
    last_signalled := none, rendezvous := [] }

/--
A heap at rest: any number of threads on the list, all running, none of them
signalled.  The protocol is started from any such state, not only from `heapInit`.
-/
structure AtRest (s : State σ) : Prop where
  gc : s.gc = .sleeping
  barrier : s.barrier = none
  queue : s.queue = []
  walked : s.walked = []
  rendezvous : s.rendezvous = []
  threads : ∀ t, ∃ pc next mark, s.threads t = Thread.fresh pc next mark ∧
    (pc = .running ∨ pc = .outside)
  list : ∃ l, Linked s.next s.thread_list l ∧ ∀ t, t ∈ l ↔ (s.threads t).pc.live = true

theorem heapInit_atRest : AtRest (heapInit σ) := by
  refine ⟨rfl, rfl, rfl, rfl, rfl, fun t => ⟨.outside, none, 0, rfl, Or.inr rfl⟩, [], .nil, ?_⟩
  intro t
  simp [heapInit, Thread.fresh, Pc.live]

/-- The machine as `pup_heap_init` starts it. -/
def heapMachine (σ : Type) : Machine (State σ) (Label σ) where
  init s := s = heapInit σ
  next := next

/-- The same machine started from any heap at rest. -/
def protocol (σ : Type) : Machine (State σ) (Label σ) where
  init := AtRest
  next := next

/-! ### What the small updates do -/

@[simp] theorem upd_threads (s : State σ) (t u : Tid) (f : Thread σ → Thread σ) :
    (s.upd t f).threads u = if u = t then f (s.threads t) else s.threads u := by
  by_cases h : u = t
  · subst h; simp [State.upd]
  · simp [State.upd, h]

@[simp] theorem upd_thread_list (s : State σ) (t : Tid) (f : Thread σ → Thread σ) :
    (s.upd t f).thread_list = s.thread_list := rfl

@[simp] theorem upd_barrier (s : State σ) (t : Tid) (f : Thread σ → Thread σ) :
    (s.upd t f).barrier = s.barrier := rfl

@[simp] theorem upd_gc (s : State σ) (t : Tid) (f : Thread σ → Thread σ) :
    (s.upd t f).gc = s.gc := rfl

@[simp] theorem upd_live_mark_value (s : State σ) (t : Tid) (f : Thread σ → Thread σ) :
    (s.upd t f).live_mark_value = s.live_mark_value := rfl

@[simp] theorem upd_queue (s : State σ) (t : Tid) (f : Thread σ → Thread σ) :
    (s.upd t f).queue = s.queue := rfl

@[simp] theorem upd_head (s : State σ) (t : Tid) (f : Thread σ → Thread σ) :
    (s.upd t f).head = s.head := rfl

@[simp] theorem upd_walked (s : State σ) (t : Tid) (f : Thread σ → Thread σ) :
    (s.upd t f).walked = s.walked := rfl

@[simp] theorem upd_last_signalled (s : State σ) (t : Tid) (f : Thread σ → Thread σ) :
    (s.upd t f).last_signalled = s.last_signalled := rfl

@[simp] theorem upd_rendezvous (s : State σ) (t : Tid) (f : Thread σ → Thread σ) :
    (s.upd t f).rendezvous = s.rendezvous := rfl

end Pup.Threads
