/-
Threads that scan their stacks at the same time.

Each thread runs `collect_stack_root_pointers` over its frames, with the calls of
`queue_for_marking` and `add_segment_to_global_queue` written out.  The load of the queue's
head, the store of `next_segment` and the compare-and-swap are steps of their own, so that
the steps of other threads may come between them; so is `malloc`, which may return any
address where nothing is.  The label of a step is the thread that takes it and that address.

A thread writes to no segment but the one it is filling, which no other thread knows of and
which is not on the queue (`Inv`).  A step therefore is either private to its thread or
pushes that segment (`Effect`), and neither changes the multiset of the references that are
on the queue, in a segment being filled or still to be read.

Frames without a safepoint record are skipped before any of this, so they are left out.
-/
import Mathlib.Algebra.BigOperators.Group.Finset.Basic
import Mathlib.Algebra.Order.BigOperators.Group.Multiset
import Mathlib.Data.Fintype.BigOperators
import Pup.Gc.Mark
import Pup.Lib.Machine

namespace Pup.Gc

open Transition Chain

/-- A stack frame that stands at a safepoint; `fp` is 0 if the register cannot be read. -/
structure Frame where
  fp : Nat
  live_offsets : List Int
  deriving DecidableEq

/-- The live slots of a frame of the stack memory `stack`. -/
def Frame.roots (stack : Int → Option Addr) (frame : Frame) : List (Option Addr) :=
  if frame.fp = 0 then [] else frame.live_offsets.map fun off => stack (frame.fp + off)

/-- Where `add_segment_to_global_queue` returns to. -/
inductive Return
  /-- in `queue_for_marking` for the slot at `off` -/
  | queueing (fp : Nat) (off : Int) (rest : List Int)
  /-- at the end of `collect_stack_root_pointers` -/
  | frameEnd
  deriving DecidableEq

/-- Where a thread is. -/
inductive ScanPc
  /-- between two frames -/
  | nextFrame
  /-- the top of the loop over the offsets -/
  | loop (fp : Nat) (current_segment : Option Addr) (offsets : List Int)
  /-- `pup_refqueuesegment_create` -/
  | create (fp : Nat) (off : Int) (rest : List Int)
  /-- `pup_refqueuesegment_add` -/
  | add (fp : Nat) (seg : Addr) (off : Int) (rest : List Int)
  /-- `get_ref_queue_head` -/
  | load (seg : Addr) (k : Return)
  /-- `pup_refqueuesegment_set_next` -/
  | setNext (seg : Addr) (head : Option Addr) (k : Return)
  /-- `compare_and_swap_ref_queue_head` -/
  | compareAndSwap (seg : Addr) (head : Option Addr) (k : Return)
  /-- the process has aborted, or read where nothing is -/
  | died
  deriving DecidableEq

def Return.pc : Return → ScanPc
  | .queueing fp off rest => .create fp off rest
  | .frameEnd => .nextFrame

/-- A thread and the frames it has not come to yet. -/
structure Scanner where
  frames : List Frame
  pc : ScanPc
  deriving DecidableEq

/-- A `struct PupRefQueueSegment` in memory. -/
structure SegmentCell where
  seg : PupRefQueueSegment
  next_segment : Option Addr

/-- The memory the segments are in, and `reference_queue_head`. -/
structure SharedQueue where
  head : Option Addr
  cells : Addr → Option SegmentCell

def SharedQueue.write (q : SharedQueue) (a : Addr) (c : SegmentCell) : SharedQueue :=
  { q with cells := Function.update q.cells a (some c) }

/-- The `next_segment` pointers. -/
def SharedQueue.next (q : SharedQueue) (a : Addr) : Option Addr :=
  (q.cells a).bind SegmentCell.next_segment

/-- The references in the segment at an address. -/
def SharedQueue.refs (q : SharedQueue) (a : Addr) : List (Option Addr) :=
  (q.cells a).elim [] fun c => c.seg.refs

/-- One step of a thread; `fresh` is what `malloc` would return. -/
def scannerStep (stack : Int → Option Addr) (fresh : Addr) (q : SharedQueue) (t : Scanner) :
    Option (SharedQueue × Scanner) :=
  match t.pc with
  | .nextFrame =>
      match t.frames with
      | [] => none
      | frame :: rest =>
          if frame.fp = 0 then some (q, ⟨rest, .nextFrame⟩)
          else some (q, ⟨rest, .loop frame.fp none frame.live_offsets⟩)
  | .loop _ none [] => some (q, ⟨t.frames, .nextFrame⟩)
  | .loop _ (some seg) [] => some (q, ⟨t.frames, .load seg .frameEnd⟩)
  | .loop fp none (off :: rest) => some (q, ⟨t.frames, .create fp off rest⟩)
  | .loop fp (some seg) (off :: rest) =>
      match q.cells seg with
      | none => some (q, ⟨t.frames, .died⟩)
      | some c =>
          if c.seg.refs.length < REF_QUEUE_SEGMENT_SIZE then
            some (q, ⟨t.frames, .add fp seg off rest⟩)
          else some (q, ⟨t.frames, .load seg (.queueing fp off rest)⟩)
  | .create fp off rest =>
      match q.cells fresh with
      | some _ => none
      | none => some (q.write fresh ⟨segmentCreate, none⟩, ⟨t.frames, .add fp fresh off rest⟩)
  | .add fp seg off rest =>
      match q.cells seg with
      | none => some (q, ⟨t.frames, .died⟩)
      | some c =>
          match segmentAdd c.seg (stack (fp + off)) with
          | .error _ => some (q, ⟨t.frames, .died⟩)
          | .ok seg' =>
              some (q.write seg { c with seg := seg' }, ⟨t.frames, .loop fp (some seg) rest⟩)
  | .load seg k => some (q, ⟨t.frames, .setNext seg q.head k⟩)
  | .setNext seg head k =>
      match q.cells seg with
      | none => some (q, ⟨t.frames, .died⟩)
      | some c =>
          some (q.write seg { c with next_segment := head },
            ⟨t.frames, .compareAndSwap seg head k⟩)
  | .compareAndSwap seg head k =>
      if q.head = head then some ({ q with head := some seg }, ⟨t.frames, k.pc⟩)
      else some (q, ⟨t.frames, .load seg k⟩)
  | .died => none

/-- The queue and the threads. -/
structure Scanners (n : Nat) where
  queue : SharedQueue
  threads : Fin n → Scanner

/-- All threads have scanned all their frames. -/
def Scanners.finished {n : Nat} (s : Scanners n) : Prop := ∀ i, s.threads i = ⟨[], .nextFrame⟩

instance {n : Nat} (s : Scanners n) : Decidable s.finished :=
  inferInstanceAs (Decidable (∀ i, s.threads i = ⟨[], .nextFrame⟩))

/-- Every thread `i` is about to scan the frames `frames i`, and the queue is `q₀`. -/
def scanners {n : Nat} (stack : Int → Option Addr) (frames : Fin n → List Frame)
    (q₀ : SharedQueue) : Machine (Scanners n) (Fin n × Addr) where
  init s := s = ⟨q₀, fun i => ⟨frames i, .nextFrame⟩⟩
  next s := fun (i, fresh) =>
    (scannerStep stack fresh s.queue (s.threads i)).map fun (q, t) =>
      ⟨q, Function.update s.threads i t⟩

/-! ### What a thread holds -/

/-- The segment a thread is filling or pushing. -/
def ScanPc.own : ScanPc → Option Addr
  | .loop _ seg _ => seg
  | .add _ seg _ _ | .load seg _ | .setNext seg _ _ | .compareAndSwap seg _ _ => some seg
  | .nextFrame | .create _ _ _ | .died => none

/-- The slots of the frame it has not read yet. -/
def Return.unread (stack : Int → Option Addr) : Return → List (Option Addr)
  | .queueing fp off rest => (off :: rest).map fun off => stack (fp + off)
  | .frameEnd => []

def ScanPc.unread (stack : Int → Option Addr) : ScanPc → List (Option Addr)
  | .loop fp _ offsets => offsets.map fun off => stack (fp + off)
  | .create fp off rest | .add fp _ off rest => (off :: rest).map fun off => stack (fp + off)
  | .load _ k | .setNext _ _ k | .compareAndSwap _ _ k => k.unread stack
  | .nextFrame | .died => []

/-- What is in a thread's segment and what it has not read yet. -/
def Scanner.due (stack : Int → Option Addr) (q : SharedQueue) (t : Scanner) :
    Multiset (Option Addr) :=
  ↑(t.pc.own.elim [] q.refs) + ↑(t.pc.unread stack) +
    ↑(t.frames.flatMap (Frame.roots stack))

/-- What a place in the code relies on. -/
def ScanPc.Relies (q : SharedQueue) : ScanPc → Prop
  | .add _ seg _ _ => (q.refs seg).length < REF_QUEUE_SEGMENT_SIZE
  | .compareAndSwap seg head _ => q.next seg = head
  | .died => False
  | .nextFrame | .loop _ _ _ | .create _ _ _ | .load _ _ | .setNext _ _ _ => True

/-- What holds of a thread whatever the others do. -/
structure Scanner.Sound (q : SharedQueue) (t : Scanner) : Prop where
  allocated : ∀ a, t.pc.own = some a → (q.cells a).isSome
  relies : t.pc.Relies q

/-! ### What a step does -/

/-- A step of a thread is its own affair, or it pushes the segment the thread has filled. -/
inductive Effect (stack : Int → Option Addr) (q : SharedQueue) (t : Scanner) :
    SharedQueue → Scanner → Prop
  | own {q' : SharedQueue} {t' : Scanner} (hhead : q'.head = q.head)
      (hframe : ∀ a, t'.pc.own ≠ some a → q'.cells a = q.cells a)
      (hown : ∀ a, t'.pc.own = some a → t.pc.own = some a ∨ q.cells a = none)
      (hdue : t'.due stack q' = t.due stack q) (hsound : t'.Sound q') : Effect stack q t q' t'
  | push {t' : Scanner} {seg : Addr} (hseg : t.pc.own = some seg) (hnext : q.next seg = q.head)
      (hown : t'.pc.own = none) (hdue : ↑(q.refs seg) + t'.due stack q = t.due stack q)
      (hsound : t'.Sound { q with head := some seg }) :
      Effect stack q t { q with head := some seg } t'

theorem refs_eq {q : SharedQueue} {a : Addr} {c : SegmentCell} (h : q.cells a = some c) :
    q.refs a = c.seg.refs := by
  rw [SharedQueue.refs, h]
  rfl

theorem next_eq {q : SharedQueue} {a : Addr} {c : SegmentCell} (h : q.cells a = some c) :
    q.next a = c.next_segment := by
  rw [SharedQueue.next, h]
  rfl

@[simp] theorem write_head (q : SharedQueue) (a : Addr) (c : SegmentCell) :
    (q.write a c).head = q.head := rfl

theorem write_self (q : SharedQueue) (a : Addr) (c : SegmentCell) :
    (q.write a c).cells a = some c := Function.update_self ..

theorem write_of_ne (q : SharedQueue) {a b : Addr} (c : SegmentCell) (h : b ≠ a) :
    (q.write a c).cells b = q.cells b := Function.update_of_ne h ..

/-- A step that touches no memory. -/
theorem Effect.stay {stack : Int → Option Addr} {q : SharedQueue} {t t' : Scanner}
    (hown : t'.pc.own = t.pc.own) (hdue : t'.due stack q = t.due stack q)
    (hsound : t'.Sound q) : Effect stack q t q t' :=
  .own rfl (fun _ _ => rfl) (fun _ ha => .inl (hown ▸ ha)) hdue hsound

/-- A step that writes to the thread's own segment. -/
theorem Effect.write {stack : Int → Option Addr} {q : SharedQueue} {t t' : Scanner}
    {seg : Addr} {c : SegmentCell} (hown : t'.pc.own = some seg)
    (hold : t.pc.own = some seg ∨ q.cells seg = none)
    (hdue : t'.due stack (q.write seg c) = t.due stack q)
    (hsound : t'.Sound (q.write seg c)) : Effect stack q t (q.write seg c) t' := by
  refine .own rfl (fun _ ha => write_of_ne q c ?_) (fun a ha => ?_) hdue hsound
  · intro heq
    exact ha (heq ▸ hown)
  · obtain rfl : seg = a := Option.some.inj (hown.symm.trans ha)
    exact hold

theorem Return.own_pc (k : Return) : k.pc.own = none := by
  cases k <;> rfl

/-- A step in which a thread with a segment goes on with the same segment. -/
theorem Effect.goto {stack : Int → Option Addr} {q : SharedQueue} {frames : List Frame}
    {pc pc' : ScanPc} (hs : Scanner.Sound q ⟨frames, pc⟩) (hown : pc'.own = pc.own)
    (hunread : pc'.unread stack = pc.unread stack) (hrelies : pc'.Relies q) :
    Effect stack q ⟨frames, pc⟩ q ⟨frames, pc'⟩ := by
  refine .stay hown ?_ ⟨fun a ha => hs.allocated a (hown ▸ ha), hrelies⟩
  simp only [Scanner.due, hown, hunread]

/-- **A step of a thread is private or a push.** -/
theorem scannerStep_effect {stack : Int → Option Addr} {fresh : Addr} {q q' : SharedQueue}
    {t t' : Scanner} (hs : t.Sound q) (hstep : scannerStep stack fresh q t = some (q', t')) :
    Effect stack q t q' t' := by
  obtain ⟨frames, pc⟩ := t
  cases pc with
  | nextFrame =>
      cases frames with
      | nil => cases hstep
      | cons frame rest =>
          by_cases hfp : frame.fp = 0
          · simp only [scannerStep, if_pos hfp] at hstep
            cases hstep
            refine .stay rfl ?_ ⟨hs.allocated, trivial⟩
            simp [Scanner.due, ScanPc.own, ScanPc.unread, Frame.roots, hfp]
          · simp only [scannerStep, if_neg hfp] at hstep
            cases hstep
            refine .stay rfl ?_ ⟨hs.allocated, trivial⟩
            simp [Scanner.due, ScanPc.own, ScanPc.unread, Frame.roots, hfp]
  | loop fp cur offsets =>
      cases cur with
      | none =>
          cases offsets with
          | nil =>
              cases hstep
              exact .goto hs rfl rfl trivial
          | cons off rest =>
              cases hstep
              exact .goto hs rfl rfl trivial
      | some seg =>
          cases offsets with
          | nil =>
              cases hstep
              exact .goto hs rfl rfl trivial
          | cons off rest =>
              obtain ⟨c, hc⟩ := Option.isSome_iff_exists.mp (hs.allocated seg rfl)
              simp only [scannerStep, hc] at hstep
              by_cases hroom : c.seg.refs.length < REF_QUEUE_SEGMENT_SIZE
              · rw [if_pos hroom] at hstep
                cases hstep
                refine .goto hs rfl rfl ?_
                rw [ScanPc.Relies, refs_eq hc]
                exact hroom
              · rw [if_neg hroom] at hstep
                cases hstep
                exact .goto hs rfl rfl trivial
  | create fp off rest =>
      cases hfree : q.cells fresh with
      | some c =>
          simp only [scannerStep, hfree] at hstep
          cases hstep
      | none =>
          simp only [scannerStep, hfree] at hstep
          cases hstep
          have hrefs : (q.write fresh ⟨segmentCreate, none⟩).refs fresh = [] :=
            refs_eq (write_self q fresh _)
          refine .write rfl (.inr hfree) ?_ ⟨fun a ha => ?_, ?_⟩
          · simp [Scanner.due, ScanPc.own, ScanPc.unread, hrefs]
          · obtain rfl : fresh = a := Option.some.inj ha
            rw [write_self]
            rfl
          · rw [ScanPc.Relies, hrefs]
            decide
  | add fp seg off rest =>
      obtain ⟨c, hc⟩ := Option.isSome_iff_exists.mp (hs.allocated seg rfl)
      have hroom : c.seg.refs.length < REF_QUEUE_SEGMENT_SIZE := by
        have hrelies : (q.refs seg).length < REF_QUEUE_SEGMENT_SIZE := hs.relies
        rwa [refs_eq hc] at hrelies
      obtain ⟨seg', hadd, hrefs'⟩ := segmentAdd_ok (stack (fp + off)) hroom
      simp only [scannerStep, hc, hadd] at hstep
      cases hstep
      have hrefs : (q.write seg { c with seg := seg' }).refs seg =
          q.refs seg ++ [stack (fp + off)] := by
        rw [refs_eq (write_self q seg _), refs_eq hc]
        exact hrefs'
      refine .write rfl (.inl rfl) ?_ ⟨fun a ha => ?_, trivial⟩
      · simp [Scanner.due, ScanPc.own, ScanPc.unread, hrefs]
      · obtain rfl : seg = a := Option.some.inj ha
        rw [write_self]
        rfl
  | load seg k =>
      cases hstep
      exact .goto hs rfl rfl trivial
  | setNext seg head k =>
      obtain ⟨c, hc⟩ := Option.isSome_iff_exists.mp (hs.allocated seg rfl)
      simp only [scannerStep, hc] at hstep
      cases hstep
      have hrefs : (q.write seg { c with next_segment := head }).refs seg = q.refs seg := by
        rw [refs_eq (write_self q seg _), refs_eq hc]
      refine .write rfl (.inl rfl) ?_ ⟨fun a ha => ?_, next_eq (write_self q seg _)⟩
      · simp [Scanner.due, ScanPc.own, ScanPc.unread, hrefs]
      · obtain rfl : seg = a := Option.some.inj ha
        rw [write_self]
        rfl
  | compareAndSwap seg head k =>
      have hnext : q.next seg = head := hs.relies
      by_cases hhead : q.head = head
      · simp only [scannerStep, if_pos hhead] at hstep
        cases hstep
        refine .push rfl (hnext.trans hhead.symm) k.own_pc ?_ ⟨?_, ?_⟩
        · cases k <;> simp [Scanner.due, Return.pc, ScanPc.own, ScanPc.unread, Return.unread]
        · intro a ha
          rw [k.own_pc] at ha
          cases ha
        · cases k <;> trivial
      · simp only [scannerStep, if_neg hhead] at hstep
        cases hstep
        exact .goto hs rfl rfl trivial
  | died => exact hs.relies.elim

/-! ### The invariant -/

theorem refs_congr {q q' : SharedQueue} {a : Addr} (h : q'.cells a = q.cells a) :
    q'.refs a = q.refs a := by
  unfold SharedQueue.refs
  rw [h]

theorem next_congr {q q' : SharedQueue} {a : Addr} (h : q'.cells a = q.cells a) :
    q'.next a = q.next a := by
  unfold SharedQueue.next
  rw [h]

/-- A thread is due the same as long as its own segment is left alone. -/
theorem due_congr {stack : Int → Option Addr} {q q' : SharedQueue} {t : Scanner}
    (h : ∀ a, t.pc.own = some a → q'.cells a = q.cells a) : t.due stack q' = t.due stack q := by
  have hrefs : t.pc.own.elim [] q'.refs = t.pc.own.elim [] q.refs := by
    cases hown : t.pc.own with
    | none => rfl
    | some a => exact refs_congr (h a hown)
  unfold Scanner.due
  rw [hrefs]

theorem Scanner.Sound.congr {q q' : SharedQueue} {t : Scanner} (hs : t.Sound q)
    (h : ∀ a, t.pc.own = some a → q'.cells a = q.cells a) : t.Sound q' := by
  refine ⟨fun a ha => ?_, ?_⟩
  · rw [h a ha]
    exact hs.allocated a ha
  · obtain ⟨frames, pc⟩ := t
    have hrelies := hs.relies
    cases pc with
    | add fp seg off rest =>
        show (q'.refs seg).length < _
        rw [refs_congr (h seg rfl)]
        exact hrelies
    | compareAndSwap seg head k =>
        show q'.next seg = head
        rw [next_congr (h seg rfl)]
        exact hrelies
    | died => exact hrelies
    | nextFrame => trivial
    | loop fp cur offsets => trivial
    | create fp off rest => trivial
    | load seg k => trivial
    | setNext seg head k => trivial

/-- The segments `pushed` have been pushed on those of `q₀`, which are at `old`; together with
what the threads are due they hold `total`. -/
structure Pushing {n : Nat} (stack : Int → Option Addr) (total : Multiset (Option Addr))
    (q₀ : SharedQueue) (old pushed : List Addr) (s : Scanners n) : Prop where
  linked : Linked s.queue.next s.queue.head (pushed ++ old)
  same : ∀ a ∈ old, s.queue.cells a = q₀.cells a
  allocated : ∀ a ∈ pushed ++ old, (s.queue.cells a).isSome
  sound : ∀ i, (s.threads i).Sound s.queue
  own : ∀ i a, (s.threads i).pc.own = some a → a ∉ pushed ++ old
  apart : ∀ i j a, (s.threads i).pc.own = some a → (s.threads j).pc.own = some a → i = j
  sum : (↑(pushed.flatMap s.queue.refs) : Multiset (Option Addr)) +
    ∑ i, (s.threads i).due stack s.queue = total

/-- One summand has changed, and the rest of the sum with it. -/
theorem sum_step {n : Nat} {α : Type} {f f' : Fin n → Multiset α} {x x' : Multiset α}
    (i : Fin n) (hrest : ∀ j, j ≠ i → f' j = f j) (h : x' + f' i = x + f i) :
    x' + ∑ j, f' j = x + ∑ j, f j := by
  rw [← Finset.add_sum_erase _ _ (Finset.mem_univ i), ← Finset.add_sum_erase _ _ (Finset.mem_univ i),
    ← add_assoc, ← add_assoc, h]
  congr 1
  exact Finset.sum_congr rfl fun j hj => hrest j (Finset.ne_of_mem_erase hj)

section Step

variable {n : Nat} {stack : Int → Option Addr} {total : Multiset (Option Addr)}
  {q₀ : SharedQueue} {old pushed : List Addr} {s : Scanners n}

/-- A private step keeps the invariant: nobody else looks at the segment it writes to. -/
theorem Pushing.alone (h : Pushing stack total q₀ old pushed s) {i : Fin n}
    {q' : SharedQueue} {t' : Scanner} (hhead : q'.head = s.queue.head)
    (hframe : ∀ a, t'.pc.own ≠ some a → q'.cells a = s.queue.cells a)
    (hown : ∀ a, t'.pc.own = some a → (s.threads i).pc.own = some a ∨ s.queue.cells a = none)
    (hdue : t'.due stack q' = (s.threads i).due stack s.queue) (hsound : t'.Sound q') :
    Pushing stack total q₀ old pushed ⟨q', Function.update s.threads i t'⟩ := by
  -- what is on the queue or in another thread's hands is not the segment written to
  have hlisted : ∀ a ∈ pushed ++ old, t'.pc.own ≠ some a := by
    intro a ha hc
    rcases hown a hc with hc | hc
    · exact h.own i a hc ha
    · have := h.allocated a ha
      rw [hc] at this
      cases this
  have hother : ∀ j, j ≠ i → ∀ a, (s.threads j).pc.own = some a → t'.pc.own ≠ some a := by
    intro j hj a ha hc
    rcases hown a hc with hc | hc
    · exact hj (h.apart j i a ha hc)
    · have := (h.sound j).allocated a ha
      rw [hc] at this
      cases this
  have hsame : ∀ a ∈ pushed ++ old, q'.cells a = s.queue.cells a :=
    fun a ha => hframe a (hlisted a ha)
  have hthread : ∀ j, Function.update s.threads i t' j = if j = i then t' else s.threads j :=
    fun j => by rw [Function.update_apply]
  refine ⟨?_, fun a ha => ?_, fun a ha => ?_, fun j => ?_, fun j a ha => ?_,
    fun j k a hj hk => ?_, ?_⟩
  · rw [hhead]
    exact h.linked.congr fun a ha => next_congr (hsame a ha)
  · exact (hsame a (List.mem_append_right _ ha)).trans (h.same a ha)
  · rw [hsame a ha]
    exact h.allocated a ha
  · show (Function.update s.threads i t' j).Sound q'
    rw [hthread]
    by_cases hj : j = i
    · rw [if_pos hj]
      exact hsound
    · rw [if_neg hj]
      exact (h.sound j).congr fun a ha => hframe a (hother j hj a ha)
  · intro hmem
    simp only [hthread] at ha
    by_cases hj : j = i
    · rw [if_pos hj] at ha
      exact hlisted a hmem ha
    · rw [if_neg hj] at ha
      exact h.own j a ha hmem
  · simp only [hthread] at hj hk
    by_cases hji : j = i
    · by_cases hki : k = i
      · exact hji.trans hki.symm
      · rw [if_pos hji] at hj
        rw [if_neg hki] at hk
        exact absurd hj (hother k hki a hk)
    · by_cases hki : k = i
      · rw [if_neg hji] at hj
        rw [if_pos hki] at hk
        exact absurd hk (hother j hji a hj)
      · rw [if_neg hji] at hj
        rw [if_neg hki] at hk
        exact h.apart j k a hj hk
  · rw [← h.sum]
    refine sum_step i (fun j hj => ?_) ?_
    · show (Function.update s.threads i t' j).due stack q' = _
      rw [hthread, if_neg hj]
      exact due_congr fun a ha => hframe a (hother j hj a ha)
    · show _ + (Function.update s.threads i t' i).due stack q' = _
      rw [hthread, if_pos rfl, hdue]
      congr 2
      exact List.flatMap_congr fun a ha => refs_congr (hsame a (List.mem_append_left _ ha))

/-- A push puts the thread's segment on the queue. -/
theorem Pushing.push (h : Pushing stack total q₀ old pushed s) {i : Fin n} {t' : Scanner}
    {seg : Addr} (hseg : (s.threads i).pc.own = some seg)
    (hnext : s.queue.next seg = s.queue.head) (hown : t'.pc.own = none)
    (hdue : ↑(s.queue.refs seg) + t'.due stack s.queue = (s.threads i).due stack s.queue)
    (hsound : t'.Sound { s.queue with head := some seg }) :
    Pushing stack total q₀ old (seg :: pushed)
      ⟨{ s.queue with head := some seg }, Function.update s.threads i t'⟩ := by
  have hthread : ∀ j, Function.update s.threads i t' j = if j = i then t' else s.threads j :=
    fun j => by rw [Function.update_apply]
  have hne : ∀ {j : Fin n} {a : Addr}, (Function.update s.threads i t' j).pc.own = some a →
      j ≠ i ∧ (s.threads j).pc.own = some a := by
    intro j a ha
    rw [hthread] at ha
    by_cases hj : j = i
    · rw [if_pos hj, hown] at ha
      cases ha
    · rw [if_neg hj] at ha
      exact ⟨hj, ha⟩
  refine ⟨h.linked.push hnext, h.same, fun a ha => ?_, fun j => ?_, fun j a ha => ?_,
    fun j k a hj hk => h.apart j k a (hne hj).2 (hne hk).2, ?_⟩
  · rcases List.mem_cons.mp ha with heq | ha
    · rw [heq]
      exact (h.sound i).allocated seg hseg
    · exact h.allocated a ha
  · show (Function.update s.threads i t' j).Sound _
    rw [hthread]
    by_cases hj : j = i
    · rw [if_pos hj]
      exact hsound
    · rw [if_neg hj]
      exact (h.sound j).congr fun _ _ => rfl
  · obtain ⟨hj, ha⟩ := hne ha
    intro hmem
    rcases List.mem_cons.mp hmem with heq | hmem
    · exact hj (h.apart j i a ha (heq ▸ hseg))
    · exact h.own j a ha hmem
  · rw [← h.sum]
    refine sum_step i (fun j hj => ?_) ?_
    · show (Function.update s.threads i t' j).due stack _ = _
      rw [hthread, if_neg hj]
      exact due_congr fun _ _ => rfl
    · show _ + (Function.update s.threads i t' i).due stack _ = _
      have hdue' : t'.due stack { s.queue with head := some seg } = t'.due stack s.queue :=
        due_congr fun _ _ => rfl
      rw [hthread, if_pos rfl, hdue', ← hdue, List.flatMap_cons, ← Multiset.coe_add]
      show (↑(s.queue.refs seg) : Multiset (Option Addr)) + ↑(pushed.flatMap s.queue.refs) + _ = _
      rw [add_assoc, add_left_comm]

/-- Every step keeps the invariant. -/
theorem Pushing.step (h : Pushing stack total q₀ old pushed s) {frames : Fin n → List Frame}
    {l : Fin n × Addr} {s' : Scanners n} (hstep : (scanners stack frames q₀).next s l = some s') :
    ∃ pushed', Pushing stack total q₀ old pushed' s' := by
  obtain ⟨i, fresh⟩ := l
  obtain ⟨⟨q', t'⟩, hthread, rfl⟩ := Option.map_eq_some_iff.mp hstep
  cases scannerStep_effect (h.sound i) hthread with
  | own hhead hframe hown hdue hsound =>
      exact ⟨pushed, h.alone hhead hframe hown hdue hsound⟩
  | @push _ seg hseg hnext hown hdue hsound =>
      exact ⟨seg :: pushed, h.push hseg hnext hown hdue hsound⟩

end Step

/-- The root slots of the frames of all threads. -/
def allRoots {n : Nat} (stack : Int → Option Addr) (frames : Fin n → List Frame) :
    Multiset (Option Addr) :=
  ∑ i, ↑((frames i).flatMap (Frame.roots stack))

theorem pushing_start {n : Nat} (stack : Int → Option Addr) (frames : Fin n → List Frame)
    {q₀ : SharedQueue} {old : List Addr} (hlinked : Linked q₀.next q₀.head old)
    (hold : ∀ a ∈ old, (q₀.cells a).isSome) :
    Pushing stack (allRoots stack frames) q₀ old [] ⟨q₀, fun i => ⟨frames i, .nextFrame⟩⟩ := by
  refine ⟨hlinked, fun _ _ => rfl, hold, fun i => ⟨?_, trivial⟩, ?_, ?_, ?_⟩
  · simp [ScanPc.own]
  · simp [ScanPc.own]
  · simp [ScanPc.own]
  · simp [allRoots, Scanner.due, ScanPc.own, ScanPc.unread]

/--
**Threads that scan their stacks at the same time lose no root and queue none twice.**
However their steps interleave, no thread ever aborts, and once all have finished the
segments they have pushed hold together the values of all root slots, each once for every
slot, and none of them holds more than `REF_QUEUE_SEGMENT_SIZE`.
-/
theorem scanners_push_roots {n : Nat} (stack : Int → Option Addr) (frames : Fin n → List Frame)
    {q₀ : SharedQueue} {old : List Addr} (hlinked : Linked q₀.next q₀.head old)
    (hold : ∀ a ∈ old, (q₀.cells a).isSome) {s : Scanners n}
    (h : Reachable (scanners stack frames q₀) s) :
    (∀ i, (s.threads i).pc ≠ .died) ∧
      (s.finished → ∃ pushed, Linked s.queue.next s.queue.head (pushed ++ old) ∧
        (∀ a ∈ old, s.queue.cells a = q₀.cells a) ∧
        (∀ a ∈ pushed, ∃ c, s.queue.cells a = some c ∧
          c.seg.refs.length ≤ REF_QUEUE_SEGMENT_SIZE) ∧
        (↑(pushed.flatMap s.queue.refs) : Multiset (Option Addr)) = allRoots stack frames) := by
  have hinv : ∃ pushed, Pushing stack (allRoots stack frames) q₀ old pushed s := by
    refine h.invariant (I := fun s => ∃ pushed, Pushing stack (allRoots stack frames) q₀ old
      pushed s) ?_ ?_
    · intro s hs
      rw [hs]
      exact ⟨[], pushing_start stack frames hlinked hold⟩
    · intro s l s' hs hstep
      obtain ⟨pushed, hs⟩ := hs
      exact hs.step hstep
  obtain ⟨pushed, hinv⟩ := hinv
  refine ⟨fun i hdied => ?_, fun hfin => ⟨pushed, hinv.linked, hinv.same, fun a ha => ?_, ?_⟩⟩
  · have hrelies := (hinv.sound i).relies
    rw [hdied] at hrelies
    exact hrelies
  · obtain ⟨c, hc⟩ := Option.isSome_iff_exists.mp
      (hinv.allocated a (List.mem_append_left _ ha))
    exact ⟨c, hc, c.seg.in_use_le⟩
  · rw [← hinv.sum]
    have hnothing : ∀ i, (s.threads i).due stack s.queue = 0 := by
      intro i
      rw [hfin i]
      simp [Scanner.due, ScanPc.own, ScanPc.unread]
    simp [hnothing]

/-- Two threads, each with one frame and one root slot in it, at 8 and at 16. -/
def oneSlotEach (i : Fin 2) : List Frame := [⟨8 * (i + 1), [0]⟩]

/-- The value of a slot is its own address. -/
def slotValue (a : Int) : Option Addr := some a.toNat

/-- Thread 1 pushes its segment between the store and the compare-and-swap of thread 0,
which has to try again. -/
def racingPushes : List (Fin 2 × Addr) :=
  [(0, 0), (0, 0), (0, 100), (0, 0), (0, 0), (0, 0), (0, 0),
   (1, 0), (1, 0), (1, 200), (1, 0), (1, 0), (1, 0), (1, 0), (1, 0),
   (0, 0), (0, 0), (0, 0), (0, 0)]

theorem scanners_push_roots_racing :
    ∃ s, (scanners slotValue oneSlotEach ⟨none, fun _ => none⟩).run
        ⟨⟨none, fun _ => none⟩, fun i => ⟨oneSlotEach i, .nextFrame⟩⟩ racingPushes = some s ∧
      s.finished ∧ ∃ pushed, Linked s.queue.next s.queue.head (pushed ++ []) ∧
        (↑(pushed.flatMap s.queue.refs) : Multiset (Option Addr)) =
          allRoots slotValue oneSlotEach := by
  have hany : ((scanners slotValue oneSlotEach ⟨none, fun _ => none⟩).run
      ⟨⟨none, fun _ => none⟩, fun i => ⟨oneSlotEach i, .nextFrame⟩⟩ racingPushes).any
        (fun s => decide s.finished) = true := by decide +kernel
  obtain ⟨s, hrun, hfin⟩ := (Option.any_eq_true _ _).mp hany
  have hfin : s.finished := of_decide_eq_true hfin
  obtain ⟨pushed, hlinked, -, -, hroots⟩ := (scanners_push_roots slotValue oneSlotEach
    (show Linked _ _ [] from .nil) (by simp) (reachable_of_run rfl racingPushes hrun)).2 hfin
  exact ⟨s, hrun, hfin, pushed, hlinked, hroots⟩

end Pup.Gc
