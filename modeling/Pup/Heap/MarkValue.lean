/-
What the mark of an object means from one collection to the next.

A mark is a single bit, and `pup_gc_period_start` flips which value is the live one.  So
at a flip every object in use has to carry the value that has been live so far; one that
carries the other counts as marked, and its references are not followed.

`Tricolour` is what has to hold all the time for this.  What can be reached from the live
slots is there, and the collector has it in sight in the sense of `Marking.Guarded`: between
collections it is marked, and during one it is marked or will be found.  Grey are the
references queued and, until they are queued, the slots of the thread the collector waits for.

`KeepsMarks` says of each step what must not go wrong in it, in the state before.  It asks
only for what the invariant needs: of a new object that its mark and its type do not get
out of the collector's sight, of a store that neither the value nor anything that was seen
through the reference overwritten does, and so on.  What goes wrong is nothing that the
runtime would prevent.
-/
import Pup.Gc.ScanHeap
import Pup.Heap.Graph
import Pup.Lib.Marking

namespace Pup.Heap

open Pup.Gc Transition Marking

/-! ### Roots and colours -/

/-- A live slot on the stack of thread `t` holds `x`. -/
def Slot (h : PupHeap) (t : Tid) (x : Addr) : Prop :=
  ∃ info, h.threads t = some info ∧ some x ∈ info.frames.flatten

/-- A live slot of some thread holds `x`. -/
def InSlot (h : PupHeap) (x : Addr) : Prop := ∃ t, Slot h t x

/-- The object can be reached from a live slot of some thread. -/
def Rooted (h : PupHeap) (a : Addr) : Prop := ∃ t x, Slot h t x ∧ Reaches h.mem x a

/-- There is an object, with its references. -/
def Present (mem : Memory) (a : Addr) : Prop := ∃ rs, HasRefs mem a rs

/-- The live slots of a thread. -/
def PupHeap.slots (h : PupHeap) (t : Tid) : List (Option Addr) :=
  match h.threads t with
  | some info => info.frames.flatten
  | none => []

/-- The references the collector has still to look at in this collection. -/
def PupHeap.grey (h : PupHeap) : List (Option Addr) :=
  match h.pc with
  | .converging t => h.slots t ++ h.gc.pending
  | .scanning rest => rest ++ h.gc.pending
  | .sleeping | .collecting => []

def colouring (h : PupHeap) : Colouring Addr where
  edge := RefersTo h.mem
  marked a := h.mem.isMarked h.gc.live_mark_value a = true
  white a := h.mem.isMarked (!h.gc.live_mark_value) a = true
  grey a := some a ∈ h.grey

theorem mem_slots {h : PupHeap} {t : Tid} {x : Addr} : some x ∈ h.slots t ↔ Slot h t x := by
  unfold PupHeap.slots Slot
  cases h.threads t <;> simp

theorem Rooted.slot {h : PupHeap} {t : Tid} {x : Addr} (hx : Slot h t x) : Rooted h x :=
  ⟨t, x, hx, .refl⟩

theorem rooted_iff {h : PupHeap} {a : Addr} :
    (colouring h).Rooted (InSlot h) a ↔ Rooted h a := by
  constructor
  · rintro ⟨x, ⟨t, hx⟩, hreach⟩
    exact ⟨t, x, hx, hreach⟩
  · rintro ⟨t, x, hx, hreach⟩
    exact ⟨x, ⟨t, hx⟩, hreach⟩

theorem isMarked_iff {mem : Memory} {mark : Bool} {a : Addr} :
    mem.isMarked mark a = true ↔ ∃ o, mem.objects a = some o ∧ o.gc_mark = mark := by
  unfold Memory.isMarked
  cases mem.objects a <;> simp

theorem marked_or_white {h : PupHeap} {a : Addr} {o : PupObject} (ho : h.mem.objects a = some o) :
    (colouring h).marked a ∨ (colouring h).white a := by
  simp only [colouring, isMarked_iff]
  by_cases hm : o.gc_mark = h.gc.live_mark_value
  · exact .inl ⟨o, ho, hm⟩
  · refine .inr ⟨o, ho, ?_⟩
    cases hl : h.gc.live_mark_value <;> simp_all

theorem not_white_of_marked {h : PupHeap} {a : Addr} (hm : (colouring h).marked a) :
    ¬ (colouring h).white a := by
  intro hw
  obtain ⟨o, ho, hlive⟩ := isMarked_iff.mp hm
  obtain ⟨o', ho', hold⟩ := isMarked_iff.mp hw
  obtain rfl := Option.some.inj (ho.symm.trans ho')
  rw [hlive] at hold
  cases hb : h.gc.live_mark_value <;> simp [hb] at hold

theorem Present.coloured {h : PupHeap} {a : Addr} (ha : Present h.mem a) :
    (colouring h).marked a ∨ (colouring h).white a := by
  obtain ⟨rs, hrs⟩ := ha
  obtain ⟨o, ho⟩ := hasRefs_object hrs
  exact marked_or_white ho

/-! ### The invariant -/

/-- What is in use is there, and the collector has not lost sight of it. -/
def Tricolour (h : PupHeap) : Prop := (colouring h).Safe (Present h.mem) (InSlot h)

theorem Tricolour.present {h : PupHeap} (ht : Tricolour h) {a : Addr} (ha : Rooted h a) :
    Present h.mem a := Colouring.Safe.present ht a (rooted_iff.mpr ha)

/-- When no collection is marking, everything reachable is marked. -/
theorem Tricolour.marked {h : PupHeap} (ht : Tricolour h) (hgrey : h.grey = []) {a : Addr}
    (ha : Rooted h a) : (colouring h).marked a := by
  refine Colouring.Safe.marked ht (fun z => Present.coloured) (fun x hx => ?_)
    (rooted_iff.mpr ha)
  have hx' : some x ∈ h.grey := hx
  rw [hgrey] at hx'
  cases hx'

/-! ### The steps that keep it -/

/-- A new object of thread `t` at `a` may have the type, which may be the object itself, and
the mark. -/
structure Births (h : PupHeap) (t : Tid) (a : Addr) (type : Option Addr) (mark : Bool) :
    Prop where
  /-- the collector will not look at the slot unless it has still to scan the stack -/
  born : h.pc ≠ .converging t → mark = h.gc.live_mark_value
  enters : ∀ b, type = some b → b ≠ a → (colouring h).Enters (Present h.mem) b
  /-- it will not look at the type of an object that is born marked -/
  guarded : ∀ b, type = some b → b ≠ a → mark = h.gc.live_mark_value → (colouring h).Guarded b

/-- The colours when `pup_iv_set` has stored `val`. -/
def storing (h : PupHeap) (fuel : Nat) (obj : Addr) (sym : Int) (val : Option Addr) :
    Colouring Addr :=
  { colouring h with edge := RefersAfter h.mem fuel obj sym val }

structure Stores (h : PupHeap) (fuel : Nat) (obj : Addr) (sym : Int) (val : Option Addr) :
    Prop where
  /-- the value may be referred to, if the object stored into is in use at all -/
  enters : ∀ b, val = some b → ∀ y, Rooted h y → Gains h.mem fuel obj sym y →
    (storing h fuel obj sym val).Enters (Present h.mem) b
  /-- the collector will not look at an object again that is marked -/
  value : ∀ b, val = some b → ∀ y, Rooted h y → Gains h.mem fuel obj sym y →
    (colouring h).marked y → (storing h fuel obj sym val).Guarded b
  /-- what is still in use can be found without the reference overwritten -/
  keeps : ∀ z, (storing h fuel obj sym val).Rooted (InSlot h) z → (colouring h).Guarded z →
    (storing h fuel obj sym val).Guarded z

/-- The colours when the live slots of `t` hold other references. -/
def moving (h : PupHeap) (t : Tid) (frames : List (List (Option Addr))) : Colouring Addr :=
  { colouring h with
    grey := fun a => if h.pc = .converging t then some a ∈ frames.flatten ++ h.gc.pending
      else some a ∈ h.grey }

/-- The live slots then. -/
def MovedSlot (h : PupHeap) (t : Tid) (frames : List (List (Option Addr))) (x : Addr) : Prop :=
  some x ∈ frames.flatten ∨ ∃ u, u ≠ t ∧ Slot h u x

structure Moves (h : PupHeap) (t : Tid) (frames : List (List (Option Addr))) : Prop where
  enters : ∀ b, some b ∈ frames.flatten →
    InSlot h b ∨ ((moving h t frames).Enters (Present h.mem) b ∧ (moving h t frames).Guarded b)
  /-- no reference that only a stack not scanned yet holds is moved to another that has been -/
  keeps : ∀ z, (moving h t frames).Rooted (MovedSlot h t frames) z → (colouring h).Guarded z →
    (moving h t frames).Guarded z

/-- The colours when the live value has been flipped, with the slots of the thread at the head
of the list to be scanned. -/
def flipped (h : PupHeap) : Colouring Addr where
  edge := RefersTo h.mem
  marked a := h.mem.isMarked (!h.gc.live_mark_value) a = true
  white a := h.mem.isMarked h.gc.live_mark_value a = true
  grey a := (∃ t, h.thread_list = some t ∧ Slot h t a) ∨ some a ∈ h.gc.pending

/-- What must not happen in a step, in the state before it. -/
def KeepsMarks (h : PupHeap) : Label → Prop
  -- the mark is the thread's, which `attach_thread` does not initialise; nothing looks after
  -- the type, which comes from `env`
  | .newObject t size type base => ∀ h₁ a info, pupHeapAlloc h t size .obj base = some (h₁, a) →
      h.threads t = some info → Births h t a type info.current_gc_mark
  -- `pup_string_new_cstr` does not initialise the mark
  | .stringNewCstr t a type junk => Births h t a type junk
  -- there is no write barrier
  | .ivSet _ fuel obj sym val _ => Stores h fuel obj sym val
  | .setFrames t frames => Moves h t frames
  -- the collector signals only the thread at the head of the list
  | .periodStart => ∀ x, InSlot h x → (flipped h).Guarded x
  -- the last segment is not scanned
  | .stealSegment => h.gc.reference_queue = [] → ∀ b, some b ∈ h.gc.current_segment.refs →
      ∀ z, Rooted h z → ¬ (colouring h).WhitePath b z
  -- a region is unmapped whatever is in it
  | .collectRegion => ∀ i rest r, h.region_list = i :: rest → h.regions i = some r →
      ∀ a, Rooted h a → ¬ r.Contains a ∧ ∀ b, EntryOf h.mem a b → ¬ r.Contains b
  | .threadInit _ _ _ | .handler _ | .safepoint _ | .scanRef _ => True

/-! ### Steps that leave the graph alone -/

theorem refersTo_marksOnly {mem mem' : Memory} (hm : MarksOnly mem mem') {a b : Addr}
    (hab : RefersTo mem a b) : RefersTo mem' a b := by
  obtain ⟨rs, hrs, hb⟩ := hab
  exact ⟨rs, hm.hasRefs hrs, hb⟩

/-- Colours and references are as before, but for more that is grey. -/
theorem guarded_grey {h h' : PupHeap} (hmem : h'.mem = h.mem)
    (hlive : h'.gc.live_mark_value = h.gc.live_mark_value)
    (hgrey : ∀ x, some x ∈ h.grey → some x ∈ h'.grey) {x : Addr}
    (hx : (colouring h).Guarded x) : (colouring h').Guarded x := by
  refine hx.mono (fun z hz => ?_) (fun z hz => ?_) hgrey fun y z hyz => ?_
  · simpa only [colouring, hmem, hlive] using hz
  · simpa only [colouring, hmem, hlive] using hz
  · simpa only [colouring, hmem] using hyz

/-- The objects and the slots are what they were, and nothing gets out of sight. -/
theorem Tricolour.regrey {h h' : PupHeap} (ht : Tricolour h) (hmem : h'.mem = h.mem)
    (hlive : h'.gc.live_mark_value = h.gc.live_mark_value)
    (hslot : ∀ t x, Slot h' t x → Slot h t x)
    (hkeep : ∀ z, Rooted h z → (colouring h).Guarded z → (colouring h').Guarded z) :
    Tricolour h' := by
  have hslots : ∀ x, InSlot h' x → InSlot h x := fun x hx => hx.imp fun t => hslot t x
  have hedge : ∀ y z, (colouring h').edge y z → (colouring h).edge y z := by
    intro y z hyz
    simpa only [colouring, hmem] using hyz
  refine Colouring.Safe.change ht (fun x hx => .inl (hslots x hx))
    (fun y _ z hyz => .inl (hedge y z hyz)) (fun y hy => ?_) (fun y _ hm => ?_) fun z hz => ?_
  · rw [hmem]
    exact Colouring.Safe.present ht y hy
  · simpa only [colouring, hmem, hlive] using hm
  · exact hkeep z (rooted_iff.mp (hz.rec_on (fun x hx => .of_slot (hslots x hx))
      fun y z hy hyz => hy.edge (hedge y z hyz)))

/-- More is grey, and nothing else has changed. -/
theorem Tricolour.grey {h h' : PupHeap} (ht : Tricolour h) (hmem : h'.mem = h.mem)
    (hlive : h'.gc.live_mark_value = h.gc.live_mark_value)
    (hslot : ∀ t x, Slot h' t x → Slot h t x)
    (hgrey : ∀ x, some x ∈ h.grey → some x ∈ h'.grey) : Tricolour h' :=
  ht.regrey hmem hlive hslot fun _ _ hz => guarded_grey hmem hlive hgrey hz

/-- The slots of each thread are the same list. -/
theorem slot_of_slots {h h' : PupHeap} (hslots : ∀ t, h'.slots t = h.slots t) (t : Tid) (x : Addr)
    (hx : Slot h' t x) : Slot h t x := by
  rw [← mem_slots, ← hslots t]
  exact mem_slots.mpr hx

theorem grey_of_slots {h h' : PupHeap} (hpc : h'.pc = h.pc) (hgc : h'.gc = h.gc)
    (hslots : ∀ t, h'.slots t = h.slots t) : h'.grey = h.grey := by
  unfold PupHeap.grey
  rw [hpc, hgc]
  cases h.pc with
  | converging t => exact congrArg (· ++ _) (hslots t)
  | _ => rfl

/-- To the collector nothing has changed. -/
theorem Tricolour.same {h h' : PupHeap} (ht : Tricolour h) (hmem : h'.mem = h.mem)
    (hgc : h'.gc = h.gc) (hpc : h'.pc = h.pc) (hslots : ∀ t, h'.slots t = h.slots t) :
    Tricolour h' := by
  refine ht.grey hmem (by rw [hgc]) (slot_of_slots hslots) ?_
  rw [grey_of_slots hpc hgc hslots]
  exact fun _ => id

theorem slots_setThread {h : PupHeap} {t : Tid} {info : PupThreadInfo} (u : Tid) :
    (h.setThread t info).slots u = if u = t then info.frames.flatten else h.slots u := by
  unfold PupHeap.slots
  by_cases hu : u = t
  · subst hu
    simp
  · simp [hu]

theorem slots_of_thread {h : PupHeap} {t : Tid} {info : PupThreadInfo}
    (hi : h.threads t = some info) : h.slots t = info.frames.flatten := by
  unfold PupHeap.slots
  rw [hi]

/-- A thread's record is written, but not its slots. -/
theorem slots_setThread_same {h : PupHeap} {t : Tid} {info : PupThreadInfo}
    (hframes : info.frames.flatten = h.slots t) (u : Tid) :
    (h.setThread t info).slots u = h.slots u := by
  rw [slots_setThread]
  split
  · next hu => rw [hframes, hu]
  · rfl

theorem Tricolour.threadInit {h h' : PupHeap} (ht : Tricolour h) {t : Tid} {base : Nat}
    {junk : Bool} (hs : threadInit h t base junk = some h') : Tricolour h' := by
  unfold Heap.threadInit at hs
  split at hs
  · rename_i hnew
    obtain rfl := Option.some.inj hs
    have hnone : (regionAllocate h base).slots t = [] := by
      unfold PupHeap.slots
      rw [show (regionAllocate h base).threads t = none from hnew.1]
    exact ht.same rfl rfl rfl (slots_setThread_same (by rw [hnone]; rfl))
  · cases hs

theorem Tricolour.handler {h h' : PupHeap} (ht : Tricolour h) {t : Tid}
    (hs : handlerStep h t = some h') : Tricolour h' := by
  obtain ⟨tinfo, hti, -, rfl⟩ := handlerStep_cases hs
  exact ht.same rfl rfl rfl (slots_setThread_same (by rw [slots_of_thread hti]))

/-- The slots the collector has waited for are queued. -/
theorem Tricolour.safepoint {h h' : PupHeap} (ht : Tricolour h) {t : Tid}
    (hs : safepointStep h t = some h') : Tricolour h' := by
  obtain ⟨tinfo, gc, hti, hpc, -, hscan, rfl⟩ := safepointStep_cases hs
  have hq := (scanStack_ends h.gc tinfo.frames).of_ok hscan
  have hslots : ∀ u, ((h.setGc gc).setThread t { tinfo with gc_waiting := false }).slots u =
      (h.setGc gc).slots u := slots_setThread_same (slots_of_thread (h := h.setGc gc) hti).symm
  refine ht.grey rfl hq.live (slot_of_slots hslots) fun x hx => ?_
  rw [PupHeap.grey, hpc] at hx
  show some x ∈ gc.current_segment.refs ++ gc.queued
  rw [List.mem_append, hq.queued.mem_iff, List.mem_append, hq.current]
  rcases List.mem_append.mp hx with hx | hx
  · exact .inr (.inl (slots_of_thread hti ▸ hx))
  · exact (List.mem_append.mp hx).imp_right .inr

theorem Tricolour.stealSegment {h h' : PupHeap} (ht : Tricolour h)
    (hc : KeepsMarks h .stealSegment) (hs : stealStep h = some h') : Tricolour h' := by
  obtain ⟨hpc, ⟨hq, rfl⟩ | ⟨seg, rest, hq, rfl⟩⟩ := stealStep_cases hs
  · -- the queue is empty, so what is grey is in the current segment, and leads nowhere
    refine ht.regrey rfl rfl (fun _ _ => id) fun z hz hguarded => .inl ?_
    refine hguarded.resolve_right fun hex => ?_
    obtain ⟨x, hx, hpath⟩ := hex
    have hx' : some x ∈ h.grey := hx
    rw [PupHeap.grey, hpc, PupGCState.pending, hq] at hx'
    exact hc hq x (by simpa using hx') z hz hpath
  · refine ht.grey rfl rfl (fun _ _ => id) fun x hx => ?_
    rw [PupHeap.grey, hpc, PupGCState.pending, hq] at hx
    simp only [List.nil_append, List.flatMap_cons, List.mem_append] at hx
    show some x ∈ seg.refs ++ (h.gc.current_segment.refs ++ rest.flatMap PupRefQueueSegment.refs)
    simp only [List.mem_append]
    tauto

theorem Tricolour.periodStart {h h' : PupHeap} (ht : Tricolour h)
    (hc : KeepsMarks h .periodStart) (hs : startStep h = some h') : Tricolour h' := by
  unfold startStep at hs
  split at hs
  · rename_i hpc
    obtain rfl := Option.some.inj hs
    have hgrey : h.grey = [] := by rw [PupHeap.grey, hpc]
    refine Colouring.Safe.start ht (fun y z => id) (fun z hz hm => ?_) fun x hx => ?_
    · -- what was marked is so no longer
      exact not_white_of_marked (ht.marked hgrey (rooted_iff.mp hz)) hm
    · refine (hc x hx).mono (fun z hz => ?_) (fun z hz => ?_) (fun z hz => ?_) fun y z hyz => ?_
      · exact hz
      · show h.mem.isMarked (!!h.gc.live_mark_value) z = true
        rw [Bool.not_not]
        exact hz
      · show some z ∈ PupHeap.grey _
        unfold PupHeap.grey
        cases hl : h.thread_list with
        | none =>
            obtain ⟨t, ht', -⟩ | hz := hz
            · rw [hl] at ht'
              cases ht'
            · exact hz
        | some t =>
            obtain ⟨u, hu, hslot⟩ | hz := hz
            · obtain rfl := Option.some.inj (hl.symm.trans hu)
              exact List.mem_append_left _ (mem_slots.mpr hslot)
            · exact List.mem_append_right _ hz
      · exact hyz
  · cases hs

theorem Tricolour.scanRef {h h' : PupHeap} (ht : Tricolour h) {fuel : Nat}
    (hs : scanStep h fuel = some h') : Tricolour h' := by
  obtain ⟨ref, rest, s, hpc, hscan, rfl⟩ := scanStep_cases hs
  obtain ⟨a, o, rs, rfl, ho, hmarks, hmarked, hq⟩ := scanQueueRef_ok hscan
  have hgrey : h.grey = some a :: rest ++ h.gc.pending := by rw [PupHeap.grey, hpc]
  have hlive : s.state.live_mark_value = h.gc.live_mark_value := hq.live
  have hvisit : Visit (colouring h) (colouring ((h.setScan s).goto (.scanning rest))) a := by
    refine ⟨fun y z hyz => refersTo_marksOnly hmarks hyz, fun z => ?_, fun z hz => ?_,
      fun z hz => ?_, fun hw z haz => ?_⟩
    · show s.mem.isMarked s.state.live_mark_value z = true ↔ _
      rw [hlive, hmarked]
      simp [colouring]
    · obtain ⟨oz, hoz, -⟩ := isMarked_iff.mp hz
      obtain ⟨oz', hoz', -⟩ := hmarks.object hoz
      refine (marked_or_white (h := (h.setScan s).goto (.scanning rest)) hoz').imp_left
        fun hm => ?_
      have hm' : s.mem.isMarked s.state.live_mark_value z = true := hm
      rw [hlive, hmarked] at hm'
      simp only [Bool.or_eq_true, decide_eq_true_eq] at hm'
      exact hm'.resolve_right fun hm => not_white_of_marked hm hz
    · have hz' : some z ∈ h.grey := hz
      rw [hgrey, List.cons_append, List.mem_cons, List.mem_append] at hz'
      refine hz'.imp (fun heq => Option.some.inj heq) fun hz' => List.mem_append.mpr ?_
      exact hz'.imp_right fun hz' => hq.pending.mem_iff.mpr (List.mem_append_right _ hz')
    · obtain ⟨rs', hrs', hzr⟩ := haz
      have hscanned := (scanQueueRef_ends (s := ⟨h.mem, h.gc⟩) hrs' fuel).of_ok hscan
      have hqueued := hscanned.queued
      have hm : ¬ h.mem.isMarked h.gc.live_mark_value a = true :=
        fun hm => not_white_of_marked hm hw
      rw [if_neg hm] at hqueued
      exact List.mem_append_right _ (hqueued.pending.mem_iff.mpr (List.mem_append_left _ hzr))
  refine Colouring.Safe.visit ht hvisit (fun y _ z hyz => refersTo_marksOnly hmarks.symm hyz)
    (fun y hy => ?_) fun z => Present.coloured
  obtain ⟨rs, hrs⟩ := hy
  exact ⟨rs, hmarks.hasRefs hrs⟩

theorem grey_setThread {h : PupHeap} {t : Tid} {info : PupThreadInfo} (a : Addr) :
    some a ∈ (h.setThread t info).grey ↔
      if h.pc = .converging t then some a ∈ info.frames.flatten ++ h.gc.pending
      else some a ∈ h.grey := by
  unfold PupHeap.grey
  rw [show (h.setThread t info).pc = h.pc from rfl, show (h.setThread t info).gc = h.gc from rfl]
  cases h.pc with
  | converging u =>
      by_cases hu : u = t
      · rw [if_pos (congrArg _ hu)]
        simp only [slots_setThread, if_pos hu]
      · rw [if_neg fun heq => hu (GcPc.converging.inj heq)]
        simp only [slots_setThread, if_neg hu]
  | sleeping => rw [if_neg (by simp)]
  | scanning rest => rw [if_neg (by simp)]
  | collecting => rw [if_neg (by simp)]

theorem Tricolour.setFrames {h h' : PupHeap} (ht : Tricolour h) {t : Tid}
    {frames : List (List (Option Addr))} (hc : Moves h t frames)
    (hs : setFrames h t frames = some h') : Tricolour h' := by
  simp only [Heap.setFrames, bind, Option.bind_eq_some_iff] at hs
  obtain ⟨tinfo, hti, hs⟩ := hs
  obtain rfl := Option.some.inj hs
  have hslot : ∀ x, InSlot (h.setThread t { tinfo with frames := frames }) x →
      MovedSlot h t frames x := by
    rintro x ⟨u, hx⟩
    rw [← mem_slots, slots_setThread] at hx
    split at hx
    · exact .inl hx
    · next hu => exact .inr ⟨u, hu, mem_slots.mp hx⟩
  have hmoved : colouring (h.setThread t { tinfo with frames := frames }) = moving h t frames := by
    unfold moving
    have hgrey : (fun a => some a ∈ (h.setThread t { tinfo with frames := frames }).grey) = _ :=
      funext fun a => propext (grey_setThread a)
    unfold colouring
    rw [hgrey]
    rfl
  unfold Tricolour
  rw [hmoved]
  refine Colouring.Safe.change ht (fun x hx => ?_) (fun y _ z hyz => .inl hyz)
    (fun y hy => Colouring.Safe.present ht y hy) (fun y _ hm => hm) fun z hz => hc.keeps z ?_
  · rcases hslot x hx with hx | ⟨u, -, hx⟩
    · exact hc.enters x hx
    · exact .inl ⟨u, hx⟩
  · exact hz.rec_on (fun x hx => .of_slot (hslot x hx)) fun y z hy hyz => hy.edge hyz

/-! ### Steps that change the graph -/

theorem isMarked_congr {mem mem' : Memory} {mark : Bool} {a : Addr}
    (hsame : (mem'.objects a).map PupObject.gc_mark = (mem.objects a).map PupObject.gc_mark) :
    mem'.isMarked mark a = mem.isMarked mark a := by
  unfold Memory.isMarked
  cases ho : mem.objects a <;> cases ho' : mem'.objects a <;> simp [ho, ho'] at hsame <;>
    simp [hsame]

theorem outside_unmap {mem : Memory} {r : PupHeapRegion} {a : Nat} (h : ¬ r.Contains a) :
    (unmap mem r).objects a = mem.objects a ∧ (unmap mem r).attrs a = mem.attrs a :=
  ⟨if_neg h, if_neg h⟩

theorem Tricolour.collectRegion {h h' : PupHeap} (ht : Tricolour h)
    (hc : KeepsMarks h .collectRegion) (hs : collectStep h = some h') : Tricolour h' := by
  obtain ⟨hpc, ⟨-, rfl⟩ | ⟨i, rest, r, gc, hlist, hr, hlive, rfl⟩⟩ := collectStep_cases hs
  · have hnone : h.grey = [] := by rw [PupHeap.grey, hpc]
    refine ht.grey rfl rfl (fun _ _ => id) fun x hx => ?_
    rw [hnone] at hx
    cases hx
  · generalize hh' : reclaimed (h.stolen rest) i r gc = h'
    have hmem : h'.mem = unmap h.mem r := by rw [← hh']; rfl
    have hgc : h'.gc = gc := by rw [← hh']; rfl
    have hthreads : h'.threads = h.threads := by rw [← hh']; rfl
    have hnone : h.grey = [] := by rw [PupHeap.grey, hpc]
    have hout := hc i rest r hlist hr
    have hslot : ∀ x, InSlot h' x → InSlot h x := by
      rintro x ⟨t, hx⟩
      unfold Slot at hx
      rw [hthreads] at hx
      exact ⟨t, hx⟩
    -- the references of an object in use are what they were
    have hrefs : ∀ a, Rooted h a → ∀ rs, HasRefs h.mem a rs → HasRefs h'.mem a rs := by
      intro a ha rs hrs
      obtain ⟨o, l, ho, hl, heq⟩ := hrs
      refine ⟨o, l, ?_, hl.congr fun p hp => ?_, heq⟩
      · rw [hmem, (outside_unmap (hout a ha).1).1, ho]
      · rw [hmem, (outside_unmap ((hout a ha).2 p.1 ⟨o, l, ho, hl, List.mem_map_of_mem hp⟩)).2]
    have hedge : ∀ a, Rooted h a → ∀ b, RefersTo h'.mem a b → RefersTo h.mem a b := by
      intro a ha b hab
      obtain ⟨rs, hrs⟩ := ht.present ha
      exact hrs.refersTo_iff.mpr ((hrefs a ha rs hrs).refersTo_iff.mp hab)
    have hmarks : ∀ a, Rooted h a → ((colouring h').marked a ↔ (colouring h).marked a) := by
      intro a ha
      have hsame : (unmap h.mem r).isMarked h.gc.live_mark_value a =
          h.mem.isMarked h.gc.live_mark_value a :=
        isMarked_congr (by rw [(outside_unmap (hout a ha).1).1])
      show h'.mem.isMarked h'.gc.live_mark_value a = true ↔ _
      rw [hgc, hlive, hmem, hsame]
      rfl
    refine Colouring.Safe.change ht (fun x hx => .inl (hslot x hx))
      (fun y hy z hyz => .inl (hedge y (rooted_iff.mp hy) z hyz)) (fun y hy => ?_)
      (fun y hy => (hmarks y (rooted_iff.mp hy)).mp) fun z hz _ => .inl ?_
    · obtain ⟨rs, hrs⟩ := Colouring.Safe.present ht y hy
      exact ⟨rs, hrefs y (rooted_iff.mp hy) rs hrs⟩
    · have hz : Rooted h z := hz.rec_on (fun x hx => rooted_iff.mp (.of_slot (hslot x hx)))
        fun y z hy hyz => rooted_iff.mp ((rooted_iff.mpr hy).edge (hedge y hy z hyz))
      exact (hmarks z hz).mpr (ht.marked hnone hz)

/-- The slots of a thread that the collector sees no change of. -/
theorem slots_of_view {h h' : PupHeap} {t : Tid}
    (hview : (h'.threads t).map PupThreadInfo.view = (h.threads t).map PupThreadInfo.view) :
    h'.slots t = h.slots t := by
  unfold PupHeap.slots
  cases hi : h.threads t with
  | none =>
      rw [hi] at hview
      rw [Option.map_eq_none_iff.mp hview]
  | some info =>
      rw [hi] at hview
      obtain ⟨info', hi', hview⟩ := Option.map_eq_some_iff.mp hview
      rw [hi']
      have hframes : info'.frames = info.frames := congrArg (fun v => v.2.2) hview
      exact congrArg List.flatten hframes

/-- The slots when an object has been born. -/
theorem Born.slots {h h' : PupHeap} {t : Tid} {a : Addr} {type : Option Addr} {mark : Bool}
    (hb : Born h h' t a type mark) (u : Tid) :
    h'.slots u = if u = t then some a :: h.slots t else h.slots u := by
  obtain ⟨info, hi, hviews⟩ := hb.threads
  have hv := hviews u
  split
  · next hu =>
      rw [if_pos hu] at hv
      obtain ⟨info', hi', hview⟩ := Option.map_eq_some_iff.mp hv
      have hframes : info'.frames = [some a] :: info.frames := congrArg (fun v => v.2.2) hview
      rw [slots_of_thread hi', slots_of_thread hi, hframes]
      rfl
  · next hu =>
      rw [if_neg hu] at hv
      exact slots_of_view hv

/-- **A new object**: it is in a slot of its thread, and marked or grey. -/
theorem Tricolour.born {h h' : PupHeap} (ht : Tricolour h) {t : Tid} {a : Addr}
    {type : Option Addr} {mark : Bool} (hb : Born h h' t a type mark)
    (hc : Births h t a type mark) : Tricolour h' := by
  have hlive : h'.gc.live_mark_value = h.gc.live_mark_value := by rw [hb.gc]
  have hslot : ∀ x, InSlot h' x → x = a ∨ InSlot h x := by
    rintro x ⟨u, hx⟩
    rw [← mem_slots, hb.slots] at hx
    split at hx
    · rcases List.mem_cons.mp hx with heq | hx
      · exact .inl (Option.some.inj heq)
      · exact .inr ⟨t, mem_slots.mp hx⟩
    · exact .inr ⟨u, mem_slots.mp hx⟩
  have hgrey : ∀ x, some x ∈ h.grey → some x ∈ h'.grey := by
    intro x hx
    unfold PupHeap.grey at hx ⊢
    rw [hb.pc, hb.gc]
    cases hpc : h.pc with
    | converging u =>
        rw [hpc] at hx
        refine (List.mem_append.mp hx).elim (fun hx => ?_) (List.mem_append_right _)
        refine List.mem_append_left _ ?_
        rw [hb.slots]
        split
        · next hu => exact List.mem_cons_of_mem _ (hu ▸ hx)
        · exact hx
    | _ => rw [hpc] at hx; exact hx
  -- an object that was there is what it was
  have hpresent : ∀ y, Present h.mem y → Present h'.mem y := fun y hy =>
    hy.imp fun rs hrs => hb.grown.hasRefs hrs
  have hedge : ∀ y, Present h.mem y → ∀ z, RefersTo h'.mem y z → RefersTo h.mem y z := by
    rintro y ⟨rs, hrs⟩ z hyz
    exact hrs.refersTo_iff.mpr ((hb.grown.hasRefs hrs).refersTo_iff.mp hyz)
  have hmarks : ∀ m y, y ≠ a → h'.mem.isMarked m y = h.mem.isMarked m y := fun m y hy =>
    isMarked_congr (by rw [hb.others y hy])
  have hmarked : ∀ y, Present h.mem y → (colouring h').marked y → (colouring h).marked y := by
    rintro y ⟨rs, hrs⟩ hm
    obtain ⟨o, ho⟩ := hasRefs_object hrs
    have hne : y ≠ a := by
      intro heq
      rw [heq, hb.fresh] at ho
      cases ho
    have hm' : h'.mem.isMarked h'.gc.live_mark_value y = true := hm
    rw [hmarks _ y hne, hlive] at hm'
    exact hm'
  have hsome : ∀ m y, h.mem.isMarked m y = true → h'.mem.isMarked m y = true := by
    intro m y hm
    obtain ⟨o, ho, hmark⟩ := isMarked_iff.mp hm
    exact isMarked_iff.mpr ⟨o, hb.grown.objects y o ho, hmark⟩
  have hguarded : ∀ z, (colouring h).Guarded z → (colouring h').Guarded z := by
    intro z hz
    refine hz.mono (fun y hy => ?_) (fun y hy => ?_) hgrey fun y z hyz => ?_
    · exact hsome _ y (hlive ▸ hy)
    · exact hsome _ y (hlive ▸ hy)
    · obtain ⟨rs, hrs, hz⟩ := hyz
      exact ⟨rs, hb.grown.hasRefs hrs, hz⟩
  -- the new object refers to its type alone
  have htype : ∀ z, RefersTo h'.mem a z → type = some z := by
    intro z hz
    simpa [eq_comm] using hb.hasRefs.refersTo_iff.mp hz
  have hself : (colouring h').Guarded a := by
    by_cases hpc : h.pc = .converging t
    · have hgrey : (colouring h').grey a := by
        show some a ∈ h'.grey
        unfold PupHeap.grey
        rw [hb.pc, hpc]
        refine List.mem_append_left _ ?_
        rw [hb.slots, if_pos rfl]
        exact List.mem_cons_self
      exact (marked_or_white hb.object).imp_right fun hw => ⟨a, hgrey, hw, .refl⟩
    · exact .inl (isMarked_iff.mpr ⟨_, hb.object, (hc.born hpc).trans hlive.symm⟩)
  have henters : (colouring h').Enters (Present h'.mem) a := by
    refine .of_edges ⟨_, hb.hasRefs⟩ (fun z hz => ?_) fun hm z hz => ?_
    · by_cases hza : z = a
      · exact .inl hza
      · exact .inr ((hc.enters z (htype z hz) hza).mono hedge hpresent hmarked hguarded)
    · by_cases hza : z = a
      · exact hza ▸ hself
      · obtain ⟨o, ho, hborn⟩ := isMarked_iff.mp hm
        obtain rfl := Option.some.inj (hb.object.symm.trans ho)
        exact hguarded z (hc.guarded z (htype z hz) hza (hborn.trans hlive))
  refine Colouring.Safe.change ht (fun x hx => ?_)
    (fun y hy z hyz => .inl (hedge y (Colouring.Safe.present ht y hy) z hyz))
    (fun y hy => hpresent y (Colouring.Safe.present ht y hy))
    (fun y hy => hmarked y (Colouring.Safe.present ht y hy)) fun z _ => hguarded z
  rcases hslot x hx with rfl | hx
  · exact .inr ⟨henters, hself⟩
  · exact .inl hx

/-- **A store**: first the references change, then the memory is seen to hold them. -/
theorem Tricolour.stored {h h' : PupHeap} (ht : Tricolour h) {fuel : Nat} {obj : Addr} {sym : Int}
    {val : Option Addr} (hst : Stored h h' (RefersAfter h.mem fuel obj sym val))
    (hc : Stores h fuel obj sym val) : Tricolour h' := by
  have hsafe : (storing h fuel obj sym val).Safe (Present h.mem) (InSlot h) := by
    refine Colouring.Safe.change ht (fun x hx => .inl hx) (fun y hy z hyz => ?_)
      (fun y hy => Colouring.Safe.present ht y hy) (fun y _ hm => hm) hc.keeps
    rcases hyz with hyz | ⟨hval, hgains⟩
    · exact .inl hyz.refersTo
    · have hy := rooted_iff.mp hy
      exact .inr ⟨hc.enters z hval y hy hgains, hc.value z hval y hy hgains⟩
  have hlive : h'.gc.live_mark_value = h.gc.live_mark_value := by rw [hst.rest.gc]
  have hslots : ∀ t, h'.slots t = h.slots t := fun t => slots_of_view (hst.rest.threads t)
  have hmarks : ∀ m x, h'.mem.isMarked m x = h.mem.isMarked m x := fun m x =>
    isMarked_congr (hst.marks x)
  refine hsafe.congr (fun x hx => hx.imp fun t => slot_of_slots hslots t x) ?_ ?_ ?_ fun z hz => ?_
  · rintro y ⟨rs, hrs⟩ z hyz
    obtain ⟨rs', hrs', hrefs⟩ := hst.refs y rs hrs
    exact (hrefs z).mp (hrs'.refersTo_iff.mp hyz)
  · rintro y ⟨rs, hrs⟩
    obtain ⟨rs', hrs', -⟩ := hst.refs y rs hrs
    exact ⟨rs', hrs'⟩
  · intro y _ hm
    have hm' : h'.mem.isMarked h'.gc.live_mark_value y = true := hm
    rw [hmarks, hlive] at hm'
    exact hm'
  · refine hz.mono (fun y hy => ?_) (fun y hy => ?_) (fun y hy => ?_) fun y z hyz => ?_
    · show h'.mem.isMarked h'.gc.live_mark_value y = true
      rw [hmarks, hlive]
      exact hy
    · show h'.mem.isMarked (!h'.gc.live_mark_value) y = true
      rw [hmarks, hlive]
      exact hy
    · show some y ∈ h'.grey
      rw [grey_of_slots hst.rest.pc hst.rest.gc hslots]
      exact hy
    · obtain ⟨rs, hrs⟩ := RefersAfter.hasRefs hyz
      obtain ⟨rs', hrs', hrefs⟩ := hst.refs y rs hrs
      exact ⟨rs', hrs', (hrefs z).mpr hyz⟩

/-- **A step that meets the condition keeps the invariant.** -/
theorem Tricolour.step {h h' : PupHeap} (hs : Sound h) (ht : Tricolour h) {i : Label}
    (hc : KeepsMarks h i) (hstep : step h i = some h') : Tricolour h' := by
  cases i with
  | threadInit t base junk => exact ht.threadInit hstep
  | newObject t size type base =>
      obtain ⟨h₁, a, tinfo, halloc, hti, hb⟩ := newObject_born hs hstep
      exact ht.born hb (hc h₁ a tinfo halloc hti)
  | stringNewCstr t a type junk => exact ht.born (stringNewCstr_born hs hstep) hc
  | ivSet t fuel obj sym val base => exact ht.stored (ivSet_stored hs hstep) hc
  | setFrames t frames => exact ht.setFrames hc hstep
  | periodStart => exact ht.periodStart hc hstep
  | handler t => exact ht.handler hstep
  | safepoint t => exact ht.safepoint hstep
  | stealSegment => exact ht.stealSegment hc hstep
  | scanRef fuel => exact ht.scanRef hstep
  | collectRegion => exact ht.collectRegion hc hstep

theorem Tricolour.init (junk : Nat) : Tricolour (pupHeapInit junk) := by
  have hno : ∀ z, ¬ (colouring (pupHeapInit junk)).Rooted (InSlot (pupHeapInit junk)) z := by
    rintro z ⟨x, ⟨t, info, hi, -⟩, -⟩
    cases hi
  refine ⟨fun z hz => absurd hz (hno z), fun z hz => ?_⟩
  cases hz with
  | slot hz => exact absurd (.of_slot hz) (hno z)
  | edge hy => exact absurd hy (hno _)

/--
**What the mark means at a flip.**  In a run whose steps all meet `KeepsMarks`, no object
reachable from a live slot carries the value that `pup_gc_period_start` is about to make
the live one.
-/
theorem no_new_mark_at_flip {tr : List (PupHeap × Label)} {h h' : PupHeap}
    (hrun : Trace heapMachine tr h) (hsteps : ∀ p ∈ tr, KeepsMarks p.1 p.2)
    (hflip : heapMachine.next h .periodStart = some h') :
    ∀ a, Rooted h a → h.mem.isMarked h'.gc.live_mark_value a = false := by
  have hinv : Sound h ∧ Tricolour h := by
    refine hrun.invariant (I := fun h => Sound h ∧ Tricolour h) (C := KeepsMarks) ?_ ?_ hsteps
    · intro h hinit
      obtain ⟨junk, rfl⟩ := hinit
      exact ⟨.init junk, .init junk⟩
    · intro h i h' hI hc hstep
      exact ⟨hI.1.step hstep, hI.2.step hI.1 hc hstep⟩
  have hs : startStep h = some h' := hflip
  unfold startStep at hs
  split at hs
  · rename_i hpc
    obtain rfl := Option.some.inj hs
    intro a ha
    have hm := hinv.2.marked (by rw [PupHeap.grey, hpc]) ha
    exact Bool.eq_false_iff.mpr (not_white_of_marked hm)
  · cases hs

/-- A run whose steps all meet the condition leads there. -/
def KeptRun (h : PupHeap) : Prop :=
  ∃ tr, Trace heapMachine tr h ∧ ∀ p ∈ tr, KeepsMarks p.1 p.2

theorem KeptRun.step {h h' : PupHeap} (hk : KeptRun h) {i : Label} (hc : KeepsMarks h i)
    (hstep : step h i = some h') : KeptRun h' := by
  obtain ⟨tr, htr, hsteps⟩ := hk
  refine ⟨_, htr.snoc i hstep, fun p hp => ?_⟩
  rcases List.mem_append.mp hp with hp | hp
  · exact hsteps p hp
  · obtain rfl := List.mem_singleton.mp hp
    exact hc

/-- Thread 0 attaches and allocates a class, which is its own class, and an object of it. -/
def classAndObject : List Label :=
  [.threadInit 0 0x1000 false, .newObject 0 24 (some (0x1000 + dataOffset)) 0,
    .newObject 0 24 (some (0x1000 + dataOffset)) 0]

theorem classAndObject_threads (n : Nat) :
    ((heapMachine.run (pupHeapInit 0) classAndObject).bind fun h => h.threads (n + 1)) = none :=
  rfl

/-- A class that is its own class may be referred to. -/
theorem enters_own_class {h : PupHeap} {a : Addr}
    (ha : h.mem.objects a = some ⟨some a, none, h.gc.live_mark_value⟩) :
    (colouring h).Enters (Present h.mem) a ∧ (colouring h).Guarded a := by
  have hrefs : HasRefs h.mem a [some a] := ⟨_, [], ha, AttrList.nil_iff.mpr rfl, rfl⟩
  have hself : ∀ z, (colouring h).edge a z → z = a := by
    intro z hz
    simpa using hrefs.refersTo_iff.mp hz
  have hguarded : (colouring h).Guarded a := .inl (isMarked_iff.mpr ⟨_, ha, rfl⟩)
  exact ⟨.of_edges ⟨_, hrefs⟩ (fun z hz => .inl (hself z hz)) fun _ z hz => hself z hz ▸ hguarded,
    hguarded⟩

/-- The thread and its two objects are ready for the first collection. -/
theorem keptRun_classAndObject : ∃ h, KeptRun h ∧
    heapMachine.run (pupHeapInit 0) classAndObject = some h ∧
    ∀ x, InSlot h x → (flipped h).Guarded x := by
  let a := 0x1000 + dataOffset
  have hrun : ((threadInit (pupHeapInit 0) 0 0x1000 false).any fun h₁ =>
      (pupHeapAlloc h₁ 0 24 .obj 0).all (fun p => decide (p.2 = a)) &&
      (h₁.threads 0).all (fun info => info.current_gc_mark == h₁.gc.live_mark_value) &&
      (newObject h₁ 0 24 (some a) 0).any fun h₂ =>
        decide (h₂.mem.objects a = some ⟨some a, none, h₂.gc.live_mark_value⟩) &&
        (h₂.threads 0).all (fun info => info.current_gc_mark == h₂.gc.live_mark_value) &&
        (newObject h₂ 0 24 (some a) 0).any fun h =>
          decide (h.thread_list = some 0) && (h.threads 0).all fun info =>
            info.frames.flatten.all fun r =>
              r.all (h.mem.isMarked h.gc.live_mark_value)) = true := by
    decide +kernel
  obtain ⟨h₁, hinit, hh⟩ := (Option.any_eq_true _ _).mp hrun
  simp only [Bool.and_eq_true] at hh
  obtain ⟨⟨hat, hmark₁⟩, hh⟩ := hh
  obtain ⟨h₂, hclass, hh⟩ := (Option.any_eq_true _ _).mp hh
  simp only [Bool.and_eq_true, decide_eq_true_eq] at hh
  obtain ⟨⟨ha, hmark₂⟩, hh⟩ := hh
  obtain ⟨h, hobject, hh⟩ := (Option.any_eq_true _ _).mp hh
  simp only [Bool.and_eq_true, decide_eq_true_eq] at hh
  obtain ⟨hlist, hmarked⟩ := hh
  have hk₀ : KeptRun (pupHeapInit 0) := ⟨[], .nil ⟨0, rfl⟩, fun p hp => (by cases hp)⟩
  have hk₁ : KeptRun h₁ := hk₀.step (i := .threadInit 0 0x1000 false) trivial hinit
  have hk₂ : KeptRun h₂ := by
    refine hk₁.step (i := .newObject 0 24 (some a) 0) (fun h' b info halloc hi => ?_) hclass
    rw [halloc] at hat
    rw [hi] at hmark₁
    -- the class is its own type
    have hself : ∀ c, some a = some c → c = b := fun c hc =>
      (Option.some.inj hc).symm.trans (of_decide_eq_true hat).symm
    exact ⟨fun _ => eq_of_beq hmark₁, fun c hc hne => absurd (hself c hc) hne,
      fun c hc hne => absurd (hself c hc) hne⟩
  have hk : KeptRun h := by
    refine hk₂.step (i := .newObject 0 24 (some a) 0) (fun h' b info halloc hi => ?_) hobject
    rw [hi] at hmark₂
    have hentered := enters_own_class ha
    refine ⟨fun _ => eq_of_beq hmark₂, fun c hc _ => ?_, fun c hc _ _ => ?_⟩
    · exact Option.some.inj hc ▸ hentered.1
    · exact Option.some.inj hc ▸ hentered.2
  have hlabels : heapMachine.run (pupHeapInit 0) classAndObject = some h := by
    have hnext₁ : heapMachine.next (pupHeapInit 0) (.threadInit 0 0x1000 false) = some h₁ := hinit
    have hnext₂ : heapMachine.next h₁ (.newObject 0 24 (some a) 0) = some h₂ := hclass
    have hnext₃ : heapMachine.next h₂ (.newObject 0 24 (some a) 0) = some h := hobject
    rw [classAndObject, Machine.run, hnext₁, Option.bind_some, Machine.run, hnext₂,
      Option.bind_some, Machine.run, hnext₃, Option.bind_some, Machine.run]
  refine ⟨h, hk, hlabels, fun x hx => ?_⟩
  obtain ⟨t, info, hi, hx⟩ := hx
  cases t with
  | zero =>
      rw [hi] at hmarked
      have hwhite : (flipped h).white x := List.all_eq_true.mp hmarked (some x) hx
      exact .inr ⟨x, .inl ⟨0, hlist, info, hi, hx⟩, hwhite, .refl⟩
  | succ n =>
      have hnone := classAndObject_threads n
      rw [hlabels, Option.bind_some, hi] at hnone
      cases hnone

/-- Thread 0 comes to a safepoint, its slots and what they hold are marked, and its region,
which no other has replaced, is left alone. -/
theorem keptRun_collected {h : PupHeap} (hk : KeptRun h)
    (hlabels : heapMachine.run (pupHeapInit 0) classAndObject = some h)
    (hslots : ∀ x, InSlot h x → (flipped h).Guarded x) :
    ∃ h', KeptRun h' ∧ Slot h' 0 (0x1000 + dataOffset) ∧ (startStep h').isSome = true := by
  let a := 0x1000 + dataOffset
  have hrun : ((heapMachine.run (pupHeapInit 0) classAndObject).any fun h =>
      (startStep h).any fun h₁ => (handlerStep h₁ 0).any fun h₂ =>
        (safepointStep h₂ 0).any fun h₃ => !h₃.gc.reference_queue.isEmpty &&
          (stealStep h₃).any fun h₄ => (scanStep h₄ 2).any fun h₅ =>
            !h₅.gc.reference_queue.isEmpty && (stealStep h₅).any fun h₆ =>
              (scanStep h₆ 2).any fun h₇ =>
                (h₇.gc.current_segment.refs.all fun r =>
                  r.all (h₇.mem.isMarked h₇.gc.live_mark_value)) &&
                (stealStep h₇).any fun h₈ => h₈.region_list.isEmpty &&
                  (collectStep h₈).any fun h' =>
                    ((h'.threads 0).any fun info => some a ∈ info.frames.flatten) &&
                      (startStep h').isSome) = true := by
    decide +kernel
  rw [hlabels, Option.any_some] at hrun
  obtain ⟨h₁, hstart, hh⟩ := (Option.any_eq_true _ _).mp hrun
  obtain ⟨h₂, hhandler, hh⟩ := (Option.any_eq_true _ _).mp hh
  obtain ⟨h₃, hsafepoint, hh⟩ := (Option.any_eq_true _ _).mp hh
  obtain ⟨hqueue₃, hh⟩ := (Bool.and_eq_true _ _).mp hh
  obtain ⟨h₄, hsteal₄, hh⟩ := (Option.any_eq_true _ _).mp hh
  obtain ⟨h₅, hscan₅, hh⟩ := (Option.any_eq_true _ _).mp hh
  obtain ⟨hqueue₅, hh⟩ := (Bool.and_eq_true _ _).mp hh
  obtain ⟨h₆, hsteal₆, hh⟩ := (Option.any_eq_true _ _).mp hh
  obtain ⟨h₇, hscan₇, hh⟩ := (Option.any_eq_true _ _).mp hh
  obtain ⟨hleft, hh⟩ := (Bool.and_eq_true _ _).mp hh
  obtain ⟨h₈, hsteal₈, hh⟩ := (Option.any_eq_true _ _).mp hh
  obtain ⟨hlist, hh⟩ := (Bool.and_eq_true _ _).mp hh
  obtain ⟨h', hcollect, hh⟩ := (Option.any_eq_true _ _).mp hh
  obtain ⟨hslot, hflip⟩ := (Bool.and_eq_true _ _).mp hh
  obtain ⟨info, hi, hmem⟩ := (Option.any_eq_true _ _).mp hslot
  have hfull : ∀ {h : PupHeap}, (!h.gc.reference_queue.isEmpty) = true →
      KeepsMarks h .stealSegment := by
    intro h hne hq
    rw [hq] at hne
    cases hne
  have hk₃ := ((hk.step (i := .periodStart) hslots hstart).step (i := .handler 0) trivial
    hhandler).step (i := .safepoint 0) trivial hsafepoint
  have hk₅ := (hk₃.step (i := .stealSegment) (hfull hqueue₃) hsteal₄).step (i := .scanRef 2)
    trivial hscan₅
  have hk₇ := (hk₅.step (i := .stealSegment) (hfull hqueue₅) hsteal₆).step (i := .scanRef 2)
    trivial hscan₇
  -- what is left in the last segment has been marked
  have hk₈ := hk₇.step (i := .stealSegment) (fun _ b hb z _ hpath =>
    not_white_of_marked (List.all_eq_true.mp hleft (some b) hb) hpath.1) hsteal₈
  have hk' := hk₈.step (i := .collectRegion) (fun i rest r hregions => by
    rw [List.isEmpty_iff.mp hlist] at hregions
    cases hregions) hcollect
  exact ⟨h', hk', ⟨info, hi, of_decide_eq_true hmem⟩, hflip⟩

/-- At the second flip the class does not carry the new value. -/
theorem no_new_mark_at_flip_object :
    ∃ h h', Reachable heapMachine h ∧ heapMachine.next h .periodStart = some h' ∧
      Rooted h (0x1000 + dataOffset) ∧
      h.mem.isMarked h'.gc.live_mark_value (0x1000 + dataOffset) = false := by
  obtain ⟨h₀, hk₀, hlabels, hslots⟩ := keptRun_classAndObject
  obtain ⟨h, hk, hslot, hstart⟩ := keptRun_collected hk₀ hlabels hslots
  obtain ⟨tr, htrace, hsteps⟩ := hk
  obtain ⟨h', hflip⟩ := Option.isSome_iff_exists.mp hstart
  have hroot : Rooted h (0x1000 + dataOffset) := .slot hslot
  exact ⟨h, h', htrace.reachable, hflip, hroot, no_new_mark_at_flip htrace hsteps hflip _ hroot⟩

/-- The same, but `malloc` returned a record with the lowest bit of `current_gc_mark` set. -/
theorem new_mark_from_junk :
    ¬ ∀ h h', Reachable heapMachine h → heapMachine.next h .periodStart = some h' →
      ∀ a, Rooted h a → h.mem.isMarked h'.gc.live_mark_value a = false := by
  intro hall
  have hrun : ((heapMachine.run (pupHeapInit 0)
      [.threadInit 0 0x1000 true, .newObject 0 24 none 0]).any fun h =>
        ((h.threads 0).any fun info => some (0x1000 + dataOffset) ∈ info.frames.flatten) &&
          (startStep h).any fun h' =>
            h.mem.isMarked h'.gc.live_mark_value (0x1000 + dataOffset)) = true := by
    decide +kernel
  obtain ⟨h, hlabels, hh⟩ := (Option.any_eq_true _ _).mp hrun
  obtain ⟨hslot, hstart⟩ := (Bool.and_eq_true _ _).mp hh
  obtain ⟨info, hi, hmem⟩ := (Option.any_eq_true _ _).mp hslot
  obtain ⟨h', hflip, hmark⟩ := (Option.any_eq_true _ _).mp hstart
  have hfalse := hall h h' (reachable_of_run ⟨0, rfl⟩ _ hlabels) hflip _
    (.slot ⟨info, hi, of_decide_eq_true hmem⟩)
  rw [hmark] at hfalse
  cases hfalse

end Pup.Heap
