/-
What a collection leaves of the objects in use.

`collect_unmarked_objects` unmaps every region on the global list, and `copy_live_object`
is empty, so nothing has been moved out of a region before.  What is reachable survives
precisely if none of it is in a region on the list.

`performGc` is a collection without any step of a mutator in between, and
`performGc_reachable` says that it is a run of the machine.
-/
import Pup.Gc.ScanHeap
import Pup.Heap.Sound

namespace Pup.Heap

open Pup.Gc Transition Outcome

/-! ### The phases of a collection

With no step of a mutator in between, a collection is a function of the heap: one phase of marking
from the slots of the thread that is visited, and one that goes over the regions on the list.
`performGc_eq` takes it apart into these two.
-/

/-- The frames of the threads a collection visits, which is the head of the list. -/
def scannedFrames (h : PupHeap) : List (List (Option Addr)) :=
  match h.thread_list.bind h.threads with
  | none => []
  | some tinfo => tinfo.frames

/-- The heap after the safepoints, but for what the stack scans did. -/
def arrived (h : PupHeap) : PupHeap :=
  match h.thread_list with
  | none => periodStart h
  | some t =>
      match h.threads t with
      | none => h
      | some tinfo => (periodStart h).setThread t
          { tinfo with gc_waiting := false, current_gc_mark := !h.gc.live_mark_value }

theorem periodStart_quiet (h : PupHeap) : Quiet h (periodStart h) :=
  .collector h (gcPeriodStart h.gc) h.pc

theorem arrived_quiet (h : PupHeap) : Quiet h (arrived h) := by
  unfold arrived
  split
  · exact periodStart_quiet h
  · rename_i t _
    split
    · exact .collector h h.gc h.pc
    · rename_i tinfo ht
      have ht' : (periodStart h).threads t = some tinfo := ht
      exact (periodStart_quiet h).trans (.setThread ht' rfl)

/-- The heap when the mark phase has left it as `s`. -/
theorem marked_quiet {h : PupHeap} {s : Scan} (hm : MarksOnly h.mem s.mem) :
    Quiet h ((arrived h).setScan s) := by
  have hmem : (arrived h).mem = h.mem := by
    unfold arrived
    split
    · rfl
    · split <;> rfl
  refine (arrived_quiet h).trans (.scan (s := s) ?_ (arrived h).pc)
  rw [hmem]
  exact hm

theorem convergeOnSafepoint_eq {h : PupHeap} {t : Tid} {tinfo : PupThreadInfo}
    (ht : h.threads t = some tinfo) :
    convergeOnSafepoint h t = scanStack h.gc tinfo.frames >>= fun gc =>
      .ok ((h.setGc gc).setThread t
        { tinfo with gc_waiting := false, current_gc_mark := h.gc.live_mark_value }) := by
  have hs : (siguser1Handler h t tinfo).threads t =
      some { tinfo with gc_waiting := true, current_gc_mark := h.gc.live_mark_value } :=
    Function.update_self ..
  rw [convergeOnSafepoint, deref_eq ht]
  show (deref (siguser1Handler h t tinfo).threads (some t) >>= fun tinfo' =>
    pupHeapSafepoint (siguser1Handler h t tinfo) t tinfo') = _
  rw [deref_eq hs]
  refine bind_congr fun gc => congrArg Except.ok ?_
  simp [siguser1Handler, PupHeap.setGc, PupHeap.setThread]

/-- A collection marks, and then collects. -/
theorem performGc_eq {h : PupHeap} (hp : Places h) (fuel : Nat) :
    performGc fuel h =
      markPhase fuel ⟨h.mem, gcPeriodStart h.gc⟩ (scannedFrames h) >>= fun s =>
        collectUnmarkedObjects ((arrived h).setScan s) := by
  have hlist : (periodStart h).thread_list = h.thread_list := rfl
  unfold performGc arrived scannedFrames markPhase
  simp only [hlist]
  cases hl : h.thread_list with
  | none => rfl
  | some t =>
      obtain ⟨tinfo, ht⟩ := hp.head t hl
      have ht' : (periodStart h).threads t = some tinfo := ht
      simp only [Option.elim_some, Option.bind_some, ht, convergeOnSafepoint_eq ht']
      cases hscan : scanStack (gcPeriodStart h.gc) tinfo.frames with
      | error f =>
          have hscan' : scanStack (periodStart h).gc tinfo.frames = .error f := hscan
          rw [hscan']
          rfl
      | ok gc =>
          have hscan' : scanStack (periodStart h).gc tinfo.frames = .ok gc := hscan
          rw [hscan']
          rfl

/-- What a successful collection does: the marks change, and the regions are collected. -/
theorem performGc_ok {h h' : PupHeap} (hp : Places h) {fuel : Nat}
    (hgc : performGc fuel h = .ok h') :
    ∃ h₁, Quiet h h₁ ∧ MarksOnly h.mem h₁.mem ∧ collectUnmarkedObjects h₁ = .ok h' := by
  rw [performGc_eq hp] at hgc
  obtain ⟨s, hmark, hcollect⟩ := bind_ok hgc
  have hmarks : MarksOnly h.mem s.mem := markPhase_marksOnly hmark
  exact ⟨(arrived h).setScan s, marked_quiet hmarks, hmarks, hcollect⟩

/-! ### Collecting -/

/-- The address is in a region on the global list. -/
def InListed (h : PupHeap) (a : Nat) : Prop :=
  ∃ i ∈ h.region_list, ∃ r, h.regions i = some r ∧ r.Contains a

/-- Everything in the regions on the list is gone, and everything else is as it was. -/
structure Collected (h h' : PupHeap) : Prop where
  objects_in : ∀ a, InListed h a → h'.mem.objects a = none
  objects_out : ∀ a, ¬ InListed h a → h'.mem.objects a = h.mem.objects a
  attrs_in : ∀ a, InListed h a → h'.mem.attrs a = none
  attrs_out : ∀ a, ¬ InListed h a → h'.mem.attrs a = h.mem.attrs a

/-- Reading the blocks of a region does not fail. -/
theorem collect_walk {mem : Memory} {r : PupHeapRegion} {bs : List (Nat × HeapObject)}
    (hok : RegionOK mem r bs) (gc : PupGCState) :
    ∃ gc', walkRegion mem (collectHeapObject mem) r gc = .ok gc' := by
  have hends : Ends (bs.foldlM (collectHeapObject mem) gc) (fun _ => True) fun _ => False := by
    refine Ends.foldlM (I := fun _ => True) (fun p hp gc₁ _ => ?_) trivial
    unfold collectHeapObject
    cases hk : p.2.kind with
    | obj =>
        obtain ⟨o, ho⟩ := hok.objects p hp hk
        simp only [deref_eq ho, bind, Except.bind]
        split <;> trivial
    | attr => trivial
  obtain ⟨gc', hgc', -⟩ := hends.total
  exact ⟨gc', by rw [walkRegion_eq hok.blocks, hgc']⟩

theorem inListed_reclaimed {h : PupHeap} {i : Nat} {rest : List Nat}
    (hlist : h.region_list = i :: rest) (hnodup : h.region_list.Nodup) {r : PupHeapRegion}
    (hr : h.regions i = some r) (gc : PupGCState) (a : Nat) :
    InListed h a ↔ r.Contains a ∨ InListed (reclaimed (h.stolen rest) i r gc) a := by
  have hregions := regions_reclaimed (h.stolen rest) i r gc
  rw [hlist, List.nodup_cons] at hnodup
  have hrest : ∀ j ∈ rest, (reclaimed (h.stolen rest) i r gc).regions j = h.regions j := by
    intro j hj
    have hji : j ≠ i := by
      intro heq
      exact hnodup.1 (heq ▸ hj)
    rw [hregions, if_neg hji]
    rfl
  unfold InListed
  rw [hlist]
  constructor
  · intro hin
    obtain ⟨j, hj, q, hq, hqa⟩ := hin
    rcases List.mem_cons.mp hj with rfl | hj
    · obtain rfl := Option.some.inj (hr.symm.trans hq)
      exact .inl hqa
    · exact .inr ⟨j, hj, q, (hrest j hj).trans hq, hqa⟩
  · intro hin
    rcases hin with hra | ⟨j, hj, q, hq, hqa⟩
    · exact ⟨i, List.mem_cons_self, r, hr, hra⟩
    · exact ⟨j, List.mem_cons_of_mem i hj, q, (hrest j hj).symm.trans hq, hqa⟩

/-- **`collect_unmarked_objects` unmaps the regions on the list, and never fails.** -/
theorem collectRegions_ends (l : List Nat) {h : PupHeap} (hs : Sound h)
    (hlist : h.region_list = l) :
    Ends (collectRegions l h) (fun h' => Collected h h') fun _ => False := by
  induction l generalizing h with
  | nil =>
      have hnot : ∀ a, ¬ InListed h a := by simp [InListed, hlist]
      exact ⟨fun a ha => absurd ha (hnot a), fun _ _ => rfl, fun a ha => absurd ha (hnot a),
        fun _ _ => rfl⟩
  | cons i rest ih =>
      obtain ⟨r, hr⟩ := hs.places.listed_mapped i (by rw [hlist]; exact List.mem_cons_self)
      obtain ⟨bs, hok, -⟩ := hs.layout.blocks i r hr
      obtain ⟨gc, hwalk⟩ := collect_walk hok h.gc
      have hr' : (h.stolen rest).regions i = some r := hr
      rw [collectRegions, collectUnmarkedObjectsInRegion_eq hr' hwalk]
      have hin := inListed_reclaimed hlist hs.places.nodup hr gc
      refine (ih (hs.reclaimed hlist hr gc) rfl).imp ?_ fun _ => id
      intro h' hc
      have hobjects : ∀ a, (reclaimed (h.stolen rest) i r gc).mem.objects a =
          if r.Contains a then none else h.mem.objects a := fun _ => rfl
      have hattrs : ∀ a, (reclaimed (h.stolen rest) i r gc).mem.attrs a =
          if r.Contains a then none else h.mem.attrs a := fun _ => rfl
      refine ⟨fun a ha => ?_, fun a ha => ?_, fun a ha => ?_, fun a ha => ?_⟩
      · by_cases hl : InListed (reclaimed (h.stolen rest) i r gc) a
        · exact hc.objects_in a hl
        · rw [hc.objects_out a hl, hobjects, if_pos (((hin a).mp ha).resolve_right hl)]
      · rw [hc.objects_out a fun hl => ha ((hin a).mpr (.inr hl)), hobjects,
          if_neg fun hl => ha ((hin a).mpr (.inl hl))]
      · by_cases hl : InListed (reclaimed (h.stolen rest) i r gc) a
        · exact hc.attrs_in a hl
        · rw [hc.attrs_out a hl, hattrs, if_pos (((hin a).mp ha).resolve_right hl)]
      · rw [hc.attrs_out a fun hl => ha ((hin a).mpr (.inr hl)), hattrs,
          if_neg fun hl => ha ((hin a).mpr (.inl hl))]

/-! ### A collection is a run -/

theorem scanRefs_reachable {h : PupHeap} (fuel : Nat) (refs : List (Option Addr)) {s s' : Scan}
    (hr : Reachable heapMachine ((h.setScan s).goto (.scanning refs)))
    (hscan : refs.foldlM (scanQueueRef fuel) s = .ok s') :
    Reachable heapMachine ((h.setScan s').goto (.scanning [])) := by
  induction refs generalizing s with
  | nil =>
      cases hscan
      exact hr
  | cons ref rest ih =>
      rw [List.foldlM_cons] at hscan
      obtain ⟨s₁, href, hscan⟩ := bind_ok hscan
      refine ih (hr.step (.scanRef fuel) ?_) hscan
      have hopt : (scanQueueRef fuel s ref).toOption = some s₁ := by rw [href]; rfl
      show ((scanQueueRef fuel s ref).toOption.bind fun s =>
        some ((((h.setScan _).goto (.scanning (ref :: rest))).setScan s).goto (.scanning rest))) = _
      rw [hopt]
      rfl

theorem scanSegments_reachable {h : PupHeap} (fuel n : Nat) {s s' : Scan}
    (hr : Reachable heapMachine ((h.setScan s).goto (.scanning [])))
    (hscan : scanSegments fuel n s = .ok s') :
    Reachable heapMachine ((h.setScan s').goto .collecting) := by
  induction n generalizing s with
  | zero => cases hscan
  | succ n ih =>
      cases hq : s.state.reference_queue with
      | nil =>
          rw [scanSegments_nil hq] at hscan
          cases hscan
          refine hr.step .stealSegment ?_
          simp [heapMachine, step, stealStep, stealSegmentFromGlobalQueue, hq, PupHeap.goto]
      | cons seg rest =>
          rw [scanSegments_cons hq] at hscan
          obtain ⟨s₁, hseg, hscan⟩ := bind_ok hscan
          refine ih (scanRefs_reachable fuel seg.refs (hr.step .stealSegment ?_) hseg) hscan
          simp [heapMachine, step, stealStep, stealSegmentFromGlobalQueue, hq, PupHeap.goto,
            PupHeap.setScan, Scan.stolen]

theorem collectRegions_reachable (l : List Nat) {h h' : PupHeap} (hlist : h.region_list = l)
    (hr : Reachable heapMachine (h.goto .collecting)) (hc : collectRegions l h = .ok h') :
    Reachable heapMachine (h'.goto .sleeping) := by
  induction l generalizing h with
  | nil =>
      cases hc
      refine hr.step .collectRegion ?_
      simp [heapMachine, step, collectStep, hlist, PupHeap.goto]
  | cons i rest ih =>
      obtain ⟨h₁, hregion, hc⟩ := bind_ok hc
      obtain ⟨r, gc, hri, hwalk, rfl⟩ := collectUnmarkedObjectsInRegion_ok hregion
      refine ih rfl (hr.step .collectRegion ?_) hc
      have heq : collectUnmarkedObjectsInRegion ((h.goto .collecting).stolen rest) i =
          .ok (reclaimed ((h.goto .collecting).stolen rest) i r gc) :=
        collectUnmarkedObjectsInRegion_eq hri hwalk
      simp only [heapMachine, step, collectStep, PupHeap.goto_pc, PupHeap.goto_region_list, hlist,
        heq]
      rfl

/-- **A collection by a collector that was asleep is a run of the machine.** -/
theorem performGc_reachable {h h' : PupHeap} (hr : Reachable heapMachine h)
    (hpc : h.pc = .sleeping) {fuel : Nat} (hgc : performGc fuel h = .ok h') :
    Reachable heapMachine (h'.goto .sleeping) := by
  have hp := (Sound.reachable hr).places
  rw [performGc_eq hp] at hgc
  obtain ⟨s, hmark, hcollect⟩ := bind_ok hgc
  obtain ⟨gc, hstack, hscan⟩ := bind_ok hmark
  have harrived : Reachable heapMachine (((arrived h).setScan ⟨h.mem, gc⟩).goto (.scanning [])) := by
    unfold scannedFrames at hstack
    cases hl : h.thread_list with
    | none =>
        simp only [hl, Option.bind_none] at hstack
        cases hstack
        have harr : arrived h = periodStart h := by simp only [arrived, hl]
        rw [harr]
        refine hr.step .periodStart ?_
        simp [heapMachine, step, startStep, hpc, hl, periodStart, PupHeap.goto, PupHeap.setGc,
          PupHeap.setScan]
    | some t =>
        obtain ⟨tinfo, ht⟩ := hp.head t hl
        simp only [hl, ht, Option.bind_some] at hstack
        have harr : arrived h = (periodStart h).setThread t
            { tinfo with gc_waiting := false, current_gc_mark := !h.gc.live_mark_value } := by
          simp only [arrived, hl, ht]
        rw [harr]
        have hstart : Reachable heapMachine ((periodStart h).goto (.converging t)) := by
          refine hr.step .periodStart ?_
          simp [heapMachine, step, startStep, hpc, hl]
        have hhandler : Reachable heapMachine
            (siguser1Handler ((periodStart h).goto (.converging t)) t tinfo) := by
          refine hstart.step (.handler t) ?_
          simp [heapMachine, step, handlerStep, periodStart, ht]
        refine hhandler.step (.safepoint t) ?_
        have hscanned : pupHeapSafepoint (siguser1Handler ((periodStart h).goto (.converging t)) t
            tinfo) t { tinfo with gc_waiting := true, current_gc_mark := !h.gc.live_mark_value } =
            .ok (((siguser1Handler ((periodStart h).goto (.converging t)) t tinfo).setGc gc).setThread
              t { tinfo with gc_waiting := false, current_gc_mark := !h.gc.live_mark_value }) := by
          have hgc' : scanStack (periodStart h).gc tinfo.frames = .ok gc := hstack
          show (scanStack (periodStart h).gc tinfo.frames >>= _) = _
          rw [hgc']
          rfl
        have hthread : (siguser1Handler ((periodStart h).goto (.converging t)) t tinfo).threads t =
            some { tinfo with gc_waiting := true, current_gc_mark := !h.gc.live_mark_value } :=
          Function.update_self ..
        simp only [heapMachine, step, safepointStep, hthread, bind, Option.bind_some, hscanned]
        simp [siguser1Handler, PupHeap.setThread, PupHeap.setGc, PupHeap.goto, PupHeap.setScan,
          periodStart, Except.toOption]
  exact collectRegions_reachable _ rfl (scanSegments_reachable fuel fuel harrived hscan) hcollect

/-! ### Survival

Marking writes marks and nothing else, and collecting takes away regions and nothing else.  So
what becomes of an object is a matter of its address, and its mark does not come into it.
-/

/-- An object is reachable from the slots a collection scans. -/
def RootReaches (h : PupHeap) (a : Addr) : Prop :=
  ∃ x, some x ∈ (scannedFrames h).flatten ∧ Reaches h.mem x a

/-- The object at `a` can still be read there, with its type and its attributes. -/
def Survives (mem mem' : Memory) (a : Addr) : Prop :=
  ∃ o o', mem.objects a = some o ∧ mem'.objects a = some o' ∧ o'.fields = o.fields ∧
    ∀ l, AttrList mem o.attr_list_head l → AttrList mem' o.attr_list_head l

/-- Neither the object nor an entry of its attribute list is in a region on the list. -/
def Spared (h : PupHeap) (a : Addr) : Prop :=
  ¬ InListed h a ∧ ∀ o l, h.mem.objects a = some o → AttrList h.mem o.attr_list_head l →
    ∀ p ∈ l, ¬ InListed h p.1

/-- What a collection needs of references to return: none that is null or was never
written. -/
structure MarkSafe (h : PupHeap) : Prop where
  initialised : h.gc.current_segment ≠ .wild
  graph : ∃ g : Graph h.mem, g.NullFree ∧ (∀ r ∈ (scannedFrames h).flatten, g.Ref r) ∧
    ∀ r ∈ h.gc.pending, g.Ref r

theorem inListed_quiet {h h₁ : PupHeap} (hq : Quiet h h₁) (a : Nat) :
    InListed h₁ a ↔ InListed h a := by
  unfold InListed
  rw [hq.region_list, hq.regions]

/-- One object survives exactly if it is spared. -/
theorem survives_iff {h h₁ h' : PupHeap} (hq : Quiet h h₁) (hm : MarksOnly h.mem h₁.mem)
    (hc : Collected h₁ h') {a : Addr} (ha : h.mem.objects a ≠ none) :
    Survives h.mem h'.mem a ↔ Spared h a := by
  obtain ⟨o, ho⟩ := Option.ne_none_iff_exists'.mp ha
  obtain ⟨o₁, ho₁, htype, hhead⟩ := hm.object ho
  have hfields : o₁.fields = o.fields := by rw [PupObject.fields, htype, hhead, PupObject.fields]
  constructor
  · intro hsurvives
    obtain ⟨o', o'', ho', ho'', -, hattrs⟩ := hsurvives
    obtain rfl := Option.some.inj (ho.symm.trans ho')
    refine ⟨fun hin => ?_, fun o₂ l ho₂ hl p hp hin => ?_⟩
    · rw [hc.objects_in a ((inListed_quiet hq a).mpr hin)] at ho''
      cases ho''
    · obtain rfl := Option.some.inj (ho.symm.trans ho₂)
      have hentry := (hattrs l hl).2 p hp
      rw [hc.attrs_in p.1 ((inListed_quiet hq p.1).mpr hin)] at hentry
      cases hentry
  · intro hspared
    refine ⟨o, o₁, ho, ?_, hfields, fun l hl => ?_⟩
    · rw [hc.objects_out a fun hin => hspared.1 ((inListed_quiet hq a).mp hin), ho₁]
    · refine (hm.attrList hl).congr fun p hp => hc.attrs_out p.1 fun hin => ?_
      exact hspared.2 o l ho hl p hp ((inListed_quiet hq p.1).mp hin)

theorem performGc_collected {h h' : PupHeap} (hs : Sound h) {fuel : Nat}
    (hgc : performGc fuel h = .ok h') :
    ∃ h₁, Quiet h h₁ ∧ MarksOnly h.mem h₁.mem ∧ Collected h₁ h' := by
  obtain ⟨h₁, hq, hm, hcollect⟩ := performGc_ok hs.places hgc
  exact ⟨h₁, hq, hm, (collectRegions_ends _ (hs.quiet hq) rfl).of_ok hcollect⟩

theorem performGc_total {h : PupHeap} (hs : Sound h) (hm : MarkSafe h) :
    ∃ n, ∀ fuel ≥ n, ∃ h', performGc fuel h = .ok h' := by
  obtain ⟨g, hnull, hframes, hpending⟩ := hm.graph
  obtain ⟨n, hn⟩ := markPhase_total hnull (gcPeriodStart h.gc) hpending hm.initialised hframes
  refine ⟨n, fun fuel hfuel => ?_⟩
  obtain ⟨s, hmark⟩ := hn fuel hfuel
  have hquiet : Quiet h ((arrived h).setScan s) := marked_quiet (markPhase_marksOnly hmark)
  obtain ⟨h', hcollect, -⟩ := (collectRegions_ends _ (hs.quiet hquiet) rfl).total
  refine ⟨h', ?_⟩
  rw [performGc_eq hs.places, hmark]
  exact hcollect

/--
**What survives a collection.**  In every run, a collection that is `MarkSafe` returns;
and when a collection returns, everything reachable from the slots it has scanned
survives if and only if all of it is spared: none of it is in a region on the global
list.
-/
theorem performGc_survives_iff {h : PupHeap} (hr : Reachable heapMachine h) :
    (MarkSafe h → ∃ n, ∀ fuel ≥ n, ∃ h', performGc fuel h = .ok h') ∧
    ∀ fuel h', performGc fuel h = .ok h' →
      ((∀ a, RootReaches h a → h.mem.objects a ≠ none → Survives h.mem h'.mem a) ↔
        ∀ a, RootReaches h a → h.mem.objects a ≠ none → Spared h a) := by
  have hs := Sound.reachable hr
  refine ⟨performGc_total hs, fun fuel h' hgc => ?_⟩
  obtain ⟨h₁, hq, hm, hc⟩ := performGc_collected hs hgc
  constructor
  · intro hsurvives a hra ha
    exact (survives_iff hq hm hc ha).mp (hsurvives a hra ha)
  · intro hspared a hra ha
    exact (survives_iff hq hm hc ha).mpr (hspared a hra ha)

/-- A class that is its own type and has no attributes leads to itself only. -/
theorem eq_of_reaches_class {mem : Memory} {a b : Addr} {o : PupObject}
    (ho : mem.objects a = some o) (htype : o.type = some a) (hattrs : o.attr_list_head = none)
    (h : Reaches mem a b) : b = a := by
  have hrefs : HasRefs mem a [some a] := by
    refine ⟨o, [], ho, ?_, by rw [htype]; rfl⟩
    rw [hattrs]
    exact AttrList.nil_iff.mpr rfl
  induction h with
  | refl => rfl
  | tail _ hstep ih =>
      subst ih
      simpa using hrefs.refersTo_iff.mp hstep

/-- A class and its instances fill a region, which goes on the list; the class behind them is in
the next one, and a thread's stack refers to nothing else.  The collection frees the first
region, all of it garbage. -/
theorem performGc_survives_iff_object :
    ∃ h fuel h', Reachable heapMachine h ∧ performGc fuel h = .ok h' ∧
      RootReaches h (0x200000 + dataOffset) ∧
      h.mem.objects (0x1000 + dataOffset) ≠ none ∧ h'.mem.objects (0x1000 + dataOffset) = none ∧
      ∀ a, RootReaches h a → h.mem.objects a ≠ none → Survives h.mem h'.mem a := by
  have hrun : ((heapMachine.run (pupHeapInit 0)
      (.threadInit 0 0x1000 false ::
        List.replicate 255 (.newObject 0 0x1000 (some (0x1000 + dataOffset)) 0x200000) ++
        [.newObject 0 0x1000 (some (0x200000 + dataOffset)) 0x200000,
          .setFrames 0 [[some (0x200000 + dataOffset)]]])).any fun h =>
        decide ((scannedFrames h).flatten = [some (0x200000 + dataOffset)]) &&
        ((h.mem.objects (0x200000 + dataOffset)).any fun o =>
          decide (o.type = some (0x200000 + dataOffset) ∧ o.attr_list_head = none)) &&
        (h.region_list.all fun i => (h.regions i).all fun r =>
          !decide (r.Contains (0x200000 + dataOffset))) &&
        (h.mem.objects (0x1000 + dataOffset)).isSome &&
        (performGc 4 h).toOption.any fun h' =>
          (h'.mem.objects (0x1000 + dataOffset)).isNone) = true := by decide +kernel
  obtain ⟨h, hlabels, hh⟩ := (Option.any_eq_true _ _).mp hrun
  simp only [Bool.and_eq_true, decide_eq_true_eq] at hh
  obtain ⟨⟨⟨⟨hroots, hclass⟩, hlisted⟩, hgarbage⟩, hgc⟩ := hh
  obtain ⟨o, ho, hclass⟩ := (Option.any_eq_true _ _).mp hclass
  obtain ⟨htype, hattrs⟩ := of_decide_eq_true hclass
  obtain ⟨h', hgc, hnone⟩ := (Option.any_eq_true _ _).mp hgc
  have hgc := toOption_eq_some hgc
  have hr : Reachable heapMachine h := reachable_of_run ⟨0, rfl⟩ _ hlabels
  have hroot : some (0x200000 + dataOffset) ∈ (scannedFrames h).flatten :=
    hroots ▸ List.mem_singleton_self _
  refine ⟨h, 4, h', hr, hgc, ⟨_, hroot, .refl⟩, Option.isSome_iff_ne_none.mp hgarbage,
    Option.isNone_iff_eq_none.mp hnone,
    ((performGc_survives_iff hr).2 4 h' hgc).mpr fun a hreaches _ => ?_⟩
  obtain ⟨x, hx, hreaches⟩ := hreaches
  obtain rfl : x = 0x200000 + dataOffset := by simpa [hroots] using hx
  obtain rfl := eq_of_reaches_class ho htype hattrs hreaches
  constructor
  · rintro ⟨i, hi, r, hri, hcontains⟩
    have hall := List.all_eq_true.mp hlisted i hi
    simp [hri, hcontains] at hall
  · intro o' l ho' hl p hp
    obtain rfl : o = o' := Option.some.inj (ho.symm.trans ho')
    rw [hattrs] at hl
    obtain rfl := AttrList.nil_iff.mp hl
    cases hp

/-- The same class, when its region has got full and another has taken its place. -/
theorem listed_region_lost :
    ¬ ∀ h, Reachable heapMachine h → ∀ fuel h', performGc fuel h = .ok h' →
      ∀ a, RootReaches h a → h.mem.objects a ≠ none → Survives h.mem h'.mem a := by
  intro hall
  have hrun : ((heapMachine.run (pupHeapInit 0)
      (.threadInit 0 0x1000 false ::
        List.replicate 256 (.newObject 0 0x1000 (some (0x1000 + dataOffset)) 0x200000) ++
        [.setFrames 0 [[some (0x1000 + dataOffset)]]])).any fun h =>
        decide (some (0x1000 + dataOffset) ∈ (scannedFrames h).flatten) &&
        (h.mem.objects (0x1000 + dataOffset)).isSome &&
        (performGc 4 h).toOption.any fun h' =>
          (h'.mem.objects (0x1000 + dataOffset)).isNone) = true := by decide +kernel
  obtain ⟨h, hlabels, hh⟩ := (Option.any_eq_true _ _).mp hrun
  simp only [Bool.and_eq_true, decide_eq_true_eq] at hh
  obtain ⟨⟨hroot, hobject⟩, hgc⟩ := hh
  obtain ⟨h', hgc, hnone⟩ := (Option.any_eq_true _ _).mp hgc
  have hr : Reachable heapMachine h := reachable_of_run ⟨0, rfl⟩ _ hlabels
  obtain ⟨o, o', -, ho', -⟩ := hall h hr 4 h' (toOption_eq_some hgc) _ ⟨_, hroot, .refl⟩
    (Option.isSome_iff_ne_none.mp hobject)
  rw [Option.isNone_iff_eq_none.mp hnone] at ho'
  cases ho'

end Pup.Heap
