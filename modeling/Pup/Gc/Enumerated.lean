/-
Which objects `pup_gc_scan_heap` enumerates the references of.

The functions of the scan are given again with a log of the calls of
`pup_object_each_ref`, and `scanHeapLogged_scan` says that the log changes nothing.  An
object gets into the log exactly when it gets its mark (`Logs`), which is why it gets there
once.

A scan stays in the part of the graph that can be reached from the references queued
when it starts (`Graph.reached`), so the measure of `Mark` for that part bounds it.
-/
import Pup.Gc.ScanHeap

namespace Pup.Gc

open Outcome

/-- A scan, and the objects `pup_object_each_ref` has been called for. -/
structure Logged where
  scan : Scan
  log : List Addr

/-- `scan_queue_ref`. -/
def scanQueueRefLogged (fuel : Nat) (l : Logged) (ref : Option Addr) : Except Fault Logged := do
  let (marked, mem) ← gcMark l.scan.mem ref l.scan.state.live_mark_value
  if marked then
    let state ← eachRef mem gcQueueForMarking fuel ref l.scan.state
    return ⟨{ mem, state }, l.log ++ ref.toList⟩
  else return { l with scan := { l.scan with mem } }

/-- `pup_refqueuesegment_scan`. -/
def segmentScanLogged (fuel : Nat) (l : Logged) (seg : PupRefQueueSegment) :
    Except Fault Logged :=
  seg.refs.foldlM (scanQueueRefLogged fuel) l

/-- The loop of `pup_gc_scan_heap` for at most `n - 1` segments. -/
def scanSegmentsLogged (fuel : Nat) : Nat → Logged → Except Fault Logged
  | 0, _ => .error .outOfFuel
  | n + 1, l =>
      match stealSegmentFromGlobalQueue l.scan with
      | none => .ok l
      | some (seg, s) => do
          let l ← segmentScanLogged fuel { l with scan := s } seg
          scanSegmentsLogged fuel n l

/-- `pup_gc_scan_heap`. -/
def scanHeapLogged (fuel : Nat) (s : Scan) : Except Fault Logged :=
  scanSegmentsLogged fuel fuel ⟨s, []⟩

/-! ### The log changes nothing -/

theorem scanQueueRefLogged_scan (fuel : Nat) (l : Logged) (ref : Option Addr) :
    (scanQueueRefLogged fuel l ref).map Logged.scan = scanQueueRef fuel l.scan ref := by
  unfold scanQueueRefLogged scanQueueRef
  cases gcMark l.scan.mem ref l.scan.state.live_mark_value with
  | error f => rfl
  | ok p =>
      obtain ⟨marked, mem⟩ := p
      cases marked with
      | false => rfl
      | true =>
          show Except.map _ (eachRef mem gcQueueForMarking fuel ref l.scan.state >>= _) =
            eachRef mem gcQueueForMarking fuel ref l.scan.state >>= _
          cases eachRef mem gcQueueForMarking fuel ref l.scan.state <;> rfl

theorem scanSegmentsLogged_nil {fuel n : Nat} {l : Logged}
    (hq : l.scan.state.reference_queue = []) : scanSegmentsLogged fuel (n + 1) l = .ok l := by
  rw [scanSegmentsLogged, stealSegmentFromGlobalQueue, hq]

theorem scanSegmentsLogged_cons {fuel n : Nat} {l : Logged} {seg : PupRefQueueSegment}
    {rest : List PupRefQueueSegment} (hq : l.scan.state.reference_queue = seg :: rest) :
    scanSegmentsLogged fuel (n + 1) l =
      segmentScanLogged fuel ⟨l.scan.stolen rest, l.log⟩ seg >>= scanSegmentsLogged fuel n := by
  rw [scanSegmentsLogged, stealSegmentFromGlobalQueue, hq]

theorem segmentScanLogged_scan (fuel : Nat) (l : Logged) (seg : PupRefQueueSegment) :
    (segmentScanLogged fuel l seg).map Logged.scan = segmentScan fuel l.scan seg :=
  foldlM_map (scanQueueRefLogged_scan fuel) seg.refs l

theorem scanSegmentsLogged_scan (fuel n : Nat) (l : Logged) :
    (scanSegmentsLogged fuel n l).map Logged.scan = scanSegments fuel n l.scan := by
  induction n generalizing l with
  | zero => rfl
  | succ n ih =>
      cases hq : l.scan.state.reference_queue with
      | nil =>
          rw [scanSegmentsLogged_nil hq, scanSegments_nil hq]
          rfl
      | cons seg rest =>
          rw [scanSegmentsLogged_cons hq, scanSegments_cons hq]
          exact bind_map (segmentScanLogged_scan fuel _ seg) ih

/-- **With the log left out it is `pup_gc_scan_heap`.** -/
theorem scanHeapLogged_scan (fuel : Nat) (s : Scan) :
    (scanHeapLogged fuel s).map Logged.scan = scanHeap fuel s :=
  scanSegmentsLogged_scan fuel fuel ⟨s, []⟩

/-! ### What is in the log -/

/-- What the scan that started in `s₀` has logged: the objects in `D` it has marked. -/
structure Logs (D : Finset Addr) (s₀ : Scan) (l : Logged) : Prop where
  live : l.scan.state.live_mark_value = s₀.state.live_mark_value
  marked : ∀ b, l.scan.mem.isMarked s₀.state.live_mark_value b =
    (decide (b ∈ l.log) || s₀.mem.isMarked s₀.state.live_mark_value b)
  fresh : ∀ a ∈ l.log, s₀.mem.isMarked s₀.state.live_mark_value a = false
  nodup : l.log.Nodup
  within : ∀ a ∈ l.log, a ∈ D

theorem Logs.start (D : Finset Addr) (s : Scan) : Logs D s ⟨s, []⟩ :=
  ⟨rfl, by simp, by simp, List.nodup_nil, by simp⟩

section Log

variable {mem : Memory} {g : Graph mem} {V : Option Addr → Prop} {s₀ : Scan}

/-- Scanning a reference logs its object if it marks it. -/
theorem Logs.scanQueueRef (hV : Admissible g V) {l : Logged} (hs : Scanning mem V l.scan)
    (hl : Logs g.dom s₀ l) {ref : Option Addr} (href : V ref) (fuel : Nat) :
    Ends (scanQueueRefLogged fuel l ref) (Logs g.dom s₀) fun _ => True := by
  cases ref with
  | none => trivial
  | some a =>
      have ha : a ∈ g.dom := hV.valid _ href a rfl
      have hrs := hs.marks.hasRefs (g.hasRefs a ha)
      obtain ⟨o, -, ho, -, -⟩ := id hrs
      unfold scanQueueRefLogged
      rcases gcMark_cases ho l.scan.state.live_mark_value with ⟨-, heq⟩ | ⟨hm, heq⟩
      · rw [heq]
        exact hl
      · rw [heq]
        have hmarks := MarksOnly.setMark l.scan.mem ho l.scan.state.live_mark_value
        refine ((eachRef_ends (hmarks.hasRefs hrs) fuel l.scan.state).imp (fun _ => id)
          fun _ _ => trivial).bind fun st' hq => ?_
        rw [hl.live] at hm
        -- the object had no mark, so it is not in the log yet
        have hnew := hl.marked a
        rw [hm, eq_comm, Bool.or_eq_false_iff] at hnew
        obtain ⟨hlog, hold⟩ := hnew
        have hlog : a ∉ l.log := of_decide_eq_false hlog
        refine ⟨hq.live.trans hl.live, fun b => ?_, fun b hb => ?_, ?_, fun b hb => ?_⟩
        · show (l.scan.mem.setObject a _).isMarked s₀.state.live_mark_value b = _
          rw [hl.live, isMarked_setMark, hl.marked, ← Bool.or_assoc]
          congr 1
          by_cases hb : b = a <;> simp [hb]
        · rcases List.mem_append.mp hb with hb | hb
          · exact hl.fresh b hb
          · obtain rfl : b = a := by simpa using hb
            exact hold
        · exact List.nodup_append.mpr ⟨hl.nodup, List.nodup_singleton a, by
            intro b hb c hc hbc
            obtain rfl : c = a := by simpa using hc
            exact hlog (hbc ▸ hb)⟩
        · rcases List.mem_append.mp hb with hb | hb
          · exact hl.within b hb
          · obtain rfl : b = a := by simpa using hb
            exact ha

/-- The scan of a segment keeps the log right. -/
theorem Logs.segmentScan (hV : Admissible g V) {l : Logged} (hs : Scanning mem V l.scan)
    (hl : Logs g.dom s₀ l) {seg : PupRefQueueSegment} (hseg : ∀ r ∈ seg.refs, V r)
    {fuel : Nat} :
    Ends (segmentScanLogged fuel l seg)
      (fun l' => Scanning mem V l'.scan ∧ Logs g.dom s₀ l') fun _ => True := by
  refine Ends.foldlM (I := fun l₁ => Scanning mem V l₁.scan ∧ Logs g.dom s₀ l₁) ?_ ⟨hs, hl⟩
  intro r hr l₁ h₁
  have hscan := scanQueueRefLogged_scan fuel l₁ r
  have hlogs := h₁.2.scanQueueRef hV h₁.1 (hseg r hr) fuel
  have hends := scanRef_ends hV h₁.1 (hseg r hr) fuel
  cases hres : scanQueueRefLogged fuel l₁ r with
  | error f => trivial
  | ok l₂ =>
      rw [hres] at hscan
      exact ⟨(hends.of_ok hscan.symm).2.2.scanning, hlogs.of_ok hres⟩

theorem Logs.scanSegments (hV : Admissible g V) (fuel n : Nat) {l : Logged}
    (hs : Scanning mem V l.scan) (hl : Logs g.dom s₀ l) :
    Ends (scanSegmentsLogged fuel n l) (Logs g.dom s₀) fun _ => True := by
  induction n generalizing l with
  | zero => trivial
  | succ n ih =>
      cases hq : l.scan.state.reference_queue with
      | nil =>
          rw [scanSegmentsLogged_nil hq]
          exact hl
      | cons seg rest =>
          obtain ⟨hseg, hs₁⟩ := scanning_steal hs hq
          have hl₁ : Logs g.dom s₀ ⟨l.scan.stolen rest, l.log⟩ :=
            ⟨hl.live, hl.marked, hl.fresh, hl.nodup, hl.within⟩
          rw [scanSegmentsLogged_cons hq]
          exact (Logs.segmentScan hV hs₁ hl₁ hseg).bind fun l₂ h₂ => ih h₂.1 h₂.2

end Log

/-! ### The part of the graph that is scanned -/

/-- The objects that can be reached from the references `rs`. -/
def ReachedFrom (mem : Memory) (rs : List (Option Addr)) (b : Addr) : Prop :=
  ∃ a, some a ∈ rs ∧ Reaches mem a b

open Classical in
/-- The part of a graph that can be reached from the references `rs`. -/
noncomputable def Graph.reached {mem : Memory} (g : Graph mem) (rs : List (Option Addr)) :
    Graph mem where
  dom := g.dom.filter (ReachedFrom mem rs)
  refs := g.refs
  hasRefs := fun a ha => g.hasRefs a (Finset.mem_filter.mp ha).1
  closed := by
    intro a ha b hb
    obtain ⟨ha, r, hr, hra⟩ := Finset.mem_filter.mp ha
    have hab : RefersTo mem a b := ⟨_, g.hasRefs a ha, hb⟩
    exact Finset.mem_filter.mpr ⟨g.closed a ha b hb, r, hr, hra.tail hab⟩

theorem mem_reached {mem : Memory} {g : Graph mem} {rs : List (Option Addr)} {b : Addr} :
    b ∈ (g.reached rs).dom ↔ b ∈ g.dom ∧ ReachedFrom mem rs b := by
  classical
  exact Finset.mem_filter

/-- A reference into the part that can be reached, or a null one found in the graph. -/
def Graph.Met {mem : Memory} (g : Graph mem) (rs : List (Option Addr)) (r : Option Addr) : Prop :=
  (g.reached rs).Ref r ∨ (r = none ∧ ¬ g.NullFree)

theorem admissible_reached {mem : Memory} (g : Graph mem) (rs : List (Option Addr)) :
    Admissible (g.reached rs) (g.Met rs) := by
  refine ⟨?_, ?_⟩
  · intro r hr b hb
    rcases hr with ⟨a, ha, hra⟩ | ⟨hnone, -⟩
    · obtain rfl : a = b := Option.some.inj (hra.symm.trans hb)
      exact ha
    · rw [hnone] at hb
      cases hb
  · intro a ha r hr
    cases r with
    | none => exact .inr ⟨rfl, fun hnull => hnull a (mem_reached.mp ha).1 hr⟩
    | some b => exact .inl ⟨b, (g.reached rs).closed a ha b hr, rfl⟩

/-- What a finished scan has done: it has marked the objects in `log`, each of which it has
enumerated once and found from the references queued at the start. -/
structure MarkedOnce (s : Scan) (s' : Scan) (log : List Addr) : Prop where
  marks : MarksOnly s.mem s'.mem
  live : s'.state.live_mark_value = s.state.live_mark_value
  marked : ∀ b, s'.mem.isMarked s.state.live_mark_value b =
    (decide (b ∈ log) || s.mem.isMarked s.state.live_mark_value b)
  nodup : log.Nodup
  reached : ∀ b ∈ log, ReachedFrom s.mem s.state.pending b

/--
**A scan of a finite graph ends, enumerates every object at most once and marks only what
can be reached from the references it started with.**  It fails only at a null reference
held by an object.
-/
theorem scanHeap_marksOnce {s : Scan} (g : Graph s.mem)
    (hrefs : ∀ r ∈ s.state.pending, g.Ref r) (hcur : s.state.current_segment ≠ .wild) :
    ∃ n, ∀ fuel ≥ n, Ends (scanHeapLogged fuel s)
      (fun l => scanHeap fuel s = .ok l.scan ∧ l.scan.state.reference_queue = [] ∧
        MarkedOnce s l.scan l.log)
      (fun f => f = .null ∧ ¬ g.NullFree) := by
  have hV := admissible_reached g s.state.pending
  have hs : Scanning s.mem (g.Met s.state.pending) s := by
    refine ⟨.refl _, fun r hr => .inl ?_⟩
    obtain ⟨a, ha, rfl⟩ := hrefs r hr
    exact ⟨a, mem_reached.mpr ⟨ha, a, hr, .refl⟩, rfl⟩
  refine ⟨(g.reached s.state.pending).measure s + (g.reached s.state.pending).width + 1,
    fun fuel hfuel => ?_⟩
  have herase := scanHeapLogged_scan fuel s
  have hlogs := Logs.scanSegments hV fuel fuel hs (.start _ s)
  have hends := scanSegments_ends hV fuel fuel hs
  cases hres : scanHeapLogged fuel s with
  | error f =>
      rw [hres] at herase
      rcases hends.of_error herase.symm with (hnull | hshort | hwild) | hshort
      · obtain ⟨hf, ⟨a, -, hra⟩ | ⟨-, hnull⟩⟩ := hnull
        · cases hra
        · exact ⟨hf, hnull⟩
      · omega
      · exact absurd hwild.2 hcur
      · omega
  | ok l =>
      rw [hres] at herase
      have hl : Logs _ s l := hlogs.of_ok hres
      obtain ⟨hprog, hempty, -⟩ := hends.of_ok herase.symm
      exact ⟨herase.symm, hempty, hprog.scanning.marks, hl.live, hl.marked, hl.nodup,
        fun b hb => (mem_reached.mp (hl.within b hb)).2⟩

/-- An object on the queue, and its class, which refers to itself, in `current_segment`. -/
def classInSegment : Scan :=
  ⟨objectAndClass, ⟨[⟨[some 32], by decide⟩], true, 0, 0, .segment ⟨[some 16], by decide⟩⟩⟩

theorem scanHeap_marksOnce_class :
    ∃ n, ∀ fuel ≥ n, Ends (scanHeapLogged fuel classInSegment)
      (fun l => scanHeap fuel classInSegment = .ok l.scan ∧ l.scan.state.reference_queue = [] ∧
        MarkedOnce classInSegment l.scan l.log)
      (fun f => f = .null ∧ ¬ objectAndClassGraph.NullFree) := by
  refine scanHeap_marksOnce (s := classInSegment) objectAndClassGraph ?_ (by simp [classInSegment])
  intro r hr
  have hr : r = some 16 ∨ r = some 32 := by
    simpa [classInSegment, PupGCState.pending, SegmentPtr.refs] using hr
  rcases hr with rfl | rfl
  · exact ⟨16, by simp [objectAndClassGraph], rfl⟩
  · exact ⟨32, by simp [objectAndClassGraph], rfl⟩

end Pup.Gc
