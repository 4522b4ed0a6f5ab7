/-
What the mark phase does, step by step.

`Queued` is what queueing references does to the collector's state, whatever segment
they end up in, and `Scanned` what scanning one reference does: nothing if its object
is marked, and otherwise the object is marked and its references are queued.

The loop ends because of the measure

    μ = (segments on the global queue) + Σ_{unmarked a} (references of a)

Stealing a segment lowers the first summand by one.  Scanning a reference raises it by
at most the number of references queued, each of which starts at most one new segment,
and then lowers the second summand by that number.
-/
import Mathlib.Algebra.BigOperators.Group.Finset.Basic
import Mathlib.Algebra.Order.BigOperators.Group.Finset
import Mathlib.Order.Lattice.Nat
import Pup.Gc.RefQueue

namespace Pup.Gc

open Outcome

/-! ### Queueing -/

/-- The references in segments, the one being filled included. -/
def PupGCState.pending (state : PupGCState) : List (Option Addr) :=
  state.current_segment.refs ++ state.reference_queue.flatMap PupRefQueueSegment.refs

/-- The references `rs` have been queued and nothing else has happened. -/
structure Queued (rs : List (Option Addr)) (st st' : PupGCState) : Prop where
  live : st'.live_mark_value = st.live_mark_value
  garbage_count : st'.garbage_count = st.garbage_count
  live_count : st'.live_count = st.live_count
  pending : st'.pending.Perm (rs ++ st.pending)
  segments : st'.reference_queue.length ≤ st.reference_queue.length + rs.length
  queue : st.reference_queue <:+ st'.reference_queue
  initialised : st.current_segment ≠ .wild → st'.current_segment ≠ .wild
  left : rs ≠ [] ∨ st.current_segment.refs ≠ [] → st'.current_segment.refs ≠ []

theorem Queued.refl (st : PupGCState) : Queued [] st st :=
  ⟨rfl, rfl, rfl, List.Perm.refl _, by simp, List.suffix_rfl, id, by simp⟩

theorem Queued.append {rs rs' : List (Option Addr)} {st st₁ st' : PupGCState}
    (h : Queued rs st st₁) (h' : Queued rs' st₁ st') : Queued (rs ++ rs') st st' := by
  refine ⟨h'.live.trans h.live, h'.garbage_count.trans h.garbage_count,
    h'.live_count.trans h.live_count, ?_, ?_, h.queue.trans h'.queue,
    fun hw => h'.initialised (h.initialised hw), ?_⟩
  · have hall : st'.pending.Perm (rs' ++ (rs ++ st.pending)) :=
      h'.pending.trans (h.pending.append_left rs')
    have hcomm : (rs' ++ (rs ++ st.pending)).Perm (rs ++ rs' ++ st.pending) := by
      rw [← List.append_assoc]
      exact List.perm_append_comm.append_right st.pending
    exact hall.trans hcomm
  · have h₁ := h.segments
    have h₂ := h'.segments
    rw [List.length_append]
    omega
  · intro hne
    refine h'.left ?_
    by_cases hrs' : rs' = []
    · exact .inr (h.left (hne.imp_left fun hne' => by simpa [hrs'] using hne'))
    · exact .inl hrs'

theorem segmentAdd_ok (ref : Option Addr) {seg : PupRefQueueSegment}
    (h : seg.refs.length < REF_QUEUE_SEGMENT_SIZE) :
    ∃ seg', segmentAdd seg ref = .ok seg' ∧ seg'.refs = seg.refs ++ [ref] := by
  unfold segmentAdd
  rw [dif_pos h]
  exact ⟨_, rfl, rfl⟩

/-- A reference goes into the segment at hand, or into a new one in place of a full one. -/
theorem queueForMarking_cases (st : PupGCState) (ref : Option Addr) (ptr : SegmentPtr) :
    (ptr = .wild ∧ queueForMarking st ref ptr = .error .wild) ∨
    (∃ seg, queueForMarking st ref ptr = .ok (st, .segment seg) ∧ seg.refs = ptr.refs ++ [ref]) ∨
    ∃ full seg, ptr = .segment full ∧ seg.refs = [ref] ∧
      queueForMarking st ref ptr = .ok (addSegmentToGlobalQueue st full, .segment seg) := by
  have hnew : segmentCreate.refs.length < REF_QUEUE_SEGMENT_SIZE := by decide
  obtain ⟨new, hadd, hrefs⟩ := segmentAdd_ok ref hnew
  cases ptr with
  | wild => exact .inl ⟨rfl, rfl⟩
  | null =>
      refine .inr (.inl ⟨new, ?_, hrefs⟩)
      rw [queueForMarking, hadd]
      rfl
  | segment seg =>
      by_cases hroom : seg.refs.length < REF_QUEUE_SEGMENT_SIZE
      · obtain ⟨seg', hadd', hrefs'⟩ := segmentAdd_ok ref hroom
        refine .inr (.inl ⟨seg', ?_, hrefs'⟩)
        rw [queueForMarking, if_pos hroom, hadd']
        rfl
      · refine .inr (.inr ⟨seg, new, rfl, hrefs, ?_⟩)
        rw [queueForMarking, if_neg hroom, hadd]
        rfl

/-- The one fault of queueing: a `current_segment` that was never written. -/
def NeverWritten (st : PupGCState) (f : Fault) : Prop :=
  f = .wild ∧ st.current_segment = .wild

theorem gcQueueForMarking_ends (st : PupGCState) (ref : Option Addr) :
    Ends (gcQueueForMarking st ref) (Queued [ref] st) (NeverWritten st) := by
  unfold gcQueueForMarking
  rcases queueForMarking_cases st ref st.current_segment with
    ⟨hwild, heq⟩ | ⟨seg, heq, hrefs⟩ | ⟨full, seg, hcur, hrefs, heq⟩
  · rw [heq]
    exact ⟨rfl, hwild⟩
  · rw [heq]
    refine ⟨rfl, rfl, rfl, ?_, by simp, List.suffix_rfl, by simp, ?_⟩
    · show (seg.refs ++ _).Perm _
      rw [hrefs, List.append_assoc]
      exact List.perm_middle
    · intro _
      show seg.refs ≠ []
      simp [hrefs]
  · rw [heq]
    refine ⟨rfl, rfl, rfl, ?_, by simp [addSegmentToGlobalQueue], List.suffix_cons _ _,
      by simp, ?_⟩
    · show (seg.refs ++ _).Perm _
      simp [hrefs, hcur, PupGCState.pending, SegmentPtr.refs, addSegmentToGlobalQueue]
    · intro _
      show seg.refs ≠ []
      simp [hrefs]

/-- Visiting references queues all of them. -/
theorem visit_ends (rs : List (Option Addr)) (st : PupGCState) :
    Ends (rs.foldlM gcQueueForMarking st) (Queued rs st) (NeverWritten st) := by
  refine Ends.foldlM_rest (f := gcQueueForMarking)
    (I := fun rest st' => ∃ done, rs = done ++ rest ∧ Queued done st st') ?_ ⟨[], rfl, .refl st⟩
    |>.imp ?_ fun _ => id
  · intro r rest st₁ h
    obtain ⟨done, hrs, hq⟩ := h
    refine (gcQueueForMarking_ends st₁ r).imp ?_ ?_
    · intro st₂ hq₂
      exact ⟨done ++ [r], by simp [hrs], hq.append hq₂⟩
    · intro f hf
      refine ⟨hf.1, ?_⟩
      by_contra hwild
      exact hq.initialised hwild hf.2
  · intro st' h
    obtain ⟨done, hrs, hq⟩ := h
    simp only [List.append_nil] at hrs
    exact hrs ▸ hq

/-! ### Scanning a reference -/

/-- How scanning may fail: too little fuel for an attribute list, or `NeverWritten`. -/
def ScanFault (fuel : Nat) (rs : List (Option Addr)) (st : PupGCState) (f : Fault) : Prop :=
  (f = .outOfFuel ∧ fuel < rs.length) ∨ NeverWritten st f

theorem eachRef_ends {mem : Memory} {a : Addr} {rs : List (Option Addr)}
    (h : HasRefs mem a rs) (fuel : Nat) (st : PupGCState) :
    Ends (eachRef mem gcQueueForMarking fuel (some a) st) (Queued rs st)
      (ScanFault fuel rs st) := by
  by_cases hfuel : rs.length ≤ fuel
  · rw [eachRef_eq h hfuel]
    exact (visit_ends rs st).imp (fun _ => id) fun _ => .inr
  · have hcases : eachRef mem gcQueueForMarking fuel (some a) st = .error .outOfFuel ∨ _ :=
      eachRef_cases h fuel st
    rcases hcases with heq | heq
    · rw [heq]
      exact .inl ⟨rfl, by omega⟩
    · rw [heq]
      exact (visit_ends rs st).imp (fun _ => id) fun _ => .inr

/-- The object at `a`, whose references are `rs`, has been scanned. -/
structure Scanned (a : Addr) (rs : List (Option Addr)) (s s' : Scan) : Prop where
  marks : MarksOnly s.mem s'.mem
  marked : ∀ b, s'.mem.isMarked s.state.live_mark_value b =
    (decide (b = a) || s.mem.isMarked s.state.live_mark_value b)
  queued : Queued (if s.mem.isMarked s.state.live_mark_value a then [] else rs) s.state s'.state

theorem scanQueueRef_ends {s : Scan} {a : Addr} {rs : List (Option Addr)}
    (h : HasRefs s.mem a rs) (fuel : Nat) :
    Ends (scanQueueRef fuel s (some a)) (Scanned a rs s) (ScanFault fuel rs s.state) := by
  obtain ⟨o, l, ho, -, -⟩ := id h
  unfold scanQueueRef
  rcases gcMark_cases ho s.state.live_mark_value with ⟨hm, heq⟩ | ⟨hm, heq⟩
  · rw [heq]
    refine ⟨.refl _, fun b => ?_, ?_⟩
    · by_cases hb : b = a
      · rw [hb, hm, Bool.or_true]
      · simp [hb]
    · rw [if_pos hm]
      exact .refl _
  · rw [heq]
    have hmarks := MarksOnly.setMark s.mem ho s.state.live_mark_value
    refine (eachRef_ends (hmarks.hasRefs h) fuel s.state).bind fun st' hq => ?_
    refine ⟨hmarks, isMarked_setMark s.mem o s.state.live_mark_value, ?_⟩
    rw [hm]
    exact hq

/-! ### Scanning in any memory -/

theorem eachAttr_queues {mem : Memory} (fuel : Nat) {head : Option Addr} {st st' : PupGCState}
    (h : eachAttr mem gcQueueForMarking fuel head st = .ok st') : ∃ rs, Queued rs st st' := by
  induction fuel generalizing head st with
  | zero => cases h
  | succ n ih =>
      cases head with
      | none =>
          cases h
          exact ⟨[], .refl _⟩
      | some attr =>
          obtain ⟨entry, -, h⟩ := bind_ok h
          obtain ⟨st₁, hvisit, h⟩ := bind_ok h
          obtain ⟨rs, hrs⟩ := ih h
          exact ⟨_, ((gcQueueForMarking_ends st entry.value).of_ok hvisit).append hrs⟩

theorem eachRef_queues {mem : Memory} {fuel : Nat} {obj : Option Addr} {st st' : PupGCState}
    (h : eachRef mem gcQueueForMarking fuel obj st = .ok st') : ∃ rs, Queued rs st st' := by
  obtain ⟨o, -, h⟩ := bind_ok h
  obtain ⟨st₁, hvisit, h⟩ := bind_ok h
  obtain ⟨rs, hrs⟩ := eachAttr_queues fuel h
  exact ⟨_, ((gcQueueForMarking_ends st o.type).of_ok hvisit).append hrs⟩

/-- Whatever the memory is, scanning a reference only marks and queues. -/
theorem scanQueueRef_ok {fuel : Nat} {s s' : Scan} {ref : Option Addr}
    (h : scanQueueRef fuel s ref = .ok s') :
    ∃ a o rs, ref = some a ∧ s.mem.objects a = some o ∧ MarksOnly s.mem s'.mem ∧
      (∀ b, s'.mem.isMarked s.state.live_mark_value b =
        (decide (b = a) || s.mem.isMarked s.state.live_mark_value b)) ∧
      Queued rs s.state s'.state := by
  cases ref with
  | none => cases h
  | some a =>
      cases ho : s.mem.objects a with
      | none =>
          rw [scanQueueRef, gcMark, ho] at h
          cases h
      | some o =>
          obtain ⟨p, hmark, h⟩ := bind_ok h
          rcases gcMark_cases ho s.state.live_mark_value with ⟨hm, heq⟩ | ⟨hm, heq⟩
          · obtain rfl : (false, s.mem) = p := Except.ok.inj (heq.symm.trans hmark)
            cases h
            refine ⟨a, o, [], rfl, ho, .refl _, fun b => ?_, .refl _⟩
            by_cases hb : b = a
            · rw [hb, hm, Bool.or_true]
            · simp [hb]
          · obtain rfl := Except.ok.inj (heq.symm.trans hmark)
            obtain ⟨st', heach, h⟩ := bind_ok h
            cases h
            obtain ⟨rs, hrs⟩ := eachRef_queues heach
            exact ⟨a, o, rs, rfl, ho, MarksOnly.setMark s.mem ho _,
              isMarked_setMark s.mem o s.state.live_mark_value, hrs⟩

theorem segmentScan_marksOnly {fuel : Nat} {s s' : Scan} {seg : PupRefQueueSegment}
    (h : segmentScan fuel s seg = .ok s') : MarksOnly s.mem s'.mem := by
  refine (Ends.foldlM (f := scanQueueRef fuel) (I := fun s₁ => MarksOnly s.mem s₁.mem)
    (E := fun _ => True) ?_ (.refl s.mem)).of_ok h
  intro ref _ s₁ h₁
  cases hs : scanQueueRef fuel s₁ ref with
  | error f => trivial
  | ok s₂ =>
      obtain ⟨-, -, -, -, -, hmarks, -⟩ := scanQueueRef_ok hs
      exact h₁.trans hmarks

theorem scanSegments_marksOnly (fuel n : Nat) {s s' : Scan}
    (h : scanSegments fuel n s = .ok s') : MarksOnly s.mem s'.mem := by
  induction n generalizing s with
  | zero => cases h
  | succ n ih =>
      cases hq : s.state.reference_queue with
      | nil =>
          rw [scanSegments_nil hq] at h
          cases h
          exact .refl _
      | cons seg rest =>
          rw [scanSegments_cons hq] at h
          obtain ⟨s₁, hscan, h⟩ := bind_ok h
          exact (segmentScan_marksOnly hscan).trans (ih h)

/-! ### Finite graphs -/

/-- A finite set of objects, with their references, that no reference leaves. -/
structure Graph (mem : Memory) where
  dom : Finset Addr
  refs : Addr → List (Option Addr)
  hasRefs : ∀ a ∈ dom, HasRefs mem a (refs a)
  closed : ∀ a ∈ dom, ∀ b, some b ∈ refs a → b ∈ dom

/-- No reference of an object in the graph is null. -/
def Graph.NullFree {mem : Memory} (g : Graph mem) : Prop := ∀ a ∈ g.dom, none ∉ g.refs a

/-- A reference into the graph, or null. -/
def Graph.Valid {mem : Memory} (g : Graph mem) (r : Option Addr) : Prop := ∀ a ∈ r, a ∈ g.dom

/-- Room for the references of every object in the graph. -/
def Graph.width {mem : Memory} (g : Graph mem) : Nat := g.dom.sup fun a => (g.refs a).length

theorem Graph.length_le_width {mem : Memory} (g : Graph mem) {a : Addr} (ha : a ∈ g.dom) :
    (g.refs a).length ≤ g.width :=
  Finset.le_sup (f := fun a => (g.refs a).length) ha

/-- The references of the objects that are not marked yet. -/
def Graph.unmarked {mem : Memory} (g : Graph mem) (s : Scan) : Nat :=
  ∑ a ∈ g.dom, if s.mem.isMarked s.state.live_mark_value a then 0 else (g.refs a).length

/-- The measure the loop of `pup_gc_scan_heap` lowers. -/
def Graph.measure {mem : Memory} (g : Graph mem) (s : Scan) : Nat :=
  s.state.reference_queue.length + g.unmarked s

theorem unmarked_scanned {mem : Memory} (g : Graph mem) {a : Addr} (ha : a ∈ g.dom) {s s' : Scan}
    (h : Scanned a (g.refs a) s s') :
    g.unmarked s' + (if s.mem.isMarked s.state.live_mark_value a then 0 else (g.refs a).length) =
      g.unmarked s := by
  unfold Graph.unmarked
  rw [h.queued.live, ← Finset.add_sum_erase _ _ ha, ← Finset.add_sum_erase _ _ ha]
  have hself : s'.mem.isMarked s.state.live_mark_value a = true := by
    rw [h.marked, decide_eq_true rfl]
    rfl
  have hrest : ∀ b ∈ g.dom.erase a,
      (if s'.mem.isMarked s.state.live_mark_value b then 0 else (g.refs b).length) =
        if s.mem.isMarked s.state.live_mark_value b then 0 else (g.refs b).length := by
    intro b hb
    rw [h.marked, decide_eq_false (Finset.ne_of_mem_erase hb), Bool.false_or]
  rw [Finset.sum_congr rfl hrest, if_pos hself]
  omega

theorem measure_scanned {mem : Memory} (g : Graph mem) {a : Addr} (ha : a ∈ g.dom) {s s' : Scan}
    (h : Scanned a (g.refs a) s s') : g.measure s' ≤ g.measure s := by
  have hsum := unmarked_scanned g ha h
  have hseg := h.queued.segments
  unfold Graph.measure
  split at hsum
  · rename_i hm
    rw [if_pos hm] at hseg
    simp only [List.length_nil] at hseg
    omega
  · rename_i hm
    rw [if_neg hm] at hseg
    omega

/-! ### The loop -/

section Loop

variable {mem : Memory} (g : Graph mem) (V : Option Addr → Prop)

/-- `V` holds of the references queued: they point into the graph, and so on from there. -/
structure Admissible : Prop where
  valid : ∀ r, V r → g.Valid r
  refs : ∀ a ∈ g.dom, ∀ r ∈ g.refs a, V r

variable (mem) in
/-- The mark phase is under way in the graph. -/
structure Scanning (s : Scan) : Prop where
  marks : MarksOnly mem s.mem
  pending : ∀ r ∈ s.state.pending, V r

/-- What scanning keeps and where it gets to. -/
structure Progress (s s' : Scan) : Prop where
  scanning : Scanning mem V s'
  measure : g.measure s' ≤ g.measure s
  live : s'.state.live_mark_value = s.state.live_mark_value
  initialised : s.state.current_segment ≠ .wild → s'.state.current_segment ≠ .wild
  left : s.state.current_segment.refs ≠ [] → s'.state.current_segment.refs ≠ []
  marked : ∀ a, s.mem.isMarked s.state.live_mark_value a = true →
    s'.mem.isMarked s.state.live_mark_value a = true

/-- How scanning ends when it does not succeed. -/
def LoopFault (fuel : Nat) (st : PupGCState) (f : Fault) : Prop :=
  (f = .null ∧ V none) ∨ (f = .outOfFuel ∧ fuel < g.width) ∨ NeverWritten st f

variable {g V}

theorem Progress.refl {s : Scan} (h : Scanning mem V s) : Progress g V s s :=
  ⟨h, le_refl _, rfl, id, id, fun _ => id⟩

theorem Progress.trans {s s₁ s' : Scan} (h : Progress g V s s₁) (h' : Progress g V s₁ s') :
    Progress g V s s' :=
  ⟨h'.scanning, h'.measure.trans h.measure, h'.live.trans h.live,
    fun hw => h'.initialised (h.initialised hw), fun hl => h'.left (h.left hl),
    fun a ha => by
      have := h'.marked a (by rw [h.live]; exact h.marked a ha)
      rwa [h.live] at this⟩

theorem LoopFault.trans {fuel : Nat} {s s₁ : Scan} (h : Progress g V s s₁) {f : Fault}
    (hf : LoopFault g V fuel s₁.state f) : LoopFault g V fuel s.state f := by
  refine hf.imp_right (Or.imp_right fun hw => ⟨hw.1, ?_⟩)
  by_contra hwild
  exact h.initialised hwild hw.2

theorem progress_scanned (hV : Admissible g V) {s s' : Scan} (hs : Scanning mem V s)
    {a : Addr} (ha : a ∈ g.dom) (h : Scanned a (g.refs a) s s') : Progress g V s s' := by
  refine ⟨⟨hs.marks.trans h.marks, ?_⟩, measure_scanned g ha h, h.queued.live,
    h.queued.initialised, fun hl => h.queued.left (.inr hl), ?_⟩
  · intro r hr
    rcases List.mem_append.mp (h.queued.pending.mem_iff.mp hr) with hr | hr
    · split at hr
      · simp at hr
      · exact hV.refs a ha r hr
    · exact hs.pending r hr
  · intro b hb
    rw [h.marked, hb, Bool.or_true]

theorem scanRef_ends (hV : Admissible g V) {s : Scan} (hs : Scanning mem V s)
    {ref : Option Addr} (href : V ref) (fuel : Nat) :
    Ends (scanQueueRef fuel s ref)
      (fun s' => ref ≠ none ∧ s.state.reference_queue <:+ s'.state.reference_queue ∧
        Progress g V s s')
      (LoopFault g V fuel s.state) := by
  cases ref with
  | none => exact .inl ⟨rfl, href⟩
  | some a =>
      have ha : a ∈ g.dom := hV.valid _ href a rfl
      refine (scanQueueRef_ends (hs.marks.hasRefs (g.hasRefs a ha)) fuel).imp ?_ ?_
      · intro s' h
        exact ⟨by simp, h.queued.queue, progress_scanned hV hs ha h⟩
      · intro f hf
        have := g.length_le_width ha
        exact .inr (hf.imp_left fun h => ⟨h.1, by omega⟩)

theorem segmentScan_ends (hV : Admissible g V) {s : Scan} (hs : Scanning mem V s)
    {seg : PupRefQueueSegment} (hseg : ∀ r ∈ seg.refs, V r) (fuel : Nat) :
    Ends (segmentScan fuel s seg)
      (fun s' => none ∉ seg.refs ∧ s.state.reference_queue <:+ s'.state.reference_queue ∧
        Progress g V s s')
      (LoopFault g V fuel s.state) := by
  unfold segmentScan
  refine Ends.foldlM_rest (f := scanQueueRef fuel)
    (I := fun rest s₁ => (∀ r ∈ rest, V r) ∧ (none ∈ seg.refs → none ∈ rest) ∧
      s.state.reference_queue <:+ s₁.state.reference_queue ∧ Progress g V s s₁) ?_
      ⟨hseg, id, List.suffix_rfl, .refl hs⟩ |>.imp ?_ fun _ => id
  · intro r rest s₁ h
    obtain ⟨hrest, hnone, hqueue, hprog⟩ := h
    refine (scanRef_ends hV hprog.scanning (hrest r (by simp)) fuel).imp ?_ ?_
    · intro s₂ h₂
      refine ⟨fun q hq => hrest q (List.mem_cons_of_mem r hq), fun hmem => ?_,
        hqueue.trans h₂.2.1, hprog.trans h₂.2.2⟩
      exact (List.mem_cons.mp (hnone hmem)).resolve_left (Ne.symm h₂.1)
    · intro f hf
      exact hf.trans hprog
  · intro s' h
    exact ⟨fun hmem => by simpa using h.2.1 hmem, h.2.2⟩

/-- Stealing a segment takes its references off the queue. -/
theorem scanning_steal {s : Scan} (hs : Scanning mem V s) {seg : PupRefQueueSegment}
    {rest : List PupRefQueueSegment} (hq : s.state.reference_queue = seg :: rest) :
    (∀ r ∈ seg.refs, V r) ∧
      Scanning mem V (s.stolen rest) := by
  have hpending : ∀ r, r ∈ s.state.current_segment.refs ∨ r ∈ seg.refs ∨
      r ∈ rest.flatMap PupRefQueueSegment.refs → V r := by
    intro r hr
    refine hs.pending r ?_
    unfold PupGCState.pending
    rw [hq, List.flatMap_cons, List.mem_append, List.mem_append]
    exact hr
  refine ⟨fun r hr => hpending r (.inr (.inl hr)), hs.marks, fun r hr => ?_⟩
  exact hpending r ((List.mem_append.mp hr).imp_right .inr)

/--
**The loop of `pup_gc_scan_heap`.**  It empties the global queue having met no null
reference, or dies of one, unless it is short of fuel or `current_segment` was never
written.
-/
theorem scanSegments_ends (hV : Admissible g V) (fuel n : Nat) {s : Scan}
    (hs : Scanning mem V s) :
    Ends (scanSegments fuel n s)
      (fun s' => Progress g V s s' ∧ s'.state.reference_queue = [] ∧
        ∀ seg ∈ s.state.reference_queue, none ∉ seg.refs)
      (fun f => LoopFault g V fuel s.state f ∨ (f = .outOfFuel ∧ n ≤ g.measure s)) := by
  induction n generalizing s with
  | zero => exact .inr ⟨rfl, by omega⟩
  | succ n ih =>
      cases hq : s.state.reference_queue with
      | nil =>
          rw [scanSegments_nil hq]
          exact ⟨.refl hs, hq, by simp⟩
      | cons seg rest =>
          obtain ⟨hseg, hs₁⟩ := scanning_steal hs hq
          have hmeasure : g.measure (s.stolen rest) + 1 = g.measure s := by
            unfold Graph.measure
            rw [hq, List.length_cons]
            exact Nat.add_right_comm _ _ _
          have hsteal : Progress g V s (s.stolen rest) :=
            ⟨hs₁, by omega, rfl, id, id, fun _ => id⟩
          rw [scanSegments_cons hq]
          refine Ends.bind ((segmentScan_ends hV hs₁ hseg fuel).imp (fun _ => id)
            fun f hf => .inl (hf.trans hsteal)) fun s₂ h₂ => ?_
          obtain ⟨hnone, hqueue, hprog⟩ := h₂
          have hsofar := hsteal.trans hprog
          refine (ih hprog.scanning).imp ?_ ?_
          · intro s' h'
            refine ⟨hsofar.trans h'.1, h'.2.1, fun seg' hmem => ?_⟩
            rcases List.mem_cons.mp hmem with hmem | hmem
            · rw [hmem]
              exact hnone
            · exact h'.2.2 seg' (hqueue.subset hmem)
          · intro f hf
            refine hf.imp (fun hf => hf.trans hsofar) fun hf => ⟨hf.1, ?_⟩
            have := hprog.measure
            omega

end Loop

end Pup.Gc
