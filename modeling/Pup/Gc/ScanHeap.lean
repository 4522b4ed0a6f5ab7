/-
What `pup_gc_scan_heap` completes.

The references of the first object scanned go into `current_segment`, and from then on
there is always something in it: a segment gets on the global queue only to make room
for another reference.  So a scan that scans anything leaves references behind
(`scanSegments_left`), and it is complete only when there was nothing to scan.

The mark phase scans the stacks of all threads and then the heap (`markPhase`).  If neither
the slots nor the objects hold a null reference, it ends (`markPhase_total`).
-/
import Pup.Gc.Mark

namespace Pup.Gc

open Outcome

variable {mem : Memory}

/-- A reference to an object of the graph. -/
def Graph.Ref (g : Graph mem) (r : Option Addr) : Prop := ∃ a ∈ g.dom, r = some a

theorem Graph.admissible (g : Graph mem) : Admissible g g.Valid :=
  ⟨fun _ => id, fun a ha _ hr b hb => g.closed a ha b (hb ▸ hr)⟩

theorem Graph.NullFree.admissible {g : Graph mem} (h : g.NullFree) : Admissible g g.Ref := by
  refine ⟨?_, ?_⟩
  · intro r hr b hb
    obtain ⟨a, ha, hra⟩ := hr
    obtain rfl : a = b := Option.some.inj (hra.symm.trans hb)
    exact ha
  · intro a ha r hr
    cases r with
    | none => exact absurd hr (h a ha)
    | some b => exact ⟨b, g.closed a ha b hr, rfl⟩

/-! ### What is left over -/

/-- Scanning an unmarked object leaves something in `current_segment`. -/
theorem left_scanned {s s' : Scan} {a : Addr} {rs : List (Option Addr)} (hrs : rs ≠ [])
    (h : Scanned a rs s s') (hm : s.mem.isMarked s.state.live_mark_value a = false) :
    s'.state.current_segment.refs ≠ [] := by
  refine h.queued.left (.inl ?_)
  rw [hm]
  exact hrs

theorem refs_ne_nil {a : Addr} {rs : List (Option Addr)} (h : HasRefs mem a rs) : rs ≠ [] := by
  obtain ⟨o, l, -, -, rfl⟩ := h
  simp

theorem segmentScan_empty (fuel : Nat) (s : Scan) {seg : PupRefQueueSegment}
    (h : seg.refs = []) : segmentScan fuel s seg = .ok s := by
  rw [segmentScan, h]
  rfl

section Left

variable {g : Graph mem} {V : Option Addr → Prop}

/-- A segment that is not empty leaves something, if nothing is marked yet. -/
theorem segmentScan_left (hV : Admissible g V) {s : Scan} (hs : Scanning mem V s)
    {seg : PupRefQueueSegment} (hseg : ∀ r ∈ seg.refs, V r) (hne : seg.refs ≠ [])
    (hold : ∀ a ∈ g.dom, s.mem.isMarked s.state.live_mark_value a = false) (fuel : Nat) :
    Ends (segmentScan fuel s seg) (fun s' => s'.state.current_segment.refs ≠ []) fun _ => True := by
  unfold segmentScan
  obtain ⟨r, rest, hrefs⟩ := List.exists_cons_of_ne_nil hne
  rw [hrefs] at hseg ⊢
  rw [List.foldlM_cons]
  cases r with
  | none => trivial
  | some a =>
      have ha : a ∈ g.dom := hV.valid _ (hseg _ (by simp)) a rfl
      have hrs := hs.marks.hasRefs (g.hasRefs a ha)
      refine Ends.bind ((scanQueueRef_ends hrs fuel).imp (fun _ => id) fun _ _ => trivial)
        fun s₁ h₁ => ?_
      have hprog := progress_scanned hV hs ha h₁
      refine (Ends.foldlM (I := fun s₂ => Scanning mem V s₂ ∧
        s₂.state.current_segment.refs ≠ []) ?_
        ⟨hprog.scanning, left_scanned (refs_ne_nil hrs) h₁ (hold a ha)⟩).imp
        (fun s' h' => h'.2) fun _ => id
      intro q hq s₂ h₂
      exact (scanRef_ends hV h₂.1 (hseg q (List.mem_cons_of_mem _ hq)) fuel).imp
        (fun s₃ h₃ => ⟨h₃.2.2.scanning, h₃.2.2.left h₂.2⟩) fun _ _ => trivial

/-- **A scan that finds a reference to scan ends with one in `current_segment`.** -/
theorem scanSegments_left (hV : Admissible g V) (fuel n : Nat) {s : Scan}
    (hs : Scanning mem V s)
    (hleft : s.state.current_segment.refs ≠ [] ∨
      ((∀ a ∈ g.dom, s.mem.isMarked s.state.live_mark_value a = false) ∧
        ∃ seg ∈ s.state.reference_queue, seg.refs ≠ [])) :
    Ends (scanSegments fuel n s) (fun s' => s'.state.current_segment.refs ≠ [])
      fun _ => True := by
  induction n generalizing s with
  | zero => trivial
  | succ n ih =>
      cases hq : s.state.reference_queue with
      | nil =>
          rw [scanSegments_nil hq]
          rcases hleft with hleft | ⟨-, seg, hmem, -⟩
          · exact hleft
          · simp [hq] at hmem
      | cons seg rest =>
          obtain ⟨hseg, hs₁⟩ := scanning_steal hs hq
          rw [scanSegments_cons hq]
          have hscan := (segmentScan_ends hV hs₁ hseg fuel).imp (fun _ h => h.2.2)
            fun _ _ => trivial
          rcases hleft with hleft | ⟨hold, seg', hmem, hne⟩
          · exact hscan.bind fun s₂ h₂ => ih h₂.scanning (.inl (h₂.left hleft))
          · by_cases hempty : seg.refs = []
            · -- nothing happens until a segment holds a reference
              rw [segmentScan_empty fuel _ hempty]
              refine ih hs₁ (.inr ⟨hold, seg', ?_, hne⟩)
              rw [hq] at hmem
              refine (List.mem_cons.mp hmem).resolve_left fun heq => hne ?_
              rw [heq, hempty]
            · have hleft := segmentScan_left hV hs₁ hseg hempty hold fuel
              cases hres : segmentScan fuel (s.stolen rest) seg with
              | error f => trivial
              | ok s₂ => exact ih (hscan.of_ok hres).scanning (.inl (hleft.of_ok hres))

end Left

/-- Segments without references are stolen and thrown away. -/
theorem scanSegments_empty (fuel n : Nat) {s : Scan}
    (hempty : ∀ seg ∈ s.state.reference_queue, seg.refs = [])
    (hn : s.state.reference_queue.length < n) :
    scanSegments fuel n s = .ok { s with state := { s.state with reference_queue := [] } } := by
  induction n generalizing s with
  | zero => omega
  | succ n ih =>
      cases hq : s.state.reference_queue with
      | nil =>
          rw [scanSegments_nil hq, ← hq]
      | cons seg rest =>
          rw [hq] at hempty hn
          rw [scanSegments_cons hq, segmentScan_empty fuel _ (hempty seg (by simp))]
          exact ih (fun seg' hmem => hempty seg' (List.mem_cons_of_mem _ hmem))
            (Nat.lt_of_succ_lt_succ hn)

/-! ### Completeness -/

/-- The first collection's scan, with the segments `roots` on the global queue. -/
def firstScan (mem : Memory) (roots : List PupRefQueueSegment) (junk : Nat) : Scan :=
  { mem, state := { gcPeriodStart (gcStateCreate junk) with reference_queue := roots } }

/-- The scan returns, all that can be reached from the roots is marked, and no reference
is left unscanned. -/
def ScansAll (mem : Memory) (roots : List PupRefQueueSegment) (junk : Nat) : Prop :=
  ∃ n, ∀ fuel ≥ n, ∃ s', scanHeap fuel (firstScan mem roots junk) = .ok s' ∧
    (∀ seg ∈ roots, ∀ r, some r ∈ seg.refs → ∀ a, Reaches mem r a →
      s'.mem.isMarked s'.state.live_mark_value a = true) ∧
    s'.state.reference_queue = [] ∧ s'.state.current_segment.refs = []

/-- **The scan is complete exactly if the root segments hold no reference.** -/
theorem scansAll_iff (g : Graph mem) (hnull : g.NullFree)
    (hold : ∀ a ∈ g.dom, mem.isMarked true a = false) (roots : List PupRefQueueSegment)
    (hroots : ∀ seg ∈ roots, ∀ r ∈ seg.refs, g.Ref r) (junk : Nat) :
    ScansAll mem roots junk ↔ ∀ seg ∈ roots, seg.refs = [] := by
  have hcur : (firstScan mem roots junk).state.current_segment.refs = [] := by
    unfold firstScan gcPeriodStart gcStateCreate
    by_cases h : junk = 0 <;> simp [h, SegmentPtr.refs]
  constructor
  · intro h
    by_contra hne
    have hseg : ∃ seg ∈ roots, seg.refs ≠ [] := by
      by_contra hall
      exact hne fun seg hmem => by_contra fun h => hall ⟨seg, hmem, h⟩
    obtain ⟨n, hn⟩ := h
    obtain ⟨s', hs', -, -, hleft⟩ := hn n (le_refl n)
    have hstart : Scanning mem g.Ref (firstScan mem roots junk) := by
      refine ⟨.refl mem, fun r hr => ?_⟩
      unfold PupGCState.pending at hr
      rw [hcur, List.nil_append] at hr
      obtain ⟨seg, hmem, hr⟩ := List.mem_flatMap.mp hr
      exact hroots seg hmem r hr
    exact (scanSegments_left hnull.admissible n n hstart (.inr ⟨hold, hseg⟩)).of_ok hs' hleft
  · intro hempty
    refine ⟨roots.length + 1, fun fuel hfuel => ⟨_, scanSegments_empty fuel fuel hempty hfuel,
      ?_, rfl, hcur⟩⟩
    intro seg hmem r hr
    simp [hempty seg hmem] at hr

/-- An object at 32 of a class at 16, whose own class it is. -/
def objectAndClass : Memory where
  headers _ := none
  objects a :=
    if a = 16 then some ⟨some 16, none, false⟩
    else if a = 32 then some ⟨some 16, none, false⟩
    else none
  attrs _ := none

def objectAndClassGraph : Graph objectAndClass where
  dom := {16, 32}
  refs _ := [some 16]
  hasRefs := by
    intro a ha
    obtain rfl | rfl : a = 16 ∨ a = 32 := by simpa using ha
    · exact ⟨⟨some 16, none, false⟩, [], rfl, AttrList.nil_iff.mpr rfl, rfl⟩
    · exact ⟨⟨some 16, none, false⟩, [], rfl, AttrList.nil_iff.mpr rfl, rfl⟩
  closed := by simp

theorem scansAll_iff_empty : ScansAll objectAndClass [segmentCreate] 0 :=
  (scansAll_iff objectAndClassGraph (by simp [Graph.NullFree, objectAndClassGraph]) (by decide)
    [segmentCreate] (by simp [segmentCreate]) 0).mpr (by simp [segmentCreate])

/-- The object is scanned and its class left in `current_segment`, unmarked. -/
theorem class_left_over :
    (∀ a ∈ objectAndClassGraph.dom, objectAndClass.isMarked true a = false) ∧
      objectAndClassGraph.NullFree ∧ Reaches objectAndClass 32 16 ∧
      ¬ ScansAll objectAndClass [⟨[some 32], by decide⟩] 0 := by
  refine ⟨by decide, by simp [Graph.NullFree, objectAndClassGraph], ?_, ?_⟩
  · refine Relation.ReflTransGen.single ⟨_, objectAndClassGraph.hasRefs 32 ?_, by
      simp [objectAndClassGraph]⟩
    simp [objectAndClassGraph]
  · intro h
    obtain ⟨n, hn⟩ := h
    obtain ⟨s', hs', -, -, hleft⟩ := hn (n + 3) (by omega)
    have hrun : scanHeap (n + 3) (firstScan objectAndClass [⟨[some 32], by decide⟩] 0) =
        .ok ⟨objectAndClass.setObject 32 ⟨some 16, none, true⟩,
          ⟨[], true, 0, 0, .segment ⟨[some 16], by decide⟩⟩⟩ := rfl
    rw [hrun] at hs'
    cases hs'
    simp [SegmentPtr.refs] at hleft

/-! ### The mark phase -/

/-- The references in the segments of the global queue. -/
def PupGCState.queued (state : PupGCState) : List (Option Addr) :=
  state.reference_queue.flatMap PupRefQueueSegment.refs

/-- The slots `rs` are on the global queue and nothing else has happened. -/
structure RootsQueued (rs : List (Option Addr)) (st st' : PupGCState) : Prop where
  live : st'.live_mark_value = st.live_mark_value
  current : st'.current_segment = st.current_segment
  queued : st'.queued.Perm (rs ++ st.queued)

/-- Where `collect_stack_root_pointers` is in a frame of which it has read `done`. -/
structure Collecting (done : List (Option Addr)) (st st' : PupGCState) (ptr : SegmentPtr) :
    Prop where
  live : st'.live_mark_value = st.live_mark_value
  current : st'.current_segment = st.current_segment
  queued : (ptr.refs ++ st'.queued).Perm (done ++ st.queued)
  initialised : ptr ≠ .wild

theorem collecting_step {done : List (Option Addr)} {st st₁ : PupGCState} {ptr : SegmentPtr}
    (h : Collecting done st st₁ ptr) (root : Option Addr) :
    Ends (queueForMarking st₁ root ptr) (fun p => Collecting (done ++ [root]) st p.1 p.2)
      fun _ => False := by
  have hperm : (root :: (ptr.refs ++ st₁.queued)).Perm (done ++ [root] ++ st.queued) := by
    rw [List.append_assoc]
    exact (h.queued.cons root).trans List.perm_middle.symm
  rcases queueForMarking_cases st₁ root ptr with
    ⟨hwild, -⟩ | ⟨seg, heq, hrefs⟩ | ⟨full, seg, hptr, hrefs, heq⟩
  · exact absurd hwild h.initialised
  · rw [heq]
    refine ⟨h.live, h.current, ?_, by simp⟩
    show (seg.refs ++ st₁.queued).Perm _
    rw [hrefs, List.append_assoc]
    exact List.perm_middle.trans hperm
  · rw [heq]
    refine ⟨h.live, h.current, ?_, by simp⟩
    rw [hptr] at hperm
    show (seg.refs ++ (full.refs ++ st₁.queued)).Perm _
    rw [hrefs]
    exact hperm

theorem collectStackRootPointers_ends (st : PupGCState) (slots : List (Option Addr)) :
    Ends (collectStackRootPointers st slots) (RootsQueued slots st) fun _ => False := by
  unfold collectStackRootPointers
  have hloop : Ends (slots.foldlM (fun (p : PupGCState × SegmentPtr) root =>
      queueForMarking p.1 root p.2) (st, .null))
      (fun p => Collecting slots st p.1 p.2) fun _ => False := by
    refine Ends.foldlM_rest (I := fun rest (p : PupGCState × SegmentPtr) =>
      ∃ done, slots = done ++ rest ∧ Collecting done st p.1 p.2) ?_
      ⟨[], rfl, rfl, rfl, List.Perm.refl _, by simp⟩ |>.imp ?_ fun _ => id
    · intro root rest p h
      obtain ⟨done, hslots, hcol⟩ := h
      exact (collecting_step hcol root).imp
        (fun p' h' => ⟨done ++ [root], by simp [hslots], h'⟩) fun _ => id
    · intro p h
      obtain ⟨done, hslots, hcol⟩ := h
      simp only [List.append_nil] at hslots
      exact hslots ▸ hcol
  refine hloop.bind fun p hp => ?_
  obtain ⟨st', ptr⟩ := p
  cases ptr with
  | null => exact ⟨hp.live, hp.current, hp.queued⟩
  | segment seg => exact ⟨hp.live, hp.current, hp.queued⟩
  | wild => exact absurd rfl hp.initialised

/-- A stack scan puts every live slot of every frame on the global queue, once. -/
theorem scanStack_ends (st : PupGCState) (frames : List (List (Option Addr))) :
    Ends (scanStack st frames) (RootsQueued frames.flatten st) fun _ => False := by
  unfold scanStack
  refine Ends.foldlM_rest (f := collectStackRootPointers)
    (I := fun rest st' => ∃ done rs, frames = done ++ rest ∧ rs.Perm done.flatten ∧
      RootsQueued rs st st') ?_ ⟨[], [], rfl, List.Perm.refl _, rfl, rfl, List.Perm.refl _⟩
    |>.imp ?_ fun _ => id
  · intro slots rest st₁ h
    obtain ⟨done, rs, hframes, hrs, hq⟩ := h
    refine (collectStackRootPointers_ends st₁ slots).imp ?_ fun _ => id
    intro st₂ h₂
    refine ⟨done ++ [slots], slots ++ rs, by simp [hframes], ?_, h₂.live.trans hq.live,
      h₂.current.trans hq.current, ?_⟩
    · simpa using List.perm_append_comm.trans (hrs.append_right slots)
    · rw [List.append_assoc]
      exact h₂.queued.trans (hq.queued.append_left slots)
  · intro st' h
    obtain ⟨done, rs, hframes, hrs, hq⟩ := h
    simp only [List.append_nil] at hframes
    exact ⟨hq.live, hq.current, hq.queued.trans ((hframes ▸ hrs).append_right _)⟩

/-- The mark phase: the stack frames of all threads, then the heap. -/
def markPhase (fuel : Nat) (s : Scan) (frames : List (List (Option Addr))) :
    Except Fault Scan := do
  let state ← scanStack s.state frames
  scanHeap fuel { s with state }

/-- Where the mark phase stands once the stacks have been scanned. -/
theorem scanning_roots {V : Option Addr → Prop} {st st' : PupGCState}
    {rs : List (Option Addr)} (hst : ∀ r ∈ st.pending, V r) (hrs : ∀ r ∈ rs, V r)
    (h : RootsQueued rs st st') : Scanning mem V ⟨mem, st'⟩ := by
  refine ⟨.refl mem, fun r hr => ?_⟩
  rcases List.mem_append.mp hr with hr | hr
  · rw [h.current] at hr
    exact hst r (List.mem_append_left _ hr)
  · rcases List.mem_append.mp (h.queued.mem_iff.mp hr) with hr | hr
    · exact hrs r hr
    · exact hst r (List.mem_append_right _ hr)

/-- How the mark phase ends from the stacks `frames`. -/
theorem markPhase_ends {g : Graph mem} {V : Option Addr → Prop} (hV : Admissible g V)
    {st : PupGCState} (hst : ∀ r ∈ st.pending, V r) {frames : List (List (Option Addr))}
    (hframes : ∀ r ∈ frames.flatten, V r) :
    ∃ st', RootsQueued frames.flatten st st' ∧ ∀ fuel,
      Ends (markPhase fuel ⟨mem, st⟩ frames)
        (fun s' => Progress g V ⟨mem, st'⟩ s' ∧ s'.state.reference_queue = [] ∧
          ∀ seg ∈ st'.reference_queue, none ∉ seg.refs)
        (fun f => LoopFault g V fuel st' f ∨
          (f = .outOfFuel ∧ fuel ≤ g.measure ⟨mem, st'⟩)) := by
  obtain ⟨st', hroots, hq⟩ := (scanStack_ends st frames).total
  refine ⟨st', hq, fun fuel => ?_⟩
  unfold markPhase
  rw [hroots]
  exact scanSegments_ends hV fuel fuel (scanning_roots hst hframes hq)

/-- With enough fuel it returns, unless it dies of a `current_segment` never written. -/
theorem markPhase_total {g : Graph mem} (hnull : g.NullFree) (st : PupGCState)
    (hst : ∀ r ∈ st.pending, g.Ref r) (hwild : st.current_segment ≠ .wild)
    {frames : List (List (Option Addr))} (hframes : ∀ r ∈ frames.flatten, g.Ref r) :
    ∃ n, ∀ fuel ≥ n, ∃ s', markPhase fuel ⟨mem, st⟩ frames = .ok s' := by
  obtain ⟨st', hq, hends⟩ := markPhase_ends hnull.admissible hst hframes
  refine ⟨max g.width (g.measure ⟨mem, st'⟩ + 1), fun fuel hfuel => ?_⟩
  obtain ⟨hwidth, hmeasure⟩ := Nat.max_le.mp hfuel
  cases hres : markPhase fuel ⟨mem, st⟩ frames with
  | ok s' => exact ⟨s', rfl⟩
  | error f =>
      rcases (hends fuel).of_error hres with (hf | hf | hf) | hf
      · obtain ⟨a, -, ha⟩ := hf.2
        cases ha
      · omega
      · exact absurd (hq.current ▸ hf.2) hwild
      · omega

theorem markPhase_marksOnly {fuel : Nat} {s s' : Scan} {frames : List (List (Option Addr))}
    (h : markPhase fuel s frames = .ok s') : MarksOnly s.mem s'.mem := by
  obtain ⟨st', -, h⟩ := bind_ok h
  have hmarks := scanSegments_marksOnly fuel fuel h
  exact hmarks

end Pup.Gc
