/-
Which null references the mark phase comes to.

Nothing on the way from a stack slot or an attribute to `pup_object_gc_mark` looks whether
the reference is null, but not every null that is queued is scanned.  The references of the
objects scanned go into a segment that gets on the global queue only when it is full and
another reference comes, so those in the last segment are never looked at, and those of an
object that has its mark are not queued at all.

`Walk` is the mark phase over the graph alone: the objects with the mark, the lists of
references to be gone through, and the list that is being filled.  There is no memory in it,
no fuel and nothing that can fail, and `ComesToNull` says that a null is come to.  The code
takes the same way (`scanQueueRef_walk`), so it dereferences null exactly if the walk comes
to one (`markPhase_null_iff`): in one direction by induction on the way to the null, in the
other on the segments that are scanned and, for each, on the references left in it.
-/
import Pup.Gc.ScanHeap

namespace Pup.Gc

open Outcome

/-! ### The walk -/

/-- The lists to be gone through, the latest first, and the one that is being filled. -/
abbrev Lists := List (List (Option Addr)) × List (Option Addr)

/-- A list is put with the others when it is full and another reference comes. -/
def Lists.add (p : Lists) (r : Option Addr) : Lists :=
  if p.2.length < REF_QUEUE_SEGMENT_SIZE then (p.1, p.2 ++ [r]) else (p.2 :: p.1, [r])

def Lists.addAll (p : Lists) (rs : List (Option Addr)) : Lists := rs.foldl Lists.add p

/-- The slots of a frame get lists of their own, which are all gone through. -/
def withFrame (full : List (List (Option Addr))) : List (Option Addr) → List (List (Option Addr))
  | [] => full
  | slots@(_ :: _) => (Lists.addAll (full, []) slots).2 :: (Lists.addAll (full, []) slots).1

structure Walk where
  /-- the objects that have the mark -/
  seen : Addr → Bool
  full : List (List (Option Addr))
  /-- nothing if the pointer to it was never written -/
  filling : Option (List (Option Addr))

/-- The walk is at an object that it has not been at. -/
def Walk.visit (w : Walk) (a : Addr) (rs filling : List (Option Addr)) : Walk where
  seen b := decide (b = a) || w.seen b
  full := (Lists.addAll (w.full, filling) rs).1
  filling := some (Lists.addAll (w.full, filling) rs).2

/-- A null reference is come to, with the list gone through from here on. -/
inductive ComesToNull (refs : Addr → List (Option Addr)) : Walk → List (Option Addr) → Prop
  | here {w : Walk} {rest : List (Option Addr)} : ComesToNull refs w (none :: rest)
  | seen {w : Walk} {a : Addr} {rest : List (Option Addr)} (hseen : w.seen a = true)
      (h : ComesToNull refs w rest) : ComesToNull refs w (some a :: rest)
  | visit {w : Walk} {a : Addr} {rest filling : List (Option Addr)} (hseen : w.seen a = false)
      (hfilling : w.filling = some filling)
      (h : ComesToNull refs (w.visit a (refs a) filling) rest) :
      ComesToNull refs w (some a :: rest)
  | next {w : Walk} {l : List (Option Addr)} {full : List (List (Option Addr))}
      (hfull : w.full = l :: full) (h : ComesToNull refs { w with full } l) :
      ComesToNull refs w []

/-! ### What the collector's state stands for -/

/-- The references in the segments of the global queue. -/
def PupGCState.full (st : PupGCState) : List (List (Option Addr)) :=
  st.reference_queue.map PupRefQueueSegment.refs

/-- The list in a segment that is being filled. -/
def SegmentPtr.filling : SegmentPtr → Option (List (Option Addr))
  | .null => some []
  | .segment seg => some seg.refs
  | .wild => none

def Scan.walk (s : Scan) : Walk where
  seen := s.mem.isMarked s.state.live_mark_value
  full := s.state.full
  filling := s.state.current_segment.filling

/-- Where the walk starts: the frames' slots are to be gone through, and what an earlier
collection has left in segments. -/
def Walk.start (mem : Memory) (st : PupGCState) (frames : List (List (Option Addr))) : Walk where
  seen := mem.isMarked st.live_mark_value
  full := frames.foldl withFrame st.full
  filling := st.current_segment.filling

/-! ### Queueing -/

/-- The lists are in the segments, and nothing else has happened. -/
structure Fills (p : Lists) (st st' : PupGCState) (ptr : SegmentPtr) : Prop where
  live : st'.live_mark_value = st.live_mark_value
  current : st'.current_segment = st.current_segment
  full : st'.full = p.1
  filling : ptr.filling = some p.2

theorem Fills.start (st : PupGCState) {ptr : SegmentPtr} {filling : List (Option Addr)}
    (h : ptr.filling = some filling) : Fills (st.full, filling) st st ptr :=
  ⟨rfl, rfl, rfl, h⟩

theorem Fills.queue {p : Lists} {st st₁ : PupGCState} {ptr : SegmentPtr} (h : Fills p st st₁ ptr)
    (ref : Option Addr) :
    ∃ st' ptr', queueForMarking st₁ ref ptr = .ok (st', ptr') ∧ Fills (p.add ref) st st' ptr' := by
  obtain ⟨full, filling⟩ := p
  have hempty : segmentCreate.refs.length < REF_QUEUE_SEGMENT_SIZE := by decide
  obtain ⟨new, hadd, hrefs⟩ := segmentAdd_ok ref hempty
  cases ptr with
  | wild => cases h.filling
  | null =>
      obtain rfl : filling = [] := (Option.some.inj h.filling).symm
      refine ⟨st₁, .segment new, ?_, h.live, h.current, h.full, congrArg some hrefs⟩
      rw [queueForMarking, hadd]
      rfl
  | segment seg =>
      obtain rfl : seg.refs = filling := Option.some.inj h.filling
      by_cases hroom : seg.refs.length < REF_QUEUE_SEGMENT_SIZE
      · obtain ⟨seg', hadd', hrefs'⟩ := segmentAdd_ok ref hroom
        refine ⟨st₁, .segment seg', ?_, ?_⟩
        · rw [queueForMarking, if_pos hroom, hadd']
          rfl
        · rw [Lists.add, if_pos hroom]
          exact ⟨h.live, h.current, h.full, congrArg some hrefs'⟩
      · refine ⟨addSegmentToGlobalQueue st₁ seg, .segment new, ?_, ?_⟩
        · rw [queueForMarking, if_neg hroom, hadd]
          rfl
        · rw [Lists.add, if_neg hroom]
          exact ⟨h.live, h.current, congrArg (seg.refs :: ·) h.full, congrArg some hrefs⟩

theorem addAll_ne_nil {p : Lists} {rs : List (Option Addr)} (h : rs ≠ [] ∨ p.2 ≠ []) :
    (p.addAll rs).2 ≠ [] := by
  induction rs generalizing p with
  | nil => exact h.resolve_left fun hne => hne rfl
  | cons r rs ih =>
      refine ih (p := p.add r) (.inr ?_)
      rw [Lists.add]
      split <;> simp

/-! ### The roots -/

/-- The slots `full` are on the global queue, and nothing else has happened. -/
structure RootsListed (full : List (List (Option Addr))) (st st' : PupGCState) : Prop where
  live : st'.live_mark_value = st.live_mark_value
  current : st'.current_segment = st.current_segment
  full : st'.full = full

theorem collectStackRootPointers_walk (st : PupGCState) (slots : List (Option Addr)) :
    ∃ st', collectStackRootPointers st slots = .ok st' ∧
      RootsListed (withFrame st.full slots) st st' := by
  have hloop : Ends (slots.foldlM (fun (p : PupGCState × SegmentPtr) root =>
      queueForMarking p.1 root p.2) (st, .null))
      (fun p => Fills (Lists.addAll (st.full, []) slots) st p.1 p.2) fun _ => False := by
    refine (Ends.foldlM_rest (I := fun rest (p : PupGCState × SegmentPtr) =>
      ∃ l, Fills l st p.1 p.2 ∧ l.addAll rest = Lists.addAll (st.full, []) slots) ?_
      ⟨_, .start st rfl, rfl⟩).imp ?_ fun _ => id
    · rintro root rest ⟨st₁, ptr⟩ ⟨l, hfills, hrest⟩
      obtain ⟨st', ptr', hqueue, h⟩ := hfills.queue root
      rw [hqueue]
      exact ⟨_, h, hrest⟩
    · rintro ⟨st₁, ptr⟩ ⟨l, hfills, hrest⟩
      exact hrest ▸ hfills
  obtain ⟨⟨st', ptr⟩, hok, h⟩ := hloop.total
  cases slots with
  | nil => exact ⟨st, rfl, rfl, rfl, rfl⟩
  | cons r rs =>
      have hne := addAll_ne_nil (p := (st.full, [])) (.inl (List.cons_ne_nil r rs))
      cases ptr with
      | null => exact absurd (Option.some.inj h.filling).symm hne
      | wild => cases h.filling
      | segment seg =>
          refine ⟨addSegmentToGlobalQueue st' seg, ?_, h.live, h.current, ?_⟩
          · rw [collectStackRootPointers]
            exact congrArg (· >>= _) hok
          · show seg.refs :: st'.full = _
            rw [h.full, Option.some.inj h.filling]
            rfl

theorem scanStack_walk (st : PupGCState) (frames : List (List (Option Addr))) :
    ∃ st', scanStack st frames = .ok st' ∧ RootsListed (frames.foldl withFrame st.full) st st' := by
  induction frames generalizing st with
  | nil => exact ⟨st, rfl, rfl, rfl, rfl⟩
  | cons slots frames ih =>
      obtain ⟨st₁, hcollect, h₁⟩ := collectStackRootPointers_walk st slots
      obtain ⟨st', hscan, h⟩ := ih st₁
      refine ⟨st', ?_, h.live.trans h₁.live, h.current.trans h₁.current, ?_⟩
      · rw [scanStack, List.foldlM_cons, hcollect]
        exact hscan
      · rw [List.foldl_cons, ← h₁.full]
        exact h.full

/-! ### Scanning a reference -/

theorem gcQueueForMarking_wild {st : PupGCState} (h : st.current_segment.filling = none)
    (ref : Option Addr) : gcQueueForMarking st ref = .error .wild := by
  unfold gcQueueForMarking
  cases hcur : st.current_segment with
  | wild => rfl
  | null => rw [hcur] at h; cases h
  | segment seg => rw [hcur] at h; cases h

/-- The references of an object get into the lists. -/
theorem visit_walk {st : PupGCState} {filling : List (Option Addr)}
    (h : st.current_segment.filling = some filling) (rs : List (Option Addr)) :
    ∃ st', rs.foldlM gcQueueForMarking st = .ok st' ∧
      st'.live_mark_value = st.live_mark_value ∧
      st'.full = (Lists.addAll (st.full, filling) rs).1 ∧
      st'.current_segment.filling = some (Lists.addAll (st.full, filling) rs).2 := by
  induction rs generalizing st filling with
  | nil => exact ⟨st, rfl, rfl, rfl, h⟩
  | cons r rs ih =>
      obtain ⟨st₁, ptr, hqueue, h₁⟩ := (Fills.start st h).queue r
      let st₂ : PupGCState := { st₁ with current_segment := ptr }
      have h₂ : st₂.current_segment.filling = some _ := h₁.filling
      obtain ⟨st', hrest, hlive, hfull, hfilling⟩ := ih h₂
      refine ⟨st', ?_, hlive.trans h₁.live, ?_, ?_⟩
      · rw [List.foldlM_cons, gcQueueForMarking, hqueue]
        exact hrest
      · rw [hfull]
        show (Lists.addAll (st₁.full, _) rs).1 = _
        rw [h₁.full]
        rfl
      · rw [hfilling]
        show some (Lists.addAll (st₁.full, _) rs).2 = _
        rw [h₁.full]
        rfl

/-- An object gets its mark and its references are queued. -/
theorem visited_walk {s : Scan} {filling : List (Option Addr)}
    (hfilling : s.walk.filling = some filling) (a : Addr) (o : PupObject)
    (rs : List (Option Addr)) :
    ∃ st', rs.foldlM gcQueueForMarking s.state = .ok st' ∧
      (Scan.mk (s.mem.setObject a { o with gc_mark := s.state.live_mark_value }) st').walk =
        s.walk.visit a rs filling := by
  obtain ⟨st', hok, hlive, hfull, hcur⟩ := visit_walk hfilling rs
  refine ⟨st', hok, ?_⟩
  unfold Scan.walk Walk.visit
  rw [hfull, hcur, hlive]
  congr 1
  funext b
  exact isMarked_setMark s.mem o s.state.live_mark_value b

/-- What scanning a reference to `a` is for the walk, which has come from `w` to `w'`. -/
inductive Scans (a : Addr) (rs : List (Option Addr)) (w : Walk) : Walk → Prop
  | seen (hseen : w.seen a = true) : Scans a rs w w
  | visit {filling : List (Option Addr)} (hseen : w.seen a = false)
      (hfilling : w.filling = some filling) : Scans a rs w (w.visit a rs filling)

section Reference

variable {s : Scan} {a : Addr} {rs : List (Option Addr)}

/-- **Scanning a reference is a step of the walk.** -/
theorem scanQueueRef_walk (hrefs : HasRefs s.mem a rs) {fuel : Nat} {s' : Scan}
    (h : scanQueueRef fuel s (some a) = .ok s') : Scans a rs s.walk s'.walk := by
  obtain ⟨o, l, ho, -, hrs⟩ := id hrefs
  obtain ⟨p, hmark, h⟩ := bind_ok h
  rcases gcMark_cases ho s.state.live_mark_value with ⟨hm, heq⟩ | ⟨hm, heq⟩
  · obtain rfl := Except.ok.inj (heq.symm.trans hmark)
    cases h
    exact .seen hm
  · obtain rfl := Except.ok.inj (heq.symm.trans hmark)
    obtain ⟨st', heach, h⟩ := bind_ok h
    cases h
    have hmarks := MarksOnly.setMark s.mem ho s.state.live_mark_value
    rcases eachRef_cases (hmarks.hasRefs hrefs) fuel s.state with hfuel | hvisit
    · exact absurd (hfuel.symm.trans heach) (by simp)
    · rw [hvisit] at heach
      cases hfilling : s.state.current_segment.filling with
      | none =>
          rw [hrs, List.foldlM_cons, gcQueueForMarking_wild hfilling] at heach
          cases heach
      | some filling =>
          obtain ⟨st₁, hok, hwalk⟩ := visited_walk hfilling a o rs
          obtain rfl := Except.ok.inj (hok.symm.trans heach)
          show Scans a rs s.walk (Scan.mk _ st₁).walk
          rw [hwalk]
          exact .visit hm hfilling

theorem scanQueueRef_seen (hrefs : HasRefs s.mem a rs) (hseen : s.walk.seen a = true)
    (fuel : Nat) : scanQueueRef fuel s (some a) = .ok s := by
  obtain ⟨o, l, ho, -, -⟩ := hrefs
  rcases gcMark_cases ho s.state.live_mark_value with ⟨-, heq⟩ | ⟨hm, -⟩
  · rw [scanQueueRef, heq]
    rfl
  · exact absurd (hseen.symm.trans hm) (by decide)

/-- A step of the walk can be done. -/
theorem scanQueueRef_visit (hrefs : HasRefs s.mem a rs) (hseen : s.walk.seen a = false)
    {filling : List (Option Addr)} (hfilling : s.walk.filling = some filling) :
    ∃ s', s'.walk = s.walk.visit a rs filling ∧
      ∀ fuel ≥ rs.length, scanQueueRef fuel s (some a) = .ok s' := by
  obtain ⟨o, l, ho, -, -⟩ := id hrefs
  obtain ⟨st', hok, hwalk⟩ := visited_walk hfilling a o rs
  have hmarks := MarksOnly.setMark s.mem ho s.state.live_mark_value
  refine ⟨_, hwalk, fun fuel hfuel => ?_⟩
  rcases gcMark_cases ho s.state.live_mark_value with ⟨hm, -⟩ | ⟨-, heq⟩
  · exact absurd (hm.symm.trans hseen) (by decide)
  · rw [scanQueueRef, heq]
    show (eachRef _ gcQueueForMarking fuel (some a) s.state >>= _) = _
    rw [eachRef_eq (hmarks.hasRefs hrefs) hfuel, hok]
    rfl

end Reference

/-! ### Scanning the segments -/

section Segments

variable {mem : Memory} {g : Graph mem}

/-- Going through what is left of a segment, and then through the others. -/
def scanFrom (fuel n : Nat) (s : Scan) (rest : List (Option Addr)) : Except Fault Scan :=
  rest.foldlM (scanQueueRef fuel) s >>= scanSegments fuel n

theorem scanFrom_cons (fuel n : Nat) (s : Scan) (r : Option Addr) (rest : List (Option Addr)) :
    scanFrom fuel n s (r :: rest) = scanQueueRef fuel s r >>= fun s => scanFrom fuel n s rest := by
  rw [scanFrom, List.foldlM_cons, bind_assoc]
  rfl

theorem scanFrom_next {fuel n : Nat} {s : Scan} {seg : PupRefQueueSegment}
    {rest : List PupRefQueueSegment} (hq : s.state.reference_queue = seg :: rest) :
    scanFrom fuel (n + 1) s [] = scanFrom fuel n (s.stolen rest) seg.refs :=
  scanSegments_cons hq

theorem Scan.walk_full {s : Scan} {l : List (Option Addr)} {full : List (List (Option Addr))}
    (h : s.walk.full = l :: full) : ∃ seg rest, s.state.reference_queue = seg :: rest ∧
      seg.refs = l ∧ (s.stolen rest).walk = { s.walk with full } := by
  obtain ⟨seg, rest, hq, rfl, rfl⟩ := List.map_eq_cons_iff.mp h
  exact ⟨seg, rest, hq, rfl, rfl⟩

/-- **A null that the walk comes to is dereferenced**, if there is enough fuel. -/
theorem ComesToNull.scanFrom {w : Walk} {rest : List (Option Addr)}
    (h : ComesToNull g.refs w rest) {s : Scan} (hw : s.walk = w) (hs : Scanning mem g.Valid s)
    (hrest : ∀ r ∈ rest, g.Valid r) :
    ∃ n, ∀ fuel ≥ g.width, ∀ m ≥ n, Gc.scanFrom fuel m s rest = .error .null := by
  induction h generalizing s with
  | here => exact ⟨0, fun fuel _ m _ => rfl⟩
  | @seen w a rest hseen _ ih =>
      subst hw
      obtain ⟨ha, hrest⟩ := List.forall_mem_cons.mp hrest
      have hrefs := hs.marks.hasRefs (g.hasRefs a (ha a rfl))
      obtain ⟨n, hn⟩ := ih rfl hs hrest
      refine ⟨n, fun fuel hfuel m hm => ?_⟩
      rw [scanFrom_cons, scanQueueRef_seen hrefs hseen]
      exact hn fuel hfuel m hm
  | @visit w a rest filling hseen hfilling _ ih =>
      subst hw
      obtain ⟨ha, hrest⟩ := List.forall_mem_cons.mp hrest
      have hdom := ha a rfl
      have hrefs := hs.marks.hasRefs (g.hasRefs a hdom)
      obtain ⟨s₁, hwalk, hok⟩ := scanQueueRef_visit hrefs hseen hfilling
      have hs₁ : Scanning mem g.Valid s₁ :=
        ((scanRef_ends g.admissible hs ha _).of_ok (hok _ le_rfl)).2.2.scanning
      obtain ⟨n, hn⟩ := ih hwalk hs₁ hrest
      refine ⟨n, fun fuel hfuel m hm => ?_⟩
      rw [scanFrom_cons, hok fuel ((g.length_le_width hdom).trans hfuel)]
      exact hn fuel hfuel m hm
  | @next w l full hfull _ ih =>
      subst hw
      obtain ⟨seg, rest, hq, rfl, hwalk⟩ := Scan.walk_full hfull
      obtain ⟨hseg, hstolen⟩ := scanning_steal hs hq
      obtain ⟨n, hn⟩ := ih hwalk hstolen hseg
      refine ⟨n + 1, fun fuel hfuel m hm => ?_⟩
      obtain ⟨m, rfl⟩ := Nat.exists_eq_add_of_le' hm
      rw [show m + (n + 1) = m + n + 1 from rfl, scanFrom_next hq]
      exact hn fuel hfuel (m + n) (Nat.le_add_left n m)

/-- A null that is dereferenced is in the list gone through, if what comes after the list is
gone through without one. -/
theorem scanFrom_ne_null {fuel n : Nat}
    (hnext : ∀ {s : Scan}, Scanning mem g.Valid s → ¬ ComesToNull g.refs s.walk [] →
      scanFrom fuel n s [] ≠ .error .null)
    {s : Scan} (hs : Scanning mem g.Valid s) {rest : List (Option Addr)}
    (hrest : ∀ r ∈ rest, g.Valid r) (h : ¬ ComesToNull g.refs s.walk rest) :
    scanFrom fuel n s rest ≠ .error .null := by
  induction rest generalizing s with
  | nil => exact hnext hs h
  | cons r rest ih =>
      obtain ⟨hr, hothers⟩ := List.forall_mem_cons.mp hrest
      cases r with
      | none => exact absurd .here h
      | some a =>
          have hrefs := hs.marks.hasRefs (g.hasRefs a (hr a rfl))
          rw [scanFrom_cons]
          cases hscan : scanQueueRef fuel s (some a) with
          | error f =>
              intro heq
              obtain rfl : f = .null := Except.error.inj heq
              rcases (scanQueueRef_ends hrefs fuel).of_error hscan with hf | hf
              · cases hf.1
              · cases hf.1
          | ok s₁ =>
              have hs₁ := ((scanRef_ends g.admissible hs hr fuel).of_ok hscan).2.2.scanning
              refine ih hs₁ hothers fun hnull => h ?_
              have hstep := scanQueueRef_walk hrefs hscan
              generalize s₁.walk = w at hstep hnull
              cases hstep with
              | seen hseen => exact .seen hseen hnull
              | visit hseen hfilling => exact .visit hseen hfilling hnull

/-- **Where the walk comes to no null, none is dereferenced.** -/
theorem scanSegments_ne_null (fuel n : Nat) {s : Scan} (hs : Scanning mem g.Valid s)
    (h : ¬ ComesToNull g.refs s.walk []) : scanFrom fuel n s [] ≠ .error .null := by
  induction n generalizing s with
  | zero => exact fun heq => (by cases heq)
  | succ n ih =>
      cases hq : s.state.reference_queue with
      | nil =>
          intro heq
          cases (scanSegments_nil hq).symm.trans heq
      | cons seg rest =>
          obtain ⟨hseg, hstolen⟩ := scanning_steal hs hq
          rw [scanFrom_next hq]
          refine scanFrom_ne_null ih hstolen hseg fun hnull => h (.next ?_ hnull)
          show s.state.reference_queue.map _ = _
          rw [hq]
          rfl

end Segments

/-! ### The mark phase -/

theorem scanning_rootsListed {mem : Memory} {V : Option Addr → Prop} {st st' : PupGCState}
    {frames : List (List (Option Addr))} (hst : ∀ r ∈ st.pending, V r)
    (hframes : ∀ r ∈ frames.flatten, V r) (h : scanStack st frames = .ok st') :
    Scanning mem V ⟨mem, st'⟩ :=
  scanning_roots hst hframes ((scanStack_ends st frames).of_ok h)

/--
**The mark phase dereferences null exactly if the walk comes to one.**  That is: starting
from the live slots of all frames and from what an earlier collection has left in segments,
and going through the references of the objects without the mark in lists of
`REF_QUEUE_SEGMENT_SIZE` as they are filled.
-/
theorem markPhase_null_iff {mem : Memory} (g : Graph mem) (st : PupGCState)
    (frames : List (List (Option Addr))) (hst : ∀ r ∈ st.pending, g.Valid r)
    (hframes : ∀ r ∈ frames.flatten, g.Valid r) :
    (∀ fuel, markPhase fuel ⟨mem, st⟩ frames ≠ .error .null) ↔
      ¬ ComesToNull g.refs (.start mem st frames) [] := by
  obtain ⟨st', hok, hlisted⟩ := scanStack_walk st frames
  have hs : Scanning mem g.Valid ⟨mem, st'⟩ := scanning_rootsListed hst hframes hok
  have hphase : ∀ fuel, markPhase fuel ⟨mem, st⟩ frames = scanFrom fuel fuel ⟨mem, st'⟩ [] := by
    intro fuel
    rw [markPhase, hok]
    rfl
  have hwalk : (Scan.mk mem st').walk = .start mem st frames := by
    unfold Scan.walk Walk.start
    rw [hlisted.live, hlisted.full, hlisted.current]
  rw [← hwalk]
  constructor
  · intro hne hnull
    obtain ⟨n, hn⟩ := hnull.scanFrom rfl hs fun r hr => (by cases hr)
    refine hne (max g.width n) ?_
    rw [hphase]
    exact hn _ (Nat.le_max_left ..) _ (Nat.le_max_right ..)
  · intro h fuel
    rw [hphase]
    exact scanSegments_ne_null fuel fuel hs h

/-- A class at 16, an object at 32 whose attribute is the object at 48, and the attribute of
that one is null. -/
def nullAttribute : Memory where
  headers _ := none
  objects a :=
    if a = 16 then some ⟨some 16, none, false⟩
    else if a = 32 then some ⟨some 16, some 64, false⟩
    else if a = 48 then some ⟨some 16, some 80, false⟩
    else none
  attrs a :=
    if a = 64 then some ⟨1, some 48, none⟩
    else if a = 80 then some ⟨1, none, none⟩
    else none

def nullAttributeGraph : Graph nullAttribute where
  dom := {16, 32, 48}
  refs a := if a = 16 then [some 16] else if a = 32 then [some 16, some 48] else [some 16, none]
  hasRefs := by
    intro a ha
    obtain rfl | rfl | rfl : a = 16 ∨ a = 32 ∨ a = 48 := by simpa using ha
    · exact ⟨⟨some 16, none, false⟩, [], rfl, AttrList.nil_iff.mpr rfl, rfl⟩
    · exact ⟨⟨some 16, some 64, false⟩, [(64, ⟨1, some 48, none⟩)], rfl,
        AttrList.cons_iff.mpr ⟨rfl, rfl, AttrList.nil_iff.mpr rfl⟩, rfl⟩
    · exact ⟨⟨some 16, some 80, false⟩, [(80, ⟨1, none, none⟩)], rfl,
        AttrList.cons_iff.mpr ⟨rfl, rfl, AttrList.nil_iff.mpr rfl⟩, rfl⟩
  closed := by
    intro a ha b hb
    obtain rfl | rfl | rfl : a = 16 ∨ a = 32 ∨ a = 48 := by simpa using ha
    · obtain rfl : b = 16 := by simpa using hb
      simp
    · obtain rfl | rfl : b = 16 ∨ b = 48 := by simpa using hb
      · simp
      · simp
    · obtain rfl : b = 16 := by simpa using hb
      simp

/-- The null in the attribute is not come to, as the object it belongs to is left over. -/
theorem markPhase_null_iff_object :
    (∀ fuel, markPhase fuel ⟨nullAttribute, gcPeriodStart (gcStateCreate 0)⟩ [[some 32]] ≠
      .error .null) ∧
    ∃ fuel, markPhase fuel ⟨nullAttribute, gcPeriodStart (gcStateCreate 0)⟩
      [[some 32], [none]] = .error .null := by
  have hpending : ∀ r ∈ (gcPeriodStart (gcStateCreate 0)).pending,
      nullAttributeGraph.Valid r := fun r hr => (by cases hr)
  constructor
  · refine (markPhase_null_iff nullAttributeGraph _ [[some 32]] hpending ?_).mpr ?_
    · simp [Graph.Valid, nullAttributeGraph]
    · intro h
      cases h with
      | next hfull h =>
          cases hfull
          cases h with
          | seen hseen => cases hseen
          | visit _ hfilling h =>
              cases hfilling
              cases h with
              | next hfull => cases hfull
  · have hnull := (markPhase_null_iff nullAttributeGraph (gcPeriodStart (gcStateCreate 0))
      [[some 32], [none]] hpending (by simp [Graph.Valid, nullAttributeGraph])).not.mpr
        (not_not_intro (.next rfl .here))
    by_contra hne
    exact hnull fun fuel heq => hne ⟨fuel, heq⟩

/-- A frame with one live slot that still holds its initial null. -/
theorem null_slot_faults :
    ∃ fuel, markPhase fuel ⟨objectAndClass, gcPeriodStart (gcStateCreate 0)⟩ [[none]] =
      .error .null :=
  ⟨1, rfl⟩

end Pup.Gc
