/-
The invariant of the safepoint handshake.

The barrier counts two arrivals and does not know whose they are, so that a
release pairs the collector with the thread it has just signalled is not something
the code checks.  It holds because at most one thread is ever between its signal
and its barrier wait: `Inv` says so, together with how far that one thread has got
(`Phase`) and what every other thread looks like (`Quiet`).  `step_inv` is the step
lemma and `inv_of_reachable` the run lemma.

One phase is a dead end.  A handler that runs after the barrier has released its
thread but before that thread clears `gc_waiting` has its flag wiped (`Phase.lost`):
the thread never scans, and the collector waits for ever.
-/
import Pup.Heap.Threads

namespace Pup.Threads

open Transition Chain

variable {σ : Type}

/-! ### What one thread looks like -/

/-- The thread has been on the list at some time. -/
def Pc.begun : Pc σ → Bool
  | .outside | .prepared | .loaded _ => false
  | _ => true

theorem Pc.begun_of_live {pc : Pc σ} (h : pc.live = true) : pc.begun = true := by
  cases pc <;> simp_all [Pc.live, Pc.begun]

/-- A thread the collector is not waiting for. -/
structure Quiet (th : Thread σ) : Prop where
  pending : th.pending = false
  calm : th.pc.calm = true
  /-- the flag is only still up in the tail of an earlier safepoint -/
  tail : th.gc_waiting = true → th.pc = .released
  met : th.handled = th.met

/-- The thread has not scanned its stack in this collection. -/
structure Untouched (q : List (Tid × σ)) (t : Tid) (th : Thread σ) : Prop where
  scans : th.scans = 0
  pushed : pushedBy q t = []

/-- The thread has scanned its stack once, and what it found is on the queue. -/
structure Scanned (live : Bool) (q : List (Tid × σ)) (t : Tid) (th : Thread σ) : Prop where
  scans : th.scans = 1
  pushed : pushedBy q t = th.found.reverse
  mark : th.current_gc_mark = live.toNat

/-- How far the thread the collector is waiting for has got. -/
inductive Phase (live : Bool) (q : List (Tid × σ)) (t : Tid) (th : Thread σ) : Prop
  | signalled (pending : th.pending = true) (calm : th.pc.calm = true)
      (tail : th.gc_waiting = true → th.pc = .released) (met : th.handled = th.met)
      (untouched : Untouched q t th)
  | handled (pending : th.pending = false) (calm : th.pc.calm = true)
      (flag : th.gc_waiting = true) (met : th.handled = th.met + 1)
      (mark : th.current_gc_mark = live.toNat) (untouched : Untouched q t th)
  | scanning (rest : List σ) (pc : th.pc = .scanning rest) (pending : th.pending = false)
      (flag : th.gc_waiting = true) (met : th.handled = th.met + 1)
      (mark : th.current_gc_mark = live.toNat) (scans : th.scans = 1)
      (pushed : ∃ done, th.found = done ++ rest ∧ pushedBy q t = done.reverse)
  | arrived (pc : th.pc = .waiting) (pending : th.pending = false)
      (flag : th.gc_waiting = true) (met : th.handled = th.met + 1)
      (scanned : Scanned live q t th)
  | lost (pending : th.pending = false) (calm : th.pc.calm = true)
      (flag : th.gc_waiting = false) (met : th.handled = th.met + 1)

/-- The barrier released the collector together with the thread it signalled last. -/
def Rendezvous.Paired (r : Rendezvous) : Prop :=
  ∃ t, r.signalled = some t ∧
    ((r.first = .gc ∧ r.second = .mutator t) ∨ (r.first = .mutator t ∧ r.second = .gc))

/-- The list node the collector is at or will come to next. -/
def GcPc.upcoming (next : Tid → Option Tid) : GcPc → Option (Option Tid)
  | .visiting tinfo => some tinfo
  | .signalled t | .waiting t => some (some t)
  | .released t => some (next t)
  | .scanHeap => some none
  | .sleeping | .started | .aborted => none

/-! ### The invariant -/

/-- What holds of `thread_list` and of the collector's walk along it. -/
structure ListInv (s : State σ) : Prop where
  unlinked : ∀ u, (s.threads u).pc.begun = false → (s.threads u).pc = .outside ∨ s.next u = none
  list : ∃ l, Linked s.next s.thread_list l ∧ ∀ u ∈ l, (s.threads u).pc.begun = true
  unwalked : s.gc = .sleeping ∨ s.gc = .started → s.walked = []
  begun : ∀ u ∈ s.walked, (s.threads u).pc.begun = true
  released : ∀ u, s.gc = .released u → u ∈ s.walked
  ahead : ∀ h, s.gc.upcoming s.next = some h →
    ∃ rest, Linked s.next s.head (s.walked ++ rest) ∧ h = rest.head? ∧
      ∀ u ∈ rest, (s.threads u).pc.begun = true

/-- What holds of every reachable state. -/
structure Inv (s : State σ) : Prop where
  list : ListInv s
  quiet : ∀ u, s.gc.target ≠ some u → Quiet (s.threads u)
  target : ∀ t, s.gc.target = some t → Phase s.live_mark_value s.queue t (s.threads t)
  signalled : ∀ t, s.gc.target = some t → s.last_signalled = some t
  barrierGc : s.barrier = some .gc ↔ ∃ t, s.gc = .waiting t
  barrierMutator : ∀ u, s.barrier = some (.mutator u) ↔ (s.threads u).pc = .waiting
  empty : s.gc = .sleeping → s.queue = []
  walked : ∀ u ∈ s.walked, Scanned s.live_mark_value s.queue u (s.threads u)
  fresh : s.gc ≠ .sleeping → ∀ u, u ∉ s.walked → s.gc.target ≠ some u →
    Untouched s.queue u (s.threads u)
  paired : ∀ r ∈ s.rendezvous, r.Paired

/-- The node the collector is at heads what is left of its walk. -/
theorem ListInv.ahead_cons {s : State σ} (h : ListInv s) {t : Tid}
    (hup : s.gc.upcoming s.next = some (some t)) :
    ∃ rest, Linked s.next s.head (s.walked ++ t :: rest) ∧
      (s.threads t).pc.begun = true ∧ ∀ u ∈ rest, (s.threads u).pc.begun = true := by
  obtain ⟨rest, hl, hhead, hb⟩ := h.ahead _ hup
  obtain ⟨rest, rfl⟩ : ∃ rest', rest = t :: rest' := by
    cases rest with
    | nil => simp at hhead
    | cons a l => exact ⟨l, by simpa using hhead.symm⟩
  exact ⟨rest, hl, hb t (by simp), fun u hu => hb u (by simp [hu])⟩

/-- A node the collector has yet to meet is not among those it has met. -/
theorem ListInv.not_walked {s : State σ} (h : ListInv s) {t : Tid}
    (hup : s.gc.upcoming s.next = some (some t)) : t ∉ s.walked := by
  obtain ⟨rest, hl, -, -⟩ := h.ahead_cons hup
  intro hmem
  have hnodup := hl.nodup
  rw [List.nodup_append] at hnodup
  exact hnodup.2.2 t hmem t (by simp) rfl

theorem upcoming_of_target {gc : GcPc} (next : Tid → Option Tid) {t : Tid}
    (h : gc.target = some t) : gc.upcoming next = some (some t) := by
  cases gc <;> simp_all [GcPc.target, GcPc.upcoming]

namespace Inv

variable {s : State σ}

/-- The collector has not met the thread it is waiting for. -/
theorem target_not_walked (h : Inv s) {t : Tid} (ht : s.gc.target = some t) : t ∉ s.walked :=
  h.list.not_walked (upcoming_of_target s.next ht)

/-- The thread the collector is waiting for has been attached. -/
theorem target_begun (h : Inv s) {t : Tid} (ht : s.gc.target = some t) :
    (s.threads t).pc.begun = true := by
  obtain ⟨_, -, hb, -⟩ := h.list.ahead_cons (upcoming_of_target s.next ht)
  exact hb

/-- A thread that is in the barrier, or scanning, is the one the collector waits for. -/
theorem target_of_not_calm (h : Inv s) {t : Tid} (hpc : (s.threads t).pc.calm = false) :
    s.gc.target = some t := by
  by_contra hne
  have := (h.quiet t hne).calm
  simp_all

end Inv

/-- The walk does not notice changes that keep the links of attached threads. -/
theorem ListInv.frame {s s' : State σ} (h : ListInv s)
    (hnext : ∀ u, (s.threads u).pc.begun = true → s'.next u = s.next u)
    (hbegun : ∀ u, (s.threads u).pc.begun = true → (s'.threads u).pc.begun = true)
    (hunlinked : ∀ u, (s'.threads u).pc.begun = false →
      (s'.threads u).pc = .outside ∨ s'.next u = none)
    (hlist : s'.thread_list = s.thread_list) (hhead : s'.head = s.head)
    (hwalked : s'.walked = s.walked)
    (hunwalked : s'.gc = .sleeping ∨ s'.gc = .started → s.walked = [])
    (hreleased : ∀ u, s'.gc = .released u → u ∈ s.walked)
    (hup : ∀ hd, s'.gc.upcoming s.next = some hd → s.gc.upcoming s.next = some hd) :
    ListInv s' := by
  have hl' : ∀ {hd l}, Linked s.next hd l → (∀ u ∈ l, (s.threads u).pc.begun = true) →
      Linked s'.next hd l := fun hl hb => hl.congr fun u hu => hnext u (hb u hu)
  have hup' : s'.gc.upcoming s'.next = s'.gc.upcoming s.next := by
    cases hgc : s'.gc with
    | released u => simp [GcPc.upcoming, hnext u (h.begun u (hreleased u hgc))]
    | _ => rfl
  refine ⟨hunlinked, ?_, ?_, ?_, ?_, ?_⟩
  · obtain ⟨l, hl, hb⟩ := h.list
    exact ⟨l, hlist ▸ hl' hl hb, fun u hu => hbegun u (hb u hu)⟩
  · rw [hwalked]; exact hunwalked
  · rw [hwalked]; exact fun u hu => hbegun u (h.begun u hu)
  · rw [hwalked]; exact hreleased
  · intro hd hhd
    rw [hup'] at hhd
    obtain ⟨rest, hl, hrest, hb⟩ := h.ahead hd (hup hd hhd)
    refine ⟨rest, ?_, hrest, fun u hu => hbegun u (hb u hu)⟩
    rw [hwalked, hhead]
    refine hl' hl fun u hu => ?_
    rcases List.mem_append.mp hu with hu | hu
    · exact h.begun u hu
    · exact hb u hu

/-! ### A thread on its own

Most steps change one thread's record and nothing shared.  What such a step has to
keep of that record is said once here.
-/

theorem forall_upd {s : State σ} {t : Tid} {f : Thread σ → Thread σ}
    {P : Tid → Thread σ → Prop} (ht : P t (f (s.threads t)))
    (hu : ∀ u, u ≠ t → P u (s.threads u)) : ∀ u, P u ((s.upd t f).threads u) := by
  intro u
  by_cases hut : u = t
  · subst hut; simpa using ht
  · simpa [hut] using hu u hut

/-- What a step of thread `t` alone has to keep of `t`'s record. -/
structure Local (s : State σ) (t : Tid) (th' : Thread σ) : Prop where
  quiet : Quiet (s.threads t) → Quiet th'
  phase : s.gc.target = some t → Phase s.live_mark_value s.queue t (s.threads t) →
    Phase s.live_mark_value s.queue t th'
  scanned : (s.threads t).pc.begun = true → s.gc.target ≠ some t →
    Scanned s.live_mark_value s.queue t (s.threads t) →
    Scanned s.live_mark_value s.queue t th'
  untouched : s.gc.target ≠ some t → Untouched s.queue t (s.threads t) →
    Untouched s.queue t th'
  waiting : th'.pc = .waiting ↔ (s.threads t).pc = .waiting
  begun : (s.threads t).pc.begun = true → th'.pc.begun = true
  next : (s.threads t).pc.begun = true → th'.next = s.next t
  unlinked : th'.pc.begun = false → th'.pc = .outside ∨ th'.next = none

theorem Local.listInv {s : State σ} (h : Inv s) {t : Tid} {f : Thread σ → Thread σ}
    (hf : Local s t (f (s.threads t))) : ListInv (s.upd t f) :=
  h.list.frame
    (forall_upd (P := fun u th => (s.threads u).pc.begun = true → th.next = s.next u)
      hf.next fun _ _ _ => rfl)
    (forall_upd (P := fun u th => (s.threads u).pc.begun = true → th.pc.begun = true)
      hf.begun fun _ _ hb => hb)
    (forall_upd (P := fun _ th => th.pc.begun = false → th.pc = .outside ∨ th.next = none)
      hf.unlinked fun u _ => h.list.unlinked u)
    rfl rfl rfl h.list.unwalked h.list.released fun _ hup => hup

theorem Inv.local {s : State σ} (h : Inv s) {t : Tid} {f : Thread σ → Thread σ}
    (hf : Local s t (f (s.threads t))) : Inv (s.upd t f) where
  list := hf.listInv h
  quiet := forall_upd (P := fun u th => s.gc.target ≠ some u → Quiet th)
    (fun hne => hf.quiet (h.quiet t hne)) fun u _ hne => h.quiet u hne
  target := forall_upd
    (P := fun u th => s.gc.target = some u → Phase s.live_mark_value s.queue u th)
    (fun htgt => hf.phase htgt (h.target t htgt)) fun u _ htgt => h.target u htgt
  signalled := h.signalled
  barrierGc := h.barrierGc
  barrierMutator := forall_upd
    (P := fun u th => s.barrier = some (.mutator u) ↔ th.pc = .waiting)
    ((h.barrierMutator t).trans hf.waiting.symm) fun u _ => h.barrierMutator u
  empty := h.empty
  walked := forall_upd
    (P := fun u th => u ∈ s.walked → Scanned s.live_mark_value s.queue u th)
    (fun hmem => hf.scanned (h.list.begun t hmem)
      (fun htgt => h.target_not_walked htgt hmem) (h.walked t hmem))
    fun u _ hmem => h.walked u hmem
  fresh := fun hgc => forall_upd
    (P := fun u th => u ∉ s.walked → s.gc.target ≠ some u → Untouched s.queue u th)
    (fun hw htgt => hf.untouched htgt (h.fresh hgc t hw htgt)) fun u _ => h.fresh hgc u
  paired := h.paired

/-! ### The attach loop -/

theorem inv_prepare {s : State σ} (h : Inv s) {t : Tid} (junk : Int)
    (hpc : (s.threads t).pc = .outside) :
    Inv (s.upd t fun th =>
      { th with pc := .prepared, next := none, gc_waiting := false, current_gc_mark := junk }) := by
  have hb : (s.threads t).pc.begun = false := by simp [hpc, Pc.begun]
  refine h.local
    { quiet := fun hq => ⟨hq.pending, rfl, by simp, hq.met⟩
      phase := fun htgt _ => absurd (h.target_begun htgt) (by simp [hb])
      scanned := fun hb' => absurd hb' (by simp [hb])
      untouched := fun _ hu => ⟨hu.scans, hu.pushed⟩
      waiting := by simp [hpc]
      begun := fun hb' => absurd hb' (by simp [hb])
      next := fun hb' => absurd hb' (by simp [hb])
      unlinked := fun _ => Or.inr rfl }

/-- A thread that has not attached moves about in the attach loop. -/
theorem inv_attaching {s : State σ} (h : Inv s) {t : Tid} (pc : Pc σ)
    (hb : (s.threads t).pc.begun = false) (hout : (s.threads t).pc ≠ .outside)
    (hpc : pc.calm = true) : Inv (s.upd t fun th => { th with pc := pc }) := by
  have hwait : (s.threads t).pc ≠ .waiting := by
    intro hc; simp [hc, Pc.begun] at hb
  have hnext : s.next t = none := (h.list.unlinked t hb).resolve_left hout
  refine h.local
    { quiet := fun hq => ⟨hq.pending, hpc, ?_, hq.met⟩
      phase := fun htgt _ => absurd (h.target_begun htgt) (by simp [hb])
      scanned := fun hb' => absurd hb' (by simp [hb])
      untouched := fun _ hu => ⟨hu.scans, hu.pushed⟩
      waiting := ⟨fun hc => ?_, fun hc => absurd hc hwait⟩
      begun := fun hb' => absurd hb' (by simp [hb])
      next := fun hb' => absurd hb' (by simp [hb])
      unlinked := fun _ => Or.inr hnext }
  · intro hflag
    have := hq.tail hflag
    simp [this, Pc.begun] at hb
  · have hc' : pc = .waiting := hc
    simp [hc', Pc.calm] at hpc

/-- The compare-and-swap makes the thread the only one on the list. -/
theorem inv_swapHead {s : State σ} (h : Inv s) {t : Tid} {old_head : Option Tid}
    (hpc : (s.threads t).pc = .loaded old_head) :
    Inv ({ s with thread_list := some t }.upd t fun th => { th with pc := .running }) := by
  have hb : (s.threads t).pc.begun = false := by simp [hpc, Pc.begun]
  have hnext : s.next t = none := (h.list.unlinked t hb).resolve_left (by simp [hpc])
  have h' := inv_attaching h .running hb (by simp [hpc]) rfl
  refine { h' with list := { h'.list with list := ⟨[t], .cons ?_, by simp [Pc.begun]⟩ } }
  have : (s.upd t fun th => { th with pc := .running }).next t = none := by
    simpa [State.next] using hnext
  show Linked _ ((s.upd t fun th => { th with pc := .running }).next t) []
  rw [this]
  exact .nil

/-! ### The mutator's side of the handshake -/

theorem inv_scan {s : State σ} (h : Inv s) {t : Tid} (segs : List σ)
    (hpc : (s.threads t).pc = .running) (hflag : (s.threads t).gc_waiting = true) :
    Inv (s.upd t fun th =>
      { th with pc := .scanning segs, scans := th.scans + 1, found := segs }) := by
  -- a flag that is up outside the tail of a safepoint means the collector is waiting
  have hnq : ¬ Quiet (s.threads t) := by
    intro hq
    have := hq.tail hflag
    simp [hpc] at this
  refine h.local
    { quiet := fun hq => absurd hq hnq
      phase := ?_
      scanned := fun _ hne => absurd (h.quiet t hne) hnq
      untouched := fun hne => absurd (h.quiet t hne) hnq
      waiting := by simp [hpc]
      begun := fun _ => rfl
      next := fun _ => rfl
      unlinked := fun hb => by simp [Pc.begun] at hb }
  intro _ hph
  cases hph with
  | signalled _ _ tail => simp [hpc] at tail; simp [tail] at hflag
  | handled pending _ _ met mark untouched =>
      exact .scanning segs rfl pending hflag met mark (by simp [untouched.scans])
        ⟨[], rfl, untouched.pushed⟩
  | scanning rest pc => simp [hpc] at pc
  | arrived pc => simp [hpc] at pc
  | lost _ _ flag => simp [hflag] at flag

theorem pushedBy_cons_self (q : List (Tid × σ)) (t : Tid) (seg : σ) :
    pushedBy ((t, seg) :: q) t = seg :: pushedBy q t := by
  simp [pushedBy]

theorem pushedBy_cons_ne (q : List (Tid × σ)) {t u : Tid} (h : u ≠ t) (seg : σ) :
    pushedBy ((t, seg) :: q) u = pushedBy q u := by
  simp [pushedBy, Ne.symm h]

/-- Queueing a segment of thread `t` shows only in what `t` has pushed. -/
theorem inv_queueSegment {s : State σ} (h : Inv s) {t : Tid} {seg : σ} {rest : List σ}
    (hpc : (s.threads t).pc = .scanning (seg :: rest)) :
    Inv ({ s with queue := (t, seg) :: s.queue }.upd t fun th =>
      { th with pc := .scanning rest }) := by
  have htgt : s.gc.target = some t := h.target_of_not_calm (by simp [hpc, Pc.calm])
  have hne : ∀ u, s.gc.target = some u → u = t := fun u hu => by simpa [htgt] using hu.symm
  have hcons : ∀ u, u ≠ t → pushedBy ((t, seg) :: s.queue) u = pushedBy s.queue u :=
    fun u hut => pushedBy_cons_ne s.queue hut seg
  have hphase : Phase s.live_mark_value ((t, seg) :: s.queue) t
      { s.threads t with pc := .scanning rest } := by
    cases h.target t htgt with
    | signalled _ calm => simp [hpc, Pc.calm] at calm
    | handled _ calm => simp [hpc, Pc.calm] at calm
    | scanning rest' pc pending flag met mark scans pushed =>
        obtain ⟨done, hfound, hpushed⟩ := pushed
        obtain rfl : rest' = seg :: rest := by simpa [hpc] using pc.symm
        refine .scanning rest rfl pending flag met mark scans
          ⟨done ++ [seg], by simp [hfound], ?_⟩
        rw [pushedBy_cons_self, hpushed]
        simp
    | arrived pc => simp [hpc] at pc
    | lost _ calm => simp [hpc, Pc.calm] at calm
  exact
    { list := h.list.frame
        (forall_upd (P := fun u th => (s.threads u).pc.begun = true → th.next = s.next u)
          (fun _ => rfl) fun _ _ _ => rfl)
        (forall_upd (P := fun u th => (s.threads u).pc.begun = true → th.pc.begun = true)
          (fun _ => rfl) fun _ _ hb => hb)
        (forall_upd (P := fun _ th => th.pc.begun = false → th.pc = .outside ∨ th.next = none)
          (fun hb => by simp [Pc.begun] at hb) fun u _ => h.list.unlinked u)
        rfl rfl rfl h.list.unwalked h.list.released fun _ hup => hup
      quiet := forall_upd (P := fun u th => s.gc.target ≠ some u → Quiet th)
        (fun hne => absurd htgt hne) fun u _ => h.quiet u
      target := forall_upd
        (P := fun u th => s.gc.target = some u →
          Phase s.live_mark_value ((t, seg) :: s.queue) u th)
        (fun _ => hphase) fun u hut hu => absurd (hne u hu) hut
      signalled := h.signalled
      barrierGc := h.barrierGc
      barrierMutator := forall_upd
        (P := fun u th => s.barrier = some (.mutator u) ↔ th.pc = .waiting)
        (by simpa [hpc] using h.barrierMutator t) fun u _ => h.barrierMutator u
      empty := fun hgc => by
        rw [show s.gc = .sleeping from hgc] at htgt
        cases htgt
      walked := forall_upd
        (P := fun u th => u ∈ s.walked → Scanned s.live_mark_value ((t, seg) :: s.queue) u th)
        (fun hmem => absurd hmem (h.target_not_walked htgt)) fun u hut hmem =>
          ⟨(h.walked u hmem).scans, (hcons u hut).trans (h.walked u hmem).pushed,
            (h.walked u hmem).mark⟩
      fresh := fun hgc => forall_upd
        (P := fun u th => u ∉ s.walked → s.gc.target ≠ some u →
          Untouched ((t, seg) :: s.queue) u th)
        (fun _ hu => absurd htgt hu) fun u hut hw hu =>
          ⟨(h.fresh hgc u hw hu).scans, (hcons u hut).trans (h.fresh hgc u hw hu).pushed⟩
      paired := h.paired }

/-- A handler that ran before this step has its flag wiped: the handshake is lost. -/
theorem inv_clear {s : State σ} (h : Inv s) {t : Tid} (hpc : (s.threads t).pc = .released) :
    Inv (s.upd t fun th => { th with pc := .running, gc_waiting := false }) := by
  refine h.local
    { quiet := fun hq => ⟨hq.pending, rfl, by simp, hq.met⟩
      phase := ?_
      scanned := fun _ _ hs => ⟨hs.scans, hs.pushed, hs.mark⟩
      untouched := fun _ hu => ⟨hu.scans, hu.pushed⟩
      waiting := by simp [hpc]
      begun := fun _ => rfl
      next := fun _ => rfl
      unlinked := fun hb => by simp [Pc.begun] at hb }
  intro _ hph
  cases hph with
  | signalled pending _ _ met untouched =>
      exact .signalled pending rfl (by simp) met ⟨untouched.scans, untouched.pushed⟩
  | handled pending _ _ met => exact .lost pending rfl rfl met
  | scanning rest pc => simp [hpc] at pc
  | arrived pc => simp [hpc] at pc
  | lost pending _ _ met => exact .lost pending rfl rfl met

theorem inv_handle {s : State σ} (h : Inv s) {t : Tid} (hp : (s.threads t).pending = true) :
    Inv (s.upd t fun th =>
      { th with pending := false, gc_waiting := true,
                current_gc_mark := s.live_mark_value.toNat, handled := th.handled + 1 }) := by
  have hnq : ¬ Quiet (s.threads t) := by
    intro hq
    have := hq.pending
    simp [hp] at this
  refine h.local
    { quiet := fun hq => absurd hq hnq
      phase := ?_
      scanned := fun _ hne => absurd (h.quiet t hne) hnq
      untouched := fun hne => absurd (h.quiet t hne) hnq
      waiting := Iff.rfl
      begun := fun hb => hb
      next := fun _ => rfl
      unlinked := h.list.unlinked t }
  intro _ hph
  cases hph with
  | signalled _ calm _ met untouched =>
      exact .handled rfl calm rfl (by simp [met]) rfl ⟨untouched.scans, untouched.pushed⟩
  | handled pending => simp [hp] at pending
  | scanning rest pc pending => simp [hp] at pending
  | arrived pc pending => simp [hp] at pending
  | lost pending => simp [hp] at pending

theorem inv_finish {s : State σ} (h : Inv s) {t : Tid}
    (hpc : (s.threads t).pc = .running ∨ (s.threads t).pc = .outside) :
    Inv (s.upd t fun th => { th with pc := .finished }) := by
  have hrel : (s.threads t).pc ≠ .released := by rcases hpc with hpc | hpc <;> simp [hpc]
  refine h.local
    { quiet := fun hq => ⟨hq.pending, rfl, fun hflag => absurd (hq.tail hflag) hrel, hq.met⟩
      phase := ?_
      scanned := fun _ _ hs => ⟨hs.scans, hs.pushed, hs.mark⟩
      untouched := fun _ hu => ⟨hu.scans, hu.pushed⟩
      waiting := by rcases hpc with hpc | hpc <;> simp [hpc]
      begun := fun _ => rfl
      next := fun _ => rfl
      unlinked := fun hb => by simp [Pc.begun] at hb }
  intro _ hph
  cases hph with
  | signalled pending _ tail met untouched =>
      exact .signalled pending rfl (fun hflag => absurd (tail hflag) hrel) met
        ⟨untouched.scans, untouched.pushed⟩
  | handled pending _ flag met mark untouched =>
      exact .handled pending rfl flag met mark ⟨untouched.scans, untouched.pushed⟩
  | scanning rest pc => rcases hpc with hpc | hpc <;> simp [hpc] at pc
  | arrived pc => rcases hpc with hpc | hpc <;> simp [hpc] at pc
  | lost pending _ flag met => exact .lost pending rfl flag met

/-! ### The collector's side -/

theorem inv_periodStart {s : State σ} (h : Inv s) (hgc : s.gc = .sleeping) :
    Inv { s with
      gc := .started, live_mark_value := !s.live_mark_value,
      threads := fun t => { s.threads t with scans := 0, found := [] } } where
  list := h.list.frame (fun _ _ => rfl) (fun _ hb => hb) h.list.unlinked rfl rfl rfl
    (fun _ => h.list.unwalked (Or.inl hgc)) (fun u hu => by cases hu) fun _ hup => by cases hup
  quiet u _ := by
    have hq := h.quiet u (by simp [hgc, GcPc.target])
    exact ⟨hq.pending, hq.calm, hq.tail, hq.met⟩
  target u hu := by cases hu
  signalled u hu := by cases hu
  barrierGc := by simpa [hgc] using h.barrierGc
  barrierMutator := h.barrierMutator
  empty hc := by cases hc
  walked u hu := by simp [h.list.unwalked (Or.inl hgc)] at hu
  fresh _ u _ _ := ⟨rfl, by simp [h.empty hgc, pushedBy]⟩
  paired := h.paired

/-- Steps of the collector that only move it along, between two handshakes. -/
theorem inv_gcMove {s : State σ} (h : Inv s) {gc : GcPc} {head : Option Tid}
    (hold : s.gc.target = none) (hnew : gc.target = none) (hawake : s.gc ≠ .sleeping)
    (hsleep : gc ≠ .sleeping) (hlist : ListInv { s with gc := gc, head := head }) :
    Inv { s with gc := gc, head := head } where
  list := hlist
  quiet u _ := h.quiet u (by simp [hold])
  target u hu := by simp [hnew] at hu
  signalled u hu := by simp [hnew] at hu
  barrierGc := by
    have hw : ∀ {g : GcPc}, g.target = none → ¬ ∃ t, g = .waiting t := by
      rintro g hg ⟨t, rfl⟩; cases hg
    have := h.barrierGc
    rw [iff_false_right (hw hold)] at this
    exact (iff_false_right (hw hnew)).mpr this
  barrierMutator := h.barrierMutator
  empty hc := absurd hc hsleep
  walked := h.walked
  fresh _ u hu _ := h.fresh hawake u hu (by simp [hold])
  paired := h.paired

theorem inv_gcLoadHead {s : State σ} (h : Inv s) (hgc : s.gc = .started) :
    Inv { s with gc := .visiting s.thread_list, head := s.thread_list } := by
  refine inv_gcMove h (by simp [hgc, GcPc.target]) rfl (by simp [hgc]) (by simp)
    { h.list with
      unwalked := fun hc => by rcases hc with hc | hc <;> cases hc
      released := fun u hu => by cases hu
      ahead := ?_ }
  intro hd hup
  obtain rfl : s.thread_list = hd := by simpa [GcPc.upcoming] using hup
  obtain ⟨l, hl, hb⟩ := h.list.list
  have hwalked : s.walked = [] := h.list.unwalked (Or.inr hgc)
  exact ⟨l, by simpa [hwalked] using hl, hl.head, hb⟩

theorem inv_gcNext {s : State σ} (h : Inv s) {t : Tid} (hgc : s.gc = .released t) :
    Inv { s with gc := .visiting (s.next t) } :=
  inv_gcMove h (by simp [hgc, GcPc.target]) rfl (by simp [hgc]) (by simp)
    (h.list.frame (fun _ _ => rfl) (fun _ hb => hb) h.list.unlinked rfl rfl rfl
      (fun hc => by rcases hc with hc | hc <;> cases hc) (fun u hu => by cases hu)
      fun _ hup => by rw [hgc]; exact hup)

theorem inv_gcLoopEnd {s : State σ} (h : Inv s) (hgc : s.gc = .visiting none) :
    Inv { s with gc := .scanHeap } :=
  inv_gcMove h (by simp [hgc, GcPc.target]) rfl (by simp [hgc]) (by simp)
    (h.list.frame (fun _ _ => rfl) (fun _ hb => hb) h.list.unlinked rfl rfl rfl
      (fun hc => by rcases hc with hc | hc <;> cases hc) (fun u hu => by cases hu)
      fun _ hup => by rw [hgc]; exact hup)

theorem inv_aborted {s : State σ} (h : Inv s) {t : Tid} (hgc : s.gc = .visiting (some t)) :
    Inv { s with gc := .aborted } :=
  inv_gcMove h (by simp [hgc, GcPc.target]) rfl (by simp [hgc]) (by simp)
    (h.list.frame (fun _ _ => rfl) (fun _ hb => hb) h.list.unlinked rfl rfl rfl
      (fun hc => by rcases hc with hc | hc <;> cases hc) (fun u hu => by cases hu)
      fun _ hup => by cases hup)

theorem inv_gcScan {s : State σ} (h : Inv s) (hgc : s.gc = .scanHeap) :
    Inv { s with gc := .sleeping, queue := [], walked := [] } where
  list :=
    { unlinked := h.list.unlinked
      list := h.list.list
      unwalked := fun _ => rfl
      begun := fun u hu => by simp at hu
      released := fun u hu => by cases hu
      ahead := fun hd hup => by cases hup }
  quiet u _ := h.quiet u (by simp [hgc, GcPc.target])
  target u hu := by cases hu
  signalled u hu := by cases hu
  barrierGc := by simpa [hgc] using h.barrierGc
  barrierMutator := h.barrierMutator
  empty _ := rfl
  walked u hu := by simp at hu
  fresh hc := absurd rfl hc
  paired := h.paired

theorem inv_signal {s : State σ} (h : Inv s) {t : Tid} (hgc : s.gc = .visiting (some t)) :
    Inv ({ s with gc := .signalled t, last_signalled := some t }.upd t fun th =>
      { th with pending := true }) := by
  have hnone : ∀ u, s.gc.target ≠ some u := by simp [hgc, GcPc.target]
  have hup : s.gc.upcoming s.next = some (some t) := by rw [hgc]; rfl
  have hq := h.quiet t (hnone t)
  have hu := h.fresh (by simp [hgc]) t (h.list.not_walked hup) (hnone t)
  have hphase : Phase s.live_mark_value s.queue t { s.threads t with pending := true } :=
    .signalled rfl hq.calm hq.tail hq.met ⟨hu.scans, hu.pushed⟩
  exact
    { list := h.list.frame
        (forall_upd (P := fun u th => (s.threads u).pc.begun = true → th.next = s.next u)
          (fun _ => rfl) fun _ _ _ => rfl)
        (forall_upd (P := fun u th => (s.threads u).pc.begun = true → th.pc.begun = true)
          (fun hb => hb) fun _ _ hb => hb)
        (forall_upd (P := fun _ th => th.pc.begun = false → th.pc = .outside ∨ th.next = none)
          (h.list.unlinked t) fun u _ => h.list.unlinked u)
        rfl rfl rfl (fun hc => by rcases hc with hc | hc <;> cases hc)
        (fun u hu => by cases hu) fun _ hup' => by rw [hup]; exact hup'
      quiet := forall_upd (P := fun u th => (GcPc.signalled t).target ≠ some u → Quiet th)
        (fun hne => absurd rfl hne) fun u _ _ => h.quiet u (hnone u)
      target := forall_upd
        (P := fun u th => (GcPc.signalled t).target = some u →
          Phase s.live_mark_value s.queue u th)
        (fun _ => hphase) fun u hut hc => absurd (Option.some.inj hc).symm hut
      signalled := fun u hu => hu
      barrierGc := by simpa [hgc] using h.barrierGc
      barrierMutator := forall_upd
        (P := fun u th => s.barrier = some (.mutator u) ↔ th.pc = .waiting)
        (h.barrierMutator t) fun u _ => h.barrierMutator u
      empty := fun hc => by cases hc
      walked := forall_upd
        (P := fun u th => u ∈ s.walked → Scanned s.live_mark_value s.queue u th)
        (fun hmem => absurd hmem (h.list.not_walked hup)) fun u _ => h.walked u
      fresh := fun _ => forall_upd
        (P := fun u th => u ∉ s.walked → (GcPc.signalled t).target ≠ some u →
          Untouched s.queue u th)
        (fun _ hne => absurd rfl hne)
        fun u _ hw _ => h.fresh (by simp [hgc]) u hw (hnone u)
      paired := h.paired }

/-! ### The barrier -/

/-- The collector and thread `t` leave the barrier together. -/
def State.meet (s : State σ) (t : Tid) (first second : Party) : State σ :=
  { s with
    gc := .released t, walked := s.walked ++ [t], barrier := none,
    rendezvous :=
      { first, second, signalled := s.last_signalled } :: s.rendezvous }.upd t fun th =>
    { th with pc := .released, met := th.met + 1 }

theorem inv_meet {s : State σ} (h : Inv s) {t : Tid} (htgt : s.gc.target = some t)
    (hscanned : Scanned s.live_mark_value s.queue t (s.threads t))
    (hpending : (s.threads t).pending = false)
    (hmet : (s.threads t).handled = (s.threads t).met + 1) {first second : Party}
    (hpair : (first = .gc ∧ second = .mutator t) ∨ (first = .mutator t ∧ second = .gc)) :
    Inv (s.meet t first second) := by
  obtain ⟨rest, hl, hb, hrest⟩ := h.list.ahead_cons (upcoming_of_target s.next htgt)
  have hne : ∀ u, u ≠ t → s.gc.target ≠ some u := by
    rintro u hut hu
    exact hut (by simpa [htgt] using hu.symm)
  have hawake : s.gc ≠ .sleeping := by
    intro hc; rw [hc] at htgt; cases htgt
  have hnext : (s.meet t first second).next = s.next := by
    funext u
    by_cases hut : u = t
    · subst hut; simp [State.next, State.meet]
    · simp [State.next, State.meet, hut]
  have hbegun : ∀ u, (s.threads u).pc.begun = true →
      ((s.meet t first second).threads u).pc.begun = true :=
    forall_upd (P := fun u th => (s.threads u).pc.begun = true → th.pc.begun = true)
      (fun _ => rfl) fun _ _ hb => hb
  refine
    { list := ?_
      quiet := forall_upd (P := fun u th => (GcPc.released t).target ≠ some u → Quiet th)
        (fun _ => ⟨hpending, rfl, fun _ => rfl, hmet⟩) fun u hut _ => h.quiet u (hne u hut)
      target := fun u hu => by cases hu
      signalled := fun u hu => by cases hu
      barrierGc := ⟨fun hc => (by cases hc), fun ⟨u, hc⟩ => (by cases hc)⟩
      barrierMutator := forall_upd
        (P := fun u th => none = some (Party.mutator u) ↔ th.pc = .waiting) (by simp)
        fun u hut => ?_
      empty := fun hc => by cases hc
      walked := forall_upd
        (P := fun u th => u ∈ s.walked ++ [t] → Scanned s.live_mark_value s.queue u th)
        (fun _ => ⟨hscanned.scans, hscanned.pushed, hscanned.mark⟩)
        fun u hut hu => h.walked u (by simpa [hut] using hu)
      fresh := fun _ => forall_upd
        (P := fun u th => u ∉ s.walked ++ [t] → (GcPc.released t).target ≠ some u →
          Untouched s.queue u th)
        (fun hu => absurd (by simp) hu)
        fun u hut hu _ => h.fresh hawake u (by simp at hu; exact hu.1) (hne u hut)
      paired := ?_ }
  · refine
      { unlinked := forall_upd
          (P := fun _ th => th.pc.begun = false → th.pc = .outside ∨ th.next = none)
          (fun hc => by cases hc) fun u _ => h.list.unlinked u
        list := ?_
        unwalked := fun hc => by rcases hc with hc | hc <;> cases hc
        begun := ?_
        released := fun u hu => ?_
        ahead := ?_ }
    · obtain ⟨l, hl', hb'⟩ := h.list.list
      exact ⟨l, by rw [hnext]; exact hl', fun u hu => hbegun u (hb' u hu)⟩
    · intro u hu
      refine hbegun u ?_
      rcases List.mem_append.mp (show u ∈ s.walked ++ [t] from hu) with hu | hu
      · exact h.list.begun u hu
      · obtain rfl : u = t := by simpa using hu
        exact hb
    · obtain rfl : t = u := by injection (show GcPc.released t = .released u from hu)
      exact List.mem_append.mpr (Or.inr (by simp))
    · intro hd hup
      rw [hnext] at hup
      obtain rfl : s.next t = hd := by injection (show some (s.next t) = some hd from hup)
      obtain ⟨_, hcons, htail⟩ := hl.suffix.tail
      obtain ⟨-, rfl⟩ := List.cons.inj hcons
      refine ⟨rest, ?_, htail.head, fun u hu => hbegun u (hrest u hu)⟩
      rw [hnext]
      show Linked s.next s.head ((s.walked ++ [t]) ++ rest)
      simpa using hl
  · have hcalm : (s.threads u).pc.calm = true := (h.quiet u (hne u hut)).calm
    constructor
    · intro hc; cases hc
    · intro hc
      rw [hc] at hcalm
      cases hcalm
  · intro r hr
    rcases List.mem_cons.mp hr with rfl | hr
    · exact ⟨t, h.signalled t htgt, hpair⟩
    · exact h.paired r hr

/-- A mutator that has queued its roots either waits for the collector or meets it. -/
theorem arrive_cases {s : State σ} (h : Inv s) {t : Tid} (hpc : (s.threads t).pc = .scanning []) :
    (s.gc = .signalled t ∧ s.barrier = none ∧
      safepointBarrierWait s (.mutator t) =
        { s with barrier := some (.mutator t) }.upd t fun th => { th with pc := .waiting }) ∨
    (s.gc = .waiting t ∧
      safepointBarrierWait s (.mutator t) = s.meet t .gc (.mutator t)) := by
  have htgt : s.gc.target = some t := h.target_of_not_calm (by simp [hpc, Pc.calm])
  cases hgc : s.gc with
  | signalled u =>
      obtain rfl : u = t := by simpa [hgc, GcPc.target] using htgt
      have hbar : s.barrier = none := by
        cases hb : s.barrier with
        | none => rfl
        | some p =>
            cases p with
            | gc => obtain ⟨v, hv⟩ := h.barrierGc.mp hb; simp [hgc] at hv
            | mutator v =>
                have hv := (h.barrierMutator v).mp hb
                have : s.gc.target = some v := h.target_of_not_calm (by simp [hv, Pc.calm])
                obtain rfl : u = v := by simpa [htgt] using this
                simp [hpc] at hv
      exact Or.inl ⟨rfl, hbar, by simp [safepointBarrierWait, hbar, block, hgc]⟩
  | waiting u =>
      obtain rfl : u = t := by simpa [hgc, GcPc.target] using htgt
      have hbar : s.barrier = some .gc := h.barrierGc.mpr ⟨u, hgc⟩
      exact Or.inr ⟨rfl, by simp [safepointBarrierWait, hbar, release, hgc, State.meet]⟩
  | _ => simp [hgc, GcPc.target] at htgt

theorem inv_arrive {s : State σ} (h : Inv s) {t : Tid} (hpc : (s.threads t).pc = .scanning []) :
    Inv (safepointBarrierWait s (.mutator t)) := by
  have htgt : s.gc.target = some t := h.target_of_not_calm (by simp [hpc, Pc.calm])
  have hne : ∀ u, u ≠ t → s.gc.target ≠ some u := by
    rintro u hut hu
    exact hut (by simpa [htgt] using hu.symm)
  cases h.target t htgt with
  | signalled _ calm => simp [hpc, Pc.calm] at calm
  | handled _ calm => simp [hpc, Pc.calm] at calm
  | arrived pc => simp [hpc] at pc
  | lost _ calm => simp [hpc, Pc.calm] at calm
  | scanning rest pc pending flag met mark scans pushed =>
      obtain ⟨done, hfound, hpushed⟩ := pushed
      obtain rfl : rest = [] := by simpa [hpc] using pc.symm
      have hscanned : Scanned s.live_mark_value s.queue t (s.threads t) :=
        ⟨scans, by simpa [hfound] using hpushed, mark⟩
      rcases arrive_cases h hpc with ⟨hgc, hbar, heq⟩ | ⟨hgc, heq⟩
      · rw [heq]
        exact
          { list := h.list.frame
              (forall_upd (P := fun u th => (s.threads u).pc.begun = true → th.next = s.next u)
                (fun _ => rfl) fun _ _ _ => rfl)
              (forall_upd
                (P := fun u th => (s.threads u).pc.begun = true → th.pc.begun = true)
                (fun _ => rfl) fun _ _ hb => hb)
              (forall_upd
                (P := fun _ th => th.pc.begun = false → th.pc = .outside ∨ th.next = none)
                (fun hb => by cases hb) fun u _ => h.list.unlinked u)
              rfl rfl rfl h.list.unwalked h.list.released fun _ hup => hup
            quiet := forall_upd (P := fun u th => s.gc.target ≠ some u → Quiet th)
              (fun hc => absurd htgt hc) fun u _ => h.quiet u
            target := forall_upd
              (P := fun u th => s.gc.target = some u →
                Phase s.live_mark_value s.queue u th)
              (fun _ => .arrived rfl pending flag met
                ⟨hscanned.scans, hscanned.pushed, hscanned.mark⟩)
              fun u hut hu => absurd hu (hne u hut)
            signalled := h.signalled
            barrierGc := ⟨fun hc => (by cases hc), fun ⟨u, hc⟩ => by
              have : s.gc = .waiting u := hc
              simp [hgc] at this⟩
            barrierMutator := forall_upd
              (P := fun u th => some (Party.mutator t) = some (Party.mutator u) ↔
                th.pc = .waiting) (by simp)
              fun u hut => ⟨fun hc => absurd (by simpa using hc.symm) hut,
                fun hc => absurd (h.target_of_not_calm (by
                  rw [show (s.threads u).pc = .waiting from hc]; rfl)) (hne u hut)⟩
            empty := fun hc => by
              rw [show s.gc = .sleeping from hc] at hgc
              cases hgc
            walked := forall_upd
              (P := fun u th => u ∈ s.walked → Scanned s.live_mark_value s.queue u th)
              (fun hu => absurd hu (h.target_not_walked htgt)) fun u _ => h.walked u
            fresh := fun hc => forall_upd
              (P := fun u th => u ∉ s.walked → s.gc.target ≠ some u →
                Untouched s.queue u th)
              (fun _ hu => absurd htgt hu) fun u _ => h.fresh hc u
            paired := h.paired }
      · rw [heq]
        exact inv_meet h htgt hscanned pending met (Or.inl ⟨rfl, rfl⟩)

/-- The collector either waits for the thread it signalled or meets it. -/
theorem gcArrive_cases {s : State σ} (h : Inv s) {t : Tid} (hgc : s.gc = .signalled t) :
    (s.barrier = none ∧
      safepointBarrierWait s .gc = { s with gc := .waiting t, barrier := some .gc }) ∨
    ((s.threads t).pc = .waiting ∧
      safepointBarrierWait s .gc = s.meet t (.mutator t) .gc) := by
  cases hb : s.barrier with
  | none => exact Or.inl ⟨rfl, by simp [safepointBarrierWait, hb, block, hgc]⟩
  | some p =>
      cases p with
      | gc => obtain ⟨v, hv⟩ := h.barrierGc.mp hb; simp [hgc] at hv
      | mutator v =>
          have hv := (h.barrierMutator v).mp hb
          have htgt : s.gc.target = some v := h.target_of_not_calm (by simp [hv, Pc.calm])
          obtain rfl : t = v := by simpa [hgc, GcPc.target] using htgt
          exact Or.inr ⟨hv, by simp [safepointBarrierWait, hb, release, hgc, State.meet,
            State.upd]⟩

theorem inv_gcArrive {s : State σ} (h : Inv s) {t : Tid} (hgc : s.gc = .signalled t) :
    Inv (safepointBarrierWait s .gc) := by
  have htgt : s.gc.target = some t := by simp [hgc, GcPc.target]
  rcases gcArrive_cases h hgc with ⟨hbar, heq⟩ | ⟨hpc, heq⟩
  · rw [heq]
    exact
      { list := h.list.frame (fun _ _ => rfl) (fun _ hb => hb) h.list.unlinked rfl rfl rfl
          (fun hc => by rcases hc with hc | hc <;> cases hc) (fun u hu => by cases hu)
          fun _ hup => by rw [hgc]; exact hup
        quiet := fun u hu => h.quiet u (by rw [hgc]; exact hu)
        target := fun u hu => h.target u (by rw [hgc]; exact hu)
        signalled := fun u hu => h.signalled u (by rw [hgc]; exact hu)
        barrierGc := ⟨fun _ => ⟨t, rfl⟩, fun _ => rfl⟩
        barrierMutator := fun u =>
          ⟨fun hc => (by cases hc), fun hc => by
            have := (h.barrierMutator u).mpr hc
            rw [hbar] at this
            cases this⟩
        empty := fun hc => by cases hc
        walked := h.walked
        fresh := fun _ u hw hu => h.fresh (by simp [hgc]) u hw (by rw [hgc]; exact hu)
        paired := h.paired }
  · rw [heq]
    cases h.target t htgt with
    | signalled _ calm => simp [hpc, Pc.calm] at calm
    | handled _ calm => simp [hpc, Pc.calm] at calm
    | scanning rest pc => simp [hpc] at pc
    | lost _ calm => simp [hpc, Pc.calm] at calm
    | arrived _ pending _ met scanned =>
        exact inv_meet h htgt scanned pending met (Or.inr ⟨rfl, rfl⟩)

/-! ### Every reachable state -/

theorem atRest_inv {s : State σ} (h : AtRest s) : Inv s := by
  have hnone : s.gc.target = none := by rw [h.gc]; rfl
  have hfresh : ∀ u, ∃ pc next mark, s.threads u = Thread.fresh pc next mark ∧
      (pc = .running ∨ pc = .outside) := h.threads
  refine
    { list :=
        { unlinked := fun u _ => ?_
          list := ?_
          unwalked := fun _ => h.walked
          begun := fun u hu => by simp [h.walked] at hu
          released := fun u hu => by simp [h.gc] at hu
          ahead := fun hd hup => by rw [h.gc] at hup; cases hup }
      quiet := fun u _ => ?_
      target := fun u hu => by simp [hnone] at hu
      signalled := fun u hu => by simp [hnone] at hu
      barrierGc := by simp [h.barrier, h.gc]
      barrierMutator := fun u => ?_
      empty := fun _ => h.queue
      walked := fun u hu => by simp [h.walked] at hu
      fresh := fun hc => absurd h.gc hc
      paired := fun r hr => by simp [h.rendezvous] at hr }
  · obtain ⟨pc, next, mark, heq, hpc⟩ := hfresh u
    rcases hpc with rfl | rfl <;> simp_all [Thread.fresh, Pc.begun]
  · obtain ⟨l, hl, hmem⟩ := h.list
    exact ⟨l, hl, fun u hu => Pc.begun_of_live ((hmem u).mp hu)⟩
  · obtain ⟨pc, next, mark, heq, hpc⟩ := hfresh u
    rw [heq]
    rcases hpc with rfl | rfl <;> exact ⟨rfl, rfl, by simp [Thread.fresh], rfl⟩
  · obtain ⟨pc, next, mark, heq, hpc⟩ := hfresh u
    rcases hpc with rfl | rfl <;> simp [h.barrier, heq, Thread.fresh]

/-- **One step of any thread, handler or collector keeps the invariant.** -/
theorem step_inv {s s' : State σ} (h : Inv s) (i : Label σ) (hs : next s i = some s') :
    Inv s' := by
  cases next_effect hs with
  | prepare hpc => exact inv_prepare h _ hpc
  | loadHead hpc => exact inv_attaching h _ (by simp [hpc, Pc.begun]) (by simp [hpc]) rfl
  | swapped hpc => exact inv_swapHead h hpc
  | retry hpc => exact inv_attaching h _ (by simp [hpc, Pc.begun]) (by simp [hpc]) rfl
  | scan hpc hflag => exact inv_scan h _ hpc hflag
  | pass => exact h
  | queueSegment hpc => exact inv_queueSegment h hpc
  | arrive hpc => exact inv_arrive h hpc
  | clear hpc => exact inv_clear h hpc
  | handle hpending => exact inv_handle h hpending
  | finish hpc => exact inv_finish h hpc
  | periodStart hgc => exact inv_periodStart h hgc
  | gcLoadHead hgc => exact inv_gcLoadHead h hgc
  | signal hgc => exact inv_signal h hgc
  | abort hgc => exact inv_aborted h hgc
  | gcArrive hgc => exact inv_gcArrive h hgc
  | gcNext hgc => exact inv_gcNext h hgc
  | gcLoopEnd hgc => exact inv_gcLoopEnd h hgc
  | gcScan hgc => exact inv_gcScan h hgc

theorem inv_of_reachable {s : State σ} (h : Reachable (protocol σ) s) : Inv s :=
  h.invariant (I := Inv) (fun _ h0 => atRest_inv h0) fun _ i _ hi hs => step_inv hi i hs

end Pup.Threads
