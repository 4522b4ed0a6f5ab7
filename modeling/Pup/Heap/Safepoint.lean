/-
What the safepoint handshake gives, over every interleaving.

The collector gets what it needs whenever it leaves its loop.  What can go wrong is
that it never does: a mutator that clears `gc_waiting` wipes out a signal its
handler took in the tail of the previous safepoint, and nobody sends another.
`noneLost_states_iff` says this is the only way a handshake is lost.
-/
import Pup.Heap.Handshake

namespace Pup.Threads

open Transition Chain

variable {σ : Type}

/-! ### What the collector may rely on when it leaves its loop -/

/--
**At `pup_gc_scan_heap` every thread on the list that was walked has scanned its
stack once, everything it found is on the queue, and it allocates with the live
mark; and no barrier release has paired anyone but the collector and the thread it
had just signalled.**
-/
theorem walked_threads_scanned {s : State σ} (h : Reachable (protocol σ) s) :
    (s.gc = .scanHeap →
      ∃ l, Linked s.next s.head l ∧ ∀ t ∈ l,
        (s.threads t).scans = 1 ∧ (∀ rest, (s.threads t).pc ≠ .scanning rest) ∧
        pushedBy s.queue t = (s.threads t).found.reverse ∧
        (s.threads t).current_gc_mark = s.live_mark_value.toNat) ∧
    ∀ r ∈ s.rendezvous, r.Paired := by
  have hinv := inv_of_reachable h
  refine ⟨fun hgc => ?_, hinv.paired⟩
  obtain ⟨rest, hl, hhead, -⟩ := hinv.list.ahead none (by rw [hgc]; rfl)
  obtain rfl : rest = [] := by simpa using hhead.symm
  refine ⟨s.walked, by simpa using hl, fun t ht => ?_⟩
  have hs := hinv.walked t ht
  refine ⟨hs.scans, fun rest hpc => ?_, hs.pushed, hs.mark⟩
  have := (hinv.quiet t (by simp [hgc, GcPc.target])).calm
  simp [hpc, Pc.calm] at this

/-- Two threads on the list, at rest. -/
def pairAtRest : State Nat :=
  { heapInit Nat with
    threads := fun t =>
      if t = 0 then Thread.fresh .running (some 1) 0
      else if t = 1 then Thread.fresh .running none 0
      else Thread.fresh .outside none 0
    thread_list := some 0 }

theorem pairAtRest_atRest : AtRest pairAtRest := by
  refine ⟨rfl, rfl, rfl, rfl, rfl, fun t => ?_, [0, 1], .cons (.cons .nil), fun t => ?_⟩
  · by_cases h0 : t = 0
    · exact ⟨_, _, _, by simp [pairAtRest, h0]; rfl, Or.inl rfl⟩
    by_cases h1 : t = 1
    · exact ⟨_, _, _, by simp [pairAtRest, h1]; rfl, Or.inl rfl⟩
    · exact ⟨_, _, _, by simp [pairAtRest, h0, h1]; rfl, Or.inr rfl⟩
  · by_cases h0 : t = 0
    · simp [pairAtRest, h0, Thread.fresh, Pc.live]
    by_cases h1 : t = 1
    · simp [pairAtRest, h1, Thread.fresh, Pc.live]
    · simp [pairAtRest, h0, h1, Thread.fresh, Pc.live]

/-- One thread answers the signal the collector has sent it. -/
def answer (t : Tid) (seg : Nat) : List (Label Nat) :=
  [.signal, .handle t, .safepoint t [seg], .queueSegment t, .arrive t, .gcArrive, .gcNext]

/-- A whole walk over the two threads. -/
def walkPair : List (Label Nat) :=
  [.periodStart, .gcLoadHead] ++ answer 0 7 ++ answer 1 8 ++ [.clear 0, .gcLoopEnd]

theorem walked_threads_scanned_pair :
    ∃ s : State Nat, s.gc = .scanHeap ∧ s.queue = [(1, 8), (0, 7)] ∧
      ∃ l, Linked s.next s.head l ∧ ∀ t ∈ l, (s.threads t).scans = 1 := by
  have hrun : Reachable (protocol Nat) _ :=
    reachable_of_run pairAtRest_atRest walkPair rfl
  obtain ⟨l, hl, hall⟩ := (walked_threads_scanned hrun).1 rfl
  exact ⟨_, rfl, rfl, l, hl, fun t ht => (hall t ht).1⟩

/-! ### When no handshake is lost -/

/-- `t` has handled a signal whose rendezvous has not happened. -/
def Outstanding (s : State σ) (t : Tid) : Prop := (s.threads t).met < (s.threads t).handled

/-- Such a thread has its flag up, or is scanning or in the barrier already. -/
def NoneLost (s : State σ) : Prop :=
  ∀ t, Outstanding s t → (s.threads t).gc_waiting = true ∨ (s.threads t).pc.calm = false

/--
A mutator that executes `gc_waiting = false` has handled no more signals than the
barrier waits it is back from: its handler has not run since the last of these.
-/
def ClearsSettled (s : State σ) (i : Label σ) : Prop :=
  ∀ t, i = .clear t → (s.threads t).handled ≤ (s.threads t).met

instance (s : State σ) (t : Tid) : Decidable (Outstanding s t) :=
  inferInstanceAs (Decidable (_ < _))

/-- One record changes, perhaps together with shared fields that do not matter here. -/
theorem noneLost_upd {s₀ s : State σ} (hP : NoneLost s₀) (hsame : s.threads = s₀.threads)
    {t : Tid} {f : Thread σ → Thread σ}
    (ht : (f (s.threads t)).met < (f (s.threads t)).handled →
      (f (s.threads t)).gc_waiting = true ∨ (f (s.threads t)).pc.calm = false) :
    NoneLost (s.upd t f) :=
  forall_upd (P := fun _ th => th.met < th.handled → th.gc_waiting = true ∨ th.pc.calm = false)
    ht fun u _ => by rw [hsame]; exact hP u

theorem not_outstanding_of_not_begun {s : State σ} (h : Inv s) {t : Tid}
    (hb : (s.threads t).pc.begun = false) : (s.threads t).met = (s.threads t).handled := by
  refine (h.quiet t fun htgt => ?_).met.symm
  have := h.target_begun htgt
  simp [hb] at this

theorem noneLost_meet {s : State σ} (hP : NoneLost s) {t : Tid}
    (hmet : (s.threads t).handled = (s.threads t).met + 1) (first second : Party) :
    NoneLost (s.meet t first second) := by
  unfold State.meet
  refine noneLost_upd hP (by rfl) fun hc => ?_
  have : (s.threads t).met + 1 < (s.threads t).handled := hc
  omega

/-- The thread the collector meets has handled its signal. -/
theorem met_of_scanned {s : State σ} (h : Inv s) {t : Tid}
    (hpc : (s.threads t).pc.calm = false) : (s.threads t).handled = (s.threads t).met + 1 := by
  cases h.target t (h.target_of_not_calm hpc) with
  | signalled _ calm => simp [hpc] at calm
  | handled _ calm => simp [hpc] at calm
  | scanning _ _ _ _ met => exact met
  | arrived _ _ _ met => exact met
  | lost _ calm => simp [hpc] at calm

theorem noneLost_finish {s : State σ} (hP : NoneLost s) {t : Tid}
    (hcalm : (s.threads t).pc.calm = true) :
    NoneLost (s.upd t fun th => { th with pc := .finished }) := by
  refine noneLost_upd hP (by rfl) fun hc => ?_
  rcases hP t hc with hflag | hc'
  · exact Or.inl hflag
  · simp [hcalm] at hc'

/-- Only an untimely `gc_waiting = false` loses a handshake: it takes the flag from a thread
that is still to scan for it. -/
theorem noneLost_clear {s : State σ} (hP : NoneLost s) {t : Tid} :
    NoneLost (s.upd t fun th => { th with pc := .running, gc_waiting := false }) ↔
      (s.threads t).handled ≤ (s.threads t).met := by
  constructor
  · intro hP'
    by_contra hout
    have := hP' t (by simpa [Outstanding] using hout)
    simp [Pc.calm] at this
  · intro hle
    exact noneLost_upd hP (by rfl) fun hc => absurd hc (Nat.not_lt.mpr hle)

/-- A step loses no handshake exactly if it is not an untimely `gc_waiting = false`. -/
theorem noneLost_step {s s' : State σ} (h : Inv s) (hP : NoneLost s) (i : Label σ)
    (hs : next s i = some s') : NoneLost s' ↔ ClearsSettled s i := by
  -- every label but `clear` meets the condition, so only `NoneLost s'` is at stake
  have hother : (∀ t, i ≠ .clear t) → NoneLost s' → (NoneLost s' ↔ ClearsSettled s i) :=
    fun hi hP' => ⟨fun _ t ht => absurd ht (hi t), fun _ => hP'⟩
  cases next_effect hs with
  | @clear t hpc =>
      rw [noneLost_clear hP]
      constructor
      · rintro hle u ⟨⟩
        exact hle
      · intro hC
        exact hC t rfl
  -- a thread that has not attached has handled no signal
  | prepare hpc | loadHead hpc | swapped hpc | retry hpc =>
      have := not_outstanding_of_not_begun h (by rw [hpc]; rfl)
      exact hother (by simp) (noneLost_upd hP (by rfl) fun hc => by simp [this] at hc)
  | scan | queueSegment => exact hother (by simp) (noneLost_upd hP (by rfl) fun _ => Or.inr rfl)
  | arrive hpc =>
      refine hother (by simp) ?_
      rcases arrive_cases h hpc with ⟨-, -, heq⟩ | ⟨-, heq⟩
      · rw [heq]
        exact noneLost_upd hP (by rfl) fun _ => Or.inr rfl
      · rw [heq]
        exact noneLost_meet hP (met_of_scanned h (by rw [hpc]; rfl)) _ _
  | handle => exact hother (by simp) (noneLost_upd hP (by rfl) fun _ => Or.inl rfl)
  | finish hpc =>
      refine hother (by simp) (noneLost_finish hP ?_)
      rcases hpc with hpc | hpc <;> rw [hpc] <;> rfl
  | @signal t => exact hother (by simp) (noneLost_upd hP (by rfl) (hP t))
  | gcArrive hgc =>
      refine hother (by simp) ?_
      rcases gcArrive_cases h hgc with ⟨-, heq⟩ | ⟨hpc, heq⟩
      · rw [heq]
        exact hP
      · rw [heq]
        exact noneLost_meet hP (met_of_scanned h (by rw [hpc]; rfl)) _ _
  -- no record of a thread changes but for what a collection counts
  | pass | periodStart | gcLoadHead | abort | gcNext | gcLoopEnd | gcScan =>
      exact hother (by simp) hP

theorem noneLost_atRest {s : State σ} (h : AtRest s) : NoneLost s := by
  intro t hout
  obtain ⟨pc, next, mark, heq, -⟩ := h.threads t
  simp [Outstanding, heq, Thread.fresh] at hout

/--
**No handshake is lost in any state of a run exactly when no mutator of the run
executes `tinfo->gc_waiting = false` after its handler has taken a signal that came
behind the barrier.**
-/
theorem noneLost_states_iff {tr : List (State σ × Label σ)} {s : State σ}
    (h : Trace (protocol σ) tr s) :
    ((∀ p ∈ tr, NoneLost p.1) ∧ NoneLost s) ↔ ∀ p ∈ tr, ClearsSettled p.1 p.2 :=
  h.states_iff (I := Inv) (fun _ hr => inv_of_reachable hr) (fun _ h0 => noneLost_atRest h0)
    fun _ i _ hi hP hs => noneLost_step hi hP i hs

/-- A second signal reaches a thread between its barrier wait and `gc_waiting = false`. -/
def lateHandler : List (Label Nat) :=
  [.periodStart, .gcLoadHead] ++ answer 0 7 ++ answer 1 8 ++
  [.gcLoopEnd, .gcScan, .periodStart, .gcLoadHead, .signal, .handle 0, .clear 0]

theorem noneLost_states_iff_pair :
    ∃ s : State Nat, s.gc = .scanHeap ∧
      (((∀ p ∈ (protocol Nat).path pairAtRest walkPair, NoneLost p.1) ∧ NoneLost s) ↔
        ∀ p ∈ (protocol Nat).path pairAtRest walkPair, ClearsSettled p.1 p.2) :=
  ⟨_, rfl, noneLost_states_iff (trace_of_run pairAtRest_atRest walkPair rfl)⟩

/-- Thread 0 has handled the signal of the second collection and will never act on it. -/
theorem late_handler_loses_handshake :
    ¬ ∀ s : State Nat, Reachable (protocol Nat) s → NoneLost s := by
  intro hall
  have hrun : Reachable (protocol Nat) _ := reachable_of_run pairAtRest_atRest lateHandler rfl
  have := hall _ hrun 0 (by decide)
  revert this
  decide

end Pup.Threads
