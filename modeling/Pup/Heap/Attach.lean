/-
The list the collector walks.

`attach_thread_to_heap` swings `thread_list` from the old head to the new record
without linking the record to the old head, and nothing ever takes a record off
the list.  So the list is right as long as a thread only ever attaches to an empty
list and no attached thread finishes, and `listedExactly_states_iff` says that this
is exactly how long it is right.
-/
import Pup.Heap.Handshake

namespace Pup.Threads

open Transition Chain

variable {σ : Type}

/-- `thread_list` holds the threads that have attached and still run, each once. -/
def ListedExactly (s : State σ) : Prop :=
  ∃ l, Linked s.next s.thread_list l ∧ l.Nodup ∧ ∀ t, t ∈ l ↔ (s.threads t).pc.live = true

/-- The step does not attach to a list that has a head, nor end an attached thread. -/
def KeepsList (s : State σ) : Label σ → Prop
  | .swapHead t => (s.threads t).pc = .loaded s.thread_list → s.thread_list = none
  | .finish t => (s.threads t).pc.live = false
  | _ => True

/-- Steps that touch neither the list nor who is attached do not matter. -/
theorem ListedExactly.congr {s s' : State σ} (h : ListedExactly s)
    (hlist : s'.thread_list = s.thread_list)
    (hnext : ∀ u, (s.threads u).pc.live = true → s'.next u = s.next u)
    (hlive : ∀ u, (s'.threads u).pc.live = (s.threads u).pc.live) : ListedExactly s' := by
  obtain ⟨l, hl, hnodup, hmem⟩ := h
  refine ⟨l, ?_, hnodup, fun t => by rw [hlive t]; exact hmem t⟩
  rw [hlist]
  exact hl.congr fun u hu => hnext u ((hmem u).mp hu)

theorem ListedExactly.upd {s₀ s : State σ} (h : ListedExactly s₀)
    (hthreads : s.threads = s₀.threads) (hlist : s.thread_list = s₀.thread_list) {t : Tid}
    {f : Thread σ → Thread σ}
    (hnext : (s.threads t).pc.live = true → (f (s.threads t)).next = s.next t)
    (hlive : (f (s.threads t)).pc.live = (s.threads t).pc.live) : ListedExactly (s.upd t f) := by
  refine h.congr hlist ?_ ?_
  · exact forall_upd (P := fun u th => (s₀.threads u).pc.live = true → th.next = s₀.next u)
      (by rw [State.next, ← hthreads]; exact hnext) fun u _ _ => by rw [hthreads]
  · exact forall_upd (P := fun u th => th.pc.live = (s₀.threads u).pc.live)
      (by rw [← hthreads]; exact hlive) fun u _ => by rw [hthreads]

theorem listedExactly_meet {s : State σ} (h : ListedExactly s) {t : Tid}
    (hpc : (s.threads t).pc.live = true) (first second : Party) :
    ListedExactly (s.meet t first second) := by
  unfold State.meet
  exact h.upd (by rfl) (by rfl) (fun _ => rfl) hpc.symm

/-- After a successful compare-and-swap the new thread is alone on the list. -/
theorem listedExactly_swapHead {s : State σ} (hinv : Inv s) (h : ListedExactly s) {t : Tid}
    (hpc : (s.threads t).pc = .loaded s.thread_list) :
    ListedExactly ({ s with thread_list := some t }.upd t fun th => { th with pc := .running }) ↔
      s.thread_list = none := by
  have hnext : s.next t = none :=
    (hinv.list.unlinked t (by rw [hpc]; rfl)).resolve_left (by simp [hpc])
  have hlinked : Linked
      ({ s with thread_list := some t }.upd t fun th => { th with pc := .running }).next
      (some t) [t] := by
    refine .cons ?_
    simp only [State.next, upd_threads, if_pos]
    rw [show (s.threads t).next = none from hnext]
    exact .nil
  obtain ⟨l, hl, -, hmem⟩ := h
  constructor
  · rintro ⟨l', hl', -, hmem'⟩
    obtain rfl : [t] = l' := hlinked.unique hl'
    -- whoever heads the old list is attached, but not on the new one
    cases hhead : s.thread_list with
    | none => rfl
    | some u =>
        obtain ⟨rest, rfl, -⟩ := (hhead ▸ hl).tail
        have hu : (s.threads u).pc.live = true := (hmem u).mp (by simp)
        have hut : u ≠ t := by
          rintro rfl
          simp [hpc, Pc.live] at hu
        have := (hmem' u).mpr (by simpa [hut] using hu)
        simp [hut] at this
  · intro hnone
    obtain rfl : l = [] := Linked.nil_iff.mp (hnone ▸ hl)
    refine ⟨[t], hlinked, by simp, forall_upd
      (P := fun u th => u ∈ [t] ↔ th.pc.live = true) (by simp [Pc.live]) fun u hut => ?_⟩
    have := hmem u
    simp only [List.not_mem_nil, false_iff] at this
    simpa [hut] using this

/-- Of the list only the records of attached threads matter, so a thread that ends upsets it
exactly if it was attached. -/
theorem listedExactly_finish {s : State σ} (h : ListedExactly s) {t : Tid} :
    ListedExactly (s.upd t fun th => { th with pc := .finished }) ↔
      (s.threads t).pc.live = false := by
  constructor
  · rintro ⟨l', hl', -, hmem'⟩
    by_contra hlive
    obtain ⟨l, hl, -, hmem⟩ := h
    have hsame : Linked (s.upd t fun th => { th with pc := .finished }).next s.thread_list l :=
      hl.congr fun u _ => forall_upd (P := fun u th => th.next = s.next u) rfl (fun _ _ => rfl) u
    obtain rfl : l = l' := hsame.unique hl'
    have := (hmem' t).mp ((hmem t).mpr (by simpa using hlive))
    simp [Pc.live] at this
  · intro hlive
    exact h.upd (by rfl) (by rfl) (fun _ => rfl) (by rw [hlive]; rfl)

/-- **A step keeps the list right exactly if it meets `KeepsList`.** -/
theorem listedExactly_step {s s' : State σ} (hinv : Inv s) (h : ListedExactly s) (i : Label σ)
    (hs : next s i = some s') : ListedExactly s' ↔ KeepsList s i := by
  have hkeep : ListedExactly s' → KeepsList s i → (ListedExactly s' ↔ KeepsList s i) :=
    fun h' hi => ⟨fun _ => hi, fun _ => h'⟩
  cases next_effect hs with
  | prepare hpc =>
      refine hkeep (h.upd (by rfl) (by rfl) (fun hl => ?_) (by simp [hpc, Pc.live])) trivial
      simp [hpc, Pc.live] at hl
  -- the thread goes on, and was attached or not before
  | loadHead hpc | scan hpc | queueSegment hpc | clear hpc =>
      exact hkeep (h.upd (by rfl) (by rfl) (fun _ => rfl) (by simp [hpc, Pc.live])) trivial
  | swapped hpc =>
      rw [listedExactly_swapHead hinv h hpc]
      exact ⟨fun hn _ => hn, fun hk => hk hpc⟩
  | retry hpc hne =>
      refine hkeep (h.upd (by rfl) (by rfl) (fun _ => rfl) (by simp [hpc, Pc.live])) ?_
      intro hc
      simp [hpc] at hc
      exact absurd hc.symm hne
  | arrive hpc =>
      refine hkeep ?_ trivial
      rcases arrive_cases hinv hpc with ⟨-, -, heq⟩ | ⟨-, heq⟩
      · rw [heq]
        exact h.upd (by rfl) (by rfl) (fun _ => rfl) (by simp [hpc, Pc.live])
      · rw [heq]
        exact listedExactly_meet h (by rw [hpc]; rfl) _ _
  | handle | signal => exact hkeep (h.upd (by rfl) (by rfl) (fun _ => rfl) (by rfl)) trivial
  | finish => exact listedExactly_finish h
  | periodStart => exact hkeep (h.congr rfl (fun _ _ => rfl) fun _ => rfl) trivial
  | gcArrive hgc =>
      refine hkeep ?_ trivial
      rcases gcArrive_cases hinv hgc with ⟨-, heq⟩ | ⟨hpc, heq⟩
      · rw [heq]
        exact h
      · rw [heq]
        exact listedExactly_meet h (by rw [hpc]; rfl) _ _
  -- no more than the collector's own place in its loop changes
  | pass | gcLoadHead | abort | gcNext | gcLoopEnd | gcScan => exact hkeep h trivial

theorem listedExactly_heapInit : ListedExactly (heapInit σ) := by
  obtain ⟨l, hl, hmem⟩ := (heapInit_atRest (σ := σ)).list
  exact ⟨l, hl, hl.nodup, hmem⟩

/-- A run from `pup_heap_init` is a run from a heap at rest. -/
theorem inv_of_heapMachine {s : State σ} (h : Reachable (heapMachine σ) s) : Inv s := by
  refine h.invariant (I := Inv) ?_ fun _ i _ hi hs => step_inv hi i hs
  rintro _ rfl
  exact atRest_inv heapInit_atRest

/--
**The list holds exactly the attached running threads in every state of a run
precisely if every thread of the run attached to an empty list and none that
attached has finished.**
-/
theorem listedExactly_states_iff {tr : List (State σ × Label σ)} {s : State σ}
    (h : Trace (heapMachine σ) tr s) :
    ((∀ p ∈ tr, ListedExactly p.1) ∧ ListedExactly s) ↔ ∀ p ∈ tr, KeepsList p.1 p.2 := by
  refine h.states_iff (I := Inv) (fun _ hr => inv_of_heapMachine hr) ?_
    fun _ i _ hi hP hs => listedExactly_step hi hP i hs
  rintro _ rfl
  exact listedExactly_heapInit

/-- `pup_heap_thread_init` of one thread, undisturbed. -/
def attach (t : Tid) : List (Label Nat) := [.prepare t 0, .loadHead t, .swapHead t]

theorem listedExactly_states_iff_one :
    ∃ s : State Nat, s.thread_list = some 0 ∧
      (((∀ p ∈ (heapMachine Nat).path (heapInit Nat) (attach 0), ListedExactly p.1) ∧
          ListedExactly s) ↔
        ∀ p ∈ (heapMachine Nat).path (heapInit Nat) (attach 0), KeepsList p.1 p.2) :=
  ⟨_, rfl, listedExactly_states_iff
    (trace_of_run (M := heapMachine Nat) (s := heapInit Nat) rfl (attach 0) rfl)⟩

/-- The second thread to attach pushes the first one off the list. -/
theorem second_attach_drops_first :
    ¬ ∀ s : State Nat, Reachable (heapMachine Nat) s → ListedExactly s := by
  intro hall
  have hrun : Reachable (heapMachine Nat) _ :=
    reachable_of_run (s := heapInit Nat) rfl (attach 0 ++ attach 1) rfl
  obtain ⟨l, hl, -, hmem⟩ := hall _ hrun
  have h0 : 0 ∈ l := (hmem 0).mpr (by decide)
  obtain rfl : l = [1] := hl.unique (.cons .nil)
  simp at h0

end Pup.Threads
