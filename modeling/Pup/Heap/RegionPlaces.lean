/-
Every region is in one place.

A step either leaves all regions where they are or moves one record: in at
`allocate`, from the hand of a thread to the list, from the list to the collector,
and out at `gcFree`.  Making a new region the local one moves two.  So one invariant,
`Inv`, says who holds what and that exactly what is held is allocated and mapped, and
each step is an instance of `Moved` or of no movement at all.

The list needs no protection against reused addresses: only the collector takes
records off it, so the record it has loaded stays on it, with the same `next`, until
the collector itself has swapped the head.
-/
import Pup.Heap.Regions

namespace Pup.Regions

open Transition Chain Ownership

/-- What holds of every reachable state, with `l` the list from `region_list`. -/
structure Inv (s : State) (l : List Rec) : Prop where
  linked : Linked s.next s.region_list l
  exclusive : Exclusive (s.Holds l)
  held : ∀ r, (∃ p, s.Holds l p r) ↔ (s.records r).isSome = true
  mapped : ∀ b, b ∈ s.mapped ↔ ∃ r, s.base r = some b
  injective : ∀ r q b, s.base r = some b → s.base q = some b → r = q
  gcLoaded : ∀ r, s.gc = .loaded r → r ∈ l
  gcNext : ∀ r nx, s.gc = .nextLoaded r nx → r ∈ l ∧ s.next r = nx
  handNext : ∀ t old h n, (s.threads t).pc = .linked old h n → s.next old = h
  fresh : ∀ t r old, (s.threads t).pc = .allocated r old → (s.threads t).local_region = old
  outside : ∀ t, (s.threads t).pc = .outside → (s.threads t).local_region = none
  sound : s.corrupt = false

theorem forall_upd {P : Tid → Thread → Prop} {s : State} {t : Tid} {f : Thread → Thread}
    (ht : P t (f (s.threads t))) (hother : ∀ u, u ≠ t → P u (s.threads u)) (u : Tid) :
    P u ((s.upd t f).threads u) := by
  rw [upd_threads]
  split
  · rename_i h
    exact h ▸ ht
  · rename_i h
    exact hother u h

/-! ### Moves -/

section Moves

variable {s : State} {l : List Rec} {t : Tid} {f : Thread → Thread} {r : Rec}

theorem holds_upd (p : Place) (q : Rec) :
    (s.upd t f).Holds l p q ↔
      (p = .localRegion t ∧ (f (s.threads t)).local_region = some q) ∨
      (p = .hand t ∧ (f (s.threads t)).pc.hand = some q) ∨
      (p ≠ .localRegion t ∧ p ≠ .hand t ∧ s.Holds l p q) := by
  cases p with
  | localRegion u => by_cases hu : u = t <;> simp [State.Holds, hu]
  | hand u => by_cases hu : u = t <;> simp [State.Holds, hu]
  | global => simp [State.Holds]
  | collector => simp [State.Holds, State.upd]

/-- What only thread `t` has changes as its two places change. -/
theorem holds_upd_same (hlocal : (f (s.threads t)).local_region = (s.threads t).local_region)
    (hhand : (f (s.threads t)).pc.hand = (s.threads t).pc.hand) (p : Place) (q : Rec) :
    (s.upd t f).Holds l p q ↔ s.Holds l p q := by
  rw [holds_upd, hlocal, hhand]
  by_cases hp : p = .localRegion t
  · subst hp; simp [State.Holds]
  · by_cases hp' : p = .hand t
    · subst hp'; simp [State.Holds]
    · simp [hp, hp']

/-- A new record gets into the hand of a thread. -/
theorem moved_in (hlocal : (f (s.threads t)).local_region = (s.threads t).local_region)
    (hhand : (s.threads t).pc.hand = none) (hhand' : (f (s.threads t)).pc.hand = some r)
    (hnot : ∀ p, ¬ s.Holds l p r) :
    Moved (s.Holds l) ((s.upd t f).Holds l) r (some (.hand t)) := by
  refine .intro (fun p x hx => ?_) fun p => ?_
  · rw [holds_upd, hlocal, hhand']
    by_cases hp : p = .localRegion t
    · subst hp; simp [State.Holds]
    · by_cases hp' : p = .hand t
      · subst hp'; simp [State.Holds, hhand, Ne.symm hx]
      · simp [hp, hp']
  · have hlocal' : (s.threads t).local_region ≠ some r := hnot (.localRegion t)
    rw [holds_upd, hlocal, hhand']
    by_cases hp : p = .hand t
    · subst hp; simp
    · simp [hp, hlocal', hnot p, Ne.symm hp]

/-- What was in the hand of a thread gets on the list. -/
theorem moved_push (hex : Exclusive (s.Holds l))
    (hlocal : (f (s.threads t)).local_region = (s.threads t).local_region)
    (hhand : (s.threads t).pc.hand = some r) (hhand' : (f (s.threads t)).pc.hand = none) :
    Moved (s.Holds l) ((s.upd t f).Holds (r :: l)) r (some .global) := by
  have hown : ∀ p, s.Holds l p r → p = .hand t := fun p hp => hex p (.hand t) r hp hhand
  refine .intro (fun p x hx => ?_) fun p => ?_
  · rw [holds_upd, hlocal, hhand']
    cases p with
    | localRegion u => by_cases hu : u = t <;> simp [State.Holds, hu]
    | hand u => by_cases hu : u = t <;> simp [State.Holds, hu, hhand, Ne.symm hx]
    | global => simp [State.Holds, hx]
    | collector => simp [State.Holds]
  · rw [holds_upd, hlocal, hhand']
    cases p with
    | localRegion u =>
        have hu : (s.threads u).local_region ≠ some r := fun h => by
          simpa using hown (.localRegion u) h
        by_cases h : u = t
        · subst h; simp [hu]
        · simp [State.Holds, h, hu]
    | hand u =>
        by_cases h : u = t
        · subst h; simp
        · have hu : (s.threads u).pc.hand ≠ some r := fun hu => by
            have := hown (.hand u) hu
            simp_all
          simp [State.Holds, h, hu]
    | global => simp [State.Holds]
    | collector =>
        have hgc : s.gc.hand ≠ some r := fun h => by simpa using hown .collector h
        simp [State.Holds, hgc]

/-- The new region becomes the local one, and the old one is what the thread has at hand. -/
theorem holds_setLocal (hlocal : (f (s.threads t)).local_region = (s.threads t).pc.hand)
    (hhand : (f (s.threads t)).pc.hand = (s.threads t).local_region) (p : Place) (q : Rec) :
    (s.upd t f).Holds l p q ↔
      s.Holds l (Equiv.swap (Place.localRegion t) (Place.hand t) p) q := by
  rw [holds_upd, hlocal, hhand]
  by_cases hp : p = .localRegion t
  · subst hp; simp [State.Holds]
  · by_cases hp' : p = .hand t
    · subst hp'; simp [State.Holds]
    · rw [Equiv.swap_apply_of_ne_of_ne hp hp']
      simp [hp, hp']

/-- The collector takes the first record of the list. -/
theorem moved_steal (hex : Exclusive (s.Holds (r :: l))) (hnodup : r ∉ l)
    (hgc : s.gc.hand = none) (nx : Option Rec) :
    Moved (s.Holds (r :: l)) (State.Holds { s with region_list := nx, gc := .stolen r } l) r
      (some .collector) := by
  have hown : ∀ p, s.Holds (r :: l) p r → p = .global := fun p hp =>
    hex p .global r hp (by simp [State.Holds])
  refine .intro (fun p x hx => ?_) fun p => ?_
  · cases p with
    | localRegion u => rfl
    | hand u => rfl
    | global => simp [State.Holds, hx]
    | collector => simp [State.Holds, hgc, Ne.symm hx]
  · cases p with
    | localRegion u => simpa [State.Holds] using fun h => hown (.localRegion u) h
    | hand u => simpa [State.Holds] using fun h => hown (.hand u) h
    | global => simpa [State.Holds] using hnodup
    | collector => simp [State.Holds]

/-- The collector gives up the record it has stolen. -/
theorem moved_out (hex : Exclusive (s.Holds l)) (hgc : s.gc.hand = some r) :
    Moved (s.Holds l) (State.Holds { s with gc := .idle } l) r none := by
  have hown : ∀ p, s.Holds l p r → p = .collector := fun p hp => hex p .collector r hp hgc
  refine .intro (fun p x hx => ?_) fun p => ?_
  · cases p with
    | collector => simp [State.Holds, hgc, Ne.symm hx]
    | localRegion u => rfl
    | hand u => rfl
    | global => rfl
  · cases p with
    | localRegion u => simpa [State.Holds] using fun h => hown (.localRegion u) h
    | hand u => simpa [State.Holds] using fun h => hown (.hand u) h
    | global => simpa [State.Holds] using fun h => hown .global h
    | collector => simp [State.Holds]

theorem holds_linked {hd : Option Rec} {n : Nat} (hpc : (s.threads t).pc = .linked r hd n) :
    s.Holds l (.hand t) r := by
  rw [State.Holds, hpc]
  rfl

end Moves

namespace Inv

variable {s : State} {l : List Rec}

theorem isSome (h : Inv s l) {p : Place} {r : Rec} (hp : s.Holds l p r) :
    ∃ x, s.records r = some x :=
  Option.isSome_iff_exists.mp ((h.held r).mp ⟨p, hp⟩)

/-- An address `malloc` may hand out is nowhere in use. -/
theorem not_held (h : Inv s l) {r : Rec} (hr : s.records r = none) (p : Place) :
    ¬ s.Holds l p r := by
  intro hp
  obtain ⟨x, hx⟩ := h.isSome hp
  simp [hr] at hx

/-- A thread gets on without touching a region. -/
theorem upd (h : Inv s l) {t : Tid} {f : Thread → Thread}
    (hlocal : (f (s.threads t)).local_region = (s.threads t).local_region)
    (hhand : (f (s.threads t)).pc.hand = (s.threads t).pc.hand)
    (hnext : ∀ old hd n, (f (s.threads t)).pc = .linked old hd n → s.next old = hd)
    (hfresh : ∀ r old, (f (s.threads t)).pc = .allocated r old →
      (f (s.threads t)).local_region = old)
    (houtside : (f (s.threads t)).pc ≠ .outside) : Inv (s.upd t f) l :=
  { linked := h.linked
    exclusive := h.exclusive.congr (holds_upd_same hlocal hhand)
    held := fun r => (exists_congr fun p => holds_upd_same hlocal hhand p r).trans (h.held r)
    mapped := h.mapped
    injective := h.injective
    gcLoaded := h.gcLoaded
    gcNext := h.gcNext
    handNext := forall_upd (P := fun _ th => ∀ old hd n, th.pc = .linked old hd n →
      s.next old = hd) hnext fun u _ => h.handNext u
    fresh := forall_upd (P := fun _ th => ∀ r old, th.pc = .allocated r old →
      th.local_region = old) hfresh fun u _ => h.fresh u
    outside := forall_upd (P := fun _ th => th.pc = .outside → th.local_region = none)
      (fun hpc => absurd hpc houtside) fun u _ => h.outside u
    sound := h.sound }

theorem allocate (h : Inv s l) {t : Tid} {old : Option Rec} {r : Rec} {b : Nat} {s' : State}
    (hpc : (s.threads t).pc.hand = none) (hold : (s.threads t).local_region = old)
    (hs : Regions.allocate s t old r b = some s') : Inv s' l := by
  unfold Regions.allocate at hs
  split at hs
  swap
  · cases hs
  rename_i hfree
  obtain ⟨hr, hb⟩ := hfree
  cases hs
  have hnot := h.not_held hr
  have hnext : ∀ q, q ≠ r → ((mmap s b).put r (some { region := b, next := none })).next q =
      s.next q := fun q hq => by simp [hq]
  have hfresh : b ∉ s.mapped := fun hmem => by
    have := hb b hmem
    simp only [REGION_SIZE] at this
    omega
  have hbase : ∀ q, s.base q = some b → False := fun q hq =>
    hfresh ((h.mapped b).mpr ⟨q, hq⟩)
  have hne : ∀ {q b'}, s.base q = some b' → q ≠ r := by
    rintro q b' hq rfl
    simp [State.base, hr] at hq
  have hmoved := moved_in (s := (mmap s b).put r (some { region := b, next := none })) (l := l)
    (t := t) (f := fun th => { th with pc := .allocated r old }) rfl hpc rfl hnot
  refine
    { linked := h.linked.congr fun q hq => hnext q ?_
      exclusive := Exclusive.moved h.exclusive hmoved
      held := fun q => ?_
      mapped := fun b' => ?_
      injective := fun q q' b' hq hq' => ?_
      gcLoaded := h.gcLoaded
      gcNext := fun q nx hgc => ?_
      handNext := forall_upd (P := fun _ th => ∀ old hd n, th.pc = .linked old hd n →
        ((mmap s b).put r (some { region := b, next := none })).next old = hd) (by simp)
        fun u _ q hd n hu => ?_
      fresh := forall_upd (P := fun _ th => ∀ r old, th.pc = .allocated r old →
        th.local_region = old) ?_ fun u _ => h.fresh u
      outside := forall_upd (P := fun _ th => th.pc = .outside → th.local_region = none)
        (by simp) fun u _ => h.outside u
      sound := h.sound }
  · rintro rfl
    exact hnot .global hq
  · rw [hmoved.held]
    by_cases hq : q = r
    · simp [hq]
    · rw [if_neg hq]
      exact (h.held q).trans (by simp [hq])
  · simp only [upd_mapped, put_mapped, mmap_mapped, Finset.mem_insert, h.mapped, upd_base, put_base,
      mmap_base, Option.map_some]
    constructor
    · rintro (rfl | ⟨q, hq⟩)
      · exact ⟨r, by simp⟩
      · exact ⟨q, by rw [if_neg (hne hq)]; exact hq⟩
    · rintro ⟨q, hq⟩
      split at hq
      · exact .inl (Option.some.inj hq).symm
      · exact .inr ⟨q, hq⟩
  · simp only [upd_base, put_base, mmap_base, Option.map_some] at hq hq'
    split at hq <;> split at hq'
    · simp_all
    · cases hq
      exact (hbase _ hq').elim
    · cases hq'
      exact (hbase _ hq).elim
    · exact h.injective _ _ _ hq hq'
  · obtain ⟨hq, hnx⟩ := h.gcNext q nx hgc
    exact ⟨hq, (hnext q fun heq => hnot .global (heq ▸ hq)).trans hnx⟩
  · rw [hnext q fun heq => hnot (.hand u) (heq ▸ holds_linked hu)]
    exact h.handNext u q hd n hu
  · rintro _ _ heq
    cases heq
    exact hold

theorem setLocal (h : Inv s l) {t : Tid} {f : Thread → Thread}
    (hlocal : (f (s.threads t)).local_region = (s.threads t).pc.hand)
    (hhand : (f (s.threads t)).pc.hand = (s.threads t).local_region)
    (hpc : (f (s.threads t)).pc = .ready ∨ ∃ old n, (f (s.threads t)).pc = .rolled old n) :
    Inv (s.upd t f) l :=
  { linked := h.linked
    exclusive := h.exclusive.relabel _ (holds_setLocal hlocal hhand)
    held := fun r => (held_relabel _ (holds_setLocal hlocal hhand) r).trans (h.held r)
    mapped := h.mapped
    injective := h.injective
    gcLoaded := h.gcLoaded
    gcNext := h.gcNext
    handNext := forall_upd (P := fun _ th => ∀ old hd n, th.pc = .linked old hd n →
      s.next old = hd) (by rcases hpc with hpc | ⟨_, _, hpc⟩ <;> simp [hpc])
      fun u _ => h.handNext u
    fresh := forall_upd (P := fun _ th => ∀ r old, th.pc = .allocated r old →
      th.local_region = old) (by rcases hpc with hpc | ⟨_, _, hpc⟩ <;> simp [hpc])
      fun u _ => h.fresh u
    outside := forall_upd (P := fun _ th => th.pc = .outside → th.local_region = none)
      (by rcases hpc with hpc | ⟨_, _, hpc⟩ <;> simp [hpc]) fun u _ => h.outside u
    sound := h.sound }

/-- The `next` of a record in the hand of its thread is nobody else's business. -/
theorem setNext (h : Inv s l) {t : Tid} {old : Rec} {hd : Option Rec} {n : Nat}
    {x : PupHeapRegion} (hpc : (s.threads t).pc = .loaded old hd n)
    (hx : s.records old = some x) :
    Inv ((s.put old (some { x with next := hd })).upd t fun th =>
      { th with pc := .linked old hd n }) l := by
  have hhand : s.Holds l (.hand t) old := by
    rw [State.Holds, hpc]
    rfl
  have hown : ∀ p, s.Holds l p old → p = .hand t := fun p hp => h.exclusive p _ old hp hhand
  have hbase : ∀ q, (s.put old (some { x with next := hd })).base q = s.base q := by
    intro q
    by_cases hq : q = old <;> simp [hq, State.base, hx]
  have hnext : ∀ q, q ≠ old → (s.put old (some { x with next := hd })).next q = s.next q :=
    fun q hq => by simp [hq]
  have hput : Inv (s.put old (some { x with next := hd })) l :=
    { linked := h.linked.congr fun q hq => hnext q fun heq => by
        simpa using hown .global (heq ▸ hq)
      exclusive := h.exclusive
      held := fun r => (h.held r).trans (by by_cases hr : r = old <;> simp [hr, hx])
      mapped := fun b => by simp only [put_mapped, h.mapped, hbase]
      injective := fun r q b => by simpa only [hbase] using h.injective r q b
      gcLoaded := h.gcLoaded
      gcNext := fun r nx hgc => by
        obtain ⟨hr, hnx⟩ := h.gcNext r nx hgc
        exact ⟨hr, (hnext r fun heq => by simpa using hown .global (heq ▸ hr)).trans hnx⟩
      handNext := fun u q hd' m hu => by
        have hu' : (s.threads u).pc = .linked q hd' m := hu
        rw [hnext q]
        · exact h.handNext u q hd' m hu'
        · rintro rfl
          obtain rfl : u = t := by simpa using hown (.hand u) (holds_linked hu')
          simp [hpc] at hu'
      fresh := h.fresh
      outside := h.outside
      sound := h.sound }
  refine hput.upd rfl ?_ ?_ (by simp) (by simp)
  · exact (congrArg Pc.hand hpc).symm
  · rintro _ _ _ heq
    cases heq
    simp

/-- The compare-and-swap of a push succeeds: the head is still what was linked. -/
theorem push (h : Inv s l) {t : Tid} {old : Rec} {n : Nat}
    (hpc : (s.threads t).pc = .linked old s.region_list n) :
    Inv ({ s with region_list := some old }.upd t fun th => { th with pc := .ready })
      (old :: l) := by
  have hhand : s.Holds l (.hand t) old := holds_linked hpc
  have hmoved := moved_push (s := { s with region_list := some old }) (l := l) (t := t)
    (f := fun th => { th with pc := .ready }) (r := old) h.exclusive rfl hhand rfl
  exact
    { linked := h.linked.push (h.handNext t old _ n hpc)
      exclusive := Exclusive.moved h.exclusive hmoved
      held := fun r => by
        rw [hmoved.held]
        by_cases hr : r = old
        · obtain ⟨x, hx⟩ := h.isSome hhand
          simp [hr, hx]
        · rw [if_neg hr]
          exact h.held r
      mapped := h.mapped
      injective := h.injective
      gcLoaded := fun r hgc => List.mem_cons_of_mem _ (h.gcLoaded r hgc)
      gcNext := fun r nx hgc => (h.gcNext r nx hgc).imp_left (List.mem_cons_of_mem _)
      handNext := forall_upd (P := fun _ th => ∀ old hd n, th.pc = .linked old hd n →
        s.next old = hd) (by simp) fun u _ => h.handNext u
      fresh := forall_upd (P := fun _ th => ∀ r old, th.pc = .allocated r old →
        th.local_region = old) (by simp) fun u _ => h.fresh u
      outside := forall_upd (P := fun _ th => th.pc = .outside → th.local_region = none)
        (by simp) fun u _ => h.outside u
      sound := h.sound }

/-- The collector looks at the list without taking anything. -/
theorem gcLook (h : Inv s l) {gc : GcPc} (hgc : s.gc.hand = none) (hgc' : gc.hand = none)
    (hloaded : ∀ r, gc = .loaded r → r ∈ l)
    (hnext : ∀ r nx, gc = .nextLoaded r nx → r ∈ l ∧ s.next r = nx) :
    Inv { s with gc := gc } l := by
  have hholds : ∀ p r, State.Holds { s with gc := gc } l p r ↔ s.Holds l p r := by
    intro p r
    cases p with
    | collector => simp [State.Holds, hgc, hgc']
    | localRegion u => rfl
    | hand u => rfl
    | global => rfl
  exact
    { h with
      exclusive := h.exclusive.congr hholds
      held := fun r => (exists_congr fun p => hholds p r).trans (h.held r)
      gcLoaded := hloaded
      gcNext := hnext }

/-- The collector's compare-and-swap succeeds: it takes the head of the list. -/
theorem steal (h : Inv s l) {r : Rec} {nx : Option Rec} (hgc : s.gc = .nextLoaded r nx)
    (hhead : s.region_list = some r) :
    ∃ rest, Inv { s with region_list := nx, gc := .stolen r } rest := by
  obtain ⟨rest, rfl, hlinked⟩ := (hhead ▸ h.linked).tail
  rw [(h.gcNext r nx hgc).2] at hlinked
  have hnodup : r ∉ rest := (List.nodup_cons.mp h.linked.nodup).1
  have hmoved := moved_steal h.exclusive hnodup (by rw [hgc]; rfl) nx
  exact ⟨rest,
    { h with
      linked := hlinked
      exclusive := h.exclusive.moved hmoved
      held := fun q => by
        rw [hmoved.held]
        by_cases hq : q = r
        · obtain ⟨x, hx⟩ := h.isSome (p := .global) (r := r) (by simp [State.Holds])
          simp [hq, hx]
        · rw [if_neg hq]
          exact h.held q
      gcLoaded := by simp
      gcNext := by simp }⟩

/-- The collector frees the region it has stolen. -/
theorem free (h : Inv s l) {r : Rec} {x : PupHeapRegion} (hgc : s.gc = .stolen r)
    (hx : s.records r = some x) :
    Inv ({ munmap s x.region with gc := .idle }.put r none) l := by
  have hmoved := moved_out h.exclusive (s := s) (r := r) (by rw [hgc]; rfl)
  have hbase : s.base r = some x.region := by simp [State.base, hx]
  have hmem : x.region ∈ s.mapped := (h.mapped _).mpr ⟨r, hbase⟩
  have hown : ∀ p, s.Holds l p r → p = .collector := fun p hp =>
    h.exclusive p .collector r hp (by rw [State.Holds, hgc]; rfl)
  have hnext : ∀ q, q ≠ r → ({ munmap s x.region with gc := .idle }.put r none).next q =
      s.next q := fun q hq => by
    rw [put_next, if_neg hq]
    rfl
  have hbase' : ∀ q b, ({ munmap s x.region with gc := .idle }.put r none).base q = some b ↔
      q ≠ r ∧ s.base q = some b := by
    intro q b
    rw [put_base]
    by_cases hq : q = r
    · simp [hq]
    · rw [if_neg hq]
      exact (and_iff_right hq).symm
  exact
    { linked := h.linked.congr fun q hq => hnext q fun heq => by
        simpa using hown .global (heq ▸ hq)
      exclusive := Exclusive.moved h.exclusive hmoved
      held := fun q => by
        refine (hmoved.held q).trans ?_
        by_cases hq : q = r
        · simp [hq]
        · rw [if_neg hq, put_records, if_neg hq]
          exact h.held q
      mapped := fun b => by
        simp only [hbase']
        refine (Finset.mem_erase.trans (and_congr_right fun hb => h.mapped b)).trans ?_
        constructor
        · rintro ⟨hb, q, hq⟩
          refine ⟨q, ?_, hq⟩
          rintro rfl
          exact hb (Option.some.inj (hq.symm.trans hbase))
        · rintro ⟨q, hq, hqb⟩
          refine ⟨?_, q, hqb⟩
          rintro rfl
          exact hq (h.injective q r _ hqb hbase)
      injective := fun q q' b hq hq' => by
        rw [hbase'] at hq hq'
        exact h.injective q q' b hq.2 hq'.2
      gcLoaded := fun q hgc => by cases hgc
      gcNext := fun q nx hgc => by cases hgc
      handNext := fun u q hd n hu => by
        have hu' : (s.threads u).pc = .linked q hd n := hu
        rw [hnext q fun heq => by simpa using hown (.hand u) (heq ▸ holds_linked hu')]
        exact h.handNext u q hd n hu'
      fresh := h.fresh
      outside := h.outside
      sound := by simp [munmap, State.put, hmem, h.sound] }

end Inv

/-! ### Runs -/

theorem inv_heapInit : Inv heapInit [] where
  linked := .nil
  exclusive p q r hp := by cases p <;> simp [State.Holds, heapInit, Pc.hand] at hp
  held r := by
    refine iff_of_false ?_ (by simp [heapInit])
    rintro ⟨p, hp⟩
    cases p <;> simp [State.Holds, heapInit, Pc.hand] at hp
  mapped b := by simp [State.base, heapInit]
  injective r q b hr := by simp [State.base, heapInit] at hr
  gcLoaded r hgc := by cases hgc
  gcNext r nx hgc := by cases hgc
  handNext t old hd n hpc := by cases hpc
  fresh t r old hpc := by cases hpc
  outside t _ := rfl
  sound := rfl

theorem step_inv {s s' : State} {l : List Rec} (h : Inv s l) (i : Label)
    (hs : step s i = some s') : ∃ l', Inv s' l' := by
  cases i with
  | allocate t r b =>
      simp only [step] at hs
      split at hs
      · rename_i hpc
        exact ⟨l, h.allocate (by rw [hpc]; rfl) (h.outside t hpc) hs⟩
      · rename_i hpc
        exact ⟨l, h.allocate (by rw [hpc]; rfl) rfl hs⟩
      · cases hs
  | setLocal t =>
      simp only [step] at hs
      split at hs
      · rename_i r hpc
        cases hs
        refine ⟨l, h.setLocal ?_ ?_ (.inl rfl)⟩
        · rw [hpc]; rfl
        · exact (h.fresh t r none hpc).symm
      · rename_i r old hpc
        cases hs
        refine ⟨l, h.setLocal ?_ ?_ (.inr ⟨_, _, rfl⟩)⟩
        · rw [hpc]; rfl
        · exact (h.fresh t r (some old) hpc).symm
      · cases hs
  | loadHead t =>
      simp only [step] at hs
      split at hs
      · rename_i old limit hpc
        cases hs
        exact ⟨l, h.upd rfl (by rw [hpc]; rfl) (by simp) (by simp) (by simp)⟩
      · cases hs
  | setNext t =>
      simp only [step] at hs
      split at hs
      · rename_i old old_head limit hpc
        obtain ⟨x, hx⟩ := h.isSome (p := .hand t) (r := old) (by rw [State.Holds, hpc]; rfl)
        rw [hx] at hs
        cases hs
        exact ⟨l, h.setNext hpc hx⟩
      · cases hs
  | swapHead t =>
      simp only [step] at hs
      split at hs
      · rename_i old old_head limit hpc
        split at hs
        · rename_i heq
          cases hs
          exact ⟨old :: l, h.push (heq ▸ hpc)⟩
        · split at hs
          · cases hs
            exact ⟨l, { h with }⟩
          · cases hs
            exact ⟨l, h.upd rfl (by rw [hpc]; rfl) (by simp) (by simp) (by simp)⟩
      · cases hs
  | gcLoadHead =>
      simp only [step] at hs
      split at hs
      · rename_i r hgc hhead
        cases hs
        refine ⟨l, h.gcLook (by rw [hgc]; rfl) rfl ?_ (by simp)⟩
        rintro _ heq
        cases heq
        obtain ⟨rest, rfl, -⟩ := (hhead ▸ h.linked).tail
        simp
      · cases hs
        exact ⟨l, h⟩
      · cases hs
  | gcLoadNext =>
      simp only [step] at hs
      split at hs
      · rename_i r hgc
        have hmem := h.gcLoaded r hgc
        obtain ⟨x, hx⟩ := h.isSome (p := .global) (r := r) hmem
        rw [hx] at hs
        cases hs
        refine ⟨l, h.gcLook (by rw [hgc]; rfl) rfl (by simp) ?_⟩
        rintro _ _ heq
        cases heq
        exact ⟨hmem, by simp [State.next, hx]⟩
      · cases hs
  | gcSwapHead =>
      simp only [step] at hs
      split at hs
      · rename_i r nx hgc
        split at hs
        · rename_i hhead
          cases hs
          exact h.steal hgc hhead
        · cases hs
          exact ⟨l, h.gcLook (by rw [hgc]; rfl) rfl (by simp) (by simp)⟩
      · cases hs
  | gcFree =>
      simp only [step] at hs
      split at hs
      · rename_i r hgc
        obtain ⟨x, hx⟩ := h.isSome (p := .collector) (r := r) (by rw [State.Holds, hgc]; rfl)
        rw [hx] at hs
        cases hs
        exact ⟨l, h.free hgc hx⟩
      · cases hs

theorem inv_of_reachable {s : State} (h : Reachable regionMachine s) : ∃ l, Inv s l := by
  refine h.invariant (I := fun s => ∃ l, Inv s l) ?_ ?_
  · rintro _ rfl
    exact ⟨[], inv_heapInit⟩
  · rintro s i s' ⟨l, hinv⟩ hs
    simp only [regionMachine] at hs
    split at hs
    · cases hs
    · exact step_inv hinv i hs

/--
What is asked of the regions of a state: `region_list` is a list that ends, each
mapped region is in one place and once on the list at most, what is in a place is
mapped, and no freed record has been touched and nothing unmapped twice.
-/
structure OnePlaceEach (s : State) (l : List Rec) : Prop where
  linked : Linked s.next s.region_list l
  nodup : (l.map s.base).Nodup
  one : ∀ b ∈ s.mapped, ∃! p, s.HoldsRegion l p b
  mapped : ∀ p b, s.HoldsRegion l p b → b ∈ s.mapped
  sound : s.corrupt = false

theorem Inv.onePlaceEach {s : State} {l : List Rec} (h : Inv s l) : OnePlaceEach s l where
  linked := h.linked
  nodup := by
    refine h.linked.nodup.map_on fun r hr q hq heq => ?_
    obtain ⟨x, hx⟩ := h.isSome (p := .global) (r := r) hr
    have hbase : s.base r = some x.region := by simp [State.base, hx]
    exact h.injective r q _ hbase (heq ▸ hbase)
  one b hb := by
    obtain ⟨r, hr⟩ := (h.mapped b).mp hb
    have hsome : (s.records r).isSome = true := by
      rw [State.base, Option.map_eq_some_iff] at hr
      obtain ⟨x, hx, -⟩ := hr
      rw [hx]; rfl
    obtain ⟨p, hp⟩ := (h.held r).mpr hsome
    refine ⟨p, ⟨r, hp, hr⟩, ?_⟩
    rintro q ⟨r', hq, hr'⟩
    obtain rfl := h.injective r r' b hr hr'
    exact h.exclusive q p r hq hp
  mapped p b := by
    rintro ⟨r, -, hr⟩
    exact (h.mapped b).mpr ⟨r, hr⟩
  sound := h.sound

/--
**Every region is in one place.**  In every reachable state each mapped region is a
thread's `local_region`, or in the hand of the thread rolling it over, or once on the
global list, or with the collector, and in no two of these; and what the collector is
about to unmap is mapped and no thread's `local_region`.
-/
theorem one_place_each {s : State} (h : Reachable regionMachine s) :
    ∃ l, OnePlaceEach s l ∧ ∀ r, s.gc = .stolen r →
      ∃ b ∈ s.mapped, s.base r = some b ∧ ∀ t, ¬ s.HoldsRegion l (.localRegion t) b := by
  obtain ⟨l, hinv⟩ := inv_of_reachable h
  have hone := hinv.onePlaceEach
  refine ⟨l, hone, fun r hgc => ?_⟩
  have hr : s.Holds l .collector r := by
    rw [State.Holds, hgc]
    rfl
  obtain ⟨x, hx⟩ := hinv.isSome hr
  have hbase : s.base r = some x.region := by simp [State.base, hx]
  have hholds : s.HoldsRegion l .collector x.region := ⟨r, hr, hbase⟩
  refine ⟨x.region, hone.mapped _ _ hholds, hbase, fun t ht => ?_⟩
  have := (hone.one _ (hone.mapped _ _ hholds)).unique ht hholds
  cases this

/-- One thread attaches and fills a region, and the collector steals it. -/
def rollAndSteal : List Label :=
  [.allocate 0 16 0x100000, .setLocal 0, .allocate 0 48 0x200000, .setLocal 0, .loadHead 0,
    .setNext 0, .swapHead 0, .gcLoadHead, .gcLoadNext, .gcSwapHead]

theorem one_place_each_stolen :
    ∃ s : State, s.gc = .stolen 16 ∧ s.base 16 = some 0x100000 ∧ 0x100000 ∈ s.mapped ∧
      ∃ l, OnePlaceEach s l := by
  have hrun : Reachable regionMachine _ :=
    reachable_of_run (s := heapInit) rfl rollAndSteal rfl
  obtain ⟨l, hone, hstolen⟩ := one_place_each hrun
  obtain ⟨b, hmem, hbase, -⟩ := hstolen 16 rfl
  cases hbase
  exact ⟨_, rfl, rfl, hmem, l, hone⟩

end Pup.Regions
