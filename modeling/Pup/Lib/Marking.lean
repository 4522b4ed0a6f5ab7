/-
Marking while the graph changes.

A collector marks the nodes of a graph from a list of grey nodes, which it has found but
not visited yet, while others change the graph.  A node is `Guarded` if it is marked or
a path of white nodes leads to it from a grey one; what is guarded will be marked.

What others can use are the nodes that can be reached from the slots they hold (`Rooted`).
The invariant is `Safe`: these nodes are all there, and guarded are those in a slot and those
that a marked node refers to, for the collector will not look at a marked node again.  From
it follows that everything that can be reached is guarded (`Safe.rooted_guarded`).  A white
node may be referred to by a white one without being guarded from anywhere else.

The rules say when the invariant is kept: by a change of the graph or of the slots
(`Safe.change`) if every node that gets into reach may enter it (`Enters`) and nothing in reach
is lost, by a visit of the collector (`Safe.visit`), and when the marks lose their meaning and
marking starts anew (`Safe.start`).  Once nothing is grey, everything in reach is marked
(`Safe.marked`).  A node may be neither marked nor white: an address at which there is
nothing.
-/
import Mathlib.Logic.Relation

namespace Marking

/-- A graph with colours. -/
structure Colouring (α : Type*) where
  edge : α → α → Prop
  marked : α → Prop
  white : α → Prop
  grey : α → Prop

variable {α : Type*} {C C' : Colouring α}

/-- An edge to a white node. -/
def Colouring.Step (C : Colouring α) (y z : α) : Prop := C.edge y z ∧ C.white z

/-- A path of white nodes. -/
def Colouring.WhitePath (C : Colouring α) (x z : α) : Prop :=
  C.white x ∧ Relation.ReflTransGen C.Step x z

/-- The node is marked, or will be found. -/
def Colouring.Guarded (C : Colouring α) (z : α) : Prop :=
  C.marked z ∨ ∃ x, C.grey x ∧ C.WhitePath x z

theorem Colouring.WhitePath.white {x z : α} (h : C.WhitePath x z) : C.white z := by
  obtain ⟨hx, hpath⟩ := h
  rcases Relation.ReflTransGen.cases_tail hpath with heq | ⟨y, -, hstep⟩
  · exact heq ▸ hx
  · exact hstep.2

theorem Colouring.WhitePath.tail {x y z : α} (h : C.WhitePath x y) (hedge : C.edge y z)
    (hz : C.white z) : C.WhitePath x z :=
  ⟨h.1, h.2.tail ⟨hedge, hz⟩⟩

/-- Nothing is lost when the graph and the grey nodes grow. -/
theorem Colouring.Guarded.mono (hmarked : ∀ z, C.marked z → C'.marked z)
    (hwhite : ∀ z, C.white z → C'.white z) (hgrey : ∀ z, C.grey z → C'.grey z)
    (hedge : ∀ y z, C.edge y z → C'.edge y z) {z : α} (h : C.Guarded z) : C'.Guarded z := by
  refine h.imp (hmarked z) fun hex => ?_
  obtain ⟨x, hx, hw, hpath⟩ := hex
  have hstep : C.Step ≤ C'.Step := fun a b hab => ⟨hedge a b hab.1, hwhite b hab.2⟩
  exact ⟨x, hgrey x hx, hwhite x hw, Relation.ReflTransGen.mono hstep _ _ hpath⟩

/-- The collector visits a grey node: it gets marked, and what it refers to gets grey unless
it was marked before. -/
structure Visit (C C' : Colouring α) (a : α) : Prop where
  edge : ∀ y z, C.edge y z → C'.edge y z
  marked : ∀ z, C'.marked z ↔ z = a ∨ C.marked z
  white : ∀ z, C.white z → z = a ∨ C'.white z
  grey : ∀ z, C.grey z → z = a ∨ C'.grey z
  found : C.white a → ∀ z, C.edge a z → C'.grey z

/-- A white path either survives the visit or has been cut short by it. -/
theorem Visit.whitePath {a x z : α} (hv : Visit C C' a) (h : C.WhitePath x z) :
    z = a ∨ (∃ y, C'.grey y ∧ C'.WhitePath y z) ∨ (x ≠ a ∧ C'.WhitePath x z) := by
  obtain ⟨hx, hpath⟩ := h
  induction hpath with
  | refl =>
      rcases hv.white x hx with heq | hw
      · exact .inl heq
      · by_cases hxa : x = a
        · exact .inl hxa
        · exact .inr (.inr ⟨hxa, hw, .refl⟩)
  | @tail y z hxy hstep ih =>
      rcases hv.white z hstep.2 with heq | hw
      · exact .inl heq
      · rcases ih with rfl | ⟨g, hg, hpath⟩ | ⟨hxa, hpath⟩
        · have hy : C.white y := Colouring.WhitePath.white ⟨hx, hxy⟩
          exact .inr (.inl ⟨z, hv.found hy z hstep.1, hw, .refl⟩)
        · exact .inr (.inl ⟨g, hg, Colouring.WhitePath.tail hpath (hv.edge y z hstep.1) hw⟩)
        · exact .inr (.inr ⟨hxa, Colouring.WhitePath.tail hpath (hv.edge y z hstep.1) hw⟩)

theorem Colouring.Guarded.visit {a z : α} (hv : Visit C C' a) (h : C.Guarded z) : C'.Guarded z := by
  rcases h with h | ⟨x, hx, hpath⟩
  · exact .inl ((hv.marked z).mpr (.inr h))
  · rcases hv.whitePath hpath with heq | hguard | ⟨hxa, hpath'⟩
    · exact .inl ((hv.marked z).mpr (.inl heq))
    · exact .inr hguard
    · exact .inr ⟨x, (hv.grey x hx).resolve_left hxa, hpath'⟩

/-! ### What can be reached -/

/-- The node can be reached from a slot. -/
def Colouring.Rooted (C : Colouring α) (slot : α → Prop) (z : α) : Prop :=
  ∃ x, slot x ∧ Relation.ReflTransGen C.edge x z

/-- The node must not be lost: it is in a slot, or a marked node refers to it. -/
inductive Colouring.Needed (C : Colouring α) (slot : α → Prop) (z : α) : Prop
  | slot (h : slot z)
  | edge {y : α} (hy : C.Rooted slot y) (hm : C.marked y) (hedge : C.edge y z)

structure Colouring.Safe (C : Colouring α) (present slot : α → Prop) : Prop where
  present : ∀ z, C.Rooted slot z → present z
  guarded : ∀ z, C.Needed slot z → C.Guarded z

/-- A node may get into reach: whatever it leads to is there, and what marked nodes among
these refer to is guarded. -/
def Colouring.Enters (C : Colouring α) (present : α → Prop) (b : α) : Prop :=
  ∀ x, Relation.ReflTransGen C.edge b x →
    present x ∧ (C.marked x → ∀ z, C.edge x z → C.Guarded z)

variable {present present' slot slot' : α → Prop}

theorem Colouring.Rooted.of_slot {x : α} (h : slot x) : C.Rooted slot x := ⟨x, h, .refl⟩

theorem Colouring.Rooted.edge {y z : α} (h : C.Rooted slot y) (hedge : C.edge y z) :
    C.Rooted slot z := by
  obtain ⟨x, hx, hpath⟩ := h
  exact ⟨x, hx, hpath.tail hedge⟩

/-- What holds of the slots and passes along edges in reach holds of all that can be reached. -/
theorem Colouring.Rooted.rec_on {P : α → Prop} (hslot : ∀ x, slot x → P x)
    (hedge : ∀ y z, P y → C.edge y z → P z) {z : α} (h : C.Rooted slot z) : P z := by
  obtain ⟨x, hx, hpath⟩ := h
  induction hpath with
  | refl => exact hslot x hx
  | tail _ hstep ih => exact hedge _ _ ih hstep

theorem Colouring.Enters.edge {b z : α} (h : C.Enters present b) (hedge : C.edge b z) :
    C.Enters present z := fun x hx => h x (.head hedge hx)

/-- A new node may get into reach if what it refers to may; it may refer to itself. -/
theorem Colouring.Enters.of_edges {a : α} (ha : present a)
    (henters : ∀ z, C.edge a z → z = a ∨ C.Enters present z)
    (hguarded : C.marked a → ∀ z, C.edge a z → C.Guarded z) : C.Enters present a := by
  have hreach : ∀ x, Relation.ReflTransGen C.edge a x → x = a ∨ C.Enters present x := by
    intro x hx
    induction hx with
    | refl => exact .inl rfl
    | tail _ hstep ih =>
        rcases ih with rfl | ih
        · exact henters _ hstep
        · exact .inr (ih.edge hstep)
  intro x hx
  rcases hreach x hx with rfl | hx
  · exact ⟨ha, hguarded⟩
  · exact hx x .refl

theorem Colouring.Enters.mono {b : α} (h : C.Enters present b)
    (hedge : ∀ y, present y → ∀ z, C'.edge y z → C.edge y z)
    (hpresent : ∀ y, present y → present' y)
    (hmarked : ∀ y, present y → C'.marked y → C.marked y)
    (hguarded : ∀ z, C.Guarded z → C'.Guarded z) : C'.Enters present' b := by
  have hpath : ∀ x, Relation.ReflTransGen C'.edge b x → Relation.ReflTransGen C.edge b x := by
    intro x hx
    induction hx with
    | refl => exact .refl
    | tail _ hstep ih => exact ih.tail (hedge _ (h _ ih).1 _ hstep)
  intro x hx
  obtain ⟨hthere, hrefs⟩ := h x (hpath x hx)
  exact ⟨hpresent x hthere,
    fun hm z hz => hguarded z (hrefs (hmarked x hthere hm) z (hedge x hthere z hz))⟩

/-! ### The invariant -/

/-- **Whatever can be reached is guarded.** -/
theorem Colouring.Safe.rooted_guarded (h : C.Safe present slot)
    (hcolour : ∀ z, present z → C.marked z ∨ C.white z) {z : α} (hz : C.Rooted slot z) :
    C.Guarded z := by
  obtain ⟨x, hx, hpath⟩ := hz
  induction hpath with
  | refl => exact h.guarded x (.slot hx)
  | @tail y z hxy hyz ih =>
      have hy : C.Rooted slot y := ⟨x, hx, hxy⟩
      rcases ih with hm | ⟨g, hg, hwhite⟩
      · exact h.guarded z (.edge hy hm hyz)
      · exact (hcolour z (h.present z (hy.edge hyz))).imp_right
          fun hw => ⟨g, hg, Colouring.WhitePath.tail hwhite hyz hw⟩

/-- When nothing is grey, everything that can be reached is marked. -/
theorem Colouring.Safe.marked (h : C.Safe present slot)
    (hcolour : ∀ z, present z → C.marked z ∨ C.white z) (hgrey : ∀ x, ¬ C.grey x) {z : α}
    (hz : C.Rooted slot z) : C.marked z := by
  refine (h.rooted_guarded hcolour hz).resolve_right fun hex => ?_
  obtain ⟨x, hx, -⟩ := hex
  exact hgrey x hx

/-- **The graph or the slots change.**  A node that gets into reach, by a slot or by a
reference in reach, may enter it, and nothing that is still in reach is lost sight of. -/
theorem Colouring.Safe.change (h : C.Safe present slot)
    (hslot : ∀ x, slot' x → slot x ∨ (C'.Enters present' x ∧ C'.Guarded x))
    (hedge : ∀ y, C.Rooted slot y → ∀ z, C'.edge y z →
      C.edge y z ∨ (C'.Enters present' z ∧ (C'.marked y → C'.Guarded z)))
    (hpresent : ∀ y, C.Rooted slot y → present' y)
    (hmarked : ∀ y, C.Rooted slot y → C'.marked y → C.marked y)
    (hkeep : ∀ z, C'.Rooted slot' z → C.Guarded z → C'.Guarded z) : C'.Safe present' slot' := by
  have hreach : ∀ z, C'.Rooted slot' z → C.Rooted slot z ∨ C'.Enters present' z := by
    intro z hz
    refine hz.rec_on (fun x hx => (hslot x hx).imp Colouring.Rooted.of_slot And.left) ?_
    intro y z hy hyz
    rcases hy with hy | hy
    · exact (hedge y hy z hyz).imp hy.edge And.left
    · exact .inr (hy.edge hyz)
  refine ⟨fun z hz => ?_, fun z hz => ?_⟩
  · rcases hreach z hz with hz | hz
    · exact hpresent z hz
    · exact (hz z .refl).1
  · cases hz with
    | slot hz =>
        rcases hslot z hz with hold | ⟨-, hguarded⟩
        · exact hkeep z (.of_slot hz) (h.guarded z (.slot hold))
        · exact hguarded
    | @edge y hy hm hyz =>
        rcases hreach y hy with hold | henters
        · rcases hedge y hold z hyz with hyz' | ⟨-, hguarded⟩
          · exact hkeep z (hy.edge hyz) (h.guarded z (.edge hold (hmarked y hold hm) hyz'))
          · exact hguarded hm
        · exact (henters y .refl).2 hm z hyz

/-- The same graph, as far as nodes are there. -/
theorem Colouring.Safe.congr (h : C.Safe present slot) (hslot : ∀ x, slot' x → slot x)
    (hedge : ∀ y, present y → ∀ z, C'.edge y z → C.edge y z)
    (hpresent : ∀ y, present y → present' y)
    (hmarked : ∀ y, present y → C'.marked y → C.marked y)
    (hguarded : ∀ z, C.Guarded z → C'.Guarded z) : C'.Safe present' slot' :=
  h.change (fun x hx => .inl (hslot x hx)) (fun y hy z hyz => .inl (hedge y (h.present y hy) z hyz))
    (fun y hy => hpresent y (h.present y hy)) (fun y hy => hmarked y (h.present y hy))
    fun z _ => hguarded z

/-- **A visit of the collector.** -/
theorem Colouring.Safe.visit (h : C.Safe present slot) {a : α} (hv : Visit C C' a)
    (hback : ∀ y, present y → ∀ z, C'.edge y z → C.edge y z)
    (hpresent : ∀ y, present y → present' y)
    (hcolour : ∀ z, present z → C.marked z ∨ C.white z) : C'.Safe present' slot := by
  have hreach : ∀ z, C'.Rooted slot z → C.Rooted slot z := fun z hz =>
    hz.rec_on (fun x hx => .of_slot hx) fun y z hy hyz => hy.edge (hback y (h.present y hy) z hyz)
  refine ⟨fun z hz => hpresent z (h.present z (hreach z hz)), fun z hz => ?_⟩
  cases hz with
  | slot hz => exact (h.guarded z (.slot hz)).visit hv
  | @edge y hy hm hyz =>
      have hy := hreach y hy
      have hyz := hback y (h.present y hy) z hyz
      rcases (hv.marked y).mp hm with rfl | hm
      · rcases hcolour y (h.present y hy) with hm | hw
        · exact (h.guarded z (.edge hy hm hyz)).visit hv
        · -- what the node visited refers to has just got grey
          have hgrey := hv.found hw z hyz
          rcases hcolour z (h.present z (hy.edge hyz)) with hz | hz
          · exact .inl ((hv.marked z).mpr (.inr hz))
          · rcases hv.white z hz with heq | hz
            · exact .inl ((hv.marked z).mpr (.inl heq))
            · exact .inr ⟨z, hgrey, hz, .refl⟩
      · exact (h.guarded z (.edge hy hm hyz)).visit hv

/-- **Marking starts anew**: nothing that can be reached counts as marked, and the slots are
guarded. -/
theorem Colouring.Safe.start (h : C.Safe present slot) (hedge : ∀ y z, C'.edge y z → C.edge y z)
    (hnone : ∀ z, C.Rooted slot z → ¬ C'.marked z) (hslot : ∀ x, slot x → C'.Guarded x) :
    C'.Safe present slot := by
  have hreach : ∀ z, C'.Rooted slot z → C.Rooted slot z := fun z hz =>
    hz.rec_on (fun x hx => .of_slot hx) fun y z hy hyz => hy.edge (hedge y z hyz)
  refine ⟨fun z hz => h.present z (hreach z hz), fun z hz => ?_⟩
  cases hz with
  | slot hz => exact hslot z hz
  | edge hy hm => exact absurd hm (hnone _ (hreach _ hy))

end Marking
