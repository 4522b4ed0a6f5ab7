/-
The order of the classes.

`pup_is_descendant_or_same` walks from a class up the superclasses, and what it answers is
whether the other class is on the chain (`descendsFrom_eq`).  A class gets its superclass
when it is created and never another one, and only Object has none, provided that classes
come from `pup_create_class`: `Class.new` makes one that has no superclass either.
-/
import Pup.Runtime.Layouts

namespace Pup.Runtime

open Chain Outcome Transition

/-- The loop of `pup_is_descendant_or_same`, for at most `fuel - 1` classes. -/
def descendsFrom (s : State) (ancestor : Ref) : Nat → Option Ref → Except Stop Bool
  | 0, _ => .error (.fault .outOfFuel)
  | _ + 1, none => .ok false
  | fuel + 1, some next =>
      if next = ancestor then .ok true
      else do
        let c ← s.class (some next)
        descendsFrom s ancestor fuel c.superclass

/-- `pup_is_descendant_or_same`. -/
def pupIsDescendantOrSame (s : State) (ancestor descendant : Option Ref) : Except Stop Bool := do
  let some ancestor := ancestor | throw (.fault .abort)
  let some descendant := descendant | throw (.fault .abort)
  descendsFrom s ancestor s.fuel (some descendant)

theorem descendsFrom_eq {s : State} {r : Option Ref} {l : List Ref}
    (hl : Linked s.superclass r l) (hc : ∀ k ∈ l, s.IsClass k) (ancestor : Ref) {fuel : Nat}
    (hfuel : l.length < fuel) :
    descendsFrom s ancestor fuel r = .ok (decide (ancestor ∈ l)) := by
  induction hl generalizing fuel with
  | nil =>
      cases fuel with
      | zero => simp at hfuel
      | succ fuel => simp [descendsFrom]
  | @cons k l hl ih =>
      cases fuel with
      | zero => simp at hfuel
      | succ fuel =>
          rw [descendsFrom]
          by_cases hk : k = ancestor
          · simp [hk]
          · obtain ⟨c, hkc⟩ := hc k List.mem_cons_self
            have hrest := ih (fun j hj => hc j (List.mem_cons_of_mem k hj))
              (Nat.lt_of_succ_lt_succ hfuel)
            rw [superclass_eq hkc] at hrest
            rw [if_neg hk, hkc]
            simp only [bind, Except.bind, hrest]
            simp [Ne.symm hk]

/-- **What `pup_is_descendant_or_same` answers.** -/
theorem Superclasses.descends {s : State} {d : Ref} {l : List Ref} (h : Superclasses s d l)
    (a : Ref) : pupIsDescendantOrSame s (some a) (some d) = .ok (decide (a ∈ l)) :=
  descendsFrom_eq h.linked h.classes a (Nat.lt_succ_of_le h.length_le)

/-- It answers yes. -/
def Descends (s : State) (a d : Ref) : Prop :=
  pupIsDescendantOrSame s (some a) (some d) = .ok true

theorem Superclasses.descends_iff {s : State} {d : Ref} {l : List Ref}
    (h : Superclasses s d l) {a : Ref} : Descends s a d ↔ Above s.superclass a d := by
  rw [Descends, h.descends a, ← h.linked.above]
  simp

/-! ### Steps -/

/-- What is no class does not become one, and a class keeps its superclass. -/
def KeepsClasses (s s' : State) : Prop :=
  ∀ r, s.IsClass r → s'.IsClass r ∧ s'.superclass r = s.superclass r

theorem KeepsClasses.superclasses {s s' : State} (h : KeepsClasses s s') {r : Ref} {l : List Ref}
    (hl : Superclasses s r l) : Superclasses s' r l :=
  ⟨hl.linked.congr fun k hk => (h k (hl.classes k hk)).2,
    fun k hk => (h k (hl.classes k hk)).1⟩

theorem step_keepsClasses {s s' : State} (hs : Typed s) {i : Label} (h : step s i = some s') :
    KeepsClasses s s' := by
  intro r hr
  rcases step_cases hs h with ⟨t, layout, -, rfl⟩ | ⟨k, name_sym, fn, hd⟩ | hsame
  · refine ⟨isClass_alloc hr, ?_⟩
    rw [State.superclass, class_alloc_of_lt (isClass_lt hr), State.superclass]
  · exact ⟨(hd.isClass_iff r).mpr hr, by rw [hd.superclass]⟩
  · refine ⟨(hsame.isClass_iff r).mpr hr, ?_⟩
    rw [State.superclass, hsame.class, State.superclass]

/-- The step makes an instance of Class, and not by `pup_create_class`. -/
def Label.instantiatesClass (s : State) : Label → Bool
  | .new target => s.env.class_class = some target
  | .createObject type => s.env.class_class = some type
  | _ => false

/-- The runtime of a program that does without `Class.new`. -/
def hierarchyMachine : Machine State Label where
  init s := runtimeInit = .ok s
  next s i := if i.instantiatesClass s then none else step s i

theorem hierarchyMachine_next {s s' : State} {i : Label}
    (h : hierarchyMachine.next s i = some s') :
    i.instantiatesClass s = false ∧ step s i = some s' := by
  show i.instantiatesClass s = false ∧ _
  unfold hierarchyMachine at h
  by_cases hi : i.instantiatesClass s = true
  · simp [hi] at h
  · simp only [hi] at h
    exact ⟨by simpa using hi, h⟩

/-- A new object that is not an instance of Class is no class. -/
theorem not_isClass_alloc {s : State} {t : Ref} {layout : Layout}
    (hfresh : FreshLayout s t layout) (ht : t ≠ 1) {r : Ref} (hr : ¬ s.IsClass r) :
    ¬ (s.alloc (some t) layout).1.IsClass r := by
  intro hclass
  by_cases hlt : r < s.objects.length
  · obtain ⟨c, hc⟩ := hclass
    rw [class_alloc_of_lt hlt] at hc
    exact hr ⟨c, hc⟩
  · obtain rfl := eq_length_of_lt_alloc (isClass_lt hclass) hlt
    obtain ⟨c, hc⟩ := hclass
    have hstruct := hfresh.struct
    rw [class_alloc_new.mp hc] at hstruct
    unfold instanceStruct at hstruct
    split at hstruct <;> simp_all [Layout.struct]

/-- Whatever class there is after a step, it was there before or has a superclass. -/
theorem new_has_superclass {s s' : State} (hs : Typed s) {i : Label}
    (h : hierarchyMachine.next s i = some s') {r : Ref} (hr : s'.IsClass r)
    (hnew : ¬ s.IsClass r) : ∃ p, s'.superclass r = some p := by
  obtain ⟨hi, h⟩ := hierarchyMachine_next h
  have hclass : s.env.class_class = some 1 := by
    rw [hs.env]
    rfl
  cases i with
  | createClass superclass scope name =>
      obtain ⟨c, hc, h⟩ := bind_ok (toOption_eq_some h)
      obtain ⟨⟨s₁, r'⟩, hcreate, h⟩ := bind_ok h
      cases h
      obtain ⟨-, -, rfl⟩ := pupCreateClass_alloc hs hcreate
      have hle : ¬ r < s.objects.length := by
        intro hlt
        obtain ⟨c', hc'⟩ := hr
        rw [class_alloc_of_lt hlt] at hc'
        exact hnew ⟨c', hc'⟩
      obtain rfl := eq_length_of_lt_alloc (isClass_lt hr) hle
      exact ⟨superclass, superclass_eq (class_alloc_new.mpr rfl)⟩
  | defineMethod class_ name_sym fn =>
      obtain ⟨k, -, hdef⟩ := pupDefineMethod_ok (toOption_eq_some h)
      exact absurd ((hdef.isClass_iff r).mp hr) hnew
  | new target =>
      have ht : target ≠ 1 := by
        rintro rfl
        simp [Label.instantiatesClass, hclass] at hi
      obtain ⟨p, hp, rfl⟩ := map_toOption_eq_some h
      obtain ⟨k, layout, hk, hfresh, -, -, heq⟩ :=
        pupClassAllocateInstance_ok hs (pupClassNew_ok hp)
      obtain rfl := Option.some.inj hk
      rw [heq] at hr
      exact absurd hr (not_isClass_alloc hfresh ht hnew)
  | createObject type =>
      have ht : type ≠ 1 := by
        rintro rfl
        simp [Label.instantiatesClass, hclass] at hi
      obtain ⟨p, hp, rfl⟩ := map_toOption_eq_some h
      have hp : pupClassAllocateInstance s (some type) = .ok p := hp
      obtain ⟨k, layout, hk, hfresh, -, -, heq⟩ := pupClassAllocateInstance_ok hs hp
      obtain rfl := Option.some.inj hk
      rw [heq] at hr
      exact absurd hr (not_isClass_alloc hfresh ht hnew)
  | fixnum value =>
      cases h
      have hfresh : FreshLayout s 10 (.pupFixnum value) :=
        .of_not_class hs.literals.2 rfl (by simp)
      rw [pupFixnumCreate, hs.env] at hr
      exact absurd hr (not_isClass_alloc hfresh (by decide) hnew)
  | string str =>
      cases h
      have hfresh : FreshLayout s 2 (.pupString (some str)) :=
        .of_not_class hs.literals.1 rfl (by simp)
      rw [pupStringNewCstr, hs.env] at hr
      exact absurd hr (not_isClass_alloc hfresh (by decide) hnew)
  | ivSet obj sym val =>
      exact absurd ((pupIvSet_ok (toOption_eq_some h)).isClass_iff r |>.mp hr) hnew

/-! ### The invariant -/

/-- Only the class Object has no superclass. -/
structure Rooted (s : State) : Prop where
  typed : Typed s
  object : s.IsClass 0
  below : ∀ r, s.IsClass r → r ≠ 0 → ∃ p, s.superclass r = some p

theorem Rooted.step {s s' : State} (hs : Rooted s) {i : Label}
    (h : hierarchyMachine.next s i = some s') : Rooted s' := by
  have hkeeps := step_keepsClasses hs.typed (hierarchyMachine_next h).2
  refine ⟨hs.typed.step (hierarchyMachine_next h).2, (hkeeps 0 hs.object).1, fun r hr hne => ?_⟩
  by_cases hold : s.IsClass r
  · obtain ⟨p, hp⟩ := hs.below r hold hne
    exact ⟨p, (hkeeps r hold).2.trans hp⟩
  · exact new_has_superclass hs.typed h hr hold

theorem runtimeInit_rooted : runtimeInit.toOption.any (fun s => s.IsClass 0 ∧
    s.objects.length = 11 ∧ ∀ r < 11, r ≠ 0 → s.IsClass r → (s.superclass r).isSome = true) =
      true := by
  decide +kernel

theorem Rooted.init {s : State} (h : runtimeInit = .ok s) : Rooted s := by
  have hrooted := runtimeInit_rooted
  rw [h] at hrooted
  obtain ⟨hobject, hlength, hbelow⟩ := of_decide_eq_true hrooted
  refine ⟨.init h, hobject, fun r hr hne => Option.isSome_iff_exists.mp ?_⟩
  exact hbelow r (hlength ▸ isClass_lt hr) hne hr

theorem rooted_of_reachable {s : State} (h : Reachable hierarchyMachine s) : Rooted s :=
  h.invariant (fun _ => Rooted.init) fun _ _ _ hs hstep => hs.step hstep

/-- Every chain comes to Object. -/
theorem Rooted.chain {s : State} (hs : Rooted s) (r : Ref) (hr : s.IsClass r) :
    ∃ l, Superclasses s r l ∧ l.getLast? = s.env.class_object := by
  induction r using Nat.strongRecOn with
  | _ r ih =>
      by_cases hzero : r = 0
      · subst hzero
        have hnone : s.superclass 0 = none := by
          by_contra hne
          obtain ⟨p, hp⟩ := Option.ne_none_iff_exists'.mp hne
          exact Nat.not_lt_zero p (hs.typed.superclasses 0 p hp).1
        refine ⟨[0], ⟨.cons (hnone ▸ .nil), by simpa using hr⟩, ?_⟩
        rw [hs.typed.env]
        rfl
      · obtain ⟨p, hp⟩ := hs.below r hr hzero
        obtain ⟨hlt, hclass⟩ := hs.typed.superclasses r p hp
        obtain ⟨l, hl, hlast⟩ := ih p hlt hclass
        refine ⟨r :: l, ⟨.cons (hp ▸ hl.linked), by simpa using ⟨hr, hl.classes⟩⟩, ?_⟩
        obtain ⟨rest, rfl, -⟩ := hl.linked.tail
        rwa [List.getLast?_cons_cons]

/-- No step of a run takes a class away or changes its superclasses. -/
theorem Rooted.run {s s' : State} (hs : Rooted s) {labels : List Label}
    (h : hierarchyMachine.run s labels = some s') : Rooted s' ∧ KeepsClasses s s' := by
  induction labels generalizing s with
  | nil =>
      obtain rfl : s = s' := Option.some.inj h
      exact ⟨hs, fun r hr => ⟨hr, rfl⟩⟩
  | cons i rest ih =>
      obtain ⟨s₁, hstep, hrest⟩ := Option.bind_eq_some_iff.mp h
      have hkeeps := step_keepsClasses hs.typed (hierarchyMachine_next hstep).2
      obtain ⟨hs', hkeeps'⟩ := ih (hs.step hstep) hrest
      refine ⟨hs', fun r hr => ?_⟩
      obtain ⟨hr₁, heq⟩ := hkeeps r hr
      exact ⟨(hkeeps' r hr₁).1, (hkeeps' r hr₁).2.trans heq⟩

/-! ### The order -/

section Order

variable {s : State} {a b d : Ref}

theorem Rooted.descends_iff (hs : Rooted s) (hd : s.IsClass d) :
    Descends s a d ↔ Above s.superclass a d := by
  obtain ⟨l, hl, -⟩ := hs.chain d hd
  exact hl.descends_iff

theorem Rooted.descends_refl (hs : Rooted s) (hd : s.IsClass d) : Descends s d d := by
  obtain ⟨l, hl, -⟩ := hs.chain d hd
  exact (hs.descends_iff hd).mpr (.refl hl.linked)

theorem Rooted.descends_trans (hs : Rooted s) (hb : s.IsClass b) (hd : s.IsClass d)
    (hab : Descends s a b) (hbd : Descends s b d) : Descends s a d := by
  rw [hs.descends_iff hb] at hab
  rw [hs.descends_iff hd] at hbd ⊢
  exact hab.trans hbd

theorem Rooted.descends_antisymm (hs : Rooted s) (ha : s.IsClass a) (hd : s.IsClass d)
    (had : Descends s a d) (hda : Descends s d a) : a = d := by
  rw [hs.descends_iff hd] at had
  rw [hs.descends_iff ha] at hda
  exact had.antisymm hda

theorem Rooted.object_descends (hs : Rooted s) (hd : s.IsClass d) : Descends s 0 d := by
  obtain ⟨l, hl, hlast⟩ := hs.chain d hd
  have hmem : 0 ∈ l := by
    rw [hs.typed.env] at hlast
    exact List.mem_of_getLast? hlast
  exact (hs.descends_iff hd).mpr (hl.linked.above.mp hmem)

end Order

/--
**The classes are ordered.**  In every state of every run in which classes come from
`pup_create_class` (whatever else the program does meanwhile): superclass chains end at
Object; `pup_is_descendant_or_same` returns, and is a partial order with Object on top;
and however the run goes on, a class has the ancestors it had.
-/
theorem classes_ordered {s : State} (hs : Reachable hierarchyMachine s) :
    (∀ r, s.IsClass r → ∃ l, Superclasses s r l ∧ l.getLast? = s.env.class_object) ∧
      (∀ a d, s.IsClass a → s.IsClass d →
        ∃ b, pupIsDescendantOrSame s (some a) (some d) = .ok b) ∧
      (∀ d, s.IsClass d → Descends s d d) ∧
      (∀ a b d, s.IsClass a → s.IsClass b → s.IsClass d →
        Descends s a b → Descends s b d → Descends s a d) ∧
      (∀ a d, s.IsClass a → s.IsClass d → Descends s a d → Descends s d a → a = d) ∧
      (∃ o, s.env.class_object = some o ∧ s.IsClass o ∧ ∀ d, s.IsClass d → Descends s o d) ∧
      ∀ labels s', hierarchyMachine.run s labels = some s' → ∀ a d, s'.IsClass a →
        s.IsClass d → (Descends s' a d ↔ s.IsClass a ∧ Descends s a d) := by
  have hs := rooted_of_reachable hs
  have hobject : s.env.class_object = some 0 := by
    rw [hs.typed.env]
    rfl
  refine ⟨hs.chain, fun a d _ hd => ?_, fun d => hs.descends_refl,
    fun a b d _ hb hd => hs.descends_trans hb hd, fun a d ha hd => hs.descends_antisymm ha hd,
    ⟨0, hobject, hs.object, fun d => hs.object_descends⟩, fun labels s' hrun a d ha hd => ?_⟩
  · obtain ⟨l, hl, -⟩ := hs.chain d hd
    exact ⟨_, hl.descends a⟩
  · obtain ⟨-, hkeeps⟩ := hs.run hrun
    obtain ⟨l, hl, -⟩ := hs.chain d hd
    have hl' := hkeeps.superclasses hl
    rw [Descends, Descends, hl.descends, hl'.descends]
    constructor
    · intro h
      have hmem : a ∈ l := of_decide_eq_true (Except.ok.inj h)
      exact ⟨hl.classes a hmem, h⟩
    · intro h
      exact h.2

/-- A class below Exception is created. -/
theorem classes_ordered_exception :
    ∃ s, Reachable hierarchyMachine s ∧ s.IsClass 11 ∧ Descends s 3 11 ∧ ¬ Descends s 11 3 ∧
      ∃ o, s.env.class_object = some o ∧ Descends s o 11 := by
  have hrun : runtimeInit.toOption.any (fun s =>
      (hierarchyMachine.next s (.createClass 3 none "MyError")).any fun s' =>
        s'.IsClass 11 ∧ (pupIsDescendantOrSame s' (some 3) (some 11)).toOption = some true ∧
          (pupIsDescendantOrSame s' (some 11) (some 3)).toOption = some false) = true := by
    decide +kernel
  obtain ⟨s, hs, hrun⟩ := (Option.any_eq_true _ _).mp hrun
  obtain ⟨s', hstep, hrun⟩ := (Option.any_eq_true _ _).mp hrun
  obtain ⟨hclass, hdown, hup⟩ := of_decide_eq_true hrun
  have hreach : Reachable hierarchyMachine s' :=
    Reachable.step ⟨_, .nil (toOption_eq_some hs)⟩ _ hstep
  obtain ⟨-, -, -, -, -, ⟨o, ho, -, htop⟩, -⟩ := classes_ordered hreach
  refine ⟨s', hreach, hclass, toOption_eq_some hdown, fun h => ?_, o, ho, htop 11 hclass⟩
  rw [Descends, toOption_eq_some hup] at h
  cases h

end Pup.Runtime
