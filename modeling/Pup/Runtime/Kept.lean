/-
What marking keeps of what lookups read.

`pup_object_each_ref` visits an object's type and the values of its attributes.  Lookups
go from an object to its type, and from a class to its superclass and its scope, which are
fields of `struct PupClass` that no visitor is shown.  A class is kept for its subclasses
only where there is another way to it, by way of constants say.
-/
import Mathlib.Logic.Relation
import Pup.Runtime.Attributes
import Pup.Runtime.Hierarchy

namespace Pup.Runtime

open Chain Outcome Transition Relation

/-! ### The collector's references -/

/-- `pup_object_each_ref`; the visitor is given what the slot holds. -/
def pupObjectEachRef {σ : Type} (s : State) (visitor : σ → Option Ref → Except Stop σ)
    (obj : Option Ref) (data : σ) : Except Stop σ := do
  let o ← s.object obj
  let data ← visitor data o.type
  o.attr_list_head.foldlM (fun data attr => visitor data attr.2) data

/-- What the slots of an object hold. -/
def State.refs (s : State) (r : Ref) : List (Option Ref) :=
  s.type r :: (s.attrs r).map Prod.snd

/-- **`pup_object_each_ref` visits an object's type and attributes.** -/
theorem pupObjectEachRef_eq {σ : Type} {s : State} {r : Ref} {o : Obj}
    (h : s.objects[r]? = some o) (visitor : σ → Option Ref → Except Stop σ) (data : σ) :
    pupObjectEachRef s visitor (some r) data = (s.refs r).foldlM visitor data := by
  unfold pupObjectEachRef State.refs
  rw [object_ok.mpr h, type_eq h, attrs_eq h, List.foldlM_cons]
  simp only [List.foldlM_map]
  rfl

/-- The object at `a` holds a reference to `b`. -/
def State.RefersTo (s : State) (a b : Ref) : Prop := some b ∈ s.refs a

/-- `b` can be reached from `a` by following references. -/
def State.Reaches (s : State) : Ref → Ref → Prop := ReflTransGen s.RefersTo

theorem reaches_type {s : State} {a t : Ref} (h : s.type a = some t) : s.Reaches a t := by
  apply ReflTransGen.single
  show some t ∈ s.type a :: _
  rw [h]
  exact List.mem_cons_self

/-! ### What lookups step to -/

/-- A step from a class to its superclass or its scope. -/
def State.StepsUp (s : State) (k p : Ref) : Prop := s.superclass k = some p ∨ s.scope k = some p

/-- What lookups on the object at `x` can step to. -/
inductive LookedUp (s : State) (x : Ref) : Ref → Prop
  | type {t : Ref} (h : s.type x = some t) : LookedUp s x t
  /-- the object is itself a class -/
  | self {p : Ref} (h : s.StepsUp x p) : LookedUp s x p
  | up {k p : Ref} (h : LookedUp s x k) (hp : s.StepsUp k p) : LookedUp s x p

/-- `find_method_in_classes` and `pup_is_descendant_or_same` step along the superclasses of
the object's type. -/
theorem Superclasses.lookedUp {s : State} {x t : Ref} {l : List Ref} (hl : Superclasses s t l)
    (ht : s.type x = some t) : ∀ k ∈ l, LookedUp s x k := by
  refine hl.linked.forall_of_step (fun k p hk hp => .up hk (.inl hp)) ?_
  intro k hk
  obtain rfl := Option.some.inj hk
  exact .type ht

/-- `pup_const_get` steps along the scopes of the class it is given. -/
theorem ScopeChain.lookedUp {s : State} {x : Ref} {l : List Ref} (hl : ScopeChain s x l) :
    ∀ k ∈ l, k = x ∨ LookedUp s x k := by
  refine hl.linked.forall_of_step (fun k p hk hp => ?_) ?_
  · right
    rcases hk with rfl | hk
    · exact .self (.inr hp)
    · exact .up hk (.inr hp)
  · intro k hk
    exact .inl (Option.some.inj hk).symm

/-- Every class that a lookup on an object steps to is kept by marking from the object. -/
def LookupsKept (s : State) : Prop :=
  ∀ x k, LookedUp s x k → s.IsClass k → s.Reaches x k

theorem scope_isClass {s : State} {r p : Ref} (h : s.scope r = some p) : s.IsClass r := by
  unfold State.scope at h
  cases hc : s.class (some r) with
  | error e => simp [hc, Except.toOption] at h
  | ok c => exact ⟨c, hc⟩

theorem State.StepsUp.isClass {s : State} {k p : Ref} (h : s.StepsUp k p) : s.IsClass k := by
  rcases h with h | h
  · exact superclass_isClass h
  · exact scope_isClass h

/-- It is the single steps that matter. -/
theorem lookupsKept_iff {s : State} :
    LookupsKept s ↔ ∀ k p, s.StepsUp k p → s.IsClass p → s.Reaches k p := by
  constructor
  · intro h k p hp hclass
    exact h k p (.self hp) hclass
  · intro h x k hk
    induction hk with
    | type ht =>
        intro _
        exact reaches_type ht
    | self hp => exact h x _ hp
    | up _ hp ih =>
        intro hclass
        exact (ih hp.isClass).trans (h _ _ hp hclass)

/-! ### Class and Object -/

/-- Classes are instances of Class, which is itself below Object. -/
structure ClassBelowObject (s : State) : Prop where
  typed : Typed s
  superclass : s.superclass 1 = some 0

theorem ClassBelowObject.step {s s' : State} (hs : ClassBelowObject s) {i : Label}
    (h : step s i = some s') : ClassBelowObject s' := by
  have hkeeps := step_keepsClasses hs.typed h
  have hclass : s.IsClass 1 := superclass_isClass hs.superclass
  exact ⟨hs.typed.step h, (hkeeps 1 hclass).2.trans hs.superclass⟩

theorem runtimeInit_class :
    runtimeInit.toOption.any (fun s => s.superclass 1 = some 0 ∧ s.attrs 1 = []) = true := by
  decide +kernel

theorem runtimeInit_class_of {s : State} (h : runtimeInit = .ok s) :
    s.superclass 1 = some 0 ∧ s.attrs 1 = [] := by
  obtain ⟨s', hs', hclass⟩ := ok_of_any runtimeInit_class
  rw [h] at hs'
  rwa [Except.ok.inj hs']

theorem classBelowObject_of_reachable {s : State} (h : Reachable runtimeMachine s) :
    ClassBelowObject s :=
  h.invariant (fun _ hs => ⟨.init hs, (runtimeInit_class_of hs).1⟩)
    fun _ _ _ hs hstep => hs.step hstep

section Class

variable {s : State} (hs : ClassBelowObject s)
include hs

theorem ClassBelowObject.type_of_class {k : Ref} (hk : s.IsClass k) : s.type k = some 1 := by
  obtain ⟨c, hc⟩ := hk
  obtain ⟨o, ho, hlayout⟩ := class_ok.mp hc
  obtain ⟨t, ht, -, hstruct⟩ := hs.typed.types k o ho
  rw [type_eq ho, ht]
  congr 1
  rw [hlayout] at hstruct
  unfold instanceStruct at hstruct
  split at hstruct
  · rfl
  · cases hstruct
  · cases hstruct
  · cases hstruct

/-- Every class refers to Class, and so to whatever is reached from there. -/
theorem ClassBelowObject.reaches_of_object (hup : s.Reaches 1 0) {k p : Ref} (hk : s.IsClass k)
    (hp : s.Reaches 0 p) : s.Reaches k p :=
  (reaches_type (hs.type_of_class hk)).trans (hup.trans hp)

/-- Without attributes, Class refers to itself only. -/
theorem ClassBelowObject.not_reaches (hattrs : s.attrs 1 = []) : ¬ s.Reaches 1 0 := by
  have htype : s.type 1 = some 1 := hs.type_of_class (superclass_isClass hs.superclass)
  have hself : ∀ b, s.Reaches 1 b → b = 1 := by
    intro b hb
    induction hb with
    | refl => rfl
    | tail _ hab ih =>
        subst ih
        rw [State.RefersTo, State.refs, htype, hattrs] at hab
        simpa using hab
  intro hup
  exact absurd (hself 0 hup) (by decide)

theorem ClassBelowObject.lookupsKept_iff (hobject : s.IsClass 0) :
    LookupsKept s ↔ s.Reaches 1 0 ∧
      ∀ k p, s.StepsUp k p → s.IsClass p → s.Reaches 0 p ∨ s.Reaches k p := by
  rw [Runtime.lookupsKept_iff]
  constructor
  · intro h
    exact ⟨h 1 0 (.inl hs.superclass) hobject, fun k p hp hclass => .inr (h k p hp hclass)⟩
  · intro ⟨hup, h⟩ k p hp hclass
    rcases h k p hp hclass with hreach | hreach
    · exact hs.reaches_of_object hup hp.isClass hreach
    · exact hreach

end Class

/-! ### A constant on Class -/

/-- `Class::Root = Object`: Object is then reached from Class, and the global constants are
Object's, so they lead on to every class of the runtime. -/
theorem ivSet_refers_up :
    runtimeInit.toOption.any (fun s =>
      (step s (.ivSet 1 "Root" (some 0))).any fun s' =>
        s'.objects.length = 11 ∧ some 0 ∈ s'.refs 1 ∧
        ∀ k < 11, (s'.superclass k).all (fun p => some p ∈ s'.refs 0) = true ∧
          (s'.scope k).all (fun p => some p ∈ s'.refs 0) = true) = true := by
  decide +kernel

theorem exists_refers_up : ∃ s, Reachable runtimeMachine s ∧ s.Reaches 1 0 ∧
    ∀ k p, s.StepsUp k p → s.IsClass p → s.Reaches 0 p ∨ s.Reaches k p := by
  obtain ⟨s₀, hs₀, hrun⟩ := (Option.any_eq_true _ _).mp ivSet_refers_up
  obtain ⟨s, hstep, hrun⟩ := (Option.any_eq_true _ _).mp hrun
  obtain ⟨hlength, hup, hall⟩ := of_decide_eq_true hrun
  have hreach : Reachable runtimeMachine s :=
    Reachable.step ⟨_, .nil (toOption_eq_some hs₀)⟩ (.ivSet 1 "Root" (some 0)) hstep
  refine ⟨s, hreach, .single hup, fun k p hp _ => .inl (.single ?_)⟩
  obtain ⟨hsupers, hscopes⟩ := hall k (hlength ▸ isClass_lt hp.isClass)
  show some p ∈ s.refs 0
  rcases hp with hp | hp
  · rw [hp] at hsupers
    simpa using hsupers
  · rw [hp] at hscopes
    simpa using hscopes

/--
**When marking keeps what lookups read.**  In a reachable state it does if and only if
Class has come to refer to Object, directly or not, and every superclass and every scope is
referred to from Object or from the class itself, directly or not.  It does not as long
as Class has no constants, and so in no run from the start.
-/
theorem lookups_kept_iff {s : State} (hs : Reachable runtimeMachine s) :
    (∃ cls obj, s.env.class_class = some cls ∧ s.env.class_object = some obj ∧
      (LookupsKept s ↔ s.Reaches cls obj ∧
        ∀ k p, s.StepsUp k p → s.IsClass p → s.Reaches obj p ∨ s.Reaches k p) ∧
      (s.attrs cls = [] → ¬ LookupsKept s)) ∧
    ∀ s₀, runtimeInit = .ok s₀ → ¬ LookupsKept s₀ := by
  have hnot : ∀ s : State, ClassBelowObject s → s.attrs 1 = [] → ¬ LookupsKept s := by
    intro s hs hattrs hkept
    have hobject : s.IsClass 0 := (hs.typed.superclasses 1 0 hs.superclass).2
    exact hs.not_reaches hattrs ((hs.lookupsKept_iff hobject).mp hkept).1
  have hbelow := classBelowObject_of_reachable hs
  refine ⟨⟨1, 0, ?_, ?_, ?_, hnot s hbelow⟩, fun s₀ hs₀ => ?_⟩
  · rw [hbelow.typed.env]
    rfl
  · rw [hbelow.typed.env]
    rfl
  · exact hbelow.lookupsKept_iff (hbelow.typed.superclasses 1 0 hbelow.superclass).2
  · obtain ⟨hsuper, hattrs⟩ := runtimeInit_class_of hs₀
    exact hnot s₀ ⟨.init hs₀, hsuper⟩ hattrs

/-- Once Class has a constant that is Object, the global constants keep everything. -/
theorem lookups_kept_iff_constant : ∃ s, Reachable runtimeMachine s ∧ LookupsKept s := by
  obtain ⟨s, hreach, hup, hall⟩ := exists_refers_up
  obtain ⟨⟨cls, obj, hcls, hobj, hiff, -⟩, -⟩ := lookups_kept_iff hreach
  rw [(classBelowObject_of_reachable hreach).typed.env] at hcls hobj
  obtain rfl : 1 = cls := Option.some.inj hcls
  obtain rfl : 0 = obj := Option.some.inj hobj
  exact ⟨s, hreach, hiff.mpr ⟨hup, hall⟩⟩

/-- A lookup on the class Class goes on to Object, which Class does not refer to. -/
theorem superclass_not_kept : ¬ ∀ s, Reachable runtimeMachine s → LookupsKept s := by
  intro hall
  obtain ⟨s, hs, hsuper, hattrs⟩ := ok_of_any runtimeInit_class
  have hbelow : ClassBelowObject s := ⟨.init hs, hsuper⟩
  have hobject : s.IsClass 0 := (hbelow.typed.superclasses 1 0 hsuper).2
  have hkept := hall s ⟨_, .nil hs⟩ 1 0 (.self (.inl hsuper)) hobject
  exact hbelow.not_reaches hattrs hkept

end Pup.Runtime
