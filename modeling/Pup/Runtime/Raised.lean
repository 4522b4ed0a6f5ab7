/-
What is raised.

`raise` raises an instance of a class below Exception as it is, and makes a `RuntimeError` of
anything else; so do the functions of the runtime that have an error to report.  Whatever
the program is, then, what comes back from an invocation as an exception is an instance of a
class below Exception (`raised_exceptions`), which is what the landing pads rely on when they
ask `pup_is_descendant_or_same` about it.
-/
import Pup.Runtime.Builtins

namespace Pup.Runtime

open Chain Outcome Transition

/-! ### The classes of errors -/

/-- The superclasses of Exception, StandardError, RuntimeError and Fixnum. -/
def startedSuperclasses : List (Ref × Ref) := [(3, 0), (4, 3), (5, 4), (10, 0)]

/-- Every class that has a superclass says how its instances are allocated, and the classes of
errors are where `runtime_init` has put them. -/
structure Instantiable (s : State) : Prop where
  typed : Typed s
  allocates : ∀ r c p, s.class (some r) = .ok c → c.superclass = some p →
    ∃ allocate, c.allocate_instance = some allocate
  superclasses : ∀ q ∈ startedSuperclasses, s.superclass q.1 = some q.2

/-- What `Instantiable` says of a class. -/
def Layout.Instantiable (layout : Layout) : Prop :=
  ∀ c p, layout = .pupClass c → c.superclass = some p →
    ∃ allocate, c.allocate_instance = some allocate

theorem Layout.Blank.instantiable {layout : Layout} (h : layout.Blank) : layout.Instantiable := by
  intro c p hc hp
  rw [h c hc] at hp
  cases hp

/-- What is allocated. -/
theorem step_instantiable {s s' : State} (hs : Typed s) {i : Label} (h : step s i = some s') :
    (∃ t layout, layout.Instantiable ∧ s' = (s.alloc (some t) layout).1) ∨
    (∃ r name_sym fn, Defined s s' r ⟨name_sym, .generated fn⟩) ∨ SameLayouts s s' := by
  cases i with
  | createClass superclass scope name =>
      obtain ⟨c, hc, h⟩ := bind_ok (toOption_eq_some h)
      obtain ⟨⟨s₁, r⟩, hcreate, h⟩ := bind_ok h
      cases h
      obtain ⟨-, -, heq⟩ := pupCreateClass_alloc hs hcreate
      refine .inl ⟨1, _, fun c p hc _ => ?_, heq⟩
      cases hc
      exact ⟨_, rfl⟩
  | defineMethod class_ name_sym fn =>
      obtain ⟨r, hr, hdef⟩ := pupDefineMethod_ok (toOption_eq_some h)
      exact .inr (.inl ⟨r, name_sym, fn, hdef⟩)
  | new target =>
      obtain ⟨p, hp, rfl⟩ := map_toOption_eq_some h
      obtain ⟨r, layout, -, -, hblank, -, heq⟩ :=
        pupClassAllocateInstance_ok hs (pupClassNew_ok hp)
      exact .inl ⟨r, layout, hblank.instantiable, heq⟩
  | createObject type =>
      obtain ⟨p, hp, rfl⟩ := map_toOption_eq_some h
      have hp : pupClassAllocateInstance s (some type) = .ok p := hp
      obtain ⟨r, layout, -, -, hblank, -, heq⟩ := pupClassAllocateInstance_ok hs hp
      exact .inl ⟨r, layout, hblank.instantiable, heq⟩
  | fixnum value =>
      cases h
      refine .inl ⟨10, .pupFixnum value, fun c p hc _ => (by cases hc), ?_⟩
      rw [pupFixnumCreate, hs.env]
      rfl
  | string str =>
      cases h
      refine .inl ⟨2, .pupString (some str), fun c p hc _ => (by cases hc), ?_⟩
      rw [pupStringNewCstr, hs.env]
      rfl
  | ivSet obj sym val => exact .inr (.inr (pupIvSet_ok (toOption_eq_some h)))

theorem Instantiable.step {s s' : State} (hs : Instantiable s) {i : Label}
    (h : Runtime.step s i = some s') : Instantiable s' := by
  have hkeeps := step_keepsClasses hs.typed h
  refine ⟨hs.typed.step h, fun r c p hc hp => ?_, fun q hq => ?_⟩
  rotate_left
  · have hq := hs.superclasses q hq
    exact (hkeeps q.1 (superclass_isClass hq)).2.trans hq
  rcases step_instantiable hs.typed h with ⟨t, layout, hlayout, rfl⟩ | ⟨k, name_sym, fn, hd⟩ |
    hsame
  · by_cases hlt : r < s.objects.length
    · rw [class_alloc_of_lt hlt] at hc
      exact hs.allocates r c p hc hp
    · obtain rfl := eq_length_of_lt_alloc (isClass_lt ⟨c, hc⟩) hlt
      exact hlayout c p (class_alloc_new.mp hc) hp
  · by_cases hk : r = k
    · subst hk
      obtain ⟨c₁, hc₁⟩ := hd.isClass
      obtain rfl := Except.ok.inj ((hd.class_self hc₁).symm.trans hc)
      exact hs.allocates r c₁ p hc₁ hp
    · rw [hd.class_of_ne hk] at hc
      exact hs.allocates r c p hc hp
  · exact hs.allocates r c p ((hsame.class_ok_iff r c).mp hc) hp

theorem runtimeInit_instantiable : runtimeInit.toOption.any (fun s =>
    s.objects.length = 11 ∧ (∀ q ∈ startedSuperclasses, s.superclass q.1 = some q.2) ∧
      ∀ r < 11, ∀ c ∈ (s.class (some r)).toOption, c.superclass ≠ none →
        c.allocate_instance ≠ none) = true := by
  decide +kernel

theorem Instantiable.init {s : State} (h : runtimeInit = .ok s) : Instantiable s := by
  have hinit := runtimeInit_instantiable
  rw [h] at hinit
  obtain ⟨hlength, hsuper, hall⟩ := of_decide_eq_true hinit
  refine ⟨.init h, fun r c p hc hp => Option.ne_none_iff_exists'.mp ?_, hsuper⟩
  refine hall r (hlength ▸ isClass_lt ⟨c, hc⟩) c ?_ (by simp [hp])
  simp [hc, Except.toOption]

theorem instantiable_of_reachable {s : State} (h : Reachable runtimeMachine s) :
    Instantiable s :=
  h.invariant (fun _ => Instantiable.init) fun _ _ _ hs hstep => hs.step hstep

/-- An instance of a class below Exception. -/
def Exceptional (s : State) (e : Ref) : Prop :=
  ∃ x t, s.env.class_exception = some x ∧ s.type e = some t ∧ Descends s x t

section Instantiable

variable {s : State} (hs : Instantiable s)
include hs

/-- **A `RuntimeError` is an exception.** -/
theorem Instantiable.runtimeerror_descends : Descends s 3 5 := by
  have hruntime : s.superclass 5 = some 4 := hs.superclasses (5, 4) (by decide)
  have hstandard : s.superclass 4 = some 3 := hs.superclasses (4, 3) (by decide)
  obtain ⟨l, hl⟩ := hs.typed.chain 3 (hs.typed.superclasses 4 3 hstandard).2
  obtain ⟨l', hl'⟩ := hs.typed.chain 5 (superclass_isClass hruntime)
  have hlinked : Linked s.superclass (some 5) (5 :: 4 :: l) :=
    .cons (hruntime ▸ .cons (hstandard ▸ hl.linked))
  refine hl'.descends_iff.mpr (hlinked.above.mp ?_)
  have hmem : 3 ∈ l := hl.linked.above.mpr (.refl hl.linked)
  exact List.mem_cons_of_mem _ (List.mem_cons_of_mem _ hmem)

/-- Fixnum is not below Exception. -/
theorem Instantiable.fixnum_not_descends : ¬ Descends s 3 10 := by
  intro h
  have hfixnum : s.superclass 10 = some 0 := hs.superclasses (10, 0) (by decide)
  obtain ⟨l, hl⟩ := hs.typed.chain 10 (superclass_isClass hfixnum)
  obtain ⟨l₀, hl₀⟩ := hs.typed.chain 0 (hs.typed.superclasses 10 0 hfixnum).2
  have hmem : 3 ∈ l := hl.linked.above.mpr (hl.descends_iff.mp h)
  obtain rfl : l = 10 :: l₀ := hl.linked.unique (.cons (hfixnum ▸ hl₀.linked))
  have hmem : 3 ∈ l₀ := (List.mem_cons.mp hmem).resolve_left (by decide)
  have hle := hs.typed.descends_le (hs.typed.superclasses 10 0 hfixnum).2
    (hl₀.descends_iff.mpr (hl₀.linked.above.mp hmem))
  exact absurd hle (by decide)

/-- A class below Exception has a superclass. -/
theorem Instantiable.superclass_of_descends {t : Ref} (ht : s.IsClass t)
    (hdesc : Descends s 3 t) : ∃ p, s.superclass t = some p := by
  by_cases heq : t = 3
  · subst heq
    exact ⟨0, hs.superclasses (3, 0) (by decide)⟩
  · obtain ⟨l, hl⟩ := hs.typed.chain t ht
    have hmem : 3 ∈ l := hl.linked.above.mpr (hl.descends_iff.mp hdesc)
    cases hp : s.superclass t with
    | some p => exact ⟨p, rfl⟩
    | none =>
        obtain rfl : l = [t] := hl.linked.unique (.cons (hp ▸ .nil))
        exact absurd (List.mem_singleton.mp hmem).symm heq

/-- A class below Exception makes objects that have no struct of their own. -/
theorem Instantiable.allocate_exception {t : Ref} (ht : s.IsClass t) (hdesc : Descends s 3 t) :
    pupClassAllocateInstance s (some t) = .ok (s.alloc (some t) .pupObject) := by
  obtain ⟨p, hp⟩ := hs.superclass_of_descends ht hdesc
  obtain ⟨c, hc⟩ := ht
  obtain ⟨allocate, hal⟩ := hs.allocates t c p hc ((superclass_eq hc).symm.trans hp)
  have hle : 3 ≤ t := hs.typed.descends_le ⟨c, hc⟩ hdesc
  have hne : t ≠ 10 := by
    rintro rfl
    exact hs.fixnum_not_descends hdesc
  have hstruct : allocate.struct = .pupObject := by
    rw [hs.typed.allocates t c allocate hc hal]
    unfold instanceStruct
    split
    · exact absurd hle (by decide)
    · exact absurd hle (by decide)
    · exact absurd rfl hne
    · rfl
  have hallocate : allocate = .pup_object_allocate_instance := by
    cases allocate <;> first | rfl | cases hstruct
  simp only [pupClassAllocateInstance, hc, bind, Except.bind, hal, hallocate, allocateInstance]

/-! ### What is made and raised -/

omit hs in
/-- A `RuntimeError` and the String that is its message, the first of them at `n`. -/
def errorObjects (n : Ref) (message : String) : List Obj :=
  [⟨some 5, [("@message", some (n + 1))], .pupObject⟩, ⟨some 2, [], .pupString (some message)⟩]

omit hs in
/-- The state with the two behind the others. -/
def State.withError (s : State) (message : String) : State :=
  { s with objects := s.objects ++ errorObjects s.objects.length message }

/-- **What `pup_new_runtimeerror` makes.** -/
theorem Instantiable.newRuntimeerror (message : String) :
    pupNewRuntimeerror s (some message) = .ok (s.withError message, s.objects.length) := by
  have hruntime : s.IsClass 5 := superclass_isClass (hs.superclasses (5, 4) (by decide))
  have henv : s.env.class_runtimeerror = some 5 := by
    rw [hs.typed.env]
    rfl
  have hcreate : pupCreateObject s s.env.class_runtimeerror =
      .ok (s.alloc (some 5) .pupObject) := by
    rw [henv]
    exact hs.allocate_exception hruntime hs.runtimeerror_descends
  have hstring : s.env.class_string = some 2 := hs.typed.class_string
  unfold pupNewRuntimeerror pupExceptionMessageSet pupIvSet
  rw [hcreate]
  simp [bind, Except.bind, pure, Except.pure, pupStringNewCstr, State.alloc, State.object,
    State.setObject, hstring, setAttr, State.withError, errorObjects]

/-- An error of the runtime is an exception, and the rest is as it was. -/
theorem Instantiable.exceptional_withError (message : String) :
    Exceptional (s.withError message) s.objects.length := by
  have hmoves := moves_runtimeerror (hs.newRuntimeerror message)
  have hruntime : s.IsClass 5 := superclass_isClass (hs.superclasses (5, 4) (by decide))
  refine ⟨3, 5, hs.typed.class_exception, ?_, ?_⟩
  · simp [State.type, State.withError, errorObjects]
  · exact ((hmoves.keepsClasses hs.typed).descends_iff hs.typed hruntime).mpr
      hs.runtimeerror_descends

end Instantiable

/-- What comes of it is raised. -/
theorem Instantiable.raise_exceptional {w w' : World} (hs : Instantiable w.state)
    {message : Option String} {res : Result} (h : pupRaiseRuntimeerror w message = .ok (w', res)) :
    ∃ e, res = .raised e ∧ Exceptional w'.state e := by
  cases message with
  | none => cases h
  | some message =>
      unfold pupRaiseRuntimeerror at h
      rw [hs.newRuntimeerror] at h
      cases h
      exact ⟨_, rfl, hs.exceptional_withError message⟩

/-! ### The methods of the runtime -/

/-- What comes back is allowed for: it has done steps of the runtime, and raises exceptions. -/
structure Sound (w w' : World) (res : Result) : Prop where
  does : Does w w'
  raised : ∀ e, res = .raised e → Exceptional w'.state e

theorem Sound.returned {w w' : World} (h : Does w w') (v : Option Ref) :
    Sound w w' (.returned v) :=
  ⟨h, fun e he => (by cases he)⟩

theorem sound_raise {w w' : World} (hs : Instantiable w.state) {message : Option String}
    {res : Result} (h : pupRaiseRuntimeerror w message = .ok (w', res)) : Sound w w' res := by
  obtain ⟨e, rfl, he⟩ := hs.raise_exceptional h
  refine ⟨does_raise h, fun e' heq => ?_⟩
  cases heq
  exact he

/-- Yes is the answer for the instances of the classes below. -/
theorem kindof_true {s : State} {r a : Ref} (h : pupObjectKindof s (some r) (some a) = .ok true) :
    ∃ t, s.type r = some t ∧ Descends s a t := by
  obtain ⟨o, ho, h⟩ := bind_ok h
  have ho := object_ok.mp ho
  cases htype : o.type with
  | none =>
      rw [htype] at h
      cases h
  | some t =>
      rw [htype] at h
      exact ⟨t, (type_eq ho).trans htype, h⟩

theorem sound_objectRaise {w w' : World} (hs : Instantiable w.state) {argv : List (Option Ref)}
    {res : Result} (h : pupObjectRaise w argv = .ok (w', res)) : Sound w w' res := by
  obtain ⟨_, -, h⟩ := bind_ok h
  split at h
  · rename_i arg harg
    obtain ⟨kind, hkind, h⟩ := bind_ok h
    cases kind with
    | true =>
        cases h
        rw [hs.typed.class_exception] at hkind
        obtain ⟨t, ht, hdesc⟩ := kindof_true hkind
        refine ⟨.refl w, fun e he => ?_⟩
        cases he
        exact ⟨3, t, hs.typed.class_exception, ht, hdesc⟩
    | false =>
        obtain ⟨string, -, h⟩ := bind_ok h
        cases string with
        | true =>
            obtain ⟨value, -, h⟩ := bind_ok h
            exact sound_raise hs h
        | false => exact sound_raise hs h
  · cases h

theorem sound_puts {addr : Ref → String} {w w' : World} {argv : List (Option Ref)}
    {res : Result} (h : pupPuts addr w argv = .ok (w', res)) : Sound w w' res := by
  obtain ⟨_, -, h⟩ := bind_ok h
  split at h
  · obtain ⟨str, -, h⟩ := bind_ok h
    cases h
    have hdoes : Does w { w with stdout := w.stdout ++ [str] } := ⟨.refl, [str], rfl⟩
    exact .returned hdoes none
  · cases h

theorem sound_opEquals {w w' : World} {target : Option Ref} {argv : List (Option Ref)}
    {res : Result} (h : pupObjectOpEquals w target argv = .ok (w', res)) : Sound w w' res := by
  obtain ⟨_, -, h⟩ := bind_ok h
  cases h
  exact .returned (.refl w) _

theorem sound_allocate {w w' : World} {target : Option Ref} {res : Result}
    (h : pupObjectAllocate w target = .ok (w', res)) : Sound w w' res := by
  obtain ⟨⟨s, o⟩, halloc, h⟩ := bind_ok h
  cases h
  exact .returned (.state (moves_allocate halloc)) _

theorem sound_classToS {w w' : World} {target : Option Ref} {res : Result}
    (h : pupClassToS w target = .ok (w', res)) : Sound w w' res := by
  obtain ⟨c, -, h⟩ := bind_ok h
  obtain ⟨name, -, h⟩ := bind_ok h
  cases h
  exact .returned (.state (moves_string w.state name)) _

theorem sound_exceptionInitialize {w w' : World} {target : Option Ref}
    {argv : List (Option Ref)} {res : Result}
    (h : pupExceptionInitialize w target argv = .ok (w', res)) : Sound w w' res := by
  unfold pupExceptionInitialize at h
  split at h
  · cases h
    exact .returned (.refl w) none
  · obtain ⟨s, hset, h⟩ := bind_ok h
    cases h
    exact .returned (.state (moves_ivSet hset)) none
  · obtain ⟨_, -, h⟩ := bind_ok h
    cases h
    exact .returned (.refl w) none

theorem sound_exceptionMessage {w w' : World} {target : Option Ref} {res : Result}
    (h : pupExceptionMessage w target = .ok (w', res)) : Sound w w' res := by
  obtain ⟨message, -, h⟩ := bind_ok h
  cases h
  exact .returned (.refl w) message

theorem sound_fixnumPlus {add : BitVec 32 → BitVec 32 → BitVec 32} {w w' : World}
    {target : Option Ref} {argv : List (Option Ref)} {res : Result}
    (h : makes w (pupFixnumPlus add w.state target argv) = .ok (w', res)) : Sound w w' res := by
  cases hplus : pupFixnumPlus add w.state target argv with
  | error e =>
      rw [hplus] at h
      cases h
  | ok p =>
      rw [hplus] at h
      cases h
      obtain ⟨_, -, hplus⟩ := bind_ok hplus
      obtain ⟨t, -, hplus⟩ := bind_ok hplus
      obtain ⟨o, -, hplus⟩ := bind_ok hplus
      split at hplus
      · obtain ⟨name, -, hplus⟩ := bind_ok hplus
        cases hplus
      · obtain ⟨left, -, hplus⟩ := bind_ok hplus
        obtain ⟨right, -, hplus⟩ := bind_ok hplus
        cases hplus
        exact .returned (.state (.step (i := .fixnum (add left right)) rfl)) _

theorem sound_answers {w w' : World} {x : Except Stop (Option Ref)} {res : Result}
    (h : answers w x = .ok (w', res)) : Sound w w' res := by
  cases x with
  | error e => cases h
  | ok v =>
      cases h
      exact .returned (.refl w) v

/-- **What a method of the runtime does**, and what it raises. -/
theorem sound_builtin {addr : Ref → String} {add : BitVec 32 → BitVec 32 → BitVec 32}
    {method : PupMethod} {w w' : World} {target : Option Ref} {argv : List (Option Ref)}
    {x : Except Stop (World × Result)} {res : Result} (hs : Instantiable w.state)
    (hmethod : builtin addr add w target argv method = some x)
    (h : orRaise w x = .ok (w', res)) : Sound w w' res := by
  cases x with
  | error e =>
      cases e with
      | raise message => exact sound_raise hs h
      | fault f => cases h
      | call fn => cases h
  | ok p =>
      have hx : (.ok p : Except Stop (World × Result)) = .ok (w', res) := h
      cases method with
      | pup_object_initialize =>
          cases hmethod
          cases hx
          exact .returned (.refl w) none
      | pup_object_raise => exact sound_objectRaise hs ((Option.some.inj hmethod).trans hx)
      | pup_puts => exact sound_puts ((Option.some.inj hmethod).trans hx)
      | pup_object_op_equals => exact sound_opEquals ((Option.some.inj hmethod).trans hx)
      | pup_object_allocate => exact sound_allocate ((Option.some.inj hmethod).trans hx)
      | pup_class_to_s => exact sound_classToS ((Option.some.inj hmethod).trans hx)
      | pup_exception_initialize =>
          exact sound_exceptionInitialize ((Option.some.inj hmethod).trans hx)
      | pup_exception_message => exact sound_exceptionMessage ((Option.some.inj hmethod).trans hx)
      | pup_fixnum_plus => exact sound_fixnumPlus ((Option.some.inj hmethod).trans hx)
      | pup_fixnum_op_equals => exact sound_answers ((Option.some.inj hmethod).trans hx)
      | pup_fixnum_op_lessthan => exact sound_answers ((Option.some.inj hmethod).trans hx)
      | pup_class_new => cases hmethod
      | generated fn => cases hmethod

/-! ### Whatever the program is -/

theorem Sound.after {w w₁ w' : World} {res : Result} (h : Does w w₁) (h' : Sound w₁ w' res) :
    Sound w w' res :=
  ⟨h.trans h'.does, h'.raised⟩

theorem Instantiable.moves {s s' : State} (hs : Instantiable s) (h : Moves s s') :
    Instantiable s' := by
  induction h with
  | refl => exact hs
  | tail _ hstep ih =>
      obtain ⟨i, hstep⟩ := hstep
      exact ih.step hstep

/-- **The invariant of a run**, by induction on what has been done. -/
theorem Runs.sound {addr : Ref → String} {add : BitVec 32 → BitVec 32 → BitVec 32} {job : Job}
    {w w' : World} {res : Result} (h : Runs addr add job w w' res) (hs : Instantiable w.state) :
    Sound w w' res := by
  induction h with
  | undefined h hraise => exact sound_raise hs hraise
  | selected h hcall ih => exact ih hs
  | builtin hmethod h => exact sound_builtin hs hmethod h
  | new hallocate hinit ihallocate ihinit =>
      have hfirst := ihallocate hs
      have hsecond := ihinit (hs.moves hfirst.does.moves)
      exact .returned (hfirst.does.trans hsecond.does) _
  | newAllocate hallocate ih => exact ih hs
  | newInitialize hallocate hinit ihallocate ihinit =>
      have hfirst := ihallocate hs
      exact .after hfirst.does (ihinit (hs.moves hfirst.does.moves))
  | generated h ih => exact ih hs
  | return_ v => exact .returned (.refl _) v
  | act h hrest ih =>
      have hdoes := Does.state (Moves.step h)
      exact .after hdoes (ih (hs.moves hdoes.moves))
  | constant h hraise => exact sound_raise hs hraise
  | send h hrest ih ihrest =>
      have hfirst := ih hs
      exact .after hfirst.does (ihrest (hs.moves hfirst.does.moves))
  | escape h ih => exact ih hs
  | rescue h hrest ih ihrest =>
      have hfirst := ih hs
      exact .after hfirst.does (ihrest (hs.moves hfirst.does.moves))

/-- A landing pad is told whether a class is one that the exception is of. -/
theorem Exceptional.kindof {s : State} {e : Ref} (h : Exceptional s e) (hs : Typed s) (a : Ref) :
    ∃ b, pupObjectKindof s (some e) (some a) = .ok b := by
  obtain ⟨x, t, -, ht, -⟩ := h
  obtain ⟨o, ho⟩ := object_of_type ht
  obtain ⟨l, hl⟩ := hs.chain t (hs.isClass_type ht)
  refine ⟨decide (a ∈ l), ?_⟩
  rw [type_eq ho] at ht
  unfold pupObjectKindof
  simp only [object_ok.mpr ho, bind, Except.bind, ht]
  exact hl.descends a

/--
**Only exceptions are raised.**  From a state of the runtime, whatever method is invoked on
whatever arguments, and whatever the methods of the program do: if the invocation comes back,
the state it leaves is one of the runtime's, with the classes and the objects that there were,
and nothing printed is taken back; and what it raises, if it raises, is an instance of a class
below Exception, about which every class can be asked.
-/
theorem raised_exceptions {addr : Ref → String} {add : BitVec 32 → BitVec 32 → BitVec 32}
    {job : Job} {w w' : World} {res : Result} (hs : Reachable runtimeMachine w.state)
    (h : Runs addr add job w w' res) :
    Reachable runtimeMachine w'.state ∧ KeepsClasses w.state w'.state ∧
      KeepsTypes w.state w'.state ∧ (∃ more, w'.stdout = w.stdout ++ more) ∧
      ∀ e, res = .raised e → Exceptional w'.state e ∧
        ∀ a, ∃ b, pupObjectKindof w'.state (some e) (some a) = .ok b := by
  have htyped := typed_of_reachable hs
  obtain ⟨⟨hmoves, hstdout⟩, hraised⟩ := h.sound (instantiable_of_reachable hs)
  have hs' := hmoves.reachable hs
  refine ⟨hs', hmoves.keepsClasses htyped, hmoves.keepsTypes htyped, hstdout, fun e he => ?_⟩
  have hexc := hraised e he
  exact ⟨hexc, hexc.kindof (typed_of_reachable hs')⟩

/-- A method that does not exist is invoked on the true instance. -/
theorem raised_exceptions_undefined :
    ∃ w w' e, runtimeInit = .ok w.state ∧ Reachable runtimeMachine w'.state ∧
      Runs (fun _ => "") (· + ·) (.invoke (some 8) "nope" []) w w' (.raised e) ∧
      Exceptional w'.state e := by
  have hrun : runtimeInit.toOption.any (fun s =>
      pupInvoke s (some 8) "nope" = .error (.raise "undefined method `nope' for TrueClass")) =
        true := by
    decide +kernel
  obtain ⟨s, hs, hrun⟩ := ok_of_any hrun
  have hreach : Reachable runtimeMachine s := ⟨_, .nil hs⟩
  have hraise := (instantiable_of_reachable hreach).newRuntimeerror
    "undefined method `nope' for TrueClass"
  have h : Runs (fun _ => "") (· + ·) (.invoke (some 8) "nope" []) ⟨s, []⟩ _ _ :=
    .undefined hrun (by unfold pupRaiseRuntimeerror; rw [hraise]; rfl)
  obtain ⟨hreach', -, -, -, hraised⟩ := raised_exceptions hreach h
  exact ⟨⟨s, []⟩, _, _, hs, hreach', h, (hraised _ rfl).1⟩

/-! ### Messages -/

section Runs

variable {addr : Ref → String} {add : BitVec 32 → BitVec 32 → BitVec 32} {target : Option Ref}
  {name_sym : Sym} {argv : List (Option Ref)} {method : PupMethod} {w w' : World} {res : Result}

theorem runs_invoke_iff (h : pupInvoke w.state target name_sym = .ok method) :
    Runs addr add (.invoke target name_sym argv) w w' res ↔
      Runs addr add (.call method target argv) w w' res := by
  constructor
  · intro hruns
    cases hruns with
    | undefined hundefined _ => rw [h] at hundefined; cases hundefined
    | selected hselected hcall =>
        obtain rfl := Except.ok.inj (h.symm.trans hselected)
        exact hcall
  · exact .selected h

theorem ok_eq_iff {α : Type} {a b : α} : (.ok a : Except Stop α) = .ok b ↔ b = a :=
  ⟨fun h => (Except.ok.inj h).symm, fun h => congrArg _ h.symm⟩

theorem runs_builtin_iff {x : Except Stop (World × Result)}
    (h : builtin addr add w target argv method = some x) :
    Runs addr add (.call method target argv) w w' res ↔ orRaise w x = .ok (w', res) := by
  constructor
  · intro hruns
    cases hruns with
    | builtin hmethod hx =>
        obtain rfl := Option.some.inj (h.symm.trans hmethod)
        exact hx
    | new _ _ => cases h
    | newAllocate _ => cases h
    | newInitialize _ _ => cases h
    | generated _ => cases h
  · exact .builtin h

end Runs

/-- `new` and what it invokes are the runtime's for the class. -/
structure Plain (s : State) (t : Ref) : Prop where
  new : pupInvoke s (some t) "new" = .ok .pup_class_new
  allocate : pupInvoke s (some t) "allocate" = .ok .pup_object_allocate
  init : findMethodInClasses s s.fuel (some t) "initialize" =
    .ok (some PupMethod.pup_exception_initialize)

/-- What was there is as it was. -/
def Keeps (s s' : State) : Prop :=
  ∀ (r : Ref) (o : Obj), s.objects[r]? = some o → s'.objects[r]? = some o

theorem keeps_append {s : State} (l : List Obj) :
    Keeps s { s with objects := s.objects ++ l } := by
  intro r o ho
  exact (List.getElem?_append_left (object_lt ho)).trans ho

/-- The state with a new object that has a message. -/
def State.withException (s : State) (t : Ref) (message : Option Ref) : State :=
  { s with objects := s.objects ++ [⟨some t, [("@message", message)], .pupObject⟩] }

section New

variable {s : State} (hs : Instantiable s) {t : Ref} (ht : s.IsClass t) (hdesc : Descends s 3 t)
include hs ht hdesc

/-- An object of the class finds the methods that the class has. -/
theorem Instantiable.invoke_new {name_sym : Sym} {method : PupMethod}
    (h : findMethodInClasses s s.fuel (some t) name_sym = .ok (some method)) :
    pupInvoke (s.alloc (some t) .pupObject).1 (some s.objects.length) name_sym = .ok method := by
  have halloc := hs.allocate_exception ht hdesc
  obtain ⟨r, layout, hr, hfresh, -, -, heq⟩ := pupClassAllocateInstance_ok hs.typed halloc
  obtain rfl := Option.some.inj hr
  have heq : (s.alloc (some t) .pupObject).1 = (s.alloc (some t) layout).1 := heq
  have hmethods : ∀ k, (s.alloc (some t) .pupObject).1.methods k = s.methods k := by
    intro k
    rw [heq, methods_alloc hfresh]
  obtain ⟨l, hl⟩ := hs.typed.chain t ht
  have hl' : Superclasses (s.alloc (some t) .pupObject).1 t l :=
    ((moves_allocate halloc).keepsClasses hs.typed).superclasses hl
  have ho : (s.alloc (some t) .pupObject).1.objects[s.objects.length]? =
      some ⟨some t, [], .pupObject⟩ := List.getElem?_concat_length
  refine (pupInvoke_ok_iff ho ⟨t, rfl, hl'⟩).mpr ?_
  rw [hl.find] at h
  simp only [hmethods]
  exact Except.ok.inj h

/-- **What `new` makes of a class below Exception and a message.** -/
theorem Instantiable.runs_new {addr : Ref → String} {add : BitVec 32 → BitVec 32 → BitVec 32}
    (hplain : Plain s t) (message : Option Ref) (stdout : List String) (w' : World) (res : Result) :
    Runs addr add (.invoke (some t) "new" [message]) ⟨s, stdout⟩ w' res ↔
      w' = ⟨s.withException t message, stdout⟩ ∧ res = .returned (some s.objects.length) := by
  have hallocate : ∀ w₁ res₁, Runs addr add (.invoke (some t) "allocate" []) ⟨s, stdout⟩ w₁ res₁ ↔
      (w₁, res₁) = (⟨(s.alloc (some t) .pupObject).1, stdout⟩,
        .returned (some s.objects.length)) := by
    intro w₁ res₁
    rw [runs_invoke_iff hplain.allocate, runs_builtin_iff rfl, pupObjectAllocate,
      hs.allocate_exception ht hdesc]
    exact ok_eq_iff
  have hset : pupExceptionMessageSet (s.alloc (some t) .pupObject).1 (some s.objects.length)
      message = .ok (s.withException t message) := by
    simp [pupExceptionMessageSet, pupIvSet, State.alloc, State.object, State.setObject, setAttr,
      State.withException, bind, Except.bind, pure, Except.pure]
  have hinit : ∀ w₂ res₂, Runs addr add (.invoke (some s.objects.length) "initialize" [message])
      ⟨(s.alloc (some t) .pupObject).1, stdout⟩ w₂ res₂ ↔
        (w₂, res₂) = (⟨s.withException t message, stdout⟩, .returned none) := by
    intro w₂ res₂
    rw [runs_invoke_iff (hs.invoke_new ht hdesc hplain.init), runs_builtin_iff rfl,
      pupExceptionInitialize, hset]
    exact ok_eq_iff
  rw [runs_invoke_iff hplain.new]
  constructor
  · intro h
    cases h with
    | builtin hmethod _ => cases hmethod
    | new halloc hrest =>
        cases (hallocate _ _).mp halloc
        cases (hinit _ _).mp hrest
        exact ⟨rfl, rfl⟩
    | newAllocate halloc => cases (hallocate _ _).mp halloc
    | newInitialize halloc hrest =>
        cases (hallocate _ _).mp halloc
        cases (hinit _ _).mp hrest
  · rintro ⟨rfl, rfl⟩
    exact .new ((hallocate _ _).mpr rfl) ((hinit _ _).mpr rfl)

/-- What has been made is of the class, and an exception. -/
theorem Instantiable.exceptional_new (message : Option Ref) :
    (s.withException t message).type s.objects.length = some t ∧
      Exceptional (s.withException t message) s.objects.length := by
  have htype : (s.withException t message).type s.objects.length = some t := by
    simp [State.type, State.withException]
  have halloc := moves_allocate (hs.allocate_exception ht hdesc)
  have hset : pupIvSet (s.alloc (some t) .pupObject).1 (some s.objects.length) "@message"
      message = .ok (s.withException t message) := by
    simp [pupIvSet, State.alloc, State.object, State.setObject, setAttr, State.withException,
      bind, Except.bind, pure, Except.pure]
  have hmoves : Moves s (s.withException t message) := halloc.trans (moves_ivSet hset)
  exact ⟨htype, 3, t, hs.typed.class_exception, htype,
    ((hmoves.keepsClasses hs.typed).descends_iff hs.typed ht).mpr hdesc⟩

end New

theorem messageGet_withException (s : State) (t : Ref) (message : Option Ref) :
    pupExceptionMessageGet (s.withException t message) (some s.objects.length) = .ok message := by
  simp [pupExceptionMessageGet, pupIvGet, State.object, State.withException, findAttr, bind,
    Except.bind, pure, Except.pure]

/-- The text of an error of the runtime is the one it has been made of. -/
theorem Instantiable.exceptionText_withError {s : State} (hs : Instantiable s)
    (message : String) :
    exceptionText (s.withError message) (some s.objects.length) = .ok (some message) := by
  have hstring : s.env.class_string = some 2 := hs.typed.class_string
  simp [exceptionText, pupExceptionMessageGet, pupIvGet, pupStringValue, pupIsString,
    pupObjectInstanceof, pupStringValueUnsafe, State.object, hstring, State.withError,
    errorObjects, findAttr, bind, Except.bind, pure, Except.pure]

theorem objectRaise_exceptional {w : World} {r : Ref} (h : Exceptional w.state r) :
    pupObjectRaise w [some r] = .ok (w, .raised r) := by
  obtain ⟨x, t, hx, ht, hdesc⟩ := h
  obtain ⟨o, ho⟩ := object_of_type ht
  rw [type_eq ho] at ht
  have hkind : pupObjectKindof w.state (some r) w.state.env.class_exception = .ok true := by
    simp only [pupObjectKindof, object_ok.mpr ho, bind, Except.bind, ht, hx]
    exact hdesc
  simp [pupObjectRaise, pupArityCheck, hkind, bind, Except.bind, pure, Except.pure]

/-- An object that is no exception is not raised. -/
theorem Instantiable.kindof_false {s : State} (hs : Instantiable s) {r t : Ref}
    (ht : s.type r = some t) (hdesc : ¬ Descends s 3 t) :
    pupObjectKindof s (some r) s.env.class_exception = .ok false := by
  obtain ⟨o, ho⟩ := object_of_type ht
  obtain ⟨l, hl⟩ := hs.typed.chain t (hs.typed.isClass_type ht)
  rw [type_eq ho] at ht
  simp only [pupObjectKindof, object_ok.mpr ho, bind, Except.bind, ht, hs.typed.class_exception,
    hl.descends]
  rw [Descends, hl.descends] at hdesc
  simpa using hdesc

/-- **`raise` of a String** raises a `RuntimeError` of its value. -/
theorem Instantiable.objectRaise_string {w : World} (hs : Instantiable w.state) {r : Ref}
    {str : String} (h : w.state.IsString r) (hstr : w.state.stringValue r = some str) :
    pupObjectRaise w [some r] =
      .ok ({ w with state := w.state.withError str }, .raised w.state.objects.length) := by
  have htype : w.state.type r = some 2 := h.trans hs.typed.class_string
  have hdesc : ¬ Descends w.state 3 2 := fun hdesc =>
    absurd (hs.typed.descends_le (hs.typed.isClass_type htype) hdesc) (by decide)
  have hkind := hs.kindof_false htype hdesc
  obtain ⟨o, ho⟩ := object_of_type htype
  have hstring : pupIsString w.state (some r) = .ok true := by
    have hself : w.state.type r = w.state.env.class_string := h
    rw [pupIsString, instanceof_eq ho, hself]
    simp
  simp [pupObjectRaise, pupArityCheck, hkind, hstring, hs.typed.stringValueUnsafe h, hstr,
    pupRaiseRuntimeerror, hs.newRuntimeerror, bind, Except.bind, pure, Except.pure]

/--
**An exception arrives as it was raised.**  In every state of the runtime, `raise` of an
instance of a class below Exception raises that very object; `raise` of a String raises a
`RuntimeError` whose text is the value of the String; and `new` on a class below Exception,
unless the program has methods of its own for it, comes back with an instance of the class
whose message is the argument, and in no other way.  What was there before is as it was.
-/
theorem message_delivered {w : World} (hs : Reachable runtimeMachine w.state)
    (addr : Ref → String) (add : BitVec 32 → BitVec 32 → BitVec 32) :
    (∀ r, Exceptional w.state r → pupObjectRaise w [some r] = .ok (w, .raised r)) ∧
    (∀ r str, w.state.IsString r → w.state.stringValue r = some str →
      ∃ s e, pupObjectRaise w [some r] = .ok ({ w with state := s }, .raised e) ∧
        s.type e = s.env.class_runtimeerror ∧ exceptionText s (some e) = .ok (some str) ∧
        Exceptional s e ∧ Keeps w.state s) ∧
    (∀ t message, w.state.IsClass t → Descends w.state 3 t → Plain w.state t →
      ∃ s e, (∀ w' res, Runs addr add (.invoke (some t) "new" [message]) w w' res ↔
          w' = { w with state := s } ∧ res = .returned (some e)) ∧
        s.type e = some t ∧ pupExceptionMessageGet s (some e) = .ok message ∧
        Exceptional s e ∧ Keeps w.state s) := by
  have hs := instantiable_of_reachable hs
  refine ⟨fun r => objectRaise_exceptional, fun r str hr hstr => ?_,
    fun t message ht hdesc hplain => ?_⟩
  · have hexc := hs.exceptional_withError str
    refine ⟨_, _, hs.objectRaise_string hr hstr, ?_, hs.exceptionText_withError str, hexc,
      keeps_append _⟩
    have henv : (w.state.withError str).env.class_runtimeerror = some 5 := by
      rw [State.withError, hs.typed.env]
      rfl
    rw [henv]
    simp [State.type, State.withError, errorObjects]
  · obtain ⟨htype, hexc⟩ := hs.exceptional_new ht hdesc message
    exact ⟨_, _, hs.runs_new ht hdesc hplain message w.stdout, htype,
      messageGet_withException w.state t message, hexc, keeps_append _⟩

/-- The runtime's own RuntimeError is plain, and is made with a message that is an object. -/
theorem message_delivered_runtimeerror :
    ∃ w s e, runtimeInit = .ok w.state ∧ Plain w.state 5 ∧
      Runs (fun _ => "") (· + ·) (.invoke (some 5) "new" [some 8]) w { w with state := s }
        (.returned (some e)) ∧ pupExceptionMessageGet s (some e) = .ok (some 8) := by
  have hrun : runtimeInit.toOption.any (fun s => s.IsClass 5 ∧
      pupInvoke s (some 5) "new" = .ok .pup_class_new ∧
      pupInvoke s (some 5) "allocate" = .ok .pup_object_allocate ∧
      findMethodInClasses s s.fuel (some 5) "initialize" =
        .ok (some PupMethod.pup_exception_initialize)) = true := by
    decide +kernel
  obtain ⟨s, hs, hclass, hnew, hallocate, hinit⟩ := ok_of_any hrun
  have hreach : Reachable runtimeMachine s := ⟨_, .nil hs⟩
  have hplain : Plain s 5 := ⟨hnew, hallocate, hinit⟩
  have hdesc := (instantiable_of_reachable hreach).runtimeerror_descends
  obtain ⟨-, -, hdelivered⟩ :=
    message_delivered (w := ⟨s, []⟩) hreach (fun _ => "") (· + ·)
  obtain ⟨s', e, hruns, -, hmessage, -⟩ := hdelivered 5 (some 8) hclass hdesc hplain
  exact ⟨⟨s, []⟩, s', e, hs, hplain, (hruns _ _).mpr ⟨rfl, rfl⟩, hmessage⟩

end Pup.Runtime
