/-
Whether the methods of the runtime are called on objects they can read.

`new`, `allocate` and `to_s` read their target as a `struct PupClass`, and the operators of
Fixnum as a `struct PupFixnum`.  `Typed` is what is known of every state of the runtime: an
object's class says what it was allocated as, the methods of the runtime are where
`runtime_init` has put them, in front of those of the program, and superclasses are older
than their subclasses.  `pupInvoke_ok_iff` says which method an invocation selects.
-/
import Pup.Runtime.Methods

namespace Pup.Runtime

open Chain Outcome Transition

/-! ### The machine -/

/-- What a program does to the runtime. -/
inductive Label
  /-- `pup_create_class`, which wants a class for superclass -/
  | createClass (superclass : Ref) (scope : Option Ref) (name : String)
  /-- `pup_define_method` for a generated function -/
  | defineMethod (class_ : Ref) (name_sym : Sym) (fn : Nat)
  /-- `pup_class_new` -/
  | new (target : Ref)
  /-- `pup_create_object` -/
  | createObject (type : Ref)
  | fixnum (value : BitVec 32)
  | string (str : String)
  /-- `pup_iv_set`, and `pup_const_set` -/
  | ivSet (obj : Ref) (sym : Sym) (val : Option Ref)

def createClass (s : State) (superclass : Ref) (scope : Option Ref) (name : String) :
    Except Stop State := do
  let _ ← s.class (some superclass)
  let (s, _) ← pupCreateClass s (some superclass) scope name
  return s

def step (s : State) : Label → Option State
  | .createClass superclass scope name => (createClass s superclass scope name).toOption
  | .defineMethod class_ name_sym fn =>
      (pupDefineMethod s (some class_) name_sym (.generated fn)).toOption
  | .new target => ((pupClassNew s (some target)).map Prod.fst).toOption
  | .createObject type => ((pupCreateObject s (some type)).map Prod.fst).toOption
  | .fixnum value => some (pupFixnumCreate s value).1
  | .string str => some (pupStringNewCstr s str).1
  | .ivSet obj sym val => (pupIvSet s (some obj) sym val).toOption

def runtimeMachine : Machine State Label where
  init s := runtimeInit = .ok s
  next := step

/-! ### What methods read -/

/-- The structs an object may be allocated as. -/
inductive Struct
  | pupObject
  | pupClass
  | pupString
  | pupFixnum
  deriving DecidableEq, Repr

def Layout.struct : Layout → Struct
  | .pupObject => .pupObject
  | .pupClass _ => .pupClass
  | .pupString _ => .pupString
  | .pupFixnum _ => .pupFixnum

/-- What a method reads its target as. -/
def PupMethod.target : PupMethod → Struct
  | .pup_class_new | .pup_object_allocate | .pup_class_to_s => .pupClass
  | .pup_fixnum_plus | .pup_fixnum_op_equals | .pup_fixnum_op_lessthan => .pupFixnum
  | _ => .pupObject

/-- If invoking `name_sym` on the object selects a method that reads more than a
`struct PupObject`, the object was allocated as what is read. -/
def LayoutSafe (s : State) (o : Obj) (r : Ref) (name_sym : Sym) : Prop :=
  ∀ method, pupInvoke s (some r) name_sym = .ok method →
    method.target = .pupObject ∨ o.layout.struct = method.target

/-! ### The invariant -/

/-- The methods of the runtime on the class at `r`. -/
def builtins : Ref → List MethodListEntry
  | 0 => [⟨"new", .pup_class_new⟩, ⟨"allocate", .pup_object_allocate⟩, ⟨"to_s", .pup_class_to_s⟩,
      ⟨"initialize", PupMethod.pup_object_initialize⟩, ⟨"raise", .pup_object_raise⟩,
      ⟨"puts", .pup_puts⟩, ⟨"==", .pup_object_op_equals⟩]
  | 3 => [⟨"initialize", PupMethod.pup_exception_initialize⟩, ⟨"message", .pup_exception_message⟩]
  | 10 => [⟨"+", .pup_fixnum_plus⟩, ⟨"==", .pup_fixnum_op_equals⟩, ⟨"<", .pup_fixnum_op_lessthan⟩]
  | _ => []

/-- What the instances of the class at `r` are allocated as. -/
def instanceStruct : Ref → Struct
  | 1 => .pupClass
  | 2 => .pupString
  | 10 => .pupFixnum
  | _ => .pupObject

/-- What a function allocates. -/
def AllocateInstance.struct : AllocateInstance → Struct
  | .pup_object_allocate_instance => .pupObject
  | .pup_internal_class_allocate_instance => .pupClass
  | .string_allocate_instance => .pupString
  | .fixnum_allocate_instance => .pupFixnum

/-- `struct RuntimeEnv` after `runtime_init`. -/
def startedEnv : RuntimeEnv :=
  ⟨some 0, some 1, some 2, some 3, some 4, some 5, some 6, some 7, some 8, some 9, some 10⟩

/-- All entries are for generated methods. -/
def Generated (l : List MethodListEntry) : Prop := ∀ e ∈ l, ∃ fn, e.method = .generated fn

structure Typed (s : State) : Prop where
  env : s.env = startedEnv
  literals : s.IsClass 2 ∧ s.IsClass 10
  types : ∀ (r : Ref) (o : Obj), s.objects[r]? = some o →
    ∃ t, o.type = some t ∧ s.IsClass t ∧ o.layout.struct = instanceStruct t
  allocates : ∀ r c allocate, s.class (some r) = .ok c → c.allocate_instance = some allocate →
    allocate.struct = instanceStruct r
  superclasses : ∀ r p, s.superclass r = some p → p < r ∧ s.IsClass p
  methods : ∀ r, ∃ l, Generated l ∧ s.methods r = builtins r ++ l

/-- Every class has a chain of superclasses, since these are older. -/
theorem Typed.chain {s : State} (hs : Typed s) (r : Ref) (hr : s.IsClass r) :
    ∃ l, Superclasses s r l := by
  induction r using Nat.strongRecOn with
  | _ r ih =>
      cases hp : s.superclass r with
      | none => exact ⟨[r], .cons (hp ▸ .nil), by simpa using hr⟩
      | some p =>
          obtain ⟨hlt, hclass⟩ := hs.superclasses r p hp
          obtain ⟨l, hl⟩ := ih p hlt hclass
          exact ⟨r :: l, .cons (hp ▸ hl.linked), by simpa using ⟨hr, hl.classes⟩⟩

/-! ### Steps -/

theorem toOption_eq_some {α : Type} {x : Except Stop α} {a : α} (h : x.toOption = some a) :
    x = .ok a := by
  cases x with
  | error e => cases h
  | ok b => exact congrArg _ (Option.some.inj h)

theorem map_toOption_eq_some {α β : Type} {x : Except Stop α} {f : α → β} {b : β}
    (h : (x.map f).toOption = some b) : ∃ a, x = .ok a ∧ f a = b := by
  cases x with
  | error e => cases h
  | ok a => exact ⟨a, rfl, Option.some.inj h⟩

/-- What is allocated for an instance of `t`, and what it is if it is a class. -/
structure FreshLayout (s : State) (t : Ref) (layout : Layout) : Prop where
  type : s.IsClass t
  struct : layout.struct = instanceStruct t
  methods : ∀ c, layout = .pupClass c → c.method_list_head = []
  superclass : ∀ c p, layout = .pupClass c → c.superclass = some p → s.IsClass p
  allocates : ∀ c allocate, layout = .pupClass c → c.allocate_instance = some allocate →
    allocate.struct = .pupObject

/-- What is not a class has nothing more to it. -/
theorem FreshLayout.of_not_class {s : State} {t : Ref} {layout : Layout} (ht : s.IsClass t)
    (hstruct : layout.struct = instanceStruct t) (h : ∀ c, layout ≠ .pupClass c) :
    FreshLayout s t layout :=
  ⟨ht, hstruct, fun c hc => absurd hc (h c), fun c _ hc => absurd hc (h c),
    fun c _ hc => absurd hc (h c)⟩

/-- An object has been allocated. -/
def Created (s s' : State) : Prop :=
  ∃ t layout, FreshLayout s t layout ∧ s' = (s.alloc (some t) layout).1

/-- At most attributes have changed. -/
structure SameLayouts (s s' : State) : Prop where
  env : s'.env = s.env
  length : s'.objects.length = s.objects.length
  objects : ∀ (r : Ref) (o' : Obj), s'.objects[r]? = some o' →
    ∃ o : Obj, s.objects[r]? = some o ∧ o'.type = o.type ∧ o'.layout = o.layout

theorem allocateInstance_ok {s s' : State} {type : Option Ref} {allocate : AllocateInstance}
    {o : Ref} (h : allocateInstance s type allocate = .ok (s', o)) :
    ∃ layout, layout.struct = allocate.struct ∧
      (∀ c, layout = .pupClass c → c = ⟨none, none, [], none, none⟩) ∧
      o = s.objects.length ∧ s' = (s.alloc type layout).1 := by
  cases allocate with
  | pup_object_allocate_instance =>
      cases h
      exact ⟨.pupObject, rfl, by simp, rfl, rfl⟩
  | pup_internal_class_allocate_instance =>
      cases h
      exact ⟨.pupClass _, rfl, fun c hc => (Layout.pupClass.inj hc).symm, rfl, rfl⟩
  | string_allocate_instance =>
      cases h
      exact ⟨.pupString none, rfl, by simp, rfl, rfl⟩
  | fixnum_allocate_instance => cases h

/-- What is allocated as a class has nothing in it. -/
def Layout.Blank (layout : Layout) : Prop :=
  ∀ c, layout = .pupClass c → c = ⟨none, none, [], none, none⟩

theorem pupClassAllocateInstance_ok {s s' : State} (hs : Typed s) {clazz : Option Ref} {o : Ref}
    (h : pupClassAllocateInstance s clazz = .ok (s', o)) :
    ∃ r layout, clazz = some r ∧ FreshLayout s r layout ∧ layout.Blank ∧
      o = s.objects.length ∧ s' = (s.alloc (some r) layout).1 := by
  cases clazz with
  | none => cases h
  | some r =>
      obtain ⟨c, hc, h⟩ := bind_ok h
      cases hal : c.allocate_instance with
      | none =>
          rw [hal] at h
          cases h
      | some allocate =>
          rw [hal] at h
          obtain ⟨layout, hstruct, hblank, ho, hs'⟩ := allocateInstance_ok h
          refine ⟨r, layout, rfl, ⟨⟨c, hc⟩, hstruct.trans (hs.allocates r c allocate hc hal),
            fun c' hc' => ?_, fun c' p hc' hp => ?_, fun c' a hc' ha => ?_⟩, hblank, ho, hs'⟩
          · rw [hblank c' hc']
          · rw [hblank c' hc'] at hp
            cases hp
          · rw [hblank c' hc'] at ha
            cases ha

theorem pupClassNew_ok {s s' : State} {target : Option Ref} {o : Ref}
    (h : pupClassNew s target = .ok (s', o)) :
    pupClassAllocateInstance s target = .ok (s', o) := by
  unfold pupClassNew at h
  obtain ⟨method, -, h⟩ := bind_ok h
  split at h
  · obtain ⟨⟨s₁, res⟩, halloc, h⟩ := bind_ok h
    obtain ⟨_, -, h⟩ := bind_ok h
    cases h
    exact halloc
  · cases h
  · cases h

theorem modify_append_length {α : Type} (l : List α) (a : α) (f : α → α) :
    (l ++ [a]).modify l.length f = l ++ [f a] := by
  induction l with
  | nil => rfl
  | cons b l ih => simp [ih]

theorem setClass_alloc (s : State) (type : Option Ref) (layout : Layout) (c : PupClass) :
    (s.alloc type layout).1.setClass s.objects.length c = (s.alloc type (.pupClass c)).1 := by
  simp [State.alloc, State.setClass, modify_append_length]

/-- What `pup_internal_class_init` makes of a new class. -/
def newClass (super : Ref) (scope : Option Ref) (name : String) : Layout :=
  .pupClass ⟨some super, some name, [], scope, some .pup_object_allocate_instance⟩

/-- A new class is an instance of Class, and is as it has been asked for. -/
theorem pupCreateClass_alloc {s s' : State} (hs : Typed s) {super : Ref} {scope : Option Ref}
    {name : String} {r : Ref} (h : pupCreateClass s (some super) scope name = .ok (s', r)) :
    s.IsClass 1 ∧ r = s.objects.length ∧ s' = (s.alloc (some 1) (newClass super scope name)).1 := by
  unfold pupCreateClass pupInternalCreateClass at h
  obtain ⟨method, -, h⟩ := bind_ok h
  split at h
  · obtain ⟨⟨s₁, o⟩, hnew, h⟩ := bind_ok h
    obtain ⟨t, layout, ht, hfresh, -, rfl, rfl⟩ :=
      pupClassAllocateInstance_ok hs (pupClassNew_ok hnew)
    rw [hs.env] at ht
    obtain rfl : 1 = t := Option.some.inj ht
    obtain ⟨s₂, hinit, h⟩ := bind_ok h
    obtain ⟨c, -, hinit⟩ := bind_ok hinit
    cases h
    cases hinit
    exact ⟨hfresh.type, rfl, setClass_alloc ..⟩
  · cases h
  · cases h

theorem freshLayout_newClass {s : State} (hclass : s.IsClass 1) {super : Ref}
    (hsuper : s.IsClass super) (scope : Option Ref) (name : String) :
    FreshLayout s 1 (newClass super scope name) := by
  refine ⟨hclass, rfl, ?_, ?_, ?_⟩
  · intro c' hc'
    cases hc'
    rfl
  · intro c' p hc' hp
    cases hc'
    cases hp
    exact hsuper
  · intro c' allocate hc' hal
    cases hc'
    cases hal
    rfl

theorem pupCreateClass_ok {s s' : State} (hs : Typed s) {super : Ref} (hsuper : s.IsClass super)
    {scope : Option Ref} {name : String} {r : Ref}
    (h : pupCreateClass s (some super) scope name = .ok (s', r)) : Created s s' := by
  obtain ⟨hclass, -, hs'⟩ := pupCreateClass_alloc hs h
  exact ⟨1, _, freshLayout_newClass hclass hsuper scope name, hs'⟩

theorem pupIvSet_ok {s s' : State} {obj : Ref} {sym : Sym} {val : Option Ref}
    (h : pupIvSet s (some obj) sym val = .ok s') : SameLayouts s s' := by
  obtain ⟨o, ho, h⟩ := bind_ok h
  have ho : s.objects[obj]? = some o := by
    unfold State.object at ho
    cases hobj : s.objects[obj]? with
    | none => simp [hobj] at ho
    | some o' => simpa [hobj] using ho
  cases h
  refine ⟨rfl, by simp [State.setObject], fun r o' hr => ?_⟩
  by_cases hro : obj = r
  · subst hro
    have hlt := (List.getElem?_eq_some_iff.mp ho).1
    simp only [State.setObject, Option.getD_some, List.getElem?_set_self hlt] at hr
    obtain rfl := Option.some.inj hr
    exact ⟨o, ho, rfl, rfl⟩
  · simp only [State.setObject, Option.getD_some, List.getElem?_set_ne hro] at hr
    exact ⟨o', hr, rfl, rfl⟩

/-- What a step does. -/
theorem step_cases {s s' : State} (hs : Typed s) {i : Label} (h : step s i = some s') :
    Created s s' ∨
    (∃ r name_sym fn, Defined s s' r ⟨name_sym, .generated fn⟩) ∨ SameLayouts s s' := by
  cases i with
  | createClass superclass scope name =>
      obtain ⟨c, hc, h⟩ := bind_ok (toOption_eq_some h)
      obtain ⟨⟨s₁, r⟩, hcreate, h⟩ := bind_ok h
      cases h
      exact .inl (pupCreateClass_ok hs ⟨c, hc⟩ hcreate)
  | defineMethod class_ name_sym fn =>
      obtain ⟨r, hr, hdef⟩ := pupDefineMethod_ok (toOption_eq_some h)
      exact .inr (.inl ⟨r, name_sym, fn, hdef⟩)
  | new target =>
      obtain ⟨p, hp, rfl⟩ := map_toOption_eq_some h
      obtain ⟨r, layout, -, hfresh, -, -, heq⟩ :=
        pupClassAllocateInstance_ok hs (pupClassNew_ok hp)
      exact .inl ⟨r, layout, hfresh, heq⟩
  | createObject type =>
      obtain ⟨p, hp, rfl⟩ := map_toOption_eq_some h
      have hp : pupClassAllocateInstance s (some type) = .ok p := hp
      obtain ⟨r, layout, -, hfresh, -, -, heq⟩ := pupClassAllocateInstance_ok hs hp
      exact .inl ⟨r, layout, hfresh, heq⟩
  | fixnum value =>
      cases h
      refine .inl ⟨10, .pupFixnum value, .of_not_class hs.literals.2 rfl (by simp), ?_⟩
      rw [pupFixnumCreate, hs.env]
      rfl
  | string str =>
      cases h
      refine .inl ⟨2, .pupString (some str), .of_not_class hs.literals.1 rfl (by simp), ?_⟩
      rw [pupStringNewCstr, hs.env]
      rfl
  | ivSet obj sym val => exact .inr (.inr (pupIvSet_ok (toOption_eq_some h)))

/-! ### The invariant is kept -/

theorem not_isClass_of_le {s : State} {r : Ref} (hr : s.objects.length ≤ r) : ¬ s.IsClass r :=
  fun h => absurd (isClass_lt h) (Nat.not_lt.mpr hr)

theorem methods_of_not_isClass {s : State} {r : Ref} (h : ¬ s.IsClass r) : s.methods r = [] := by
  unfold State.methods
  cases hc : s.class (some r) with
  | error e => rfl
  | ok c => exact absurd ⟨c, hc⟩ h

theorem superclass_isClass {s : State} {r p : Ref} (h : s.superclass r = some p) :
    s.IsClass r := by
  unfold State.superclass at h
  cases hc : s.class (some r) with
  | error e => simp [hc, Except.toOption] at h
  | ok c => exact ⟨c, hc⟩

section Created

variable {s : State} {t : Ref} {layout : Layout}

theorem class_alloc_of_lt {r : Ref} (hr : r < s.objects.length) :
    (s.alloc (some t) layout).1.class (some r) = s.class (some r) := by
  simp only [State.class, State.object, State.alloc, List.getElem?_append_left hr]

theorem class_alloc_new {c : PupClass} :
    (s.alloc (some t) layout).1.class (some s.objects.length) = .ok c ↔ layout = .pupClass c := by
  simp [class_ok, State.alloc]

theorem eq_length_of_lt_alloc {r : Ref} (hlt : r < (s.alloc (some t) layout).1.objects.length)
    (hr : ¬ r < s.objects.length) : r = s.objects.length := by
  simp only [State.alloc, List.length_append, List.length_singleton] at hlt
  exact Nat.le_antisymm (Nat.le_of_lt_succ hlt) (Nat.le_of_not_lt hr)

theorem isClass_alloc {r : Ref} (h : s.IsClass r) : (s.alloc (some t) layout).1.IsClass r := by
  obtain ⟨c, hc⟩ := h
  exact ⟨c, (class_alloc_of_lt (isClass_lt ⟨c, hc⟩)).trans hc⟩

theorem methods_alloc (hfresh : FreshLayout s t layout) (r : Ref) :
    (s.alloc (some t) layout).1.methods r = s.methods r := by
  by_cases hr : r < s.objects.length
  · rw [State.methods, class_alloc_of_lt hr, State.methods]
  · rw [methods_of_not_isClass (not_isClass_of_le (Nat.le_of_not_lt hr))]
    by_cases hclass : (s.alloc (some t) layout).1.IsClass r
    · obtain rfl := eq_length_of_lt_alloc (isClass_lt hclass) hr
      obtain ⟨c, hc⟩ := hclass
      rw [methods_eq hc]
      exact hfresh.methods c (class_alloc_new.mp hc)
    · exact methods_of_not_isClass hclass

theorem superclass_alloc (hfresh : FreshLayout s t layout) {r p : Ref}
    (h : (s.alloc (some t) layout).1.superclass r = some p) :
    (r = s.objects.length ∧ s.IsClass p) ∨ s.superclass r = some p := by
  by_cases hr : r < s.objects.length
  · rw [State.superclass, class_alloc_of_lt hr] at h
    exact .inr h
  · obtain ⟨c, hc⟩ := superclass_isClass h
    obtain rfl := eq_length_of_lt_alloc (isClass_lt ⟨c, hc⟩) hr
    rw [superclass_eq hc] at h
    exact .inl ⟨rfl, hfresh.superclass c p (class_alloc_new.mp hc) h⟩

theorem Typed.alloc (hs : Typed s) (hfresh : FreshLayout s t layout) :
    Typed (s.alloc (some t) layout).1 := by
  refine ⟨hs.env, hs.literals.imp isClass_alloc isClass_alloc, fun r o ho => ?_,
    fun r c allocate hc hal => ?_, fun r p hp => ?_, fun r => ?_⟩
  · by_cases hr : r < s.objects.length
    · simp only [State.alloc, List.getElem?_append_left hr] at ho
      obtain ⟨t', ht', hclass, hstruct⟩ := hs.types r o ho
      exact ⟨t', ht', isClass_alloc hclass, hstruct⟩
    · obtain rfl := eq_length_of_lt_alloc (List.getElem?_eq_some_iff.mp ho).1 hr
      simp only [State.alloc, List.getElem?_concat_length, Option.some.injEq] at ho
      rw [← ho]
      exact ⟨t, rfl, isClass_alloc hfresh.type, hfresh.struct⟩
  · by_cases hr : r < s.objects.length
    · rw [class_alloc_of_lt hr] at hc
      exact hs.allocates r c allocate hc hal
    · obtain rfl := eq_length_of_lt_alloc (isClass_lt ⟨c, hc⟩) hr
      have hlt : 10 < s.objects.length := isClass_lt hs.literals.2
      rw [hfresh.allocates c allocate (class_alloc_new.mp hc) hal]
      unfold instanceStruct
      split <;> first | rfl | (rename_i heq; rw [heq] at hlt; exact absurd hlt (by decide))
  · rcases superclass_alloc hfresh hp with ⟨rfl, hclass⟩ | hold
    · exact ⟨isClass_lt hclass, isClass_alloc hclass⟩
    · exact (hs.superclasses r p hold).imp_right isClass_alloc
  · rw [methods_alloc hfresh]
    exact hs.methods r

end Created

theorem Typed.defined {s s' : State} (hs : Typed s) {r : Ref} {name_sym : Sym} {fn : Nat}
    (hd : Defined s s' r ⟨name_sym, .generated fn⟩) : Typed s' := by
  refine ⟨hd.env.trans hs.env,
    hs.literals.imp (hd.isClass_iff 2).mpr (hd.isClass_iff 10).mpr, fun k o ho => ?_,
    fun k c allocate hc hal => ?_, fun k p hp => ?_, fun k => ?_⟩
  · by_cases hk : k = r
    · subst hk
      obtain ⟨o₁, c, ho₁, hlayout, ho'⟩ := hd.target
      obtain rfl := Option.some.inj (ho'.symm.trans ho)
      obtain ⟨t, ht, hclass, hstruct⟩ := hs.types k o₁ ho₁
      rw [hlayout] at hstruct
      exact ⟨t, ht, (hd.isClass_iff t).mpr hclass, hstruct⟩
    · rw [hd.objects k hk] at ho
      obtain ⟨t, ht, hclass, hstruct⟩ := hs.types k o ho
      exact ⟨t, ht, (hd.isClass_iff t).mpr hclass, hstruct⟩
  · by_cases hk : k = r
    · subst hk
      obtain ⟨c₁, hc₁⟩ := hd.isClass
      obtain rfl := Except.ok.inj ((hd.class_self hc₁).symm.trans hc)
      exact hs.allocates k c₁ allocate hc₁ hal
    · rw [hd.class_of_ne hk] at hc
      exact hs.allocates k c allocate hc hal
  · rw [hd.superclass] at hp
    exact (hs.superclasses k p hp).imp_right (hd.isClass_iff p).mpr
  · obtain ⟨l, hl, hmethods⟩ := hs.methods k
    rw [hd.methods, hmethods]
    by_cases hk : k = r
    · rw [if_pos hk, List.append_assoc]
      refine ⟨l ++ [_], fun e he => ?_, rfl⟩
      rcases List.mem_append.mp he with he | he
      · exact hl e he
      · obtain rfl := List.mem_singleton.mp he
        exact ⟨fn, rfl⟩
    · rw [if_neg hk, List.append_nil]
      exact ⟨l, hl, rfl⟩

theorem SameLayouts.class {s s' : State} (h : SameLayouts s s') (r : Ref) :
    (s'.class (some r)).toOption = (s.class (some r)).toOption := by
  cases ho' : s'.objects[r]? with
  | none =>
      have ho : s.objects[r]? = none := by
        rw [List.getElem?_eq_none_iff] at ho' ⊢
        rwa [← h.length]
      simp [State.class, State.object, ho, ho', bind, Except.bind]
  | some o' =>
      obtain ⟨o, ho, -, hlayout⟩ := h.objects r o' ho'
      simp only [State.class, State.object, ho, ho', Option.elim_some, bind, Except.bind, hlayout]

theorem SameLayouts.class_ok_iff {s s' : State} (h : SameLayouts s s') (r : Ref) (c : PupClass) :
    s'.class (some r) = .ok c ↔ s.class (some r) = .ok c := by
  have hiff : ∀ s : State, s.class (some r) = .ok c ↔ (s.class (some r)).toOption = some c := by
    intro s
    cases s.class (some r) <;> simp [Except.toOption]
  rw [hiff, hiff, h.class]

theorem SameLayouts.isClass_iff {s s' : State} (h : SameLayouts s s') (r : Ref) :
    s'.IsClass r ↔ s.IsClass r :=
  exists_congr (h.class_ok_iff r)

theorem Typed.sameLayouts {s s' : State} (hs : Typed s) (h : SameLayouts s s') : Typed s' := by
  refine ⟨h.env.trans hs.env, hs.literals.imp (h.isClass_iff 2).mpr (h.isClass_iff 10).mpr,
    fun r o' ho' => ?_, fun r c allocate hc => hs.allocates r c allocate ((h.class_ok_iff r c).mp hc),
    fun r p hp => ?_, fun r => ?_⟩
  · obtain ⟨o, ho, htype, hlayout⟩ := h.objects r o' ho'
    obtain ⟨t, ht, hclass, hstruct⟩ := hs.types r o ho
    exact ⟨t, htype.trans ht, (h.isClass_iff t).mpr hclass, hlayout ▸ hstruct⟩
  · rw [State.superclass, h.class] at hp
    exact (hs.superclasses r p hp).imp_right (h.isClass_iff p).mpr
  · rw [State.methods, h.class]
    exact hs.methods r

theorem Typed.step {s s' : State} (hs : Typed s) {i : Label} (h : step s i = some s') :
    Typed s' := by
  rcases step_cases hs h with ⟨t, layout, hfresh, rfl⟩ | ⟨r, name_sym, fn, hd⟩ | hsame
  · exact hs.alloc hfresh
  · exact hs.defined hd
  · exact hs.sameLayouts hsame

/-! ### The state that `runtime_init` leaves -/

theorem isClass_iff_isSome {s : State} {r : Ref} :
    s.IsClass r ↔ (s.class (some r)).toOption.isSome = true := by
  unfold State.IsClass
  cases s.class (some r) <;> simp [Except.toOption]

instance (s : State) (r : Ref) : Decidable (s.IsClass r) :=
  decidable_of_iff _ isClass_iff_isSome.symm

/-- What `Typed` says, for a state with eleven objects and the methods of the runtime. -/
def Ready (s : State) : Prop :=
  (s.env = startedEnv ∧ s.objects.length = 11 ∧ s.IsClass 2 ∧ s.IsClass 10) ∧
    ∀ r < 11, s.methods r = builtins r ∧ (∀ p ∈ s.superclass r, p < r ∧ s.IsClass p) ∧
      (∀ c ∈ (s.class (some r)).toOption, ∀ allocate ∈ c.allocate_instance,
        allocate.struct = instanceStruct r) ∧
      ∀ o ∈ s.objects[r]?,
        o.type.any (fun t => s.IsClass t ∧ o.layout.struct = instanceStruct t) = true

instance (s : State) : Decidable (Ready s) :=
  inferInstanceAs (Decidable (_ ∧ ∀ r < 11, _ ∧ (∀ p ∈ s.superclass r, _) ∧
    (∀ c ∈ (s.class (some r)).toOption, ∀ allocate ∈ c.allocate_instance, _) ∧
      ∀ o ∈ s.objects[r]?, _))

theorem Ready.typed {s : State} (h : Ready s) : Typed s := by
  obtain ⟨⟨henv, hlength, hliterals⟩, hall⟩ := h
  have hout : ∀ r, ¬ r < 11 → ¬ s.IsClass r := fun r hr =>
    not_isClass_of_le (hlength ▸ Nat.le_of_not_lt hr)
  refine ⟨henv, hliterals, fun r o ho => ?_, fun r c allocate hc hal => ?_, fun r p hp => ?_,
    fun r => ⟨[], by simp [Generated], ?_⟩⟩
  · have hr : r < 11 := hlength ▸ (List.getElem?_eq_some_iff.mp ho).1
    obtain ⟨t, ht, hclass⟩ := (Option.any_eq_true _ _).mp ((hall r hr).2.2.2 o ho)
    exact ⟨t, ht, of_decide_eq_true hclass⟩
  · have hr : r < 11 := of_not_not fun hr => hout r hr ⟨c, hc⟩
    exact (hall r hr).2.2.1 c (by simp [hc, Except.toOption]) allocate hal
  · have hr : r < 11 := of_not_not fun hr => hout r hr (superclass_isClass hp)
    exact (hall r hr).2.1 p hp
  · rw [List.append_nil]
    by_cases hr : r < 11
    · exact (hall r hr).1
    · rw [methods_of_not_isClass (hout r hr)]
      unfold builtins
      split <;> first | rfl | exact absurd (by decide) hr

theorem runtimeInit_ready : runtimeInit.toOption.any (fun s => Ready s) = true := by
  decide +kernel

theorem Typed.init {s : State} (h : runtimeInit = .ok s) : Typed s := by
  have hready := runtimeInit_ready
  rw [h] at hready
  exact (of_decide_eq_true hready : Ready s).typed

theorem typed_of_reachable {s : State} (h : Reachable runtimeMachine s) : Typed s :=
  h.invariant (fun _ => Typed.init) fun _ _ _ hs hstep => hs.step hstep

/-! ### Selection -/

/-- The chain of the object's class, on which methods are looked up. -/
def ChainOf (s : State) (o : Obj) (l : List Ref) : Prop :=
  ∃ t, o.type = some t ∧ Superclasses s t l

theorem Typed.exists_chain {s : State} (hs : Typed s) {r : Ref} {o : Obj}
    (ho : s.objects[r]? = some o) : ∃ l, ChainOf s o l := by
  obtain ⟨t, ht, hclass, -⟩ := hs.types r o ho
  obtain ⟨l, hl⟩ := hs.chain t hclass
  exact ⟨l, t, ht, hl⟩

/-- **The method an invocation selects** is in the nearest class that has one. -/
theorem pupInvoke_ok_iff {s : State} {r : Ref} {o : Obj} (ho : s.objects[r]? = some o)
    {l : List Ref} (hl : ChainOf s o l) {name_sym : Sym} {method : PupMethod} :
    pupInvoke s (some r) name_sym = .ok method ↔
      (l.findSome? fun k => findMethodInList (s.methods k) name_sym) = some method := by
  obtain ⟨t, ht, hl⟩ := hl
  have hobject : s.object (some r) = .ok o := by simp [State.object, ho]
  unfold pupInvoke
  simp only [hobject, ht, bind, Except.bind, hl.find name_sym]
  cases (l.findSome? fun k => findMethodInList (s.methods k) name_sym) with
  | some m => simp [pure, Except.pure]
  | none =>
      simp only [reduceCtorEq, iff_false]
      intro h
      cases hname : pupTypeName s (some t) with
      | error e => simp [hname] at h
      | ok name => simp [hname, throw, throwThe, MonadExceptOf.throw] at h

/-- `home` is the nearest class on the object's chain with a method for the symbol. -/
def Nearest (s : State) (o : Obj) (home : Ref) (name_sym : Sym) : Prop :=
  ∃ pre post, ChainOf s o (pre ++ home :: post) ∧
    ∀ k ∈ pre, findMethodInList (s.methods k) name_sym = none

/-- Where the methods that read more are inherited from, and of which class the object has
to be then. -/
structure Suits (s : State) (o : Obj) (name_sym : Sym) : Prop where
  object : ∀ r, s.env.class_object = some r → name_sym ∈ ["new", "allocate", "to_s"] →
    Nearest s o r name_sym → o.type = s.env.class_class
  fixnum : ∀ r, s.env.class_fixnum = some r → name_sym ∈ ["+", "==", "<"] →
    Nearest s o r name_sym → o.type = s.env.class_fixnum

theorem findMethodInList_mem {l : List MethodListEntry} {name_sym : Sym} {method : PupMethod}
    (h : findMethodInList l name_sym = some method) : ⟨name_sym, method⟩ ∈ l := by
  induction l with
  | nil => cases h
  | cons entry l ih =>
      unfold findMethodInList at h
      split at h
      · rename_i heq
        cases h
        subst heq
        exact List.mem_cons_self
      · exact List.mem_cons_of_mem _ (ih h)

/-- A method that reads more than a `struct PupObject` is one of the runtime's. -/
theorem Typed.find_builtin {s : State} (hs : Typed s) {r : Ref} {name_sym : Sym}
    {method : PupMethod} (h : findMethodInList (s.methods r) name_sym = some method)
    (htarget : method.target ≠ .pupObject) : ⟨name_sym, method⟩ ∈ builtins r := by
  obtain ⟨l, hl, hmethods⟩ := hs.methods r
  have hmem := findMethodInList_mem h
  rw [hmethods, List.mem_append] at hmem
  refine hmem.resolve_right fun hmem => ?_
  obtain ⟨fn, hfn⟩ := hl _ hmem
  have hfn : method = .generated fn := hfn
  subst hfn
  exact htarget rfl

theorem target_builtin {r : Ref} {name_sym : Sym} {method : PupMethod}
    (h : ⟨name_sym, method⟩ ∈ builtins r) (htarget : method.target ≠ .pupObject) :
    (r = 0 ∧ name_sym ∈ ["new", "allocate", "to_s"] ∧ method.target = .pupClass) ∨
      (r = 10 ∧ name_sym ∈ ["+", "==", "<"] ∧ method.target = .pupFixnum) := by
  unfold builtins at h
  split at h <;> simp only [List.mem_cons, MethodListEntry.mk.injEq, List.not_mem_nil, or_false] at h
  · rcases h with ⟨rfl, rfl⟩ | ⟨rfl, rfl⟩ | ⟨rfl, rfl⟩ | ⟨rfl, rfl⟩ | ⟨rfl, rfl⟩ | ⟨rfl, rfl⟩ |
      ⟨rfl, rfl⟩ <;> simp_all [PupMethod.target]
  · rcases h with ⟨rfl, rfl⟩ | ⟨rfl, rfl⟩ <;> simp_all [PupMethod.target]
  · rcases h with ⟨rfl, rfl⟩ | ⟨rfl, rfl⟩ | ⟨rfl, rfl⟩ <;> simp_all [PupMethod.target]

theorem Typed.find_object {s : State} (hs : Typed s) {name_sym : Sym}
    (h : name_sym ∈ ["new", "allocate", "to_s"]) :
    ∃ method, findMethodInList (s.methods 0) name_sym = some method ∧ method.target = .pupClass := by
  obtain ⟨l, -, hmethods⟩ := hs.methods 0
  rw [hmethods, findMethodInList_append]
  simp only [List.mem_cons, List.not_mem_nil, or_false] at h
  rcases h with rfl | rfl | rfl <;> exact ⟨_, rfl, rfl⟩

theorem Typed.find_fixnum {s : State} (hs : Typed s) {name_sym : Sym}
    (h : name_sym ∈ ["+", "==", "<"]) :
    ∃ method, findMethodInList (s.methods 10) name_sym = some method ∧
      method.target = .pupFixnum := by
  obtain ⟨l, -, hmethods⟩ := hs.methods 10
  rw [hmethods, findMethodInList_append]
  simp only [List.mem_cons, List.not_mem_nil, or_false] at h
  rcases h with rfl | rfl | rfl <;> exact ⟨_, rfl, rfl⟩

/-- What the nearest class has is selected. -/
theorem Nearest.selected {s : State} {r : Ref} {o : Obj} (ho : s.objects[r]? = some o)
    {home : Ref} {name_sym : Sym} (hn : Nearest s o home name_sym) {method : PupMethod}
    (hm : findMethodInList (s.methods home) name_sym = some method) :
    pupInvoke s (some r) name_sym = .ok method := by
  obtain ⟨pre, post, hl, hpre⟩ := hn
  refine (pupInvoke_ok_iff ho hl).mpr ?_
  rw [List.findSome?_append, List.findSome?_eq_none_iff.mpr hpre, List.findSome?_cons, hm]
  rfl

theorem Typed.pupClass_iff {s : State} (hs : Typed s) {r : Ref} {o : Obj}
    (ho : s.objects[r]? = some o) : o.layout.struct = .pupClass ↔ o.type = s.env.class_class := by
  obtain ⟨t, ht, -, hstruct⟩ := hs.types r o ho
  rw [hstruct, ht, hs.env]
  unfold instanceStruct
  split <;> simp_all [startedEnv]

theorem Typed.pupFixnum_iff {s : State} (hs : Typed s) {r : Ref} {o : Obj}
    (ho : s.objects[r]? = some o) : o.layout.struct = .pupFixnum ↔ o.type = s.env.class_fixnum := by
  obtain ⟨t, ht, -, hstruct⟩ := hs.types r o ho
  rw [hstruct, ht, hs.env]
  unfold instanceStruct
  split <;> simp_all [startedEnv]

/--
**Which invocations are safe.**  In every state of every run, for every object and
symbol, the method that `pup_invoke` selects reads no more than the object was allocated
as if and only if the object suits the symbol: an object that inherits `new`, `allocate`
or `to_s` from Object is an instance of Class, and one that inherits an operator from
Fixnum is an instance of Fixnum itself.
-/
theorem layoutSafe_iff {s : State} (hs : Reachable runtimeMachine s) {r : Ref} {o : Obj}
    (ho : s.objects[r]? = some o) (name_sym : Sym) :
    LayoutSafe s o r name_sym ↔ Suits s o name_sym := by
  have ht := typed_of_reachable hs
  have hobject : s.env.class_object = some 0 := by rw [ht.env]; rfl
  have hfixnum : s.env.class_fixnum = some 10 := by rw [ht.env]; rfl
  constructor
  · intro hsafe
    refine ⟨fun home hhome hsym hn => ?_, fun home hhome hsym hn => ?_⟩
    · obtain rfl := Option.some.inj (hobject.symm.trans hhome)
      obtain ⟨method, hm, htarget⟩ := ht.find_object hsym
      exact (ht.pupClass_iff ho).mp (by simpa [htarget] using hsafe method (hn.selected ho hm))
    · obtain rfl := Option.some.inj (hfixnum.symm.trans hhome)
      obtain ⟨method, hm, htarget⟩ := ht.find_fixnum hsym
      exact (ht.pupFixnum_iff ho).mp (by simpa [htarget] using hsafe method (hn.selected ho hm))
  · intro hsuits method hselect
    obtain ⟨l, hl⟩ := ht.exists_chain ho
    obtain ⟨pre, home, post, rfl, hm, hpre⟩ :=
      List.findSome?_eq_some_iff.mp ((pupInvoke_ok_iff ho hl).mp hselect)
    have hn : Nearest s o home name_sym := ⟨pre, post, hl, hpre⟩
    by_cases htarget : method.target = .pupObject
    · exact .inl htarget
    · rcases target_builtin (ht.find_builtin hm htarget) htarget with
        ⟨rfl, hsym, heq⟩ | ⟨rfl, hsym, heq⟩
      · have htype := hsuits.object 0 hobject hsym hn
        exact .inr (((ht.pupClass_iff ho).mpr htype).trans heq.symm)
      · have htype := hsuits.fixnum 10 hfixnum hsym hn
        exact .inr (((ht.pupFixnum_iff ho).mpr htype).trans heq.symm)

/-- `new` is invoked on the class Object, which is the first object. -/
theorem layoutSafe_iff_class :
    ∃ s o, Reachable runtimeMachine s ∧ s.objects[0]? = some o ∧ LayoutSafe s o 0 "new" := by
  have hrun : runtimeInit.toOption.any (fun s => (s.objects[0]?).any fun o =>
      o.type = s.env.class_class) = true := by decide +kernel
  obtain ⟨s, hs, hrun⟩ := (Option.any_eq_true _ _).mp hrun
  obtain ⟨o, ho, htype⟩ := (Option.any_eq_true _ _).mp hrun
  have hreach : Reachable runtimeMachine s := ⟨_, .nil (toOption_eq_some hs)⟩
  have htype := of_decide_eq_true htype
  refine ⟨s, o, hreach, ho, (layoutSafe_iff hreach ho "new").mpr ⟨fun _ _ _ _ => htype, ?_⟩⟩
  intro _ _ hsym
  exact absurd hsym (by decide)

/-- `to_s` is invoked on an instance of Object. -/
theorem to_s_reads_object :
    ¬ ∀ s, Reachable runtimeMachine s → ∀ (r : Ref) (o : Obj), s.objects[r]? = some o →
      ∀ name_sym, LayoutSafe s o r name_sym := by
  intro hall
  have hrun : runtimeInit.toOption.any (fun s => (step s (.new 0)).any fun s' =>
      (s'.objects[11]?).any fun o => o.layout = .pupObject ∧
        (pupInvoke s' (some 11) "to_s").toOption = some .pup_class_to_s) = true := by
    decide +kernel
  obtain ⟨s, hs, hrun⟩ := (Option.any_eq_true _ _).mp hrun
  obtain ⟨s', hstep, hrun⟩ := (Option.any_eq_true _ _).mp hrun
  obtain ⟨o, ho, hrun⟩ := (Option.any_eq_true _ _).mp hrun
  obtain ⟨hlayout, hselect⟩ := of_decide_eq_true hrun
  have hreach : Reachable runtimeMachine s' :=
    Reachable.step ⟨_, .nil (toOption_eq_some hs)⟩ (.new 0) hstep
  have hsafe := hall s' hreach 11 o ho "to_s" _ (toOption_eq_some hselect)
  rw [hlayout] at hsafe
  exact absurd hsafe (by decide)

end Pup.Runtime
