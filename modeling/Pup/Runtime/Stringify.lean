/-
What `puts` prints.

`pup_stringify` asks whether an object is a String, and whether it is an Exception, by
comparing its type with the class (`pup_object_instanceof`), so that an instance of a
class below Exception is printed as any other object.  A String that `String.new` has made has
no value, and is handed to `strdup` as a null pointer.
-/
import Pup.Runtime.Attributes
import Pup.Runtime.Hierarchy

namespace Pup.Runtime

open Chain Outcome Transition

/-! ### The functions -/

/-- `pup_object_instanceof`. -/
def pupObjectInstanceof (s : State) (obj class_ : Option Ref) : Except Stop Bool := do
  let o ← s.object obj
  return o.type = class_

/-- `pup_is_string`. -/
def pupIsString (s : State) (obj : Option Ref) : Except Stop Bool :=
  pupObjectInstanceof s obj s.env.class_string

/-- `pup_instanceof_exception`. -/
def pupInstanceofException (s : State) (obj : Option Ref) : Except Stop Bool :=
  pupObjectInstanceof s obj s.env.class_exception

/-- `pup_object_type_name`. -/
def pupObjectTypeName (s : State) (obj : Option Ref) : Except Stop String :=
  match obj with
  | none => return "<NULL Object ref>"
  | some r => do
      let o ← s.object (some r)
      pupTypeName s o.type

/-- `pup_string_value_unsafe`. -/
def pupStringValueUnsafe (s : State) (str : Option Ref) : Except Stop (Option String) := do
  let o ← s.object str
  match o.layout with
  | .pupString value => return value
  | _ => throw (.fault (.segv (str.getD 0)))

/-- `pup_string_value`. -/
def pupStringValue (s : State) (str : Option Ref) : Except Stop (Option String) := do
  if ← pupIsString s str then pupStringValueUnsafe s str
  else do
    let name ← pupObjectTypeName s str
    throw (.raise (fitMessage ("String expected, " ++ name ++ " given")))

/-- `pup_exception_message_get`. -/
def pupExceptionMessageGet (s : State) (target : Option Ref) : Except Stop (Option Ref) :=
  pupIvGet s target "@message"

/-- `exception_text`. -/
def exceptionText (s : State) (ex : Option Ref) : Except Stop (Option String) := do
  match ← pupExceptionMessageGet s ex with
  | some msg => pupStringValue s (some msg)
  | none => do
      let name ← pupObjectTypeName s ex
      return some name

/-- `pup_default_obj_cstr`, for a buffer of 1024; `addr` is what `%p` prints. -/
def pupDefaultObjCstr (addr : Ref → String) (s : State) (obj : Ref) : Except Stop String := do
  let name ← pupObjectTypeName s (some obj)
  return fitMessage ("<" ++ name ++ ":" ++ addr obj ++ ">")

/-- `strdup`, which wants a string. -/
def strdup : Option String → Except Stop String
  | some str => .ok str
  | none => .error (.fault .null)

/-- `pup_stringify`. -/
def pupStringify (addr : Ref → String) (s : State) (obj : Ref) : Except Stop String := do
  if ← pupIsString s (some obj) then
    let value ← pupStringValueUnsafe s (some obj)
    strdup value
  else if ← pupInstanceofException s (some obj) then
    match ← exceptionText s (some obj) with
    | some msg => strdup (some msg)
    | none => pupDefaultObjCstr addr s obj
  else pupDefaultObjCstr addr s obj

/-! ### What it should print -/

/-- The value of the String at `r`. -/
def State.stringValue (s : State) (r : Ref) : Option String :=
  (s.objects[r]?).bind fun o =>
    match o.layout with
    | .pupString value => value
    | _ => none

/-- There is a String at `r`. -/
def State.IsString (s : State) (r : Ref) : Prop := s.type r = s.env.class_string

/-- What is set for the message of the object at `r`. -/
def State.message (s : State) (r : Ref) : Option Ref := s.constant r "@message"

/-- Exceptions are printed as their messages, Strings as their values, and nothing makes
`strdup` read a null pointer. -/
structure Stringifies (addr : Ref → String) (s : State) : Prop where
  messages : ∀ r t e m, s.type r = some t → s.env.class_exception = some e → Descends s e t →
    s.message r = some m → s.IsString m →
    ∃ str, s.stringValue m = some str ∧ pupStringify addr s r = .ok str
  strings : ∀ r, s.IsString r → ∃ str, s.stringValue r = some str ∧ pupStringify addr s r = .ok str
  duplicates : ∀ r t, s.type r = some t → pupStringify addr s r ≠ .error (.fault .null)

/-! ### What it does print -/

theorem instanceof_eq {s : State} {r : Ref} {o : Obj} (h : s.objects[r]? = some o)
    (class_ : Option Ref) :
    pupObjectInstanceof s (some r) class_ = .ok (decide (s.type r = class_)) := by
  unfold pupObjectInstanceof
  rw [object_ok.mpr h, type_eq h]
  rfl

theorem object_of_type {s : State} {r t : Ref} (h : s.type r = some t) :
    ∃ o, s.objects[r]? = some o := by
  obtain ⟨o, ho, -⟩ := Option.bind_eq_some_iff.mp h
  exact ⟨o, ho⟩

theorem exceptionText_some {s : State} {r t m : Ref} (h : s.type r = some t)
    (hmsg : s.message r = some m) : exceptionText s (some r) = pupStringValue s (some m) := by
  obtain ⟨o, ho⟩ := object_of_type h
  have hget : pupExceptionMessageGet s (some r) = .ok (s.message r) := pupIvGet_eq ho "@message"
  rw [exceptionText, hget, hmsg]
  rfl

section Typed

variable {s : State} (hs : Typed s)
include hs

theorem Typed.class_string : s.env.class_string = some 2 := by
  rw [hs.env]
  rfl

theorem Typed.class_exception : s.env.class_exception = some 3 := by
  rw [hs.env]
  rfl

theorem Typed.isClass_type {r t : Ref} (h : s.type r = some t) : s.IsClass t := by
  obtain ⟨o, ho⟩ := object_of_type h
  obtain ⟨t', ht', hclass, -⟩ := hs.types r o ho
  rw [type_eq ho, ht'] at h
  rwa [← Option.some.inj h]

/-- Every object has a type with a name, or with the text for none. -/
theorem Typed.objectTypeName {r t : Ref} (h : s.type r = some t) :
    ∃ name, pupObjectTypeName s (some r) = .ok name := by
  obtain ⟨o, ho⟩ := object_of_type h
  obtain ⟨c, hc⟩ := hs.isClass_type h
  refine ⟨c.name.getD "<NULL type name!>", ?_⟩
  rw [type_eq ho] at h
  unfold pupObjectTypeName
  simp only [object_ok.mpr ho, bind, Except.bind, h, pupTypeName, hc]
  rfl

theorem Typed.defaultObjCstr {r t : Ref} (h : s.type r = some t) (addr : Ref → String) :
    ∃ str, pupDefaultObjCstr addr s r = .ok str := by
  obtain ⟨name, hname⟩ := hs.objectTypeName h
  exact ⟨_, by rw [pupDefaultObjCstr, hname]; rfl⟩

theorem Typed.stringValueUnsafe {r : Ref} (h : s.IsString r) :
    pupStringValueUnsafe s (some r) = .ok (s.stringValue r) := by
  have htype : s.type r = some 2 := h.trans hs.class_string
  obtain ⟨o, ho⟩ := object_of_type htype
  obtain ⟨t, ht, -, hstruct⟩ := hs.types r o ho
  rw [type_eq ho, ht] at htype
  obtain rfl := Option.some.inj htype
  unfold pupStringValueUnsafe State.stringValue
  rw [object_ok.mpr ho, ho]
  cases hlayout : o.layout with
  | pupString value => simp only [bind, Except.bind, hlayout, Option.bind_some]; rfl
  | pupObject => rw [hlayout] at hstruct; cases hstruct
  | pupClass c => rw [hlayout] at hstruct; cases hstruct
  | pupFixnum value => rw [hlayout] at hstruct; cases hstruct

theorem Typed.stringify_string {r : Ref} (h : s.IsString r) (addr : Ref → String) :
    pupStringify addr s r = strdup (s.stringValue r) := by
  have htype : s.type r = some 2 := h.trans hs.class_string
  obtain ⟨o, ho⟩ := object_of_type htype
  have hself : s.type r = s.env.class_string := h
  unfold pupStringify pupIsString
  rw [instanceof_eq ho, hs.stringValueUnsafe h]
  simp only [bind, Except.bind, hself, decide_true, if_true]

theorem Typed.stringify_other {r t : Ref} (h : s.type r = some t) (hstring : t ≠ 2)
    (hexc : t ≠ 3) (addr : Ref → String) :
    pupStringify addr s r = pupDefaultObjCstr addr s r := by
  obtain ⟨o, ho⟩ := object_of_type h
  unfold pupStringify pupIsString pupInstanceofException
  rw [instanceof_eq ho, instanceof_eq ho, hs.class_string, hs.class_exception, h]
  simp [bind, Except.bind, hstring, hexc]

theorem Typed.stringify_exception {r : Ref} (h : s.type r = some 3) (addr : Ref → String) :
    pupStringify addr s r = (exceptionText s (some r)).bind fun text =>
      text.elim (pupDefaultObjCstr addr s r) .ok := by
  obtain ⟨o, ho⟩ := object_of_type h
  unfold pupStringify pupIsString pupInstanceofException
  rw [instanceof_eq ho, instanceof_eq ho, hs.class_string, hs.class_exception, h]
  have hne : ¬ (some 3 = (some 2 : Option Ref)) := by decide
  simp only [bind, Except.bind, hne, decide_false, decide_true]
  cases exceptionText s (some r) with
  | error e => rfl
  | ok text => cases text <;> rfl

/-- Superclasses are older, so that no class below Exception is older than Exception. -/
theorem Typed.descends_le {a d : Ref} (hd : s.IsClass d) (h : Descends s a d) : a ≤ d := by
  obtain ⟨l, hl⟩ := hs.chain d hd
  have hmem : a ∈ l := hl.linked.above.mpr (hl.descends_iff.mp h)
  refine hl.linked.forall_of_step (P := fun k => k ≤ d) (fun k p hk hp => ?_) ?_ a hmem
  · exact Nat.le_trans (Nat.le_of_lt (hs.superclasses k p hp).1) hk
  · intro k hk
    exact Nat.le_of_eq (Option.some.inj hk).symm

theorem Typed.exceptionText_none {r t : Ref} (h : s.type r = some t)
    (hmsg : s.message r = none) : ∃ name, exceptionText s (some r) = .ok (some name) := by
  obtain ⟨o, ho⟩ := object_of_type h
  obtain ⟨name, hname⟩ := hs.objectTypeName h
  refine ⟨name, ?_⟩
  have hget : pupExceptionMessageGet s (some r) = .ok (s.message r) := pupIvGet_eq ho "@message"
  rw [exceptionText, hget, hmsg]
  simp only [bind, Except.bind, hname]
  rfl

theorem Typed.stringValue_string {m : Ref} (h : s.IsString m) :
    pupStringValue s (some m) = .ok (s.stringValue m) := by
  have htype : s.type m = some 2 := h.trans hs.class_string
  have hself : s.type m = s.env.class_string := h
  obtain ⟨o, ho⟩ := object_of_type htype
  unfold pupStringValue pupIsString
  rw [instanceof_eq ho, hs.stringValueUnsafe h]
  simp only [bind, Except.bind, hself, decide_true, if_true]

/-- What is no String has no value to be printed, but is not taken for a null pointer. -/
theorem Typed.stringValue_not_null (m : Ref) :
    pupStringValue s (some m) ≠ .error (.fault .null) := by
  cases ho : s.objects[m]? with
  | none =>
      have hobj : s.object (some m) = .error (.fault (.segv m)) := by
        rw [State.object, ho]
        rfl
      rw [pupStringValue, pupIsString, pupObjectInstanceof, hobj]
      simp [bind, Except.bind]
  | some o =>
      by_cases hm : s.IsString m
      · rw [hs.stringValue_string hm]
        simp
      · obtain ⟨t, ht, -, -⟩ := hs.types m o ho
        obtain ⟨name, hname⟩ := hs.objectTypeName ((type_eq ho).trans ht)
        have hne : ¬ s.type m = s.env.class_string := hm
        unfold pupStringValue pupIsString
        rw [instanceof_eq ho, hname]
        simp [bind, Except.bind, hne, throw, throwThe, MonadExceptOf.throw]

end Typed

/-- What is in the way of printing: Strings without a value, and messages of exceptions
of a class below Exception, unless their text is what is printed for any object. -/
structure Printable (addr : Ref → String) (s : State) : Prop where
  values : ∀ r, s.IsString r → ∃ str, s.stringValue r = some str
  messages : ∀ r t e m str, s.type r = some t → s.env.class_exception = some e → t ≠ e →
    Descends s e t → s.message r = some m → s.IsString m → s.stringValue m = some str →
    pupDefaultObjCstr addr s r = .ok str

/-- **When `pup_stringify` prints what it should.** -/
theorem Typed.printable_iff {s : State} (hs : Typed s) (addr : Ref → String) :
    Stringifies addr s ↔ Printable addr s := by
  constructor
  · intro h
    refine ⟨fun r hr => ?_, fun r t e m str ht he hne hdesc hmsg hm hstr => ?_⟩
    · obtain ⟨str, hstr, -⟩ := h.strings r hr
      exact ⟨str, hstr⟩
    · obtain rfl : 3 = e := Option.some.inj (hs.class_exception.symm.trans he)
      obtain ⟨str', hstr', hrun⟩ := h.messages r t 3 m ht he hdesc hmsg hm
      obtain rfl := Option.some.inj (hstr.symm.trans hstr')
      have hle := hs.descends_le (hs.isClass_type ht) hdesc
      have hstring : t ≠ 2 := by
        rintro rfl
        exact absurd hle (by decide)
      rwa [← hs.stringify_other ht hstring hne]
  · intro h
    have hstrings : ∀ r, s.IsString r →
        ∃ str, s.stringValue r = some str ∧ pupStringify addr s r = .ok str := by
      intro r hr
      obtain ⟨str, hstr⟩ := h.values r hr
      exact ⟨str, hstr, by rw [hs.stringify_string hr, hstr]; rfl⟩
    refine ⟨fun r t e m ht he hdesc hmsg hm => ?_, hstrings, fun r t ht => ?_⟩
    · obtain rfl : 3 = e := Option.some.inj (hs.class_exception.symm.trans he)
      obtain ⟨str, hstr⟩ := h.values m hm
      refine ⟨str, hstr, ?_⟩
      by_cases hexc : t = 3
      · subst hexc
        rw [hs.stringify_exception ht, exceptionText_some ht hmsg, hs.stringValue_string hm,
          hstr]
        rfl
      · have hle := hs.descends_le (hs.isClass_type ht) hdesc
        have hstring : t ≠ 2 := by
          rintro rfl
          exact absurd hle (by decide)
        rw [hs.stringify_other ht hstring hexc]
        exact h.messages r t 3 m str ht he hexc hdesc hmsg hm hstr
    · obtain ⟨dflt, hdflt⟩ := hs.defaultObjCstr ht addr
      by_cases hstring : t = 2
      · subst hstring
        obtain ⟨str, -, hrun⟩ := hstrings r (ht.trans hs.class_string.symm)
        rw [hrun]
        simp
      · by_cases hexc : t = 3
        · subst hexc
          rw [hs.stringify_exception ht]
          cases hmsg : s.message r with
          | none =>
              obtain ⟨name, hname⟩ := hs.exceptionText_none ht hmsg
              rw [hname]
              simp [Except.bind]
          | some m =>
              have hnull := hs.stringValue_not_null m
              rw [exceptionText_some ht hmsg]
              cases hval : pupStringValue s (some m) with
              | error e =>
                  intro heq
                  refine hnull ?_
                  rw [hval, Except.error.inj heq]
              | ok text =>
                  cases text with
                  | none => simp [Except.bind, hdflt]
                  | some str => simp [Except.bind]
        · rw [hs.stringify_other ht hstring hexc, hdflt]
          simp

/-! ### Runs -/

/-- The step makes no String but from a text, and sets the message of no exception of a
class below Exception to a String. -/
def Label.Prints (s : State) : Label → Prop
  | .new target => s.env.class_string ≠ some target
  | .createObject type => s.env.class_string ≠ some type
  | .ivSet obj sym val => sym = "@message" → ∀ t e m, s.type obj = some t →
      s.env.class_exception = some e → t ≠ e → Descends s e t → val = some m →
      ∃ t', s.type m = some t' ∧ s.env.class_string ≠ some t'
  | _ => True

/-- Strings have values, and the messages of exceptions of a class below Exception are
other objects. -/
structure Prints (s : State) : Prop where
  typed : Typed s
  values : ∀ r, s.type r = some 2 → ∃ str, s.stringValue r = some str
  messages : ∀ r t m, s.type r = some t → t ≠ 3 → Descends s 3 t → s.message r = some m →
    ∃ t', s.type m = some t' ∧ t' ≠ 2

theorem Prints.printable {s : State} (h : Prints s) (addr : Ref → String) : Printable addr s := by
  have hstring := h.typed.class_string
  refine ⟨fun r hr => h.values r (hr.trans hstring), fun r t e m str ht he hne hdesc hmsg hm _ => ?_⟩
  obtain rfl : 3 = e := Option.some.inj (h.typed.class_exception.symm.trans he)
  obtain ⟨t', ht', hne'⟩ := h.messages r t m ht hne hdesc hmsg
  have htype : s.type m = some 2 := hm.trans hstring
  exact absurd (Option.some.inj (ht'.symm.trans htype)) hne'

theorem KeepsClasses.descends_iff {s s' : State} (h : KeepsClasses s s') (hs : Typed s)
    {a t : Ref} (ht : s.IsClass t) : Descends s' a t ↔ Descends s a t := by
  obtain ⟨l, hl⟩ := hs.chain t ht
  rw [Descends, Descends, (h.superclasses hl).descends, hl.descends]

section Steps

variable {s s' : State}

theorem stringValue_eq {r : Ref} {o : Obj} (h : s.objects[r]? = some o) :
    s.stringValue r = match o.layout with
      | .pupString value => value
      | _ => none := by
  rw [State.stringValue, h]
  rfl

theorem lt_of_type {r t : Ref} (h : s.type r = some t) : r < s.objects.length := by
  obtain ⟨o, ho⟩ := object_of_type h
  exact object_lt ho

/-- What has a type keeps it, with the String's value. -/
theorem Prints.of_same (h : Prints s) (htyped : Typed s') (hkeeps : KeepsClasses s s')
    (htypes : ∀ r, s'.type r = s.type r) (hvalues : ∀ r, s'.stringValue r = s.stringValue r)
    (hmsgs : ∀ r t m, s.type r = some t → t ≠ 3 → Descends s 3 t → s'.message r = some m →
      s.message r = some m ∨ ∃ t', s.type m = some t' ∧ t' ≠ 2) : Prints s' := by
  refine ⟨htyped, fun r hr => ?_, fun r t m ht hne hdesc hmsg => ?_⟩
  · rw [hvalues]
    rw [htypes] at hr
    exact h.values r hr
  · rw [htypes] at ht
    rw [htypes]
    have hdesc := (hkeeps.descends_iff h.typed (h.typed.isClass_type ht)).mp hdesc
    rcases hmsgs r t m ht hne hdesc hmsg with hold | hnew
    · exact h.messages r t m ht hne hdesc hold
    · exact hnew

theorem Prints.alloc (h : Prints s) {t : Ref} {layout : Layout}
    (htyped : Typed (s.alloc (some t) layout).1)
    (hkeeps : KeepsClasses s (s.alloc (some t) layout).1)
    (hvalue : t = 2 → ∃ str, layout = .pupString (some str)) :
    Prints (s.alloc (some t) layout).1 := by
  have hold : ∀ r < s.objects.length,
      (s.alloc (some t) layout).1.objects[r]? = s.objects[r]? := by
    intro r hr
    exact List.getElem?_append_left hr
  have hnew : (s.alloc (some t) layout).1.objects[s.objects.length]? =
      some ⟨some t, [], layout⟩ := by
    simp [State.alloc]
  have hcases : ∀ r t', (s.alloc (some t) layout).1.type r = some t' →
      r < s.objects.length ∨ r = s.objects.length := by
    intro r t' ht'
    by_cases hr : r < s.objects.length
    · exact .inl hr
    · exact .inr (eq_length_of_lt_alloc (lt_of_type ht') hr)
  have hmsg : ∀ r, (s.alloc (some t) layout).1.message r = s.message r := by
    intro r
    rw [State.message, State.constant, attrs_alloc, State.message, State.constant]
  refine ⟨htyped, fun r hr => ?_, fun r t' m ht' hne hdesc hm => ?_⟩
  · rcases hcases r 2 hr with hlt | rfl
    · rw [State.type, hold r hlt] at hr
      rw [State.stringValue, hold r hlt]
      exact h.values r hr
    · rw [type_eq hnew] at hr
      obtain ⟨str, rfl⟩ := hvalue (Option.some.inj hr)
      exact ⟨str, by rw [stringValue_eq hnew]⟩
  · rw [hmsg] at hm
    rcases hcases r t' ht' with hlt | rfl
    · rw [State.type, hold r hlt] at ht'
      have hdesc := (hkeeps.descends_iff h.typed (h.typed.isClass_type ht')).mp hdesc
      obtain ⟨tm, htm, hne'⟩ := h.messages r t' m ht' hne hdesc hm
      exact ⟨tm, by rw [State.type, hold m (lt_of_type htm)]; exact htm, hne'⟩
    · rw [State.message, State.constant, attrs_of_le (Nat.le_refl _)] at hm
      cases hm

theorem Defined.type {r : Ref} {entry : MethodListEntry} (h : Defined s s' r entry) (k : Ref) :
    s'.type k = s.type k := by
  by_cases hk : k = r
  · subst hk
    obtain ⟨o, c, ho, -, ho'⟩ := h.target
    rw [type_eq ho, type_eq ho']
  · rw [State.type, h.objects k hk, State.type]

theorem Defined.stringValue {r : Ref} {entry : MethodListEntry} (h : Defined s s' r entry)
    (k : Ref) : s'.stringValue k = s.stringValue k := by
  by_cases hk : k = r
  · subst hk
    obtain ⟨o, c, ho, hlayout, ho'⟩ := h.target
    rw [stringValue_eq ho, stringValue_eq ho', hlayout]
  · rw [State.stringValue, h.objects k hk, State.stringValue]

theorem SameLayouts.object (h : SameLayouts s s') (r : Ref) :
    s'.type r = s.type r ∧ s'.stringValue r = s.stringValue r := by
  cases ho' : s'.objects[r]? with
  | none =>
      have ho : s.objects[r]? = none := by
        rw [List.getElem?_eq_none_iff] at ho' ⊢
        rwa [← h.length]
      unfold State.type State.stringValue
      rw [ho, ho']
      exact ⟨rfl, rfl⟩
  | some o' =>
      obtain ⟨o, ho, htype, hlayout⟩ := h.objects r o' ho'
      rw [type_eq ho, type_eq ho', stringValue_eq ho, stringValue_eq ho', hlayout]
      exact ⟨htype, rfl⟩

theorem Prints.ivSet (h : Prints s) {obj : Ref} {sym : Sym} {val : Option Ref}
    (htyped : Typed s') (hkeeps : KeepsClasses s s') (hlabel : (Label.ivSet obj sym val).Prints s)
    (hset : pupIvSet s (some obj) sym val = .ok s') : Prints s' := by
  have hsame := pupIvSet_ok hset
  refine h.of_same htyped hkeeps (fun r => (hsame.object r).1) (fun r => (hsame.object r).2)
    fun r t m ht hne hdesc hmsg => ?_
  rw [State.message, State.constant, pupIvSet_attrs hset] at hmsg
  by_cases hr : r = obj
  · subst hr
    rw [if_pos rfl, findAttr_setAttr] at hmsg
    by_cases hsym : sym = "@message"
    · rw [if_pos hsym, Option.getD_some] at hmsg
      obtain ⟨t', ht', hne'⟩ := hlabel hsym t 3 m ht h.typed.class_exception hne hdesc hmsg
      right
      refine ⟨t', ht', ?_⟩
      rintro rfl
      exact hne' h.typed.class_string
    · rw [if_neg hsym] at hmsg
      exact .inl hmsg
  · rw [if_neg hr] at hmsg
    exact .inl hmsg

/-- **The steps that keep printing right.** -/
theorem Prints.step (h : Prints s) {i : Label} (hlabel : i.Prints s)
    (hstep : step s i = some s') : Prints s' := by
  have htyped : Typed s' := h.typed.step hstep
  have hkeeps : KeepsClasses s s' := step_keepsClasses h.typed hstep
  have hstring := h.typed.class_string
  cases i with
  | createClass superclass scope name =>
      obtain ⟨c, hc, hstep⟩ := bind_ok (toOption_eq_some hstep)
      obtain ⟨⟨s₁, r⟩, hcreate, hstep⟩ := bind_ok hstep
      cases hstep
      obtain ⟨-, -, rfl⟩ := pupCreateClass_alloc h.typed hcreate
      exact h.alloc htyped hkeeps fun heq => absurd heq (by decide)
  | defineMethod class_ name_sym fn =>
      obtain ⟨r, -, hdef⟩ := pupDefineMethod_ok (toOption_eq_some hstep)
      refine h.of_same htyped hkeeps hdef.type hdef.stringValue fun r t m _ _ _ hmsg => .inl ?_
      rwa [State.message, State.constant, hdef.attrs] at hmsg
  | new target =>
      obtain ⟨p, hp, rfl⟩ := map_toOption_eq_some hstep
      obtain ⟨r, layout, hr, -, -, -, heq⟩ :=
        pupClassAllocateInstance_ok h.typed (pupClassNew_ok hp)
      obtain rfl := Option.some.inj hr
      rw [heq] at htyped hkeeps ⊢
      refine h.alloc htyped hkeeps fun heq => ?_
      exact absurd (hstring.trans (congrArg some heq.symm)) hlabel
  | createObject type =>
      obtain ⟨p, hp, rfl⟩ := map_toOption_eq_some hstep
      have hp : pupClassAllocateInstance s (some type) = .ok p := hp
      obtain ⟨r, layout, hr, -, -, -, heq⟩ := pupClassAllocateInstance_ok h.typed hp
      obtain rfl := Option.some.inj hr
      rw [heq] at htyped hkeeps ⊢
      refine h.alloc htyped hkeeps fun heq => ?_
      exact absurd (hstring.trans (congrArg some heq.symm)) hlabel
  | fixnum value =>
      cases hstep
      rw [pupFixnumCreate, h.typed.env] at htyped hkeeps ⊢
      exact h.alloc htyped hkeeps fun heq => absurd heq (by decide)
  | string str =>
      cases hstep
      rw [pupStringNewCstr, h.typed.env] at htyped hkeeps ⊢
      exact h.alloc htyped hkeeps fun _ => ⟨str, rfl⟩
  | ivSet obj sym val => exact h.ivSet htyped hkeeps hlabel (toOption_eq_some hstep)

end Steps

theorem runtimeInit_prints : runtimeInit.toOption.any (fun s =>
    ∀ r < s.objects.length, s.type r ≠ some 2 ∧ s.message r = none) = true := by
  decide +kernel

theorem Prints.init {s : State} (h : runtimeInit = .ok s) : Prints s := by
  obtain ⟨s', hs', hnone⟩ := ok_of_any runtimeInit_prints
  rw [h] at hs'
  obtain rfl := Except.ok.inj hs'
  refine ⟨.init h, fun r hr => ?_, fun r t m ht _ _ hmsg => ?_⟩
  · exact absurd hr (hnone r (lt_of_type hr)).1
  · rw [(hnone r (lt_of_type ht)).2] at hmsg
    cases hmsg

/--
**What `puts` prints.**  In a reachable state, exceptions are printed as their messages,
Strings as their values, and no null pointer is handed to `strdup`, if and only if all
Strings have a value and no instance of a class below Exception has a String message
(other than the very text that is printed for any object).  In a run whose steps make
Strings from texts only, and give such instances no String message, they are in every
state.
-/
theorem stringifies_iff (addr : Ref → String) {s : State} (hs : Reachable runtimeMachine s) :
    (Stringifies addr s ↔ Printable addr s) ∧
    ∀ tr, Trace runtimeMachine tr s → (∀ p ∈ tr, p.2.Prints p.1) →
      (∀ p ∈ tr, Stringifies addr p.1) ∧ Stringifies addr s := by
  refine ⟨(typed_of_reachable hs).printable_iff addr, fun tr htr hlabels => ?_⟩
  have hprints : ∀ s, Prints s → Stringifies addr s :=
    fun s h => (h.typed.printable_iff addr).mpr (h.printable addr)
  obtain ⟨hall, hlast⟩ := htr.invariant_states (fun _ => Prints.init)
    (fun _ _ _ h hlabel hstep => h.step hlabel hstep) hlabels
  exact ⟨fun p hp => hprints p.1 (hall p hp), hprints s hlast⟩

/-- An exception of the class is made, with the message `boom`. -/
def boom (cls : Ref) : List Label :=
  [.new cls, .string "boom", .ivSet 11 "@message" (some 12)]

/-- An instance of Exception itself is printed as its message. -/
theorem stringifies_iff_boom :
    ∃ s, Reachable runtimeMachine s ∧ s.message 11 = some 12 ∧
      s.stringValue 12 = some "boom" ∧ pupStringify (fun _ => "0x1") s 11 = .ok "boom" := by
  have hrun : runtimeInit.toOption.any (fun s =>
      (runtimeMachine.run s (boom 3)).any fun s' => s'.type 11 = some 3 ∧
        s'.message 11 = some 12 ∧ s'.type 12 = some 2 ∧ s'.stringValue 12 = some "boom" ∧
        (pupIsDescendantOrSame s' (some 3) (some 3)).toOption = some true ∧
        ∀ r < s'.objects.length, (s'.type r = some 2 → r = 12) ∧
          (s'.message r ≠ none → r = 11)) = true := by
    decide +kernel
  obtain ⟨s₀, hs₀, hrun⟩ := (Option.any_eq_true _ _).mp hrun
  obtain ⟨s, hrun', hrun⟩ := (Option.any_eq_true _ _).mp hrun
  obtain ⟨htype, hmsg, hstring, hvalue, hdesc, hothers⟩ := of_decide_eq_true hrun
  have hreach : Reachable runtimeMachine s :=
    reachable_of_run (toOption_eq_some hs₀) (boom 3) hrun'
  have htyped := typed_of_reachable hreach
  have hprintable : Printable (fun _ => "0x1") s := by
    refine ⟨fun r hr => ?_, fun r t e m str ht he hne _ hm _ _ => ?_⟩
    · have htwo : s.type r = some 2 := hr.trans htyped.class_string
      obtain rfl := (hothers r (lt_of_type htwo)).1 htwo
      exact ⟨"boom", hvalue⟩
    · have hsome : s.message r ≠ none := by
        rw [hm]
        simp
      obtain rfl := (hothers r (lt_of_type ht)).2 hsome
      obtain rfl := Option.some.inj (ht.symm.trans htype)
      exact absurd (Option.some.inj (htyped.class_exception.symm.trans he)) hne
  obtain ⟨hiff, -⟩ := stringifies_iff (fun _ => "0x1") hreach
  obtain ⟨str, hstr, hprints⟩ := (hiff.mpr hprintable).messages 11 3 3 12 htype
    htyped.class_exception (toOption_eq_some hdesc) hmsg (hstring.trans htyped.class_string.symm)
  obtain rfl := Option.some.inj (hvalue.symm.trans hstr)
  exact ⟨s, hreach, hmsg, hvalue, hprints⟩

/-- A RuntimeError with the message `boom` is printed as `<RuntimeError:0x1>`. -/
theorem message_not_printed : ¬ ∀ (addr : Ref → String) (s : State),
    Reachable runtimeMachine s → Stringifies addr s := by
  intro hall
  have hrun : runtimeInit.toOption.any (fun s =>
      (runtimeMachine.run s (boom 5)).any fun s' => s'.type 11 = some 5 ∧
        s'.message 11 = some 12 ∧ s'.type 12 = some 2 ∧ s'.stringValue 12 = some "boom" ∧
        (pupIsDescendantOrSame s' (some 3) (some 5)).toOption = some true ∧
        (pupStringify (fun _ => "0x1") s' 11).toOption = some "<RuntimeError:0x1>") = true := by
    decide +kernel
  obtain ⟨s₀, hs₀, hrun⟩ := (Option.any_eq_true _ _).mp hrun
  obtain ⟨s, hrun', hrun⟩ := (Option.any_eq_true _ _).mp hrun
  obtain ⟨htype, hmsg, hstring, hvalue, hdesc, hprinted⟩ := of_decide_eq_true hrun
  have hreach : Reachable runtimeMachine s :=
    reachable_of_run (toOption_eq_some hs₀) (boom 5) hrun'
  have htyped := typed_of_reachable hreach
  obtain ⟨str, hstr, hprints⟩ := (hall (fun _ => "0x1") s hreach).messages 11 5 3 12 htype
    htyped.class_exception (toOption_eq_some hdesc) hmsg (hstring.trans htyped.class_string.symm)
  obtain rfl := Option.some.inj (hvalue.symm.trans hstr)
  rw [hprints] at hprinted
  exact absurd (Option.some.inj hprinted) (by decide)

/-- The String that `String.new` makes is handed to `strdup` as a null pointer. -/
theorem new_string_not_printed (addr : Ref → String) :
    ∃ s, Reachable runtimeMachine s ∧ pupStringify addr s 11 = .error (.fault .null) := by
  have hrun : runtimeInit.toOption.any (fun s =>
      (runtimeMachine.run s [.new 2]).any fun s' => s'.type 11 = some 2 ∧
        s'.stringValue 11 = none) = true := by
    decide +kernel
  obtain ⟨s₀, hs₀, hrun⟩ := (Option.any_eq_true _ _).mp hrun
  obtain ⟨s, hrun', hrun⟩ := (Option.any_eq_true _ _).mp hrun
  obtain ⟨hstring, hvalue⟩ := of_decide_eq_true hrun
  have hreach : Reachable runtimeMachine s :=
    reachable_of_run (toOption_eq_some hs₀) [.new 2] hrun'
  have htyped := typed_of_reachable hreach
  refine ⟨s, hreach, ?_⟩
  rw [htyped.stringify_string (hstring.trans htyped.class_string.symm), hvalue]
  rfl

end Pup.Runtime
