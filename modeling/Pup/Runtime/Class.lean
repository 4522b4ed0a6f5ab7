/-
Objects, classes and method tables of the runtime.

Memory is the list of the objects allocated so far, and a reference is a place in it.
An object has the header `struct PupObject` and, behind it, whatever it was allocated as:
reading it as anything else is a fault.  A symbol stands for the name that
`pup_env_str_to_sym` was given.  The list of a class's methods is in the order in which
`pup_define_method` has linked the entries.

Where the runtime calls a generated method the model stops: what such code does to the
runtime are calls of its own.
-/
import Pup.Object
import Pup.Lib.Machine

namespace Pup.Runtime

abbrev Sym := String

abbrev Ref := Nat

/-- The functions a method table may refer to. -/
inductive PupMethod
  | pup_object_initialize
  | pup_object_raise
  | pup_puts
  | pup_object_op_equals
  | pup_class_new
  | pup_object_allocate
  | pup_class_to_s
  | pup_exception_initialize
  | pup_exception_message
  | pup_fixnum_plus
  | pup_fixnum_op_equals
  | pup_fixnum_op_lessthan
  /-- a function of the program -/
  | generated (fn : Nat)
  deriving DecidableEq, Repr

structure MethodListEntry where
  name_sym : Sym
  method : PupMethod
  deriving DecidableEq, Repr

/-- What `allocate_instance` of a class may point to. -/
inductive AllocateInstance
  | pup_object_allocate_instance
  | pup_internal_class_allocate_instance
  /-- `allocate_instance` of `string.c` -/
  | string_allocate_instance
  | fixnum_allocate_instance
  deriving DecidableEq, Repr

/-- What a `struct PupClass` holds behind its header. -/
structure PupClass where
  superclass : Option Ref
  name : Option String
  method_list_head : List MethodListEntry
  /-- for constant lookup -/
  scope : Option Ref
  allocate_instance : Option AllocateInstance
  deriving DecidableEq, Repr

/-- What an object was allocated as. -/
inductive Layout
  | pupObject
  | pupClass (c : PupClass)
  | pupString (value : Option String)
  | pupFixnum (value : BitVec 32)
  deriving DecidableEq, Repr

structure Obj where
  type : Option Ref
  attr_list_head : List (Sym × Option Ref)
  layout : Layout
  deriving DecidableEq, Repr

/-- `struct RuntimeEnv`, as far as it refers to objects; a field is `none` until
`runtime_init` has set it. -/
structure RuntimeEnv where
  class_object : Option Ref
  class_class : Option Ref
  class_string : Option Ref
  class_exception : Option Ref
  class_standarderror : Option Ref
  class_runtimeerror : Option Ref
  class_true : Option Ref
  class_false : Option Ref
  object_true : Option Ref
  object_false : Option Ref
  class_fixnum : Option Ref
  deriving DecidableEq, Repr

structure State where
  objects : List Obj
  env : RuntimeEnv
  deriving DecidableEq, Repr

/-- How a call of the runtime ends when it does not return. -/
inductive Stop
  | fault (f : Fault)
  /-- a `RuntimeError` with this message is raised -/
  | raise (message : String)
  /-- a generated method is called -/
  | call (fn : Nat)
  deriving DecidableEq, Repr

/-! ### Memory -/

def State.object (s : State) : Option Ref → Except Stop Obj
  | none => .error (.fault .null)
  | some r => (s.objects[r]?).elim (.error (.fault (.segv r))) .ok

/-- A read of a `struct PupClass`, which runs off the end of any other object. -/
def State.class (s : State) (r : Option Ref) : Except Stop PupClass := do
  let o ← s.object r
  match o.layout with
  | .pupClass c => return c
  | _ => throw (.fault (.segv (r.getD 0)))

def State.setObject (s : State) (r : Ref) (o : Obj) : State :=
  { s with objects := s.objects.set r o }

def State.setClass (s : State) (r : Ref) (c : PupClass) : State :=
  { s with objects := s.objects.modify r fun o => { o with layout := .pupClass c } }

/-- `pup_alloc_obj` and `obj_init`. -/
def State.alloc (s : State) (type : Option Ref) (layout : Layout) : State × Ref :=
  ({ s with objects := s.objects ++ [⟨type, [], layout⟩] }, s.objects.length)

/-! ### Methods -/

/-- `pup_define_method`. -/
def pupDefineMethod (s : State) (class_ : Option Ref) (name_sym : Sym) (method : PupMethod) :
    Except Stop State := do
  let some r := class_ | throw (.fault .abort)
  let c ← s.class (some r)
  return s.setClass r { c with method_list_head := c.method_list_head ++ [⟨name_sym, method⟩] }

/-- `find_method_in_list`. -/
def findMethodInList : List MethodListEntry → Sym → Option PupMethod
  | [], _ => none
  | entry :: next, name_sym =>
      if entry.name_sym = name_sym then some entry.method else findMethodInList next name_sym

/-- The loop of `find_method_in_classes`, for at most `fuel - 1` classes. -/
def findMethodInClasses (s : State) : Nat → Option Ref → Sym → Except Stop (Option PupMethod)
  | 0, _, _ => .error (.fault .outOfFuel)
  | _ + 1, none, _ => .ok none
  | fuel + 1, some r, name_sym => do
      let c ← s.class (some r)
      match findMethodInList c.method_list_head name_sym with
      | some method => return some method
      | none => findMethodInClasses s fuel c.superclass name_sym

/-- More rounds than there are objects: a superclass chain longer than that never ends. -/
def State.fuel (s : State) : Nat := s.objects.length + 1

/-- `pup_type_name`. -/
def pupTypeName (s : State) (type : Option Ref) : Except Stop String :=
  match type with
  | none => return "<Object with NULL type ref!>"
  | some r => do
      let c ← s.class (some r)
      return c.name.getD "<NULL type name!>"

/-- What fits into the `char buf[256]` of `pup_invoke`. -/
def fitBuf (text : String) : String := String.ofList (text.toList.take 255)

/-- `pup_invoke`: the method that is called. -/
def pupInvoke (s : State) (target : Option Ref) (name_sym : Sym) : Except Stop PupMethod := do
  let some r := target | throw (.fault .abort)
  let o ← s.object (some r)
  let some class_ := o.type | throw (.fault .abort)
  match ← findMethodInClasses s s.fuel (some class_) name_sym with
  | some method => return method
  | none => do
      let type_name ← pupTypeName s o.type
      throw (.raise (fitBuf ("undefined method `" ++ name_sym ++ "' for " ++ type_name)))

/-! ### Objects -/

/-- What `clazz->allocate_instance` does. -/
def allocateInstance (s : State) (type : Option Ref) :
    AllocateInstance → Except Stop (State × Ref)
  | .pup_object_allocate_instance => .ok (s.alloc type .pupObject)
  -- "TODO: NULL any fields?": the heap hands out zeroes
  | .pup_internal_class_allocate_instance =>
      .ok (s.alloc type (.pupClass ⟨none, none, [], none, none⟩))
  | .string_allocate_instance => .ok (s.alloc type (.pupString none))
  | .fixnum_allocate_instance => .error (.raise "you can't call 'new' on Fixnum")

/-- `pup_class_allocate_instance`. -/
def pupClassAllocateInstance (s : State) (clazz : Option Ref) : Except Stop (State × Ref) := do
  let some r := clazz | throw (.fault .abort)
  let c ← s.class (some r)
  let some allocate := c.allocate_instance | throw (.fault .abort)
  allocateInstance s (some r) allocate

/-- `pup_create_object`. -/
def pupCreateObject (s : State) (type : Option Ref) : Except Stop (State × Ref) := do
  let some r := type | throw (.fault .abort)
  pupClassAllocateInstance s (some r)

/-- `pup_class_new`, as far as it runs in the runtime. -/
def pupClassNew (s : State) (target : Option Ref) : Except Stop (State × Ref) := do
  match ← pupInvoke s target "allocate" with
  | .pup_object_allocate => do
      let (s, res) ← pupClassAllocateInstance s target
      -- "return value ignored"
      let _ ← pupInvoke s (some res) "initialize"
      return (s, res)
  | .generated fn => throw (.call fn)
  | _ => throw (.fault .abort)

/-- `pup_fixnum_create`. -/
def pupFixnumCreate (s : State) (value : BitVec 32) : State × Ref :=
  s.alloc s.env.class_fixnum (.pupFixnum value)

/-- `pup_string_new_cstr`. -/
def pupStringNewCstr (s : State) (str : String) : State × Ref :=
  s.alloc s.env.class_string (.pupString (some str))

/-- `attr->value = val` in the entry that `find_attr` returns, or a new entry in front. -/
def setAttr (attrs : List (Sym × Option Ref)) (sym : Sym) (val : Option Ref) :
    List (Sym × Option Ref) :=
  match attrs.findIdx? fun attr => attr.1 = sym with
  | some i => attrs.set i (sym, val)
  | none => (sym, val) :: attrs

/-- `pup_iv_set`. -/
def pupIvSet (s : State) (obj : Option Ref) (sym : Sym) (val : Option Ref) :
    Except Stop State := do
  let o ← s.object obj
  return s.setObject (obj.getD 0) { o with attr_list_head := setAttr o.attr_list_head sym val }

/-- `pup_const_set`. -/
def pupConstSet (s : State) (clazz : Option Ref) (sym : Sym) (val : Option Ref) :
    Except Stop State :=
  pupIvSet s clazz sym val

/-! ### Classes -/

/-- `pup_internal_class_init`; the class is at `r`. -/
def pupInternalClassInit (s : State) (r : Ref) (superclass scope : Option Ref) (name : String)
    (allocate_instance : AllocateInstance) : Except Stop State := do
  let _ ← s.class (some r)
  return s.setClass r ⟨superclass, some name, [], scope, some allocate_instance⟩

/-- `pup_internal_create_class`. -/
def pupInternalCreateClass (s : State) (superclass scope : Option Ref) (name : String)
    (allocate_instance : AllocateInstance) : Except Stop (State × Ref) := do
  let some super := superclass | throw (.fault .abort)
  match ← pupInvoke s s.env.class_class "new" with
  | .pup_class_new => do
      let (s, o) ← pupClassNew s s.env.class_class
      let s ← pupInternalClassInit s o (some super) scope name allocate_instance
      return (s, o)
  | .generated fn => throw (.call fn)
  | _ => throw (.fault .abort)

/-- `pup_create_class`. -/
def pupCreateClass (s : State) (superclass scope : Option Ref) (name : String) :
    Except Stop (State × Ref) :=
  pupInternalCreateClass s superclass scope name .pup_object_allocate_instance

/-- `obj_init` of an object that exists. -/
def objInit (s : State) (r type : Option Ref) : Except Stop State := do
  let o ← s.object r
  return s.setObject (r.getD 0) { o with type := type, attr_list_head := [] }

/-- `pup_bootstrap_create_classobject`. -/
def pupBootstrapCreateClassobject (s : State) : Except Stop (State × Ref) := do
  let (s, r) ← allocateInstance s none .pup_internal_class_allocate_instance
  let s ← pupInternalClassInit s r none none "Object" .pup_object_allocate_instance
  return (s, r)

/-- `pup_bootstrap_create_classclass`. -/
def pupBootstrapCreateClassclass (s : State) (class_object : Option Ref) :
    Except Stop (State × Ref) := do
  let (s, r) ← allocateInstance s none .pup_internal_class_allocate_instance
  let s ← pupInternalClassInit s r class_object class_object "Class"
    .pup_internal_class_allocate_instance
  return (s, r)

/-- `pup_bootstrap_create_classstring`. -/
def pupBootstrapCreateClassstring (s : State) : Except Stop (State × Ref) :=
  pupInternalCreateClass s s.env.class_object none "String" .string_allocate_instance

/-- One `pup_define_method` after another. -/
def defineMethods (s : State) (class_ : Option Ref) (methods : List (Sym × PupMethod)) :
    Except Stop State :=
  methods.foldlM (fun s m => pupDefineMethod s class_ m.1 m.2) s

def pupClassClassInit (s : State) (class_class : Option Ref) : Except Stop State :=
  defineMethods s class_class
    [("new", .pup_class_new), ("allocate", .pup_object_allocate), ("to_s", .pup_class_to_s)]

def pupObjectClassInit (s : State) (class_obj : Option Ref) : Except Stop State :=
  defineMethods s class_obj
    [("initialize", PupMethod.pup_object_initialize), ("raise", .pup_object_raise),
      ("puts", .pup_puts), ("==", .pup_object_op_equals)]

def pupExceptionClassInit (s : State) (class_excep : Option Ref) : Except Stop State :=
  defineMethods s class_excep
    [("initialize", PupMethod.pup_exception_initialize), ("message", .pup_exception_message)]

/-- `pup_bootstrap_create_classfixnum`. -/
def pupBootstrapCreateClassfixnum (s : State) : Except Stop (State × Ref) := do
  let (s, r) ← pupInternalCreateClass s s.env.class_object none "Fixnum" .fixnum_allocate_instance
  let s ← defineMethods s (some r)
    [("+", .pup_fixnum_plus), ("==", .pup_fixnum_op_equals), ("<", .pup_fixnum_op_lessthan)]
  return (s, r)

/-- A class without lexical scope, with its constant in `Object`. -/
def createGlobalClass (s : State) (superclass : Option Ref) (name : String) :
    Except Stop (State × Ref) := do
  let (s, r) ← pupCreateClass s superclass none name
  let s ← pupConstSet s s.env.class_object name (some r)
  return (s, r)

/-- Before `runtime_init`. -/
def blank : State := ⟨[], ⟨none, none, none, none, none, none, none, none, none, none, none⟩⟩

/-- `runtime_init`. -/
def runtimeInit : Except Stop State := do
  let (s, class_object) ← pupBootstrapCreateClassobject blank
  let s := { s with env.class_object := some class_object }
  let (s, class_class) ← pupBootstrapCreateClassclass s s.env.class_object
  let s := { s with env.class_class := some class_class }
  let s ← objInit s s.env.class_object s.env.class_class
  let s ← objInit s s.env.class_class s.env.class_class
  -- what is passed for `class_class` is the class Object
  let s ← pupClassClassInit s s.env.class_object
  let s ← pupObjectClassInit s s.env.class_object
  let s ← pupConstSet s s.env.class_object "Object" s.env.class_object
  let s ← pupConstSet s s.env.class_object "Class" s.env.class_class
  let (s, class_string) ← pupBootstrapCreateClassstring s
  let s := { s with env.class_string := some class_string }
  let s ← pupConstSet s s.env.class_object "String" s.env.class_string
  let (s, class_exception) ← createGlobalClass s s.env.class_object "Exception"
  let s := { s with env.class_exception := some class_exception }
  let (s, class_standarderror) ← createGlobalClass s s.env.class_exception "StandardError"
  let s := { s with env.class_standarderror := some class_standarderror }
  let (s, class_runtimeerror) ← createGlobalClass s s.env.class_standarderror "RuntimeError"
  let s := { s with env.class_runtimeerror := some class_runtimeerror }
  let (s, class_true) ← createGlobalClass s s.env.class_object "TrueClass"
  let s := { s with env.class_true := some class_true }
  let (s, class_false) ← createGlobalClass s s.env.class_object "FalseClass"
  let s := { s with env.class_false := some class_false }
  let (s, object_true) ← pupCreateObject s s.env.class_true
  let s := { s with env.object_true := some object_true }
  let (s, object_false) ← pupCreateObject s s.env.class_false
  let s := { s with env.object_false := some object_false }
  let s ← pupExceptionClassInit s s.env.class_exception
  let (s, class_fixnum) ← pupBootstrapCreateClassfixnum s
  let s := { s with env.class_fixnum := some class_fixnum }
  pupConstSet s s.env.class_object "Fixnum" s.env.class_fixnum

end Pup.Runtime
