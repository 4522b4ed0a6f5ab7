/-
The methods of the runtime, and what a program does with them.

A method of the runtime reads its target and its arguments, changes the runtime, and returns
or raises.  What stands in the models of the functions as stopping with a message is
`pup_raise_runtimeerror`: a `RuntimeError` is made and raised (`pupRaiseRuntimeerror`).
`pup_class_new` is the only one that invokes other methods.

A generated method may do anything of what the code generator makes calls for: steps of the
runtime, invocations with a landing pad or without, lookups of constants.  `Runs` is what may
become of an invocation, whatever the program is.
-/
import Mathlib.Logic.Relation
import Pup.Runtime.Stringify
import Pup.Runtime.Fixnum

namespace Pup.Runtime

open Chain Outcome Transition

/-- The runtime, and the lines that `puts` has written, oldest first. -/
structure World where
  state : State
  stdout : List String

/-- How a method comes back. -/
inductive Result
  | returned (v : Option Ref)
  | raised (e : Ref)
  deriving DecidableEq, Repr

/-! ### Errors -/

/-- `pup_object_kindof`. -/
def pupObjectKindof (s : State) (obj class_ : Option Ref) : Except Stop Bool := do
  let o ← s.object obj
  pupIsDescendantOrSame s class_ o.type

/-- `pup_exception_message_set`. -/
def pupExceptionMessageSet (s : State) (target value : Option Ref) : Except Stop State :=
  pupIvSet s target "@message" value

/-- `pup_new_runtimeerror`. -/
def pupNewRuntimeerror (s : State) (message : Option String) : Except Stop (State × Ref) := do
  let some message := message | throw (.fault .abort)
  let (s, e) ← pupCreateObject s s.env.class_runtimeerror
  let (s, text) := pupStringNewCstr s message
  let s ← pupExceptionMessageSet s (some e) (some text)
  return (s, e)

/-- `pup_raise_runtimeerror`. -/
def pupRaiseRuntimeerror (w : World) (message : Option String) :
    Except Stop (World × Result) := do
  let (s, e) ← pupNewRuntimeerror w.state message
  return ({ w with state := s }, .raised e)

/-! ### The methods -/

/-- `pup_object_initialize`. -/
def pupObjectInitialize (w : World) : Except Stop (World × Result) :=
  -- "TODO: return nil"
  .ok (w, .returned none)

/-- `pup_object_raise`. -/
def pupObjectRaise (w : World) (argv : List (Option Ref)) : Except Stop (World × Result) := do
  pupArityCheck 1 argv.length
  let some arg := argv.headD none | throw (.fault .null)
  if ← pupObjectKindof w.state (some arg) w.state.env.class_exception then
    return (w, .raised arg)
  else if ← pupIsString w.state (some arg) then
    let value ← pupStringValueUnsafe w.state (some arg)
    pupRaiseRuntimeerror w value
  else
    -- "TODO exception classes"
    pupRaiseRuntimeerror w (some "exception class/object expected")

/-- `pup_puts`. -/
def pupPuts (addr : Ref → String) (w : World) (argv : List (Option Ref)) :
    Except Stop (World × Result) := do
  pupArityCheck 1 argv.length
  let some arg := argv.headD none | throw (.fault .null)
  let str ← pupStringify addr w.state arg
  return ({ w with stdout := w.stdout ++ [str] }, .returned none)

/-- `pup_object_op_equals`. -/
def pupObjectOpEquals (w : World) (target : Option Ref) (argv : List (Option Ref)) :
    Except Stop (World × Result) := do
  pupArityCheck 1 argv.length
  let rhs := argv.headD none
  return (w, .returned
    (if target = rhs then w.state.env.object_true else w.state.env.object_false))

/-- `pup_object_allocate`. -/
def pupObjectAllocate (w : World) (target : Option Ref) : Except Stop (World × Result) := do
  let (s, o) ← pupClassAllocateInstance w.state target
  return ({ w with state := s }, .returned (some o))

/-- `pup_class_to_s`. -/
def pupClassToS (w : World) (target : Option Ref) : Except Stop (World × Result) := do
  let c ← w.state.class target
  let name ← strdup c.name
  let (s, str) := pupStringNewCstr w.state name
  return ({ w with state := s }, .returned (some str))

/-- `pup_exception_initialize`. -/
def pupExceptionInitialize (w : World) (target : Option Ref) :
    List (Option Ref) → Except Stop (World × Result)
  | [] => .ok (w, .returned none)
  | [message] => do
      let s ← pupExceptionMessageSet w.state target message
      return ({ w with state := s }, .returned none)
  | argv => do
      pupArityCheck 1 argv.length
      return (w, .returned none)

/-- `pup_exception_message`. -/
def pupExceptionMessage (w : World) (target : Option Ref) : Except Stop (World × Result) := do
  let message ← pupExceptionMessageGet w.state target
  return (w, .returned message)

/-- An operator that makes a Fixnum. -/
def makes (w : World) (x : Except Stop (State × Ref)) : Except Stop (World × Result) :=
  x.map fun p => ({ w with state := p.1 }, .returned (some p.2))

/-- An operator that looks at the runtime only. -/
def answers (w : World) (x : Except Stop (Option Ref)) : Except Stop (World × Result) :=
  x.map fun v => (w, .returned v)

/-- What an error with a message comes to. -/
def orRaise (w : World) : Except Stop (World × Result) → Except Stop (World × Result)
  | .error (.raise message) => pupRaiseRuntimeerror w (some message)
  | x => x

section Builtin

variable (addr : Ref → String) (add : BitVec 32 → BitVec 32 → BitVec 32)

/-- A method that invokes no other, on its target and its arguments. -/
def builtin (w : World) (target : Option Ref) (argv : List (Option Ref)) :
    PupMethod → Option (Except Stop (World × Result))
  | PupMethod.pup_object_initialize => some (pupObjectInitialize w)
  | .pup_object_raise => some (pupObjectRaise w argv)
  | .pup_puts => some (pupPuts addr w argv)
  | .pup_object_op_equals => some (pupObjectOpEquals w target argv)
  | .pup_object_allocate => some (pupObjectAllocate w target)
  | .pup_class_to_s => some (pupClassToS w target)
  | PupMethod.pup_exception_initialize => some (pupExceptionInitialize w target argv)
  | .pup_exception_message => some (pupExceptionMessage w target)
  | .pup_fixnum_plus => some (makes w (pupFixnumPlus add w.state target argv))
  | .pup_fixnum_op_equals => some (answers w (pupFixnumOpEquals w.state target argv))
  | .pup_fixnum_op_lessthan => some (answers w (pupFixnumOpLessthan w.state target argv))
  | .pup_class_new => none
  | .generated _ => none

/-! ### Programs -/

/-- What is being done. -/
inductive Job
  /-- `pup_invoke` -/
  | invoke (target : Option Ref) (name_sym : Sym) (argv : List (Option Ref))
  /-- the method that it has selected -/
  | call (method : PupMethod) (target : Option Ref) (argv : List (Option Ref))
  /-- the rest of a generated method -/
  | code

/-- What may become of it: the world it leaves, and how it comes back. -/
inductive Runs : Job → World → World → Result → Prop
  | undefined {target : Option Ref} {name_sym : Sym} {argv : List (Option Ref)} {w w' : World}
      {message : String} {res : Result}
      (h : pupInvoke w.state target name_sym = .error (.raise message))
      (hraise : pupRaiseRuntimeerror w (some message) = .ok (w', res)) :
      Runs (.invoke target name_sym argv) w w' res
  | selected {target : Option Ref} {name_sym : Sym} {argv : List (Option Ref)} {w w' : World}
      {method : PupMethod} {res : Result} (h : pupInvoke w.state target name_sym = .ok method)
      (hcall : Runs (.call method target argv) w w' res) :
      Runs (.invoke target name_sym argv) w w' res
  | builtin {method : PupMethod} {target : Option Ref} {argv : List (Option Ref)} {w w' : World}
      {x : Except Stop (World × Result)} {res : Result}
      (hmethod : builtin addr add w target argv method = some x)
      (h : orRaise w x = .ok (w', res)) : Runs (.call method target argv) w w' res
  -- `pup_class_new`
  | new {target o v : Option Ref} {argv : List (Option Ref)} {w w₁ w₂ : World}
      (hallocate : Runs (.invoke target "allocate" []) w w₁ (.returned o))
      (hinit : Runs (.invoke o "initialize" argv) w₁ w₂ (.returned v)) :
      Runs (.call .pup_class_new target argv) w w₂ (.returned o)
  | newAllocate {target : Option Ref} {argv : List (Option Ref)} {w w₁ : World} {e : Ref}
      (hallocate : Runs (.invoke target "allocate" []) w w₁ (.raised e)) :
      Runs (.call .pup_class_new target argv) w w₁ (.raised e)
  | newInitialize {target o : Option Ref} {argv : List (Option Ref)} {w w₁ w₂ : World} {e : Ref}
      (hallocate : Runs (.invoke target "allocate" []) w w₁ (.returned o))
      (hinit : Runs (.invoke o "initialize" argv) w₁ w₂ (.raised e)) :
      Runs (.call .pup_class_new target argv) w w₂ (.raised e)
  | generated {fn : Nat} {target : Option Ref} {argv : List (Option Ref)} {w w' : World}
      {res : Result} (h : Runs .code w w' res) : Runs (.call (.generated fn) target argv) w w' res
  -- what a generated method does
  | return_ {w : World} (v : Option Ref) : Runs .code w w (.returned v)
  | act {w w' : World} {s : State} {res : Result} {i : Label} (h : step w.state i = some s)
      (hrest : Runs .code { w with state := s } w' res) : Runs .code w w' res
  /-- `pup_const_get_required` -/
  | constant {w w' : World} {res : Result} {clazz : Option Ref} {sym : Sym} {message : String}
      (h : pupConstGetRequired w.state clazz sym = .error (.raise message))
      (hraise : pupRaiseRuntimeerror w (some message) = .ok (w', res)) : Runs .code w w' res
  | send {target v : Option Ref} {name_sym : Sym} {argv : List (Option Ref)} {w w₁ w' : World}
      {res : Result} (h : Runs (.invoke target name_sym argv) w w₁ (.returned v))
      (hrest : Runs .code w₁ w' res) : Runs .code w w' res
  /-- an exception that the method has no landing pad for, or that it rethrows -/
  | escape {target : Option Ref} {name_sym : Sym} {argv : List (Option Ref)} {w w₁ : World}
      {e : Ref} (h : Runs (.invoke target name_sym argv) w w₁ (.raised e)) :
      Runs .code w w₁ (.raised e)
  /-- an exception that the method rescues -/
  | rescue {target : Option Ref} {name_sym : Sym} {argv : List (Option Ref)} {w w₁ w' : World}
      {e : Ref} {res : Result} (h : Runs (.invoke target name_sym argv) w w₁ (.raised e))
      (hrest : Runs .code w₁ w' res) : Runs .code w w' res

end Builtin

/-! ### What they do to the runtime -/

/-- Steps of the runtime lead from one state to the other. -/
def Moves : State → State → Prop :=
  Relation.ReflTransGen fun s s' => ∃ i, step s i = some s'

section Moves

variable {s s' : State}

theorem Moves.step {i : Label} (h : Runtime.step s i = some s') : Moves s s' :=
  .single ⟨i, h⟩

theorem Moves.reachable (h : Moves s s') (hs : Reachable runtimeMachine s) :
    Reachable runtimeMachine s' := by
  induction h with
  | refl => exact hs
  | tail _ hstep ih =>
      obtain ⟨i, hstep⟩ := hstep
      exact ih.step i hstep

/-- **What steps keep of a typed state.** -/
theorem Moves.induct {P : State → State → Prop} (h : Moves s s') (hs : Typed s)
    (hrefl : ∀ s, P s s) (htrans : ∀ {s₁ s₂ s₃}, P s₁ s₂ → P s₂ s₃ → P s₁ s₃)
    (hstep : ∀ {s₁ s₂ i}, Typed s₁ → Runtime.step s₁ i = some s₂ → P s₁ s₂) :
    Typed s' ∧ P s s' := by
  induction h with
  | refl => exact ⟨hs, hrefl s⟩
  | tail _ hlast ih =>
      obtain ⟨htyped, hold⟩ := ih
      obtain ⟨i, hlast⟩ := hlast
      exact ⟨htyped.step hlast, htrans hold (hstep htyped hlast)⟩

theorem KeepsClasses.trans {s₁ s₂ s₃ : State} (h : KeepsClasses s₁ s₂)
    (h' : KeepsClasses s₂ s₃) : KeepsClasses s₁ s₃ := by
  intro r hr
  obtain ⟨hr₂, hsuper⟩ := h r hr
  obtain ⟨hr₃, hsuper'⟩ := h' r hr₂
  exact ⟨hr₃, hsuper'.trans hsuper⟩

theorem Moves.keepsClasses (h : Moves s s') (hs : Typed s) : KeepsClasses s s' :=
  (h.induct (P := KeepsClasses) hs (fun _ _ hr => ⟨hr, rfl⟩) KeepsClasses.trans
    fun hs hstep => step_keepsClasses hs hstep).2

/-- Every object is of the class it was of. -/
def KeepsTypes (s s' : State) : Prop := ∀ r t, s.type r = some t → s'.type r = some t

theorem type_alloc_of_some {r t : Ref} {type : Option Ref} {layout : Layout}
    (h : s.type r = some t) : (s.alloc type layout).1.type r = some t := by
  rw [State.type, State.alloc, List.getElem?_append_left (lt_of_type h)]
  exact h

theorem step_keepsTypes (hs : Typed s) {i : Label} (h : Runtime.step s i = some s') :
    KeepsTypes s s' := by
  intro r t ht
  rcases step_cases hs h with ⟨_, layout, -, rfl⟩ | ⟨k, name_sym, fn, hd⟩ | hsame
  · exact type_alloc_of_some ht
  · rw [hd.type]
    exact ht
  · rw [(hsame.object r).1]
    exact ht

theorem Moves.keepsTypes (h : Moves s s') (hs : Typed s) : KeepsTypes s s' :=
  (h.induct (P := KeepsTypes) hs (fun _ _ _ h => h) (fun h h' r t ht => h' r t (h r t ht))
    fun hs hstep => step_keepsTypes hs hstep).2

end Moves

/-- What a method of the runtime or of a program has done to the world. -/
structure Does (w w' : World) : Prop where
  moves : Moves w.state w'.state
  stdout : ∃ more, w'.stdout = w.stdout ++ more

theorem Does.refl (w : World) : Does w w :=
  ⟨.refl, [], (List.append_nil _).symm⟩

theorem Does.trans {w w' w'' : World} (h : Does w w') (h' : Does w' w'') : Does w w'' := by
  obtain ⟨more, hmore⟩ := h.stdout
  obtain ⟨more', hmore'⟩ := h'.stdout
  exact ⟨h.moves.trans h'.moves, more ++ more', by rw [hmore', hmore, List.append_assoc]⟩

theorem Does.state {w : World} {s : State} (h : Moves w.state s) :
    Does w { w with state := s } :=
  ⟨h, [], (List.append_nil _).symm⟩

theorem moves_allocate {s s' : State} {clazz : Option Ref} {o : Ref}
    (h : pupClassAllocateInstance s clazz = .ok (s', o)) : Moves s s' := by
  cases clazz with
  | none => cases h
  | some r =>
      refine .step (i := .createObject r) ?_
      show ((pupClassAllocateInstance s (some r)).map Prod.fst).toOption = some s'
      rw [h]
      rfl

theorem moves_string (s : State) (str : String) : Moves s (pupStringNewCstr s str).1 :=
  .step (i := .string str) rfl

theorem moves_ivSet {s s' : State} {obj val : Option Ref} {sym : Sym}
    (h : pupIvSet s obj sym val = .ok s') : Moves s s' := by
  cases obj with
  | none => cases h
  | some r =>
      refine .step (i := .ivSet r sym val) ?_
      show (pupIvSet s (some r) sym val).toOption = some s'
      rw [h]
      rfl

theorem moves_createObject {s s' : State} {type : Option Ref} {o : Ref}
    (h : pupCreateObject s type = .ok (s', o)) : Moves s s' := by
  cases type with
  | none => cases h
  | some r =>
      have h : pupClassAllocateInstance s (some r) = .ok (s', o) := h
      exact moves_allocate h

theorem moves_runtimeerror {s s' : State} {message : Option String} {e : Ref}
    (h : pupNewRuntimeerror s message = .ok (s', e)) : Moves s s' := by
  cases message with
  | none => cases h
  | some message =>
      obtain ⟨⟨s₁, e₁⟩, hcreate, h⟩ := bind_ok h
      obtain ⟨s₂, hset, h⟩ := bind_ok h
      cases h
      exact ((moves_createObject hcreate).trans (moves_string s₁ message)).trans
        (moves_ivSet hset)

theorem does_raise {w w' : World} {message : Option String} {res : Result}
    (h : pupRaiseRuntimeerror w message = .ok (w', res)) : Does w w' := by
  obtain ⟨⟨s, e⟩, hnew, h⟩ := bind_ok h
  cases h
  exact .state (moves_runtimeerror hnew)

end Pup.Runtime
