/-
Fixnums.

The struct of a Fixnum holds an `int` of C.  What the sum of two of these is when it does not
fit, the language leaves open, and so does the model: the addition is a parameter.
-/
import Pup.Runtime.Attributes
import Pup.Runtime.Layouts

namespace Pup.Runtime

/-- A read of a `struct PupFixnum`, which runs off the end of any other object. -/
def State.fixnum (s : State) (r : Option Ref) : Except Stop (BitVec 32) := do
  let o ← s.object r
  match o.layout with
  | .pupFixnum value => return value
  | _ => throw (.fault (.segv (r.getD 0)))

/-- `pup_arity_check`. -/
def pupArityCheck (expected actual : Nat) : Except Stop Unit :=
  if expected = actual then .ok ()
  else .error (.raise (fitMessage
    ("wrong number of arguments (" ++ toString actual ++ " for " ++ toString expected ++ ")")))

/-- `pup_fixnum_plus`, with the addition of `int`. -/
def pupFixnumPlus (add : BitVec 32 → BitVec 32 → BitVec 32) (s : State) (target : Option Ref)
    (argv : List (Option Ref)) : Except Stop (State × Ref) := do
  pupArityCheck 1 argv.length
  let rhs := argv.headD none
  let t ← s.object target
  let o ← s.object rhs
  if t.type ≠ o.type then
    let type_name ← pupTypeName s o.type
    throw (.raise (fitMessage (type_name ++ " can't be coerced into Fixnum")))
  let left ← s.fixnum target
  let right ← s.fixnum rhs
  return pupFixnumCreate s (add left right)

/-- What `==` and `<` of Fixnum have in common: an object of another class is neither equal nor
greater. -/
def pupFixnumCompare (holds : BitVec 32 → BitVec 32 → Bool) (s : State) (target : Option Ref)
    (argv : List (Option Ref)) : Except Stop (Option Ref) := do
  pupArityCheck 1 argv.length
  let rhs := argv.headD none
  let t ← s.object target
  let o ← s.object rhs
  if t.type ≠ o.type then return s.env.object_false
  let left ← s.fixnum target
  let right ← s.fixnum rhs
  return if holds left right then s.env.object_true else s.env.object_false

/-- `pup_fixnum_op_equals`. -/
def pupFixnumOpEquals : State → Option Ref → List (Option Ref) → Except Stop (Option Ref) :=
  pupFixnumCompare fun left right => left == right

/-- `pup_fixnum_op_lessthan`. -/
def pupFixnumOpLessthan : State → Option Ref → List (Option Ref) → Except Stop (Option Ref) :=
  pupFixnumCompare BitVec.slt

/-! ### What they do -/

variable {s : State} {r l : Ref} {v a b : BitVec 32}

theorem fixnum_ok : s.fixnum (some r) = .ok v ↔
    ∃ o, s.objects[r]? = some o ∧ o.layout = .pupFixnum v := by
  unfold State.fixnum
  cases hobj : s.objects[r]? with
  | none => simp [State.object, hobj, bind, Except.bind]
  | some o =>
      cases hlayout : o.layout <;>
        simp [State.object, hobj, bind, Except.bind, pure, Except.pure, throw, throwThe,
          MonadExceptOf.throw, hlayout]

/-- A new Fixnum has its value, and the others keep theirs. -/
theorem pupFixnumCreate_fixnum (s : State) (v : BitVec 32) :
    (pupFixnumCreate s v).1.fixnum (some (pupFixnumCreate s v).2) = .ok v ∧
      ∀ r a, s.fixnum (some r) = .ok a → (pupFixnumCreate s v).1.fixnum (some r) = .ok a := by
  constructor
  · exact fixnum_ok.mpr ⟨_, List.getElem?_concat_length, rfl⟩
  · intro r a h
    obtain ⟨o, ho, hlayout⟩ := fixnum_ok.mp h
    have hlt := (List.getElem?_eq_some_iff.mp ho).1
    exact fixnum_ok.mpr ⟨o, (List.getElem?_append_left hlt).trans ho, hlayout⟩

theorem Typed.pupFixnumCreate (hs : Typed s) (v : BitVec 32) : Typed (pupFixnumCreate s v).1 :=
  hs.step (i := .fixnum v) rfl

/-- A Fixnum is an instance of the class. -/
theorem Typed.type_of_fixnum (hs : Typed s) (h : s.fixnum (some r) = .ok v) :
    ∃ o, s.objects[r]? = some o ∧ o.type = some 10 := by
  obtain ⟨o, ho, hlayout⟩ := fixnum_ok.mp h
  have htype := (hs.pupFixnum_iff ho).mp (by rw [hlayout]; rfl)
  rw [hs.env] at htype
  exact ⟨o, ho, htype⟩

/-- The methods of the runtime on a Fixnum are the ones that are called. -/
theorem Typed.pupInvoke_builtin (hs : Typed s) (h : s.fixnum (some r) = .ok v) {name : Sym}
    {method : PupMethod} (hfind : findMethodInList (builtins 10) name = some method) :
    pupInvoke s (some r) name = .ok method := by
  obtain ⟨o, ho, htype⟩ := hs.type_of_fixnum h
  obtain ⟨chain, t, ht, hchain⟩ := hs.exists_chain ho
  obtain rfl : t = 10 := Option.some.inj (ht.symm.trans htype)
  obtain ⟨rest, rfl⟩ : ∃ rest, chain = 10 :: rest := by
    cases hchain.linked with
    | cons _ => exact ⟨_, rfl⟩
  have hnearest : Nearest s o 10 name := ⟨[], rest, ⟨10, htype, hchain⟩, by simp⟩
  refine hnearest.selected ho ?_
  obtain ⟨more, -, hmethods⟩ := hs.methods 10
  rw [hmethods, findMethodInList_append, hfind]
  rfl

/-- **`+` on a Fixnum is the method of the runtime, whatever else has been defined.** -/
theorem Typed.pupInvoke_plus (hs : Typed s) (h : s.fixnum (some r) = .ok v) :
    pupInvoke s (some r) "+" = .ok .pup_fixnum_plus :=
  hs.pupInvoke_builtin h rfl

/-- **`pup_fixnum_plus` on two Fixnums makes one of the sum.** -/
theorem Typed.pupFixnumPlus_ok (hs : Typed s) (add : BitVec 32 → BitVec 32 → BitVec 32)
    (hl : s.fixnum (some l) = .ok a) (hr : s.fixnum (some r) = .ok b) :
    pupFixnumPlus add s (some l) [some r] = .ok (Runtime.pupFixnumCreate s (add a b)) := by
  obtain ⟨o, ho, htype⟩ := hs.type_of_fixnum hl
  obtain ⟨o', ho', htype'⟩ := hs.type_of_fixnum hr
  have hobject : s.object (some l) = .ok o := by simp [State.object, ho]
  have hobject' : s.object (some r) = .ok o' := by simp [State.object, ho']
  simp [pupFixnumPlus, pupArityCheck, bind, Except.bind, pure, Except.pure, hobject, hobject', hl,
    hr, htype, htype']

/-- A comparison of two Fixnums is the true instance or the false one. -/
theorem Typed.pupFixnumCompare_ok (hs : Typed s) (holds : BitVec 32 → BitVec 32 → Bool)
    (hl : s.fixnum (some l) = .ok a) (hr : s.fixnum (some r) = .ok b) :
    pupFixnumCompare holds s (some l) [some r] =
      .ok (if holds a b then s.env.object_true else s.env.object_false) := by
  obtain ⟨o, ho, htype⟩ := hs.type_of_fixnum hl
  obtain ⟨o', ho', htype'⟩ := hs.type_of_fixnum hr
  have hobject : s.object (some l) = .ok o := by simp [State.object, ho]
  have hobject' : s.object (some r) = .ok o' := by simp [State.object, ho']
  simp [pupFixnumCompare, pupArityCheck, bind, Except.bind, pure, Except.pure, hobject, hobject',
    hl, hr, htype, htype']

end Pup.Runtime
