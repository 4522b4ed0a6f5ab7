/-
Reading and writing attributes and constants.

An object's attributes are a list, in which `pup_iv_set` rewrites the entry for a symbol or
puts a new one in front.  A class's constants are among its attributes, and
`pup_const_get` looks through the class and the classes it is in by `scope`, taking a null
value for none (`pupConstGet_eq`).
-/
import Pup.Runtime.Methods

namespace Pup.Runtime

open Chain Outcome

/-! ### Attributes -/

/-- The type of what is at `r`. -/
def State.type (s : State) (r : Ref) : Option Ref := (s.objects[r]?).bind Obj.type

theorem type_eq {s : State} {r : Ref} {o : Obj} (h : s.objects[r]? = some o) :
    s.type r = o.type := by
  rw [State.type, h]
  rfl

/-- `find_attr`: what is in the entry it finds. -/
def findAttr (attrs : List (Sym × Option Ref)) (sym : Sym) : Option (Option Ref) :=
  (attrs.find? fun attr => attr.1 = sym).map Prod.snd

/-- `pup_iv_get`. -/
def pupIvGet (s : State) (obj : Option Ref) (sym : Sym) : Except Stop (Option Ref) := do
  let o ← s.object obj
  return (findAttr o.attr_list_head sym).getD none

/-- The attributes of what is at `r`. -/
def State.attrs (s : State) (r : Ref) : List (Sym × Option Ref) :=
  (s.objects[r]?).elim [] Obj.attr_list_head

theorem attrs_eq {s : State} {r : Ref} {o : Obj} (h : s.objects[r]? = some o) :
    s.attrs r = o.attr_list_head := by
  unfold State.attrs
  rw [h]
  rfl

theorem object_ok {s : State} {r : Ref} {o : Obj} :
    s.object (some r) = .ok o ↔ s.objects[r]? = some o := by
  unfold State.object
  cases ho : s.objects[r]? <;> simp [ho]

theorem pupIvGet_eq {s : State} {r : Ref} {o : Obj} (h : s.objects[r]? = some o) (sym : Sym) :
    pupIvGet s (some r) sym = .ok ((findAttr (s.attrs r) sym).getD none) := by
  unfold pupIvGet
  rw [object_ok.mpr h, attrs_eq h]
  rfl

/-- The entry that is found gets another value. -/
theorem findAttr_set {attrs : List (Sym × Option Ref)} {sym : Sym} {i : Nat}
    (h : attrs.findIdx? (fun attr => attr.1 = sym) = some i) (val : Option Ref) (sym' : Sym) :
    findAttr (attrs.set i (sym, val)) sym' =
      if sym = sym' then some val else findAttr attrs sym' := by
  induction attrs generalizing i with
  | nil => cases h
  | cons attr rest ih =>
      rw [List.findIdx?_cons] at h
      by_cases hattr : attr.1 = sym
      · simp only [hattr, decide_true, if_true, Option.some.injEq] at h
        subst h
        by_cases hsym : sym = sym'
        · simp [findAttr, hsym]
        · simp [findAttr, hsym, hattr]
      · simp only [hattr, decide_false, Bool.false_eq_true, if_false, Option.map_eq_some_iff] at h
        obtain ⟨j, hj, rfl⟩ := h
        have hrest := ih hj
        unfold findAttr at *
        rw [List.set_cons_succ, List.find?_cons, List.find?_cons]
        by_cases hattr' : attr.1 = sym'
        · have hsym : sym ≠ sym' := fun heq => hattr (hattr'.trans heq.symm)
          simp [hattr', hsym]
        · simpa [hattr'] using hrest

/-- **An attribute has the value it was last given.** -/
theorem findAttr_setAttr (attrs : List (Sym × Option Ref)) (sym : Sym) (val : Option Ref)
    (sym' : Sym) : findAttr (setAttr attrs sym val) sym' =
      if sym = sym' then some val else findAttr attrs sym' := by
  unfold setAttr
  cases h : attrs.findIdx? (fun attr => attr.1 = sym) with
  | none =>
      by_cases hsym : sym = sym'
      · simp [findAttr, hsym]
      · simp [findAttr, hsym]
  | some i => exact findAttr_set h val sym'

theorem object_lt {s : State} {r : Ref} {o : Obj} (h : s.objects[r]? = some o) :
    r < s.objects.length :=
  (List.getElem?_eq_some_iff.mp h).1

theorem attrs_of_le {s : State} {r : Ref} (h : s.objects.length ≤ r) : s.attrs r = [] := by
  unfold State.attrs
  rw [List.getElem?_eq_none_iff.mpr h]
  rfl

/-- A new object has no attributes, and the others keep theirs. -/
theorem attrs_alloc (s : State) (type : Option Ref) (layout : Layout) (r : Ref) :
    (s.alloc type layout).1.attrs r = s.attrs r := by
  by_cases hr : r < s.objects.length
  · unfold State.attrs State.alloc
    rw [List.getElem?_append_left hr]
  · have hle : s.objects.length ≤ r := Nat.le_of_not_lt hr
    rw [attrs_of_le hle]
    by_cases heq : r = s.objects.length
    · subst heq
      simp [State.attrs, State.alloc]
    · apply attrs_of_le
      show (s.objects ++ [_]).length ≤ r
      rw [List.length_append, List.length_singleton]
      exact Nat.succ_le_of_lt (Nat.lt_of_le_of_ne hle (Ne.symm heq))

theorem pupIvSet_attrs {s s' : State} {obj : Ref} {sym : Sym} {val : Option Ref}
    (h : pupIvSet s (some obj) sym val = .ok s') (r : Ref) :
    s'.attrs r = if r = obj then setAttr (s.attrs obj) sym val else s.attrs r := by
  obtain ⟨o, ho, h⟩ := bind_ok h
  have ho := object_ok.mp ho
  cases h
  by_cases hr : r = obj
  · subst hr
    rw [if_pos rfl, attrs_eq ho]
    exact attrs_eq (o := { o with attr_list_head := setAttr o.attr_list_head sym val })
      (List.getElem?_set_self (object_lt ho))
  · rw [if_neg hr]
    unfold State.attrs State.setObject
    rw [Option.getD_some, List.getElem?_set_ne (Ne.symm hr)]

theorem Defined.attrs {s s' : State} {r : Ref} {entry : MethodListEntry}
    (h : Defined s s' r entry) (k : Ref) : s'.attrs k = s.attrs k := by
  by_cases hk : k = r
  · subst hk
    obtain ⟨o, c, ho, -, ho'⟩ := h.target
    rw [attrs_eq ho, attrs_eq ho']
  · unfold State.attrs
    rw [h.objects k hk]

/-! ### Constants -/

/-- The `scope` field, if there is a class at `r`. -/
def State.scope (s : State) (r : Ref) : Option Ref :=
  (s.class (some r)).toOption.bind PupClass.scope

theorem scope_eq {s : State} {r : Ref} {c : PupClass} (h : s.class (some r) = .ok c) :
    s.scope r = c.scope := by
  unfold State.scope
  rw [h]
  rfl

theorem Defined.scope {s s' : State} {r : Ref} {entry : MethodListEntry}
    (h : Defined s s' r entry) : s'.scope = s.scope := by
  funext k
  by_cases hk : k = r
  · subst hk
    obtain ⟨c, hc⟩ := h.isClass
    rw [scope_eq hc, scope_eq (h.class_self hc)]
  · unfold State.scope
    rw [h.class_of_ne hk]

/-- The loop of `pup_const_get`, for at most `fuel - 1` classes. -/
def constGet (s : State) (sym : Sym) : Nat → Option Ref → Except Stop (Option Ref)
  | 0, _ => .error (.fault .outOfFuel)
  | _ + 1, none => .ok none
  | fuel + 1, some lookup => do
      match ← pupIvGet s (some lookup) sym with
      | some result => return some result
      | none => do
          let c ← s.class (some lookup)
          constGet s sym fuel c.scope

/-- `pup_const_get`, which does not expect a null pointer. -/
def pupConstGet (s : State) (clazz : Option Ref) (sym : Sym) : Except Stop (Option Ref) := do
  let some r := clazz | throw (.fault .null)
  constGet s sym s.fuel (some r)

/-- What fits into the `char message[1024]` of `pup_new_runtimeerrorf`. -/
def fitMessage (text : String) : String := String.ofList (text.toList.take 1023)

/-- `pup_const_get_required`. -/
def pupConstGetRequired (s : State) (clazz : Option Ref) (sym : Sym) : Except Stop Ref := do
  match ← pupConstGet s clazz sym with
  | some res => return res
  | none => throw (.raise (fitMessage ("uninitialized constant " ++ sym)))

/-- `pup_class_context_from`. -/
def pupClassContextFrom (s : State) (obj : Option Ref) : Except Stop (Option Ref) := do
  let o ← s.object obj
  if o.type = s.env.class_class then return obj else return o.type

/-- The value of a class's constant; a null one is none. -/
def State.constant (s : State) (r : Ref) (sym : Sym) : Option Ref :=
  (findAttr (s.attrs r) sym).getD none

theorem constGet_eq {s : State} {r : Option Ref} {l : List Ref} (hl : Linked s.scope r l)
    (hc : ∀ k ∈ l, s.IsClass k) (sym : Sym) {fuel : Nat} (hfuel : l.length < fuel) :
    constGet s sym fuel r = .ok (l.findSome? fun k => s.constant k sym) := by
  induction hl generalizing fuel with
  | nil =>
      cases fuel with
      | zero => simp at hfuel
      | succ fuel => rfl
  | @cons k l hl ih =>
      cases fuel with
      | zero => simp at hfuel
      | succ fuel =>
          obtain ⟨c, hk⟩ := hc k List.mem_cons_self
          obtain ⟨o, ho, -⟩ := class_ok.mp hk
          have hrest := ih (fun j hj => hc j (List.mem_cons_of_mem k hj))
            (Nat.lt_of_succ_lt_succ hfuel)
          rw [scope_eq hk] at hrest
          have hget : pupIvGet s (some k) sym = .ok (s.constant k sym) := pupIvGet_eq ho sym
          rw [constGet, hget, List.findSome?_cons]
          cases s.constant k sym with
          | some result => rfl
          | none =>
              simp only [bind, Except.bind, hk]
              exact hrest

/-- A class and the classes it is in by `scope`, the nearest first. -/
structure ScopeChain (s : State) (r : Ref) (l : List Ref) : Prop where
  linked : Linked s.scope (some r) l
  classes : ∀ k ∈ l, s.IsClass k

/-- **What `pup_const_get` finds** is in the nearest scope that has it. -/
theorem ScopeChain.find {s : State} {r : Ref} {l : List Ref} (h : ScopeChain s r l)
    (sym : Sym) :
    pupConstGet s (some r) sym = .ok (l.findSome? fun k => s.constant k sym) := by
  have hlen : l.length ≤ s.objects.length := length_le_of_classes h.linked.nodup h.classes
  exact constGet_eq h.linked h.classes sym (Nat.lt_succ_of_le hlen)

end Pup.Runtime
