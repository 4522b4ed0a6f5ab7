/-
Copying a class.

`pup_internal_class_gc_copy_instance` asks for a block for attributes and copies the
`struct PupClass` into it, header and all.  The copy is thus no object to whoever walks
the heap, and its constants are in the entries of the original (`class_copy_shares`): when these
are unmapped, `pup_const_get` on the copy faults.  Methods are in `malloc`ed memory, and
still found.
-/
import Pup.Gc.CopyInstance

namespace Pup.Copying

open Chain Heap

/-- What a `struct PupClass` holds behind its header. -/
structure PupClass where
  superclass : Option Addr
  name : Option Addr
  method_list_head : Option Addr
  scope : Option Addr
  allocate_instance : Addr
  destroy_instance : Addr
  gc_copy_instance : Addr
  deriving DecidableEq, Repr

structure MethodListEntry where
  name_sym : Int
  method : Addr
  next : Option Addr
  deriving DecidableEq, Repr

/-- A store with classes in it, and with their methods in `malloc`ed memory. -/
structure ClassStore (σ : Type) where
  store : Store σ
  classes : Addr → Option PupClass
  methods : Addr → Option MethodListEntry

/-- `sizeof(struct PupClass)`. -/
def sizeofPupClass : Nat := 80

section Class

variable {σ : Type}

/-- `pup_internal_class_gc_copy_instance`. -/
def pupInternalClassGcCopyInstance (A : Allocator σ) (s : ClassStore σ) (obj : Addr) :
    Option (ClassStore σ × Addr) := do
  let (store, new_obj) := allocBlock A s.store sizeofPupClass .attr
  -- `memcpy` of the whole struct
  let o ← store.mem.objects obj
  let c ← s.classes obj
  -- "FIXME: must copy attrs too!"
  some ({ s with
    store := { store with mem := store.mem.setObject new_obj o }
    classes := Function.update s.classes new_obj (some c) }, new_obj)

/-- The loop of `pup_const_get`, for at most `fuel - 1` classes. -/
def pupConstGet (s : ClassStore σ) (sym : BitVec 32) : Nat → Option Addr → Option (Option Addr)
  | 0, _ => none
  | _ + 1, none => some none
  | fuel + 1, some lookup => do
      match ← pupIvGet s.store.mem (fuel + 1) lookup sym with
      | some result => some (some result)
      | none => do
          let c ← s.classes lookup
          pupConstGet s sym fuel c.scope

/-- `find_method_in_list`. -/
def findMethodInList (methods : Addr → Option MethodListEntry) (name_sym : Int) :
    Nat → Option Addr → Option (Option Addr)
  | 0, _ => none
  | _ + 1, none => some none
  | fuel + 1, some meth_list => do
      let entry ← methods meth_list
      if entry.name_sym = name_sym then some (some entry.method)
      else findMethodInList methods name_sym fuel entry.next

/-- `find_method_in_classes`, for at most `fuel - 1` classes and as many methods in each. -/
def findMethodInClasses (s : ClassStore σ) (name_sym : Int) :
    Nat → Option Addr → Option (Option Addr)
  | 0, _ => none
  | _ + 1, none => some none
  | fuel + 1, some class_ => do
      let c ← s.classes class_
      match ← findMethodInList s.methods name_sym (fuel + 1) c.method_list_head with
      | some method => some (some method)
      | none => findMethodInClasses s name_sym fuel c.superclass

/-- Nothing is mapped any more at the addresses in `region`. -/
def ClassStore.unmap (s : ClassStore σ) (region : Addr → Bool) : ClassStore σ :=
  { s with
    store := { s.store with mem :=
      { s.store.mem with
        objects := fun a => if region a then none else s.store.mem.objects a
        attrs := fun a => if region a then none else s.store.mem.attrs a } }
    classes := fun a => if region a then none else s.classes a }

/-! ### What moving a class takes -/

/-- The heap walkers take the block for an object. -/
def IsObject (s : ClassStore σ) (copy : Addr) : Prop :=
  ∃ size, s.store.mem.headers (copy - dataOffset) = some ⟨size, .obj⟩

/-- The copy has the constants `l` in entries that were not in use. -/
def OwnConstants (A : Allocator σ) (s s' : ClassStore σ) (copy : Addr)
    (l : List (Addr × PupAttributeListEntry)) : Prop :=
  ∃ o' l', s'.store.mem.objects copy = some o' ∧ AttrList s'.store.mem o'.attr_list_head l' ∧
    bindings l' = bindings l ∧ ∀ p ∈ l', ¬ A.inUse s.store.state p.1

/-- With the original and its entries unmapped, lookups on the copy find what they found. -/
def SameLookups (s s' : ClassStore σ) (obj copy : Addr)
    (l : List (Addr × PupAttributeListEntry)) : Prop :=
  ∀ region : Addr → Bool, (∀ a, region a = true → a = obj ∨ a ∈ l.map Prod.fst) →
    ∀ fuel, (∀ sym, pupConstGet (s'.unmap region) sym fuel (some copy) =
        pupConstGet s sym fuel (some obj)) ∧
      ∀ name_sym, findMethodInClasses (s'.unmap region) name_sym fuel (some copy) =
        findMethodInClasses s name_sym fuel (some obj)

/-- The class at `obj` is copied such that the copy can take its place. -/
def MovesClass (A : Allocator σ) (s : ClassStore σ) (obj : Addr)
    (l : List (Addr × PupAttributeListEntry)) : Prop :=
  ∃ s' copy, pupInternalClassGcCopyInstance A s obj = some (s', copy) ∧ IsObject s' copy ∧
    OwnConstants A s s' copy l ∧ SameLookups s s' obj copy l

/-! ### What the copy is -/

variable {A : Allocator σ} {s : ClassStore σ} {obj : Addr} {o : PupObject} {c : PupClass}
  {l : List (Addr × PupAttributeListEntry)}

/-- The copy's fields are the original's, and so are its entries. -/
structure Shares (A : Allocator σ) (s s' : ClassStore σ) (copy : Addr) (o : PupObject)
    (c : PupClass) : Prop where
  fresh : ¬ A.inUse s.store.state copy
  header : s'.store.mem.headers (copy - dataOffset) = some ⟨sizeofPupClass, .attr⟩
  object : s'.store.mem.objects copy = some o
  class_ : s'.classes copy = some c
  attrs : s'.store.mem.attrs = s.store.mem.attrs
  classes : ∀ a, a ≠ copy → s'.classes a = s.classes a
  methods : s'.methods = s.methods

theorem class_copy_shares (hobj : s.store.mem.objects obj = some o)
    (hclass : s.classes obj = some c) :
    ∃ s' copy, pupInternalClassGcCopyInstance A s obj = some (s', copy) ∧
      Shares A s s' copy o c := by
  have hfresh := allocBlock_fresh (A := A) s.store sizeofPupClass .attr
  have hheader := allocBlock_header (A := A) s.store sizeofPupClass .attr
  unfold pupInternalClassGcCopyInstance
  generalize allocBlock A s.store sizeofPupClass .attr = r at hfresh hheader ⊢
  obtain ⟨store, copy⟩ := r
  have hobj' : store.mem.objects obj = some o := by rw [hfresh.objects, hobj]
  refine ⟨⟨⟨store.mem.setObject copy o, store.state⟩,
    Function.update s.classes copy (some c), s.methods⟩, copy, ?_, hfresh.fresh, hheader,
    setObject_self .., Function.update_self .., hfresh.attrs,
    fun a ha => Function.update_of_ne ha .., rfl⟩
  simp [hobj', hclass]

section Shares

variable {s' : ClassStore σ} {copy : Addr}

theorem Shares.not_isObject (h : Shares A s s' copy o c) : ¬ IsObject s' copy := by
  intro hobject
  obtain ⟨size, hsize⟩ := hobject
  rw [h.header] at hsize
  cases hsize

theorem Shares.attrList (h : Shares A s s' copy o c)
    (hl : AttrList s.store.mem o.attr_list_head l) : AttrList s'.store.mem o.attr_list_head l :=
  hl.congr fun p _ => congrFun h.attrs p.1

/-- The entries are new only if there are none. -/
theorem Shares.ownConstants_iff (h : Shares A s s' copy o c) (hs : Used A s.store)
    (hl : AttrList s.store.mem o.attr_list_head l) : OwnConstants A s s' copy l ↔ l = [] := by
  constructor
  · intro hown
    obtain ⟨o', l', ho', hl', -, hfresh⟩ := hown
    obtain rfl : o = o' := Option.some.inj (h.object.symm.trans ho')
    obtain rfl : l = l' := (h.attrList hl).unique hl'
    refine List.eq_nil_iff_forall_not_mem.mpr fun p hp => ?_
    exact hfresh p hp (hs.attr (hl.2 p hp))
  · intro hnil
    subst hnil
    exact ⟨o, [], h.object, h.attrList hl, rfl, by simp⟩

/-- Without the original's entries, no constant is looked up on the copy any more. -/
theorem Shares.constGet_faults (h : Shares A s s' copy o c) (hs : Used A s.store)
    (hobj : s.store.mem.objects obj = some o) (hl : AttrList s.store.mem o.attr_list_head l)
    (hne : l ≠ []) (sym : BitVec 32) (fuel : Nat) :
    pupConstGet (s'.unmap fun a => a ∈ obj :: l.map Prod.fst) sym fuel (some copy) = none := by
  have hcopy : copy ∉ obj :: l.map Prod.fst := by
    intro hmem
    rcases List.mem_cons.mp hmem with rfl | hmem
    · exact h.fresh (hs.object hobj)
    · obtain ⟨p, hp, rfl⟩ := List.mem_map.mp hmem
      exact h.fresh (hs.attr (hl.2 p hp))
  obtain ⟨⟨a, e⟩, rest, rfl⟩ := List.exists_cons_of_ne_nil hne
  obtain ⟨hhead, -, -⟩ := AttrList.cons_iff.mp hl
  generalize hregion : (fun b => decide (b ∈ obj :: ((a, e) :: rest).map Prod.fst)) = region
  have hobject : (s'.unmap region).store.mem.objects copy = some o := by
    have hout : region copy = false := by
      rw [← hregion]
      exact decide_eq_false hcopy
    simp [ClassStore.unmap, hout, h.object]
  have hattr : (s'.unmap region).store.mem.attrs a = none := by
    simp [← hregion, ClassStore.unmap]
  have hget : ∀ n, pupIvGet (s'.unmap region).store.mem (n + 1) copy sym = none := by
    intro n
    have hfind : findAttr (s'.unmap region).store.mem (n + 1) o.attr_list_head sym.toInt = none := by
      rw [hhead, findAttr, hattr]
      rfl
    rw [pupIvGet, hobject]
    simp only [Option.bind_eq_bind, Option.bind_some, hfind, Option.bind_none]
  cases fuel with
  | zero => rfl
  | succ n =>
      rw [pupConstGet, hget]
      rfl

/-- The superclass of the class at an address. -/
def ClassStore.superclass (s : ClassStore σ) (a : Addr) : Option Addr :=
  (s.classes a).bind PupClass.superclass

theorem Shares.findMethod_from (h : Shares A s s' copy o c) {region : Addr → Bool}
    {r : Option Addr} {ks : List Addr} (hks : Linked s.superclass r ks)
    (hkeep : ∀ k ∈ ks, region k = false ∧ k ≠ copy) (name_sym : Int) (fuel : Nat) :
    findMethodInClasses (s'.unmap region) name_sym fuel r =
      findMethodInClasses s name_sym fuel r := by
  induction hks generalizing fuel with
  | nil => cases fuel <;> rfl
  | @cons k ks hks ih =>
      cases fuel with
      | zero => rfl
      | succ n =>
          obtain ⟨hregion, hne⟩ := hkeep k List.mem_cons_self
          have hclass : (s'.unmap region).classes k = s.classes k := by
            simp [ClassStore.unmap, hregion, h.classes k hne]
          have hmethods : (s'.unmap region).methods = s.methods := h.methods
          rw [findMethodInClasses, findMethodInClasses, hclass, hmethods]
          cases hk : s.classes k with
          | none => rfl
          | some c' =>
              have hnext : s.superclass k = c'.superclass := by
                rw [ClassStore.superclass, hk]
                rfl
              have hrest := ih (fun j hj => hkeep j (List.mem_cons_of_mem k hj)) n
              rw [hnext] at hrest
              simp only [Option.bind_eq_bind, Option.bind_some, hrest]

/-- Methods are found on the copy as before, if the superclasses are still there. -/
theorem Shares.findMethod (h : Shares A s s' copy o c) (hclass : s.classes obj = some c)
    {region : Addr → Bool} (hcopy : region copy = false) {ks : List Addr}
    (hks : Linked s.superclass c.superclass ks)
    (hkeep : ∀ k ∈ ks, region k = false ∧ k ≠ copy) (name_sym : Int) (fuel : Nat) :
    findMethodInClasses (s'.unmap region) name_sym fuel (some copy) =
      findMethodInClasses s name_sym fuel (some obj) := by
  cases fuel with
  | zero => rfl
  | succ n =>
      have hself : (s'.unmap region).classes copy = some c := by
        simp [ClassStore.unmap, hcopy, h.class_]
      have hmethods : (s'.unmap region).methods = s.methods := h.methods
      rw [findMethodInClasses, findMethodInClasses, hself, hclass, hmethods]
      simp only [Option.bind_eq_bind, Option.bind_some, h.findMethod_from hks hkeep name_sym n]

end Shares

/--
**No class is moved.**  For every class and every allocator whose blocks are fresh: the
copy is returned, but not as an object; its constants are in entries of its own only if
there are none, and otherwise, once the original is unmapped with its entries, every
`pup_const_get` on the copy faults.
-/
theorem class_never_moves (A : Allocator σ) {s : ClassStore σ} (hs : Used A s.store)
    {obj : Addr} {o : PupObject} {c : PupClass} {l : List (Addr × PupAttributeListEntry)}
    (hobj : s.store.mem.objects obj = some o) (hclass : s.classes obj = some c)
    (hl : AttrList s.store.mem o.attr_list_head l) :
    (∃ s' copy, pupInternalClassGcCopyInstance A s obj = some (s', copy) ∧
      ¬ IsObject s' copy ∧ (OwnConstants A s s' copy l ↔ l = []) ∧
      (l ≠ [] → ∀ sym fuel,
        pupConstGet (s'.unmap fun a => a ∈ obj :: l.map Prod.fst) sym fuel (some copy) = none)) ∧
    ¬ MovesClass A s obj l := by
  obtain ⟨s', copy, hrun, hshares⟩ := class_copy_shares (A := A) hobj hclass
  refine ⟨⟨s', copy, hrun, hshares.not_isObject, hshares.ownConstants_iff hs hl,
    fun hne => hshares.constGet_faults hs hobj hl hne⟩, fun hmoves => ?_⟩
  obtain ⟨s'', copy', hrun', hobject, -⟩ := hmoves
  obtain ⟨rfl, rfl⟩ := Prod.mk.inj (Option.some.inj (hrun.symm.trans hrun'))
  exact hshares.not_isObject hobject

end Class

/-- A class with two constants, and no methods. -/
def oneClass : ClassStore Nat where
  store := twoAttrs
  classes := fun a => if a = 9 then some ⟨none, none, none, none, 0, 0, 0⟩ else none
  methods := fun _ => none

/-- Its copy is no object, and looking a constant up on it faults. -/
theorem class_never_moves_constants :
    ∃ s' copy, pupInternalClassGcCopyInstance bump oneClass 9 = some (s', copy) ∧
      ¬ IsObject s' copy ∧
      pupConstGet (s'.unmap fun a => a ∈ [9, 109, 209]) 1 3 (some copy) = none := by
  obtain ⟨hused, hobj, hl⟩ := twoAttrs_ok
  obtain ⟨⟨s', copy, hrun, hnot, -, hfaults⟩, -⟩ :=
    class_never_moves bump (s := oneClass) hused hobj rfl hl
  exact ⟨s', copy, hrun, hnot, hfaults (by simp) 1 3⟩

/-- The copy of that class cannot take its place. -/
theorem class_not_moved :
    ¬ ∀ (σ : Type) (A : Allocator σ) (s : ClassStore σ) (obj : Addr) (o : PupObject)
      (c : PupClass) (l : List (Addr × PupAttributeListEntry)), Used A s.store →
      s.store.mem.objects obj = some o → s.classes obj = some c →
      AttrList s.store.mem o.attr_list_head l → MovesClass A s obj l := by
  intro hall
  obtain ⟨hused, hobj, hl⟩ := twoAttrs_ok
  obtain ⟨s', copy, hrun, hobject, -⟩ := hall Nat bump oneClass 9 _ _ _ hused hobj rfl hl
  obtain ⟨s'', copy', hrun', hshares⟩ := class_copy_shares (A := bump) (s := oneClass) hobj rfl
  obtain ⟨rfl, rfl⟩ := Prod.mk.inj (Option.some.inj (hrun.symm.trans hrun'))
  exact hshares.not_isObject hobject

end Pup.Copying
