/-
Objects in memory, and their references.

A pointer is an address or null.  The memory keeps the heap's own headers, objects
and attribute list entries apart by type: what the program reads through a pointer of
one type was written through a pointer of that type.  An access through null or to
an address where nothing is mapped is a `Fault`.

An object's attributes are a linked list of entries, each in a block of its own.
`AttrList` says what the list is, `HasRefs` which references `pup_object_each_ref`
visits, and `eachRef_eq` that these are indeed the ones it visits, in this order.
-/
import Mathlib.Logic.Function.Basic
import Mathlib.Logic.Relation
import Pup.Lib.Chain
import Pup.Lib.Except

namespace Pup

open Chain Outcome

abbrev Addr := Nat

/-- What the program can die of. -/
inductive Fault
  | null
  | segv (a : Addr)
  /-- an access through a pointer that was never initialised -/
  | wild
  | abort
  | outOfFuel
  deriving DecidableEq, Repr

/-- `enum PupHeapKind`. -/
inductive PupHeapKind
  | obj
  | attr
  deriving DecidableEq, Repr

/-- The header in front of every block of a region. -/
structure HeapObject where
  object_size : Nat
  kind : PupHeapKind
  deriving DecidableEq, Repr

structure PupObject where
  type : Option Addr
  attr_list_head : Option Addr
  gc_mark : Bool
  deriving DecidableEq, Repr

structure PupAttributeListEntry where
  name_sym : Int
  value : Option Addr
  next : Option Addr
  deriving DecidableEq, Repr

structure Memory where
  headers : Addr → Option HeapObject
  objects : Addr → Option PupObject
  attrs : Addr → Option PupAttributeListEntry

/-- A read through a pointer. -/
def deref {α : Type} (cells : Addr → Option α) : Option Addr → Except Fault α
  | none => .error .null
  | some a =>
      match cells a with
      | some x => .ok x
      | none => .error (.segv a)

theorem deref_ok {α : Type} {cells : Addr → Option α} {a : Addr} {x : α}
    (h : deref cells (some a) = .ok x) : cells a = some x := by
  unfold deref at h
  cases hx : cells a with
  | none => simp [hx] at h
  | some y => simpa [hx] using h

theorem deref_eq {α : Type} {cells : Addr → Option α} {a : Addr} {x : α}
    (h : cells a = some x) : deref cells (some a) = .ok x := by
  simp [deref, h]

def Memory.setObject (mem : Memory) (a : Addr) (o : PupObject) : Memory :=
  { mem with objects := Function.update mem.objects a (some o) }

def Memory.setAttr (mem : Memory) (a : Addr) (e : PupAttributeListEntry) : Memory :=
  { mem with attrs := Function.update mem.attrs a (some e) }

theorem setObject_self (mem : Memory) (a : Addr) (o : PupObject) :
    (mem.setObject a o).objects a = some o :=
  Function.update_self ..

theorem setObject_of_ne (mem : Memory) {a b : Addr} (o : PupObject) (hb : b ≠ a) :
    (mem.setObject a o).objects b = mem.objects b :=
  Function.update_of_ne hb ..

theorem setAttr_self (mem : Memory) (a : Addr) (e : PupAttributeListEntry) :
    (mem.setAttr a e).attrs a = some e :=
  Function.update_self ..

theorem setAttr_of_ne (mem : Memory) {a b : Addr} (e : PupAttributeListEntry) (hb : b ≠ a) :
    (mem.setAttr a e).attrs b = mem.attrs b :=
  Function.update_of_ne hb ..

/-! ### Reading references and marking -/

section EachRef

variable {σ : Type}

/-- The loop of `pup_object_each_ref`, for at most `fuel - 1` entries. -/
def eachAttr (mem : Memory) (visitor : σ → Option Addr → Except Fault σ) :
    Nat → Option Addr → σ → Except Fault σ
  | 0, _, _ => .error .outOfFuel
  | _ + 1, none, s => .ok s
  | fuel + 1, some attr, s => do
      let entry ← deref mem.attrs (some attr)
      let s ← visitor s entry.value
      eachAttr mem visitor fuel entry.next s

/-- `pup_object_each_ref`; the visitor is given what the slot holds. -/
def eachRef (mem : Memory) (visitor : σ → Option Addr → Except Fault σ) (fuel : Nat)
    (obj : Option Addr) (s : σ) : Except Fault σ := do
  let o ← deref mem.objects obj
  let s ← visitor s o.type
  eachAttr mem visitor fuel o.attr_list_head s

end EachRef

/-- `pup_object_gc_mark`: whether the mark was not set before, and the memory after. -/
def gcMark (mem : Memory) (obj : Option Addr) (mark_value : Bool) :
    Except Fault (Bool × Memory) :=
  match obj with
  | none => .error .null
  | some a =>
      match mem.objects a with
      | none => .error (.segv a)
      | some o =>
          if o.gc_mark != mark_value then
            .ok (true, mem.setObject a { o with gc_mark := mark_value })
          else .ok (false, mem)

/-! ### What an object's references are -/

/-- The `next` pointers of all entries. -/
def Memory.attrNext (mem : Memory) (a : Addr) : Option Addr :=
  (mem.attrs a).bind PupAttributeListEntry.next

/-- The list from `head` is made of the entries `l`, each with the block it is in. -/
def AttrList (mem : Memory) (head : Option Addr) (l : List (Addr × PupAttributeListEntry)) :
    Prop :=
  Linked mem.attrNext head (l.map Prod.fst) ∧ ∀ p ∈ l, mem.attrs p.1 = some p.2

/-- `pup_object_each_ref` visits the references `rs` of the object at `a`. -/
def HasRefs (mem : Memory) (a : Addr) (rs : List (Option Addr)) : Prop :=
  ∃ o l, mem.objects a = some o ∧ AttrList mem o.attr_list_head l ∧
    rs = o.type :: l.map fun p => p.2.value

/-- The object at `a` holds a reference to `b`. -/
def RefersTo (mem : Memory) (a b : Addr) : Prop := ∃ rs, HasRefs mem a rs ∧ some b ∈ rs

/-- `b` can be reached from `a` by following references. -/
def Reaches (mem : Memory) : Addr → Addr → Prop := Relation.ReflTransGen (RefersTo mem)

theorem AttrList.nil_iff {mem : Memory} {l : List (Addr × PupAttributeListEntry)} :
    AttrList mem none l ↔ l = [] := by
  constructor
  · intro h
    simpa using Linked.nil_iff.mp h.1
  · intro h
    subst h
    exact ⟨.nil, by simp⟩

theorem AttrList.cons_iff {mem : Memory} {head : Option Addr} {a : Addr}
    {e : PupAttributeListEntry} {l : List (Addr × PupAttributeListEntry)} :
    AttrList mem head ((a, e) :: l) ↔
      head = some a ∧ mem.attrs a = some e ∧ AttrList mem e.next l := by
  have hnext : mem.attrs a = some e → mem.attrNext a = e.next := by
    intro he
    simp [Memory.attrNext, he]
  constructor
  · intro h
    obtain ⟨hlinked, hmem⟩ := h
    have he : mem.attrs a = some e := hmem (a, e) (by simp)
    have hhead : head = some a := by simpa using hlinked.head
    subst hhead
    obtain ⟨rest, hrest, htail⟩ := hlinked.tail
    obtain rfl : l.map Prod.fst = rest := by simpa using hrest
    rw [hnext he] at htail
    exact ⟨rfl, he, htail, fun p hp => hmem p (List.mem_cons_of_mem _ hp)⟩
  · intro h
    obtain ⟨hhead, he, hlinked, hmem⟩ := h
    subst hhead
    refine ⟨.cons ?_, ?_⟩
    · rw [hnext he]
      exact hlinked
    · intro p hp
      rcases List.mem_cons.mp hp with hp | hp
      · rw [hp]
        exact he
      · exact hmem p hp

theorem AttrList.unique {mem : Memory} {head : Option Addr}
    {l l' : List (Addr × PupAttributeListEntry)} (h : AttrList mem head l)
    (h' : AttrList mem head l') : l = l' := by
  induction l generalizing head l' with
  | nil =>
      have hhead : head = none := by simpa using h.1.head
      subst hhead
      exact (AttrList.nil_iff.mp h').symm
  | cons p rest ih =>
      obtain ⟨a, e⟩ := p
      obtain ⟨hhead, he, htail⟩ := AttrList.cons_iff.mp h
      subst hhead
      cases l' with
      | nil => simpa using h'.1.head
      | cons p' rest' =>
          obtain ⟨a', e'⟩ := p'
          obtain ⟨ha, he', htail'⟩ := AttrList.cons_iff.mp h'
          obtain rfl : a = a' := Option.some.inj ha
          obtain rfl : e = e' := Option.some.inj (he.symm.trans he')
          rw [ih htail htail']

/-- A list does not notice changes to what is not on it. -/
theorem AttrList.congr {mem mem' : Memory} {head : Option Addr}
    {l : List (Addr × PupAttributeListEntry)} (h : AttrList mem head l)
    (hsame : ∀ p ∈ l, mem'.attrs p.1 = mem.attrs p.1) : AttrList mem' head l := by
  refine ⟨h.1.congr fun a ha => ?_, fun p hp => ?_⟩
  · obtain ⟨p, hp, rfl⟩ := List.mem_map.mp ha
    rw [Memory.attrNext, hsame p hp]
    rfl
  · rw [hsame p hp]
    exact h.2 p hp

theorem HasRefs.unique {mem : Memory} {a : Addr} {rs rs' : List (Option Addr)}
    (h : HasRefs mem a rs) (h' : HasRefs mem a rs') : rs = rs' := by
  obtain ⟨o, l, ho, hl, rfl⟩ := h
  obtain ⟨o', l', ho', hl', rfl⟩ := h'
  obtain rfl : o = o' := Option.some.inj (ho.symm.trans ho')
  rw [hl.unique hl']

/-- The references of an object determine whom it refers to. -/
theorem HasRefs.refersTo_iff {mem : Memory} {a b : Addr} {rs : List (Option Addr)}
    (h : HasRefs mem a rs) : RefersTo mem a b ↔ some b ∈ rs := by
  constructor
  · intro hab
    obtain ⟨rs', hrs', hb⟩ := hab
    rwa [h.unique hrs']
  · intro hb
    exact ⟨rs, h, hb⟩

section EachRef

variable {σ : Type} {mem : Memory} {visitor : σ → Option Addr → Except Fault σ}

theorem eachAttr_eq {head : Option Addr} {l : List (Addr × PupAttributeListEntry)}
    (h : AttrList mem head l) {fuel : Nat} (hfuel : l.length < fuel) (s : σ) :
    eachAttr mem visitor fuel head s = (l.map fun p => p.2.value).foldlM visitor s := by
  induction l generalizing head fuel s with
  | nil =>
      have hhead : head = none := by simpa using h.1.head
      obtain ⟨n, rfl⟩ := Nat.exists_eq_succ_of_ne_zero (by omega : fuel ≠ 0)
      subst hhead
      rfl
  | cons p rest ih =>
      obtain ⟨a, e⟩ := p
      obtain ⟨hhead, he, htail⟩ := AttrList.cons_iff.mp h
      obtain ⟨n, rfl⟩ := Nat.exists_eq_succ_of_ne_zero (by omega : fuel ≠ 0)
      subst hhead
      have hlen : rest.length < n := by simpa using hfuel
      rw [eachAttr, deref, he, List.map_cons, List.foldlM_cons]
      exact bind_congr fun s' => ih htail hlen s'

/-- **`pup_object_each_ref` visits exactly the references of the object.** -/
theorem eachRef_eq {a : Addr} {rs : List (Option Addr)} (h : HasRefs mem a rs) {fuel : Nat}
    (hfuel : rs.length ≤ fuel) (s : σ) :
    eachRef mem visitor fuel (some a) s = rs.foldlM visitor s := by
  obtain ⟨o, l, ho, hl, rfl⟩ := h
  have hlen : l.length < fuel := by simpa [Nat.succ_le_iff] using hfuel
  rw [eachRef, deref, ho, List.foldlM_cons]
  exact bind_congr fun s' => eachAttr_eq hl hlen s'

theorem eachAttr_cases {head : Option Addr} {l : List (Addr × PupAttributeListEntry)}
    (h : AttrList mem head l) (fuel : Nat) (s : σ) :
    eachAttr mem visitor fuel head s = .error .outOfFuel ∨
      eachAttr mem visitor fuel head s = (l.map fun p => p.2.value).foldlM visitor s := by
  induction l generalizing head fuel s with
  | nil =>
      have hhead : head = none := by simpa using h.1.head
      subst hhead
      cases fuel with
      | zero => exact .inl rfl
      | succ n => exact .inr rfl
  | cons p rest ih =>
      obtain ⟨a, e⟩ := p
      obtain ⟨hhead, he, htail⟩ := AttrList.cons_iff.mp h
      subst hhead
      cases fuel with
      | zero => exact .inl rfl
      | succ n =>
          rw [eachAttr, deref, he, List.map_cons, List.foldlM_cons]
          simp only [bind, Except.bind]
          cases visitor s e.value with
          | error f => exact .inr rfl
          | ok s' => exact ih htail n s'

/-- Short of fuel or not, it visits nothing but these. -/
theorem eachRef_cases {a : Addr} {rs : List (Option Addr)} (h : HasRefs mem a rs) (fuel : Nat)
    (s : σ) :
    eachRef mem visitor fuel (some a) s = .error .outOfFuel ∨
      eachRef mem visitor fuel (some a) s = rs.foldlM visitor s := by
  obtain ⟨o, l, ho, hl, rfl⟩ := h
  rw [eachRef, deref, ho, List.foldlM_cons]
  simp only [bind, Except.bind]
  cases visitor s o.type with
  | error f => exact .inr rfl
  | ok s' => exact eachAttr_cases hl fuel s'

end EachRef

/-! ### Memories that differ in marks only -/

/-- What of an object does not change when it is marked. -/
def PupObject.fields (o : PupObject) : Option Addr × Option Addr := (o.type, o.attr_list_head)

/-- Nothing but marks has changed. -/
structure MarksOnly (mem mem' : Memory) : Prop where
  headers : mem'.headers = mem.headers
  attrs : mem'.attrs = mem.attrs
  objects : ∀ a, (mem'.objects a).map PupObject.fields = (mem.objects a).map PupObject.fields

theorem MarksOnly.refl (mem : Memory) : MarksOnly mem mem := ⟨rfl, rfl, fun _ => rfl⟩

theorem MarksOnly.symm {mem mem' : Memory} (h : MarksOnly mem mem') : MarksOnly mem' mem :=
  ⟨h.headers.symm, h.attrs.symm, fun a => (h.objects a).symm⟩

theorem MarksOnly.trans {mem mem' mem'' : Memory} (h : MarksOnly mem mem')
    (h' : MarksOnly mem' mem'') : MarksOnly mem mem'' :=
  ⟨h'.headers.trans h.headers, h'.attrs.trans h.attrs,
    fun a => (h'.objects a).trans (h.objects a)⟩

theorem MarksOnly.object {mem mem' : Memory} (h : MarksOnly mem mem') {a : Addr} {o : PupObject}
    (ho : mem.objects a = some o) :
    ∃ o', mem'.objects a = some o' ∧ o'.type = o.type ∧ o'.attr_list_head = o.attr_list_head := by
  have hfields := h.objects a
  rw [ho, Option.map_some, Option.map_eq_some_iff] at hfields
  obtain ⟨o', ho', heq⟩ := hfields
  exact ⟨o', ho', congrArg Prod.fst heq, congrArg Prod.snd heq⟩

theorem MarksOnly.attrList {mem mem' : Memory} (h : MarksOnly mem mem') {head : Option Addr}
    {l : List (Addr × PupAttributeListEntry)} (hl : AttrList mem head l) :
    AttrList mem' head l := by
  unfold AttrList Memory.attrNext at *
  rw [h.attrs]
  exact hl

theorem MarksOnly.hasRefs {mem mem' : Memory} (h : MarksOnly mem mem') {a : Addr}
    {rs : List (Option Addr)} (hr : HasRefs mem a rs) : HasRefs mem' a rs := by
  obtain ⟨o, l, ho, hl, rfl⟩ := hr
  obtain ⟨o', ho', htype, hhead⟩ := h.object ho
  refine ⟨o', l, ho', ?_, by rw [htype]⟩
  rw [hhead]
  exact h.attrList hl

/-- The object at `a` carries the mark. -/
def Memory.isMarked (mem : Memory) (mark : Bool) (a : Addr) : Bool :=
  match mem.objects a with
  | some o => o.gc_mark == mark
  | none => false

theorem isMarked_setMark (mem : Memory) {a : Addr} (o : PupObject) (mark : Bool) (b : Addr) :
    (mem.setObject a { o with gc_mark := mark }).isMarked mark b =
      (decide (b = a) || mem.isMarked mark b) := by
  by_cases hb : b = a
  · subst hb
    simp [Memory.isMarked, Memory.setObject]
  · simp [Memory.isMarked, Memory.setObject, hb]

/-- `pup_object_gc_mark` of an object: either it has the mark, or it gets it. -/
theorem gcMark_cases {mem : Memory} {a : Addr} {o : PupObject} (ho : mem.objects a = some o)
    (mark : Bool) :
    (mem.isMarked mark a = true ∧ gcMark mem (some a) mark = .ok (false, mem)) ∨
    (mem.isMarked mark a = false ∧
      gcMark mem (some a) mark = .ok (true, mem.setObject a { o with gc_mark := mark })) := by
  unfold gcMark Memory.isMarked
  by_cases hm : o.gc_mark = mark
  · simp [ho, hm]
  · simp [ho, hm]

theorem MarksOnly.setMark (mem : Memory) {a : Addr} {o : PupObject}
    (ho : mem.objects a = some o) (mark : Bool) :
    MarksOnly mem (mem.setObject a { o with gc_mark := mark }) := by
  refine ⟨rfl, rfl, fun b => ?_⟩
  by_cases hb : b = a
  · subst hb
    simp [Memory.setObject, ho, PupObject.fields]
  · simp [Memory.setObject, hb]

end Pup
