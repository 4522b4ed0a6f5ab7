/-
What has been set is what is got.

A run makes objects and sets attributes of any of them, in any order.  `pup_const_set` is
`pup_iv_set` on the header of a class, so the constants of a class are among these.  Over the
memory there is a table with what was last set for each symbol on each object (`lastSet`),
and a reachable store holds just that (`Holds`): every object has a list of its own, in which
no symbol is there twice.  One step either replaces a value or puts an entry in front
(`Assigned`).
-/
import Pup.Gc.CopyInstance
import Pup.Lib.Machine

namespace Pup.Attributes

open Chain Copying Transition
open Heap (findAttr sizeofPupAttributeListEntry)

/-! ### Lists of symbols and values -/

section Assigned

variable {α β : Type}

/-- `v` is put where the first entry for `k` is, or in front if there is none. -/
inductive Assigned (k : α) (v : β) : List (α × β) → List (α × β) → Prop
  | replace (xs ys : List (α × β)) (old : β) (h : ∀ p ∈ xs, p.1 ≠ k) :
      Assigned k v (xs ++ (k, old) :: ys) (xs ++ (k, v) :: ys)
  | push (l : List (α × β)) (h : ∀ p ∈ l, p.1 ≠ k) : Assigned k v l ((k, v) :: l)

variable {k : α} {v : β} {l l' : List (α × β)}

theorem Assigned.lookup [DecidableEq α] (h : Assigned k v l l') (k' : α) :
    l'.lookup k' = if k' = k then some v else l.lookup k' := by
  cases h with
  | push _ h =>
      rw [List.lookup_cons]
      by_cases hk : k' = k
      · simp [hk]
      · simp [hk, beq_eq_false_iff_ne.mpr hk]
  | replace xs ys old h =>
      rw [List.lookup_append, List.lookup_append, List.lookup_cons, List.lookup_cons]
      by_cases hk : k' = k
      · subst hk
        have hnone : xs.lookup k' = none := by
          refine List.lookup_eq_none_iff.mpr fun p hp => ?_
          simpa using (h p hp).symm
        simp [hnone]
      · simp [hk, beq_eq_false_iff_ne.mpr hk]

theorem Assigned.nodup (h : Assigned k v l l') (hl : (l.map Prod.fst).Nodup) :
    (l'.map Prod.fst).Nodup := by
  cases h with
  | push _ h =>
      rw [List.map_cons, List.nodup_cons]
      refine ⟨fun hmem => ?_, hl⟩
      obtain ⟨p, hp, heq⟩ := List.mem_map.mp hmem
      exact h p hp heq
  | replace xs ys old h =>
      rw [List.map_append, List.map_cons] at hl ⊢
      exact hl

end Assigned

/-! ### What is found in a list -/

section Found

variable {mem : Memory} {head : Option Addr} {l : List (Addr × PupAttributeListEntry)}
  {sym : Int} {fuel : Nat}

/-- `find_attr` stops at the first entry for the symbol. -/
theorem findAttr_cases (hl : AttrList mem head l) {r : Option Addr}
    (h : findAttr mem fuel head sym = some r) :
    (r = none ∧ ∀ p ∈ l, p.2.name_sym ≠ sym) ∨
      ∃ l₁ a e l₂, l = l₁ ++ (a, e) :: l₂ ∧ r = some a ∧ e.name_sym = sym ∧
        ∀ p ∈ l₁, p.2.name_sym ≠ sym := by
  induction l generalizing head fuel with
  | nil =>
      obtain rfl : head = none := hl.1.head
      cases fuel with
      | zero => cases h
      | succ fuel =>
          cases h
          exact .inl ⟨rfl, by simp⟩
  | cons p rest ih =>
      obtain ⟨b, f⟩ := p
      obtain ⟨rfl, hf, hrest⟩ := AttrList.cons_iff.mp hl
      cases fuel with
      | zero => cases h
      | succ fuel =>
          simp only [findAttr, hf, Option.bind_eq_bind, Option.bind_some] at h
          by_cases hname : f.name_sym = sym
          · rw [if_pos hname, Option.some.injEq] at h
            exact .inr ⟨[], b, f, rest, rfl, h.symm, hname, by simp⟩
          · rw [if_neg hname] at h
            rcases ih hrest h with ⟨hr, hnone⟩ | ⟨l₁, a, e, l₂, rfl, hr, he, hl₁⟩
            · exact .inl ⟨hr, List.forall_mem_cons.mpr ⟨hname, hnone⟩⟩
            · exact .inr ⟨(b, f) :: l₁, a, e, l₂, rfl, hr, he,
                List.forall_mem_cons.mpr ⟨hname, hl₁⟩⟩

/-- The entry that is written to is on the list once. -/
theorem attrList_replace {l₁ l₂ : List (Addr × PupAttributeListEntry)} {a : Addr}
    {e : PupAttributeListEntry} (hl : AttrList mem head (l₁ ++ (a, e) :: l₂)) (val : Option Addr) :
    AttrList (mem.setAttr a { e with value := val }) head
      (l₁ ++ (a, { e with value := val }) :: l₂) := by
  induction l₁ generalizing head with
  | nil =>
      obtain ⟨rfl, -, hrest⟩ := AttrList.cons_iff.mp hl
      refine AttrList.cons_iff.mpr ⟨rfl, setAttr_self .., hrest.congr fun p hp => ?_⟩
      refine setAttr_of_ne _ _ ?_
      intro hpa
      have hnodup := hl.1.nodup
      rw [List.nil_append, List.map_cons, List.nodup_cons] at hnodup
      exact hnodup.1 (List.mem_map.mpr ⟨p, hp, hpa⟩)
  | cons p l₁ ih =>
      obtain ⟨b, f⟩ := p
      have hnodup := hl.1.nodup
      obtain ⟨rfl, hf, hrest⟩ := AttrList.cons_iff.mp hl
      refine AttrList.cons_iff.mpr ⟨rfl, ?_, ih hrest⟩
      have hba : b ≠ a := by
        intro hba
        rw [List.cons_append, List.map_cons, List.nodup_cons] at hnodup
        exact hnodup.1 (List.mem_map.mpr ⟨(a, e), by simp, hba.symm⟩)
      rw [setAttr_of_ne _ _ hba, hf]

/-- What `pup_iv_get` returns. -/
theorem pupIvGet_eq {obj : Addr} (h : Owns mem obj l) (hfuel : l.length < fuel)
    (sym : BitVec 32) :
    pupIvGet mem fuel obj sym = some (((bindings l).lookup sym.toInt).getD none) := by
  obtain ⟨o, ho, hl⟩ := h
  obtain ⟨r, hr⟩ : ∃ r, findAttr mem fuel o.attr_list_head sym.toInt = some r :=
    findAttr_total hl hfuel
  simp only [pupIvGet, ho, hr, Option.bind_eq_bind, Option.bind_some]
  rcases findAttr_cases hl hr with ⟨rfl, hnone⟩ | ⟨l₁, a, e, l₂, rfl, rfl, he, hl₁⟩
  · have hlookup : (bindings l).lookup sym.toInt = none := by
      refine List.lookup_eq_none_iff.mpr fun p hp => ?_
      obtain ⟨q, hq, rfl⟩ := List.mem_map.mp hp
      simpa using (hnone q hq).symm
    rw [hlookup]
    rfl
  · have hentry : mem.attrs a = some e := hl.2 (a, e) (by simp)
    have hlookup : (bindings l₁).lookup sym.toInt = none := by
      refine List.lookup_eq_none_iff.mpr fun p hp => ?_
      obtain ⟨q, hq, rfl⟩ := List.mem_map.mp hp
      simpa using (hl₁ q hq).symm
    unfold bindings at hlookup ⊢
    rw [List.map_append, List.lookup_append, hlookup, List.map_cons, List.lookup_cons]
    simp [hentry, he]

theorem owns_unique {obj : Addr} {l l' : List (Addr × PupAttributeListEntry)}
    (h : Owns mem obj l) (h' : Owns mem obj l') : l = l' := by
  obtain ⟨o, ho, hl⟩ := h
  obtain ⟨o', ho', hl'⟩ := h'
  obtain rfl : o = o' := Option.some.inj (ho.symm.trans ho')
  exact hl.unique hl'

end Found

/-! ### One call of `pup_iv_set` -/

section IvSet

variable {σ : Type} {A : Allocator σ} {s s' : Store σ} {obj : Addr} {sym : BitVec 32}
  {val : Option Addr} {l : List (Addr × PupAttributeListEntry)}

/-- The new entry is in front of the others. -/
theorem createAttr_owns (hs : Used A s) {o : PupObject} (hl : AttrList s.mem o.attr_list_head l)
    (sym : BitVec 32) (val : Option Addr) :
    ∃ e, e.name_sym = sym.toInt ∧ e.value = val ∧
      Owns ((createAttr A s sym val o.attr_list_head).1.mem.setObject obj
          { o with attr_list_head := some (createAttr A s sym val o.attr_list_head).2 }) obj
        (((createAttr A s sym val o.attr_list_head).2, e) :: l) := by
  have hfresh := allocBlock_fresh (A := A) s sizeofPupAttributeListEntry .attr
  unfold createAttr
  generalize allocBlock A s sizeofPupAttributeListEntry .attr = r at hfresh ⊢
  obtain ⟨s₁, attr⟩ := r
  refine ⟨⟨sym.toInt, val, o.attr_list_head⟩, rfl, rfl, _, setObject_self .., ?_⟩
  refine AttrList.cons_iff.mpr ⟨rfl, setAttr_self .., hl.congr fun p hp => ?_⟩
  have hne : p.1 ≠ attr := fun heq => hfresh.fresh (heq ▸ hs.attr (hl.2 p hp))
  refine (setAttr_of_ne _ _ hne).trans ?_
  rw [hfresh.attrs]

/-- **What `pup_iv_set` does to the list of the object.** -/
theorem pupIvSet_assigned (hs : Used A s) (h : Owns s.mem obj l) {fuel : Nat}
    (hset : pupIvSet A s fuel obj sym val = some s') :
    ∃ l', AttrSet A s s' obj l l' ∧ Assigned sym.toInt val (bindings l) (bindings l') := by
  obtain ⟨l', hl'⟩ := pupIvSet_ok hs h hset
  refine ⟨l', hl', ?_⟩
  obtain ⟨o, ho, hl⟩ := h
  simp only [pupIvSet, ho, Option.bind_eq_bind, Option.bind_some] at hset
  obtain ⟨r, hr, hset⟩ := Option.bind_eq_some_iff.mp hset
  rcases findAttr_cases hl hr with ⟨rfl, hnone⟩ | ⟨l₁, a, e, l₂, rfl, rfl, he, hl₁⟩
  · have hobj : (createAttr A s sym val o.attr_list_head).1.mem.objects obj = some o := ho
    simp only [hobj, Option.bind_some, Option.some.injEq] at hset
    subst hset
    obtain ⟨e, hname, hvalue, howns⟩ := createAttr_owns hs hl sym val
    rw [owns_unique hl'.owns howns]
    have hbindings : bindings (((createAttr A s sym val o.attr_list_head).2, e) :: l) =
        (sym.toInt, val) :: bindings l := by
      rw [← hname, ← hvalue]
      rfl
    rw [hbindings]
    refine .push _ fun p hp => ?_
    obtain ⟨q, hq, rfl⟩ := List.mem_map.mp hp
    exact hnone q hq
  · have hattr : s.mem.attrs a = some e := hl.2 (a, e) (by simp)
    simp only [hattr, Option.bind_some, Option.some.injEq] at hset
    subst hset
    have howns : Owns (s.mem.setAttr a { e with value := val }) obj
        (l₁ ++ (a, { e with value := val }) :: l₂) := ⟨o, ho, attrList_replace hl val⟩
    rw [owns_unique hl'.owns howns]
    unfold bindings
    rw [List.map_append, List.map_append, List.map_cons, List.map_cons, he]
    refine .replace _ _ _ fun p hp => ?_
    obtain ⟨q, hq, rfl⟩ := List.mem_map.mp hp
    exact hl₁ q hq

end IvSet

/-! ### Runs -/

/-- What a program does to objects and their attributes. -/
inductive Event
  /-- `pup_alloc_obj` and `obj_init` -/
  | newObject (type : Option Addr) (size : Nat) (gc_mark : Bool)
  /-- `pup_iv_set` -/
  | ivSet (obj : Addr) (sym : BitVec 32) (val : Option Addr)
  /-- `pup_const_set` -/
  | constSet (clazz : Addr) (sym : BitVec 32) (val : Option Addr)

/-- `&clazz->obj_header`, which is the first member. -/
def objHeader (clazz : Addr) : Addr := clazz

section Machine

variable {σ : Type} (A : Allocator σ) (fuel : Nat)

/-- `pup_const_set`. -/
def pupConstSet (s : Store σ) (clazz : Addr) (sym : BitVec 32) (val : Option Addr) :
    Option (Store σ) :=
  pupIvSet A s fuel (objHeader clazz) sym val

/-- A block with what `obj_init` puts there. -/
def newObject (s : Store σ) (type : Option Addr) (size : Nat) (gc_mark : Bool) :
    Store σ × Addr :=
  let (s, obj) := allocBlock A s size .obj
  ({ s with mem := s.mem.setObject obj ⟨type, none, gc_mark⟩ }, obj)

def next (s : Store σ) : Event → Option (Store σ)
  | .newObject type size gc_mark => some (newObject A s type size gc_mark).1
  | .ivSet obj sym val => pupIvSet A s fuel obj sym val
  | .constSet clazz sym val => pupConstSet A fuel s clazz sym val

/-- It starts without objects. -/
def machine : Machine (Store σ) Event where
  init s := ∀ a, s.mem.objects a = none ∧ s.mem.attrs a = none
  next := next A fuel

end Machine

/-- Which attribute is set, and to what. -/
def Event.assignment : Event → Option ((Addr × BitVec 32) × Option Addr)
  | .newObject .. => none
  | .ivSet obj sym val => some ((obj, sym), val)
  | .constSet clazz sym val => some ((objHeader clazz, sym), val)

/-- The value last set for the symbol on the object, if any. -/
def lastSet (events : List Event) (obj : Addr) (sym : BitVec 32) : Option (Option Addr) :=
  (events.filterMap Event.assignment).reverse.lookup (obj, sym)

theorem lastSet_snoc (events : List Event) (event : Event) (obj : Addr) (sym : BitVec 32) :
    lastSet (events ++ [event]) obj sym =
      match event.assignment with
      | none => lastSet events obj sym
      | some (key, val) => if (obj, sym) = key then some val else lastSet events obj sym := by
  unfold lastSet
  rw [List.filterMap_append, List.reverse_append]
  cases h : event.assignment with
  | none => simp [h]
  | some a =>
      obtain ⟨key, val⟩ := a
      by_cases hkey : (obj, sym) = key
      · simp [h, hkey]
      · simp [h, hkey, List.lookup_cons, beq_eq_false_iff_ne.mpr hkey]

section Runs

variable {σ : Type} {A : Allocator σ} {fuel : Nat} {s s' : Store σ} {events : List Event}

/-- The entries of an object are what the events have set. -/
structure Listed (mem : Memory) (events : List Event) (obj : Addr)
    (l : List (Addr × PupAttributeListEntry)) : Prop where
  owns : Owns mem obj l
  nodup : ((bindings l).map Prod.fst).Nodup
  length : l.length ≤ events.length
  lookup : ∀ sym : BitVec 32, (bindings l).lookup sym.toInt = lastSet events obj sym

/-- A store after these events. -/
structure Holds (A : Allocator σ) (s : Store σ) (events : List Event) : Prop where
  used : Used A s
  listed : ∀ obj o, s.mem.objects obj = some o → ∃ l, Listed s.mem events obj l
  apart : ∀ a b la lb, a ≠ b → Owns s.mem a la → Owns s.mem b lb →
    ∀ p ∈ la, p.1 ∉ lb.map Prod.fst
  unset : ∀ obj, s.mem.objects obj = none → ∀ sym, lastSet events obj sym = none

/-- An object and its entries that an event leaves alone. -/
theorem Listed.keep {mem mem' : Memory} {event : Event} {obj : Addr}
    {l : List (Addr × PupAttributeListEntry)} (h : Listed mem events obj l)
    (howns : Owns mem' obj l)
    (hother : ∀ sym, lastSet (events ++ [event]) obj sym = lastSet events obj sym) :
    Listed mem' (events ++ [event]) obj l := by
  refine ⟨howns, h.nodup, ?_, fun sym => ?_⟩
  · have := h.length
    rw [List.length_append]
    omega
  · rw [hother, h.lookup]

/-- Setting an attribute of one object leaves the others alone. -/
theorem Holds.other (h : Holds A s events) {obj : Addr}
    {l l' : List (Addr × PupAttributeListEntry)} (hl : Owns s.mem obj l)
    (hset : AttrSet A s s' obj l l') {other : Addr} (hother : other ≠ obj)
    {lo : List (Addr × PupAttributeListEntry)} (hlo : Owns s.mem other lo) :
    ∀ p ∈ lo, s'.mem.attrs p.1 = s.mem.attrs p.1 := fun p hp =>
  hset.attrs p.1 (h.used.attr (hlo.attr hp)) (h.apart other obj lo l hother hlo hl p hp)

theorem next_assignment {event : Event} {obj : Addr} {sym : BitVec 32} {val : Option Addr}
    (h : event.assignment = some ((obj, sym), val)) :
    Attributes.next A fuel s event = pupIvSet A s fuel obj sym val := by
  cases event with
  | newObject type size gc_mark => cases h
  | ivSet obj sym val =>
      cases h
      rfl
  | constSet clazz sym val =>
      cases h
      rfl

theorem Holds.ivSet (h : Holds A s events) {event : Event} {obj : Addr} {sym : BitVec 32}
    {val : Option Addr} (hevent : event.assignment = some ((obj, sym), val))
    (hset : pupIvSet A s fuel obj sym val = some s') : Holds A s' (events ++ [event]) := by
  obtain ⟨o, ho, -⟩ := Option.bind_eq_some_iff.mp hset
  obtain ⟨l, hl⟩ := h.listed obj o ho
  obtain ⟨l', hl', hassigned⟩ := pupIvSet_assigned h.used hl.owns hset
  have hlast : ∀ b sym', lastSet (events ++ [event]) b sym' =
      if b = obj ∧ sym' = sym then some val else lastSet events b sym' := by
    intro b sym'
    rw [lastSet_snoc, hevent]
    simp only [Prod.mk.injEq]
  have hself : Listed s'.mem (events ++ [event]) obj l' := by
    refine ⟨hl'.owns, hassigned.nodup hl.nodup, ?_, fun sym' => ?_⟩
    · have := hl.length
      have := hl'.length
      rw [List.length_append, List.length_singleton]
      omega
    · rw [hassigned.lookup, hl.lookup, hlast]
      simp only [true_and, BitVec.toInt_inj]
  -- the lists of other objects are where they were
  have hback : ∀ b lb, b ≠ obj → Owns s'.mem b lb → Owns s.mem b lb := by
    intro b lb hb hlb
    obtain ⟨ob, hob, -⟩ := id hlb
    rw [hl'.objects b hb] at hob
    obtain ⟨lb', hlb'⟩ := h.listed b ob hob
    have hkept : Owns s'.mem b lb' :=
      hlb'.owns.congr (hl'.objects b hb) (h.other hl.owns hl' hb hlb'.owns)
    obtain rfl := owns_unique hlb hkept
    exact hlb'.owns
  have hothers : ∀ b lb, b ≠ obj → Owns s'.mem b lb → ∀ p ∈ l', p.1 ∉ lb.map Prod.fst := by
    intro b lb hb hlb p hp hmem
    obtain ⟨q, hq, heq⟩ := List.mem_map.mp hmem
    rcases hl'.entries p hp with hold | hnew
    · obtain ⟨r, hr, hr'⟩ := List.mem_map.mp hold
      exact h.apart obj b l lb hb.symm hl.owns (hback b lb hb hlb) r hr (hr' ▸ hmem)
    · exact hnew (heq ▸ h.used.attr ((hback b lb hb hlb).attr hq))
  refine ⟨hl'.used, fun b ob hob => ?_, fun a b la lb hab hla hlb => ?_, fun b hb sym' => ?_⟩
  · by_cases hb : b = obj
    · subst hb
      exact ⟨l', hself⟩
    · rw [hl'.objects b hb] at hob
      obtain ⟨lb, hlb⟩ := h.listed b ob hob
      refine ⟨lb, hlb.keep (hlb.owns.congr (hl'.objects b hb) (h.other hl.owns hl' hb hlb.owns))
        fun sym' => ?_⟩
      rw [hlast, if_neg fun hc => hb hc.1]
  · by_cases ha : a = obj
    · subst ha
      obtain rfl := owns_unique hla hl'.owns
      exact hothers b lb hab.symm hlb
    · by_cases hb : b = obj
      · subst hb
        obtain rfl := owns_unique hlb hl'.owns
        intro p hp hmem
        obtain ⟨q, hq, heq⟩ := List.mem_map.mp hmem
        exact hothers a la ha hla q hq (heq ▸ List.mem_map_of_mem hp)
      · exact h.apart a b la lb hab (hback a la ha hla) (hback b lb hb hlb)
  · have hbo : b ≠ obj := by
      rintro rfl
      obtain ⟨o', ho', -⟩ := hl'.owns
      rw [hb] at ho'
      cases ho'
    rw [hlast, if_neg fun hc => hbo hc.1]
    exact h.unset b (hl'.objects b hbo ▸ hb) sym'

theorem Holds.newObject (h : Holds A s events) (type : Option Addr) (size : Nat)
    (gc_mark : Bool) : Holds A (newObject A s type size gc_mark).1
      (events ++ [.newObject type size gc_mark]) := by
  have hfresh := allocBlock_fresh (A := A) s size .obj
  unfold Attributes.newObject
  generalize allocBlock A s size .obj = r at hfresh ⊢
  obtain ⟨s₁, obj⟩ := r
  have hlast : ∀ b sym, lastSet (events ++ [.newObject type size gc_mark]) b sym =
      lastSet events b sym := fun b sym => lastSet_snoc ..
  have hunmapped : s.mem.objects obj = none := by
    by_contra hmapped
    exact hfresh.fresh (h.used obj (.inl hmapped))
  have hobjects : ∀ b, b ≠ obj →
      (s₁.mem.setObject obj ⟨type, none, gc_mark⟩).objects b = s.mem.objects b := fun b hb =>
    (setObject_of_ne _ _ hb).trans (congrFun hfresh.objects b)
  have hnew : ∀ l, Owns (s₁.mem.setObject obj ⟨type, none, gc_mark⟩) obj l → l = [] := by
    rintro l ⟨o, ho, hl⟩
    rw [setObject_self, Option.some.injEq] at ho
    subst ho
    exact AttrList.nil_iff.mp hl
  have hback : ∀ b lb, b ≠ obj → Owns (s₁.mem.setObject obj ⟨type, none, gc_mark⟩) b lb →
      Owns s.mem b lb := fun b lb hb hlb =>
    hlb.congr (hobjects b hb).symm fun p _ => (congrFun hfresh.attrs p.1).symm
  refine ⟨hfresh.used_setObject h.used _, fun b ob hob => ?_, fun a b la lb hab hla hlb => ?_,
    fun b hb sym => ?_⟩
  · by_cases hb : b = obj
    · subst hb
      refine ⟨[], ⟨_, setObject_self .., AttrList.nil_iff.mpr rfl⟩, List.nodup_nil,
        Nat.zero_le _, fun sym => ?_⟩
      rw [hlast, h.unset b hunmapped]
      rfl
    · rw [hobjects b hb] at hob
      obtain ⟨lb, hlb⟩ := h.listed b ob hob
      exact ⟨lb, hlb.keep (hlb.owns.congr (hobjects b hb) fun p _ => congrFun hfresh.attrs p.1)
        fun sym => hlast b sym⟩
  · by_cases ha : a = obj
    · subst ha
      rw [hnew la hla]
      simp
    · by_cases hb : b = obj
      · subst hb
        rw [hnew lb hlb]
        simp
      · exact h.apart a b la lb hab (hback a la ha hla) (hback b lb hb hlb)
  · have hbo : b ≠ obj := by
      rintro rfl
      rw [setObject_self] at hb
      cases hb
    rw [hlast]
    exact h.unset b (hobjects b hbo ▸ hb) sym

theorem Holds.next (h : Holds A s events) {event : Event}
    (hnext : next A fuel s event = some s') : Holds A s' (events ++ [event]) := by
  cases event with
  | newObject type size gc_mark =>
      cases hnext
      exact h.newObject type size gc_mark
  | ivSet obj sym val => exact h.ivSet rfl hnext
  | constSet clazz sym val => exact h.ivSet rfl hnext

theorem holds_of_trace {tr : List (Store σ × Event)} (h : Trace (machine A fuel) tr s) :
    Holds A s (tr.map Prod.snd) := by
  induction h with
  | nil hinit =>
      refine ⟨fun a ha => ?_, fun obj o ho => ?_, fun a b la lb _ hla => ?_, fun _ _ _ => rfl⟩
      · exact absurd ha (by simp [hinit a])
      · rw [(hinit obj).1] at ho
        cases ho
      · obtain ⟨o, ho, -⟩ := hla
        rw [(hinit a).1] at ho
        cases ho
  | snoc _ event hstep ih =>
      rw [List.map_append]
      exact ih.next hstep

/-- Setting an attribute of an object that there is takes no more fuel than there were events. -/
theorem Holds.total (h : Holds A s events) {event : Event} {key : Addr × BitVec 32}
    {val : Option Addr} (hevent : event.assignment = some (key, val)) {o : PupObject}
    (ho : s.mem.objects key.1 = some o) (hfuel : events.length < fuel) :
    ∃ s', Attributes.next A fuel s event = some s' := by
  obtain ⟨l, hl⟩ := h.listed key.1 o ho
  rw [next_assignment hevent]
  exact pupIvSet_total h.used hl.owns (Nat.lt_of_le_of_lt hl.length hfuel) key.2 val

/-- What is got is what was last set. -/
theorem Holds.pupIvGet (h : Holds A s events) {obj : Addr} {o : PupObject}
    (ho : s.mem.objects obj = some o) (hfuel : events.length < fuel) (sym : BitVec 32) :
    pupIvGet s.mem fuel obj sym = some ((lastSet events obj sym).getD none) := by
  obtain ⟨l, hl⟩ := h.listed obj o ho
  rw [pupIvGet_eq hl.owns (Nat.lt_of_le_of_lt hl.length hfuel), hl.lookup]

/--
**What is got is what was last set.**  In every run that makes objects and sets attributes and
constants, with any allocator whose blocks are fresh: a step that sets an attribute of an
object that there is succeeds; every object has a list with each symbol at most once; and
`pup_iv_get` returns what was last set for the symbol on the object, or null.  A step that
sets one symbol on one object leaves all other objects as they are, with their lists, and
`pup_iv_get` of all other symbols.
-/
theorem got_as_last_set (A : Allocator σ) (fuel : Nat) {tr : List (Store σ × Event)}
    (h : Trace (machine A fuel) tr s) (hfuel : tr.length + 1 < fuel) :
    (∀ obj o, s.mem.objects obj = some o → ∃ l, Owns s.mem obj l ∧
      ((bindings l).map Prod.fst).Nodup ∧ ∀ sym, Copying.pupIvGet s.mem fuel obj sym =
        some ((lastSet (tr.map Prod.snd) obj sym).getD none)) ∧
    ∀ event obj sym val, event.assignment = some ((obj, sym), val) →
      (∀ o, s.mem.objects obj = some o → ∃ s', next A fuel s event = some s') ∧
      ∀ s', next A fuel s event = some s' →
        Copying.pupIvGet s'.mem fuel obj sym = some val ∧
        (∀ sym', sym' ≠ sym → Copying.pupIvGet s'.mem fuel obj sym' =
          Copying.pupIvGet s.mem fuel obj sym') ∧
        ∀ other, other ≠ obj → s'.mem.objects other = s.mem.objects other ∧
          (∀ l, Owns s.mem other l → Owns s'.mem other l) ∧
          ∀ sym', Copying.pupIvGet s'.mem fuel other sym' =
            Copying.pupIvGet s.mem fuel other sym' := by
  have hholds := holds_of_trace h
  have hlength : (tr.map Prod.snd).length < fuel := by
    rw [List.length_map]
    omega
  refine ⟨fun obj o ho => ?_, fun event obj sym val hevent => ⟨fun o ho => ?_, fun s' hnext => ?_⟩⟩
  · obtain ⟨l, hl⟩ := hholds.listed obj o ho
    exact ⟨l, hl.owns, hl.nodup, hholds.pupIvGet ho hlength⟩
  · exact hholds.total hevent ho hlength
  · have hset := hnext
    rw [next_assignment hevent] at hset
    obtain ⟨o, ho, -⟩ := Option.bind_eq_some_iff.mp hset
    obtain ⟨l, hl⟩ := hholds.listed obj o ho
    obtain ⟨l', hl', -⟩ := pupIvSet_assigned hholds.used hl.owns hset
    have hlast : ∀ sym', lastSet (tr.map Prod.snd ++ [event]) obj sym' =
        if sym' = sym then some val else lastSet (tr.map Prod.snd) obj sym' := by
      intro sym'
      rw [lastSet_snoc, hevent]
      simp
    obtain ⟨o', ho', -⟩ := hl'.owns
    have hlength' : (tr.map Prod.snd ++ [event]).length < fuel := by simpa using hfuel
    have hget := (hholds.next hnext).pupIvGet ho' hlength'
    refine ⟨?_, fun sym' hsym => ?_, fun other hother => ⟨hl'.objects other hother, ?_, ?_⟩⟩
    · rw [hget, hlast, if_pos rfl]
      rfl
    · rw [hget, hlast, if_neg hsym, hholds.pupIvGet ho hlength]
    · intro lo hlo
      exact hlo.congr (hl'.objects other hother) (hholds.other hl.owns hl' hother hlo)
    · intro sym'
      cases hmapped : s.mem.objects other with
      | none =>
          have hmapped' := (hl'.objects other hother).trans hmapped
          simp only [Copying.pupIvGet, hmapped, hmapped']
          rfl
      | some oo =>
          obtain ⟨lo, hlo⟩ := hholds.listed other oo hmapped
          exact hlo.owns.pupIvGet_congr (hl'.objects other hother)
            (hholds.other hl.owns hl' hother hlo.owns) fuel sym'

/-- Nothing has been allocated. -/
def emptyStore : Store Nat where
  mem := { headers := fun _ => none, objects := fun _ => none, attrs := fun _ => none }
  state := 0

/-- An object with two attributes, one of which is set twice. -/
def twoAttributes : List Event :=
  [.newObject none 24 true, .ivSet 9 1 (some 9), .constSet 9 2 (some 9), .ivSet 9 1 none,
    .ivSet 9 2 (some 0)]

theorem got_as_last_set_twice :
    ∃ s, (machine bump 10).run emptyStore twoAttributes = some s ∧
      (∃ l, Owns s.mem 9 l ∧ ((bindings l).map Prod.fst).Nodup) ∧
      pupIvGet s.mem 10 9 1 = some none ∧ pupIvGet s.mem 10 9 2 = some (some 0) ∧
      pupIvGet s.mem 10 9 3 = some none := by
  obtain ⟨s, hs⟩ : ∃ s, (machine bump 10).run emptyStore twoAttributes = some s := ⟨_, rfl⟩
  have htrace := trace_of_run (M := machine bump 10) (fun _ => ⟨rfl, rfl⟩) twoAttributes hs
  obtain ⟨o, ho⟩ : ∃ o, s.mem.objects 9 = some o :=
    Option.isSome_iff_exists.mp (by cases hs; rfl)
  obtain ⟨l, hl, hnodup, hget⟩ := (got_as_last_set bump 10 htrace (by decide)).1 9 o ho
  exact ⟨s, hs, ⟨l, hl, hnodup⟩, hget 1, hget 2, hget 3⟩

end Runs

end Pup.Attributes
