/-
Which method a class's instances have.

`pup_define_method` appends to the class's list and `find_method_in_list` returns the
first entry for a symbol, so of several methods defined for a symbol on one class it is
the first that counts.  `Superclasses` is the chain that `find_method_in_classes` walks,
and `findMethodInClasses_eq` says what it finds on it.
-/
import Mathlib.Data.List.Perm.Subperm
import Pup.Runtime.Class

namespace Pup.Runtime

open Chain Outcome

/-! ### Superclass chains -/

/-- The `superclass` field, if there is a class at `r`. -/
def State.superclass (s : State) (r : Ref) : Option Ref :=
  (s.class (some r)).toOption.bind PupClass.superclass

/-- The methods of the class at `r`, if there is one. -/
def State.methods (s : State) (r : Ref) : List MethodListEntry :=
  (s.class (some r)).toOption.elim [] PupClass.method_list_head

/-- There is a class at `r`. -/
def State.IsClass (s : State) (r : Ref) : Prop := ∃ c, s.class (some r) = .ok c

/-- The class at `r` and its superclasses, the nearest first. -/
structure Superclasses (s : State) (r : Ref) (l : List Ref) : Prop where
  linked : Linked s.superclass (some r) l
  classes : ∀ k ∈ l, s.IsClass k

theorem class_ok {s : State} {r : Ref} {c : PupClass} :
    s.class (some r) = .ok c ↔ ∃ o, s.objects[r]? = some o ∧ o.layout = .pupClass c := by
  unfold State.class State.object
  cases ho : s.objects[r]? with
  | none => simp [ho, bind, Except.bind]
  | some o =>
      cases hl : o.layout <;>
        simp [ho, hl, bind, Except.bind, pure, Except.pure, throw, throwThe, MonadExceptOf.throw]

theorem superclass_eq {s : State} {r : Ref} {c : PupClass} (h : s.class (some r) = .ok c) :
    s.superclass r = c.superclass := by
  rw [State.superclass, h]
  rfl

theorem methods_eq {s : State} {r : Ref} {c : PupClass} (h : s.class (some r) = .ok c) :
    s.methods r = c.method_list_head := by
  rw [State.methods, h]
  rfl

theorem isClass_lt {s : State} {r : Ref} (h : s.IsClass r) : r < s.objects.length := by
  obtain ⟨c, hc⟩ := h
  obtain ⟨o, ho, -⟩ := class_ok.mp hc
  exact (List.getElem?_eq_some_iff.mp ho).1

/-- Different classes are different objects. -/
theorem length_le_of_classes {s : State} {l : List Ref} (hnodup : l.Nodup)
    (hl : ∀ k ∈ l, s.IsClass k) : l.length ≤ s.objects.length := by
  have hsub : l ⊆ List.range s.objects.length := fun k hk => List.mem_range.mpr (isClass_lt (hl k hk))
  have hlength := (hnodup.subperm hsub).length_le
  rwa [List.length_range] at hlength

/-- A chain is no longer than the list of the objects. -/
theorem Superclasses.length_le {s : State} {r : Ref} {l : List Ref} (h : Superclasses s r l) :
    l.length ≤ s.objects.length :=
  length_le_of_classes h.linked.nodup h.classes

theorem Superclasses.unique {s : State} {r : Ref} {l l' : List Ref} (h : Superclasses s r l)
    (h' : Superclasses s r l') : l = l' :=
  h.linked.unique h'.linked

/-- **What `find_method_in_classes` finds** is in the nearest class that has an entry. -/
theorem findMethodInClasses_eq {s : State} {r : Option Ref} {l : List Ref}
    (hl : Linked s.superclass r l) (hc : ∀ k ∈ l, s.IsClass k) (name_sym : Sym) {fuel : Nat}
    (hfuel : l.length < fuel) :
    findMethodInClasses s fuel r name_sym =
      .ok (l.findSome? fun k => findMethodInList (s.methods k) name_sym) := by
  induction hl generalizing fuel with
  | nil =>
      cases fuel with
      | zero => simp at hfuel
      | succ fuel => rfl
  | @cons k l hl ih =>
      cases fuel with
      | zero => simp at hfuel
      | succ fuel =>
          obtain ⟨c, hk⟩ := hc k List.mem_cons_self
          rw [findMethodInClasses, hk, List.findSome?_cons, methods_eq hk]
          simp only [bind, Except.bind]
          cases findMethodInList c.method_list_head name_sym with
          | some method => rfl
          | none =>
              rw [← superclass_eq hk]
              exact ih (fun j hj => hc j (List.mem_cons_of_mem k hj))
                (Nat.lt_of_succ_lt_succ hfuel)

theorem Superclasses.find {s : State} {r : Ref} {l : List Ref} (h : Superclasses s r l)
    (name_sym : Sym) :
    findMethodInClasses s s.fuel (some r) name_sym =
      .ok (l.findSome? fun k => findMethodInList (s.methods k) name_sym) :=
  findMethodInClasses_eq h.linked h.classes name_sym (Nat.lt_succ_of_le h.length_le)

/-! ### Defining methods -/

/-- A class has got another entry, and nothing else has changed. -/
structure Defined (s s' : State) (r : Ref) (entry : MethodListEntry) : Prop where
  isClass : s.IsClass r
  env : s'.env = s.env
  length : s'.objects.length = s.objects.length
  objects : ∀ k, k ≠ r → s'.objects[k]? = s.objects[k]?
  target : ∃ o c, s.objects[r]? = some o ∧ o.layout = .pupClass c ∧ s'.objects[r]? =
    some { o with layout := .pupClass { c with method_list_head := c.method_list_head ++ [entry] } }

theorem pupDefineMethod_ok {s s' : State} {class_ : Option Ref} {name_sym : Sym}
    {method : PupMethod} (h : pupDefineMethod s class_ name_sym method = .ok s') :
    ∃ r, class_ = some r ∧ Defined s s' r ⟨name_sym, method⟩ := by
  cases class_ with
  | none => cases h
  | some r =>
      obtain ⟨c, hc, h⟩ := bind_ok h
      cases h
      obtain ⟨o, ho, hlayout⟩ := class_ok.mp hc
      refine ⟨r, rfl, ⟨c, hc⟩, rfl, by simp [State.setClass], fun k hk => ?_, o, c, ho, hlayout, ?_⟩
      · simp [State.setClass, hk.symm]
      · simp [State.setClass, ho]

namespace Defined

variable {s s' : State} {r : Ref} {entry : MethodListEntry}

theorem class_self (h : Defined s s' r entry) {c : PupClass} (hc : s.class (some r) = .ok c) :
    s'.class (some r) = .ok { c with method_list_head := c.method_list_head ++ [entry] } := by
  obtain ⟨o, c', ho, hlayout, ho'⟩ := h.target
  obtain rfl : c' = c := by
    obtain ⟨o₂, ho₂, hlayout₂⟩ := class_ok.mp hc
    obtain rfl := Option.some.inj (ho.symm.trans ho₂)
    exact Layout.pupClass.inj (hlayout.symm.trans hlayout₂)
  exact class_ok.mpr ⟨_, ho', rfl⟩

theorem class_of_ne (h : Defined s s' r entry) {k : Ref} (hk : k ≠ r) :
    s'.class (some k) = s.class (some k) := by
  simp only [State.class, State.object, h.objects k hk]

theorem methods (h : Defined s s' r entry) (k : Ref) :
    s'.methods k = s.methods k ++ if k = r then [entry] else [] := by
  by_cases hk : k = r
  · subst hk
    obtain ⟨c, hc⟩ := h.isClass
    rw [methods_eq hc, methods_eq (h.class_self hc), if_pos rfl]
  · rw [if_neg hk, List.append_nil, State.methods, h.class_of_ne hk, State.methods]

theorem superclass (h : Defined s s' r entry) : s'.superclass = s.superclass := by
  funext k
  by_cases hk : k = r
  · subst hk
    obtain ⟨c, hc⟩ := h.isClass
    rw [superclass_eq hc, superclass_eq (h.class_self hc)]
  · rw [State.superclass, h.class_of_ne hk, State.superclass]

theorem isClass_iff (h : Defined s s' r entry) (k : Ref) : s'.IsClass k ↔ s.IsClass k := by
  by_cases hk : k = r
  · subst hk
    obtain ⟨c, hc⟩ := h.isClass
    exact ⟨fun _ => ⟨c, hc⟩, fun _ => ⟨_, h.class_self hc⟩⟩
  · unfold State.IsClass
    rw [h.class_of_ne hk]

theorem superclasses (h : Defined s s' r entry) {k : Ref} {l : List Ref}
    (hl : Superclasses s k l) : Superclasses s' k l :=
  ⟨h.superclass ▸ hl.linked, fun j hj => (h.isClass_iff j).mpr (hl.classes j hj)⟩

end Defined

/-! ### A sequence of definitions -/

/-- One call of `pup_define_method`. -/
structure Definition where
  class_ : Ref
  name_sym : Sym
  method : PupMethod

/-- The calls one after another. -/
def defineAll (s : State) (defs : List Definition) : Except Stop State :=
  defs.foldlM (fun s d => pupDefineMethod s (some d.class_) d.name_sym d.method) s

/-- The methods defined for a symbol on a class, the oldest first. -/
def definedFor (defs : List Definition) (r : Ref) (name_sym : Sym) : List PupMethod :=
  defs.filterMap fun d => if d.class_ = r ∧ d.name_sym = name_sym then some d.method else none

/-- Classes without methods so far, whose superclass chains all end. -/
structure Hierarchy (s : State) : Prop where
  chain : ∀ r, s.IsClass r → ∃ l, Superclasses s r l
  empty : ∀ r, s.methods r = []

theorem findMethodInList_append (l l' : List MethodListEntry) (name_sym : Sym) :
    findMethodInList (l ++ l') name_sym =
      (findMethodInList l name_sym).or (findMethodInList l' name_sym) := by
  induction l with
  | nil => rfl
  | cons entry l ih =>
      simp only [List.cons_append, findMethodInList]
      split
      · rfl
      · exact ih

/-- The list of a class keeps all that has been defined on it, in order. -/
theorem defineAll_ok {defs : List Definition} {s s' : State} (h : defineAll s defs = .ok s') :
    s'.superclass = s.superclass ∧ (∀ r, s'.IsClass r ↔ s.IsClass r) ∧
      (∀ d ∈ defs, s.IsClass d.class_) ∧
      ∀ r name_sym, findMethodInList (s'.methods r) name_sym =
        (findMethodInList (s.methods r) name_sym).or (definedFor defs r name_sym).head? := by
  induction defs generalizing s with
  | nil =>
      cases h
      simp [definedFor]
  | cons d defs ih =>
      obtain ⟨s₁, hd, hrest⟩ := bind_ok (List.foldlM_cons.symm.trans h)
      obtain ⟨r, hr, hdef⟩ := pupDefineMethod_ok hd
      obtain rfl := Option.some.inj hr
      obtain ⟨hsuper, hclass, hdefs, hfind⟩ := ih hrest
      refine ⟨hsuper.trans hdef.superclass, fun k => (hclass k).trans (hdef.isClass_iff k),
        fun e he => ?_, fun k name_sym => ?_⟩
      · rcases List.mem_cons.mp he with rfl | he
        · exact hdef.isClass
        · exact (hdef.isClass_iff e.class_).mp (hdefs e he)
      · rw [hfind, hdef.methods, findMethodInList_append, Option.or_assoc]
        congr 1
        unfold definedFor
        by_cases hk : k = d.class_
        · by_cases hsym : d.name_sym = name_sym
          · simp [hk, hsym, findMethodInList]
          · simp [hk, hsym, findMethodInList]
        · simp [hk, Ne.symm hk, findMethodInList]

theorem Hierarchy.superclasses {s s' : State} {defs : List Definition}
    (hd : defineAll s defs = .ok s') {r : Ref} {l : List Ref} (hl : Superclasses s r l) :
    Superclasses s' r l := by
  obtain ⟨hsuper, hclass, -⟩ := defineAll_ok hd
  exact ⟨hsuper ▸ hl.linked, fun k hk => (hclass k).mpr (hl.classes k hk)⟩

/-- In every class the method defined first is found. -/
theorem Hierarchy.find {s s' : State} (hs : Hierarchy s) {defs : List Definition}
    (hd : defineAll s defs = .ok s') {r : Ref} {l : List Ref} (hl : Superclasses s r l)
    (name_sym : Sym) :
    findMethodInClasses s' s'.fuel (some r) name_sym =
      .ok (l.findSome? fun k => (definedFor defs k name_sym).head?) := by
  obtain ⟨-, -, -, hfind⟩ := defineAll_ok hd
  rw [(Hierarchy.superclasses hd hl).find]
  congr 2
  funext k
  rw [hfind, hs.empty]
  rfl

/-- `find_method_in_classes` returns the method last defined on the nearest class. -/
def FindsLatest (s s' : State) (defs : List Definition) : Prop :=
  ∀ r l name_sym, Superclasses s r l → findMethodInClasses s' s'.fuel (some r) name_sym =
    .ok (l.findSome? fun k => (definedFor defs k name_sym).getLast?)

/-- A definition matters to its own symbol on its own class and the classes below. -/
def Local (s s' : State) : Prop :=
  ∀ (d : Definition) (s'' : State), pupDefineMethod s' (some d.class_) d.name_sym d.method = .ok s'' →
    ∀ r l name_sym, Superclasses s r l → name_sym ≠ d.name_sym ∨ d.class_ ∉ l →
      findMethodInClasses s'' s''.fuel (some r) name_sym =
        findMethodInClasses s' s'.fuel (some r) name_sym

theorem define_local {s s' : State} {d : Definition}
    (hd : pupDefineMethod s (some d.class_) d.name_sym d.method = .ok s') {r : Ref} {l : List Ref}
    (hl : Superclasses s r l) {name_sym : Sym} (hne : name_sym ≠ d.name_sym ∨ d.class_ ∉ l) :
    findMethodInClasses s' s'.fuel (some r) name_sym =
      findMethodInClasses s s.fuel (some r) name_sym := by
  obtain ⟨r', hr', hdef⟩ := pupDefineMethod_ok hd
  obtain rfl := Option.some.inj hr'
  rw [(hdef.superclasses hl).find, hl.find]
  congr 1
  have hsame : ∀ k ∈ l, findMethodInList (s'.methods k) name_sym =
      findMethodInList (s.methods k) name_sym := by
    intro k hk
    rw [hdef.methods, findMethodInList_append]
    split
    · rename_i heq
      have hsym := hne.resolve_right (not_not_intro (heq ▸ hk))
      simp [findMethodInList, hsym.symm]
    · simp [findMethodInList]
  rw [← List.head?_filterMap, ← List.head?_filterMap, List.filterMap_congr hsame]

/--
**What redefinition does.**  For every class hierarchy and every sequence of definitions,
`find_method_in_classes` returns the method last defined on the nearest class if and only
if on every class the last method defined for a symbol is also the first.  A definition
never changes what is found for other symbols or for classes that do not inherit it.
-/
theorem findsLatest_iff {s s' : State} (hs : Hierarchy s) {defs : List Definition}
    (hd : defineAll s defs = .ok s') :
    (FindsLatest s s' defs ↔
      ∀ r name_sym, (definedFor defs r name_sym).head? = (definedFor defs r name_sym).getLast?) ∧
    Local s s' := by
  refine ⟨⟨fun hlatest r name_sym => ?_, fun hsame r l name_sym hl => ?_⟩,
    fun d s'' hd' r l name_sym hl => define_local hd' (Hierarchy.superclasses hd hl)⟩
  · -- the class itself comes first on its chain
    cases hfirst : (definedFor defs r name_sym).head? with
    | none => rw [List.head?_eq_none_iff.mp hfirst, List.getLast?_nil]
    | some m =>
        obtain ⟨d, hmem, hdm⟩ := List.mem_filterMap.mp (List.mem_of_mem_head? hfirst)
        have hclass : d.class_ = r := by
          by_contra hne
          simp [hne] at hdm
        obtain ⟨l, hl⟩ := hs.chain r (hclass ▸ (defineAll_ok hd).2.2.1 d hmem)
        have heq := Except.ok.inj ((hs.find hd hl name_sym).symm.trans (hlatest r l name_sym hl))
        obtain ⟨rest, rfl, -⟩ := hl.linked.tail
        rw [List.findSome?_cons, List.findSome?_cons, hfirst] at heq
        cases hlast : (definedFor defs r name_sym).getLast? with
        | none =>
            rw [List.getLast?_eq_none_iff.mp hlast] at hfirst
            cases hfirst
        | some m' => simpa [hlast] using heq
  · rw [hs.find hd hl]
    congr 2
    funext k
    exact hsame k name_sym

/-- The class `Object` and a class `Foo` below it, without methods. -/
def twoClasses : State :=
  { blank with objects :=
      [⟨none, [], .pupClass ⟨none, some "Object", [], none, none⟩⟩,
        ⟨none, [], .pupClass ⟨some 0, some "Foo", [], none, none⟩⟩] }

theorem twoClasses_hierarchy : Hierarchy twoClasses := by
  have hobject : Superclasses twoClasses 0 [0] :=
    ⟨.cons .nil, by simpa using ⟨_, rfl⟩⟩
  have hfoo : Superclasses twoClasses 1 [1, 0] :=
    ⟨.cons (.cons .nil), by simpa using ⟨⟨_, rfl⟩, ⟨_, rfl⟩⟩⟩
  refine ⟨fun r hr => ?_, fun r => ?_⟩
  · obtain ⟨c, hc⟩ := hr
    match r with
    | 0 => exact ⟨_, hobject⟩
    | 1 => exact ⟨_, hfoo⟩
    | r + 2 => cases hc
  · match r with
    | 0 => rfl
    | 1 => rfl
    | r + 2 => rfl

/-- A method of `Object`, overridden in `Foo`, and another of `Foo`. -/
theorem findsLatest_iff_overridden :
    ∃ s', defineAll twoClasses [⟨0, "hello", .generated 0⟩, ⟨1, "hello", .generated 1⟩,
        ⟨1, "bye", .generated 2⟩] = .ok s' ∧
      FindsLatest twoClasses s' [⟨0, "hello", .generated 0⟩, ⟨1, "hello", .generated 1⟩,
        ⟨1, "bye", .generated 2⟩] := by
  refine ⟨_, rfl, (findsLatest_iff twoClasses_hierarchy rfl).1.mpr fun r name_sym => ?_⟩
  simp only [definedFor, List.filterMap_cons, List.filterMap_nil]
  grind

/-- A method of `Foo` is defined a second time. -/
theorem redefinition_ignored :
    ¬ ∀ s s' defs, Hierarchy s → defineAll s defs = .ok s' → FindsLatest s s' defs := by
  intro hall
  have hlatest := hall twoClasses _ [⟨1, "hello", .generated 0⟩, ⟨1, "hello", .generated 1⟩]
    twoClasses_hierarchy rfl
  have hfound := hlatest 1 [1, 0] "hello"
    ⟨.cons (.cons .nil), by simpa using ⟨⟨_, rfl⟩, ⟨_, rfl⟩⟩⟩
  cases hfound

end Pup.Runtime
