/-
Copying an object and its attributes.

`pup_object_gc_copy_instance` copies the object's header, which for the moment has the
copy share the original's attributes, and then replaces these by copies one by one,
through a pointer to the pointer that is to be replaced next (`copyAttrs`).  What comes out has its
own entries, so that from then on the two objects have nothing in common
(`Separate`).

The blocks are an allocator's; `Allocator` has what is asked of it.
-/
import Pup.Heap.PupHeap

namespace Pup.Copying

open Chain Heap

/-- An allocator whose blocks are fresh: their data is at places that are not in use. -/
structure Allocator (σ : Type) where
  /-- the state after, and the start of a block -/
  alloc : σ → Nat → PupHeapKind → σ × Nat
  inUse : σ → Addr → Prop
  fresh : ∀ st size kind, ¬ inUse st ((alloc st size kind).2 + dataOffset)
  used : ∀ st size kind, inUse (alloc st size kind).1 ((alloc st size kind).2 + dataOffset)
  keeps : ∀ st size kind a, inUse st a → inUse (alloc st size kind).1 a

/-- Memory, and the state of its allocator. -/
structure Store (σ : Type) where
  mem : Memory
  state : σ

section Copy

variable {σ : Type} (A : Allocator σ)

/-- `pup_env_alloc_obj_for_gc_copy`, `pup_env_alloc_attr_for_gc_copy` and `pup_alloc_attr`:
the store after, and the block's data.  Whatever they put there is overwritten. -/
def allocBlock (s : Store σ) (size : Nat) (kind : PupHeapKind) : Store σ × Addr :=
  let (state, block) := A.alloc s.state size kind
  ({ mem := { s.mem with headers := Function.update s.mem.headers block (some ⟨size, kind⟩) },
     state }, block + dataOffset)

/-- `attr_init`. -/
def attrInit (s : Store σ) (attr : Addr) (sym : BitVec 32) (val next : Option Addr) : Store σ :=
  { s with mem := s.mem.setAttr attr ⟨sym.toInt, val, next⟩ }

/-- `copy_attr`; the symbol is passed as an `int`. -/
def copyAttr (s : Store σ) (attr : Addr) : Option (Store σ × Addr) := do
  let (s, new_attr) := allocBlock A s sizeofPupAttributeListEntry .attr
  let entry ← s.mem.attrs attr
  some (attrInit s new_attr (.ofInt 32 entry.name_sym) entry.value none, new_attr)

/-- `*target = p`, where `target` points into the object at `obj` or into an entry. -/
def writeLink (mem : Memory) (obj : Addr) (target : Link Addr) (p : Option Addr) :
    Option Memory :=
  match target with
  | .head => (mem.objects obj).map fun o => mem.setObject obj { o with attr_list_head := p }
  | .next a => (mem.attrs a).map fun e => mem.setAttr a { e with next := p }

/-- The loop of `pup_object_gc_copy_instance`, for at most `fuel - 1` entries. -/
def copyAttrs (new_obj : Addr) : Nat → Store σ → Link Addr → Option Addr → Option (Store σ)
  | 0, _, _, _ => none
  | _ + 1, s, _, none => some s
  | fuel + 1, s, target, some attr => do
      let (s, new_attr) ← copyAttr A s attr
      let mem ← writeLink s.mem new_obj target (some new_attr)
      let entry ← mem.attrs attr
      copyAttrs new_obj fuel { s with mem } (.next new_attr) entry.next

/-- `pup_object_gc_copy_instance`. -/
def pupObjectGcCopyInstance (fuel : Nat) (s : Store σ) (obj : Addr) : Option (Store σ × Addr) := do
  let (s, new_obj) := allocBlock A s sizeofPupObject .obj
  let o ← s.mem.objects obj
  let s := { s with mem := s.mem.setObject new_obj o }
  let s ← copyAttrs A new_obj fuel s .head o.attr_list_head
  some (s, new_obj)

/-- `pup_iv_get`. -/
def pupIvGet (mem : Memory) (fuel : Nat) (obj : Addr) (sym : BitVec 32) :
    Option (Option Addr) := do
  let o ← mem.objects obj
  match ← findAttr mem fuel o.attr_list_head sym.toInt with
  | some attr => (mem.attrs attr).map PupAttributeListEntry.value
  | none => some none

/-- `create_attr`. -/
def createAttr (s : Store σ) (sym : BitVec 32) (val next : Option Addr) : Store σ × Addr :=
  let (s, attr) := allocBlock A s sizeofPupAttributeListEntry .attr
  (attrInit s attr sym val next, attr)

/-- `pup_iv_set`. -/
def pupIvSet (s : Store σ) (fuel : Nat) (obj : Addr) (sym : BitVec 32) (val : Option Addr) :
    Option (Store σ) := do
  let o ← s.mem.objects obj
  match ← findAttr s.mem fuel o.attr_list_head sym.toInt with
  | some attr => do
      let entry ← s.mem.attrs attr
      some { s with mem := s.mem.setAttr attr { entry with value := val } }
  | none => do
      let (s, attr) := createAttr A s sym val o.attr_list_head
      let o ← s.mem.objects obj
      some { s with mem := s.mem.setObject obj { o with attr_list_head := some attr } }

end Copy

/-! ### Blocks -/

section Blocks

variable {σ : Type} {A : Allocator σ} {s : Store σ}

/-- Whatever is mapped is in use. -/
def Used (A : Allocator σ) (s : Store σ) : Prop :=
  ∀ a, s.mem.objects a ≠ none ∨ s.mem.attrs a ≠ none → A.inUse s.state a

theorem Used.object (h : Used A s) {a : Addr} {o : PupObject} (ho : s.mem.objects a = some o) :
    A.inUse s.state a :=
  h a (.inl (by simp [ho]))

theorem Used.attr (h : Used A s) {a : Addr} {e : PupAttributeListEntry}
    (he : s.mem.attrs a = some e) : A.inUse s.state a :=
  h a (.inr (by simp [he]))

/-- What a block is to the store it has been allocated in. -/
structure Fresh (A : Allocator σ) (s s' : Store σ) (a : Addr) : Prop where
  objects : s'.mem.objects = s.mem.objects
  attrs : s'.mem.attrs = s.mem.attrs
  fresh : ¬ A.inUse s.state a
  used : A.inUse s'.state a
  keeps : ∀ b, A.inUse s.state b → A.inUse s'.state b

theorem allocBlock_fresh (s : Store σ) (size : Nat) (kind : PupHeapKind) :
    Fresh A s (allocBlock A s size kind).1 (allocBlock A s size kind).2 :=
  ⟨rfl, rfl, A.fresh s.state size kind, A.used s.state size kind, A.keeps s.state size kind⟩

/-- The header in front of it. -/
theorem allocBlock_header (s : Store σ) (size : Nat) (kind : PupHeapKind) :
    (allocBlock A s size kind).1.mem.headers ((allocBlock A s size kind).2 - dataOffset) =
      some ⟨size, kind⟩ := by
  unfold allocBlock
  rw [Nat.add_sub_cancel]
  exact Function.update_self ..

theorem Fresh.used_setObject {s' : Store σ} {a : Addr} (h : Fresh A s s' a) (hs : Used A s)
    (o : PupObject) : Used A { s' with mem := s'.mem.setObject a o } := by
  intro b hb
  by_cases hba : b = a
  · rw [hba]
    exact h.used
  · refine h.keeps b (hs b ?_)
    rw [← h.objects, ← h.attrs]
    exact hb.imp_left fun hobj => by rwa [setObject_of_ne _ _ hba] at hobj

theorem Fresh.used_setAttr {s' : Store σ} {a : Addr} (h : Fresh A s s' a) (hs : Used A s)
    (e : PupAttributeListEntry) : Used A { s' with mem := s'.mem.setAttr a e } := by
  intro b hb
  by_cases hba : b = a
  · rw [hba]
    exact h.used
  · refine h.keeps b (hs b ?_)
    rw [← h.objects, ← h.attrs]
    exact hb.imp_right fun hattr => by rwa [setAttr_of_ne _ _ hba] at hattr

end Blocks

/-! ### Writing through `target` -/

/-- `*target`. -/
def readLink (mem : Memory) (obj : Addr) : Link Addr → Option (Option Addr)
  | .head => (mem.objects obj).map PupObject.attr_list_head
  | .next a => (mem.attrs a).map PupAttributeListEntry.next

/-- Of what is in use, only the pointer at `target` has changed. -/
structure Relinked (inUse : Addr → Prop) (mem mem' : Memory) (obj : Addr) (target : Link Addr)
    (p : Option Addr) : Prop where
  objects : ∀ a, (target = .head → a ≠ obj) → mem'.objects a = mem.objects a
  attrs : ∀ a, inUse a → target ≠ .next a → mem'.attrs a = mem.attrs a
  head : target = .head →
    mem'.objects obj = (mem.objects obj).map fun o => { o with attr_list_head := p }
  next : ∀ a, target = .next a →
    mem'.attrs a = (mem.attrs a).map fun e => { e with next := p }

section Link

variable {mem : Memory} {obj : Addr} {target : Link Addr} {q : Option Addr}

theorem relinked_self (h : readLink mem obj target = some q) (inUse : Addr → Prop) :
    Relinked inUse mem mem obj target q := by
  refine ⟨fun _ _ => rfl, fun _ _ _ => rfl, fun ht => ?_, fun a ht => ?_⟩
  · subst ht
    obtain ⟨o, ho, rfl⟩ := Option.map_eq_some_iff.mp h
    rw [ho]
    rfl
  · subst ht
    obtain ⟨e, he, rfl⟩ := Option.map_eq_some_iff.mp h
    rw [he]
    rfl

theorem writeLink_ok (h : readLink mem obj target = some q) (p : Option Addr)
    (inUse : Addr → Prop) :
    ∃ mem', writeLink mem obj target p = some mem' ∧ Relinked inUse mem mem' obj target p := by
  cases target with
  | head =>
      obtain ⟨o, ho, -⟩ := Option.map_eq_some_iff.mp h
      refine ⟨mem.setObject obj { o with attr_list_head := p }, ?_, fun a ha => ?_,
        fun _ _ _ => rfl, fun _ => ?_, fun a ht => ?_⟩
      · rw [writeLink, ho]
        rfl
      · exact setObject_of_ne _ _ (ha rfl)
      · rw [setObject_self, ho]
        rfl
      · cases ht
  | next b =>
      obtain ⟨e, he, -⟩ := Option.map_eq_some_iff.mp h
      refine ⟨mem.setAttr b { e with next := p }, ?_, fun _ _ => rfl, fun a _ ha => ?_,
        fun ht => ?_, fun a ht => ?_⟩
      · rw [writeLink, he]
        rfl
      · have hne : a ≠ b := by
          rintro rfl
          exact ha rfl
        exact setAttr_of_ne _ _ hne
      · cases ht
      · obtain rfl : b = a := Link.next.inj ht
        rw [setAttr_self, he]
        rfl

/-- A pointer that is overwritten was there before. -/
theorem Relinked.used {σ : Type} {A : Allocator σ} {s : Store σ} {mem' : Memory}
    (h : Relinked (fun _ => True) s.mem mem' obj target q) (hs : Used A s) :
    Used A { s with mem := mem' } := by
  intro a ha
  refine hs a (ha.imp (fun hobj hnone => hobj ?_) fun hattr hnone => hattr ?_)
  · by_cases hself : target = .head ∧ a = obj
    · obtain ⟨ht, rfl⟩ := hself
      rw [h.head ht, hnone]
      rfl
    · rw [h.objects a fun ht heq => hself ⟨ht, heq⟩, hnone]
  · by_cases ht : target = .next a
    · rw [h.next a ht, hnone]
      rfl
    · rw [h.attrs a trivial ht, hnone]

end Link

/-! ### The loop -/

/-- The symbol in an entry is one that `attr_init` has put there. -/
def IntSym (e : PupAttributeListEntry) : Prop := ∃ sym : BitVec 32, e.name_sym = sym.toInt

/-- The sequence of symbols and values. -/
def bindings (l : List (Addr × PupAttributeListEntry)) : List (Int × Option Addr) :=
  l.map fun p => (p.2.name_sym, p.2.value)

section Loop

variable {σ : Type} {A : Allocator σ} {s : Store σ}

/-- The copy of one entry, before it is linked in. -/
theorem copyAttr_ok (hs : Used A s) {a : Addr} {e : PupAttributeListEntry}
    (he : s.mem.attrs a = some e) (hsym : IntSym e) :
    ∃ s' n, copyAttr A s a = some (s', n) ∧ ¬ A.inUse s.state n ∧ A.inUse s'.state n ∧
      (∀ b, A.inUse s.state b → A.inUse s'.state b) ∧ Used A s' ∧
      s'.mem.objects = s.mem.objects ∧ s'.mem.attrs n = some { e with next := none } ∧
      ∀ b, b ≠ n → s'.mem.attrs b = s.mem.attrs b := by
  have hfresh := allocBlock_fresh (A := A) s sizeofPupAttributeListEntry .attr
  unfold copyAttr
  generalize allocBlock A s sizeofPupAttributeListEntry .attr = r at hfresh ⊢
  obtain ⟨s', n⟩ := r
  obtain ⟨sym, hsym⟩ := hsym
  have hentry : s'.mem.attrs a = some e := by rw [hfresh.attrs, he]
  refine ⟨attrInit s' n (.ofInt 32 e.name_sym) e.value none, n, ?_, hfresh.fresh, hfresh.used,
    hfresh.keeps, hfresh.used_setAttr hs _, hfresh.objects, ?_, fun b hb => ?_⟩
  · simp [hentry]
  · rw [hsym, BitVec.ofInt_toInt]
    exact setAttr_self ..
  · refine (setAttr_of_ne _ _ hb).trans ?_
    rw [hfresh.attrs]

/-- **The loop copies a list** and puts the copy where `target` points to. -/
theorem copyAttrs_ok {new_obj : Addr} {target : Link Addr} {attr q : Option Addr}
    {l : List (Addr × PupAttributeListEntry)} (hs : Used A s) (hl : AttrList s.mem attr l)
    (hsyms : ∀ p ∈ l, IntSym p.2) (hread : readLink s.mem new_obj target = some q)
    (hend : l = [] → q = none) (hapart : ∀ p ∈ l, target ≠ .next p.1) {fuel : Nat}
    (hfuel : l.length < fuel) :
    ∃ s' head l', copyAttrs A new_obj fuel s target attr = some s' ∧
      Relinked (A.inUse s.state) s.mem s'.mem new_obj target head ∧
      AttrList s'.mem head l' ∧ bindings l' = bindings l ∧ (∀ p ∈ l', IntSym p.2) ∧
      (∀ p ∈ l', ¬ A.inUse s.state p.1) ∧ Used A s' ∧
      ∀ b, A.inUse s.state b → A.inUse s'.state b := by
  induction l generalizing s target attr q fuel with
  | nil =>
      obtain ⟨n, rfl⟩ := Nat.exists_eq_succ_of_ne_zero (Nat.ne_of_gt hfuel)
      obtain rfl : attr = none := hl.1.head
      obtain rfl := hend rfl
      exact ⟨s, none, [], rfl, relinked_self hread _, AttrList.nil_iff.mpr rfl, rfl, by simp,
        by simp, hs, fun _ => id⟩
  | cons p rest ih =>
      obtain ⟨a, e⟩ := p
      obtain ⟨k, rfl⟩ := Nat.exists_eq_succ_of_ne_zero (Nat.ne_of_gt (Nat.zero_lt_of_lt hfuel))
      obtain ⟨rfl, he, hrest⟩ := AttrList.cons_iff.mp hl
      obtain ⟨s₁, n, hcopy, hfresh, hused, hkeeps, hs₁, hobjs, hnew, hold⟩ :=
        copyAttr_ok hs he (hsyms (a, e) List.mem_cons_self)
      have hne : ∀ {b : Addr} {e' : PupAttributeListEntry}, s.mem.attrs b = some e' → b ≠ n := by
        rintro b e' hb rfl
        exact hfresh (hs.attr hb)
      have htarget : target ≠ .next n := by
        rintro rfl
        obtain ⟨e', he', -⟩ := Option.map_eq_some_iff.mp hread
        exact hne he' rfl
      have hread₁ : readLink s₁.mem new_obj target = some q := by
        rw [← hread]
        cases target with
        | head => rw [readLink, hobjs, readLink]
        | next b =>
            have hb : b ≠ n := by
              rintro rfl
              exact htarget rfl
            rw [readLink, hold b hb, readLink]
      obtain ⟨mem₁, hwrite, hlink⟩ := writeLink_ok hread₁ (some n) fun _ => True
      have hattrs : ∀ b e', s.mem.attrs b = some e' → target ≠ .next b → mem₁.attrs b = some e' := by
        intro b e' hb ht
        rw [hlink.attrs b trivial ht, hold b (hne hb), hb]
      have hentry : mem₁.attrs a = some e := hattrs a e he (hapart (a, e) List.mem_cons_self)
      have hlist : AttrList mem₁ e.next rest := by
        refine hrest.congr fun p hp => ?_
        have hp' := hrest.2 p hp
        rw [hattrs p.1 p.2 hp' (hapart p (List.mem_cons_of_mem _ hp)), hp']
      have hcell : mem₁.attrs n = some { e with next := none } := by
        rw [hlink.attrs n trivial htarget, hnew]
      have hread' : readLink mem₁ new_obj (.next n) = some none := by
        rw [readLink, hcell]
        rfl
      obtain ⟨s', head, l', hrun, hlink', hl', hbind, hsyms', hfresh', hs', hkeeps'⟩ :=
        ih (s := ⟨mem₁, s₁.state⟩) (hlink.used hs₁) hlist
          (fun p hp => hsyms p (List.mem_cons_of_mem _ hp)) hread' (fun _ => rfl)
          (fun p hp heq => hne (hrest.2 p hp) (Link.next.inj heq).symm)
          (Nat.lt_of_succ_lt_succ hfuel)
      have hcell' : s'.mem.attrs n = some { e with next := head } := by
        rw [hlink'.next n rfl, hcell]
        rfl
      refine ⟨s', some n, (n, { e with next := head }) :: l', ?_, ?_, ?_, ?_, ?_, ?_, hs', ?_⟩
      · simp [copyAttrs, hcopy, hwrite, hentry, hrun]
      · -- what comes after writes to the new entry only
        have hobjs' : s'.mem.objects = mem₁.objects :=
          funext fun b => hlink'.objects b fun ht => by cases ht
        refine ⟨fun b hb => ?_, fun b hb ht => ?_, fun ht => ?_, fun b ht => ?_⟩
        · rw [hobjs', hlink.objects b hb, hobjs]
        · have hbn : b ≠ n := by
            rintro rfl
            exact hfresh hb
          rw [hlink'.attrs b (hkeeps b hb) fun heq => hbn (Link.next.inj heq).symm,
            hlink.attrs b trivial ht, hold b hbn]
        · rw [hobjs', hlink.head ht, hobjs]
        · subst ht
          obtain ⟨e', hb, -⟩ := Option.map_eq_some_iff.mp hread
          have hbn : b ≠ n := hne hb
          rw [hlink'.attrs b (hkeeps b (hs.attr hb)) fun heq => hbn (Link.next.inj heq).symm,
            hlink.next b rfl, hold b hbn]
      · exact AttrList.cons_iff.mpr ⟨rfl, hcell', hl'⟩
      · simp only [bindings, List.map_cons, List.cons.injEq, true_and]
        exact hbind
      · intro p hp
        rcases List.mem_cons.mp hp with rfl | hp
        · exact hsyms (a, e) List.mem_cons_self
        · exact hsyms' p hp
      · intro p hp
        rcases List.mem_cons.mp hp with rfl | hp
        · exact hfresh
        · exact fun hin => hfresh' p hp (hkeeps p.1 hin)
      · exact fun b hb => hkeeps' b (hkeeps b hb)

/-- **What `pup_object_gc_copy_instance` returns.** -/
theorem pupObjectGcCopyInstance_ok (hs : Used A s) {obj : Addr} {o : PupObject}
    (ho : s.mem.objects obj = some o) {l : List (Addr × PupAttributeListEntry)}
    (hl : AttrList s.mem o.attr_list_head l) (hsyms : ∀ p ∈ l, IntSym p.2) {fuel : Nat}
    (hfuel : l.length < fuel) :
    ∃ s' copy head l', pupObjectGcCopyInstance A fuel s obj = some (s', copy) ∧
      ¬ A.inUse s.state copy ∧ s'.mem.objects copy = some { o with attr_list_head := head } ∧
      AttrList s'.mem head l' ∧ bindings l' = bindings l ∧ (∀ p ∈ l', IntSym p.2) ∧
      (∀ p ∈ l', ¬ A.inUse s.state p.1) ∧ Used A s' ∧
      (∀ a, A.inUse s.state a → s'.mem.objects a = s.mem.objects a) ∧
      ∀ a, A.inUse s.state a → s'.mem.attrs a = s.mem.attrs a := by
  have hfresh := allocBlock_fresh (A := A) s sizeofPupObject .obj
  unfold pupObjectGcCopyInstance
  generalize allocBlock A s sizeofPupObject .obj = r at hfresh ⊢
  obtain ⟨s₁, copy⟩ := r
  have hobj : s₁.mem.objects obj = some o := by rw [hfresh.objects, ho]
  have hne : ∀ a, A.inUse s.state a → a ≠ copy := by
    rintro a ha rfl
    exact hfresh.fresh ha
  have hlist : AttrList (s₁.mem.setObject copy o) o.attr_list_head l :=
    hl.congr fun p _ => congrFun hfresh.attrs p.1
  have hread : readLink (s₁.mem.setObject copy o) copy .head = some o.attr_list_head := by
    rw [readLink, setObject_self]
    rfl
  obtain ⟨s', head, l', hrun, hlink, hl', hbind, hsyms', hfresh', hs', -⟩ :=
    copyAttrs_ok (s := ⟨s₁.mem.setObject copy o, s₁.state⟩)
      (hfresh.used_setObject hs o) hlist hsyms hread (fun hnil => by subst hnil; exact hl.1.head)
      (fun p _ heq => by cases heq) hfuel
  refine ⟨s', copy, head, l', by simp [hobj, hrun], hfresh.fresh, ?_, hl', hbind, hsyms',
    fun p hp hin => hfresh' p hp (hfresh.keeps p.1 hin), hs', fun a ha => ?_, fun a ha => ?_⟩
  · rw [hlink.head rfl, setObject_self]
    rfl
  · rw [hlink.objects a fun _ => hne a ha, setObject_of_ne _ _ (hne a ha), hfresh.objects]
  · rw [hlink.attrs a (hfresh.keeps a ha) fun heq => by cases heq]
    exact congrFun hfresh.attrs a

end Loop

/-! ### Attributes of two objects -/

section FindAttr

variable {mem : Memory} {head : Option Addr} {l : List (Addr × PupAttributeListEntry)}
  {sym : Int}

theorem findAttr_congr (hl : AttrList mem head l) {mem' : Memory}
    (hsame : ∀ p ∈ l, mem'.attrs p.1 = mem.attrs p.1) (fuel : Nat) :
    findAttr mem' fuel head sym = findAttr mem fuel head sym := by
  induction l generalizing head fuel with
  | nil =>
      obtain rfl : head = none := hl.1.head
      cases fuel <;> rfl
  | cons p rest ih =>
      obtain ⟨a, e⟩ := p
      obtain ⟨rfl, he, hrest⟩ := AttrList.cons_iff.mp hl
      cases fuel with
      | zero => rfl
      | succ fuel =>
          have hsame' := hsame (a, e) List.mem_cons_self
          have hrec := ih hrest (fun p hp => hsame p (List.mem_cons_of_mem _ hp)) fuel
          simp only [findAttr, hsame', he, Option.bind_eq_bind, Option.bind_some, hrec]

theorem findAttr_total (hl : AttrList mem head l) {fuel : Nat} (hfuel : l.length < fuel) :
    ∃ r, findAttr mem fuel head sym = some r := by
  induction l generalizing head fuel with
  | nil =>
      obtain ⟨n, rfl⟩ := Nat.exists_eq_succ_of_ne_zero (Nat.ne_of_gt hfuel)
      obtain rfl : head = none := hl.1.head
      exact ⟨none, rfl⟩
  | cons p rest ih =>
      obtain ⟨a, e⟩ := p
      obtain ⟨k, rfl⟩ := Nat.exists_eq_succ_of_ne_zero (Nat.ne_of_gt (Nat.zero_lt_of_lt hfuel))
      obtain ⟨rfl, he, hrest⟩ := AttrList.cons_iff.mp hl
      simp only [findAttr, he, Option.bind_eq_bind, Option.bind_some]
      by_cases hname : e.name_sym = sym
      · exact ⟨some a, if_pos hname⟩
      · rw [if_neg hname]
        exact ih hrest (Nat.lt_of_succ_lt_succ hfuel)

theorem findAttr_mem (hl : AttrList mem head l) {fuel : Nat} {a : Addr}
    (h : findAttr mem fuel head sym = some (some a)) : ∃ e, (a, e) ∈ l := by
  induction l generalizing head fuel with
  | nil =>
      obtain rfl : head = none := hl.1.head
      cases fuel <;> cases h
  | cons p rest ih =>
      obtain ⟨b, e⟩ := p
      obtain ⟨rfl, he, hrest⟩ := AttrList.cons_iff.mp hl
      cases fuel with
      | zero => cases h
      | succ fuel =>
          simp only [findAttr, he, Option.bind_eq_bind, Option.bind_some] at h
          split at h
          · cases h
            exact ⟨e, List.mem_cons_self⟩
          · obtain ⟨e', he'⟩ := ih hrest h
            exact ⟨e', List.mem_cons_of_mem _ he'⟩

/-- An entry gets another value, and the list has the same entries. -/
theorem attrList_setValue (hl : AttrList mem head l) {a : Addr} {e : PupAttributeListEntry}
    (he : mem.attrs a = some e) (val : Option Addr) :
    ∃ l', AttrList (mem.setAttr a { e with value := val }) head l' ∧
      l'.map Prod.fst = l.map Prod.fst := by
  induction l generalizing head with
  | nil =>
      obtain rfl : head = none := hl.1.head
      exact ⟨[], AttrList.nil_iff.mpr rfl, rfl⟩
  | cons p rest ih =>
      obtain ⟨b, f⟩ := p
      obtain ⟨rfl, hf, hrest⟩ := AttrList.cons_iff.mp hl
      obtain ⟨l', hl', hsame⟩ := ih hrest
      by_cases hba : b = a
      · subst hba
        obtain rfl := Option.some.inj (hf.symm.trans he)
        refine ⟨(b, { f with value := val }) :: l', ?_, ?_⟩
        · exact AttrList.cons_iff.mpr ⟨rfl, setAttr_self .., hl'⟩
        · rw [List.map_cons, hsame, List.map_cons]
      · refine ⟨(b, f) :: l', AttrList.cons_iff.mpr ⟨rfl, ?_, hl'⟩, ?_⟩
        · rw [setAttr_of_ne _ _ hba, hf]
        · rw [List.map_cons, hsame, List.map_cons]

end FindAttr

/-- The object's attributes are the entries `l`. -/
def Owns (mem : Memory) (obj : Addr) (l : List (Addr × PupAttributeListEntry)) : Prop :=
  ∃ o, mem.objects obj = some o ∧ AttrList mem o.attr_list_head l

section Owns

variable {mem mem' : Memory} {obj : Addr} {l : List (Addr × PupAttributeListEntry)}

theorem Owns.congr (h : Owns mem obj l) (hobj : mem'.objects obj = mem.objects obj)
    (hsame : ∀ p ∈ l, mem'.attrs p.1 = mem.attrs p.1) : Owns mem' obj l := by
  obtain ⟨o, ho, hl⟩ := h
  exact ⟨o, hobj.trans ho, hl.congr hsame⟩

theorem Owns.attr (h : Owns mem obj l) {p : Addr × PupAttributeListEntry} (hp : p ∈ l) :
    mem.attrs p.1 = some p.2 := by
  obtain ⟨o, ho, hl⟩ := h
  exact hl.2 p hp

/-- What `pup_iv_get` reads is the object and its entries. -/
theorem Owns.pupIvGet_congr (h : Owns mem obj l) (hobj : mem'.objects obj = mem.objects obj)
    (hsame : ∀ p ∈ l, mem'.attrs p.1 = mem.attrs p.1) (fuel : Nat) (sym : BitVec 32) :
    pupIvGet mem' fuel obj sym = pupIvGet mem fuel obj sym := by
  obtain ⟨o, ho, hl⟩ := h
  unfold pupIvGet
  rw [hobj, ho]
  simp only [Option.bind_eq_bind, Option.bind_some, findAttr_congr hl hsame fuel]
  cases hfind : findAttr mem fuel o.attr_list_head sym.toInt with
  | none => rfl
  | some r =>
      cases r with
      | none => rfl
      | some a =>
          obtain ⟨e, he⟩ := findAttr_mem hl hfind
          have hattr := hsame (a, e) he
          simp only [Option.bind_some, hattr]

end Owns

/-! ### Setting attributes -/

section IvSet

variable {σ : Type} {A : Allocator σ} {s s' : Store σ} {obj : Addr} {sym : BitVec 32}
  {val : Option Addr} {l : List (Addr × PupAttributeListEntry)}

/-- What `pup_iv_set` leaves of everything: the object has the entries it had and perhaps
a new one, and nothing that is in use and not the object's has changed. -/
structure AttrSet (A : Allocator σ) (s s' : Store σ) (obj : Addr)
    (l l' : List (Addr × PupAttributeListEntry)) : Prop where
  owns : Owns s'.mem obj l'
  used : Used A s'
  length : l'.length ≤ l.length + 1
  objects : ∀ b, b ≠ obj → s'.mem.objects b = s.mem.objects b
  attrs : ∀ b, A.inUse s.state b → b ∉ l.map Prod.fst → s'.mem.attrs b = s.mem.attrs b
  entries : ∀ p ∈ l', p.1 ∈ l.map Prod.fst ∨ ¬ A.inUse s.state p.1

theorem attrSet_value (hs : Used A s) (h : Owns s.mem obj l) {a : Addr}
    {e : PupAttributeListEntry} (he : s.mem.attrs a = some e) (ha : a ∈ l.map Prod.fst)
    (val : Option Addr) :
    ∃ l', AttrSet A s { s with mem := s.mem.setAttr a { e with value := val } } obj l l' := by
  obtain ⟨o, ho, hl⟩ := h
  obtain ⟨l', hl', hsame⟩ := attrList_setValue hl he val
  refine ⟨l', ⟨o, ho, hl'⟩, fun b hb => ?_, ?_, fun _ _ => rfl, fun b _ hb => ?_, fun p hp => ?_⟩
  · refine hs b (hb.imp_right fun hattr hnone => hattr ?_)
    have hba : b ≠ a := by
      rintro rfl
      rw [he] at hnone
      cases hnone
    exact (setAttr_of_ne _ _ hba).trans hnone
  · have hlength := congrArg List.length hsame
    simp only [List.length_map] at hlength
    omega
  · have hba : b ≠ a := by
      rintro rfl
      exact hb ha
    exact setAttr_of_ne _ _ hba
  · left
    rw [← hsame]
    exact List.mem_map_of_mem hp

theorem attrSet_create (hs : Used A s) (h : Owns s.mem obj l) {o : PupObject}
    (ho : s.mem.objects obj = some o) (sym : BitVec 32) (val : Option Addr) :
    ∃ s₁ attr, createAttr A s sym val o.attr_list_head = (s₁, attr) ∧
      s₁.mem.objects obj = some o ∧
      ∃ l', AttrSet A s { s₁ with mem := s₁.mem.setObject obj { o with attr_list_head := some attr } }
        obj l l' := by
  obtain ⟨o', ho', hl⟩ := h
  obtain rfl : o = o' := Option.some.inj (ho.symm.trans ho')
  have hfresh := allocBlock_fresh (A := A) s sizeofPupAttributeListEntry .attr
  unfold createAttr
  generalize allocBlock A s sizeofPupAttributeListEntry .attr = r at hfresh ⊢
  obtain ⟨s₁, attr⟩ := r
  have hobj : s₁.mem.objects obj = some o := by rw [hfresh.objects, ho]
  have hused := hfresh.used_setAttr hs ⟨sym.toInt, val, o.attr_list_head⟩
  have hne : ∀ b, A.inUse s.state b → b ≠ attr := by
    rintro b hb rfl
    exact hfresh.fresh hb
  refine ⟨attrInit s₁ attr sym val o.attr_list_head, attr, rfl, hobj,
    (attr, ⟨sym.toInt, val, o.attr_list_head⟩) :: l, ⟨_, setObject_self .., ?_⟩, fun b hb => ?_,
    by simp, fun b hb => ?_, fun b hb _ => ?_, fun p hp => ?_⟩
  · refine AttrList.cons_iff.mpr ⟨rfl, setAttr_self .., hl.congr fun p hp => ?_⟩
    refine (setAttr_of_ne _ _ (hne p.1 (hs.attr (hl.2 p hp)))).trans ?_
    rw [hfresh.attrs]
  · by_cases hbo : b = obj
    · subst hbo
      exact hfresh.keeps b (hs.object ho)
    · refine hused b (hb.imp_left fun hobj' => ?_)
      rwa [setObject_of_ne _ _ hbo] at hobj'
  · refine (setObject_of_ne _ _ hb).trans ?_
    exact congrFun hfresh.objects b
  · refine (setAttr_of_ne _ _ (hne b hb)).trans ?_
    rw [hfresh.attrs]
  · rcases List.mem_cons.mp hp with rfl | hp
    · exact .inr hfresh.fresh
    · exact .inl (List.mem_map_of_mem hp)

theorem pupIvSet_ok (hs : Used A s) (h : Owns s.mem obj l) {fuel : Nat}
    (hset : pupIvSet A s fuel obj sym val = some s') : ∃ l', AttrSet A s s' obj l l' := by
  obtain ⟨o, ho, hl⟩ := h
  unfold pupIvSet at hset
  simp only [ho, Option.bind_eq_bind, Option.bind_some] at hset
  cases hfind : findAttr s.mem fuel o.attr_list_head sym.toInt with
  | none => simp [hfind] at hset
  | some r =>
      cases r with
      | some a =>
          obtain ⟨e, he⟩ := findAttr_mem hl hfind
          have hattr := hl.2 (a, e) he
          simp only [hfind, hattr, Option.bind_some, Option.some.injEq] at hset
          subst hset
          exact attrSet_value hs ⟨o, ho, hl⟩ hattr (List.mem_map_of_mem he) val
      | none =>
          obtain ⟨s₁, attr, hcreate, hobj, hex⟩ := attrSet_create hs ⟨o, ho, hl⟩ ho sym val
          simp only [hfind, hcreate, hobj, Option.bind_some, Option.some.injEq] at hset
          subst hset
          exact hex

theorem pupIvSet_total (hs : Used A s) (h : Owns s.mem obj l) {fuel : Nat}
    (hfuel : l.length < fuel) (sym : BitVec 32) (val : Option Addr) :
    ∃ s', pupIvSet A s fuel obj sym val = some s' := by
  obtain ⟨o, ho, hl⟩ := h
  have hfind : ∃ r, findAttr s.mem fuel o.attr_list_head sym.toInt = some r :=
    findAttr_total hl hfuel
  obtain ⟨r, hfind⟩ := hfind
  unfold pupIvSet
  simp only [ho, Option.bind_eq_bind, Option.bind_some, hfind]
  cases r with
  | some a =>
      obtain ⟨e, he⟩ := findAttr_mem hl hfind
      have hattr : s.mem.attrs a = some e := hl.2 (a, e) he
      exact ⟨_, by simp only [hattr]; rfl⟩
  | none =>
      obtain ⟨s₁, attr, hcreate, hobj, -⟩ := attrSet_create hs ⟨o, ho, hl⟩ ho sym val
      exact ⟨_, by rw [hcreate]; simp only [hobj]; rfl⟩

end IvSet

/-! ### Two objects apart -/

section Separate

variable {σ : Type} {A : Allocator σ}

/-- The objects at `a` and `b` have no entry in common. -/
structure Separate (A : Allocator σ) (s : Store σ) (a b : Addr)
    (la lb : List (Addr × PupAttributeListEntry)) : Prop where
  used : Used A s
  ne : a ≠ b
  left : Owns s.mem a la
  right : Owns s.mem b lb
  apart : ∀ p ∈ la, p.1 ∉ lb.map Prod.fst

variable {s s' : Store σ} {a b : Addr} {la lb : List (Addr × PupAttributeListEntry)}

theorem Separate.symm (h : Separate A s a b la lb) : Separate A s b a lb la := by
  refine ⟨h.used, h.ne.symm, h.right, h.left, fun p hp hmem => ?_⟩
  obtain ⟨q, hq, heq⟩ := List.mem_map.mp hmem
  exact h.apart q hq (heq ▸ List.mem_map_of_mem hp)

theorem Separate.attrSet (h : Separate A s a b la lb)
    {la' : List (Addr × PupAttributeListEntry)} (hset : AttrSet A s s' a la la') :
    Separate A s' a b la' lb ∧ ∀ fuel sym,
      pupIvGet s'.mem fuel b sym = pupIvGet s.mem fuel b sym := by
  have hobj : s'.mem.objects b = s.mem.objects b := hset.objects b h.ne.symm
  have hattrs : ∀ q ∈ lb, s'.mem.attrs q.1 = s.mem.attrs q.1 := by
    intro q hq
    refine hset.attrs q.1 (h.used.attr (h.right.attr hq)) fun hmem => ?_
    exact h.symm.apart q hq hmem
  refine ⟨⟨hset.used, h.ne, hset.owns, h.right.congr hobj hattrs, fun p hp hmem => ?_⟩,
    h.right.pupIvGet_congr hobj hattrs⟩
  rcases hset.entries p hp with hold | hnew
  · obtain ⟨q, hq, heq⟩ := List.mem_map.mp hold
    exact h.apart q hq (heq ▸ hmem)
  · obtain ⟨q, hq, heq⟩ := List.mem_map.mp hmem
    exact hnew (heq ▸ h.used.attr (h.right.attr hq))

/-- A `pup_iv_set` on one of two objects. -/
structure IvSet where
  first : Bool
  sym : BitVec 32
  val : Option Addr

/-- Calls of `pup_iv_set` on either object, one after the other. -/
def ivSets (A : Allocator σ) (fuel : Nat) (a b : Addr) (s : Store σ) (sets : List IvSet) :
    Option (Store σ) :=
  sets.foldlM (fun s i => pupIvSet A s fuel (if i.first then a else b) i.sym i.val) s

/-- One step of it. -/
theorem Separate.ivSet (h : Separate A s a b la lb) {fuel : Nat} {i : IvSet}
    (hset : pupIvSet A s fuel (if i.first then a else b) i.sym i.val = some s') :
    ∃ la' lb', Separate A s' a b la' lb' ∧ la'.length ≤ la.length + 1 ∧
      lb'.length ≤ lb.length + 1 := by
  by_cases hi : i.first = true
  · rw [if_pos hi] at hset
    obtain ⟨la', hla'⟩ := pupIvSet_ok h.used h.left hset
    exact ⟨la', lb, (h.attrSet hla').1, hla'.length, Nat.le_succ _⟩
  · rw [if_neg hi] at hset
    obtain ⟨lb', hlb'⟩ := pupIvSet_ok h.used h.right hset
    exact ⟨la, lb', (h.symm.attrSet hlb').1.symm, Nat.le_succ _, hlb'.length⟩

/-- The two stay apart, whatever is set. -/
theorem Separate.ivSets (h : Separate A s a b la lb) {fuel : Nat} {sets : List IvSet}
    (hsets : ivSets A fuel a b s sets = some s') : ∃ la' lb', Separate A s' a b la' lb' := by
  induction sets generalizing s la lb with
  | nil =>
      obtain rfl : s = s' := Option.some.inj hsets
      exact ⟨la, lb, h⟩
  | cons i rest ih =>
      obtain ⟨s₁, hset, hrest⟩ := Option.bind_eq_some_iff.mp (List.foldlM_cons.symm.trans hsets)
      obtain ⟨la', lb', h', -⟩ := h.ivSet hset
      exact ih h' hrest

theorem Separate.ivSets_total (h : Separate A s a b la lb) {fuel : Nat} {sets : List IvSet}
    (hla : la.length + sets.length < fuel) (hlb : lb.length + sets.length < fuel) :
    ∃ s', Copying.ivSets A fuel a b s sets = some s' := by
  induction sets generalizing s la lb with
  | nil => exact ⟨s, rfl⟩
  | cons i rest ih =>
      rw [List.length_cons] at hla hlb
      have hset : ∃ s₁, pupIvSet A s fuel (if i.first then a else b) i.sym i.val = some s₁ := by
        by_cases hi : i.first = true
        · rw [if_pos hi]
          exact pupIvSet_total h.used h.left (by omega) i.sym i.val
        · rw [if_neg hi]
          exact pupIvSet_total h.used h.right (by omega) i.sym i.val
      obtain ⟨s₁, hset⟩ := hset
      obtain ⟨la', lb', h', hla', hlb'⟩ := h.ivSet hset
      obtain ⟨s', hs'⟩ := ih h' (by omega) (by omega)
      exact ⟨s', by rw [Copying.ivSets, List.foldlM_cons, hset]; exact hs'⟩

/-- No `pup_iv_set` on the object at `a` changes a `pup_iv_get` on the one at `b`. -/
def KeepsIvGet (A : Allocator σ) (s : Store σ) (a b : Addr) : Prop :=
  ∀ fuel sym val s', pupIvSet A s fuel a sym val = some s' →
    ∀ fuel' sym', pupIvGet s'.mem fuel' b sym' = pupIvGet s.mem fuel' b sym'

theorem Separate.keepsIvGet (h : Separate A s a b la lb) : KeepsIvGet A s a b := by
  intro fuel sym val s' hset
  obtain ⟨la', hla'⟩ := pupIvSet_ok h.used h.left hset
  exact (h.attrSet hla').2

end Separate

/--
**A copy has nothing in common with its original.**  For every object with any number of
attributes, and every allocator whose blocks are fresh: `pup_object_gc_copy_instance`
returns an object with the same type and mark, and the same sequence of symbols and values
in entries of its own; nothing that was in use has changed; and after any calls of
`pup_iv_set` on the two objects, which all return, one more on one of them leaves every
`pup_iv_get` on the other as it was.
-/
theorem copy_separate {σ : Type} (A : Allocator σ) {s : Store σ} (hs : Used A s) {obj : Addr}
    {o : PupObject} (ho : s.mem.objects obj = some o)
    {l : List (Addr × PupAttributeListEntry)} (hl : AttrList s.mem o.attr_list_head l)
    (hsyms : ∀ p ∈ l, IntSym p.2) {fuel : Nat} (hfuel : l.length < fuel) :
    ∃ s' copy o' l', pupObjectGcCopyInstance A fuel s obj = some (s', copy) ∧
      ¬ A.inUse s.state copy ∧ s'.mem.objects copy = some o' ∧
      o'.type = o.type ∧ o'.gc_mark = o.gc_mark ∧
      AttrList s'.mem o'.attr_list_head l' ∧ bindings l' = bindings l ∧
      (∀ p ∈ l', ¬ A.inUse s.state p.1) ∧
      (∀ a, A.inUse s.state a →
        s'.mem.objects a = s.mem.objects a ∧ s'.mem.attrs a = s.mem.attrs a) ∧
      (∀ fuel' sets, l.length + sets.length < fuel' →
        ∃ s'', ivSets A fuel' obj copy s' sets = some s'') ∧
      ∀ fuel' sets s'', ivSets A fuel' obj copy s' sets = some s'' →
        KeepsIvGet A s'' obj copy ∧ KeepsIvGet A s'' copy obj := by
  obtain ⟨s', copy, head, l', hrun, hfresh, hcopy, hl', hbind, -, hentries, hs', hobjs, hattrs⟩ :=
    pupObjectGcCopyInstance_ok hs ho hl hsyms hfuel
  have hsep : Separate A s' obj copy l l' := by
    refine ⟨hs', ?_, ⟨o, ?_, ?_⟩, ⟨_, hcopy, hl'⟩, fun p hp hmem => ?_⟩
    · rintro rfl
      exact hfresh (hs.object ho)
    · rw [hobjs obj (hs.object ho), ho]
    · exact hl.congr fun p hp => hattrs p.1 (hs.attr (hl.2 p hp))
    · obtain ⟨q, hq, heq⟩ := List.mem_map.mp hmem
      exact hentries q hq (heq ▸ hs.attr (hl.2 p hp))
  have hlength : l'.length = l.length := by simpa [bindings] using congrArg List.length hbind
  refine ⟨s', copy, _, l', hrun, hfresh, hcopy, rfl, rfl, hl', hbind, hentries,
    fun a ha => ⟨hobjs a ha, hattrs a ha⟩, fun fuel' sets hroom => ?_, fun fuel' sets s'' hsets => ?_⟩
  · exact hsep.ivSets_total hroom (hlength ▸ hroom)
  · obtain ⟨la', lb', hsep'⟩ := hsep.ivSets hsets
    exact ⟨hsep'.keepsIvGet, hsep'.symm.keepsIvGet⟩

/-- One block after the other. -/
def bump : Allocator Nat where
  alloc st size _ := (st + sizeofHeapObject + size, st)
  inUse st a := a < st
  fresh st size kind := Nat.not_lt.mpr (Nat.le_add_right st dataOffset)
  used st size kind := by
    show st + 9 < st + 16 + size
    omega
  keeps st size kind a ha := by
    show a < st + 16 + size
    exact Nat.lt_of_lt_of_le ha (by omega)

/-- An object with two attributes. -/
def twoAttrs : Store Nat where
  mem :=
    { headers := fun _ => none
      objects := fun a => if a = 9 then some ⟨some 9, some 109, true⟩ else none
      attrs := fun a =>
        if a = 109 then some ⟨1, some 9, some 209⟩
        else if a = 209 then some ⟨2, none, none⟩ else none }
  state := 300

theorem twoAttrs_ok : Used bump twoAttrs ∧
    twoAttrs.mem.objects 9 = some ⟨some 9, some 109, true⟩ ∧
    AttrList twoAttrs.mem (some 109) [(109, ⟨1, some 9, some 209⟩), (209, ⟨2, none, none⟩)] := by
  refine ⟨fun a ha => ?_, rfl, ?_⟩
  · by_contra hlt
    have hle : 300 ≤ a := Nat.not_lt.mp hlt
    have h9 : a ≠ 9 := Nat.ne_of_gt (Nat.lt_of_lt_of_le (by decide) hle)
    have h109 : a ≠ 109 := Nat.ne_of_gt (Nat.lt_of_lt_of_le (by decide) hle)
    have h209 : a ≠ 209 := Nat.ne_of_gt (Nat.lt_of_lt_of_le (by decide) hle)
    simp [twoAttrs, h9, h109, h209] at ha
  · exact AttrList.cons_iff.mpr ⟨rfl, rfl,
      AttrList.cons_iff.mpr ⟨rfl, rfl, AttrList.nil_iff.mpr rfl⟩⟩

/-- It is copied. -/
theorem copy_separate_twoAttrs :
    ∃ s' copy o' l', pupObjectGcCopyInstance bump 3 twoAttrs 9 = some (s', copy) ∧
      s'.mem.objects copy = some o' ∧ o'.type = some 9 ∧ o'.gc_mark = true ∧
      AttrList s'.mem o'.attr_list_head l' ∧ bindings l' = [(1, some 9), (2, none)] ∧
      KeepsIvGet bump s' 9 copy ∧ KeepsIvGet bump s' copy 9 := by
  obtain ⟨hused, hobj, hl⟩ := twoAttrs_ok
  have hsyms : ∀ p ∈ [((109 : Addr), (⟨1, some 9, some 209⟩ : PupAttributeListEntry)),
      (209, ⟨2, none, none⟩)], IntSym p.2 := by
    intro p hp
    simp only [List.mem_cons, List.not_mem_nil, or_false] at hp
    rcases hp with rfl | rfl
    · exact ⟨1, by decide⟩
    · exact ⟨2, by decide⟩
  obtain ⟨s', copy, o', l', hrun, -, hcopy, htype, hmark, hl', hbind, -, -, -, hkeeps⟩ :=
    copy_separate bump hused hobj hl hsyms (show 2 < 3 by decide)
  obtain ⟨hleft, hright⟩ := hkeeps 0 [] s' rfl
  exact ⟨s', copy, o', l', hrun, hcopy, htype, hmark, hl', hbind, hleft, hright⟩

end Pup.Copying
