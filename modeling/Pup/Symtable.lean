/-
The symbol table.

`pup_str_to_sym` and `pup_get_sym` search the list of the entries with a pointer to the
pointer to the entry at hand, which at the end is where the one links in a new entry.
Entries refer to the strings that were passed, which are not copied: `text` is what the
strings at these addresses are.

The table numbers the strings in the order in which they are interned (`Represents`).
-/
import Mathlib.Logic.Function.Basic
import Pup.Object
import Pup.Lib.Chain
import Pup.Lib.Numbering

namespace Pup.Symtable

open Chain Numbering

structure SymTableEntry where
  sym : Int
  str : Addr
  next : Option Addr
  deriving DecidableEq, Repr

/-- `struct SymTable` and the entries that have been allocated. -/
structure SymTable where
  next_sym : Int
  head : Option Addr
  entries : Addr → Option SymTableEntry
  /-- how many entries have been allocated -/
  mallocs : Nat

/-- What the table is used with. -/
structure World where
  /-- the string at an address -/
  text : Addr → String
  /-- where the entries are, in the order of their allocation -/
  malloc : Nat → Addr
  malloc_injective : Function.Injective malloc

def INT_MAX : Int := 2147483647

/-- `n++` of an `int`, which must not overflow. -/
def increment (n : Int) : Option Int := if n < INT_MAX then some (n + 1) else none

/-- `pup_sym_table_create`. -/
def pupSymTableCreate : SymTable := ⟨1, none, fun _ => none, 0⟩

/-! ### Reading and writing through a pointer to a pointer -/

def SymTable.read (st : SymTable) : Link Addr → Option (Option Addr)
  | .head => some st.head
  | .next a => (st.entries a).map SymTableEntry.next

def SymTable.setEntry (st : SymTable) (a : Addr) (e : SymTableEntry) : SymTable :=
  { st with entries := Function.update st.entries a (some e) }

def SymTable.write (st : SymTable) (entryp : Link Addr) (p : Option Addr) : Option SymTable :=
  match entryp with
  | .head => some { st with head := p }
  | .next a => (st.entries a).map fun e => st.setEntry a { e with next := p }

section Calls

variable (w : World)

/-- `find_entry`, for at most `fuel - 1` entries: what `*entryp` is at the end. -/
def findEntry (st : SymTable) (str : Addr) : Nat → Link Addr → Option (Link Addr)
  | 0, _ => none
  | fuel + 1, entryp => do
      match ← st.read entryp with
      | none => some entryp
      | some entry => do
          let e ← st.entries entry
          if w.text str = w.text e.str then some entryp
          else findEntry st str fuel (.next entry)

/-- `entry_create`, and where the entry is. -/
def entryCreate (st : SymTable) (sym : Int) (str : Addr) : SymTable × Addr :=
  ({ st.setEntry (w.malloc st.mallocs) ⟨sym, str, none⟩ with mallocs := st.mallocs + 1 },
    w.malloc st.mallocs)

/-- `(*entryp)->sym`. -/
def symAt (st : SymTable) (entryp : Link Addr) : Option Int := do
  let entry ← st.read entryp
  let e ← st.entries (← entry)
  some e.sym

/-- The list is no longer than this. -/
def SymTable.fuel (st : SymTable) : Nat := st.mallocs + 1

/-- `pup_str_to_sym`. -/
def pupStrToSym (st : SymTable) (str : Addr) : Option (SymTable × Int) := do
  let entryp ← findEntry w st str st.fuel .head
  match ← st.read entryp with
  | some _ => do
      let sym ← symAt st entryp
      some (st, sym)
  | none => do
      let sym := st.next_sym
      let next_sym ← increment st.next_sym
      let (st, entry) := entryCreate w { st with next_sym } sym str
      let st ← st.write entryp (some entry)
      let sym ← symAt st entryp
      some (st, sym)

/-- `pup_get_sym`: the `*result_sym` of a call that returns true. -/
def pupGetSym (st : SymTable) (str : Addr) : Option (Option Int) := do
  let entryp ← findEntry w st str st.fuel .head
  match ← st.read entryp with
  | some _ => do
      let sym ← symAt st entryp
      some (some sym)
  | none => some none

/-- The loop of `pup_sym_to_str`, for at most `fuel - 1` entries. -/
def symToStr (st : SymTable) (sym : Int) : Nat → Option Addr → Option (Option Addr)
  | 0, _ => none
  | _ + 1, none => some none
  | fuel + 1, some entry => do
      let e ← st.entries entry
      if e.sym = sym then some (some e.str) else symToStr st sym fuel e.next

/-- `pup_sym_to_str`. -/
def pupSymToStr (st : SymTable) (sym : Int) : Option (Option Addr) :=
  symToStr st sym st.fuel st.head

/-! ### Histories -/

inductive Call
  | strToSym (str : Addr)
  | getSym (str : Addr)
  deriving DecidableEq, Repr

/-- The table after a call, and the symbol that the caller gets. -/
def call (st : SymTable) : Call → Option (SymTable × Option Int)
  | .strToSym str => (pupStrToSym w st str).map fun r => (r.1, some r.2)
  | .getSym str => (pupGetSym w st str).map fun r => (st, r)

/-- One call after the other, with a log of the calls and what they return. -/
def history (st : SymTable) : List Call → Option (SymTable × List (Call × Option Int))
  | [] => some (st, [])
  | c :: rest => do
      let (st, r) ← call w st c
      let (st, log) ← history st rest
      some (st, (c, r) :: log)

/-- The strings that are interned by calls. -/
def interned (calls : List Call) : List String :=
  calls.filterMap fun c =>
    match c with
    | .strToSym str => some (w.text str)
    | .getSym _ => none

end Calls

/-! ### What the table represents -/

variable {w : World}

/-- The pointer to the entry number `i + 1`, or where it will be. -/
def link (w : World) : Nat → Link Addr
  | 0 => .head
  | i + 1 => .next (w.malloc i)

/-- The table has entries for the strings `l`, in this order. -/
structure Represents (w : World) (st : SymTable) (l : List String) : Prop where
  nodup : l.Nodup
  next_sym : st.next_sym = l.length + 1
  mallocs : st.mallocs = l.length
  links : ∀ i ≤ l.length, st.read (link w i) = some (if i < l.length then some (w.malloc i) else none)
  entries : ∀ i (h : i < l.length), ∃ e, st.entries (w.malloc i) = some e ∧ e.sym = i + 1 ∧
    w.text e.str = l[i]

theorem represents_create : Represents w pupSymTableCreate [] := by
  refine ⟨List.nodup_nil, rfl, rfl, fun i hi => ?_, fun i hi => ?_⟩
  · obtain rfl := Nat.le_zero.mp hi
    rfl
  · exact absurd hi (Nat.not_lt_zero i)

/-! ### Writes -/

/-- What a write through a pointer to a pointer leaves. -/
structure Written (st st' : SymTable) (entryp : Link Addr) (p : Option Addr) : Prop where
  next_sym : st'.next_sym = st.next_sym
  mallocs : st'.mallocs = st.mallocs
  self : st'.read entryp = some p
  others : ∀ k, k ≠ entryp → st'.read k = st.read k
  entries : ∀ a e, st.entries a = some e →
    ∃ e', st'.entries a = some e' ∧ e'.sym = e.sym ∧ e'.str = e.str

theorem write_ok {st : SymTable} {entryp : Link Addr} {q : Option Addr}
    (h : st.read entryp = some q) (p : Option Addr) :
    ∃ st', st.write entryp p = some st' ∧ Written st st' entryp p := by
  cases entryp with
  | head =>
      refine ⟨_, rfl, rfl, rfl, rfl, fun k hk => ?_, fun a e he => ⟨e, he, rfl, rfl⟩⟩
      cases k with
      | head => exact absurd rfl hk
      | next a => rfl
  | next b =>
      obtain ⟨e, he, -⟩ := Option.map_eq_some_iff.mp h
      have hwrite : st.write (.next b) p = some (st.setEntry b { e with next := p }) := by
        rw [SymTable.write, he]
        rfl
      refine ⟨_, hwrite, rfl, rfl, ?_, fun k hk => ?_, fun a e' he' => ?_⟩
      · simp [SymTable.read, SymTable.setEntry]
      · cases k with
        | head => rfl
        | next a =>
            have hne : a ≠ b := by
              rintro rfl
              exact hk rfl
            simp [SymTable.read, SymTable.setEntry, hne]
      · by_cases hab : a = b
        · subst hab
          obtain rfl := Option.some.inj (he.symm.trans he')
          exact ⟨{ e with next := p }, by simp [SymTable.setEntry], rfl, rfl⟩
        · exact ⟨e', by simp [SymTable.setEntry, hab, he'], rfl, rfl⟩

theorem link_ne (w : World) {i j : Nat} (hij : i ≠ j) : link w i ≠ link w j := by
  intro heq
  cases i with
  | zero =>
      cases j with
      | zero => exact hij rfl
      | succ j => cases heq
  | succ i =>
      cases j with
      | zero => cases heq
      | succ j =>
          have hmalloc := w.malloc_injective (Link.next.inj heq)
          exact hij (congrArg Nat.succ hmalloc)

/-- A new entry, which is not linked in yet. -/
theorem entryCreate_read (st : SymTable) (sym : Int) (str : Addr) {k : Link Addr}
    (hk : k ≠ link w (st.mallocs + 1)) :
    (entryCreate w st sym str).1.read k = st.read k := by
  cases k with
  | head => rfl
  | next a =>
      have hne : a ≠ w.malloc st.mallocs := by
        rintro rfl
        exact hk rfl
      simp [entryCreate, SymTable.read, SymTable.setEntry, hne]

theorem entryCreate_read_new (st : SymTable) (sym : Int) (str : Addr) :
    (entryCreate w st sym str).1.read (link w (st.mallocs + 1)) = some none := by
  simp [entryCreate, SymTable.read, SymTable.setEntry, link]

theorem entryCreate_entries (st : SymTable) (sym : Int) (str : Addr) {i : Nat}
    (hi : i ≠ st.mallocs) :
    (entryCreate w st sym str).1.entries (w.malloc i) = st.entries (w.malloc i) := by
  have hne : w.malloc i ≠ w.malloc st.mallocs := fun heq => hi (w.malloc_injective heq)
  simp [entryCreate, SymTable.setEntry, hne]

section Represents

variable {st : SymTable} {l : List String} (h : Represents w st l)
include h

/-- **What `find_entry` finds**: where the string is, or the end of the list. -/
theorem Represents.findEntry (str : Addr) {fuel i : Nat} (hi : i ≤ l.idxOf (w.text str))
    (hfuel : l.length < fuel + i) :
    findEntry w st str fuel (link w i) = some (link w (l.idxOf (w.text str))) := by
  have hle : l.idxOf (w.text str) ≤ l.length := List.idxOf_le_length
  induction fuel generalizing i with
  | zero => omega
  | succ fuel ih =>
      rw [Symtable.findEntry, h.links i (by omega)]
      by_cases hlt : i < l.length
      · obtain ⟨e, he, -, htext⟩ := h.entries i hlt
        simp only [if_pos hlt, Option.bind_eq_bind, Option.bind_some, he, htext]
        by_cases heq : w.text str = l[i]
        · rw [if_pos heq, heq, h.nodup.idxOf_getElem i hlt]
        · have hne : i ≠ l.idxOf (w.text str) := by
            intro hi'
            subst hi'
            exact heq (List.getElem_idxOf hlt).symm
          rw [if_neg heq]
          exact ih (i := i + 1) (by omega) (by omega)
      · obtain rfl : i = l.idxOf (w.text str) := by omega
        simp [hlt]

theorem Represents.symAt {i : Nat} (hi : i < l.length) : symAt st (link w i) = some (i + 1) := by
  obtain ⟨e, he, hsym, -⟩ := h.entries i hi
  rw [Symtable.symAt, h.links i (Nat.le_of_lt hi), if_pos hi]
  simp [he, hsym]

theorem Represents.findEntry_head (str : Addr) :
    Symtable.findEntry w st str st.fuel .head = some (link w (l.idxOf (w.text str))) := by
  refine h.findEntry str (i := 0) (Nat.zero_le _) ?_
  rw [SymTable.fuel, h.mallocs]
  exact Nat.lt_succ_self _

/-- A string that is new gets an entry at the end. -/
theorem Represents.append {str : Addr} (hnew : w.text str ∉ l) {st' : SymTable}
    (hst' : Written (entryCreate w { st with next_sym := st.next_sym + 1 } st.next_sym str).1 st'
      (link w l.length) (some (w.malloc l.length))) : Represents w st' (l ++ [w.text str]) := by
  have hlength : (l ++ [w.text str]).length = l.length + 1 := List.length_append
  refine ⟨?_, ?_, ?_, fun i hi => ?_, fun i hi => ?_⟩
  · rw [← intern_of_notMem hnew]
    exact nodup_intern h.nodup _
  · rw [hst'.next_sym, hlength]
    show st.next_sym + 1 = _
    rw [h.next_sym]
    rfl
  · rw [hst'.mallocs, hlength]
    show st.mallocs + 1 = _
    rw [h.mallocs]
  · rw [hlength] at hi ⊢
    by_cases hlast : i = l.length
    · subst hlast
      rw [hst'.self, if_pos (Nat.lt_succ_self _)]
    · rw [hst'.others _ (link_ne w hlast)]
      by_cases hend : i = l.length + 1
      · subst hend
        rw [if_neg (Nat.lt_irrefl _), ← h.mallocs]
        exact entryCreate_read_new ..
      · have hne : link w i ≠ link w (st.mallocs + 1) := by
          rw [h.mallocs]
          exact link_ne w hend
        refine (entryCreate_read { st with next_sym := st.next_sym + 1 } _ _ hne).trans ?_
        show st.read (link w i) = _
        rw [h.links i (by omega), if_pos (by omega), if_pos (by omega)]
  · rw [hlength] at hi
    by_cases hlast : i = l.length
    · subst hlast
      obtain ⟨e, he, hsym, hstr⟩ := hst'.entries (w.malloc l.length) ⟨st.next_sym, str, none⟩ (by
        simp [entryCreate, SymTable.setEntry, h.mallocs])
      refine ⟨e, he, hsym.trans h.next_sym, ?_⟩
      simp [hstr]
    · have hlt : i < l.length := by omega
      obtain ⟨e, he, hsym, htext⟩ := h.entries i hlt
      have hsame : i ≠ st.mallocs := by
        rw [h.mallocs]
        exact hlast
      obtain ⟨e', he', hsym', hstr⟩ := hst'.entries (w.malloc i) e
        ((entryCreate_entries _ _ _ hsame).trans he)
      refine ⟨e', he', hsym'.trans hsym, ?_⟩
      rw [hstr, htext, List.getElem_append_left hlt]

/-- **`pup_str_to_sym` numbers the strings.** -/
theorem Represents.strToSym (str : Addr)
    (hroom : ((intern l (w.text str)).length : Int) < INT_MAX) :
    ∃ st', pupStrToSym w st str =
        some (st', (number (intern l (w.text str)) (w.text str) : Int)) ∧
      Represents w st' (intern l (w.text str)) := by
  have hfind := h.findEntry_head str
  unfold pupStrToSym
  by_cases hmem : w.text str ∈ l
  · have hlt : l.idxOf (w.text str) < l.length := List.idxOf_lt_length_of_mem hmem
    rw [intern_of_mem hmem]
    refine ⟨st, ?_, h⟩
    simp [hfind, h.links _ (Nat.le_of_lt hlt), hlt, h.symAt hlt, number]
  · have hidx : l.idxOf (w.text str) = l.length := List.idxOf_eq_length hmem
    have hread : st.read (link w l.length) = some none := by
      simpa using h.links l.length (Nat.le_refl _)
    have hnum : number (intern l (w.text str)) (w.text str) = l.length + 1 := number_self hmem
    rw [hnum]
    rw [intern_of_notMem hmem] at hroom ⊢
    have hinc : increment st.next_sym = some (st.next_sym + 1) := by
      rw [increment, if_pos]
      simp at hroom
      rw [h.next_sym]
      omega
    have hne : link w l.length ≠ link w (st.mallocs + 1) := by
      rw [h.mallocs]
      exact link_ne w (Nat.ne_of_lt (Nat.lt_succ_self _))
    have hcreated :=
      (entryCreate_read { st with next_sym := st.next_sym + 1 } st.next_sym str hne).trans hread
    obtain ⟨st', hwrite, hst'⟩ := write_ok hcreated (some (w.malloc l.length))
    have hrep := h.append hmem hst'
    refine ⟨st', ?_, hrep⟩
    have hsym := hrep.symAt (i := l.length) (by simp)
    have hentry : (entryCreate w { st with next_sym := st.next_sym + 1 } st.next_sym str).2 =
        w.malloc l.length := by
      rw [← h.mallocs]
      rfl
    simp only [hfind, hidx, hread, hinc, hentry, hwrite, hsym, Option.bind_eq_bind,
      Option.bind_some]
    simp

/-- **`pup_get_sym` succeeds for the strings that have a number.** -/
theorem Represents.getSym (str : Addr) : pupGetSym w st str =
    some (if w.text str ∈ l then some (number l (w.text str) : Int) else none) := by
  unfold pupGetSym
  by_cases hmem : w.text str ∈ l
  · have hlt : l.idxOf (w.text str) < l.length := List.idxOf_lt_length_of_mem hmem
    simp [h.findEntry_head, h.links _ (Nat.le_of_lt hlt), hlt, h.symAt hlt, hmem, number]
  · simp [h.findEntry_head, h.links l.length (Nat.le_refl _), hmem]

/-- The loop of `pup_sym_to_str`, from the entry number `i + 1` on. -/
theorem Represents.symToStr_from (sym : Int) {fuel i : Nat} (hi : i ≤ l.length)
    (hfuel : l.length < fuel + i) :
    ∃ r, symToStr st sym fuel (if i < l.length then some (w.malloc i) else none) = some r ∧
      (∀ j (hj : j < l.length), i ≤ j → (j : Int) + 1 = sym →
        ∃ p, r = some p ∧ w.text p = l[j]) ∧
      ((∀ j < l.length, i ≤ j → (j : Int) + 1 ≠ sym) → r = none) := by
  induction fuel generalizing i with
  | zero => omega
  | succ fuel ih =>
      by_cases hlt : i < l.length
      · obtain ⟨e, he, hsym, htext⟩ := h.entries i hlt
        have hnext : e.next = if i + 1 < l.length then some (w.malloc (i + 1)) else none := by
          have hlink := h.links (i + 1) hlt
          rw [link, SymTable.read, he] at hlink
          exact Option.some.inj hlink
        rw [if_pos hlt, Symtable.symToStr, he]
        simp only [Option.bind_eq_bind, Option.bind_some, hsym]
        by_cases heq : (i : Int) + 1 = sym
        · refine ⟨_, if_pos heq, fun j hj _ hjsym => ?_, fun hnone => absurd heq (hnone i hlt (Nat.le_refl i))⟩
          obtain rfl : j = i := by omega
          exact ⟨e.str, rfl, htext⟩
        · rw [if_neg heq, hnext]
          obtain ⟨r, hr, hfound, hnone⟩ := ih (i := i + 1) hlt (by omega)
          refine ⟨r, hr, fun j hj hij hjsym => ?_, fun hall => hnone fun j hj hij => ?_⟩
          · refine hfound j hj (Nat.lt_of_le_of_ne hij ?_) hjsym
            rintro rfl
            exact heq hjsym
          · exact hall j hj (Nat.le_of_succ_le hij)
      · rw [if_neg hlt]
        exact ⟨none, rfl, fun j hj hij => absurd (Nat.lt_of_le_of_lt hij hj) hlt, fun _ => rfl⟩

/-- **`pup_sym_to_str` goes back from the numbers to the strings.** -/
theorem Represents.symToStr (sym : Int) : ∃ r, pupSymToStr st sym = some r ∧
    (∀ t ∈ l, (number l t : Int) = sym → ∃ p, r = some p ∧ w.text p = t) ∧
    ((∀ t ∈ l, (number l t : Int) ≠ sym) → r = none) := by
  have hhead : st.head = if 0 < l.length then some (w.malloc 0) else none :=
    Option.some.inj (h.links 0 (Nat.zero_le _))
  have hfuel : l.length < st.fuel + 0 := by
    rw [SymTable.fuel, h.mallocs]
    exact Nat.lt_succ_self _
  obtain ⟨r, hr, hfound, hnone⟩ := h.symToStr_from sym (Nat.zero_le _) hfuel
  refine ⟨r, ?_, fun t ht hnum => ?_, fun hall => hnone fun j hj _ heq => ?_⟩
  · rw [pupSymToStr, hhead]
    exact hr
  · have hlt : l.idxOf t < l.length := List.idxOf_lt_length_of_mem ht
    obtain ⟨p, hp, htext⟩ := hfound (l.idxOf t) hlt (Nat.zero_le _) hnum
    exact ⟨p, hp, htext.trans (List.getElem_idxOf hlt)⟩
  · refine hall l[j] (List.getElem_mem hj) ?_
    rw [number_getElem h.nodup hj]
    exact heq

end Represents

/-! ### Histories -/

/-- The table has numbered what has been interned so far. -/
structure Logged (w : World) (st : SymTable) (l : List String) (log : List (Call × Option Int)) :
    Prop where
  represents : Represents w st l
  symbols : ∀ str r, (Call.strToSym str, r) ∈ log →
    w.text str ∈ l ∧ r = some (number l (w.text str) : Int)
  handed : ∀ t ∈ l, ∃ str, (Call.strToSym str, some (number l t : Int)) ∈ log ∧ w.text str = t

theorem logged_create : Logged w pupSymTableCreate [] [] :=
  ⟨represents_create, fun _ _ h => by simp at h, fun _ h => by simp at h⟩

/-- One call, and what is in the log after it. -/
theorem Logged.call {st : SymTable} {l : List String} {log : List (Call × Option Int)}
    (h : Logged w st l log) (c : Call)
    (hroom : ((internAll l (interned w [c])).length : Int) < INT_MAX) :
    ∃ st' r, call w st c = some (st', r) ∧
      Logged w st' (internAll l (interned w [c])) (log ++ [(c, r)]) := by
  cases c with
  | strToSym str =>
      have hinterned : internAll l (interned w [.strToSym str]) = intern l (w.text str) := rfl
      rw [hinterned] at hroom ⊢
      obtain ⟨st', hrun, hrep⟩ := h.represents.strToSym str hroom
      refine ⟨st', _, by rw [Symtable.call, hrun]; rfl, hrep, fun str' r hlog => ?_, fun t ht => ?_⟩
      · rcases List.mem_append.mp hlog with hold | hnew
        · obtain ⟨hmem, hr⟩ := h.symbols str' r hold
          exact ⟨mem_intern.mpr (.inl hmem), by rw [number_intern hmem, hr]⟩
        · obtain ⟨hstr, hr⟩ := Prod.mk.inj (List.mem_singleton.mp hnew)
          obtain rfl := Call.strToSym.inj hstr
          exact ⟨mem_intern.mpr (.inr rfl), hr⟩
      · by_cases hmem : t ∈ l
        · obtain ⟨str', hlog, htext⟩ := h.handed t hmem
          rw [number_intern hmem]
          exact ⟨str', List.mem_append_left _ hlog, htext⟩
        · obtain rfl := (mem_intern.mp ht).resolve_left hmem
          exact ⟨str, by simp, rfl⟩
  | getSym str =>
      have hinterned : internAll l (interned w [.getSym str]) = l := rfl
      rw [hinterned]
      refine ⟨st, _, by rw [Symtable.call, h.represents.getSym]; rfl, h.represents,
        fun str' r hlog => h.symbols str' r ?_, fun t ht => ?_⟩
      · simpa using hlog
      · obtain ⟨str', hlog, htext⟩ := h.handed t ht
        exact ⟨str', List.mem_append_left _ hlog, htext⟩

theorem interned_cons (w : World) (c : Call) (rest : List Call) :
    interned w (c :: rest) = interned w [c] ++ interned w rest := by
  cases c <;> rfl

theorem Logged.history {st : SymTable} {l : List String} {log : List (Call × Option Int)}
    (h : Logged w st l log) (calls : List Call)
    (hroom : ((internAll l (interned w calls)).length : Int) < INT_MAX) :
    ∃ st' log', history w st calls = some (st', log') ∧ log'.map Prod.fst = calls ∧
      Logged w st' (internAll l (interned w calls)) (log ++ log') := by
  induction calls generalizing st l log with
  | nil =>
      refine ⟨st, [], rfl, rfl, ?_⟩
      rw [List.append_nil]
      exact h
  | cons c rest ih =>
      have hall : internAll l (interned w (c :: rest)) =
          internAll (internAll l (interned w [c])) (interned w rest) := by
        rw [interned_cons]
        exact List.foldl_append
      rw [hall] at hroom ⊢
      have hle := length_le_internAll (internAll l (interned w [c])) (interned w rest)
      obtain ⟨st₁, r, hcall, h₁⟩ := h.call c (by omega)
      obtain ⟨st', log', hrest, hcalls, h'⟩ := ih h₁ hroom
      refine ⟨st', (c, r) :: log', ?_, by rw [List.map_cons, hcalls], ?_⟩
      · simp [Symtable.history, hcall, hrest]
      · simpa using h'

/--
**Symbols and strings are in bijection.**  After every sequence of calls on a new table
with fewer than `INT_MAX` different strings to intern: all calls have returned; every
symbol is positive, and two calls have got the same symbol exactly if their strings are
equal; `pup_sym_to_str` returns a string equal to the one interned, and null for a symbol
that was not handed out; and `pup_get_sym` returns the symbol that was handed out for the
string, if there is one, and leaves the table as it is.
-/
theorem symbols_bijective (w : World) (calls : List Call)
    (hfew : ((interned w calls).dedup.length : Int) < INT_MAX) :
    ∃ st log, history w pupSymTableCreate calls = some (st, log) ∧ log.map Prod.fst = calls ∧
      (∀ str r, (.strToSym str, r) ∈ log → ∃ sym, r = some sym ∧ 0 < sym) ∧
      (∀ str₁ sym₁ str₂ sym₂, (.strToSym str₁, some sym₁) ∈ log →
        (.strToSym str₂, some sym₂) ∈ log → (sym₁ = sym₂ ↔ w.text str₁ = w.text str₂)) ∧
      (∀ sym, ∃ r, pupSymToStr st sym = some r ∧
        (∀ str, (.strToSym str, some sym) ∈ log → ∃ p, r = some p ∧ w.text p = w.text str) ∧
        ((∀ str, (.strToSym str, some sym) ∉ log) → r = none)) ∧
      ∀ str, ∃ r, call w st (.getSym str) = some (st, r) ∧
        ∀ sym, r = some sym ↔
          ∃ str', (.strToSym str', some sym) ∈ log ∧ w.text str' = w.text str := by
  have hlength : ((internAll [] (interned w calls)).length : Int) ≤
      ((interned w calls).dedup.length : Int) :=
    Int.ofNat_le.mpr (length_internAll_le _)
  obtain ⟨st, log, hrun, hcalls, hlog⟩ :=
    logged_create.history calls (Int.lt_of_le_of_lt hlength hfew)
  rw [List.nil_append] at hlog
  refine ⟨st, log, hrun, hcalls, fun str r hr => ?_, fun str₁ sym₁ str₂ sym₂ h₁ h₂ => ?_,
    fun sym => ?_, fun str => ?_⟩
  · obtain ⟨-, rfl⟩ := hlog.symbols str r hr
    exact ⟨_, rfl, by rw [number]; omega⟩
  · obtain ⟨hmem, hsym₁⟩ := hlog.symbols str₁ _ h₁
    obtain ⟨-, hsym₂⟩ := hlog.symbols str₂ _ h₂
    rw [Option.some.inj hsym₁, Option.some.inj hsym₂, ← number_inj hmem, Int.natCast_inj]
  · obtain ⟨r, hr, hfound, hnone⟩ := hlog.represents.symToStr sym
    refine ⟨r, hr, fun str hstr => ?_, fun hnever => hnone fun t ht hnum => ?_⟩
    · obtain ⟨hmem, hsym⟩ := hlog.symbols str _ hstr
      exact hfound _ hmem (Option.some.inj hsym).symm
    · obtain ⟨str, hhanded, -⟩ := hlog.handed t ht
      exact hnever str (hnum ▸ hhanded)
  · refine ⟨_, by rw [Symtable.call, hlog.represents.getSym]; rfl, fun sym => ⟨fun hr => ?_, fun hex => ?_⟩⟩
    · split at hr
      · rename_i hmem
        obtain ⟨str', hhanded, htext⟩ := hlog.handed _ hmem
        exact ⟨str', Option.some.inj hr ▸ hhanded, htext⟩
      · cases hr
    · obtain ⟨str', hstr', htext⟩ := hex
      obtain ⟨hmem, hsym⟩ := hlog.symbols str' _ hstr'
      rw [htext] at hmem hsym
      rw [if_pos hmem, hsym]

/-- Two copies of one string, and two other strings. -/
def fourStrings : World where
  text a := if a = 2 then "bar" else if a = 3 then "baz" else "foo"
  malloc := id
  malloc_injective := Function.injective_id

/-- The copies get the same symbol, and the string that is only asked for gets none. -/
theorem symbols_bijective_foo :
    (interned fourStrings [.strToSym 0, .strToSym 2, .getSym 3, .strToSym 1]).dedup.length = 2 ∧
      ∃ st log sym, history fourStrings pupSymTableCreate
          [.strToSym 0, .strToSym 2, .getSym 3, .strToSym 1] = some (st, log) ∧
        (.strToSym 0, some sym) ∈ log ∧ (.strToSym 1, some sym) ∈ log ∧
        call fourStrings st (.getSym 3) = some (st, none) := by
  refine ⟨by decide, ?_⟩
  obtain ⟨st, log, hrun, hcalls, hsym, hinj, -, hget⟩ := symbols_bijective fourStrings
    [.strToSym 0, .strToSym 2, .getSym 3, .strToSym 1] (by decide)
  have hlog : ∀ c ∈ [Call.strToSym 0, .strToSym 2, .getSym 3, .strToSym 1],
      ∃ r, (c, r) ∈ log := by
    intro c hc
    rw [← hcalls] at hc
    obtain ⟨⟨c', r⟩, hr, rfl⟩ := List.mem_map.mp hc
    exact ⟨r, hr⟩
  obtain ⟨r₀, h₀⟩ := hlog (.strToSym 0) (by simp)
  obtain ⟨r₁, h₁⟩ := hlog (.strToSym 1) (by simp)
  obtain ⟨sym₀, rfl, -⟩ := hsym 0 r₀ h₀
  obtain ⟨sym₁, rfl, -⟩ := hsym 1 r₁ h₁
  obtain rfl := (hinj 0 sym₀ 1 sym₁ h₀ h₁).mpr rfl
  obtain ⟨r, hcall, hr⟩ := hget 3
  refine ⟨st, log, sym₀, hrun, h₀, h₁, ?_⟩
  cases r with
  | none => exact hcall
  | some sym =>
      -- no string that has been interned is the one at 3
      obtain ⟨str, hstr, htext⟩ := (hr sym).mp rfl
      have hmem : Call.strToSym str ∈ log.map Prod.fst := List.mem_map_of_mem hstr
      rw [hcalls] at hmem
      simp only [List.mem_cons, Call.strToSym.injEq, List.not_mem_nil, reduceCtorEq, or_false,
        false_or] at hmem
      rcases hmem with rfl | rfl | rfl <;> exact absurd htext (by decide)

end Pup.Symtable
