/-
The personality routine of a generated function.

The definitions follow `raise.c`.  The unwinder calls `pupEhPersonality` for every frame,
once in the search phase and once in the cleanup phase, with a context that it sets up from
the frame; what the routine sets in the context comes back with its reason code.

Below them is the language specific data area that a compiler writes: the call sites, each
with the filters of its chain of action records, and the bytes they lie in.  The
encodings of a number are many, so the layout is a relation.  The routine is then seen to
find, for every such area, what its table says about the pc, and to find the same in both
phases.
-/
import Pup.Raise.Encoded
import Mathlib.Data.Fintype.Card
import Mathlib.Data.List.Pairwise

namespace Pup.Raise

open Bytes Leb128

/-! ### The personality -/

/-- The codes of `_Unwind_Reason_Code` that the personality returns. -/
inductive Reason
  | continueUnwind
  | handlerFound
  | installContext
  deriving DecidableEq, Repr

/-- What the personality reads and sets of an `_Unwind_Context`. -/
structure Context where
  ip : BitVec 64
  regionStart : BitVec 64
  languageSpecificData : Ptr
  gr0 : BitVec 64
  gr1 : BitVec 64
  deriving DecidableEq, Repr

def UA_SEARCH_PHASE : BitVec 32 := 1

def pupUnwindclass : BitVec 64 := 0x486F6C7250757000

def isForeignUnwindclass (unwindclass : BitVec 64) : Bool := unwindclass ≠ pupUnwindclass

/-- The parameters of the personality that do not change on the way through the table. -/
structure Request where
  actions : BitVec 32
  unwindclass : BitVec 64
  ueHeader : Ptr
  context : Context

/-- The loop of `handle_action_value`; `i` is its `int`. -/
def actionLoop (readers : Nat) (mem : Bytes.Memory 64) :
    Nat → Ptr → BitVec 32 → Except Fault (Option (BitVec 64))
  | 0, _, _ => .error .outOfFuel
  | fuel + 1, actionPos, i => do
      let (typeOffset, actionPos) ← readSLEB128 readers mem actionPos
      let (actionOffset, _) ← readSLEB128 readers mem actionPos
      if typeOffset.slt 0 then .error .abort
      else if BitVec.slt 0 typeOffset then return some ((i + 1).signExtend 64)
      else if actionOffset = 0 then return none
      else actionLoop readers mem fuel (actionPos + actionOffset) (i + 1)

/-- `handle_action_value`: the result action, if it returns true. -/
def handleActionValue (fuel : Nat) (mem : Bytes.Memory 64) (actionTableEntry : Ptr)
    (exceptionClass : BitVec 64) (exceptionObject : Ptr) : Except Fault (Option (BitVec 64)) :=
  if exceptionObject = 0 ∨ isForeignUnwindclass exceptionClass then .ok none
  else actionLoop fuel mem fuel actionTableEntry 0

structure UnwindCallsite where
  start : BitVec 64
  length : BitVec 64
  landingPad : BitVec 64
  action : BitVec 64
  deriving DecidableEq, Repr

def unwindCallsiteRead (fuel : Nat) (mem : Bytes.Memory 64) (p : Ptr) (encoding : BitVec 8) :
    Except Fault (UnwindCallsite × Ptr) := do
  let (start, p) ← readEncodedPointer fuel mem p encoding
  let (length, p) ← readEncodedPointer fuel mem p encoding
  let (landingPad, p) ← readEncodedPointer fuel mem p encoding
  let (action, p) ← readULEB128 fuel mem p
  return (⟨start, length, landingPad, action⟩, p)

def unwindCallsiteContains (callsite : UnwindCallsite) (pcOffset : BitVec 64) : Bool :=
  callsite.start ≤ pcOffset ∧ pcOffset < callsite.start + callsite.length

/-- `pcOffset` in `handle_lsda`. -/
def pcOffset (context : Context) : BitVec 64 := context.ip - 1 - context.regionStart

/-- `action_table_entry` in the loop of `handle_lsda`. -/
def actionTableEntry (unwindclass : BitVec 64) (actionTableStart : Ptr)
    (callsite : UnwindCallsite) : Ptr :=
  if ¬ isForeignUnwindclass unwindclass ∧ callsite.action ≠ 0 then
    actionTableStart + callsite.action - 1
  else 0

/-- `exceptionMatched` in the loop of `handle_lsda`, with the action value. -/
def exceptionMatched (fuel : Nat) (mem : Bytes.Memory 64) (r : Request) (entry : Ptr) :
    Except Fault (Option (BitVec 64)) :=
  if entry ≠ 0 then handleActionValue fuel mem entry r.unwindclass r.ueHeader else .ok none

/-- The round of the loop for one call site; `none` where it goes on to the next. -/
def handleCallsite (fuel : Nat) (mem : Bytes.Memory 64) (r : Request) (actionTableStart : Ptr)
    (callsite : UnwindCallsite) : Except Fault (Option (Reason × Context)) :=
  if callsite.landingPad = 0 then .ok none
  else
    let entry := actionTableEntry r.unwindclass actionTableStart callsite
    if unwindCallsiteContains callsite (pcOffset r.context) then do
      let matched ← exceptionMatched fuel mem r entry
      if r.actions &&& UA_SEARCH_PHASE = 0 then
        return some (.installContext, { r.context with
          gr0 := r.ueHeader
          gr1 := matched.getD 0
          ip := r.context.regionStart + callsite.landingPad })
      else if matched.isSome then return some (.handlerFound, r.context)
      else return none
    else .ok none

/-- The loop of `handle_lsda`. -/
def callsiteLoop (readers : Nat) (mem : Bytes.Memory 64) (r : Request) (encoding : BitVec 8)
    (tableEnd : Ptr) : Nat → Ptr → Except Fault (Reason × Context)
  | 0, _ => .error .outOfFuel
  | fuel + 1, p =>
      if p < tableEnd then do
        let (callsite, p) ← unwindCallsiteRead readers mem p encoding
        match ← handleCallsite readers mem r tableEnd callsite with
        | some result => return result
        | none => callsiteLoop readers mem r encoding tableEnd fuel p
      else return (.continueUnwind, r.context)

/-- What `handle_lsda` reads before its loop. -/
structure Header where
  callSiteEncoding : BitVec 8
  callSiteTableStart : Ptr
  callSiteTableEnd : Ptr
  deriving DecidableEq, Repr

def skipLpStart (fuel : Nat) (mem : Bytes.Memory 64) (lsda : Ptr) (lpStartEncoding : BitVec 8) :
    Except Fault Ptr :=
  if lpStartEncoding ≠ DW_EH_PE_omit then
    (readEncodedPointer fuel mem lsda lpStartEncoding).map Prod.snd
  else .ok lsda

def skipClassInfoOffset (fuel : Nat) (mem : Bytes.Memory 64) (lsda : Ptr)
    (ttypeEncoding : BitVec 8) : Except Fault Ptr :=
  if ttypeEncoding ≠ DW_EH_PE_omit then (readULEB128 fuel mem lsda).map Prod.snd
  else .ok lsda

def readHeader (fuel : Nat) (mem : Bytes.Memory 64) (lsda : Ptr) : Except Fault Header := do
  let lpStartEncoding ← readByte mem lsda
  let lsda ← skipLpStart fuel mem (lsda + 1) lpStartEncoding
  let ttypeEncoding ← readByte mem lsda
  let lsda ← skipClassInfoOffset fuel mem (lsda + 1) ttypeEncoding
  let callSiteEncoding ← readByte mem lsda
  let (length, lsda) ← readULEB128 fuel mem (lsda + 1)
  -- the length is kept in a `uint32_t`
  return ⟨callSiteEncoding, lsda, lsda + (length.setWidth 32).setWidth 64⟩

def handleLsda (fuel : Nat) (mem : Bytes.Memory 64) (lsda : Ptr) (r : Request) :
    Except Fault (Reason × Context) := do
  let h ← readHeader fuel mem lsda
  callsiteLoop fuel mem r h.callSiteEncoding h.callSiteTableEnd fuel h.callSiteTableStart

def pupEhPersonality (fuel : Nat) (mem : Bytes.Memory 64) (version : Int) (r : Request) :
    Except Fault (Reason × Context) :=
  if version ≠ 1 then .ok (.continueUnwind, r.context)
  else if r.context.languageSpecificData = 0 then .ok (.continueUnwind, r.context)
  else handleLsda fuel mem r.context.languageSpecificData r

/-! ### The area that is written -/

/-- A call site, with the filters of its chain of action records. -/
structure Site where
  start : Nat
  length : Nat
  landingPad : Nat
  action : Nat
  filters : List Nat

def Site.Contains (s : Site) (offset : Nat) : Prop :=
  s.start ≤ offset ∧ offset < s.start + s.length

/-- The fields of a call site are below 2^31. -/
def Site.Small (s : Site) : Prop :=
  s.start < 2 ^ 31 ∧ s.length < 2 ^ 31 ∧ s.landingPad < 2 ^ 31 ∧ s.action < 2 ^ 31

/-- No offset lies in both. -/
def Site.Apart (s s' : Site) : Prop := ∀ offset, ¬ (s.Contains offset ∧ s'.Contains offset)

/-- The chain has a record that catches. -/
def Site.Catches (s : Site) : Prop := ∃ filter ∈ s.filters, 0 < filter

/-- One plus the index of the first record that catches, 0 if there is none. -/
def selector (filters : List Nat) : Nat := (filters.findIdx? (0 < ·)).elim 0 (· + 1)

/-- The bytes at `off` are a filter and then a link, which is at `linkOff`. -/
def RecordAt (actions : List (BitVec 8)) (off filter : Nat) (link : Int) (linkOff : Nat) : Prop :=
  ∃ fs ls, Sleb filter fs ∧ Sleb link ls ∧ fs.length ≤ 4 ∧ ls.length ≤ 4 ∧
    fs ++ ls <+: actions.drop off ∧ linkOff = off + fs.length

/-- The chain of records from `off` on ends, and has these filters. -/
inductive Chain (actions : List (BitVec 8)) : Nat → List Nat → Prop
  | last {off filter linkOff : Nat} : RecordAt actions off filter 0 linkOff →
      Chain actions off [filter]
  | next {off filter linkOff off' : Nat} {link : Int} {filters : List Nat} :
      RecordAt actions off filter link linkOff → link ≠ 0 → linkOff + link = off' →
      Chain actions off' filters → Chain actions off (filter :: filters)

/-- The bytes of a call-site table. -/
inductive Table (encoding : BitVec 8) : List Site → List (BitVec 8) → Prop
  | nil : Table encoding [] []
  | cons {s : Site} {start length landingPad action : List (BitVec 8)} {sites : List Site}
      {bs : List (BitVec 8)} : Encodes encoding s.start start →
      Encodes encoding s.length length → Encodes encoding s.landingPad landingPad →
      Uleb s.action action → Table encoding sites bs →
      Table encoding (s :: sites) (start ++ (length ++ (landingPad ++ (action ++ bs))))

/-- A language specific data area with LPStart omitted. -/
structure Lsda where
  ttypeEncoding : BitVec 8
  ttypeBase : List (BitVec 8)
  callSiteEncoding : BitVec 8
  tableLength : List (BitVec 8)
  sites : List Site
  table : List (BitVec 8)
  actions : List (BitVec 8)

def Lsda.bytes (t : Lsda) : List (BitVec 8) :=
  DW_EH_PE_omit :: t.ttypeEncoding :: (t.ttypeBase ++
    (t.callSiteEncoding :: (t.tableLength ++ (t.table ++ t.actions))))

structure Lsda.WellFormed (t : Lsda) : Prop where
  ttypeBase : if t.ttypeEncoding = DW_EH_PE_omit then t.ttypeBase = []
    else ∃ v < 2 ^ 31, Uleb v t.ttypeBase
  tableLength : Uleb t.table.length t.tableLength
  table : Table t.callSiteEncoding t.sites t.table
  table_lt : t.table.length < 2 ^ 31
  actions_lt : t.actions.length < 2 ^ 31
  small : ∀ s ∈ t.sites, s.Small
  chains : ∀ s ∈ t.sites, if s.action = 0 then s.filters = []
    else Chain t.actions (s.action - 1) s.filters
  disjoint : t.sites.Pairwise Site.Apart

/-! ### Following a chain -/

theorem unsigned_lt_of_length_le {bs : List (BitVec 8)} (h : bs.length ≤ 4) :
    unsigned bs < 2 ^ 28 :=
  lt_of_lt_of_le (unsigned_lt bs) (Nat.pow_le_pow_right (by decide) h)

theorem Sleb.bounds {v : Int} {bs : List (BitVec 8)} (h : Sleb v bs) (hlen : bs.length ≤ 4) :
    -2 ^ 28 ≤ v ∧ v < 2 ^ 28 := by
  obtain ⟨hleb, rfl⟩ := h
  obtain ⟨last, hlast⟩ := Option.ne_none_iff_exists'.mp
    (mt List.getLast?_eq_none_iff.mp hleb.ne_nil)
  have hlt := unsigned_lt_of_length_le hlen
  have hpow : (2 : Int) ^ (7 * bs.length) ≤ 2 ^ 28 :=
    pow_le_pow_right₀ (by decide) (by omega)
  have hpos : (0 : Int) < 2 ^ (7 * bs.length) := by positivity
  rw [signed_last hlast]
  split
  · omega
  · omega

/-- Two records at one place are the same. -/
theorem RecordAt.unique {actions : List (BitVec 8)} {off filter filter' linkOff linkOff' : Nat}
    {link link' : Int} (h : RecordAt actions off filter link linkOff)
    (h' : RecordAt actions off filter' link' linkOff') :
    filter = filter' ∧ link = link' ∧ linkOff = linkOff' := by
  obtain ⟨fs, ls, hf, hl, -, -, hp, rfl⟩ := h
  obtain ⟨fs', ls', hf', hl', -, -, hp', rfl⟩ := h'
  obtain rfl : fs = fs' := hf.1.unique hf'.1 ((List.prefix_append fs ls).trans hp)
    ((List.prefix_append fs' ls').trans hp')
  obtain ⟨rest, hrest⟩ := hp
  rw [← hrest, List.append_assoc, List.prefix_append_right_inj] at hp'
  obtain rfl : ls = ls' := hl.1.unique hl'.1 (List.prefix_append ls rest) hp'
  refine ⟨Int.ofNat.inj (hf.2.symm.trans hf'.2), hl.2.symm.trans hl'.2, rfl⟩

theorem RecordAt.off_lt {actions : List (BitVec 8)} {off filter linkOff : Nat} {link : Int}
    (h : RecordAt actions off filter link linkOff) : off < actions.length := by
  obtain ⟨fs, ls, hf, -, -, -, hp, -⟩ := h
  have hlen := hp.length_le
  have hpos := List.length_pos_of_ne_nil hf.1.ne_nil
  rw [List.length_append, List.length_drop] at hlen
  omega

theorem Chain.unique {actions : List (BitVec 8)} {off : Nat} {filters filters' : List Nat}
    (h : Chain actions off filters) (h' : Chain actions off filters') : filters = filters' := by
  induction h generalizing filters' with
  | last hr =>
      cases h' with
      | last hr' => rw [(hr.unique hr').1]
      | next hr' hlink => exact absurd (hr.unique hr').2.1.symm hlink
  | next hr hlink hoff _ ih =>
      cases h' with
      | last hr' => exact absurd (hr.unique hr').2.1 hlink
      | next hr' _ hoff' hchain =>
          obtain ⟨rfl, rfl, rfl⟩ := hr.unique hr'
          obtain rfl := Int.ofNat.inj (hoff.symm.trans hoff')
          rw [ih hchain]

/-- Every rest of a chain is a chain. -/
theorem Chain.drop {actions : List (BitVec 8)} {off : Nat} {filters : List Nat}
    (h : Chain actions off filters) {k : Nat} (hk : k < filters.length) :
    ∃ off' < actions.length, Chain actions off' (filters.drop k) := by
  induction h generalizing k with
  | last hr =>
      obtain rfl : k = 0 := by simpa using hk
      exact ⟨_, hr.off_lt, .last hr⟩
  | next hr hlink hoff hchain ih =>
      cases k with
      | zero => exact ⟨_, hr.off_lt, .next hr hlink hoff hchain⟩
      | succ k => exact ih (Nat.lt_of_succ_lt_succ hk)

/-- No record of a chain is met twice, so that its length is bounded by the table's. -/
theorem Chain.length_le {actions : List (BitVec 8)} {off : Nat} {filters : List Nat}
    (h : Chain actions off filters) : filters.length ≤ actions.length := by
  choose place hlt hchain using fun k : Fin filters.length => h.drop k.isLt
  have hinj : Function.Injective fun k => (⟨place k, hlt k⟩ : Fin actions.length) := by
    intro k k' heq
    have hsame : place k = place k' := Fin.val_eq_of_eq heq
    have hrest := congrArg List.length ((hchain k).unique (hsame ▸ hchain k'))
    rw [List.length_drop, List.length_drop] at hrest
    exact Fin.ext (by omega)
  simpa using Fintype.card_le_of_injective _ hinj

theorem Chain.off_lt {actions : List (BitVec 8)} {off : Nat} {filters : List Nat}
    (h : Chain actions off filters) : off < actions.length := by
  cases h with
  | last hr => exact hr.off_lt
  | next hr => exact hr.off_lt

theorem RecordAt.read {actions : List (BitVec 8)} {off filter linkOff : Nat} {link : Int}
    (h : RecordAt actions off filter link linkOff) {mem : Bytes.Memory 64} {table : Ptr}
    (hmem : Holds mem table actions) {fuel : Nat} (hfuel : actions.length ≤ fuel) :
    readSLEB128 fuel mem (table + BitVec.ofNat 64 off) =
        .ok (BitVec.ofInt 64 filter, table + BitVec.ofNat 64 linkOff) ∧
      ∃ next, readSLEB128 fuel mem (table + BitVec.ofNat 64 linkOff) =
        .ok (BitVec.ofInt 64 link, next) := by
  have hoff := h.off_lt
  obtain ⟨fs, ls, hf, hl, hflen, hllen, hp, rfl⟩ := h
  have hlen := hp.length_le
  rw [List.length_append, List.length_drop] at hlen
  rw [← List.take_append_drop off actions, holds_append, List.length_take,
    Nat.min_eq_left hoff.le] at hmem
  have hrecord := holds_append.mp (hmem.2.mono hp)
  have hlink := hrecord.2
  rw [BitVec.add_assoc, ← BitVec.ofNat_add] at hlink
  refine ⟨?_, _, readSLEB128_eq hl hllen (by omega) hlink⟩
  rw [readSLEB128_eq hf hflen (by omega) hrecord.1, BitVec.add_assoc, ← BitVec.ofNat_add]

theorem toInt_ofInt_small {v : Int} (h : -2 ^ 28 ≤ v ∧ v < 2 ^ 28) :
    (BitVec.ofInt 64 v).toInt = v := by
  rw [BitVec.toInt_ofInt]
  exact Int.bmod_eq_of_le (by omega) (by omega)

theorem RecordAt.bounds {actions : List (BitVec 8)} {off filter linkOff : Nat} {link : Int}
    (h : RecordAt actions off filter link linkOff) :
    ((BitVec.ofInt 64 filter).slt 0 = false ∧
      (BitVec.slt 0 (BitVec.ofInt 64 filter) ↔ 0 < filter)) ∧
      (BitVec.ofInt 64 link = 0 ↔ link = 0) := by
  obtain ⟨fs, ls, hf, hl, hflen, hllen, -, -⟩ := h
  have hfilter := toInt_ofInt_small (Sleb.bounds hf hflen)
  have hlink := toInt_ofInt_small (Sleb.bounds hl hllen)
  refine ⟨⟨?_, ?_⟩, ?_⟩
  · rw [BitVec.slt, hfilter]
    simp
  · rw [BitVec.slt, hfilter]
    simp
  · refine ⟨fun h0 => ?_, fun h0 => by rw [h0]; rfl⟩
    rw [← hlink, h0]
    rfl

/-- An index that fits into an `int` is not changed by its conversion. -/
theorem signExtend_index {n : Nat} (h : n + 1 < 2 ^ 31) :
    (BitVec.ofNat 32 n + 1).signExtend 64 = BitVec.ofNat 64 (n + 1) := by
  have hvalue : (BitVec.ofNat 32 n + 1).toNat = n + 1 := by
    rw [BitVec.toNat_add, BitVec.toNat_ofNat]
    exact (Nat.mod_add_mod n (2 ^ 32) 1).trans (Nat.mod_eq_of_lt (by omega))
  rw [BitVec.signExtend_eq_setWidth_of_msb_false]
  · refine BitVec.eq_of_toNat_eq ?_
    rw [BitVec.toNat_setWidth, hvalue, BitVec.toNat_ofNat]
  · rw [BitVec.msb_eq_false_iff_two_mul_lt, hvalue]
    omega

/-- **The loop stops at the first record that catches.** -/
theorem actionLoop_eq {actions : List (BitVec 8)} {off : Nat} {filters : List Nat}
    (h : Chain actions off filters) {mem : Bytes.Memory 64} {table : Ptr}
    (hmem : Holds mem table actions) {readers fuel n : Nat} (hreaders : actions.length ≤ readers)
    (hfuel : filters.length ≤ fuel) (hn : n + filters.length < 2 ^ 31) :
    actionLoop readers mem fuel (table + BitVec.ofNat 64 off) (BitVec.ofNat 32 n) =
      .ok ((filters.findIdx? (0 < ·)).map fun k => BitVec.ofNat 64 (n + k + 1)) := by
  induction h generalizing fuel n with
  | @last off filter linkOff hr =>
      obtain ⟨fuel, rfl⟩ := Nat.exists_eq_succ_of_ne_zero (Nat.ne_of_gt hfuel)
      obtain ⟨hfilter, next, hlink⟩ := hr.read hmem hreaders
      obtain ⟨⟨hneg, hpos⟩, hzero⟩ := hr.bounds
      simp only [actionLoop, hfilter, hlink, bind, Except.bind, pure, Except.pure, hneg, hpos,
        hzero, Bool.false_eq_true, if_false]
      by_cases hcatch : 0 < filter
      · rw [if_pos hcatch, signExtend_index hn]
        simp [List.findIdx?_cons, hcatch]
      · rw [if_neg hcatch, if_pos trivial]
        simp [List.findIdx?_cons, hcatch]
  | @next off filter linkOff off' link filters hr hlink0 hoff hchain ih =>
      obtain ⟨fuel, rfl⟩ := Nat.exists_eq_succ_of_ne_zero (Nat.ne_zero_of_lt hfuel)
      obtain ⟨hfilter, next, hlink⟩ := hr.read hmem hreaders
      obtain ⟨⟨hneg, hpos⟩, hzero⟩ := hr.bounds
      rw [List.length_cons] at hfuel hn
      simp only [actionLoop, hfilter, hlink, bind, Except.bind, pure, Except.pure, hneg, hpos,
        hzero, Bool.false_eq_true, if_false, hlink0]
      by_cases hcatch : 0 < filter
      · rw [if_pos hcatch, signExtend_index (by omega)]
        simp [List.findIdx?_cons, hcatch]
      · have hstep : table + BitVec.ofNat 64 linkOff + BitVec.ofInt 64 link =
            table + BitVec.ofNat 64 off' := by
          rw [BitVec.add_assoc, ← BitVec.ofInt_natCast, ← BitVec.ofInt_natCast,
            ← BitVec.ofInt_add, hoff]
        have hi : BitVec.ofNat 32 n + 1 = BitVec.ofNat 32 (n + 1) := (BitVec.ofNat_add n 1).symm
        rw [if_neg hcatch, hstep, hi, ih (by omega) (by omega)]
        simp only [List.findIdx?_cons, hcatch, decide_false, Bool.false_eq_true, if_false,
          Option.map_map]
        congr 2
        funext k
        simp only [Function.comp_apply]
        congr 1
        omega

/-! ### Walking the table -/

/-- What is read for a call site. -/
def Site.callsite (s : Site) : UnwindCallsite where
  start := BitVec.ofNat 64 s.start
  length := BitVec.ofNat 64 s.length
  landingPad := BitVec.ofNat 64 s.landingPad
  action := BitVec.ofNat 64 s.action

/-- The frame as it resumes at the landing pad of a call site. -/
def installed (r : Request) (s : Site) : Context :=
  { r.context with
    gr0 := r.ueHeader
    gr1 := BitVec.ofNat 64 (selector s.filters)
    ip := r.context.regionStart + BitVec.ofNat 64 s.landingPad }

instance (s : Site) (offset : Nat) : Decidable (s.Contains offset) :=
  inferInstanceAs (Decidable (_ ∧ _))

instance (s : Site) : Decidable s.Catches := inferInstanceAs (Decidable (∃ _ ∈ _, _))

/-- What the table says of a pc in a call site. -/
def verdict (r : Request) (s : Site) : Option (Reason × Context) :=
  if s.landingPad = 0 ∨ ¬ s.Contains (pcOffset r.context).toNat then none
  else if r.actions &&& UA_SEARCH_PHASE = 0 then some (.installContext, installed r s)
  else if s.Catches then some (.handlerFound, r.context)
  else none

theorem ofNat_eq_zero {n : Nat} (h : n < 2 ^ 31) : BitVec.ofNat 64 n = 0 ↔ n = 0 := by
  rw [← BitVec.toNat_inj, BitVec.toNat_ofNat, Nat.mod_eq_of_lt (by omega)]
  rfl

theorem contains_eq {s : Site} (h : s.Small) (x : BitVec 64) :
    unwindCallsiteContains s.callsite x = decide (s.Contains x.toNat) := by
  obtain ⟨hstart, hlength, -⟩ := h
  have hx := x.isLt
  refine decide_eq_decide.mpr ?_
  simp only [Site.callsite, Site.Contains, BitVec.le_def, BitVec.lt_def, BitVec.toNat_add,
    BitVec.toNat_ofNat]
  omega

theorem matched_isSome (s : Site) :
    ((s.filters.findIdx? (0 < ·)).map fun k => BitVec.ofNat 64 (0 + k + 1)).isSome ↔
      s.Catches := by
  simp [Site.Catches]

theorem matched_getD (filters : List Nat) :
    ((filters.findIdx? (0 < ·)).map fun k => BitVec.ofNat 64 (0 + k + 1)).getD 0 =
      BitVec.ofNat 64 (selector filters) := by
  rw [selector]
  cases filters.findIdx? (0 < ·) with
  | none => rfl
  | some k => simp

theorem entry_ne_zero {tableEnd : Ptr} {size action : Nat} (hend : tableEnd.toNat ≠ 0)
    (hwrap : tableEnd.toNat + size < 2 ^ 64) (haction : action < size) :
    tableEnd + BitVec.ofNat 64 action ≠ 0 := by
  intro h
  have := congrArg BitVec.toNat h
  rw [BitVec.toNat_add, BitVec.toNat_ofNat, Nat.mod_eq_of_lt (show action < 2 ^ 64 by omega),
    Nat.mod_eq_of_lt (by omega)] at this
  exact hend (Nat.eq_zero_of_add_eq_zero_right this)

/-- The records of a call site are looked at if there are any. -/
theorem matched_eq {mem : Bytes.Memory 64} {r : Request} {actions : List (BitVec 8)} {s : Site}
    {tableEnd : Ptr} {fuel : Nat} (hclass : r.unwindclass = pupUnwindclass)
    (hheader : r.ueHeader ≠ 0) (hs : s.Small) (hmem : Holds mem tableEnd actions)
    (hend : tableEnd.toNat ≠ 0) (hwrap : tableEnd.toNat + actions.length < 2 ^ 64)
    (hactions : actions.length < 2 ^ 31)
    (hchain : if s.action = 0 then s.filters = [] else Chain actions (s.action - 1) s.filters)
    (hfuel : actions.length ≤ fuel) :
    exceptionMatched fuel mem r (actionTableEntry r.unwindclass tableEnd s.callsite) =
      .ok ((s.filters.findIdx? (0 < ·)).map fun k => BitVec.ofNat 64 (0 + k + 1)) := by
  have hnative : isForeignUnwindclass r.unwindclass = false := by
    simp [isForeignUnwindclass, hclass]
  by_cases haction : s.action = 0
  · rw [if_pos haction] at hchain
    simp [exceptionMatched, actionTableEntry, Site.callsite, haction, hchain]
  · rw [if_neg haction] at hchain
    have hentry : actionTableEntry r.unwindclass tableEnd s.callsite =
        tableEnd + BitVec.ofNat 64 (s.action - 1) := by
      have hne : BitVec.ofNat 64 s.action ≠ 0 := mt (ofNat_eq_zero hs.2.2.2).mp haction
      have hsub : BitVec.ofNat 64 s.action = BitVec.ofNat 64 (s.action - 1) + 1 := by
        rw [show (1 : BitVec 64) = BitVec.ofNat 64 1 from rfl, ← BitVec.ofNat_add,
          Nat.sub_add_cancel (Nat.pos_of_ne_zero haction)]
      rw [actionTableEntry, if_pos ⟨by simp [hnative], hne⟩]
      simp only [Site.callsite]
      rw [hsub, ← BitVec.add_assoc, BitVec.add_sub_cancel]
    have hlen := hchain.length_le
    have hoff := hchain.off_lt
    have hknown : ¬ (r.ueHeader = 0 ∨ isForeignUnwindclass r.unwindclass) := by
      rw [hnative]
      exact not_or.mpr ⟨hheader, Bool.false_ne_true⟩
    rw [exceptionMatched, hentry, if_pos (entry_ne_zero hend hwrap hoff), handleActionValue,
      if_neg hknown]
    exact actionLoop_eq (n := 0) hchain hmem hfuel (hlen.trans hfuel) (by omega)

/-- **A call site is handled as its table entry says.** -/
theorem handleCallsite_eq {mem : Bytes.Memory 64} {r : Request} {s : Site} {tableEnd : Ptr}
    {fuel : Nat} (hs : s.Small)
    (hmatched : exceptionMatched fuel mem r
        (actionTableEntry r.unwindclass tableEnd s.callsite) =
      .ok ((s.filters.findIdx? (0 < ·)).map fun k => BitVec.ofNat 64 (0 + k + 1))) :
    handleCallsite fuel mem r tableEnd s.callsite = .ok (verdict r s) := by
  have hpad : s.callsite.landingPad = 0 ↔ s.landingPad = 0 := ofNat_eq_zero hs.2.2.1
  simp only [handleCallsite, hmatched, contains_eq hs, hpad, verdict, matched_getD,
    matched_isSome, bind, Except.bind, pure, Except.pure, decide_eq_true_eq]
  by_cases hzero : s.landingPad = 0
  · rw [if_pos hzero, if_pos (Or.inl hzero)]
  by_cases hcontains : s.Contains (pcOffset r.context).toNat
  · have hin : ¬ (s.landingPad = 0 ∨ ¬ s.Contains (pcOffset r.context).toNat) := by
      rintro (h | h)
      · exact hzero h
      · exact h hcontains
    rw [if_neg hzero, if_pos hcontains, if_neg hin]
    by_cases hphase : r.actions &&& UA_SEARCH_PHASE = 0
    · rw [if_pos hphase, if_pos hphase]
      rfl
    · rw [if_neg hphase, if_neg hphase]
      by_cases hcatch : s.Catches
      · rw [if_pos hcatch, if_pos hcatch]
      · rw [if_neg hcatch, if_neg hcatch]
  · rw [if_neg hzero, if_neg hcontains, if_pos (Or.inr hcontains)]

theorem unwindCallsiteRead_eq {mem : Bytes.Memory 64} {encoding : BitVec 8} {s : Site}
    {start length landingPad action bs : List (BitVec 8)} {p : Ptr} {fuel : Nat}
    (hstart : Encodes encoding s.start start) (hlength : Encodes encoding s.length length)
    (hpad : Encodes encoding s.landingPad landingPad) (haction : Uleb s.action action)
    (hs : s.Small) (hfuel : (start ++ (length ++ (landingPad ++ action))).length ≤ fuel)
    (hmem : Holds mem p (start ++ (length ++ (landingPad ++ (action ++ bs))))) :
    ∃ q, unwindCallsiteRead fuel mem p encoding = .ok (s.callsite, q) ∧ Holds mem q bs ∧
      q = p + BitVec.ofNat 64 (start ++ (length ++ (landingPad ++ action))).length := by
  obtain ⟨hs1, hs2, hs3, hs4⟩ := hs
  simp only [List.length_append] at hfuel
  simp only [holds_append] at hmem
  obtain ⟨hm1, hm2, hm3, hm4, hrest⟩ := hmem
  have h1 := readEncodedPointer_eq hstart hs1 (show start.length ≤ fuel by omega) hm1
  have h2 := readEncodedPointer_eq hlength hs2 (show length.length ≤ fuel by omega) hm2
  have h3 := readEncodedPointer_eq hpad hs3 (show landingPad.length ≤ fuel by omega) hm3
  have h4 := readULEB128_eq haction hs4 (show action.length ≤ fuel by omega) hm4
  refine ⟨_, ?_, hrest, ?_⟩
  · simp only [unwindCallsiteRead, h1, h2, h3, h4, bind, Except.bind, pure, Except.pure]
    rfl
  · simp only [List.length_append, BitVec.ofNat_add, BitVec.add_assoc]

theorem Table.length_le {encoding : BitVec 8} {sites : List Site} {bs : List (BitVec 8)}
    (h : Table encoding sites bs) : sites.length ≤ bs.length := by
  induction h with
  | nil => exact Nat.le_refl 0
  | cons _ _ _ haction _ ih =>
      have := List.length_pos_of_ne_nil haction.1.ne_nil
      simp only [List.length_cons, List.length_append]
      omega

/-- **The loop returns what the first call site with a verdict says.** -/
theorem callsiteLoop_eq {mem : Bytes.Memory 64} {r : Request} {encoding : BitVec 8}
    {sites : List Site} {bs : List (BitVec 8)} (h : Table encoding sites bs) {tableEnd : Ptr}
    {readers : Nat} (hreaders : bs.length ≤ readers)
    (hsite : ∀ s ∈ sites, s.Small ∧
      handleCallsite readers mem r tableEnd s.callsite = .ok (verdict r s))
    {p : Ptr} (hmem : Holds mem p bs) (hend : p.toNat + bs.length = tableEnd.toNat)
    {fuel : Nat} (hfuel : sites.length < fuel) :
    callsiteLoop readers mem r encoding tableEnd fuel p =
      .ok ((sites.findSome? (verdict r)).getD (.continueUnwind, r.context)) := by
  induction h generalizing fuel p with
  | nil =>
      obtain ⟨fuel, rfl⟩ := Nat.exists_eq_succ_of_ne_zero (Nat.ne_of_gt hfuel)
      have hdone : ¬ p < tableEnd := by
        rw [BitVec.lt_def, ← hend]
        exact Nat.lt_irrefl _
      rw [callsiteLoop, if_neg hdone]
      rfl
  | @cons s start length landingPad action sites bs hstart hlength hpad haction hrest ih =>
      obtain ⟨fuel, rfl⟩ := Nat.exists_eq_succ_of_ne_zero (Nat.ne_zero_of_lt hfuel)
      obtain ⟨⟨hsmall, hhandle⟩, hsites⟩ := List.forall_mem_cons.mp hsite
      have hpos := List.length_pos_of_ne_nil haction.1.ne_nil
      simp only [List.length_append] at hend hreaders
      have hmore : p < tableEnd := by
        rw [BitVec.lt_def, ← hend]
        omega
      have hfields : (start ++ (length ++ (landingPad ++ action))).length ≤ readers := by
        simp only [List.length_append]
        omega
      obtain ⟨q, hread, hmem', hq⟩ :=
        unwindCallsiteRead_eq hstart hlength hpad haction hsmall hfields hmem
      have hlt := tableEnd.isLt
      have hnext : q.toNat + bs.length = tableEnd.toNat := by
        rw [hq, BitVec.toNat_add, BitVec.toNat_ofNat]
        simp only [List.length_append]
        omega
      rw [callsiteLoop, if_pos hmore]
      simp only [hread, hhandle, bind, Except.bind, List.findSome?_cons]
      cases verdict r s with
      | some result => rfl
      | none => exact ih (by omega) hsites hmem' hnext (Nat.lt_of_succ_lt_succ hfuel)

theorem skipClassInfoOffset_eq {mem : Bytes.Memory 64} {t : Lsda} (ht : t.WellFormed) {p : Ptr}
    (hmem : Holds mem p t.ttypeBase) {fuel : Nat} (hfuel : t.ttypeBase.length ≤ fuel) :
    skipClassInfoOffset fuel mem p t.ttypeEncoding =
      .ok (p + BitVec.ofNat 64 t.ttypeBase.length) := by
  have hbase := ht.ttypeBase
  by_cases homit : t.ttypeEncoding = DW_EH_PE_omit
  · rw [if_pos homit] at hbase
    rw [skipClassInfoOffset, if_neg (not_not_intro homit), hbase]
    simp
  · rw [if_neg homit] at hbase
    obtain ⟨v, hv, huleb⟩ := hbase
    rw [skipClassInfoOffset, if_pos homit, readULEB128_eq huleb hv hfuel hmem]
    rfl

theorem tableLength_eq {n : Nat} (h : n < 2 ^ 31) :
    ((BitVec.ofNat 64 n).setWidth 32).setWidth 64 = BitVec.ofNat 64 n := by
  refine BitVec.eq_of_toNat_eq ?_
  rw [BitVec.toNat_setWidth, BitVec.toNat_setWidth, BitVec.toNat_ofNat]
  omega

/-- The header is read up to the call-site table. -/
theorem readHeader_eq {mem : Bytes.Memory 64} {t : Lsda} (ht : t.WellFormed) {lsda : Ptr}
    (hmem : Holds mem lsda t.bytes) (hwrap : lsda.toNat + t.bytes.length < 2 ^ 64) {fuel : Nat}
    (hfuel : t.bytes.length ≤ fuel) :
    ∃ tableStart tableEnd, readHeader fuel mem lsda =
        .ok ⟨t.callSiteEncoding, tableStart, tableEnd⟩ ∧
      Holds mem tableStart t.table ∧ Holds mem tableEnd t.actions ∧
      tableStart.toNat + t.table.length = tableEnd.toNat ∧ tableEnd.toNat ≠ 0 ∧
      tableEnd.toNat + t.actions.length < 2 ^ 64 := by
  simp only [Lsda.bytes, List.length_cons, List.length_append] at hwrap hfuel
  obtain ⟨hlpStart, httype, hrest⟩ := hmem
  obtain ⟨hbase, hencoding, hrest⟩ := holds_append.mp hrest
  obtain ⟨hlength, hrest⟩ := holds_append.mp hrest
  obtain ⟨htable, hactions⟩ := holds_append.mp hrest
  have hskip : skipLpStart fuel mem (lsda + 1) DW_EH_PE_omit = .ok (lsda + 1) :=
    if_neg (not_not_intro rfl)
  have hfirst : readByte mem lsda = .ok DW_EH_PE_omit := readByte_eq hlpStart
  have hsecond : readByte mem (lsda + 1) = .ok t.ttypeEncoding := readByte_eq httype
  have hclass : skipClassInfoOffset fuel mem (lsda + 1 + 1) t.ttypeEncoding =
      .ok (lsda + 1 + 1 + BitVec.ofNat 64 t.ttypeBase.length) :=
    skipClassInfoOffset_eq ht hbase (by omega)
  have hthird : readByte mem (lsda + 1 + 1 + BitVec.ofNat 64 t.ttypeBase.length) =
      .ok t.callSiteEncoding := readByte_eq hencoding
  have hlast : readULEB128 fuel mem (lsda + 1 + 1 + BitVec.ofNat 64 t.ttypeBase.length + 1) =
      .ok (BitVec.ofNat 64 t.table.length, lsda + 1 + 1 + BitVec.ofNat 64 t.ttypeBase.length + 1 +
        BitVec.ofNat 64 t.tableLength.length) :=
    readULEB128_eq ht.tableLength ht.table_lt (by omega) hlength
  refine ⟨_, _, ?_, htable, hactions, ?_⟩
  · simp only [readHeader, hfirst, hskip, hsecond, hclass, hthird, hlast,
      tableLength_eq ht.table_lt, bind, Except.bind, pure, Except.pure]
    rfl
  · simp only [BitVec.toNat_add, BitVec.toNat_ofNat]
    omega

/-! ### Both phases -/

/-- The routine returns what the table says. -/
theorem handleLsda_eq {mem : Bytes.Memory 64} {t : Lsda} (ht : t.WellFormed) {lsda : Ptr}
    (hmem : Holds mem lsda t.bytes) (hwrap : lsda.toNat + t.bytes.length < 2 ^ 64)
    {r : Request} (hclass : r.unwindclass = pupUnwindclass) (hheader : r.ueHeader ≠ 0)
    {fuel : Nat} (hfuel : t.bytes.length < fuel) :
    handleLsda fuel mem lsda r =
      .ok ((t.sites.findSome? (verdict r)).getD (.continueUnwind, r.context)) := by
  obtain ⟨tableStart, tableEnd, hheader', htable, hactions, hends, hend, hwrap'⟩ :=
    readHeader_eq ht hmem hwrap hfuel.le
  simp only [Lsda.bytes, List.length_cons, List.length_append] at hfuel
  have hsites := ht.table.length_le
  have hsite : ∀ s ∈ t.sites, s.Small ∧
      handleCallsite fuel mem r tableEnd s.callsite = .ok (verdict r s) := by
    intro s hs
    have hsmall : s.Small := ht.small s hs
    refine ⟨hsmall, handleCallsite_eq hsmall ?_⟩
    exact matched_eq hclass hheader hsmall hactions hend hwrap' ht.actions_lt (ht.chains s hs)
      (by omega)
  rw [handleLsda, hheader']
  exact callsiteLoop_eq ht.table (by omega) hsite htable hends (by omega)

instance : Std.Symm Site.Apart := ⟨fun _ _ h offset hc => h offset hc.symm⟩

theorem Lsda.WellFormed.unique {t : Lsda} (ht : t.WellFormed) {s s' : Site} (hs : s ∈ t.sites)
    (hs' : s' ∈ t.sites) {offset : Nat} (h : s.Contains offset) (h' : s'.Contains offset) :
    s = s' := by
  by_contra hne
  exact ht.disjoint.forall hs hs' hne offset ⟨h, h'⟩

/-- With disjoint ranges, the first verdict is that of the call site with the pc. -/
theorem findSome_verdict {t : Lsda} (ht : t.WellFormed) {r : Request} {s : Site}
    (hs : s ∈ t.sites) (hcontains : s.Contains (pcOffset r.context).toNat) :
    t.sites.findSome? (verdict r) = verdict r s := by
  have hother : ∀ s' ∈ t.sites, s' ≠ s → verdict r s' = none := by
    intro s' hs' hne
    refine if_pos (Or.inr fun hc => hne ?_)
    exact ht.unique hs' hs hc hcontains
  cases hv : verdict r s with
  | none =>
      refine List.findSome?_eq_none_iff.mpr fun s' hs' => ?_
      by_cases hsame : s' = s
      · rw [hsame, hv]
      · exact hother s' hs' hsame
  | some result =>
      cases hfound : t.sites.findSome? (verdict r) with
      | none =>
          rw [List.findSome?_eq_none_iff.mp hfound s hs] at hv
          cases hv
      | some result' =>
          obtain ⟨s', hs', hv'⟩ := List.exists_of_findSome?_eq_some hfound
          by_cases hsame : s' = s
          · rw [← hv, ← hv', hsame]
          · rw [hother s' hs' hsame] at hv'
            cases hv'

theorem selector_ne_zero (s : Site) : selector s.filters ≠ 0 ↔ s.Catches := by
  rw [selector, ← matched_isSome s]
  cases s.filters.findIdx? (0 < ·) with
  | none => simp
  | some k => simp

/-- The verdict that is left when no call site with a landing pad has the pc. -/
theorem findSome_verdict_none {t : Lsda} {r : Request}
    (h : ∀ s ∈ t.sites, s.Contains (pcOffset r.context).toNat → s.landingPad = 0) :
    t.sites.findSome? (verdict r) = none := by
  refine List.findSome?_eq_none_iff.mpr fun s hs => if_pos ?_
  by_cases hc : s.Contains (pcOffset r.context).toNat
  · exact Or.inl (h s hs hc)
  · exact Or.inr hc

theorem verdict_search {r : Request} (hphase : r.actions &&& UA_SEARCH_PHASE ≠ 0) {s : Site}
    (hcontains : s.Contains (pcOffset r.context).toNat) (hpad : s.landingPad ≠ 0) :
    verdict r s = if s.Catches then some (.handlerFound, r.context) else none := by
  rw [verdict, if_neg (by simp [hcontains, hpad]), if_neg hphase]

theorem verdict_cleanup {r : Request} (hphase : r.actions &&& UA_SEARCH_PHASE = 0) {s : Site}
    (hcontains : s.Contains (pcOffset r.context).toNat) (hpad : s.landingPad ≠ 0) :
    verdict r s = some (.installContext, installed r s) := by
  rw [verdict, if_neg (by simp [hcontains, hpad]), if_pos hphase]

/-- The call site with the pc has a landing pad and a record that catches. -/
def Lsda.Catches (t : Lsda) (offset : Nat) : Prop :=
  ∃ s ∈ t.sites, s.Contains offset ∧ s.landingPad ≠ 0 ∧ s.Catches

theorem findSome_search {t : Lsda} (ht : t.WellFormed) {r : Request}
    (hphase : r.actions &&& UA_SEARCH_PHASE ≠ 0) :
    (t.Catches (pcOffset r.context).toNat →
      t.sites.findSome? (verdict r) = some (.handlerFound, r.context)) ∧
    (¬ t.Catches (pcOffset r.context).toNat → t.sites.findSome? (verdict r) = none) := by
  constructor
  · rintro ⟨s, hs, hcontains, hpad, hcatch⟩
    rw [findSome_verdict ht hs hcontains, verdict_search hphase hcontains hpad, if_pos hcatch]
  · intro hnot
    refine List.findSome?_eq_none_iff.mpr fun s hs => ?_
    by_cases hpad : s.landingPad = 0
    · exact if_pos (Or.inl hpad)
    by_cases hcontains : s.Contains (pcOffset r.context).toNat
    · rw [verdict_search hphase hcontains hpad, if_neg]
      exact fun hcatch => hnot ⟨s, hs, hcontains, hpad, hcatch⟩
    · exact if_pos (Or.inr hcontains)

/-- **What the personality does with a native exception.**  The search phase finds a handler
exactly if the call site with the pc has a landing pad and a record that catches.  The cleanup
phase resumes at the landing pad of the call site with the pc, whenever it has one.  The frame
that the search phase stops at is then one that the cleanup phase resumes, with the selector
of a catch. -/
theorem handleLsda_phases {mem : Bytes.Memory 64} {t : Lsda} (ht : t.WellFormed) {lsda : Ptr}
    (hmem : Holds mem lsda t.bytes) (hwrap : lsda.toNat + t.bytes.length < 2 ^ 64)
    {r : Request} (hclass : r.unwindclass = pupUnwindclass) (hheader : r.ueHeader ≠ 0)
    {fuel : Nat} (hfuel : t.bytes.length < fuel) :
    (r.actions &&& UA_SEARCH_PHASE ≠ 0 →
      (t.Catches (pcOffset r.context).toNat →
        handleLsda fuel mem lsda r = .ok (.handlerFound, r.context)) ∧
      (¬ t.Catches (pcOffset r.context).toNat →
        handleLsda fuel mem lsda r = .ok (.continueUnwind, r.context))) ∧
    (r.actions &&& UA_SEARCH_PHASE = 0 →
      (∀ s ∈ t.sites, s.Contains (pcOffset r.context).toNat → s.landingPad ≠ 0 →
        handleLsda fuel mem lsda r = .ok (.installContext, installed r s)) ∧
      ((∀ s ∈ t.sites, s.Contains (pcOffset r.context).toNat → s.landingPad = 0) →
        handleLsda fuel mem lsda r = .ok (.continueUnwind, r.context))) ∧
    (∀ search cleanup, search &&& UA_SEARCH_PHASE ≠ 0 → cleanup &&& UA_SEARCH_PHASE = 0 →
      (handleLsda fuel mem lsda { r with actions := search } =
          .ok (.handlerFound, r.context) ↔
        ∃ s ∈ t.sites, s.Contains (pcOffset r.context).toNat ∧ s.landingPad ≠ 0 ∧
          selector s.filters ≠ 0 ∧ handleLsda fuel mem lsda { r with actions := cleanup } =
            .ok (.installContext, installed r s))) := by
  have hrun := fun actions => handleLsda_eq ht hmem hwrap (r := { r with actions := actions })
    hclass hheader hfuel
  refine ⟨fun hphase => ⟨fun hcatch => ?_, fun hnot => ?_⟩,
    fun hphase => ⟨fun s hs hcontains hpad => ?_, fun hnone => ?_⟩,
    fun search cleanup hsearch hcleanup => ?_⟩
  · rw [hrun r.actions, (findSome_search ht hphase).1 hcatch, Option.getD_some]
  · rw [hrun r.actions, (findSome_search ht hphase).2 hnot, Option.getD_none]
  · rw [hrun r.actions, findSome_verdict ht hs hcontains,
      verdict_cleanup hphase hcontains hpad, Option.getD_some]
  · rw [hrun r.actions, findSome_verdict_none hnone, Option.getD_none]
  · have hfound := findSome_search (r := { r with actions := search }) ht hsearch
    constructor
    · intro hfind
      by_cases hcatch : t.Catches (pcOffset r.context).toNat
      · obtain ⟨s, hs, hcontains, hpad, hcatch⟩ := hcatch
        refine ⟨s, hs, hcontains, hpad, (selector_ne_zero s).mpr hcatch, ?_⟩
        have hsite : t.sites.findSome? (verdict { r with actions := cleanup }) =
            some (.installContext, installed r s) :=
          (findSome_verdict (r := { r with actions := cleanup }) ht hs hcontains).trans
            (verdict_cleanup (r := { r with actions := cleanup }) hcleanup hcontains hpad)
        rw [hrun cleanup, hsite, Option.getD_some]
      · rw [hrun search, hfound.2 hcatch, Option.getD_none] at hfind
        have hreason : Reason.continueUnwind = .handlerFound :=
          congrArg Prod.fst (Except.ok.inj hfind)
        cases hreason
    · rintro ⟨s, hs, hcontains, hpad, hselector, -⟩
      have hcatch : t.Catches (pcOffset r.context).toNat :=
        ⟨s, hs, hcontains, hpad, (selector_ne_zero s).mp hselector⟩
      rw [hrun search, hfound.1 hcatch, Option.getD_some]

/-- The area of a function with one `begin`, whose landing pad is 32 bytes from its start. -/
def rescueLsda : Lsda where
  ttypeEncoding := DW_EH_PE_omit
  ttypeBase := []
  callSiteEncoding := DW_EH_PE_udata4
  tableLength := [13]
  sites := [⟨0, 16, 32, 1, [1]⟩]
  table := le 4 0 ++ (le 4 16 ++ (le 4 32 ++ ([1] ++ [])))
  actions := [1, 0]

theorem rescueLsda_wellFormed : rescueLsda.WellFormed where
  ttypeBase := rfl
  tableLength := ⟨by simp [rescueLsda, IsLeb], rfl⟩
  table := .cons (.udata4 (by decide)) (.udata4 (by decide)) (.udata4 (by decide))
    ⟨by simp [IsLeb], rfl⟩ .nil
  table_lt := by decide
  actions_lt := by decide
  small := by
    intro s hs
    obtain rfl := List.mem_singleton.mp hs
    exact ⟨by decide, by decide, by decide, by decide⟩
  chains := by
    intro s hs
    obtain rfl := List.mem_singleton.mp hs
    exact .last ⟨[1], [0], ⟨by simp [IsLeb], rfl⟩, ⟨by simp [IsLeb], rfl⟩,
      by decide, by decide, List.prefix_rfl, rfl⟩
  disjoint := List.pairwise_singleton ..

/-- A frame that is stopped after a call in the range of the call site. -/
def rescueRequest (actions : BitVec 32) : Request where
  actions := actions
  unwindclass := pupUnwindclass
  ueHeader := 0x5000
  context := ⟨0x400010, 0x400000, 0x1000, 0, 0⟩

theorem handleLsda_phases_rescue :
    handleLsda 100 (only 0x1000 rescueLsda.bytes) 0x1000 (rescueRequest 1) =
        .ok (.handlerFound, ⟨0x400010, 0x400000, 0x1000, 0, 0⟩) ∧
      handleLsda 100 (only 0x1000 rescueLsda.bytes) 0x1000 (rescueRequest 2) =
        .ok (.installContext, ⟨0x400020, 0x400000, 0x1000, 0x5000, 1⟩) := by
  have hphases := fun actions => handleLsda_phases rescueLsda_wellFormed
    (holds_only (a := 0x1000) (by decide)) (by decide) (r := rescueRequest actions) rfl
    (show (0x5000 : Ptr) ≠ 0 by decide) (show rescueLsda.bytes.length < 100 by decide)
  refine ⟨((hphases 1).1 (by decide)).1 ?_, ((hphases 2).2.1 (by decide)).1 _ (.head _) ?_ ?_⟩
  · exact ⟨_, .head _, by decide, by decide, by decide⟩
  · decide
  · decide

end Pup.Raise
