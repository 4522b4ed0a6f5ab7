/-
What generating code leaves alone.

`bind_ok` and its kin invert a computation of the generator into its steps.  `Grow g₀ g` says
how a context can come about from `g₀`: blocks only get longer, and of the blocks that were
there only the one that the builder was at gets more than the entry block's slots.
The rules follow the operations, and `Grow.trans` puts a piece of code into its surroundings.
-/
import Pup.Codegen.Generate
import Mathlib.Data.Nat.Find
import Mathlib.Order.Basic

namespace Pup.Codegen

/-! ### Inverting the generator -/

variable {α β : Type} {g g' : CodegenContext}

theorem bind_ok {x : Gen α} {f : α → Gen β} {b : β} :
    (x >>= f) g = .ok (b, g') ↔ ∃ a g₁, x g = .ok (a, g₁) ∧ f a g₁ = .ok (b, g') := by
  show (x g >>= fun p => f p.1 p.2) = .ok (b, g') ↔ _
  cases x g with
  | error e => simp [bind, Except.bind]
  | ok p =>
      constructor
      · intro h
        exact ⟨p.1, p.2, rfl, h⟩
      · rintro ⟨a, g₁, heq, h⟩
        obtain rfl := Except.ok.inj heq
        exact h

theorem pure_ok {a b : α} : (pure a : Gen α) g = .ok (b, g') ↔ b = a ∧ g' = g := by
  show Except.ok (a, g) = .ok (b, g') ↔ _
  simp [eq_comm]

theorem throw_ok {e : Error} {a : α} : ¬ (throw e : Gen α) g = .ok (a, g') := nofun

theorem get_ok {a : CodegenContext} :
    (get : Gen CodegenContext) g = .ok (a, g') ↔ a = g ∧ g' = g := by
  show Except.ok (g, g) = .ok (a, g') ↔ _
  simp [eq_comm]

theorem emit_ok {i : Instr} {u : Unit} :
    emit i g = .ok (u, g') ↔ g' = g.emitAt g.build i := by
  simp [emit, eq_comm]

theorem emitTo_ok {b : Nat} {i : Instr} {u : Unit} :
    emitTo b i g = .ok (u, g') ↔ g' = g.emitAt b i := by
  simp [emitTo, eq_comm]

/-- The context after an instruction with a result. -/
def CodegenContext.emitNew (g : CodegenContext) (b : Nat) (i : Nat → Instr) : CodegenContext :=
  { g.emitAt b (i g.next) with next := g.next + 1 }

theorem emitRegAt_ok {b : Nat} {i : Nat → Instr} {r : Nat} :
    emitRegAt b i g = .ok (r, g') ↔ r = g.next ∧ g' = g.emitNew b i := by
  simp [emitRegAt, CodegenContext.emitNew, eq_comm]

theorem emitReg_ok {i : Nat → Instr} {v : Operand} :
    emitReg i g = .ok (v, g') ↔ v = .reg g.next ∧ g' = g.emitNew g.build i := by
  simp [emitReg, CodegenContext.emitNew, eq_comm]

theorem buildCall_ok {fn : String} {args : List Operand} {v : Operand} :
    buildCall fn args g = .ok (v, g') ↔
      v = .reg g.next ∧ g' = g.emitNew g.build fun r => .call r fn args :=
  emitReg_ok

theorem appendBlock_ok {name : String} {b : Nat} :
    appendBlock name g = .ok (b, g') ↔ b = g.blocks.length ∧ g' = g.append name := by
  simp [appendBlock, eq_comm]

theorem positionAtEnd_ok {b : Nat} {u : Unit} :
    positionAtEnd b g = .ok (u, g') ↔ g' = { g with build := b } := by
  simp [positionAtEnd, eq_comm]

theorem within_ok {enter : CodegenContext → CodegenContext}
    {leave : CodegenContext → CodegenContext → CodegenContext} {m : Gen α} {a : α} :
    within enter leave m g = .ok (a, g') ↔
      ∃ g₁, m (enter g) = .ok (a, g₁) ∧ g' = leave g g₁ := by
  rw [within]
  cases m (enter g) with
  | error e => simp [Except.map]
  | ok p => simp [Except.map, Prod.ext_iff, eq_comm, and_comm]

theorem withBuilderAtEnd_ok {b : Nat} {m : Gen α} {a : α} :
    withBuilderAtEnd b m g = .ok (a, g') ↔
      ∃ g₁, m { g with build := b } = .ok (a, g₁) ∧ g' = { g₁ with build := g.build } :=
  within_ok

theorem ehBegin_ok {landingpad : Option Nat} {m : Gen α} {a : α} :
    ehBegin landingpad m g = .ok (a, g') ↔
      ∃ g₁, m { g with landingpad := landingpad } = .ok (a, g₁) ∧
        g' = { g₁ with landingpad := g.landingpad } :=
  within_ok

theorem usingSelf_ok {self : Operand} {m : Gen α} {a : α} :
    usingSelf self m g = .ok (a, g') ↔
      ∃ g₁, m { g with self_ref := self } = .ok (a, g₁) ∧
        g' = { g₁ with self_ref := g.self_ref } :=
  within_ok

theorem defMethod_ok {m : Gen Unit} {fn : Nat} :
    defMethod m g = .ok (fn, g') ↔ fn = g.functions ∧
      ∃ g₁, m g.inMethod = .ok ((), g₁) ∧
        g' = { g₁ with current_method := g.current_method, self_ref := g.self_ref } := by
  simp only [defMethod, bind_ok, get_ok, within_ok, pure_ok]
  constructor
  · rintro ⟨_, _, ⟨rfl, rfl⟩, ⟨⟩, _, ⟨g₁, hm, rfl⟩, rfl, rfl⟩
    exact ⟨rfl, g₁, hm, rfl⟩
  · rintro ⟨rfl, g₁, hm, rfl⟩
    exact ⟨_, _, ⟨rfl, rfl⟩, (), _, ⟨g₁, hm, rfl⟩, rfl, rfl⟩

theorem emitValue_ok {v : Option Operand} {a : Operand} :
    emitValue v g = .ok (a, g') ↔ v = some a ∧ g' = g := by
  cases v with
  | none => simp [emitValue, throw_ok]
  | some v =>
      rw [emitValue, pure_ok, Option.some.injEq, eq_comm]

/-! ### Blocks -/

namespace CodegenContext

/-- The function of a block. -/
def fnOf (g : CodegenContext) (b : Nat) : Option Nat := (g.blocks[b]?).map Block.fn

@[simp] theorem emitAt_length (b : Nat) (i : Instr) :
    (g.emitAt b i).blocks.length = g.blocks.length := by
  simp [emitAt]

@[simp] theorem append_length (name : String) :
    (g.append name).blocks.length = g.blocks.length + 1 := by
  simp [append]

theorem emitAt_instrs_self {b : Nat} (hb : b < g.blocks.length) (i : Instr) :
    (g.emitAt b i).instrs b = g.instrs b ++ [i] := by
  simp [emitAt, instrs, List.getElem?_eq_getElem hb]

theorem emitAt_instrs_ne {b c : Nat} (h : c ≠ b) (i : Instr) :
    (g.emitAt b i).instrs c = g.instrs c := by
  simp [emitAt, instrs, h.symm]

@[simp] theorem emitAt_fnOf (b c : Nat) (i : Instr) : (g.emitAt b i).fnOf c = g.fnOf c := by
  simp only [emitAt, fnOf, List.getElem?_modify]
  cases g.blocks[c]? with
  | none => simp
  | some block => by_cases h : b = c <;> simp [h]

theorem instrs_of_length_le {b : Nat} (h : g.blocks.length ≤ b) : g.instrs b = [] := by
  rw [instrs, List.getElem?_eq_none h]
  rfl

@[simp] theorem append_instrs (name : String) (b : Nat) :
    (g.append name).instrs b = g.instrs b := by
  rcases Nat.lt_trichotomy b g.blocks.length with h | rfl | h
  · simp [append, instrs, List.getElem?_append_left h]
  · simp [append, instrs]
  · rw [instrs_of_length_le (Nat.le_of_lt h), instrs_of_length_le]
    rw [append_length]
    exact h

theorem append_fnOf_of_lt (name : String) {b : Nat} (h : b < g.blocks.length) :
    (g.append name).fnOf b = g.fnOf b := by
  simp [append, fnOf, List.getElem?_append_left h]

theorem append_fnOf_self (name : String) :
    (g.append name).fnOf g.blocks.length = some g.current_method.fn := by
  simp [append, fnOf]

/-- A block has got the instruction or is as it was. -/
theorem emitAt_instrs_or (b c : Nat) (i : Instr) :
    (g.emitAt b i).instrs c = g.instrs c ∨ (g.emitAt b i).instrs c = g.instrs c ++ [i] := by
  by_cases hc : c = b
  · subst hc
    by_cases hlt : c < g.blocks.length
    · exact .inr (emitAt_instrs_self hlt i)
    · have hge := Nat.le_of_not_lt hlt
      rw [instrs_of_length_le hge, instrs_of_length_le (hge.trans' (emitAt_length c i).le)]
      exact .inl rfl
  · exact .inl (emitAt_instrs_ne hc i)

theorem mem_emitAt {b c : Nat} {i j : Instr} (h : j ∈ (g.emitAt b i).instrs c) :
    j ∈ g.instrs c ∨ j = i := by
  rcases emitAt_instrs_or (g := g) b c i with heq | heq <;> rw [heq] at h
  · exact .inl h
  · simpa using h

theorem lt_of_fnOf {b fn : Nat} (h : g.fnOf b = some fn) : b < g.blocks.length := by
  by_contra hge
  rw [fnOf, List.getElem?_eq_none (Nat.le_of_not_lt hge)] at h
  cases h

end CodegenContext

/-! ### How a context grows -/

/-- The register of the result. -/
def Instr.result : Instr → Option Nat
  | .alloca r => some r
  | .arrayAlloca r _ => some r
  | .bitCast r _ => some r
  | .load r _ => some r
  | .gep r _ _ => some r
  | .structGep r _ _ => some r
  | .icmpEq r _ _ => some r
  | .call r _ _ => some r
  | .invoke r _ _ _ _ => some r
  | _ => none

/-- What an entry block has: the slots, and the marks of those that are roots. -/
def Instr.isSlot : Instr → Bool
  | .alloca _ => true
  | .arrayAlloca _ _ => true
  | .bitCast _ _ => true
  | .call _ fn _ => fn == "llvm.gcroot"
  | _ => false

theorem Instr.isTerminator_of_isSlot {i : Instr} (hi : i.isSlot) : i.isTerminator = false := by
  cases i <;> first | rfl | cases hi

/-- The builder is in the current method, and registers are numbered in order. -/
structure WellFormed (g : CodegenContext) : Prop where
  build : g.fnOf g.build = some g.current_method.fn
  fn_lt : ∀ b fn, g.fnOf b = some fn → fn < g.functions
  result_lt : ∀ b, ∀ i ∈ g.instrs b, ∀ r, i.result = some r → r < g.next
  nodup : ∀ b, ((g.instrs b).filterMap Instr.result).Nodup
  locals_lt : ∀ p ∈ g.current_method.locals, p.2 < g.next

/-- The entry block of the current method. -/
def IsEntry (g : CodegenContext) (b : Nat) : Prop := g.entry? g.current_method.fn = some b

/-- What is said of a block that the builder was not at: it is as it was, or it is the entry
block and has got slots. -/
def Kept (g₀ g : CodegenContext) (b : Nat) : Prop :=
  g.instrs b = g₀.instrs b ∨ IsEntry g₀ b ∧
    ∃ added, g.instrs b = g₀.instrs b ++ added ∧ ∀ i ∈ added, i.isSlot

/-- The locals that have been made between the contexts. -/
structure NewLocals (g₀ g : CodegenContext) (new : List (String × Nat)) : Prop where
  locals : g.current_method.locals = new ++ g₀.current_method.locals
  nodup : (new.map Prod.snd).Nodup
  slot : ∀ p ∈ new, g₀.next ≤ p.2 ∧ p.2 < g.next
  fresh : ∀ p ∈ new, g₀.current_method.locals.lookup p.1 = none
  alloca : ∀ p ∈ new, ∀ e, IsEntry g₀ e → Instr.alloca p.2 ∈ g.instrs e

/-- `g` can come about from `g₀` by generating code in the current method. -/
structure Grow (g₀ g : CodegenContext) : Prop where
  wellFormed : WellFormed g
  length : g₀.blocks.length ≤ g.blocks.length
  longer : ∀ b, g₀.instrs b <+: g.instrs b
  fnOf : ∀ b < g₀.blocks.length, g.fnOf b = g₀.fnOf b
  kept : ∀ b < g₀.blocks.length, b ≠ g₀.build → Kept g₀ g b
  build : g.build = g₀.build ∨ g₀.blocks.length ≤ g.build
  fn_new : ∀ b fn, g₀.blocks.length ≤ b → g.fnOf b = some fn →
    fn = g₀.current_method.fn ∨ g₀.functions ≤ fn
  next : g₀.next ≤ g.next
  result : ∀ b, ∀ i ∈ g.instrs b, i ∈ g₀.instrs b ∨ ∀ r, i.result = some r → g₀.next ≤ r
  functions : g₀.functions ≤ g.functions
  method : g.current_method.fn = g₀.current_method.fn
  locals : ∃ new, NewLocals g₀ g new
  landingpad : g.landingpad = g₀.landingpad
  self_ref : g.self_ref = g₀.self_ref

/-! ### The rules of growing -/

variable {g₀ g₁ : CodegenContext}

theorem entry_iff {fn e : Nat} :
    g.entry? fn = some e ↔ g.fnOf e = some fn ∧ ∀ b < e, g.fnOf b ≠ some fn := by
  rw [CodegenContext.entry?, List.findIdx?_eq_some_iff_getElem]
  constructor
  · rintro ⟨he, hfn, hbefore⟩
    refine ⟨?_, fun b hb hfn' => ?_⟩
    · simpa [CodegenContext.fnOf, List.getElem?_eq_getElem he] using hfn
    · have hb' := hbefore b hb
      rw [CodegenContext.fnOf, List.getElem?_eq_getElem (hb.trans he)] at hfn'
      simp_all
  · rintro ⟨hfn, hbefore⟩
    have he := CodegenContext.lt_of_fnOf hfn
    rw [CodegenContext.fnOf, List.getElem?_eq_getElem he] at hfn
    refine ⟨he, by simpa using hfn, fun b hb => ?_⟩
    have hb' := hbefore b hb
    rw [CodegenContext.fnOf, List.getElem?_eq_getElem (hb.trans he)] at hb'
    simpa using hb'

/-- The method that the builder is in has an entry block. -/
theorem WellFormed.entry (h : WellFormed g) : ∃ e ≤ g.build, IsEntry g e := by
  classical
  let P := fun b => g.fnOf b = some g.current_method.fn
  have hex : ∃ b, P b := ⟨_, h.build⟩
  exact ⟨Nat.find hex, Nat.find_min' hex h.build,
    entry_iff.mpr ⟨Nat.find_spec hex, fun b hb => Nat.find_min hex hb⟩⟩

theorem WellFormed.build_lt (h : WellFormed g) : g.build < g.blocks.length :=
  CodegenContext.lt_of_fnOf h.build

theorem Grow.isEntry (h : Grow g₀ g) {e : Nat} (he : IsEntry g₀ e) : IsEntry g e := by
  obtain ⟨hfn, hbefore⟩ := entry_iff.mp he
  have hlt := CodegenContext.lt_of_fnOf hfn
  rw [IsEntry, h.method]
  refine entry_iff.mpr ⟨(h.fnOf e hlt).trans hfn, fun b hb => ?_⟩
  rw [h.fnOf b (hb.trans hlt)]
  exact hbefore b hb

theorem IsEntry.unique {e e' : Nat} (h : IsEntry g e) (h' : IsEntry g e') : e = e' :=
  Option.some.inj (h.symm.trans h')

theorem NewLocals.none (h : g.current_method.locals = g₀.current_method.locals) :
    NewLocals g₀ g [] :=
  ⟨h, .nil, nofun, nofun, nofun⟩

theorem NewLocals.congr {new : List (String × Nat)} (h : NewLocals g₀ g new)
    (hlocals : g'.current_method.locals = g.current_method.locals) (hnext : g.next ≤ g'.next)
    (hlonger : ∀ b, g.instrs b <+: g'.instrs b) : NewLocals g₀ g' new :=
  ⟨hlocals.trans h.locals, h.nodup,
    fun p hp => ⟨(h.slot p hp).1, (h.slot p hp).2.trans_le hnext⟩, h.fresh,
    fun p hp e he => (hlonger e).subset (h.alloca p hp e he)⟩

theorem Grow.refl (h : WellFormed g) : Grow g g where
  wellFormed := h
  length := Nat.le_refl _
  longer _ := List.prefix_rfl
  fnOf _ _ := rfl
  kept _ _ _ := .inl rfl
  build := .inl rfl
  fn_new _ _ hb hfn := absurd (CodegenContext.lt_of_fnOf hfn) (Nat.not_lt.mpr hb)
  next := Nat.le_refl _
  result _ _ hi := .inl hi
  functions := Nat.le_refl _
  method := rfl
  locals := ⟨[], .none rfl⟩
  landingpad := rfl
  self_ref := rfl

/-- The context after an instruction, whose result is in one of the registers up to `n`. -/
theorem WellFormed.emit (h : WellFormed g) (b : Nat) {i : Instr} {n : Nat} (hn : g.next ≤ n)
    (hi : ∀ r, i.result = some r → g.next ≤ r ∧ r < n) :
    WellFormed { g.emitAt b i with next := n } where
  build := (CodegenContext.emitAt_fnOf b _ i).trans h.build
  fn_lt c fn hc := h.fn_lt c fn ((CodegenContext.emitAt_fnOf b c i).symm.trans hc)
  result_lt c j hj r hr := by
    rcases CodegenContext.mem_emitAt hj with hj | rfl
    · exact (h.result_lt c j hj r hr).trans_le hn
    · exact (hi r hr).2
  nodup c := by
    show (((g.emitAt b i).instrs c).filterMap Instr.result).Nodup
    rcases CodegenContext.emitAt_instrs_or (g := g) b c i with heq | heq <;> rw [heq]
    · exact h.nodup c
    rw [List.filterMap_append, List.nodup_append]
    refine ⟨h.nodup c, ?_, fun r hr r' hr' hsame => ?_⟩
    · cases hr : i.result <;> simp [hr]
    · obtain ⟨j, hj, hjr⟩ := List.mem_filterMap.mp hr
      obtain ⟨_, hj', hir⟩ := List.mem_filterMap.mp hr'
      obtain rfl := List.mem_singleton.mp hj'
      exact absurd (h.result_lt c j hj r hjr) (Nat.not_lt.mpr (hsame ▸ (hi r' hir).1))
  locals_lt p hp := (h.locals_lt p hp).trans_le hn

theorem CodegenContext.emitAt_longer (b c : Nat) (i : Instr) :
    g.instrs c <+: (g.emitAt b i).instrs c := by
  by_cases hc : c = b
  · subst hc
    by_cases hlt : c < g.blocks.length
    · rw [CodegenContext.emitAt_instrs_self hlt]
      exact List.prefix_append ..
    · rw [CodegenContext.instrs_of_length_le (Nat.le_of_not_lt hlt)]
      exact List.nil_prefix
  · exact (CodegenContext.emitAt_instrs_ne hc i).symm ▸ List.prefix_rfl

/-- Where the builder may have got to. -/
def Allowed (g₀ : CodegenContext) (b : Nat) : Prop := b = g₀.build ∨ g₀.blocks.length ≤ b

theorem Grow.emit (h : Grow g₀ g) {b : Nat} {i : Instr} {n : Nat} (hn : g.next ≤ n)
    (hi : ∀ r, i.result = some r → g.next ≤ r ∧ r < n)
    (hkept : ∀ c < g₀.blocks.length, c ≠ g₀.build → Kept g₀ (g.emitAt b i) c) :
    Grow g₀ { g.emitAt b i with next := n } where
  wellFormed := h.wellFormed.emit b hn hi
  length := h.length.trans (CodegenContext.emitAt_length b i).ge
  longer c := (h.longer c).trans (CodegenContext.emitAt_longer b c i)
  fnOf c hc := (CodegenContext.emitAt_fnOf b c i).trans (h.fnOf c hc)
  kept := hkept
  build := h.build
  fn_new c fn hc hfn := h.fn_new c fn hc ((CodegenContext.emitAt_fnOf b c i).symm.trans hfn)
  next := h.next.trans hn
  result c j hj := by
    rcases CodegenContext.mem_emitAt hj with hj | rfl
    · exact h.result c j hj
    · exact .inr fun r hr => h.next.trans (hi r hr).1
  functions := h.functions
  method := h.method
  locals := h.locals.imp fun _ hnew => hnew.congr rfl hn fun c => CodegenContext.emitAt_longer b c i
  landingpad := h.landingpad
  self_ref := h.self_ref

theorem Kept.emitAt {c : Nat} (h : Kept g₀ g c) {b : Nat} (hb : c ≠ b) (i : Instr) :
    Kept g₀ (g.emitAt b i) c := by
  rw [Kept, CodegenContext.emitAt_instrs_ne hb]
  exact h

/-- A block that was there before is not the one that the builder has got to. -/
theorem Allowed.ne {b c : Nat} (h : Allowed g₀ b) (hc : c < g₀.blocks.length)
    (hne : c ≠ g₀.build) : c ≠ b := by
  rintro rfl
  rcases h with rfl | hb
  · exact hne rfl
  · exact absurd hc (Nat.not_lt.mpr hb)

/-- An instruction without a result. -/
theorem Grow.emitAt (h : Grow g₀ g) {b : Nat} (hb : Allowed g₀ b) {i : Instr}
    (hi : i.result = none) : Grow g₀ (g.emitAt b i) :=
  h.emit (Nat.le_refl g.next) (fun r hr => by rw [hi] at hr; cases hr)
    fun c hc hne => (h.kept c hc hne).emitAt (hb.ne hc hne) i

/-- A new register is the result of the instruction. -/
theorem result_emitNew {i : Nat → Instr} (hi : ∀ r, (i r).result = some r) (r : Nat)
    (hr : (i g.next).result = some r) : g.next ≤ r ∧ r < g.next + 1 := by
  rw [hi] at hr
  obtain rfl := Option.some.inj hr
  exact ⟨Nat.le_refl _, Nat.lt_succ_self _⟩

theorem Grow.emitNew (h : Grow g₀ g) {b : Nat} (hb : Allowed g₀ b) {i : Nat → Instr}
    (hi : ∀ r, (i r).result = some r) : Grow g₀ (g.emitNew b i) :=
  h.emit (Nat.le_succ g.next) (result_emitNew hi)
    fun c hc hne => (h.kept c hc hne).emitAt (hb.ne hc hne) _

/-- The entry block gets a slot. -/
theorem Kept.slot (h : Grow g₀ g) {e : Nat} (he₀ : IsEntry g₀ e) {i : Instr} (hi : i.isSlot)
    {c : Nat} (hc : c < g₀.blocks.length) (hkept : Kept g₀ g c) :
    Kept g₀ (g.emitAt e i) c := by
  by_cases hce : c = e
  · subst hce
    rw [Kept, CodegenContext.emitAt_instrs_self (hc.trans_le h.length)]
    refine .inr ⟨he₀, ?_⟩
    rcases hkept with hsame | ⟨-, added, hadded, hopen⟩
    · exact ⟨[i], by rw [hsame], by simpa using hi⟩
    · refine ⟨added ++ [i], by rw [hadded, List.append_assoc], fun j hj => ?_⟩
      rcases List.mem_append.mp hj with hj | hj
      · exact hopen j hj
      · rw [List.mem_singleton.mp hj, hi]
  · exact hkept.emitAt hce i

theorem Grow.emitNewEntry (h : Grow g₀ g) (h₀ : WellFormed g₀) {e : Nat} (he : IsEntry g e)
    {i : Nat → Instr} (hslot : ∀ r, (i r).isSlot) (hi : ∀ r, (i r).result = some r) :
    Grow g₀ (g.emitNew e i) := by
  obtain ⟨e₀, -, he₀⟩ := h₀.entry
  obtain rfl := he.unique (h.isEntry he₀)
  exact h.emit (Nat.le_succ g.next) (result_emitNew hi)
    fun c hc hne => .slot h he₀ (hslot g.next) hc (h.kept c hc hne)

theorem Grow.append (h : Grow g₀ g) (hfn : g.current_method.fn < g.functions) (name : String) :
    Grow g₀ (g.append name) := by
  have hfnOf : ∀ b < g.blocks.length, (g.append name).fnOf b = g.fnOf b :=
    fun b hb => CodegenContext.append_fnOf_of_lt name hb
  have hinstrs : ∀ b, (g.append name).instrs b = g.instrs b := CodegenContext.append_instrs name
  have hnew : ∀ b fn, (g.append name).fnOf b = some fn →
      g.fnOf b = some fn ∨ fn = g.current_method.fn := by
    intro b fn hb
    rcases Nat.lt_or_ge b g.blocks.length with hlt | hge
    · exact .inl (hfnOf b hlt ▸ hb)
    · have hlt := CodegenContext.lt_of_fnOf hb
      rw [CodegenContext.append_length] at hlt
      obtain rfl : b = g.blocks.length := Nat.le_antisymm (Nat.le_of_lt_succ hlt) hge
      exact .inr (Option.some.inj (hb.symm.trans (CodegenContext.append_fnOf_self name)))
  exact { h with
    wellFormed :=
      { build := (hfnOf _ h.wellFormed.build_lt).trans h.wellFormed.build
        fn_lt := fun b fn hb => (hnew b fn hb).elim (h.wellFormed.fn_lt b fn) (· ▸ hfn)
        result_lt := fun b => (hinstrs b).symm ▸ h.wellFormed.result_lt b
        nodup := fun b => (hinstrs b).symm ▸ h.wellFormed.nodup b
        locals_lt := h.wellFormed.locals_lt }
    length := h.length.trans (by simp)
    longer := fun b => (hinstrs b).symm ▸ h.longer b
    fnOf := fun b hb => (hfnOf b (hb.trans_le h.length)).trans (h.fnOf b hb)
    kept := fun b hb hne => by
      rw [Kept, hinstrs]
      exact h.kept b hb hne
    fn_new := fun b fn hb hfn' => (hnew b fn hfn').elim (h.fn_new b fn hb)
      fun heq => .inl (heq.trans h.method)
    result := fun b => (hinstrs b).symm ▸ h.result b
    locals := h.locals.imp fun _ hnew => hnew.congr rfl (Nat.le_refl _)
      fun b => (hinstrs b).symm ▸ List.prefix_rfl }

theorem Grow.position (h : Grow g₀ g) {b : Nat} (hb : Allowed g₀ b)
    (hfn : g.fnOf b = some g.current_method.fn) : Grow g₀ { g with build := b } :=
  { h with
    wellFormed := { h.wellFormed with build := hfn }
    build := hb
    locals := h.locals.imp fun _ hnew => hnew.congr rfl (Nat.le_refl _)
      fun _ => List.prefix_rfl }

theorem Grow.addLocal (h : Grow g₀ g) {name : String}
    (hname : g.current_method.locals.lookup name = none) {r : Nat} (hr : g₀.next ≤ r)
    (hr' : r < g.next) (hnew : ∀ p ∈ g.current_method.locals, p.2 ≠ r)
    (halloca : ∀ e, IsEntry g₀ e → Instr.alloca r ∈ g.instrs e) :
    Grow g₀ { g with current_method := { g.current_method with
      locals := (name, r) :: g.current_method.locals } } :=
  { h with
    wellFormed :=
      { h.wellFormed with
        build := h.wellFormed.build
        locals_lt := List.forall_mem_cons.mpr ⟨hr', h.wellFormed.locals_lt⟩ }
    method := h.method
    locals := by
      obtain ⟨new, h'⟩ := h.locals
      rw [h'.locals, List.lookup_append, Option.or_eq_none_iff] at hname
      refine ⟨(name, r) :: new, congrArg _ h'.locals, ?_, ?_, ?_, ?_⟩
      · refine List.nodup_cons.mpr ⟨fun hmem => ?_, h'.nodup⟩
        obtain ⟨p, hp, heq⟩ := List.mem_map.mp hmem
        exact hnew p (h'.locals ▸ List.mem_append_left _ hp) heq
      · exact List.forall_mem_cons.mpr ⟨⟨hr, hr'⟩, h'.slot⟩
      · exact List.forall_mem_cons.mpr ⟨hname.2, h'.fresh⟩
      · exact List.forall_mem_cons.mpr ⟨halloca, h'.alloca⟩ }

theorem Grow.allowed (h : Grow g₀ g) {b : Nat} (hb : Allowed g b) : Allowed g₀ b := by
  rcases hb with rfl | hb
  · exact h.build
  · exact .inr (h.length.trans hb)

theorem Grow.isEntry_of_lt (h : Grow g₀ g) {e : Nat} (he : IsEntry g e)
    (hlt : e < g₀.blocks.length) : IsEntry g₀ e := by
  rw [IsEntry, h.method] at he
  obtain ⟨hfn, hbefore⟩ := entry_iff.mp he
  refine entry_iff.mpr ⟨(h.fnOf e hlt).symm.trans hfn, fun b hb => ?_⟩
  rw [← h.fnOf b (hb.trans hlt)]
  exact hbefore b hb

theorem Kept.trans {b : Nat} (h : Kept g₀ g₁ b) (h' : Kept g₁ g b)
    (hentry : IsEntry g₁ b → IsEntry g₀ b) : Kept g₀ g b := by
  rcases h' with hsame | ⟨he, added', hadded', hopen'⟩
  · rw [Kept, hsame]
    exact h
  rcases h with hsame | ⟨he₀, added, hadded, hopen⟩
  · exact .inr ⟨hentry he, added', by rw [hadded', hsame], hopen'⟩
  · refine .inr ⟨he₀, added ++ added', by rw [hadded', hadded, List.append_assoc], ?_⟩
    intro i hi
    exact (List.mem_append.mp hi).elim (hopen i) (hopen' i)

theorem NewLocals.trans {new new' : List (String × Nat)} (h : NewLocals g₀ g₁ new)
    (h' : NewLocals g₁ g new') (hnext : g₀.next ≤ g₁.next) (hnext' : g₁.next ≤ g.next)
    (hlonger : ∀ b, g₁.instrs b <+: g.instrs b)
    (hentry : ∀ e, IsEntry g₀ e → IsEntry g₁ e) : NewLocals g₀ g (new' ++ new) where
  locals := by rw [h'.locals, h.locals, List.append_assoc]
  nodup := by
    rw [List.map_append, List.nodup_append]
    refine ⟨h'.nodup, h.nodup, fun a ha b hb heq => ?_⟩
    obtain ⟨p, hp, rfl⟩ := List.mem_map.mp ha
    obtain ⟨q, hq, rfl⟩ := List.mem_map.mp hb
    exact absurd ((h.slot q hq).2.trans_le (h'.slot p hp).1) (heq ▸ Nat.lt_irrefl _)
  slot p hp := by
    rcases List.mem_append.mp hp with hp | hp
    · exact ⟨hnext.trans (h'.slot p hp).1, (h'.slot p hp).2⟩
    · exact ⟨(h.slot p hp).1, (h.slot p hp).2.trans_le hnext'⟩
  fresh p hp := by
    rcases List.mem_append.mp hp with hp | hp
    · have hnone := h'.fresh p hp
      rw [h.locals, List.lookup_append, Option.or_eq_none_iff] at hnone
      exact hnone.2
    · exact h.fresh p hp
  alloca p hp e he := by
    rcases List.mem_append.mp hp with hp | hp
    · exact h'.alloca p hp e (hentry e he)
    · exact (hlonger e).subset (h.alloca p hp e he)

/-- **A piece of code in its surroundings.** -/
theorem Grow.trans (h : Grow g₀ g₁) (h' : Grow g₁ g) : Grow g₀ g where
  wellFormed := h'.wellFormed
  length := h.length.trans h'.length
  longer b := (h.longer b).trans (h'.longer b)
  fnOf b hb := (h'.fnOf b (hb.trans_le h.length)).trans (h.fnOf b hb)
  kept b hb hne := by
    have hne₁ : b ≠ g₁.build := by
      rcases h.build with heq | hge
      · rw [heq]
        exact hne
      · exact (hb.trans_le hge).ne
    exact (h.kept b hb hne).trans (h'.kept b (hb.trans_le h.length) hne₁)
      fun he => h.isEntry_of_lt he hb
  build := h.allowed h'.build
  fn_new b fn hb hfn := by
    rcases Nat.lt_or_ge b g₁.blocks.length with hlt | hge
    · exact h.fn_new b fn hb ((h'.fnOf b hlt).symm.trans hfn)
    · rcases h'.fn_new b fn hge hfn with heq | hle
      · exact .inl (heq.trans h.method)
      · exact .inr (h.functions.trans hle)
  next := h.next.trans h'.next
  result b i hi := by
    rcases h'.result b i hi with hi | hge
    · exact h.result b i hi
    · exact .inr fun r hr => h.next.trans (hge r hr)
  functions := h.functions.trans h'.functions
  method := h'.method.trans h.method
  locals := by
    obtain ⟨new, hnew⟩ := h.locals
    obtain ⟨new', hnew'⟩ := h'.locals
    exact ⟨new' ++ new, hnew.trans hnew' h.next h'.next h'.longer fun _ he => h.isEntry he⟩
  landingpad := h'.landingpad.trans h.landingpad
  self_ref := h'.self_ref.trans h.self_ref

/-- Code with the builder at another block. -/
theorem Grow.within (h : Grow g₀ g) {b : Nat} (hb : Allowed g₀ b)
    (hfn : g.fnOf b = some g.current_method.fn) (h' : Grow { g with build := b } g₁) :
    Grow g₀ { g₁ with build := g.build } := by
  refine ((h.position hb hfn).trans h').position h.build ?_
  rw [h'.fnOf g.build h.wellFormed.build_lt, h'.method]
  exact h.wellFormed.build

/-- Code with another landing pad. -/
theorem Grow.withLandingpad {landingpad : Option Nat}
    (h : Grow { g with landingpad := landingpad } g₁) :
    Grow g { g₁ with landingpad := g.landingpad } :=
  { h with
    wellFormed := { h.wellFormed with build := h.wellFormed.build }
    kept := h.kept
    method := h.method
    locals := h.locals.imp fun _ hnew => 
      ⟨hnew.locals, hnew.nodup, hnew.slot, hnew.fresh, hnew.alloca⟩
    landingpad := rfl }

/-- Code with another `self`. -/
theorem Grow.withSelf {self : Operand} (h : Grow { g with self_ref := self } g₁) :
    Grow g { g₁ with self_ref := g.self_ref } :=
  { h with
    wellFormed := { h.wellFormed with build := h.wellFormed.build }
    kept := h.kept
    method := h.method
    locals := h.locals.imp fun _ hnew => 
      ⟨hnew.locals, hnew.nodup, hnew.slot, hnew.fresh, hnew.alloca⟩
    self_ref := rfl }

/-- The context in which the first block of a method is generated. -/
def CodegenContext.inMethodBlock (g : CodegenContext) (name : String) : CodegenContext :=
  { g.inMethod.append name with build := g.blocks.length }

theorem inMethodBlock_length (name : String) :
    (g.inMethodBlock name).blocks.length = g.blocks.length + 1 :=
  CodegenContext.append_length name

theorem inMethodBlock_instrs (name : String) (b : Nat) :
    (g.inMethodBlock name).instrs b = g.instrs b :=
  CodegenContext.append_instrs name b

theorem inMethodBlock_fnOf (name : String) {b : Nat} (hb : b < g.blocks.length) :
    (g.inMethodBlock name).fnOf b = g.fnOf b :=
  CodegenContext.append_fnOf_of_lt name hb

theorem inMethodBlock_fnOf_self (name : String) :
    (g.inMethodBlock name).fnOf g.blocks.length = some g.functions :=
  CodegenContext.append_fnOf_self (g := g.inMethod) name

theorem WellFormed.inMethodBlock (h : WellFormed g) (name : String) :
    WellFormed (g.inMethodBlock name) where
  build := inMethodBlock_fnOf_self name
  fn_lt b fn hfn := by
    rcases Nat.lt_or_ge b g.blocks.length with hlt | hge
    · rw [inMethodBlock_fnOf name hlt] at hfn
      exact Nat.lt_succ_of_lt (h.fn_lt b fn hfn)
    · have hlt := CodegenContext.lt_of_fnOf hfn
      rw [inMethodBlock_length] at hlt
      obtain rfl : b = g.blocks.length := Nat.le_antisymm (Nat.le_of_lt_succ hlt) hge
      rw [inMethodBlock_fnOf_self] at hfn
      exact Option.some.inj hfn ▸ Nat.lt_succ_self g.functions
  result_lt b := inMethodBlock_instrs (g := g) name b ▸ h.result_lt b
  nodup b := inMethodBlock_instrs (g := g) name b ▸ h.nodup b
  locals_lt := nofun

/-- A method leaves the blocks alone that were there before it. -/
theorem Grow.method_instrs (hg : WellFormed g) {name : String}
    (h : Grow (g.inMethodBlock name) g₁) {b : Nat} (hb : b < g.blocks.length) :
    g₁.instrs b = g.instrs b := by
  have hlt : b < (g.inMethodBlock name).blocks.length :=
    hb.trans (by rw [inMethodBlock_length]; exact Nat.lt_succ_self _)
  rcases h.kept b hlt hb.ne with hsame | ⟨he, -⟩
  · exact hsame.trans (inMethodBlock_instrs name b)
  · have hfn := (entry_iff.mp he).1
    rw [inMethodBlock_fnOf name hb] at hfn
    exact absurd (hg.fn_lt b _ hfn) (Nat.lt_irrefl _)

/-- The blocks that it adds are of new functions. -/
theorem Grow.method_fn {name : String} (h : Grow (g.inMethodBlock name) g₁) {b fn : Nat}
    (hb : g.blocks.length ≤ b) (hfn : g₁.fnOf b = some fn) : g.functions ≤ fn := by
  rcases Nat.eq_or_lt_of_le hb with rfl | hb
  · have hself : g.blocks.length < (g.inMethodBlock name).blocks.length := by
      rw [inMethodBlock_length]
      exact Nat.lt_succ_self g.blocks.length
    have hnew := (h.fnOf g.blocks.length hself).symm.trans hfn
    rw [inMethodBlock_fnOf_self] at hnew
    exact (Option.some.inj hnew).le
  · rcases h.fn_new b fn ((inMethodBlock_length name).le.trans hb) hfn with heq | hle
    · exact heq.ge
    · exact (Nat.le_succ _).trans hle

/-- Code in a method of its own. -/
theorem Grow.withMethod (hg : WellFormed g) {name : String}
    (h : Grow (g.inMethodBlock name) g₁) :
    Grow g { g₁ with
      build := g.build
      current_method := g.current_method
      self_ref := g.self_ref } := by
  have hfnOf : ∀ b < g.blocks.length, g₁.fnOf b = g.fnOf b := fun b hb =>
    (h.fnOf b (hb.trans (by rw [inMethodBlock_length]; exact Nat.lt_succ_self _))).trans
      (inMethodBlock_fnOf name hb)
  exact
    { wellFormed :=
        { h.wellFormed with
          build := (hfnOf _ hg.build_lt).trans hg.build
          locals_lt := fun p hp => (hg.locals_lt p hp).trans_le h.next }
      length := (Nat.le_succ _).trans ((inMethodBlock_length name).ge.trans h.length)
      longer := fun b => inMethodBlock_instrs (g := g) name b ▸ h.longer b
      fnOf := hfnOf
      kept := fun _ hb _ => .inl (h.method_instrs hg hb)
      build := .inl rfl
      fn_new := fun _ _ hb hfn => .inr (h.method_fn hb hfn)
      next := h.next
      result := fun b => inMethodBlock_instrs (g := g) name b ▸ h.result b
      functions := (Nat.le_succ _).trans h.functions
      method := rfl
      locals := ⟨[], .none rfl⟩
      landingpad := h.landingpad
      self_ref := rfl }

/-! ### The slots of the entry block -/

theorem WellFormed.current_lt (h : WellFormed g) : g.current_method.fn < g.functions :=
  h.fn_lt _ _ h.build

theorem Grow.emitHere (h : Grow g₀ g) {i : Instr} (hi : i.result = none) :
    Grow g₀ (g.emitAt g.build i) :=
  h.emitAt h.build hi

theorem Grow.emitNewHere (h : Grow g₀ g) {i : Nat → Instr} (hi : ∀ r, (i r).result = some r) :
    Grow g₀ (g.emitNew g.build i) :=
  h.emitNew h.build hi

/-- The entry block of the builder's method is there. -/
theorem entryBlockBuilder_ok (hg : WellFormed g) {b : Nat}
    (h : entryBlockBuilder g = .ok (b, g')) : IsEntry g b ∧ g' = g := by
  obtain ⟨e, -, he⟩ := hg.entry
  have heq : entryBlockBuilder g = .ok (e, g) := by
    rw [entryBlockBuilder, show g.entry? g.current_method.fn = some e from he]
  obtain ⟨rfl, rfl⟩ := Prod.mk.inj (Except.ok.inj (heq.symm.trans h))
  exact ⟨he, rfl⟩

theorem emitNew_isEntry {b e : Nat} {i : Nat → Instr} (he : IsEntry g e) :
    IsEntry (g.emitNew b i) e := by
  obtain ⟨hfn, hbefore⟩ := entry_iff.mp he
  refine entry_iff.mpr ⟨(CodegenContext.emitAt_fnOf b e _).trans hfn, fun c hc hfn' => ?_⟩
  exact hbefore c hc ((CodegenContext.emitAt_fnOf b c _).symm.trans hfn')

theorem allocaInEntry_ok (hg : WellFormed g) {v : Operand}
    (h : allocaInEntry g = .ok (v, g')) :
    ∃ e, IsEntry g e ∧ v = .reg g.next ∧ g' = g.emitNew e .alloca := by
  simp only [allocaInEntry, bind_ok, emitRegAt_ok, pure_ok] at h
  obtain ⟨e, _, he, r, _, ⟨rfl, rfl⟩, rfl, rfl⟩ := h
  obtain ⟨he, rfl⟩ := entryBlockBuilder_ok hg he
  exact ⟨e, he, rfl, rfl⟩

theorem mem_of_lookup {l : List (String × Nat)} {name : String} {slot : Nat}
    (h : l.lookup name = some slot) : (name, slot) ∈ l := by
  obtain ⟨l₁, l₂, rfl, -⟩ := List.lookup_eq_some_iff.mp h
  exact List.mem_append_right _ (.head _)

/-- The context after a local has got its slot. -/
def CodegenContext.withLocal (g : CodegenContext) (e : Nat) (name : String) : CodegenContext :=
  let g₁ := ((g.emitNew e .alloca).emitNew e fun c => .bitCast c (.reg g.next)).emitNew e
    fun c => .call c "llvm.gcroot" [.reg (g.next + 1), .null]
  { g₁ with current_method := { g₁.current_method with
    locals := (name, g.next) :: g₁.current_method.locals } }

theorem createLocal_ok (hg : WellFormed g) {name : String} {v : Operand}
    (h : createLocal name g = .ok (v, g')) :
    ∃ e, IsEntry g e ∧ v = .reg g.next ∧ g' = g.withLocal e name := by
  simp only [createLocal, bind_ok, emitRegAt_ok, pure_ok] at h
  obtain ⟨e, _, he, r, _, ⟨rfl, rfl⟩, c, _, ⟨rfl, rfl⟩, c', _, ⟨rfl, rfl⟩, u, _, hlocal, rfl,
    rfl⟩ := h
  obtain ⟨he, rfl⟩ := entryBlockBuilder_ok hg he
  obtain ⟨-, rfl⟩ := Prod.mk.inj (Except.ok.inj hlocal)
  exact ⟨e, he, rfl, rfl⟩

theorem grow_withLocal (hg : WellFormed g) {e : Nat} (he : IsEntry g e) {name : String}
    (hname : g.current_method.locals.lookup name = none) : Grow g (g.withLocal e name) := by
  have h₁ := (Grow.refl hg).emitNewEntry hg he (i := .alloca) (fun _ => rfl) fun _ => rfl
  have h₂ := h₁.emitNewEntry hg (i := fun c => .bitCast c (.reg g.next)) (emitNew_isEntry he)
    (fun _ => rfl) fun _ => rfl
  have h₃ := h₂.emitNewEntry hg (i := fun c => .call c "llvm.gcroot" [.reg (g.next + 1), .null])
    (emitNew_isEntry (emitNew_isEntry he)) (fun _ => rfl) fun _ => rfl
  have hlt : e < g.blocks.length := CodegenContext.lt_of_fnOf (entry_iff.mp he).1
  have halloca : Instr.alloca g.next ∈ (g.emitNew e .alloca).instrs e := by
    rw [show (g.emitNew e .alloca).instrs e = g.instrs e ++ [.alloca g.next] from
      CodegenContext.emitAt_instrs_self hlt _]
    exact List.mem_append_right _ (.head _)
  refine h₃.addLocal hname (Nat.le_refl _)
    (Nat.lt_succ_of_lt (Nat.lt_succ_of_lt (Nat.lt_succ_self g.next)))
    (fun p hp => (hg.locals_lt p hp).ne) fun e' he' => ?_
  obtain rfl := he.unique he'
  exact ((CodegenContext.emitAt_longer e e _).trans
    (CodegenContext.emitAt_longer (g := (g.emitNew e .alloca).emitNew e
      fun c => .bitCast c (.reg g.next)) e e _)).subset halloca

/-- The context after an `invoke`, in the block that follows it. -/
def CodegenContext.invoked (g : CodegenContext) (name : String)
    (i : Nat → Instr) : CodegenContext :=
  { (g.append name).emitNew g.build i with build := g.blocks.length }

theorem grow_invoked (hg : WellFormed g) (name : String) {i : Nat → Instr}
    (hi : ∀ r, (i r).result = some r) : Grow g (g.invoked name i) := by
  have happend := (Grow.refl hg).append hg.current_lt name
  refine (happend.emitNew (.inl rfl) hi).position (.inr (Nat.le_refl _)) ?_
  exact (CodegenContext.emitAt_fnOf ..).trans (CodegenContext.append_fnOf_self name)

end Pup.Codegen
