/-
Programs over integers do what they mean, from the text to the Fixnums.

The text is parsed and compiled, and its code is executed with the runtime that it is linked
with.  It returns exactly if the program comes to an end, and then the slots of the locals
hold Fixnums of what the program has computed (`program_ends_iff`).  What the rules for
commands prove of a program over the integers holds of the Fixnums (`triple_compiled`); a
program that halves a number is proved with them (`triple_halve`).
-/
import Pup.Compile
import Pup.Integers.Runs

namespace Pup.Integers

open Imp Parse
open Transition (Reachable)
open Codegen (Interp scopeStmts Machine generate codegenStmts hasCodeExpr hasCodeStmts hasValue
  coreExpr coreStmts literals literalsExpr)

/-! ### The code is generated -/

theorem hasCode_int (e : IntExpr) : hasCodeExpr e.expr = true := by
  induction e with
  | literal l => rfl
  | name n => rfl
  | plus left right ihl ihr =>
      show (hasCodeExpr left.expr && (hasCodeExpr right.expr && true)) = true
      rw [ihl, ihr]
      rfl

theorem hasCode_condition (c : Condition) : hasCodeExpr c.expr = true := by
  cases c with
  | bool b => rfl
  | less left right | equal left right =>
      show (hasCodeExpr left.expr && (hasCodeExpr right.expr && true)) = true
      rw [hasCode_int, hasCode_int]
      rfl

theorem hasCodeStmts_append (ss ss' : List Stmt) :
    hasCodeStmts (ss ++ ss') = (hasCodeStmts ss && hasCodeStmts ss') := by
  induction ss with
  | nil => rfl
  | cons s ss ih => rw [List.cons_append, hasCodeStmts, hasCodeStmts, ih, Bool.and_assoc]

theorem stmts_ne_nil (p : Code) : stmts p ≠ [] := by
  induction p with
  | act a => exact List.cons_ne_nil _ _
  | seq p q ihp _ => exact List.append_ne_nil_of_left_ne_nil ihp _
  | ifElse c p q => exact List.cons_ne_nil _ _
  | while_ c p => exact List.cons_ne_nil _ _

theorem hasValue_of_hasCode {ss : List Stmt} (h : hasCodeStmts ss = true) (hne : ss ≠ []) :
    hasValue ss = true := by
  rw [← Codegen.hasValue_eq, h]
  simpa using hne

theorem hasCode_stmts (p : Code) : hasCodeStmts (stmts p) = true := by
  induction p with
  | act a =>
      show (hasCodeExpr a.value.expr && true) = true
      rw [hasCode_int]
      rfl
  | seq p q ihp ihq =>
      rw [stmts, hasCodeStmts_append, ihp, ihq]
      rfl
  | ifElse c p q ihp ihq =>
      show (hasCodeExpr c.expr && (hasValue (stmts p) && hasValue (stmts q)) && true) = true
      rw [hasCode_condition, hasValue_of_hasCode ihp (stmts_ne_nil p),
        hasValue_of_hasCode ihq (stmts_ne_nil q)]
      rfl
  | while_ c p ih =>
      show (hasCodeExpr c.expr && hasValue (stmts p) && true) = true
      rw [hasCode_condition, hasValue_of_hasCode ih (stmts_ne_nil p)]
      rfl

theorem core_int (e : IntExpr) : coreExpr e.expr = true := by
  induction e with
  | literal l => rfl
  | name n => rfl
  | plus left right ihl ihr =>
      show (true && coreExpr left.expr && coreExpr right.expr) = true
      rw [ihl, ihr]
      rfl

theorem core_condition (c : Condition) : coreExpr c.expr = true := by
  cases c with
  | bool b => rfl
  | less left right | equal left right =>
      show (true && coreExpr left.expr && coreExpr right.expr) = true
      rw [core_int, core_int]
      rfl

theorem coreStmts_append (ss ss' : List Stmt) :
    coreStmts (ss ++ ss') = (coreStmts ss && coreStmts ss') := by
  induction ss with
  | nil => rfl
  | cons s ss ih => rw [List.cons_append, coreStmts, coreStmts, ih, Bool.and_assoc]

theorem core_stmts (p : Code) : coreStmts (stmts p) = true := by
  induction p with
  | act a =>
      show (("=" == "=") && coreExpr a.value.expr && true) = true
      rw [core_int]
      rfl
  | seq p q ihp ihq =>
      rw [stmts, coreStmts_append, ihp, ihq]
      rfl
  | ifElse c p q ihp ihq =>
      show (coreExpr c.expr && coreStmts (stmts p) && coreStmts (stmts q) && true) = true
      rw [core_condition, ihp, ihq]
      rfl
  | while_ c p ih =>
      show (coreExpr c.expr && coreStmts (stmts p) && true) = true
      rw [core_condition, ih]
      rfl

theorem generate_stmts (p : Code) : ∃ g, generate (stmts p) = .ok g :=
  (Codegen.generate_iff_hasValue _).mpr (hasValue_of_hasCode (hasCode_stmts p) (stmts_ne_nil p))

theorem literals_int (e : IntExpr) : literalsExpr e.expr = e.numbers := by
  induction e with
  | literal l =>
      show [toI (String.ofList l.digits)] = [l.value]
      rw [toI_ofList]
      rfl
  | name n => rfl
  | plus left right ihl ihr =>
      show literalsExpr left.expr ++ literalsExpr right.expr = _
      rw [ihl, ihr]
      rfl

theorem literals_condition (c : Condition) : literalsExpr c.expr = c.numbers := by
  cases c with
  | bool b => rfl
  | less left right | equal left right =>
      show literalsExpr left.expr ++ literalsExpr right.expr = _
      rw [literals_int, literals_int]
      rfl

theorem literals_append (ss ss' : List Stmt) :
    literals (ss ++ ss') = literals ss ++ literals ss' := by
  induction ss with
  | nil => rfl
  | cons s ss ih => rw [List.cons_append, literals, literals, ih, List.append_assoc]

/-- The literals of the statements are the numbers of the program. -/
theorem literals_stmts (p : Code) : literals (stmts p) = numbers p := by
  induction p with
  | act a =>
      show literalsExpr a.value.expr ++ [] = _
      rw [List.append_nil, literals_int]
      rfl
  | seq p q ihp ihq => rw [stmts, literals_append, ihp, ihq]; rfl
  | ifElse c p q ihp ihq =>
      show (literalsExpr c.expr ++ (literals (stmts p) ++ literals (stmts q))) ++ [] = _
      rw [List.append_nil, literals_condition, ihp, ihq]
      rfl
  | while_ c p ih =>
      show (literalsExpr c.expr ++ literals (stmts p)) ++ [] = _
      rw [List.append_nil, literals_condition, ih]
      rfl

/-- A program is compiled if none of its literals is refused. -/
theorem compileFile_program {P : Platform} {p : Code} (haccepted : Accepted P (numbers p))
    {file : List Char} (hfile : parseFile file = .ok (stmts p)) :
    ∃ g, generate (stmts p) = .ok g ∧ compileFile P.accepts file = .ok g := by
  obtain ⟨g, hg⟩ := generate_stmts p
  exact ⟨g, hg, compileFile_ok_iff.mpr ⟨_, hfile, hg, (literals_stmts p).symm ▸ haccepted⟩⟩

/-- The text of a program is read as the program. -/
theorem parseFile_program (p : Code) : parseFile (text p) = .ok (stmts p) := by
  have h := parseFile_text ⟨printed 0 p none, some (indented 0)⟩
  rwa [printed_stmts, Option.elim_none, List.append_nil] at h

/-! ### The machine -/

/-- Code in which no name is read before it has been assigned to. -/
structure IntProgram where
  code : Code
  vars : List String
  assigned : assignedAfter code [] = some vars

/-- The slots of the locals of `main`. -/
def slots (ss : List Stmt) : List (String × Nat) :=
  match codegenStmts ss .unitBody with
  | .ok (_, g) => g.current_method.locals
  | .error _ => []

/-- No call has raised, and the slots hold what is in the store. -/
structure Ended (P : Platform) (s₀ : Runtime.State) (main : Runtime.Ref) (ss : List Stmt)
    (ρ : Store (BitVec 32)) (t : Machine Answer) : Prop where
  returned : t.progress = .returned
  holds : ∃ s v, replay (comparing P) s₀ main t.world.calls = .ok (s, v) ∧
    ∀ name w, ρ name = some w → ∃ slot r, (slots ss).lookup name = some slot ∧
      t.cells slot 0 = .ref r ∧ s.fixnum (some r) = .ok w

section Machine

variable {P : Platform} {s₀ : Runtime.State} {main : Runtime.Ref} {g : Codegen.CodegenContext}

variable (P s₀ main) in
/-- The machine comes to what the interpreter comes to. -/
theorem agrees_stmts (p : Code) (hg : generate (stmts p) = .ok g) (cells : Nat → Nat → Answer)
    (left : Nat) : ∃ locals n, ∀ m ≥ n, Codegen.Agrees (slots (stmts p))
      (Machine.run (runs P s₀ main) g m (.start cells left))
      (Interp.execStmts (runs P s₀ main) (stmts p) [] ⟨locals, ⟨[], left⟩⟩) := by
  obtain ⟨v, g₁, hrun, -, -, hagrees⟩ :=
    Codegen.runs_as_meant hg (core_stmts p) (runs P s₀ main)
  have hslots : slots (stmts p) = g₁.current_method.locals := by rw [slots, hrun]
  -- the locals are what is in their slots
  let locals := fun name => ((slots (stmts p)).lookup name).elim (.ref 0) (cells · 0)
  have hcells : ∀ name slot, g₁.current_method.locals.lookup name = some slot →
      cells slot 0 = locals name := by
    intro name slot hslot
    simp only [locals, hslots, hslot, Option.elim_some]
  obtain ⟨n, hn⟩ := hagrees cells locals left hcells
  exact ⟨locals, n, fun m hm => hslots ▸ hn m hm⟩

/-- The slots are those of the names that the code assigns to. -/
theorem slots_lookup (p : Code) (hg : generate (stmts p) = .ok g) {x : String}
    (hx : x ∈ targets p) : ∃ slot, (slots (stmts p)).lookup x = some slot := by
  obtain ⟨v, g₁, hrun, -, hscoped, -⟩ :=
    Codegen.runs_as_meant hg (core_stmts p) (⟨0, 0, 0, fun _ => 0⟩ : Codegen.Runtime Nat)
  have hslots : slots (stmts p) = g₁.current_method.locals := by rw [slots, hrun]
  rw [hslots, ← Option.isSome_iff_exists, hscoped]
  exact List.contains_iff_mem.mpr ((mem_scope_iff p).mpr (.inl hx))

/-- What has been assigned to is a target. -/
theorem mem_targets {p : Code} {ρ' : Store (BitVec 32)} (h : Runs (ints P) p .empty ρ')
    {x : String} {w : BitVec 32} (hx : ρ' x = some w) : x ∈ targets p := by
  by_contra hnot
  rw [eq_of_not_mem_targets h hnot] at hx
  cases hx

variable (main) in
/-- A run of the program is one of its code. -/
theorem ended_of_runs (hs₀ : Runtime.Typed s₀) (hcalm : Calm P) (p : IntProgram)
    (hg : generate (stmts p.code) = .ok g) {ρ' : Store (BitVec 32)}
    (hruns : Runs (ints P) p.code .empty ρ') (cells : Nat → Nat → Answer) :
    ∃ count, ∀ left, ∃ n, ∀ m ≥ n,
      (left < count →
        (Machine.run (runs P s₀ main) g m (.start cells left)).progress = .waiting) ∧
      (count ≤ left → Ended P s₀ main (stmts p.code) ρ'
        (Machine.run (runs P s₀ main) g m (.start cells left))) := by
  obtain ⟨count, hcount⟩ := performs_of_runs main hs₀ hcalm p.code p.assigned hruns
  refine ⟨count, fun left => ?_⟩
  obtain ⟨locals, n, hagrees⟩ := agrees_stmts P s₀ main p.code hg cells left
  have houtcome := hcount [] (List.forall_mem_nil _) ⟨locals, ⟨[], left⟩⟩ s₀ ⟨hs₀, .ref main, rfl⟩
    (holds_empty locals s₀)
  refine ⟨n, fun m hm => ?_⟩
  have hm := hagrees m hm
  generalize Interp.execStmts (runs P s₀ main) (stmts p.code) [] ⟨locals, ⟨[], left⟩⟩ = o
    at houtcome hm
  cases houtcome with
  | waits hlt => exact ⟨fun _ => hm.waits rfl, fun hle => absurd hlt (Nat.not_lt.mpr hle)⟩
  | @goes _ σ' s' hat' hleft hholds =>
      have hleft : σ'.world.left + count = left := hleft
      refine ⟨fun hlt => by omega, fun _ => ⟨hm.returns rfl, s', ?_⟩⟩
      obtain ⟨-, v, hreplay⟩ := hat'
      refine ⟨v, (congrArg _ hm.calls).trans hreplay, fun name w hw => ?_⟩
      obtain ⟨slot, hslot⟩ := slots_lookup p.code hg (mem_targets hruns hw)
      obtain ⟨r, hr, hfixnum⟩ := hholds name w hw
      exact ⟨slot, r, hslot, (hm.locals rfl name slot hslot).trans hr, hfixnum⟩

/-- Code that has returned is that of a program that has come to an end. -/
theorem runs_of_returned (hs₀ : Runtime.Typed s₀) (hcalm : Calm P) (p : IntProgram)
    (haccepted : Accepted P (numbers p.code)) (hg : generate (stmts p.code) = .ok g)
    {cells : Nat → Nat → Answer} {left n : Nat}
    (hreturned : (Machine.run (runs P s₀ main) g n (.start cells left)).progress = .returned) :
    ∃ ρ', Runs (ints P) p.code .empty ρ' := by
  obtain ⟨locals, n', hagrees⟩ := agrees_stmts P s₀ main p.code hg cells left
  -- the machine has halted, and so is where the interpreter has come to
  have hm := hagrees (n' + n) (Nat.le_add_right ..)
  have hhalted : (Machine.run (runs P s₀ main) g n (.start cells left)).progress ≠ .running := by
    rw [hreturned]
    intro h
    cases h
  have hsame : Machine.run (runs P s₀ main) g (n' + n) (.start cells left) =
      Machine.run (runs P s₀ main) g n (.start cells left) := by
    rw [Machine.run, Function.iterate_add_apply]
    exact Machine.run_halted hhalted n'
  rw [hsame] at hm
  rcases hexec : Interp.execStmts (runs P s₀ main) (stmts p.code) [] ⟨locals, ⟨[], left⟩⟩ with
    ⟨_ | _, σ'⟩
  · rw [hexec] at hm
    cases hreturned.symm.trans (hm.waits rfl)
  · obtain ⟨ρ', -, hruns, -⟩ := arrives_of_exec hs₀ hcalm p.code p.assigned haccepted
      (List.forall_mem_nil _) ⟨hs₀, .ref main, rfl⟩ (holds_empty locals s₀)
      (List.forall_mem_nil _) hexec
    exact ⟨ρ', hruns⟩

variable (main)

/--
**A program over integers returns exactly if it comes to an end, and then with what it has
computed.**  For every platform at whose safepoints nothing is collected, every state of the
runtime in which the program is launched and every file that is read as the program and has no
literal that is refused: the file is compiled; its code returns for some number of answers
exactly if the program has a run; and for a run there is a number of answers below which the
code waits for one, and from which on it returns, with Fixnums of the run's values in the slots
of its locals.
-/
theorem program_ends_iff (hs₀ : Reachable Runtime.runtimeMachine s₀) (hcalm : Calm P)
    (p : IntProgram) (haccepted : Accepted P (numbers p.code)) {file : List Char}
    (hfile : parseFile file = .ok (stmts p.code)) :
    ∃ g, compileFile P.accepts file = .ok g ∧ ∀ cells,
      ((∃ left n, (Machine.run (runs P s₀ main) g n (.start cells left)).progress = .returned) ↔
        ∃ ρ', Runs (ints P) p.code .empty ρ') ∧
      ∀ ρ', Runs (ints P) p.code .empty ρ' → ∃ count, ∀ left, ∃ n, ∀ m ≥ n,
        (left < count →
          (Machine.run (runs P s₀ main) g m (.start cells left)).progress = .waiting) ∧
        (count ≤ left → Ended P s₀ main (stmts p.code) ρ'
          (Machine.run (runs P s₀ main) g m (.start cells left))) := by
  have hs₀ := Runtime.typed_of_reachable hs₀
  obtain ⟨g, hg, hcompiled⟩ := compileFile_program haccepted hfile
  refine ⟨g, hcompiled, fun cells => ⟨⟨?_, ?_⟩, fun ρ' hruns => ?_⟩⟩
  · rintro ⟨left, n, hreturned⟩
    exact runs_of_returned hs₀ hcalm p haccepted hg hreturned
  · rintro ⟨ρ', hruns⟩
    obtain ⟨count, hcount⟩ := ended_of_runs main hs₀ hcalm p hg hruns cells
    obtain ⟨n, hn⟩ := hcount count
    exact ⟨count, n, ((hn n (Nat.le_refl n)).2 (Nat.le_refl count)).returned⟩
  · exact ended_of_runs main hs₀ hcalm p hg hruns cells

end Machine

/-! ### What is proved of the integers -/

section Integers

variable {P : Platform} {s₀ : Runtime.State} (main : Runtime.Ref)

/-- No call has raised, and the slots hold Fixnums of the integers. -/
structure Computed (P : Platform) (s₀ : Runtime.State) (main : Runtime.Ref) (ss : List Stmt)
    (ρ : Store ℤ) (t : Machine Answer) : Prop where
  returned : t.progress = .returned
  holds : ∃ s v, replay (comparing P) s₀ main t.world.calls = .ok (s, v) ∧
    ∀ name n, ρ name = some n → ∃ slot r w, (slots ss).lookup name = some slot ∧
      t.cells slot 0 = .ref r ∧ s.fixnum (some r) = .ok w ∧ w.toInt = n

theorem Ended.computed {ss : List Stmt} {ρ : Store ℤ} {τ : Store (BitVec 32)}
    {t : Machine Answer} (h : Ended P s₀ main ss τ t) (hρ : Represents ρ τ) :
    Computed P s₀ main ss ρ t := by
  obtain ⟨s, v, hreplay, hholds⟩ := h.holds
  refine ⟨h.returned, s, v, hreplay, fun name n hn => ?_⟩
  obtain ⟨w, hw, hn⟩ := hρ name n hn
  obtain ⟨slot, r, hslot, hr, hfixnum⟩ := hholds name w hw
  exact ⟨slot, r, w, hslot, hr, hfixnum, hn⟩

/--
**What the rules prove of a program, its code does.**  If a program over the integers comes to
an end with `Q` and no literal of it is refused, a file that is read as the program is compiled,
and with so many answers as it takes the code returns, with Fixnums in the slots of its locals
whose values have `Q`, as long as nothing is collected at a safepoint.
-/
theorem triple_compiled (hs₀ : Reachable Runtime.runtimeMachine s₀) (hcalm : Calm P)
    (hP : P.Sound) (hlit : ∀ n < 2 ^ 31, (P.llvmInt n).isSome = true) (p : IntProgram)
    (haccepted : Accepted P (numbers p.code)) {file : List Char}
    (hfile : parseFile file = .ok (stmts p.code)) {Q : Store ℤ → Prop}
    (hQ : Triple integers (· = .empty) p.code Q) :
    ∃ g ρ, compileFile P.accepts file = .ok g ∧ Q ρ ∧ ∀ cells, ∃ count, ∀ left ≥ count,
      ∃ n, ∀ m ≥ n, Computed P s₀ main (stmts p.code) ρ
        (Machine.run (runs P s₀ main) g m (.start cells left)) := by
  obtain ⟨ρ, hruns, hρ⟩ := hQ _ rfl
  obtain ⟨τ, hτ, hrepresents⟩ :=
    hruns.simulated (simulates_integers hP hlit) (represents_empty .empty)
  obtain ⟨g, hg, hcompiled⟩ := compileFile_program haccepted hfile
  refine ⟨g, ρ, hcompiled, hρ, fun cells => ?_⟩
  obtain ⟨count, hcount⟩ := ended_of_runs main (Runtime.typed_of_reachable hs₀) hcalm p hg hτ cells
  refine ⟨count, fun left hleft => ?_⟩
  obtain ⟨n, hn⟩ := hcount left
  exact ⟨n, fun m hm => ((hn m hm).2 hleft).computed main hrepresents⟩

end Integers

/-! ### A program that halves -/

def iName : Name := ⟨"i", ⟨'i', [], rfl, by decide, by decide⟩, by decide, by decide⟩

def halfName : Name :=
  ⟨"half", ⟨'h', "alf".toList, by decide, by decide, by decide⟩, by decide, by decide⟩

def oddName : Name :=
  ⟨"odd", ⟨'o', "dd".toList, by decide, by decide, by decide⟩, by decide, by decide⟩

def zero : Literal := ⟨['0'], .inl rfl⟩

def setTo (name : Name) (l : Literal) : Code := .act ⟨name, .literal l⟩

def increment (name : Name) : Code := .act ⟨name, .plus (.name name) (.literal one)⟩

/-- `i` counts up to the number, and every second time `half` does. -/
def halveStep : Code :=
  .seq (increment iName) (.ifElse (.equal (.name oddName) (.literal zero)) (setTo oddName one)
    (.seq (setTo oddName zero) (increment halfName)))

def halve (l : Literal) : Code :=
  .seq (setTo iName zero) (.seq (setTo halfName zero) (.seq (setTo oddName zero)
    (.while_ (.less (.name iName) (.literal l)) halveStep)))

def seven : Literal := ⟨['7'], .inr ⟨'7', [], rfl, by decide, by decide, rfl⟩⟩

example : text (halve seven) =
    ("i = 0\nhalf = 0\nodd = 0\nwhile (i) < (7)\n" ++
      "  i = (i) + (1)\n  if (odd) == (0)\n    odd = 1\n  else\n    odd = 0\n" ++
      "    half = (half) + (1)\n  end\nend\n").toList := by decide +kernel

/-- What the names are. -/
structure Counts (i half odd : Nat) (ρ : Store ℤ) : Prop where
  i : ρ "i" = some (i : ℤ)
  half : ρ "half" = some (half : ℤ)
  odd : ρ "odd" = some (odd : ℤ)

theorem one_fits : fits (one.value : ℤ) = some 1 := by
  have hvalue : one.value = 1 := by decide
  rw [hvalue]
  exact_mod_cast fits_cast (n := 1) (by omega)

theorem zero_fits : fits (zero.value : ℤ) = some 0 := by
  have hvalue : zero.value = 0 := by decide
  rw [hvalue]
  exact_mod_cast fits_cast (n := 0) (by omega)

theorem triple_setTo {P Q : Store ℤ → Prop} (name : Name) {l : Literal} {n : Nat}
    (hl : fits (l.value : ℤ) = some ↑n)
    (h : ∀ ρ, P ρ → Q (Function.update ρ name.text (some ↑n))) :
    Triple integers P (setTo name l) Q := by
  refine .act fun ρ hρ => ⟨_, ?_, h ρ hρ⟩
  rw [integers_act, IntExpr.value, hl]
  rfl

theorem triple_increment {P Q : Store ℤ → Prop} (name : Name) {n : Nat} (hn : n + 1 < 2 ^ 31)
    (hname : ∀ ρ, P ρ → ρ name.text = some ↑n)
    (h : ∀ ρ, P ρ → Q (Function.update ρ name.text (some ↑(n + 1)))) :
    Triple integers P (increment name) Q := by
  refine .act fun ρ hρ => ⟨_, ?_, h ρ hρ⟩
  have hsum : fits ((n : ℤ) + 1) = some ↑(n + 1) := by exact_mod_cast fits_cast hn
  have hbind : (IntExpr.plus (.name name) (.literal one)).value ρ =
      (ρ name.text).bind fun a => (fits one.value).bind fun b => fits (a + b) := rfl
  rw [integers_act, hbind, hname ρ hρ, one_fits, Option.bind_some, Option.bind_some, hsum]
  rfl

/-- A round: what has been even is odd, and what has been odd is even and one more half. -/
theorem triple_halveStep {k : Nat} (hk : k + 1 < 2 ^ 31) :
    Triple integers (Counts k (k / 2) (k % 2)) halveStep
      (Counts (k + 1) ((k + 1) / 2) ((k + 1) % 2)) := by
  have hi : Triple integers (Counts k (k / 2) (k % 2)) (increment iName)
      (Counts (k + 1) (k / 2) (k % 2)) :=
    triple_increment iName hk (fun ρ h => h.i) fun ρ h =>
      ⟨rfl, h.half, h.odd⟩
  have htest : ∀ ρ, Counts (k + 1) (k / 2) (k % 2) ρ →
      integers.test (.equal (.name oddName) (.literal zero)) ρ =
        some (decide (((k % 2 : Nat) : ℤ) = 0)) := by
    intro ρ h
    have hbind : integers.test (.equal (.name oddName) (.literal zero)) ρ =
        (ρ "odd").bind fun a => (fits zero.value).bind fun b => some (decide (a = b)) := rfl
    rw [hbind, h.odd, zero_fits]
    rfl
  refine hi.seq (.ifElse (fun ρ h => ⟨_, htest ρ h⟩) ?_ ?_)
  · refine triple_setTo (n := 1) oddName one_fits fun ρ h => ?_
    obtain ⟨h, hodd⟩ := h
    have hodd := of_decide_eq_true (Option.some.inj ((htest ρ h).symm.trans hodd))
    have hhalf : (k + 1) / 2 = k / 2 := by omega
    have hodd' : (k + 1) % 2 = 1 := by omega
    rw [hhalf, hodd']
    exact ⟨h.i, h.half, rfl⟩
  · have hset : Triple integers (fun ρ => Counts (k + 1) (k / 2) (k % 2) ρ ∧
        integers.test (.equal (.name oddName) (.literal zero)) ρ = some false)
        (setTo oddName zero) fun ρ => Counts (k + 1) (k / 2) 0 ρ ∧ k % 2 = 1 := by
      refine triple_setTo (n := 0) oddName zero_fits fun ρ h => ?_
      obtain ⟨h, hodd⟩ := h
      have hodd := of_decide_eq_false (Option.some.inj ((htest ρ h).symm.trans hodd))
      exact ⟨⟨h.i, h.half, rfl⟩, by omega⟩
    refine hset.seq (triple_increment (n := k / 2) halfName (by omega) (fun ρ h => h.1.half)
      fun ρ h => ?_)
    obtain ⟨h, hodd⟩ := h
    have hhalf : (k + 1) / 2 = k / 2 + 1 := by omega
    have hodd' : (k + 1) % 2 = 0 := by omega
    rw [hhalf, hodd']
    exact ⟨h.i, rfl, h.odd⟩

/-- **The program halves the number.** -/
theorem triple_halve (l : Literal) (hl : l.value < 2 ^ 31) :
    Triple integers (fun _ => True) (halve l) (Counts l.value (l.value / 2) (l.value % 2)) := by
  let I : Store ℤ → Prop := fun ρ => ∃ k ≤ l.value, Counts k (k / 2) (k % 2) ρ
  have htest : ∀ ρ k, Counts k (k / 2) (k % 2) ρ →
      integers.test (.less (.name iName) (.literal l)) ρ =
        some (decide ((k : ℤ) < l.value)) := by
    intro ρ k h
    have hbind : integers.test (.less (.name iName) (.literal l)) ρ =
        (ρ "i").bind fun a => (fits l.value).bind fun b => some (decide (a < b)) := rfl
    rw [hbind, h.i, fits_cast hl]
    rfl
  have hloop : Triple integers I (.while_ (.less (.name iName) (.literal l)) halveStep)
      fun ρ => I ρ ∧ integers.test (.less (.name iName) (.literal l)) ρ = some false := by
    refine .while_ (fun ρ => (l.value - (ρ "i").getD 0).toNat) (fun ρ h => ?_) fun n ρ h => ?_
    · obtain ⟨k, -, h⟩ := h
      exact ⟨_, htest ρ k h⟩
    · obtain ⟨⟨k, -, h⟩, hless, hn⟩ := h
      have hlt := of_decide_eq_true (Option.some.inj ((htest ρ k h).symm.trans hless))
      obtain ⟨ρ', hruns, h'⟩ := triple_halveStep (k := k) (by omega) ρ h
      refine ⟨ρ', hruns, ⟨k + 1, by omega, h'⟩, ?_⟩
      simp only [h.i, h'.i, Option.getD_some] at hn ⊢
      omega
  have hzero : Triple integers (fun _ => True) (setTo iName zero) fun ρ => ρ "i" = some 0 :=
    triple_setTo (n := 0) iName zero_fits fun _ _ => rfl
  have hhalf : Triple integers (fun ρ => ρ "i" = some 0) (setTo halfName zero)
      fun ρ => ρ "i" = some 0 ∧ ρ "half" = some 0 :=
    triple_setTo (n := 0) halfName zero_fits fun _ h => ⟨h, rfl⟩
  have hodd : Triple integers (fun ρ => ρ "i" = some 0 ∧ ρ "half" = some 0)
      (setTo oddName zero) I :=
    triple_setTo (n := 0) oddName zero_fits fun _ h => ⟨0, Nat.zero_le _, h.1, h.2, rfl⟩
  refine (hzero.seq (hhalf.seq (hodd.seq hloop))).consequence (fun _ h => h) fun ρ h => ?_
  obtain ⟨⟨k, hle, h⟩, hless⟩ := h
  have hge := of_decide_eq_false (Option.some.inj ((htest ρ k h).symm.trans hless))
  obtain rfl : k = l.value := by omega
  exact h

def halveSeven : IntProgram := ⟨halve seven, ["odd", "half", "i"], rfl⟩

/-- At a safepoint nothing is collected unless that has been asked for. -/
def calm : Platform :=
  { native with other := fun s c => if c = .safepoint then .ok (s, .ref 0) else native.other s c }

theorem calm_calm : Calm calm := fun _ => ⟨_, rfl⟩

theorem calm_sound : calm.Sound := ⟨native_sound.width, native_sound.llvmInt, native_sound.add⟩

theorem calm_accepts {n : Nat} (h : n < 2 ^ 31) : (calm.llvmInt n).isSome = true := by
  have hlt : n < 2 ^ 64 := by omega
  show (if n < 2 ^ 64 then some (BitVec.ofNat 64 n) else none).isSome = true
  rw [if_pos hlt]
  rfl

theorem halveSeven_accepted : Accepted calm (numbers halveSeven.code) := by
  intro n hn
  have hall : ∀ n ∈ numbers halveSeven.code, n < 2 ^ 31 := by decide +kernel
  exact calm_accepts (hall n hn)

theorem triple_compiled_halveSeven : ∃ s₀, Reachable Runtime.runtimeMachine s₀ ∧
    ∃ g ρ, compileFile calm.accepts (text (halve seven)) = .ok g ∧ Counts 7 3 1 ρ ∧ ∃ left n,
      Computed calm s₀ 0 (stmts (halve seven)) ρ
        (Machine.run (runs calm s₀ 0) g n (.start (fun _ _ => .ref 0) left)) := by
  obtain ⟨s₀, hs₀⟩ := started
  have hseven : seven.value = 7 := by decide
  have htriple : Triple integers (· = .empty) halveSeven.code (Counts 7 3 1) := by
    have h := triple_halve seven (by rw [hseven]; decide)
    rw [hseven] at h
    exact h.consequence (fun _ _ => trivial) fun _ h => h
  obtain ⟨g, ρ, hg, hρ, hcomputed⟩ := triple_compiled 0 hs₀ calm_calm calm_sound
    (fun _ => calm_accepts) halveSeven halveSeven_accepted (parseFile_program (halve seven)) htriple
  obtain ⟨left, hleft⟩ := hcomputed fun _ _ => .ref 0
  obtain ⟨n, hn⟩ := hleft left (Nat.le_refl left)
  exact ⟨s₀, hs₀, g, ρ, hg, hρ, left, n, hn n (Nat.le_refl n)⟩

theorem program_ends_iff_halveSeven : ∃ s₀, Reachable Runtime.runtimeMachine s₀ ∧
    ∃ g, compileFile calm.accepts (text (halve seven)) = .ok g ∧ ∃ left n,
      (Machine.run (runs calm s₀ 0) g n (.start (fun _ _ => .ref 0) left)).progress =
        .returned := by
  obtain ⟨s₀, hs₀⟩ := started
  obtain ⟨g, hg, h⟩ := program_ends_iff 0 hs₀ calm_calm halveSeven halveSeven_accepted
    (parseFile_program (halve seven))
  have hseven : seven.value < 2 ^ 31 := by decide
  obtain ⟨ρ, hruns, -⟩ := triple_halve seven hseven .empty trivial
  obtain ⟨τ, hτ, -⟩ :=
    hruns.simulated (simulates_integers calm_sound fun _ => calm_accepts) (represents_empty .empty)
  exact ⟨s₀, hs₀, g, hg, (h fun _ _ => .ref 0).1.mpr ⟨τ, hτ⟩⟩

end Pup.Integers
