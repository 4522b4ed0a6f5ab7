/-
What a program that is a sum comes to.

A literal is an integer of any size for the parser, a constant of LLVM's native width in the
generated code, and an `int` in the object that `pup_fixnum_create` makes of it.  What is not
in the sources is the `Platform`: which integers `LLVM.Int` refuses, and what an addition of
`int` is that overflows.  A text that is a sum comes to one outcome (`comes_iff`), and that is
the sum exactly if the sum is an `int` or a literal has been refused.
-/
import Pup.Codegen.Operators
import Pup.Codegen.Refinement
import Pup.Parse.Sums
import Pup.Runtime.Fixnum

namespace Pup

open Parse Peg Transition
open Codegen (Arith Call Interp generate)

/-- What the runtime answers. -/
inductive Answer
  | sym (name : Runtime.Sym)
  | ref (r : Runtime.Ref)
  deriving DecidableEq, Repr

/-- An argument of a method. -/
def Answer.object : Answer → Option Runtime.Ref
  | .ref r => some r
  | .sym _ => none

structure Platform where
  /-- of `LLVM::Int` -/
  width : Nat
  /-- `LLVM.Int` of an integer, or the `RangeError` that it raises -/
  llvmInt : Nat → Option (BitVec width)
  /-- `+` of `int` -/
  add : BitVec 32 → BitVec 32 → BitVec 32
  /-- What the runtime does on the calls that a sum does not make. -/
  other : Runtime.State → Call Answer → Except Runtime.Stop (Runtime.State × Answer)

namespace Platform

/-- What `LLVM.Int` and the addition do with what they can represent. -/
structure Sound (P : Platform) : Prop where
  width : 32 ≤ P.width
  llvmInt : ∀ n v, P.llvmInt n = some v → n < 2 ^ (P.width - 1) → v.toNat = n
  add : ∀ a b, -2 ^ 31 ≤ a.toInt + b.toInt → a.toInt + b.toInt < 2 ^ 31 →
    (P.add a b).toInt = a.toInt + b.toInt

/-- `LLVM.Int` takes the integer. -/
def accepts (P : Platform) (n : Nat) : Bool := (P.llvmInt n).isSome

/-- What `pup_fixnum_create` gets of a constant: the lower half of a wider register. -/
def cInt (P : Platform) (n : Nat) : BitVec 32 := ((P.llvmInt n).getD 0).setWidth 32

/-- A call to the runtime. -/
def handle (P : Platform) (s : Runtime.State) (c : Call Answer) :
    Except Runtime.Stop (Runtime.State × Answer) :=
  match c with
  | .strToSym name => .ok (s, .sym name)
  | .fixnumCreate n =>
      let p := Runtime.pupFixnumCreate s (P.cInt n)
      .ok (p.1, .ref p.2)
  | .invoke (.ref target) (.sym name) args => do
      match ← Runtime.pupInvoke s (some target) name with
      | .pup_fixnum_plus => do
          let p ← Runtime.pupFixnumPlus P.add s (some target) (args.map Answer.object)
          return (p.1, .ref p.2)
      | _ => P.other s c
  | c => P.other s c

end Platform

variable (P : Platform) (s₀ : Runtime.State) (main : Runtime.Ref)

/-- The calls so far, from the state in which `main` is launched. -/
def replay (calls : List (Call Answer)) : Except Runtime.Stop (Runtime.State × Answer) :=
  calls.foldlM (fun p c => P.handle p.1 c) (s₀, .ref main)

/-- The runtime, as the code sees it. -/
def runtime : Codegen.Runtime Answer where
  self := .ref main
  trueinstance := .ref (s₀.env.object_true.getD 0)
  falseinstance := .ref (s₀.env.object_false.getD 0)
  answer calls := (replay P s₀ main calls).toOption.elim (.ref main) Prod.snd

/-! ### From the text to the result -/

/-- The integer literals of a tree. -/
def Codegen.Arith.numbers : Arith → List Nat
  | .int source => [toI source]
  | .binary left _ right => left.numbers ++ right.numbers

/-- The code of an expression, if no literal is refused. -/
def compile (a : Arith) : Option Codegen.CodegenContext :=
  if a.numbers.all fun n => (P.llvmInt n).isSome then (generate [.expr a.expr]).toOption else none

/-- How a program ends. -/
inductive Ending
  | error
  | fixnum (v : BitVec 32)
  /-- with another object, or none -/
  | other
  deriving DecidableEq, Repr

/-- What has been returned, if no call has raised an exception before. -/
def ending (calls : List (Call Answer)) (returned : Option Answer) : Ending :=
  match replay P s₀ main calls, returned with
  | .error _, _ => .error
  | .ok (s, _), some (.ref r) =>
      match s.fixnum (some r) with
      | .ok v => .fixnum v
      | .error _ => .other
  | .ok _, _ => .other

/-- The endings of a text that is read as an expression of integers: it is not compiled, or its
code is executed until it returns, with as many answers of the runtime as that takes. -/
inductive Comes (text : List Char) : Ending → Prop
  | refused {a : Arith}
      (hparse : parse grammar (rule .unit) text = .ok (some [.expr a.expr]) [])
      (hcompile : compile P a = none) : Comes text .error
  | returned {a : Arith} {g : Codegen.CodegenContext} {cells : Nat → Nat → Answer} {left n : Nat}
      {t : Codegen.Machine Answer}
      (hparse : parse grammar (rule .unit) text = .ok (some [.expr a.expr]) [])
      (hcompile : compile P a = some g)
      (hrun : Codegen.Machine.run (runtime P s₀ main) g n (.start cells left) = t)
      (hreturned : t.progress = .returned) :
      Comes text (ending P s₀ main t.world.calls (t.returned (runtime P s₀ main) g))

/-! ### The calls of a sum -/

/-- The value of a tree, as the runtime computes it. -/
def Codegen.Arith.fixnum (P : Platform) : Arith → BitVec 32
  | .int source => P.cInt (toI source)
  | .binary left _ right => P.add (left.fixnum P) (right.fixnum P)

/-- How many calls it takes. -/
def Codegen.Arith.calls : Arith → Nat
  | .int _ => 1
  | .binary left _ right => left.calls + right.calls + 2

/-- All operators are `+`. -/
def Codegen.Arith.IsSum (a : Arith) : Prop := ∀ op ∈ a.operators, op = .plus

theorem isSum_binary {left right : Arith} {op : Codegen.Operator} :
    (Arith.binary left op right).IsSum ↔ op = .plus ∧ left.IsSum ∧ right.IsSum := by
  simp only [Arith.IsSum, Arith.operators, List.mem_append, List.mem_singleton]
  constructor
  · intro h
    exact ⟨h op (.inr rfl), fun o ho => h o (.inl (.inl ho)), fun o ho => h o (.inl (.inr ho))⟩
  · rintro ⟨rfl, hleft, hright⟩ o ((ho | ho) | rfl)
    · exact hleft o ho
    · exact hright o ho
    · rfl

variable {P s₀ main} {s : Runtime.State} {σ : Codegen.State Answer} {v : Answer} {w : BitVec 32}
  {count : Nat}

/-- The runtime is in the state after the calls so far. -/
def At (P : Platform) (s₀ : Runtime.State) (main : Runtime.Ref) (σ : Codegen.State Answer)
    (s : Runtime.State) : Prop :=
  Runtime.Typed s ∧ ∃ v, replay P s₀ main σ.world.calls = .ok (s, v)

/-- Fixnums are as they were. -/
def Keeps (s s' : Runtime.State) : Prop :=
  ∀ r w, s.fixnum (some r) = .ok w → s'.fixnum (some r) = .ok w

/-- There are too few answers left, or so many have been given, and the last call has made a
Fixnum. -/
inductive Makes (P : Platform) (s₀ : Runtime.State) (main : Runtime.Ref) (σ : Codegen.State Answer)
    (s : Runtime.State) (w : BitVec 32) (count : Nat) : Option Answer × Codegen.State Answer → Prop
  | waits {σ' : Codegen.State Answer} (h : σ.world.left < count) :
      Makes P s₀ main σ s w count (none, σ')
  | makes {σ' : Codegen.State Answer} {s' : Runtime.State} {r : Runtime.Ref}
      (hat : At P s₀ main σ' s') (hkeeps : Keeps s s') (hw : s'.fixnum (some r) = .ok w)
      (hleft : σ'.world.left + count = σ.world.left) :
      Makes P s₀ main σ s w count (some (.ref r), σ')

theorem replay_concat (calls : List (Call Answer)) (c : Call Answer) :
    replay P s₀ main (calls ++ [c]) =
      (replay P s₀ main calls).bind fun p => P.handle p.1 c := by
  simp only [replay, List.foldlM_append, List.foldlM_cons, List.foldlM_nil, bind_pure]
  rfl

/-- A call that the runtime handles is answered, if there are answers left. -/
theorem call_handled {c : Call Answer} {s' : Runtime.State} {v : Answer} (hat : At P s₀ main σ s)
    (hc : P.handle s c = .ok (s', v)) (htrue : c ≠ .getTrueinstance)
    (hfalse : c ≠ .getFalseinstance) :
    (σ.world.left = 0 ∧ ∃ σ', Interp.call (runtime P s₀ main) c σ = (none, σ')) ∨
      ∃ σ', Interp.call (runtime P s₀ main) c σ = (some v, σ') ∧
        σ'.world.left + 1 = σ.world.left ∧
        replay P s₀ main σ'.world.calls = .ok (s', v) := by
  obtain ⟨-, v₀, hv₀⟩ := hat
  have hreplay : replay P s₀ main (σ.world.calls ++ [c]) = .ok (s', v) := by
    rw [replay_concat, hv₀]
    exact hc
  have hanswer : (runtime P s₀ main).answer (σ.world.calls ++ [c]) = v := by
    simp [runtime, hreplay, Except.toOption]
  cases hleft : σ.world.left with
  | zero =>
      refine .inl ⟨rfl, { σ with world := ⟨σ.world.calls ++ [c], 0⟩ }, ?_⟩
      cases c <;> first | exact absurd rfl htrue | exact absurd rfl hfalse |
        simp only [Interp.call, Codegen.World.call, hleft]
  | succ left =>
      refine .inr ⟨{ σ with world := ⟨σ.world.calls ++ [c], left⟩ }, ?_, rfl, hreplay⟩
      cases c <;> first | exact absurd rfl htrue | exact absurd rfl hfalse |
        simp only [Interp.call, Codegen.World.call, hleft, hanswer]

theorem Keeps.trans {s s' s'' : Runtime.State} (h : Keeps s s') (h' : Keeps s' s'') : Keeps s s'' :=
  fun r w hr => h' r w (h r w hr)

/-- One evaluation after the other. -/
theorem Makes.bind {x : Interp Answer Answer} {f : Answer → Interp Answer Answer} {w' : BitVec 32}
    {n : Nat} (h : Makes P s₀ main σ s w count (x σ))
    (hf : ∀ r σ' s', At P s₀ main σ' s' → Keeps s s' → s'.fixnum (some r) = .ok w →
      Makes P s₀ main σ' s' w' n (f (.ref r) σ')) :
    Makes P s₀ main σ s w' (count + n) ((x >>= f) σ) := by
  generalize hx : x σ = o at h
  cases h with
  | waits hlt =>
      rw [Codegen.interp_bind_none hx]
      exact .waits (hlt.trans_le (Nat.le_add_right ..))
  | @makes σ' s' r hat hkeeps hw hleft =>
      rw [Codegen.interp_bind_some hx]
      have hrest := hf r σ' s' hat hkeeps hw
      generalize f (.ref r) σ' = o at hrest
      cases hrest with
      | waits hlt => exact .waits (by omega)
      | makes hat' hkeeps' hw' hleft' => exact .makes hat' (hkeeps.trans hkeeps') hw' (by omega)

theorem makes_literal (hat : At P s₀ main σ s) (n : Nat) :
    Makes P s₀ main σ s (P.cInt n) 1 (Interp.call (runtime P s₀ main) (.fixnumCreate n) σ) := by
  obtain ⟨hself, hkeeps⟩ := Runtime.pupFixnumCreate_fixnum s (P.cInt n)
  have hhandle : P.handle s (.fixnumCreate n) = .ok ((Runtime.pupFixnumCreate s (P.cInt n)).1,
    .ref (Runtime.pupFixnumCreate s (P.cInt n)).2) := rfl
  rcases call_handled hat hhandle nofun nofun with ⟨hleft, σ', hcall⟩ | ⟨σ', hcall, hleft, hreplay⟩
  · rw [hcall]
    exact .waits (by omega)
  · rw [hcall]
    exact .makes ⟨hat.1.pupFixnumCreate _, _, hreplay⟩ hkeeps hself hleft

/-- **`+` on two Fixnums makes one of their sum.** -/
theorem makes_plus {l r : Runtime.Ref} {a b : BitVec 32} (hat : At P s₀ main σ s)
    (hl : s.fixnum (some l) = .ok a) (hr : s.fixnum (some r) = .ok b) :
    Makes P s₀ main σ s (P.add a b) 2
      (Interp.invoke (runtime P s₀ main) (.ref l) "+" [.ref r] σ) := by
  obtain ⟨hself, hkeeps⟩ := Runtime.pupFixnumCreate_fixnum s (P.add a b)
  have hsym : P.handle s (.strToSym "+") = .ok (s, .sym "+") := rfl
  have hinvoke : P.handle s (.invoke (.ref l) (.sym "+") [.ref r]) =
      .ok ((Runtime.pupFixnumCreate s (P.add a b)).1,
        .ref (Runtime.pupFixnumCreate s (P.add a b)).2) := by
    simp [Platform.handle, hat.1.pupInvoke_plus hl, hat.1.pupFixnumPlus_ok P.add hl hr, bind,
      Except.bind, pure, Except.pure, Answer.object]
  rw [Interp.invoke]
  rcases call_handled hat hsym nofun nofun with ⟨hleft, σ', hcall⟩ | ⟨σ', hcall, hleft, hreplay⟩
  · rw [Codegen.interp_bind_none hcall]
    exact .waits (by omega)
  · rw [Codegen.interp_bind_some hcall]
    have hat' : At P s₀ main σ' s := ⟨hat.1, _, hreplay⟩
    rcases call_handled hat' hinvoke nofun nofun with
      ⟨hleft', σ'', hcall'⟩ | ⟨σ'', hcall', hleft', hreplay'⟩
    · rw [hcall']
      exact .waits (by omega)
    · rw [hcall']
      exact .makes ⟨hat.1.pupFixnumCreate _, _, hreplay'⟩ hkeeps hself (by omega)

/-- **A sum makes a Fixnum of what the runtime computes.** -/
theorem makes_sum (a : Arith) (hsum : a.IsSum) (hat : At P s₀ main σ s) (scope : List String) :
    Makes P s₀ main σ s (a.fixnum P) a.calls
      (Interp.eval (runtime P s₀ main) a.expr scope σ) := by
  induction a generalizing σ s scope with
  | int source => exact makes_literal hat (toI source)
  | binary left op right ihl ihr =>
      obtain ⟨rfl, hleft, hright⟩ := isSum_binary.mp hsum
      rw [Arith.calls, Nat.add_assoc]
      refine (ihl hleft hat scope).bind fun l σ₁ s₁ hat₁ _ hl => ?_
      refine (ihr hright hat₁ _).bind fun r σ₂ s₂ hat₂ hkeeps hr => ?_
      exact makes_plus hat₂ (hkeeps l _ hl) hr

/-! ### The tree of a written sum -/

mutual

def Parse.Addend.arith : Addend → Arith
  | .literal l => .int (String.ofList l.digits)
  | .group sum => sum.arith

def Parse.Addition.arith : Addition → Arith
  | .one a => a.arith
  | .plus left _ _ right => .binary left.arith .plus right.arith

end

mutual

theorem Parse.Addend.arith_expr : (a : Addend) → a.arith.expr = a.expr
  | .literal _ => rfl
  | .group sum => sum.arith_expr

theorem Parse.Addition.arith_expr : (sum : Addition) → sum.arith.expr = sum.expr
  | .one a => a.arith_expr
  | .plus left _ _ right => by
      rw [Addition.arith, Arith.expr, left.arith_expr, right.arith_expr]
      rfl

end

mutual

theorem Parse.Addend.arith_numbers : (a : Addend) → a.arith.numbers = a.numbers
  | .literal l => congrArg (fun n => [n]) (toI_ofList l.digits)
  | .group sum => sum.arith_numbers

theorem Parse.Addition.arith_numbers : (sum : Addition) → sum.arith.numbers = sum.numbers
  | .one a => a.arith_numbers
  | .plus left _ _ right => by
      rw [Addition.arith, Arith.numbers, left.arith_numbers, right.arith_numbers]
      rfl

end

mutual

theorem Parse.Addend.isSum : (a : Addend) → a.arith.IsSum
  | .literal _ => nofun
  | .group sum => sum.isSum

theorem Parse.Addition.isSum : (sum : Addition) → sum.arith.IsSum
  | .one a => a.isSum
  | .plus left _ _ right => isSum_binary.mpr ⟨rfl, left.isSum, right.isSum⟩

end

theorem core_of_isSum {a : Arith} (hsum : a.IsSum) : Codegen.coreExpr a.expr = true := by
  induction a with
  | int source => rfl
  | binary left op right ihl ihr =>
      obtain ⟨rfl, hleft, hright⟩ := isSum_binary.mp hsum
      rw [Arith.expr, Codegen.coreExpr, ihl hleft, ihr hright]
      rfl

/-! ### The ending -/

/-- What a sum comes to. -/
def expected (P : Platform) (a : Arith) : Ending :=
  if a.numbers.all fun n => (P.llvmInt n).isSome then .fixnum (a.fixnum P) else .error

theorem expr_injective {a a' : Arith} (h : a.expr = a'.expr) : a = a' := by
  induction a generalizing a' with
  | int source =>
      cases a' with
      | int source' => rw [Expr.int.inj h]
      | binary _ _ _ => cases h
  | binary left op right ihl ihr =>
      cases a' with
      | int _ => cases h
      | binary left' op' right' =>
          obtain ⟨-, hl, hop, hr⟩ := Expr.binary.inj h
          rw [ihl hl, ihr hr, Codegen.Operator.text_inj hop]

theorem compile_eq_some {a : Arith} {g : Codegen.CodegenContext} : compile P a = some g ↔
    (a.numbers.all fun n => (P.llvmInt n).isSome) = true ∧ generate [.expr a.expr] = .ok g := by
  unfold compile
  split
  · next haccepted =>
      rw [and_iff_right haccepted]
      cases generate [.expr a.expr] <;> simp [Except.toOption]
  · next hrefused => simp [hrefused]

/-- What the code of a sum returns. -/
theorem ending_of_run {a : Arith} (hs₀ : Runtime.Typed s₀) (hsum : a.IsSum)
    {g : Codegen.CodegenContext} (hg : generate [.expr a.expr] = .ok g)
    (cells : Nat → Nat → Answer) (left : Nat) :
    ∃ n, ∀ m ≥ n, ∀ t,
      Codegen.Machine.run (runtime P s₀ main) g m (.start cells left) = t →
      (a.calls ≤ left → t.progress = .returned) ∧
        (t.progress = .returned → ending P s₀ main t.world.calls
          (t.returned (runtime P s₀ main) g) = .fixnum (a.fixnum P)) := by
  obtain ⟨locals, n, hn⟩ := Codegen.expr_returned hg (core_of_isSum hsum) (runtime P s₀ main) cells
    left
  have hat : At P s₀ main ⟨locals, ⟨[], left⟩⟩ s₀ := ⟨hs₀, .ref main, rfl⟩
  have hmakes := makes_sum a hsum hat []
  refine ⟨n, fun m hm t ht => ?_⟩
  obtain ⟨hreturned, hworld, hsome⟩ := hn m hm
  rw [ht] at hreturned hworld hsome
  generalize Interp.eval (runtime P s₀ main) a.expr [] ⟨locals, ⟨[], left⟩⟩ = o at *
  cases hmakes with
  | waits hlt =>
      refine ⟨fun hle => absurd hlt (Nat.not_lt.mpr hle), fun hprogress => ?_⟩
      exact absurd rfl (hsome hprogress)
  | @makes σ s r hat _ hw _ =>
      obtain ⟨-, v, hreplay⟩ := hat
      refine ⟨fun _ => ?_, fun _ => ?_⟩
      · by_contra hprogress
        rw [Codegen.Machine.returned] at hreturned
        split at hreturned
        · next h _ => exact hprogress h
        · cases hreturned
      · have hcalls : t.world.calls = σ.world.calls := congrArg Codegen.World.calls hworld
        rw [hreturned, hcalls]
        unfold ending
        simp only [hreplay, hw]

/-- **A text that is read as a sum comes to one ending.** -/
theorem comes_iff {text : List Char} {a : Arith} (hs₀ : Runtime.Typed s₀) (hsum : a.IsSum)
    (hparse : parse grammar (rule .unit) text = .ok (some [.expr a.expr]) []) (o : Ending) :
    Comes P s₀ main text o ↔ o = expected P a := by
  have hsame : ∀ {a' : Arith},
      parse grammar (rule .unit) text = .ok (some [.expr a'.expr]) [] → a' = a := by
    intro a' h
    rw [hparse] at h
    simp only [Result.ok.injEq, Option.some.injEq, List.cons.injEq, Stmt.expr.injEq, and_true] at h
    exact (expr_injective h).symm
  constructor
  · intro h
    cases h with
    | refused hparse' hcompile =>
        obtain rfl := hsame hparse'
        rw [expected, if_neg]
        intro haccepted
        obtain ⟨g, hg⟩ := Codegen.generate_arith _
        rw [compile_eq_some.mpr ⟨haccepted, hg⟩] at hcompile
        cases hcompile
    | @returned _ g cells left n t hparse' hcompile hrun hreturned =>
        obtain rfl := hsame hparse'
        obtain ⟨haccepted, hg⟩ := compile_eq_some.mp hcompile
        obtain ⟨n', hn'⟩ := ending_of_run hs₀ hsum hg cells left
        have hmore : Codegen.Machine.run (runtime P s₀ main) g (n' + n) (.start cells left) = t := by
          rw [Codegen.Machine.run, Function.iterate_add_apply]
          exact (congrArg _ hrun).trans (Codegen.Machine.run_halted (by simp [hreturned]) n')
        rw [expected, if_pos haccepted]
        exact (hn' (n' + n) (Nat.le_add_right ..) t hmore).2 hreturned
  · rintro rfl
    rw [expected]
    split
    · next haccepted =>
        obtain ⟨g, hg⟩ := Codegen.generate_arith a
        obtain ⟨n, hn⟩ := ending_of_run hs₀ hsum hg (fun _ _ => .ref main) a.calls
        obtain ⟨hreturned, hending⟩ := hn n (Nat.le_refl n) _ rfl
        have hprogress := hreturned (Nat.le_refl _)
        rw [← hending hprogress]
        exact .returned hparse (compile_eq_some.mpr ⟨haccepted, hg⟩) rfl hprogress
    · next hrefused =>
        exact .refused hparse (by rw [compile, if_neg hrefused])

/-! ### When the value is that of the sum -/

/-- A literal that an `int` can hold is what the object holds. -/
theorem Platform.Sound.toInt_cInt (hP : P.Sound) {n : Nat} (hn : n < 2 ^ 31)
    (haccepted : (P.llvmInt n).isSome = true) : (P.cInt n).toInt = n := by
  obtain ⟨v, hv⟩ := Option.isSome_iff_exists.mp haccepted
  have hwidth : 2 ^ 31 ≤ 2 ^ (P.width - 1) :=
    Nat.pow_le_pow_right (by decide) (Nat.le_sub_of_add_le hP.width)
  have htoNat := hP.llvmInt n v hv (hn.trans_le hwidth)
  have hword : (P.cInt n).toNat = n := by
    rw [cInt, hv, Option.getD_some, BitVec.toNat_setWidth, htoNat]
    exact Nat.mod_eq_of_lt (by omega)
  rw [BitVec.toInt_eq_toNat_of_lt (by rw [hword]; omega), hword]

/-- No partial sum overflows if the sum does not. -/
theorem Platform.Sound.toInt_fixnum (hP : P.Sound) {a : Arith} (hn : a.numbers.sum < 2 ^ 31)
    (haccepted : ∀ n ∈ a.numbers, (P.llvmInt n).isSome = true) :
    (a.fixnum P).toInt = a.numbers.sum := by
  induction a with
  | int source =>
      have hsource : toI source < 2 ^ 31 := by simpa [Arith.numbers] using hn
      have hvalue := hP.toInt_cInt hsource (haccepted _ (by simp [Arith.numbers]))
      simpa [Arith.numbers, Arith.fixnum] using hvalue
  | binary left op right ihl ihr =>
      simp only [Arith.numbers, List.sum_append] at hn ⊢
      have hleft := ihl (by omega) fun n h => haccepted n (List.mem_append_left _ h)
      have hright := ihr (by omega) fun n h => haccepted n (List.mem_append_right _ h)
      rw [Arith.fixnum, hP.add _ _ (by omega) (by omega), hleft, hright, Nat.cast_add]

variable (main)

/--
**A sum comes to its value or to an error exactly if it is an `int` or one of its literals is
refused.**  For every platform and every state in which the program is launched: a text that
is a sum comes to an ending, and what it comes to is an error or a Fixnum with the value of
the sum if and only if that value is below 2^31 or `LLVM.Int` refuses a literal.
-/
theorem sum_exact_iff (hP : P.Sound) (hs₀ : Reachable Runtime.runtimeMachine s₀)
    (sum : Addition) :
    (∃ o, Comes P s₀ main sum.text o) ∧
      ((∀ o, Comes P s₀ main sum.text o →
          o = .error ∨ ∃ v, o = .fixnum v ∧ v.toInt = sum.value) ↔
        sum.value < 2 ^ 31 ∨ ∃ n ∈ sum.numbers, P.llvmInt n = none) := by
  have hparse : parse grammar (rule .unit) sum.text = .ok (some [.expr sum.arith.expr]) [] := by
    rw [sum.arith_expr]
    exact sum.parse_unit
  have hcomes : ∀ o, Comes P s₀ main sum.text o ↔ o = expected P sum.arith :=
    comes_iff (Runtime.typed_of_reachable hs₀) sum.isSum hparse
  refine ⟨⟨_, (hcomes _).mpr rfl⟩, ?_⟩
  simp only [hcomes, forall_eq]
  rw [expected, sum.arith_numbers]
  by_cases haccepted : ∀ n ∈ sum.numbers, (P.llvmInt n).isSome = true
  · have hnone : ¬∃ n ∈ sum.numbers, P.llvmInt n = none := by
      rintro ⟨n, hn, hnone⟩
      simpa [hnone] using haccepted n hn
    rw [if_pos (List.all_eq_true.mpr haccepted), or_iff_left hnone]
    constructor
    · rintro (h | ⟨v, h, hv⟩)
      · cases h
      · have hlt := v.toInt_lt
        omega
    · intro hvalue
      rw [← sum.arith_numbers] at haccepted
      have htoInt := hP.toInt_fixnum (a := sum.arith)
        (by rw [sum.arith_numbers]; exact hvalue) haccepted
      rw [sum.arith_numbers] at htoInt
      exact .inr ⟨_, rfl, htoInt⟩
  · have hrefused : ∃ n ∈ sum.numbers, P.llvmInt n = none := by simpa using haccepted
    rw [if_neg (by simpa using haccepted)]
    exact iff_of_true (.inl rfl) (.inr hrefused)

/-! ### On a machine of 64 bits -/

/-- `LLVM.Int` takes what fits into an `unsigned long long`, and additions wrap around. -/
def native : Platform where
  width := 64
  llvmInt n := if n < 2 ^ 64 then some (BitVec.ofNat 64 n) else none
  add a b := a + b
  other _ _ := .error (.fault .abort)

theorem native_sound : native.Sound where
  width := by decide
  llvmInt n v hv hn := by
    have hn : n < 2 ^ 63 := hn
    have hv : (if n < 2 ^ 64 then some (BitVec.ofNat 64 n) else none) = some v := hv
    rw [if_pos (by omega)] at hv
    rw [← Option.some.inj hv]
    exact (BitVec.toNat_ofNat n 64).trans (Nat.mod_eq_of_lt (by omega))
  add a b hlow hhigh := by
    show (a + b).toInt = _
    rw [BitVec.toInt_add]
    exact Int.bmod_eq_of_le (by omega) (by omega)

def space : Blanks := ⟨[' '], rfl⟩

def one : Literal := ⟨['1'], .inr ⟨'1', [], rfl, by decide, by decide, rfl⟩⟩

/-- `1 + 1` -/
def onePlusOne : Addition := .plus (.literal one) space space.gap (.one (.literal one))

/-- 2^31 - 1 -/
def largest : Literal :=
  ⟨"2147483647".toList, .inr ⟨'2', "147483647".toList, by decide, by decide, by decide, by decide⟩⟩

/-- `2147483647 + 1` -/
def largestPlusOne : Addition := .plus (.literal largest) space space.gap (.one (.literal one))

theorem started : ∃ s₀, Reachable Runtime.runtimeMachine s₀ := by
  have hinit : Runtime.runtimeInit.toOption.isSome = true := by decide +kernel
  obtain ⟨s, hs⟩ := Option.isSome_iff_exists.mp hinit
  exact ⟨s, _, .nil (Runtime.toOption_eq_some hs)⟩

theorem sum_exact_iff_two : ∃ s₀, Reachable Runtime.runtimeMachine s₀ ∧
    ∀ o, Comes native s₀ 0 onePlusOne.text o → o = .error ∨ ∃ v, o = .fixnum v ∧ v.toInt = 2 := by
  obtain ⟨s₀, hs₀⟩ := started
  have hvalue : onePlusOne.value = 2 := by decide
  have h := (sum_exact_iff 0 native_sound hs₀ onePlusOne).2.mpr (.inl (by rw [hvalue]; decide))
  rw [hvalue] at h
  exact ⟨s₀, hs₀, h⟩

/-- `2147483647 + 1` is a negative Fixnum. -/
theorem sum_overflows : ∃ s₀, Reachable Runtime.runtimeMachine s₀ ∧
    largestPlusOne.text = "2147483647 + 1".toList ∧ largestPlusOne.value = 2147483648 ∧
    Comes native s₀ 0 largestPlusOne.text (.fixnum 0x80000000) ∧
    (0x80000000 : BitVec 32).toInt ≠ 2147483648 := by
  obtain ⟨s₀, hs₀⟩ := started
  have hparse : parse grammar (rule .unit) largestPlusOne.text =
      .ok (some [.expr largestPlusOne.arith.expr]) [] := by
    rw [largestPlusOne.arith_expr]
    exact largestPlusOne.parse_unit
  refine ⟨s₀, hs₀, by decide, by decide, ?_, by decide⟩
  exact (comes_iff (Runtime.typed_of_reachable hs₀) largestPlusOne.isSum hparse _).mpr
    (by decide +kernel)

end Pup
