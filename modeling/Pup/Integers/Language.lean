/-
Programs over integers.

A program assigns sums to names, and decides and repeats by comparing them; it is a command
whose actions are the assignments.  What it means is said twice: with the `int`s that the
runtime computes with (`ints`), and with integers, as long as none of them is too large for an
`int` (`integers`).  Where that is so, the one is the other (`simulates_integers`).

A program is written one statement a line, with its blocks indented (`text`).
-/
import Pup.Lib.Commands
import Pup.Parse.Printed
import Pup.Sums

namespace Pup.Integers

open Imp Parse

/-! ### Syntax -/

inductive IntExpr
  | literal (l : Literal)
  | name (n : Name)
  | plus (left right : IntExpr)

inductive Condition
  | bool (b : Bool)
  | less (left right : IntExpr)
  | equal (left right : IntExpr)

structure Assignment where
  name : Name
  value : IntExpr

/-- What a program over integers does. -/
abbrev Code := Command Assignment Condition

/-! ### How it is written -/

def plusSign : Infix := ⟨.addExpr, "+", by decide, by decide⟩

def lessSign : Infix := ⟨.relationalExpr, "<", by decide, by decide⟩

def equalSign : Infix := ⟨.equalityExpr, "==", by decide, by decide⟩

def IntExpr.written : IntExpr → Written
  | .literal l => .int l
  | .name n => .name n
  | .plus left right => .binary left.written space plusSign space right.written

def Condition.written : Condition → Written
  | .bool b => .bool b
  | .less left right => .binary left.written space lessSign space right.written
  | .equal left right => .binary left.written space equalSign space right.written

def Assignment.written (a : Assignment) : Written :=
  .assign (.name a.name) space space a.value.written

/-- Two blanks for each block around a statement. -/
def indented (depth : Nat) : Lead where
  lines := []
  indent := ⟨List.replicate (2 * depth) ' ', by simp [isBlank]⟩

/-- A statement in front of others. -/
def inFront (depth : Nat) (s : Printed) : Option PrintedStatements → PrintedStatements
  | none => .one (indented depth) s
  | some rest => .cons (indented depth) s rest

/-- The code in front of other statements. -/
def printed (depth : Nat) : Code → Option PrintedStatements → PrintedStatements
  | .act a, rest => inFront depth (.expr a.written) rest
  | .seq p q, rest => printed depth p (some (printed depth q rest))
  | .ifElse c p q, rest =>
      inFront depth (.ifStmt c.written (printed (depth + 1) p none)
        (.some (indented depth) (printed (depth + 1) q none)) (indented depth)) rest
  | .while_ c p, rest =>
      inFront depth (.whileStmt c.written (printed (depth + 1) p none) (indented depth)) rest

/-- The text of a program. -/
def text (p : Code) : List Char := Program.text ⟨printed 0 p none, some (indented 0)⟩

/-! ### The trees -/

def IntExpr.expr (e : IntExpr) : Expr := e.written.expr

def Condition.expr (c : Condition) : Expr := c.written.expr

def stmts : Code → List Stmt
  | .act a => [.expr (.assign (.name a.name.text) "=" a.value.expr)]
  | .seq p q => stmts p ++ stmts q
  | .ifElse c p q => [.ifStmt c.expr (stmts p) (some (stmts q))]
  | .while_ c p => [.whileStmt c.expr (stmts p)]

theorem inFront_stmts (depth : Nat) (s : Printed) (rest : Option PrintedStatements) :
    (inFront depth s rest).stmts = s.stmt :: rest.elim [] PrintedStatements.stmts := by
  cases rest <;> rfl

theorem printed_stmts (p : Code) (depth : Nat) (rest : Option PrintedStatements) :
    (printed depth p rest).stmts = stmts p ++ rest.elim [] PrintedStatements.stmts := by
  induction p generalizing depth rest with
  | act a => rw [printed, inFront_stmts]; rfl
  | seq p q ihp ihq =>
      rw [printed, ihp, stmts, List.append_assoc]
      exact congrArg (stmts p ++ ·) (ihq depth rest)
  | ifElse c p q ihp ihq =>
      have hp : (printed (depth + 1) p none).stmts = stmts p := by simp [ihp]
      have hq : (printed (depth + 1) q none).stmts = stmts q := by simp [ihq]
      rw [printed, inFront_stmts, Printed.stmt, PrintedElse.stmts, hp, hq]
      rfl
  | while_ c p ih =>
      have hp : (printed (depth + 1) p none).stmts = stmts p := by simp [ih]
      rw [printed, inFront_stmts, Printed.stmt, hp]
      rfl

/-! ### What it means -/

/-- What the names stand for, as far as they have been assigned to. -/
abbrev Store (V : Type) := String → Option V

def Store.empty {V : Type} : Store V := fun _ => none

section Ints

variable (P : Platform)

/-- The `int` of an expression. -/
def IntExpr.int (ρ : Store (BitVec 32)) : IntExpr → Option (BitVec 32)
  | .literal l => (P.llvmInt l.value).map fun v => v.setWidth 32
  | .name n => ρ n.text
  | .plus left right => do
      let a ← left.int ρ
      let b ← right.int ρ
      return P.add a b

def Condition.int (ρ : Store (BitVec 32)) : Condition → Option Bool
  | .bool b => some b
  | .less left right => do
      let a ← left.int P ρ
      let b ← right.int P ρ
      return a.slt b
  | .equal left right => do
      let a ← left.int P ρ
      let b ← right.int P ρ
      return a == b

/-- With the `int`s of a platform. -/
def ints : Meaning Assignment Condition (Store (BitVec 32)) where
  act a ρ := (a.value.int P ρ).map fun v => Function.update ρ a.name.text (some v)
  test c ρ := c.int P ρ

end Ints

/-- An integer that an `int` can hold. -/
def fits (n : ℤ) : Option ℤ := if -2 ^ 31 ≤ n ∧ n < 2 ^ 31 then some n else none

def IntExpr.value (ρ : Store ℤ) : IntExpr → Option ℤ
  | .literal l => fits l.value
  | .name n => ρ n.text
  | .plus left right => do
      let a ← left.value ρ
      let b ← right.value ρ
      fits (a + b)

def Condition.holds (ρ : Store ℤ) : Condition → Option Bool
  | .bool b => some b
  | .less left right => do
      let a ← left.value ρ
      let b ← right.value ρ
      return decide (a < b)
  | .equal left right => do
      let a ← left.value ρ
      let b ← right.value ρ
      return decide (a = b)

/-- With integers. -/
def integers : Meaning Assignment Condition (Store ℤ) where
  act a ρ := (a.value.value ρ).map fun n => Function.update ρ a.name.text (some n)
  test c ρ := c.holds ρ

theorem integers_act (a : Assignment) (ρ : Store ℤ) : integers.act a ρ =
    (a.value.value ρ).map fun n => Function.update ρ a.name.text (some n) := rfl

theorem fits_eq_some {n m : ℤ} : fits n = some m ↔ n = m ∧ -2 ^ 31 ≤ n ∧ n < 2 ^ 31 := by
  unfold fits
  split
  · next h => exact ⟨fun hm => ⟨Option.some.inj hm, h⟩, fun hm => congrArg some hm.1⟩
  · next h => exact ⟨fun hm => (by cases hm), fun hm => absurd hm.2 h⟩

theorem fits_cast {n : Nat} (h : n < 2 ^ 31) : fits n = some (n : ℤ) :=
  fits_eq_some.mpr ⟨rfl, by omega, by omega⟩

/-! ### The `int`s are the integers -/

/-- What is known of the integers is known of the `int`s. -/
def Represents (ρ : Store ℤ) (τ : Store (BitVec 32)) : Prop :=
  ∀ name n, ρ name = some n → ∃ v, τ name = some v ∧ v.toInt = n

theorem represents_empty (τ : Store (BitVec 32)) : Represents Store.empty τ :=
  fun _ _ h => by cases h

theorem Represents.update {ρ : Store ℤ} {τ : Store (BitVec 32)} (h : Represents ρ τ)
    (name : String) (v : BitVec 32) :
    Represents (Function.update ρ name (some v.toInt)) (Function.update τ name (some v)) := by
  intro name' n hn
  by_cases hname : name' = name
  · subst hname
    rw [Function.update_self] at hn ⊢
    exact ⟨v, rfl, Option.some.inj hn⟩
  · rw [Function.update_of_ne hname] at hn ⊢
    exact h name' n hn

section Simulation

variable {P : Platform} {ρ : Store ℤ} {τ : Store (BitVec 32)}

/-- An expression whose integers fit is computed. -/
theorem int_of_value (hP : P.Sound) (hlit : ∀ n < 2 ^ 31, (P.llvmInt n).isSome = true)
    (h : Represents ρ τ) (e : IntExpr) {n : ℤ} (hn : e.value ρ = some n) :
    ∃ v, e.int P τ = some v ∧ v.toInt = n := by
  induction e generalizing n with
  | literal l =>
      obtain ⟨rfl, -, hlt⟩ := fits_eq_some.mp hn
      have hlt : l.value < 2 ^ 31 := by exact_mod_cast hlt
      obtain ⟨v, hv⟩ := Option.isSome_iff_exists.mp (hlit l.value hlt)
      refine ⟨v.setWidth 32, by rw [IntExpr.int, hv]; rfl, ?_⟩
      have htoInt := hP.toInt_cInt hlt (hlit l.value hlt)
      rwa [Platform.cInt, hv, Option.getD_some] at htoInt
  | name m => exact h m.text n hn
  | plus left right ihl ihr =>
      obtain ⟨a, ha, hn⟩ := Option.bind_eq_some_iff.mp hn
      obtain ⟨b, hb, hn⟩ := Option.bind_eq_some_iff.mp hn
      obtain ⟨rfl, hlow, hhigh⟩ := fits_eq_some.mp hn
      obtain ⟨v, hv, rfl⟩ := ihl ha
      obtain ⟨w, hw, rfl⟩ := ihr hb
      refine ⟨P.add v w, by rw [IntExpr.int, hv, hw]; rfl, ?_⟩
      exact hP.add v w hlow hhigh

theorem int_of_holds (hP : P.Sound) (hlit : ∀ n < 2 ^ 31, (P.llvmInt n).isSome = true)
    (h : Represents ρ τ) (c : Condition) {b : Bool} (hb : c.holds ρ = some b) :
    c.int P τ = some b := by
  cases c with
  | bool b' => exact hb
  | less left right =>
      obtain ⟨m, hm, hb⟩ := Option.bind_eq_some_iff.mp hb
      obtain ⟨n, hn, hb⟩ := Option.bind_eq_some_iff.mp hb
      obtain rfl := Option.some.inj hb
      obtain ⟨v, hv, rfl⟩ := int_of_value hP hlit h left hm
      obtain ⟨w, hw, rfl⟩ := int_of_value hP hlit h right hn
      rw [Condition.int, hv, hw]
      rfl
  | equal left right =>
      obtain ⟨m, hm, hb⟩ := Option.bind_eq_some_iff.mp hb
      obtain ⟨n, hn, hb⟩ := Option.bind_eq_some_iff.mp hb
      obtain rfl := Option.some.inj hb
      obtain ⟨v, hv, rfl⟩ := int_of_value hP hlit h left hm
      obtain ⟨w, hw, rfl⟩ := int_of_value hP hlit h right hn
      rw [Condition.int, hv, hw]
      have hiff : v = w ↔ v.toInt = w.toInt := BitVec.toInt_inj.symm
      show some (decide (v = w)) = some (decide (v.toInt = w.toInt))
      simp only [hiff]

/-- **With a sound platform the `int`s simulate the integers that fit.** -/
theorem simulates_integers (hP : P.Sound) (hlit : ∀ n < 2 ^ 31, (P.llvmInt n).isSome = true) :
    Simulates integers (ints P) Represents where
  act a ρ ρ' τ hact h := by
    obtain ⟨n, hn, rfl⟩ := Option.map_eq_some_iff.mp hact
    obtain ⟨v, hv, rfl⟩ := int_of_value hP hlit h a.value hn
    exact ⟨_, Option.map_eq_some_iff.mpr ⟨v, hv, rfl⟩, h.update a.name.text v⟩
  test c ρ b τ hc h := int_of_holds hP hlit h c hc

end Simulation

/-! ### Names are assigned to before they are read -/

def IntExpr.assigned (vars : List String) : IntExpr → Bool
  | .literal _ => true
  | .name n => vars.contains n.text
  | .plus left right => left.assigned vars && right.assigned vars

def Condition.assigned (vars : List String) : Condition → Bool
  | .bool _ => true
  | .less left right => left.assigned vars && right.assigned vars
  | .equal left right => left.assigned vars && right.assigned vars

/-- The names that have been assigned to after the code, on every way through it, if none is
read before. -/
def assignedAfter : Code → List String → Option (List String)
  | .act a, vars => if a.value.assigned vars then some (a.name.text :: vars) else none
  | .seq p q, vars => (assignedAfter p vars).bind (assignedAfter q)
  | .ifElse c p q, vars =>
      if c.assigned vars then
        (assignedAfter p vars).bind fun ps =>
          (assignedAfter q vars).map fun qs => ps.filter qs.contains
      else none
  | .while_ c p, vars =>
      if c.assigned vars then (assignedAfter p vars).map fun _ => vars else none

/-- The integers that are written in the code. -/
def IntExpr.numbers : IntExpr → List Nat
  | .literal l => [l.value]
  | .name _ => []
  | .plus left right => left.numbers ++ right.numbers

def Condition.numbers : Condition → List Nat
  | .bool _ => []
  | .less left right => left.numbers ++ right.numbers
  | .equal left right => left.numbers ++ right.numbers

def numbers : Code → List Nat
  | .act a => a.value.numbers
  | .seq p q => numbers p ++ numbers q
  | .ifElse c p q => c.numbers ++ (numbers p ++ numbers q)
  | .while_ c p => c.numbers ++ numbers p

end Pup.Integers
