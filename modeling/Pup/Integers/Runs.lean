/-
The interpreter runs a program over integers.

The locals hold Fixnums of what the store holds (`Holds`), and expressions and conditions come
to what they mean.  That a name is a local where it is read is decided by the text, and so it
matters that the program has assigned to it before on every way.  From this a run of the
program gives a run of the interpreter, which wants a number of answers that is known from the
run (`outcome_of_runs`), and a run of the interpreter that has come to an end gives a run of
the program (`runs_of_outcome`).
-/
import Pup.Integers.Calls

namespace Pup.Integers

open Imp Parse
open Codegen (Interp scopeExpr scopeStmt scopeStmts)

variable {P : Platform} {s₀ : Runtime.State} {main : Runtime.Ref} {σ : Codegen.State Answer}
  {s s' : Runtime.State} {ρ : Store (BitVec 32)} {vars scope : List String}

/-- The locals hold what is in the store. -/
def Holds (locals : String → Answer) (s : Runtime.State) (ρ : Store (BitVec 32)) : Prop :=
  ∀ name v, ρ name = some v → ∃ r, locals name = .ref r ∧ s.fixnum (some r) = .ok v

theorem holds_empty (locals : String → Answer) (s : Runtime.State) : Holds locals s .empty :=
  fun _ _ h => by cases h

theorem Holds.keeps {locals : String → Answer} (h : Holds locals s ρ) (hkeeps : Keeps s s') :
    Holds locals s' ρ := by
  intro name v hv
  obtain ⟨r, hr, hfixnum⟩ := h name v hv
  exact ⟨r, hr, hkeeps r v hfixnum⟩

theorem Holds.update {locals : String → Answer} (h : Holds locals s ρ) (name : String)
    {r : Runtime.Ref} {v : BitVec 32} (hr : s.fixnum (some r) = .ok v) :
    Holds (Function.update locals name (.ref r)) s (Function.update ρ name (some v)) := by
  intro name' v' hv'
  by_cases hname : name' = name
  · subst hname
    rw [Function.update_self] at hv'
    obtain rfl := Option.some.inj hv'
    exact ⟨r, Function.update_self .., hr⟩
  · rw [Function.update_of_ne hname] at hv' ⊢
    exact h name' v' hv'

/-! ### Expressions -/

/-- How many answers it takes. -/
def IntExpr.calls : IntExpr → Nat
  | .literal _ => 1
  | .name _ => 0
  | .plus left right => left.calls + (right.calls + 2)

def Condition.calls : Condition → Nat
  | .bool _ => 0
  | .less left right => left.calls + (right.calls + 2)
  | .equal left right => left.calls + (right.calls + 2)

theorem scopeExpr_int (e : IntExpr) (scope : List String) : scopeExpr e.expr scope = scope := by
  induction e generalizing scope with
  | literal l => rfl
  | name n => rfl
  | plus left right ihl ihr =>
      show scopeExpr right.expr (scopeExpr left.expr scope) = scope
      rw [ihl, ihr]

theorem scopeExpr_condition (c : Condition) (scope : List String) :
    scopeExpr c.expr scope = scope := by
  cases c with
  | bool b => rfl
  | less left right | equal left right =>
      show scopeExpr right.expr (scopeExpr left.expr scope) = scope
      rw [scopeExpr_int, scopeExpr_int]

/-- A Fixnum has been made of the value, and nothing has been assigned to. -/
def Made (σ : Codegen.State Answer) (s : Runtime.State) (v : BitVec 32) (a : Answer)
    (σ' : Codegen.State Answer) (s' : Runtime.State) : Prop :=
  (∃ r, a = .ref r ∧ s'.fixnum (some r) = .ok v) ∧ Keeps s s' ∧ σ'.locals = σ.locals

/-- An expression comes to its value. -/
theorem outcome_int (e : IntExpr) (hat : At (comparing P) s₀ main σ s)
    (hholds : Holds σ.locals s ρ) (hscope : ∀ x ∈ vars, x ∈ scope)
    (hassigned : e.assigned vars = true) {v : BitVec 32} (hv : e.int P ρ = some v) :
    Outcome P s₀ main σ e.calls (Made σ s v)
      (Interp.eval (runs P s₀ main) e.expr scope σ) := by
  induction e generalizing σ s v with
  | literal l =>
      obtain ⟨w, hw, rfl⟩ := Option.map_eq_some_iff.mp hv
      have hint : (comparing P).cInt (toI (String.ofList l.digits)) = w.setWidth 32 := by
        rw [toI_ofList]
        exact congrArg (fun o => (Option.getD o 0).setWidth 32) hw
      have hhandle : (comparing P).handle s (.fixnumCreate (toI (String.ofList l.digits))) =
          .ok ((Runtime.pupFixnumCreate s (w.setWidth 32)).1,
            .ref (Runtime.pupFixnumCreate s (w.setWidth 32)).2) := by
        rw [Platform.handle, hint]
      obtain ⟨hself, hkeeps⟩ := Runtime.pupFixnumCreate_fixnum s (w.setWidth 32)
      refine (outcome_call hat (hat.1.pupFixnumCreate _) hhandle (fun h => by cases h) fun h => by cases h).mono ?_
      rintro a σ' s' ⟨rfl, rfl, hlocals⟩
      exact ⟨⟨_, rfl, hself⟩, hkeeps, hlocals⟩
  | name n =>
      have hmem : scope.contains n.text = true :=
        List.contains_iff_mem.mpr (hscope _ (List.contains_iff_mem.mp hassigned))
      have heval : Interp.eval (runs P s₀ main) (IntExpr.name n).expr scope =
          Interp.get n.text := by
        show (if (true && true && scope.contains n.text) = true then _ else _) = _
        rw [hmem]
        rfl
      rw [heval]
      obtain ⟨r, hr, hfixnum⟩ := hholds n.text v hv
      exact .goes hat rfl ⟨⟨r, hr, hfixnum⟩, fun _ _ h => h, rfl⟩
  | plus left right ihl ihr =>
      obtain ⟨a, ha, hv⟩ := Option.bind_eq_some_iff.mp hv
      obtain ⟨b, hb, hv⟩ := Option.bind_eq_some_iff.mp hv
      obtain rfl := Option.some.inj hv
      obtain ⟨hleft, hright⟩ := Bool.and_eq_true_iff.mp hassigned
      refine (ihl hat hholds hleft ha).bind fun l σ₁ s₁ hat₁ hl _ => ?_
      obtain ⟨⟨l, rfl, hl⟩, hkeeps₁, hlocals₁⟩ := hl
      rw [show scopeExpr left.written.expr scope = scope from scopeExpr_int left scope]
      have hholds₁ : Holds σ₁.locals s₁ ρ := hlocals₁ ▸ hholds.keeps hkeeps₁
      refine (ihr hat₁ hholds₁ hright hb).bind fun r σ₂ s₂ hat₂ hr _ => ?_
      obtain ⟨⟨r, rfl, hr⟩, hkeeps₂, hlocals₂⟩ := hr
      have hl₂ := hkeeps₂ l a hl
      obtain ⟨hself, hkeeps₃⟩ := Runtime.pupFixnumCreate_fixnum s₂ (P.add a b)
      refine (outcome_invoke hat₂ (hat₂.1.pupFixnumCreate _) (handle_plus hat₂.1 hl₂ hr)).mono ?_
      rintro c σ₃ s₃ ⟨rfl, rfl, hlocals₃⟩
      exact ⟨⟨_, rfl, hself⟩, (hkeeps₁.trans hkeeps₂).trans hkeeps₃,
        hlocals₃.trans (hlocals₂.trans hlocals₁)⟩

/-! ### Conditions -/

/-- The instance of the boolean is there, and nothing has been assigned to. -/
def Told (σ : Codegen.State Answer) (s : Runtime.State) (b : Bool) (a : Answer)
    (σ' : Codegen.State Answer) (s' : Runtime.State) : Prop :=
  a = instance_ b ∧ Keeps s s' ∧ σ'.locals = σ.locals

/-- A comparison of two expressions. -/
theorem outcome_compare {left right : IntExpr} {name : String} {holds : BitVec 32 → BitVec 32 → Bool}
    (hhandle : ∀ s l r a b, Runtime.Typed s → s.fixnum (some l) = .ok a →
      s.fixnum (some r) = .ok b →
      (comparing P).handle s (.invoke (.ref l) (.sym name) [.ref r]) =
        .ok (s, instance_ (holds a b)))
    (hat : At (comparing P) s₀ main σ s) (hholds : Holds σ.locals s ρ)
    (hscope : ∀ x ∈ vars, x ∈ scope) (hassigned : (left.assigned vars && right.assigned vars) = true)
    {a b : BitVec 32} (ha : left.int P ρ = some a) (hb : right.int P ρ = some b)
    (class_ : BinaryClass) :
    Outcome P s₀ main σ (left.calls + (right.calls + 2)) (Told σ s (holds a b))
      (Interp.eval (runs P s₀ main) (.binary class_ left.expr name right.expr) scope σ) := by
  obtain ⟨hleft, hright⟩ := Bool.and_eq_true_iff.mp hassigned
  rw [Interp.eval]
  refine (outcome_int left hat hholds hscope hleft ha).bind fun l σ₁ s₁ hat₁ hl _ => ?_
  obtain ⟨⟨l, rfl, hl⟩, hkeeps₁, hlocals₁⟩ := hl
  rw [scopeExpr_int]
  have hholds₁ : Holds σ₁.locals s₁ ρ := hlocals₁ ▸ hholds.keeps hkeeps₁
  refine (outcome_int right hat₁ hholds₁ hscope hright hb).bind fun r σ₂ s₂ hat₂ hr _ => ?_
  obtain ⟨⟨r, rfl, hr⟩, hkeeps₂, hlocals₂⟩ := hr
  refine (outcome_invoke hat₂ hat₂.1 (hhandle s₂ l r a b hat₂.1 (hkeeps₂ l a hl) hr)).mono ?_
  rintro c σ₃ s₃ ⟨rfl, rfl, hlocals₃⟩
  exact ⟨rfl, hkeeps₁.trans hkeeps₂, hlocals₃.trans (hlocals₂.trans hlocals₁)⟩

theorem outcome_condition (c : Condition) (hs₀ : Runtime.Typed s₀)
    (hat : At (comparing P) s₀ main σ s) (hholds : Holds σ.locals s ρ)
    (hscope : ∀ x ∈ vars, x ∈ scope) (hassigned : c.assigned vars = true) {b : Bool}
    (hb : c.int P ρ = some b) :
    Outcome P s₀ main σ c.calls (Told σ s b) (Interp.eval (runs P s₀ main) c.expr scope σ) := by
  cases c with
  | bool b' =>
      obtain rfl := Option.some.inj hb
      have heval : Interp.eval (runs P s₀ main) (Condition.bool b').expr scope =
          Interp.call (runs P s₀ main)
            (if b' then .getTrueinstance else .getFalseinstance) := by
        cases b' <;> rfl
      rw [heval]
      refine (outcome_instance b' hat hs₀).mono ?_
      rintro a σ' s' ⟨rfl, rfl, hlocals⟩
      exact ⟨rfl, fun _ _ h => h, hlocals⟩
  | less left right =>
      obtain ⟨v, hv, hb⟩ := Option.bind_eq_some_iff.mp hb
      obtain ⟨w, hw, hb⟩ := Option.bind_eq_some_iff.mp hb
      obtain rfl := Option.some.inj hb
      exact outcome_compare (fun _ _ _ _ _ => handle_less) hat hholds hscope hassigned hv hw _
  | equal left right =>
      obtain ⟨v, hv, hb⟩ := Option.bind_eq_some_iff.mp hb
      obtain ⟨w, hw, hb⟩ := Option.bind_eq_some_iff.mp hb
      obtain rfl := Option.some.inj hb
      exact outcome_compare (fun _ _ _ _ _ => handle_equal) hat hholds hscope hassigned hv hw _

/-- **A condition is decided as it holds.** -/
theorem outcome_test (c : Condition) (hs₀ : Runtime.Typed s₀)
    (hat : At (comparing P) s₀ main σ s) (hholds : Holds σ.locals s ρ)
    (hscope : ∀ x ∈ vars, x ∈ scope) (hassigned : c.assigned vars = true) {b : Bool}
    (hb : c.int P ρ = some b) :
    Outcome P s₀ main σ c.calls
      (fun b' σ' s' => b' = b ∧ Keeps s s' ∧ σ'.locals = σ.locals)
      (Interp.test (runs P s₀ main) c.expr scope σ) := by
  rw [Interp.test]
  show Outcome P s₀ main σ (c.calls + (0 + 0)) _ _
  refine (outcome_condition c hs₀ hat hholds hscope hassigned hb).bind fun a σ₁ s₁ hat₁ ha _ => ?_
  obtain ⟨rfl, hkeeps₁, hlocals₁⟩ := ha
  refine (outcome_instance false hat₁ hs₀).bind fun a σ₂ s₂ hat₂ ha _ => ?_
  obtain ⟨-, rfl, hlocals₂⟩ := ha
  refine outcome_pure hat₂ ⟨?_, hkeeps₁, hlocals₂.trans hlocals₁⟩
  have hfalse : (runs P s₀ main).falseinstance = instance_ false :=
    congrArg (fun env : Runtime.RuntimeEnv => Answer.ref (env.object_false.getD 0)) hs₀.env
  rw [hfalse]
  cases b <;> rfl

/-! ### Statements one after the other -/

section Statements

variable {R : Codegen.Runtime Answer}

theorem execStmts_singleton (stmt : Stmt) (scope : List String) :
    Interp.execStmts R [stmt] scope = Interp.exec R stmt scope := by
  funext σ
  show ((Interp.exec R stmt scope >>= fun _ => pure ()) : Interp Answer Unit) σ = _
  rcases h : Interp.exec R stmt scope σ with ⟨none | _, σ'⟩
  · exact Codegen.interp_bind_none h
  · exact Codegen.interp_bind_some h

theorem interp_bind_assoc {α β γ : Type} (x : Interp Answer α) (f : α → Interp Answer β)
    (f' : β → Interp Answer γ) : x >>= f >>= f' = x >>= fun a => f a >>= f' := by
  funext σ
  simp only [bind]
  rcases x σ with ⟨_ | a, σ'⟩
  · rfl
  · rfl

theorem execStmts_append (ss ss' : List Stmt) (scope : List String) :
    Interp.execStmts R (ss ++ ss') scope =
      (do Interp.execStmts R ss scope; Interp.execStmts R ss' (scopeStmts ss scope)) := by
  induction ss generalizing scope with
  | nil => rfl
  | cons stmt ss ih =>
      show ((Interp.exec R stmt scope >>= fun _ =>
        Interp.execStmts R (ss ++ ss') (scopeStmt stmt scope)) : Interp Answer Unit) =
        (Interp.exec R stmt scope >>= fun _ => Interp.execStmts R ss (scopeStmt stmt scope)) >>=
          fun _ => Interp.execStmts R ss' (scopeStmts ss (scopeStmt stmt scope))
      rw [ih, interp_bind_assoc]

theorem scopeStmts_append (ss ss' : List Stmt) (scope : List String) :
    scopeStmts (ss ++ ss') scope = scopeStmts ss' (scopeStmts ss scope) := by
  induction ss generalizing scope with
  | nil => rfl
  | cons stmt ss ih => exact ih _

end Statements

/-! ### The names of the text -/

/-- The locals after the code. -/
theorem scope_act (a : Assignment) (scope : List String) :
    scopeStmts (stmts (.act a)) scope = a.name.text :: scope := scopeExpr_int a.value _

theorem scope_ifElse (c : Condition) (p q : Code) (scope : List String) :
    scopeStmts (stmts (.ifElse c p q)) scope =
      scopeStmts (stmts q) (scopeStmts (stmts p) scope) := by
  show scopeStmts (stmts q) (scopeStmts (stmts p) (scopeExpr c.expr scope)) = _
  rw [scopeExpr_condition]

theorem scope_while (c : Condition) (p : Code) (scope : List String) :
    scopeStmts (stmts (.while_ c p)) scope = scopeStmts (stmts p) scope := by
  show scopeStmts (stmts p) (scopeExpr c.expr scope) = _
  rw [scopeExpr_condition]

/-- The names that are assigned to. -/
def targets : Code → List String
  | .act a => [a.name.text]
  | .seq p q => targets p ++ targets q
  | .ifElse _ p q => targets p ++ targets q
  | .while_ _ p => targets p

theorem mem_scope_iff (p : Code) {scope : List String} {x : String} :
    x ∈ scopeStmts (stmts p) scope ↔ x ∈ targets p ∨ x ∈ scope := by
  induction p generalizing scope with
  | act a => rw [scope_act, targets, List.mem_cons, List.mem_singleton]
  | seq p q ihp ihq =>
      rw [stmts, scopeStmts_append, ihq, ihp, targets, List.mem_append]
      tauto
  | ifElse c p q ihp ihq =>
      rw [scope_ifElse, ihq, ihp, targets, List.mem_append]
      tauto
  | while_ c p ih => rw [scope_while, ih, targets]

/-- A local stays one. -/
theorem mem_scope (p : Code) {scope : List String} {x : String} (hx : x ∈ scope) :
    x ∈ scopeStmts (stmts p) scope := (mem_scope_iff p).mpr (.inr hx)

/-- Other names are left alone. -/
theorem eq_of_not_mem_targets {p : Code} {ρ ρ' : Store (BitVec 32)} (h : Runs (ints P) p ρ ρ')
    {x : String} (hx : x ∉ targets p) : ρ' x = ρ x := by
  induction h with
  | act hact =>
      obtain ⟨v, -, rfl⟩ := Option.map_eq_some_iff.mp hact
      exact Function.update_of_ne (fun heq => hx (List.mem_singleton.mpr heq)) _ _
  | seq _ _ ih ih' =>
      rw [targets, List.mem_append, not_or] at hx
      rw [ih' hx.2, ih hx.1]
  | ifTrue _ _ ih =>
      rw [targets, List.mem_append, not_or] at hx
      exact ih hx.1
  | ifFalse _ _ ih =>
      rw [targets, List.mem_append, not_or] at hx
      exact ih hx.2
  | whileTrue _ _ _ ih ih' => rw [ih' hx, ih hx]
  | whileFalse _ => rfl

/-- What has been assigned to is a local. -/
theorem mem_scope_of_assigned {p : Code} {vars' : List String}
    (h : assignedAfter p vars = some vars') (hscope : ∀ x ∈ vars, x ∈ scope) :
    ∀ x ∈ vars', x ∈ scopeStmts (stmts p) scope := by
  induction p generalizing vars vars' scope with
  | act a =>
      rw [assignedAfter] at h
      split at h
      · obtain rfl := Option.some.inj h
        rw [scope_act]
        intro x hx
        rcases List.mem_cons.mp hx with rfl | hx
        · exact List.mem_cons_self
        · exact List.mem_cons_of_mem _ (hscope x hx)
      · cases h
  | seq p q ihp ihq =>
      obtain ⟨vars₁, hp, hq⟩ := Option.bind_eq_some_iff.mp h
      rw [stmts, scopeStmts_append]
      exact ihq hq (ihp hp hscope)
  | ifElse c p q ihp ihq =>
      rw [assignedAfter] at h
      split at h
      · obtain ⟨ps, hp, h⟩ := Option.bind_eq_some_iff.mp h
        obtain ⟨qs, hq, rfl⟩ := Option.map_eq_some_iff.mp h
        rw [scope_ifElse]
        intro x hx
        exact mem_scope q (ihp hp hscope x (List.mem_filter.mp hx).1)
      · cases h
  | while_ c p ih =>
      rw [assignedAfter] at h
      split at h
      · obtain ⟨ps, hp, rfl⟩ := Option.map_eq_some_iff.mp h
        rw [scope_while]
        exact fun x hx => mem_scope p (hscope x hx)
      · cases h

/-! ### Runs of the program -/

section Statements

variable {R : Codegen.Runtime Answer}

/-- An assignment is one of the value. -/
theorem exec_assign (x op : String) (e : Expr) (scope : List String) :
    Interp.exec R (.expr (.assign (.name x) op e)) scope =
      (do let value ← Interp.eval R e (x :: scope); Interp.set x value) := by
  show ((Interp.eval R e (x :: scope) >>= fun value =>
    Interp.set x value >>= fun _ => pure value) >>= fun _ => pure () : Interp Answer Unit) = _
  rw [interp_bind_assoc]
  rfl

theorem exec_ifElse (c : Condition) (p q : Code) (scope : List String) :
    Interp.exec R (.ifStmt c.expr (stmts p) (some (stmts q))) scope = (do
      if ← Interp.test R c.expr scope then Interp.execStmts R (stmts p) scope
      else Interp.execStmts R (stmts q) (scopeStmts (stmts p) scope)) := by
  rw [Interp.exec, scopeExpr_condition]

theorem exec_while (c : Condition) (p : Code) (scope : List String) (σ : Codegen.State Answer) :
    Interp.exec R (.whileStmt c.expr (stmts p)) scope σ =
      Interp.loop R (Interp.test R c.expr scope) (Interp.execStmts R (stmts p) scope)
        (σ.world.left + 1) σ := by
  rw [Interp.exec, scopeExpr_condition]
  rfl

end Statements

/-- From where the names are locals and hold the store, the computation comes to where they
hold the other one, with so many answers. -/
def Performs (P : Platform) (s₀ : Runtime.State) (main : Runtime.Ref) (ρ ρ' : Store (BitVec 32))
    (count : Nat) (x : Interp Answer Unit) : Prop :=
  ∀ σ s, At (comparing P) s₀ main σ s → Holds σ.locals s ρ →
    Outcome P s₀ main σ count (fun _ σ' s' => Holds σ'.locals s' ρ') (x σ)

theorem Performs.seq {ρ₁ ρ' : Store (BitVec 32)} {count count' : Nat} {x y : Interp Answer Unit}
    (h : Performs P s₀ main ρ ρ₁ count x) (h' : Performs P s₀ main ρ₁ ρ' count' y) :
    Performs P s₀ main ρ ρ' (count + count') (do x; y) := fun σ s hat hholds =>
  (h σ s hat hholds).bind fun _ σ₁ s₁ hat₁ hholds₁ _ => h' σ₁ s₁ hat₁ hholds₁

/-- A branch is taken as the condition holds. -/
theorem Performs.branch {ρ' : Store (BitVec 32)} {count : Nat} {x y : Interp Answer Unit}
    (c : Condition) (hs₀ : Runtime.Typed s₀) (hscope : ∀ x ∈ vars, x ∈ scope)
    (hassigned : c.assigned vars = true) {b : Bool} (hb : c.int P ρ = some b)
    (h : Performs P s₀ main ρ ρ' count (if b then x else y)) :
    Performs P s₀ main ρ ρ' (c.calls + count)
      (do if ← Interp.test (runs P s₀ main) c.expr scope then x else y) := by
  intro σ s hat hholds
  refine (outcome_test c hs₀ hat hholds hscope hassigned hb).bind fun b' σ₁ s₁ hat₁ hpost _ => ?_
  obtain ⟨rfl, hkeeps, hlocals⟩ := hpost
  exact h σ₁ s₁ hat₁ (hlocals ▸ hholds.keeps hkeeps)

/-- A safepoint leaves everything as it is. -/
theorem outcome_safepoint (hcalm : Calm P) (hat : At (comparing P) s₀ main σ s) :
    Outcome P s₀ main σ 1 (fun _ σ' s' => s' = s ∧ σ'.locals = σ.locals)
      (Interp.call (runs P s₀ main) .safepoint σ) := by
  obtain ⟨v, hv⟩ := hcalm s
  have hhandle : (comparing P).handle s .safepoint = .ok (s, v) := hv
  refine (outcome_call hat hat.1 hhandle (fun h => by cases h) fun h => by cases h).mono ?_
  rintro a σ' s' ⟨-, rfl, hlocals⟩
  exact ⟨rfl, hlocals⟩

/-- A loop goes round as often as it does in the program. -/
theorem outcome_loop (hs₀ : Runtime.Typed s₀) (hcalm : Calm P) {c : Condition} {p : Code}
    (hassigned : c.assigned vars = true)
    (hbody : ∀ ρ ρ', Runs (ints P) p ρ ρ' → ∃ count, ∀ scope : List String,
      (∀ x ∈ vars, x ∈ scope) →
        Performs P s₀ main ρ ρ' count (Interp.execStmts (runs P s₀ main) (stmts p) scope))
    {ρ ρ' : Store (BitVec 32)} (hruns : Runs (ints P) (.while_ c p) ρ ρ') :
    ∃ count, ∀ scope : List String, (∀ x ∈ vars, x ∈ scope) → ∀ n σ s,
      At (comparing P) s₀ main σ s → Holds σ.locals s ρ → σ.world.left < n →
        Outcome P s₀ main σ count (fun _ σ' s' => Holds σ'.locals s' ρ')
          (Interp.loop (runs P s₀ main) (Interp.test (runs P s₀ main) c.expr scope)
            (Interp.execStmts (runs P s₀ main) (stmts p) scope) n σ) := by
  generalize hq : Command.while_ c p = q at hruns
  induction hruns with
  | act | seq | ifTrue | ifFalse => cases hq
  | whileFalse hc =>
      obtain ⟨rfl, rfl⟩ := Command.while_.inj hq
      refine ⟨c.calls + 0, fun scope hscope n σ s hat hholds hlt => ?_⟩
      obtain ⟨n, rfl⟩ := Nat.exists_eq_succ_of_ne_zero (Nat.ne_zero_of_lt hlt)
      rw [Interp.loop]
      refine (outcome_test c hs₀ hat hholds hscope hassigned hc).bind
        fun b σ₁ s₁ hat₁ hpost _ => ?_
      obtain ⟨rfl, hkeeps, hlocals⟩ := hpost
      exact outcome_pure hat₁ (hlocals ▸ hholds.keeps hkeeps)
  | whileTrue hc hp _ _ ih =>
      obtain ⟨rfl, rfl⟩ := Command.while_.inj hq
      obtain ⟨count, hcount⟩ := hbody _ _ hp
      obtain ⟨count', hcount'⟩ := ih rfl
      refine ⟨c.calls + (count + (1 + count')), fun scope hscope n σ s hat hholds hlt => ?_⟩
      obtain ⟨n, rfl⟩ := Nat.exists_eq_succ_of_ne_zero (Nat.ne_zero_of_lt hlt)
      rw [Interp.loop]
      refine (outcome_test c hs₀ hat hholds hscope hassigned hc).bind
        fun b σ₁ s₁ hat₁ hpost hleft₁ => ?_
      obtain ⟨rfl, hkeeps, hlocals⟩ := hpost
      refine (hcount scope hscope σ₁ s₁ hat₁ (hlocals ▸ hholds.keeps hkeeps)).bind
        fun _ σ₂ s₂ hat₂ hholds₂ hleft₂ => ?_
      refine (outcome_safepoint hcalm hat₂).bind fun _ σ₃ s₃ hat₃ hpost hleft₃ => ?_
      obtain ⟨rfl, hlocals₃⟩ := hpost
      exact hcount' scope hscope n σ₃ _ hat₃ (hlocals₃ ▸ hholds₂) (by omega)

/-- **A run of the program is one of the interpreter**, with so many answers as it takes. -/
theorem performs_of_runs (main : Runtime.Ref) (hs₀ : Runtime.Typed s₀) (hcalm : Calm P) (p : Code)
    {vars' : List String} (h : assignedAfter p vars = some vars') {ρ ρ' : Store (BitVec 32)}
    (hruns : Runs (ints P) p ρ ρ') : ∃ count, ∀ scope : List String, (∀ x ∈ vars, x ∈ scope) →
      Performs P s₀ main ρ ρ' count (Interp.execStmts (runs P s₀ main) (stmts p) scope) := by
  induction p generalizing vars vars' ρ ρ' with
  | act a =>
      cases hruns with
      | act hact =>
          obtain ⟨v, hv, rfl⟩ := Option.map_eq_some_iff.mp hact
          rw [assignedAfter] at h
          split at h
          · next hassigned =>
              refine ⟨a.value.calls + 0, fun scope hscope σ s hat hholds => ?_⟩
              rw [stmts, execStmts_singleton, exec_assign]
              refine (outcome_int a.value hat hholds (fun x hx => List.mem_cons_of_mem _
                (hscope x hx)) hassigned hv).bind fun b σ₁ s₁ hat₁ hmade _ => ?_
              obtain ⟨⟨r, rfl, hr⟩, hkeeps, hlocals⟩ := hmade
              exact .goes hat₁ rfl ((hlocals ▸ hholds.keeps hkeeps).update _ hr)
          · cases h
  | seq p q ihp ihq =>
      obtain ⟨vars₁, hp, hq⟩ := Option.bind_eq_some_iff.mp h
      cases hruns with
      | seq hrun hrun' =>
          obtain ⟨count, hcount⟩ := ihp hp hrun
          obtain ⟨count', hcount'⟩ := ihq hq hrun'
          refine ⟨count + count', fun scope hscope => ?_⟩
          rw [stmts, execStmts_append]
          exact (hcount scope hscope).seq (hcount' _ (mem_scope_of_assigned hp hscope))
  | ifElse c p q ihp ihq =>
      rw [assignedAfter] at h
      split at h
      · next hassigned =>
          obtain ⟨ps, hp, h⟩ := Option.bind_eq_some_iff.mp h
          obtain ⟨qs, hq, -⟩ := Option.map_eq_some_iff.mp h
          cases hruns with
          | ifTrue hc hrun =>
              obtain ⟨count, hcount⟩ := ihp hp hrun
              refine ⟨c.calls + count, fun scope hscope => ?_⟩
              rw [stmts, execStmts_singleton, exec_ifElse]
              exact .branch c hs₀ hscope hassigned hc (hcount scope hscope)
          | ifFalse hc hrun =>
              obtain ⟨count, hcount⟩ := ihq hq hrun
              refine ⟨c.calls + count, fun scope hscope => ?_⟩
              rw [stmts, execStmts_singleton, exec_ifElse]
              exact .branch c hs₀ hscope hassigned hc
                (hcount _ fun x hx => mem_scope p (hscope x hx))
      · cases h
  | while_ c p ih =>
      rw [assignedAfter] at h
      split at h
      · next hassigned =>
          obtain ⟨ps, hp, -⟩ := Option.map_eq_some_iff.mp h
          obtain ⟨count, hcount⟩ := outcome_loop hs₀ hcalm hassigned (fun _ _ => ih hp) hruns
          refine ⟨count, fun scope hscope σ s hat hholds => ?_⟩
          rw [stmts, execStmts_singleton, exec_while]
          exact hcount scope hscope _ σ s hat hholds (Nat.lt_succ_self _)
      · cases h

/-! ### Runs of the interpreter -/

/-- The names have been assigned to. -/
def Defined (vars : List String) (ρ : Store (BitVec 32)) : Prop :=
  ∀ x ∈ vars, (ρ x).isSome = true

theorem Defined.update (h : Defined vars ρ) (name : String) (v : BitVec 32) :
    Defined (name :: vars) (Function.update ρ name (some v)) := by
  intro x hx
  by_cases hname : x = name
  · rw [hname, Function.update_self]
    rfl
  · rw [Function.update_of_ne hname]
    exact h x ((List.mem_cons.mp hx).resolve_left hname)

/-- The literals are not refused. -/
def Accepted (P : Platform) (ns : List Nat) : Prop := ∀ n ∈ ns, (P.llvmInt n).isSome = true

theorem Accepted.append {ns ms : List Nat} (h : Accepted P (ns ++ ms)) :
    Accepted P ns ∧ Accepted P ms :=
  ⟨fun n hn => h n (List.mem_append_left _ hn), fun n hn => h n (List.mem_append_right _ hn)⟩

/-- An expression whose names have been assigned to has a value. -/
theorem exists_int (e : IntExpr) (hassigned : e.assigned vars = true) (hdefined : Defined vars ρ)
    (haccepted : Accepted P e.numbers) : ∃ v, e.int P ρ = some v := by
  induction e with
  | literal l =>
      obtain ⟨v, hv⟩ := Option.isSome_iff_exists.mp (haccepted l.value List.mem_cons_self)
      exact ⟨_, Option.map_eq_some_iff.mpr ⟨v, hv, rfl⟩⟩
  | name n =>
      exact Option.isSome_iff_exists.mp (hdefined _ (List.contains_iff_mem.mp hassigned))
  | plus left right ihl ihr =>
      obtain ⟨hleft, hright⟩ := Bool.and_eq_true_iff.mp hassigned
      obtain ⟨a, ha⟩ := ihl hleft haccepted.append.1
      obtain ⟨b, hb⟩ := ihr hright haccepted.append.2
      exact ⟨P.add a b, by rw [IntExpr.int, ha, hb]; rfl⟩

theorem exists_condition (c : Condition) (hassigned : c.assigned vars = true)
    (hdefined : Defined vars ρ) (haccepted : Accepted P c.numbers) :
    ∃ b, c.int P ρ = some b := by
  cases c with
  | bool b => exact ⟨b, rfl⟩
  | less left right | equal left right =>
      obtain ⟨hleft, hright⟩ := Bool.and_eq_true_iff.mp hassigned
      obtain ⟨a, ha⟩ := exists_int left hleft hdefined haccepted.append.1
      obtain ⟨b, hb⟩ := exists_int right hright hdefined haccepted.append.2
      exact ⟨_, by rw [Condition.int, ha, hb]; rfl⟩

theorem interp_bind_eq_some {α β : Type} {x : Interp Answer α} {f : α → Interp Answer β}
    {σ' : Codegen.State Answer} {b : β} (h : (x >>= f) σ = (some b, σ')) :
    ∃ a σ₁, x σ = (some a, σ₁) ∧ f a σ₁ = (some b, σ') := by
  rcases hx : x σ with ⟨_ | a, σ₁⟩
  · rw [Codegen.interp_bind_none hx] at h
    cases h
  · rw [Codegen.interp_bind_some hx] at h
    exact ⟨a, σ₁, rfl, h⟩

/-- What has come to something has had answers enough. -/
theorem Outcome.of_some {β : Type} {count : Nat} {b : β} {σ' : Codegen.State Answer}
    {post : β → Codegen.State Answer → Runtime.State → Prop}
    (h : Outcome P s₀ main σ count post (some b, σ')) :
    ∃ s', At (comparing P) s₀ main σ' s' ∧ post b σ' s' := by
  cases h with
  | goes hat _ hpost => exact ⟨_, hat, hpost⟩

/-- The interpreter is where the program has come to. -/
def Arrives (P : Platform) (s₀ : Runtime.State) (main : Runtime.Ref) (p : Code)
    (vars' : List String) (ρ : Store (BitVec 32)) (σ' : Codegen.State Answer) : Prop :=
  ∃ ρ' s', Runs (ints P) p ρ ρ' ∧ At (comparing P) s₀ main σ' s' ∧ Holds σ'.locals s' ρ' ∧
    Defined vars' ρ'

/-- A condition that has been decided holds or not, and nothing else has happened. -/
theorem test_decided (c : Condition) (hs₀ : Runtime.Typed s₀)
    (hat : At (comparing P) s₀ main σ s) (hholds : Holds σ.locals s ρ)
    (hscope : ∀ x ∈ vars, x ∈ scope) (hassigned : c.assigned vars = true)
    (hdefined : Defined vars ρ) (haccepted : Accepted P c.numbers) {b : Bool}
    {σ₁ : Codegen.State Answer}
    (htest : Interp.test (runs P s₀ main) c.expr scope σ = (some b, σ₁)) :
    c.int P ρ = some b ∧ ∃ s₁, At (comparing P) s₀ main σ₁ s₁ ∧ Holds σ₁.locals s₁ ρ := by
  obtain ⟨b', hb'⟩ := exists_condition c hassigned hdefined haccepted
  have houtcome := outcome_test c hs₀ hat hholds hscope hassigned hb'
  rw [htest] at houtcome
  obtain ⟨s₁, hat₁, rfl, hkeeps, hlocals⟩ := houtcome.of_some
  exact ⟨hb', s₁, hat₁, hlocals ▸ hholds.keeps hkeeps⟩

/-- The iterations of a loop that has come to an end. -/
theorem arrives_of_loop (hs₀ : Runtime.Typed s₀) (hcalm : Calm P) {c : Condition} {p : Code}
    {ps : List String} (hassigned : c.assigned vars = true) (haccepted : Accepted P c.numbers)
    (hps : ∀ x ∈ vars, x ∈ ps) (hscope : ∀ x ∈ vars, x ∈ scope)
    (hbody : ∀ σ s ρ σ', At (comparing P) s₀ main σ s → Holds σ.locals s ρ → Defined vars ρ →
      Interp.execStmts (runs P s₀ main) (stmts p) scope σ = (some (), σ') →
        Arrives P s₀ main p ps ρ σ') (n : Nat) :
    ∀ σ s ρ σ', At (comparing P) s₀ main σ s → Holds σ.locals s ρ → Defined vars ρ →
      Interp.loop (runs P s₀ main) (Interp.test (runs P s₀ main) c.expr scope)
        (Interp.execStmts (runs P s₀ main) (stmts p) scope) n σ = (some (), σ') →
      Arrives P s₀ main (.while_ c p) vars ρ σ' := by
  induction n with
  | zero =>
      intro σ s ρ σ' _ _ _ hloop
      cases hloop
  | succ n ih =>
      intro σ s ρ σ' hat hholds hdefined hloop
      rw [Interp.loop] at hloop
      obtain ⟨b, σ₁, htest, hloop⟩ := interp_bind_eq_some hloop
      obtain ⟨hb, s₁, hat₁, hholds₁⟩ :=
        test_decided c hs₀ hat hholds hscope hassigned hdefined haccepted htest
      cases b with
      | false =>
          obtain rfl : σ₁ = σ' := congrArg Prod.snd hloop
          exact ⟨ρ, s₁, .whileFalse hb, hat₁, hholds₁, hdefined⟩
      | true =>
          obtain ⟨_, σ₂, hrun, hloop⟩ := interp_bind_eq_some hloop
          obtain ⟨v, σ₃, hsafepoint, hloop⟩ := interp_bind_eq_some hloop
          obtain ⟨ρ₂, s₂, hruns, hat₂, hholds₂, hdefined₂⟩ :=
            hbody σ₁ s₁ ρ σ₂ hat₁ hholds₁ hdefined hrun
          have houtcome := outcome_safepoint hcalm hat₂
          rw [hsafepoint] at houtcome
          obtain ⟨s₃, hat₃, rfl, hlocals₃⟩ := houtcome.of_some
          obtain ⟨ρ', s', hruns', hat', hholds', hdefined'⟩ := ih σ₃ s₃ ρ₂ σ' hat₃
            (hlocals₃ ▸ hholds₂) (fun x hx => hdefined₂ x (hps x hx)) hloop
          exact ⟨ρ', s', .whileTrue hb hruns hruns', hat', hholds', hdefined'⟩

/-- What has been assigned to stays so. -/
theorem mem_assignedAfter {p : Code} {vars' : List String} (h : assignedAfter p vars = some vars')
    {x : String} (hx : x ∈ vars) : x ∈ vars' := by
  induction p generalizing vars vars' with
  | act a =>
      rw [assignedAfter] at h
      split at h
      · obtain rfl := Option.some.inj h
        exact List.mem_cons_of_mem _ hx
      · cases h
  | seq p q ihp ihq =>
      obtain ⟨vars₁, hp, hq⟩ := Option.bind_eq_some_iff.mp h
      exact ihq hq (ihp hp hx)
  | ifElse c p q ihp ihq =>
      rw [assignedAfter] at h
      split at h
      · obtain ⟨ps, hp, h⟩ := Option.bind_eq_some_iff.mp h
        obtain ⟨qs, hq, rfl⟩ := Option.map_eq_some_iff.mp h
        exact List.mem_filter.mpr ⟨ihp hp hx, List.contains_iff_mem.mpr (ihq hq hx)⟩
      · cases h
  | while_ c p ih =>
      rw [assignedAfter] at h
      split at h
      · obtain ⟨ps, -, rfl⟩ := Option.map_eq_some_iff.mp h
        exact hx
      · cases h

/-- **A run of the interpreter that has come to an end is one of the program.** -/
theorem arrives_of_exec (hs₀ : Runtime.Typed s₀) (hcalm : Calm P) (p : Code)
    {vars' : List String} (h : assignedAfter p vars = some vars')
    (haccepted : Accepted P (numbers p)) (hscope : ∀ x ∈ vars, x ∈ scope)
    {σ' : Codegen.State Answer} (hat : At (comparing P) s₀ main σ s)
    (hholds : Holds σ.locals s ρ) (hdefined : Defined vars ρ)
    (hexec : Interp.execStmts (runs P s₀ main) (stmts p) scope σ = (some (), σ')) :
    Arrives P s₀ main p vars' ρ σ' := by
  induction p generalizing vars vars' scope σ s ρ σ' with
  | act a =>
      have hafter := h
      rw [assignedAfter] at h
      split at h
      · next hassigned =>
          obtain rfl := Option.some.inj h
          obtain ⟨v, hv⟩ := exists_int a.value hassigned hdefined haccepted
          have hruns : Runs (ints P) (.act a) ρ (Function.update ρ a.name.text (some v)) :=
            .act (Option.map_eq_some_iff.mpr ⟨v, hv, rfl⟩)
          obtain ⟨count, hcount⟩ := performs_of_runs main hs₀ hcalm _ hafter hruns
          have houtcome := hcount scope hscope σ s hat hholds
          rw [hexec] at houtcome
          obtain ⟨s', hat', hholds'⟩ := houtcome.of_some
          exact ⟨_, s', hruns, hat', hholds', hdefined.update _ v⟩
      · cases h
  | seq p q ihp ihq =>
      obtain ⟨vars₁, hp, hq⟩ := Option.bind_eq_some_iff.mp h
      rw [stmts, execStmts_append] at hexec
      obtain ⟨_, σ₁, hfirst, hrest⟩ := interp_bind_eq_some hexec
      obtain ⟨ρ₁, s₁, hruns, hat₁, hholds₁, hdefined₁⟩ :=
        ihp hp haccepted.append.1 hscope hat hholds hdefined hfirst
      obtain ⟨ρ', s', hruns', hat', hholds', hdefined'⟩ :=
        ihq hq haccepted.append.2 (mem_scope_of_assigned hp hscope) hat₁ hholds₁ hdefined₁ hrest
      exact ⟨ρ', s', .seq hruns hruns', hat', hholds', hdefined'⟩
  | ifElse c p q ihp ihq =>
      rw [assignedAfter] at h
      split at h
      · next hassigned =>
          obtain ⟨ps, hp, h⟩ := Option.bind_eq_some_iff.mp h
          obtain ⟨qs, hq, rfl⟩ := Option.map_eq_some_iff.mp h
          rw [stmts, execStmts_singleton, exec_ifElse] at hexec
          obtain ⟨b, σ₁, htest, hbranch⟩ := interp_bind_eq_some hexec
          obtain ⟨hb, s₁, hat₁, hholds₁⟩ := test_decided c hs₀ hat hholds hscope hassigned
            hdefined haccepted.append.1 htest
          cases b with
          | true =>
              obtain ⟨ρ', s', hruns, hat', hholds', hdefined'⟩ := ihp hp
                haccepted.append.2.append.1 hscope hat₁ hholds₁ hdefined hbranch
              exact ⟨ρ', s', .ifTrue hb hruns, hat', hholds',
                fun x hx => hdefined' x (List.mem_filter.mp hx).1⟩
          | false =>
              obtain ⟨ρ', s', hruns, hat', hholds', hdefined'⟩ := ihq hq
                haccepted.append.2.append.2 (fun x hx => mem_scope p (hscope x hx)) hat₁ hholds₁
                hdefined hbranch
              exact ⟨ρ', s', .ifFalse hb hruns, hat', hholds',
                fun x hx => hdefined' x (List.contains_iff_mem.mp (List.mem_filter.mp hx).2)⟩
      · cases h
  | while_ c p ih =>
      rw [assignedAfter] at h
      split at h
      · next hassigned =>
          obtain ⟨ps, hp, rfl⟩ := Option.map_eq_some_iff.mp h
          rw [stmts, execStmts_singleton, exec_while] at hexec
          exact arrives_of_loop hs₀ hcalm hassigned haccepted.append.1
            (fun x hx => mem_assignedAfter hp hx) hscope
            (fun _ _ _ _ hat hholds hdefined hexec =>
              ih hp haccepted.append.2 hscope hat hholds hdefined hexec)
            _ σ s ρ σ' hat hholds hdefined hexec
      · cases h

end Pup.Integers
