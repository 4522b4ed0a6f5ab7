/-
Which parts of a `begin` are executed.

`BeginStmt#codegen` generates the body and the clauses of a `begin`, and looks at neither of its
other two parts.  `codegenBegin` is the same generator, which notes in addition where in the code
each part is that it generates.  No note is made of an `else` or an `ensure`, so that on no path
there is anything of them to be executed.
-/
import Pup.Codegen.Paths
import Pup.Codegen.LandingPads

namespace Pup.Codegen

open Parse Pup.Flow

variable {α β : Type} {g g' : CodegenContext}

/-! ### The generator with its notes -/

/-- The parts of a `begin`; the clauses are numbered. -/
inductive Part
  | beginbk
  | rescuebk (i : Nat)
  | elsebk
  | ensurebk
  deriving DecidableEq, Repr

/-- Where the code of a part begins, and where what follows it begins. -/
structure Mark where
  part : Part
  start : Point
  stop : Point
  deriving DecidableEq, Repr

/-- Where the parts of a `begin` are, where an exception is raised again that no clause takes, and
where the code goes on after the statement. -/
structure Marks where
  parts : List Mark
  rethrow : Point
  after : Point
  deriving DecidableEq, Repr

/-- The place where the builder is. -/
def CodegenContext.place (g : CodegenContext) : Point := ⟨g.build, (g.instrs g.build).length⟩

def here : Gen Point := fun g => .ok (g.place, g)

/-- A part is generated, and its place noted. -/
def marked (part : Part) (m : Gen α) : Gen (α × Mark) := do
  let start ← here
  let a ← m
  let stop ← here
  return (a, ⟨part, start, stop⟩)

/-- The clauses of a `begin`, from the clause with number `i` on. -/
def codegenRescuesMarked (result excep excep_type_asobj : Operand) :
    Nat → List RescueBlock → Gen (List Nat × List Mark)
  | _, [] => return ([], [])
  | i, .mk types var_name statements :: rescuebks => do
      let (bkrescue, next_rescue_block) ←
        enterRescue (types.getD defaultTypes) var_name excep excep_type_asobj
      let (v, mark) ← marked (.rescuebk i) (codegenStmts statements)
      storeValue v result
      positionAtEnd next_rescue_block
      let (rescue_impls, marks) ←
        codegenRescuesMarked result excep excep_type_asobj (i + 1) rescuebks
      return (bkrescue :: rescue_impls, mark :: marks)

/-- `BeginStmt#codegen` with its notes. -/
def codegenBegin (beginbk : List Stmt) (rescuebks : List RescueBlock)
    (_elsebk _ensurebk : Option (List Stmt)) : Gen (Operand × Marks) :=
  if rescuebks.isEmpty then throw .nilGiven else do
    let result ← allocaInEntry
    let landingpad ← appendBlock "landingpad"
    let body ← ehBegin (some landingpad) do
      let (v, mark) ← marked .beginbk (codegenStmts beginbk)
      storeValue v result
      return mark
    let begin_block := (← get).build
    let (rescue_impls, clauses, rethrow) ← withBuilderAtEnd landingpad do
      let (dwarf_ex, excep, excep_type_asobj) ← enterLandingpad
      let (rescue_impls, clauses) ← codegenRescuesMarked result excep excep_type_asobj 0 rescuebks
      let rethrow ← here
      leaveLandingpad dwarf_ex
      return (rescue_impls, clauses, rethrow)
    let v ← leaveBegin begin_block rescue_impls result
    let after := (← get).build
    return (v, ⟨body :: clauses, rethrow, ⟨after, 0⟩⟩)

/-! ### The notes change nothing -/

theorem here_ok {p : Point} : here g = .ok (p, g') ↔ p = g.place ∧ g' = g := by
  simp [here, eq_comm]

theorem marked_ok {part : Part} {m : Gen α} {a : α} {mark : Mark} :
    marked part m g = .ok ((a, mark), g') ↔
      m g = .ok (a, g') ∧ mark = ⟨part, g.place, g'.place⟩ := by
  simp only [marked, bind_ok, here_ok, pure_ok]
  constructor
  · rintro ⟨_, _, ⟨rfl, rfl⟩, a', g₁, hm, _, _, ⟨rfl, rfl⟩, heq, rfl⟩
    obtain ⟨rfl, rfl⟩ := Prod.mk.inj heq
    exact ⟨hm, rfl⟩
  · rintro ⟨hm, rfl⟩
    exact ⟨_, _, ⟨rfl, rfl⟩, a, _, hm, _, _, ⟨rfl, rfl⟩, rfl, rfl⟩

/-- The notes on the clauses are one for each, in order. -/
theorem codegenRescues_marked {rescuebks : List RescueBlock} {result excep asobj : Operand}
    {impls : List Nat} (h : codegenRescues rescuebks result excep asobj g = .ok (impls, g')) :
    ∀ i, ∃ marks, codegenRescuesMarked result excep asobj i rescuebks g =
        .ok ((impls, marks), g') ∧
      marks.map Mark.part = (List.range' i rescuebks.length).map .rescuebk := by
  induction rescuebks generalizing g impls with
  | nil =>
      intro i
      rw [codegenRescues, pure_ok] at h
      obtain ⟨rfl, rfl⟩ := h
      exact ⟨[], rfl, rfl⟩
  | cons rescuebk rescuebks ih =>
      intro i
      obtain ⟨types, var_name, statements⟩ := rescuebk
      simp only [codegenRescues, bind_ok, positionAtEnd_ok, pure_ok] at h
      obtain ⟨⟨bkrescue, next⟩, g₁, henter, v, g₂, hstatements, _, g₃, hstore, _, _, rfl, rest, _,
        hrest, rfl, rfl⟩ := h
      obtain ⟨marks, hmarks, hparts⟩ := ih hrest (i + 1)
      refine ⟨⟨.rescuebk i, g₁.place, g₂.place⟩ :: marks, ?_, ?_⟩
      · simp only [codegenRescuesMarked, bind_ok, positionAtEnd_ok, pure_ok]
        exact ⟨(bkrescue, next), g₁, henter, (v, _), g₂, marked_ok.mpr ⟨hstatements, rfl⟩, (), g₃,
          hstore, (), _, rfl, (rest, marks), _, hmarks, rfl, rfl⟩
      · rw [List.map_cons, hparts, List.length_cons, List.range'_succ, List.map_cons]

/-- **The notes change nothing**, and there is one on the body and on each of the clauses. -/
theorem codegenStmt_marked {beginbk : List Stmt} {rescuebks : List RescueBlock}
    {elsebk ensurebk : Option (List Stmt)} {v : Operand}
    (h : codegenStmt (.beginStmt beginbk rescuebks elsebk ensurebk) g = .ok (v, g')) :
    ∃ marks, codegenBegin beginbk rescuebks elsebk ensurebk g = .ok ((v, marks), g') ∧
      marks.parts.map Mark.part =
        .beginbk :: (List.range' 0 rescuebks.length).map .rescuebk := by
  cases rescuebks with
  | nil =>
      rw [codegenStmt] at h
      exact absurd h throw_ok
  | cons rescuebk rescuebks =>
      simp only [codegenStmt, bind_ok, ehBegin_ok, get_ok, withBuilderAtEnd_ok, pure_ok] at h
      obtain ⟨result, g₁, halloca, landingpad, g₂, hpad, _, _, ⟨g₃, ⟨value, g₄, hbody, hstore⟩,
        rfl⟩, _, _, ⟨rfl, rfl⟩, impls, _, ⟨g₅, ⟨vs, g₆, hland, _, g₇, hrescues, _, g₈, hleave, rfl,
        rfl⟩, rfl⟩, hout⟩ := h
      obtain ⟨clauses, hclauses, hparts⟩ := codegenRescues_marked hrescues 0
      let mark : Mark :=
        ⟨.beginbk, CodegenContext.place { g₂ with landingpad := some landingpad }, g₄.place⟩
      have hmarked : marked .beginbk (codegenStmts beginbk)
          { g₂ with landingpad := some landingpad } = .ok ((value, mark), g₄) :=
        marked_ok.mpr ⟨hbody, rfl⟩
      refine ⟨⟨mark :: clauses, g₇.place, ⟨g'.build, 0⟩⟩, ?_, ?_⟩
      · simp only [codegenBegin, List.isEmpty_cons, Bool.false_eq_true, if_false, bind_ok,
          ehBegin_ok, get_ok, withBuilderAtEnd_ok, pure_ok, here_ok]
        exact ⟨result, g₁, halloca, landingpad, g₂, hpad, _, _, ⟨g₃, ⟨(value, _), g₄,
          hmarked, _, _, hstore, rfl, rfl⟩, rfl⟩, _, _, ⟨rfl, rfl⟩,
          (impls, clauses, g₇.place), _, ⟨_, ⟨vs, g₆, hland, (impls, clauses), g₇, hclauses, _, _,
          ⟨rfl, rfl⟩, _, _, hleave, rfl, rfl⟩, rfl⟩, v, g', hout, _, _, ⟨rfl, rfl⟩, rfl, rfl⟩
      · rw [List.map_cons, hparts]

/-! ### Runs of a `begin` -/

/-- The ways out of a `begin`: its end, which the body and the clauses jump to, the rethrow of
an exception that no clause takes, and an exception that is raised in a clause. -/
inductive WayOut (F g : CodegenContext) (marks : Marks) : Point → Prop
  | after : WayOut F g marks marks.after
  | rethrow : WayOut F g marks marks.rethrow
  /-- It is taken by the `begin` that this one stands in. -/
  | outer {landingpad : Nat} (h : g.landingpad = some landingpad) :
      WayOut F g marks ⟨landingpad, 0⟩
  /-- It leaves the function. -/
  | raised {p : Point} {r : Nat} {fn : String} {args : List Operand}
      (h : F.code.at? p = some (.call r fn args)) (hfn : raisingFunctions.contains fn) :
      WayOut F g marks p

/-- A run through a `begin`, from its beginning to a way out. -/
structure BeginRun (F g : CodegenContext) (marks : Marks) (path : List Point) : Prop where
  run : F.code.Run g.place path
  out : ∃ p, path.head? = some p ∧ WayOut F g marks p

/-- How often a part is executed. -/
def Marks.executions (marks : Marks) (part : Part) (path : List Point) : Nat :=
  path.countP fun p => marks.parts.any fun mark => decide (mark.part = part ∧ mark.start = p)

/-- The body completes: it comes to what follows it. -/
def Marks.Completes (marks : Marks) (path : List Point) : Prop :=
  ∃ mark ∈ marks.parts, mark.part = .beginbk ∧ mark.stop ∈ path

/-- The `else` is executed when the body completes, and the `ensure` once in any case. -/
structure RunsParts (elsebk ensurebk : Option (List Stmt)) (marks : Marks)
    (path : List Point) : Prop where
  elsebk : elsebk.isSome → (0 < marks.executions .elsebk path ↔ marks.Completes path)
  ensurebk : ensurebk.isSome → marks.executions .ensurebk path = 1

/-- What is not noted is not executed. -/
theorem Marks.executions_eq_zero {marks : Marks} {part : Part}
    (h : part ∉ marks.parts.map Mark.part) (path : List Point) :
    marks.executions part path = 0 := by
  unfold executions
  rw [List.countP_eq_zero]
  intro p _ hany
  obtain ⟨mark, hmark, heq⟩ := List.any_eq_true.mp hany
  exact h (List.mem_map.mpr ⟨mark, hmark, (of_decide_eq_true heq).1⟩)

/-- **When a `begin` runs its parts**: on a run on which its body does not complete if it has an
`else`, and never if it has an `ensure`.  Neither part has a place in the code, so nothing
depends on the path being one that the code can take. -/
theorem runsParts_iff {stmts : List Stmt} {F : CodegenContext} (h : generate stmts = .ok F)
    {beginbk : List Stmt} {rescuebks : List RescueBlock} {elsebk ensurebk : Option (List Stmt)}
    (hin : InsideStmts (.beginStmt beginbk rescuebks elsebk ensurebk) g stmts .unitBody) :
    ∃ v marks g', codegenStmt (.beginStmt beginbk rescuebks elsebk ensurebk) g = .ok (v, g') ∧
      codegenBegin beginbk rescuebks elsebk ensurebk g = .ok ((v, marks), g') ∧
      ∀ path, BeginRun F g marks path →
        (RunsParts elsebk ensurebk marks path ↔
          (elsebk.isSome → ¬ marks.Completes path) ∧ ensurebk = none) := by
  obtain ⟨v₀, g₁, hrun, -⟩ := generate_ok h
  obtain ⟨hg, v, g', hbegin⟩ := hin.generated wellFormed_unitBody ⟨_, _, hrun⟩
  obtain ⟨marks, hmarks, hparts⟩ := codegenStmt_marked hbegin
  have helse : ∀ path, marks.executions .elsebk path = 0 :=
    marks.executions_eq_zero (by rw [hparts]; simp)
  have hensure : ∀ path, marks.executions .ensurebk path = 0 :=
    marks.executions_eq_zero (by rw [hparts]; simp)
  refine ⟨v, marks, g', hbegin, hmarks, fun path _ => ⟨fun hruns => ⟨?_, ?_⟩, ?_⟩⟩
  · intro hsome hcompletes
    have hpos := (hruns.elsebk hsome).mpr hcompletes
    rw [helse] at hpos
    exact Nat.lt_irrefl 0 hpos
  · cases ensurebk with
    | none => rfl
    | some statements =>
        have hone := hruns.ensurebk rfl
        rw [hensure] at hone
        cases hone
  · rintro ⟨hnot, rfl⟩
    refine ⟨fun hsome => ?_, by simp⟩
    rw [helse]
    exact iff_of_false (Nat.lt_irrefl 0) (hnot hsome)

/-- A `begin` with an `else`, and the two ways that its body goes. -/
def withElse : Stmt :=
  .beginStmt [.expr (.varOrInvoke (.name "f") none none none)] [.mk none none [.expr (.int "2")]]
    (some [.expr (.int "3")]) none

def bodyCompletes : List Point := [⟨6, 0⟩, ⟨3, 1⟩, ⟨3, 0⟩, ⟨1, 1⟩, ⟨1, 0⟩]

def bodyRaises : List Point :=
  [⟨6, 0⟩, ⟨5, 2⟩, ⟨5, 1⟩, ⟨5, 0⟩, ⟨2, 10⟩, ⟨2, 9⟩, ⟨2, 8⟩, ⟨2, 7⟩, ⟨2, 6⟩, ⟨2, 5⟩, ⟨2, 4⟩, ⟨2, 3⟩,
    ⟨2, 2⟩, ⟨2, 1⟩, ⟨2, 0⟩, ⟨1, 1⟩, ⟨1, 0⟩]

/-- Where its parts are. -/
def withElseMarks : Marks :=
  ⟨[⟨.beginbk, ⟨1, 0⟩, ⟨3, 0⟩⟩, ⟨.rescuebk 0, ⟨5, 0⟩, ⟨5, 1⟩⟩], ⟨4, 0⟩, ⟨6, 0⟩⟩

theorem codegenBegin_withElse : ∃ v g',
    codegenBegin [.expr (.varOrInvoke (.name "f") none none none)]
      [.mk none none [.expr (.int "2")]] (some [.expr (.int "3")]) none .unitBody =
        .ok ((v, withElseMarks), g') := by
  obtain ⟨⟨⟨v, marks⟩, g'⟩, h, rfl⟩ := Outcome.ok_of_map
    (show (codegenBegin [.expr (.varOrInvoke (.name "f") none none none)]
      [.mk none none [.expr (.int "2")]] (some [.expr (.int "3")]) none
        .unitBody).toOption.map (fun r => r.1.2) = some withElseMarks by decide +kernel)
  exact ⟨v, g', h⟩

theorem runsParts_bodyRaises : ∃ F, generate [withElse] = .ok F ∧
    BeginRun F .unitBody withElseMarks bodyRaises ∧
      RunsParts (some [.expr (.int "3")]) none withElseMarks bodyRaises := by
  obtain ⟨F, hF, hchain⟩ : ∃ F, generate [withElse] = .ok F ∧
      bodyRaises.IsChain fun q p => F.code.next p q = true :=
    generated_of_all (by decide +kernel)
  have hrun : BeginRun F .unitBody withElseMarks bodyRaises :=
    ⟨Code.run_of_next hchain rfl, ⟨6, 0⟩, rfl, .after⟩
  obtain ⟨v, marks, g', -, hmarks, hiff⟩ := runsParts_iff hF (.head .here)
  obtain ⟨_, _, hmarks'⟩ := codegenBegin_withElse
  obtain ⟨⟨-, rfl⟩, -⟩ : (v = _ ∧ marks = withElseMarks) ∧ g' = _ := by
    simpa using hmarks.symm.trans hmarks'
  refine ⟨F, hF, hrun, (hiff _ hrun).mpr ⟨fun _ => ?_, rfl⟩⟩
  rintro ⟨mark, hmark, hpart, hstop⟩
  rcases List.mem_cons.mp hmark with rfl | hmark
  · revert hstop
    decide
  · obtain rfl := List.mem_singleton.mp hmark
    cases hpart

/-- The body completes, and the `else` is not executed. -/
theorem bodyCompletes_without_else : ∃ F v g', generate [withElse] = .ok F ∧
    codegenBegin [.expr (.varOrInvoke (.name "f") none none none)]
      [.mk none none [.expr (.int "2")]] (some [.expr (.int "3")]) none .unitBody =
        .ok ((v, withElseMarks), g') ∧
      BeginRun F .unitBody withElseMarks bodyCompletes ∧
        ¬ RunsParts (some [.expr (.int "3")]) none withElseMarks bodyCompletes := by
  obtain ⟨F, hF, hchain⟩ : ∃ F, generate [withElse] = .ok F ∧
      bodyCompletes.IsChain fun q p => F.code.next p q = true :=
    generated_of_all (by decide +kernel)
  obtain ⟨v, g', hmarks⟩ := codegenBegin_withElse
  refine ⟨F, v, g', hF, hmarks, ⟨Code.run_of_next hchain rfl, ⟨6, 0⟩, rfl, .after⟩,
    fun hruns => ?_⟩
  have hpos := (hruns.elsebk rfl).mpr ⟨_, .head _, rfl, by decide⟩
  exact absurd hpos (by decide)

end Pup.Codegen
