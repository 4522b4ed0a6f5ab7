/-
Programs as they are printed.

A statement stands on lines of its own, in front of lines that are blank or comments, and a
keyword that goes on with it or ends it stands on a line of its own too.  What ends a list of
statements is the word on the next such line: no statement begins with `end`, `else` or
`rescue` (`Lead.stops_line`), so the list is read up to that word and no further, and the
parts of a statement are the parts that are printed (`Printed.parse_statement`).  `ensure` is
not among these words: on a line of its own it is a name like any other.
-/
import Pup.Parse.Written

namespace Pup.Parse

open Peg
open Peg.Expression (opt plus star lit)

/-! ### Lines without a statement -/

/-- Blanks, and a comment if there is one. -/
structure Line where
  indent : Blanks
  comment : List Char
  commented : comment = [] ∨ ∃ text, comment = '#' :: text ∧ '\n' ∉ text

/-- What is in front of a statement or a keyword: other lines, and the indentation. -/
structure Lead where
  lines : List Line
  indent : Blanks

def Line.text (l : Line) : List Char := l.indent.text ++ (l.comment ++ ['\n'])

def Lead.text (l : Lead) : List Char := l.lines.flatMap Line.text ++ l.indent.text

theorem skipSpace_newline (s : List Char) : skipSpace false ('\n' :: s) = skipSpace false s := rfl

theorem Line.skipSpace_text (l : Line) (s : List Char) :
    skipSpace false (l.text ++ s) = skipSpace false s := by
  obtain ⟨indent, comment, rfl | ⟨text, rfl, htext⟩⟩ := l
  · rw [Line.text, List.append_assoc, skipSpace_blanks indent.blank]
    rfl
  · have hcomment : ('#' :: text ++ ['\n']) ++ s = '#' :: (text ++ '\n' :: s) := by simp
    have hdrop : (text ++ '\n' :: s).dropWhile (· != '\n') = '\n' :: s := by
      rw [List.dropWhile_append_of_pos fun c hc => ?_]
      · rfl
      · have hne : c ≠ '\n' := by
          rintro rfl
          exact htext hc
        simpa using hne
    rw [Line.text, List.append_assoc, skipSpace_blanks indent.blank, hcomment]
    change skipSpace true (text ++ '\n' :: s) = _
    rw [skipSpace_comment, hdrop, skipSpace_newline]

theorem Lead.skipSpace_text (l : Lead) (s : List Char) :
    skipSpace false (l.text ++ s) = skipSpace false s := by
  obtain ⟨lines, indent⟩ := l
  rw [Lead.text, List.append_assoc]
  induction lines with
  | nil => exact skipSpace_blanks indent.blank s
  | cons l lines ih => rw [List.flatMap_cons, List.append_assoc, l.skipSpace_text, ih]

/-- A keyword on a line of its own. -/
def Lead.line (l : Lead) (w : String) (t : List Char) : List Char :=
  '\n' :: (l.text ++ (w.toList ++ t))

/-! ### Ends of lines -/

theorem skipSpace_of_lineEnd {s t : List Char} (h : lineEnd s = some t) :
    skipSpace false s = skipSpace false t := by
  rw [← Pairing.skipSpace_dropWhile s]
  unfold Parse.lineEnd at h
  cases hs : s.dropWhile isBlank with
  | nil =>
      rw [hs] at h
      cases h
  | cons c r =>
      simp only [hs] at h
      by_cases heol : isEol c = true
      · rw [if_pos heol] at h
        cases h
        have hwhite : isWhite c = true := by simp [isWhite, heol]
        rw [skipSpace, if_neg (by simp), if_pos hwhite]
      · rw [if_neg heol] at h
        by_cases hhash : c = '#'
        · subst hhash
          rw [if_pos rfl] at h
          change skipSpace true r = _
          rw [skipSpace_comment]
          cases hr : r.dropWhile (· != '\n') with
          | nil =>
              rw [hr] at h
              cases h
          | cons d u =>
              rw [hr] at h
              cases h
              have hnewline : d = '\n' := by simpa [hr] using head_dropWhile (· != '\n') r
              rw [hnewline, skipSpace_newline]
        · rw [if_neg hhash] at h
          cases h

theorem skipSpace_skipLines (s : List Char) :
    skipSpace false (skipLines s) = skipSpace false s := by
  induction hn : s.length using Nat.strong_induction_on generalizing s with
  | _ n ih =>
      cases hs : lineEnd s with
      | none => rw [skipLines_of_none hs]
      | some t =>
          have hlt := lineEnd_length hs
          rw [skipLines_of_some hs, ih t.length (by omega) t rfl, skipSpace_of_lineEnd hs]

/-- The end of a line, and the lines behind it that have nothing on them. -/
theorem parse_line (s : List Char) :
    parse grammar (rule .space_eol) ('\n' :: s) = .ok () (skipLines s) := by
  have hend : lineEnd ('\n' :: s) = some s := rfl
  rw [parse_space_eol, hend, Option.elim_some]

theorem parse_space_newline (s : List Char) :
    parse grammar (rule .space) ('\n' :: s) = .ok () (skipSpace false s) := by
  rw [parse_space]
  rfl

/-! ### Ends of lists

A list of statements is read as far as it can be, so it is read back as it was printed only if
what stands behind it cannot be taken for one more statement.
-/

/-- One more statement of a list. -/
def nextStatement : Exp (Option Stmt) :=
  rule .space_eol *> star (rule .space) *> rule .statement

theorem parse_nextStatement (s : List Char) :
    parse grammar nextStatement ('\n' :: s) = parse grammar (rule .statement) (skipSpace false s) := by
  obtain ⟨w, hw⟩ := parse_spaces (skipLines s)
  rw [skipSpace_skipLines] at hw
  rw [nextStatement, parse_seqRight, parse_seqRight, parse_line, Result.on_ok, hw, Result.on_ok]

/-- A list of statements ends there. -/
structure Stops (t : List Char) : Prop where
  line : LineEnd t
  last : parse grammar nextStatement t = .fail

section Keywords

variable {p : Char → Bool}

theorem begins_if (hp : p 'i' = true) : Begins grammar p (rule .if_) := by
  refine .rule (.seqLeft (.seq (.seq (.map (.seqLeft (.seqRight (.seqRight ?_ _) _) _)) _) _) _)
  exact .lit (w := "if") hp

theorem begins_classdef (hp : p 'c' = true) : Begins grammar p (rule .classdef) := by
  refine .rule (.seqLeft (.seq (.seqLeft (.seq (.map (.seqLeft (.seqRight (.seqRight ?_ _) _)
    _)) _) _) _) _)
  exact .lit (w := "class") hp

theorem begins_methoddef (hp : p 'd' = true) : Begins grammar p (rule .methoddef) := by
  refine .rule (.seqLeft (.seqLeft (.seq (.seqLeft (.seq (.map (.seqLeft (.seqRight
    (.seqRight ?_ _) _) _)) _) _) _) _) _)
  exact .lit (w := "def") hp

theorem begins_begin (hp : p 'b' = true) : Begins grammar p (rule .begin_) := by
  refine .rule (.seqLeft (.seq (.seq (.seq (.map (.seqLeft (.seqRight (.seqRight (.seqRight ?_ _)
    _) _) _)) _) _) _) _)
  exact .lit (w := "begin") hp

theorem begins_while (hp : p 'w' = true) : Begins grammar p (rule .while_) := by
  refine .rule (.seqLeft (.seq (.map (.seqLeft (.seqLeft (.seqRight (.seqRight ?_ _) _) _) _)) _)
    _)
  exact .lit (w := "while") hp

end Keywords

theorem begins_statement : Begins grammar beginsPrimary (rule .statement) :=
  .rule (.orElse (begins_if (by decide)) (.orElse (begins_classdef (by decide))
    (.orElse (begins_methoddef (by decide)) (.orElse (begins_begin (by decide))
      (.orElse (begins_while (by decide)) (.map begins_expression))))))

/-- What begins with one of these words is no statement. -/
theorem parse_statement_barred {s : List Char} (hs : barred s = true) :
    parse grammar (rule .statement) s = .fail := by
  rw [parse_statement_of_expression, parse_expression_of_barred hs]
  · rfl
  · intro w hw u hu
    subst hu
    simp only [List.mem_cons, List.not_mem_nil, or_false] at hw
    rcases hw with rfl | rfl | rfl | rfl | rfl <;> cases hs

section Word

variable (l : Lead) {w : String} (hw : w ∈ ["end", "else", "rescue"]) (t : List Char)

include hw

theorem Lead.skipSpace_line : skipSpace false (l.line w t) = w.toList ++ t := by
  rw [Lead.line, skipSpace_newline, l.skipSpace_text]
  refine skipSpace_of_head ?_
  simp only [List.mem_cons, List.not_mem_nil, or_false] at hw
  rcases hw with rfl | rfl | rfl <;> rfl

theorem Lead.stops_line : Stops (l.line w t) := by
  refine ⟨rfl, ?_⟩
  have hskip := l.skipSpace_line hw t
  rw [Lead.line, skipSpace_newline] at hskip
  rw [Lead.line, parse_nextStatement, hskip]
  exact parse_statement_barred (barred_append hw t)

end Word

theorem stops_nil : Stops [] := by
  refine ⟨rfl, ?_⟩
  rw [nextStatement, parse_seqRight, parse_seqRight, parse_space_eol]
  rfl

theorem stops_blank {s : List Char} (hs : skipSpace false s = []) : Stops ('\n' :: s) := by
  refine ⟨rfl, ?_⟩
  rw [parse_nextStatement, hs]
  exact begins_statement _ rfl

/-! ### Parameters, clauses and superclasses -/

/-- The parameter of a method, with the value it has without an argument. -/
structure PrintedParam where
  name : Name
  init : Option Written

/-- The classes behind `rescue`, and the name of the exception. -/
structure PrintedClause where
  types : List ConstantName
  var_name : Option Name

def PrintedParam.value (p : PrintedParam) : Param := .mk p.name.text (p.init.map Written.expr)

def PrintedParam.print (p : PrintedParam) (t : List Char) : List Char :=
  match p.init with
  | none => p.name.text.toList ++ t
  | some e => p.name.text.toList ++ '=' :: (e.text ++ t)

/-- The parameters behind the first one. -/
def printMoreParams : List PrintedParam → List Char → List Char
  | [], t => ')' :: t
  | p :: ps, t => ',' :: ' ' :: p.print (printMoreParams ps t)

/-- There is no empty list of parameters. -/
def printParams : List PrintedParam → List Char → List Char
  | [], t => t
  | p :: ps, t => '(' :: p.print (printMoreParams ps t)

def paramsValue : List PrintedParam → Option (List Param)
  | [] => none
  | ps => some (ps.map PrintedParam.value)

def printMoreTypes : List ConstantName → List Char → List Char
  | [], t => t
  | n :: ns, t => ',' :: ' ' :: (n.text ++ printMoreTypes ns t)

def printVarName : Option Name → List Char → List Char
  | none, t => t
  | some n, t => " => ".toList ++ (n.text.toList ++ t)

def PrintedClause.print (c : PrintedClause) (t : List Char) : List Char :=
  match c.types with
  | [] => printVarName c.var_name t
  | n :: ns => ' ' :: (n.text ++ printMoreTypes ns (printVarName c.var_name t))

def PrintedClause.typesValue (c : PrintedClause) : Option (List Expr) :=
  match c.types with
  | [] => none
  | ns => some (ns.map ConstantName.expr)

def printExtends : Option Written → List Char → List Char
  | none, t => t
  | some e, t => " < ".toList ++ (e.text ++ t)

/-! ### Statements -/

mutual

inductive Printed
  | expr (e : Written)
  | ifStmt (cond : Written) (ifbk : PrintedStatements) (elsebk : PrintedElse) (close : Lead)
  | whileStmt (cond : Written) (statements : PrintedStatements) (close : Lead)
  | beginStmt (beginbk : PrintedStatements) (rescuebks : PrintedRescues) (elsebk : PrintedElse)
      (close : Lead)
  | classDef (name : ConstantName) (extends_ : Option Written) (body : PrintedStatements)
      (close : Lead)
  | emptyClass (name : ConstantName) (extends_ : Option Written)
  | methodDef (name : Name) (params : List PrintedParam) (body : PrintedStatements) (close : Lead)
  | emptyMethod (name : Name) (params : List PrintedParam)

inductive PrintedStatements
  | one (lead : Lead) (s : Printed)
  | cons (lead : Lead) (s : Printed) (rest : PrintedStatements)

inductive PrintedElse
  | none
  | some (lead : Lead) (statements : PrintedStatements)

inductive PrintedRescues
  | nil
  | cons (lead : Lead) (clause : PrintedClause) (statements : PrintedStatements)
      (rest : PrintedRescues)

end

mutual

/-- The statement in front of a text. -/
def Printed.print : Printed → List Char → List Char
  | .expr e, t => e.text ++ t
  | .ifStmt cond ifbk elsebk close, t =>
      "if ".toList ++ (cond.text ++ '\n' :: ifbk.print (elsebk.print (close.line "end" t)))
  | .whileStmt cond statements close, t =>
      "while ".toList ++ (cond.text ++ '\n' :: statements.print (close.line "end" t))
  | .beginStmt beginbk rescuebks elsebk close, t =>
      "begin\n".toList ++ beginbk.print (rescuebks.print (elsebk.print (close.line "end" t)))
  | .classDef name extends_ body close, t =>
      "class ".toList ++
        (name.text ++ printExtends extends_ ('\n' :: body.print (close.line "end" t)))
  -- the `end` of a class without a body is not indented
  | .emptyClass name extends_, t =>
      "class ".toList ++ (name.text ++ printExtends extends_ ('\n' :: ("end".toList ++ t)))
  | .methodDef name params body close, t =>
      "def ".toList ++
        (name.text.toList ++ printParams params ('\n' :: body.print (close.line "end" t)))
  -- and that of a method is
  | .emptyMethod name params, t =>
      "def ".toList ++
        (name.text.toList ++ printParams params ('\n' :: ' ' :: ("end".toList ++ t)))

def PrintedStatements.print : PrintedStatements → List Char → List Char
  | .one lead s, t => lead.text ++ s.print t
  | .cons lead s rest, t => lead.text ++ s.print ('\n' :: rest.print t)

def PrintedElse.print : PrintedElse → List Char → List Char
  | .none, t => t
  | .some lead statements, t => lead.line "else" ('\n' :: statements.print t)

def PrintedRescues.print : PrintedRescues → List Char → List Char
  | .nil, t => t
  | .cons lead clause statements rest, t =>
      lead.line "rescue" (clause.print ('\n' :: statements.print (rest.print t)))

end

mutual

/-- The tree that is printed. -/
def Printed.stmt : Printed → Stmt
  | .expr e => .expr e.expr
  | .ifStmt cond ifbk elsebk _ => .ifStmt cond.expr ifbk.stmts elsebk.stmts
  | .whileStmt cond statements _ => .whileStmt cond.expr statements.stmts
  | .beginStmt beginbk rescuebks elsebk _ =>
      .beginStmt beginbk.stmts rescuebks.blocks elsebk.stmts none
  | .classDef name extends_ body _ =>
      .classDef (String.ofList name.text) (extends_.map Written.expr) (some body.stmts)
  | .emptyClass name extends_ =>
      .classDef (String.ofList name.text) (extends_.map Written.expr) none
  | .methodDef name params body _ => .methodDef name.text (paramsValue params) (some body.stmts)
  | .emptyMethod name params => .methodDef name.text (paramsValue params) none

def PrintedStatements.stmts : PrintedStatements → List Stmt
  | .one _ s => [s.stmt]
  | .cons _ s rest => s.stmt :: rest.stmts

def PrintedElse.stmts : PrintedElse → Option (List Stmt)
  | .none => none
  | .some _ statements => some statements.stmts

def PrintedRescues.blocks : PrintedRescues → List RescueBlock
  | .nil => []
  | .cons _ clause statements rest =>
      .mk clause.typesValue (clause.var_name.map Name.text) statements.stmts :: rest.blocks

end

/-! ### Parameters -/

theorem optValue_map_some {α : Type} (a : Option α) : optValue (a.map some) = some a := by
  cases a <;> rfl

theorem PrintedParam.parse_param (p : PrintedParam) {t : List Char} (ht : t.head?.all closes = true) :
    parse grammar (rule .param) (p.print t) = .ok (some p.value) t := by
  obtain ⟨name, init⟩ := p
  rw [parse_rule]
  cases init with
  | none =>
      have hname := parse_thename_of_identifier name.identifier name.apart
        (any_or_left (ends_of_closes ht).apart)
      have hequals : parse grammar (lit "=") t = .fail :=
        Begins.lit (p := operatorChar) (by decide) _
          (by simpa [dropWhile_of_closes ht] using (ends_of_closes ht).noOperator)
      simp [grammar, PrintedParam.print, PrintedParam.value, hname, parse_opt, hequals, optValue]
  | some e =>
      have hname := parse_thename_of_identifier (t := '=' :: (e.text ++ t)) name.identifier
        name.apart rfl
      have hequals : parse grammar (lit "=") ('=' :: (e.text ++ t)) = .ok "=" (e.text ++ t) :=
        parse_lit_append (w := "=") _
      simp [grammar, PrintedParam.print, PrintedParam.value, hname, parse_opt, hequals, optValue,
        e.parse_expression ht]

/-- One more parameter of a list. -/
def nextParam : Exp (Option Param) := lit "," *> optSpace *> rule .param

theorem beginsSpace_of_name (n : Name) (t : List Char) :
    (n.text.toList ++ t).head?.any beginsSpace = false := by
  obtain ⟨c, cs, hname, hc, -⟩ := n.identifier
  rw [hname]
  exact beginsSpace_of_identRest (identRest_of_identStart hc)

theorem PrintedParam.head (p : PrintedParam) (t : List Char) :
    (p.print t).head?.any beginsSpace = false := by
  obtain ⟨name, _ | e⟩ := p <;> exact beginsSpace_of_name name _

theorem parse_moreParams (ps : List PrintedParam) (t : List Char) :
    parse grammar (star nextParam) (printMoreParams ps t) =
      .ok (ps.map fun p => some p.value) (')' :: t) := by
  induction ps with
  | nil =>
      rw [parse_star]
      rfl
  | cons p ps ih =>
      have hcomma : parse grammar (lit ",") (',' :: ' ' :: p.print (printMoreParams ps t)) =
          .ok "," (' ' :: p.print (printMoreParams ps t)) := parse_lit_append (w := ",") _
      obtain ⟨w, hw⟩ := parse_optSpace (' ' :: p.print (printMoreParams ps t))
      have hskip : skipSpace false (' ' :: p.print (printMoreParams ps t)) =
          p.print (printMoreParams ps t) := skipSpace_of_head (p.head _)
      have hcloses : (printMoreParams ps t).head?.all closes = true := by cases ps <;> rfl
      rw [hskip] at hw
      rw [printMoreParams, parse_star, nextParam, parse_seqRight, parse_seqRight, hcomma,
        Result.on_ok, hw, Result.on_ok, p.parse_param hcloses, Result.on_ok, ← nextParam, ih]
      rfl

/-- The list of parameters, if there is one. -/
theorem parse_params (ps : List PrintedParam) {t : List Char} (ht : t.head?.any (· == '(') = false) :
    parse grammar (opt (rule .method_params)) (printParams ps t) = .ok ((paramsValue ps).map some) t := by
  cases ps with
  | nil =>
      have hopen : parse grammar (lit "(") t = .fail :=
        Begins.lit (p := (· == '(')) (by decide) _ ht
      rw [parse_opt, parse_rule]
      simp [grammar, printParams, paramsValue, hopen]
  | cons p ps =>
      have hopen : parse grammar (lit "(") ('(' :: p.print (printMoreParams ps t)) =
          .ok "(" (p.print (printMoreParams ps t)) := parse_lit_append (w := "(") _
      have hclose : parse grammar (lit ")") (')' :: t) = .ok ")" t := parse_lit_append (w := ")") _
      have hcloses : (printMoreParams ps t).head?.all closes = true := by cases ps <;> rfl
      have hmore : parse grammar (star (lit "," *> optSpace *> rule .param))
          (printMoreParams ps t) = .ok (ps.map fun p => some p.value) (')' :: t) :=
        parse_moreParams ps t
      have hvalues : ((p :: ps).map fun p => some p.value).mapM id =
          some ((p :: ps).map PrintedParam.value) := by
        rw [← mapM_id_map_some, List.map_map]
        rfl
      have hlist : parse grammar (rule .param_list) (p.print (printMoreParams ps t)) =
          .ok (some ((p :: ps).map PrintedParam.value)) (')' :: t) := by
        rw [← hvalues, parse_rule]
        simp [grammar, p.parse_param hcloses, hmore]
      rw [parse_opt, parse_rule]
      simp [grammar, printParams, paramsValue, hopen, hlist, hclose]

/-! ### Clauses -/

theorem beginsSpace_of_constant (n : ConstantName) (t : List Char) :
    (n.text ++ t).head?.any beginsSpace = false :=
  beginsSpace_of_identRest (identRest_of_isUpper n.upper)

theorem apart_of_varName (n : Option Name) (t : List Char) :
    Apart (printVarName n ('\n' :: t)) := by
  cases n with
  | none => exact apart_of_closes rfl
  | some n => exact apart_of_arrow _

theorem apart_of_moreTypes (ns : List ConstantName) (n : Option Name) (t : List Char) :
    Apart (printMoreTypes ns (printVarName n ('\n' :: t))) := by
  cases ns with
  | nil => exact apart_of_varName n t
  | cons n ns => exact apart_of_closes rfl

theorem parse_blank {s : List Char} (hs : s.head?.any beginsSpace = false) :
    parse grammar (rule .white_noeol) (' ' :: s) = .ok () s := by
  have hspace : isBlank ' ' = true := rfl
  have hhead : (' ' :: s).head?.any isBlank = true := rfl
  rw [parse_white_noeol, if_pos hhead, List.dropWhile_cons_of_pos hspace,
    dropWhile_of_head (any_or_left (any_or_left hs))]

theorem parse_typesStep (n : ConstantName) {s : List Char} (hs : Apart s) :
    parse grammar argsStep (',' :: ' ' :: (n.text ++ s)) =
      .ok (some n.expr) (s.dropWhile isBlank) := by
  have hcomma : parse grammar (lit ",") (',' :: ' ' :: (n.text ++ s)) =
      .ok "," (' ' :: (n.text ++ s)) := parse_lit_append (w := ",") _
  have hdrop : (',' :: ' ' :: (n.text ++ s)).dropWhile isBlank = ',' :: ' ' :: (n.text ++ s) := rfl
  have hskip : skipSpace false (' ' :: (n.text ++ s)) = n.text ++ s :=
    skipSpace_of_head (beginsSpace_of_constant n s)
  rw [parse_argsStep, hdrop, hcomma, Result.on_ok, hskip, n.parse_expression hs]

/-- The types behind the first one. -/
theorem parse_moreTypes (ns : List ConstantName) (n : Option Name) (t : List Char) :
    parse grammar (star argsStep)
        ((printMoreTypes ns (printVarName n ('\n' :: t))).dropWhile isBlank) =
      .ok (ns.map fun n => some n.expr) ((printVarName n ('\n' :: t)).dropWhile isBlank) := by
  induction ns with
  | nil =>
      have hnone : parse grammar argsStep ((printVarName n ('\n' :: t)).dropWhile isBlank) =
          .fail := by
        rw [parse_argsStep]
        cases n <;> rfl
      rw [printMoreTypes, parse_star, hnone]
      rfl
  | cons m ns ih =>
      have hdrop : (printMoreTypes (m :: ns) (printVarName n ('\n' :: t))).dropWhile isBlank =
          printMoreTypes (m :: ns) (printVarName n ('\n' :: t)) := rfl
      rw [hdrop, printMoreTypes, parse_star, parse_typesStep m (apart_of_moreTypes ns n t),
        Result.on_ok, ih]
      rfl

/-- The types of a clause.  The blank in front of the name of the exception can be taken by the
last of them. -/
theorem PrintedClause.parse_types (c : PrintedClause) (t : List Char) :
    ∃ u, parse grammar (opt (rule .white_noeol *> rule .unparenthesised_args))
        (c.print ('\n' :: t)) = .ok (c.typesValue.map some) u ∧
      (u = printVarName c.var_name ('\n' :: t) ∨
        u = (printVarName c.var_name ('\n' :: t)).dropWhile isBlank) := by
  obtain ⟨types, var_name⟩ := c
  cases types with
  | nil =>
      refine ⟨_, ?_, .inl rfl⟩
      have hfail : parse grammar (rule .white_noeol *> rule .unparenthesised_args)
          (printVarName var_name ('\n' :: t)) = .fail := by
        have hbegins : Begins grammar beginsPrimary (rule .unparenthesised_args) :=
          .rule (.seq (.map begins_expression) _)
        rw [parse_seqRight, parse_white_noeol]
        cases var_name with
        | none => rfl
        | some n => exact hbegins _ rfl
      rw [parse_opt]
      exact (congrArg (fun r => Result.on r _ _) hfail).trans rfl
  | cons n ns =>
      refine ⟨_, ?_, .inr rfl⟩
      have hblank : parse grammar (rule .white_noeol)
          (' ' :: (n.text ++ printMoreTypes ns (printVarName var_name ('\n' :: t)))) =
          .ok () (n.text ++ printMoreTypes ns (printVarName var_name ('\n' :: t))) :=
        parse_blank (beginsSpace_of_constant n _)
      have hmore : parse grammar (star (optBlank *> lit "," *> optSpace *> rule .expression))
          ((printMoreTypes ns (printVarName var_name ('\n' :: t))).dropWhile isBlank) =
          .ok (ns.map fun n => some n.expr)
            ((printVarName var_name ('\n' :: t)).dropWhile isBlank) := parse_moreTypes ns var_name t
      have hvalues : ((n :: ns).map fun n => some n.expr).mapM id =
          some ((n :: ns).map ConstantName.expr) := by
        rw [← mapM_id_map_some, List.map_map]
        rfl
      have hlist : parse grammar (rule .unparenthesised_args)
          (n.text ++ printMoreTypes ns (printVarName var_name ('\n' :: t))) =
          .ok (some ((n :: ns).map ConstantName.expr))
            ((printVarName var_name ('\n' :: t)).dropWhile isBlank) := by
        rw [← hvalues, parse_rule]
        simp [grammar, n.parse_expression (apart_of_moreTypes ns var_name t), hmore]
      simp [PrintedClause.print, PrintedClause.typesValue, parse_opt, hblank, hlist]

/-- And the name of the exception. -/
theorem parse_varName (n : Option Name) {s t : List Char}
    (hs : s = printVarName n ('\n' :: t) ∨ s = (printVarName n ('\n' :: t)).dropWhile isBlank) :
    parse grammar (opt (optBlank *> lit "=>" *> optBlank *> rule .thename)) s =
      .ok (n.map Name.text) ('\n' :: t) := by
  obtain ⟨w, hw⟩ := parse_optBlank s
  have hdrop : s.dropWhile isBlank = (printVarName n ('\n' :: t)).dropWhile isBlank := by
    rcases hs with rfl | rfl
    · rfl
    · exact dropWhile_of_head (head_dropWhile _ _)
  cases n with
  | none =>
      have hs : s = '\n' :: t := hs.elim id id
      subst hs
      have hnone : parse grammar (lit "=>") ('\n' :: t) = .fail := rfl
      have hw : parse grammar optBlank ('\n' :: t) = .ok w ('\n' :: t) := hw
      simp [parse_opt, hw, hnone]
  | some n =>
      have hprint : (printVarName (some n) ('\n' :: t)).dropWhile isBlank =
          "=>".toList ++ ' ' :: (n.text.toList ++ '\n' :: t) := rfl
      have harrow : parse grammar (lit "=>") ("=>".toList ++ ' ' :: (n.text.toList ++ '\n' :: t)) =
          .ok "=>" (' ' :: (n.text.toList ++ '\n' :: t)) := parse_lit_append (w := "=>") _
      have hblank := parse_blank (beginsSpace_of_name n ('\n' :: t))
      have hname := parse_thename_of_identifier (t := '\n' :: t) n.identifier n.apart rfl
      rw [hdrop, hprint] at hw
      rw [parse_opt, parse_seqRight, parse_seqRight, parse_seqRight, hw, Result.on_ok, harrow,
        Result.on_ok, optBlank, parse_opt, hblank, Result.on_ok, Result.on_ok, hname, Result.on_ok]
      rfl

/-! ### Heads -/

theorem Written.head (e : Written) {t : List Char} (ht : t.head?.all closes = true) :
    (e.text ++ t).head?.any beginsSpace = false :=
  beginsSpace_of_ok begins_expression (e.parse_expression ht)

theorem parse_methodHead (name : Name) (params : List PrintedParam) (s : List Char) :
    parse grammar methodHead ("def ".toList ++ (name.text.toList ++ printParams params ('\n' :: s))) =
      .ok (fun body => do
        return .methodDef name.text (paramsValue params) (← optValue body)) (skipLines s) := by
  have hdef : parse grammar (lit "def")
      ('d' :: 'e' :: 'f' :: ' ' :: (name.text.toList ++ printParams params ('\n' :: s))) =
      .ok "def" (' ' :: (name.text.toList ++ printParams params ('\n' :: s))) :=
    parse_lit_append (w := "def") _
  have hspace : parse grammar (rule .space)
      (' ' :: (name.text.toList ++ printParams params ('\n' :: s))) =
      .ok () (name.text.toList ++ printParams params ('\n' :: s)) := by
    have hskip : skipSpace false (' ' :: (name.text.toList ++ printParams params ('\n' :: s))) =
        name.text.toList ++ printParams params ('\n' :: s) :=
      skipSpace_of_head (beginsSpace_of_name name _)
    rw [parse_space, hskip]
    rfl
  have hhead : (printParams params ('\n' :: s)).head?.any
      (fun c => identRest c || isBlank c) = false := by
    cases params <;> rfl
  have hname := parse_thename_of_identifier name.identifier name.apart (any_or_left hhead)
  obtain ⟨w, hw⟩ := parse_optBlank (printParams params ('\n' :: s))
  rw [dropWhile_of_head (any_or_right hhead)] at hw
  have hparams := parse_params params (t := '\n' :: s) rfl
  have hline := parse_line s
  simp [methodHead, hdef, hspace, hname, hw, hparams, hline, optValue_map_some]

/-- The superclass, if there is one. -/
theorem parse_extends (e : Option Written) (s : List Char) :
    ∃ u, parse grammar (rule .white_noeol <|> .notAt (rule .extends_))
        (printExtends e ('\n' :: s)) = .ok () u ∧
      parse grammar (opt (rule .extends_)) u =
        .ok (e.map fun e => some e.expr) ('\n' :: s) := by
  cases e with
  | none =>
      have hnone : parse grammar (rule .extends_) ('\n' :: s) = .fail := by
        rw [parse_rule]
        rfl
      refine ⟨'\n' :: s, ?_, ?_⟩
      · rw [parse_orElse, parse_white_noeol, parse_notAt, printExtends, hnone]
        rfl
      · rw [parse_opt, hnone]
        rfl
  | some e =>
      have hhead := e.head (t := '\n' :: s) rfl
      have hless : parse grammar (lit "<") ('<' :: ' ' :: (e.text ++ '\n' :: s)) =
          .ok "<" (' ' :: (e.text ++ '\n' :: s)) := parse_lit_append (w := "<") _
      obtain ⟨w, hw⟩ := parse_optSpace (' ' :: (e.text ++ '\n' :: s))
      have hskip : skipSpace false (' ' :: (e.text ++ '\n' :: s)) = e.text ++ '\n' :: s :=
        skipSpace_of_head hhead
      rw [hskip] at hw
      refine ⟨"< ".toList ++ (e.text ++ '\n' :: s), ?_, ?_⟩
      · rw [parse_orElse]
        exact (congrArg (fun r => Result.on r _ _) (parse_blank rfl)).trans rfl
      · rw [parse_opt, parse_rule]
        simp [grammar, hless, hw, e.parse_expression (t := '\n' :: s) rfl]

theorem parse_classHead (name : ConstantName) (e : Option Written) (s : List Char) :
    parse grammar classHead ("class ".toList ++ (name.text ++ printExtends e ('\n' :: s))) =
      .ok (fun body => do
        return .classDef (String.ofList name.text) (e.map Written.expr) (← optValue body))
        (skipLines s) := by
  have hclass : parse grammar (lit "class")
      ('c' :: 'l' :: 'a' :: 's' :: 's' :: ' ' :: (name.text ++ printExtends e ('\n' :: s))) =
      .ok "class" (' ' :: (name.text ++ printExtends e ('\n' :: s))) :=
    parse_lit_append (w := "class") _
  have hblank := parse_blank (beginsSpace_of_constant name (printExtends e ('\n' :: s)))
  have hhead : (printExtends e ('\n' :: s)).head?.any identRest = false := by cases e <;> rfl
  have hname := name.parse_constant hhead
  obtain ⟨u, hu, hextends⟩ := parse_extends e s
  have hvalue : optValue (e.map fun e => some e.expr) = some (e.map Written.expr) := by
    cases e <;> rfl
  have hline := parse_line s
  rw [parse_orElse, parse_notAt] at hu
  simp [classHead, hclass, hblank, hname, hu, hextends, hline, hvalue]

/-! ### Rules

One lemma for each rule that has statements in it.  It does not matter to the rule what they are,
only that they are read (`ReadsAs`) and that the word behind them ends their list (`Breaks`).
-/

/-- The list of statements that is read from there, whatever space is in front. -/
def ReadsAs (s : List Char) (ss : List Stmt) (t : List Char) : Prop :=
  ∀ u, skipSpace false u = skipSpace false s →
    parse grammar (rule .statements) u = .ok (some ss) t

/-- A list of statements is left at the end of a line, in front of a word that ends it. -/
structure Breaks (t : List Char) : Prop where
  newline : t.head? = some '\n'
  stops : Stops t

theorem Breaks.parse_space {t : List Char} (h : Breaks t) :
    parse grammar (rule .space) t = .ok () (skipSpace false t) := by
  rw [Parse.parse_space, h.newline]
  rfl

section Rules

variable {c : Written} {s t u : List Char} {ss : List Stmt}

/-- A body behind the end of a line. -/
theorem ReadsAs.parse_body (h : ReadsAs s ss t) (ht : Breaks t) :
    parse grammar (optBlank *> rule .statements <* rule .space) (skipLines s) =
      .ok (some ss) (skipSpace false t) := by
  obtain ⟨w, hw⟩ := parse_optBlank (skipLines s)
  have hskip : skipSpace false ((skipLines s).dropWhile isBlank) = skipSpace false s := by
    rw [Pairing.skipSpace_dropWhile, skipSpace_skipLines]
  rw [parse_seqLeft, parse_seqRight, hw, Result.on_ok, h _ hskip, Result.on_ok, ht.parse_space]
  rfl

/-- A body behind a keyword. -/
theorem ReadsAs.parse_after (h : ReadsAs s ss t) (ht : Breaks t) :
    parse grammar (rule .space *> rule .statements <* rule .space) ('\n' :: s) =
      .ok (some ss) (skipSpace false t) := by
  have hskip : skipSpace false (skipSpace false s) = skipSpace false s :=
    skipSpace_of_head (head_skipSpace false s)
  rw [parse_seqLeft, parse_seqRight, parse_space_newline, Result.on_ok, h _ hskip, Result.on_ok,
    ht.parse_space]
  rfl

theorem parse_theelse (h : ReadsAs s ss t) (ht : Breaks t) :
    parse grammar (rule .theelse) ("else".toList ++ '\n' :: s) =
      .ok (some ss) (skipSpace false t) := by
  have hafter := h.parse_after ht
  have helse : parse grammar (lit "else") ("else".toList ++ '\n' :: s) = .ok "else" ('\n' :: s) :=
    parse_lit_append _
  rw [parse_seqLeft, parse_seqRight] at hafter
  rw [parse_rule]
  change parse grammar (lit "else" *> rule .space *> rule .statements <* rule .space) _ = _
  rw [parse_seqLeft, parse_seqRight, parse_seqRight, helse, Result.on_ok]
  exact hafter

theorem parse_therescue (h : ReadsAs s ss t) (ht : Breaks t) (clause : PrintedClause) :
    parse grammar (rule .therescue) ("rescue".toList ++ clause.print ('\n' :: s)) =
      .ok (some (.mk clause.typesValue (clause.var_name.map Name.text) ss))
        (skipSpace false t) := by
  obtain ⟨v, htypes, hv⟩ := clause.parse_types s
  have hname := parse_varName clause.var_name hv
  have hafter := h.parse_after ht
  have hrescue : parse grammar (lit "rescue") ("rescue".toList ++ clause.print ('\n' :: s)) =
      .ok "rescue" (clause.print ('\n' :: s)) := parse_lit_append _
  generalize "rescue".toList ++ clause.print ('\n' :: s) = x at hrescue ⊢
  rw [parse_seqLeft, parse_seqRight] at hafter
  rw [parse_rule]
  simp [grammar, hrescue, htypes, hname, hafter, optValue_map_some]

theorem parse_if (c : Written) {e : Option (List Stmt)} (h : ReadsAs s ss u) (hu : Breaks u)
    (helse : parse grammar (opt (rule .theelse)) (skipSpace false u) =
      .ok (e.map some) ("end".toList ++ t)) :
    parse grammar (rule .if_) ("if ".toList ++ (c.text ++ '\n' :: s)) =
      .ok (some (.ifStmt c.expr ss e)) t := by
  have hif : parse grammar (lit "if") ("if ".toList ++ (c.text ++ '\n' :: s)) =
      .ok "if" (' ' :: (c.text ++ '\n' :: s)) := parse_lit_append (w := "if") _
  have hspace : parse grammar (rule .space) (' ' :: (c.text ++ '\n' :: s)) =
      .ok () (c.text ++ '\n' :: s) := by
    have hskip : skipSpace false (' ' :: (c.text ++ '\n' :: s)) = c.text ++ '\n' :: s :=
      skipSpace_of_head (c.head rfl)
    rw [parse_space, hskip]
    rfl
  have hcond := c.parse_expression (t := '\n' :: s) rfl
  have hend : parse grammar (lit "end") ("end".toList ++ t) = .ok "end" t := parse_lit_append _
  have hline := parse_line s
  have hbody := h.parse_body hu
  rw [parse_seqLeft, parse_seqRight] at hbody
  generalize "if ".toList ++ (c.text ++ '\n' :: s) = x at hif ⊢
  generalize "end".toList ++ t = y at helse hend
  rw [parse_rule]
  simp [grammar, hif, hspace, hcond, hline, hbody, helse, hend, optValue_map_some]

theorem parse_while (c : Written) (h : ReadsAs s ss u) (hu : Breaks u)
    (hend : skipSpace false u = "end".toList ++ t) :
    parse grammar (rule .while_) ("while ".toList ++ (c.text ++ '\n' :: s)) =
      .ok (some (.whileStmt c.expr ss)) t := by
  have hwhile : parse grammar (lit "while") ("while ".toList ++ (c.text ++ '\n' :: s)) =
      .ok "while" (' ' :: (c.text ++ '\n' :: s)) := parse_lit_append (w := "while") _
  have hblank := parse_blank (c.head (t := '\n' :: s) rfl)
  have hcond := c.parse_expression (t := '\n' :: s) rfl
  have hdo : parse grammar (opt (rule .white_noeol *> lit "do")) ('\n' :: s) =
      .ok none ('\n' :: s) := by
    rw [parse_opt, parse_seqRight, parse_white_noeol]
    rfl
  have hlast : parse grammar (lit "end") ("end".toList ++ t) = .ok "end" t := parse_lit_append _
  have hline := parse_line s
  have hbody := h.parse_body hu
  rw [parse_seqLeft, parse_seqRight] at hbody
  rw [hend] at hbody
  generalize "while ".toList ++ (c.text ++ '\n' :: s) = x at hwhile ⊢
  generalize "end".toList ++ t = y at hbody hlast
  rw [parse_rule]
  simp [grammar, hwhile, hblank, hcond, hdo, hline, hbody, hlast]

theorem parse_begin {v : List Char} {rs : List RescueBlock} {e : Option (List Stmt)}
    (h : ReadsAs s ss u) (hu : Breaks u)
    (hrescues : parse grammar (star (rule .therescue)) (skipSpace false u) =
      .ok (rs.map some) v)
    (helse : parse grammar (opt (rule .theelse)) v = .ok (e.map some) ("end".toList ++ t)) :
    parse grammar (rule .begin_) ("begin\n".toList ++ s) =
      .ok (some (.beginStmt ss rs e none)) t := by
  have hbegin : parse grammar (lit "begin") ("begin\n".toList ++ s) = .ok "begin" ('\n' :: s) :=
    parse_lit_append (w := "begin") _
  have hensure : parse grammar (opt (rule .theensure)) ("end".toList ++ t) =
      .ok none ("end".toList ++ t) := by
    rw [parse_opt, parse_rule]
    rfl
  have hend : parse grammar (lit "end") ("end".toList ++ t) = .ok "end" t := parse_lit_append _
  have hline := parse_line s
  have hbody := h.parse_body hu
  rw [parse_seqLeft, parse_seqRight] at hbody
  have hvalues : rs.mapM some = some rs := by
    rw [← mapM_id_map_some rs, List.mapM_map]
    rfl
  have hnone : optValue (none : Option (Option (List Stmt))) = some none := rfl
  generalize "begin\n".toList ++ s = x at hbegin ⊢
  generalize "end".toList ++ t = y at helse hensure hend
  rw [parse_rule]
  simp [grammar, hbegin, hline, hbody, hrescues, helse, hensure, hend, hvalues, hnone,
    optValue_map_some]

theorem parse_methoddef (name : Name) (params : List PrintedParam) (h : ReadsAs s ss u)
    (hu : Breaks u) (hend : skipSpace false u = "end".toList ++ t) :
    parse grammar (rule .methoddef)
        ("def ".toList ++ (name.text.toList ++ printParams params ('\n' :: s))) =
      .ok (some (.methodDef name.text (paramsValue params) (some ss))) t := by
  have hhead := parse_methodHead name params s
  have hlast : parse grammar (lit "end") ("end".toList ++ t) = .ok "end" t := parse_lit_append _
  rw [parse_rule]
  change parse grammar (methodHead <*> opt (rule .statements) <* rule .space <* lit "end") _ = _
  rw [parse_seqLeft, parse_seqLeft, parse_seq, hhead, Result.on_ok, parse_opt,
    h _ (skipSpace_skipLines s), Result.on_ok, Result.map_ok, Result.on_ok, hu.parse_space,
    Result.map_ok, Result.on_ok, hend, hlast]
  rfl

theorem parse_classdef (name : ConstantName) (e : Option Written) (h : ReadsAs s ss u)
    (hu : Breaks u) (hend : skipSpace false u = "end".toList ++ t) :
    parse grammar (rule .classdef)
        ("class ".toList ++ (name.text ++ printExtends e ('\n' :: s))) =
      .ok (some (.classDef (String.ofList name.text) (e.map Written.expr) (some ss))) t := by
  have hhead := parse_classHead name e s
  have hlast : parse grammar (lit "end") ("end".toList ++ t) = .ok "end" t := parse_lit_append _
  rw [parse_rule]
  change parse grammar (classHead <*> opt (rule .statements <* rule .space) <* lit "end") _ = _
  rw [parse_seqLeft, parse_seq, hhead, Result.on_ok, parse_opt, parse_seqLeft,
    h _ (skipSpace_skipLines s), Result.on_ok, hu.parse_space, Result.map_ok, Result.on_ok,
    Result.map_ok, Result.on_ok, hend, hlast]
  rfl

theorem parse_empty_methoddef (name : Name) (params : List PrintedParam) (t : List Char) :
    parse grammar (rule .methoddef)
        ("def ".toList ++ (name.text.toList ++
          printParams params ('\n' :: ' ' :: ("end".toList ++ t)))) =
      .ok (some (.methodDef name.text (paramsValue params) none)) t := by
  have hend : lineEnd (' ' :: ("end".toList ++ t)) = none := rfl
  have hhead := parse_methodHead name params (' ' :: ("end".toList ++ t))
  rw [skipLines_of_none hend] at hhead
  exact parse_methoddef_bodiless hhead rfl

theorem parse_empty_classdef (name : ConstantName) (e : Option Written) (t : List Char) :
    parse grammar (rule .classdef)
        ("class ".toList ++ (name.text ++ printExtends e ('\n' :: ("end".toList ++ t)))) =
      .ok (some (.classDef (String.ofList name.text) (e.map Written.expr) none)) t := by
  have hend : lineEnd ("end".toList ++ t) = none := rfl
  have hhead := parse_classHead name e ("end".toList ++ t)
  rw [skipLines_of_none hend] at hhead
  exact parse_classdef_bodiless hhead rfl

end Rules

/-! ### Statements and keywords -/

/-- What an expression is printed with in front: a name, or no letter that opens a statement. -/
theorem Written.front (e : Written) {t : List Char} (ht : t.head?.any identRest = false) :
    (∃ (n : Name) (u : List Char), e.text ++ t = n.text.toList ++ u ∧
      u.head?.any identRest = false) ∨
    ∃ c r, e.text ++ t = c :: r ∧ c ∉ "icdbw".toList := by
  have hblank : ∀ c, isBlank c = true → identRest c = false := by
    intro c hc
    have hcases : c = ' ' ∨ c = '\t' := by simpa [isBlank] using hc
    rcases hcases with rfl | rfl <;> decide
  cases e with
  | assign left before after right =>
      cases left with
      | name n =>
          refine .inl ⟨n, before.text ++ '=' :: (after.text ++ right.text) ++ t, ?_, ?_⟩
          · simp [Written.text, Target.text]
          · rw [List.append_assoc]
            exact before.head hblank rfl
      | instVar n => exact .inr ⟨'@', _, rfl, by decide⟩
  | int l =>
      obtain ⟨digits, rfl | ⟨c, ds, rfl, hc, -⟩⟩ := l
      · exact .inr ⟨'0', t, rfl, by decide⟩
      · refine .inr ⟨c, ds ++ t, rfl, fun hmem => ?_⟩
        have hall : ∀ c ∈ "icdbw".toList, c.isDigit = false := by decide
        rw [hall c hmem] at hc
        cases hc
  | bool b =>
      cases b with
      | true => exact .inr ⟨'t', _, rfl, by decide⟩
      | false => exact .inr ⟨'f', _, rfl, by decide⟩
  | string c => exact .inr ⟨'"', _, rfl, by decide⟩
  | name n => exact .inl ⟨n, t, rfl, ht⟩
  | constant n =>
      refine .inr ⟨n.first, n.rest ++ t, rfl, fun hmem => ?_⟩
      have hall : ∀ c ∈ "icdbw".toList, c.isUpper = false := by decide
      have hupper := n.upper
      rw [hall _ hmem] at hupper
      cases hupper
  | instVar n => exact .inr ⟨'@', _, rfl, by decide⟩
  | call n args => exact .inl ⟨n, '(' :: (args.text ++ t), by simp [Written.text], rfl⟩
  | send receiver calls => exact .inr ⟨'(', _, rfl, by decide⟩
  | binary left before op after right => exact .inr ⟨'(', _, rfl, by decide⟩

theorem Written.parse_statement (e : Written) {t : List Char} (ht : LineEnd t) :
    parse grammar (rule .statement) (e.text ++ t) = .ok (some (.expr e.expr)) t := by
  rw [parse_statement_of_expression, e.parse_expression ht.closes]
  · rfl
  · intro w hw r hr
    have hopeners : ∀ w ∈ openers, (∀ c ∈ w.toList, identRest c = true) ∧
        ∃ c cs, w.toList = c :: cs ∧ c ∈ "icdbw".toList := by
      intro w hw
      simp only [openers, List.mem_cons, List.not_mem_nil, or_false] at hw
      rcases hw with rfl | rfl | rfl | rfl | rfl <;> exact ⟨by decide, _, _, rfl, by decide⟩
    obtain ⟨hletters, c, cs, hfirst, hmem⟩ := hopeners w hw
    have hrest : t.head?.any identRest = false := any_or_left (ends_of_closes ht.closes).apart
    rcases e.front hrest with ⟨n, u, htext, hu⟩ | ⟨d, r', htext, hd⟩
    · rw [htext] at hr
      refine head_of_word hletters n.identifier.identRest hu hr ?_
      intro hname
      exact n.notOpener (String.toList_inj.mp hname ▸ hw)
    · rw [htext, hfirst, List.cons_append] at hr
      obtain ⟨rfl, -⟩ := List.cons.inj hr
      exact absurd hmem hd

section Keywords

variable {s t : List Char} {a : Stmt}

theorem parse_statement_if (h : parse grammar (rule .if_) s = .ok (some a) t) :
    parse grammar (rule .statement) s = .ok (some a) t := by
  rw [parse_rule]
  change parse grammar (rule .if_ <|> _) s = _
  rw [parse_orElse, h]
  rfl

theorem parse_statement_class
    (h : parse grammar (rule .classdef) ("class ".toList ++ s) = .ok (some a) t) :
    parse grammar (rule .statement) ("class ".toList ++ s) = .ok (some a) t := by
  have hif := begins_if (p := (· == 'i')) rfl ("class ".toList ++ s) rfl
  rw [parse_rule]
  change parse grammar (rule .if_ <|> rule .classdef <|> _) _ = _
  rw [parse_orElse, hif, Result.on_fail, parse_orElse, h]
  rfl

theorem parse_statement_method
    (h : parse grammar (rule .methoddef) ("def ".toList ++ s) = .ok (some a) t) :
    parse grammar (rule .statement) ("def ".toList ++ s) = .ok (some a) t := by
  have hsplit := parse_statement_def (' ' :: s)
  have htext : "def".toList ++ ' ' :: s = "def ".toList ++ s := rfl
  rw [htext, h] at hsplit
  exact hsplit

theorem parse_statement_begin
    (h : parse grammar (rule .begin_) ("begin\n".toList ++ s) = .ok (some a) t) :
    parse grammar (rule .statement) ("begin\n".toList ++ s) = .ok (some a) t := by
  have hif := begins_if (p := (· == 'i')) rfl ("begin\n".toList ++ s) rfl
  have hclass := begins_classdef (p := (· == 'c')) rfl ("begin\n".toList ++ s) rfl
  have hdef := begins_methoddef (p := (· == 'd')) rfl ("begin\n".toList ++ s) rfl
  rw [parse_rule]
  change parse grammar (rule .if_ <|> rule .classdef <|> rule .methoddef <|> rule .begin_ <|> _) _ = _
  rw [parse_orElse, hif, Result.on_fail, parse_orElse, hclass, Result.on_fail, parse_orElse, hdef,
    Result.on_fail, parse_orElse, h]
  rfl

theorem parse_statement_while
    (h : parse grammar (rule .while_) ("while ".toList ++ s) = .ok (some a) t) :
    parse grammar (rule .statement) ("while ".toList ++ s) = .ok (some a) t := by
  have hif := begins_if (p := (· == 'i')) rfl ("while ".toList ++ s) rfl
  have hclass := begins_classdef (p := (· == 'c')) rfl ("while ".toList ++ s) rfl
  have hdef := begins_methoddef (p := (· == 'd')) rfl ("while ".toList ++ s) rfl
  have hbegin := begins_begin (p := (· == 'b')) rfl ("while ".toList ++ s) rfl
  rw [parse_rule]
  change parse grammar (rule .if_ <|> rule .classdef <|> rule .methoddef <|> rule .begin_ <|>
    rule .while_ <|> _) _ = _
  rw [parse_orElse, hif, Result.on_fail, parse_orElse, hclass, Result.on_fail, parse_orElse, hdef,
    Result.on_fail, parse_orElse, hbegin, Result.on_fail, parse_orElse, h]
  rfl

end Keywords

/-! ### Lists of statements

The recursion over what is printed.  In each case the lemma of the rule is given the statements
inside, and the word that the statement closes with is what ends them.
-/

theorem Lead.breaks_line (l : Lead) {w : String} (hw : w ∈ ["end", "else", "rescue"])
    (t : List Char) : Breaks (l.line w t) := ⟨rfl, l.stops_line hw t⟩

theorem PrintedElse.breaks (e : PrintedElse) {t : List Char} (ht : Breaks t) :
    Breaks (e.print t) := by
  cases e with
  | none => exact ht
  | some lead statements => exact lead.breaks_line (by decide) _

theorem PrintedRescues.breaks (rs : PrintedRescues) {t : List Char} (ht : Breaks t) :
    Breaks (rs.print t) := by
  cases rs with
  | nil => exact ht
  | cons lead clause statements rest => exact lead.breaks_line (by decide) _

/-- No clause is left in front of the other parts. -/
theorem PrintedElse.parse_therescue (e : PrintedElse) (close : Lead) (t : List Char) :
    parse grammar (rule .therescue) (skipSpace false (e.print (close.line "end" t))) = .fail := by
  have hbegins : Begins grammar (· == 'r') (rule .therescue) := by
    refine .rule (.seq (.seq (.map (.seqRight ?_ _)) _) _)
    exact .lit (w := "rescue") rfl
  cases e with
  | none =>
      rw [PrintedElse.print, close.skipSpace_line (by decide)]
      exact hbegins _ rfl
  | some lead statements =>
      rw [PrintedElse.print, lead.skipSpace_line (by decide)]
      exact hbegins _ rfl

theorem parse_statements {s t u v : List Char} {a : Stmt} {as : List Stmt}
    (hu : skipSpace false u = s) (hs : parse grammar (rule .statement) s = .ok (some a) v)
    (hmore : parse grammar (star nextStatement) v = .ok (as.map some) t) :
    parse grammar (rule .statements) u = .ok (some (a :: as)) t := by
  obtain ⟨w, hw⟩ := parse_optSpace u
  rw [hu] at hw
  rw [parse_rule]
  change parse grammar ((fun s tail => (s :: tail).mapM id) <$> (optSpace *> rule .statement) <*>
    star nextStatement) u = _
  rw [parse_seq, parse_map, parse_seqRight, hw, Result.on_ok, hs, Result.map_ok, Result.on_ok,
    hmore, Result.map_ok, ← List.map_cons, mapM_id_map_some]

mutual

/-- **A statement is read as it is printed.** -/
theorem Printed.parse_statement : (s : Printed) → {t : List Char} → LineEnd t →
    parse grammar (rule .statement) (s.print t) = .ok (some s.stmt) t
  | .expr e, _, ht => e.parse_statement ht
  | .ifStmt cond ifbk elsebk close, t, _ => by
      have hclose := close.breaks_line (w := "end") (by decide) t
      exact parse_statement_if (parse_if cond
        (ifbk.readsAs (elsebk.breaks hclose).stops) (elsebk.breaks hclose)
        (elsebk.parse_else close t))
  | .whileStmt cond statements close, t, _ => by
      have hclose := close.breaks_line (w := "end") (by decide) t
      exact parse_statement_while (parse_while cond (statements.readsAs hclose.stops) hclose
        (close.skipSpace_line (by decide) t))
  | .beginStmt beginbk rescuebks elsebk close, t, _ => by
      have hclose := close.breaks_line (w := "end") (by decide) t
      have hrescues := rescuebks.breaks (elsebk.breaks hclose)
      exact parse_statement_begin (parse_begin (beginbk.readsAs hrescues.stops) hrescues
        (rescuebks.parse_rescues (elsebk.breaks hclose) (elsebk.parse_therescue close t))
        (elsebk.parse_else close t))
  | .classDef name extends_ body close, t, _ => by
      have hclose := close.breaks_line (w := "end") (by decide) t
      exact parse_statement_class (parse_classdef name extends_ (body.readsAs hclose.stops) hclose
        (close.skipSpace_line (by decide) t))
  | .emptyClass name extends_, t, _ =>
      parse_statement_class (parse_empty_classdef name extends_ t)
  | .methodDef name params body close, t, _ => by
      have hclose := close.breaks_line (w := "end") (by decide) t
      exact parse_statement_method (parse_methoddef name params (body.readsAs hclose.stops) hclose
        (close.skipSpace_line (by decide) t))
  | .emptyMethod name params, t, _ =>
      parse_statement_method (parse_empty_methoddef name params t)

theorem PrintedStatements.readsAs : (b : PrintedStatements) → {t : List Char} → Stops t →
    ReadsAs (b.print t) b.stmts t
  | .one lead s, t, ht => by
      intro u hu
      have hs := s.parse_statement ht.line
      have hnone : parse grammar (star nextStatement) t = .ok [] t := by
        rw [parse_star, ht.last]
        rfl
      refine parse_statements ?_ hs hnone
      rw [hu, PrintedStatements.print, lead.skipSpace_text,
        skipSpace_of_head (beginsSpace_of_ok begins_statement hs)]
  | .cons lead s rest, t, ht => by
      intro u hu
      have hs := s.parse_statement (t := '\n' :: rest.print t) rfl
      refine parse_statements ?_ hs (rest.parse_more ht)
      rw [hu, PrintedStatements.print, lead.skipSpace_text,
        skipSpace_of_head (beginsSpace_of_ok begins_statement hs)]

/-- The statements behind another one. -/
theorem PrintedStatements.parse_more : (b : PrintedStatements) → {t : List Char} → Stops t →
    parse grammar (star nextStatement) ('\n' :: b.print t) = .ok (b.stmts.map some) t
  | .one lead s, t, ht => by
      have hs := s.parse_statement ht.line
      have hskip : skipSpace false (lead.text ++ s.print t) = s.print t := by
        rw [lead.skipSpace_text, skipSpace_of_head (beginsSpace_of_ok begins_statement hs)]
      rw [PrintedStatements.print, parse_star, parse_nextStatement, hskip, hs, Result.on_ok,
        parse_star, ht.last]
      rfl
  | .cons lead s rest, t, ht => by
      have hs := s.parse_statement (t := '\n' :: rest.print t) rfl
      have hskip : skipSpace false (lead.text ++ s.print ('\n' :: rest.print t)) =
          s.print ('\n' :: rest.print t) := by
        rw [lead.skipSpace_text, skipSpace_of_head (beginsSpace_of_ok begins_statement hs)]
      rw [PrintedStatements.print, parse_star, parse_nextStatement, hskip, hs, Result.on_ok,
        rest.parse_more ht]
      rfl

theorem PrintedElse.parse_else : (e : PrintedElse) → (close : Lead) → (t : List Char) →
    parse grammar (opt (rule .theelse)) (skipSpace false (e.print (close.line "end" t))) =
      .ok (e.stmts.map some) ("end".toList ++ t)
  | .none, close, t => by
      have hnone : parse grammar (rule .theelse) ("end".toList ++ t) = .fail := by
        rw [parse_rule]
        rfl
      rw [PrintedElse.print, close.skipSpace_line (by decide), parse_opt, hnone]
      rfl
  | .some lead statements, close, t => by
      have hclose := close.breaks_line (w := "end") (by decide) t
      rw [PrintedElse.print, lead.skipSpace_line (by decide), parse_opt,
        parse_theelse (statements.readsAs hclose.stops) hclose, close.skipSpace_line (by decide)]
      rfl

theorem PrintedRescues.parse_rescues : (rs : PrintedRescues) → {t : List Char} → Breaks t →
    parse grammar (rule .therescue) (skipSpace false t) = .fail →
    parse grammar (star (rule .therescue)) (skipSpace false (rs.print t)) =
      .ok (rs.blocks.map some) (skipSpace false t)
  | .nil, t, _, hnone => by
      rw [PrintedRescues.print, parse_star, hnone]
      rfl
  | .cons lead clause statements rest, t, ht, hnone => by
      have hrest := rest.breaks ht
      rw [PrintedRescues.print, lead.skipSpace_line (by decide), parse_star,
        Parse.parse_therescue (statements.readsAs hrest.stops) hrest clause, Result.on_ok,
        rest.parse_rescues ht hnone]
      rfl

end

theorem Printed.parse_begin (beginbk : PrintedStatements) (rescuebks : PrintedRescues)
    (elsebk : PrintedElse) (close : Lead) (t : List Char) :
    parse grammar (rule .begin_) ((Printed.beginStmt beginbk rescuebks elsebk close).print t) =
      .ok (some (Printed.beginStmt beginbk rescuebks elsebk close).stmt) t := by
  have hclose := close.breaks_line (w := "end") (by decide) t
  have hrescues := rescuebks.breaks (elsebk.breaks hclose)
  exact Parse.parse_begin (beginbk.readsAs hrescues.stops) hrescues
    (rescuebks.parse_rescues (elsebk.breaks hclose) (elsebk.parse_therescue close t))
    (elsebk.parse_else close t)

/-! ### Programs -/

/-- A program, and what is left behind its last statement: nothing, or more lines. -/
structure Program where
  statements : PrintedStatements
  trail : Option Lead

def Program.text (p : Program) : List Char :=
  p.statements.print (match p.trail with
    | none => []
    | some lead => '\n' :: lead.text)

/-- **A program is read as the statements that it is printed from.** -/
theorem Program.parse_text (p : Program) :
    parse grammar (rule .unit) p.text = .ok (some p.statements.stmts) [] := by
  obtain ⟨statements, trail⟩ := p
  cases trail with
  | none =>
      have h := statements.readsAs stops_nil _ rfl
      rw [Program.text, parse_unit, h]
      rfl
  | some lead =>
      have hskip : skipSpace false lead.text = [] := by
        have h := lead.skipSpace_text []
        rwa [List.append_nil] at h
      have h := statements.readsAs (stops_blank hskip) _ rfl
      rw [Program.text, parse_unit, h, Result.on_ok, skipSpace_newline, if_pos hskip]

end Pup.Parse
