/-
A `begin` with an `ensure`.

The rule `begin` has a place for an `ensure` behind the other parts, but it never gets there
when the word is on a line of its own.  The part in front of it is a list of statements, and a
list takes everything that is a statement; `ensure` is an identifier, and only `end`, `else`
and `rescue` are barred from being one.  So the word is a call without arguments at the end of
that part, and the statements behind it follow it there (`begin_parsed_iff`).
-/
import Pup.Parse.Printed

namespace Pup.Parse

open Peg

/-! ### More statements -/

def PrintedStatements.append : PrintedStatements → PrintedStatements → PrintedStatements
  | .one lead s, more => .cons lead s more
  | .cons lead s rest, more => .cons lead s (rest.append more)

theorem PrintedStatements.append_stmts (ss more : PrintedStatements) :
    (ss.append more).stmts = ss.stmts ++ more.stmts := by
  match ss with
  | .one lead s => rfl
  | .cons lead s rest =>
      have ih := rest.append_stmts more
      rw [append, stmts, ih, stmts, List.cons_append]

theorem PrintedStatements.append_print (ss more : PrintedStatements) (t : List Char) :
    (ss.append more).print t = ss.print ('\n' :: more.print t) := by
  match ss with
  | .one lead s => rfl
  | .cons lead s rest =>
      have ih := rest.append_print more t
      rw [append, print, ih, print]

/-- The last clause goes on. -/
def PrintedRescues.append : PrintedRescues → PrintedStatements → PrintedRescues
  | .nil, _ => .nil
  | .cons lead clause statements .nil, more => .cons lead clause (statements.append more) .nil
  | .cons lead clause statements rest, more => .cons lead clause statements (rest.append more)

/-- The last of the clauses has more statements. -/
def extendLast : List RescueBlock → List Stmt → List RescueBlock
  | [], _ => []
  | [.mk types var_name statements], more => [.mk types var_name (statements ++ more)]
  | r :: r' :: rs, more => r :: extendLast (r' :: rs) more

theorem PrintedRescues.append_blocks (rs : PrintedRescues) (more : PrintedStatements) :
    (rs.append more).blocks = extendLast rs.blocks more.stmts := by
  match rs with
  | .nil => rfl
  | .cons lead clause statements .nil =>
      simp only [append, blocks, extendLast, PrintedStatements.append_stmts]
  | .cons lead clause statements (.cons lead' clause' statements' rest) =>
      have ih := (PrintedRescues.cons lead' clause' statements' rest).append_blocks more
      rw [append, blocks, ih]
      · rfl
      · nofun

theorem PrintedRescues.append_print (rs : PrintedRescues) (more : PrintedStatements)
    (t : List Char) (hrs : rs.blocks ≠ []) :
    (rs.append more).print t = rs.print ('\n' :: more.print t) := by
  match rs with
  | .nil => exact absurd rfl hrs
  | .cons lead clause statements .nil =>
      simp only [append, print, PrintedStatements.append_print]
  | .cons lead clause statements (.cons lead' clause' statements' rest) =>
      have ih := (PrintedRescues.cons lead' clause' statements' rest).append_print more t nofun
      rw [append, print, ih]
      · rfl
      · nofun

/-! ### The four parts -/

/-- The `ensure` part in front of a text. -/
def printEnsure : Option (Lead × PrintedStatements) → List Char → List Char
  | none, t => t
  | some (lead, statements), t => lead.line "ensure" ('\n' :: statements.print t)

/-- A `begin` whose parts are on lines of their own. -/
structure PrintedBegin where
  beginbk : PrintedStatements
  rescuebks : PrintedRescues
  elsebk : PrintedElse
  ensurebk : Option (Lead × PrintedStatements)
  close : Lead

namespace PrintedBegin

def print (b : PrintedBegin) (t : List Char) : List Char :=
  "begin\n".toList ++ b.beginbk.print (b.rescuebks.print (b.elsebk.print
    (printEnsure b.ensurebk (b.close.line "end" t))))

/-- What is written. -/
def stmt (b : PrintedBegin) : Stmt :=
  .beginStmt b.beginbk.stmts b.rescuebks.blocks b.elsebk.stmts
    (b.ensurebk.map fun e => e.2.stmts)

def ensureName : Name :=
  ⟨"ensure", ⟨'e', "nsure".toList, by decide, by decide, by decide⟩, by decide, by decide⟩

/-- The word as a statement, and what follows it. -/
def ensured (lead : Lead) (statements : PrintedStatements) : PrintedStatements :=
  .cons lead (.expr (.name ensureName)) statements

/-- What is read. -/
def read : PrintedBegin → Printed
  | ⟨beginbk, rescuebks, elsebk, none, close⟩ => .beginStmt beginbk rescuebks elsebk close
  | ⟨beginbk, rescuebks, .some lead statements, some (l, e), close⟩ =>
      .beginStmt beginbk rescuebks (.some lead (statements.append (ensured l e))) close
  | ⟨beginbk, .nil, .none, some (l, e), close⟩ =>
      .beginStmt (beginbk.append (ensured l e)) .nil .none close
  | ⟨beginbk, .cons lead clause statements rest, .none, some (l, e), close⟩ =>
      .beginStmt beginbk ((PrintedRescues.cons lead clause statements rest).append (ensured l e))
        .none close

/-- **What is read is printed like what is written.** -/
theorem read_print (b : PrintedBegin) (t : List Char) : b.read.print t = b.print t := by
  obtain ⟨beginbk, rescuebks, elsebk, _ | ⟨l, e⟩, close⟩ := b
  · rfl
  · cases elsebk with
    | some lead statements =>
        exact congrArg (fun u => "begin\n".toList ++ beginbk.print (rescuebks.print
          (lead.line "else" ('\n' :: u)))) (statements.append_print (ensured l e) _)
    | none =>
        cases rescuebks with
        | nil =>
            exact congrArg ("begin\n".toList ++ ·) (beginbk.append_print (ensured l e) _)
        | cons lead clause statements rest =>
            exact congrArg (fun u => "begin\n".toList ++ beginbk.print u)
              ((PrintedRescues.cons lead clause statements rest).append_print (ensured l e) _
                (List.cons_ne_nil _ _))

/-- The tree that is read: the word and the statements behind it go on with the last part that
is there. -/
def tree (b : PrintedBegin) : Stmt :=
  match b.ensurebk, b.elsebk.stmts, b.rescuebks.blocks with
  | none, elsebk, rescuebks => .beginStmt b.beginbk.stmts rescuebks elsebk none
  | some (_, e), some elsebk, rescuebks =>
      .beginStmt b.beginbk.stmts rescuebks (some (elsebk ++ .expr (named "ensure") :: e.stmts)) none
  | some (_, e), none, [] =>
      .beginStmt (b.beginbk.stmts ++ .expr (named "ensure") :: e.stmts) [] none none
  | some (_, e), none, rescuebks =>
      .beginStmt b.beginbk.stmts (extendLast rescuebks (.expr (named "ensure") :: e.stmts)) none
        none

theorem read_stmt (b : PrintedBegin) : b.read.stmt = b.tree := by
  obtain ⟨beginbk, rescuebks, elsebk, _ | ⟨l, e⟩, close⟩ := b
  · rfl
  · have hmore : (ensured l e).stmts = .expr (named "ensure") :: e.stmts := rfl
    cases elsebk with
    | some lead statements =>
        have hstmts := statements.append_stmts (ensured l e)
        rw [hmore] at hstmts
        exact congrArg (fun ss => Stmt.beginStmt beginbk.stmts rescuebks.blocks (some ss) none) hstmts
    | none =>
        cases rescuebks with
        | nil =>
            have hstmts := beginbk.append_stmts (ensured l e)
            rw [hmore] at hstmts
            exact congrArg (fun ss => Stmt.beginStmt ss [] none none) hstmts
        | cons lead clause statements rest =>
            have hblocks :=
              (PrintedRescues.cons lead clause statements rest).append_blocks (ensured l e)
            rw [hmore] at hblocks
            exact congrArg (fun rs => Stmt.beginStmt beginbk.stmts rs none none) hblocks

theorem parse_print (b : PrintedBegin) (t : List Char) :
    parse grammar (rule .begin_) (b.print t) = .ok (some b.tree) t := by
  obtain ⟨ss, rs, e, close, hread⟩ : ∃ ss rs e close, b.read = .beginStmt ss rs e close := by
    obtain ⟨beginbk, rescuebks, elsebk, _ | ⟨l, e⟩, close⟩ := b
    · exact ⟨_, _, _, _, rfl⟩
    · cases elsebk with
      | some lead statements => exact ⟨_, _, _, _, rfl⟩
      | none => cases rescuebks <;> exact ⟨_, _, _, _, rfl⟩
  rw [← b.read_print, ← b.read_stmt, hread]
  exact Printed.parse_begin ss rs e close t

/-- Nothing is read as an `ensure`. -/
theorem tree_ensurebk (b : PrintedBegin) : ∃ ss rs e, b.tree = .beginStmt ss rs e none := by
  unfold tree
  split <;> exact ⟨_, _, _, rfl⟩

end PrintedBegin

/--
**A `begin` is read as its four parts exactly if it has no `ensure`.**  With each keyword on a
line of its own and with parts of any statements, the rule reads all of it; the tree never has
an `ensurebk`, and the word `ensure` is a call at the end of the part in front of it, with the
statements behind it.
-/
theorem begin_parsed_iff (b : PrintedBegin) (t : List Char) :
    parse grammar (rule .begin_) (b.print t) = .ok (some b.tree) t ∧
      (b.tree = b.stmt ↔ b.ensurebk = none) := by
  refine ⟨b.parse_print t, ?_, ?_⟩
  · intro h
    obtain ⟨ss, rs, e, htree⟩ := b.tree_ensurebk
    rw [htree, PrintedBegin.stmt] at h
    injection h with _ _ _ hnone
    exact Option.map_eq_none_iff.mp hnone.symm
  · intro h
    rw [PrintedBegin.tree, PrintedBegin.stmt, h]
    rfl

end Pup.Parse
