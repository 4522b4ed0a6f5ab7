/-
The parser ends, and what `parser_driver.rb` makes of that.

No rule of the grammar calls itself before it has read anything: the binary expressions
descend from `logical` to `primary`, and whatever recurs from there has read a bracket, a word
or an operator.  The only rule that succeeds on nothing is `eof`.  So every text is parsed,
with fuel for the calls inside one another that its length allows, and `parseFile` is a
function that can be computed.
-/
import Pup.Lib.PegEnds
import Pup.Parse.Printed

namespace Pup.Parse

open Peg

/-- Rules are above those that they call before they have read anything. -/
def Rule.rank : Rule → Nat
  | .unit => 19
  | .statements => 18
  | .statement => 17
  | .args => 17
  | .unparenthesised_args => 16
  | .expression => 15
  | .assignment => 14
  | .conditional => 13
  | .logical => 12
  | .bitwise => 11
  | .equality => 10
  | .relational => 9
  | .additive => 8
  | .multitive => 7
  | .lookup => 6
  | .primary => 5
  | .invoke => 4
  | .named_value => 3
  | .left_hand_side => 3
  | .lhs_stem => 2
  | .param_list => 2
  | .quoted_string => 2
  | .space => 2
  | .space_eol => 2
  | .param => 1
  | _ => 0

/-- The grammar is not left recursive. -/
def grammarRanked : Ranked grammar where
  null r := r == .eof
  rank := Rule.rank
  bound := 20
  null_of_nullable r h := by
    cases r <;> first | rfl | exact absurd h (by decide)
  guarded r := by cases r <;> decide
  rank_lt r := by cases r <;> decide

/-- **The parser comes to an end on every text.** -/
theorem parse_grammar_ends (r : Rule) (text : List Char) :
    parse grammar (rule r) text ≠ .diverges := grammarRanked.parse_ends r text

/-! ### `Pup::Parse.parse` -/

/-- What is raised instead of a value. -/
inductive ParseError
  /-- the parser's `failure_reason` -/
  | failureReason
  /-- `NoMethodError`: a node has no method `value` -/
  | noMethod
  deriving DecidableEq, Repr

/-- `Pup::Parse.parse`. -/
def parseFile (file : List Char) : Except ParseError (List Stmt) :=
  match h : run grammar ((file.length + 1) * grammarRanked.bound) (rule .unit) file with
  | .ok (some stmts) _ => .ok stmts
  | .ok none _ => .error .noMethod
  | .fail => .error .failureReason
  | .diverges => absurd ((grammarRanked.parse_eq_run .unit file).trans h)
      (parse_grammar_ends .unit file)

/-- What is accepted is accepted to its end. -/
theorem rest_eq_nil {file rest : List Char} {v : Option (List Stmt)}
    (h : parse grammar (rule .unit) file = .ok v rest) : rest = [] := by
  rw [parse_unit] at h
  obtain ⟨v', t, -, h⟩ := Result.on_eq_ok h
  split at h
  · cases h
    rfl
  · cases h

theorem parseFile_eq (file : List Char) :
    (∃ v, parse grammar (rule .unit) file = .ok v [] ∧
        parseFile file = match v with
          | some stmts => .ok stmts
          | none => .error .noMethod) ∨
      parse grammar (rule .unit) file = .fail ∧ parseFile file = .error .failureReason := by
  have hrun := grammarRanked.parse_eq_run .unit file
  unfold parseFile
  split
  · next stmts rest h =>
      have hparse := hrun.trans h
      obtain rfl := rest_eq_nil hparse
      exact .inl ⟨some stmts, hparse, rfl⟩
  · next rest h =>
      have hparse := hrun.trans h
      obtain rfl := rest_eq_nil hparse
      exact .inl ⟨none, hparse, rfl⟩
  · next h => exact .inr ⟨hrun.trans h, rfl⟩
  · next h => exact absurd (hrun.trans h) (parse_grammar_ends .unit file)

/-- **`parse` returns the statements that the grammar gives the text, if it gives any, and
otherwise raises.** -/
theorem parseFile_ok_iff {file : List Char} {stmts : List Stmt} :
    parseFile file = .ok stmts ↔ parse grammar (rule .unit) file = .ok (some stmts) [] := by
  rcases parseFile_eq file with ⟨v, hparse, hfile⟩ | ⟨hparse, hfile⟩
  · rw [hparse, hfile]
    cases v <;> simp
  · rw [hparse, hfile]
    simp

/--
**Every text is read or refused.**  For every rule and every text the parser comes to an end,
within so many calls inside one another as are allowed for each character; and
`Pup::Parse.parse` returns the statements that the grammar gives the whole text, and raises
one of its two errors where the grammar refuses it or gives it no value.
-/
theorem every_text_decided :
    (∀ (r : Rule) (text : List Char), parse grammar (rule r) text ≠ .diverges ∧
      parse grammar (rule r) text = run grammar ((text.length + 1) * 20) (rule r) text) ∧
    ∀ file : List Char,
      (∀ stmts, parseFile file = .ok stmts ↔
        parse grammar (rule .unit) file = .ok (some stmts) []) ∧
      (parseFile file = .error .noMethod ↔ parse grammar (rule .unit) file = .ok none []) ∧
      (parseFile file = .error .failureReason ↔ parse grammar (rule .unit) file = .fail) := by
  refine ⟨fun r text => ⟨parse_grammar_ends r text, grammarRanked.parse_eq_run r text⟩,
    fun file => ⟨fun stmts => parseFile_ok_iff, ?_⟩⟩
  rcases parseFile_eq file with ⟨v, hparse, hfile⟩ | ⟨hparse, hfile⟩
  · rw [hparse, hfile]
    cases v <;> simp
  · rw [hparse, hfile]
    simp

/-! ### Printed programs -/

/-- What a program is printed as is read as the program. -/
theorem parseFile_text (p : Program) : parseFile p.text = .ok p.statements.stmts :=
  parseFile_ok_iff.mpr p.parse_text

/--
**A program is read as the statements that it is printed from**, to any depth, with any
indentation and with any lines that are blank or comments between them; so what is printed
alike is the same program.
-/
theorem printed_program_parsed (p : Program) :
    parseFile p.text = .ok p.statements.stmts ∧
      ∀ q : Program, q.text = p.text → q.statements.stmts = p.statements.stmts := by
  refine ⟨parseFile_ok_iff.mpr p.parse_text, fun q hq => ?_⟩
  have hboth := parseFile_text q
  rw [hq, parseFile_text p] at hboth
  exact (Except.ok.inj hboth).symm

end Pup.Parse
