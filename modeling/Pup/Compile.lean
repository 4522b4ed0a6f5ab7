/-
`pup.rb`: from the text of a program to the code that is generated for it.

Which integers `LLVM.Int` takes is up to LLVM: of one that is too large for it, it raises a
`RangeError`.  So that is a parameter here, and a program has code if the generator has some for
all of it and no literal is refused.

What follows in `pup.rb`, the `main` of the executable and the file that the module is written
to, is not here.
-/
import Pup.Codegen.Missing
import Pup.Parse.Sums

namespace Pup

open Parse Peg
open Codegen (CodegenContext generate hasValue missing literals)

/-- What `pup.rb` stops with. -/
inductive CompileError
  | parse (e : ParseError)
  /-- while code is generated: of what there is no code for, or of a literal -/
  | codegen
  deriving DecidableEq, Repr

/-- `Pup::Parse.parse`, and then `codegen`, with what `LLVM.Int` takes. -/
def compileFile (accepts : Nat → Bool) (file : List Char) : Except CompileError CodegenContext :=
  match parseFile file with
  | .error e => .error (.parse e)
  | .ok stmts =>
      match generate stmts with
      | .error _ => .error .codegen
      | .ok g => if (literals stmts).all accepts then .ok g else .error .codegen

variable {accepts : Nat → Bool} {file : List Char} {g : CodegenContext} {stmts : List Stmt}

theorem compileFile_ok_iff : compileFile accepts file = .ok g ↔ ∃ stmts,
    parseFile file = .ok stmts ∧ generate stmts = .ok g ∧
      ∀ n ∈ literals stmts, accepts n = true := by
  constructor
  · intro h
    unfold compileFile at h
    split at h
    · cases h
    · next stmts hparse =>
        split at h
        · cases h
        · next g' hgenerate =>
            split at h
            · next hall =>
                obtain rfl := Except.ok.inj h
                exact ⟨stmts, hparse, hgenerate, List.all_eq_true.mp hall⟩
            · cases h
  · rintro ⟨stmts, hparse, hgenerate, hall⟩
    have hall := List.all_eq_true.mpr hall
    simp only [compileFile, hparse, hgenerate, hall, if_true]

end Pup
