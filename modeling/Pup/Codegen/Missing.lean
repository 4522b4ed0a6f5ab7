/-
What the generator has no code for.

`missing` lists, for statements that are well formed, the places at which generating code
raises: an `if` without `else`, a `begin` without `rescue`, a class with a superclass or without a
body, and an operator without `codegen_binary`.  There is no other: of what else
`hasValue` asks for, a tree from the parser has it (`missing_eq_nil_iff`).

What `generate` does not look at are the integers that `LLVM.Int` is given for the literals
(`literals`): which of them it takes is up to LLVM.
-/
import Pup.Codegen.Accepted
import Pup.Parse.WellFormed

namespace Pup.Codegen

open Parse

/-- A place that there is no code for. -/
inductive Missing
  /-- an `if` without an `else` -/
  | elsebk
  /-- a `begin` without a `rescue` -/
  | rescuebks
  | superclass (class_ : String)
  /-- a class without a body -/
  | body (class_ : String)
  | operator (class_ : BinaryClass) (op : String)
  deriving DecidableEq, Repr

mutual

def missingExpr : Expr → List Missing
  | .assign _ _ right => missingExpr right
  | .varOrInvoke _ args _ receiver => missingReceiver receiver ++ missingArgs args
  | .binary class_ left op right =>
      missingExpr left ++ (missingExpr right ++
        if (operatorMethod class_ op).isSome then [] else [.operator class_ op])
  | .instVar _ => []
  | .string _ => []
  | .int _ => []
  | .bool _ => []
  | .selfExpr => []

def missingReceiver : Option Expr → List Missing
  | some receiver => missingExpr receiver
  | none => []

def missingArgs : Option (List Expr) → List Missing
  | some args => missingExprs args
  | none => []

def missingExprs : List Expr → List Missing
  | [] => []
  | e :: es => missingExpr e ++ missingExprs es

end

mutual

def missingStmt : Stmt → List Missing
  | .expr e => missingExpr e
  | .ifStmt cond ifbk elsebk => missingExpr cond ++ (missing ifbk ++ missingElse elsebk)
  | .whileStmt cond statements => missingExpr cond ++ missing statements
  | .beginStmt _ [] _ _ => [.rescuebks]
  | .beginStmt beginbk (rescuebk :: rescuebks) _ _ =>
      missing beginbk ++ missingRescues (rescuebk :: rescuebks)
  | .classDef name (some _) _ => [.superclass name]
  | .classDef name none body => missingBody name body
  | .methodDef _ _ body => missingMethodBody body

def missing : List Stmt → List Missing
  | [] => []
  | s :: ss => missingStmt s ++ missing ss

def missingElse : Option (List Stmt) → List Missing
  | none => [.elsebk]
  | some elsebk => missing elsebk

def missingBody (name : String) : Option (List Stmt) → List Missing
  | none => [.body name]
  | some body => missing body

def missingMethodBody : Option (List Stmt) → List Missing
  | none => []
  | some body => missing body

def missingRescues : List RescueBlock → List Missing
  | [] => []
  | .mk types _ statements :: rescuebks =>
      missingExprs (types.getD []) ++ (missing statements ++ missingRescues rescuebks)

end

/-! ### Literals -/

mutual

/-- The integers of the literals that there is code for, as they come up in the code. -/
def literalsExpr : Expr → List Nat
  | .assign _ _ right => literalsExpr right
  | .varOrInvoke _ args _ receiver => literalsReceiver receiver ++ literalsArgs args
  | .binary _ left _ right => literalsExpr left ++ literalsExpr right
  | .instVar _ => []
  | .string _ => []
  | .int source => [toI source]
  | .bool _ => []
  | .selfExpr => []

def literalsReceiver : Option Expr → List Nat
  | some receiver => literalsExpr receiver
  | none => []

def literalsArgs : Option (List Expr) → List Nat
  | some args => literalsExprs args
  | none => []

def literalsExprs : List Expr → List Nat
  | [] => []
  | e :: es => literalsExpr e ++ literalsExprs es

end

mutual

def literalsStmt : Stmt → List Nat
  | .expr e => literalsExpr e
  | .ifStmt cond ifbk elsebk => literalsExpr cond ++ (literals ifbk ++ literalsElse elsebk)
  | .whileStmt cond statements => literalsExpr cond ++ literals statements
  -- no code is generated for the other two parts
  | .beginStmt beginbk rescuebks _ _ => literals beginbk ++ literalsRescues rescuebks
  | .classDef _ _ body => literalsBody body
  | .methodDef _ _ body => literalsBody body

def literals : List Stmt → List Nat
  | [] => []
  | s :: ss => literalsStmt s ++ literals ss

def literalsElse : Option (List Stmt) → List Nat
  | none => []
  | some elsebk => literals elsebk

def literalsBody : Option (List Stmt) → List Nat
  | none => []
  | some body => literals body

def literalsRescues : List RescueBlock → List Nat
  | [] => []
  | .mk types _ statements :: rescuebks =>
      literalsExprs (types.getD []) ++ (literals statements ++ literalsRescues rescuebks)

end

/-! ### Nothing is missing -/

mutual

theorem missingExpr_eq_nil_iff : (e : Expr) → (missingExpr e = [] ↔ hasCodeExpr e = true)
  | .assign left op right => missingExpr_eq_nil_iff right
  | .varOrInvoke name args block receiver => by
      rw [missingExpr, hasCodeExpr, List.append_eq_nil_iff, Bool.and_eq_true_iff,
        missingReceiver_eq_nil_iff receiver, missingArgs_eq_nil_iff args]
  | .binary class_ left op right => by
      rw [missingExpr, hasCodeExpr, List.append_eq_nil_iff, List.append_eq_nil_iff,
        Bool.and_eq_true_iff, Bool.and_eq_true_iff, missingExpr_eq_nil_iff left,
        missingExpr_eq_nil_iff right]
      cases (operatorMethod class_ op).isSome <;> simp
  | .instVar name => by simp [missingExpr, hasCodeExpr]
  | .string source => by simp [missingExpr, hasCodeExpr]
  | .int source => by simp [missingExpr, hasCodeExpr]
  | .bool val => by simp [missingExpr, hasCodeExpr]
  | .selfExpr => by simp [missingExpr, hasCodeExpr]

theorem missingReceiver_eq_nil_iff :
    (receiver : Option Expr) → (missingReceiver receiver = [] ↔ hasCodeReceiver receiver = true)
  | some receiver => missingExpr_eq_nil_iff receiver
  | none => by simp [missingReceiver, hasCodeReceiver]

theorem missingArgs_eq_nil_iff :
    (args : Option (List Expr)) → (missingArgs args = [] ↔ hasCodeArgs args = true)
  | some args => missingExprs_eq_nil_iff args
  | none => by simp [missingArgs, hasCodeArgs]

theorem missingExprs_eq_nil_iff :
    (es : List Expr) → (missingExprs es = [] ↔ hasCodeExprs es = true)
  | [] => by simp [missingExprs, hasCodeExprs]
  | e :: es => by
      rw [missingExprs, hasCodeExprs, List.append_eq_nil_iff, Bool.and_eq_true_iff,
        missingExpr_eq_nil_iff e, missingExprs_eq_nil_iff es]

end

/-- The types of a clause, or the one that stands for none. -/
theorem missingTypes_eq_nil_iff (types : Option (List Expr)) :
    missingExprs (types.getD []) = [] ↔ hasCodeExprs (types.getD defaultTypes) = true := by
  cases types with
  | none => decide
  | some types => exact missingExprs_eq_nil_iff types

mutual

theorem missingStmt_eq_nil_iff : (s : Stmt) → s.Formed → (missingStmt s = [] ↔ hasCodeStmt s = true)
  | .expr e, _ => missingExpr_eq_nil_iff e
  | .ifStmt cond ifbk elsebk, .ifStmt _ hif helse => by
      rw [missingStmt, hasCodeStmt, List.append_eq_nil_iff, List.append_eq_nil_iff,
        Bool.and_eq_true_iff, Bool.and_eq_true_iff, missingExpr_eq_nil_iff cond,
        missing_eq_nil_iff ifbk hif, missingElse_eq_nil_iff elsebk helse]
  | .whileStmt cond statements, .whileStmt _ hstatements => by
      rw [missingStmt, hasCodeStmt, List.append_eq_nil_iff, Bool.and_eq_true_iff,
        missingExpr_eq_nil_iff cond, missing_eq_nil_iff statements hstatements]
  | .beginStmt _ [] _ _, _ => by simp [missingStmt, hasCodeStmt]
  | .beginStmt beginbk (rescuebk :: rescuebks) _ _, .beginStmt hbegin hrescue _ _ => by
      rw [missingStmt, hasCodeStmt, List.append_eq_nil_iff, Bool.and_eq_true_iff,
        missing_eq_nil_iff beginbk hbegin, missingRescues_eq_nil_iff (rescuebk :: rescuebks) hrescue]
  | .classDef name (some _) body, _ => by simp [missingStmt, hasCodeStmt]
  | .classDef name none body, .classDef _ _ hbody => missingBody_eq_nil_iff name body hbody
  | .methodDef name params body, .methodDef _ _ hbody => missingMethodBody_eq_nil_iff body hbody

theorem missingList_eq_nil_iff : (ss : List Stmt) → (∀ s ∈ ss, s.Formed) →
    (missing ss = [] ↔ hasCodeStmts ss = true)
  | [], _ => by simp [missing, hasCodeStmts]
  | s :: ss, h => by
      rw [missing, hasCodeStmts, List.append_eq_nil_iff, Bool.and_eq_true_iff,
        missingStmt_eq_nil_iff s (h s List.mem_cons_self),
        missingList_eq_nil_iff ss fun s' hs' => h s' (List.mem_cons_of_mem s hs')]

/-- **Well-formed statements have a value exactly if nothing is missing.** -/
theorem missing_eq_nil_iff : (ss : List Stmt) → Statements ss →
    (missing ss = [] ↔ hasValue ss = true)
  | s :: ss, .mk h => by
      rw [missing, hasValue, List.append_eq_nil_iff, Bool.and_eq_true_iff,
        missingStmt_eq_nil_iff s (h s List.mem_cons_self),
        missingList_eq_nil_iff ss fun s' hs' => h s' (List.mem_cons_of_mem s hs')]

theorem missingElse_eq_nil_iff : (elsebk : Option (List Stmt)) → (∀ ss ∈ elsebk, Statements ss) →
    (missingElse elsebk = [] ↔ hasCodeElse elsebk = true)
  | none, _ => by simp [missingElse, hasCodeElse]
  | some elsebk, h => missing_eq_nil_iff elsebk (h elsebk rfl)

theorem missingBody_eq_nil_iff (name : String) : (body : Option (List Stmt)) →
    (∀ ss ∈ body, Statements ss) → (missingBody name body = [] ↔ hasCodeBody body = true)
  | none, _ => by simp [missingBody, hasCodeBody]
  | some body, h => by
      have hbody : ∀ s ∈ body, s.Formed := by
        cases h body rfl with
        | mk hall => exact hall
      exact missingList_eq_nil_iff body hbody

theorem missingMethodBody_eq_nil_iff : (body : Option (List Stmt)) →
    (∀ ss ∈ body, Statements ss) → (missingMethodBody body = [] ↔ hasCodeMethodBody body = true)
  | none, _ => by simp [missingMethodBody, hasCodeMethodBody]
  | some body, h => missing_eq_nil_iff body (h body rfl)

theorem missingRescues_eq_nil_iff : (bs : List RescueBlock) → (∀ b ∈ bs, b.Formed) →
    (missingRescues bs = [] ↔ hasCodeRescues bs = true)
  | [], _ => by simp [missingRescues, hasCodeRescues]
  | .mk types name statements :: bs, h => by
      have hstatements : Statements statements := by
        cases h _ List.mem_cons_self with
        | mk _ _ _ hstatements => exact hstatements
      rw [missingRescues, hasCodeRescues, List.append_eq_nil_iff, List.append_eq_nil_iff,
        Bool.and_eq_true_iff, Bool.and_eq_true_iff, missingTypes_eq_nil_iff types,
        missing_eq_nil_iff statements hstatements,
        missingRescues_eq_nil_iff bs fun b hb => h b (List.mem_cons_of_mem _ hb)]

end

end Pup.Codegen
