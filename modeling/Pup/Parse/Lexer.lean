/-
Code, comments and strings.

Where a character of a text stands is decided by the characters before it alone: a comment
goes to the end of its line and a string to the quote that ends it, whatever rule reads it.
So the brackets of the code can be counted without a grammar (`scan`), and a piece of text
that a rule reads in full is firm: it begins and ends in the code, and closes the brackets
that it opens (`Firm`).
-/
import Pup.Parse.Tokens

namespace Pup.Parse

/-- What a character stands in. -/
inductive Lex
  | code
  | comment
  | quoted (quote : Char) (escaped : Bool)
  deriving DecidableEq, Repr

def isQuote (c : Char) : Bool := c == '"' || c == '\x27'

def Lex.step : Lex → Char → Lex
  | .code, c => if c = '#' then .comment else if isQuote c then .quoted c false else .code
  | .comment, c => if c = '\n' then .code else .comment
  | .quoted quote true, _ => .quoted quote false
  | .quoted quote false, c => if c = quote then .code else .quoted quote (c == '\\')

def opening (c : Char) : Bool := c == '(' || c == '[' || c == '\x7b'

def closing (c : Char) : Bool := c == ')' || c == ']' || c == '\x7d'

/-- A place in the code, with so many brackets open. -/
def scanStep (place : Lex × Nat) (c : Char) : Option (Lex × Nat) :=
  match place with
  | (.code, depth) =>
      if opening c then some (.code, depth + 1)
      else if closing c then
        match depth with
        | 0 => none
        | depth + 1 => some (.code, depth)
      else some (Lex.code.step c, depth)
  | (lex, depth) => some (lex.step c, depth)

/-- Where a text leads to, unless it closes a bracket that is not open. -/
def scan : Lex × Nat → List Char → Option (Lex × Nat)
  | place, [] => some place
  | place, c :: s => (scanStep place c).bind fun place => scan place s

@[simp] theorem scan_nil (place : Lex × Nat) : scan place [] = some place := rfl

theorem scan_append (place : Lex × Nat) (x y : List Char) :
    scan place (x ++ y) = (scan place x).bind fun place => scan place y := by
  induction x generalizing place with
  | nil => rfl
  | cons c x ih =>
      rw [List.cons_append, scan, scan]
      cases scanStep place c with
      | none => rfl
      | some place => exact ih place

/-! ### Single characters -/

/-- A character that leaves the code as it is. -/
def isPlain (c : Char) : Bool := !("#\"'()[]\x7b\x7d".toList.contains c)

theorem isPlain_iff {c : Char} :
    isPlain c = true ↔ c ≠ '#' ∧ isQuote c = false ∧ opening c = false ∧ closing c = false := by
  simp only [isPlain, isQuote, opening, closing]
  constructor
  · intro h
    simp_all
  · intro h
    simp_all

theorem scanStep_plain {c : Char} (hc : isPlain c = true) (depth : Nat) :
    scanStep (.code, depth) c = some (.code, depth) := by
  obtain ⟨hhash, hquote, hopen, hclose⟩ := isPlain_iff.mp hc
  simp [scanStep, Lex.step, hhash, hquote, hopen, hclose]

theorem isPlain_of_isWhite {c : Char} (hc : isWhite c = true) : isPlain c = true := by
  have hcases : c = ' ' ∨ c = '\t' ∨ c = '\n' ∨ c = '\r' := by
    simpa [isWhite, isBlank, isEol, or_assoc] using hc
  rcases hcases with rfl | rfl | rfl | rfl <;> decide

theorem isPlain_of_identRest {c : Char} (hc : identRest c = true) : isPlain c = true := by
  have hall : ∀ c ∈ "#\"'()[]\x7b\x7d".toList, identRest c = false := by decide
  by_contra hplain
  have hmem : c ∈ "#\"'()[]\x7b\x7d".toList := by
    refine List.contains_iff_mem.mp ?_
    simpa only [isPlain, Bool.not_eq_true, Bool.not_eq_false'] using hplain
  rw [hall c hmem] at hc
  cases hc

theorem scanStep_opening {c : Char} (hc : opening c = true) (depth : Nat) :
    scanStep (.code, depth) c = some (.code, depth + 1) := by
  simp [scanStep, hc]

theorem scanStep_closing {c : Char} (hc : closing c = true) (depth : Nat) :
    scanStep (.code, depth + 1) c = some (.code, depth) := by
  have hopen : opening c = false := by
    have hcases : c = ')' ∨ c = ']' ∨ c = '\x7d' := by simpa [closing, or_assoc] using hc
    rcases hcases with rfl | rfl | rfl <;> decide
  simp [scanStep, hopen, hc]

/-! ### Pieces that are firm -/

/-- From code to code, with every bracket closed that is opened. -/
def Firm (x : List Char) : Prop := ∀ depth, scan (.code, depth) x = some (.code, depth)

namespace Firm

theorem nil : Firm [] := fun _ => rfl

theorem append {x y : List Char} (hx : Firm x) (hy : Firm y) : Firm (x ++ y) := by
  intro depth
  rw [scan_append, hx depth]
  exact hy depth

theorem plain {x : List Char} (hx : ∀ c ∈ x, isPlain c = true) : Firm x := by
  intro depth
  induction x with
  | nil => rfl
  | cons c x ih =>
      rw [scan, scanStep_plain (hx c (by simp))]
      exact ih fun d hd => hx d (by simp [hd])

theorem bracket {o c : Char} {x : List Char} (ho : opening o = true) (hc : closing c = true)
    (hx : Firm x) : Firm (o :: (x ++ [c])) := by
  intro depth
  rw [scan, scanStep_opening ho, Option.bind_some, scan_append, hx, Option.bind_some, scan,
    scanStep_closing hc]
  rfl

theorem scan_comment {y : List Char} (hy : '\n' ∉ y) (depth : Nat) :
    scan (.comment, depth) y = some (.comment, depth) := by
  induction y with
  | nil => rfl
  | cons c y ih =>
      have hc : c ≠ '\n' := fun h => hy (by simp [h])
      simpa [scan, scanStep, Lex.step, hc] using ih fun h => hy (by simp [h])

theorem comment {y z : List Char} (hy : '\n' ∉ y) (hz : Firm z) :
    Firm ('#' :: (y ++ '\n' :: z)) := by
  intro depth
  have hstep : scanStep (.code, depth) '#' = some (.comment, depth) := rfl
  rw [scan, hstep, Option.bind_some, scan_append, scan_comment hy]
  exact hz depth

end Firm

/-- A string stands in the code as a whole. -/
theorem scan_untilQuote {q : Char} {s x t : List Char} {escaped : Bool} (depth : Nat)
    (h : untilQuote q escaped s = some (x, t)) :
    s = x ++ q :: t ∧ scan (.quoted q escaped, depth) (x ++ [q]) = some (.code, depth) := by
  induction s generalizing x escaped with
  | nil => cases h
  | cons c s ih =>
      rw [untilQuote] at h
      cases escaped with
      | true =>
          obtain ⟨⟨x', t'⟩, hs, hx⟩ := Option.map_eq_some_iff.mp h
          cases hx
          obtain ⟨rfl, hscan⟩ := ih hs
          exact ⟨rfl, hscan⟩
      | false =>
          by_cases hc : c = q
          · rw [if_neg (by simp), if_pos hc] at h
            cases h
            subst hc
            exact ⟨rfl, by simp [scan, scanStep, Lex.step]⟩
          · rw [if_neg (by simp), if_neg hc] at h
            obtain ⟨⟨x', t'⟩, hs, hx⟩ := Option.map_eq_some_iff.mp h
            cases hx
            obtain ⟨rfl, hscan⟩ := ih hs
            refine ⟨rfl, ?_⟩
            rw [List.cons_append, scan]
            simpa [scanStep, Lex.step, hc] using hscan

theorem firm_of_untilQuote {q : Char} {s x t : List Char} (hq : isQuote q = true)
    (h : untilQuote q false s = some (x, t)) : s = x ++ q :: t ∧ Firm (q :: (x ++ [q])) := by
  refine ⟨(scan_untilQuote 0 h).1, fun depth => ?_⟩
  have hstep : scanStep (.code, depth) q = some (.quoted q false, depth) := by
    have hcases : q = '"' ∨ q = '\x27' := by simpa [isQuote] using hq
    rcases hcases with rfl | rfl <;> rfl
  rw [scan, hstep]
  exact (scan_untilQuote depth h).2

/-- White space and comments lead back to the code, if they do not go to the end of the text. -/
theorem scan_skipSpace {b : Bool} {s : List Char} (depth : Nat) :
    ∃ x, s = x ++ skipSpace b s ∧ (skipSpace b s = [] ∨
      scan (if b then .comment else .code, depth) x = some (.code, depth)) := by
  induction s generalizing b with
  | nil => exact ⟨[], rfl, .inl rfl⟩
  | cons c s ih =>
      cases b with
      | true =>
          obtain ⟨x, hx, h⟩ := ih (b := c != '\n')
          refine ⟨c :: x, by rw [skipSpace, if_pos rfl, List.cons_append, ← hx], ?_⟩
          rw [skipSpace, if_pos rfl]
          refine h.imp_right fun h => ?_
          by_cases hc : c = '\n'
          · simpa [hc, scan, scanStep, Lex.step] using h
          · simpa [hc, scan, scanStep, Lex.step] using h
      | false =>
          by_cases hw : isWhite c = true
          · obtain ⟨x, hx, h⟩ := ih (b := false)
            refine ⟨c :: x, by simp [skipSpace, hw, ← hx], ?_⟩
            have hskip : skipSpace false (c :: s) = skipSpace false s := by simp [skipSpace, hw]
            rw [hskip]
            refine h.imp_right fun h => ?_
            simpa [scan, scanStep_plain (isPlain_of_isWhite hw)] using h
          · by_cases hhash : c = '#'
            · subst hhash
              obtain ⟨x, hx, h⟩ := ih (b := true)
              refine ⟨'#' :: x, by simp [skipSpace, hw, ← hx], ?_⟩
              have hskip : skipSpace false ('#' :: s) = skipSpace true s := by simp [skipSpace, hw]
              rw [hskip]
              refine h.imp_right fun h => ?_
              simpa [scan, scanStep, Lex.step, opening, closing] using h
            · exact ⟨[], by simp [skipSpace, hw, hhash], .inr rfl⟩

end Pup.Parse
