/-
An expression inside brackets.

An expression that is a whole text is read as far if a bracket closes behind it, and with the
same tree (`parse_in_brackets`).  If a comma stands behind it there is one thing more that can
happen: where the expression ends in a call without parentheses, that call takes what is behind
the comma as arguments of its own, up to the bracket that closes (`parse_before_comma`).
-/
import Mathlib.Data.List.TakeWhile
import Pup.Parse.Pairs
import Pup.Parse.Balance

namespace Pup.Parse

open Peg
open Peg.Expression (opt star lit sat)

/-- The arguments behind the first one, without parentheses. -/
def argsTail : Exp (List (Option Expr)) :=
  star (optBlank *> lit "," *> optSpace *> rule .expression)

/-! ### What stands behind -/

/-- What an expression inside brackets ends in front of. -/
def endsInside (c : Char) : Bool := closing c || c == ','

theorem endsInside_cases {c : Char} (h : endsInside c = true) :
    c = ')' ∨ c = ']' ∨ c = '\x7d' ∨ c = ',' := by
  simpa [endsInside, closing, or_assoc] using h

/-- A list of arguments that goes on into `u` comes to a closing bracket at `v`. -/
structure Behind (u v : List Char) : Prop where
  ends : u.head?.any endsInside = true
  list : ∃ as, parse grammar argsTail u = .ok as v
  closed : v.head?.any closing = true

variable {u v : List Char}

theorem parse_argsTail_of_closing {c : Char} (hc : closing c = true) (r : List Char) :
    parse grammar argsTail (c :: r) = .ok [] (c :: r) := by
  have hends := endsInside_cases (c := c) (by simp [endsInside, hc])
  have hcomma : c ≠ ',' := by
    rintro rfl
    cases hc
  have hblank : (c :: r).head?.any isBlank = false := by
    rcases hends with rfl | rfl | rfl | rfl <;> rfl
  obtain ⟨w, hw⟩ := parse_optBlank (c :: r)
  rw [dropWhile_of_head hblank] at hw
  rw [argsTail, parse_star]
  simp [hw, parse_lit, dropWord, Ne.symm hcomma]

theorem behind_of_closing {c : Char} (hc : closing c = true) (r : List Char) :
    Behind (c :: r) (c :: r) :=
  ⟨by simp [endsInside, hc], ⟨[], parse_argsTail_of_closing hc r⟩, by simp [hc]⟩

theorem Behind.not_any {p : Char → Bool} (h : Behind u v)
    (hp : ∀ c, endsInside c = true → p c = false) : u.head?.any p = false := by
  cases u with
  | nil => rfl
  | cons c r => exact hp c (by simpa using h.ends)

theorem Behind.not_any_closed {p : Char → Bool} (h : Behind u v)
    (hp : ∀ c, endsInside c = true → p c = false) : v.head?.any p = false := by
  cases v with
  | nil => rfl
  | cons c r =>
      have hc : closing c = true := by simpa using h.closed
      exact hp c (by simp [endsInside, hc])

theorem isBlank_of_endsInside {c : Char} (h : endsInside c = true) : isBlank c = false := by
  rcases endsInside_cases h with rfl | rfl | rfl | rfl <;> rfl

/-! ### The pairing -/

/-- The second text has `u` behind the first one.  At the end of that a list of arguments may
have gone on up to `v`. -/
def Within (u v : List Char) (d : Nat) (s s' : List Char) : Prop :=
  (scan (.code, d) s = some (.code, 0) ∧ s' = s ++ u) ∨
    (d = 0 ∧ u.head? = some ',' ∧ s.all isBlank = true ∧ s' = v)

section Within

variable {d : Nat} {s s' r : List Char} {c : Char}

theorem Within.left (h : Within u v d (c :: r) s') (hc : isBlank c = false) :
    (scanStep (.code, d) c).bind (fun place => scan place r) = some (.code, 0) ∧
      s' = c :: (r ++ u) := by
  rcases h with ⟨hscan, rfl⟩ | ⟨-, -, hblank, -⟩
  · exact ⟨hscan, rfl⟩
  · simp [hc] at hblank

theorem Within.right (hu : Behind u v) (h : Within u v d s s') (hc : endsInside c = false) (r)
    (hs' : s' = c :: r) : ∃ r, s = c :: r := by
  subst hs'
  rcases h with ⟨-, hs⟩ | ⟨-, -, -, rfl⟩
  · cases s with
    | nil =>
        have hends := hu.ends
        rw [← List.nil_append u, ← hs] at hends
        simp [hc] at hends
    | cons e s =>
        obtain rfl : c = e := by simpa using (List.cons.inj hs).1
        exact ⟨s, rfl⟩
  · have hclosed := hu.closed
    simp only [List.head?_cons, Option.any_some] at hclosed
    simp [endsInside, hclosed] at hc

/-- Inside brackets of the text itself every character is in both texts. -/
theorem Within.right_of_open (h : Within u v (d + 1) s s') (r) (hs' : s' = c :: r) :
    ∃ r, s = c :: r := by
  subst hs'
  rcases h with ⟨hscan, hs⟩ | ⟨hd, -⟩
  · cases s with
    | nil =>
        rw [scan_nil] at hscan
        cases hscan
    | cons e s =>
        obtain rfl : c = e := by simpa using (List.cons.inj hs).1
        exact ⟨s, rfl⟩
  · cases hd

/-- Where a list has gone on, the texts are no longer one behind the other. -/
theorem not_exact_of_blanks (hu : Behind u v) (hcomma : u.head? = some ',')
    (hs : s.all isBlank = true) : v ≠ s ++ u := by
  intro hv
  have hclosed := hu.closed
  cases s with
  | nil =>
      rw [hv, List.nil_append, hcomma] at hclosed
      cases hclosed
  | cons c s =>
      simp only [hv, List.cons_append, List.head?_cons, Option.any_some] at hclosed
      have hblank : isBlank c = true := (by simpa using hs : _ ∧ _).1
      rw [isBlank_of_endsInside (by simp [endsInside, hclosed])] at hblank
      cases hblank

theorem dropWhile_append_of_head {p : Char → Bool} (hu : u.head?.any p = false) (s : List Char) :
    (s ++ u).dropWhile p = s.dropWhile p ++ u := by
  induction s with
  | nil => exact dropWhile_of_head hu
  | cons c s ih =>
      by_cases hc : p c = true
      · simp [hc, ih]
      · simp [hc]

theorem scan_dropWhile (d : Nat) (s : List Char) :
    scan (.code, d) (s.dropWhile isBlank) = scan (.code, d) s := by
  induction s with
  | nil => rfl
  | cons c s ih =>
      by_cases hc : isBlank c = true
      · rw [List.dropWhile_cons_of_pos hc, ih, scan,
          scanStep_plain (isPlain_of_isWhite (by simp [isWhite, hc]))]
        rfl
      · rw [List.dropWhile_cons_of_neg hc]

theorem dropWhile_of_all {s : List Char} (hs : s.all isBlank = true) :
    s.dropWhile isBlank = [] := List.dropWhile_eq_nil_iff.mpr (List.all_eq_true.mp hs)

theorem Within.blanks (hu : Behind u v) (h : Within u v d s s') :
    Within u v d (s.dropWhile isBlank) (s'.dropWhile isBlank) ∧
      (s'.dropWhile isBlank = s.dropWhile isBlank ++ u → s' = s ++ u) := by
  rcases h with ⟨hscan, rfl⟩ | ⟨hd, hcomma, hs, rfl⟩
  · rw [dropWhile_append_of_head (hu.not_any fun _ => isBlank_of_endsInside)]
    exact ⟨.inl ⟨by rw [scan_dropWhile, hscan], rfl⟩, fun _ => rfl⟩
  · rw [dropWhile_of_head (hu.not_any_closed fun _ => isBlank_of_endsInside), dropWhile_of_all hs]
    refine ⟨.inr ⟨hd, hcomma, rfl, rfl⟩, fun hv => ?_⟩
    exact absurd hv (not_exact_of_blanks hu hcomma rfl)

/-- A character that leads from one place in the code to another. -/
theorem Within.step {e : Nat} (h : Within u v d s s') (hblank : isBlank c = false)
    (hc : scanStep (.code, d) c = some (.code, e))
    (hright : ∀ r', s' = c :: r' → ∃ r, s = c :: r) :
    Step (fun s s' => s' = s ++ u) (Within u v e) c s s' := by
  refine ⟨?_, hright⟩
  rintro r rfl
  obtain ⟨hscan, rfl⟩ := h.left hblank
  rw [hc] at hscan
  exact ⟨r ++ u, rfl, .inl ⟨hscan, rfl⟩, fun _ => rfl⟩

end Within

/-! ### Strings and comments -/

theorem untilQuote_append {q : Char} {escaped : Bool} {s x t : List Char}
    (h : untilQuote q escaped s = some (x, t)) (u : List Char) :
    untilQuote q escaped (s ++ u) = some (x, t ++ u) := by
  induction s generalizing x escaped with
  | nil => cases h
  | cons c s ih =>
      rw [untilQuote] at h
      rw [List.cons_append, untilQuote]
      by_cases hesc : escaped = true
      · rw [if_pos hesc] at h ⊢
        obtain ⟨⟨x', t'⟩, hs, hx⟩ := Option.map_eq_some_iff.mp h
        cases hx
        rw [ih hs]
        rfl
      · rw [if_neg hesc] at h ⊢
        by_cases hc : c = q
        · rw [if_pos hc] at h ⊢
          cases h
          rfl
        · rw [if_neg hc] at h ⊢
          obtain ⟨⟨x', t'⟩, hs, hx⟩ := Option.map_eq_some_iff.mp h
          cases hx
          rw [ih hs]
          rfl

/-- A text that leads out of a string has its quote. -/
theorem untilQuote_of_scan {q : Char} {escaped : Bool} {d e : Nat} {s : List Char}
    (h : scan (.quoted q escaped, d) s = some (.code, e)) :
    ∃ x t, untilQuote q escaped s = some (x, t) := by
  induction s generalizing escaped with
  | nil => cases h
  | cons c s ih =>
      rw [untilQuote]
      rw [scan] at h
      cases escaped with
      | true =>
          obtain ⟨x, t, hs⟩ : ∃ x t, untilQuote q false s = some (x, t) := ih h
          exact ⟨c :: x, t, by simp [hs]⟩
      | false =>
          by_cases hc : c = q
          · exact ⟨[], s, by simp [hc]⟩
          · have hstep : scanStep (.quoted q false, d) c = some (.quoted q (c == '\\'), d) := by
              simp [scanStep, Lex.step, hc]
            rw [hstep] at h
            obtain ⟨x, t, hs⟩ := ih h
            exact ⟨c :: x, t, by simp [hc, hs]⟩

theorem scanStep_quote {q : Char} (hq : isQuote q = true) (d : Nat) :
    scanStep (.code, d) q = some (.quoted q false, d) := by
  have hcases : q = '"' ∨ q = '\x27' := by simpa [isQuote] using hq
  rcases hcases with rfl | rfl <;> rfl

theorem readString_of_not_isQuote {c : Char} (hc : isQuote c = false) (r : List Char) :
    readString (c :: r) = none := by
  simp only [isQuote, Bool.or_eq_false_iff, beq_eq_false_iff_ne] at hc
  rw [readString, if_neg hc.1, if_neg hc.2]

/-- A string is read out of the text in front. -/
theorem readString_append {s t : List Char} {a : Option Expr}
    (h : readString s = some (a, t)) (u : List Char) (d : Nat) :
    readString (s ++ u) = some (a, t ++ u) ∧ scan (.code, d) s = scan (.code, d) t := by
  cases s with
  | nil => cases h
  | cons c s =>
      have hscan : ∀ {x}, isQuote c = true → untilQuote c false s = some (x, t) →
          scan (.code, d) (c :: s) = scan (.code, d) t := by
        intro x hq hx
        obtain ⟨rfl, hfirm⟩ := firm_of_untilQuote hq hx
        have hsplit : c :: (x ++ c :: t) = (c :: (x ++ [c])) ++ t := by simp
        rw [hsplit, scan_append, hfirm]
        rfl
      rw [readString] at h
      rw [List.cons_append, readString]
      by_cases hd : c = '"'
      · rw [if_pos hd] at h ⊢
        obtain ⟨⟨x, t'⟩, hx, ha⟩ := Option.map_eq_some_iff.mp h
        cases ha
        rw [untilQuote_append hx]
        exact ⟨rfl, hscan (by simp [isQuote, hd]) hx⟩
      · rw [if_neg hd] at h ⊢
        by_cases hs : c = '\x27'
        · rw [if_pos hs] at h ⊢
          obtain ⟨⟨x, t'⟩, hx, ha⟩ := Option.map_eq_some_iff.mp h
          cases ha
          rw [untilQuote_append hx]
          exact ⟨rfl, hscan (by simp [isQuote, hs]) hx⟩
        · rw [if_neg hs] at h
          cases h

theorem readString_of_scan {c : Char} {r : List Char} {d e : Nat} (hc : isQuote c = true)
    (h : scan (.code, d) (c :: r) = some (.code, e)) : readString (c :: r) ≠ none := by
  rw [scan, scanStep_quote hc] at h
  obtain ⟨x, t, hx⟩ := untilQuote_of_scan h
  have hcases : c = '"' ∨ c = '\x27' := by simpa [isQuote] using hc
  rcases hcases with rfl | rfl <;> simp [readString, hx]

/-- A text that leads out of a comment has the end of its line. -/
theorem scan_of_comment {d e : Nat} {r : List Char}
    (h : scan (.comment, d) r = some (.code, e)) (u : List Char) :
    (r ++ u).dropWhile (· != '\n') = r.dropWhile (· != '\n') ++ u ∧
      scan (.code, d) (r.dropWhile (· != '\n')) = some (.code, e) := by
  induction r with
  | nil => cases h
  | cons c r ih =>
      by_cases hc : c = '\n'
      · subst hc
        exact ⟨rfl, h⟩
      · have hstep : scanStep (.comment, d) c = some (.comment, d) := by
          simp [scanStep, Lex.step, hc]
        rw [scan, hstep] at h
        have hne : (c != '\n') = true := by simpa using hc
        simpa [hne] using ih h

/-! ### The pairing keeps what it owes -/

theorem endsInside_of_isSimple {c : Char} (h : isSimple c = true) : endsInside c = false := by
  obtain ⟨hplain, -, hcomma⟩ := isSimple_iff.mp h
  simp [endsInside, (isPlain_iff.mp hplain).2.2.2, hcomma]

theorem isBlank_of_isSimple {c : Char} (h : isSimple c = true) : isBlank c = false := by
  have hwhite := (isSimple_iff.mp h).2.1
  simp only [isWhite, Bool.or_eq_false_iff] at hwhite
  exact hwhite.1

theorem isBlank_of_bracket {c : Char} (h : opening c = true ∨ closing c = true) :
    isBlank c = false := by
  have hcases : (c = '(' ∨ c = '[' ∨ c = '\x7b') ∨ (c = ')' ∨ c = ']' ∨ c = '\x7d') := by
    simpa [opening, closing, or_assoc] using h
  rcases hcases with (rfl | rfl | rfl) | (rfl | rfl | rfl) <;> rfl

theorem endsInside_of_opening {c : Char} (h : opening c = true) : endsInside c = false := by
  have hcases : c = '(' ∨ c = '[' ∨ c = '\x7b' := by simpa [opening, or_assoc] using h
  rcases hcases with rfl | rfl | rfl <;> rfl

theorem of_isEol {c : Char} (h : isEol c = true) : isBlank c = false ∧ endsInside c = false := by
  have hcases : c = '\n' ∨ c = '\r' := by simpa [isEol] using h
  rcases hcases with rfl | rfl <;> exact ⟨rfl, rfl⟩

theorem isQuote_of_endsInside {c : Char} (h : endsInside c = true) : isQuote c = false := by
  rcases endsInside_cases h with rfl | rfl | rfl | rfl <;> rfl

theorem readString_of_endsInside {s : List Char} (h : s.head?.any isQuote = false) :
    readString s = none := by
  cases s with
  | nil => rfl
  | cons c r => exact readString_of_not_isQuote (by simpa using h) r

theorem Within.comment {d : Nat} {s s' : List Char} (hu : Behind u v) (h : Within u v d s s') :
    Step (fun s s' => s' = s ++ u) (fun r r' =>
      Within u v d (r.dropWhile (· != '\n')) (r'.dropWhile (· != '\n')) ∧
        (r'.dropWhile (· != '\n') = r.dropWhile (· != '\n') ++ u → r' = r ++ u)) '#' s s' := by
  refine ⟨?_, h.right hu rfl⟩
  rintro r rfl
  obtain ⟨hscan, rfl⟩ := h.left rfl
  obtain ⟨hdrop, hscan'⟩ := scan_of_comment (d := d) (r := r) hscan u
  exact ⟨r ++ u, rfl, ⟨.inl ⟨hscan', hdrop⟩, fun _ => rfl⟩, fun _ => rfl⟩

theorem Within.noString {d : Nat} {s s' : List Char} (hu : Behind u v) (h : Within u v d s s')
    (hs : readString s = none) : readString s' = none := by
  rcases h with ⟨hscan, rfl⟩ | ⟨-, -, -, rfl⟩
  · cases s with
    | nil => exact readString_of_endsInside (hu.not_any fun _ => isQuote_of_endsInside)
    | cons c r =>
        refine readString_of_not_isQuote ?_ (r ++ u)
        by_contra hq
        exact readString_of_scan (by simpa using hq) hscan hs
  · exact readString_of_endsInside (hu.not_any_closed fun _ => isQuote_of_endsInside)

theorem Within.string {d : Nat} {s s' t : List Char} {a : Option Expr} (h : Within u v d s s')
    (hs : readString s = some (a, t)) :
    ∃ t', readString s' = some (a, t') ∧ Within u v d t t' ∧ (t' = t ++ u → s' = s ++ u) := by
  rcases h with ⟨hscan, rfl⟩ | ⟨-, -, hblank, -⟩
  · obtain ⟨hread, hplace⟩ := readString_append hs u d
    exact ⟨t ++ u, hread, .inl ⟨hplace ▸ hscan, rfl⟩, fun _ => rfl⟩
  · cases s with
    | nil => cases hs
    | cons c r =>
        have hc : isBlank c = true := (by simpa using hblank : _ ∧ _).1
        have hquote : isQuote c = false := by
          have hcases : c = ' ' ∨ c = '\t' := by simpa [isBlank] using hc
          rcases hcases with rfl | rfl <;> rfl
        rw [readString_of_not_isQuote hquote] at hs
        cases hs

/-- **A text, and the text with brackets behind it.** -/
def inside (hu : Behind u v) : Pairing where
  Exact s s' := s' = s ++ u
  Code := Within u v
  Start := Within u v
  Whole d := 0 < d
  whole_succ d := Nat.succ_pos d
  start_of_code h := h
  blanks h := h.blanks hu
  blank := by
    rintro d s s' hd (⟨hscan, rfl⟩ | ⟨rfl, -⟩)
    · cases s with
      | nil =>
          rw [scan_nil] at hscan
          cases hscan
          cases hd
      | cons c r => rfl
    · cases hd
  simple hc h := h.step (isBlank_of_isSimple hc) (scanStep_plain (isSimple_iff.mp hc).1 _)
    (h.right hu (endsInside_of_isSimple hc))
  eol hc h := h.step (of_isEol hc).1 (scanStep_plain (isPlain_of_isWhite (by simp [isWhite, hc])) _)
    (h.right hu (of_isEol hc).2)
  opening hc h := h.step (isBlank_of_bracket (.inl hc)) (scanStep_opening hc _)
    (h.right hu (endsInside_of_opening hc))
  closing hc h := h.step (isBlank_of_bracket (.inr hc)) (scanStep_closing hc _) h.right_of_open
  comma h := h.step rfl (scanStep_plain rfl _) h.right_of_open
  comment h := h.comment hu
  string h hs := h.string hs
  noString h hs := h.noString hu hs

/-! ### Lists of arguments -/

/-- One argument more. -/
def argsStep : Exp (Option Expr) := optBlank *> lit "," *> optSpace *> rule .expression

theorem parse_argsStep (s : List Char) : parse grammar argsStep s =
    (parse grammar (lit ",") (s.dropWhile isBlank)).on (fun _ t =>
      parse grammar (rule .expression) (skipSpace false t)) .fail := by
  obtain ⟨w, hw⟩ := parse_optBlank s
  rw [argsStep, parse_seqRight, parse_seqRight, parse_seqRight, hw, Result.on_ok]
  cases parse grammar (lit ",") (s.dropWhile isBlank) with
  | ok x t =>
      obtain ⟨w', hw'⟩ := parse_optSpace t
      rw [Result.on_ok, Result.on_ok, hw', Result.on_ok]
  | fail => rfl
  | diverges => rfl

/-- Where the text in front is at its end, a list goes on behind it. -/
theorem parse_argsTail_of_blanks (hu : Behind u v) (hcomma : u.head? = some ',') {s : List Char}
    (hs : s.all isBlank = true) : parse grammar argsStep s = .fail ∧
      ∃ as, parse grammar argsTail (s ++ u) = .ok as v := by
  have hblank := hu.not_any fun _ => isBlank_of_endsInside
  have hstep : parse grammar argsStep (s ++ u) = parse grammar argsStep u := by
    rw [parse_argsStep, parse_argsStep, dropWhile_append_of_head hblank, dropWhile_of_all hs,
      dropWhile_of_head hblank, List.nil_append]
  constructor
  · rw [parse_argsStep, dropWhile_of_all hs]
    simp [parse_lit, dropWord]
  · obtain ⟨as, has⟩ := hu.list
    refine ⟨as, ?_⟩
    change parse grammar (star argsStep) u = _ at has
    change parse grammar (star argsStep) (s ++ u) = _
    rw [parse_star] at has ⊢
    rw [hstep]
    cases hround : parse grammar argsStep u with
    | ok a t => rwa [hround] at has
    | fail =>
        rw [hround] at has
        cases has
        exact absurd rfl (not_exact_of_blanks hu hcomma (s := []) rfl)
    | diverges =>
        rw [hround] at has
        cases has

theorem follows_argsTail (hu : Behind u v) {bad : Rule → List Char → Prop} {n : Nat}
    (hexp : ∀ d, Follows grammar bad (inside hu).Exact n ((inside hu).Code d) Eq
      (rule .expression) ((inside hu).Code d)) (d : Nat) :
    Follows grammar bad (inside hu).Exact n ((inside hu).Code d) Eq argsTail
      ((inside hu).Code d) := by
  have hrest : Follows grammar bad (inside hu).Exact n ((inside hu).Code d) (fun _ _ => True)
      optSpace ((inside hu).Code d) := Pairing.follows_optSpace
  cases d with
  | succ d =>
      exact (((Pairing.follows_optBlank.seqRight Pairing.follows_comma).seqRight hrest).seqRight
        (hexp (d + 1))).star_eq
  | zero =>
      -- where a comma can come next, there is something left of the text in front
      have hblank : Follows grammar bad (inside hu).Exact n
          (fun s s' => Within u v 0 s s' ∧ ¬(u.head? = some ',' ∧ s' = s ++ u ∧
            s.all isBlank = true)) (fun _ _ => True) optBlank
          (fun s s' => Within u v 0 s s' ∧ ¬(u.head? = some ',' ∧ s' = s ++ u ∧ s = [])) := by
        refine Pairing.follows_white parse_optBlank fun {s s'} ⟨h, hmore⟩ => ?_
        obtain ⟨hcode, hback⟩ := h.blanks hu
        refine ⟨⟨hcode, fun ⟨hcomma, hexact, hnil⟩ => hmore ⟨hcomma, hback hexact, ?_⟩⟩, hback⟩
        exact List.all_eq_true.mpr (List.dropWhile_eq_nil_iff.mp hnil)
      have hcomma : Follows grammar bad (inside hu).Exact n
          (fun s s' => Within u v 0 s s' ∧ ¬(u.head? = some ',' ∧ s' = s ++ u ∧ s = [])) Eq
          (lit ",") ((inside hu).Code 0) := by
        refine Pairing.follows_char (c := ',') (by decide) fun {s s'} ⟨h, hmore⟩ => ?_
        refine h.step rfl (scanStep_plain rfl 0) fun r' hr' => ?_
        rcases h with ⟨-, rfl⟩ | ⟨-, -, -, rfl⟩
        · cases s with
          | nil => exact absurd ⟨by simp_all, rfl, rfl⟩ hmore
          | cons c r =>
              obtain rfl : c = ',' := by simpa using (List.cons.inj hr').1
              exact ⟨r, rfl⟩
        · have hclosed := hu.closed
          rw [hr'] at hclosed
          cases hclosed
      refine (((hblank.seqRight hcomma).seqRight hrest).seqRight (hexp 0)).star_until rfl
        (fun _ _ _ _ ha has => congrArg₂ _ ha has) (fun s s' hs => ?_) fun _ _ => id
      by_cases hend : u.head? = some ',' ∧ s' = s ++ u ∧ s.all isBlank = true
      · obtain ⟨hhead, rfl, hall⟩ := hend
        obtain ⟨hfail, as, has⟩ := parse_argsTail_of_blanks hu hhead hall
        exact .inr ⟨hfail, as, v, has, .inr ⟨rfl, hhead, hall, rfl⟩,
          not_exact_of_blanks hu hhead hall⟩
      · exact .inl ⟨hs, hend⟩

def insideParallel (hu : Behind u v) : Parallel where
  toPairing := inside hu
  bad _ _ := False
  tail := follows_argsTail hu
  classBody _ _ h := .inl h
  methodBody _ _ h := .inl h

/-! ### Expressions -/

theorem scan_of_expression {s : List Char} {a : Option Expr}
    (h : parse grammar (rule .expression) s = .ok a []) :
    scan (.code, 0) s = some (.code, 0) := by
  obtain ⟨x, rfl, hx, -⟩ := firm_of_parse rfl h
  simpa using hx 0

theorem parse_expression_inside (hu : Behind u v) {s : List Char} {a : Option Expr}
    (h : parse grammar (rule .expression) s = .ok a []) :
    ∃ a' t', parse grammar (rule .expression) (s ++ u) = .ok a' t' ∧ Within u v 0 [] t' ∧
      (t' = u → a = a') :=
  (insideParallel hu).parse_ok (r := .expression) (d := 0) rfl nofun
    (.inl ⟨scan_of_expression h, rfl⟩) (fun _ _ _ => id) h

/-- **In brackets an expression is what it is as a text.** -/
theorem parse_in_brackets {s : List Char} {a : Option Expr} {c : Char}
    (h : parse grammar (rule .expression) s = .ok a []) (hc : closing c = true) (r : List Char) :
    parse grammar (rule .expression) (s ++ c :: r) = .ok a (c :: r) := by
  obtain ⟨a', t', hparse, hwithin, hvalue⟩ := parse_expression_inside (behind_of_closing hc r) h
  rcases hwithin with ⟨-, rfl⟩ | ⟨-, hcomma, -⟩
  · rw [hparse, hvalue rfl]
    rfl
  · cases hcomma
    cases hc

/-- **In front of a comma an expression is what it is as a text, or takes what comes up to the
bracket.** -/
theorem parse_before_comma {s r v : List Char} {a : Option Expr}
    (h : parse grammar (rule .expression) s = .ok a []) (hu : Behind (',' :: r) v) :
    parse grammar (rule .expression) (s ++ ',' :: r) = .ok a (',' :: r) ∨
      ∃ b, parse grammar (rule .expression) (s ++ ',' :: r) = .ok b v := by
  obtain ⟨a', t', hparse, hwithin, hvalue⟩ := parse_expression_inside hu h
  rcases hwithin with ⟨-, rfl⟩ | ⟨-, -, -, rfl⟩
  · left
    rw [hparse, hvalue rfl]
    rfl
  · exact .inr ⟨a', hparse⟩

end Pup.Parse
